import Xv6.Dir.Extend

/-!
# A directory is a finite map

`dirlookup`, `dirlink` and the clearing of an entry by `sys_unlink` are the
look-up, the insertion and the erasure of a table of slots with distinct names.
-/

namespace Xv6

open Lib

instance : (c : Call) → Decidable c.NoWrap
  | .readi _ _ _ | .writei _ _ _ _ => inferInstanceAs (Decidable (_ < _))
  | .itrunc _ | .evict _ => inferInstanceAs (Decidable True)

theorem Store.Step.file_of_ne {f g : Store} {c : Call} {r : Return} (h : f.Step c r g) {i : ℕ}
    (hi : c.target ≠ some i) : g.file i = f.file i := by
  cases h with
  | readi _ _ _ _ _ | refused _ _ _ _ _ => rfl
  | writei _ _ _ _ _ _ _ _ _ _ hfile | itrunc _ _ hfile =>
    rw [hfile]
    exact Function.update_of_ne (fun heq => hi (congrArg some heq.symm)) _ _
  | evict _ _ hfile => rw [hfile]

/-- A write that returns how much it has written has written that much. -/
theorem Store.Step.file_of_writei {f g : Store} {i off n tot : ℕ} {src : ℕ → UInt8} {r : Return}
    (h : f.Step (.writei i src off n) r g) (hr : r.value = tot) :
    g.file = Function.update f.file i (overwrite (f.file i) off ((List.range tot).map src)) := by
  cases h with
  | refused _ _ _ _ _ =>
    have hval : (-1 : ℤ) = tot := hr
    omega
  | writei _ _ _ _ tot' _ _ _ _ _ hfile =>
    have hval : (tot' : ℤ) = tot := hr
    obtain rfl : tot' = tot := by omega
    exact hfile

namespace Fs

variable {sb : Superblock} {s t u : Fs} {j k inum : ℕ} {name : Bytes} {msg : Panic}

/-- Entry `k` of the table is a loaded directory of a consistent file system, and
its live entries have distinct names. -/
structure IsDir (sb : Superblock) (s : Fs) (k : ℕ) : Prop where
  inv : Inv sb s
  loaded : s.Loaded k
  type : (s.itable k).type = T_DIR
  size : 16 ∣ (s.itable k).size
  distinct : SlotMap.Distinct (s.entries k)

theorem IsDir.locked (h : IsDir sb s k) : Locked sb s k := h.inv.locked h.loaded.1 h.loaded.2

theorem IsDir.size_le (h : IsDir sb s k) : (s.itable k).size ≤ MAXFILE * BSIZE := by
  have hle := h.locked.sound.size_le h.locked.inum_lt (by rw [inodes_inum]; exact h.locked.type_ne)
  rwa [inodes_inum] at hle

/-- The table has no entry for inode `inum` and no free one. -/
def NoEntry (s : Fs) (inum : ℕ) : Prop :=
  ∀ l < NINODE, 0 < (s.itable l).ref ∧ (s.itable l).inum ≠ inum

/-- There is no free slot and the file cannot grow. -/
def NoRoom (sb : Superblock) (s : Fs) (k : ℕ) : Prop :=
  SlotMap.place (s.entries k) = (s.entries k).length ∧
    (MAXFILE * BSIZE < (s.itable k).size + 16 ∨
      freeBlocks sb s < s.missing k ((s.itable k).size / BSIZE))

/-! ### Looking up -/

theorem iget_eq_error (h : s.iget inum = .error msg) :
    msg = "iget: no inodes" ∧ s.NoEntry inum := by
  unfold iget at h
  split at h
  next => cases h
  next hfind =>
    split at h
    next => cases h
    next hempty =>
      cases h
      refine ⟨rfl, fun l hl => ?_⟩
      have hnone := List.find?_eq_none.mp hfind l (List.mem_range.mpr hl)
      have hfull := List.find?_eq_none.mp hempty l (List.mem_range.mpr hl)
      simp only [decide_eq_true_eq] at hnone hfull
      have hpos := Nat.pos_of_ne_zero hfull
      exact ⟨hpos, fun heq => hnone ⟨hpos, heq⟩⟩

theorem iget_eq_ok {l : ℕ} (h : s.iget inum = .ok (l, t)) : t.buf = s.buf ∧
    (t.itable l).inum = inum ∧ ∀ k, 0 < (s.itable k).ref →
      (t.itable k).toDinode = (s.itable k).toDinode := by
  rcases iget_cases s inum with herr | ⟨l', hl, hinum, hok⟩ | ⟨l', hlt, hl, -, hok⟩
  · rw [herr] at h
    cases h
  · rw [hok] at h
    obtain ⟨rfl, rfl⟩ := Prod.mk.inj (Except.ok.inj h)
    refine ⟨rfl, by simpa using hinum, fun k hk => ?_⟩
    by_cases hkl : k = l'
    · subst hkl
      simp
    · simp [hkl]
  · rw [hok] at h
    obtain ⟨rfl, rfl⟩ := Prod.mk.inj (Except.ok.inj h)
    refine ⟨rfl, by simp, fun k hk => ?_⟩
    have hkl : k ≠ l' := by
      rintro rfl
      omega
    simp [hkl]

inductive Looks (s : Fs) (k : ℕ) (name : Bytes) : Except Panic (Option (ℕ × ℕ) × Fs) → Prop
  | found {inum i l : ℕ} {t : Fs} (hb : SlotMap.Binds (s.entries k) (cstring DIRSIZ name) inum i)
      (hget : s.iget inum = .ok (l, t)) (hl : (t.itable l).inum = inum) :
      Looks s k name (.ok (some (l, 16 * i), t))
  | absent (hn : ¬ SlotMap.Bound (s.entries k) (cstring DIRSIZ name)) :
      Looks s k name (.ok (none, s))
  | full {inum i : ℕ} (hb : SlotMap.Binds (s.entries k) (cstring DIRSIZ name) inum i)
      (hfull : s.NoEntry inum) : Looks s k name (.error "iget: no inodes")

theorem IsDir.dirlookup (h : IsDir sb s k) (name : Bytes) :
    Looks s k name (s.dirlookup sb k name) := by
  obtain ⟨found, hloop, hfound⟩ := dirlookupLoop_spec h.locked h.size name (n := 0)
    (Nat.lt_succ_self ((s.itable k).size / 16))
  unfold Fs.dirlookup
  rw [if_neg (by simp [h.type])]
  rw [Nat.mul_zero] at hloop
  simp only [hloop, bind, Except.bind]
  cases found with
  | none => exact .absent fun ⟨v, i, hb⟩ => hfound v i (Nat.zero_le i) hb
  | some x =>
    obtain ⟨inum, off⟩ := x
    obtain ⟨i, rfl, hb⟩ := hfound
    cases hget : s.iget inum with
    | error msg =>
      obtain ⟨rfl, hfull⟩ := iget_eq_error hget
      simp only [hget]
      exact .full hb hfull
    | ok r =>
      simp only [hget]
      exact .found hb hget (iget_eq_ok hget).2.1

/-! ### Writing an entry -/

/-- Bytes that are written at a slot, if there is a block for them. -/
structure Puts (sb : Superblock) (s : Fs) (k j : ℕ) (x : Option (DirName × ℕ)) (t : Fs) : Prop where
  inv : Inv sb t
  loaded : t.Loaded k
  type : (t.itable k).type = (s.itable k).type
  size : (t.itable k).size = max (s.itable k).size (16 * j + 16)
  entries : t.entries k = SlotMap.put (s.entries k) j x

/-- A failed write may have allocated an indirect block, but nothing else. -/
structure Fails (sb : Superblock) (s : Fs) (k : ℕ) (t : Fs) : Prop where
  inv : Inv sb t
  loaded : t.Loaded k
  type : (t.itable k).type = (s.itable k).type
  size : (t.itable k).size = (s.itable k).size
  entries : t.entries k = s.entries k

theorem Inv.contents_writei (h : Inv sb s) (hk : s.Loaded k) (byte : ℕ → UInt8) {off n tot : ℕ}
    (hn : off + n < 2 ^ 32) (hok : s.writei sb k ⟨byte, n⟩ off n = .ok (↑tot, t)) :
    Inv sb t ∧ t.Loaded k ∧ (t.itable k).contents t.buf =
      overwrite ((s.itable k).contents s.buf) off ((List.range tot).map byte) := by
  obtain ⟨r, t', hcall, hinv, hsame, hstep, -⟩ := h.call_writei hk byte hn
  have hres : s.call sb (.writei k byte off n) = .ok (⟨tot, []⟩, t) := by
    rw [Fs.call, hok]
    rfl
  rw [hres] at hcall
  obtain ⟨hr, rfl⟩ := Prod.mk.inj (Except.ok.inj hcall)
  have hloaded := hsame.loaded hk
  refine ⟨hinv, hloaded, ?_⟩
  rw [← hinv.store_file hloaded, ← h.store_file hk, (hsame k).1,
    hstep.file_of_writei (congrArg Return.value hr).symm, Function.update_self]

theorem IsDir.writei (h : IsDir sb s k) (byte : ℕ → UInt8) (hj : j ≤ (s.entries k).length)
    (hmax : 16 * j + 16 ≤ MAXFILE * BSIZE) :
    (freeBlocks sb s < s.missing k (16 * j / BSIZE) ∧
      ∃ t, s.writei sb k ⟨byte, 16⟩ (16 * j) 16 = .ok (0, t) ∧ Fails sb s k t) ∨
      (¬ freeBlocks sb s < s.missing k (16 * j / BSIZE) ∧
        ∃ t, s.writei sb k ⟨byte, 16⟩ (16 * j) 16 = .ok (16, t) ∧
          Puts sb s k j (Dirent.ofBytes ((List.range 16).map byte)).slot t) := by
  have hsize := h.size
  rw [length_entries] at hj
  have hoff : 16 * j ≤ (s.itable k).size := by omega
  obtain ⟨tot, top, t, hok, hw, -, -⟩ := writei_of_valid ⟨byte, 16⟩ h.locked hoff hmax
  obtain ⟨addrs, hself⟩ := hw.self
  obtain ⟨hinv, hloaded, hcontents⟩ := h.inv.contents_writei h.loaded byte
    (hmax.trans_lt (by decide)) hok
  have htype : (t.itable k).type = (s.itable k).type := by rw [hself]
  have htsize : (t.itable k).size = max (s.itable k).size (16 * j + tot) := by rw [hself]
  obtain ⟨t', hval⟩ := writei_entry h.locked byte hoff hmax
  rw [hval] at hok
  obtain ⟨htot, rfl⟩ := Prod.mk.inj (Except.ok.inj hok)
  split_ifs at htot with hno
  · obtain rfl : tot = 0 := by omega
    refine .inl ⟨hno, t', by rw [hval, if_pos hno], hinv, hloaded, htype, ?_, ?_⟩
    · rw [htsize]
      omega
    · rw [entries, hcontents, entries]
      simp [overwrite]
  · obtain rfl : tot = 16 := by omega
    refine .inr ⟨hno, t', by rw [hval, if_neg hno], hinv, hloaded, htype, htsize, ?_⟩
    rw [entries, hcontents]
    exact slotsOf_overwrite (by simpa using hsize) (by simpa using hj) (by simp)

theorem IsDir.of_fails (h : IsDir sb s k) (ht : Fails sb s k t) : IsDir sb t k where
  inv := ht.inv
  loaded := ht.loaded
  type := ht.type.trans h.type
  size := ht.size ▸ h.size
  distinct := ht.entries ▸ h.distinct

theorem IsDir.of_puts {x : Option (DirName × ℕ)} (h : IsDir sb s k) (ht : Puts sb s k j x t)
    (hd : SlotMap.Distinct (SlotMap.put (s.entries k) j x)) : IsDir sb t k where
  inv := ht.inv
  loaded := ht.loaded
  type := ht.type.trans h.type
  size := by
    have hsize := h.size
    rw [ht.size]
    omega
  distinct := ht.entries ▸ hd

theorem IsDir.writei_of_lt (h : IsDir sb s k) (byte : ℕ → UInt8) (hj : j < (s.entries k).length) :
    ∃ t, s.writei sb k ⟨byte, 16⟩ (16 * j) 16 = .ok (16, t) ∧
      Puts sb s k j (Dirent.ofBytes ((List.range 16).map byte)).slot t := by
  have hlt := hj
  rw [length_entries] at hlt
  have hmapped := h.locked.missing_eq_zero (j := 16 * j) (by omega)
  have hmax := h.size_le
  rcases h.writei byte hj.le (by have := h.size; omega) with ⟨hno, -⟩ | ⟨-, ht⟩
  · exact absurd hno hmapped
  · exact ht

/-! ### Linking -/

inductive Links (sb : Superblock) (s : Fs) (k : ℕ) (name : Bytes) (inum : ℕ) :
    Except Panic (ℤ × Fs) → Prop
  | done {t : Fs} (hn : ¬ SlotMap.Bound (s.entries k) (cstring DIRSIZ name)) (hr : ¬ NoRoom sb s k)
      (ht : t.entries k = SlotMap.insert (s.entries k) (cstring DIRSIZ name) inum)
      (hdir : IsDir sb t k) : Links sb s k name inum (.ok (0, t))
  | failed {t : Fs} (hr : SlotMap.Bound (s.entries k) (cstring DIRSIZ name) ∨ NoRoom sb s k)
      (ht : t.entries k = s.entries k) (hsize : (t.itable k).size = (s.itable k).size)
      (hdir : IsDir sb t k) : Links sb s k name inum (.ok (-1, t))
  | full {v i : ℕ} (hb : SlotMap.Binds (s.entries k) (cstring DIRSIZ name) v i)
      (hfull : s.NoEntry v) : Links sb s k name inum (.error "iget: no inodes")

theorem IsDir.dirlink (h : IsDir sb s k) (name : Bytes) (h1 : 1 ≤ inum) (h2 : inum ≤ 65535) :
    Links sb s k name inum (s.dirlink sb k name inum) := by
  have hlook := h.dirlookup name
  unfold Fs.dirlink
  cases hres : s.dirlookup sb k name with
  | error msg =>
    rw [hres] at hlook
    cases hlook with
    | full hb hfull => exact .full hb hfull
  | ok r =>
    rw [hres] at hlook
    cases hlook with
    | @found v i l t hb hget hl =>
      obtain ⟨u, hput, hinv⟩ := h.inv.iput_iget hget
      obtain ⟨u', hput', ⟨hbuf, -⟩, htable⟩ := iput_of_iget sb hget
      obtain rfl : u = u' := Except.ok.inj (hput.symm.trans hput')
      have hk := (htable k).2 h.loaded.1
      have hentries : u.entries k = s.entries k := entries_congr hbuf (by rw [hk])
      simp only [bind, Except.bind, hput]
      refine .failed (.inl ⟨v, i, hb⟩) hentries (by rw [hk]) ⟨hinv, ?_, ?_, ?_, ?_⟩
      · unfold Loaded Held
        rw [hk]
        exact h.loaded
      · rw [hk, h.type]
      · rw [hk]
        exact h.size
      · rw [hentries]
        exact h.distinct
    | absent hn =>
      have hloop := dirlinkLoop_spec h.locked h.size (n := 0)
        (Nat.lt_succ_self ((s.itable k).size / 16)) (Nat.zero_le _) nofun
      rw [Nat.mul_zero] at hloop
      simp only [bind, Except.bind, hloop]
      set p := SlotMap.place (s.entries k) with hp
      set byte := (⟨inum, strncpy name⟩ : Dirent).toBytes
      have hple : p ≤ (s.entries k).length := SlotMap.place_le _
      have hlen := length_entries s k
      have hsize := h.size
      have hle := h.size_le
      have hend : p = (s.entries k).length → 16 * p = (s.itable k).size := by
        rw [hlen]
        omega
      rcases Nat.lt_or_ge (MAXFILE * BSIZE) (16 * p + 16) with hmax | hmax
      · have hpl : p = (s.entries k).length := by
          rw [hlen] at hple ⊢
          omega
        have h32 : 16 * p + 16 < 2 ^ 32 := by
          have hM : MAXFILE * BSIZE < 2 ^ 31 := by decide
          have := hend hpl
          omega
        rw [writei_of_invalid (.inr hmax) h32]
        exact .failed (.inr ⟨hpl, .inl (hend hpl ▸ hmax)⟩) rfl rfl h
      · rcases h.writei byte hple hmax with ⟨hno, t, hw, ht⟩ | ⟨hno, t, hw, ht⟩
        · rw [hw]
          have hpl : p = (s.entries k).length := by
            by_contra hne
            rw [hlen] at hple hne
            exact h.locked.missing_eq_zero (j := 16 * p) (by omega) hno
          exact .failed (.inr ⟨hpl, .inr (hend hpl ▸ hno)⟩) ht.entries ht.size (h.of_fails ht)
        · rw [hw]
          rw [slot_of_toBytes h1 h2] at ht
          refine .done hn (fun hr => ?_) ht.entries (h.of_puts ht (h.distinct.insert hn))
          rcases hr.2 with hr' | hr'
          · rw [← hend hr.1] at hr'
            omega
          · rw [← hend hr.1] at hr'
            exact hno hr'

/-! ### Sequences of calls -/

/-- What happens to a directory, and to the files around it. -/
inductive DirOp
  | link (name : Bytes) (inum : ℕ)
  /-- `sys_unlink` writes zeros over a live entry -/
  | clear (i : ℕ)
  /-- some other file is read, written or truncated, or a buffer is recycled -/
  | other (c : Call)

def dirStep (sb : Superblock) (k : ℕ) (s : Fs) : DirOp → Option Fs
  | .link name inum =>
    if 1 ≤ inum ∧ inum ≤ 65535 then (s.dirlink sb k name inum).toOption.map Prod.snd else none
  | .clear i =>
    if ((s.entries k)[i]?.join).isSome then
      match s.writei sb k ⟨fun _ => 0, 16⟩ (16 * i) 16 with
      | .ok (r, t) => if r = 16 then some t else none
      | .error _ => none
    else none
  | .other c =>
    if (∀ l ∈ c.target, l ≠ k ∧ s.Loaded l) ∧ c.NoWrap then (s.call sb c).toOption.map Prod.snd
    else none

theorem IsDir.clear (h : IsDir sb s k) {a : DirName} {v i : ℕ}
    (hb : SlotMap.Binds (s.entries k) a v i) :
    ∃ t, s.writei sb k ⟨fun _ => 0, 16⟩ (16 * i) 16 = .ok (16, t) ∧ IsDir sb t k ∧
      t.entries k = SlotMap.put (s.entries k) i none := by
  obtain ⟨t, hw, ht⟩ := h.writei_of_lt (fun _ => 0) hb.lt
  have hzero : (List.range 16).map (fun _ => (0 : UInt8)) = List.replicate 16 0 := by decide
  rw [hzero, slot_of_zero] at ht
  exact ⟨t, hw, h.of_puts ht (h.distinct.erase hb.lt), ht.entries⟩

/-- A call on one file leaves the table entries of the others alone, and their bytes logged. -/
theorem Inv.spares_of_call {c : Call} {r : Return} (h : Inv sb s)
    (hc : ∀ l ∈ c.target, l ≠ k ∧ s.Loaded l) (hw : c.NoWrap) (hok : s.call sb c = .ok (r, t)) :
    t.itable k = s.itable k ∧ ∀ i < sb.ninodes, (s.dinode sb i).type ≠ 0 → s.Saved sb i →
      t.Saved sb i := by
  cases c with
  | readi l off n =>
    obtain ⟨-, hl⟩ := hc l rfl
    obtain ⟨out, hread, -⟩ := readi_full (h.locked hl.1 hl.2) hw
    rw [Fs.call, hread] at hok
    obtain ⟨-, rfl⟩ := Prod.mk.inj (Except.ok.inj hok)
    exact ⟨rfl, fun _ _ _ => id⟩
  | writei l src off n =>
    obtain ⟨hk, hl⟩ := hc l rfl
    have hn : off + n < 2 ^ 32 := hw
    obtain ⟨x, hx, hxt⟩ := exists_of_map_eq_ok hok
    obtain ⟨-, rfl⟩ := Prod.mk.inj hxt
    refine ⟨?_, fun i hi ht hsaved => h.saved_writei hi ht hsaved hl (by omega : off < 2 ^ 32)
      (by omega : n < 2 ^ 32) (fun _ => le_rfl) hx⟩
    by_cases hout : (s.itable l).size < off ∨ MAXFILE * BSIZE < off + n
    · rw [writei_of_invalid hout hn] at hx
      obtain rfl := Except.ok.inj hx
      rfl
    · rw [not_or, Nat.not_lt, Nat.not_lt] at hout
      obtain ⟨tot, top, u, hu, hwrites, -, -⟩ :=
        writei_of_valid ⟨src, n⟩ (h.locked hl.1 hl.2) hout.1 hout.2
      obtain rfl := Except.ok.inj (hu.symm.trans hx)
      exact hwrites.table k hk.symm
  | itrunc l =>
    obtain ⟨hk, hl⟩ := hc l rfl
    obtain ⟨u, hu, htr⟩ := itrunc_spec (h.locked hl.1 hl.2)
    rw [Fs.call, hu] at hok
    obtain ⟨-, rfl⟩ := Prod.mk.inj (Except.ok.inj hok)
    exact ⟨htr.table k hk.symm, fun i hi ht hsaved => h.saved_itrunc hi ht hsaved htr⟩
  | evict b =>
    obtain ⟨-, rfl⟩ := Prod.mk.inj (Except.ok.inj hok)
    exact ⟨rfl, fun i hi ht hsaved => h.saved_evict hi ht hsaved⟩

theorem IsDir.evict (h : IsDir sb s k) (hsaved : s.Saved sb (s.itable k).inum) (b : ℕ) :
    IsDir sb (s.evict b) k := by
  obtain ⟨ht, hcopy⟩ := h.inv.loaded k h.loaded.1 h.loaded.2
  have hentries : (s.evict b).entries k = s.entries k := by
    have hcontents := h.inv.contents_evict (b := b) (h.inv.inum_lt k h.loaded.1) (hcopy ▸ ht) hsaved
    rw [← hcopy] at hcontents
    exact congrArg slotsOf hcontents
  exact ⟨h.inv.evict b, h.loaded, h.type, h.size, hentries ▸ h.distinct⟩

theorem IsDir.other {c : Call} {r : Return} (h : IsDir sb s k)
    (hc : ∀ l ∈ c.target, l ≠ k ∧ s.Loaded l) (hw : c.NoWrap)
    (hevict : (∃ b, c = .evict b) → s.Saved sb (s.itable k).inum)
    (hok : s.call sb c = .ok (r, t)) : IsDir sb t k := by
  by_cases hb : ∃ b, c = .evict b
  · obtain ⟨b, rfl⟩ := hb
    obtain ⟨-, rfl⟩ := Prod.mk.inj (Except.ok.inj hok)
    exact h.evict (hevict ⟨b, rfl⟩) b
  obtain ⟨r', t', hok', hinv, hsame, hstep, -⟩ :=
    h.inv.call (fun l hl => (hc l hl).2) hw fun hb' => absurd hb' hb
  obtain ⟨rfl, rfl⟩ := Prod.mk.inj (Except.ok.inj (hok.symm.trans hok'))
  obtain ⟨htable, -⟩ := h.inv.spares_of_call hc hw hok
  have hloaded := hsame.loaded h.loaded
  have hinum : (c.rename fun l => (s.itable l).inum).target ≠ some (s.itable k).inum := by
    have hne : ∀ l ∈ c.target, some (s.itable l).inum ≠ some (s.itable k).inum := by
      intro l hl heq
      obtain ⟨hlk, hload⟩ := hc l hl
      exact hlk (h.inv.unique _ _ hload.1 h.loaded.1 (Option.some.inj heq))
    cases c with
    | readi l | writei l | itrunc l => exact hne l rfl
    | evict b => exact absurd ⟨b, rfl⟩ hb
  have hentries : t.entries k = s.entries k := by
    rw [entries, entries, ← hinv.store_file hloaded, ← h.inv.store_file h.loaded, htable]
    congr 1
    exact hstep.file_of_ne hinum
  refine ⟨hinv, hloaded, by rw [htable, h.type], ?_, ?_⟩
  · rw [htable]
    exact h.size
  · rw [hentries]
    exact h.distinct

theorem IsDir.step {op : DirOp} (h : IsDir sb s k)
    (hevict : (∃ b, op = .other (.evict b)) → s.Saved sb (s.itable k).inum)
    (hstep : dirStep sb k s op = some t) : IsDir sb t k ∧
      (s.Saved sb (s.itable k).inum → t.Saved sb (t.itable k).inum) := by
  obtain ⟨ht, hcopy⟩ := h.inv.loaded k h.loaded.1 h.loaded.2
  have hi := h.inv.inum_lt k h.loaded.1
  rw [hcopy] at ht
  cases op with
  | link name inum =>
    simp only [dirStep] at hstep
    split_ifs at hstep with hnum
    have hlink := h.dirlink name hnum.1 hnum.2
    cases hres : s.dirlink sb k name inum with
    | error msg => simp [hres, Except.toOption] at hstep
    | ok r =>
      rw [hres] at hlink hstep
      obtain rfl : r.2 = t := by simpa [Except.toOption] using hstep
      have hinum := h.inv.inum_of_dirlink h.loaded hres
      refine ⟨?_, fun hsaved => hinum ▸ h.inv.saved_dirlink hi ht hsaved h.loaded hres⟩
      cases hlink with
      | done _ _ _ hdir => exact hdir
      | failed _ _ _ hdir => exact hdir
  | clear i =>
    simp only [dirStep] at hstep
    split_ifs at hstep with hlive
    obtain ⟨x, hx⟩ := Option.isSome_iff_exists.mp hlive
    have hb : SlotMap.Binds (s.entries k) x.1 x.2 i := Option.join_eq_some_iff.mp hx
    obtain ⟨u, hu, hdir, -⟩ := h.clear hb
    rw [hu] at hstep
    obtain rfl : u = t := by simpa using hstep
    have hoff : 16 * i < 2 ^ 32 := by
      have hlt := hb.lt
      have hle : _ ≤ 268 * 1024 := h.size_le
      rw [length_entries] at hlt
      omega
    refine ⟨hdir, fun hsaved => ?_⟩
    rw [h.inv.inum_of_writei h.loaded hoff (by decide : 16 < 2 ^ 32) hu]
    exact h.inv.saved_writei hi ht hsaved h.loaded hoff (by decide) (fun _ => le_rfl) hu
  | other c =>
    simp only [dirStep] at hstep
    split_ifs at hstep with hc
    cases hres : s.call sb c with
    | error msg => simp [hres, Except.toOption] at hstep
    | ok r =>
      rw [hres] at hstep
      obtain rfl : r.2 = t := by simpa [Except.toOption] using hstep
      obtain ⟨htable, hsaves⟩ := h.inv.spares_of_call hc.1 hc.2 hres
      exact ⟨h.other hc.1 hc.2 (fun ⟨b, hb⟩ => hevict ⟨b, by rw [hb]⟩) hres,
        fun hsaved => htable ▸ hsaves _ hi ht hsaved⟩

/-- What the callers of the directory functions rely on. -/
structure IsMap (sb : Superblock) (s : Fs) (k : ℕ) : Prop where
  distinct : SlotMap.Distinct (s.entries k)
  lookup : ∀ name, Looks s k name (s.dirlookup sb k name)
  link : ∀ name inum, 1 ≤ inum → inum ≤ 65535 →
    Links sb s k name inum (s.dirlink sb k name inum)
  /-- a successful `dirlink` adds one binding and changes no other -/
  linked : ∀ name inum t, 1 ≤ inum → inum ≤ 65535 → s.dirlink sb k name inum = .ok (0, t) →
    ∀ a v i, SlotMap.Binds (t.entries k) a v i ↔
      (a = cstring DIRSIZ name ∧ v = inum ∧ i = SlotMap.place (s.entries k)) ∨
        SlotMap.Binds (s.entries k) a v i
  /-- clearing an entry takes away its binding and no other one -/
  cleared : ∀ a v i, SlotMap.Binds (s.entries k) a v i →
    ∃ t, s.writei sb k ⟨fun _ => 0, 16⟩ (16 * i) 16 = .ok (16, t) ∧
      ∀ b w j, SlotMap.Binds (t.entries k) b w j ↔ j ≠ i ∧ SlotMap.Binds (s.entries k) b w j

theorem IsDir.run {ops : List DirOp} (h : IsDir sb s k)
    (hevict : (∃ b, .other (.evict b) ∈ ops) → s.Saved sb (s.itable k).inum)
    (hrun : Run (dirStep sb k) s ops t) : IsDir sb t k := by
  refine (hrun.invariant
    (I := fun ops u => ((∃ b, .other (.evict b) ∈ ops) → s.Saved sb (s.itable k).inum) →
      IsDir sb u k ∧ (s.Saved sb (s.itable k).inum → u.Saved sb (u.itable k).inum))
    (fun _ => ⟨h, id⟩) (fun ops u op v ih hstep hevict => ?_) hevict).1
  obtain ⟨hu, hsaved⟩ := ih fun ⟨b, hb⟩ => hevict ⟨b, List.mem_append_left _ hb⟩
  obtain ⟨hv, hsaved'⟩ := hu.step (fun ⟨b, hb⟩ =>
    hsaved (hevict ⟨b, hb ▸ List.mem_append_right _ List.mem_cons_self⟩)) hstep
  exact ⟨hv, fun h0 => hsaved' (hsaved h0)⟩

/-- A directory whose live entries have distinct names is a finite map, and
stays one through every sequence of calls.  Buffers may be recycled between the calls if
the entries were logged to begin with. -/
theorem directory_isMap {ops : List DirOp} (h : IsDir sb s k)
    (hevict : (∃ b, .other (.evict b) ∈ ops) → s.Saved sb (s.itable k).inum)
    (hrun : Run (dirStep sb k) s ops t) : IsMap sb t k := by
  have ht := h.run hevict hrun
  refine ⟨ht.distinct, ht.dirlookup, fun name inum => ht.dirlink name,
    fun name inum u h1 h2 hok a v i => ?_, fun a v i hb => ?_⟩
  · have hlink := ht.dirlink name h1 h2
    rw [hok] at hlink
    cases hlink with
    | done _ _ hu _ =>
      rw [hu]
      exact SlotMap.binds_insert
  · obtain ⟨u, hw, -, hu⟩ := ht.clear hb
    refine ⟨u, hw, fun b w j => ?_⟩
    rw [hu]
    exact SlotMap.binds_erase hb.lt

/-- Two names that agree on their first 14 bytes are one name; the slot of a
removed entry is used again, after the buffer of the entries has been recycled. -/
def longNames : List DirOp :=
  [.link (fun i => if i < 20 then 97 else 0) 2, .link (fun i => if i = 0 then 98 else 0) 3,
    .link (fun i => if i < 15 then 97 else 0) 4, .clear 0, .other (.evict 47),
    .link (fun i => if i = 0 then 99 else 0) 5]

theorem directory_isMap_longNames : ∃ s t,
    Run (step mkfsSuper) formatted [.ialloc T_DIR, .ilock 0] s ∧
      Run (dirStep mkfsSuper 0) s longNames t ∧
        t.entries 0 = [some ([99], 5), some ([98], 3)] ∧ IsMap mkfsSuper t 0 := by
  obtain ⟨s, hrun, hs⟩ := Run.exists_of_any
    (P := fun s => s.Loaded 0 ∧ (s.itable 0).type = T_DIR ∧ (s.itable 0).size = 0 ∧
      (longNames.foldlM (dirStep mkfsSuper 0) s).any
        fun t => t.entries 0 = [some ([99], 5), some ([98], 3)])
    (by decide +kernel :
      ([Op.ialloc T_DIR, .ilock 0].foldlM (step mkfsSuper) formatted).any _ = true)
  obtain ⟨hloaded, htype, hsize, hops⟩ := of_decide_eq_true hs
  have hinv := inv_of_run
    (inv_iff.mpr ⟨exclusive_formatted, noHoles_formatted, coherent_formatted⟩) hrun
  have hdir : IsDir mkfsSuper s 0 := by
    refine ⟨hinv, hloaded, htype, by rw [hsize]; exact dvd_zero 16, fun a v w i j hi => ?_⟩
    have hlt := hi.lt
    rw [length_entries, hsize] at hlt
    omega
  obtain ⟨t, hrun', ht⟩ := Run.exists_of_any hops
  have hsaved : s.Saved mkfsSuper (s.itable 0).inum :=
    .of_size_eq_zero ((hinv.loaded 0 hloaded.1 hloaded.2).2 ▸ hsize)
  exact ⟨s, t, hrun, hrun', of_decide_eq_true ht, directory_isMap hdir (fun _ => hsaved) hrun'⟩

end Fs

end Xv6
