import Xv6.Fs.Exclusive
import Xv6.Lib.Outcome

/-!
# Files whose buffers may be recycled

A buffer that is recycled comes back with what was last logged for its block.
A file loses nothing by that when each of its bytes is logged as it is cached.
Every function of the inode layer keeps this of the files it does not write, and
`writei` of the file it writes, unless a copy from user memory fails.
-/

namespace Xv6

open Lib

namespace Fs

variable {sb : Superblock} {s s' : Fs} {b c i j k n o off tot : ℕ} {data : ℕ → UInt8}
  {src : Source}

theorem settled_evict (h : s.Settled c o ∨ c = b) : (s.evict b).Settled c o := by
  by_cases hc : c = b
  · subst hc
    change s.disk c o = Function.update s.buf c (s.disk c) c o
    rw [Function.update_self]
  · change s.disk c o = Function.update s.buf b (s.disk b) c o
    rw [Function.update_of_ne hc]
    exact h.resolve_right hc

theorem Settled.evict (h : s.Settled c o) : (s.evict b).buf c o = s.buf c o :=
  (settled_evict (.inl h)).symm.trans h

/-- Every byte of inode `i` is logged as it is cached. -/
def Saved (sb : Superblock) (s : Fs) (i : ℕ) : Prop :=
  ∀ j < (s.dinode sb i).size,
    s.Settled ((s.dinode sb i).blockAt s.buf (.ofBlock (j / BSIZE))) (j % BSIZE)

def AllSaved (sb : Superblock) (s : Fs) : Prop :=
  ∀ i < sb.ninodes, (s.dinode sb i).type ≠ 0 → s.Saved sb i

instance (sb : Superblock) (s : Fs) : Decidable (s.AllSaved sb) :=
  inferInstanceAs (Decidable (∀ i < sb.ninodes, (s.dinode sb i).type ≠ 0 →
    ∀ j < (s.dinode sb i).size,
      s.disk ((s.dinode sb i).blockAt s.buf (.ofBlock (j / BSIZE))) (j % BSIZE) =
        s.buf ((s.dinode sb i).blockAt s.buf (.ofBlock (j / BSIZE))) (j % BSIZE)))

theorem Saved.of_size_eq_zero (h : (s.dinode sb i).size = 0) : s.Saved sb i := by
  intro j hj
  omega

/-- A change that moves no block of an inode and unsettles none of its bytes. -/
theorem Saved.of_blocks (h : s.Saved sb i) (hsize : (s'.dinode sb i).size = (s.dinode sb i).size)
    (hat : ∀ j < (s.dinode sb i).size, (s'.dinode sb i).blockAt s'.buf (.ofBlock (j / BSIZE)) =
      (s.dinode sb i).blockAt s.buf (.ofBlock (j / BSIZE)))
    (hset : ∀ j < (s.dinode sb i).size,
      s.Settled ((s.dinode sb i).blockAt s.buf (.ofBlock (j / BSIZE))) (j % BSIZE) →
      s'.Settled ((s.dinode sb i).blockAt s.buf (.ofBlock (j / BSIZE))) (j % BSIZE)) :
    s'.Saved sb i := by
  intro j hj
  rw [hsize] at hj
  rw [hat j hj]
  exact hset j hj (h j hj)

theorem Inv.blockAt_congr (h : Inv sb s) (hi : i < sb.ninodes) (ht : (s.dinode sb i).type ≠ 0)
    {buf : ℕ → Block} (hbuf : ∀ c, s.Clean c → sb.nmeta ≤ c → buf c = s.buf c) (p : Pos) :
    (s.dinode sb i).blockAt buf p = (s.dinode sb i).blockAt s.buf p := by
  refine Dinode.blockAt_congr rfl (fun hind => ?_) p
  have hx : slots sb s.buf (s.dinode sb) (i, .indirect) = some _ :=
    slots_eq_some.mpr ⟨hi, ht, hind, rfl⟩
  exact hbuf _ (h.sound.clean _ (.inr ⟨i, hx⟩)) (h.sound.nmeta_le hx)

theorem Inv.saved_of_meta (h : Inv sb s) (hi : i < sb.ninodes) (ht : (s.dinode sb i).type ≠ 0)
    (hsize : (s'.dinode sb i).size = (s.dinode sb i).size)
    (haddrs : (s'.dinode sb i).addrs = (s.dinode sb i).addrs)
    (hbuf : ∀ c, sb.nmeta ≤ c → s'.buf c = s.buf c)
    (hset : ∀ c o, s.Settled c o → s'.Settled c o) (hsaved : s.Saved sb i) : s'.Saved sb i := by
  refine hsaved.of_blocks hsize (fun j _ => ?_) fun j _ => hset _ _
  rw [Dinode.blockAt_congr haddrs (fun _ => rfl) _]
  exact h.blockAt_congr hi ht (fun c _ => hbuf c) _

theorem Inv.slot_of_lt_size (h : Inv sb s) (hi : i < sb.ninodes) (ht : (s.dinode sb i).type ≠ 0)
    (hj : j < (s.dinode sb i).size) : j / BSIZE < MAXFILE ∧
      slots sb s.buf (s.dinode sb) (i, .ofBlock (j / BSIZE)) =
        some ((s.dinode sb i).blockAt s.buf (.ofBlock (j / BSIZE))) := by
  obtain ⟨hlt, hsome⟩ := h.sound.mapped i hi ht (j / BSIZE)
    ((Nat.div_mul_le_self j BSIZE).trans_lt hj)
  obtain ⟨b, hb⟩ := Option.isSome_iff_exists.mp hsome
  rw [(slots_eq_some.mp hb).2.2.2]
  exact ⟨hlt, hb⟩

theorem Inv.refs_eq (h : Inv sb s) (hk : s.Loaded k) :
    s.refs sb k = slots sb s.buf (s.dinode sb) := by
  rw [refs, h.inodes_eq hk.1 hk.2]

section writes

variable {top : ℕ} (h : Inv sb s) (hk : s.Loaded k) (hw : Writes sb k off tot top data s s')
include h hk hw

/-- A write to one file keeps the others, whether or not its copies fail. -/
theorem Writes.saved_other (hne : i ≠ (s.itable k).inum) (hi : i < sb.ninodes)
    (ht : (s.dinode sb i).type ≠ 0) (hsaved : s.Saved sb i) : s'.Saved sb i := by
  have hat : ∀ j < (s.dinode sb i).size,
      slots sb s'.buf (s'.dinode sb) (i, .ofBlock (j / BSIZE)) =
        some ((s.dinode sb i).blockAt s.buf (.ofBlock (j / BSIZE))) := by
    intro j hj
    apply hw.refs
    rw [h.refs_eq hk]
    exact (h.slot_of_lt_size hi ht hj).2
  refine hsaved.of_blocks (by rw [hw.other i hi hne]) (fun j hj => ?_) fun j hj hset => ?_
  · exact (slots_eq_some.mp (hat j hj)).2.2.2
  · refine hw.settled _ _ (Nat.mod_lt j (by decide)) hset fun bn _ hx => ?_
    exact absurd (Prod.mk.inj (hw.sound.owned.inj (hat j hj) hx)).1 hne

theorem Writes.saved_self (hoff : off ≤ (s.itable k).size) (htop : top = off + tot)
    (hsaved : s.Saved sb (s.itable k).inum) :
    s'.Saved sb (s.itable k).inum := by
  obtain ⟨ht, hcopy⟩ := h.loaded k hk.1 hk.2
  obtain ⟨a, hself⟩ := hw.self
  intro j hj
  rw [hw.written] at hj ⊢
  by_cases hin : off ≤ j ∧ j < off + tot
  · exact (hw.stored j hin.1 hin.2).2
  have hold : j < (s.dinode sb (s.itable k).inum).size := by
    rw [← hcopy]
    rw [hself] at hj
    change j < max (s.itable k).size (off + tot) at hj
    omega
  have hslot := h.slot_of_lt_size (h.inum_lt k hk.1) (hcopy ▸ ht) hold
  have hslot' := hw.refs _ _ (by rw [h.refs_eq hk]; exact hslot.2)
  have hat := (slots_eq_some.mp hslot').2.2.2
  rw [hw.written] at hat
  rw [hat]
  refine hw.settled _ _ (Nat.mod_lt j (by decide)) (hsaved j hold) fun bn hbn hx => ?_
  have hbn' : bn = j / BSIZE :=
    Pos.ofBlock_inj hbn hslot.1 (Prod.mk.inj (hw.sound.owned.inj hx hslot')).2
  subst hbn'
  unfold Untouched
  rw [Nat.div_add_mod' j BSIZE]
  omega

end writes

/-! ### Recycling -/

theorem Clean.evict (h : s.Clean c) : (s.evict b).buf c = s.buf c :=
  funext fun o => Settled.evict (congrFun h o)

theorem Inv.dinode_evict (h : Inv sb s) (hi : i < sb.ninodes) :
    (s.evict b).dinode sb i = s.dinode sb i :=
  dinode_congr (h.sound.clean _ (.inl (sb.iblock_lt hi))).evict

theorem Inv.blockAt_evict (h : Inv sb s) (hi : i < sb.ninodes) (ht : (s.dinode sb i).type ≠ 0)
    (p : Pos) : (s.dinode sb i).blockAt (s.evict b).buf p = (s.dinode sb i).blockAt s.buf p :=
  h.blockAt_congr hi ht (fun _ hc _ => hc.evict) p

theorem Inv.saved_evict (h : Inv sb s) (hi : i < sb.ninodes) (ht : (s.dinode sb i).type ≠ 0)
    (hsaved : s.Saved sb i) : (s.evict b).Saved sb i := by
  refine hsaved.of_blocks (by rw [h.dinode_evict hi]) (fun j _ => ?_)
    fun j _ hset => settled_evict (.inl hset)
  rw [h.dinode_evict hi, h.blockAt_evict hi ht]

theorem Inv.contents_evict (h : Inv sb s) (hi : i < sb.ninodes) (ht : (s.dinode sb i).type ≠ 0)
    (hsaved : s.Saved sb i) :
    (s.dinode sb i).contents (s.evict b).buf = (s.dinode sb i).contents s.buf := by
  unfold Dinode.contents
  apply List.map_congr_left
  intro j hj
  apply byte_congr (h.blockAt_evict hi ht _)
  exact (hsaved j (List.mem_range.mp hj)).evict

/-! ### The functions of the inode layer -/

/-- Nothing is written. -/
def SameVolume (s s' : Fs) : Prop := s'.buf = s.buf ∧ s'.disk = s.disk

theorem SameVolume.saved (h : SameVolume s s') (hsaved : s.Saved sb i) : s'.Saved sb i := by
  unfold Saved Settled dinode at *
  rwa [h.1, h.2]

theorem sameVolume_iget {inum : ℕ} (hok : s.iget inum = .ok (k, s')) : SameVolume s s' := by
  rcases iget_cases s inum with herr | ⟨l, -, -, hget⟩ | ⟨l, -, -, -, hget⟩
  · rw [hok] at herr
    cases herr
  all_goals
    obtain ⟨rfl, rfl⟩ := Prod.mk.inj (Except.ok.inj (hget.symm.trans hok))
    exact ⟨rfl, rfl⟩

theorem sameVolume_ilock (hok : s.ilock sb k = .ok s') : SameVolume s s' := by
  unfold Fs.ilock at hok
  dsimp only at hok
  split_ifs at hok
  all_goals
    obtain rfl := Except.ok.inj hok
    exact ⟨rfl, rfl⟩

/-- `iget` followed by `iput` changes no entry in use, and no reference count. -/
theorem iput_of_iget (sb : Superblock) {inum l : ℕ} {t : Fs} (h : s.iget inum = .ok (l, t)) :
    ∃ u, t.iput sb l = .ok u ∧ SameVolume s u ∧ ∀ k, (u.itable k).ref = (s.itable k).ref ∧
      (0 < (s.itable k).ref → u.itable k = s.itable k) := by
  rcases iget_cases s inum with herr | ⟨l', hl, -, hok⟩ | ⟨l', hlt, hl, -, hok⟩
  · rw [herr] at h
    cases h
  · rw [hok] at h
    obtain ⟨rfl, rfl⟩ := Prod.mk.inj (Except.ok.inj h)
    have hne : (s.itable l').ref + 1 ≠ 1 := by omega
    unfold Fs.iput
    simp only [setInode_itable, Function.update_self, hne, false_and, if_false, bind, Except.bind]
    refine ⟨_, rfl, ⟨rfl, rfl⟩, fun k => ?_⟩
    by_cases hkl : k = l'
    · subst hkl
      simp [Fs.setInode]
    · simp [hkl]
  · rw [hok] at h
    obtain ⟨rfl, rfl⟩ := Prod.mk.inj (Except.ok.inj h)
    unfold Fs.iput
    simp only [setInode_itable, Function.update_self, Bool.false_eq_true, false_and, and_false,
      if_false, bind, Except.bind]
    refine ⟨_, rfl, ⟨rfl, rfl⟩, fun k => ?_⟩
    by_cases hkl : k = l'
    · subst hkl
      simp [Fs.setInode, hl]
    · simp [hkl]

/-- What `dirlink` changes: nothing, or what one complete call of `writei` does. -/
theorem Inv.dirlink_cases (h : Inv sb s) (hk : s.Loaded k) {name : Bytes} {inum : ℕ} {r : ℤ}
    (hok : s.dirlink sb k name inum = .ok (r, s')) :
    (∃ num l s₁, s.iget num = .ok (l, s₁) ∧ s₁.iput sb l = .ok s') ∨
      ∃ src : Source, ∃ off < 2 ^ 32, ∃ r', 16 ≤ src.avail ∧
        s.writei sb k src off 16 = .ok (r', s') := by
  have hlock := h.locked hk.1 hk.2
  unfold Fs.dirlink dirlookup at hok
  split_ifs at hok with hdir
  · cases hok
  rcases dirlookupLoop_cases hlock name ((s.itable k).size / 16 + 1) 0 with
    herr | ⟨found, hfound⟩
  · simp only [herr, bind, Except.bind] at hok
    cases hok
  simp only [hfound, bind, Except.bind] at hok
  cases found with
  | some x =>
    obtain ⟨num, off⟩ := x
    cases hget : s.iget num with
    | error msg => simp [hget] at hok
    | ok x =>
      obtain ⟨l, s₁⟩ := x
      simp only [hget] at hok
      cases hput : s₁.iput sb l with
      | error msg => simp [hput] at hok
      | ok s₂ =>
        simp only [hput] at hok
        obtain ⟨-, rfl⟩ := Prod.mk.inj (Except.ok.inj hok)
        exact .inl ⟨num, l, s₁, hget, hput⟩
  | none =>
    rcases dirlinkLoop_cases hlock ((s.itable k).size / 16 + 1)
      (by decide : 0 < 2 ^ 32) with herr | ⟨off, hoff, hloop⟩
    · simp [herr] at hok
    · simp only [hloop] at hok
      obtain ⟨r', t, hw, -⟩ := h.writei hk.1 hk.2
        ⟨(⟨inum, strncpy name⟩ : Dirent).toBytes, 16⟩ hoff (by decide : 16 < 2 ^ 32)
      simp only [hw] at hok
      obtain ⟨-, rfl⟩ := Prod.mk.inj (Except.ok.inj hok)
      exact .inr ⟨_, off, hoff, r', le_rfl, hw⟩

/-- What `writei` changes: nothing, or what a write that passes the tests does. -/
theorem Inv.writei_cases (h : Inv sb s) (hk : s.Loaded k) {r : ℤ} (hoff : off < 2 ^ 32)
    (hn : n < 2 ^ 32) (hok : s.writei sb k src off n = .ok (r, s')) :
    s' = s ∨ ∃ tot top data, off ≤ (s.itable k).size ∧ Writes sb k off tot top data s s' ∧
      (n ≤ src.avail → top = off + tot) := by
  by_cases hwrap : off + n < 2 ^ 32
  swap
  · rw [writei_of_wrap (by omega) hoff hn] at hok
    exact .inl (Prod.mk.inj (Except.ok.inj hok)).2.symm
  by_cases hout : (s.itable k).size < off ∨ MAXFILE * BSIZE < off + n
  · rw [writei_of_invalid hout hwrap] at hok
    exact .inl (Prod.mk.inj (Except.ok.inj hok)).2.symm
  have hle : off ≤ (s.itable k).size := by omega
  obtain ⟨tot, top, t, hok', hw, -, hfull, -⟩ :=
    writei_of_valid src (h.locked hk.1 hk.2) hle (by omega : off + n ≤ MAXFILE * BSIZE)
  obtain ⟨-, rfl⟩ := Prod.mk.inj (Except.ok.inj (hok'.symm.trans hok))
  exact .inr ⟨tot, top, _, hle, hw, fun hav => (hfull hav).1⟩

theorem Inv.inum_of_writei (h : Inv sb s) (hk : s.Loaded k) {r : ℤ} (hoff : off < 2 ^ 32)
    (hn : n < 2 ^ 32) (hok : s.writei sb k src off n = .ok (r, s')) :
    (s'.itable k).inum = (s.itable k).inum := by
  rcases h.writei_cases hk hoff hn hok with rfl | ⟨tot, top, data, -, hw, -⟩
  · rfl
  · obtain ⟨a, hself⟩ := hw.self
    rw [hself]

theorem Inv.inum_of_dirlink (h : Inv sb s) (hk : s.Loaded k) {name : Bytes} {inum : ℕ} {r : ℤ}
    (hok : s.dirlink sb k name inum = .ok (r, s')) :
    (s'.itable k).inum = (s.itable k).inum := by
  rcases h.dirlink_cases hk hok with ⟨num, l, s₁, hget, hput⟩ | ⟨src, off, hoff, r', -, hw⟩
  · obtain ⟨u, hu, -, htable⟩ := iput_of_iget sb hget
    cases hu.symm.trans hput
    rw [(htable k).2 hk.1]
  · exact h.inum_of_writei hk hoff (by decide) hw

section saved

variable (h : Inv sb s) (hi : i < sb.ninodes) (ht : (s.dinode sb i).type ≠ 0)
  (hsaved : s.Saved sb i)
include h hi ht hsaved

theorem Inv.saved_ialloc {type : Short} {r : Option ℕ} (hok : s.ialloc sb type = .ok (r, s')) :
    s'.Saved sb i := by
  unfold Fs.ialloc at hok
  cases hfind : (List.range' 1 (sb.ninodes - 1)).find?
      fun inum => (s.dinode sb inum).type = 0 with
  | none =>
    rw [hfind] at hok
    obtain ⟨-, rfl⟩ := Prod.mk.inj (Except.ok.inj hok)
    exact hsaved
  | some inum =>
    rw [hfind] at hok
    have hfree := List.find?_some hfind
    rw [decide_eq_true_eq] at hfree
    have hmem := List.mem_range'_1.mp (List.mem_of_find?_eq_some hfind)
    have hlt : inum < sb.ninodes := by omega
    have hne : i ≠ inum := by
      rintro rfl
      exact ht hfree
    set d : Dinode := { Dinode.zero with type := type } with hd
    set u := s.logWrite (sb.iblock inum) (d.write (s.buf (sb.iblock inum)) (inum % IPB)) with hu
    have hdinode : u.dinode sb i = s.dinode sb i := by
      rw [hu, dinode_logWrite (d := d) ⟨Dinode.fits_zero.size, Dinode.fits_zero.addrs⟩, if_neg hne]
    have hsaved' : u.Saved sb i := by
      refine h.saved_of_meta hi ht (by rw [hdinode]) (by rw [hdinode]) (fun c hc => ?_)
        (fun c o hc => .logWrite (.inl hc)) hsaved
      have := sb.iblock_lt hlt
      exact Function.update_of_ne (by omega) ..
    cases hget : u.iget inum with
    | error msg => simp [← hu, hget, bind, Except.bind] at hok
    | ok x =>
      simp only [← hu, hget, bind, Except.bind] at hok
      obtain ⟨-, rfl⟩ := Prod.mk.inj (Except.ok.inj hok)
      exact (sameVolume_iget hget).saved hsaved'

theorem Inv.saved_itrunc (htr : Truncates sb k s s') : s'.Saved sb i := by
  by_cases hik : i = (s.itable k).inum
  · refine .of_size_eq_zero ?_
    rw [hik, htr.written, htr.self]
  · exact h.saved_of_meta hi ht (by rw [htr.other i hi hik]) (by rw [htr.other i hi hik])
      htr.buf htr.settled hsaved

theorem Inv.saved_iupdate (hlt : (s'.itable k).inum < sb.ninodes) (hfits : (s'.itable k).Fits)
    (hvol : SameVolume s s')
    (hself : i = (s'.itable k).inum → (s'.itable k).size = 0 ∨
      (s'.itable k).size = (s.dinode sb i).size ∧ (s'.itable k).addrs = (s.dinode sb i).addrs) :
    (s'.iupdate sb k).Saved sb i := by
  have hdinode : (s'.iupdate sb k).dinode sb i =
      if i = (s'.itable k).inum then (s'.itable k).toDinode else s.dinode sb i := by
    rw [iupdate_dinode hfits]
    split_ifs with hik
    · rw [hik, inodes_inum]
    · rw [inodes_of_ne hik]
      exact dinode_congr (congrFun hvol.1 _)
  have hbuf : ∀ c, sb.nmeta ≤ c → (s'.iupdate sb k).buf c = s.buf c := by
    intro c hc
    rw [iupdate_buf hlt hc, hvol.1]
  have hset : ∀ c o, s.Settled c o → (s'.iupdate sb k).Settled c o := by
    intro c o hc
    refine .logWrite (.inl ?_)
    unfold Settled at *
    rwa [hvol.1, hvol.2]
  by_cases hik : i = (s'.itable k).inum
  · rw [if_pos hik] at hdinode
    rcases hself hik with hzero | ⟨hsize, haddrs⟩
    · exact .of_size_eq_zero (hdinode ▸ hzero)
    · exact h.saved_of_meta hi ht (hdinode ▸ hsize) (hdinode ▸ haddrs) hbuf hset hsaved
  · rw [if_neg hik] at hdinode
    exact h.saved_of_meta hi ht (by rw [hdinode]) (by rw [hdinode]) hbuf hset hsaved

theorem Inv.saved_iput (hk : s.Held k) (hok : s.iput sb k = .ok s') : s'.Saved sb i := by
  unfold Fs.iput at hok
  by_cases hfree : (s.itable k).ref = 1 ∧ (s.itable k).valid = true ∧ (s.itable k).nlink = 0
  swap
  · simp only [if_neg hfree, bind, Except.bind] at hok
    obtain rfl := Except.ok.inj hok
    exact hsaved
  obtain ⟨s₁, hs₁, hinv₁⟩ := h.itrunc hk hfree.2.1
  obtain ⟨s₂, hs₂, htr⟩ := itrunc_spec (h.locked hk hfree.2.1)
  obtain rfl : s₁ = s₂ := Except.ok.inj (hs₁.symm.trans hs₂)
  simp only [if_pos hfree, hs₁, bind, Except.bind] at hok
  obtain rfl := Except.ok.inj hok
  have ht₁ : (s₁.dinode sb i).type ≠ 0 := by
    by_cases hik : i = (s.itable k).inum
    · rw [hik, htr.written, htr.self]
      exact (h.loaded k hk hfree.2.1).1
    · rwa [htr.other i hi hik]
  have hself : (s₁.setInode k { s₁.itable k with type := 0 }).itable k =
      { s.itable k with size := 0, addrs := fun _ => 0, type := 0 } := by
    rw [setInode_itable, Function.update_self, htr.self]
  have hsame : SameVolume s₁ (s₁.setInode k { s₁.itable k with type := 0 }) := ⟨rfl, rfl⟩
  refine SameVolume.saved ⟨rfl, rfl⟩ (hinv₁.saved_iupdate hi ht₁ (h.saved_itrunc hi ht hsaved htr)
    (k := k) ?_ ?_ hsame ?_)
  · rw [hself]
    exact h.inum_lt k hk
  · rw [hself]
    exact ⟨by simp, fun _ => by simp⟩
  · rw [hself]
    exact fun _ => .inl rfl

theorem Inv.saved_writei (hk : s.Loaded k) {r : ℤ} (hoff : off < 2 ^ 32) (hn : n < 2 ^ 32)
    (hcopy : i = (s.itable k).inum → n ≤ src.avail)
    (hok : s.writei sb k src off n = .ok (r, s')) : s'.Saved sb i := by
  rcases h.writei_cases hk hoff hn hok with rfl | ⟨tot, top, data, hle, hw, hfull⟩
  · exact hsaved
  by_cases hik : i = (s.itable k).inum
  · rw [hik] at hsaved ⊢
    exact hw.saved_self h hk hle (hfull (hcopy hik)) hsaved
  · exact hw.saved_other h hk hik hi ht hsaved

theorem Inv.saved_dirlink (hk : s.Loaded k) {name : Bytes} {inum : ℕ} {r : ℤ}
    (hok : s.dirlink sb k name inum = .ok (r, s')) : s'.Saved sb i := by
  rcases h.dirlink_cases hk hok with ⟨num, l, s₁, hget, hput⟩ | ⟨src, off, hoff, r', hav, hw⟩
  · obtain ⟨u, hu, hvol, -⟩ := iput_of_iget sb hget
    cases hu.symm.trans hput
    exact hvol.saved hsaved
  · exact h.saved_writei hi ht hsaved hk hoff (by decide) (fun _ => hav) hw

/-- An operation unsettles a file only by a copy into it that fails. -/
theorem Inv.saved_exec {op : Op} (ha : op.Allowed sb s)
    (hcopy : ∀ l src off n, op = .writei l src off n → i = (s.itable l).inum → n ≤ src.avail)
    (hok : s.exec sb op = .ok s') : s'.Saved sb i := by
  cases op with
  | iget inum =>
    obtain ⟨x, hget, rfl⟩ := exists_of_map_eq_ok hok
    exact (sameVolume_iget hget).saved hsaved
  | ialloc type =>
    obtain ⟨x, hal, rfl⟩ := exists_of_map_eq_ok hok
    exact h.saved_ialloc hi ht hsaved hal
  | idup l =>
    obtain rfl := Except.ok.inj hok
    exact hsaved
  | ilock l => exact (sameVolume_ilock hok).saved hsaved
  | iput l => exact h.saved_iput hi ht hsaved ha hok
  | readi l off n avail =>
    obtain ⟨⟨hl, hv⟩, hoff, hn⟩ := ha
    obtain ⟨r, out, hread, -⟩ := readi_spec avail (h.locked hl hv) hoff hn
    obtain rfl : s = s' := by simpa [Fs.exec, hread, Except.map] using hok
    exact hsaved
  | writei l src off n =>
    obtain ⟨x, hw, rfl⟩ := exists_of_map_eq_ok hok
    exact h.saved_writei hi ht hsaved ha.1 ha.2.1 ha.2.2 (hcopy l src off n rfl) hw
  | itrunc l =>
    obtain ⟨t, hok', htr⟩ := itrunc_spec (h.locked ha.1 ha.2)
    obtain rfl := Except.ok.inj (hok'.symm.trans hok)
    exact h.saved_itrunc hi ht hsaved htr
  | dirlink l name inum =>
    obtain ⟨x, hlink, rfl⟩ := exists_of_map_eq_ok hok
    exact h.saved_dirlink hi ht hsaved ha hlink
  | iupdate l major minor nlink =>
    obtain rfl := Except.ok.inj hok
    obtain ⟨htype, hcopied⟩ := h.loaded l ha.1 ha.2
    have hlt := h.inum_lt l ha.1
    have hfits := h.sound.fits hlt (hcopied ▸ htype)
    rw [← hcopied] at hfits
    have hself : (s.setInode l
        { s.itable l with major := major, minor := minor, nlink := nlink }).itable l =
        { s.itable l with major := major, minor := minor, nlink := nlink } := by
      rw [setInode_itable, Function.update_self]
    refine h.saved_iupdate hi ht hsaved ?_ ?_ ⟨rfl, rfl⟩ ?_
    · rw [hself]
      exact hlt
    · rw [hself]
      exact ⟨hfits.size, hfits.addrs⟩
    · rw [hself]
      rintro rfl
      rw [← hcopied]
      exact .inr ⟨rfl, rfl⟩
  | evict b =>
    obtain rfl := Except.ok.inj hok
    exact h.saved_evict hi ht hsaved

end saved

end Fs

end Xv6
