import Xv6.Fs.Saved

/-!
# Files as byte sequences

Abstractly the inode layer is a store of byte lists, one for each inode.  A
write replaces or extends bytes of one list, may stop early when no block is
free, and is refused when it would leave a hole or exceed the largest size.
Sequences of calls of `readi`, `writei` and `itrunc` whose copies succeed behave
like this store, also when buffers are recycled between the calls.
-/

namespace Xv6

open Lib

/-- Calls on table entries (or, in the abstract store, on inodes). -/
inductive Call
  | readi (k off n : ℕ)
  | writei (k : ℕ) (src : ℕ → UInt8) (off n : ℕ)
  | itrunc (k : ℕ)
  /-- between two calls, a buffer is recycled -/
  | evict (b : ℕ)

structure Return where
  value : ℤ
  bytes : List UInt8

def Call.target : Call → Option ℕ
  | .readi k _ _ | .writei k _ _ _ | .itrunc k => some k
  | .evict _ => none

def Call.rename (num : ℕ → ℕ) : Call → Call
  | .readi k off n => .readi (num k) off n
  | .writei k src off n => .writei (num k) src off n
  | .itrunc k => .itrunc (num k)
  | .evict b => .evict b

/-- The sum of offset and length does not wrap. -/
def Call.NoWrap : Call → Prop
  | .readi _ off n | .writei _ _ off n => off + n < 2 ^ 32
  | .itrunc _ | .evict _ => True

/-! ## The abstract store -/

/-- `l` with the bytes from `off` on replaced, or extended, by `new`. -/
def overwrite (l : List UInt8) (off : ℕ) (new : List UInt8) : List UInt8 :=
  l.take off ++ new ++ l.drop (off + new.length)

/-- One byte list for each inode; `full` says that no block is free. -/
structure Store where
  file : ℕ → List UInt8
  full : Prop

namespace Store

/-- What each call may return and do. -/
inductive Step (f : Store) : Call → Return → Store → Prop
  | readi (i off n : ℕ) (out : List UInt8) :
      out = ((f.file i).drop off).take n → Step f (.readi i off n) ⟨out.length, out⟩ f
  | refused (i : ℕ) (src : ℕ → UInt8) (off n : ℕ) :
      (f.file i).length < off ∨ MAXFILE * BSIZE < off + n →
      Step f (.writei i src off n) ⟨-1, []⟩ f
  | writei (i : ℕ) (src : ℕ → UInt8) (off n tot : ℕ) (g : Store) :
      off ≤ (f.file i).length → off + n ≤ MAXFILE * BSIZE → tot ≤ n → (tot < n → g.full) →
      g.file = Function.update f.file i (overwrite (f.file i) off ((List.range tot).map src)) →
      Step f (.writei i src off n) ⟨tot, []⟩ g
  | itrunc (i : ℕ) (g : Store) :
      g.file = Function.update f.file i [] → Step f (.itrunc i) ⟨0, []⟩ g
  | evict (b : ℕ) (g : Store) : g.file = f.file → Step f (.evict b) ⟨0, []⟩ g

inductive Runs : Store → List Call → List Return → Store → Prop
  | nil (f : Store) : Runs f [] [] f
  | cons {f g h : Store} {c : Call} {r : Return} {cs : List Call} {rs : List Return} :
      Step f c r g → Runs g cs rs h → Runs f (c :: cs) (r :: rs) h

end Store

theorem getElem?_overwrite {l new : List UInt8} {off : ℕ} (hoff : off ≤ l.length) (j : ℕ) :
    (overwrite l off new)[j]? =
      if off ≤ j ∧ j < off + new.length then new[j - off]? else l[j]? := by
  unfold overwrite
  rw [List.append_assoc, List.getElem?_append, List.length_take, Nat.min_eq_left hoff]
  split_ifs with h1 h2 h2
  · omega
  · rw [List.getElem?_take, if_pos h1]
  · rw [List.getElem?_append, if_pos (by omega)]
  · rw [List.getElem?_append, if_neg (by omega), List.getElem?_drop]
    congr 1
    omega

theorem Dinode.getElem?_contents (d : Dinode) (buf : ℕ → Block) (j : ℕ) :
    (d.contents buf)[j]? = if j < d.size then some (d.byte buf j) else none := by
  unfold contents
  rw [List.getElem?_map]
  split_ifs with h
  · rw [List.getElem?_range h]
    rfl
  · rw [List.getElem?_eq_none (by simpa using h)]
    rfl

@[simp] theorem Dinode.length_contents (d : Dinode) (buf : ℕ → Block) :
    (d.contents buf).length = d.size := by
  simp [contents]

namespace Fs

variable (sb : Superblock)

def call (s : Fs) : Call → Except Panic (Return × Fs)
  | .readi k off n => (s.readi sb k off n n).map fun r => (⟨r.1, r.2.1⟩, r.2.2)
  | .writei k src off n => (s.writei sb k ⟨src, n⟩ off n).map fun r => (⟨r.1, []⟩, r.2)
  | .itrunc k => (s.itrunc sb k).map fun t => (⟨0, []⟩, t)
  | .evict b => .ok (⟨0, []⟩, s.evict b)

def calls : Fs → List Call → Except Panic (List Return × Fs)
  | s, [] => .ok ([], s)
  | s, c :: cs => do
    let (r, s) ← s.call sb c
    let (rs, s) ← calls s cs
    .ok (r :: rs, s)

/-- The bytes of each allocated inode, and whether the free map is exhausted. -/
def store (s : Fs) : Store where
  file i := if i < sb.ninodes ∧ (s.dinode sb i).type ≠ 0 then (s.dinode sb i).contents s.buf else []
  full := Full sb s

variable {sb} {s t : Fs} {k off n : ℕ} {c : Call} {cs : List Call}

theorem Inv.store_file (h : Inv sb s) (hk : s.Loaded k) :
    (s.store sb).file (s.itable k).inum = (s.itable k).contents s.buf := by
  obtain ⟨ht, hcopy⟩ := h.loaded k hk.1 hk.2
  change (if _ then _ else _) = _
  rw [← hcopy, if_pos ⟨h.inum_lt k hk.1, ht⟩]

/-- The table keeps its entries and their inodes. -/
def SameTable (s t : Fs) : Prop :=
  ∀ k, (t.itable k).inum = (s.itable k).inum ∧ (t.itable k).ref = (s.itable k).ref ∧
    (t.itable k).valid = (s.itable k).valid

theorem SameTable.loaded (h : SameTable s t) (hk : s.Loaded k) : t.Loaded k := by
  unfold Loaded Held at *
  rw [(h k).2.1, (h k).2.2]
  exact hk

theorem sameTable_of_entry (htable : ∀ l ≠ k, t.itable l = s.itable l)
    (hself : (t.itable k).inum = (s.itable k).inum ∧ (t.itable k).ref = (s.itable k).ref ∧
      (t.itable k).valid = (s.itable k).valid) : SameTable s t := by
  intro l
  by_cases hl : l = k
  · subst hl
    exact hself
  · rw [htable l hl]
    exact ⟨rfl, rfl, rfl⟩

theorem store_file_eq_update {i : ℕ} {l : List UInt8} (hi : i < sb.ninodes)
    (ht : (t.dinode sb i).type ≠ 0) (hself : (t.dinode sb i).contents t.buf = l)
    (hother : ∀ j < sb.ninodes, j ≠ i → t.dinode sb j = s.dinode sb j)
    (hcontents : ∀ j < sb.ninodes, j ≠ i → (s.dinode sb j).type ≠ 0 →
      (t.dinode sb j).contents t.buf = (s.dinode sb j).contents s.buf) :
    (t.store sb).file = Function.update (s.store sb).file i l := by
  funext j
  by_cases hj : j = i
  · subst hj
    rw [Function.update_self, ← hself]
    exact if_pos ⟨hi, ht⟩
  rw [Function.update_of_ne hj]
  change (if _ then _ else _) = (if _ then _ else _)
  by_cases hjn : j < sb.ninodes
  · rw [hother j hjn hj]
    split_ifs with h
    · rw [← hcontents j hjn hj h.2, hother j hjn hj]
    · rfl
  · rw [if_neg fun h => hjn h.1, if_neg fun h => hjn h.1]

/-- Byte by byte: the new ones, and the old ones outside of them. -/
theorem Writes.contents_self {tot : ℕ} {data : ℕ → UInt8}
    (h : Writes sb k off tot (off + tot) data s t)
    (hoff : off ≤ (s.itable k).size) : (t.itable k).contents t.buf =
      overwrite ((s.itable k).contents s.buf) off
        ((List.range tot).map fun j => data (off + j)) := by
  obtain ⟨a, hself⟩ := h.self
  have hsize : (t.itable k).size = max (s.itable k).size (off + tot) := by rw [hself]
  apply List.ext_getElem?
  intro j
  rw [Dinode.getElem?_contents, getElem?_overwrite (by simpa using hoff),
    Dinode.getElem?_contents, hsize, List.length_map, List.length_range]
  by_cases hnew : off ≤ j ∧ j < off + tot
  · rw [if_pos hnew, if_pos (by omega), (h.stored j hnew.1 hnew.2).1, List.getElem?_map,
      List.getElem?_range (by omega), Option.map_some, Nat.add_sub_cancel' hnew.1]
  · rw [if_neg hnew]
    by_cases hold : j < (s.itable k).size
    · rw [if_pos (by omega), if_pos hold, h.kept hold (by omega)]
    · rw [if_neg (by omega), if_neg hold]

theorem Inv.allSaved (h : Inv sb s) (hk : s.Loaded k)
    (hother : ∀ i < sb.ninodes, i ≠ (s.itable k).inum → t.dinode sb i = s.dinode sb i)
    (hsaved : ∀ i < sb.ninodes, (s.dinode sb i).type ≠ 0 → t.Saved sb i) : t.AllSaved sb := by
  intro i hi ht
  refine hsaved i hi ?_
  by_cases hik : i = (s.itable k).inum
  · obtain ⟨htype, hcopy⟩ := h.loaded k hk.1 hk.2
    rwa [hik, ← hcopy]
  · rwa [← hother i hi hik]

theorem Inv.call_evict (h : Inv sb s) (hall : s.AllSaved sb) (b : ℕ) :
    (s.store sb).Step (.evict b) ⟨0, []⟩ ((s.evict b).store sb) ∧ (s.evict b).AllSaved sb := by
  refine ⟨.evict _ _ (funext fun i => ?_), fun i hi ht => ?_⟩
  · change (if _ then _ else _) = (if _ then _ else _)
    by_cases hi : i < sb.ninodes ∧ (s.dinode sb i).type ≠ 0
    · rw [h.dinode_evict hi.1, if_pos hi, if_pos hi, h.contents_evict hi.1 hi.2 (hall i hi.1 hi.2)]
    · rw [if_neg hi, if_neg]
      rintro ⟨hlt, ht⟩
      rw [h.dinode_evict hlt] at ht
      exact hi ⟨hlt, ht⟩
  · rw [h.dinode_evict hi] at ht
    exact h.saved_evict hi ht (hall i hi ht)

theorem Inv.call_writei (h : Inv sb s) (hk : s.Loaded k) (src : ℕ → UInt8)
    (hwrap : off + n < 2 ^ 32) :
    ∃ r t, s.call sb (.writei k src off n) = .ok (r, t) ∧ Inv sb t ∧ SameTable s t ∧
      (s.store sb).Step (.writei (s.itable k).inum src off n) r (t.store sb) ∧
      (s.AllSaved sb → t.AllSaved sb) := by
  have hfile := h.store_file hk
  have hlen : ((s.store sb).file (s.itable k).inum).length = (s.itable k).size := by
    rw [hfile, Dinode.length_contents]
  by_cases hout : (s.itable k).size < off ∨ MAXFILE * BSIZE < off + n
  · exact ⟨⟨-1, []⟩, s, by rw [Fs.call, writei_of_invalid hout hwrap]; rfl, h,
      fun _ => ⟨rfl, rfl, rfl⟩, .refused _ _ _ _ (by rwa [hlen]), id⟩
  have hoff : off ≤ (s.itable k).size := by omega
  obtain ⟨tot, top, t, hok, hw, htot, hfull, -⟩ :=
    writei_of_valid ⟨src, n⟩ (h.locked hk.1 hk.2) hoff (by omega : off + n ≤ MAXFILE * BSIZE)
  obtain ⟨rfl, hdone⟩ := hfull le_rfl
  obtain ⟨a, hself⟩ := hw.self
  refine ⟨⟨tot, []⟩, t, by rw [Fs.call, hok]; rfl, h.of_writes hk.1 hk.2 hw, ?_, ?_,
    fun hall => h.allSaved hk hw.other fun i hi ht => ?_⟩
  · exact sameTable_of_entry hw.table ⟨by rw [hself], by rw [hself], by rw [hself]⟩
  swap
  · exact h.saved_writei hi ht (hall i hi ht) hk (by omega : off < 2 ^ 32) (by omega : n < 2 ^ 32)
      (fun _ => le_rfl) hok
  refine .writei _ _ _ _ _ _ (by omega) (by omega) htot
    (fun hlt => hdone.resolve_left (by omega)) ?_
  have htype : (t.itable k).type ≠ 0 := by
    rw [hself]
    exact (h.loaded k hk.1 hk.2).1
  apply store_file_eq_update (h.inum_lt k hk.1) (by rw [hw.written]; exact htype) ?_ hw.other
    hw.contents
  rw [hw.written, hfile, hw.contents_self hoff]
  simp only [Nat.add_sub_cancel_left]

theorem Inv.call_itrunc (h : Inv sb s) (hk : s.Loaded k) :
    ∃ r t, s.call sb (.itrunc k) = .ok (r, t) ∧ Inv sb t ∧ SameTable s t ∧
      (s.store sb).Step (.itrunc (s.itable k).inum) r (t.store sb) ∧
      (s.AllSaved sb → t.AllSaved sb) := by
  obtain ⟨t, hok, htr⟩ := itrunc_spec (h.locked hk.1 hk.2)
  have htype : (t.itable k).type ≠ 0 := by
    rw [htr.self]
    exact (h.loaded k hk.1 hk.2).1
  have hinv : Inv sb t := by
    obtain ⟨t', hok', hinv⟩ := h.itrunc hk.1 hk.2
    cases hok.symm.trans hok'
    exact hinv
  refine ⟨⟨0, []⟩, t, by rw [Fs.call, hok]; rfl, hinv, ?_, .itrunc _ _ ?_, fun hall =>
    h.allSaved hk htr.other fun i hi ht => h.saved_itrunc hi ht (hall i hi ht) htr⟩
  · exact sameTable_of_entry htr.table ⟨by rw [htr.self], by rw [htr.self], by rw [htr.self]⟩
  apply store_file_eq_update (h.inum_lt k hk.1) (by rw [htr.written]; exact htype) ?_ htr.other
  · intro j hj hne ht
    rw [htr.other j hj hne]
    unfold Dinode.contents
    apply List.map_congr_left
    intro m hm
    have hat : ∀ p, (s.dinode sb j).blockAt t.buf p = (s.dinode sb j).blockAt s.buf p := by
      refine Dinode.blockAt_congr rfl fun hind => htr.buf _ ?_
      have hx : slots sb s.buf (s.dinode sb) (j, .indirect) = some _ :=
        slots_eq_some.mpr ⟨hj, ht, hind, rfl⟩
      exact h.sound.nmeta_le hx
    have hsize : m / BSIZE * BSIZE < (s.dinode sb j).size :=
      (Nat.div_mul_le_self m BSIZE).trans_lt (List.mem_range.mp hm)
    obtain ⟨b, hb⟩ := Option.isSome_iff_exists.mp (h.sound.mapped j hj ht _ hsize).2
    apply byte_congr (hat _)
    rw [(slots_eq_some.mp hb).2.2.2, htr.buf b (h.sound.nmeta_le hb)]
  · rw [htr.written, htr.self]
    rfl

theorem Inv.call (h : Inv sb s) (hk : ∀ k ∈ c.target, s.Loaded k) (hc : c.NoWrap)
    (hevict : (∃ b, c = .evict b) → s.AllSaved sb) :
    ∃ r t, s.call sb c = .ok (r, t) ∧ Inv sb t ∧ SameTable s t ∧
      (s.store sb).Step (c.rename fun k => (s.itable k).inum) r (t.store sb) ∧
      (s.AllSaved sb → t.AllSaved sb) := by
  cases c with
  | readi k off n =>
    have hk := hk k rfl
    obtain ⟨out, hok, hout⟩ := readi_full (h.locked hk.1 hk.2) hc
    refine ⟨⟨out.length, out⟩, s, by rw [Fs.call, hok]; rfl, h, fun _ => ⟨rfl, rfl, rfl⟩, ?_, id⟩
    refine .readi _ _ _ _ ?_
    rw [← h.store_file hk] at hout
    exact hout
  | writei k src off n => exact h.call_writei (hk k rfl) src hc
  | itrunc k => exact h.call_itrunc (hk k rfl)
  | evict b =>
    obtain ⟨hstep, hall⟩ := h.call_evict (hevict ⟨b, rfl⟩) b
    exact ⟨_, _, rfl, h.evict b, fun _ => ⟨rfl, rfl, rfl⟩, hstep, fun _ => hall⟩

/-- Every sequence of calls returns, its results are those of the store of byte
lists, and each list is as long as the size of its inode says.  Buffers may be recycled
between the calls if all bytes were logged to begin with. -/
theorem calls_refine_store (h : Inv sb s) (hk : ∀ c ∈ cs, ∀ k ∈ c.target, s.Loaded k)
    (hc : ∀ c ∈ cs, c.NoWrap) (hevict : (∃ b, Call.evict b ∈ cs) → s.AllSaved sb) :
    ∃ rs t, s.calls sb cs = .ok (rs, t) ∧
      Store.Runs (s.store sb) (cs.map (Call.rename fun k => (s.itable k).inum)) rs (t.store sb) ∧
      ∀ k, t.Loaded k → ((t.store sb).file (t.itable k).inum).length = (t.itable k).size := by
  induction cs generalizing s with
  | nil =>
    refine ⟨[], s, rfl, .nil _, fun k hk => ?_⟩
    rw [h.store_file hk, Dinode.length_contents]
  | cons c cs ih =>
    obtain ⟨r, u, hok, hinv, hsame, hstep, hall⟩ := h.call (hk c (by simp)) (hc c (by simp))
      fun ⟨b, hb⟩ => hevict ⟨b, by simp [hb]⟩
    obtain ⟨rs, t, hrest, hruns, hlen⟩ := ih hinv
      (fun d hd k hk' => hsame.loaded (hk d (by simp [hd]) k hk')) (fun d hd => hc d (by simp [hd]))
      fun ⟨b, hb⟩ => hall (hevict ⟨b, by simp [hb]⟩)
    have hnum : (fun k => (u.itable k).inum) = fun k => (s.itable k).inum :=
      funext fun k => (hsame k).1
    rw [hnum] at hruns
    refine ⟨r :: rs, t, ?_, .cons hstep hruns, hlen⟩
    unfold calls
    simp only [hok, hrest, bind, Except.bind]

/-- A file that crosses from the direct blocks into the indirect block; the buffer of its first
block is recycled. -/
def longFile : List Call :=
  [.writei 0 (fun j => .ofNat j) 0 13000, .evict 47, .readi 0 12280 20,
    .writei 0 (fun _ => 1) 13001 1, .itrunc 0, .readi 0 0 5]

theorem calls_refine_store_longFile : ∃ s,
    Run (step mkfsSuper) formatted [.ialloc T_FILE, .ilock 0] s ∧
      ∃ rs t, s.calls mkfsSuper longFile = .ok (rs, t) ∧
        Store.Runs (s.store mkfsSuper)
          (longFile.map (Call.rename fun k => (s.itable k).inum)) rs (t.store mkfsSuper) := by
  obtain ⟨s, hrun, hs⟩ := Run.exists_of_any (P := fun s => s.Loaded 0 ∧ s.AllSaved mkfsSuper)
    (by decide +kernel : ([Op.ialloc T_FILE, .ilock 0].foldlM (step mkfsSuper) formatted).any _)
  obtain ⟨hloaded, hall⟩ := of_decide_eq_true hs
  have hinv := inv_of_run
    (inv_iff.mpr ⟨exclusive_formatted, noHoles_formatted, coherent_formatted⟩) hrun
  have hk : ∀ c ∈ longFile, ∀ k ∈ c.target, s.Loaded k := by
    simpa [longFile, Call.target] using hloaded
  obtain ⟨rs, t, hok, hruns, -⟩ := calls_refine_store hinv hk (by simp [longFile, Call.NoWrap])
    fun _ => hall
  exact ⟨s, hrun, rs, t, hok, hruns⟩

end Fs

end Xv6
