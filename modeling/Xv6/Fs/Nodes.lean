import Xv6.Dir.Map
import Xv6.Lib.Outcome

/-!
# The inode layer from above

To the callers of the inode layer an allocated inode is its type, device
numbers, link count and bytes, and an entry of the inode table is an inode
number, a reference count and a valid bit.  Each function of the layer changes at
most one inode and one entry.
-/

namespace Xv6

open Lib
open Function (update update_self update_of_ne update_eq_self)

/-- What callers see of an allocated inode. -/
structure Node where
  type : Short
  major : Short
  minor : Short
  nlink : Short
  data : List UInt8

def Dinode.node (d : Dinode) (buf : ℕ → Block) : Node :=
  ⟨d.type, d.major, d.minor, d.nlink, d.contents buf⟩

namespace Fs

variable {sb : Superblock} {s t u : Fs} {i j k off n : ℕ} {x : Node} {ip : Inode}

/-- Inode `i`, if it is allocated. -/
def node (sb : Superblock) (s : Fs) (i : ℕ) : Option Node :=
  if i < sb.ninodes ∧ (s.dinode sb i).type ≠ 0 then some ((s.dinode sb i).node s.buf) else none

theorem node_eq_some : s.node sb i = some x ↔
    i < sb.ninodes ∧ (s.dinode sb i).type ≠ 0 ∧ (s.dinode sb i).node s.buf = x := by
  simp [node, and_assoc]

theorem node_eq_none (hi : i < sb.ninodes) : s.node sb i = none ↔ (s.dinode sb i).type = 0 := by
  simp [node, hi]

@[simp] theorem node_setInode : (s.setInode k ip).node sb = s.node sb := rfl

theorem Inv.node_of_loaded (h : Inv sb s) (hk : s.Loaded k) :
    s.node sb (s.itable k).inum = some ((s.itable k).node s.buf) := by
  obtain ⟨ht, hcopy⟩ := h.loaded k hk.1 hk.2
  refine node_eq_some.mpr ⟨h.inum_lt k hk.1, ?_, ?_⟩
  · rw [← hcopy]
    exact ht
  · rw [hcopy]

theorem Inv.contents_congr (h : Inv sb s) (hj : j < sb.ninodes) (ht : (s.dinode sb j).type ≠ 0)
    {buf : ℕ → Block} (hbuf : ∀ c, sb.nmeta ≤ c → buf c = s.buf c) :
    (s.dinode sb j).contents buf = (s.dinode sb j).contents s.buf := by
  have hat : ∀ p, (s.dinode sb j).blockAt buf p = (s.dinode sb j).blockAt s.buf p := by
    refine Dinode.blockAt_congr rfl fun hind => hbuf _ ?_
    have hx : slots sb s.buf (s.dinode sb) (j, .indirect) = some _ :=
      slots_eq_some.mpr ⟨hj, ht, hind, rfl⟩
    exact h.sound.nmeta_le hx
  unfold Dinode.contents
  apply List.map_congr_left
  intro m hm
  have hsize : m / BSIZE * BSIZE < (s.dinode sb j).size :=
    (Nat.div_mul_le_self m BSIZE).trans_lt (List.mem_range.mp hm)
  obtain ⟨b, hb⟩ := Option.isSome_iff_exists.mp (h.sound.mapped j hj ht _ hsize).2
  apply byte_congr (hat _)
  rw [(slots_eq_some.mp hb).2.2.2, hbuf b (h.sound.nmeta_le hb)]

/-- When one inode changes, the others keep their bytes if they keep their blocks. -/
theorem node_eq_update {o : Option Node} (hself : t.node sb i = o)
    (hother : ∀ j < sb.ninodes, j ≠ i → t.dinode sb j = s.dinode sb j)
    (hcontents : ∀ j < sb.ninodes, j ≠ i → (s.dinode sb j).type ≠ 0 →
      (s.dinode sb j).contents t.buf = (s.dinode sb j).contents s.buf) :
    t.node sb = update (s.node sb) i o := by
  funext j
  by_cases hj : j = i
  · rw [hj, update_self, hself]
  rw [update_of_ne hj]
  unfold node
  by_cases hjn : j < sb.ninodes
  · rw [hother j hjn hj]
    by_cases ht : (s.dinode sb j).type = 0
    · simp [ht]
    · rw [if_pos ⟨hjn, ht⟩, if_pos ⟨hjn, ht⟩, Dinode.node, hcontents j hjn hj ht, Dinode.node]
  · rw [if_neg fun h => hjn h.1, if_neg fun h => hjn h.1]

/-! ### The table -/

/-- Reference counts are as before, and so are the entries in use. -/
def SameHeld (s t : Fs) : Prop :=
  ∀ k, (t.itable k).ref = (s.itable k).ref ∧
    (s.Held k → (t.itable k).inum = (s.itable k).inum ∧ (t.itable k).valid = (s.itable k).valid)

theorem SameTable.sameHeld (h : SameTable s t) : SameHeld s t :=
  fun k => ⟨(h k).2.1, fun _ => ⟨(h k).1, (h k).2.2⟩⟩

theorem SameHeld.held (h : SameHeld s t) : t.Held k ↔ s.Held k := by
  unfold Held
  rw [(h k).1]

theorem SameHeld.loaded (h : SameHeld s t) (hk : s.Loaded k) : t.Loaded k :=
  ⟨h.held.mpr hk.1, ((h k).2 hk.1).2.trans hk.2⟩

/-- An operation on entry `k` that leaves the rest of the table alone. -/
structure OnEntry (k : ℕ) (s t : Fs) : Prop where
  table : ∀ l ≠ k, t.itable l = s.itable l
  inum : (t.itable k).inum = (s.itable k).inum

inductive Gets (i : ℕ) (s : Fs) : Except Panic (ℕ × Fs) → Prop
  | full : Gets i s (.error "iget: no inodes")
  | found {k : ℕ} (hk : s.Held k) (hi : (s.itable k).inum = i) :
      Gets i s (.ok (k, s.setInode k { s.itable k with ref := (s.itable k).ref + 1 }))
  | fresh {k : ℕ} (hlt : k < NINODE) (hk : (s.itable k).ref = 0)
      (hnew : ∀ l < NINODE, s.Held l → (s.itable l).inum ≠ i) :
      Gets i s (.ok (k, s.setInode k { s.itable k with inum := i, ref := 1, valid := false }))

theorem gets_iget (s : Fs) (i : ℕ) : Gets i s (s.iget i) := by
  rcases iget_cases s i with herr | ⟨k, hk, hi, hok⟩ | ⟨k, hlt, hk, hnew, hok⟩
  · rw [herr]
    exact .full
  · rw [hok]
    exact .found hk hi
  · rw [hok]
    exact .fresh hlt hk hnew

inductive Locks (sb : Superblock) (k : ℕ) (s : Fs) : Except Panic Fs → Prop
  | free (hv : (s.itable k).valid = false) (hn : s.node sb (s.itable k).inum = none) :
      Locks sb k s (.error "ilock: no type")
  | done {t : Fs} (hinv : Inv sb t) (hon : OnEntry k s t)
      (href : (t.itable k).ref = (s.itable k).ref)
      (hv : (t.itable k).valid = true) (hnode : t.node sb = s.node sb) : Locks sb k s (.ok t)

theorem Inv.locks (h : Inv sb s) (hk : s.Held k) : Locks sb k s (s.ilock sb k) := by
  have hk' : 0 < (s.itable k).ref := hk
  have hres := h.ilock hk
  unfold Fs.ilock at hres ⊢
  simp only [if_neg (by omega : ¬ (s.itable k).ref < 1)] at hres ⊢
  split_ifs at hres ⊢ with hv ht
  · exact .done h ⟨fun _ _ => rfl, rfl⟩ rfl hv rfl
  · exact .free (by simpa using hv) ((node_eq_none (h.inum_lt k hk)).mpr ht)
  · rcases hres with herr | ⟨t, hok, hinv⟩
    · cases herr
    · obtain rfl := Except.ok.inj hok
      refine .done hinv ⟨fun l hl => update_of_ne hl _ _, ?_⟩ ?_ ?_ rfl <;>
        simp only [setInode_itable, update_self]

inductive Drops (sb : Superblock) (k : ℕ) (s : Fs) : Except Panic Fs → Prop
  | kept {t : Fs} (hinv : Inv sb t) (hon : OnEntry k s t)
      (href : (t.itable k).ref = (s.itable k).ref - 1)
      (hv : (t.itable k).valid = (s.itable k).valid) (hnode : t.node sb = s.node sb)
      (hwhy : (s.itable k).ref = 1 → s.Loaded k →
        ∀ x, s.node sb (s.itable k).inum = some x → x.nlink ≠ 0) : Drops sb k s (.ok t)
  | freed {t : Fs} {x : Node} (hinv : Inv sb t) (hon : OnEntry k s t) (hone : (s.itable k).ref = 1)
      (hl : s.Loaded k) (href : (t.itable k).ref = 0) (hx : s.node sb (s.itable k).inum = some x)
      (hlink : x.nlink = 0)
      (hnode : t.node sb = update (s.node sb) (s.itable k).inum none) :
      Drops sb k s (.ok t)

theorem Inv.drops (h : Inv sb s) (hk : s.Held k) : Drops sb k s (s.iput sb k) := by
  obtain ⟨t, hok, hinv⟩ := h.iput hk
  rw [hok]
  unfold Fs.iput at hok
  by_cases hfree : (s.itable k).ref = 1 ∧ (s.itable k).valid = true ∧ (s.itable k).nlink = 0
  swap
  · simp only [if_neg hfree, bind, Except.bind] at hok
    obtain rfl := Except.ok.inj hok
    refine .kept hinv ⟨fun l hl => update_of_ne hl _ _, ?_⟩ ?_ ?_ rfl ?_
    · simp only [setInode_itable, update_self]
    · simp only [setInode_itable, update_self]
    · simp only [setInode_itable, update_self]
    · intro hone hl x hx hlink
      rw [h.node_of_loaded hl] at hx
      obtain rfl := Option.some.inj hx
      exact hfree ⟨hone, hl.2, hlink⟩
  have hloaded : s.Loaded k := ⟨hk, hfree.2.1⟩
  obtain ⟨s₁, hs₁, htr⟩ := itrunc_spec (h.locked hk hfree.2.1)
  simp only [if_pos hfree, hs₁, bind, Except.bind] at hok
  obtain rfl := Except.ok.inj hok
  set s₂ := s₁.setInode k { s₁.itable k with type := 0 } with hs₂
  have hself₂ : s₂.itable k =
      { s.itable k with size := 0, addrs := fun _ => 0, type := 0 } := by
    rw [hs₂, setInode_itable, update_self, htr.self]
  have hinum₂ : (s₂.itable k).inum = (s.itable k).inum := by rw [hself₂]
  have hfits : (s₂.itable k).Fits := by
    rw [hself₂]
    exact ⟨by simp, fun _ => by simp⟩
  have hlt : (s₂.itable k).inum < sb.ninodes := hinum₂ ▸ h.inum_lt k hk
  refine .freed hinv ⟨fun l hl => ?_, ?_⟩ hfree.1 hloaded ?_ (h.node_of_loaded hloaded)
    hfree.2.2 (node_eq_update ?_ ?_ ?_)
  · simp only [setInode_itable, update_of_ne hl, iupdate_itable, hs₂]
    exact htr.table l hl
  · simp only [setInode_itable, update_self, iupdate_itable, hinum₂]
  · simp only [setInode_itable, update_self, iupdate_itable, hself₂, hfree.1]
  · rw [node_setInode, node_setInode, ← hinum₂, node_eq_none hlt, iupdate_dinode hfits,
      inodes_inum, hself₂]
  · intro j hj hne
    change (s₂.iupdate sb k).dinode sb j = _
    rw [iupdate_dinode hfits, inodes_of_ne (hinum₂ ▸ hne)]
    exact htr.other j hj hne
  · intro j hj _ ht
    apply h.contents_congr hj ht
    intro c hc
    change (s₂.iupdate sb k).buf c = _
    rw [iupdate_buf hlt hc, hs₂, setInode_buf, htr.buf c hc]

inductive Allocs (sb : Superblock) (type : Short) (s : Fs) : Except Panic (Option ℕ × Fs) → Prop
  | none (hall : ∀ i, 1 ≤ i → i < sb.ninodes → s.node sb i ≠ none) :
      Allocs sb type s (.ok (none, s))
  | full : Allocs sb type s (.error "iget: no inodes")
  | some {i k : ℕ} {u t : Fs} (hi : 1 ≤ i) (hlt : i < sb.ninodes) (hfree : s.node sb i = none)
      (hinv : Inv sb u) (htable : u.itable = s.itable)
      (hnode : u.node sb = update (s.node sb) i (.some ⟨type, 0, 0, 0, []⟩))
      (hget : u.iget i = .ok (k, t)) : Allocs sb type s (.ok (.some k, t))

theorem Inv.allocs (h : Inv sb s) {type : Short} (htype : type ≠ 0) :
    Allocs sb type s (s.ialloc sb type) := by
  unfold Fs.ialloc
  cases hfind : (List.range' 1 (sb.ninodes - 1)).find?
      fun inum => (s.dinode sb inum).type = 0 with
  | none =>
    refine .none fun i hi hlt hn => ?_
    have hmem : i ∈ List.range' 1 (sb.ninodes - 1) := List.mem_range'_1.mpr (by omega)
    have hne := List.find?_eq_none.mp hfind i hmem
    exact hne (decide_eq_true ((node_eq_none hlt).mp hn))
  | some i =>
    have hfree := List.find?_some hfind
    rw [decide_eq_true_eq] at hfree
    have hmem := List.mem_range'_1.mp (List.mem_of_find?_eq_some hfind)
    have hlt : i < sb.ninodes := by omega
    set d : Dinode := { Dinode.zero with type := type } with hd
    set u := s.logWrite (sb.iblock i) (d.write (s.buf (sb.iblock i)) (i % IPB)) with hu
    have hinv : Inv sb u := h.alloc hlt hfree type rfl rfl
    have hdinode : ∀ j, u.dinode sb j = if j = i then d else s.dinode sb j := by
      intro j
      rw [hu, dinode_logWrite (d := d) ⟨Dinode.fits_zero.size, Dinode.fits_zero.addrs⟩]
    have hnode : u.node sb = update (s.node sb) i (.some ⟨type, 0, 0, 0, []⟩) := by
      apply node_eq_update
      · refine node_eq_some.mpr ⟨hlt, ?_, ?_⟩
        · rw [hdinode, if_pos rfl]
          exact htype
        · rw [hdinode, if_pos rfl]
          rfl
      · intro j _ hj
        rw [hdinode, if_neg hj]
      · intro j hj _ ht
        apply h.contents_congr hj ht
        intro c hc
        have hblock := sb.iblock_lt hlt
        rw [hu, logWrite_buf, update_of_ne (by omega)]
    cases hget : u.iget i with
    | error msg =>
      have hgets := gets_iget u i
      rw [hget] at hgets
      cases hgets
      simp only [← hu, hget, bind, Except.bind]
      exact .full
    | ok r =>
      simp only [← hu, hget, bind, Except.bind]
      exact .some hmem.1 hlt ((node_eq_none hlt).mpr hfree) hinv rfl hnode hget

/-! ### Inodes in use -/

/-- The inode of entry `k` has become `y`, and nothing else has changed. -/
structure Edits (sb : Superblock) (k : ℕ) (y : Node) (s t : Fs) : Prop where
  inv : Inv sb t
  table : SameHeld s t
  node : t.node sb = update (s.node sb) (s.itable k).inum (some y)

theorem Edits.of_written (hinv : Inv sb t) (hk : s.Held k)
    (htable : ∀ l ≠ k, t.itable l = s.itable l) {ip : Inode} (hself : t.itable k = ip)
    (hsame : ip.inum = (s.itable k).inum ∧ ip.ref = (s.itable k).ref ∧
      ip.valid = (s.itable k).valid)
    (hv : (s.itable k).valid = true)
    (hother : ∀ j < sb.ninodes, j ≠ (s.itable k).inum → t.dinode sb j = s.dinode sb j)
    (hcontents : ∀ j < sb.ninodes, j ≠ (s.itable k).inum → (s.dinode sb j).type ≠ 0 →
      (s.dinode sb j).contents t.buf = (s.dinode sb j).contents s.buf) :
    Edits sb k (ip.node t.buf) s t := by
  have hrow : SameTable s t := sameTable_of_entry htable (by rw [hself]; exact hsame)
  refine ⟨hinv, hrow.sameHeld, node_eq_update ?_ hother hcontents⟩
  rw [← (hrow k).1, hinv.node_of_loaded (hrow.loaded ⟨hk, hv⟩), hself]

theorem Inv.edits_writei (h : Inv sb s) (hk : s.Loaded k)
    (hx : s.node sb (s.itable k).inum = some x) (src : Source) (hoff : off < 2 ^ 32)
    (hn : n < 2 ^ 32) : Ends (fun _ => False)
      (fun r : ℤ × Fs => ∃ data, Edits sb k { x with data := data } s r.2 ∧ (n ≤ src.avail →
        r = (-1, s) ∨ ∃ tot : ℕ, r.1 = tot ∧
          data = overwrite x.data off ((List.range tot).map src.byte)))
      (s.writei sb k src off n) := by
  have hnode := h.node_of_loaded hk
  rw [hx] at hnode
  obtain rfl := Option.some.inj hnode
  have hrefuse : ∃ data, Edits sb k { (s.itable k).node s.buf with data := data } s s :=
    ⟨_, h, fun _ => ⟨rfl, fun _ => ⟨rfl, rfl⟩⟩, by rw [← hx, update_eq_self]⟩
  by_cases hwrap : off + n < 2 ^ 32
  swap
  · rw [writei_of_wrap (by omega) hoff hn]
    obtain ⟨data, hedit⟩ := hrefuse
    exact ⟨data, hedit, fun _ => .inl rfl⟩
  by_cases hout : (s.itable k).size < off ∨ MAXFILE * BSIZE < off + n
  · rw [writei_of_invalid hout hwrap]
    obtain ⟨data, hedit⟩ := hrefuse
    exact ⟨data, hedit, fun _ => .inl rfl⟩
  obtain ⟨tot, top, t, hok, hw, htot, hfull, -⟩ :=
    writei_of_valid src (h.locked hk.1 hk.2) (by omega : off ≤ (s.itable k).size)
      (by omega : off + n ≤ MAXFILE * BSIZE)
  obtain ⟨a, hself⟩ := hw.self
  have hedit := Edits.of_written (h.of_writes hk.1 hk.2 hw) hk.1 hw.table hself ⟨rfl, rfl, rfl⟩
    hk.2 hw.other fun j hj hne ht => hw.other j hj hne ▸ hw.contents j hj hne ht
  rw [hok]
  refine ⟨_, hedit, fun hav => .inr ⟨tot, rfl, ?_⟩⟩
  obtain ⟨rfl, -⟩ := hfull hav
  have hdata := hw.contents_self (by omega)
  simp only [Nat.add_sub_cancel_left, hself] at hdata
  exact hdata

theorem Inv.edits_itrunc (h : Inv sb s) (hk : s.Loaded k)
    (hx : s.node sb (s.itable k).inum = some x) :
    ∃ t, s.itrunc sb k = .ok t ∧ Edits sb k { x with data := [] } s t := by
  have hnode := h.node_of_loaded hk
  rw [hx] at hnode
  obtain rfl := Option.some.inj hnode
  obtain ⟨t, hok, hinv⟩ := h.itrunc hk.1 hk.2
  obtain ⟨t', hok', htr⟩ := itrunc_spec (h.locked hk.1 hk.2)
  obtain rfl : t = t' := Except.ok.inj (hok.symm.trans hok')
  refine ⟨t, hok, Edits.of_written hinv hk.1 htr.table htr.self ⟨rfl, rfl, rfl⟩ hk.2 htr.other ?_⟩
  intro j hj _ ht
  exact h.contents_congr hj ht htr.buf

theorem Inv.edits_iupdate (h : Inv sb s) (hk : s.Loaded k)
    (hx : s.node sb (s.itable k).inum = some x) (major minor nlink : Short) :
    Edits sb k { x with major := major, minor := minor, nlink := nlink } s
      ((s.setInode k
        { s.itable k with major := major, minor := minor, nlink := nlink }).iupdate sb k) := by
  have hnode := h.node_of_loaded hk
  rw [hx] at hnode
  obtain rfl := Option.some.inj hnode
  have hinv := h.iupdate hk.1 hk.2 major minor nlink
  set s₁ := s.setInode k { s.itable k with major := major, minor := minor, nlink := nlink } with hs₁
  have hself : s₁.itable k =
      { s.itable k with major := major, minor := minor, nlink := nlink } := by
    rw [hs₁, setInode_itable, update_self]
  have hlt := h.inum_lt k hk.1
  have hfits : (s₁.itable k).Fits := by
    obtain ⟨ht, hcopy⟩ := h.loaded k hk.1 hk.2
    have hold := h.sound.fits hlt (hcopy ▸ ht)
    rw [← hcopy] at hold
    rw [hself]
    exact ⟨hold.size, hold.addrs⟩
  have hbuf : ∀ c, sb.nmeta ≤ c → (s₁.iupdate sb k).buf c = s.buf c := by
    intro c hc
    rw [iupdate_buf (by rw [hself]; exact hlt) hc]
    rfl
  have hsame : (s₁.iupdate sb k).itable k = s₁.itable k := rfl
  have hedit := Edits.of_written hinv hk.1
    (by intro l hl; rw [iupdate_itable, hs₁, setInode_itable, update_of_ne hl])
    hsame (by rw [hself]; exact ⟨rfl, rfl, rfl⟩) hk.2
    (by
      intro j _ hj
      rw [iupdate_dinode hfits, inodes_of_ne (by rw [hself]; exact hj)]
      rfl)
    (fun j hj _ ht => h.contents_congr hj ht hbuf)
  have hcontents := h.contents_congr hlt ((h.loaded k hk.1 hk.2).2 ▸ (h.loaded k hk.1 hk.2).1) hbuf
  rw [← (h.loaded k hk.1 hk.2).2] at hcontents
  have hy : (s₁.itable k).node (s₁.iupdate sb k).buf =
      { (s.itable k).node s.buf with major := major, minor := minor, nlink := nlink } := by
    rw [hself]
    unfold Dinode.node
    simp only [Node.mk.injEq, true_and]
    exact hcontents
  rwa [hy] at hedit

end Fs

end Xv6
