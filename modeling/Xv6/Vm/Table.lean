import Xv6.Vm.Basic
import Xv6.Lib.Radix

/-!
# Page tables as radix trees

A page-table page is a node with 512 entries and a valid entry of the two upper levels
points to a node.  `walk` follows the path that the two upper indices of an address
spell; with `alloc` it adds blank nodes from the free list where the path breaks off.
-/

namespace Xv6.Vm

open Lib

/-! ## Entries -/

def frame (pte : ℕ) : ℕ := pte / 1024 % 2 ^ 52

def child (pte : ℕ) : Option ℕ := if pte &&& PTE_V ≠ 0 then some (frame pte) else none

theorem PTE2PA_eq (pte : ℕ) : PTE2PA pte = PGSIZE * frame pte := by
  unfold PTE2PA frame PGSIZE
  omega

theorem and_V_ne_zero {pte : ℕ} : pte &&& PTE_V ≠ 0 ↔ pte % 2 = 1 := by
  rw [PTE_V, Nat.and_one_is_mod]
  omega

/-- An entry is a page number above ten bits of flags. -/
theorem PA2PTE_or {f flags : ℕ} (h : flags < 1024) :
    PA2PTE (PGSIZE * f) ||| flags = f * 1024 + flags := by
  have hf : PA2PTE (PGSIZE * f) = 2 ^ 10 * f := by
    unfold PA2PTE PGSIZE
    omega
  rw [hf, ← Nat.two_pow_add_eq_or_of_lt h]
  omega

theorem frame_of_flags {f flags : ℕ} (hf : f < 2 ^ 52) (h : flags < 1024) :
    frame (f * 1024 + flags) = f := by
  unfold frame
  omega

@[simp] theorem child_zero : child 0 = none := by simp [child]

/-! ## Nodes -/

def entries (m : Bytes) (f : ℕ) (i : Fin 512) : ℕ := getWord 8 m (PGSIZE * f + 8 * i)

theorem entries_lt (m : Bytes) (f : ℕ) (i : Fin 512) : entries m f i < 2 ^ 64 :=
  getWord_lt 8 m _

theorem entries_congr {m m' : Bytes} {f : ℕ}
    (h : ∀ o < PGSIZE, m' (PGSIZE * f + o) = m (PGSIZE * f + o)) : entries m' f = entries m f := by
  funext i
  apply getWord_congr
  intro j hj
  have hi := i.isLt
  rw [Nat.add_assoc]
  exact h _ (by unfold PGSIZE; omega)

theorem entries_setWord {m : Bytes} {f e : ℕ} {i : Fin 512} (he : e < 2 ^ 64) :
    entries (setWord 8 m (PGSIZE * f + 8 * i) e) = Radix.set (entries m) f i e := by
  funext g j
  have hi := i.isLt
  have hj := j.isLt
  by_cases hgf : g = f
  · subst hgf
    by_cases hji : j = i
    · subst hji
      rw [Radix.set_self]
      exact getWord_setWord_self 8 m _ he
    · have hne : (j : ℕ) ≠ i := fun h => hji (Fin.ext h)
      rw [Radix.set_of_ne (.inr hji)]
      exact getWord_setWord_of_disjoint m (by omega)
  · rw [Radix.set_of_ne (.inl hgf)]
    exact getWord_setWord_of_disjoint m (by unfold PGSIZE; omega)

def idx (level va : ℕ) : Fin 512 := ⟨PX level va, Nat.mod_lt _ (by decide)⟩

/-- The indices that `walk` follows from a level down. -/
def idxs (va : ℕ) : ℕ → List (Fin 512)
  | 0 => []
  | level + 1 => idx (level + 1) va :: idxs va level

@[simp] theorem length_idxs (va level : ℕ) : (idxs va level).length = level := by
  induction level with
  | zero => rfl
  | succ level ih => simp [idxs, ih]

/-- The path to the lowest-level table of an address. -/
def path (va : ℕ) : List (Fin 512) := idxs va 2

@[simp] theorem length_path (va : ℕ) : (path va).length = 2 := length_idxs va 2

theorem page_eq_iff {v w : ℕ} (hv : v < MAXVA) (hw : w < MAXVA) :
    path v = path w ∧ idx 0 v = idx 0 w ↔ v / PGSIZE = w / PGSIZE := by
  simp only [path, idxs, idx, PX, List.cons.injEq, Fin.mk.injEq, and_true, Nat.reduceMul,
    Nat.reduceAdd, Nat.reducePow, PGSIZE, MAXVA] at *
  omega

def node (m : Bytes) (r : ℕ) (p : List (Fin 512)) : Option ℕ := Radix.node child (entries m) r p

/-- The pages of the page table whose root is page `r`. -/
def Tables (m : Bytes) (r : ℕ) : Set ℕ := {f | ∃ p, p.length ≤ 2 ∧ node m r p = some f}

/-- The page table whose root is page `r` is a tree: each of its pages is reached by one
path, and the valid entries above the lowest level are pointers. -/
structure IsTree (m : Bytes) (r : ℕ) : Prop where
  tree : Radix.Tree child (entries m) r 2
  pointer : ∀ p f i, p.length < 2 → node m r p = some f → entries m f i &&& PTE_V ≠ 0 →
    entries m f i &&& (PTE_R ||| PTE_W ||| PTE_X) = 0
  ne_zero : ∀ f ∈ Tables m r, f ≠ 0

/-- The level-0 entry of an address; 0 if it has no level-0 table. -/
def leaf (m : Bytes) (r va : ℕ) : ℕ := (node m r (path va)).elim 0 fun f => entries m f (idx 0 va)

variable {m m' : Bytes} {r f va v e : ℕ} {i : Fin 512} {p : List (Fin 512)}

theorem leaf_of_node (h : node m r (path va) = some f) : leaf m r va = entries m f (idx 0 va) := by
  rw [leaf, h, Option.elim_some]

theorem node_of_leaf (h : leaf m r va ≠ 0) : ∃ f, node m r (path va) = some f := by
  cases hn : node m r (path va) with
  | none =>
    rw [leaf, hn, Option.elim_none] at h
    exact absurd rfl h
  | some f => exact ⟨f, rfl⟩

theorem leaf_of_page {w : ℕ} (h : v / PGSIZE = w / PGSIZE) : leaf m r v = leaf m r w := by
  have hpx : ∀ level, PX level v = PX level w := by
    intro level
    unfold PX
    rw [Nat.pow_add, ← Nat.div_div_eq_div_mul, ← Nat.div_div_eq_div_mul]
    exact congrArg (· / 2 ^ (9 * level) % 512) h
  have hidx : ∀ level, idx level v = idx level w := fun level => Fin.ext (hpx level)
  simp only [leaf, path, idxs, hidx]

theorem slot_page (f va : ℕ) : (PGSIZE * f + 8 * PX 0 va) / PGSIZE = f := by
  have hpx : PX 0 va < 512 := (idx 0 va).isLt
  generalize PX 0 va = x at *
  unfold PGSIZE
  omega

theorem slot_mod (f va : ℕ) : (PGSIZE * f + 8 * PX 0 va) % 8 = 0 := by
  generalize PX 0 va = x
  unfold PGSIZE
  omega

theorem mem_tables (hp : p.length ≤ 2) (h : node m r p = some f) : f ∈ Tables m r := ⟨p, hp, h⟩

theorem root_mem_tables (m : Bytes) (r : ℕ) : r ∈ Tables m r := ⟨[], Nat.zero_le 2, rfl⟩

theorem node_congr (h : ∀ f ∈ Tables m r, ∀ o < PGSIZE, m' (PGSIZE * f + o) = m (PGSIZE * f + o))
    (hp : p.length ≤ 2) : node m' r p = node m r p :=
  Radix.node_congr (fun q _ hq hn => entries_congr (h _ (mem_tables (p := q) hq.le hn))) hp

theorem tables_congr
    (h : ∀ f ∈ Tables m r, ∀ o < PGSIZE, m' (PGSIZE * f + o) = m (PGSIZE * f + o)) :
    Tables m' r = Tables m r := by
  ext f
  refine exists_congr fun p => and_congr_right fun hp => ?_
  rw [node_congr h hp]

theorem leaf_congr (h : ∀ f ∈ Tables m r, ∀ o < PGSIZE, m' (PGSIZE * f + o) = m (PGSIZE * f + o)) :
    leaf m' r va = leaf m r va := by
  unfold leaf
  rw [node_congr h (length_path va).le]
  cases hn : node m r (path va) with
  | none => simp only [Option.elim_none]
  | some f =>
    have hf : f ∈ Tables m r := mem_tables (length_path va).le hn
    simp only [Option.elim_some, entries_congr (h f hf)]

theorem IsTree.congr (ht : IsTree m r)
    (h : ∀ f ∈ Tables m r, ∀ o < PGSIZE, m' (PGSIZE * f + o) = m (PGSIZE * f + o)) :
    IsTree m' r := by
  refine ⟨ht.tree.congr fun q hq => node_congr h hq, fun p f i hp hn => ?_, ?_⟩
  · rw [node_congr h hp.le] at hn
    rw [entries_congr (h f (mem_tables hp.le hn))]
    exact ht.pointer p f i hp hn
  · rw [tables_congr h]
    exact ht.ne_zero

/-! ## A blank table -/

section blank

variable (hblank : ∀ i, entries m r i = 0)

include hblank in
theorem node_blank : node m r p = if p = [] then some r else none := by
  cases p with
  | nil => rfl
  | cons i p => simp [node, Radix.node, hblank]

include hblank in
theorem tables_blank : Tables m r = {r} := by
  ext f
  constructor
  · rintro ⟨p, -, hp⟩
    rw [node_blank hblank] at hp
    split_ifs at hp
    exact (Option.some.inj hp).symm
  · rintro rfl
    exact ⟨[], Nat.zero_le 2, rfl⟩

include hblank in
theorem leaf_blank (va : ℕ) : leaf m r va = 0 := by
  rw [leaf, node_blank hblank]
  rfl

include hblank in
theorem isTree_blank (hr : r ≠ 0) : IsTree m r := by
  refine ⟨fun p q f _ _ hp hq => ?_, fun p f i _ hp hv => ?_, ?_⟩
  · change node m r p = some f at hp
    change node m r q = some f at hq
    rw [node_blank hblank] at hp hq
    split_ifs at hp hq with h1 h2
    rw [h1, h2]
  · rw [node_blank hblank] at hp
    split_ifs at hp
    rw [← Option.some.inj hp, hblank] at hv
    exact absurd (by decide) hv
  · rw [tables_blank hblank]
    rintro f rfl
    exact hr

end blank

/-! ## A store into a level-0 table -/

section setLeaf

variable (ht : IsTree m r) (hn : node m r (path va) = some f) (he : e < 2 ^ 64)
  (hm : m' = setWord 8 m (PGSIZE * f + 8 * PX 0 va) e)

include hm he in
theorem entries_setLeaf : entries m' = Radix.set (entries m) f (idx 0 va) e := by
  rw [hm]
  exact entries_setWord (i := idx 0 va) he

include ht hn he hm in
theorem node_setLeaf (hp : p.length ≤ 2) : node m' r p = node m r p := by
  unfold node
  rw [entries_setLeaf he hm]
  exact ht.tree.node_set (length_path va) hn hp

include ht hn he hm in
theorem tables_setLeaf : Tables m' r = Tables m r := by
  ext g
  refine exists_congr fun p => and_congr_right fun hp => ?_
  rw [node_setLeaf ht hn he hm hp]

include ht hn he hm in
theorem isTree_setLeaf : IsTree m' r := by
  refine ⟨ht.tree.congr fun q hq => node_setLeaf ht hn he hm hq, fun p g i hp hg => ?_, ?_⟩
  · rw [node_setLeaf ht hn he hm hp.le] at hg
    have hne : g ≠ f := by
      rintro rfl
      have := ht.tree p (path va) g hp.le (length_path va).le hg hn
      rw [this, length_path] at hp
      exact lt_irrefl _ hp
    rw [entries_setLeaf he hm, Radix.set_of_node_ne hne]
    exact ht.pointer p g i hp hg
  · rw [tables_setLeaf ht hn he hm]
    exact ht.ne_zero

include ht hn he hm in
theorem leaf_setLeaf (hva : va < MAXVA) (hv : v < MAXVA) :
    leaf m' r v = if v / PGSIZE = va / PGSIZE then e else leaf m r v := by
  unfold leaf
  rw [node_setLeaf ht hn he hm (length_path v).le, entries_setLeaf he hm]
  split_ifs with hpage
  · obtain ⟨hpath, hidx⟩ := (page_eq_iff hv hva).mpr hpage
    rw [hpath, hn, hidx]
    exact Radix.set_self
  · cases hg : node m r (path v) with
    | none => simp only [Option.elim_none]
    | some g =>
      have hne : g ≠ f ∨ idx 0 v ≠ idx 0 va := by
        by_contra hor
        obtain ⟨rfl, hidx⟩ := not_or.mp hor |>.imp not_not.mp not_not.mp
        have hpath := ht.tree _ _ g (length_path v).le (length_path va).le hg hn
        exact hpage ((page_eq_iff hv hva).mp ⟨hpath, hidx⟩)
      exact Radix.set_of_ne hne

end setLeaf

/-- The entries of the root that no address below `MAXVA` leads to are the same. -/
def SameTop (r : ℕ) (m m' : Bytes) : Prop :=
  ∀ i : Fin 512, 256 ≤ (i : ℕ) → entries m' r i = entries m r i

theorem SameTop.refl (r : ℕ) (m : Bytes) : SameTop r m m := fun _ _ => rfl

theorem SameTop.trans {m₁ : Bytes} (h : SameTop r m m₁) (h' : SameTop r m₁ m') : SameTop r m m' :=
  fun i hi => (h' i hi).trans (h i hi)

theorem sameTop_setLeaf (ht : IsTree m r) (hn : node m r (path va) = some f) (he : e < 2 ^ 64)
    (hm : m' = setWord 8 m (PGSIZE * f + 8 * PX 0 va) e) : SameTop r m m' := by
  have hne : r ≠ f := by
    rintro rfl
    have := ht.tree [] (path va) r (by simp) (length_path va).le rfl hn
    simp [path, idxs] at this
  intro i _
  rw [entries_setLeaf he hm, Radix.set_of_node_ne hne]

theorem idx_two_lt (h : va < MAXVA) : (idx 2 va : ℕ) < 256 := by
  simp only [idx, PX, MAXVA] at *
  omega

theorem slot_inj {w g : ℕ} (ht : IsTree m r) (hv : v < MAXVA) (hw : w < MAXVA)
    (hf : node m r (path v) = some f) (hg : node m r (path w) = some g)
    (h : PGSIZE * f + 8 * PX 0 v = PGSIZE * g + 8 * PX 0 w) : v / PGSIZE = w / PGSIZE := by
  have h1 := (idx 0 v).isLt
  have h2 := (idx 0 w).isLt
  change PX 0 v < 512 at h1
  change PX 0 w < 512 at h2
  obtain ⟨rfl, hpx⟩ : f = g ∧ PX 0 v = PX 0 w := by
    unfold PGSIZE at h
    omega
  have hpath := ht.tree _ _ f (length_path v).le (length_path w).le hf hg
  exact (page_eq_iff hv hw).mp ⟨hpath, Fin.ext hpx⟩

end Xv6.Vm
