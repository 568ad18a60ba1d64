import Xv6.Vm.Table

/-!
# Walking and growing a page table

`walk` either finds the slot of an address or adds the tables that are missing on the
way, one free page each.  What it adds maps nothing, so no lookup changes.
-/

namespace Xv6.Vm

open Lib

variable {k k' k₁ : Kernel} {r f g va v level : ℕ} {i : Fin 512} {p : List (Fin 512)} {L L' : ℕ → ℕ}

/-! ## The free list -/

structure FreeList (k : Kernel) : Prop where
  nodup : k.freelist.Nodup
  page : ∀ pa ∈ k.freelist, pa % PGSIZE = 0 ∧ pa ≠ 0 ∧ pa < 2 ^ 56

def Kernel.Free (k : Kernel) (f : ℕ) : Prop := PGSIZE * f ∈ k.freelist

def SamePage (k k' : Kernel) (f : ℕ) : Prop :=
  ∀ o < PGSIZE, k'.mem (PGSIZE * f + o) = k.mem (PGSIZE * f + o)

theorem SamePage.refl (k : Kernel) (f : ℕ) : SamePage k k f := fun _ _ => rfl

theorem SamePage.trans (h : SamePage k k₁ f) (h' : SamePage k₁ k' f) : SamePage k k' f :=
  fun o ho => (h' o ho).trans (h o ho)

theorem in_page_iff {x : ℕ} : PGSIZE * f ≤ x ∧ x < PGSIZE * f + PGSIZE ↔ x / PGSIZE = f := by
  unfold PGSIZE
  omega

theorem memset_page (k : Kernel) (f : ℕ) (c : UInt8) :
    (k.memset (PGSIZE * f) c PGSIZE).mem = fun x => if x / PGSIZE = f then c else k.mem x := by
  funext x
  simp only [Kernel.memset, in_page_iff]

theorem samePage_memset (h : g ≠ f) (c : UInt8) :
    SamePage k (k.memset (PGSIZE * f) c PGSIZE) g := by
  intro o ho
  have hx : (PGSIZE * g + o) / PGSIZE ≠ f := by
    unfold PGSIZE at *
    omega
  rw [memset_page]
  exact if_neg hx

theorem samePage_store {a w : ℕ} (h : a / PGSIZE ≠ g) (ha : a % 8 = 0) :
    SamePage k (k.store a w) g := by
  intro o ho
  refine setWord_of_outside k.mem ?_
  unfold PGSIZE at *
  omega

/-- `kalloc` fails and changes nothing, or it takes the first page and fills it with junk. -/
theorem kalloc_cases (h : FreeList k) :
    (∃ busy, k.kalloc = (0, { k with busy := busy })) ∨
      ∃ f freelist busy, k.freelist = PGSIZE * f :: freelist ∧ f ≠ 0 ∧ f < 2 ^ 44 ∧
        k.kalloc = (PGSIZE * f,
          { k with freelist := freelist, busy := busy }.memset (PGSIZE * f) 5 PGSIZE) := by
  have htake : ∀ r rest busy, k.freelist = r :: rest →
      ∃ f freelist busy', k.freelist = PGSIZE * f :: freelist ∧ f ≠ 0 ∧ f < 2 ^ 44 ∧
        (r, { k with freelist := rest, busy := busy }.memset r 5 PGSIZE) = (PGSIZE * f,
          { k with freelist := freelist, busy := busy' }.memset (PGSIZE * f) 5 PGSIZE) := by
    intro r rest busy hfree
    obtain ⟨hmod, hne, hlt⟩ := h.page r (by simp [hfree])
    obtain ⟨f, rfl⟩ : ∃ f, r = PGSIZE * f := ⟨r / PGSIZE, by unfold PGSIZE at *; omega⟩
    refine ⟨f, rest, busy, hfree, ?_, ?_, rfl⟩
    · rintro rfl
      exact hne rfl
    · unfold PGSIZE at hlt
      omega
  unfold Kernel.kalloc
  split
  · exact .inl ⟨_, rfl⟩
  · exact .inl ⟨_, rfl⟩
  · rename_i hfree _
    exact .inr (htake _ _ _ hfree)

/-! ## Entries change -/

/-- The free pages are not in the page table. -/
structure Fresh (k : Kernel) (r : ℕ) : Prop extends FreeList k where
  apart : ∀ f, k.Free f → f ∉ Tables k.mem r

/-- From `k` to `k'` the page table has gained tables from the free list, and its level-0
entries have become `L`. -/
structure Edits (r : ℕ) (L : ℕ → ℕ) (k k' : Kernel) : Prop where
  tree : IsTree k'.mem r
  fresh : Fresh k' r
  leaf_eq : ∀ v < MAXVA, leaf k'.mem r v = L v
  pages : ∀ f, f ∈ Tables k'.mem r ∨ k'.Free f ↔ f ∈ Tables k.mem r ∨ k.Free f
  shrinks : k'.freelist <:+ k.freelist
  same : ∀ f, f ∉ Tables k.mem r → ¬k.Free f → SamePage k k' f
  top : SameTop r k.mem k'.mem
  kernelEnd : k'.kernelEnd = k.kernelEnd

namespace Edits

theorem trans (h : Edits r L k k₁) (h' : Edits r L' k₁ k') : Edits r L' k k' := by
  refine ⟨h'.tree, h'.fresh, h'.leaf_eq, fun f => (h'.pages f).trans (h.pages f),
    h'.shrinks.trans h.shrinks, fun f ht hfree => (h.same f ht hfree).trans ?_,
    h.top.trans h'.top, h'.kernelEnd.trans h.kernelEnd⟩
  have hout : ¬(f ∈ Tables k₁.mem r ∨ k₁.Free f) := by
    rw [h.pages f]
    exact not_or.mpr ⟨ht, hfree⟩
  exact h'.same f (not_or.mp hout).1 (not_or.mp hout).2

theorem congr (h : Edits r L k k') (hL : ∀ v < MAXVA, L v = L' v) : Edits r L' k k' :=
  { h with leaf_eq := fun v hv => (h.leaf_eq v hv).trans (hL v hv) }

end Edits

theorem edits_busy (ht : IsTree k.mem r) (hf : Fresh k r) (busy : List Bool) :
    Edits r (leaf k.mem r) k { k with busy := busy } :=
  ⟨ht, ⟨⟨hf.nodup, hf.page⟩, hf.apart⟩, fun _ _ => rfl, fun _ => Iff.rfl, List.suffix_refl _,
    fun _ _ _ => .refl k _, .refl r _, rfl⟩

/-! ## A new table -/

theorem and_eq_mod_and {x b n : ℕ} (h : b < 2 ^ n) : x &&& b = x % 2 ^ n &&& b := by
  have hlt : x &&& b < 2 ^ n := Nat.and_lt_two_pow x h
  rw [← Nat.mod_eq_of_lt hlt, Nat.and_mod_two_pow, Nat.mod_eq_of_lt h]

/-- Entry `i` of the table `f` points to `g`, which was outside of the page table and is
blank. -/
structure Graft (m m' : Bytes) (r : ℕ) (p : List (Fin 512)) (f : ℕ) (i : Fin 512) (g : ℕ) :
    Prop where
  tree : IsTree m r
  length_lt : p.length < 2
  parent : node m r p = some f
  empty : child (entries m f i) = none
  apart : g ∉ Tables m r
  ne_zero : g ≠ 0
  lt : g < 2 ^ 44
  entries_eq : entries m' = Radix.set (Function.update (entries m) g fun _ => 0) f i (g * 1024 + 1)

namespace Graft

variable {m m' : Bytes} (h : Graft m m' r p f i g)
include h

theorem child_pte : child (g * 1024 + 1) = some g := by
  have := h.lt
  rw [child, if_pos (and_V_ne_zero.mpr (by omega)), frame_of_flags (by omega) (by decide)]

theorem node_ne (q : List (Fin 512)) (hq : q.length ≤ 2) : node m r q ≠ some g :=
  fun hg => h.apart (mem_tables hq hg)

theorem node_eq (q : List (Fin 512)) (hq : q.length ≤ 2) :
    node m' r q = if q = p ++ [i] then some g else node m r q := by
  unfold node
  rw [h.entries_eq]
  exact h.tree.tree.node_graft h.length_lt h.parent h.empty h.node_ne child_zero h.child_pte hq

theorem node_new : node m' r (p ++ [i]) = some g := by
  rw [h.node_eq _ (by simpa using h.length_lt), if_pos rfl]

theorem node_old : node m r (p ++ [i]) = none := by
  unfold node
  rw [Radix.node_concat]
  change (node m r p).bind _ = none
  rw [h.parent]
  exact h.empty

theorem mem_tables_iff (x : ℕ) : x ∈ Tables m' r ↔ x ∈ Tables m r ∨ x = g := by
  constructor
  · rintro ⟨q, hq, hx⟩
    rw [h.node_eq q hq] at hx
    split_ifs at hx
    · exact .inr (Option.some.inj hx).symm
    · exact .inl (mem_tables hq hx)
  · rintro (⟨q, hq, hx⟩ | rfl)
    · refine mem_tables hq ?_
      rw [h.node_eq q hq, if_neg, hx]
      rintro rfl
      cases h.node_old.symm.trans hx
    · exact mem_tables (by simpa using h.length_lt) h.node_new

theorem isTree : IsTree m' r := by
  refine ⟨?_, fun q x j hq hx hv => ?_, fun x hx => ?_⟩
  · rw [h.entries_eq]
    exact h.tree.tree.graft h.length_lt h.parent h.empty h.node_ne child_zero h.child_pte
  · rw [h.entries_eq] at hv ⊢
    by_cases hslot : x = f ∧ j = i
    · obtain ⟨rfl, rfl⟩ := hslot
      have hmod : (g * 1024 + 1) % 2 ^ 4 = 1 := by omega
      rw [Radix.set_self, and_eq_mod_and (by decide : PTE_R ||| PTE_W ||| PTE_X < 2 ^ 4), hmod]
      decide
    rw [Radix.set_of_ne (not_and_or.mp hslot)] at hv ⊢
    by_cases hxg : x = g
    · rw [hxg, Function.update_self] at hv
      exact absurd (by decide) hv
    rw [Function.update_of_ne hxg] at hv ⊢
    rw [h.node_eq q hq.le] at hx
    split_ifs at hx
    · exact absurd (Option.some.inj hx).symm hxg
    · exact h.tree.pointer q x j hq hx hv
  · rcases (h.mem_tables_iff x).mp hx with hx | rfl
    · exact h.tree.ne_zero x hx
    · exact h.ne_zero

theorem parent_ne : f ≠ g := by
  rintro rfl
  exact h.apart (mem_tables h.length_lt.le h.parent)

theorem leaf_eq (v : ℕ) : leaf m' r v = leaf m r v := by
  unfold leaf
  rw [h.node_eq _ (length_path v).le, h.entries_eq]
  split_ifs with hpath
  · rw [hpath, h.node_old, Option.elim_some, Radix.set_of_node_ne h.parent_ne.symm,
      Function.update_self, Option.elim_none]
  cases hx : node m r (path v) with
  | none => simp only [Option.elim_none]
  | some x =>
    have hxg : x ≠ g := by
      rintro rfl
      exact h.node_ne _ (length_path v).le hx
    have hxf : x ≠ f := by
      rintro rfl
      have hpv := h.tree.tree _ _ x (length_path v).le h.length_lt.le hx h.parent
      have hp := h.length_lt
      rw [← hpv, length_path] at hp
      exact lt_irrefl _ hp
    rw [Option.elim_some, Option.elim_some, Radix.set_of_node_ne hxf, Function.update_of_ne hxg]

theorem sameTop (hi : p = [] → (i : ℕ) < 256) : SameTop r m m' := by
  intro j hj
  have hrg : r ≠ g := by
    rintro rfl
    exact h.apart (root_mem_tables m r)
  have hslot : r ≠ f ∨ j ≠ i := by
    by_contra hor
    obtain ⟨rfl, rfl⟩ := not_or.mp hor |>.imp not_not.mp not_not.mp
    have hnil := h.tree.tree p [] r h.length_lt.le (Nat.zero_le 2) h.parent rfl
    exact absurd (hi hnil) (Nat.not_lt.mpr hj)
  rw [h.entries_eq, Radix.set_of_ne hslot, Function.update_of_ne hrg]

end Graft

/-- Page `g` is cleared and the slot `i` of page `f` points to it. -/
def Kernel.link (k : Kernel) (f i g : ℕ) : Kernel :=
  ((k.memset (PGSIZE * g) 5 PGSIZE).memset (PGSIZE * g) 0 PGSIZE).store (PGSIZE * f + 8 * i)
    (PA2PTE (PGSIZE * g) ||| PTE_V)

theorem entries_link (hg : g < 2 ^ 44) : entries (k.link f i g).mem =
    Radix.set (Function.update (entries k.mem) g fun _ => 0) f i (g * 1024 + 1) := by
  have hpte : PA2PTE (PGSIZE * g) ||| PTE_V = g * 1024 + 1 := PA2PTE_or (by decide)
  rw [Kernel.link, hpte]
  refine (entries_setWord (by omega)).trans (congrArg (Radix.set · f i (g * 1024 + 1)) ?_)
  funext x j
  by_cases hx : x = g
  · subst hx
    rw [Function.update_self, ← getWord_zero 8 (PGSIZE * x + 8 * j)]
    apply getWord_congr
    intro o ho
    have hj := j.isLt
    rw [memset_page]
    exact if_pos (by unfold PGSIZE; omega)
  · rw [Function.update_of_ne hx]
    exact congrFun (entries_congr ((samePage_memset hx 5).trans (samePage_memset hx 0))) j

theorem samePage_link {x : ℕ} (hf : x ≠ f) (hg : x ≠ g) : SamePage k (k.link f i g) x := by
  have hslot : (PGSIZE * f + 8 * (i : ℕ)) / PGSIZE = f := by
    have hi := i.isLt
    unfold PGSIZE
    omega
  refine ((samePage_memset hg 5).trans (samePage_memset hg 0)).trans ?_
  exact samePage_store (by rw [hslot]; exact hf.symm) (by unfold PGSIZE; omega)

theorem edits_link (ht : IsTree k.mem r) (hf : Fresh k r) {freelist : List ℕ} {busy : List Bool}
    (hp : p.length < 2) (hn : node k.mem r p = some f) (hi : p = [] → (i : ℕ) < 256)
    (hempty : entries k.mem f i &&& PTE_V = 0) (hg : k.freelist = PGSIZE * g :: freelist)
    (hg0 : g ≠ 0) (hlt : g < 2 ^ 44)
    (hk' : k' = { k with freelist := freelist, busy := busy }.link f i g) :
    Edits r (leaf k.mem r) k k' ∧ node k'.mem r (p ++ [i]) = some g := by
  have hfree : k.Free g := by simp [Kernel.Free, hg]
  have h : Graft k.mem k'.mem r p f i g := by
    refine ⟨ht, hp, hn, ?_, hf.apart g hfree, hg0, hlt, by rw [hk', entries_link hlt]⟩
    rw [child, if_neg (not_not.mpr hempty)]
  obtain ⟨hnot, hnodup⟩ := List.nodup_cons.mp (hg ▸ hf.nodup)
  have hfl : k'.freelist = freelist := by rw [hk']; rfl
  have hfree' : ∀ x, k'.Free x ↔ k.Free x ∧ x ≠ g := by
    intro x
    rw [Kernel.Free, Kernel.Free, hfl, hg, List.mem_cons]
    constructor
    · intro hx
      refine ⟨.inr hx, ?_⟩
      rintro rfl
      exact hnot hx
    · rintro ⟨hx | hx, hne⟩
      · exact absurd (Nat.eq_of_mul_eq_mul_left (by decide) hx) hne
      · exact hx
  have hsuffix : k'.freelist <:+ k.freelist := by
    rw [hfl, hg]
    exact List.suffix_cons _ _
  refine ⟨⟨h.isTree, ⟨⟨hfl ▸ hnodup, fun pa hpa => hf.page pa (hsuffix.subset hpa)⟩,
    fun x hx hxt => ?_⟩, fun v _ => h.leaf_eq v, fun x => ?_, hsuffix, fun x hxt hxf => ?_,
    h.sameTop hi, by rw [hk']; rfl⟩, h.node_new⟩
  · obtain ⟨hx, hne⟩ := (hfree' x).mp hx
    exact ((h.mem_tables_iff x).mp hxt).elim (hf.apart x hx) hne
  · rw [h.mem_tables_iff, hfree']
    by_cases hxg : x = g
    · simp [hxg, hfree]
    · simp [hxg]
  · rw [hk']
    refine samePage_link ?_ ?_
    · rintro rfl
      exact hxt (mem_tables hp.le hn)
    · rintro rfl
      exact hxf hfree

/-! ## `walk` -/

theorem walkFrom_eq :
    Kernel.walkFrom va false level k (PGSIZE * f) =
      ((node k.mem f (idxs va level)).elim 0 fun g => PGSIZE * g + 8 * PX 0 va, k) := by
  induction level generalizing f with
  | zero => rfl
  | succ level ih =>
    have hload : k.load (PGSIZE * f + 8 * PX (level + 1) va) =
        entries k.mem f (idx (level + 1) va) := rfl
    rw [Kernel.walkFrom, node, idxs, Radix.node]
    simp only [hload]
    by_cases hv : entries k.mem f (idx (level + 1) va) &&& PTE_V ≠ 0
    · rw [if_pos hv, PTE2PA_eq, ih, child, if_pos hv, Option.bind_some]
      rfl
    · rw [if_neg hv, child, if_neg hv]
      rfl

/-- Without `alloc`, `walk` finds the slot of an address if the address has a level-0 table. -/
theorem walk_eq (hva : va < MAXVA) :
    k.walk (PGSIZE * r) va false =
      .ok ((node k.mem r (path va)).elim 0 fun f => PGSIZE * f + 8 * PX 0 va, k) := by
  rw [Kernel.walk, if_neg (Nat.not_le.mpr hva), walkFrom_eq]
  rfl

/-- From a table on the path of `va`, `walk` finds or makes the rest of the path, or runs
out of pages. -/
theorem walkFrom_spec (ht : IsTree k.mem r) (hf : Fresh k r) (hva : va < MAXVA)
    (hp : p.length + level = 2) (hn : node k.mem r p = some f) :
    ∃ pte k', Kernel.walkFrom va true level k (PGSIZE * f) = (pte, k') ∧
      Edits r (leaf k.mem r) k k' ∧
      (pte = 0 ∨ ∃ g, node k'.mem r (p ++ idxs va level) = some g ∧
        pte = PGSIZE * g + 8 * PX 0 va) := by
  induction level generalizing k f p with
  | zero =>
    refine ⟨_, k, rfl, edits_busy ht hf k.busy, .inr ⟨f, ?_, rfl⟩⟩
    rw [idxs, List.append_nil, hn]
  | succ level ih =>
    have hload : k.load (PGSIZE * f + 8 * PX (level + 1) va) =
        entries k.mem f (idx (level + 1) va) := rfl
    have hsplit : p ++ idxs va (level + 1) = p ++ [idx (level + 1) va] ++ idxs va level := by
      rw [idxs, List.append_assoc, List.singleton_append]
    have hlen : (p ++ [idx (level + 1) va]).length + level = 2 := by
      rw [List.length_append, List.length_singleton]
      omega
    rw [Kernel.walkFrom, hsplit]
    simp only [hload]
    by_cases hv : entries k.mem f (idx (level + 1) va) &&& PTE_V ≠ 0
    · rw [if_pos hv, PTE2PA_eq]
      apply ih ht hf hlen
      rw [node, Radix.node_concat]
      change (node k.mem r p).bind _ = _
      rw [hn, Option.bind_some, child, if_pos hv]
    · rw [if_neg hv, if_neg (by decide)]
      rcases kalloc_cases hf.toFreeList with ⟨busy, hk⟩ | ⟨g, rest, busy, hg, hg0, hlt, hk⟩
      · rw [hk]
        exact ⟨0, _, rfl, edits_busy ht hf busy, .inl rfl⟩
      · obtain ⟨hgrow, hnew⟩ := edits_link ht hf (by omega) hn (fun hnil => by
            obtain rfl : level = 1 := by
              rw [hnil] at hp
              simpa using hp
            exact idx_two_lt hva) (not_not.mp hv) hg hg0 hlt rfl
        have hpage : PGSIZE * g ≠ 0 := Nat.mul_ne_zero (by decide) hg0
        obtain ⟨pte, k', hwalk, hgrow', hpte⟩ := ih hgrow.tree hgrow.fresh hlen hnew
        simp only [hk, if_neg hpage]
        exact ⟨pte, k', hwalk, (hgrow.trans hgrow').congr hgrow.leaf_eq, hpte⟩

/-- With `alloc`, `walk` gives the slot of the address in a page table that has grown, or it
runs out of pages. -/
theorem walk_alloc (ht : IsTree k.mem r) (hf : Fresh k r) (hva : va < MAXVA) :
    ∃ pte k', k.walk (PGSIZE * r) va true = .ok (pte, k') ∧ Edits r (leaf k.mem r) k k' ∧
      (pte = 0 ∨ pte ≠ 0 ∧ ∃ g, node k'.mem r (path va) = some g ∧
        pte = PGSIZE * g + 8 * PX 0 va) := by
  obtain ⟨pte, k', hwalk, hgrow, hpte⟩ :=
    walkFrom_spec ht hf hva (rfl : ([] : List (Fin 512)).length + 2 = 2) rfl
  refine ⟨pte, k', by rw [Kernel.walk, if_neg (Nat.not_le.mpr hva), hwalk], hgrow, ?_⟩
  rcases hpte with rfl | ⟨g, hg, rfl⟩
  · exact .inl rfl
  · have hg0 := hgrow.tree.ne_zero g (mem_tables (length_path va).le hg)
    refine .inr ⟨?_, g, hg, rfl⟩
    unfold PGSIZE
    omega

end Xv6.Vm
