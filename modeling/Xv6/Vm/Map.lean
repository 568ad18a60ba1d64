import Xv6.Vm.Walk

/-!
# Mapping and unmapping

`mappages` gives consecutive pages their entries one by one, and leaves a prefix of them
mapped when it runs out of tables; `uvmunmap` clears them.  Between the calls the page
table is a tree and a lookup depends on the level-0 entry of its page only.
-/

namespace Xv6.Vm

open Lib

variable {k k' k₁ : Kernel} {r f g u n n' va v e perm last : ℕ} {L L' : ℕ → ℕ}

/-! ## Lookups -/

/-- The physical address and the flags that an entry gives to an address of its page. -/
def translate (pte v : ℕ) : Option (ℕ × ℕ) :=
  if pte &&& PTE_V = 0 then none else some (PTE2PA pte + v % PGSIZE, PTE_FLAGS pte)

/-- What `walk` without `alloc` finds for an address. -/
def Kernel.lookup (k : Kernel) (pagetable v : ℕ) : Except Panic (Option (ℕ × ℕ)) := do
  let (pte, k) ← k.walk pagetable v false
  if pte = 0 then .ok none else .ok (translate (k.load pte) v)

theorem slot_ne_zero (ht : IsTree k.mem r) (hn : node k.mem r (path va) = some f) :
    PGSIZE * f + 8 * PX 0 va ≠ 0 := by
  have := ht.ne_zero f (mem_tables (length_path va).le hn)
  unfold PGSIZE
  omega

theorem lookup_eq (ht : IsTree k.mem r) (hv : v < MAXVA) :
    k.lookup (PGSIZE * r) v = .ok (translate (leaf k.mem r v) v) := by
  unfold Kernel.lookup leaf
  rw [walk_eq hv]
  cases hn : node k.mem r (path v) with
  | none => simp [bind, Except.bind, translate]
  | some f =>
    change (if PGSIZE * f + 8 * PX 0 v = 0 then _ else _) = _
    rw [if_neg (slot_ne_zero ht hn)]
    rfl

/-! ## Entries change -/

theorem edits_store (ht : IsTree k.mem r) (hf : Fresh k r) (hva : va < MAXVA)
    (hn : node k.mem r (path va) = some f) (he : e < 2 ^ 64) :
    Edits r (fun v => if v / PGSIZE = va / PGSIZE then e else leaf k.mem r v) k
      (k.store (PGSIZE * f + 8 * PX 0 va) e) := by
  have htab := tables_setLeaf ht hn he rfl
  refine ⟨isTree_setLeaf ht hn he rfl, ⟨⟨hf.nodup, hf.page⟩, fun g hg => ?_⟩,
    fun v hv => leaf_setLeaf ht hn he rfl hva hv, fun g => ?_, List.suffix_refl _,
    fun g hg _ => ?_, sameTop_setLeaf ht hn he rfl, rfl⟩
  · change g ∉ Tables (setWord 8 k.mem _ _) r
    rw [htab]
    exact hf.apart g hg
  · change g ∈ Tables (setWord 8 k.mem _ _) r ∨ k.Free g ↔ _
    rw [htab]
  · refine samePage_store ?_ (slot_mod f va)
    rw [slot_page]
    rintro rfl
    exact hg (mem_tables (length_path va).le hn)

/-! ## `mappages` -/

/-- The entries when `j` pages from page `u` on have been mapped to the pages from `f` on. -/
def mapped (L : ℕ → ℕ) (u f perm j : ℕ) (v : ℕ) : ℕ :=
  if u ≤ v / PGSIZE ∧ v / PGSIZE < u + j then (f + (v / PGSIZE - u)) * 1024 + (perm ||| PTE_V)
  else L v

theorem or_V_lt (h : perm < 1024) : perm ||| PTE_V < 1024 :=
  Nat.or_lt_two_pow (n := 10) h (by decide)

theorem pte_mapped (h : perm < 1024) :
    PA2PTE (PGSIZE * f) ||| perm ||| PTE_V = f * 1024 + (perm ||| PTE_V) := by
  rw [Nat.or_assoc, PA2PTE_or (or_V_lt h)]

/-- The loop of `mappages` maps all of the pages that are left, or it runs out of tables
and has mapped the first `j` of them. -/
theorem mapLoop_spec (ht : IsTree k.mem r) (hf : Fresh k r) (hn : 0 < n)
    (hend : PGSIZE * (u + n) ≤ MAXVA) (hlast : last = PGSIZE * (u + n - 1))
    (hpa : f + n ≤ 2 ^ 44) (hperm : perm < 1024)
    (hun : ∀ v < MAXVA, u ≤ v / PGSIZE → v / PGSIZE < u + n → leaf k.mem r v &&& PTE_V = 0) :
    ∃ (ret : ℤ) (j : ℕ) (k' : Kernel),
      Kernel.mapLoop (PGSIZE * r) last perm n k (PGSIZE * u) (PGSIZE * f) = .ok (ret, k') ∧
      Edits r (mapped (leaf k.mem r) u f perm j) k k' ∧
      (ret = 0 ∧ j = n ∨ ret = -1 ∧ j < n) := by
  induction n generalizing k u f with
  | zero => exact absurd hn (lt_irrefl 0)
  | succ n ih =>
    have hu : PGSIZE * u < MAXVA := by
      unfold PGSIZE at *
      omega
    have hpage : PGSIZE * u / PGSIZE = u := Nat.mul_div_cancel_left u (by decide)
    obtain ⟨pte, k₁, hwalk, hgrow, hpte⟩ := walk_alloc ht hf hu
    rw [Kernel.mapLoop, hwalk]
    simp only [bind, Except.bind]
    rcases hpte with rfl | ⟨hpte0, g, hg, rfl⟩
    · refine ⟨-1, 0, k₁, if_pos rfl, hgrow.congr fun v _ => ?_, .inr ⟨rfl, n.succ_pos⟩⟩
      rw [mapped, if_neg (by omega)]
    have hslot : k₁.load (PGSIZE * g + 8 * PX 0 (PGSIZE * u)) = leaf k₁.mem r (PGSIZE * u) :=
      (leaf_of_node hg).symm
    have hempty : leaf k₁.mem r (PGSIZE * u) &&& PTE_V = 0 := by
      rw [hgrow.leaf_eq _ hu]
      exact hun _ hu (by omega) (by omega)
    have he : f * 1024 + (perm ||| PTE_V) < 2 ^ 64 := by
      have := or_V_lt hperm
      omega
    have hedit := hgrow.trans (edits_store hgrow.tree hgrow.fresh hu hg he)
    rw [if_neg hpte0, hslot, if_neg (not_not.mpr hempty), pte_mapped hperm]
    set k₂ := k₁.store (PGSIZE * g + 8 * PX 0 (PGSIZE * u)) (f * 1024 + (perm ||| PTE_V))
    have hfirst : ∀ v < MAXVA, leaf k₂.mem r v = mapped (leaf k.mem r) u f perm 1 v := by
      intro v hv
      rw [hedit.leaf_eq v hv, hpage, mapped, hgrow.leaf_eq v hv]
      by_cases hvu : v / PGSIZE = u
      · rw [if_pos hvu, if_pos (by omega), hvu, Nat.sub_self, Nat.add_zero]
      · rw [if_neg hvu, if_neg (by omega)]
    by_cases hdone : PGSIZE * u = last
    · have hn0 : n = 0 := by
        unfold PGSIZE at *
        omega
      subst hn0
      refine ⟨0, 1, k₂, if_pos hdone, hedit.congr fun v hv => ?_, .inl ⟨rfl, rfl⟩⟩
      rw [← hfirst v hv, hedit.leaf_eq v hv]
    rw [if_neg hdone]
    have hnext : (PGSIZE * u + PGSIZE) % 2 ^ 64 = PGSIZE * (u + 1) := by
      unfold PGSIZE MAXVA at *
      omega
    have hnextpa : (PGSIZE * f + PGSIZE) % 2 ^ 64 = PGSIZE * (f + 1) := by
      unfold PGSIZE
      omega
    have hn0 : 0 < n := by
      unfold PGSIZE at *
      omega
    rw [hnext, hnextpa]
    obtain ⟨ret, j, k', hloop, hmap, hret⟩ := ih hedit.tree hedit.fresh (u := u + 1) (f := f + 1)
      hn0 (by unfold PGSIZE at *; omega) (by rw [hlast, Nat.add_right_comm]; rfl) (by omega) (by
        intro v hv hlo hhi
        rw [hfirst v hv, mapped, if_neg (by omega)]
        exact hun v hv (by omega) (by omega))
    refine ⟨ret, j + 1, k', hloop, (hedit.trans hmap).congr fun v hv => ?_, by omega⟩
    by_cases hv1 : u + 1 ≤ v / PGSIZE ∧ v / PGSIZE < u + 1 + j
    · have hsum : f + 1 + (v / PGSIZE - (u + 1)) = f + (v / PGSIZE - u) := by omega
      rw [mapped, mapped, if_pos hv1, if_pos (by omega), hsum]
    · rw [mapped, if_neg hv1, hfirst v hv, mapped, mapped]
      by_cases hvu : u ≤ v / PGSIZE ∧ v / PGSIZE < u + 1
      · rw [if_pos hvu, if_pos (by omega)]
      · rw [if_neg hvu, if_neg (by omega)]

theorem mappages_spec (ht : IsTree k.mem r) (hf : Fresh k r) (hn : 0 < n)
    (hend : PGSIZE * (u + n) ≤ MAXVA) (hpa : f + n ≤ 2 ^ 44) (hperm : perm < 1024)
    (hun : ∀ v < MAXVA, u ≤ v / PGSIZE → v / PGSIZE < u + n → leaf k.mem r v &&& PTE_V = 0) :
    ∃ (ret : ℤ) (j : ℕ) (k' : Kernel),
      k.mappages (PGSIZE * r) (PGSIZE * u) (PGSIZE * n) (PGSIZE * f) perm = .ok (ret, k') ∧
      Edits r (mapped (leaf k.mem r) u f perm j) k k' ∧
      (ret = 0 ∧ j = n ∨ ret = -1 ∧ j < n) := by
  have hlast : (PGSIZE * u + PGSIZE * n - PGSIZE) % 2 ^ 64 = PGSIZE * (u + n - 1) := by
    unfold PGSIZE MAXVA at *
    omega
  have hsize : PGSIZE * n ≠ 0 := Nat.mul_ne_zero (by decide) hn.ne'
  rw [Kernel.mappages, if_neg (by simp), if_neg (by simp), if_neg hsize, hlast,
    Nat.mul_div_cancel_left n (by decide)]
  exact mapLoop_spec ht hf hn hend rfl hpa hperm hun

/-! ## `uvmunmap` -/

/-- From `k` to `k'` the level-0 entries have become `L`, the tables are the same, and the
pages `freed` have gone to the free list. -/
structure Unmaps (r : ℕ) (L : ℕ → ℕ) (freed : List ℕ) (k k' : Kernel) : Prop where
  tree : IsTree k'.mem r
  leaf_eq : ∀ v < MAXVA, leaf k'.mem r v = L v
  tables : Tables k'.mem r = Tables k.mem r
  freelist : k'.freelist = freed ++ k.freelist
  same : ∀ f, f ∉ Tables k.mem r → PGSIZE * f ∉ freed → SamePage k k' f
  top : SameTop r k.mem k'.mem
  kernelEnd : k'.kernelEnd = k.kernelEnd

namespace Unmaps

variable {freed freed' : List ℕ}

theorem trans (h : Unmaps r L freed k k₁) (h' : Unmaps r L' freed' k₁ k') :
    Unmaps r L' (freed' ++ freed) k k' := by
  refine ⟨h'.tree, h'.leaf_eq, h'.tables.trans h.tables, ?_, fun f hf hne => ?_,
    h.top.trans h'.top, h'.kernelEnd.trans h.kernelEnd⟩
  · rw [h'.freelist, h.freelist, List.append_assoc]
  · rw [List.mem_append, not_or] at hne
    exact (h.same f hf hne.2).trans (h'.same f (by rwa [h.tables]) hne.1)

theorem congr (h : Unmaps r L freed k k') (hL : ∀ v < MAXVA, L v = L' v) :
    Unmaps r L' freed k k' :=
  ⟨h.tree, fun v hv => (h.leaf_eq v hv).trans (hL v hv), h.tables, h.freelist, h.same,
    h.top, h.kernelEnd⟩

end Unmaps

theorem kfree_spec (hlo : k.kernelEnd ≤ PGSIZE * f) (hhi : PGSIZE * f < PHYSTOP) :
    ∃ k', k.kfree (PGSIZE * f) = .ok k' ∧ k'.freelist = PGSIZE * f :: k.freelist ∧
      k'.kernelEnd = k.kernelEnd ∧ k'.busy = k.busy ∧ ∀ g ≠ f, SamePage k k' g := by
  refine ⟨_, if_neg ?_, rfl, rfl, rfl, fun g hg => ?_⟩
  · rw [not_or, not_or, Nat.mul_mod_right]
    exact ⟨not_not.mpr rfl, by omega, by omega⟩
  · refine (samePage_memset hg 1).trans (samePage_store ?_ (by unfold PGSIZE; omega))
    rw [Nat.mul_div_cancel_left f (by decide)]
    exact hg.symm

/-- A page that the allocator manages and that is no page of the page table. -/
structure Freeable (k : Kernel) (r f : ℕ) : Prop where
  apart : f ∉ Tables k.mem r
  ge : k.kernelEnd ≤ PGSIZE * f
  lt : PGSIZE * f < PHYSTOP

/-- The pages that `uvmunmap` frees when it unmaps `n` pages from page `u` on. -/
def freedBy (doFree : Bool) (L : ℕ → ℕ) (u : ℕ) : ℕ → List ℕ
  | 0 => []
  | n + 1 =>
    freedBy doFree L (u + 1) n ++ if doFree then [PGSIZE * frame (L (PGSIZE * u))] else []

theorem freedBy_congr {doFree : Bool}
    (h : ∀ i < n, L' (PGSIZE * (u + i)) = L (PGSIZE * (u + i))) :
    freedBy doFree L' u n = freedBy doFree L u n := by
  induction n generalizing u with
  | zero => rfl
  | succ n ih =>
    have h0 : L' (PGSIZE * u) = L (PGSIZE * u) := h 0 (Nat.succ_pos n)
    rw [freedBy, freedBy, h0, ih fun i hi => ?_]
    rw [Nat.add_assoc, Nat.add_comm 1 i]
    exact h (i + 1) (by omega)

/-- The entries when `n` pages from page `u` on have been unmapped. -/
def cleared (L : ℕ → ℕ) (u n v : ℕ) : ℕ := if u ≤ v / PGSIZE ∧ v / PGSIZE < u + n then 0 else L v

theorem unmaps_one {doFree : Bool} (ht : IsTree k.mem r) (hu : PGSIZE * u < MAXVA)
    (hn : node k.mem r (path (PGSIZE * u)) = some g)
    (hfree : doFree → Freeable k r (frame (leaf k.mem r (PGSIZE * u)))) :
    ∃ k₁, (if doFree then k.kfree (PTE2PA (leaf k.mem r (PGSIZE * u))) else .ok k) = .ok k₁ ∧
      Unmaps r (cleared (leaf k.mem r) u 1)
        (if doFree then [PGSIZE * frame (leaf k.mem r (PGSIZE * u))] else []) k
        (k₁.store (PGSIZE * g + 8 * PX 0 (PGSIZE * u)) 0) := by
  -- the page that is freed is not in the page table
  obtain ⟨k₁, hk₁, hlist, hend, hsame⟩ : ∃ k₁,
      (if doFree then k.kfree (PTE2PA (leaf k.mem r (PGSIZE * u))) else .ok k) = .ok k₁ ∧
      k₁.freelist =
        (if doFree then [PGSIZE * frame (leaf k.mem r (PGSIZE * u))] else []) ++ k.freelist ∧
      k₁.kernelEnd = k.kernelEnd ∧
      ∀ h, (h ∈ Tables k.mem r ∨ PGSIZE * h ∉
        (if doFree then [PGSIZE * frame (leaf k.mem r (PGSIZE * u))] else [])) →
          SamePage k k₁ h := by
    cases doFree with
    | false => exact ⟨k, rfl, rfl, rfl, fun h _ => .refl k h⟩
    | true =>
      obtain ⟨hapart, hge, hlt⟩ := hfree rfl
      obtain ⟨k₁, hok, hlist, hend, -, hsame⟩ := kfree_spec hge hlt
      refine ⟨k₁, by rw [if_pos rfl, PTE2PA_eq, hok], hlist, hend, fun h hh => hsame h ?_⟩
      rintro rfl
      exact hh.elim hapart fun hne => hne (List.mem_singleton_self _)
  refine ⟨k₁, hk₁, ?_⟩
  have hcongr : ∀ f ∈ Tables k.mem r, SamePage k k₁ f := fun f hf => hsame f (.inl hf)
  have ht₁ : IsTree k₁.mem r := ht.congr hcongr
  have hn₁ : node k₁.mem r (path (PGSIZE * u)) = some g := by
    rw [node_congr hcongr (length_path _).le, hn]
  have htab : Tables (setWord 8 k₁.mem (PGSIZE * g + 8 * PX 0 (PGSIZE * u)) 0) r =
      Tables k.mem r := by
    rw [tables_setLeaf ht₁ hn₁ (by decide) rfl, tables_congr hcongr]
  have htop : SameTop r k.mem k₁.mem := fun i _ =>
    congrFun (entries_congr (hcongr r (root_mem_tables k.mem r))) i
  refine ⟨isTree_setLeaf ht₁ hn₁ (by decide) rfl, fun v hv => ?_, htab, hlist, fun f hf hne => ?_,
    htop.trans (sameTop_setLeaf ht₁ hn₁ (by decide) rfl), hend⟩
  · change leaf (setWord 8 k₁.mem _ _) r v = _
    rw [leaf_setLeaf ht₁ hn₁ (by decide) rfl hu hv, leaf_congr hcongr,
      Nat.mul_div_cancel_left u (by decide), cleared]
    by_cases hvu : v / PGSIZE = u
    · rw [if_pos hvu, if_pos (by omega)]
    · rw [if_neg hvu, if_neg (by omega)]
  · refine (hsame f (.inr hne)).trans (samePage_store ?_ (slot_mod g _))
    rw [slot_page]
    rintro rfl
    exact hf (mem_tables (length_path _).le hn)

theorem unmapLoop_spec {doFree : Bool} {fuel : ℕ} (ht : IsTree k.mem r)
    (hend : PGSIZE * (u + n) ≤ MAXVA) (hfuel : n ≤ fuel)
    (hmap : ∀ i < n, leaf k.mem r (PGSIZE * (u + i)) &&& PTE_V ≠ 0 ∧
      PTE_FLAGS (leaf k.mem r (PGSIZE * (u + i))) ≠ PTE_V)
    (hfree : doFree → ∀ i < n, Freeable k r (frame (leaf k.mem r (PGSIZE * (u + i))))) :
    ∃ k', Kernel.unmapLoop (PGSIZE * r) (PGSIZE * (u + n)) doFree fuel k (PGSIZE * u) = .ok k' ∧
      Unmaps r (cleared (leaf k.mem r) u n) (freedBy doFree (leaf k.mem r) u n) k k' := by
  induction n generalizing k u fuel with
  | zero =>
    refine ⟨k, ?_, ⟨ht, fun v _ => ?_, rfl, rfl, fun f _ _ => .refl k f, .refl r _, rfl⟩⟩
    · cases fuel with
      | zero => rfl
      | succ fuel => rw [Kernel.unmapLoop, Nat.add_zero, if_neg (lt_irrefl _)]
    · rw [cleared, if_neg (by omega)]
  | succ n ih =>
    obtain ⟨fuel, rfl⟩ : ∃ m, fuel = m + 1 := ⟨fuel - 1, by omega⟩
    have hu : PGSIZE * u < MAXVA := by
      unfold PGSIZE at *
      omega
    have hmore : PGSIZE * u < PGSIZE * (u + (n + 1)) := by
      unfold PGSIZE
      omega
    obtain ⟨hvalid, hleaf⟩ := hmap 0 (Nat.succ_pos n)
    rw [Nat.add_zero] at hvalid hleaf
    obtain ⟨g, hg⟩ := node_of_leaf (fun h0 => hvalid (by rw [h0]; rfl) :
      leaf k.mem r (PGSIZE * u) ≠ 0)
    obtain ⟨k₁, hk₁, hone⟩ := unmaps_one ht hu hg
      fun hd : doFree => hfree hd 0 (Nat.succ_pos n)
    have hslot : k.load (PGSIZE * g + 8 * PX 0 (PGSIZE * u)) = leaf k.mem r (PGSIZE * u) :=
      (leaf_of_node hg).symm
    set k₂ := k₁.store (PGSIZE * g + 8 * PX 0 (PGSIZE * u)) 0
    -- the other pages keep their entries
    have hrest : ∀ i, u + 1 + i < u + (n + 1) →
        leaf k₂.mem r (PGSIZE * (u + 1 + i)) = leaf k.mem r (PGSIZE * (u + (i + 1))) := by
      intro i hi
      have hlt : PGSIZE * (u + 1 + i) < MAXVA := by
        unfold PGSIZE at *
        omega
      rw [hone.leaf_eq _ hlt, cleared, Nat.mul_div_cancel_left _ (by decide), if_neg (by omega),
        Nat.add_assoc, Nat.add_comm 1 i]
    have hsum : u + (n + 1) = u + 1 + n := by omega
    obtain ⟨k', hloop, hunmap⟩ := ih (k := k₂) (u := u + 1) hone.tree
      (by rw [← hsum]; exact hend) (by omega : n ≤ fuel) (fun i hi => by
        rw [hrest i (by omega)]
        exact hmap (i + 1) (by omega)) fun hd i hi => by
          rw [hrest i (by omega)]
          obtain ⟨hapart, hge, hlt⟩ := hfree hd (i + 1) (by omega)
          exact ⟨by rwa [hone.tables], by rwa [hone.kernelEnd], hlt⟩
    have hnext : (PGSIZE * u + PGSIZE) % 2 ^ 64 = PGSIZE * (u + 1) := by
      unfold PGSIZE MAXVA at *
      omega
    refine ⟨k', ?_, ?_⟩
    · rw [Kernel.unmapLoop, if_pos hmore, walk_eq hu, hg]
      simp only [bind, Except.bind, Option.elim_some, if_neg (slot_ne_zero ht hg), hslot,
        if_neg hvalid, if_neg hleaf, hnext]
      rw [hsum]
      cases hd : doFree with
      | false =>
        rw [hd] at hk₁ hloop
        obtain rfl : k = k₁ := Except.ok.inj hk₁
        exact hloop
      | true =>
        rw [hd, if_pos rfl] at hk₁
        rw [hd] at hloop
        rw [if_pos rfl, hk₁]
        exact hloop
    · have hfreed : freedBy doFree (leaf k₂.mem r) (u + 1) n =
          freedBy doFree (leaf k.mem r) (u + 1) n :=
        freedBy_congr fun i hi => by rw [hrest i (by omega), Nat.add_assoc, Nat.add_comm 1 i]
      rw [hfreed] at hunmap
      refine (hone.trans hunmap).congr fun v hv => ?_
      unfold cleared
      by_cases hv1 : u + 1 ≤ v / PGSIZE ∧ v / PGSIZE < u + 1 + n
      · rw [if_pos hv1, if_pos (by omega)]
      · rw [if_neg hv1, hone.leaf_eq v hv, cleared]
        by_cases hvu : u ≤ v / PGSIZE ∧ v / PGSIZE < u + 1
        · rw [if_pos hvu, if_pos (by omega)]
        · rw [if_neg hvu, if_neg (by omega)]

theorem uvmunmap_spec {doFree : Bool} (ht : IsTree k.mem r) (hend : PGSIZE * (u + n) ≤ MAXVA)
    (hmap : ∀ i < n, leaf k.mem r (PGSIZE * (u + i)) &&& PTE_V ≠ 0 ∧
      PTE_FLAGS (leaf k.mem r (PGSIZE * (u + i))) ≠ PTE_V)
    (hfree : doFree → ∀ i < n, Freeable k r (frame (leaf k.mem r (PGSIZE * (u + i))))) :
    ∃ k', k.uvmunmap (PGSIZE * r) (PGSIZE * u) n doFree = .ok k' ∧
      Unmaps r (cleared (leaf k.mem r) u n) (freedBy doFree (leaf k.mem r) u n) k k' := by
  have hlast : (PGSIZE * u + n * PGSIZE) % 2 ^ 64 = PGSIZE * (u + n) := by
    unfold PGSIZE MAXVA at *
    omega
  rw [Kernel.uvmunmap, if_neg (by simp), hlast]
  exact unmapLoop_spec ht hend le_rfl hmap hfree

/-! ## A page table is a map -/

theorem translate_eq_none : translate e v = none ↔ e &&& PTE_V = 0 := by
  unfold translate
  split_ifs with h <;> simp [h]

theorem translate_zero : translate 0 v = none := translate_eq_none.mpr (by decide)

theorem translate_flags (hf : f < 2 ^ 44) (hperm : perm < 1024) :
    translate (f * 1024 + (perm ||| PTE_V)) v = some (PGSIZE * f + v % PGSIZE, perm ||| PTE_V) := by
  have hlt := or_V_lt hperm
  have hodd : (perm ||| PTE_V) % 2 = 1 := by
    rw [PTE_V, Nat.or_mod_two_eq_one]
    exact .inr rfl
  have hvalid : f * 1024 + (perm ||| PTE_V) &&& PTE_V ≠ 0 := and_V_ne_zero.mpr (by omega)
  have hframe : PTE2PA (f * 1024 + (perm ||| PTE_V)) = PGSIZE * f := by
    rw [PTE2PA_eq, frame_of_flags (by omega) hlt]
  have hflags : PTE_FLAGS (f * 1024 + (perm ||| PTE_V)) = perm ||| PTE_V := by
    unfold PTE_FLAGS
    omega
  rw [translate, if_neg hvalid, hframe, hflags]

theorem translate_mapped (hpa : f + n ≤ 2 ^ 44) (hperm : perm < 1024) (hj : n' ≤ n) :
    translate (mapped L u f perm n' v) v =
      if PGSIZE * u ≤ v ∧ v < PGSIZE * u + PGSIZE * n' then
        some (PGSIZE * f + (v - PGSIZE * u), perm ||| PTE_V)
      else translate (L v) v := by
  have hrange : u ≤ v / PGSIZE ∧ v / PGSIZE < u + n' ↔
      PGSIZE * u ≤ v ∧ v < PGSIZE * u + PGSIZE * n' := by
    unfold PGSIZE
    omega
  rw [mapped]
  by_cases hv : u ≤ v / PGSIZE ∧ v / PGSIZE < u + n'
  · have haddr : PGSIZE * (f + (v / PGSIZE - u)) + v % PGSIZE = PGSIZE * f + (v - PGSIZE * u) := by
      unfold PGSIZE at *
      omega
    rw [if_pos hv, if_pos (hrange.mp hv), translate_flags (by omega) hperm, haddr]
  · rw [if_neg hv, if_neg fun h => hv (hrange.mpr h)]

theorem translate_cleared :
    translate (cleared L u n v) v =
      if PGSIZE * u ≤ v ∧ v < PGSIZE * u + n * PGSIZE then none else translate (L v) v := by
  have hrange : u ≤ v / PGSIZE ∧ v / PGSIZE < u + n ↔
      PGSIZE * u ≤ v ∧ v < PGSIZE * u + n * PGSIZE := by
    unfold PGSIZE
    omega
  rw [cleared]
  by_cases hv : u ≤ v / PGSIZE ∧ v / PGSIZE < u + n
  · rw [if_pos hv, if_pos (hrange.mp hv), translate_zero]
  · rw [if_neg hv, if_neg fun h => hv (hrange.mpr h)]

/-- A lookup of `v` after the range `[va, va + len)` has been mapped to `pa`. -/
def Kernel.overlaid (k : Kernel) (pagetable va len pa perm v : ℕ) :
    Except Panic (Option (ℕ × ℕ)) :=
  if va ≤ v ∧ v < va + len then .ok (some (pa + (v - va), perm ||| PTE_V)) else k.lookup pagetable v

/-- A page of the range `[va, va + len)` is mapped as a leaf, and may be freed if `doFree`. -/
def Kernel.Unmappable (k : Kernel) (r v : ℕ) (doFree : Bool) : Prop :=
  ∃ pa flags, k.lookup (PGSIZE * r) v = .ok (some (pa, flags)) ∧ flags ≠ PTE_V ∧
    (doFree → Freeable k r (pa / PGSIZE))

theorem exists_page {a : ℕ} (h : a % PGSIZE = 0) : ∃ n, a = PGSIZE * n :=
  ⟨a / PGSIZE, by unfold PGSIZE at *; omega⟩

theorem mappages_overlays {va size pa : ℕ} (ht : IsTree k.mem r) (hf : Fresh k r)
    (hva : va % PGSIZE = 0) (hsize : size % PGSIZE = 0) (hpa : pa % PGSIZE = 0) (hpos : 0 < size)
    (hperm : perm < 2 ^ 10) (hend : va + size ≤ MAXVA) (hpaend : pa + size ≤ 2 ^ 56)
    (hun : ∀ v, va ≤ v → v < va + size → k.lookup (PGSIZE * r) v = .ok none) :
    ∃ (ret : ℤ) (len : ℕ) (k' : Kernel),
      k.mappages (PGSIZE * r) va size pa perm = .ok (ret, k') ∧ IsTree k'.mem r ∧ Fresh k' r ∧
      (ret = 0 ∧ len = size ∨ ret = -1 ∧ len < size) ∧
      ∀ v < MAXVA, k'.lookup (PGSIZE * r) v = k.overlaid (PGSIZE * r) va len pa perm v := by
  obtain ⟨u, rfl⟩ := exists_page hva
  obtain ⟨n, rfl⟩ := exists_page hsize
  obtain ⟨f, rfl⟩ := exists_page hpa
  have hn : 0 < n := Nat.pos_of_mul_pos_left hpos
  have hfn : f + n ≤ 2 ^ 44 := by
    unfold PGSIZE at hpaend
    omega
  obtain ⟨ret, j, k', hok, hedit, hret⟩ := mappages_spec ht hf hn
    (by rw [Nat.mul_add]; exact hend) hfn hperm (by
      intro v hv hlo hhi
      have h := hun v (by unfold PGSIZE at *; omega) (by unfold PGSIZE at *; omega)
      rw [lookup_eq ht hv] at h
      exact translate_eq_none.mp (Except.ok.inj h))
  refine ⟨ret, PGSIZE * j, k', hok, hedit.tree, hedit.fresh, ?_, fun v hv => ?_⟩
  · refine hret.imp (fun h => ⟨h.1, by rw [h.2]⟩) fun h => ⟨h.1, ?_⟩
    exact Nat.mul_lt_mul_of_pos_left h.2 (by decide)
  · rw [lookup_eq hedit.tree hv, hedit.leaf_eq v hv, Kernel.overlaid, lookup_eq ht hv,
      translate_mapped hfn hperm (by omega : j ≤ n)]
    split_ifs <;> rfl

theorem uvmunmap_removes {va npages : ℕ} {doFree : Bool} (ht : IsTree k.mem r)
    (hva : va % PGSIZE = 0) (hend : va + npages * PGSIZE ≤ MAXVA)
    (hmap : ∀ v, va ≤ v → v < va + npages * PGSIZE → k.Unmappable r v doFree) :
    ∃ k', k.uvmunmap (PGSIZE * r) va npages doFree = .ok k' ∧ IsTree k'.mem r ∧
      ∀ v < MAXVA, k'.lookup (PGSIZE * r) v =
        if va ≤ v ∧ v < va + npages * PGSIZE then .ok none else k.lookup (PGSIZE * r) v := by
  obtain ⟨u, rfl⟩ := exists_page hva
  have hleaf : ∀ i < npages, leaf k.mem r (PGSIZE * (u + i)) &&& PTE_V ≠ 0 ∧
      PTE_FLAGS (leaf k.mem r (PGSIZE * (u + i))) ≠ PTE_V ∧
      (doFree → Freeable k r (frame (leaf k.mem r (PGSIZE * (u + i))))) := by
    intro i hi
    have hv : PGSIZE * (u + i) < MAXVA := by
      unfold PGSIZE at *
      omega
    obtain ⟨pa, flags, hlook, hflags, hfree⟩ := hmap (PGSIZE * (u + i))
      (by unfold PGSIZE at *; omega) (by unfold PGSIZE at *; omega)
    rw [lookup_eq ht hv, translate] at hlook
    split_ifs at hlook with hvalid
    · cases hlook
    · obtain ⟨rfl, rfl⟩ := Prod.mk.inj (Option.some.inj (Except.ok.inj hlook))
      refine ⟨hvalid, hflags, fun hd => ?_⟩
      have hpage := hfree hd
      rwa [PTE2PA_eq, Nat.mul_mod_right, Nat.add_zero, Nat.mul_div_cancel_left _ (by decide)]
        at hpage
  obtain ⟨k', hok, hunmap⟩ := uvmunmap_spec ht
    (by rw [Nat.mul_add, Nat.mul_comm PGSIZE npages]; exact hend)
    (fun i hi => ⟨(hleaf i hi).1, (hleaf i hi).2.1⟩) fun (hd : doFree) i hi => (hleaf i hi).2.2 hd
  refine ⟨k', hok, hunmap.tree, fun v hv => ?_⟩
  rw [lookup_eq hunmap.tree hv, hunmap.leaf_eq v hv, lookup_eq ht hv, translate_cleared]
  split_ifs <;> rfl

theorem walk_slot_inj {w pte pte' : ℕ} {k₂ : Kernel} (ht : IsTree k.mem r) (hv : v < MAXVA)
    (hw : w < MAXVA) (h : k.walk (PGSIZE * r) v false = .ok (pte, k₁))
    (h' : k.walk (PGSIZE * r) w false = .ok (pte', k₂)) (hpte : pte ≠ 0)
    (hpage : v / PGSIZE ≠ w / PGSIZE) : pte ≠ pte' := by
  rw [walk_eq hv] at h
  rw [walk_eq hw] at h'
  obtain ⟨rfl, -⟩ := Prod.mk.inj (Except.ok.inj h)
  obtain ⟨rfl, -⟩ := Prod.mk.inj (Except.ok.inj h')
  intro heq
  cases hf : node k.mem r (path v) with
  | none => exact hpte (by rw [hf, Option.elim_none])
  | some f =>
    cases hg : node k.mem r (path w) with
    | none => exact hpte (by rw [heq, hg, Option.elim_none])
    | some g =>
      rw [hf, hg] at heq
      exact hpage (slot_inj ht hv hw hf hg heq)

/-- A three-level page table that is a tree is a map from pages to entries: `mappages` adds
the entries of its range, or of a prefix of it when it fails; `uvmunmap` removes the
entries of its range; both leave the others alone and keep the tree; and different pages
have different slots. -/
theorem page_table_is_map (ht : IsTree k.mem r) (hf : Fresh k r) :
    (∀ va size pa perm, va % PGSIZE = 0 → size % PGSIZE = 0 → pa % PGSIZE = 0 → 0 < size →
      perm < 2 ^ 10 → va + size ≤ MAXVA → pa + size ≤ 2 ^ 56 →
      (∀ v, va ≤ v → v < va + size → k.lookup (PGSIZE * r) v = .ok none) →
      ∃ (ret : ℤ) (len : ℕ) (k' : Kernel),
        k.mappages (PGSIZE * r) va size pa perm = .ok (ret, k') ∧ IsTree k'.mem r ∧ Fresh k' r ∧
        (ret = 0 ∧ len = size ∨ ret = -1 ∧ len < size) ∧
        ∀ v < MAXVA, k'.lookup (PGSIZE * r) v = k.overlaid (PGSIZE * r) va len pa perm v) ∧
    (∀ va npages doFree, va % PGSIZE = 0 → va + npages * PGSIZE ≤ MAXVA →
      (∀ v, va ≤ v → v < va + npages * PGSIZE → k.Unmappable r v doFree) →
      ∃ k', k.uvmunmap (PGSIZE * r) va npages doFree = .ok k' ∧ IsTree k'.mem r ∧
        ∀ v < MAXVA, k'.lookup (PGSIZE * r) v =
          if va ≤ v ∧ v < va + npages * PGSIZE then .ok none else k.lookup (PGSIZE * r) v) ∧
    ∀ v w pte pte' k₁ k₂, v < MAXVA → w < MAXVA → v / PGSIZE ≠ w / PGSIZE →
      k.walk (PGSIZE * r) v false = .ok (pte, k₁) → k.walk (PGSIZE * r) w false = .ok (pte', k₂) →
      pte ≠ 0 → pte ≠ pte' :=
  ⟨fun _ _ _ _ hva hsize hpa hpos hperm hend hpaend hun =>
      mappages_overlays ht hf hva hsize hpa hpos hperm hend hpaend hun,
    fun _ _ _ hva hend hmap => uvmunmap_removes ht hva hend hmap,
    fun _ _ _ _ _ _ hv hw hpage h h' hpte => walk_slot_inj ht hv hw h h' hpte hpage⟩

/-- Blank memory, with a root at page 1 and two free pages. -/
def threePages : Kernel where
  mem := fun _ => 0
  freelist := [PGSIZE * 2, PGSIZE * 3]
  busy := []
  kernelEnd := 0

theorem threePages_blank (i : Fin 512) : entries threePages.mem 1 i = 0 := getWord_zero 8 _

theorem threePages_isTree : IsTree threePages.mem 1 := isTree_blank threePages_blank one_ne_zero

theorem threePages_fresh : Fresh threePages 1 := by
  refine ⟨⟨by decide, by decide⟩, fun f hf => ?_⟩
  rw [tables_blank threePages_blank]
  rintro rfl
  simp [Kernel.Free, threePages, PGSIZE] at hf

theorem page_table_is_map_threePages :
    ∃ (ret : ℤ) (len : ℕ) (k' : Kernel),
      threePages.mappages (PGSIZE * 1) 0 PGSIZE (PGSIZE * 4) (PTE_R ||| PTE_W) = .ok (ret, k') ∧
      IsTree k'.mem 1 ∧ Fresh k' 1 ∧ (ret = 0 ∧ len = PGSIZE ∨ ret = -1 ∧ len < PGSIZE) ∧
      ∀ v < MAXVA, k'.lookup (PGSIZE * 1) v =
        threePages.overlaid (PGSIZE * 1) 0 len (PGSIZE * 4) (PTE_R ||| PTE_W) v :=
  (page_table_is_map threePages_isTree threePages_fresh).1 0 PGSIZE (PGSIZE * 4) _ (by decide)
    (by decide) (by decide) (by decide) (by decide) (by decide) (by decide) fun v _ hv => by
      rw [lookup_eq threePages_isTree (hv.trans (by decide)), leaf_blank threePages_blank,
        translate_zero]

/-- A page mapped without any permission cannot be unmapped: its entry has no flag but `V`. -/
theorem uvmunmap_panics_without_permission : ∃ k',
    threePages.mappages (PGSIZE * 1) 0 PGSIZE (PGSIZE * 4) 0 = .ok (0, k') ∧
      k'.lookup (PGSIZE * 1) 0 = .ok (some (PGSIZE * 4, PTE_V)) ∧
      k'.uvmunmap (PGSIZE * 1) 0 1 false = .error "uvmunmap: not a leaf" := by
  have hrun : (threePages.mappages (PGSIZE * 1) 0 PGSIZE (PGSIZE * 4) 0).toOption.any
      (fun x => decide (x.1 = 0 ∧
        x.2.lookup (PGSIZE * 1) 0 = .ok (some (PGSIZE * 4, PTE_V)) ∧
        (x.2.uvmunmap (PGSIZE * 1) 0 1 false).map (fun _ => ()) =
          .error "uvmunmap: not a leaf")) = true := by decide +kernel
  cases hmap : threePages.mappages (PGSIZE * 1) 0 PGSIZE (PGSIZE * 4) 0 with
  | error e =>
    rw [hmap] at hrun
    cases hrun
  | ok x =>
    obtain ⟨ret, k'⟩ := x
    rw [hmap] at hrun
    obtain ⟨rfl, hlook, hunmap⟩ := of_decide_eq_true hrun
    refine ⟨k', rfl, hlook, ?_⟩
    change (k'.uvmunmap (PGSIZE * 1) 0 1 false).map _ = _ at hunmap
    cases hu : k'.uvmunmap (PGSIZE * 1) 0 1 false with
    | ok k'' =>
      rw [hu] at hunmap
      cases hunmap
    | error e =>
      rw [hu] at hunmap
      exact congrArg Except.error (Except.error.inj hunmap)

end Xv6.Vm
