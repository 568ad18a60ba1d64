import Xv6.Vm.Alloc

/-!
# Freeing a page table

`freewalk` frees the tables below a table before the table itself.  The tables form a tree,
so what one entry leads to is not touched by freeing what the other entries lead to.
-/

namespace Xv6.Vm

open Lib

variable {k k' k₀ k₁ : Kernel} {m m' : Bytes} {r c d f g n v : ℕ} {i : Fin 512}
  {p : List (Fin 512)} {S T D : Set ℕ}

/-! ## The tables below a table -/

/-- The tables at less than `d` levels below table `f`, and `f`. -/
def Below (m : Bytes) (f d : ℕ) : Set ℕ :=
  {g | ∃ p : List (Fin 512), p.length < d ∧ node m f p = some g}

theorem tables_eq_below (m : Bytes) (r : ℕ) : Tables m r = Below m r 3 := by
  ext g
  simp only [Tables, Below, Set.mem_ofPred_eq, Nat.lt_succ_iff]

/-- Below table `f` there are `d` levels of tables, as a tree, and no leaf. -/
structure Bare (m : Bytes) (f d : ℕ) : Prop where
  inj : ∀ p q g, p.length < d → q.length < d → node m f p = some g → node m f q = some g → p = q
  pointer : ∀ p g i, p.length < d → node m f p = some g → entries m g i &&& PTE_V ≠ 0 →
    p.length + 1 < d ∧ entries m g i &&& (PTE_R ||| PTE_W ||| PTE_X) = 0

theorem node_cons (h : child (entries m f i) = some c) : node m f (i :: p) = node m c p := by
  rw [node, Radix.node, h]
  rfl

theorem mem_below_cons (h : child (entries m f i) = some c) (hg : g ∈ Below m c d) :
    ∃ p : List (Fin 512), p.length < d ∧ node m c p = some g ∧ node m f (i :: p) = some g := by
  obtain ⟨p, hp, hn⟩ := hg
  exact ⟨p, hp, hn, by rw [node_cons h, hn]⟩

theorem below_succ : Below m f (d + 1) =
    insert f {g | ∃ i c, child (entries m f i) = some c ∧ g ∈ Below m c d} := by
  ext g
  constructor
  · rintro ⟨p, hp, hn⟩
    cases p with
    | nil => exact .inl (Option.some.inj hn).symm
    | cons i p =>
      obtain ⟨c, hc, hn'⟩ := Option.bind_eq_some_iff.mp hn
      exact .inr ⟨i, c, hc, p, by simpa using hp, hn'⟩
  · rintro (rfl | ⟨i, c, hc, hg⟩)
    · exact ⟨[], Nat.succ_pos d, rfl⟩
    · obtain ⟨p, hp, -, hn⟩ := mem_below_cons hc hg
      exact ⟨i :: p, by simpa using hp, hn⟩

namespace Bare

theorem child (h : Bare m f (d + 1)) (hc : Vm.child (entries m f i) = some c) : Bare m c d := by
  refine ⟨fun p q g hp hq hpn hqn => ?_, fun p g j hp hn hv => ?_⟩
  · rw [← node_cons hc] at hpn hqn
    exact List.tail_eq_of_cons_eq (h.inj _ _ g (by simpa using hp) (by simpa using hq) hpn hqn)
  · rw [← node_cons hc] at hn
    obtain ⟨hlt, hptr⟩ := h.pointer _ g j (by simpa using hp) hn hv
    exact ⟨by simpa using hlt, hptr⟩

theorem notMem_below (h : Bare m f (d + 1)) (hc : Vm.child (entries m f i) = some c) :
    f ∉ Below m c d := by
  intro hf
  obtain ⟨p, hp, -, hn⟩ := mem_below_cons hc hf
  cases h.inj (i :: p) [] f (by simpa using hp) (Nat.succ_pos d) hn rfl

theorem disjoint {j : Fin 512} {c' : ℕ} (h : Bare m f (d + 1))
    (hc : Vm.child (entries m f i) = some c) (hc' : Vm.child (entries m f j) = some c')
    (hij : i ≠ j) (hg : g ∈ Below m c d) : g ∉ Below m c' d := by
  intro hg'
  obtain ⟨p, hp, -, hn⟩ := mem_below_cons hc hg
  obtain ⟨q, hq, -, hn'⟩ := mem_below_cons hc' hg'
  have heq := h.inj (i :: p) (j :: q) g (by simpa using hp) (by simpa using hq) hn hn'
  exact hij (List.head_eq_of_cons_eq heq)

theorem congr (h : Bare m f d)
    (hsame : ∀ g ∈ Below m f d, ∀ o < PGSIZE, m' (PGSIZE * g + o) = m (PGSIZE * g + o)) :
    Bare m' f d ∧ Below m' f d = Below m f d := by
  have hnode : ∀ p : List (Fin 512), p.length < d → node m' f p = node m f p := fun p hp =>
    Radix.node_congr (d := p.length)
      (fun q g hq hn => entries_congr (hsame g ⟨q, by omega, hn⟩)) le_rfl
  refine ⟨⟨fun p q g hp hq hpn hqn => ?_, fun p g i hp hn hv => ?_⟩, ?_⟩
  · rw [hnode p hp] at hpn
    rw [hnode q hq] at hqn
    exact h.inj p q g hp hq hpn hqn
  · rw [hnode p hp] at hn
    rw [entries_congr (hsame g ⟨p, hp, hn⟩)] at hv ⊢
    exact h.pointer p g i hp hn hv
  · ext g
    refine exists_congr fun p => and_congr_right fun hp => ?_
    rw [hnode p hp]

end Bare

/-! ## `freewalk` -/

/-- From `k` to `k'` the pages of `S` have gone to the free list; other pages may have
changed only in `D`. -/
structure Frees (S D : Set ℕ) (k k' : Kernel) : Prop where
  freed : ∃ l, k'.freelist = l ++ k.freelist ∧ l.Nodup ∧ ∀ pa, pa ∈ l ↔ ∃ g ∈ S, pa = PGSIZE * g
  same : ∀ g, g ∉ S → g ∉ D → SamePage k k' g
  kernelEnd : k'.kernelEnd = k.kernelEnd

namespace Frees

theorem refl (k : Kernel) (D : Set ℕ) : Frees ∅ D k k :=
  ⟨⟨[], rfl, List.nodup_nil, by simp⟩, fun g _ _ => .refl k g, rfl⟩

theorem trans (h : Frees S D k k₁) (h' : Frees T D k₁ k') (hST : ∀ g ∈ T, g ∉ S) :
    Frees (T ∪ S) D k k' := by
  obtain ⟨l, hl, hnodup, hmem⟩ := h.freed
  obtain ⟨l', hl', hnodup', hmem'⟩ := h'.freed
  refine ⟨⟨l' ++ l, ?_, List.nodup_append'.mpr ⟨hnodup', hnodup, fun pa hpa hpa' => ?_⟩,
    fun pa => ?_⟩, fun g hg hD => ?_, h'.kernelEnd.trans h.kernelEnd⟩
  · rw [hl', hl, List.append_assoc]
  · obtain ⟨g, hg, rfl⟩ := (hmem' pa).mp hpa
    obtain ⟨g', hg', heq⟩ := (hmem _).mp hpa'
    rw [← Nat.eq_of_mul_eq_mul_left (by decide) heq] at hg'
    exact hST g hg hg'
  · rw [List.mem_append, hmem, hmem']
    constructor
    · rintro (⟨g, hg, rfl⟩ | ⟨g, hg, rfl⟩)
      · exact ⟨g, .inl hg, rfl⟩
      · exact ⟨g, .inr hg, rfl⟩
    · rintro ⟨g, hg | hg, rfl⟩
      · exact .inl ⟨g, hg, rfl⟩
      · exact .inr ⟨g, hg, rfl⟩
  · rw [Set.mem_union, not_or] at hg
    exact (h.same g hg.2 hD).trans (h'.same g hg.1 hD)

theorem mono (D' : Set ℕ) (h : Frees S D k k') (hD : ∀ g ∈ D, g ∈ S ∨ g ∈ D') :
    Frees S D' k k' :=
  ⟨h.freed, fun g hg hg' => h.same g hg fun hd => (hD g hd).elim hg hg', h.kernelEnd⟩

theorem free_iff (h : Frees S D k k') : k'.Free g ↔ g ∈ S ∨ k.Free g := by
  obtain ⟨l, hl, -, hmem⟩ := h.freed
  rw [Kernel.Free, hl, List.mem_append, hmem]
  refine or_congr_left ⟨?_, fun hg => ⟨g, hg, rfl⟩⟩
  rintro ⟨g', hg', heq⟩
  rwa [Nat.eq_of_mul_eq_mul_left (by decide) heq]

theorem pool (h : Frees S D k k') (hp : Pool k) (hS : ∀ g ∈ S, Managed k g ∧ ¬k.Free g) :
    Pool k' := by
  obtain ⟨l, hl, hnodup, hmem⟩ := h.freed
  refine ⟨?_, fun pa hpa => ?_⟩
  · rw [hl, List.nodup_append']
    refine ⟨hnodup, hp.nodup, fun pa hpa hpa' => ?_⟩
    obtain ⟨g, hg, rfl⟩ := (hmem pa).mp hpa
    exact (hS g hg).2 hpa'
  · rw [hl, List.mem_append] at hpa
    rcases hpa with hpa | hpa
    · obtain ⟨g, hg, rfl⟩ := (hmem pa).mp hpa
      exact ⟨g, rfl, (hS g hg).1.congr h.kernelEnd⟩
    · obtain ⟨g, rfl, hm⟩ := hp.page pa hpa
      exact ⟨g, rfl, hm.congr h.kernelEnd⟩

end Frees

theorem kfree_frees (h : Managed k f) :
    ∃ k', k.kfree (PGSIZE * f) = .ok k' ∧ Frees {f} ∅ k k' := by
  obtain ⟨k', hok, hlist, hend, -, hsame⟩ := kfree_spec h.2.1 h.2.2
  exact ⟨k', hok, ⟨[PGSIZE * f], hlist, List.nodup_singleton _, by simp⟩, fun g hg _ => hsame g hg,
    hend⟩

/-- The tables that entry `i` of table `f` leads to. -/
def subtree (m : Bytes) (f d : ℕ) (i : Fin 512) : Set ℕ :=
  {g | ∃ c, child (entries m f i) = some c ∧ g ∈ Below m c d}

/-- What `freewalk` does at `d` levels. -/
def FreewalkOk (d : ℕ) : Prop :=
  ∀ (k : Kernel) (c : ℕ), Bare k.mem c d → (∀ g ∈ Below k.mem c d, Managed k g) →
    0 < d → ∃ k', Kernel.freewalk d k (PGSIZE * c) = .ok k' ∧ Frees (Below k.mem c d) ∅ k k'

section loop

variable (hd : FreewalkOk d) (hbare : Bare k₀.mem f (d + 1))
  (hman : ∀ g ∈ Below k₀.mem f (d + 1), Managed k₀ g)

include hd hbare hman in
/-- One entry.  The state `k₁` differs from the one at the start in `f` and in what other
entries led to. -/
theorem freeEntry_spec (hfrees : Frees S {f} k₀ k₁) (hi : entries k₁.mem f i = entries k₀.mem f i)
    (hS : ∀ g ∈ subtree k₀.mem f d i, g ∉ S) :
    ∃ k', Kernel.freeEntry (Kernel.freewalk d) (PGSIZE * f) k₁ i = .ok k' ∧
      Frees (subtree k₀.mem f d i ∪ S) {f} k₀ k' ∧
      ∀ j ≠ i, entries k'.mem f j = entries k₁.mem f j := by
  have hload : k₁.load (PGSIZE * f + 8 * i) = entries k₀.mem f i := hi
  unfold Kernel.freeEntry
  simp only [hload]
  by_cases hv : entries k₀.mem f i &&& PTE_V ≠ 0
  swap
  · have hempty : subtree k₀.mem f d i = ∅ := by
      ext g
      simp [subtree, child, hv]
    rw [if_neg (fun h => hv h.1), if_neg hv, hempty, Set.empty_union]
    exact ⟨k₁, rfl, hfrees, fun _ _ => rfl⟩
  obtain ⟨hpos, hptr⟩ := hbare.pointer [] f i (Nat.succ_pos d) rfl hv
  have hchild : child (entries k₀.mem f i) = some (frame (entries k₀.mem f i)) := if_pos hv
  set c := frame (entries k₀.mem f i)
  have hsub : subtree k₀.mem f d i = Below k₀.mem c d := by
    ext g
    simp [subtree, hchild]
  have hfc : f ∉ Below k₀.mem c d := hbare.notMem_below hchild
  rw [hsub] at hS ⊢
  obtain ⟨hbare₁, hbelow₁⟩ := (hbare.child hchild).congr fun g hg =>
    hfrees.same g (hS g hg) fun hgf => hfc (Set.mem_singleton_iff.mp hgf ▸ hg)
  obtain ⟨k₂, hok, hfrees₂⟩ := hd k₁ c hbare₁ (by
    rw [hbelow₁]
    intro g hg
    refine (hman g ?_).congr hfrees.kernelEnd
    rw [below_succ]
    exact .inr ⟨i, c, hchild, hg⟩) (Nat.lt_of_succ_lt_succ hpos)
  rw [hbelow₁] at hfrees₂
  have hslot : (PGSIZE * f + 8 * (i : ℕ)) / PGSIZE = f := by
    have := i.isLt
    unfold PGSIZE
    omega
  have hstore : Frees ∅ {f} k₂ (k₂.store (PGSIZE * f + 8 * i) 0) := by
    refine ⟨⟨[], rfl, List.nodup_nil, by simp⟩, fun g _ hg => samePage_store ?_ ?_, rfl⟩
    · rw [hslot]
      exact fun h => hg h.symm
    · unfold PGSIZE
      omega
  refine ⟨k₂.store (PGSIZE * f + 8 * i) 0, ?_, ?_, fun j hj => ?_⟩
  · rw [if_pos ⟨hv, hptr⟩, PTE2PA_eq, hok]
    rfl
  · have htwo := hfrees.trans (hfrees₂.mono {f} fun g hg => absurd hg (Set.notMem_empty g)) hS
    have hthree := htwo.trans hstore fun g hg => absurd hg (Set.notMem_empty g)
    rwa [Set.empty_union] at hthree
  · have hset : entries (k₂.store (PGSIZE * f + 8 * i) 0).mem =
        Radix.set (entries k₂.mem) f i 0 := entries_setWord (by decide)
    rw [hset, Radix.set_of_ne (.inr hj)]
    exact congrFun (entries_congr (hfrees₂.same f hfc (Set.notMem_empty f))) j

include hd hbare hman in
theorem freeLoop_spec (l : List ℕ) (hl : l.Nodup) (hlt : ∀ a ∈ l, a < 512)
    (hfrees : Frees S {f} k₀ k₁)
    (hent : ∀ i : Fin 512, (i : ℕ) ∈ l → entries k₁.mem f i = entries k₀.mem f i)
    (hS : ∀ i : Fin 512, (i : ℕ) ∈ l → ∀ g ∈ subtree k₀.mem f d i, g ∉ S) :
    ∃ k', l.foldlM (Kernel.freeEntry (Kernel.freewalk d) (PGSIZE * f)) k₁ = .ok k' ∧
      Frees (S ∪ {g | ∃ i : Fin 512, (i : ℕ) ∈ l ∧ g ∈ subtree k₀.mem f d i}) {f} k₀ k' := by
  induction l generalizing k₁ S with
  | nil =>
    refine ⟨k₁, rfl, ?_⟩
    have hempty : {g | ∃ i : Fin 512, (i : ℕ) ∈ ([] : List ℕ) ∧ g ∈ subtree k₀.mem f d i} = ∅ := by
      ext g
      simp
    rwa [hempty, Set.union_empty]
  | cons a l ih =>
    obtain ⟨ha, hl'⟩ := List.nodup_cons.mp hl
    have ha512 : a < 512 := hlt a List.mem_cons_self
    obtain ⟨i, rfl⟩ : ∃ i : Fin 512, a = i := ⟨⟨a, ha512⟩, rfl⟩
    obtain ⟨k₂, hok, hfrees₂, hent₂⟩ := freeEntry_spec hd hbare hman hfrees
      (hent i List.mem_cons_self) (hS i List.mem_cons_self)
    have hne : ∀ j : Fin 512, (j : ℕ) ∈ l → j ≠ i := by
      rintro j hj rfl
      exact ha hj
    obtain ⟨k', hloop, hfrees'⟩ := ih hl' (fun b hb => hlt b (List.mem_cons_of_mem _ hb)) hfrees₂
      (fun j hj => by
        rw [hent₂ j (hne j hj)]
        exact hent j (List.mem_cons_of_mem _ hj))
      (fun j hj g hg => by
        rintro (hg' | hg')
        · obtain ⟨c, hc, hgc⟩ := hg
          obtain ⟨c', hc', hgc'⟩ := hg'
          exact hbare.disjoint hc hc' (hne j hj) hgc hgc'
        · exact hS j (List.mem_cons_of_mem _ hj) g hg hg')
    refine ⟨k', ?_, ?_⟩
    · rw [List.foldlM_cons, hok]
      exact hloop
    · have hset : subtree k₀.mem f d i ∪ S ∪
            {g | ∃ j : Fin 512, (j : ℕ) ∈ l ∧ g ∈ subtree k₀.mem f d j} =
          S ∪ {g | ∃ j : Fin 512, (j : ℕ) ∈ (i : ℕ) :: l ∧ g ∈ subtree k₀.mem f d j} := by
        ext g
        simp only [Set.mem_union, Set.mem_ofPred_eq, List.mem_cons]
        constructor
        · rintro ((hg | hg) | ⟨j, hj, hg⟩)
          · exact .inr ⟨i, .inl rfl, hg⟩
          · exact .inl hg
          · exact .inr ⟨j, .inr hj, hg⟩
        · rintro (hg | ⟨j, hj | hj, hg⟩)
          · exact .inl (.inr hg)
          · rw [Fin.ext hj] at hg
            exact .inl (.inl hg)
          · exact .inr ⟨j, hj, hg⟩
      rwa [hset] at hfrees'

end loop

theorem freewalkOk (d : ℕ) : FreewalkOk d := by
  induction d with
  | zero => exact fun _ _ _ _ h => absurd h (lt_irrefl 0)
  | succ d ih =>
    intro k f hbare hman _
    obtain ⟨k₁, hloop, hfrees⟩ := freeLoop_spec ih hbare hman (List.range 512) List.nodup_range
      (fun a ha => List.mem_range.mp ha) (.refl k {f}) (fun _ _ => rfl)
      fun _ _ g _ => Set.notMem_empty g
    have hself : f ∈ Below k.mem f (d + 1) := ⟨[], Nat.succ_pos d, rfl⟩
    obtain ⟨k', hok, hfree⟩ := kfree_frees ((hman f hself).congr hfrees.kernelEnd)
    refine ⟨k', ?_, ?_⟩
    · rw [Kernel.freewalk, hloop]
      exact hok
    · have hset : {f} ∪ (∅ ∪ {g | ∃ i : Fin 512, (i : ℕ) ∈ List.range 512 ∧
          g ∈ subtree k.mem f d i}) = Below k.mem f (d + 1) := by
        rw [below_succ, Set.empty_union, Set.insert_eq]
        refine congrArg ({f} ∪ ·) (Set.ext fun g => ⟨?_, ?_⟩)
        · rintro ⟨i, -, c, hc, hg⟩
          exact ⟨i, c, hc, hg⟩
        · rintro ⟨i, c, hc, hg⟩
          exact ⟨i, List.mem_range.mpr i.isLt, c, hc, hg⟩
      have hall := hfrees.trans (hfree.mono {f} fun g hg => absurd hg (Set.notMem_empty g))
        (by
          rintro g rfl (hg | ⟨i, -, c, hc, hg⟩)
          · exact hg
          · exact hbare.notMem_below hc hg)
      rw [hset] at hall
      exact hall.mono ∅ fun g hg => .inl (Set.mem_singleton_iff.mp hg ▸ hself)

end Xv6.Vm
