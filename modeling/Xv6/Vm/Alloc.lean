import Xv6.Vm.Space

/-!
# Growing and shrinking the memory of a process

`uvmalloc` adds zeroed pages at the end, each taken from the free list, and takes all of
them back when it fails; `uvmdealloc` gives pages back.
-/

namespace Xv6.Vm

open Lib

variable {k k' k₁ k₂ : Kernel} {r f g n n' u v w perm : ℕ} {flags : ℕ → ℕ}
  {fill : ℕ → ℕ → UInt8}

/-! ## `uvmdealloc` -/

def pages (sz : ℕ) : ℕ := (sz + PGSIZE - 1) / PGSIZE

theorem pages_mul (u : ℕ) : pages (PGSIZE * u) = u := by
  unfold pages PGSIZE
  omega

theorem pages_mono {a b : ℕ} (h : a ≤ b) : pages a ≤ pages b := by
  unfold pages PGSIZE
  omega

theorem pgroundup_eq {sz : ℕ} (h : sz + PGSIZE ≤ 2 ^ 64) : PGROUNDUP sz = PGSIZE * pages sz := by
  unfold PGROUNDUP pages PGSIZE at *
  omega

theorem le_pages (sz : ℕ) : sz ≤ PGSIZE * pages sz := by
  unfold pages PGSIZE
  omega

theorem Image.size_lt {sz : ℕ} (h : Image k r (pages sz)) : sz + PGSIZE ≤ 2 ^ 64 := by
  have hlt := h.lt_trapframe
  have hle := le_pages sz
  unfold TRAPFRAME TRAMPOLINE MAXVA PGSIZE at *
  omega

theorem intToUint64_of_lt {x : ℕ} (h : x < 2 ^ 31) : Kernel.intToUint64 x = x := by
  unfold Kernel.intToUint64
  rw [Int.bmod_eq_of_le (by omega) (by omega)]
  omega

theorem freedBy_eq (L : ℕ → ℕ) (u n : ℕ) : freedBy true L u n =
    ((List.range n).map fun i => PGSIZE * frame (L (PGSIZE * (u + i)))).reverse := by
  induction n generalizing u with
  | zero => rfl
  | succ n ih =>
    rw [freedBy, ih, List.range_succ_eq_map, List.map_cons, List.reverse_cons, List.map_map]
    simp only [Function.comp_def, Nat.add_assoc, Nat.add_comm 1, Nat.succ_eq_add_one]
    rfl

theorem shrinks_refl (h : Space k r n) : Shrinks r n n k k := by
  refine ⟨le_rfl, h, fun _ _ _ => rfl, rfl, fun f => ?_, fun f _ _ => .refl k f, rfl⟩
  constructor
  · exact .inl
  · rintro (hf | ⟨u, hu, hu', -⟩)
    · exact hf
    · exact absurd hu' (Nat.not_lt.mpr hu)

theorem uvmunmap_shrinks (h : Space k r n) (hle : n' ≤ n) :
    ∃ k', k.uvmunmap (PGSIZE * r) (PGSIZE * n') (n - n') true = .ok k' ∧ Shrinks r n n' k k' := by
  have hsum : n' + (n - n') = n := by omega
  obtain ⟨k', hok, hunmap⟩ := uvmunmap_spec (u := n') (n := n - n') h.tree
    (by rw [hsum]; exact (h.lt_maxva le_rfl).le) (fun i hi => h.user (n' + i) (by omega))
    fun (_ : true) i hi => by
      have hi' : n' + i < n := by omega
      obtain ⟨-, hge, hlt⟩ := h.managed _ (.inr ⟨n' + i, hi', rfl⟩)
      exact ⟨h.apart _ hi', hge, hlt⟩
  refine ⟨k', hok, ?_⟩
  have hmem : ∀ f, PGSIZE * f ∈ freedBy true (leaf k.mem r) n' (n - n') ↔
      ∃ u, n' ≤ u ∧ u < n ∧ userFrame k.mem r u = f := by
    intro f
    rw [freedBy_eq, List.mem_reverse, List.mem_map]
    constructor
    · rintro ⟨i, hi, heq⟩
      rw [List.mem_range] at hi
      exact ⟨n' + i, by omega, by omega, Nat.eq_of_mul_eq_mul_left (by decide) heq⟩
    · rintro ⟨u, hu, hu', rfl⟩
      refine ⟨u - n', List.mem_range.mpr (by omega), ?_⟩
      rw [Nat.add_sub_cancel' hu]
      rfl
  have hfree : ∀ f, k'.Free f ↔ k.Free f ∨ ∃ u, n' ≤ u ∧ u < n ∧ userFrame k.mem r u = f := by
    intro f
    rw [Kernel.Free, hunmap.freelist, List.mem_append, hmem, or_comm]
    rfl
  have hleaf : ∀ v < MAXVA, v / PGSIZE < n' ∨ TRAPFRAME ≤ v → leaf k'.mem r v = leaf k.mem r v := by
    intro v hv hor
    rw [hunmap.leaf_eq v hv, cleared, if_neg]
    rintro ⟨hlo, hhi⟩
    have hlt := h.lt_trapframe
    unfold PGSIZE at *
    omega
  have hframe : ∀ u < n', userFrame k'.mem r u = userFrame k.mem r u := by
    intro u hu
    rw [userFrame, userFrame, hleaf _ (h.lt_maxva (by omega))]
    exact .inl (by rwa [Nat.mul_div_cancel_left u (by decide)])
  have hheld : ∀ f, Held k' r n' f → Held k r n f := by
    rintro f (ht | ⟨u, hu, rfl⟩)
    · exact .inl (by rwa [hunmap.tables] at ht)
    · exact .inr ⟨u, by omega, (hframe u hu).symm⟩
  have hnodup : k'.freelist.Nodup := by
    rw [hunmap.freelist, freedBy_eq, List.nodup_append']
    refine ⟨List.nodup_reverse.mpr (List.Nodup.map_on ?_ List.nodup_range), h.pool.nodup, ?_⟩
    · intro i hi j hj heq
      rw [List.mem_range] at hi hj
      have := h.inj (n' + i) (by omega) (n' + j) (by omega)
        (Nat.eq_of_mul_eq_mul_left (by decide) heq)
      omega
    · intro pa hpa hfr
      obtain ⟨f, rfl, -⟩ := h.pool.page pa hfr
      rw [← freedBy_eq] at hpa
      obtain ⟨u, -, hu, rfl⟩ := (hmem f).mp hpa
      exact h.not_free hu hfr
  refine ⟨hle, ⟨⟨hunmap.tree, fun f hf => (h.managed f (hheld f hf)).congr hunmap.kernelEnd,
    fun u hu => ?_, fun u hu => ?_, fun u hu w hw => ?_, fun v hv hge => ?_, fun v hge hv => ?_,
    fun i hi => by rw [hunmap.top i hi]; exact h.half i hi⟩, ⟨hnodup, fun pa hpa => ?_⟩,
    fun f hf hheld' => ?_⟩, hleaf, hunmap.tables, hfree,
    fun f ht hne => hunmap.same f ht fun hm => ?_, hunmap.kernelEnd⟩
  · have hu' : PGSIZE * u / PGSIZE < n' := by rwa [Nat.mul_div_cancel_left u (by decide)]
    rw [hleaf _ (h.lt_maxva (by omega)) (.inl hu')]
    exact h.user u (by omega)
  · rw [hframe u hu, hunmap.tables]
    exact h.apart u (by omega)
  · rw [hframe u hu, hframe w hw]
    exact h.inj u (by omega) w (by omega)
  · rw [hunmap.leaf_eq v (hv.trans trapframe_lt), cleared]
    split_ifs with hrange
    · rfl
    · exact h.unmapped v hv (by omega)
  · rw [hleaf v hv (.inr hge)]
    exact h.high v hge hv
  · rw [hunmap.freelist, List.mem_append] at hpa
    rcases hpa with hpa | hpa
    · rw [freedBy_eq, List.mem_reverse, List.mem_map] at hpa
      obtain ⟨i, hi, rfl⟩ := hpa
      rw [List.mem_range] at hi
      exact ⟨_, rfl, (h.managed _ (.inr ⟨n' + i, by omega, rfl⟩)).congr hunmap.kernelEnd⟩
    · obtain ⟨f, rfl, hm⟩ := h.pool.page pa hpa
      exact ⟨f, rfl, hm.congr hunmap.kernelEnd⟩
  · rcases (hfree f).mp hf with hf | ⟨u, hu, hu', rfl⟩
    · exact h.free_apart f hf (hheld f hheld')
    · rcases hheld' with ht | ⟨w, hw, heq⟩
      · rw [hunmap.tables] at ht
        exact h.apart u hu' ht
      · rw [hframe w hw] at heq
        have := h.inj w (by omega) u hu' heq
        omega
  · obtain ⟨u, hu, hu', heq⟩ := (hmem f).mp hm
    exact hne u hu hu' heq

theorem uvmdealloc_spec {oldsz newsz : ℕ} (h : Space k r (pages oldsz)) (hle : newsz ≤ oldsz) :
    ∃ k', k.uvmdealloc (PGSIZE * r) oldsz newsz = .ok (newsz, k') ∧
      Shrinks r (pages oldsz) (pages newsz) k k' := by
  have hold := h.size_lt
  have hcount := h.count
  have hpages := pages_mono hle
  obtain ⟨k', hok, hshrink⟩ := uvmunmap_shrinks h hpages
  unfold Kernel.uvmdealloc
  by_cases heq : oldsz ≤ newsz
  · obtain rfl : oldsz = newsz := le_antisymm heq hle
    exact ⟨k, if_pos heq, shrinks_refl h⟩
  rw [if_neg heq, pgroundup_eq hold, pgroundup_eq (by omega : newsz + PGSIZE ≤ 2 ^ 64)]
  by_cases hlt : PGSIZE * pages newsz < PGSIZE * pages oldsz
  · have hn : Kernel.intToUint64 ((PGSIZE * pages oldsz - PGSIZE * pages newsz) / PGSIZE) =
        pages oldsz - pages newsz := by
      rw [← Nat.mul_sub, Nat.mul_div_cancel_left _ (by decide), intToUint64_of_lt]
      unfold PHYSTOP PGSIZE at hcount
      omega
    rw [if_pos hlt]
    simp only [hn, hok, bind, Except.bind]
    exact ⟨k', rfl, hshrink⟩
  · rw [if_neg hlt]
    have hsame : pages newsz = pages oldsz := by
      refine le_antisymm hpages ?_
      by_contra h'
      exact hlt (Nat.mul_lt_mul_of_pos_left (Nat.not_le.mp h') (by decide))
    rw [hsame]
    exact ⟨k, rfl, shrinks_refl h⟩

/-! ## `uvmalloc` -/

theorem Space.reflag (h : Space k r n) {L : ℕ → ℕ} (hedit : Edits r L k k')
    (hframe : ∀ u < n, frame (L (PGSIZE * u)) = userFrame k.mem r u)
    (huser : ∀ u < n, L (PGSIZE * u) &&& PTE_V ≠ 0 ∧ PTE_FLAGS (L (PGSIZE * u)) ≠ PTE_V)
    (hunmapped : ∀ v < TRAPFRAME, n ≤ v / PGSIZE → L v &&& PTE_V = 0)
    (hhigh : ∀ v, TRAPFRAME ≤ v → v < MAXVA → L v &&& PTE_U = 0) :
    Space k' r n ∧ ∀ f, Owned k' r n f ↔ Owned k r n f := by
  have hleaf : ∀ u < n, leaf k'.mem r (PGSIZE * u) = L (PGSIZE * u) := fun u hu =>
    hedit.leaf_eq _ (h.lt_maxva hu.le)
  have hframe' : ∀ u < n, userFrame k'.mem r u = userFrame k.mem r u := fun u hu => by
    rw [userFrame, hleaf u hu, hframe u hu]
  have hframes : ∀ f, (∃ u < n, userFrame k'.mem r u = f) ↔ ∃ u < n, userFrame k.mem r u = f := by
    intro f
    refine exists_congr fun u => and_congr_right fun hu => ?_
    rw [hframe' u hu]
  have howned : ∀ f, Owned k' r n f ↔ Owned k r n f := by
    intro f
    unfold Owned Held
    rw [hframes, or_right_comm, hedit.pages f, or_right_comm]
  have hfree : ∀ f, k'.Free f → k.Free f := fun f hf => hedit.shrinks.subset hf
  have hpool : Pool k' := by
    refine ⟨hedit.fresh.nodup, fun pa hpa => ?_⟩
    obtain ⟨f, rfl, hm⟩ := h.pool.page pa (hedit.shrinks.subset hpa)
    exact ⟨f, rfl, hm.congr hedit.kernelEnd⟩
  refine ⟨⟨⟨hedit.tree, fun f hf => ?_, fun u hu => ?_, fun u hu => ?_, fun u hu w hw => ?_,
    fun v hv hge => ?_, fun v hge hv => ?_, fun i hi => by rw [hedit.top i hi]; exact h.half i hi⟩,
    hpool, fun f hf => ?_⟩, howned⟩
  · rcases (howned f).mp (.inl hf) with hf | hf
    · exact (h.managed f hf).congr hedit.kernelEnd
    · exact (h.pool.managed hf).congr hedit.kernelEnd
  · rw [hleaf u hu]
    exact huser u hu
  · -- user pages were neither tables nor free
    rw [hframe' u hu]
    intro ht
    rcases (hedit.pages _).mp (.inl ht) with ht | hf
    · exact h.apart u hu ht
    · exact h.not_free hu hf
  · rw [hframe' u hu, hframe' w hw]
    exact h.inj u hu w hw
  · rw [hedit.leaf_eq v (hv.trans trapframe_lt)]
    exact hunmapped v hv hge
  · rw [hedit.leaf_eq v hv]
    exact hhigh v hge hv
  · rintro (ht | hu)
    · exact hedit.fresh.apart f hf ht
    · exact h.free_apart f (hfree f hf) (.inr ((hframes f).mp hu))

theorem Space.edit (h : Space k r n) {L : ℕ → ℕ} (hedit : Edits r L k k')
    (hlow : ∀ v < TRAPFRAME, L v = leaf k.mem r v)
    (hhigh : ∀ v, TRAPFRAME ≤ v → v < MAXVA → L v &&& PTE_U = 0) :
    Space k' r n ∧ ∀ f, Owned k' r n f ↔ Owned k r n f := by
  have hlt : ∀ u < n, PGSIZE * u < TRAPFRAME := by
    intro u hu
    have := h.lt_trapframe
    unfold PGSIZE at *
    omega
  refine h.reflag hedit (fun u hu => ?_) (fun u hu => ?_) (fun v hv hge => ?_) hhigh
  · rw [hlow _ (hlt u hu), userFrame]
  · rw [hlow _ (hlt u hu)]
    exact h.user u hu
  · rw [hlow v hv]
    exact h.unmapped v hv hge

theorem Space.grow (h : Space k r n) {L : ℕ → ℕ} (hedit : Edits r L k k')
    (hL : ∀ v < MAXVA, L v = leaf k.mem r v) : Extends r n n flags fill k k' := by
  obtain ⟨hspace, howned⟩ := h.edit hedit (fun v hv => hL v (hv.trans trapframe_lt))
    fun v hge hv => by
    rw [hL v hv]
    exact h.high v hge hv
  exact ⟨le_rfl, hspace, fun v hv _ => (hedit.leaf_eq v hv).trans (hL v hv),
    fun _ hu hu' => absurd hu' (Nat.not_lt.mpr hu), fun _ hu hu' => absurd hu' (Nat.not_lt.mpr hu),
    fun _ hu hu' => absurd hu' (Nat.not_lt.mpr hu), howned, fun f hf => hedit.shrinks.subset hf,
    hedit.same, hedit.kernelEnd⟩

section take

/-! A page `f` has been taken from the free list of `k` and filled; `k₂` is the result. -/

variable (h : Space k r n) (hlist : k.freelist = PGSIZE * f :: k₂.freelist)
  (hsame : ∀ g ≠ f, SamePage k k₂ g) (hend : k₂.kernelEnd = k.kernelEnd)

include hlist in
theorem free_iff_of_cons : k.Free g ↔ g = f ∨ k₂.Free g := by
  rw [Kernel.Free, hlist, List.mem_cons]
  refine or_congr_left ⟨fun h => Nat.eq_of_mul_eq_mul_left (by decide) h, ?_⟩
  rintro rfl
  rfl

include h hlist in
theorem Space.not_free_of_cons : ¬k₂.Free f := by
  have hnodup := h.pool.nodup
  rw [hlist, List.nodup_cons] at hnodup
  exact hnodup.1

include h hlist hsame hend in
theorem Space.take : Space k₂ r n ∧ ∀ v, leaf k₂.mem r v = leaf k.mem r v := by
  have hf : k.Free f := (free_iff_of_cons hlist).mpr (.inl rfl)
  have hheld : ∀ g ∈ Tables k.mem r, SamePage k k₂ g := fun g hg => hsame g (by
    rintro rfl
    exact h.free_apart g hf (.inl hg))
  have hnodup := h.pool.nodup
  rw [hlist, List.nodup_cons] at hnodup
  refine ⟨h.congr ⟨hnodup.2, fun pa hpa => ?_⟩ hheld (fun g hg => ?_) hend, fun v => ?_⟩
  · obtain ⟨g, rfl, hm⟩ := h.pool.page pa (by rw [hlist]; exact List.mem_cons_of_mem _ hpa)
    exact ⟨g, rfl, hm.congr hend⟩
  · exact h.free_apart g ((free_iff_of_cons hlist).mpr (.inr hg))
  · exact leaf_congr hheld

variable (hflags : flags n = perm ||| PTE_V)
  (hfill : ∀ o < PGSIZE, k₂.mem (PGSIZE * f + o) = fill n o)

include h hlist hsame hend hflags hfill in
theorem Space.push (hperm : perm < 1024) (hleafy : perm ||| PTE_V ≠ PTE_V)
    (hedit : Edits r (mapped (leaf k₂.mem r) n f perm 1) k₂ k') :
    Extends r n (n + 1) flags fill k k' := by
  obtain ⟨h₂, hleaf₂⟩ := h.take hlist hsame hend
  have hf : k.Free f := (free_iff_of_cons hlist).mpr (.inl rfl)
  have hf₂ : ¬k₂.Free f := h.not_free_of_cons hlist
  have hmf := h.pool.managed hf
  have htab : Tables k₂.mem r = Tables k.mem r := tables_congr fun g hg => hsame g (by
    rintro rfl
    exact h.free_apart g hf (.inl hg))
  have hft : f ∉ Tables k₂.mem r := by
    rw [htab]
    exact fun ht => h.free_apart f hf (.inl ht)
  have hlt : f < 2 ^ 44 := hmf.lt.trans (by decide)
  have hend' : k'.kernelEnd = k.kernelEnd := hedit.kernelEnd.trans hend
  have hn : PGSIZE * n < MAXVA := h.lt_maxva le_rfl
  have hdiv : ∀ u, PGSIZE * u / PGSIZE = u := fun u => Nat.mul_div_cancel_left u (by decide)
  -- the entry of the new page, and the others
  have hnew : leaf k'.mem r (PGSIZE * n) = f * 1024 + (perm ||| PTE_V) := by
    rw [hedit.leaf_eq _ hn, mapped, hdiv, if_pos (by omega), Nat.sub_self, Nat.add_zero]
  have hleaf : ∀ v < MAXVA, v / PGSIZE ≠ n → leaf k'.mem r v = leaf k.mem r v := by
    intro v hv hne
    rw [hedit.leaf_eq v hv, mapped, if_neg (by omega), hleaf₂]
  have hframe : ∀ u < n, userFrame k'.mem r u = userFrame k.mem r u := by
    intro u hu
    rw [userFrame, userFrame, hleaf _ (h.lt_maxva hu.le) (by rw [hdiv]; omega)]
  have hframe_new : userFrame k'.mem r n = f := by
    rw [userFrame, hnew, frame_of_flags (by omega) (or_V_lt hperm)]
  have hframes : ∀ g, (∃ u < n + 1, userFrame k'.mem r u = g) ↔
      (∃ u < n, userFrame k.mem r u = g) ∨ g = f := by
    intro g
    constructor
    · rintro ⟨u, hu, rfl⟩
      rcases Nat.lt_succ_iff_lt_or_eq.mp hu with hu | rfl
      · exact .inl ⟨u, hu, (hframe u hu).symm⟩
      · exact .inr hframe_new
    · rintro (⟨u, hu, rfl⟩ | rfl)
      · exact ⟨u, by omega, hframe u hu⟩
      · exact ⟨n, by omega, hframe_new⟩
  have howned : ∀ g, Owned k' r (n + 1) g ↔ Owned k r n g := by
    intro g
    unfold Owned Held
    rw [hframes, or_right_comm, hedit.pages g, htab, free_iff_of_cons hlist, or_or_or_comm,
      @or_comm (k₂.Free g)]
  have hfree : ∀ g, k'.Free g → k₂.Free g := fun g hg => hedit.shrinks.subset hg
  have hout : ∀ g, g ∉ Tables k.mem r → ¬k₂.Free g → g ∉ Tables k'.mem r ∧ ¬k'.Free g := by
    intro g ht hg
    refine ⟨fun ht' => ?_, fun hg' => hg (hfree g hg')⟩
    rcases (hedit.pages g).mp (.inl ht') with ht₂ | hg₂
    · rw [htab] at ht₂
      exact ht ht₂
    · exact hg hg₂
  have hfout := hout f (by rwa [← htab]) hf₂
  have huout : ∀ u < n, userFrame k.mem r u ∉ Tables k'.mem r ∧ ¬k'.Free (userFrame k.mem r u) :=
    fun u hu => hout _ (h.apart u hu)
      fun hg => h.not_free hu ((free_iff_of_cons hlist).mpr (.inr hg))
  have hne : ∀ u < n, userFrame k.mem r u ≠ f := by
    rintro u hu rfl
    exact h.not_free hu hf
  have hpage_new : PTE_FLAGS (leaf k'.mem r (PGSIZE * n)) = perm ||| PTE_V := by
    rw [hnew, PTE_FLAGS]
    have := or_V_lt hperm
    omega
  have hodd : (perm ||| PTE_V) % 2 = 1 := by
    rw [PTE_V, Nat.or_mod_two_eq_one]
    exact .inr rfl
  refine ⟨Nat.le_succ n, ⟨⟨hedit.tree, fun g hg => ?_, fun u hu => ?_, fun u hu => ?_,
    fun u hu w hw heq => ?_, fun v hv hge => ?_, fun v hge hv => ?_,
    fun i hi => by rw [hedit.top i hi]; exact h₂.half i hi⟩,
    ⟨hedit.fresh.nodup, fun pa hpa => ?_⟩, fun g hg => ?_⟩, fun v hv hor => ?_, fun u hu hu' => ?_,
    fun u hu hu' o ho => ?_, fun u hu hu' => ?_, howned,
    fun g hg => (free_iff_of_cons hlist).mpr (.inr (hfree g hg)), fun g ht hg => ?_, hend'⟩
  · rcases (howned g).mp (.inl hg) with hg | hg
    · exact (h.managed g hg).congr hend'
    · exact (h.pool.managed hg).congr hend'
  · rcases Nat.lt_succ_iff_lt_or_eq.mp hu with hu | rfl
    · rw [hleaf _ (h.lt_maxva hu.le) (by rw [hdiv]; omega)]
      exact h.user u hu
    · rw [hpage_new]
      exact ⟨and_V_ne_zero.mpr (by rw [hnew]; omega), hleafy⟩
  · rcases Nat.lt_succ_iff_lt_or_eq.mp hu with hu | rfl
    · rw [hframe u hu]
      exact (huout u hu).1
    · rw [hframe_new]
      exact hfout.1
  · rcases Nat.lt_succ_iff_lt_or_eq.mp hu with hu | rfl <;>
      rcases Nat.lt_succ_iff_lt_or_eq.mp hw with hw | rfl
    · rw [hframe u hu, hframe w hw] at heq
      exact h.inj u hu w hw heq
    · rw [hframe u hu, hframe_new] at heq
      exact absurd heq (hne u hu)
    · rw [hframe w hw, hframe_new] at heq
      exact absurd heq.symm (hne w hw)
    · rfl
  · rw [hleaf v (hv.trans trapframe_lt) (by omega)]
    exact h.unmapped v hv (by omega)
  · have hlow := h.lt_trapframe
    rw [hleaf v hv (by unfold PGSIZE at *; omega)]
    exact h.high v hge hv
  · obtain ⟨g, rfl, hm⟩ := h₂.pool.page pa (hedit.shrinks.subset hpa)
    exact ⟨g, rfl, hm.congr hedit.kernelEnd⟩
  · rintro (ht | hex)
    · exact hedit.fresh.apart g hg ht
    · rcases (hframes g).mp hex with ⟨u, hu, rfl⟩ | rfl
      · exact (huout u hu).2 hg
      · exact hfout.2 hg
  · refine hleaf v hv ?_
    have hlow := h.lt_trapframe
    rcases hor with hlt | hge
    · omega
    · unfold PGSIZE at *
      omega
  · obtain rfl : u = n := by omega
    rw [hpage_new, hflags]
  · obtain rfl : u = n := by omega
    rw [hframe_new, hedit.same f hft hf₂ o ho]
    exact hfill o ho
  · obtain rfl : u = n := by omega
    rwa [hframe_new]
  · refine (hsame g ?_).trans (hedit.same g (by rwa [htab]) ?_)
    · rintro rfl
      exact hg hf
    · exact fun hg' => hg ((free_iff_of_cons hlist).mpr (.inr hg'))

include h hlist hsame hend in
theorem Space.putBack {k₃ : Kernel} (hgrow : Extends r n n flags fill k₂ k₃) :
    ∃ k', k₃.kfree (PGSIZE * f) = .ok k' ∧ Extends r n n flags fill k k' := by
  obtain ⟨h₂, hleaf₂⟩ := h.take hlist hsame hend
  have hf : k.Free f := (free_iff_of_cons hlist).mpr (.inl rfl)
  have hf₂ : ¬k₂.Free f := h.not_free_of_cons hlist
  have hmf := (h.pool.managed hf).congr (hgrow.kernelEnd.trans hend)
  obtain ⟨k', hok, hlist', hend', -, hsame'⟩ := kfree_spec hmf.2.1 hmf.2.2
  have hheld₂ : ∀ g, Held k₂ r n g ↔ Held k r n g := (h.toImage.congr (fun g hg => hsame g (by
    rintro rfl
    exact h.free_apart g hf (.inl hg))) hend).2
  have hnot₂ : ¬Owned k₂ r n f := by
    rintro (hh | hh)
    · exact h.free_apart f hf ((hheld₂ f).mp hh)
    · exact hf₂ hh
  have hnot₃ : ¬Owned k₃ r n f := fun hh => hnot₂ ((hgrow.owned f).mp hh)
  have hfree' : ∀ g, k'.Free g ↔ g = f ∨ k₃.Free g := fun g => free_iff_of_cons hlist'
  have h' : Space k' r n := by
    refine hgrow.space.congr ⟨?_, fun pa hpa => ?_⟩ (fun g hg => hsame' g ?_) (fun g hg => ?_) hend'
    · rw [hlist', List.nodup_cons]
      exact ⟨fun hm => hnot₃ (.inr hm), hgrow.space.pool.nodup⟩
    · rw [hlist', List.mem_cons] at hpa
      rcases hpa with rfl | hpa
      · exact ⟨f, rfl, hmf.congr hend'⟩
      · obtain ⟨g, rfl, hm⟩ := hgrow.space.pool.page pa hpa
        exact ⟨g, rfl, hm.congr hend'⟩
    · rintro rfl
      exact hnot₃ (.inl (.inl hg))
    · rcases (hfree' g).mp hg with rfl | hg
      · exact fun hh => hnot₃ (.inl hh)
      · exact hgrow.space.free_apart g hg
  obtain ⟨-, hheld'⟩ := hgrow.space.toImage.congr (fun g hg => hsame' g (by
    rintro rfl
    exact hnot₃ (.inl (.inl hg)))) hend'
  refine ⟨k', hok, le_rfl, h', fun v hv hor => ?_, fun u hu hu' => absurd hu' (Nat.not_lt.mpr hu),
    fun u hu hu' => absurd hu' (Nat.not_lt.mpr hu), fun u hu hu' => absurd hu' (Nat.not_lt.mpr hu),
    fun g => ?_, fun g hg => ?_, fun g ht hg => ?_, hend'.trans (hgrow.kernelEnd.trans hend)⟩
  · rw [← hleaf₂, ← hgrow.leaf_eq v hv hor]
    exact leaf_congr fun g hg => hsame' g (by
      rintro rfl
      exact hnot₃ (.inl (.inl hg)))
  · have hthree := hgrow.owned g
    unfold Owned at hthree ⊢
    rw [hheld', hfree', free_iff_of_cons hlist, ← hheld₂,
      @or_left_comm (Held k₃ r n g), @or_left_comm (Held k₂ r n g), hthree]
  · rw [free_iff_of_cons hlist]
    exact ((hfree' g).mp hg).imp_right (hgrow.free g)
  · have hgf : g ≠ f := by
      rintro rfl
      exact hg hf
    have ht₂ : g ∉ Tables k₂.mem r := by
      rwa [tables_congr fun a ha => hsame a (by
        rintro rfl
        exact h.free_apart a hf (.inl ha))]
    exact ((hsame g hgf).trans (hgrow.same g ht₂ fun hg' =>
      hg ((free_iff_of_cons hlist).mpr (.inr hg')))).trans (hsame' g hgf)

end take

theorem extends_busy (h : Space k r n) (busy : List Bool) :
    Extends r n n flags fill k { k with busy := busy } :=
  h.grow (edits_busy h.tree h.fresh busy) fun _ _ => rfl

def userPerm (xperm : ℕ) : ℕ := PTE_R ||| PTE_U ||| xperm

theorem userPerm_lt {xperm : ℕ} (h : xperm < 1024) : userPerm xperm < 1024 :=
  Nat.or_lt_two_pow (n := 10) (by decide) h

theorem userPerm_ne (xperm : ℕ) : userPerm xperm ||| PTE_V ≠ PTE_V := by
  intro h
  have hbit := congrArg (Nat.testBit · 1) h
  simp only [userPerm, Nat.testBit_or] at hbit
  have hR : PTE_R.testBit 1 = true := by decide
  have hV : PTE_V.testBit 1 = false := by decide
  rw [hR, hV] at hbit
  simp at hbit

/-- The loop of `uvmalloc` maps zeroed pages up to `newsz`, or it runs out of pages and takes
back the ones it has mapped. -/
theorem allocLoop_spec {k₀ : Kernel} {newsz xperm fuel : ℕ} (h₀ : Image k₀ r n)
    (hext : Extends r n u (fun _ => userPerm xperm ||| PTE_V) (fun _ _ => 0) k₀ k)
    (hx : xperm < 1024) (hfuel : newsz ≤ PGSIZE * (u + fuel)) :
    ∃ ret n' k', Kernel.allocLoop (PGSIZE * r) (PGSIZE * n) newsz xperm fuel k (PGSIZE * u) =
        .ok (ret, k') ∧
      Extends r n n' (fun _ => userPerm xperm ||| PTE_V) (fun _ _ => 0) k₀ k' ∧
      (ret = newsz ∧ n' = max u (pages newsz) ∨ ret = 0 ∧ n' = n) := by
  have hdone : ∀ u, newsz ≤ PGSIZE * u → u = max u (pages newsz) := by
    intro u hle
    have := pages_mono hle
    rw [pages_mul] at this
    exact (Nat.max_eq_left this).symm
  -- taking back what has been mapped so far
  have hback : ∀ {u k₁}, Extends r n u (fun _ => userPerm xperm ||| PTE_V) (fun _ _ => 0) k₀ k₁ →
      ∃ k', k₁.uvmdealloc (PGSIZE * r) (PGSIZE * u) (PGSIZE * n) = .ok (PGSIZE * n, k') ∧
        Extends r n n (fun _ => userPerm xperm ||| PTE_V) (fun _ _ => 0) k₀ k' := by
    intro u k₁ h₁
    have hspace : Space k₁ r (pages (PGSIZE * u)) := by
      rw [pages_mul]
      exact h₁.space
    obtain ⟨k', hok, hshrink⟩ := uvmdealloc_spec hspace (Nat.mul_le_mul_left PGSIZE h₁.le)
    rw [pages_mul, pages_mul] at hshrink
    exact ⟨k', hok, h₁.undo h₀ hshrink⟩
  induction fuel generalizing k u with
  | zero => exact ⟨newsz, u, k, rfl, hext, .inl ⟨rfl, hdone u hfuel⟩⟩
  | succ fuel ih =>
    by_cases hlt : PGSIZE * u < newsz
    swap
    · refine ⟨newsz, u, k, ?_, hext, .inl ⟨rfl, hdone u (Nat.not_lt.mp hlt)⟩⟩
      rw [Kernel.allocLoop, if_neg hlt]
    rw [Kernel.allocLoop, if_pos hlt]
    rcases kalloc_cases hext.space.pool.freeList with ⟨busy, hk⟩ | ⟨f, rest, busy, hf, hf0, -, hk⟩
    · obtain ⟨k', hok, hundo⟩ := hback (hext.trans h₀ (extends_busy hext.space busy))
      refine ⟨0, n, k', ?_, hundo, .inr ⟨rfl, rfl⟩⟩
      simp only [hk, if_true, hok, bind, Except.bind]
    set k₁ := ({ k with freelist := rest, busy := busy }).memset (PGSIZE * f) 5 PGSIZE
    set k₂ := k₁.memset (PGSIZE * f) 0 PGSIZE with hk₂
    have hsame : ∀ g ≠ f, SamePage k k₂ g := fun g hg =>
      (samePage_memset (k := { k with freelist := rest, busy := busy }) hg 5).trans
        (samePage_memset hg 0)
    have hfill : ∀ o < PGSIZE, k₂.mem (PGSIZE * f + o) = 0 := by
      intro o ho
      have hpg : (PGSIZE * f + o) / PGSIZE = f := by
        rw [Nat.mul_add_div (by decide : PGSIZE > 0), Nat.div_eq_of_lt ho, Nat.add_zero]
      rw [hk₂, memset_page]
      exact if_pos hpg
    have hlist : k.freelist = PGSIZE * f :: k₂.freelist := hf
    obtain ⟨h₂, hleaf₂⟩ := hext.space.take hlist hsame rfl
    have hroom := hext.space.lt_trapframe
    obtain ⟨ret, j, k₃, hmap, hedit, hret⟩ := mappages_spec (u := u) (f := f) h₂.tree h₂.fresh
      one_pos (hroom.trans trapframe_lt).le
      ((hext.space.pool.managed ((free_iff_of_cons hlist).mpr (.inl rfl))).lt.trans_le (by decide))
      (userPerm_lt hx) fun v hv hlo hhi => by
        rw [hleaf₂]
        exact hext.space.unmapped v (by unfold PGSIZE at *; omega) hlo
    rw [Nat.mul_one] at hmap
    change k₂.mappages _ _ _ _ (PTE_R ||| PTE_U ||| xperm) = _ at hmap
    have hpage : PGSIZE * f ≠ 0 := Nat.mul_ne_zero (by decide) hf0
    rcases hret with ⟨rfl, rfl⟩ | ⟨rfl, hj⟩
    · have hnext : (PGSIZE * u + PGSIZE) % 2 ^ 64 = PGSIZE * (u + 1) := by
        unfold TRAPFRAME TRAMPOLINE MAXVA PGSIZE at *
        omega
      have hpush : Extends r u (u + 1) (fun _ => userPerm xperm ||| PTE_V) (fun _ _ => 0) k k₃ :=
        hext.space.push hlist hsame rfl rfl hfill (userPerm_lt hx) (userPerm_ne xperm) hedit
      obtain ⟨ret, n', k', hloop, hext', hor⟩ := ih (hext.trans h₀ hpush)
        (by rw [Nat.add_assoc, Nat.add_comm 1 fuel]; exact hfuel)
      refine ⟨ret, n', k', ?_, hext', hor.imp_left fun h => ⟨h.1, ?_⟩⟩
      · simp only [hk, if_neg hpage, ← hk₂, hmap, hnext, bind, Except.bind]
        exact hloop
      · have hmore : u + 1 ≤ pages newsz := by
          unfold pages PGSIZE at *
          omega
        rw [h.2]
        omega
    · obtain rfl : j = 0 := by omega
      have hgrow : Extends r u u (fun _ => userPerm xperm ||| PTE_V) (fun _ _ => 0) k₂ k₃ :=
        h₂.grow hedit fun v _ => by rw [mapped, if_neg (by omega)]
      obtain ⟨k₄, hfree, hput⟩ := hext.space.putBack hlist hsame rfl hgrow
      obtain ⟨k', hok, hundo⟩ := hback (hext.trans h₀ hput)
      refine ⟨0, n, k', ?_, hundo, .inr ⟨rfl, rfl⟩⟩
      simp only [hk, if_neg hpage, ← hk₂, hmap, hfree, hok, bind, Except.bind]
      rfl

theorem uvmalloc_spec {oldsz newsz xperm : ℕ} (h : Space k r (pages oldsz)) (hle : oldsz ≤ newsz)
    (hx : xperm < 1024) :
    ∃ ret n' k', k.uvmalloc (PGSIZE * r) oldsz newsz xperm = .ok (ret, k') ∧
      Extends r (pages oldsz) n' (fun _ => userPerm xperm ||| PTE_V) (fun _ _ => 0) k k' ∧
      (ret = newsz ∧ n' = pages newsz ∨ ret = 0 ∧ n' = pages oldsz) := by
  rw [Kernel.uvmalloc, if_neg (Nat.not_lt.mpr hle), pgroundup_eq h.size_lt]
  obtain ⟨ret, n', k', hok, hext, hor⟩ := allocLoop_spec h.toImage (.refl h) hx
    (by unfold PGSIZE; omega : newsz ≤ PGSIZE * (pages oldsz + (newsz / PGSIZE + 1)))
  refine ⟨ret, n', k', hok, hext, hor.imp_left fun h' => ⟨h'.1, ?_⟩⟩
  rw [h'.2]
  exact Nat.max_eq_right (pages_mono hle)

end Xv6.Vm
