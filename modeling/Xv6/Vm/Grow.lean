import Xv6.Vm.Alloc

/-!
# `sbrk`

`growproc` changes the size of a process by exactly the number of bytes it is asked for, or
leaves the process alone.  A size below zero is the exception: the subtraction wraps, and
`growproc` reports success without having done anything.
-/

namespace Xv6.Vm

open Lib

variable {k k' : Kernel} {r n n' u v sz : ℕ} {flags : ℕ → ℕ} {fill : ℕ → ℕ → UInt8}

/-- The physical address and the flags of a user address, and the byte there. -/
def Kernel.view (k : Kernel) (pagetable v : ℕ) : Except Panic (Option (ℕ × ℕ × UInt8)) :=
  (k.lookup pagetable v).map (Option.map fun x => (x.1, x.2, k.mem x.1))

theorem view_eq_of_leaf (ht : IsTree k.mem r) (ht' : IsTree k'.mem r) (hv : v < MAXVA)
    (hleaf : leaf k'.mem r v = leaf k.mem r v) (hsame : SamePage k k' (frame (leaf k.mem r v))) :
    k'.view (PGSIZE * r) v = k.view (PGSIZE * r) v := by
  have hbyte := hsame (v % PGSIZE) (Nat.mod_lt v (by decide))
  rw [Kernel.view, Kernel.view, lookup_eq ht' hv, lookup_eq ht hv, hleaf, translate]
  split_ifs with hvalid
  · rfl
  · rw [PTE2PA_eq]
    change Except.ok (some (_, _, k'.mem _)) = Except.ok (some (_, _, k.mem _))
    rw [hbyte]

theorem Extends.view_eq (hs : Space k r n) (h : Extends r n n' flags fill k k')
    (hv : v / PGSIZE < n) : k'.view (PGSIZE * r) v = k.view (PGSIZE * r) v := by
  have hlt : v < MAXVA := by
    have := hs.lt_maxva le_rfl
    unfold PGSIZE at *
    omega
  refine view_eq_of_leaf hs.tree h.space.tree hlt (h.leaf_eq v hlt (.inl hv)) ?_
  rw [leaf_eq_page]
  exact h.same _ (hs.apart _ hv) (hs.not_free hv)

theorem Shrinks.view_eq (hs : Space k r n) (h : Shrinks r n n' k k') (hv : v / PGSIZE < n') :
    k'.view (PGSIZE * r) v = k.view (PGSIZE * r) v := by
  have hle := h.le
  have hlt : v < MAXVA := by
    have := hs.lt_maxva le_rfl
    unfold PGSIZE at *
    omega
  refine view_eq_of_leaf hs.tree h.space.tree hlt (h.leaf_eq v hlt (.inl hv)) ?_
  rw [leaf_eq_page]
  refine h.same _ (hs.apart _ (by omega)) fun u hu hu' heq => ?_
  have := hs.inj u hu' _ (by omega) heq
  omega

/-- An image that has been given back its size maps what it mapped before. -/
theorem Extends.lookup_eq_of_eq (hs : Space k r n) (h : Extends r n n flags fill k k')
    (hv : v < MAXVA) : k'.lookup (PGSIZE * r) v = k.lookup (PGSIZE * r) v := by
  rw [lookup_eq h.space.tree hv, lookup_eq hs.tree hv]
  by_cases hor : v / PGSIZE < n ∨ TRAPFRAME ≤ v
  · rw [h.leaf_eq v hv hor]
  · obtain ⟨hge, hlow⟩ := not_or.mp hor
    rw [translate_eq_none.mpr (h.space.unmapped v (Nat.not_le.mp hlow) (Nat.not_lt.mp hge)),
      translate_eq_none.mpr (hs.unmapped v (Nat.not_le.mp hlow) (Nat.not_lt.mp hge))]

theorem div_lt_pages (h : v < sz) : v / PGSIZE < pages sz := by
  unfold pages PGSIZE
  omega

/-- What `growproc(n)` reports is what it has done: it returns 0 with the size changed by exactly
`n` and the memory below both sizes kept, or -1 with size and mapping as they were. -/
def GrowsAsReported (k : Kernel) (r : ℕ) (p : Proc) (n : ℤ) : Prop :=
  ∃ ret p' k', k.growproc p n = .ok (ret, p', k') ∧ (ret = 0 ∨ ret = -1) ∧
    p' = { p with sz := p'.sz } ∧ Space k' r (pages p'.sz) ∧
    (ret = 0 → (p'.sz : ℤ) = p.sz + n ∧
      ∀ v < p.sz, v < p'.sz → k'.view (PGSIZE * r) v = k.view (PGSIZE * r) v) ∧
    (ret = -1 → p' = p ∧
      (∀ v < MAXVA, k'.lookup (PGSIZE * r) v = k.lookup (PGSIZE * r) v) ∧
      ∀ v < p.sz, k'.view (PGSIZE * r) v = k.view (PGSIZE * r) v)

theorem size_lt_of_space {p : Proc} (h : Space k r (pages p.sz)) : p.sz < 2 ^ 38 := by
  have hlt := h.lt_trapframe
  have hle := le_pages p.sz
  unfold TRAPFRAME TRAMPOLINE MAXVA PGSIZE at *
  omega

/-- Below zero the new size has wrapped around and is above the old one. -/
theorem growproc_of_lt {p : Proc} {n : ℤ} (hspace : Space k r (pages p.sz)) (hlow : n < -p.sz)
    (hmin : -2 ^ 31 ≤ n) : k.growproc p n = .ok (0, p, k) := by
  have hsz := size_lt_of_space hspace
  rw [Kernel.growproc, Kernel.uvmdealloc, if_neg (by omega), if_pos (by omega), if_pos (by omega)]
  rfl

theorem growproc_of_ge {p : Proc} {n : ℤ} (hp : p.pagetable = PGSIZE * r)
    (hspace : Space k r (pages p.sz)) (hlow : -p.sz ≤ n) (hmax : n < 2 ^ 31) :
    GrowsAsReported k r p n := by
  have hsz := size_lt_of_space hspace
  obtain ⟨newsz, hnew⟩ : ∃ newsz : ℕ, (newsz : ℤ) = p.sz + n := ⟨(p.sz + n).toNat, by omega⟩
  have hmod : ((p.sz + n) % 2 ^ 64).toNat = newsz := by omega
  rw [GrowsAsReported, Kernel.growproc, hmod]
  rcases lt_trichotomy n 0 with hneg | rfl | hpos
  · obtain ⟨k', hok, hshrink⟩ := uvmdealloc_spec hspace (by omega : newsz ≤ p.sz)
    rw [← hp] at hok
    refine ⟨0, { p with sz := newsz }, k', ?_, .inl rfl, rfl, hshrink.space,
      fun _ => ⟨hnew, fun v _ hv => hshrink.view_eq hspace (div_lt_pages hv)⟩,
      fun h => absurd h (by decide)⟩
    simp only [if_neg (by omega : ¬0 < n), if_pos hneg, hok, bind, Except.bind]
  · exact ⟨0, p, k, by simp, .inl rfl, rfl, hspace, fun _ => ⟨by simp, fun _ _ _ => rfl⟩,
      fun h => absurd h (by decide)⟩
  · obtain ⟨sz, n', k', hok, hext, hor⟩ := uvmalloc_spec hspace (by omega : p.sz ≤ newsz)
      (by decide : PTE_W < 1024)
    rw [← hp] at hok
    have hview : ∀ v < p.sz, k'.view (PGSIZE * r) v = k.view (PGSIZE * r) v := fun v hv =>
      hext.view_eq hspace (div_lt_pages hv)
    simp only [if_pos hpos, hok, bind, Except.bind]
    rcases hor with ⟨hsz, rfl⟩ | ⟨rfl, rfl⟩
    · have hne : newsz ≠ 0 := by omega
      rw [hsz]
      exact ⟨0, { p with sz := newsz }, k', if_neg hne, .inl rfl, rfl, hext.space,
        fun _ => ⟨hnew, fun v hv _ => hview v hv⟩, fun h => absurd h (by decide)⟩
    · exact ⟨-1, p, k', if_pos rfl, .inr rfl, rfl, hext.space, fun h => absurd h (by decide),
        fun _ => ⟨rfl, fun v hv => hext.lookup_eq_of_eq hspace hv, hview⟩⟩

/-- `growproc` does what it reports exactly if it is not asked to take the size below zero. -/
theorem growproc_exact {p : Proc} {n : ℤ} (hp : p.pagetable = PGSIZE * r)
    (hspace : Space k r (pages p.sz)) (hmin : -2 ^ 31 ≤ n) (hmax : n < 2 ^ 31) :
    GrowsAsReported k r p n ↔ -p.sz ≤ n := by
  refine ⟨fun h => ?_, fun hlow => growproc_of_ge hp hspace hlow hmax⟩
  by_contra hlow
  obtain ⟨ret, p', k', hok, -, -, -, hzero, -⟩ := h
  rw [growproc_of_lt hspace (not_le.mp hlow) hmin] at hok
  obtain ⟨rfl, rfl, rfl⟩ := by simpa only [Except.ok.injEq, Prod.mk.injEq] using hok
  have hsize := (hzero rfl).1
  omega

/-- Blank memory, with a root at page 1 and six free pages. -/
def sevenPages : Kernel where
  mem := fun _ => 0
  freelist := [PGSIZE * 2, PGSIZE * 3, PGSIZE * 4, PGSIZE * 5, PGSIZE * 6, PGSIZE * 7]
  busy := []
  kernelEnd := PGSIZE

theorem sevenPages_blank (i : Fin 512) : entries sevenPages.mem 1 i = 0 := getWord_zero 8 _

theorem sevenPages_pool : Pool sevenPages := by
  refine ⟨by decide, fun pa hpa => ⟨pa / PGSIZE, ?_⟩⟩
  simp only [sevenPages, List.mem_cons, List.not_mem_nil, or_false] at hpa
  rcases hpa with rfl | rfl | rfl | rfl | rfl | rfl <;>
    exact ⟨by decide, by unfold Managed; decide⟩

theorem sevenPages_space : Space sevenPages 1 (pages 0) := by
  have htab := tables_blank sevenPages_blank
  have hleaf : ∀ v, leaf sevenPages.mem 1 v = 0 := leaf_blank sevenPages_blank
  have hheld : ∀ f, Held sevenPages 1 (pages 0) f → f = 1 := by
    rintro f (ht | ⟨u, hu, -⟩)
    · rwa [htab] at ht
    · exact absurd hu u.not_lt_zero
  refine ⟨⟨isTree_blank sevenPages_blank one_ne_zero, fun f hf => ?_,
    fun u hu => absurd hu u.not_lt_zero, fun u hu => absurd hu u.not_lt_zero,
    fun u hu => absurd hu u.not_lt_zero, fun v _ _ => by rw [hleaf]; rfl,
    fun v _ _ => by rw [hleaf]; rfl, fun i _ => by rw [sevenPages_blank]; rfl⟩, sevenPages_pool,
    fun f hf hh => ?_⟩
  · rw [hheld f hf, Managed]
    decide
  · rw [hheld f hh] at hf
    simp [Kernel.Free, sevenPages, PGSIZE] at hf

theorem exists_space : ∃ k : Kernel, Space k 1 (pages 4096) := by
  obtain ⟨sz, n', k', hok, hext, hor⟩ := uvmalloc_spec sevenPages_space (Nat.zero_le 4096)
    (by decide : PTE_W < 1024)
  have hrun : (sevenPages.uvmalloc (PGSIZE * 1) 0 4096 PTE_W).toOption.any
      (fun y => decide (y.1 = 4096)) = true := by decide +kernel
  rw [hok] at hrun
  obtain rfl : sz = 4096 := of_decide_eq_true hrun
  obtain ⟨-, rfl⟩ : 4096 = 4096 ∧ n' = pages 4096 :=
    hor.resolve_right fun h => absurd h.1 (by decide)
  exact ⟨k', hext.space⟩

theorem growproc_exact_onePage : ∃ k : Kernel, Space k 1 (pages 4096) ∧
    GrowsAsReported k 1 ⟨PGSIZE * 1, 4096, 0⟩ (-96) ∧
    ¬ GrowsAsReported k 1 ⟨PGSIZE * 1, 4096, 0⟩ (-8192) := by
  obtain ⟨k, hspace⟩ := exists_space
  exact ⟨k, hspace, (growproc_exact rfl hspace (by decide) (by decide)).mpr (by decide),
    fun h => absurd ((growproc_exact rfl hspace (by decide) (by decide)).mp h) (by decide)⟩

/-- Asked to take more than the process has, `growproc` reports success and does nothing. -/
theorem growproc_ignores_underflow : ∃ k : Kernel, Space k 1 (pages 4096) ∧
    k.growproc ⟨PGSIZE * 1, 4096, 0⟩ (-8192) = .ok (0, ⟨PGSIZE * 1, 4096, 0⟩, k) ∧
      ((4096 : ℕ) : ℤ) ≠ (4096 : ℕ) + -8192 := by
  obtain ⟨k, hspace⟩ := exists_space
  exact ⟨k, hspace, rfl, by decide⟩

end Xv6.Vm
