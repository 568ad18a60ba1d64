import Xv6.Vm.Copy

/-!
# The memory of a process

An image is a page table with user pages from address 0 on, and nothing else that a user
can reach.  Its tables and user pages are pages of the allocator, all different and none
of them free.  An image grows by pages from the free list and shrinks by giving its last
pages back.
-/

namespace Xv6.Vm

open Lib

variable {k k' k₁ k₂ : Kernel} {r f g n n' u v w perm : ℕ} {flags : ℕ → ℕ}
  {fill : ℕ → ℕ → UInt8}

/-! ## Images -/

def Managed (k : Kernel) (f : ℕ) : Prop :=
  0 < k.kernelEnd ∧ k.kernelEnd ≤ PGSIZE * f ∧ PGSIZE * f < PHYSTOP

theorem Managed.ne_zero (h : Managed k f) : f ≠ 0 := by
  obtain ⟨hpos, hle, -⟩ := h
  rintro rfl
  omega

theorem Managed.lt (h : Managed k f) : f < PHYSTOP / PGSIZE := by
  obtain ⟨-, -, hlt⟩ := h
  unfold PHYSTOP PGSIZE at *
  omega

theorem Managed.congr (h : Managed k f) (hend : k'.kernelEnd = k.kernelEnd) : Managed k' f := by
  unfold Managed
  rwa [hend]

/-- The free list holds pages of the allocator, each of them once. -/
structure Pool (k : Kernel) : Prop where
  nodup : k.freelist.Nodup
  page : ∀ pa ∈ k.freelist, ∃ f, pa = PGSIZE * f ∧ Managed k f

theorem Pool.managed (h : Pool k) (hf : k.Free f) : Managed k f := by
  obtain ⟨g, hg, hm⟩ := h.page _ hf
  rwa [Nat.eq_of_mul_eq_mul_left (by decide) hg]

theorem Pool.freeList (h : Pool k) : FreeList k := by
  refine ⟨h.nodup, fun pa hpa => ?_⟩
  obtain ⟨f, rfl, hm⟩ := h.page pa hpa
  refine ⟨Nat.mul_mod_right _ _, Nat.mul_ne_zero (by decide) hm.ne_zero, ?_⟩
  exact hm.2.2.trans (by decide)

/-- The page that user page `u` is mapped to. -/
def userFrame (m : Bytes) (r u : ℕ) : ℕ := frame (leaf m r (PGSIZE * u))

/-- The pages of an image with `n` user pages. -/
def Held (k : Kernel) (r n f : ℕ) : Prop :=
  f ∈ Tables k.mem r ∨ ∃ u < n, userFrame k.mem r u = f

/-- A page table that maps the `n` user pages from address 0 on to different pages, and
above them at most pages of the kernel at `TRAPFRAME` and `TRAMPOLINE`. -/
structure Image (k : Kernel) (r n : ℕ) : Prop where
  tree : IsTree k.mem r
  managed : ∀ f, Held k r n f → Managed k f
  user : ∀ u < n, leaf k.mem r (PGSIZE * u) &&& PTE_V ≠ 0 ∧
    PTE_FLAGS (leaf k.mem r (PGSIZE * u)) ≠ PTE_V
  apart : ∀ u < n, userFrame k.mem r u ∉ Tables k.mem r
  inj : ∀ u < n, ∀ w < n, userFrame k.mem r u = userFrame k.mem r w → u = w
  unmapped : ∀ v < TRAPFRAME, n ≤ v / PGSIZE → leaf k.mem r v &&& PTE_V = 0
  high : ∀ v, TRAPFRAME ≤ v → v < MAXVA → leaf k.mem r v &&& PTE_U = 0
  half : ∀ i : Fin 512, 256 ≤ (i : ℕ) → entries k.mem r i &&& PTE_V = 0

/-- An image and a free list that have no page in common. -/
structure Space (k : Kernel) (r n : ℕ) : Prop extends Image k r n where
  pool : Pool k
  free_apart : ∀ f, k.Free f → ¬Held k r n f

/-- A page of the image or of the free list. -/
def Owned (k : Kernel) (r n f : ℕ) : Prop := Held k r n f ∨ k.Free f

theorem Space.fresh (h : Space k r n) : Fresh k r :=
  ⟨h.pool.freeList, fun f hf ht => h.free_apart f hf (.inl ht)⟩

theorem Space.not_free (h : Space k r n) (hu : u < n) : ¬k.Free (userFrame k.mem r u) := fun hf =>
  h.free_apart _ hf (.inr ⟨u, hu, rfl⟩)

theorem Image.count (h : Image k r n) : n ≤ PHYSTOP / PGSIZE := by
  have hcard := Finset.card_le_card_of_injOn (s := Finset.range n)
    (t := Finset.range (PHYSTOP / PGSIZE)) (userFrame k.mem r) (fun u hu => by
      have hu' : u < n := Finset.mem_range.mp hu
      exact Finset.mem_coe.mpr (Finset.mem_range.mpr (h.managed _ (.inr ⟨u, hu', rfl⟩)).lt))
    fun u hu w hw heq => h.inj u (Finset.mem_range.mp hu) w (Finset.mem_range.mp hw) heq
  rwa [Finset.card_range, Finset.card_range] at hcard

theorem Image.lt_trapframe (h : Image k r n) : PGSIZE * (n + 1) < TRAPFRAME := by
  have hn := h.count
  unfold PHYSTOP PGSIZE at hn
  unfold TRAPFRAME TRAMPOLINE MAXVA PGSIZE
  omega

theorem Image.lt_maxva (h : Image k r n) (hu : u ≤ n) : PGSIZE * u < MAXVA := by
  have hn := h.lt_trapframe
  unfold TRAPFRAME TRAMPOLINE MAXVA PGSIZE at *
  omega

theorem trapframe_lt : TRAPFRAME < MAXVA := by decide

theorem Image.congr (h : Image k r n) (htab : ∀ f ∈ Tables k.mem r, SamePage k k' f)
    (hend : k'.kernelEnd = k.kernelEnd) : Image k' r n ∧ ∀ f, Held k' r n f ↔ Held k r n f := by
  have hleaf : ∀ v, leaf k'.mem r v = leaf k.mem r v := fun v => leaf_congr htab
  have hframe : ∀ u, userFrame k'.mem r u = userFrame k.mem r u := fun u => by
    rw [userFrame, hleaf, userFrame]
  have hheld : ∀ f, Held k' r n f ↔ Held k r n f := by
    intro f
    simp only [Held, hframe, tables_congr htab]
  refine ⟨⟨h.tree.congr htab, fun f hf => (h.managed f ((hheld f).mp hf)).congr hend, ?_,
    ?_, ?_, ?_, ?_, fun i hi => ?_⟩, hheld⟩
  · simpa only [hleaf] using h.user
  · simpa only [hframe, tables_congr htab] using h.apart
  · simpa only [hframe] using h.inj
  · simpa only [hleaf] using h.unmapped
  · simpa only [hleaf] using h.high
  · rw [entries_congr (htab r (root_mem_tables k.mem r))]
    exact h.half i hi

theorem Space.congr (h : Space k r n) (hpool : Pool k')
    (hsame : ∀ f ∈ Tables k.mem r, SamePage k k' f) (hfree : ∀ f, k'.Free f → ¬Held k r n f)
    (hend : k'.kernelEnd = k.kernelEnd) : Space k' r n := by
  obtain ⟨himage, hheld⟩ := h.toImage.congr hsame hend
  exact ⟨himage, hpool, fun f hf => by rw [hheld]; exact hfree f hf⟩

theorem reach_user (h : Image k r n) (hv : Reach false k.mem r v) : v / PGSIZE < n := by
  obtain ⟨hlt, hvalid, huser, -⟩ := hv
  by_contra hge
  rcases Nat.lt_or_ge v TRAPFRAME with hlow | hhigh
  · exact hvalid (h.unmapped v hlow (Nat.not_lt.mp hge))
  · exact huser (h.high v hhigh hlt)

theorem leaf_eq_page (m : Bytes) (r v : ℕ) : leaf m r v = leaf m r (PGSIZE * (v / PGSIZE)) :=
  leaf_of_page (Nat.mul_div_cancel_left _ (by decide : 0 < PGSIZE)).symm

theorem Image.userPages (h : Image k r n) : UserPages k.mem r := by
  have hframe : ∀ v, frame (leaf k.mem r v) = userFrame k.mem r (v / PGSIZE) := fun v => by
    rw [leaf_eq_page, userFrame]
  refine ⟨h.tree, fun v hv => ?_, fun v w hv hw heq => ?_, fun v hv => ?_⟩
  · rw [hframe]
    exact (h.managed _ (.inr ⟨_, reach_user h hv, rfl⟩)).ne_zero
  · rw [hframe, hframe] at heq
    exact h.inj _ (reach_user h hv) _ (reach_user h hw) heq
  · rw [hframe]
    exact h.apart _ (reach_user h hv)

/-! ## Adding pages -/

/-- From `k` to `k'` an image with `n` user pages has got pages up to `n'`, page `u` with
the flags `flags u` and the bytes `fill u`. -/
structure Extends (r n n' : ℕ) (flags : ℕ → ℕ) (fill : ℕ → ℕ → UInt8) (k k' : Kernel) : Prop where
  le : n ≤ n'
  space : Space k' r n'
  leaf_eq : ∀ v < MAXVA, v / PGSIZE < n ∨ TRAPFRAME ≤ v → leaf k'.mem r v = leaf k.mem r v
  new_flags : ∀ u, n ≤ u → u < n' → PTE_FLAGS (leaf k'.mem r (PGSIZE * u)) = flags u
  new_bytes : ∀ u, n ≤ u → u < n' → ∀ o < PGSIZE,
    k'.mem (PGSIZE * userFrame k'.mem r u + o) = fill u o
  new_free : ∀ u, n ≤ u → u < n' → k.Free (userFrame k'.mem r u)
  owned : ∀ f, Owned k' r n' f ↔ Owned k r n f
  free : ∀ f, k'.Free f → k.Free f
  same : ∀ f, f ∉ Tables k.mem r → ¬k.Free f → SamePage k k' f
  kernelEnd : k'.kernelEnd = k.kernelEnd

namespace Extends

theorem userFrame_eq (h : Extends r n n' flags fill k k') (hs : Image k r n) (hu : u < n) :
    userFrame k'.mem r u = userFrame k.mem r u := by
  rw [userFrame, userFrame, h.leaf_eq _ (hs.lt_maxva hu.le)]
  rw [Nat.mul_div_cancel_left u (by decide)]
  exact .inl hu

theorem not_taken (h : Extends r n n' flags fill k k') (hs : Image k r n)
    (ht : f ∉ Tables k.mem r) (hf : ¬k.Free f) : f ∉ Tables k'.mem r ∧ ¬k'.Free f := by
  refine ⟨fun ht' => ?_, fun hf' => hf (h.free f hf')⟩
  rcases (h.owned f).mp (.inl (.inl ht')) with (htab | ⟨u, hu, rfl⟩) | hfree
  · exact ht htab
  · rw [← h.userFrame_eq hs hu] at ht'
    exact h.space.apart u (hu.trans_le h.le) ht'
  · exact hf hfree

theorem refl (h : Space k r n) : Extends r n n flags fill k k :=
  ⟨le_rfl, h, fun _ _ _ => rfl, fun _ hu hu' => absurd hu' (Nat.not_lt.mpr hu),
    fun _ hu hu' => absurd hu' (Nat.not_lt.mpr hu), fun _ hu hu' => absurd hu' (Nat.not_lt.mpr hu),
    fun _ => Iff.rfl, fun _ hf => hf, fun f _ _ => .refl k f, rfl⟩

theorem trans (hs : Image k r n) (h : Extends r n u flags fill k k₁)
    (h' : Extends r u n' flags fill k₁ k') : Extends r n n' flags fill k k' := by
  have hold : ∀ w, w < u → userFrame k'.mem r w = userFrame k₁.mem r w := fun w hw =>
    h'.userFrame_eq h.space.toImage hw
  have hleaf : ∀ w, w < u → leaf k'.mem r (PGSIZE * w) = leaf k₁.mem r (PGSIZE * w) :=
    fun w hw => by
    refine h'.leaf_eq _ (h.space.lt_maxva hw.le) (.inl ?_)
    rwa [Nat.mul_div_cancel_left w (by decide)]
  refine ⟨h.le.trans h'.le, h'.space, fun v hv hor => ?_, fun w hw hw' => ?_,
    fun w hw hw' o ho => ?_,
    fun w hw hw' => ?_, fun f => (h'.owned f).trans (h.owned f),
    fun f hf => h.free f (h'.free f hf),
    fun f ht hf => ?_, h'.kernelEnd.trans h.kernelEnd⟩
  · rw [h'.leaf_eq v hv (hor.imp_left fun hlt => hlt.trans_le h.le), h.leaf_eq v hv hor]
  · rcases Nat.lt_or_ge w u with hwu | hwu
    · rw [hleaf w hwu]
      exact h.new_flags w hw hwu
    · exact h'.new_flags w hwu hw'
  · rcases Nat.lt_or_ge w u with hwu | hwu
    · rw [hold w hwu, h'.same _ (h.space.apart w hwu) (h.space.not_free hwu) o ho]
      exact h.new_bytes w hw hwu o ho
    · exact h'.new_bytes w hwu hw' o ho
  · rcases Nat.lt_or_ge w u with hwu | hwu
    · rw [hold w hwu]
      exact h.new_free w hw hwu
    · exact h.free _ (h'.new_free w hwu hw')
  · obtain ⟨ht', hf'⟩ := h.not_taken hs ht hf
    exact (h.same f ht hf).trans (h'.same f ht' hf')

end Extends

/-- From `k` to `k'` the user pages from `n'` on have gone to the free list. -/
structure Shrinks (r n n' : ℕ) (k k' : Kernel) : Prop where
  le : n' ≤ n
  space : Space k' r n'
  leaf_eq : ∀ v < MAXVA, v / PGSIZE < n' ∨ TRAPFRAME ≤ v → leaf k'.mem r v = leaf k.mem r v
  tables : Tables k'.mem r = Tables k.mem r
  free : ∀ f, k'.Free f ↔ k.Free f ∨ ∃ u, n' ≤ u ∧ u < n ∧ userFrame k.mem r u = f
  same : ∀ f, f ∉ Tables k.mem r → (∀ u, n' ≤ u → u < n → userFrame k.mem r u ≠ f) →
    SamePage k k' f
  kernelEnd : k'.kernelEnd = k.kernelEnd

namespace Shrinks

theorem userFrame_eq (h : Shrinks r n n' k k') (hu : u < n') :
    userFrame k'.mem r u = userFrame k.mem r u := by
  rw [userFrame, userFrame, h.leaf_eq _ (h.space.lt_maxva hu.le)]
  rw [Nat.mul_div_cancel_left u (by decide)]
  exact .inl hu

theorem owned (h : Shrinks r n n' k k') : Owned k' r n' f ↔ Owned k r n f := by
  have hle := h.le
  unfold Owned Held
  rw [h.tables, h.free]
  constructor
  · rintro ((ht | ⟨u, hu, rfl⟩) | hf | ⟨u, -, hu, hf⟩)
    · exact .inl (.inl ht)
    · exact .inl (.inr ⟨u, by omega, (h.userFrame_eq hu).symm⟩)
    · exact .inr hf
    · exact .inl (.inr ⟨u, hu, hf⟩)
  · rintro ((ht | ⟨u, hu, rfl⟩) | hf)
    · exact .inl (.inl ht)
    · rcases Nat.lt_or_ge u n' with hun | hun
      · exact .inl (.inr ⟨u, hun, h.userFrame_eq hun⟩)
      · exact .inr (.inr ⟨u, hun, hu, rfl⟩)
    · exact .inr (.inl hf)

end Shrinks

theorem Extends.undo (hs : Image k r n) (h : Extends r n u flags fill k k₁)
    (h' : Shrinks r u n k₁ k') : Extends r n n flags fill k k' := by
  refine ⟨le_rfl, h'.space, fun v hv hor => ?_, fun w hw hw' => absurd hw' (Nat.not_lt.mpr hw),
    fun w hw hw' => absurd hw' (Nat.not_lt.mpr hw), fun w hw hw' => absurd hw' (Nat.not_lt.mpr hw),
    fun f => h'.owned.trans (h.owned f), fun f hf => ?_, fun f ht hf => ?_,
    h'.kernelEnd.trans h.kernelEnd⟩
  · rw [h'.leaf_eq v hv hor, h.leaf_eq v hv hor]
  · rcases (h'.free f).mp hf with hf | ⟨w, hw, hw', rfl⟩
    · exact h.free f hf
    · exact h.new_free w hw hw'
  · refine (h.same f ht hf).trans (h'.same f (h.not_taken hs ht hf).1 ?_)
    rintro w hw hw' rfl
    exact hf (h.new_free w hw hw')

end Xv6.Vm
