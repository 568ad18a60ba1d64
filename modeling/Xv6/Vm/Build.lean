import Xv6.Vm.Free

/-!
# Building and freeing an image

`proc_pagetable` makes an image without user pages from free pages, and gives them all back
when it fails.  `proc_freepagetable` gives back the tables and the user pages of an image.
-/

namespace Xv6.Vm

open Lib

variable {k k' k₁ : Kernel} {m : Bytes} {r f n n' t u v sz : ℕ} {flags : ℕ → ℕ}
  {fill : ℕ → ℕ → UInt8} {S : ℕ → Prop}

/-! ## Freeing -/

/-- Every path in the lower half of the root and every index of a slot belong to an
address. -/
theorem exists_va {a b : Fin 512} (ha : (a : ℕ) < 256) (i : Fin 512) :
    ∃ v < MAXVA, path v = [a, b] ∧ idx 0 v = i := by
  have hb := b.isLt
  have hi := i.isLt
  refine ⟨a * 2 ^ 30 + b * 2 ^ 21 + i * 2 ^ 12, ?_, ?_, ?_⟩
  · unfold MAXVA
    omega
  · simp only [path, idxs, idx, PX, List.cons.injEq, Fin.ext_iff, and_true, Nat.reduceMul,
      Nat.reduceAdd, Nat.reducePow]
    omega
  · simp only [idx, PX, Fin.ext_iff, Nat.reduceMul, Nat.reduceAdd, Nat.reducePow]
    omega

theorem bare_of_unmapped (ht : IsTree m r) (h : ∀ v < MAXVA, leaf m r v &&& PTE_V = 0)
    (hhalf : ∀ i : Fin 512, 256 ≤ (i : ℕ) → entries m r i &&& PTE_V = 0) : Bare m r 3 := by
  refine ⟨fun p q g hp hq hpn hqn => ht.tree p q g (by omega) (by omega) hpn hqn,
    fun p g i hp hn hv => ?_⟩
  rcases Nat.lt_or_ge p.length 2 with hlt | hge
  · exact ⟨by omega, ht.pointer p g i hlt hn hv⟩
  · obtain ⟨a, b, rfl⟩ := List.length_eq_two.mp (by omega : p.length = 2)
    have ha : (a : ℕ) < 256 := by
      by_contra hge
      rw [node, Radix.node, child, if_neg (not_not.mpr (hhalf a (Nat.not_lt.mp hge)))] at hn
      cases hn
    obtain ⟨v, hvlt, hpath, rfl⟩ := exists_va (b := b) ha i
    rw [← hpath] at hn
    have hzero := h v hvlt
    rw [leaf_of_node hn] at hzero
    exact absurd hzero hv

/-- From `k` to `k'` the pages in `S` have gone to the free list, and no other has changed. -/
structure Returns (S : ℕ → Prop) (k k' : Kernel) : Prop where
  pool : Pool k'
  free : ∀ f, k'.Free f ↔ S f ∨ k.Free f
  same : ∀ f, ¬S f → SamePage k k' f
  kernelEnd : k'.kernelEnd = k.kernelEnd

theorem uvmfree_spec (h : Space k r (pages sz))
    (hhigh : ∀ v, TRAPFRAME ≤ v → v < MAXVA → leaf k.mem r v &&& PTE_V = 0) :
    ∃ k', k.uvmfree (PGSIZE * r) sz = .ok k' ∧ Returns (Held k r (pages sz)) k k' := by
  obtain ⟨k₁, hok, hshrink⟩ : ∃ k₁,
      (if 0 < sz then k.uvmunmap (PGSIZE * r) 0 (PGROUNDUP sz / PGSIZE) true else .ok k) = .ok k₁ ∧
      Shrinks r (pages sz) 0 k k₁ := by
    rcases Nat.eq_zero_or_pos sz with rfl | hpos
    · exact ⟨k, rfl, shrinks_refl h⟩
    · rw [if_pos hpos, pgroundup_eq h.size_lt, Nat.mul_div_cancel_left _ (by decide)]
      exact uvmunmap_shrinks h (Nat.zero_le _)
  have hunmapped : ∀ v < MAXVA, leaf k₁.mem r v &&& PTE_V = 0 := by
    intro v hv
    rcases Nat.lt_or_ge v TRAPFRAME with hlow | hge
    · exact hshrink.space.unmapped v hlow (Nat.zero_le _)
    · rw [hshrink.leaf_eq v hv (.inr hge)]
      exact hhigh v hge hv
  have hbelow : Below k₁.mem r 3 = Tables k.mem r := by rw [← tables_eq_below, hshrink.tables]
  obtain ⟨k', hok', hfrees⟩ := freewalkOk 3 k₁ r (bare_of_unmapped hshrink.space.tree hunmapped
    hshrink.space.half)
    (fun g hg => hshrink.space.managed g (.inl (by rwa [tables_eq_below]))) (by decide)
  rw [hbelow] at hfrees
  refine ⟨k', ?_, hfrees.pool hshrink.space.pool fun g hg => ⟨?_, fun hf => ?_⟩, fun f => ?_,
    fun f hf => ?_, hfrees.kernelEnd.trans hshrink.kernelEnd⟩
  · rw [Kernel.uvmfree]
    by_cases hpos : 0 < sz
    · rw [if_pos hpos] at hok
      simp only [if_pos hpos, hok, bind, Except.bind, hok']
    · rw [if_neg hpos] at hok
      obtain rfl : k = k₁ := Except.ok.inj hok
      simp only [if_neg hpos, bind, Except.bind, hok']
  · exact hshrink.space.managed g (.inl (by rwa [hshrink.tables]))
  · exact hshrink.space.free_apart g hf (.inl (by rwa [hshrink.tables]))
  · rw [hfrees.free_iff, hshrink.free, Held]
    constructor
    · rintro (ht | hf | ⟨u, -, hu, hf⟩)
      · exact .inl (.inl ht)
      · exact .inr hf
      · exact .inl (.inr ⟨u, hu, hf⟩)
    · rintro ((ht | ⟨u, hu, hf⟩) | hf)
      · exact .inl ht
      · exact .inr (.inr ⟨u, Nat.zero_le u, hu, hf⟩)
      · exact .inr (.inl hf)
  · obtain ⟨ht, hu⟩ := not_or.mp hf
    exact (hshrink.same f ht fun u _ hu' heq => hu ⟨u, hu', heq⟩).trans
      (hfrees.same f ht (Set.notMem_empty f))

/-- The two pages of the kernel are mapped. -/
def Topped (m : Bytes) (r : ℕ) : Prop := ∀ v, TRAPFRAME ≤ v → v < MAXVA →
  leaf m r v &&& PTE_V ≠ 0 ∧ PTE_FLAGS (leaf m r v) ≠ PTE_V

theorem Space.unmapHigh (h : Space k r n) (hlo : TRAPFRAME ≤ PGSIZE * u) (hhi : PGSIZE * u < MAXVA)
    (hleaf : leaf k.mem r (PGSIZE * u) &&& PTE_V ≠ 0 ∧
      PTE_FLAGS (leaf k.mem r (PGSIZE * u)) ≠ PTE_V) :
    ∃ k', k.uvmunmap (PGSIZE * r) (PGSIZE * u) 1 false = .ok k' ∧ Space k' r n ∧
      (∀ v < MAXVA, leaf k'.mem r v = if v / PGSIZE = u then 0 else leaf k.mem r v) ∧
      (∀ f, Held k' r n f ↔ Held k r n f) ∧ (∀ f, k'.Free f ↔ k.Free f) ∧
      (∀ f ∉ Tables k.mem r, SamePage k k' f) ∧ k'.kernelEnd = k.kernelEnd := by
  have hend : PGSIZE * (u + 1) ≤ MAXVA := by
    unfold PGSIZE MAXVA at *
    omega
  obtain ⟨k', hok, hunmap⟩ := uvmunmap_spec h.tree hend (fun i hi => by
    obtain rfl : i = 0 := by omega
    exact hleaf) fun hd : false = true => by cases hd
  have hlist : k'.freelist = k.freelist := hunmap.freelist
  have hleaf' : ∀ v < MAXVA, leaf k'.mem r v = if v / PGSIZE = u then 0 else leaf k.mem r v := by
    intro v hv
    rw [hunmap.leaf_eq v hv, cleared]
    by_cases hvu : v / PGSIZE = u
    · rw [if_pos hvu, if_pos (by omega)]
    · rw [if_neg hvu, if_neg (by omega)]
  have hedit : Edits r (fun v => if v / PGSIZE = u then 0 else leaf k.mem r v) k k' :=
    ⟨hunmap.tree, ⟨⟨by rw [hlist]; exact h.pool.nodup, by rw [hlist]; exact h.pool.freeList.page⟩,
      fun f hf => by
        rw [hunmap.tables]
        rw [Kernel.Free, hlist] at hf
        exact h.fresh.apart f hf⟩, hleaf', fun f => by rw [hunmap.tables, Kernel.Free, hlist]; rfl,
      by rw [hlist], fun f ht _ => hunmap.same f ht (List.not_mem_nil), hunmap.top,
      hunmap.kernelEnd⟩
  have hlow : ∀ v < TRAPFRAME, v / PGSIZE ≠ u := by
    intro v hv
    unfold PGSIZE TRAPFRAME TRAMPOLINE MAXVA at *
    omega
  obtain ⟨hspace, -⟩ := h.edit hedit (fun v hv => if_neg (hlow v hv)) fun v hge hv => by
    split_ifs
    · rfl
    · exact h.high v hge hv
  refine ⟨k', hok, hspace, hleaf', fun f => ?_, fun f => ?_,
    fun f hf => hunmap.same f hf List.not_mem_nil, hunmap.kernelEnd⟩
  · have hframe : ∀ u < n, userFrame k'.mem r u = userFrame k.mem r u := fun w hw => by
      have hv : PGSIZE * w < TRAPFRAME := by
        have := h.lt_trapframe
        unfold PGSIZE at *
        omega
      rw [userFrame, userFrame, hleaf' _ (hv.trans trapframe_lt), if_neg (hlow _ hv)]
    unfold Held
    rw [hunmap.tables]
    refine or_congr_right (exists_congr fun w => and_congr_right fun hw => ?_)
    rw [hframe w hw]
  · rw [Kernel.Free, hlist]
    rfl

theorem trampoline_page : TRAMPOLINE = PGSIZE * (2 ^ 26 - 1) := by decide

theorem trapframe_page : TRAPFRAME = PGSIZE * (2 ^ 26 - 2) := by decide

theorem procFreepagetable_spec (h : Space k r (pages sz)) (htop : Topped k.mem r) :
    ∃ k', k.procFreepagetable (PGSIZE * r) sz = .ok k' ∧ Returns (Held k r (pages sz)) k k' := by
  obtain ⟨k₁, hok₁, h₁, hleaf₁, hheld₁, hfree₁, hsame₁, hend₁⟩ := h.unmapHigh (u := 2 ^ 26 - 1)
    (by decide) (by decide) (htop _ (by decide) (by decide))
  obtain ⟨k₂, hok₂, h₂, hleaf₂, hheld₂, hfree₂, hsame₂, hend₂⟩ := h₁.unmapHigh (u := 2 ^ 26 - 2)
    (by decide) (by decide) (by
      rw [hleaf₁ _ (by decide), if_neg (by decide)]
      exact htop _ (by decide) (by decide))
  obtain ⟨k', hok', hret⟩ := uvmfree_spec h₂ (by
    intro v hge hv
    rw [hleaf₂ v hv, hleaf₁ v hv]
    split_ifs with h1 h2
    · rfl
    · rfl
    · rw [trapframe_page] at hge
      unfold PGSIZE MAXVA at *
      omega)
  refine ⟨k', ?_, hret.pool, fun f => ?_, fun f hf => ?_, hret.kernelEnd.trans (hend₂.trans hend₁)⟩
  · rw [Kernel.procFreepagetable, trampoline_page, trapframe_page, hok₁]
    simp only [bind, Except.bind, hok₂]
    exact hok'
  · rw [hret.free, hheld₂, hheld₁, hfree₂, hfree₁]
  · have hf₁ : ¬Held k₁ r (pages sz) f := fun hh => hf ((hheld₁ f).mp hh)
    have hf₂ : ¬Held k₂ r (pages sz) f := fun hh => hf₁ ((hheld₂ f).mp hh)
    exact ((hsame₁ f fun ht => hf (.inl ht)).trans (hsame₂ f fun ht => hf₁ (.inl ht))).trans
      (hret.same f hf₂)

/-! ## Building -/

/-- From `k` to `k'` the free pages are the same, and no other page has changed. -/
structure Restores (k k' : Kernel) : Prop where
  pool : Pool k'
  free : ∀ f, k'.Free f ↔ k.Free f
  same : ∀ f, ¬k.Free f → SamePage k k' f
  kernelEnd : k'.kernelEnd = k.kernelEnd

/-- From `k` to `k'` an image has been made of free pages. -/
structure Builds (r n : ℕ) (k k' : Kernel) : Prop where
  space : Space k' r n
  owned : ∀ f, Owned k' r n f ↔ k.Free f
  same : ∀ f, ¬k.Free f → SamePage k k' f
  kernelEnd : k'.kernelEnd = k.kernelEnd

namespace Builds

theorem step (h : Builds r n k k₁) (hspace : Space k' r n')
    (howned : ∀ f, Owned k' r n' f ↔ Owned k₁ r n f)
    (hsame : ∀ f, f ∉ Tables k₁.mem r → ¬k₁.Free f → SamePage k₁ k' f)
    (hend : k'.kernelEnd = k₁.kernelEnd) : Builds r n' k k' := by
  refine ⟨hspace, fun f => (howned f).trans (h.owned f), fun f hf => ?_, hend.trans h.kernelEnd⟩
  have hout : ¬Owned k₁ r n f := fun ho => hf ((h.owned f).mp ho)
  exact (h.same f hf).trans (hsame f (fun ht => hout (.inl (.inl ht))) fun hf' => hout (.inr hf'))

theorem extend (h : Builds r n k k₁) (hext : Extends r n n' flags fill k₁ k') : Builds r n' k k' :=
  h.step hext.space hext.owned hext.same hext.kernelEnd

theorem free (h : Builds r n k k₁) (hret : Returns (Held k₁ r n) k₁ k') : Restores k k' := by
  refine ⟨hret.pool, fun f => (hret.free f).trans (h.owned f), fun f hf => ?_,
    hret.kernelEnd.trans h.kernelEnd⟩
  refine (h.same f hf).trans (hret.same f fun hh => hf ((h.owned f).mp (.inl hh)))

/-- `uvmalloc` on an image under construction: nothing has changed, or the image has
grown, if that was necessary. -/
theorem uvmalloc {perm : ℕ} (h : Builds r (pages sz) k k₁) (newsz : ℕ) (hperm : perm < 1024) :
    ∃ sz1 k', k₁.uvmalloc (PGSIZE * r) sz newsz perm = .ok (sz1, k') ∧
      (sz1 = 0 ∧ Builds r (pages sz) k k' ∧
          (∀ v, TRAPFRAME ≤ v → v < MAXVA → leaf k'.mem r v = leaf k₁.mem r v) ∨
        sz1 ≠ 0 ∧ newsz ≤ sz1 ∧ sz ≤ sz1 ∧ (sz ≤ newsz → sz1 = newsz) ∧
          Extends r (pages sz) (pages sz1) (fun _ => userPerm perm ||| PTE_V)
            (fun _ _ => 0) k₁ k') := by
  rcases Nat.lt_or_ge newsz sz with hlt | hge
  · refine ⟨sz, k₁, ?_, .inr ⟨by omega, hlt.le, le_rfl, fun h => by omega, .refl h.space⟩⟩
    rw [Kernel.uvmalloc, if_pos hlt]
  · obtain ⟨ret, n', k', hok, hext, hor⟩ := uvmalloc_spec h.space hge hperm
    refine ⟨ret, k', hok, ?_⟩
    by_cases h0 : ret = 0
    · have hn' : n' = pages sz := by
        rcases hor with ⟨hret, hn'⟩ | ⟨-, hn'⟩
        · obtain rfl : newsz = sz := by omega
          exact hn'
        · exact hn'
      rw [hn'] at hext
      exact .inl ⟨h0, h.extend hext, fun v hge hv => hext.leaf_eq v hv (.inr hge)⟩
    · obtain ⟨rfl, rfl⟩ := hor.resolve_right fun h => h0 h.1
      exact .inr ⟨h0, le_rfl, hge, fun _ => rfl, hext⟩

end Builds

/-! ## Writing to pages -/

/-- From `k` to `k'` only bytes in the pages in `S` have changed. -/
structure Touches (S : ℕ → Prop) (k k' : Kernel) : Prop where
  same : ∀ f, ¬S f → SamePage k k' f
  freelist : k'.freelist = k.freelist
  kernelEnd : k'.kernelEnd = k.kernelEnd

namespace Touches

theorem refl (S : ℕ → Prop) (k : Kernel) : Touches S k k := ⟨fun f _ => .refl k f, rfl, rfl⟩

theorem trans (h : Touches S k k₁) (h' : Touches S k₁ k') : Touches S k k' :=
  ⟨fun f hf => (h.same f hf).trans (h'.same f hf), h'.freelist.trans h.freelist,
    h'.kernelEnd.trans h.kernelEnd⟩

theorem mono {T : ℕ → Prop} (h : Touches S k k') (hST : ∀ f, S f → T f) : Touches T k k' :=
  ⟨fun f hf => h.same f fun hs => hf (hST f hs), h.freelist, h.kernelEnd⟩

theorem free_iff (h : Touches S k k') : k'.Free f ↔ k.Free f := by
  rw [Kernel.Free, h.freelist, Kernel.Free]

theorem pool (h : Touches S k k') (hp : Pool k) : Pool k' := by
  refine ⟨by rw [h.freelist]; exact hp.nodup, fun pa hpa => ?_⟩
  rw [h.freelist] at hpa
  obtain ⟨f, rfl, hm⟩ := hp.page pa hpa
  exact ⟨f, rfl, hm.congr h.kernelEnd⟩

theorem space (h : Touches S k k') (hs : Space k r n) (hS : ∀ f ∈ Tables k.mem r, ¬S f) :
    Space k' r n :=
  hs.congr (h.pool hs.pool) (fun f hf => h.same f (hS f hf))
    (fun f hf => hs.free_apart f (h.free_iff.mp hf)) h.kernelEnd

theorem leaf_eq (h : Touches S k k') (hS : ∀ f ∈ Tables k.mem r, ¬S f) :
    leaf k'.mem r v = leaf k.mem r v := leaf_congr fun f hf => h.same f (hS f hf)

theorem held_iff (h : Touches S k k') (hs : Image k r n) (hS : ∀ f ∈ Tables k.mem r, ¬S f) :
    Held k' r n f ↔ Held k r n f := (hs.congr (fun f hf => h.same f (hS f hf)) h.kernelEnd).2 f

end Touches

/-- The pages that a user of the image can have access to. -/
def UserPage (k : Kernel) (r n f : ℕ) : Prop := ∃ u < n, userFrame k.mem r u = f

theorem Image.not_userPage (h : Image k r n) (hf : f ∈ Tables k.mem r) : ¬UserPage k r n f := by
  rintro ⟨u, hu, rfl⟩
  exact h.apart u hu hf

def userByte (k : Kernel) (r v : ℕ) : UInt8 := k.mem (place k.mem r v)

theorem place_eq (m : Bytes) (r v : ℕ) :
    place m r v = PGSIZE * userFrame m r (v / PGSIZE) + v % PGSIZE := by
  rw [place, leaf_eq_page, userFrame]

theorem userByte_eq_of_samePage (hleaf : leaf k'.mem r v = leaf k.mem r v)
    (h : SamePage k k' (userFrame k.mem r (v / PGSIZE))) : userByte k' r v = userByte k r v := by
  rw [userByte, userByte, place, hleaf, ← place, place_eq]
  exact h _ (Nat.mod_lt v (by decide))

theorem Builds.touch (h : Builds r n k k₁) (ht : Touches (UserPage k₁ r n) k₁ k') :
    Builds r n k k' := by
  have hS : ∀ f ∈ Tables k₁.mem r, ¬UserPage k₁ r n f := fun f hf => h.space.not_userPage hf
  refine ⟨ht.space h.space hS, fun f => ?_, fun f hf => ?_, ht.kernelEnd.trans h.kernelEnd⟩
  · rw [← h.owned, Owned, ht.held_iff h.space.toImage hS, ht.free_iff, Owned]
  · exact (h.same f hf).trans (ht.same f fun hu => hf ((h.owned f).mp (.inl (.inr hu))))

theorem Topped.congr {m' : Bytes} (h : Topped m r)
    (hleaf : ∀ v, TRAPFRAME ≤ v → v < MAXVA → leaf m' r v = leaf m r v) : Topped m' r := by
  intro v hge hv
  rw [hleaf v hge hv]
  exact h v hge hv

/-! ## `uvmclear` -/

theorem leaf_lt (m : Bytes) (r v : ℕ) : leaf m r v < 2 ^ 64 := by
  unfold leaf
  cases node m r (path v) with
  | none => exact Nat.two_pow_pos 64
  | some f => exact entries_lt m f _

/-- Clearing the user bit of an entry leaves its page and its other flags. -/
theorem clear_user {e : ℕ} (he : e < 2 ^ 64) :
    frame (e &&& (2 ^ 64 - 1 - PTE_U)) = frame e ∧
      PTE_FLAGS (e &&& (2 ^ 64 - 1 - PTE_U)) = PTE_FLAGS e &&& 1007 := by
  have hmask : (2 ^ 64 - 1 - PTE_U) >>> 10 = 2 ^ 54 - 1 := by decide
  have hdiv : (e &&& (2 ^ 64 - 1 - PTE_U)) / 1024 = e / 1024 := by
    have hshift := Nat.shiftRight_and_distrib (a := e) (b := 2 ^ 64 - 1 - PTE_U) (i := 10)
    rw [hmask, Nat.and_two_pow_sub_one_eq_mod, Nat.shiftRight_eq_div_pow,
      Nat.shiftRight_eq_div_pow, Nat.mod_eq_of_lt (by omega)] at hshift
    exact hshift
  constructor
  · rw [frame, hdiv, frame]
  · have hmod := Nat.and_mod_two_pow (a := e) (b := 2 ^ 64 - 1 - PTE_U) (n := 10)
    have hlow : (2 ^ 64 - 1 - PTE_U) % 2 ^ 10 = 1007 := by decide
    rw [hlow] at hmod
    exact hmod

theorem Builds.clear (h : Builds r n k k₁) (hu : u < n)
    (hflags : PTE_FLAGS (leaf k₁.mem r (PGSIZE * u)) &&& 1007 ≠ PTE_V) :
    ∃ k', k₁.uvmclear (PGSIZE * r) (PGSIZE * u) = .ok k' ∧ Builds r n k k' ∧
      (∀ v < MAXVA, leaf k'.mem r v = if v / PGSIZE = u then leaf k₁.mem r v &&&
        (2 ^ 64 - 1 - PTE_U) else leaf k₁.mem r v) ∧ ∀ f ∉ Tables k₁.mem r, SamePage k₁ k' f := by
  have hv : PGSIZE * u < MAXVA := h.space.lt_maxva hu.le
  obtain ⟨hvalid, -⟩ := h.space.user u hu
  obtain ⟨g, hg⟩ := node_of_leaf (fun h0 => hvalid (by rw [h0]; rfl) :
    leaf k₁.mem r (PGSIZE * u) ≠ 0)
  have hlt := leaf_lt k₁.mem r (PGSIZE * u)
  obtain ⟨hframe, hflags'⟩ := clear_user hlt
  have he : leaf k₁.mem r (PGSIZE * u) &&& (2 ^ 64 - 1 - PTE_U) < 2 ^ 64 :=
    Nat.and_le_left.trans_lt hlt
  have hedit := edits_store h.space.tree h.space.fresh hv hg he
  rw [Nat.mul_div_cancel_left u (by decide)] at hedit
  set k' := k₁.store (PGSIZE * g + 8 * PX 0 (PGSIZE * u))
    (leaf k₁.mem r (PGSIZE * u) &&& (2 ^ 64 - 1 - PTE_U))
  have hdiv : ∀ w, PGSIZE * w / PGSIZE = w := fun w => Nat.mul_div_cancel_left w (by decide)
  have hlow := h.space.lt_trapframe
  obtain ⟨hspace, howned⟩ := h.space.reflag hedit (fun w hw => by
      rw [hdiv]
      split_ifs with hwu
      · rw [hframe, hwu, userFrame]
      · rfl) (fun w hw => by
      rw [hdiv]
      split_ifs with hwu
      · refine ⟨?_, by rw [hflags']; exact hflags⟩
        rw [Nat.and_assoc]
        exact hvalid
      · exact h.space.user w hw) (fun v hv hge => by
      rw [if_neg (by omega)]
      exact h.space.unmapped v hv hge) fun v hge hv => by
      rw [if_neg (by unfold PGSIZE at *; omega)]
      exact h.space.high v hge hv
  refine ⟨k', ?_, h.step hspace howned hedit.same hedit.kernelEnd, fun v hv => ?_, fun f hf => ?_⟩
  · have hslot : k₁.load (PGSIZE * g + 8 * PX 0 (PGSIZE * u)) = leaf k₁.mem r (PGSIZE * u) :=
      (leaf_of_node hg).symm
    rw [Kernel.uvmclear, walk_eq hv, hg]
    simp only [bind, Except.bind, Option.elim_some, if_neg (slot_ne_zero h.space.tree hg), hslot]
    rfl
  · rw [hedit.leaf_eq v hv]
    split_ifs with hvu
    · rw [leaf_eq_page k₁.mem r v, hvu]
    · rfl
  · refine samePage_store ?_ (slot_mod g _)
    rw [slot_page]
    rintro rfl
    exact hf (mem_tables (length_path _).le hg)

theorem restores_busy (h : Pool k) (busy : List Bool) : Restores k { k with busy := busy } :=
  ⟨⟨h.nodup, h.page⟩, fun _ => Iff.rfl, fun f _ => .refl k f, rfl⟩

theorem uvmcreate_spec (h : Pool k) :
    (∃ k', k.uvmcreate = (0, k') ∧ Restores k k') ∨
      ∃ r k', k.uvmcreate = (PGSIZE * r, k') ∧ r ≠ 0 ∧ Builds r 0 k k' ∧
        ∀ v, leaf k'.mem r v = 0 := by
  unfold Kernel.uvmcreate
  rcases kalloc_cases h.freeList with ⟨busy, hk⟩ | ⟨r, rest, busy, hr, hr0, -, hk⟩
  · simp only [hk]
    exact .inl ⟨_, rfl, restores_busy h busy⟩
  have hpage : PGSIZE * r ≠ 0 := Nat.mul_ne_zero (by decide) hr0
  simp only [hk, if_neg hpage]
  set k₁ := ({ k with freelist := rest, busy := busy }).memset (PGSIZE * r) 5 PGSIZE
  set k' := k₁.memset (PGSIZE * r) 0 PGSIZE with hk'
  have hlist : k.freelist = PGSIZE * r :: k'.freelist := hr
  have hfree : ∀ f, k.Free f ↔ f = r ∨ k'.Free f := fun f => free_iff_of_cons hlist
  have hnodup := h.nodup
  rw [hlist, List.nodup_cons] at hnodup
  have hblank : ∀ i, entries k'.mem r i = 0 := by
    intro i
    rw [entries, ← getWord_zero 8 (PGSIZE * r + 8 * i)]
    apply getWord_congr
    intro o ho
    have hi := i.isLt
    rw [hk', memset_page]
    exact if_pos (by unfold PGSIZE; omega)
  have hleaf : ∀ v, leaf k'.mem r v = 0 := leaf_blank hblank
  have hheld : ∀ f, Held k' r 0 f ↔ f = r := by
    intro f
    rw [Held, tables_blank hblank]
    constructor
    · rintro (ht | ⟨u, hu, -⟩)
      · exact ht
      · exact absurd hu u.not_lt_zero
    · exact fun hf => .inl hf
  refine .inr ⟨r, k', rfl, hr0, ⟨⟨⟨isTree_blank hblank hr0, fun f hf => ?_,
    fun u hu => absurd hu u.not_lt_zero, fun u hu => absurd hu u.not_lt_zero,
    fun u hu => absurd hu u.not_lt_zero, fun v _ _ => by rw [hleaf]; rfl,
    fun v _ _ => by rw [hleaf]; rfl, fun i _ => by rw [hblank]; rfl⟩, ⟨hnodup.2, fun pa hpa => ?_⟩,
    fun f hf => ?_⟩, fun f => ?_, fun f hf => ?_, rfl⟩, hleaf⟩
  · rw [(hheld f).mp hf]
    exact h.managed ((hfree r).mpr (.inl rfl))
  · exact h.page pa (by rw [hlist]; exact List.mem_cons_of_mem _ hpa)
  · rw [hheld]
    rintro rfl
    exact hnodup.1 hf
  · rw [Owned, hheld, hfree]
  · have hne : f ≠ r := by
      rintro rfl
      exact hf ((hfree f).mpr (.inl rfl))
    exact (samePage_memset (k := { k with freelist := rest, busy := busy }) hne 5).trans
      (samePage_memset hne 0)

/-- A page of the kernel is mapped at the top, or there are no pages left for tables. -/
theorem Builds.mapHigh {perm : ℕ} (h : Builds r n k k₁) (ht : t < 2 ^ 44) (hperm : perm < 1024)
    (hu : TRAPFRAME ≤ PGSIZE * u) (hmax : PGSIZE * u < MAXVA)
    (hunmapped : leaf k₁.mem r (PGSIZE * u) = 0) (hnouser : (perm ||| PTE_V) &&& PTE_U = 0) :
    ∃ (ret : ℤ) (k' : Kernel),
      k₁.mappages (PGSIZE * r) (PGSIZE * u) PGSIZE (PGSIZE * t) perm = .ok (ret, k') ∧
      Builds r n k k' ∧
      (ret = 0 ∧ (∀ v < MAXVA, leaf k'.mem r v =
          if v / PGSIZE = u then t * 1024 + (perm ||| PTE_V) else leaf k₁.mem r v) ∨
        ret = -1 ∧ ∀ v < MAXVA, leaf k'.mem r v = leaf k₁.mem r v) := by
  have hend : PGSIZE * (u + 1) ≤ MAXVA := by
    unfold PGSIZE MAXVA at *
    omega
  obtain ⟨ret, j, k', hok, hedit, hret⟩ := mappages_spec h.space.tree h.space.fresh one_pos hend
    (by omega : t + 1 ≤ 2 ^ 44) hperm fun v hv hlo hhi => by
      have hpage : v / PGSIZE = PGSIZE * u / PGSIZE := by
        rw [Nat.mul_div_cancel_left u (by decide)]
        omega
      rw [leaf_of_page hpage, hunmapped]
      rfl
  rw [Nat.mul_one] at hok
  have hjle : j ≤ 1 := by omega
  have hmapped : ∀ v, mapped (leaf k₁.mem r) u t perm j v =
      if v / PGSIZE = u ∧ j = 1 then t * 1024 + (perm ||| PTE_V) else leaf k₁.mem r v := by
    intro v
    rw [mapped]
    by_cases hv : v / PGSIZE = u ∧ j = 1
    · rw [if_pos hv, if_pos (by omega), hv.1, Nat.sub_self, Nat.add_zero]
    · rw [if_neg hv, if_neg (by omega)]
  obtain ⟨hspace, howned⟩ := h.space.edit hedit (fun v hv => by
    rw [hmapped, if_neg]
    rintro ⟨rfl, -⟩
    unfold PGSIZE TRAPFRAME TRAMPOLINE MAXVA at *
    omega) fun v hge hv => by
      rw [hmapped]
      split_ifs
      · have hlt := or_V_lt hperm
        have hmod : (t * 1024 + (perm ||| PTE_V)) % 2 ^ 10 = perm ||| PTE_V := by omega
        rw [and_eq_mod_and (n := 10) (by decide : PTE_U < 2 ^ 10), hmod, hnouser]
      · exact h.space.high v hge hv
  refine ⟨ret, k', hok, h.step hspace howned hedit.same hedit.kernelEnd, ?_⟩
  rcases hret with ⟨rfl, rfl⟩ | ⟨rfl, hj⟩
  · refine .inl ⟨rfl, fun v hv => ?_⟩
    rw [hedit.leaf_eq v hv, hmapped]
    simp only [and_true]
  · refine .inr ⟨rfl, fun v hv => ?_⟩
    rw [hedit.leaf_eq v hv, hmapped, if_neg (by omega)]

theorem topped_flags {perm : ℕ} (hperm : perm < 1024) (hne : perm ||| PTE_V ≠ PTE_V) :
    t * 1024 + (perm ||| PTE_V) &&& PTE_V ≠ 0 ∧
      PTE_FLAGS (t * 1024 + (perm ||| PTE_V)) ≠ PTE_V := by
  have hlt := or_V_lt hperm
  have hodd : (perm ||| PTE_V) % 2 = 1 := by
    rw [PTE_V, Nat.or_mod_two_eq_one]
    exact .inr rfl
  have hflags : PTE_FLAGS (t * 1024 + (perm ||| PTE_V)) = perm ||| PTE_V := by
    unfold PTE_FLAGS
    omega
  rw [hflags]
  exact ⟨and_V_ne_zero.mpr (by omega), hne⟩

/-- `proc_pagetable` builds an image without user pages, or gives everything back. -/
theorem procPagetable_spec {p : Proc} {trampoline tf : ℕ} (h : Pool k)
    (ht : trampoline = PGSIZE * t) (ht44 : t < 2 ^ 44) (htf : p.trapframe = PGSIZE * tf)
    (htf44 : tf < 2 ^ 44) :
    ∃ pagetable k', k.procPagetable trampoline p = .ok (pagetable, k') ∧
      (pagetable = 0 ∧ Restores k k' ∨
        ∃ r, pagetable = PGSIZE * r ∧ pagetable ≠ 0 ∧ Builds r 0 k k' ∧ Topped k'.mem r) := by
  unfold Kernel.procPagetable
  rcases uvmcreate_spec h with ⟨k', hk, hres⟩ | ⟨r, k₁, hk, hr0, hbuild, hleaf⟩
  · simp only [hk]
    exact ⟨0, k', rfl, .inl ⟨rfl, hres⟩⟩
  have hpage : PGSIZE * r ≠ 0 := Nat.mul_ne_zero (by decide) hr0
  have hpages : pages 0 = 0 := by decide
  obtain ⟨ret, k₂, hok, hbuild₂, hret⟩ := hbuild.mapHigh (u := 2 ^ 26 - 1) ht44
    (by decide : PTE_R ||| PTE_X < 1024) (by decide) (by decide) (hleaf _) (by decide)
  rw [← ht, ← trampoline_page] at hok
  simp only [hk, if_neg hpage, hok, bind, Except.bind]
  rcases hret with ⟨rfl, hleaf₂⟩ | ⟨rfl, hleaf₂⟩
  swap
  · -- no table for `TRAMPOLINE`
    have hspace : Space k₂ r (pages 0) := by rw [hpages]; exact hbuild₂.space
    obtain ⟨k', hfree, hreturn⟩ := uvmfree_spec hspace fun v _ hv => by
      rw [hleaf₂ v hv, hleaf]
      rfl
    rw [hpages] at hreturn
    simp only [hfree]
    exact ⟨0, k', if_pos (by decide), .inl ⟨rfl, hbuild₂.free hreturn⟩⟩
  rw [if_neg (by decide)]
  obtain ⟨ret, k₃, hok₃, hbuild₃, hret⟩ := hbuild₂.mapHigh (u := 2 ^ 26 - 2) htf44
    (by decide : PTE_R ||| PTE_W < 1024) (by decide) (by decide)
    (by rw [hleaf₂ _ (by decide), if_neg (by decide), hleaf]) (by decide)
  rw [← htf, ← trapframe_page] at hok₃
  simp only [hok₃]
  rcases hret with ⟨rfl, hleaf₃⟩ | ⟨rfl, hleaf₃⟩
  · rw [if_neg (by decide)]
    refine ⟨_, k₃, rfl, .inr ⟨r, rfl, hpage, hbuild₃, fun v hge hv => ?_⟩⟩
    rw [hleaf₃ v hv, hleaf₂ v hv]
    split_ifs with h1 h2
    · exact topped_flags (by decide) (by decide)
    · exact topped_flags (by decide) (by decide)
    · rw [trapframe_page] at hge
      unfold PGSIZE MAXVA at *
      omega
  · -- no table for `TRAPFRAME`
    obtain ⟨k₄, hunmap, hspace, hleaf₄, hheld, hfree₄, hsame, hend⟩ :=
      hbuild₃.space.unmapHigh (u := 2 ^ 26 - 1) (by decide) (by decide) (by
        rw [hleaf₃ _ (by decide), hleaf₂ _ (by decide), if_pos (by decide)]
        exact topped_flags (by decide) (by decide))
    rw [← trampoline_page] at hunmap
    have hbuild₄ : Builds r 0 k k₄ := hbuild₃.step hspace
      (fun f => by rw [Owned, hheld, hfree₄]; rfl) (fun f hf _ => hsame f hf) hend
    have hspace' : Space k₄ r (pages 0) := by rw [hpages]; exact hspace
    obtain ⟨k', hfree, hreturn⟩ := uvmfree_spec hspace' fun v _ hv => by
      rw [hleaf₄ v hv, hleaf₃ v hv, hleaf₂ v hv]
      split_ifs
      · rfl
      · rw [hleaf]
        rfl
    rw [hpages] at hreturn
    simp only [if_pos (by decide : (-1 : ℤ) < 0), hunmap, hfree]
    exact ⟨0, k', rfl, .inl ⟨rfl, hbuild₄.free hreturn⟩⟩

end Xv6.Vm
