import Xv6.Umalloc.Heap
import Xv6.Vm.Grow

/-!
# What malloc asks the system for

`morecore` computes the number of bytes as a `size_t` and hands it to `sbrk`,
which takes an `int`.  Here the allocator runs with that argument and with the
process size that `growproc` makes of it.
-/

namespace Xv6.Umalloc

open Lib

variable {extent extent' : Extent} {L : Layout} {sbrk : Sbrk} {s t : State} {r : Option ℕ}
  {nbytes nu fuel prevp : ℕ}

/-! ## The argument of `sbrk` -/

/-- The `int` that `sbrk` receives for `nu * sizeof(Header)`. -/
def sbrkArg (nu : ℕ) : ℤ := (BitVec.ofNat 32 (nu * HEADER)).toInt

/-- The size of a process of size `sz` after `growproc(n)` has returned 0; it does
nothing when asked for more than there is to take away. -/
def grownSize (sz : ℕ) (n : ℤ) : ℕ := if 0 ≤ sz + n then (sz + n).toNat else sz

/-- What `sbrk` makes of a number of units. -/
def asInt : Extent := fun hp nu => grownSize hp (sbrkArg nu)

theorem sbrkArg_eq (h : nu * HEADER < 2 ^ 31) : sbrkArg nu = nu * HEADER := by
  rw [sbrkArg, BitVec.toInt_eq_toNat_cond, BitVec.toNat_ofNat, Nat.mod_eq_of_lt (by omega),
    if_pos (by omega)]
  exact Nat.cast_mul nu HEADER

theorem sbrkArg_lt (nu : ℕ) : sbrkArg nu < 2 ^ 31 := (BitVec.ofNat 32 (nu * HEADER)).toInt_lt

theorem grownSize_natCast (sz n : ℕ) : grownSize sz n = sz + n := by
  unfold grownSize
  rw [if_pos (by omega)]
  omega

theorem asInt_eq (h : nu * HEADER < 2 ^ 31) (hp : ℕ) : asInt hp nu = whole hp nu := by
  rw [asInt, sbrkArg_eq h, ← Nat.cast_mul, grownSize_natCast, whole, Nat.mul_comm]

/-- `growproc` gives the process the size `grownSize`, if there is that much memory. -/
theorem growproc_size {k k' : Vm.Kernel} {r : ℕ} {p p' : Vm.Proc} {n : ℤ}
    (hp : p.pagetable = PGSIZE * r) (hspace : Vm.Space k r (Vm.pages p.sz))
    (hmin : -2 ^ 31 ≤ n) (hmax : n < 2 ^ 31) (hok : k.growproc p n = .ok (0, p', k')) :
    p'.sz = grownSize p.sz n ∧ (0 < n → p'.sz ≤ PHYSTOP) := by
  unfold grownSize
  by_cases hlow : -p.sz ≤ n
  · obtain ⟨ret, q, k₁, hgrow, -, -, hspace', hzero, -⟩ :=
      Vm.growproc_of_ge hp hspace hlow hmax
    obtain ⟨rfl, rfl, rfl⟩ : 0 = ret ∧ p' = q ∧ k' = k₁ := by
      simpa only [Except.ok.injEq, Prod.mk.injEq] using hok.symm.trans hgrow
    have hsize := (hzero rfl).1
    refine ⟨by rw [if_pos (by omega)]; omega, fun _ => ?_⟩
    have hcount := hspace'.count
    have hpages := Vm.le_pages p'.sz
    unfold PHYSTOP PGSIZE at *
    omega
  · rw [Vm.growproc_of_lt hspace (not_le.mp hlow) hmin] at hok
    obtain ⟨-, rfl, -⟩ := by simpa only [Except.ok.injEq, Prod.mk.injEq] using hok
    exact ⟨by rw [if_neg (by omega)], fun h => by omega⟩

/-! ## Requests -/

/-- What `morecore` asks for is what its header describes: the argument of `sbrk` is the number of
bytes, it is positive, and `sbrk` adds the units of the header. -/
def Exact (nu : ℕ) : Prop :=
  sbrkArg nu = nu * HEADER ∧ 0 < sbrkArg nu ∧ ∀ hp, hp + HEADER * nu ≤ asInt hp nu

/-- The request, in bytes and rounded up to units, is an `int`. -/
def Fit (nbytes : ℕ) : Prop := nbytes ≤ 2 ^ 31 - 32

instance : DecidablePred Fit := fun _ => inferInstanceAs (Decidable (_ ≤ _))

/-- The request is served from the free list. -/
def Reuses (L : Layout) (sbrk : Sbrk) (s : State) (nbytes : ℕ) : Prop :=
  ∃ x ∈ malloc asInt L sbrk s nbytes, x.1.calls = s.calls

instance (L : Layout) (sbrk : Sbrk) (s : State) (nbytes : ℕ) :
    Decidable (Reuses L sbrk s nbytes) :=
  inferInstanceAs (Decidable (∃ x ∈ malloc asInt L sbrk s nbytes, _))

/-- `sbrk` succeeds only if the machine has the memory, as `growproc_size` says. -/
def Backed (sbrk : Sbrk) (s : State) (nbytes : ℕ) : Prop :=
  ∀ gap ∈ sbrk s.calls, asInt (s.brk + HEADER * gap) (coreUnits (nunitsOf nbytes)) ≤ PHYSTOP

instance (sbrk : Sbrk) (s : State) (nbytes : ℕ) : Decidable (Backed sbrk s nbytes) :=
  inferInstanceAs (Decidable (∀ gap ∈ sbrk s.calls, _))

/-- The request is safe: `malloc` ends, it asks the system for exactly what it needs if it asks at
all, and a pointer that it returns has `nbytes` bytes of the process behind it. -/
def Safe (L : Layout) (sbrk : Sbrk) (s : State) (nbytes : ℕ) : Prop :=
  ∃ t r, malloc asInt L sbrk s nbytes = some (t, r) ∧
    (t.calls ≠ s.calls → Exact (coreUnits (nunitsOf nbytes))) ∧
    ∀ q, r = some q → L.start ≤ q ∧ q + HEADER + nbytes ≤ t.brk

/-- The runs in which every request is small enough or served from the free list. -/
def Holds (L : Layout) (sbrk : Sbrk) (s : State) : Event → Prop
  | .malloc nbytes => Backed sbrk s nbytes ∧ (Fit nbytes ∨ Reuses L sbrk s nbytes)
  | _ => True

instance (L : Layout) (sbrk : Sbrk) (s : State) (e : Event) : Decidable (Holds L sbrk s e) :=
  match e with
  | .malloc _ => inferInstanceAs (Decidable (_ ∧ _))
  | .free _ => inferInstanceAs (Decidable True)
  | .write _ _ => inferInstanceAs (Decidable True)

theorem Fit.bytes_lt (h : Fit nbytes) : coreUnits (nunitsOf nbytes) * HEADER < 2 ^ 31 := by
  unfold Fit at h
  unfold coreUnits nunitsOf HEADER
  split_ifs
  · norm_num
  · omega

theorem fit_of_bytes_lt (h : coreUnits (nunitsOf nbytes) * HEADER < 2 ^ 31) : Fit nbytes := by
  have hle := le_coreUnits (nunitsOf nbytes)
  unfold Fit
  unfold nunitsOf HEADER at *
  omega

/-- The size arithmetic of `morecore` is right exactly for the requests that fit. -/
theorem exact_iff_fit (nbytes : ℕ) : Exact (coreUnits (nunitsOf nbytes)) ↔ Fit nbytes := by
  refine ⟨fun h => fit_of_bytes_lt ?_, fun h => ⟨sbrkArg_eq h.bytes_lt, ?_, fun hp => ?_⟩⟩
  · have hlt := sbrkArg_lt (coreUnits (nunitsOf nbytes))
    rw [h.1] at hlt
    exact_mod_cast hlt
  · have hpos := coreUnits_pos (nunitsOf nbytes)
    rw [sbrkArg_eq h.bytes_lt]
    unfold HEADER
    omega
  · exact (asInt_eq h.bytes_lt hp).ge

/-! ## Calls of `sbrk` -/

theorem morecore_congr (h : ∀ hp, extent hp (coreUnits nu) = extent' hp (coreUnits nu)) :
    morecore extent sbrk s nu = morecore extent' sbrk s nu := by
  simp only [morecore, h]

theorem mallocLoop_congr (h : ∀ hp, extent hp (coreUnits nu) = extent' hp (coreUnits nu)) :
    mallocLoop extent sbrk nu fuel s prevp = mallocLoop extent' sbrk nu fuel s prevp := by
  induction fuel generalizing s prevp with
  | zero => rfl
  | succ fuel ih => simp only [mallocLoop, morecore_congr h, ih]

/-- Requests that fit are served as if `sbrk` took any number. -/
theorem malloc_of_fit (h : Fit nbytes) :
    malloc asInt L sbrk s nbytes = malloc whole L sbrk s nbytes := by
  simp only [malloc, mallocLoop_congr (asInt_eq h.bytes_lt)]

theorem free_frame {bp : ℕ} (h : free s bp = some t) :
    t.regions = s.regions ∧ t.brk = s.brk ∧ t.calls = s.calls := by
  unfold free at h
  simp only [bind, Option.bind_eq_some_iff, pure, Option.some.injEq] at h
  obtain ⟨f, -, p, -, rfl⟩ := h
  exact ⟨rfl, rfl, rfl⟩

theorem calls_morecore {b : Bool} (h : morecore extent sbrk s nu = some (t, b)) :
    t.calls = s.calls + 1 := by
  unfold morecore at h
  cases hcall : sbrk s.calls with
  | none =>
    simp only [hcall, Option.some.injEq, Prod.mk.injEq] at h
    rw [← h.1]
  | some gap =>
    simp only [hcall, Option.map_eq_some_iff, Prod.mk.injEq] at h
    obtain ⟨u, hfree, rfl, -⟩ := h
    exact (free_frame hfree).2.2

/-- How a round of the loop of `malloc` ends: with a block of the free list, with the next header,
or with a call of `morecore`. -/
theorem mallocLoop_cases (h : mallocLoop extent sbrk nu (fuel + 1) s prevp = some (t, r)) :
    (∀ extent' sbrk', mallocLoop extent' sbrk' nu (fuel + 1) s prevp = some (t, r) ∧
      t.calls = s.calls ∧ t.regions = s.regions ∧ t.brk = s.brk ∧ r ≠ none) ∨
    (∃ p, mallocLoop extent sbrk nu fuel s p = some (t, r) ∧ ∀ extent' sbrk',
      mallocLoop extent' sbrk' nu (fuel + 1) s prevp = mallocLoop extent' sbrk' nu fuel s p) ∨
    ∃ u b, morecore extent sbrk s nu = some (u, b) ∧
      (t = u ∨ ∃ f, mallocLoop extent sbrk nu fuel u f = some (t, r)) := by
  simp only [mallocLoop] at h ⊢
  split_ifs at h ⊢ with hbig hfreep
  · refine .inl fun _ _ => ⟨h, ?_⟩
    obtain ⟨rfl, rfl⟩ := Prod.mk.inj (Option.some.inj h)
    exact ⟨rfl, rfl, rfl, by simp⟩
  · refine .inr (.inr ?_)
    cases hmore : morecore extent sbrk s nu with
    | none => simp [hmore] at h
    | some ub =>
      obtain ⟨u, b⟩ := ub
      rw [hmore] at h
      refine ⟨u, b, rfl, ?_⟩
      cases b with
      | false => exact .inl (Prod.mk.inj (Option.some.inj h)).1.symm
      | true =>
        cases hf : u.freep with
        | none => simp [hf] at h
        | some f =>
          simp only [hf] at h
          exact .inr ⟨f, h⟩
  · exact .inr (.inl ⟨_, h, fun _ _ => rfl⟩)

theorem calls_le_of_mallocLoop (h : mallocLoop extent sbrk nu fuel s prevp = some (t, r)) :
    s.calls ≤ t.calls := by
  induction fuel generalizing s prevp with
  | zero => cases h
  | succ fuel ih =>
    rcases mallocLoop_cases h with hhit | ⟨p, hnext, -⟩ | ⟨u, b, hmore, rfl | ⟨f, hloop⟩⟩
    · exact (hhit extent sbrk).2.1.ge
    · exact ih hnext
    · exact (calls_morecore hmore).ge.trans' (Nat.le_succ _)
    · have hcalls := calls_morecore hmore
      have hle := ih hloop
      omega

/-- A block of the free list is found whatever `sbrk` would have done. -/
theorem mallocLoop_of_calls (h : mallocLoop extent sbrk nu fuel s prevp = some (t, r))
    (hcalls : t.calls = s.calls) (extent' : Extent) (sbrk' : Sbrk) :
    mallocLoop extent' sbrk' nu fuel s prevp = some (t, r) ∧ r ≠ none := by
  induction fuel generalizing s prevp with
  | zero => cases h
  | succ fuel ih =>
    rcases mallocLoop_cases h with hhit | ⟨p, hnext, heq⟩ | ⟨u, b, hmore, rfl | ⟨f, hloop⟩⟩
    · exact ⟨(hhit extent' sbrk').1, (hhit extent' sbrk').2.2.2.2⟩
    · rw [heq]
      exact ih hnext hcalls
    · have hmore' := calls_morecore hmore
      omega
    · have hmore' := calls_morecore hmore
      have hle := calls_le_of_mallocLoop hloop
      omega

theorem malloc_of_calls (h : malloc extent L sbrk s nbytes = some (t, r))
    (hcalls : t.calls = s.calls) (extent' : Extent) (sbrk' : Sbrk) :
    malloc extent' L sbrk' s nbytes = some (t, r) ∧ r ≠ none := by
  unfold malloc at h ⊢
  split at h
  next hfreep => exact mallocLoop_of_calls h hcalls extent' sbrk'
  next f hfreep => exact mallocLoop_of_calls h hcalls extent' sbrk'

/-! ## The size of the heap -/

def Inside (s : State) : Prop := HEADER * units s.regions ≤ s.brk

theorem Inside.morecore {b : Bool} (h : Inside s)
    (hok : Umalloc.morecore whole sbrk s nu = some (t, b)) : Inside t := by
  unfold Umalloc.morecore at hok
  cases hcall : sbrk s.calls with
  | none =>
    simp only [hcall, Option.some.injEq, Prod.mk.injEq] at hok
    obtain ⟨rfl, -⟩ := hok
    exact h
  | some gap =>
    simp only [hcall, Option.map_eq_some_iff, Prod.mk.injEq, whole_sub] at hok
    obtain ⟨u, hfree, rfl, -⟩ := hok
    obtain ⟨hregions, hbrk, -⟩ := free_frame hfree
    unfold Inside at h ⊢
    rw [hregions, hbrk]
    simp only [units, List.map_append, List.sum_append, List.map_cons, List.map_nil,
      List.sum_singleton, whole] at h ⊢
    rw [Nat.mul_add]
    omega

theorem Inside.mallocLoop (h : Inside s)
    (hok : Umalloc.mallocLoop whole sbrk nu fuel s prevp = some (t, r)) : Inside t := by
  induction fuel generalizing s prevp with
  | zero => cases hok
  | succ fuel ih =>
    rcases mallocLoop_cases hok with hhit | ⟨p, hnext, -⟩ | ⟨u, b, hmore, rfl | ⟨f, hloop⟩⟩
    · obtain ⟨-, -, hregions, hbrk, -⟩ := hhit whole sbrk
      unfold Inside at h ⊢
      rwa [hregions, hbrk]
    · exact ih h hnext
    · exact h.morecore hmore
    · exact ih (h.morecore hmore) hloop

theorem Inside.malloc (h : Inside s) (hok : Umalloc.malloc whole L sbrk s nbytes = some (t, r)) :
    Inside t := by
  unfold Umalloc.malloc at hok
  split at hok
  · refine Inside.mallocLoop ?_ hok
    exact h
  · exact h.mallocLoop hok

theorem Inside.small (h : Inside s) (hfit : Fit nbytes) (hback : Backed sbrk s nbytes) :
    Small sbrk s (.malloc nbytes) := by
  cases hcall : sbrk s.calls with
  | none => exact .inl hcall
  | some gap =>
    have hle := hback gap hcall
    rw [asInt_eq hfit.bytes_lt, whole] at hle
    right
    unfold Inside at h
    unfold PHYSTOP HEADER at *
    omega

/-- The heap of a run in which every request is safe. -/
structure Sound (L : Layout) (s : State) : Prop where
  inv : Inv L s
  inside : Inside s

/-- What `malloc` does for a request that fits or is served from the free list. -/
theorem Sound.malloc (h : Sound L s) (hback : Backed sbrk s nbytes)
    (hok : Fit nbytes ∨ Reuses L sbrk s nbytes) :
    ∃ t r, malloc asInt L sbrk s nbytes = some (t, r) ∧ t.live = s.live ∧ Inside t ∧
      match r with
      | none => ∃ bs, Heap L t bs
      | some q => ∃ bs, Heap L { t with live := s.live ++ [⟨⟨q, nunitsOf nbytes⟩, nbytes⟩] }
          bs := by
  rcases hok with hfit | ⟨⟨t, r⟩, hmalloc, hcalls⟩
  · obtain ⟨t, r, hmalloc, hlive, hheap⟩ := h.inv.malloc (h.inside.small hfit hback)
    refine ⟨t, r, (malloc_of_fit hfit).trans hmalloc, hlive, h.inside.malloc hmalloc, ?_⟩
    cases r with
    | none => exact hheap.2
    | some q => exact hheap
  · -- as if `sbrk` failed, which it is not asked to do
    obtain ⟨hnever, hsome⟩ := malloc_of_calls hmalloc hcalls whole fun _ => none
    have hsmall : Small (fun _ => none) s (.malloc nbytes) := .inl rfl
    obtain ⟨t', r', hmalloc', hlive, hheap⟩ := h.inv.malloc hsmall
    obtain ⟨rfl, rfl⟩ := Prod.mk.inj (Option.some.inj (hmalloc'.symm.trans hnever))
    refine ⟨t', r', hmalloc, hlive, h.inside.malloc hmalloc', ?_⟩
    cases r' with
    | none => exact absurd rfl hsome
    | some q => exact hheap

theorem Sound.step {e : Event} (h : Sound L s) (hok : Holds L sbrk s e)
    (hstep : step asInt (2 ^ 32) L sbrk s e = some t) : Sound L t := by
  cases e with
  | malloc nbytes =>
    obtain ⟨u, r, hmalloc, hlive, hinside, hheap⟩ := h.malloc hok.1 hok.2
    simp only [Umalloc.step, hmalloc] at hstep
    obtain ⟨-, hstep⟩ := Option.ite_none_right_eq_some.mp hstep
    cases r with
    | none =>
      obtain ⟨bs, hheap⟩ := hheap
      obtain rfl := Option.some.inj hstep
      exact ⟨.heap hheap, hinside⟩
    | some q =>
      obtain ⟨bs, hheap⟩ := hheap
      obtain rfl := Option.some.inj hstep
      rw [← hlive] at hheap
      exact ⟨.heap hheap, hinside⟩
  | free bp =>
    have hsmall : Small sbrk s (.free bp) := trivial
    refine ⟨h.inv.step hsmall hstep, ?_⟩
    simp only [Umalloc.step] at hstep
    split at hstep
    · cases hstep
    · obtain ⟨u, hfree, rfl⟩ := Option.map_eq_some_iff.mp hstep
      obtain ⟨hregions, hbrk, -⟩ := free_frame hfree
      have hinside := h.inside
      unfold Inside at hinside ⊢
      rwa [← hregions, ← hbrk] at hinside
  | write x hd =>
    have hsmall : Small sbrk s (.write x hd) := trivial
    refine ⟨h.inv.step hsmall hstep, ?_⟩
    obtain ⟨-, hstep⟩ := Option.ite_none_right_eq_some.mp hstep
    obtain rfl := Option.some.inj hstep
    exact h.inside

theorem live_le_brk {bs : List Block} {l : Live} (h : Heap L s bs) (hl : l ∈ s.live) :
    L.start ≤ l.block.addr ∧ l.block.addr + HEADER + l.nbytes ≤ s.brk := by
  obtain ⟨-, hstart, hstop⟩ := h.bounds (List.mem_append_left _ (List.mem_map_of_mem hl))
  have henough := h.enough l hl
  unfold Block.stop at hstop
  exact ⟨hstart, by omega⟩

theorem Sound.safe (h : Sound L s) (hback : Backed sbrk s nbytes)
    (hok : Fit nbytes ∨ Reuses L sbrk s nbytes) : Safe L sbrk s nbytes := by
  obtain ⟨t, r, hmalloc, -, -, hheap⟩ := h.malloc hback hok
  refine ⟨t, r, hmalloc, fun hcalls => ?_, ?_⟩
  · rcases hok with hfit | ⟨x, hx, hsame⟩
    · exact (exact_iff_fit nbytes).mpr hfit
    · obtain rfl : x = (t, r) := Option.some.inj (Option.mem_def.mp hx ▸ hmalloc)
      exact absurd hsame hcalls
  · rintro q rfl
    obtain ⟨bs, hheap⟩ := hheap
    exact live_le_brk hheap (List.mem_append_right _ (List.mem_singleton_self _))

theorem Safe.fit_or_reuses (h : Safe L sbrk s nbytes) : Fit nbytes ∨ Reuses L sbrk s nbytes := by
  obtain ⟨t, r, hmalloc, hexact, -⟩ := h
  by_cases hcalls : t.calls = s.calls
  · exact .inr ⟨(t, r), hmalloc, hcalls⟩
  · exact .inl ((exact_iff_fit nbytes).mp (hexact hcalls))

/-- The size arithmetic of `malloc` is right exactly for the requests that fit.  After any run of
safe requests, a request is safe exactly if it fits or is served from the free list. -/
theorem malloc_request_safe (L : Layout) (sbrk : Sbrk) (mem : ℕ → Header) (tr : List Event)
    (s : State) (hrun : Run (guarded (Holds L sbrk) (step asInt (2 ^ 32) L sbrk)) (init L mem) tr s)
    (nbytes : ℕ) (hback : Backed sbrk s nbytes) :
    (Exact (coreUnits (nunitsOf nbytes)) ↔ Fit nbytes) ∧
    (Safe L sbrk s nbytes ↔ Fit nbytes ∨ Reuses L sbrk s nbytes) ∧
    ∀ l ∈ s.live, l.block.addr + HEADER + l.nbytes ≤ s.brk := by
  have h : Sound L s := hrun.state_invariant
    ⟨.fresh rfl rfl rfl rfl, by simp [Inside, init, units]⟩ fun t e u ht he =>
      ht.step (guarded_eq_some.mp he).1 (guarded_eq_some.mp he).2
  refine ⟨exact_iff_fit nbytes, ⟨Safe.fit_or_reuses, h.safe hback⟩, fun l hl => ?_⟩
  cases h.inv with
  | fresh _ hnil _ _ => simp [hnil] at hl
  | heap hheap => exact (live_le_brk hheap hl).2

/-- Two blocks of 1 GB are allocated and freed. -/
def freedTrace : List Event :=
  [.malloc (2 ^ 30), .malloc (2 ^ 30), .free 4096, .free (4096 + HEADER * (2 ^ 26 + 1))]

/-- The blocks have been joined, and a request that does not fit is served from them. -/
theorem malloc_request_safe_freed : ∃ s : State,
    Run (guarded (Holds exampleLayout fun _ => some 0)
      (step asInt (2 ^ 32) exampleLayout fun _ => some 0)) (init exampleLayout fun _ => ⟨0, 0⟩)
      freedTrace s ∧ ¬ Fit (2 ^ 31 - 31) ∧
        Safe exampleLayout (fun _ => some 0) s (2 ^ 31 - 31) := by
  obtain ⟨s, hrun, hs⟩ := Run.exists_of_any
    (P := fun s : State => decide (Backed (fun _ => some 0) s (2 ^ 31 - 31) ∧
      Reuses exampleLayout (fun _ => some 0) s (2 ^ 31 - 31)))
    (by decide +kernel : (freedTrace.foldlM (guarded (Holds exampleLayout fun _ => some 0)
      (step asInt (2 ^ 32) exampleLayout fun _ => some 0))
      (init exampleLayout fun _ => ⟨0, 0⟩)).any _ = true)
  obtain ⟨hback, hreuse⟩ := of_decide_eq_true hs
  exact ⟨s, hrun, by decide,
    ((malloc_request_safe _ _ _ _ s hrun _ hback).2.1).mpr (.inr hreuse)⟩

/-- For the largest request `sbrk` is asked for 16 bytes, and the block returned
begins where the memory of the process ends. -/
theorem malloc_request_wraps : sbrkArg (coreUnits (nunitsOf (2 ^ 32 - 1))) = 16 ∧
    HEADER * coreUnits (nunitsOf (2 ^ 32 - 1)) = 2 ^ 32 + 16 ∧
    ∃ t q, malloc asInt exampleLayout (fun _ => some 0) (init exampleLayout fun _ => ⟨0, 0⟩)
      (2 ^ 32 - 1) = some (t, some q) ∧ t.brk = q + HEADER := by
  refine ⟨by decide, by decide, ?_⟩
  have hrun : (malloc asInt exampleLayout (fun _ => some 0) (init exampleLayout fun _ => ⟨0, 0⟩)
      (2 ^ 32 - 1)).any (fun tr => decide (tr.2 = some 4096 ∧ tr.1.brk = 4112)) = true := by
    decide +kernel
  cases hok : malloc asInt exampleLayout (fun _ => some 0) (init exampleLayout fun _ => ⟨0, 0⟩)
    (2 ^ 32 - 1) with
  | none =>
    rw [hok] at hrun
    cases hrun
  | some tr =>
    rw [hok] at hrun
    obtain ⟨hq, hbrk⟩ := of_decide_eq_true hrun
    exact ⟨tr.1, 4096, by rw [← hq], hbrk⟩

end Xv6.Umalloc
