import Xv6.Virtio.Steps

/-!
# Requests are neither lost nor mixed up

A head moves from the avail ring to the device, from there to the used ring and
out of it, one place at a time.  A call of `virtio_disk_rw` returns after the
device has served its request, and nothing else for its buffer.
-/

namespace Xv6.Virtio

open Lib

variable {τ β : Type} {s s' : State τ β} {u : τ} {r : Req β} {x : Idx}

/-- The threads that `s'` has out of `virtio_disk_rw` and `s` has in it have seen
`b->disk` cleared. -/
def Returns (s s' : State τ β) : Prop :=
  ∀ t, s.pc t ≠ .idle → s'.pc t = .idle → ∃ r x, s.pc t = .check r x ∧ s.onDisk r.b = false

theorem Returns.of_pc (h : ∀ t, s'.pc t = .idle → s.pc t = .idle) : Returns s s' :=
  fun t ht ht' => (ht (h t ht')).elim

@[simp] theorem Pc.wakeFree_eq_idle {k : Pc β} : k.wakeFree = .idle ↔ k = .idle := by
  cases k <;> simp [Pc.wakeFree]

theorem Returns.of_goto [DecidableEq τ] {pc : τ → Pc β} {k : Pc β} {d : Core τ β}
    (hpc : ∀ t, pc t = .idle → s.pc t = .idle) (hk : k ≠ .idle) :
    Returns s ⟨d, Function.update pc u k⟩ := by
  refine .of_pc fun t ht => ?_
  by_cases htu : t = u
  · subst htu
    exact (hk (by simpa using ht)).elim
  · exact hpc t (by simpa [htu] using ht)

variable [DecidableEq β]

@[simp] theorem Pc.wakeBuf_eq_idle {b : β} {k : Pc β} : k.wakeBuf b = .idle ↔ k = .idle := by
  rw [← Pc.role_out, Pc.wakeBuf_role, Pc.role_out]

/-- A request whose buffer has come back has been served, once. -/
theorem Inv.served (h : Inv s) (hu : s.roles u = .submitted r x) (hr : s.onDisk r.b = false) :
    s.servedSince u r.b = [⟨r.b, opOf r⟩] := by
  refine (h.logged u).after r x hu fun hmem => ?_
  have hheads : x.i0 ∈ s.heads := by
    unfold Core.heads
    rw [← List.append_assoc]
    exact List.mem_append_left _ hmem
  obtain ⟨r', hr', -, hdisk⟩ :=
    h.of_mem_heads hheads (u := u) (x := x) (by rw [hu]; rfl) List.mem_cons_self
  obtain ⟨rfl, -⟩ := Role.submitted.inj (hu.symm.trans hr')
  rw [hr] at hdisk
  cases hdisk

/-- What one step does to the rings and to the fields `b->disk`: what has not been
consumed stays as it is, and `b->disk` is cleared by the handling of the head of a
request for `b`. -/
inductive Flow (ρ : τ → Role β) (d d' : Core τ β) : Prop
  | keep (havail : d'.availQueue = d.availQueue) (hinflight : d'.inflight = d.inflight)
      (hused : d'.usedQueue = d.usedQueue) (hdisk : ∀ b, d.onDisk b = true → d'.onDisk b = true)
  | submit (i : ℕ) (havail : d'.availQueue = d.availQueue ++ [i])
      (hinflight : d'.inflight = d.inflight)
      (hused : d'.usedQueue = d.usedQueue) (hdisk : d'.onDisk = d.onDisk)
  | consume (i : ℕ) (havail : d.availQueue = i :: d'.availQueue)
      (hinflight : d'.inflight = d.inflight ++ [i]) (hused : d'.usedQueue = d.usedQueue)
      (hdisk : d'.onDisk = d.onDisk)
  | complete (i : ℕ) (havail : d'.availQueue = d.availQueue) (hi : i ∈ d.inflight)
      (hinflight : d'.inflight = d.inflight.erase i) (hused : d'.usedQueue = d.usedQueue ++ [i])
      (hdisk : d'.onDisk = d.onDisk)
  | handle (t : τ) (r : Req β) (x : Idx) (ht : ρ t = .submitted r x)
      (havail : d'.availQueue = d.availQueue) (hinflight : d'.inflight = d.inflight)
      (hused : d.usedQueue = x.i0 :: d'.usedQueue)
      (hdisk : d'.onDisk = Function.update d.onDisk r.b false)

variable [DecidableEq τ]

/-- What a step does to the rings, and who returns by it. -/
def Moves (s s' : State τ β) : Prop := Flow s.roles s.toCore s'.toCore ∧ Returns s s'

theorem rw_moves (h : Inv s) : Ends (fun _ => True) (Moves s) (rw s u) := by
  cases hu : s.pc u with
  | idle | sleepFree r | sleepBuf r x =>
    simp only [rw, hu]
    trivial
  | acquire r | wokenFree r | wokenBuf r x =>
    simp only [rw, hu]
    refine Ends.ite (fun _ => ⟨.keep rfl rfl rfl fun _ hb => hb, ?_⟩) fun _ => trivial
    exact .of_goto (fun _ ht => ht) (by simp)
  | alloc r =>
    simp only [rw, hu]
    rcases alloc3Desc_spec s with ⟨desc, pc, halloc, -, hpc⟩ | ⟨x, halloc, -, -⟩
    · rw [halloc]
      refine ⟨.keep rfl rfl rfl fun _ hb => hb, .of_goto (fun t ht => ?_) (by simp)⟩
      rw [← Pc.role_out, ← (hpc t).1, Pc.role_out]
      exact ht
    · rw [halloc]
      exact ⟨.keep rfl rfl rfl fun _ hb => hb, .of_goto (fun _ ht => ht) (by simp)⟩
  | format r x =>
    simp only [rw, hu]
    refine ⟨.keep rfl rfl rfl fun b hb => ?_, .of_goto (fun _ ht => ht) (by simp)⟩
    by_cases hbr : b = r.b
    · rw [hbr]
      exact Function.update_self _ _ _
    · exact (Function.update_of_ne hbr _ _).trans hb
  | ring r x =>
    simp only [rw, hu]
    have hrole : s.roles u = .formatted r x := congrArg Pc.role hu
    have hroom := h.avail_room (u := u) (x := x) (by rw [hrole]; rfl) (by simp [hrole])
    exact ⟨.keep (Ring.contents_store (by decide) hroom _) rfl rfl fun _ hb => hb,
      .of_goto (fun _ ht => ht) (by simp)⟩
  | publish r x =>
    simp only [rw, hu]
    have hrole : s.roles u = .stored r x := congrArg Pc.role hu
    have hroom := h.avail_room (u := u) (x := x) (by rw [hrole]; rfl) (by simp [hrole])
    have hlt : (s.availIdx - s.next).toNat + 1 < 2 ^ 16 := by
      unfold NUM at hroom
      omega
    exact ⟨.submit _ (Ring.contents_succ (by decide) hlt) rfl rfl rfl,
      .of_goto (fun _ ht => ht) (by simp)⟩
  | check r x =>
    simp only [rw, hu]
    cases hr : s.onDisk r.b with
    | false =>
      rw [if_neg Bool.false_ne_true, finish_eq h hu]
      refine ⟨.keep rfl rfl rfl fun _ hb => hb, fun t ht ht' => ?_⟩
      by_cases htu : t = u
      · subst htu
        exact ⟨r, x, hu, hr⟩
      · exact (ht (by simpa [htu] using ht')).elim
    | true => exact ⟨.keep rfl rfl rfl fun _ hb => hb, .of_goto (fun _ ht => ht) (by simp)⟩

theorem exec_moves (h : Inv s) (e : Event τ β) : Ends (fun _ => True) (Moves s) (exec s e) := by
  cases e with
  | acquiresleep t b | releasesleep t b | intr =>
    refine Ends.ite (fun _ => ⟨.keep rfl rfl rfl fun _ hb => hb, ?_⟩) fun _ => trivial
    exact .of_pc fun _ ht => ht
  | call t b blockno write =>
    refine Ends.ite (fun _ => ⟨.keep rfl rfl rfl fun _ hb => hb, ?_⟩) fun _ => trivial
    exact .of_goto (fun _ ht => ht) (by simp)
  | advance t => exact rw_moves h
  | kill t =>
    change Moves s (kill s t)
    unfold kill
    cases s.pc t with
    | sleepFree r | sleepBuf r x =>
      exact ⟨.keep rfl rfl rfl fun _ hb => hb, .of_goto (fun _ ht => ht) (by simp)⟩
    | _ => exact ⟨.keep rfl rfl rfl fun _ hb => hb, .of_pc fun _ ht => ht⟩
  | intrAdvance =>
    refine Ends.ite (fun _ => ?_) fun _ => trivial
    unfold intrAdvance
    by_cases hne : s.usedIdx = s.usedRingIdx
    · rw [if_pos hne]
      exact ⟨.keep rfl rfl rfl fun _ hb => hb, .of_pc fun _ ht => ht⟩
    · obtain ⟨u, r, x, hu, hx, hinfo⟩ := h.used_head hne
      rw [if_neg hne]
      dsimp only
      rw [hx, hinfo]
      refine ⟨.handle u r x hu rfl rfl ?_ rfl, .of_pc fun t ht => Pc.wakeBuf_eq_idle.mp ht⟩
      exact hx ▸ Ring.contents_pop (by decide) hne
  | consume =>
    refine Ends.ite (fun _ => trivial) fun hne => ⟨?_, .of_pc fun _ ht => ht⟩
    exact .consume _ (Ring.contents_pop (by decide) hne) rfl rfl rfl
  | complete i =>
    refine Ends.ite (fun hi => ?_) fun _ => trivial
    obtain ⟨u, r, x, -, -, heq⟩ := complete_eq h hi
    rw [heq]
    refine ⟨.complete i rfl hi rfl ?_ rfl, .of_pc fun _ ht => ht⟩
    exact Ring.contents_push (by decide) (h.used_room hi) (by decide) _

/-! ## Every run -/

theorem exec_of_step {e : Event τ β} (h : step s e = some s') : exec s e = .ok s' := by
  unfold step at h
  cases hexec : exec s e with
  | error stop =>
    rw [hexec] at h
    cases h
  | ok t =>
    rw [hexec] at h
    cases h
    rfl

theorem inv_of_run {tr : List (Event τ β)} (hrun : Run step (init τ β) tr s) : Inv s :=
  hrun.state_invariant inv_init fun _ e _ h hstep => (exec_spec h e).of_ok (exec_of_step hstep)

/-- In every state that any interleaving of callers, interrupt handler and device reaches:
the descriptors that are not free are the chains of three of the calls, no descriptor in
two; a step only appends to a ring or takes off its first entry, and only the handling of a
head of a request for `b` clears `b->disk`; a call returns when its request, and nothing
else for its buffer, has been served since it was made; and no step panics or follows a
null pointer. -/
theorem disk_requests_kept {tr : List (Event τ β)} (hrun : Run step (init τ β) tr s) :
    Chains s.roles s.free ∧
    (∀ e s', step s e = some s' → Flow s.roles s.toCore s'.toCore) ∧
    (∀ e s' t, step s e = some s' → s.pc t ≠ .idle → s'.pc t = .idle →
      ∃ r x, s.pc t = .check r x ∧ s.servedSince t r.b = [⟨r.b, opOf r⟩]) ∧
    ∀ e stop, exec s e = .error stop → stop = .blocked := by
  have h := inv_of_run hrun
  refine ⟨h.chains, fun e s' hstep => ?_, fun e s' t hstep ht ht' => ?_, fun e stop hstop => ?_⟩
  · exact ((exec_moves h e).of_ok (exec_of_step hstep)).1
  · obtain ⟨r, x, hpc, hr⟩ := ((exec_moves h e).of_ok (exec_of_step hstep)).2 t ht ht'
    exact ⟨r, x, hpc, h.served (congrArg Pc.role hpc) hr⟩
  · exact (exec_spec h e).of_error hstop

/-- Three calls; the third finds two descriptors left and sleeps, and the device
finishes the second request before the first. -/
def outOfOrder : List (Event (Fin 3) (Fin 3)) :=
  [.acquiresleep 0 0, .call 0 0 40 true, .acquiresleep 1 1, .call 1 1 41 false,
    .acquiresleep 2 2, .call 2 2 42 true,
    .advance 0, .advance 0, .advance 0, .advance 0, .advance 0, .advance 0,
    .consume,
    .advance 1, .advance 1, .advance 1, .advance 1, .advance 1, .advance 1,
    .advance 2, .advance 2,
    .consume, .complete 3, .complete 0, .intr, .intrAdvance, .intrAdvance, .intrAdvance,
    .advance 1]

/-- The second call is about to return, and the third sleeps. -/
def aboutToReturn (s : State (Fin 3) (Fin 3)) : Bool :=
  decide (s.pc 2 = .sleepFree ⟨2, true, 84⟩ ∧ s.pc 1 = .check ⟨1, false, 82⟩ ⟨3, 4, 5⟩) &&
    (step s (.advance 1)).any fun s' => decide (s'.pc 1 = .idle)

/-- The second call returns with its block read, while the third still sleeps. -/
theorem disk_requests_kept_outOfOrder : ∃ s s' : State (Fin 3) (Fin 3),
    Run step (init (Fin 3) (Fin 3)) outOfOrder s ∧ step s (.advance 1) = some s' ∧
    s.pc 2 = .sleepFree ⟨2, true, 84⟩ ∧ s'.pc 1 = .idle ∧
    s.servedSince 1 1 = [⟨1, ⟨VIRTIO_BLK_T_IN, 0, 82⟩⟩] := by
  obtain ⟨s, hrun, hs⟩ := Run.exists_of_any
    (by decide +kernel : (outOfOrder.foldlM step (init (Fin 3) (Fin 3))).any aboutToReturn)
  rw [aboutToReturn, Bool.and_eq_true, decide_eq_true_eq, Option.any_eq_true] at hs
  obtain ⟨⟨hsleep, hcheck⟩, s', hstep, hidle⟩ := hs
  have hidle := of_decide_eq_true hidle
  obtain ⟨-, -, hreturns, -⟩ := disk_requests_kept hrun
  obtain ⟨r, x, hpc, hserved⟩ := hreturns (.advance 1) s' 1 hstep (by simp [hcheck]) hidle
  obtain ⟨rfl, rfl⟩ := Pc.check.inj (hcheck.symm.trans hpc)
  exact ⟨s, s', hrun, hstep, hsleep, hidle, hserved⟩

end Xv6.Virtio
