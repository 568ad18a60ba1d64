import Xv6.Sleep.Stream

/-!
# What a read takes out of a pipe

From the end of its wait to its return `piperead` holds `pi->lock`, so that `nread`
moves only by what this call takes.  The call takes a byte before it knows whether
`copyout` can store it: the count it returns is what it took if no copy fails.
-/

namespace Xv6.Sleep

open Proc (Slot)
open Lib

variable {s s' : State} {p : Slot} {e : Event} {k : ℕ} {c : ReadCall} {i j : ℕ}

/-- The bytes in the pipe, the counters and what readers have got are the same. -/
structure SameRing (P Q : Pipe) : Prop where
  data : Q.data = P.data
  nread : Q.nread = P.nread
  nwrite : Q.nwrite = P.nwrite
  got : Q.got = P.got

theorem SameRing.refl (P : Pipe) : SameRing P P := ⟨rfl, rfl, rfl, rfl⟩

theorem SameRing.setPipe {P : Pipe} {l : ℕ} (h : SameRing (s.pipe l) P) :
    SameRing (s.pipe k) ((s.setPipe l P).pipe k) := by
  rw [State.setPipe_pipe]
  split_ifs with hk
  · exact hk ▸ h
  · exact .refl _

theorem SameRing.ret (s : State) (p : Slot) (l : Lock) (id : ℕ) (v : ℤ) :
    SameRing (s.pipe k) ((s.ret p l id v).pipe k) := by
  change SameRing _ ((s.finish l id v).pipe k)
  rw [State.finish_pipe]
  split_ifs <;> exact ⟨rfl, rfl, rfl, rfl⟩

theorem frame_ret (l : Lock) (id : ℕ) (v : ℤ) :
    (s.ret p l id v).frame = (s.goto p .idle).frame := by
  cases l <;> rfl

/-- The ring of a pipe changes only when the pipe is made, and by the holder of its lock. -/
theorem ring_of_effect (he : Effect s e s') (k : ℕ) :
    SameRing (s.pipe k) (s'.pipe k) ∨ s.lock (.pipe k) = none ∨
      ∃ q, e = .advance q ∧ (s.frame q).holds = some (.pipe k) := by
  have hset : ∀ {q : Slot} {l : ℕ} {P : Pipe} {f : Frame}, (s.frame q).holds = some (.pipe l) →
      SameRing (s.pipe k) (((s.setPipe l P).goto q f).pipe k) ∨
        (s.frame q).holds = some (.pipe k) := by
    intro q l P f hq
    by_cases hk : k = l
    · exact .inr (hk ▸ hq)
    · rw [State.goto_pipe, State.setPipe_pipe, if_neg hk]
      exact .inl (.refl _)
  cases he with
  | @take q d i hf | @takeFault q d i hf | @put q d i ch hf =>
    have hq : (s.frame q).holds = some (.pipe d.pipe) := by rw [hf]; rfl
    exact (hset hq).imp_right fun h => .inr ⟨q, rfl, h⟩
  | @pipealloc q l hread hwrite hfree =>
    by_cases hk : k = l
    · exact .inr (.inl (hk ▸ hfree))
    · left
      change SameRing _ ((s.setPipe l (s.pipe l).init).pipe k)
      rw [State.setPipe_pipe, if_neg hk]
      exact .refl _
  | pipewrite => exact .inl (SameRing.setPipe ⟨rfl, rfl, rfl, rfl⟩)
  | @closeAcquire q l w =>
    refine .inl (SameRing.setPipe (s := s) ?_)
    cases w <;> exact ⟨rfl, rfl, rfl, rfl⟩
  | giveUp | brokenPipe | tickRet | writeDone | readDone => exact .inl (SameRing.ret _ _ _ _ _)
  | @consRet q d n v cons => exact .inl (SameRing.ret { s with cons := cons } _ _ _ _)
  | _ => exact .inl (.refl _)

/-- The thread is in a call of `piperead`. -/
def Frame.Reading (f : Frame) : Prop := ∃ d i, f.call = some (.read d i)

theorem Frame.Reading.of_call {f g : Frame} (h : f.Reading) (hfg : f.call = g.call) :
    g.Reading := by
  obtain ⟨d, i, hd⟩ := h
  exact ⟨d, i, hfg ▸ hd⟩

theorem not_reading_idle : ¬Frame.Reading .idle := by
  rintro ⟨d, i, hd⟩
  cases hd

theorem reading_of_effect (he : Effect s e s') (hnew : ∀ k dst n, e ≠ .piperead p k dst n)
    (hr : (s'.frame p).Reading) : (s.frame p).Reading := by
  have hgoto : ∀ {q : Slot} {f : Frame}, (f.Reading → (s.frame q).Reading) →
      ((s.goto q f).frame p).Reading → (s.frame p).Reading := by
    intro q f hf hp
    rw [State.goto_frame] at hp
    split_ifs at hp with hpq
    · exact hpq ▸ hf hp
    · exact hp
  have hret : ∀ {q : Slot}, (((s.goto q .idle).frame p).Reading → (s.frame p).Reading) :=
    hgoto fun h => absurd h not_reading_idle
  cases he with
  | life | yield | consoleintr | clockintr | consoleWake | clockWake | uartWake | clockDone
  | uartDone | pipealloc => exact hr
  | schedule hrun => exact hgoto (fun h => h.of_call (call_resume _)) hr
  | wake hf => exact hgoto (fun h => h.of_call (call_nextSlot _)) hr
  | @piperead q k dst n =>
    have hq : p ≠ q := fun hpq => hnew k dst n (by rw [hpq])
    rw [State.goto_frame, if_neg hq] at hr
    exact hr
  | pipewrite | pipeclose | consoleread | sysSleep | closeAcquire | put | writeGo | writeEnd
  | writeFull | writeFault | fullDone | consNext =>
    refine hgoto (fun h => ?_) hr
    obtain ⟨d, i, hd⟩ := h
    cases hd
  | giveUp | brokenPipe | consRet | tickRet | writeDone | readDone =>
    rw [frame_ret] at hr
    exact hret hr
  | closeDone => exact hret hr
  | @acquire q l hf => exact hgoto (fun h => h.of_call (by rw [call_locked, hf])) hr
  | @sleep q l hf => exact hgoto (fun h => h.of_call (by rw [hf]; cases l <;> rfl)) hr
  | @take q d i hf | @takeFault q d i hf | @readEnd q d i hf =>
    exact hgoto (fun _ => ⟨d, i, by rw [hf]; rfl⟩) hr
  | @readGo q d hf => exact hgoto (fun _ => ⟨d, 0, by rw [hf]; rfl⟩) hr
  | @doze q l l' hf hk hlock hwrite hread =>
    refine hgoto (fun h => ?_) hr
    obtain ⟨d, i, hd⟩ := h
    cases l' with
    | piperead d' =>
      obtain ⟨rfl, -⟩ := hread d' rfl
      exact ⟨d', 0, by rw [hf]; rfl⟩
    | _ => cases hd

/-- The other threads neither move a reader that copies nor change the ring of its pipe. -/
theorem copying_of_effect (h : Locked s) (he : Effect s e s') (hp : e ≠ .advance p)
    (hf : (s.frame p).holds = some (.pipe k)) (hres : (s.frame p).resume = s.frame p) :
    s'.frame p = s.frame p ∧ SameRing (s.pipe k) (s'.pipe k) := by
  have hlock := h.holds p _ hf
  constructor
  · have hgoto : ∀ {q : Slot} {f : Frame}, (p = q → f = s.frame q) →
        (s.goto q f).frame p = s.frame p := by
      intro q f hq
      rw [State.goto_frame]
      split_ifs with hpq
      · rw [hq hpq, hpq]
      · rfl
    have hother : ∀ {q : Slot} {f : Frame}, e = .advance q → (s.goto q f).frame p = s.frame p :=
      fun hq => hgoto fun hpq => absurd (hpq ▸ hq) hp
    have hfree : ∀ {q : Slot} {f : Frame}, Free s q → (s.goto q f).frame p = s.frame p := by
      intro q f hq
      refine hgoto fun hpq => ?_
      rw [hpq, holds_of_isIdle hq.2.2] at hf
      cases hf
    cases he with
    | life | yield | consoleintr | clockintr | consoleWake | clockWake | uartWake | clockDone
    | uartDone | pipealloc => rfl
    | schedule hrun => exact hgoto fun hpq => hpq ▸ hres
    | pipewrite hq | piperead hq | pipeclose hq | consoleread hq | sysSleep hq => exact hfree hq
    | giveUp | brokenPipe | consRet | tickRet | writeDone | readDone =>
      rw [frame_ret]
      exact hother rfl
    | _ => exact hother rfl
  · rcases ring_of_effect he k with hring | hnone | ⟨q, rfl, hq⟩
    · exact hring
    · rw [hlock] at hnone
      cases hnone
    · have hlock' := h.holds q (.pipe k) hq
      rw [hlock] at hlock'
      obtain rfl : p = q := by simpa using hlock'
      exact absurd rfl hp

theorem step_of_readCopy (hf : s.frame p = .readCopy c i)
    (hrun : (s.life.proc p).state = .running) :
    step s (.advance p) = some (readCopy s p c i) := by
  simp only [step, advance, hf, hrun, if_true]

/-- The call can store the bytes that it is going to take: those that are buffered, up to `n`. -/
def ReadCall.Stores (c : ReadCall) (P : Pipe) : Prop :=
  ∀ m : ℕ, (m : ℤ) < c.n → m < P.buffered.length → c.dst m

/-- The call `c`, which found the pipe `P₀` when it had waited, has delivered `i` bytes. -/
structure Taking (P₀ : Pipe) (c : ReadCall) (i : ℕ) (P : Pipe) : Prop where
  nread : P.nread = P₀.nread + BitVec.ofNat 32 i
  nwrite : P.nwrite = P₀.nwrite
  le : i ≤ P₀.buffered.length
  kept : P.got.map Prod.snd ++ P.buffered = P₀.got.map Prod.snd ++ P₀.buffered
  stored : ∀ m < i, c.dst m

/-- The call has left its loop with the count `i`: it has delivered what it took, or the last byte
that it took is lost. -/
def Ended (P₀ : Pipe) (c : ReadCall) (i : ℕ) (P : Pipe) : Prop :=
  (Taking P₀ c i P ∧ c.Stores P₀) ∨
    (P.nread = P₀.nread + BitVec.ofNat 32 i + 1 ∧
      P.got.length + P.buffered.length < P₀.got.length + P₀.buffered.length ∧ ¬ c.Stores P₀)

section Taking

variable {P₀ P Q : Pipe}

theorem Taking.congr (h : Taking P₀ c i P) (hPQ : SameRing P Q) : Taking P₀ c i Q := by
  refine ⟨hPQ.nread.trans h.nread, hPQ.nwrite.trans h.nwrite, h.le, ?_, h.stored⟩
  rw [Pipe.buffered, hPQ.got, hPQ.data, hPQ.nread, hPQ.nwrite]
  exact h.kept

theorem Ended.congr (h : Ended P₀ c i P) (hPQ : SameRing P Q) : Ended P₀ c i Q := by
  rcases h with ⟨htaking, hstores⟩ | ⟨hn, hlen, hstores⟩
  · exact .inl ⟨htaking.congr hPQ, hstores⟩
  · refine .inr ⟨hPQ.nread.trans hn, ?_, hstores⟩
    rw [Pipe.buffered, hPQ.got, hPQ.data, hPQ.nread, hPQ.nwrite]
    exact hlen

theorem Taking.empty_iff (h : Taking P₀ c i P) : P.Empty ↔ i = P₀.buffered.length := by
  have hle := h.le
  have hlt := (P₀.nwrite - P₀.nread).isLt
  rw [Pipe.Empty, h.nread, h.nwrite]
  rw [Pipe.buffered, Ring.length_contents] at hle ⊢
  constructor
  · intro heq
    rw [← heq, add_sub_cancel_left, BitVec.toNat_ofNat, Nat.mod_eq_of_lt (by omega)]
  · rintro rfl
    rw [BitVec.ofNat_toNat, BitVec.setWidth_eq, BitVec.add_comm, BitVec.sub_add_cancel]

theorem buffered_take (hne : ¬P.Empty) : P.buffered = P.next :: P.take.buffered :=
  Ring.contents_pop Pipe.dvd_pipesize hne

theorem Taking.take (h : Taking P₀ c i P) (hne : ¬P.Empty) (hi : c.dst i) (id : ℕ) :
    Taking P₀ c (i + 1) (P.take.deliver id P.next) := by
  have hlt : i < P₀.buffered.length := lt_of_le_of_ne h.le fun heq => hne (h.empty_iff.mpr heq)
  refine ⟨?_, h.nwrite, hlt, ?_, fun m hm => ?_⟩
  · change P.nread + 1 = _
    rw [h.nread, BitVec.add_assoc, BitVec.ofNat_add]
    rfl
  · change (P.got ++ [(id, P.next)]).map Prod.snd ++ P.take.buffered = _
    rw [← h.kept, buffered_take hne, List.map_append, List.append_assoc]
    rfl
  · rcases Nat.lt_succ_iff_lt_or_eq.mp hm with hm | rfl
    · exact h.stored m hm
    · exact hi

theorem Taking.fault (h : Taking P₀ c i P) (hn : (i : ℤ) < c.n) (hne : ¬P.Empty)
    (hi : ¬ c.dst i) : Ended P₀ c i P.take := by
  have hlt : i < P₀.buffered.length := lt_of_le_of_ne h.le fun heq => hne (h.empty_iff.mpr heq)
  refine .inr ⟨?_, ?_, fun hstores => hi (hstores i hn hlt)⟩
  · change P.nread + 1 = _
    rw [h.nread]
  · have hlen := congrArg List.length h.kept
    rw [buffered_take hne] at hlen
    simp only [List.length_append, List.length_map, List.length_cons] at hlen
    change P.got.length + _ < _
    omega

/-- At the end of its loop the call has taken all that it asked for, or all that there is. -/
theorem Taking.ended (h : Taking P₀ c i P) (hgo : ¬((i : ℤ) < c.n ∧ ¬P.Empty)) :
    Ended P₀ c i P := by
  refine .inl ⟨h, fun m hm hlen => h.stored m ?_⟩
  by_contra hge
  refine hgo ⟨by omega, fun hempty => ?_⟩
  have := h.empty_iff.mp hempty
  omega

theorem Ended.nread_iff (h : Ended P₀ c i P) :
    P.nread = P₀.nread + BitVec.ofNat 32 i ↔ c.Stores P₀ := by
  rcases h with ⟨htaking, hstores⟩ | ⟨hn, -, hstores⟩
  · exact iff_of_true htaking.nread hstores
  · refine iff_of_false (fun heq => ?_) hstores
    rw [hn] at heq
    exact absurd (add_eq_left.mp heq) (by decide)

theorem Ended.kept_iff (h : Ended P₀ c i P) :
    P.got.map Prod.snd ++ P.buffered = P₀.got.map Prod.snd ++ P₀.buffered ↔ c.Stores P₀ := by
  rcases h with ⟨htaking, hstores⟩ | ⟨-, hlen, hstores⟩
  · exact iff_of_true htaking.kept hstores
  · refine iff_of_false (fun heq => ?_) hstores
    have := congrArg List.length heq
    simp only [List.length_append, List.length_map] at this
    omega

end Taking

/-- One round of the loop of `piperead` takes a byte and counts it, or ends the loop. -/
theorem step_readCopy {P₀ : Pipe} (hf : s.frame p = .readCopy c i)
    (h : Taking P₀ c i (s.pipe c.pipe)) (hs : step s (.advance p) = some s') :
    (s'.frame p = .readCopy c (i + 1) ∧ Taking P₀ c (i + 1) (s'.pipe c.pipe)) ∨
      (s'.frame p = .readWake c i 0 ∧ Ended P₀ c i (s'.pipe c.pipe)) := by
  have hs' : readCopy s p c i = s' := by
    simp only [step, advance, hf] at hs
    split_ifs at hs
    exact Option.some.inj hs
  subst hs'
  unfold readCopy
  by_cases hgo : (i : ℤ) < c.n ∧ ¬(s.pipe c.pipe).Empty
  · by_cases hi : c.dst i
    · left
      simp only [if_pos hgo, if_pos hi, State.goto_frame, State.goto_pipe, State.setPipe_pipe]
      exact ⟨if_pos trivial, h.take hgo.2 hi c.id⟩
    · right
      simp only [if_pos hgo, if_neg hi, State.goto_frame, State.goto_pipe, State.setPipe_pipe]
      exact ⟨if_pos trivial, h.fault hgo.1 hgo.2 hi⟩
  · right
    simp only [if_neg hgo, State.goto_frame, if_true, State.goto_pipe]
    exact ⟨trivial, h.ended hgo⟩

theorem step_readWake (hf : s.frame p = .readWake c i j) (hs : step s (.advance p) = some s') :
    ((∃ j', s'.frame p = .readWake c i j') ∨ s'.frame p = .idle) ∧
      SameRing (s.pipe c.pipe) (s'.pipe c.pipe) := by
  have hs' : s.wakeup p (chanWrite c.pipe) j (s.ret p (.pipe c.pipe) c.id i) = s' := by
    simp only [step, advance, hf] at hs
    split_ifs at hs
    exact Option.some.inj hs
  subst hs'
  unfold State.wakeup
  split_ifs with hj
  · refine ⟨.inl ⟨j + 1, ?_⟩, .refl _⟩
    rw [State.goto_frame, if_pos rfl, hf]
    rfl
  · refine ⟨.inr ?_, SameRing.ret _ _ _ _ _⟩
    rw [frame_ret, State.goto_frame, if_pos rfl]

/-- The call `c` of `p`, which found the pipe `P₀` when it had waited, is copying, has ended its
loop, or is over. -/
inductive Counted (P₀ : Pipe) (c : ReadCall) (p : Slot) (s : State) : Prop
  | copying {i : ℕ} (hf : s.frame p = .readCopy c i) (h : Taking P₀ c i (s.pipe c.pipe))
  | ended {i j : ℕ} (hf : s.frame p = .readWake c i j) (h : Ended P₀ c i (s.pipe c.pipe))
  | returned (h : ¬(s.frame p).Reading)

theorem Counted.step {P₀ : Pipe} (h : Counted P₀ c p s) (hl : Locked s)
    (hnew : ∀ k dst n, e ≠ .piperead p k dst n) (hs : step s e = some s') :
    Counted P₀ c p s' := by
  have he := effect_of_step hs
  cases h with
  | returned hout => exact .returned fun hr => hout (reading_of_effect he hnew hr)
  | @copying i hf h =>
    by_cases hp : e = .advance p
    · subst hp
      rcases step_readCopy hf h hs with ⟨hf', h'⟩ | ⟨hf', h'⟩
      · exact .copying hf' h'
      · exact .ended hf' h'
    · obtain ⟨hf', hring⟩ := copying_of_effect (k := c.pipe) hl he hp (by rw [hf]; rfl)
        (by rw [hf]; rfl)
      exact .copying (hf'.trans hf) (h.congr hring)
  | @ended i j hf h =>
    by_cases hp : e = .advance p
    · subst hp
      obtain ⟨⟨j', hf'⟩ | hf', hring⟩ := step_readWake hf hs
      · exact .ended hf' (h.congr hring)
      · exact .returned (hf' ▸ not_reading_idle)
    · obtain ⟨hf', hring⟩ := copying_of_effect (k := c.pipe) hl he hp (by rw [hf]; rfl)
        (by rw [hf]; rfl)
      exact .ended (hf'.trans hf) (h.congr hring)

/-- A call of `piperead` advances `nread` by exactly the count `i` that it is about to return, and
delivers what it takes, just if it can store the bytes that were buffered when it had waited, up
to `n`, whatever the other threads do.  If all reads are like this, every byte that was written
and is not buffered has been delivered. -/
theorem read_consumes_returned {data : ℕ → ℕ → UInt8} {buf : ℕ → UInt8} {tr₀ tr : List Event}
    {s₀ : State} (h₀ : Run step (boot data buf) tr₀ s₀) (hf : s₀.frame p = .readCopy c 0)
    (hrun : Run step s₀ tr s) (hnew : ∀ k dst n, Event.piperead p k dst n ∉ tr)
    (hret : s.frame p = .readWake c i j) :
    ((s.pipe c.pipe).nread = (s₀.pipe c.pipe).nread + BitVec.ofNat 32 i ↔
      c.Stores (s₀.pipe c.pipe)) ∧
    ((s.pipe c.pipe).got.map Prod.snd ++ (s.pipe c.pipe).buffered =
        (s₀.pipe c.pipe).got.map Prod.snd ++ (s₀.pipe c.pipe).buffered ↔
      c.Stores (s₀.pipe c.pipe)) ∧
    ((∀ e ∈ tr₀ ++ tr, e.CopiesOut) → ∀ k,
      (s.pipe k).sent.map Prod.snd = (s.pipe k).got.map Prod.snd ++ (s.pipe k).buffered) := by
  have hstart : Taking (s₀.pipe c.pipe) c 0 (s₀.pipe c.pipe) :=
    ⟨by simp, rfl, Nat.zero_le _, rfl, fun m hm => absurd hm m.not_lt_zero⟩
  have hcount : (∀ k dst n, Event.piperead p k dst n ∉ tr) →
      Locked s ∧ Counted (s₀.pipe c.pipe) c p s := by
    refine hrun.invariant (I := fun tr s => (∀ k dst n, Event.piperead p k dst n ∉ tr) →
      Locked s ∧ Counted (s₀.pipe c.pipe) c p s)
      (fun _ => ⟨(inv_of_run h₀).locked, .copying hf hstart⟩) fun tr t e u ih he hall => ?_
    obtain ⟨hl, hc⟩ := ih fun k dst n hmem => hall k dst n (List.mem_append_left _ hmem)
    refine ⟨hl.effect (effect_of_step he), hc.step hl (fun k dst n heq => ?_) he⟩
    exact hall k dst n (by rw [← heq]; simp)
  have hended : Ended (s₀.pipe c.pipe) c i (s.pipe c.pipe) := by
    cases (hcount hnew).2 with
    | copying hf' => cases hret.symm.trans hf'
    | ended hf' h =>
      cases hret.symm.trans hf'
      exact h
    | returned hout => exact absurd ⟨c, i, by rw [hret]; rfl⟩ hout
  refine ⟨hended.nread_iff, hended.kept_iff, fun hcopy k => ?_⟩
  exact ((streams_of_run (h₀.append hrun) hcopy).logged k).fifo

/-- `init` writes a byte to a pipe and then calls `piperead`, up to the end of its wait.  It asks
for ten bytes, of which only the first can be stored, or for one that cannot. -/
def writeThenRead (ok : Bool) : List Event :=
  [.life (.schedule Proc.initproc), .pipealloc Proc.initproc 0,
    .pipewrite Proc.initproc 0 (fun _ => some 7) 1] ++ List.replicate 69 (.advance Proc.initproc) ++
    .piperead Proc.initproc 0 (fun m => ok && m = 0) (if ok then 10 else 1) ::
      List.replicate 2 (.advance Proc.initproc)

/-- The thread is about to copy out of pipe 0. -/
def Frame.copies (ok : Bool) : Frame → Bool
  | .readCopy c i => i = 0 ∧ c.pipe = 0 ∧ c.n = (if ok then 10 else 1) ∧ c.dst 0 = ok
  | _ => false

theorem exists_of_copies {ok : Bool} {f : Frame} (h : f.copies ok) :
    ∃ c, f = .readCopy c 0 ∧ c.pipe = 0 ∧ c.n = (if ok then 10 else 1) ∧ c.dst 0 = ok := by
  cases f with
  | readCopy c i =>
    obtain ⟨rfl, hc⟩ : i = 0 ∧ c.pipe = 0 ∧ c.n = (if ok then 10 else 1) ∧ c.dst 0 = ok := by
      simpa [Frame.copies] using h
    exact ⟨c, rfl, hc⟩
  | _ => cases h

theorem run_writeThenRead (ok : Bool) : ∃ s c,
    Run step (boot (fun _ _ => 0) fun _ => 0) (writeThenRead ok) s ∧
      s.frame Proc.initproc = .readCopy c 0 ∧
      (c.pipe = 0 ∧ c.n = (if ok then 10 else 1) ∧ c.dst 0 = ok) ∧
      (s.life.proc Proc.initproc).state = .running ∧ (s.pipe 0).nread = 0 ∧
      (s.pipe 0).nwrite = 1 ∧ (s.pipe 0).sent = [(0, 7)] ∧ (s.pipe 0).got = [] := by
  obtain ⟨s, hrun, hs⟩ := Run.exists_of_any
    (P := fun s => (s.frame Proc.initproc).copies ok ∧
      (s.life.proc Proc.initproc).state = .running ∧ (s.pipe 0).nread = 0 ∧
      (s.pipe 0).nwrite = 1 ∧ (s.pipe 0).sent = [(0, 7)] ∧ (s.pipe 0).got = [])
    (by cases ok <;> decide +kernel :
      ((writeThenRead ok).foldlM step (boot (fun _ _ => 0) fun _ => 0)).any _)
  obtain ⟨hf, hrest⟩ := of_decide_eq_true hs
  obtain ⟨c, hf, hc⟩ := exists_of_copies hf
  exact ⟨s, c, hrun, hf, hc, hrest⟩

/-- Only the first byte can be stored, but there is only one to take. -/
theorem read_consumes_returned_writeThenRead : ∃ s₀ s c,
    Run step (boot (fun _ _ => 0) fun _ => 0) (writeThenRead true) s₀ ∧
      Run step s₀ (List.replicate 2 (.advance Proc.initproc)) s ∧ c.n = 10 ∧
      s.frame Proc.initproc = .readWake c 1 0 ∧
      (s.pipe c.pipe).nread = (s₀.pipe c.pipe).nread + BitVec.ofNat 32 1 := by
  obtain ⟨s₀, c, h₀, hf, ⟨hpipe, hn, hdst⟩, hrunning, hr, hw, -, -⟩ := run_writeThenRead true
  have hlen : (s₀.pipe c.pipe).buffered.length = 1 := by
    rw [Pipe.buffered, Ring.length_contents, hpipe, hr, hw]
    rfl
  have hstores : c.Stores (s₀.pipe c.pipe) := by
    intro m _ hm
    obtain rfl : m = 0 := by omega
    exact hdst
  have hne : ¬(s₀.pipe c.pipe).Empty := by simp [Pipe.Empty, hpipe, hr, hw]
  set s₁ := readCopy s₀ Proc.initproc c 0 with hs₁
  have hf₁ : s₁.frame Proc.initproc = .readCopy c 1 := by
    simp [hs₁, readCopy, hn, hne, hdst]
  have hempty₁ : (s₁.pipe c.pipe).Empty := by
    simp [hs₁, readCopy, hn, hdst, hpipe, Pipe.take, Pipe.deliver, Pipe.Empty, hr, hw]
  have hrunning₁ : (s₁.life.proc Proc.initproc).state = .running := by
    simpa [hs₁, readCopy, hn, hne, hdst] using hrunning
  have hrun : Run step s₀ ([] ++ [.advance Proc.initproc] ++ [.advance Proc.initproc])
      (readCopy s₁ Proc.initproc c 1) :=
    (Run.nil.snoc (step_of_readCopy hf hrunning)).snoc (step_of_readCopy hf₁ hrunning₁)
  have hret : (readCopy s₁ Proc.initproc c 1).frame Proc.initproc = .readWake c 1 0 := by
    simp [readCopy, hempty₁]
  exact ⟨s₀, _, c, h₀, hrun, hn, hret,
    ((read_consumes_returned h₀ hf hrun (by simp) hret).1).mpr hstores⟩

/-- The copy of the only byte fails: the call goes on to return 0, but the byte has left the
pipe and no reader has got it. -/
theorem faulting_read_drops_byte : ∃ s₀ s c,
    Run step (boot (fun _ _ => 0) fun _ => 0) (writeThenRead false) s₀ ∧
      s₀.frame Proc.initproc = .readCopy c 0 ∧
      Run step s₀ [.advance Proc.initproc] s ∧
      s.frame Proc.initproc = .readWake c 0 0 ∧
      (s.pipe c.pipe).nread = (s₀.pipe c.pipe).nread + 1 ∧
      (s.pipe c.pipe).sent = [(0, 7)] ∧ (s.pipe c.pipe).got = [] ∧ (s.pipe c.pipe).Empty := by
  obtain ⟨s₀, c, h₀, hf, ⟨hpipe, hn, hdst⟩, hrunning, hr, hw, hsent, hgot⟩ :=
    run_writeThenRead false
  refine ⟨s₀, readCopy s₀ Proc.initproc c 0, c, h₀, hf,
    (Run.nil.snoc (step_of_readCopy hf hrunning) : Run step s₀ ([] ++ [_]) _), ?_⟩
  simp [readCopy, hn, hdst, hpipe, Pipe.take, Pipe.Empty, hr, hw, hsent, hgot]

end Xv6.Sleep
