import Xv6.Sleep.Invariant

/-!
# A killed process and its sleep

Every loop that may sleep tests `killed` first, but the test and the switch to
`SLEEPING` are two critical sections of `p->lock`, and `kill` wakes up only a
process that is `SLEEPING` already.  A `kill` that falls between the two leaves
its victim asleep.
-/

namespace Xv6.Sleep

open Proc (Slot)
open Lib

variable {s s' : State} {e : Event} {p q : Slot} {k : ℕ}

/-- The slot that `kill` marks in this step. -/
def killTarget (l : Proc.State) : Proc.Event → Option Slot
  | .advance p _ =>
    match l.pc p with
    | .killScan pid i =>
      if h : i < NPROC then if (l.proc ⟨i, h⟩).pid = pid then some ⟨i, h⟩ else none else none
    | _ => none
  | _ => none

def Event.target (s : State) : Event → Option Slot
  | .life e => killTarget s.life e
  | _ => none

/-- The thread is past its test of `killed`, and will sleep before the next one. -/
def Frame.Dozes (pipe : ℕ → Pipe) : Frame → Prop
  | sleep _ | writeFull _ _ _ => True
  | writeBody c _ => (pipe c.pipe).Full
  | _ => False

instance (pipe : ℕ → Pipe) : DecidablePred (Frame.Dozes pipe)
  | .sleep _ | .writeFull _ _ _ => instDecidableTrue
  | .writeBody c _ => inferInstanceAs (Decidable (pipe c.pipe).Full)
  | .idle | .acquire _ | .test _ | .asleep _ | .writeWake _ _ _ | .readCopy _ _
  | .readWake _ _ _ | .closeAcquire _ _ | .closeWake _ _ _ => instDecidableFalse

/-- The same in the loop of `wait`. -/
def waitDozes : Proc.Pc → Bool
  | .waitSleep _ => true
  | _ => false

def Dozes (s : State) (q : Slot) : Prop :=
  (s.frame q).Dozes s.pipe ∨ waitDozes (s.life.pc q)

instance (s : State) (q : Slot) : Decidable (Dozes s q) := inferInstanceAs (Decidable (_ ∨ _))

def Frame.isAsleep : Frame → Bool
  | asleep _ => true
  | _ => false

def waitSleeps : Proc.Pc → Bool
  | .waitAsleep _ => true
  | _ => false

/-- The process is in the `sleep` of one of the five loops. -/
def InLoop (s : State) (p : Slot) : Prop := (s.frame p).isAsleep ∨ waitSleeps (s.life.pc p)

instance (s : State) (p : Slot) : Decidable (InLoop s p) := inferInstanceAs (Decidable (_ ∨ _))

/-- The process is asleep in one of the loops although it has been killed. -/
structure Stuck (s : State) (p : Slot) : Prop where
  killed : (s.life.proc p).killed ≠ 0
  sleeping : (s.life.proc p).state = .sleeping
  inLoop : InLoop s p

/-- No `kill` marks a process between its test of `killed` and its sleep. -/
def Timely (s : State) (e : Event) : Prop := ∀ q ∈ e.target s, ¬Dozes s q

instance (s : State) (e : Event) : Decidable (Timely s e) :=
  inferInstanceAs (Decidable (∀ q ∈ e.target s, ¬Dozes s q))

/-! ## The process machine -/

section life

variable {l l' : Proc.State} {e : Proc.Event}

theorem killed_of_effect (he : Proc.Effect l e l') (hq : (l'.proc q).killed ≠ 0) :
    (l.proc q).killed ≠ 0 ∨ killTarget l e = some q := by
  cases he with
  | @killHit p r ok pid hrun hpc hr =>
    by_cases hqr : q = r
    · subst hqr
      exact .inr (by simp [killTarget, hpc, q.lt, hr])
    · exact .inl (by grind)
  | initWakeup hrun hpc | parentWakeup hrun hpc =>
    left
    grind [Proc.wakeupAt, Proc.wakeup]
  | _ =>
    left
    grind [Proc.forkFail, Proc.forkAlloc, Proc.forkRunnable, Proc.exitZombie,
      Proc.reap, Proc.wakeup, Proc.allocproc, Proc.freeproc, Proc.waitSleep, Proc.sleep,
      Proc.State.setProc]

theorem killTarget_eq_some (h : killTarget l e = some q) :
    ∃ p ok, e = .advance p ok ∧ l.pc p = .killScan (l.proc q).pid q.idx := by
  unfold killTarget at h
  split at h
  next p ok =>
    split at h
    next pid i hpc =>
      split_ifs at h with hi hpid
      simp only [Option.some_inj] at h
      subst h
      exact ⟨p, ok, rfl, by rw [hpc, hpid]⟩
    next => simp at h
  next => simp at h

theorem step_of_killTarget (hstep : Proc.step l e = some l') (h : killTarget l e = some q) :
    ∃ p, l' = (l.setProc q (l.proc q).kill).ret p 0 := by
  obtain ⟨p, ok, rfl, hpc⟩ := killTarget_eq_some h
  simp only [Proc.step, Option.ite_none_right_eq_some, Proc.advance, hpc, Option.some_inj] at hstep
  refine ⟨p, ?_⟩
  rw [← hstep.2, Proc.killScan, dif_pos q.lt, if_pos rfl]

theorem sleeping_ne_of_killTarget (hstep : Proc.step l e = some l')
    (h : killTarget l e = some q) : (l'.proc q).state ≠ .sleeping := by
  obtain ⟨p, rfl⟩ := step_of_killTarget hstep h
  grind [Proc.kill]

/-- A thread gets past its test of `killed` in `wait` by taking the last step of
the scan. -/
theorem waitScan_of_effect (he : Proc.Effect l e l') (hq : waitDozes (l'.pc q)) :
    waitDozes (l.pc q) ∨
      ∃ addr i havekids ok, l.pc q = .waitScan addr i havekids ∧ e = .advance q ok := by
  cases he with
  | initWakeup hrun hpc | parentWakeup hrun hpc =>
    grind [waitDozes, Proc.wakeupAt]
  | @waitDone p ok addr i havekids hrun hpc hi =>
    by_cases hqp : q = p
    · exact .inr ⟨addr, i, havekids, ok, hqp ▸ hpc, by rw [hqp]⟩
    · exact .inl (by simpa [hqp] using hq)
  | _ =>
    grind [Proc.forkFail, Proc.forkAlloc, Proc.forkRunnable, Proc.exitZombie,
      Proc.reap, Proc.waitSleep, Proc.State.setProc, waitDozes]

theorem waitDozes_of_step (hstep : Proc.step l e = some l') (hq : waitDozes (l'.pc q)) :
    waitDozes (l.pc q) ∨ (l'.proc q).killed = 0 := by
  rcases waitScan_of_effect (Proc.effect_of_step hstep) hq with
    h | ⟨addr, i, havekids, ok, hpc, rfl⟩
  · exact .inl h
  · right
    simp only [Proc.step, Option.ite_none_right_eq_some, Proc.advance, hpc, Option.some_inj,
      Proc.waitScan] at hstep
    obtain ⟨-, rfl⟩ := hstep
    split_ifs at hq ⊢ with hi hpp hz hfail hgive
    · simp [waitDozes] at hq
    · simp [waitDozes, Proc.reap] at hq
    · simp [waitDozes] at hq
    · simp [waitDozes] at hq
    · simp [waitDozes] at hq
    · rw [not_or, not_not, not_not] at hgive
      exact hgive.2

end life

/-! ## The invariant -/

/-- No killed process sleeps or is about to. -/
def Clear (s : State) : Prop :=
  ∀ q, (s.life.proc q).killed ≠ 0 → ¬Dozes s q ∧ (s.life.proc q).state ≠ .sleeping

theorem Clear.of_eq (h : Clear s) (hl : s'.life = s.life) (hf : s'.frame = s.frame)
    (hp : s'.pipe = s.pipe) : Clear s' := by
  intro q hq
  rw [Dozes, hl, hf, hp]
  exact h q (hl ▸ hq)

theorem Clear.goto (h : Clear s) {f : Frame}
    (hf : f.Dozes s.pipe → (s.life.proc p).killed = 0) : Clear (s.goto p f) := by
  intro q hq
  obtain ⟨hawake, hstate⟩ := h q hq
  refine ⟨?_, hstate⟩
  rintro (hd | hd)
  · rw [State.goto_frame] at hd
    split_ifs at hd with hqp
    · subst hqp
      exact hq (hf hd)
    · exact hawake (.inl hd)
  · exact hawake (.inr hd)

theorem Clear.setPipe (h : Clear s) {P : Pipe}
    (hk : ∀ q c i, s.frame q = .writeBody c i → c.pipe = k → (P.Full → (s.pipe k).Full)) :
    Clear (s.setPipe k P) := by
  intro q hq
  obtain ⟨hawake, hstate⟩ := h q hq
  refine ⟨?_, hstate⟩
  rintro (hd | hd)
  · refine hawake (.inl ?_)
    cases hf : s.frame q with
    | writeBody c i =>
      rw [State.setPipe_frame, hf] at hd
      change ((s.setPipe k P).pipe c.pipe).Full at hd
      change (s.pipe c.pipe).Full
      rw [State.setPipe_pipe] at hd
      split_ifs at hd with hck
      · rw [hck]
        exact hk q c i hf hck hd
      · exact hd
    | _ =>
      rw [State.setPipe_frame, hf] at hd
      exact hd
  · exact hawake (.inr hd)

theorem Clear.setLife (h : Clear s) {l : Proc.State}
    (hkilled : ∀ q, (l.proc q).killed ≠ 0 → (s.life.proc q).killed ≠ 0)
    (hstate : ∀ q, (l.proc q).state = .sleeping → (s.life.proc q).state = .sleeping)
    (hpc : ∀ q, waitDozes (l.pc q) → waitDozes (s.life.pc q)) : Clear { s with life := l } := by
  intro q hq
  obtain ⟨hawake, hawake'⟩ := h q (hkilled q hq)
  refine ⟨?_, fun hs => hawake' (hstate q hs)⟩
  rintro (hd | hd)
  · exact hawake (.inl hd)
  · exact hawake (.inr (hpc q hd))

theorem Clear.wakeup (h : Clear s) (chan : Option Chan) (j : Slot) :
    Clear { s with life := s.life.setProc j ((s.life.proc j).wakeup chan) } := by
  refine h.setLife (fun q hq => ?_) (fun q hq => ?_) fun q hq => hq
  · grind [Proc.wakeup]
  · grind [Proc.wakeup]

theorem Clear.ret (h : Clear s) (p : Slot) (l : Lock) (id : ℕ) (v : ℤ) :
    Clear (s.ret p l id v) := by
  have hfin : Clear (s.finish l id v) := by
    cases l with
    | pipe k => exact h.setPipe fun _ _ _ _ _ hfull => hfull
    | cons => exact h
    | ticks => exact h
  have hlife : (s.finish l id v).life = s.life := State.finish_life s l id v
  have hmove : Clear ((s.finish l id v).goto p .idle) := hfin.goto False.elim
  have hret := hmove.setLife (l := s.life.ret p v) (fun q hq => ?_) (fun q hq => ?_) fun q hq => ?_
  · exact hret.of_eq rfl rfl rfl
  · rw [State.goto_life, hlife]
    grind
  · rw [State.goto_life, hlife]
    grind
  · rw [State.goto_life, hlife]
    grind [waitDozes]

/-- Nobody else is in the loop of `pipewrite` while `p` holds the lock of the pipe. -/
theorem Locked.writeBody_eq (h : Locked s) (hp : (s.frame p).holds = some (.pipe k))
    {c : WriteCall} {i : ℕ} (hq : s.frame q = .writeBody c i) (hc : c.pipe = k) : q = p := by
  have hlock := h.holds q (.pipe k) (by rw [hq, ← hc]; rfl)
  have hlock' := h.holds p (.pipe k) hp
  simpa [hlock] using hlock'

theorem Locked.not_writeBody (h : Locked s) (hfree : s.lock (.pipe k) = none) {c : WriteCall}
    {i : ℕ} (hq : s.frame q = .writeBody c i) : c.pipe ≠ k := by
  intro hc
  have hlock := h.holds q (.pipe k) (by rw [hq, ← hc]; rfl)
  simp [hfree] at hlock

theorem Clear.life (h : Clear s) {e : Proc.Event} {l : Proc.State}
    (hstep : Proc.step s.life e = some l) (hsleep : ∀ p k, e ≠ .sleep p k)
    (hok : ∀ q ∈ killTarget s.life e, ¬Dozes s q) : Clear { s with life := l } := by
  intro q hq
  have he := Proc.effect_of_step hstep
  have hdoze : ¬Dozes s q → ¬Dozes { s with life := l } q := by
    rintro hawake (hd | hd)
    · exact hawake (.inl hd)
    · rcases waitDozes_of_step hstep hd with hd | hk
      · exact hawake (.inr hd)
      · exact hq hk
  rcases killed_of_effect he hq with hold | htarget
  · obtain ⟨hawake, hstate⟩ := h q hold
    refine ⟨hdoze hawake, fun hs => ?_⟩
    rcases sleeping_of_effect he hsleep hs with ⟨hs, -⟩ | ⟨-, addr, hpc⟩
    · exact hstate hs
    · exact hawake (.inr (by rw [hpc]; rfl))
  · exact ⟨hdoze (hok q htarget), sleeping_ne_of_killTarget hstep htarget⟩

theorem Clear.schedule (h : Clear s) (p : Slot) :
    Clear ({ s with life := Proc.schedule s.life p }.goto p (s.frame p).resume) := by
  have hlife : Clear { s with life := Proc.schedule s.life p } := by
    refine h.setLife (fun q hq => ?_) (fun q hq => ?_) fun q hq => ?_ <;>
      unfold Proc.schedule at hq <;> split at hq <;> grind [waitDozes]
  refine hlife.goto fun hd => ?_
  by_contra hk
  refine (hlife p hk).1 (.inl ?_)
  change (s.frame p).Dozes s.pipe
  cases hf : s.frame p with
  | asleep l => simp [hf, Frame.resume, Frame.Dozes] at hd
  | _ => simpa [hf, Frame.resume] using hd

theorem Clear.sleep (h : Clear s) {l : Loop} (hp : s.frame p = .sleep l) : Clear (s.sleep p l) := by
  have hawake : (s.life.proc p).killed = 0 := by
    by_contra hk
    exact (h p hk).1 (.inl (by rw [hp]; trivial))
  intro q hq
  by_cases hqp : q = p
  · subst hqp
    simp [State.sleep, Proc.sleep, hawake] at hq
  · have hproc : (s.sleep p l).life.proc q = s.life.proc q := by simp [State.sleep, hqp]
    have hframe : (s.sleep p l).frame q = s.frame q := by simp [State.sleep, hqp]
    have hpc : (s.sleep p l).life.pc q = s.life.pc q := by simp [State.sleep, hqp]
    rw [Dozes, hproc, hframe, hpc]
    exact h q (hproc ▸ hq)

theorem Clear.effect (h : Clear s) (hi : Inv s) (he : Effect s e s') (hok : Timely s e) :
    Clear s' := by
  have hawake : ∀ {p : Slot} {f : Frame}, s.frame p = f → f.Dozes s.pipe →
      (s.life.proc p).killed = 0 := by
    intro p f hf hd
    by_contra hk
    exact (h p hk).1 (.inl (hf ▸ hd))
  cases he with
  | life hstep hidle hsched hsleep => exact h.life hstep hsleep hok
  | schedule hrun => exact h.schedule _
  | @yield p hrun =>
    refine h.setLife (fun q hq => ?_) (fun q hq => ?_) fun q hq => hq <;> grind
  | @pipealloc p k hread hwrite hfree =>
    have hset := h.setPipe (P := (s.pipe k).init) fun q c i hq hc =>
      absurd hc (hi.locked.not_writeBody hfree hq)
    exact hset.of_eq rfl rfl rfl
  | @pipewrite p k src n hp hend =>
    have hset := h.setPipe (P := (s.pipe k).start ⟨s.calls, k, src, n⟩)
      fun _ _ _ _ _ hfull => hfull
    exact (hset.goto False.elim).of_eq rfl rfl rfl
  | piperead hp hend | pipeclose hp hend hunused | consoleread hp | sysSleep hp | acquire hf hfree
  | consNext hf | closeDone hf hj => exact (h.goto False.elim).of_eq rfl rfl rfl
  | giveUp | brokenPipe | tickRet | writeDone | readDone => exact h.ret _ _ _ _
  | consRet hf => exact (h.ret _ .cons 0 _).of_eq rfl rfl rfl
  | writeEnd hf | writeFault hf | readGo hf hgo | readEnd hf => exact h.goto False.elim
  | writeGo hf hread hk | doze hf hk => exact h.goto fun _ => hk
  | writeFull hf hfull => exact h.goto fun _ => hawake hf hfull
  | fullDone hf hj => exact h.goto fun _ => hawake hf trivial
  | @put p c i ch hf hroom hch =>
    have hmove : Clear (s.goto p (.test (.pipewrite c (i + 1)))) := h.goto False.elim
    have hset := hmove.setPipe (k := c.pipe) (P := (s.pipe c.pipe).put c.id ch)
      fun q c' i' hq hc => ?_
    · exact hset.of_eq rfl rfl rfl
    · rw [State.goto_frame] at hq
      split_ifs at hq with hqp
      exact absurd (hi.locked.writeBody_eq (by rw [hf]; rfl) hq hc) hqp
  | @take p c i hf hne hdst =>
    have hset := h.setPipe (k := c.pipe)
      (P := (s.pipe c.pipe).take.deliver c.id (s.pipe c.pipe).next)
      fun q c' i' hq hc => ?_
    · exact (hset.goto False.elim).of_eq rfl rfl rfl
    · obtain rfl := hi.locked.writeBody_eq (by rw [hf]; rfl) hq hc
      simp [hf] at hq
  | @takeFault p c i hf hne hdst =>
    have hset := h.setPipe (k := c.pipe) (P := (s.pipe c.pipe).take) fun q c' i' hq hc => ?_
    · exact (hset.goto False.elim).of_eq rfl rfl rfl
    · obtain rfl := hi.locked.writeBody_eq (by rw [hf]; rfl) hq hc
      simp [hf] at hq
  | sleep hf => exact h.sleep hf
  | @wake p j chan hf =>
    have hlife : Clear { s with life := Proc.wakeupAt s.life p (some chan) j } := by
      unfold Proc.wakeupAt
      split_ifs
      · exact h
      · exact h.wakeup (some chan) j
    refine hlife.goto fun hd => ?_
    by_contra hk
    refine (hlife p hk).1 (.inl ?_)
    change (s.frame p).Dozes s.pipe
    cases hg : s.frame p <;> simp_all [Frame.nextSlot, Frame.Dozes]
  | @closeAcquire p k w hf hfree =>
    have hset := h.setPipe (P := (s.pipe k).close w) fun q c i hq hc =>
      absurd hc (hi.locked.not_writeBody hfree hq)
    exact (hset.goto False.elim).of_eq rfl rfl rfl
  | consoleintr | clockintr | consoleWake | clockDone | uartDone => exact h.of_eq rfl rfl rfl
  | clockWake hj => exact (h.wakeup (some chanTicks) _).of_eq rfl rfl rfl
  | uartWake hj => exact (h.wakeup (some chanCons) _).of_eq rfl rfl rfl

theorem clear_boot (data : ℕ → ℕ → UInt8) (buf : ℕ → UInt8) : Clear (boot data buf) := by
  intro q hq
  simp only [boot, Proc.boot, Function.update_apply] at hq
  split_ifs at hq <;> simp [Proc.zero, Proc.allocproc] at hq

/-- In every run in which no `kill` falls between a process's test of `killed`
and its sleep, no killed process is asleep in one of the loops. -/
theorem killed_not_asleep {data : ℕ → ℕ → UInt8} {buf : ℕ → UInt8} {tr : List Event}
    (hrun : Run (guarded Timely step) (boot data buf) tr s) (p : Slot) : ¬Stuck s p := by
  have h : Inv s ∧ Clear s := by
    refine hrun.state_invariant (I := fun s => Inv s ∧ Clear s)
      ⟨inv_boot data buf, clear_boot data buf⟩ fun t e u ht he => ?_
    obtain ⟨hok, he⟩ := guarded_eq_some.mp he
    have heff := effect_of_step he
    exact ⟨ht.1.effect heff, ht.2.effect ht.1 heff hok⟩
  rintro ⟨hkilled, hsleeping, -⟩
  exact (h.2 p hkilled).2 hsleeping

/-- `init` forks, and the child opens a pipe and gets to the head of the loop of
`piperead` on it. -/
def childReads : List Event :=
  [.life (.schedule Proc.initproc), .life (.fork Proc.initproc),
    .life (.advance Proc.initproc true), .life (.advance Proc.initproc true),
    .life (.advance Proc.initproc true), .life (.advance Proc.initproc true),
    .life (.schedule Proc.slot1), .pipealloc Proc.slot1 0, .piperead Proc.slot1 0 (fun _ => true) 1,
    .advance Proc.slot1]

def initKills : List Event :=
  [.life (.kill Proc.initproc 2), .life (.advance Proc.initproc true),
    .life (.advance Proc.initproc true)]

def sleepThenKill : List Event :=
  childReads ++ [.advance Proc.slot1, .advance Proc.slot1] ++ initKills

theorem killed_not_asleep_sleepThenKill :
    ∃ s, Run (guarded Timely step) (boot (fun _ _ => 0) fun _ => 0) sleepThenKill s ∧
      (s.life.proc Proc.slot1).killed = 1 ∧ ¬Stuck s Proc.slot1 := by
  obtain ⟨s, hrun, hk⟩ := Run.exists_of_any (P := fun s => (s.life.proc Proc.slot1).killed = 1)
    (by decide +kernel :
      (sleepThenKill.foldlM (guarded Timely step) (boot (fun _ _ => 0) fun _ => 0)).any _)
  exact ⟨s, hrun, of_decide_eq_true hk, killed_not_asleep hrun Proc.slot1⟩

/-- The child has passed its test of `killed` when it is killed, and sleeps. -/
def killBeforeSleep : List Event :=
  childReads ++ [.advance Proc.slot1] ++ initKills ++ [.advance Proc.slot1]

theorem stuck_killBeforeSleep :
    ∃ s, Run step (boot (fun _ _ => 0) fun _ => 0) killBeforeSleep s ∧ Stuck s Proc.slot1 := by
  obtain ⟨s, hrun, hs⟩ := Run.exists_of_any
    (P := fun s => (s.life.proc Proc.slot1).killed ≠ 0 ∧
      (s.life.proc Proc.slot1).state = .sleeping ∧ InLoop s Proc.slot1)
    (by decide +kernel : (killBeforeSleep.foldlM step (boot (fun _ _ => 0) fun _ => 0)).any _)
  obtain ⟨hkilled, hsleeping, hloop⟩ := of_decide_eq_true hs
  exact ⟨s, hrun, hkilled, hsleeping, hloop⟩

end Xv6.Sleep
