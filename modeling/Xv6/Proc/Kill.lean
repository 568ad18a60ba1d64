import Xv6.Proc.Preservation

/-!
# Whom `kill` reaches

`kill` compares the pid it is given with that of every slot, also of the slots
that no process uses; those keep the pid 0 that `freeproc` has left there.
-/

namespace Xv6.Proc

open Lib

variable {s s' t : State} {e : Event} {p q np : Slot}

/-- The pid that free slots carry is not used as an argument of `kill`. -/
def Event.Named : Event → Prop
  | .kill _ pid => pid ≠ 0
  | _ => True

instance : DecidablePred Event.Named
  | .kill _ pid => inferInstanceAs (Decidable (pid ≠ 0))
  | .fork _ | .exit _ _ | .wait _ _ | .advance _ _ | .schedule _ | .yield _ | .sleep _ _
  | .wakeup _ _ => .isTrue trivial

/-- The step leaves pid, kill mark and occupant of slot `q` alone. -/
def Kept (s s' : State) (q : Slot) : Prop :=
  (s'.proc q).pid = (s.proc q).pid ∧ (s'.proc q).killed = (s.proc q).killed ∧
    s'.ident q = s.ident q ∧ ((s'.proc q).state = .unused ↔ (s.proc q).state = .unused)

theorem kept_wakeupAt (s : State) (p : Slot) (chan : Option Chan) (j q : Slot) :
    Kept s (wakeupAt s p chan j) q := by
  unfold wakeupAt Kept
  grind [Proc.wakeup]

/-- A slot keeps its pid and kill mark, or is freed, or gets a new occupant, or
is marked by a `kill` that looks for its pid. -/
theorem Inv.slot (h : Inv s) (he : Effect s e s') (q : Slot) :
    Kept s s' q ∨
    ((s'.proc q).state = .unused ∧ (s'.proc q).pid = 0 ∧ (s'.proc q).killed = 0) ∨
    ((s.proc q).state = .unused ∧ (s'.proc q).state = .used ∧
      (s'.proc q).killed = (s.proc q).killed ∧ s'.ident q = s.nextIdent ∧
      s'.nextIdent = s.nextIdent + 1) ∨
    ∃ p i, s.pc p = .killScan (s.proc q).pid i ∧ (s'.proc q).pid = (s.proc q).pid ∧
      s'.ident q = s.ident q ∧ ((s'.proc q).state = .unused ↔ (s.proc q).state = .unused) := by
  cases he with
  | @forkFail p np ok hrun hpc hnp =>
    by_cases hq : q = np
    · have hne : np ≠ p := by grind
      exact .inr (.inl (by simp [Proc.forkFail, hq, hne, Proc.freeproc]))
    · exact .inl (by grind [Proc.forkFail, Kept])
  | @forkAlloc p np ok hrun hpc hnp =>
    by_cases hq : q = np
    · refine .inr (.inr (.inl ?_))
      subst hq
      refine ⟨hnp, ?_, ?_, ?_, rfl⟩ <;> simp [Proc.forkAlloc, Proc.allocproc]
    · exact .inl (by simp [Proc.forkAlloc, Kept, hq])
  | @reap p pp ok addr havekids hrun hpc hpp hz =>
    by_cases hq : q = pp
    · have hne : pp ≠ p := by grind
      exact .inr (.inl (by simp [Proc.reap, hq, hne, Proc.freeproc]))
    · exact .inl (by grind [Proc.reap, Kept])
  | @killHit p q' ok pid hrun hpc hq' =>
    by_cases hq : q = q'
    · subst hq
      refine .inr (.inr (.inr ⟨p, q.idx, by rw [hq', hpc], ?_⟩))
      grind [Proc.kill]
    · exact .inl (by grind [Kept])
  | @forkRunnable p np ok pid hrun hpc =>
    have hnp : (s.proc np).state = .used := h.child_used p np (by simp [hpc, Pc.child])
    exact .inl (by grind [Kept, Proc.forkRunnable])
  | initWakeup hrun hpc | parentWakeup hrun hpc => exact .inl (kept_wakeupAt s _ _ _ q)
  | wakeup => exact .inl (by grind [Kept, Proc.wakeup])
  | exit | fork | wait | kill | forkNext | exitAcquire | reparentNext | reparentDone
  | initWakeupDone | parentWakeupDone | waitAcquire | waitNext | waitDone | killNext =>
    exact .inl ⟨rfl, rfl, rfl, Iff.rfl⟩
  | _ =>
    refine .inl ?_
    grind [Kept, Proc.exitZombie, Proc.waitSleep, Proc.sleep,
      State.setProc]

theorem Effect.killScan {pid : ℤ} {i : ℕ} (he : Effect s e s') (hp : s'.pc p = .killScan pid i) :
    (∃ j, s.pc p = .killScan pid j) ∨ e = .kill p pid := by
  cases he with
  | initWakeup hrun hpc | parentWakeup hrun hpc =>
    rw [State.goto_pc, wakeupAt_pc] at hp
    grind
  | _ =>
    grind [Proc.forkFail, Proc.forkAlloc, Proc.forkRunnable, Proc.exitZombie,
      Proc.reap, Proc.waitSleep, State.setProc]

/-- Free slots carry pid 0 and no kill mark, and nobody looks for pid 0. -/
structure Unmarked (s : State) : Prop where
  free : ∀ q, (s.proc q).state = .unused → (s.proc q).pid = 0 ∧ (s.proc q).killed = 0
  named : ∀ p pid i, s.pc p = .killScan pid i → pid ≠ 0

theorem Unmarked.effect (hu : Unmarked s) (h : Inv s) (he : Effect s e s') (hnamed : e.Named) :
    Unmarked s' := by
  constructor
  · intro q hq
    rcases h.slot he q with ⟨hpid, hkilled, -, hun⟩ | ⟨-, hpid, hkilled⟩ | ⟨-, hused, -⟩ |
      ⟨p, i, hscan, -, -, hun⟩
    · rw [hpid, hkilled]
      exact hu.free q (hun.mp hq)
    · exact ⟨hpid, hkilled⟩
    · simp [hq] at hused
    · exact absurd (hu.free q (hun.mp hq)).1 (hu.named p _ i hscan)
  · intro p pid i hp
    rcases he.killScan hp with ⟨j, hj⟩ | rfl
    · exact hu.named p pid j hj
    · exact hnamed

/-- Nobody has called `kill` with the pid of the process `n`, if it is still in slot `q`. -/
structure Spared (q : Slot) (n : ℕ) (pid : ℤ) (s : State) : Prop where
  scan : ∀ p i, s.pc p ≠ .killScan pid i
  lt : n < s.nextIdent
  killed : s.ident q = n → (s.proc q).state ≠ .unused →
    (s.proc q).pid = pid ∧ (s.proc q).killed = 0

theorem nextIdent_le (he : Effect s e s') : s.nextIdent ≤ s'.nextIdent := by
  cases he with
  | forkAlloc hrun hpc hnp => exact Nat.le_succ _
  | initWakeup hrun hpc | parentWakeup hrun hpc =>
    unfold wakeupAt
    split_ifs <;> exact le_rfl
  | _ => exact le_rfl

theorem Spared.effect {n : ℕ} {pid : ℤ} (hs : Spared q n pid s) (h : Inv s) (he : Effect s e s')
    (hne : ∀ p, e ≠ .kill p pid) : Spared q n pid s' := by
  constructor
  · intro p i hp
    rcases he.killScan hp with ⟨j, hj⟩ | heq
    · exact hs.scan p j hj
    · exact hne p heq
  · exact hs.lt.trans_le (nextIdent_le he)
  · intro hident hstate
    rcases h.slot he q with ⟨hpid, hkilled, hid, hun⟩ | ⟨hun, -⟩ | ⟨-, -, -, hid, -⟩ |
      ⟨p, i, hscan, hpid, hid, hun⟩
    · rw [hpid, hkilled]
      exact hs.killed (hid ▸ hident) (fun hq => hstate (hun.mpr hq))
    · exact absurd hun hstate
    · have := hs.lt
      omega
    · have hold := hs.killed (hid ▸ hident) (fun hq => hstate (hun.mpr hq))
      rw [hold.1] at hscan
      exact absurd hscan (hs.scan p i)

theorem unmarked_boot : Unmarked boot := by
  constructor
  · intro q hq
    simp only [boot, Function.update_apply] at hq ⊢
    split_ifs at hq ⊢
    exact ⟨rfl, rfl⟩
  · intro p pid i hp
    simp only [boot, Function.update_apply] at hp
    split_ifs at hp

theorem unmarked_of_run {tr : List Event} (hrun : Run step boot tr s)
    (hnamed : ∀ e ∈ tr, e.Named) : Unmarked s := by
  induction hrun with
  | nil => exact unmarked_boot
  | snoc hrun hstep ih =>
    have hu := ih fun e he => hnamed e (List.mem_append_left _ he)
    exact hu.effect (inv_of_run hrun) (effect_of_step hstep) (hnamed _ (by simp))

theorem spared_of_run {tr : List Event} {n : ℕ} {pid : ℤ} (hrun : Run step s tr t) (h : Inv s)
    (hs : Spared q n pid s) (hne : ∀ p, .kill p pid ∉ tr) : Inv t ∧ Spared q n pid t := by
  induction hrun with
  | nil => exact ⟨h, hs⟩
  | snoc hrun hstep ih =>
    obtain ⟨ht, hst⟩ := ih fun p hp => hne p (List.mem_append_left _ hp)
    have he := effect_of_step hstep
    refine ⟨ht.effect he, hst.effect ht he ?_⟩
    rintro p rfl
    exact hne p (by simp)

/-- One critical section of `kill` marks a slot with the pid it looks for and
returns 0, or marks nothing. -/
theorem killScan_cases {pid : ℤ} {i : ℕ} {ok : Bool} (hpc : s.pc p = .killScan pid i)
    (hstep : step s (.advance p ok) = some s') :
    (∃ q, (s.proc q).pid = pid ∧ s'.pc p = .user ∧ (s'.proc p).a0 = 0 ∧
      ∀ r, r ≠ q → (s'.proc r).killed = (s.proc r).killed) ∨
    (s'.pc p = .user → (s'.proc p).a0 = -1) ∧ ∀ r, (s'.proc r).killed = (s.proc r).killed := by
  have he := effect_of_step hstep
  generalize hev : Event.advance p ok = ev at he
  cases he with
  | @killHit r q ok' pid' hrun hpc' hq =>
    obtain ⟨rfl, -⟩ := Event.advance.inj hev
    obtain ⟨rfl, -⟩ := Pc.killScan.inj (hpc.symm.trans hpc')
    refine .inl ⟨q, hq, by simp, by simp, ?_⟩
    grind
  | @killNext r ok' pid' i' hrun hpc' =>
    obtain ⟨rfl, -⟩ := Event.advance.inj hev
    exact .inr ⟨by simp, fun _ => rfl⟩
  | @killNone r ok' pid' i' hrun hpc' =>
    obtain ⟨rfl, -⟩ := Event.advance.inj hev
    refine .inr ⟨by simp, ?_⟩
    grind
  | _ => grind

/-- As long as `kill` is not called with the pid 0 of the free slots:
a section of `kill` that returns 0 has found a process with the pid it was
called with and marks no other slot, and any other section marks nothing;
free slots are not marked; and a process that `fork` has just taken a slot for
is not marked, and stays so until somebody calls `kill` with its own pid. -/
theorem kill_reaches_named {tr : List Event} (hrun : Run step boot tr s)
    (hnamed : ∀ e ∈ tr, e.Named) :
    (∀ p pid i ok s', s.pc p = .killScan pid i → step s (.advance p ok) = some s' →
      (∃ q, (s.proc q).state ≠ .unused ∧ (s.proc q).pid = pid ∧ s'.pc p = .user ∧
        (s'.proc p).a0 = 0 ∧ ∀ r, r ≠ q → (s'.proc r).killed = (s.proc r).killed) ∨
      (s'.pc p = .user → (s'.proc p).a0 = -1) ∧ ∀ r, (s'.proc r).killed = (s.proc r).killed) ∧
    (∀ q, (s.proc q).state = .unused → (s.proc q).killed = 0) ∧
    (∀ e np s', step s e = some s' → (s.proc np).state = .unused → (s'.proc np).state = .used →
      (s'.proc np).killed = 0 ∧
      ∀ tr' t, Run step s' tr' t → (∀ p i, s'.pc p ≠ .killScan (s'.proc np).pid i) →
        (∀ p, .kill p (s'.proc np).pid ∉ tr') → t.ident np = s'.ident np →
        (t.proc np).state ≠ .unused → (t.proc np).killed = 0) := by
  have h := inv_of_run hrun
  have hu := unmarked_of_run hrun hnamed
  refine ⟨?_, fun q hq => (hu.free q hq).2, ?_⟩
  · intro p pid i ok s' hpc hstep
    refine (killScan_cases hpc hstep).imp_left ?_
    rintro ⟨q, hq, hret⟩
    refine ⟨q, ?_, hq, hret⟩
    -- a free slot has pid 0, for which nobody looks
    intro hun
    exact hu.named p pid i hpc (by rw [← hq, (hu.free q hun).1])
  · intro e np s' hstep hun hused
    have he := effect_of_step hstep
    have hnew : (s'.proc np).killed = 0 ∧ s'.ident np < s'.nextIdent := by
      rcases h.slot he np with ⟨-, -, -, hkeep⟩ | ⟨hfree, -⟩ | ⟨-, -, hkilled, hid, hnext⟩ |
        ⟨p, i, -, -, -, hkeep⟩
      · simp [hkeep.mpr hun] at hused
      · simp [hfree] at hused
      · exact ⟨by rw [hkilled, (hu.free np hun).2], by omega⟩
      · simp [hkeep.mpr hun] at hused
    refine ⟨hnew.1, ?_⟩
    intro tr' t hrun' hscan hne hident hstate
    have hs : Spared np (s'.ident np) (s'.proc np).pid s' :=
      ⟨hscan, hnew.2, fun _ _ => ⟨rfl, hnew.1⟩⟩
    exact ((spared_of_run hrun' (h.effect he) hs hne).2.killed hident hstate).2

/-- The first process forks and kills its child, which has pid 2. -/
def killTrace : List Event :=
  [[.schedule initproc, .fork initproc], List.replicate 4 (.advance initproc true),
    [.kill initproc 2, .advance initproc true]].flatten

theorem kill_reaches_named_killTrace :
    ∃ s s', Run step boot killTrace s ∧ (∀ e ∈ killTrace, e.Named) ∧
      step s (.advance initproc true) = some s' ∧ (s'.proc initproc).a0 = 0 ∧
      ∃ q, (s.proc q).state ≠ .unused ∧ (s.proc q).pid = 2 ∧
        ∀ r, r ≠ q → (s'.proc r).killed = (s.proc r).killed := by
  have hnamed : ∀ e ∈ killTrace, e.Named := by decide
  have heval : ((killTrace.foldlM step boot).bind fun s =>
      (step s (.advance initproc true)).map fun s' =>
        (s.pc initproc, s'.pc initproc, (s'.proc initproc).a0)) =
      some (.killScan 2 1, .user, 0) := by decide +kernel
  obtain ⟨s, hs, hmap⟩ := Option.bind_eq_some_iff.mp heval
  obtain ⟨s', hs', heq⟩ := Option.map_eq_some_iff.mp hmap
  obtain ⟨hpc, hpc', ha0⟩ : s.pc initproc = .killScan 2 1 ∧ s'.pc initproc = .user ∧
      (s'.proc initproc).a0 = 0 := by simpa using heq
  have hrun := Run.iff_foldlM.mpr hs
  rcases (kill_reaches_named hrun hnamed).1 _ _ _ _ _ hpc hs' with
    ⟨q, hq, hpid, -, -, hother⟩ | hfail
  · exact ⟨s, s', hrun, hnamed, hs', ha0, q, hq, hpid, hother⟩
  · simp [hfail.1 hpc'] at ha0

/-- `kill(0)` marks the first free slot and reports success; the process that
`fork` puts there next is marked although nobody has called `kill` with its pid. -/
theorem kill_zero_marks_free_slot :
    ∃ s t, Run step boot [.schedule initproc, .kill initproc 0, .advance initproc true,
        .advance initproc true] s ∧ (s.proc initproc).a0 = 0 ∧
      (s.proc slot1).state = .unused ∧ (s.proc slot1).killed = 1 ∧
      Run step s [.fork initproc, .advance initproc true, .advance initproc true] t ∧
      (t.proc slot1).state = .used ∧ (t.proc slot1).pid = 2 ∧ (t.proc slot1).killed = 1 := by
  have heval : (([.schedule initproc, .kill initproc 0, .advance initproc true,
        .advance initproc true] : List Event).foldlM step boot).bind (fun s =>
      (([.fork initproc, .advance initproc true, .advance initproc true] : List Event).foldlM
        step s).map fun t => ((s.proc initproc).a0, (s.proc slot1).state, (s.proc slot1).killed,
          (t.proc slot1).state, (t.proc slot1).pid, (t.proc slot1).killed)) =
      some (0, .unused, 1, .used, 2, 1) := by decide +kernel
  obtain ⟨s, hs, hmap⟩ := Option.bind_eq_some_iff.mp heval
  obtain ⟨t, ht, heq⟩ := Option.map_eq_some_iff.mp hmap
  simp only [Prod.mk.injEq] at heq
  obtain ⟨ha0, hun, hkilled, hused, hpid, hmark⟩ := heq
  exact ⟨s, t, Run.iff_foldlM.mpr hs, ha0, hun, hkilled, Run.iff_foldlM.mpr ht, hused, hpid, hmark⟩

end Xv6.Proc
