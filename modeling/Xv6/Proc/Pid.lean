import Xv6.Proc.Kill

/-!
# Process ids

`allocpid` hands out the values of a counter that it never compares with the
pids in use.  As long as the counter has not reached the largest `int`, pids of
different processes differ; the next call overflows it.
-/

namespace Xv6.Proc

open Lib

variable {s s' t : State} {e : Event} {p q np : Slot} {pid : ℤ}

def INT_MAX : ℤ := 2 ^ 31 - 1

/-- The next critical section calls `allocpid`. -/
def allocates (s : State) : Event → Bool
  | .advance p _ =>
    match s.pc p with
    | .forkScan i => if h : i < NPROC then (s.proc ⟨i, h⟩).state = .unused else false
    | _ => false
  | _ => false

/-- `allocpid` does not overflow `nextpid`. -/
def Counts (s : State) (e : Event) : Prop := allocates s e = true → s.nextpid ≠ INT_MAX

instance (s : State) (e : Event) : Decidable (Counts s e) :=
  inferInstanceAs (Decidable (_ → _))

/-- The child that `fork` has allocated, and the pid that it will return. -/
def Pc.childPid : Pc → Option (Slot × ℤ)
  | .forkParent np pid | .forkRunnable np pid => some (np, pid)
  | _ => none

theorem Pc.child_of_childPid {c : Pc} (h : c.childPid = some (np, pid)) : c.child = some np := by
  cases c with
  | forkParent | forkRunnable =>
    obtain ⟨rfl, -⟩ := Prod.mk.inj (Option.some.inj h)
    rfl
  | _ => cases h

/-- Pids in use are positive, below the counter, and distinct. -/
structure Numbered (s : State) : Prop where
  pos : 0 < s.nextpid
  le : s.nextpid ≤ INT_MAX
  range : ∀ q, (s.proc q).state ≠ .unused → 0 < (s.proc q).pid ∧ (s.proc q).pid < s.nextpid
  inj : ∀ q r, (s.proc q).state ≠ .unused → (s.proc r).state ≠ .unused →
    (s.proc q).pid = (s.proc r).pid → q = r
  child : ∀ p np pid, (s.pc p).childPid = some (np, pid) → (s.proc np).pid = pid

/-- A thread is about to return a pid from `fork` because it was before, or
because it has just allocated the child. -/
theorem Effect.childPid (he : Effect s e s') (hp : (s'.pc p).childPid = some (np, pid)) :
    (s.pc p).childPid = some (np, pid) ∨
      (s.proc np).state = .unused ∧ pid = s.nextpid ∧ s' = Proc.forkAlloc s p np := by
  cases he with
  | @forkAlloc p' np' ok hrun hpc hnp =>
    by_cases hpp : p = p'
    · subst hpp
      right
      simp only [Proc.forkAlloc, State.goto_pc, if_pos] at hp
      obtain ⟨rfl, rfl⟩ := Prod.mk.inj (Option.some.inj hp)
      exact ⟨hnp, rfl, rfl⟩
    · left
      simp only [Proc.forkAlloc, State.goto_pc, if_neg hpp] at hp
      split_ifs at hp
      · cases hp
      · exact hp
  | @forkParent p' np' ok pid' hrun hpc hfree =>
    left
    by_cases hpp : p = p'
    · subst hpp
      simp only [State.goto_pc, if_pos] at hp
      rw [hpc]
      exact hp
    · simpa only [State.goto_pc, if_neg hpp, State.setProc_pc] using hp
  | initWakeup hrun hpc | parentWakeup hrun hpc =>
    left
    rw [State.goto_pc, wakeupAt_pc] at hp
    split_ifs at hp
    · cases hp
    · exact hp
  | _ =>
    left
    simp only [Proc.forkFail, Proc.forkRunnable, Proc.exitZombie, Proc.reap, Proc.waitSleep,
      State.goto_pc, State.ret_pc, State.setProc_pc, State.setWaitLock_pc, State.record_pc] at hp
    first
      | exact hp
      | (split_ifs at hp
         · cases hp
         · exact hp)

theorem nextpid_cases (he : Effect s e s') : s'.nextpid = s.nextpid ∨
    s'.nextpid = allocpid s.nextpid ∧ allocates s e = true := by
  cases he with
  | @forkAlloc p np ok hrun hpc hnp | @forkFail p np ok hrun hpc hnp =>
    exact .inr ⟨rfl, by simpa [allocates, hpc, np.lt] using hnp⟩
  | initWakeup hrun hpc | parentWakeup hrun hpc =>
    unfold wakeupAt
    split_ifs <;> exact .inl rfl
  | _ => exact .inl rfl

theorem allocpid_of_ne (hpos : 0 < s.nextpid) (hle : s.nextpid ≤ INT_MAX)
    (hne : s.nextpid ≠ INT_MAX) : allocpid s.nextpid = s.nextpid + 1 := by
  unfold allocpid INT_MAX at *
  exact Int.bmod_eq_of_le (by omega) (by omega)

theorem Inv.pid_of_effect (h : Inv s) (he : Effect s e s') (hq : (s'.proc q).state ≠ .unused) :
    ((s.proc q).state ≠ .unused ∧ (s'.proc q).pid = (s.proc q).pid) ∨
      (s.proc q).state = .unused ∧ (s'.proc q).pid = s.nextpid ∧
        s'.nextpid = allocpid s.nextpid ∧ allocates s e = true ∧
        ∀ r, r ≠ q → (s'.proc r).state ≠ .unused →
          (s.proc r).state ≠ .unused ∧ (s'.proc r).pid = (s.proc r).pid := by
  have hold : ∀ r, Kept s s' r → (s'.proc r).state ≠ .unused →
      (s.proc r).state ≠ .unused ∧ (s'.proc r).pid = (s.proc r).pid :=
    fun r hkept hr => ⟨mt hkept.2.2.2.mpr hr, hkept.1⟩
  rcases h.slot he q with hkept | ⟨hfree, -⟩ | ⟨hfree, hused, -, -, hnext⟩ | ⟨-, -, -, hpid, -, hun⟩
  · exact .inl (hold q hkept hq)
  · exact absurd hfree hq
  · right
    -- only a successful `fork` starts a new process
    cases he with
    | @forkAlloc p np ok hrun hpc hnp =>
      have hqn : q = np := by
        by_contra hqn
        simp [Proc.forkAlloc, hqn, hfree] at hused
      subst hqn
      refine ⟨hnp, by simp [Proc.forkAlloc, Proc.allocproc], rfl,
        by simpa [allocates, hpc, q.lt] using hnp, fun r hr hstate => ?_⟩
      exact hold r (by simp [Proc.forkAlloc, Kept, hr]) hstate
    | initWakeup hrun hpc | parentWakeup hrun hpc =>
      unfold Proc.wakeupAt at hnext
      split_ifs at hnext <;> exact absurd hnext (Nat.ne_of_lt (Nat.lt_succ_self s.nextIdent))
    | _ => exact absurd hnext (Nat.ne_of_lt (Nat.lt_succ_self s.nextIdent))
  · exact .inl ⟨mt hun.mpr hq, hpid⟩

theorem Numbered.effect (hn : Numbered s) (h : Inv s) (he : Effect s e s') (hok : Counts s e) :
    Numbered s' := by
  have hcount : s'.nextpid = allocpid s.nextpid → allocates s e = true →
      s'.nextpid = s.nextpid + 1 := by
    intro heq halloc
    rw [heq, allocpid_of_ne hn.pos hn.le (hok halloc)]
  have hnext : s.nextpid ≤ s'.nextpid ∧ s'.nextpid ≤ INT_MAX := by
    have hle := hn.le
    rcases nextpid_cases he with heq | ⟨heq, halloc⟩
    · omega
    · have hne := hok halloc
      have := hcount heq halloc
      omega
  refine ⟨hn.pos.trans_le hnext.1, hnext.2, ?_, ?_, ?_⟩
  · intro q hq
    rcases h.pid_of_effect he hq with ⟨hold, hpid⟩ | ⟨-, hpid, heq, halloc, -⟩
    · have hrange := hn.range q hold
      omega
    · have hpos := hn.pos
      have := hcount heq halloc
      omega
  · intro q r hq hr hqr
    rcases h.pid_of_effect he hq with ⟨hq', hpid⟩ | ⟨-, hpid, -, -, hothers⟩
    · rcases h.pid_of_effect he hr with ⟨hr', hpid'⟩ | ⟨-, hpid', -⟩
      · exact hn.inj q r hq' hr' (by rw [← hpid, ← hpid', hqr])
      · -- `r` is new, and its pid is that of no process before
        have hlt := (hn.range q hq').2
        omega
    · by_contra hne
      obtain ⟨hr', hpid'⟩ := hothers r (Ne.symm hne) hr
      have hlt := (hn.range r hr').2
      omega
  · intro p np pid hp
    rcases he.childPid hp with hold | ⟨-, rfl, rfl⟩
    · have hused : (s.proc np).state = .used := h.child_used p np (Pc.child_of_childPid hold)
      have hused' : (s'.proc np).state = .used :=
        (h.effect he).child_used p np (Pc.child_of_childPid hp)
      rcases h.pid_of_effect he (q := np) (by simp [hused']) with ⟨-, hpid⟩ | ⟨hfree, -⟩
      · rw [hpid]
        exact hn.child p np pid hold
      · simp [hused] at hfree
    · simp [Proc.forkAlloc, Proc.allocproc]

theorem numbered_boot : Numbered boot := by
  have hinit : ∀ q, (boot.proc q).state ≠ .unused → q = initproc := by
    intro q hq
    by_contra hne
    simp [boot, hne, zero] at hq
  refine ⟨by decide, by decide, fun q hq => ?_, fun q r hq hr _ => ?_, fun p np pid hp => ?_⟩
  · obtain rfl := hinit q hq
    exact ⟨by decide, by decide⟩
  · rw [hinit q hq, hinit r hr]
  · simp only [boot, Function.update_apply] at hp
    split_ifs at hp <;> cases hp

theorem numbered_of_run {tr : List Event} (hrun : Run (guarded Counts step) boot tr s) :
    Numbered s := by
  induction hrun with
  | nil => exact numbered_boot
  | snoc hrun hstep ih =>
    obtain ⟨hok, hstep⟩ := guarded_eq_some.mp hstep
    exact ih.effect (inv_of_run hrun.of_guarded) (effect_of_step hstep) hok

/-- While `allocpid` does not overflow, no process in use has the pid 0 of free
slots, and `fork` returns the positive pid of its child, which no other process has. -/
theorem pids_unique {tr : List Event} (hrun : Run (guarded Counts step) boot tr s) :
    (∀ q, (s.proc q).state ≠ .unused → (s.proc q).pid ≠ 0) ∧
      ∀ p np pid ok s', s.pc p = .forkRunnable np pid → step s (.advance p ok) = some s' →
        s'.pc p = .user ∧ (s'.proc p).a0 = pid ∧ 0 < pid ∧
          (s'.proc np).state ≠ .unused ∧ (s'.proc np).pid = pid ∧
            ∀ q, q ≠ np → (s'.proc q).state ≠ .unused → (s'.proc q).pid ≠ pid := by
  have hn := numbered_of_run hrun
  have h := inv_of_run hrun.of_guarded
  refine ⟨fun q hq => (hn.range q hq).1.ne', fun p np pid ok s' hpc hstep => ?_⟩
  have hused : (s.proc np).state = .used := h.child_used p np (by rw [hpc]; rfl)
  have hpid : (s.proc np).pid = pid := hn.child p np pid (by rw [hpc]; rfl)
  have hrange := hn.range np (by simp [hused])
  have hrunning : (s.proc p).state = .running := by
    simp only [step, Option.ite_none_right_eq_some] at hstep
    exact hstep.1
  have hne : np ≠ p := by
    rintro rfl
    simp [hused] at hrunning
  obtain rfl : s' = Proc.forkRunnable s p np pid := by
    simp only [step, if_pos hrunning, advance, hpc, Option.some_inj] at hstep
    exact hstep.symm
  have hproc : ∀ q, ((Proc.forkRunnable s p np pid).proc q).pid = (s.proc q).pid := by
    intro q
    simp only [Proc.forkRunnable, State.record_proc, State.ret_proc, State.setProc_proc]
    split_ifs with hqp hpn hqn
    · rw [hqp, hpn]
    · rw [hqp]
    · rw [hqn]
    · rfl
  have hstate : ∀ q, q ≠ np → ((Proc.forkRunnable s p np pid).proc q).state = (s.proc q).state := by
    intro q hq
    simp only [Proc.forkRunnable, State.record_proc, State.ret_proc, State.setProc_proc]
    split_ifs with hqp hpn
    · exact absurd hpn.symm hne
    · rw [hqp]
    · rfl
  refine ⟨by simp [Proc.forkRunnable], by simp [Proc.forkRunnable], by omega, ?_, ?_, ?_⟩
  · simp [Proc.forkRunnable, hne]
  · rw [hproc, hpid]
  · intro q hq hq' heq
    rw [hstate q hq] at hq'
    rw [hproc, ← hpid] at heq
    exact hq (hn.inj q np hq' (by simp [hused]) heq)

def forkTrace : List Event :=
  [.schedule initproc, .fork initproc] ++ List.replicate 3 (.advance initproc true)

theorem pids_unique_forkTrace : ∃ s s', Run (guarded Counts step) boot forkTrace s ∧
    step s (.advance initproc true) = some s' ∧ (s'.proc initproc).a0 = 2 ∧
      ∀ q, q ≠ slot1 → (s'.proc q).state ≠ .unused → (s'.proc q).pid ≠ 2 := by
  obtain ⟨s, hrun, hs⟩ := Run.exists_of_any
    (P := fun s => s.pc initproc = .forkRunnable slot1 2 ∧
      (step s (.advance initproc true)).isSome)
    (by decide +kernel : (forkTrace.foldlM (guarded Counts step) boot).any _ = true)
  obtain ⟨hpc, hsome⟩ := of_decide_eq_true hs
  obtain ⟨s', hs'⟩ := Option.isSome_iff_exists.mp hsome
  obtain ⟨-, ha0, -, -, -, hother⟩ := (pids_unique hrun).2 _ _ _ _ _ hpc hs'
  exact ⟨s, s', hrun, hs', ha0, hother⟩

/-! ## Overflow -/

/-- The first process runs user code, and the slot that `fork` finds is free. -/
structure Idle (s : State) (n : ℤ) : Prop where
  running : (s.proc initproc).state = .running
  user : s.pc initproc = .user
  free : (s.proc slot1).state = .unused
  lock : s.waitLock = none
  next : s.nextpid = n

theorem initproc_ne_slot1 : initproc ≠ slot1 := by decide

theorem Idle.scan {n : ℤ} (h : Idle s n) : ∃ t,
    Run step s [.fork initproc, .advance initproc true] t ∧ t.proc = s.proc ∧
      t.pc initproc = .forkScan slot1.idx ∧ t.waitLock = none ∧ t.nextpid = n := by
  have hfork : step s (.fork initproc) = some (s.goto initproc (.forkScan 0)) := by
    simp [step, enter, h.running, h.user]
  have hnext : step (s.goto initproc (.forkScan 0)) (.advance initproc true) =
      some ((s.goto initproc (.forkScan 0)).goto initproc (.forkScan 1)) := by
    have hinit : (s.proc ⟨0, by decide⟩).state = .running := h.running
    simp [step, advance, Proc.forkScan, h.running, hinit, NPROC]
  exact ⟨_, (Run.nil.snoc hfork).snoc hnext, rfl, by simp [slot1], h.lock, h.next⟩

theorem Idle.fail {n : ℤ} (h : Idle s n) : ∃ tr t, Run step s tr t ∧ Idle t (allocpid n) := by
  obtain ⟨t, hrun, hproc, hpc, hlock, hnext⟩ := h.scan
  have hstep : step t (.advance initproc false) = some (Proc.forkFail t initproc slot1) := by
    have hrunning : (t.proc initproc).state = .running := by rw [hproc, h.running]
    have hfree : (t.proc slot1).state = .unused := by rw [hproc, h.free]
    simp only [step, if_pos hrunning, advance, hpc, Proc.forkScan, dif_pos slot1.lt]
    rw [if_pos hfree]
    rfl
  refine ⟨_, _, hrun.snoc hstep, ?_, ?_, ?_, hlock, ?_⟩
  · simp [Proc.forkFail, initproc_ne_slot1, hproc, h.running]
  · simp [Proc.forkFail]
  · simp [Proc.forkFail, initproc_ne_slot1.symm, Proc.freeproc]
  · change allocpid t.nextpid = _
    rw [hnext]

theorem Idle.count (n : ℕ) (hn : n + 2 ≤ INT_MAX) :
    ∃ tr t, Run step boot tr t ∧ Idle t (n + 2) := by
  induction n with
  | zero =>
    refine ⟨[.schedule initproc], _, Run.nil.snoc (by rfl), ?_, ?_, ?_, ?_, ?_⟩ <;> decide
  | succ n ih =>
    obtain ⟨tr, s, hrun, hs⟩ := ih (by push_cast at hn; omega)
    obtain ⟨tr', t, hrun', ht⟩ := hs.fail
    refine ⟨_, t, hrun.append hrun', ?_⟩
    have hnext : allocpid (n + 2) = ((n + 1 : ℕ) : ℤ) + 2 := by
      unfold allocpid
      unfold INT_MAX at hn
      push_cast at hn ⊢
      rw [Int.bmod_eq_of_le (by omega) (by omega)]
      ring
    rwa [hnext] at ht

/-- After `INT_MAX - 1` calls of `fork` the counter has wrapped around, and the
next `fork` returns a negative pid. -/
theorem fork_returns_negative : ∃ tr s s',
    Run step boot tr s ∧ s.pc initproc = .forkRunnable slot1 (-2 ^ 31) ∧
      step s (.advance initproc true) = some s' ∧ s'.pc initproc = .user ∧
        (s'.proc initproc).a0 = -2 ^ 31 := by
  obtain ⟨tr, s, hrun, hs⟩ := Idle.count (2 ^ 31 - 3) (by decide)
  obtain ⟨tr', t, hrun', ht⟩ := hs.fail
  have hwrap : allocpid (((2 ^ 31 - 3 : ℕ) : ℤ) + 2) = -2 ^ 31 := by decide
  rw [hwrap] at ht
  obtain ⟨u, hscan, hproc, hpc, hlock, hnext⟩ := ht.scan
  have hrunning : (u.proc initproc).state = .running := by rw [hproc, ht.running]
  have hfree : (u.proc slot1).state = .unused := by rw [hproc, ht.free]
  have halloc : step u (.advance initproc true) = some (Proc.forkAlloc u initproc slot1) := by
    simp only [step, if_pos hrunning, advance, hpc, Proc.forkScan, dif_pos slot1.lt, if_pos hfree,
      if_true]
  set v := Proc.forkAlloc u initproc slot1 with hv
  have hrunning' : (v.proc initproc).state = .running := by
    simp [hv, Proc.forkAlloc, initproc_ne_slot1, hrunning]
  have hpc' : v.pc initproc = .forkParent slot1 (-2 ^ 31) := by
    simp [hv, Proc.forkAlloc, hnext]
  set w := (v.setProc slot1 { v.proc slot1 with parent := some initproc }).goto initproc
    (.forkRunnable slot1 (-2 ^ 31)) with hw
  have hparent : step v (.advance initproc true) = some w := by
    have hlock' : v.waitLock = none := hlock
    simp only [step, if_pos hrunning', advance, hpc', Proc.forkParent, if_pos hlock']
    rfl
  have hrun'' := (((hrun.append hrun').append hscan).snoc halloc).snoc hparent
  refine ⟨_, w, Proc.forkRunnable w initproc slot1 (-2 ^ 31), hrun'', by simp [hw], ?_, ?_, ?_⟩
  · simp [step, advance, hw, initproc_ne_slot1, hrunning']
  · simp [Proc.forkRunnable]
  · simp [Proc.forkRunnable]

end Xv6.Proc
