import Xv6.Proc.History

/-!
# Parents, children and `wait`
-/

namespace Xv6.Proc

open Lib Family

variable {s s' : State} {e : Event} {p : Slot}

theorem agree_boot : Agree (IsParent boot) boot (Family.init 1) := by
  have hstate : ∀ r, boot.proc r =
      if r = initproc then { allocproc zero 1 with state := .runnable } else zero := by
    simp [boot, Function.update_apply]
  refine ⟨rfl, fun _ => Nat.lt_succ_self _, ?_, ?_, ?_, ?_, ?_⟩
  · intro n hn
    have hne : n ≠ first := Nat.ne_of_gt hn
    simp [Family.init, hne]
  · grind -ring -linarith [zero]
  · grind -ring -linarith [zero, allocproc]
  · intro q hq
    obtain rfl : q = initproc := by grind -ring -linarith [zero, Proc.Live]
    refine ⟨first, by simp [Family.init, allocproc, boot], ?_⟩
    intro x hx
    simp [hstate, allocproc, zero] at hx
  · grind -ring -linarith [zero, allocproc]

theorem agree_of_run {tr : List Event} (hrun : Run step boot tr s) :
    ∃ fam, Run Family.step (Family.init 1) s.log fam ∧ Agree (IsParent s) s fam := by
  induction hrun with
  | nil => exact ⟨_, .nil, agree_boot⟩
  | snoc hrun hstep ih =>
    obtain ⟨fam, hfam, ha⟩ := ih
    obtain ⟨fam', hfollows, ha'⟩ := ha.effect (inv_of_run hrun) (effect_of_step hstep)
    refine ⟨fam', ?_, ha'⟩
    rcases hfollows with ⟨hlog, rfl⟩ | ⟨ev, hlog, hev⟩
    · rwa [hlog]
    · rw [hlog]
      exact .snoc hfam hev

/-- A step with which a call of `wait` by `p` returns. -/
def WaitReturns (s s' : State) (p : Slot) : Prop :=
  (∃ addr i havekids, s.pc p = .waitScan addr i havekids) ∧ s'.pc p = .user

/-- A `wait` that returns has failed, or has freed a zombie child of the caller
and returns what the child has left behind. -/
theorem Inv.waitReturns (h : Inv s) (hstep : step s e = some s') (hw : WaitReturns s s' p) :
    (s'.proc p).a0 = -1 ∧ s'.log = s.log ∨
      ∃ q, (s.proc q).parent = some p ∧ (s.proc q).state = .zombie ∧
        (s'.proc q).state = .unused ∧ (s'.proc p).a0 = (s.proc q).pid ∧
        s'.log = s.log ++ [.reap (s.ident p) (s.ident q) (s.proc q).pid (s.proc q).xstate] := by
  obtain ⟨⟨addr, i, havekids, hpc⟩, huser⟩ := hw
  cases effect_of_step hstep with
  | @waitFail r ok addr' i' havekids' hrun hpc' =>
    obtain rfl : p = r := by
      by_contra hne
      simp [hne, hpc] at huser
    exact .inl ⟨by simp, rfl⟩
  | @reap r q ok addr' havekids' hrun hpc' hq hz =>
    obtain rfl : p = r := by
      by_contra hne
      simp [Proc.reap, hne, hpc] at huser
    have hne : q ≠ p := by
      rintro rfl
      simp [hrun] at hz
    exact .inr ⟨q, hq, hz, by simp [Proc.reap, hne, Proc.freeproc],
      by simp [Proc.reap], rfl⟩
  | @forkAlloc r np ok hrun hpc' hnp =>
    have hdead := (h.dead np).mpr (.inl hnp)
    grind -ring -linarith [Proc.forkAlloc, State.setProc]
  | _ =>
    exfalso
    grind -ring -linarith [Proc.forkFail, Proc.forkRunnable, Proc.exitZombie, Proc.waitSleep,
      State.setProc, wakeupAt_pc]

/-- In every reachable state:
(i) every started process other than the first one has a parent that is neither
unused nor a zombie;
(ii) a call of `wait` that does not fail frees a zombie of which the caller is
the parent, every process is freed so at most once, and the caller is told the
pid with which the process was forked and the status with which it exited;
(iii) while `wait_lock` is free, no process that has a zombie child sleeps in
`wait`. -/
theorem life_cycle {tr : List Event} (hrun : Run step boot tr s) :
    (∀ q, q ≠ initproc → (s.proc q).Live ∨ (s.proc q).state = .zombie →
      ∃ x, (s.proc q).parent = some x ∧ (s.proc x).state ≠ .unused ∧ (s.proc x).state ≠ .zombie) ∧
    (∀ e s' p, step s e = some s' → WaitReturns s s' p →
      (s'.proc p).a0 = -1 ∧ s'.log = s.log ∨
        ∃ q, (s.proc q).parent = some p ∧ (s.proc q).state = .zombie ∧
          (s'.proc q).state = .unused ∧ (s'.proc p).a0 = (s.proc q).pid ∧
          s'.log = s.log ++ [.reap (s.ident p) (s.ident q) (s.proc q).pid (s.proc q).xstate]) ∧
    (∀ n, s.log.countP (Family.Event.reaps n) ≤ 1) ∧
    (∀ pre m n pid status post, s.log = pre ++ .reap m n pid status :: post →
      ∃ fam, Run Family.step (Family.init 1) pre fam ∧ (fam m).isAlive ∧
        fam n = .exited pid m status ∧ (∃ x, .fork x n pid ∈ pre) ∧ .exit n status ∈ pre) ∧
    (s.waitLock = none → ∀ p q, SleepsInWait s p → (s.proc q).parent = some p →
      (s.proc q).state ≠ .zombie) := by
  have h := inv_of_run hrun
  obtain ⟨fam, hfam, -⟩ := agree_of_run hrun
  refine ⟨?_, fun e s' p hstep hw => h.waitReturns hstep hw, countP_reaps_le hfam, ?_, ?_⟩
  · intro q hq hstarted
    obtain ⟨x, hx⟩ := Option.ne_none_iff_exists'.mp (h.parent_some q hq hstarted)
    have hlive := (h.parent_live q x hx).1
    exact ⟨x, hx, by grind -ring -linarith [Proc.Live], by grind -ring -linarith [Proc.Live]⟩
  · intro pre m n pid status post hlog
    rw [hlog] at hfam
    exact reap_sound hfam
  · intro hfree p q hp hq hz
    obtain ⟨-, x, hx⟩ := h.missed p q hp hq hz
    have hlock := (h.holds x).mp (Pc.holds_of_wakesInit hx)
    simp [hfree] at hlock

/-- The first process forks; its child exits with status 7 and is reaped. -/
def reapTrace : List Event :=
  [[.schedule initproc, .fork initproc], List.replicate 4 (.advance initproc true),
    [.schedule slot1, .exit slot1 7], List.replicate 132 (.advance slot1 true),
    [.wait initproc 4096], List.replicate 3 (.advance initproc true)].flatten

theorem life_cycle_reapTrace :
    ∃ s, Run step boot reapTrace s ∧ s.log.countP (Family.Event.reaps 1) = 1 ∧
      (s.proc initproc).a0 = 2 ∧ (∀ n, s.log.countP (Family.Event.reaps n) ≤ 1) ∧
      (s.waitLock = none → ∀ p q, SleepsInWait s p → (s.proc q).parent = some p →
        (s.proc q).state ≠ .zombie) := by
  have hlog : (reapTrace.foldlM step boot).map
      (fun s => (s.log.countP (Family.Event.reaps 1), (s.proc initproc).a0)) = some (1, 2) := by
    decide +kernel
  obtain ⟨s, hs, hsl⟩ := Option.map_eq_some_iff.mp hlog
  have hrun := Run.iff_foldlM.mpr hs
  obtain ⟨-, -, hcount, -, hsleep⟩ := life_cycle hrun
  exact ⟨s, hrun, congrArg Prod.fst hsl, congrArg Prod.snd hsl, hcount, hsleep⟩

end Xv6.Proc
