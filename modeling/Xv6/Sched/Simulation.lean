import Xv6.Sched.Machine
import Xv6.Lib.Handover

/-!
# The machine of the schedulers as a handover

The states, locks and contexts of `proc.c` are an instance of
`Xv6.Lib.Handover`.  What a thread's stack says ties the steps of the code to
the moves of the handover.
-/

namespace Xv6.Sched

open Proc (Slot initproc)
open Lib State

variable {κ : Type} {s t : State κ} {c : κ} {p q : Slot} {k : Pc} {l : Lk} {P : Proc} {f : Frame}

def status : ProcState → Handover.Status
  | .unused => .free
  | .used => .fresh
  | .sleeping => .blocked
  | .runnable => .ready
  | .running => .running
  | .zombie => .done

def phase : Mode → Handover.Phase Slot
  | .sched => .idle
  | .enter k => .entering k
  | .exec p => .running p
  | .leave p k => .leaving p k
  | .back => .left

def view (s : State κ) : Handover.State κ Slot where
  status p := status (s.proc p).state
  lock := s.lock
  saved := s.saved
  phase c := phase (s.cpu c).mode
  pick c := (s.cpu c).p
  current c := (s.cpu c).proc
  stack c := (s.cpu c).stack

theorem status_injective : Function.Injective status := by
  intro x y h
  cases x <;> cases y <;> simp_all [status]

theorem phase_injective : Function.Injective phase := by
  intro x y h
  cases x <;> cases y <;> simp_all [phase]

@[simp] theorem view_goto : view (s.goto p f) = view s := rfl

theorem view_setProc : view (s.setProc q P) =
    { view s with status := Function.update (view s).status q (status P.state) } := by
  simp only [view, setProc, Handover.State.mk.injEq, and_true]
  funext r
  by_cases hr : r = q <;> simp [hr]

theorem view_setProc_of_state (hP : P.state = (s.proc q).state) :
    view (s.setProc q P) = view s := by
  rw [view_setProc, hP]
  simp [view]

@[simp] theorem view_ret {v : ℤ} : view (s.ret p v) = view s := by
  rw [State.ret, view_goto]
  exact view_setProc_of_state rfl

theorem view_wakeProc : view (wakeProc s q P) =
    { view s with status := Function.update (view s).status q (status P.state) } :=
  view_setProc

/-- What the stack of a thread says about it. -/
inductive Thread (s : State κ) (p : Slot) : Prop
  | code (c : κ) (k : Pc) (hmode : (s.cpu c).mode = .exec p) (hframe : s.frame p = .code k)
      (hlock : s.lock p = if k.locked then some c else none)
      (hstate : (s.proc p).state = if k = .exitRelease then .zombie else .running)
      (hneeds : ∀ l, k.needs = some l →
        s.lk l = some c ∧ ∀ h, (s.cpu c).handler = some h → h.lk ≠ l)
  | back (hcode : ∀ k, s.frame p ≠ .code k) (hdead : s.frame p ≠ .dead)
      (hstate : (s.proc p).state ≠ .unused ∧ (s.proc p).state ≠ .zombie)
      (hused : (s.proc p).state = .used → s.lock p = none)
      (hyield : ∀ k, s.frame p = .yieldBack k → k.locked = false ∧ k.needs = none)
      (hexec : ∀ c, (s.cpu c).mode = .exec p → s.lock p = some c ∧ (s.proc p).state = .running)
  | dead (hframe : s.frame p = .dead)
      (hstate : (s.proc p).state = .unused ∨ (s.proc p).state = .zombie ∨
        (s.proc p).state = .used ∧ s.lock p ≠ none)
      (hexec : ∀ c, (s.cpu c).mode ≠ .exec p)

/-- Which CPU holds a lock of either kind. -/
def holder (s : State κ) : Lk ⊕ Slot → Option κ := Sum.elim s.lk s.lock

/-- `noff` is the number of locks that the CPU holds. -/
def Counted (s : State κ) : Prop :=
  ∀ c, ∃ H : Finset (Lk ⊕ Slot), H.card = (s.cpu c).noff ∧ ∀ x, x ∈ H ↔ holder s x = some c

/-- The slot that a thread is filling, whether it runs or not. -/
def Frame.child : Frame → Option Slot
  | .code k | .yieldBack k => k.child
  | _ => none

structure Inv (s : State κ) : Prop where
  handover : Handover.Inv SwtchRegs SwtchSp (view s)
  thread : ∀ p, Thread s p
  child_used : ∀ p np, (s.frame p).child = some np → (s.proc np).state = .used
  child_inj : ∀ p q np, (s.frame p).child = some np → (s.frame q).child = some np → p = q
  counted : Counted s

theorem inv_boot : Inv (boot κ) where
  handover := {
    cpu := fun c => .idle rfl rfl rfl
    current_inj := fun c c' p hc _ => by simp [view, boot] at hc
    running := fun p hp => by
      by_cases hp' : p = initproc <;> simp [view, boot, hp', status, Proc.zero] at hp
    resting := fun p hp _ => by
      by_cases hp' : p = initproc
      · simp [view, boot, hp']
      · simp [view, boot, hp', status, Proc.zero] at hp
    fresh := fun p hp _ => by
      by_cases hp' : p = initproc <;> simp [view, boot, hp', status, Proc.zero] at hp
    lock := fun p c hc => by simp [view, boot] at hc }
  thread p := by
    by_cases hp : p = initproc
    · subst hp
      refine .back ?_ ?_ ?_ ?_ ?_ ?_ <;> simp [boot]
    · refine .dead ?_ ?_ ?_ <;> simp [boot, hp, Proc.zero]
  child_used p np h := by
    by_cases hp : p = initproc <;> simp [boot, hp, Frame.child] at h
  child_inj p q np h _ := by
    by_cases hp : p = initproc <;> simp [boot, hp, Frame.child] at h
  counted c := ⟨∅, by simp [boot], by simp [boot, holder]⟩

theorem Inv.of_current (h : Inv s) (hcur : current s c = some (p, k)) :
    (view s).phase c = .running p ∧ s.lock p = (if k.locked then some c else none) ∧
      (s.proc p).state = (if k = .exitRelease then .zombie else .running) ∧
      ∀ l, k.needs = some l → s.lk l = some c := by
  obtain ⟨hhand, hmode, hframe⟩ := current_eq_some hcur
  have hphase : (view s).phase c = .running p := by simp [view, phase, hmode]
  cases h.thread p with
  | code c' k' hmode' hframe' hlock hstate hneeds =>
    obtain rfl : k = k' := by simpa [hframe] using hframe'
    obtain ⟨-, hcur, -⟩ := (h.handover.cpu c).of_running hphase
    obtain ⟨-, hcur', -⟩ := (h.handover.cpu c').of_running (p := p) (by simp [view, phase, hmode'])
    obtain rfl := h.handover.current_inj c c' p hcur hcur'
    exact ⟨hphase, hlock, hstate, fun l hl => (hneeds l hl).1⟩
  | back hcode => exact absurd hframe (hcode k)
  | dead hframe' => simp [hframe] at hframe'

theorem Inv.used_of_child (h : Inv s) (hcur : current s c = some (p, k)) (hk : k.child = some q) :
    (s.proc q).state = .used :=
  h.child_used p q (by rwa [(current_eq_some hcur).2.2])

theorem Inv.running_of_back {f : Frame} (h : Inv s) (hmode : (s.cpu c).mode = .exec p)
    (hframe : s.frame p = f) (hf : ∀ k, f ≠ .code k) : (s.proc p).state = .running := by
  cases h.thread p with
  | code c' k hmode' hframe' hlock hstate hneeds => exact absurd (hframe ▸ hframe') (hf k)
  | back hcode hdead hstate hused hyield hexec => exact (hexec c hmode).2
  | dead hframe' hstate hexec => exact absurd hmode (hexec c)

attribute [local simp] view status phase Handover.SameThread Handover.SameCpu setProc setCpu
  acquireProc releaseProc switchOut dispatch

/-- `wakeup` and `kill` change no state but that of a sleeping process. -/
theorem move_of_wakeProc {P : Proc} (hlock : s.lock q = none)
    (hP : P.state = (s.proc q).state ∨ (s.proc q).state = .sleeping ∧ P.state = .runnable) :
    Handover.Move SwtchRegs SwtchSp (view s) (view (wakeProc s q P)) := by
  rw [view_wakeProc]
  rcases hP with hP | ⟨hq, hP⟩
  · rw [hP]
    refine .quiet (fun _ => ⟨rfl, rfl, rfl, rfl⟩) fun r => ?_
    by_cases hr : r = q <;> simp [hr]
  · refine .wake q (fun _ => ⟨rfl, rfl, rfl, rfl⟩) (fun r hr => ?_) hlock ?_ ?_ hlock rfl
    · simp [hr]
    · simp [hq]
    · simp [hP]

theorem wakeup_state_cases (chan : Option Chan) (P : Proc) :
    (P.wakeup chan).state = P.state ∨
      P.state = .sleeping ∧ (P.wakeup chan).state = .runnable := by
  unfold Proc.wakeup
  split_ifs with h
  · exact .inr ⟨h.1, rfl⟩
  · exact .inl rfl

theorem kill_state_cases (P : Proc) :
    P.kill.state = P.state ∨ P.state = .sleeping ∧ P.kill.state = .runnable := by
  by_cases h : P.state = .sleeping <;> simp [Proc.kill, h]

theorem move_of_eq {u : Handover.State κ Slot} (hu : u = view s) :
    Handover.Move SwtchRegs SwtchSp (view s) u := by
  rw [hu]
  exact .quiet (fun _ => ⟨rfl, rfl, rfl, rfl⟩) fun _ => ⟨rfl, rfl, rfl⟩

variable [DecidableEq κ]

theorem view_setCpu {x : Cpu} (hmode : x.mode = (s.cpu c).mode) (hproc : x.proc = (s.cpu c).proc)
    (hp : x.p = (s.cpu c).p) (hstack : x.stack = (s.cpu c).stack) :
    view (s.setCpu c x) = view s := by
  simp only [view, setCpu, Handover.State.mk.injEq, true_and]
  refine ⟨?_, ?_, ?_, ?_⟩ <;> funext d <;> by_cases hd : d = c <;>
    simp [hd, hmode, hproc, hp, hstack]

@[simp] theorem view_setHandler {h : Option Handler} : view (setHandler s c h) = view s :=
  view_setCpu rfl rfl rfl rfl

@[simp] theorem view_acquire : view (s.acquire c l) = view s :=
  view_setCpu (s := s) (x := { s.cpu c with noff := (s.cpu c).noff + 1 }) rfl rfl rfl rfl

@[simp] theorem view_release : view (s.release c l) = view s :=
  view_setCpu (s := s) (x := { s.cpu c with noff := (s.cpu c).noff - 1 }) rfl rfl rfl rfl

theorem view_acquireProc : view (s.acquireProc c p) =
    { view s with lock := Function.update (view s).lock p (some c) } := by
  rw [← view_setCpu (s := s) (x := { s.cpu c with noff := (s.cpu c).noff + 1 }) rfl rfl rfl rfl]
  rfl

theorem view_releaseProc : view (s.releaseProc c p) =
    { view s with lock := Function.update (view s).lock p none } := by
  rw [← view_setCpu (s := s) (x := { s.cpu c with noff := (s.cpu c).noff - 1 }) rfl rfl rfl rfl]
  rfl

theorem move_of_switchOut {u : State κ} {f : Frame} (hphase : (view s).phase c = .running p)
    (hcpu : ∀ d, Handover.SameCpu (view s) (view u) d)
    (hthr : ∀ r ≠ p, Handover.SameThread (view s) (view u) r)
    (hstop : (status (u.proc p).state).Stopped) (hlock : u.lock p = some c) :
    Handover.Move SwtchRegs SwtchSp (view s) (view (u.switchOut c p f)) := by
  obtain ⟨h1, h2, h3, h4⟩ := hcpu c
  refine .switchOut c p (fun d hd => ?_) (fun r hr => ?_) hphase ?_ ?_ ?_ ?_ hstop hlock ?_
  · simpa [hd] using hcpu d
  · simpa [hr] using hthr r hr
  · simp
  · simpa using h2
  · simpa using h3
  · simpa using h4
  · simp

theorem move_of_swtchIn {k : ℕ} (hmode : (s.cpu c).mode = .enter k) (hk : k ≤ 2 * SwtchRegs) :
    Handover.Move SwtchRegs SwtchSp (view s) (view (swtchIn s c k)) := by
  have hphase : (view s).phase c = .entering k := by simp [hmode]
  rcases lt_or_ge k SwtchRegs with h1 | h1
  · rw [swtchIn, if_pos h1]
    refine .enter c k (fun d hd => ?_) (fun _ => ⟨rfl, rfl, rfl⟩) hphase ?_ (by omega) ?_ ?_ ?_
    · simp [hd]
    · simp
    · simp
    · simp
    · rw [if_neg (by omega)]
      simp
  rcases hk.lt_or_eq with h2 | rfl
  · rw [swtchIn, if_neg (by omega), if_pos h2]
    refine .enter c k (fun d hd => ?_) (fun _ => ⟨rfl, rfl, rfl⟩) hphase ?_ h2 ?_ ?_ ?_
    · simp [hd]
    · simp
    · simp
    · simp
    · simp
  · rw [swtchIn, if_neg (by omega), if_neg (by omega)]
    refine .resume c (fun d hd => ?_) (fun _ => ⟨rfl, rfl, rfl⟩) hphase ?_ ?_ ?_ ?_
    · simp [hd]
    · simp
    · simp
    · simp
    · simp

theorem move_of_swtchOut {k : ℕ} (hmode : (s.cpu c).mode = .leave p k) (hk : k ≤ 2 * SwtchRegs) :
    Handover.Move SwtchRegs SwtchSp (view s) (view (swtchOut s c p k)) := by
  have hphase : (view s).phase c = .leaving p k := by simp [hmode]
  rcases lt_or_ge k SwtchRegs with h1 | h1
  · rw [swtchOut, if_pos h1]
    refine .leave c p k (fun d hd => ?_) (fun r hr => ?_) hphase ?_ (by omega) ?_ ?_ ?_ rfl rfl ?_
    · simp [hd]
    · simp [hr]
    · simp
    · simp
    · simp
    · rw [if_neg (by omega)]
      simp
    · simp [h1]
  rcases hk.lt_or_eq with h2 | rfl
  · rw [swtchOut, if_neg (by omega), if_pos h2]
    refine .leave c p k (fun d hd => ?_)
      (fun r hr => ⟨rfl, rfl, rfl⟩) hphase ?_ h2 ?_ ?_ ?_ rfl rfl ?_
    · simp [hd]
    · simp
    · simp
    · simp
    · simp
    · simp [h1.not_gt]
  · rw [swtchOut, if_neg (by omega), if_neg (by omega)]
    refine .arrive c p (fun d hd => ?_) (fun _ => ⟨rfl, rfl, rfl⟩) hphase ?_ ?_ ?_ ?_
    · simp [hd]
    · simp
    · simp
    · simp
    · simp

theorem move_of_own {T : List Slot} (h : Inv s) (hcur : current s c = some (p, k))
    (ho : Own s c p k T t) : Handover.Move SwtchRegs SwtchSp (view s) (view t) := by
  obtain ⟨hphase, -, hstate, -⟩ := h.of_current hcur
  cases ho with
  | goto | wakeSelf => exact move_of_eq view_goto
  | ret => exact move_of_eq view_ret
  | acquire => exact move_of_eq (view_goto.trans view_acquire)
  | release => exact move_of_eq view_release
  | callSleep => exact move_of_eq rfl
  | wake hk hk' hneeds hscan hscan' hlock =>
    rw [view_goto]
    exact move_of_wakeProc hlock (wakeup_state_cases _ _)
  | kill hk hlock =>
    rw [view_ret]
    exact move_of_wakeProc hlock (kill_state_cases _)
  | @forkAlloc np _ hk hlock hnp =>
    rw [view_goto, view_acquireProc, view_setProc]
    refine .alloc np (fun _ => ⟨rfl, rfl, rfl, rfl⟩) (fun r hr => ?_) ?_ ?_ ?_
    · simp [hr]
    · simp [hnp]
    · simp [Proc.allocproc]
    · simp
  | @forkFail np hlock =>
    rw [view_ret, view_releaseProc, view_setProc]
    refine .discard np (fun _ => ⟨rfl, rfl, rfl, rfl⟩) (fun r hr => ?_) (.inl ?_) ?_ ?_
    · simp [hr]
    · simp [h.used_of_child hcur rfl]
    · simp [Proc.freeproc]
    · simp
  | @forkReady np hlock =>
    have hnp := h.used_of_child hcur rfl
    rw [forkReady, view_goto, view_releaseProc, view_goto]
    refine .prepare np (fun _ => ⟨rfl, rfl, rfl, rfl⟩) (fun r hr => ?_) ?_ ?_ ?_ ?_
    · simp [hr]
    · simp [hnp]
    · simp [hnp]
    · simp
    · simp
  | forkParent =>
    refine move_of_eq ?_
    rw [view_goto, view_release, view_setProc_of_state, view_acquire]
    rfl
  | @forkRunnable np pid hlock =>
    rw [view_ret, view_setProc]
    refine .start np (fun _ => ⟨rfl, rfl, rfl, rfl⟩) (fun r hr => ?_) hlock ?_ ?_ hlock rfl
    · simp [hr]
    · simp [h.used_of_child hcur rfl]
    · simp
  | reparent => exact move_of_eq (view_goto.trans (view_setProc_of_state rfl))
  | exitZombie hk hlock =>
    rw [view_goto, view_setProc, view_acquireProc]
    refine .own c p (fun _ => ⟨rfl, rfl, rfl, rfl⟩) (fun r hr => ?_) hphase (.inr ⟨?_, ?_⟩)
    · simp [hr]
    · simp [Handover.Status.Stopped]
    · simp
  | exitRelease hheld hlock hnoff =>
    refine move_of_switchOut hphase (view_release (s := s) ▸ fun _ => ⟨rfl, rfl, rfl, rfl⟩)
      (view_release (s := s) ▸ fun _ _ => ⟨rfl, rfl, rfl⟩) ?_ hlock
    simp only [if_true] at hstate
    simp [release, hstate, Handover.Status.Stopped]
  | waitReturn => exact move_of_eq (view_ret.trans view_release)
  | @reap q _ v hk hheld hlock hq =>
    rw [view_ret, view_release, view_setProc]
    refine .discard q (fun _ => ⟨rfl, rfl, rfl, rfl⟩) (fun r hr => ?_) (.inr ⟨?_, hlock⟩) ?_ hlock
    · simp [hr]
    · simp [hq]
    · simp [Proc.freeproc]
  | sleepEnter hlock =>
    rw [view_goto, view_acquireProc]
    refine .own c p (fun _ => ⟨rfl, rfl, rfl, rfl⟩) (fun r hr => ?_) hphase (.inl ⟨?_, .inr ?_⟩)
    · simp [hr]
    · simpa using congrArg status hstate
    · simp
  | sleepRelease => exact move_of_eq (view_goto.trans view_release)
  | sleepSet hlock hnoff =>
    refine move_of_switchOut hphase (fun d => ?_) (fun r hr => ?_) ?_ hlock
    · rw [view_setProc]
      exact ⟨rfl, rfl, rfl, rfl⟩
    · rw [view_setProc]
      simp [hr]
    · simp [Proc.sleep, Handover.Status.Stopped]
  | yield hlock hnoff =>
    refine move_of_switchOut hphase (fun d => ?_) (fun r hr => ?_) ?_ ?_
    · rw [view_setProc, view_acquireProc]
      exact ⟨rfl, rfl, rfl, rfl⟩
    · rw [view_setProc, view_acquireProc]
      simp [hr]
    · simp [Handover.Status.Stopped]
    · simp

theorem move_of_switch {T : List Slot} (h : Inv s) (hs : Switch s c T t) :
    Handover.Move SwtchRegs SwtchSp (view s) (view t) := by
  cases hs with
  | @back p P f k hmode hframe hlock hf =>
    have hrun := h.running_of_back hmode hframe (by rcases hf with hf | ⟨_, hf⟩ | hf <;> simp [hf])
    have hP : P.state = (s.proc p).state := by
      rcases hf with ⟨-, rfl⟩ | ⟨_, -, -, rfl⟩ | ⟨-, -, rfl⟩ <;> rfl
    rw [view_goto, view_releaseProc, view_setProc_of_state hP]
    refine .own c p (fun _ => ⟨rfl, rfl, rfl, rfl⟩) (fun r hr => ?_) ?_ (.inl ⟨?_, .inl ?_⟩)
    · simp [hr]
    · simp [hmode]
    · simp [hrun]
    · simp
  | look hmode =>
    refine .look c (fun d hd => ?_) (fun _ => ⟨rfl, rfl, rfl⟩) ?_ ?_ ?_ ?_
    · simp [hd]
    · simp [hmode]
    · simp [hmode]
    · simp
    · simp
  | dispatch hmode hlock hp =>
    refine .dispatch c (s.cpu c).p (fun d hd => ?_)
      (fun r hr => ?_) ?_ ?_ ?_ ?_ ?_ hlock ?_ ?_ ?_ rfl
    · simp [hd]
    · simp [hr]
    · simp [hmode]
    · simp
    · simp
    · simp
    · simp
    · simp [hp]
    · simp
    · simp
  | @swtchIn k hmode =>
    have hphase : (view s).phase c = .entering k := by simp [hmode]
    exact move_of_swtchIn hmode ((h.handover.cpu c).of_entering hphase).2.2.2.2.1
  | @swtchOut p k hmode =>
    have hphase : (view s).phase c = .leaving p k := by simp [hmode]
    exact move_of_swtchOut hmode ((h.handover.cpu c).of_leaving hphase).2.2.2.2.2.1
  | schedulerBack hmode hlock =>
    refine .park c (fun d hd => ?_) (fun r hr => ?_) ?_ ?_ ?_ ?_ rfl ?_ rfl
    · simp [hd]
    · change r ≠ (s.cpu c).p at hr
      simp [hr]
    · simp [hmode]
    · simp
    · simp
    · simp
    · simp

theorem move_of_handles {T : List Slot} (hh : Handles s c T t) :
    Handover.Move SwtchRegs SwtchSp (view s) (view t) := by
  cases hh with
  | interrupt => exact move_of_eq (view_setHandler.trans view_acquire)
  | next => exact move_of_eq view_setHandler
  | wake hhand hh' hlock =>
    rw [view_setHandler]
    exact move_of_wakeProc hlock (wakeup_state_cases _ _)
  | done => exact move_of_eq (view_setHandler.trans view_release)

theorem move_of_effect {T : List Slot} (h : Inv s) (he : Effect s c T t) :
    Handover.Move SwtchRegs SwtchSp (view s) (view t) := by
  cases he with
  | own hcur ho => exact move_of_own h hcur ho
  | switch hhand hs => exact move_of_switch h hs
  | handles hh => exact move_of_handles hh

end Xv6.Sched
