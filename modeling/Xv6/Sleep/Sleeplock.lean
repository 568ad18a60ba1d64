import Xv6.Lib.Monitor

/-!
# Sleep-locks

`acquiresleep`, `releasesleep` and `holdingsleep` of `sleeplock.c` for one sleep-lock, as
programs for an object behind the spin lock `lk->lk`.
-/

namespace Xv6

structure Sleeplock where
  locked : ℕ
  pid : ℤ
deriving DecidableEq

namespace Sleeplock

open Lib Monitor

def initsleeplock : Sleeplock := ⟨0, 0⟩

/-- Before which statement a process is.  In `user`, `holds` tells whether it has returned
from `acquiresleep` and not called `releasesleep`, and `answer` what `holdingsleep` has
returned last since. -/
inductive Label
  | user (holds : Bool) (answer : Option Bool)
  | acquiresleep
  | whileLocked
  | sleep
  | taken
  | releasesleep
  | clear
  | wakeup
  | cleared
  | holdingsleep (holds : Bool)
  | ask (holds : Bool)
  | answer (holds r : Bool)
deriving DecidableEq

/-- The value that `holdingsleep` returns to the process with the given pid. -/
def isHeldBy (lk : Sleeplock) (pid : ℤ) : Bool := lk.locked ≠ 0 ∧ lk.pid = pid

variable {n : ℕ} (pid : Fin n → ℤ)

def act (p : Fin n) : Label → Act Sleeplock Unit Label
  | .user _ _ => .outside
  | .acquiresleep => .acquire .whileLocked
  | .whileLocked => .step fun _ lk => if lk.locked ≠ 0 then (lk, .sleep) else (⟨1, pid p⟩, .taken)
  | .sleep => .sleep .whileLocked
  | .taken => .release (.user true none)
  | .releasesleep => .acquire .clear
  | .clear => .step fun _ _ => (⟨0, 0⟩, .wakeup)
  | .wakeup => .wakeup .cleared
  | .cleared => .release (.user false none)
  | .holdingsleep b => .acquire (.ask b)
  | .ask b => .step fun _ lk => (lk, .answer b (lk.isHeldBy (pid p)))
  | .answer b r => .release (.user b (some r))

/-- `releasesleep` is called by the holder, and `acquiresleep` by others. -/
def calls : Label → Label → Bool
  | .user false _, .acquiresleep | .user true _, .releasesleep => true
  | .user b _, .holdingsleep c => b = c
  | _, _ => false

/-- Sleep-locks are not used by interrupt handlers. -/
def program : Program Sleeplock Unit Label Empty n where
  act
    | .proc p => act pid p
    | .handler h => h.elim
  calls := calls
  entry h := h.elim

def start : State Sleeplock Label Empty n where
  obj := initsleeplock
  lk := none
  phase _ := .run (.user false none)
  me h := h.elim

namespace Label

def Inner : Label → Prop
  | whileLocked | sleep | taken | clear | wakeup | cleared | ask _ | answer _ _ => True
  | user _ _ | acquiresleep | releasesleep | holdingsleep _ => False

/-- The process has set `lk->locked` and not cleared it. -/
def holds : Label → Bool
  | user b _ | holdingsleep b | ask b | answer b _ => b
  | taken | releasesleep | clear => true
  | acquiresleep | whileLocked | sleep | wakeup | cleared => false

/-- Between the return from `acquiresleep` and the call of `releasesleep`. -/
def between : Label → Bool
  | user b _ | holdingsleep b | ask b | answer b _ => b
  | _ => false

/-- `holdingsleep` has told the truth. -/
def Honest : Label → Prop
  | user b (some r) | answer b r => r = b
  | _ => True

theorem holds_of_between {l : Label} (h : l.between = true) : l.holds = true := by
  cases l <;> first | exact h | cases h

end Label

section outline

variable {pid} {p q : Fin n} {l m : Label} {lk : Sleeplock}

/-- What a process knows for itself: whether the lock has its pid. -/
def Own (pid : Fin n → ℤ) : Agent n Empty → Label → Sleeplock → Prop
  | .proc p, l, lk => (l.holds = true ↔ lk.isHeldBy (pid p) = true) ∧ l.Honest
  | .handler _, _, _ => True

theorem own_of_holds (h : Own pid (.proc p) l lk) (hholds : m.holds = l.holds) (hm : m.Honest) :
    Own pid (.proc p) m lk :=
  ⟨hholds ▸ h.1, hm⟩

theorem own_of_ne {new : Sleeplock} (hold : lk.isHeldBy (pid q) = false)
    (hnew : new.isHeldBy (pid q) = false) (h : Own pid (.proc q) m lk) : Own pid (.proc q) m new :=
  ⟨by rw [h.1, hold, hnew], h.2⟩

theorem isHeldBy_of_unlocked (h : lk.locked = 0) (i : ℤ) : lk.isHeldBy i = false := by
  simp [isHeldBy, h]

theorem isHeldBy_of_ne (hpid : Function.Injective pid) (hne : q ≠ p)
    (h : lk.isHeldBy (pid p) = true) : lk.isHeldBy (pid q) = false := by
  have hp : lk.pid = pid p := (of_decide_eq_true h).2
  have hq : lk.pid ≠ pid q := fun heq => hne (hpid (heq.symm.trans hp))
  simp [isHeldBy, hq]

theorem calls_user {b : Bool} {r : Option Bool} (h : calls (.user b r) m = true) :
    ¬ m.Inner ∧ m.holds = b ∧ m.Honest := by
  cases b <;> cases m <;> simp_all [calls, Label.Inner, Label.holds, Label.Honest]

/-- The statements behind the tests, one after the other. -/
theorem step_spec (hpid : Function.Injective pid) {f : Unit → Sleeplock → Sleeplock × Label}
    (x : Unit) (hact : act pid p l = .step f) (hown : Own pid (.proc p) l lk) :
    Label.Inner (f x lk).2 ∧ Own pid (.proc p) (f x lk).2 (f x lk).1 ∧
    ((f x lk).2 = .sleep → (f x lk).1.locked ≠ 0) ∧
    (∀ b m, b ≠ .proc p → Own pid b m lk → Own pid b m (f x lk).1) ∧
    (lk.locked ≠ 0 → (f x lk).1.locked = 0 → (f x lk).2 = .wakeup) := by
  cases l with
  | whileLocked =>
    obtain rfl := Act.step.inj hact
    by_cases hlocked : lk.locked ≠ 0
    · simp only [if_pos hlocked]
      exact ⟨trivial, own_of_holds hown rfl trivial, fun _ => hlocked, fun _ _ _ h => h,
        fun _ h => absurd h hlocked⟩
    · simp only [if_neg hlocked]
      rw [not_not] at hlocked
      refine ⟨trivial, ⟨by simp [Label.holds, isHeldBy], trivial⟩, (fun h => by cases h),
        fun b m hb h => ?_, fun h => absurd hlocked h⟩
      cases b with
      | handler k => trivial
      | proc q =>
        have hne : q ≠ p := fun heq => hb (congrArg _ heq)
        refine own_of_ne (isHeldBy_of_unlocked hlocked _) (isHeldBy_of_ne hpid hne ?_) h
        simp [isHeldBy]
  | clear =>
    obtain rfl := Act.step.inj hact
    have hmine : lk.isHeldBy (pid p) = true := hown.1.mp rfl
    refine ⟨trivial, ⟨by simp [Label.holds, isHeldBy], trivial⟩, (fun h => by cases h),
      fun b m hb h => ?_, fun _ _ => rfl⟩
    cases b with
    | handler k => trivial
    | proc q =>
      have hne : q ≠ p := fun heq => hb (congrArg _ heq)
      exact own_of_ne (isHeldBy_of_ne hpid hne hmine) (isHeldBy_of_unlocked rfl _) h
  | ask b =>
    obtain rfl := Act.step.inj hact
    refine ⟨trivial, ⟨hown.1, ?_⟩, (fun h => by cases h), fun _ _ _ h => h, fun h h' => absurd h' h⟩
    exact Bool.eq_iff_iff.mpr hown.1.symm
  | _ => cases hact

/-- The lock is blocked while `locked` is set. -/
def outline (hpid : Function.Injective pid) : Outline (program pid) fun lk => lk.locked ≠ 0 where
  Inner := Label.Inner
  Own := Own pid
  Here _ l lk := l = .sleep → lk.locked ≠ 0
  Good _ := True
  Owes l := l = .wakeup
  outside a l hact := by
    obtain ⟨p⟩ | ⟨k⟩ := a
    · cases l with
      | user b r =>
        refine ⟨id, fun m hm => ?_⟩
        obtain ⟨hm, hholds, hhonest⟩ := calls_user hm
        exact ⟨hm, fun lk h => own_of_holds h hholds hhonest⟩
      | _ => cases hact
    · exact k.elim
  acquire a l m hact := by
    obtain ⟨p⟩ | ⟨k⟩ := a
    · cases l with
      | acquiresleep | releasesleep | holdingsleep b =>
        obtain rfl := Act.acquire.inj hact
        exact ⟨id, trivial, fun lk h _ => ⟨own_of_holds h rfl trivial, (fun h => by cases h)⟩⟩
      | _ => cases hact
    · exact k.elim
  step a l f hact := by
    obtain ⟨p⟩ | ⟨k⟩ := a
    · refine ⟨?_, fun x lk hown _ => ?_⟩
      · cases l with
        | whileLocked | clear | ask b => trivial
        | _ => cases hact
      · obtain ⟨hin, hown', hhere, hkeep, howes⟩ := step_spec hpid x hact hown
        refine ⟨hin, hown', hhere, hkeep, ?_⟩
        rintro (rfl | ⟨hlocked, hfree⟩)
        · cases hact
        · exact howes hlocked (not_not.mp hfree)
    · exact k.elim
  sleep a l m hact := by
    obtain ⟨p⟩ | ⟨k⟩ := a
    · cases l with
      | sleep =>
        obtain rfl := Act.sleep.inj hact
        exact ⟨trivial, trivial, by simp, fun lk h => ⟨h rfl, trivial⟩,
          fun lk h => own_of_holds h rfl trivial, (fun lk _ _ h => by cases h)⟩
      | _ => cases hact
    · exact k.elim
  wakeup a l m hact := by
    obtain ⟨p⟩ | ⟨k⟩ := a
    · cases l with
      | wakeup =>
        obtain rfl := Act.wakeup.inj hact
        exact ⟨trivial, trivial, fun lk h _ => ⟨own_of_holds h rfl trivial, (fun h => by cases h)⟩⟩
      | _ => cases hact
    · exact k.elim
  release a l m hact := by
    obtain ⟨p⟩ | ⟨k⟩ := a
    · cases l with
      | taken | cleared | answer b r =>
        obtain rfl := Act.release.inj hact
        exact ⟨trivial, id, by simp, fun lk h _ => ⟨trivial, own_of_holds h rfl h.2⟩⟩
      | _ => cases hact
    · exact k.elim
  entry h := h.elim

theorem inv_start (hpid : Function.Injective pid) : (outline hpid).Inv start where
  lock a := iff_of_false (by simp [start]) id
  own a := by
    cases a with
    | proc p => exact ⟨by simp [start, Phase.label, Label.holds, initsleeplock, isHeldBy], trivial⟩
    | handler h => trivial
  returns _ := trivial
  good _ := trivial
  knows a ha := by cases ha
  wakes p hp := hp.elim
  me h := h.elim

end outline

/-- In every state that processes with different pids reach: at most one of them is
between its return from `acquiresleep` and its call of `releasesleep`; `holdingsleep` has
told every process whether it is; the lock has the pid of that process while the spin lock
is free; and nobody sleeps on a lock that is free. -/
theorem sleeplock_excludes (hpid : Function.Injective pid) {tr : List (Event Unit Label Empty n)}
    {s : State Sleeplock Label Empty n} (hrun : Run (program pid).step start tr s) :
    (∀ p q, (s.phase (.proc p)).label.between = true → (s.phase (.proc q)).label.between = true →
      p = q) ∧
    (∀ p b r, s.phase (.proc p) = .run (.user b (some r)) → r = b) ∧
    (∀ p, s.obj.isHeldBy (pid p) = (s.phase (.proc p)).label.holds) ∧
    (s.lk = none → s.obj.locked = 0 → ∀ p l, s.phase (.proc p) ≠ .asleep l) := by
  have hinv := Outline.inv_of_run (inv_start hpid) hrun
  have hheld (p : Fin n) : s.obj.isHeldBy (pid p) = (s.phase (.proc p)).label.holds :=
    Bool.eq_iff_iff.mpr (hinv.own (.proc p)).1.symm
  refine ⟨fun p q hp hq => ?_, fun p b r hp => ?_, hheld, fun hfree hlocked p l => ?_⟩
  · have hp' := hheld p
    have hq' := hheld q
    rw [Label.holds_of_between hp] at hp'
    rw [Label.holds_of_between hq] at hq'
    by_contra hne
    rw [isHeldBy_of_ne hpid hne hq'] at hp'
    cases hp'
  · have := (hinv.own (.proc p)).2
    rwa [hp] at this
  · exact hinv.not_asleep hfree (not_not_intro hlocked) p l

/-- Process 1 sleeps while process 0 has the lock, and gets it afterwards. -/
def handover {n : ℕ} [NeZero n] : List (Event Unit Label Empty n) :=
  [.call 0 .acquiresleep, .advance (.proc 0) (), .call 1 .acquiresleep, .advance (.proc 0) (),
    .advance (.proc 0) (), .advance (.proc 1) (), .advance (.proc 1) (), .advance (.proc 1) (),
    .advance (.proc 1) (), .advance (.proc 1) (), .call 0 .releasesleep, .advance (.proc 0) (),
    .advance (.proc 0) (), .advance (.proc 0) (), .advance (.proc 0) (), .advance (.proc 0) (),
    .advance (.proc 0) (), .advance (.proc 0) (), .advance (.proc 1) (), .advance (.proc 1) (),
    .advance (.proc 1) (), .advance (.proc 1) ()]

/-- At the end process 1 has the lock, and only process 1. -/
theorem sleeplock_excludes_handover : ∃ s : State Sleeplock Label Empty 2,
    Run (program fun p : Fin 2 => (p : ℤ) + 3).step start handover s ∧
    (s.phase (.proc 1)).label.between = true ∧ s.obj.isHeldBy 4 = true ∧
    ∀ q, (s.phase (.proc q)).label.between = true → q = 1 := by
  have hpid : Function.Injective fun p : Fin 2 => (p : ℤ) + 3 := by decide
  obtain ⟨s, hrun, hs⟩ := Run.exists_of_any
    (P := fun s => s.phase (.proc 1) = .run (.user true none))
    (by decide +kernel : (handover.foldlM (program fun p : Fin 2 => (p : ℤ) + 3).step start).any _)
  have hlabel : (s.phase (.proc 1)).label = .user true none := by
    rw [of_decide_eq_true hs]
    rfl
  obtain ⟨hunique, -, hheld, -⟩ := sleeplock_excludes _ hpid hrun
  have hbetween : (s.phase (.proc 1)).label.between = true := by
    rw [hlabel]
    rfl
  have hone := hheld 1
  rw [hlabel] at hone
  exact ⟨s, hrun, hbetween, hone, fun q hq => hunique q 1 hq hbetween⟩

end Sleeplock

end Xv6
