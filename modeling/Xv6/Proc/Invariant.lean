import Xv6.Proc.Machine

/-!
# The invariant of the process table

How program counters, process states, parent links and `wait_lock` fit
together, and the kinds of change that keep it so.
-/

namespace Xv6.Proc

open Lib

namespace Pc

/-- Between `acquire(&wait_lock)` and its release. -/
def holdsWaitLock : Pc → Bool
  | .exitReparent _ _ | .exitReparentWakeup _ _ _ | .exitWakeup _ _ _ | .exitZombie _
  | .waitScan _ _ _ | .waitSleep _ => true
  | .user | .asleep | .forkScan _ | .forkParent _ _ | .forkRunnable _ _ | .exitAcquire _ | .dead
  | .waitAcquire _ | .waitAsleep _ | .killScan _ _ => false

def exits : Pc → Bool
  | .exitAcquire _ | .exitReparent _ _ | .exitReparentWakeup _ _ _ | .exitWakeup _ _ _
  | .exitZombie _ => true
  | .user | .asleep | .forkScan _ | .forkParent _ _ | .forkRunnable _ _ | .dead
  | .waitAcquire _ | .waitAsleep _ | .killScan _ _ | .waitScan _ _ _ | .waitSleep _ => false

/-- The child that `fork` has allocated and not started yet. -/
def child : Pc → Option Slot
  | .forkParent np _ | .forkRunnable np _ => some np
  | _ => none

/-- How many slots `reparent` has passed. -/
def reparented : Pc → ℕ
  | .exitReparent _ i => i
  | .exitReparentWakeup _ i _ => i + 1
  | .exitWakeup _ _ _ | .exitZombie _ => NPROC
  | _ => 0

/-- How many slots the `wakeup` of the parent has passed. -/
def woken : Pc → ℕ
  | .exitWakeup _ _ j => j
  | .exitZombie _ => NPROC
  | _ => 0

/-- How many slots `wait` has found not to be a zombie child. -/
def scanned : Pc → ℕ
  | .waitScan _ i _ => i
  | .waitSleep _ => NPROC
  | _ => 0

/-- In the `wakeup(initproc)` of `reparent`, which has not reached `initproc` yet. -/
def wakesInit : Pc → Bool
  | .exitReparentWakeup _ _ j => j ≤ initproc.idx
  | _ => false

variable {c : Pc} {n : ℕ}

theorem holds_of_reparented (h : n < c.reparented) : c.holdsWaitLock = true := by
  cases c <;> simp_all [reparented, holdsWaitLock]

theorem holds_of_woken (h : n < c.woken) : c.holdsWaitLock = true := by
  cases c <;> simp_all [woken, holdsWaitLock]

theorem holds_of_scanned (h : n < c.scanned) : c.holdsWaitLock = true := by
  cases c <;> simp_all [scanned, holdsWaitLock]

theorem holds_of_wakesInit (h : c.wakesInit = true) : c.holdsWaitLock = true := by
  cases c <;> simp_all [wakesInit, holdsWaitLock]

end Pc

def SleepsInWait (s : State) (p : Slot) : Prop :=
  (s.proc p).state = .sleeping ∧ ∃ addr, s.pc p = .waitAsleep addr

/-- Program counters, process states and `wait_lock` fit together. -/
structure Threads (s : State) : Prop where
  dead : ∀ p, s.pc p = .dead ↔ (s.proc p).state = .unused ∨ (s.proc p).state = .zombie
  used : ∀ p, (s.proc p).state = .used → s.pc p = .user
  holds : ∀ p, (s.pc p).holdsWaitLock = true ↔ s.waitLock = some p
  running : ∀ p, (s.pc p).holdsWaitLock = true → (s.proc p).state = .running
  child_used : ∀ p np, (s.pc p).child = some np → (s.proc np).state = .used
  child_inj : ∀ p q np, (s.pc p).child = some np → (s.pc q).child = some np → p = q
  asleep : ∀ p, SleepsInWait s p → (s.proc p).chan = some (.proc p)
  init_live : (s.proc initproc).Live
  init_stays : (s.pc initproc).exits = false

/-- Parents are alive, and `reparent` has passed on the children it has seen. -/
structure Parents (s : State) : Prop where
  init_parent : (s.proc initproc).parent = none
  parent_live : ∀ q x, (s.proc q).parent = some x → (s.proc x).Live ∧ x ≠ q
  parent_some : ∀ q, q ≠ initproc → (s.proc q).Live ∨ (s.proc q).state = .zombie →
    (s.proc q).parent ≠ none
  parent_none : ∀ q, (s.proc q).state = .unused → (s.proc q).parent = none
  child_parent : ∀ p np pid, s.pc p = .forkRunnable np pid → (s.proc np).parent = some p
  reparented : ∀ p q : Slot, q.idx < (s.pc p).reparented → (s.proc q).parent ≠ some p

/-- No wakeup of a parent is lost.  A zombie that `reparent` has just given to
a sleeping `initproc` is the one exception; its thread still holds `wait_lock`. -/
structure Wakeups (s : State) : Prop where
  wakes : ∀ p status parent j, s.pc p = .exitWakeup status parent j → (s.proc p).parent = parent
  woken : ∀ p x : Slot, (s.proc p).parent = some x → x.idx < (s.pc p).woken → ¬SleepsInWait s x
  scanned : ∀ p q : Slot, q.idx < (s.pc p).scanned → (s.proc q).parent = some p →
    (s.proc q).state ≠ .zombie
  missed : ∀ p q, SleepsInWait s p → (s.proc q).parent = some p → (s.proc q).state = .zombie →
    p = initproc ∧ ∃ x, (s.pc x).wakesInit = true

structure Inv (s : State) : Prop extends Threads s, Parents s, Wakeups s

variable {s s' : State} {p q np : Slot} {c : Pc} {l : Option Slot} {P : Proc}

theorem Inv.not_holds (h : Inv s) (hp : (s.pc p).holdsWaitLock = true) :
    s.waitLock = some p ∧ ∀ r, r ≠ p → (s.pc r).holdsWaitLock = false := by
  have hlock := (h.holds p).mp hp
  refine ⟨hlock, fun r hr => ?_⟩
  rw [Bool.eq_false_iff, ne_eq, h.holds r, hlock]
  simpa using hr.symm

theorem Inv.ne_initproc (h : Inv s) (hp : (s.pc p).exits = true) : p ≠ initproc := by
  rintro rfl
  simp [h.init_stays] at hp

attribute [local grind] Pc.holdsWaitLock Pc.child Pc.exits Pc.reparented Pc.woken Pc.scanned
  Pc.wakesInit Proc.Live SleepsInWait

attribute [local grind →] Pc.holds_of_reparented Pc.holds_of_woken Pc.holds_of_scanned
  Pc.holds_of_wakesInit

/-- While no `wakeup(initproc)` is due, nobody sleeps in `wait` beside a zombie child. -/
theorem Inv.heard (h : Inv s) (hidle : ∀ x, (s.pc x).wakesInit = false) (hp : SleepsInWait s p)
    (hq : (s.proc q).parent = some p) : (s.proc q).state ≠ .zombie := by
  intro hz
  obtain ⟨-, x, hx⟩ := h.missed p q hp hq hz
  simp [hidle x] at hx

/-- Changes that take no part in the calls under `wait_lock` and make no zombie, child or
sleeper. -/
theorem Wakeups.mono (h : Wakeups s)
    (hpc : ∀ r, s'.pc r = s.pc r ∨
      (s.pc r).holdsWaitLock = false ∧ (s'.pc r).holdsWaitLock = false)
    (hholder : ∀ r, (s.pc r).holdsWaitLock = true → (s'.proc r).parent = (s.proc r).parent)
    (hparent : ∀ r x, (s'.proc r).parent = some x → (s.proc r).parent = some x)
    (hzombie : ∀ r, (s'.proc r).state = .zombie → (s.proc r).state = .zombie)
    (hsleep : ∀ r, SleepsInWait s' r → SleepsInWait s r) : Wakeups s' where
  wakes r status parent j hr := by
    rcases hpc r with heq | ⟨-, hfree⟩
    · rw [heq] at hr
      rw [hholder r (by simp [hr, Pc.holdsWaitLock]), h.wakes r status parent j hr]
    · simp [hr, Pc.holdsWaitLock] at hfree
  woken r x hr hx hs := by
    rcases hpc r with heq | ⟨-, hfree⟩
    · exact h.woken r x (hparent r x hr) (heq ▸ hx) (hsleep x hs)
    · simp [Pc.holds_of_woken hx] at hfree
  scanned r q hr hq hz := by
    rcases hpc r with heq | ⟨-, hfree⟩
    · exact h.scanned r q (heq ▸ hr) (hparent q r hq) (hzombie q hz)
    · simp [Pc.holds_of_scanned hr] at hfree
  missed r q hr hq hz := by
    obtain ⟨rfl, x, hx⟩ := h.missed r q (hsleep r hr) (hparent q r hq) (hzombie q hz)
    refine ⟨rfl, x, ?_⟩
    rcases hpc x with heq | ⟨hfree, -⟩
    · rw [heq, hx]
    · simp [Pc.holds_of_wakesInit hx] at hfree

/-- Where nobody but `reparent` is at work under `wait_lock`, only the sleepers count. -/
theorem Wakeups.of_missed
    (hpc : ∀ r, (s'.pc r).holdsWaitLock = true →
      ∃ status i j, s'.pc r = .exitReparentWakeup status i j)
    (hmissed : ∀ p q, SleepsInWait s' p → (s'.proc q).parent = some p →
      (s'.proc q).state = .zombie → p = initproc ∧ ∃ x, (s'.pc x).wakesInit = true) :
    Wakeups s' where
  wakes r status parent j hr := by
    obtain ⟨_, _, _, hr'⟩ := hpc r (by simp [hr, Pc.holdsWaitLock])
    cases hr.symm.trans hr'
  woken r x _ hx := by
    obtain ⟨_, _, _, hr⟩ := hpc r (Pc.holds_of_woken hx)
    simp [hr, Pc.woken] at hx
  scanned r q hr := by
    obtain ⟨_, _, _, hr'⟩ := hpc r (Pc.holds_of_scanned hr)
    simp [hr', Pc.scanned] at hr
  missed := hmissed

/-- Steps that move no thread and no parent link: a started process may be
woken, scheduled, preempted or put to sleep outside `wait`. -/
theorem Inv.of_states (h : Inv s) (hpc : s'.pc = s.pc) (hlock : s'.waitLock = s.waitLock)
    (hparent : ∀ r, (s'.proc r).parent = (s.proc r).parent)
    (hstate : ∀ r, (s'.proc r).state = (s.proc r).state ∨ (s.proc r).Live ∧ (s'.proc r).Live ∧
      (s.waitLock = some r → (s'.proc r).state = .running))
    (hsleep : ∀ r, SleepsInWait s' r → SleepsInWait s r ∧ (s'.proc r).chan = (s.proc r).chan) :
    Inv s' := by
  have hlive : ∀ r, (s'.proc r).Live ↔ (s.proc r).Live := by grind -ring -linarith
  have hunused : ∀ r, (s'.proc r).state = .unused ↔
      (s.proc r).state = .unused := by grind -ring -linarith
  have hused : ∀ r, (s'.proc r).state = .used ↔ (s.proc r).state = .used := by grind -ring -linarith
  have hzombie : ∀ r, (s'.proc r).state = .zombie ↔
      (s.proc r).state = .zombie := by grind -ring -linarith
  have hasleep : ∀ r, SleepsInWait s' r → (s'.proc r).chan = some (.proc r) := by
    intro r hr
    rw [(hsleep r hr).2]
    exact h.asleep r (hsleep r hr).1
  refine ⟨⟨?_, ?_, ?_, ?_, ?_, ?_, hasleep, ?_, ?_⟩, ⟨?_, ?_, ?_, ?_, ?_, ?_⟩,
    h.toWakeups.mono (fun r => .inl (congrFun hpc r)) (fun r _ => hparent r)
      (fun r _ => hparent r ▸ id) (fun r => (hzombie r).mp) fun r hr => (hsleep r hr).1⟩ <;>
    simp only [hparent, hlive, hunused, hused, hzombie, hpc, hlock, ne_eq]
  · exact h.dead
  · exact h.used
  · exact h.holds
  · intro r hr
    have hrun := h.running r hr
    rcases hstate r with heq | ⟨-, -, hkeep⟩
    · rw [heq, hrun]
    · exact hkeep ((h.holds r).mp hr)
  · exact h.child_used
  · exact h.child_inj
  · exact h.init_live
  · exact h.init_stays
  · exact h.init_parent
  · exact h.parent_live
  · exact h.parent_some
  · exact h.parent_none
  · exact h.child_parent
  · exact h.reparented

/-- What a thread `p` that is not asleep must have done before it may go on to `c`. -/
structure Ready (s : State) (p : Slot) (c : Pc) : Prop where
  alive : s.pc p ≠ .dead ∧ c ≠ .dead
  started : (s.proc p).state ≠ .used
  running : c.holdsWaitLock = true → (s.proc p).state = .running
  child : c.child = none
  awake : ∀ addr, c ≠ .waitAsleep addr
  exits : c.exits = true → p ≠ initproc
  reparented : ∀ q : Slot, q.idx < c.reparented → (s.proc q).parent ≠ some p
  wakes : ∀ status parent j, c = .exitWakeup status parent j → (s.proc p).parent = parent
  woken : ∀ x : Slot, (s.proc p).parent = some x → x.idx < c.woken → ¬SleepsInWait s x
  scanned : ∀ q : Slot, q.idx < c.scanned → (s.proc q).parent = some p → (s.proc q).state ≠ .zombie
  init_woken : (s.pc p).wakesInit = true → ¬SleepsInWait s initproc

theorem child_ne_runnable (hc : c.child = none) (np : Slot) (pid : ℤ) :
    c ≠ .forkRunnable np pid := by
  rintro rfl
  simp [Pc.child] at hc

theorem Inv.thread (h : Inv s) (hc : Ready s p c) (hp : c.holdsWaitLock = true ↔ l = some p)
    (hl : ∀ q, q ≠ p → (l = some q ↔ s.waitLock = some q)) :
    Inv ((s.setWaitLock l).goto p c) := by
  have hpc : ∀ r, ((s.setWaitLock l).goto p c).pc r = if r = p then c else s.pc r := by simp
  have hsleep : ∀ r, SleepsInWait ((s.setWaitLock l).goto p c) r → SleepsInWait s r := by
    rintro r ⟨hr, addr, haddr⟩
    have := hc.awake addr
    exact ⟨hr, addr, by grind⟩
  refine ⟨⟨?_, ?_, ?_, ?_, ?_, ?_, ?_, h.init_live, ?_⟩, ⟨h.init_parent, h.parent_live,
    h.parent_some, h.parent_none, ?_, ?_⟩, ⟨?_, ?_, ?_, ?_⟩⟩
  · intro r
    have := h.dead r
    have := hc.alive
    grind -ring -linarith
  · intro r hr
    have := h.used r hr
    have := hc.started
    grind -ring -linarith
  · intro r
    have := h.holds r
    have := hl r
    grind -ring -linarith
  · intro r hr
    have := h.running r
    have := hc.running
    grind -ring -linarith
  · intro r np
    have := h.child_used r np
    have := hc.child
    grind -ring -linarith
  · intro r r' np
    have := h.child_inj r r' np
    have := hc.child
    grind -ring -linarith
  · intro r hr
    exact h.asleep r (hsleep r hr)
  · have := h.init_stays
    have := hc.exits
    grind -ring -linarith
  · intro r np pid
    have := h.child_parent r np pid
    have := child_ne_runnable hc.child np pid
    grind -ring -linarith
  · intro r q
    have := h.reparented r q
    have := hc.reparented q
    grind -ring -linarith
  · intro r status parent j
    have := h.wakes r status parent j
    have := hc.wakes status parent j
    grind -ring -linarith
  · intro r x hr hx hw
    have := h.woken r x hr
    have := hc.woken x
    have := hsleep x hw
    grind -ring -linarith
  · intro r q
    have := h.scanned r q
    have := hc.scanned q
    grind -ring -linarith
  · intro r q hr hq hz
    obtain ⟨rfl, x, hx⟩ := h.missed r q (hsleep r hr) hq hz
    have hne : x ≠ p := by
      rintro rfl
      exact hc.init_woken hx (hsleep _ hr)
    exact ⟨rfl, x, by simpa [hne] using hx⟩

theorem Inv.goto (h : Inv s) (hc : Ready s p c)
    (hp : c.holdsWaitLock = (s.pc p).holdsWaitLock) : Inv (s.goto p c) :=
  h.thread (l := s.waitLock) hc (hp ▸ h.holds p) fun _ _ => Iff.rfl

theorem Inv.idle (h : Inv s) (hp : (s.pc p).holdsWaitLock = true)
    (hw : (s.pc p).wakesInit = false) (x : Slot) : (s.pc x).wakesInit = false := by
  by_contra hx
  rw [Bool.not_eq_false] at hx
  have hxp : x = p := by
    by_contra hne
    have hholds := Pc.holds_of_wakesInit hx
    simp [(h.not_holds hp).2 x hne] at hholds
  simp [hxp, hw] at hx

theorem Inv.waitSleep (h : Inv s) {addr : ℕ} (hrun : (s.proc p).state = .running)
    (hpc : s.pc p = .waitSleep addr)
    (hpc' : ∀ r, s'.pc r = if r = p then .waitAsleep addr else s.pc r)
    (hstate : ∀ r, (s'.proc r).state = if r = p then .sleeping else (s.proc r).state)
    (hparent : ∀ r, (s'.proc r).parent = (s.proc r).parent)
    (hchan : ∀ r, (s'.proc r).chan = if r = p then some (.proc p) else (s.proc r).chan)
    (hlock' : s'.waitLock = none) : Inv s' := by
  have hholds : (s.pc p).holdsWaitLock = true := by simp [hpc, Pc.holdsWaitLock]
  have hother := h.not_holds hholds
  refine ⟨?_, ?_, .of_missed ?_ fun r q hr hq hz => ?_⟩
  · cases h.toThreads
    constructor <;> grind -ring -linarith
  · cases h.toParents
    constructor <;> grind -ring -linarith
  · grind -ring -linarith
  · have hscanned := h.scanned p q
    have hheard := h.heard (h.idle hholds (by simp [hpc, Pc.wakesInit])) (p := r) (q := q)
    grind -ring -linarith

section running

variable (h : Inv s) (hrun : (s.proc p).state = .running)
  (hchan : ∀ r, (s'.proc r).chan = (s.proc r).chan)
include h hrun hchan

theorem Inv.exitZombie {status : ℤ} (hpc : s.pc p = .exitZombie status)
    (hpc' : ∀ r, s'.pc r = if r = p then .dead else s.pc r)
    (hstate : ∀ r, (s'.proc r).state = if r = p then .zombie else (s.proc r).state)
    (hparent : ∀ r, (s'.proc r).parent = (s.proc r).parent)
    (hlock' : s'.waitLock = none) : Inv s' := by
  have hholds : (s.pc p).holdsWaitLock = true := by simp [hpc, Pc.holdsWaitLock]
  have hother := h.not_holds hholds
  have hinit := h.ne_initproc (p := p) (by simp [hpc, Pc.exits])
  have horphan : ∀ r, (s.proc r).parent ≠ some p := fun r =>
    h.reparented p r (by simpa [hpc, Pc.reparented] using r.lt)
  refine ⟨?_, ?_, .of_missed ?_ fun r q hr hq hz => ?_⟩
  · cases h.toThreads
    constructor <;> grind -ring -linarith
  · cases h.toParents
    constructor <;> grind -ring -linarith
  · grind -ring -linarith
  · have hwoken := h.woken p r
    have hheard := h.heard (h.idle hholds (by simp [hpc, Pc.wakesInit])) (p := r) (q := q)
    grind -ring -linarith

variable (hlock' : s'.waitLock = s.waitLock)
include hlock'

theorem Inv.forkAlloc (pid : ℤ) (hpc : s.pc p = .forkScan np.idx)
    (hnp : (s.proc np).state = .unused)
    (hpc' : ∀ r, s'.pc r = if r = p then .forkParent np pid else if r = np then .user else s.pc r)
    (hstate : ∀ r, (s'.proc r).state = if r = np then .used else (s.proc r).state)
    (hparent : ∀ r, (s'.proc r).parent = (s.proc r).parent) :
    Inv s' := by
  have hdead := (h.dead np).mpr (.inl hnp)
  have hne : np ≠ p := by grind -ring -linarith
  refine ⟨?_, ?_, h.toWakeups.mono ?_ ?_ ?_ ?_ ?_⟩
  · cases h.toThreads
    constructor <;> grind -ring -linarith
  · cases h.toParents
    constructor <;> grind -ring -linarith
  all_goals grind -ring -linarith

/-- The child gets its parent while nobody holds `wait_lock`. -/
theorem Inv.forkParent {pid : ℤ} (hpc : s.pc p = .forkParent np pid) (hfree : s.waitLock = none)
    (hpc' : ∀ r, s'.pc r = if r = p then .forkRunnable np pid else s.pc r)
    (hstate : ∀ r, (s'.proc r).state = (s.proc r).state)
    (hparent : ∀ r, (s'.proc r).parent = if r = np then some p else (s.proc r).parent) :
    Inv s' := by
  have hnp : (s.proc np).state = .used := h.child_used p np (by simp [hpc, Pc.child])
  have hother : ∀ r, (s.pc r).holdsWaitLock = false := by
    have := h.holds
    grind -ring -linarith
  have hne : np ≠ p := by grind -ring -linarith
  refine ⟨?_, ?_, .of_missed ?_ fun r q hr hq hz => ?_⟩
  · cases h.toThreads
    constructor <;> grind -ring -linarith
  · have := h.init_live
    have := h.child_inj
    cases h.toParents
    constructor <;> grind -ring -linarith
  · grind -ring -linarith
  · have hheard := h.heard (p := r) (q := q)
    grind -ring -linarith

theorem Inv.forkRunnable {pid : ℤ} (hpc : s.pc p = .forkRunnable np pid)
    (hpc' : ∀ r, s'.pc r = if r = p then .user else s.pc r)
    (hstate : ∀ r, (s'.proc r).state = if r = np then .runnable else (s.proc r).state)
    (hparent : ∀ r, (s'.proc r).parent = (s.proc r).parent) :
    Inv s' := by
  have hnp : (s.proc np).state = .used := h.child_used p np (by simp [hpc, Pc.child])
  have hpnp := h.child_parent p np pid hpc
  have hne : np ≠ p := by grind -ring -linarith
  refine ⟨?_, ?_, h.toWakeups.mono ?_ ?_ ?_ ?_ ?_⟩
  · cases h.toThreads
    constructor <;> grind -ring -linarith
  · cases h.toParents
    constructor <;> grind -ring -linarith
  all_goals grind -ring -linarith

/-- `reparent` passes a child on; if `initproc` now sleeps beside a zombie child, the `wakeup`
that follows will tell it. -/
theorem Inv.reparent {status : ℤ} (hpc : s.pc p = .exitReparent status q.idx)
    (hq : (s.proc q).parent = some p)
    (hpc' : ∀ r, s'.pc r = if r = p then .exitReparentWakeup status q.idx 0 else s.pc r)
    (hstate : ∀ r, (s'.proc r).state = (s.proc r).state)
    (hparent : ∀ r, (s'.proc r).parent = if r = q then some initproc else (s.proc r).parent) :
    Inv s' := by
  have hother := h.not_holds (p := p) (by simp [hpc, Pc.holdsWaitLock])
  have hinit := h.ne_initproc (p := p) (by simp [hpc, Pc.exits])
  have hne : q ≠ p := (h.parent_live q p hq).2.symm
  have hqinit : q ≠ initproc := by
    rintro rfl
    simp [h.init_parent] at hq
  refine ⟨?_, ?_, .of_missed ?_ fun r x hr hx hz => ?_⟩
  · cases h.toThreads
    constructor <;> grind -ring -linarith
  · have := h.init_live
    have := h.child_used
    cases h.toParents
    constructor <;> grind -ring -linarith
  · grind -ring -linarith
  · have hmissed := h.missed r x
    exact ⟨by grind -ring -linarith, p, by simp [hpc', Pc.wakesInit]⟩

end running

theorem Inv.freeproc (h : Inv s) (hz : (s.proc q).state = .zombie)
    (hpc' : ∀ r, s'.pc r = s.pc r)
    (hstate : ∀ r, (s'.proc r).state = if r = q then .unused else (s.proc r).state)
    (hparent : ∀ r, (s'.proc r).parent = if r = q then none else (s.proc r).parent)
    (hchan : ∀ r, (s'.proc r).chan = if r = q then none else (s.proc r).chan)
    (hlock' : s'.waitLock = s.waitLock) : Inv s' := by
  have hdead := (h.dead q).mpr (.inr hz)
  have horphan : ∀ r, (s.proc r).parent ≠ some q := by
    have := h.parent_live
    grind -ring -linarith
  refine ⟨?_, ?_, h.toWakeups.mono ?_ ?_ ?_ ?_ ?_⟩
  · cases h.toThreads
    constructor <;> grind -ring -linarith
  · have := h.init_live
    have := h.child_used
    cases h.toParents
    constructor <;> grind -ring -linarith
  all_goals grind -ring -linarith

end Xv6.Proc
