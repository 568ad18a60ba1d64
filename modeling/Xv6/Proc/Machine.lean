import Xv6.Proc.Basic
import Xv6.Proc.Family

/-!
# Interleaved process life cycles

`fork`, `exit`, `wait` and `kill` of `proc.c`, cut at the critical sections of
`wait_lock` and `p->lock`.  Every slot has a kernel thread with a program
counter; the scheduler may run any number of threads at once, so an event picks
the thread that takes its next critical section.
-/

namespace Xv6.Proc

open Lib

/-- Where a kernel thread is: before which critical section, or asleep. -/
inductive Pc
  /-- User code, or kernel code outside the four calls. -/
  | user
  /-- In `sched`, called by a `sleep` outside `wait`. -/
  | asleep
  /-- In `allocproc`'s loop, called by `fork`. -/
  | forkScan (i : ℕ)
  | forkParent (np : Slot) (pid : ℤ)
  | forkRunnable (np : Slot) (pid : ℤ)
  | exitAcquire (status : ℤ)
  | exitReparent (status : ℤ) (i : ℕ)
  /-- In `wakeup(initproc)`, called by `reparent` after it has moved slot `i`. -/
  | exitReparentWakeup (status : ℤ) (i j : ℕ)
  | exitWakeup (status : ℤ) (parent : Option Slot) (j : ℕ)
  | exitZombie (status : ℤ)
  /-- Never to return from `sched`, or no thread at all. -/
  | dead
  | waitAcquire (addr : ℕ)
  | waitScan (addr i : ℕ) (havekids : Bool)
  | waitSleep (addr : ℕ)
  /-- In `sched`, called by the `sleep` of `wait`. -/
  | waitAsleep (addr : ℕ)
  | killScan (pid : ℤ) (i : ℕ)
  deriving DecidableEq

/-- `ident`, `nextIdent` and `log` are bookkeeping that no step reads: a number
for the process that occupies each slot, and the history of forks, exits and
reaps. -/
structure State where
  proc : Slot → Proc
  nextpid : ℤ
  waitLock : Option Slot
  pc : Slot → Pc
  ident : Slot → ℕ
  nextIdent : ℕ
  log : List Family.Event

/-- The slot that `userinit` gets from `allocproc`. -/
def initproc : Slot := ⟨0, NPROC_pos⟩

def slot1 : Slot := ⟨1, by decide⟩

def boot : State where
  proc := Function.update (fun _ => zero) initproc { allocproc zero 1 with state := .runnable }
  nextpid := allocpid 1
  waitLock := none
  pc := Function.update (fun _ => .dead) initproc .user
  ident := fun _ => Family.first
  nextIdent := Family.first + 1
  log := []

inductive Event
  | fork (p : Slot)
  | exit (p : Slot) (status : ℤ)
  | wait (p : Slot) (addr : ℕ)
  | kill (p : Slot) (pid : ℤ)
  /-- The next critical section of `p`'s thread; `ok` tells whether the memory
  allocations or the copy to user space in it succeed. -/
  | advance (p : Slot) (ok : Bool)
  | schedule (p : Slot)
  /-- A timer interrupt. -/
  | yield (p : Slot)
  | sleep (p : Slot) (k : ℕ)
  | wakeup (p : Slot) (k : ℕ)

namespace State

@[simps pc waitLock ident]
def setProc (s : State) (q : Slot) (P : Proc) : State :=
  { s with proc := Function.update s.proc q P }

@[simps proc waitLock ident]
def goto (s : State) (p : Slot) (c : Pc) : State :=
  { s with pc := Function.update s.pc p c }

def ret (s : State) (p : Slot) (v : ℤ) : State :=
  (s.setProc p { s.proc p with a0 := v }).goto p .user

@[simps proc pc waitLock ident]
def setWaitLock (s : State) (l : Option Slot) : State := { s with waitLock := l }

@[simps proc pc waitLock ident]
def record (s : State) (e : Family.Event) : State := { s with log := s.log ++ [e] }

@[simp, grind =] theorem setProc_proc (s : State) (q r : Slot) (P : Proc) :
    (s.setProc q P).proc r = if r = q then P else s.proc r := by
  simp [setProc, Function.update_apply]

@[simp, grind =] theorem goto_pc (s : State) (p q : Slot) (c : Pc) :
    (s.goto p c).pc q = if q = p then c else s.pc q := by
  simp [goto, Function.update_apply]

attribute [grind =] setProc_pc setProc_waitLock goto_proc goto_waitLock setWaitLock_proc
  setWaitLock_pc setWaitLock_waitLock record_proc record_pc record_waitLock setProc_ident
  goto_ident setWaitLock_ident record_ident

@[simp, grind =] theorem ret_ident (s : State) (p r : Slot) (v : ℤ) :
    (s.ret p v).ident r = s.ident r := rfl

@[simp, grind =] theorem ret_proc (s : State) (p r : Slot) (v : ℤ) :
    (s.ret p v).proc r = if r = p then { s.proc p with a0 := v } else s.proc r := by simp [ret]

@[simp, grind =] theorem ret_pc (s : State) (p r : Slot) (v : ℤ) :
    (s.ret p v).pc r = if r = p then .user else s.pc r := by simp [ret]

end State

/-- `wakeup(chan)`, called by `p`, at slot `j`. -/
def wakeupAt (s : State) (p : Slot) (chan : Option Chan) (j : Slot) : State :=
  if j = p then s else s.setProc j ((s.proc j).wakeup chan)

/-- `allocproc` fails after it has taken slot `np`, or `uvmcopy` fails. -/
def forkFail (s : State) (p np : Slot) : State :=
  ({ s with nextpid := allocpid s.nextpid }.setProc np
    ((s.proc np).allocproc s.nextpid).freeproc).ret p (-1)

/-- The part of a successful `fork` that holds `np->lock`.  The new thread will
start at `forkret`; `fork` returns 0 in the child. -/
def forkAlloc (s : State) (p np : Slot) : State :=
  (({ s with nextpid := allocpid s.nextpid, ident := Function.update s.ident np s.nextIdent,
             nextIdent := s.nextIdent + 1 }.setProc np
    { (s.proc np).allocproc s.nextpid with a0 := 0 }).goto np .user).goto
      p (.forkParent np s.nextpid)

def forkScan (s : State) (p : Slot) (i : ℕ) (ok : Bool) : State :=
  if h : i < NPROC then
    if (s.proc ⟨i, h⟩).state = .unused then
      if ok then forkAlloc s p ⟨i, h⟩ else forkFail s p ⟨i, h⟩
    else s.goto p (.forkScan (i + 1))
  else s.ret p (-1)

def forkParent (s : State) (p np : Slot) (pid : ℤ) : Option State :=
  if s.waitLock = none then
    some ((s.setProc np { s.proc np with parent := some p }).goto p (.forkRunnable np pid))
  else none

def forkRunnable (s : State) (p np : Slot) (pid : ℤ) : State :=
  ((s.setProc np { s.proc np with state := .runnable }).ret p pid).record
    (.fork (s.ident p) (s.ident np) (s.proc np).pid)

def exitReparent (s : State) (p : Slot) (status : ℤ) (i : ℕ) : State :=
  if h : i < NPROC then
    if (s.proc ⟨i, h⟩).parent = some p then
      (s.setProc ⟨i, h⟩ { s.proc ⟨i, h⟩ with parent := some initproc }).goto p
        (.exitReparentWakeup status i 0)
    else s.goto p (.exitReparent status (i + 1))
  else s.goto p (.exitWakeup status (s.proc p).parent 0)

def exitReparentWakeup (s : State) (p : Slot) (status : ℤ) (i j : ℕ) : State :=
  if h : j < NPROC then
    (wakeupAt s p (some (.proc initproc)) ⟨j, h⟩).goto p (.exitReparentWakeup status i (j + 1))
  else s.goto p (.exitReparent status (i + 1))

def exitWakeup (s : State) (p : Slot) (status : ℤ) (parent : Option Slot) (j : ℕ) : State :=
  if h : j < NPROC then
    (wakeupAt s p (parent.map .proc) ⟨j, h⟩).goto p (.exitWakeup status parent (j + 1))
  else s.goto p (.exitZombie status)

/-- The thread keeps `p->lock` until the scheduler has switched away from it. -/
def exitZombie (s : State) (p : Slot) (status : ℤ) : State :=
  (((s.setProc p { s.proc p with xstate := status, state := .zombie }).setWaitLock none).goto
    p .dead).record (.exit (s.ident p) status)

def acquireWaitLock (s : State) (p : Slot) (c : Pc) : Option State :=
  if s.waitLock = none then some ((s.setWaitLock (some p)).goto p c) else none

def reap (s : State) (p pp : Slot) : State :=
  (((s.setProc pp (s.proc pp).freeproc).setWaitLock none).ret p (s.proc pp).pid).record
    (.reap (s.ident p) (s.ident pp) (s.proc pp).pid (s.proc pp).xstate)

def waitScan (s : State) (p : Slot) (addr i : ℕ) (havekids ok : Bool) : State :=
  if h : i < NPROC then
    if (s.proc ⟨i, h⟩).parent = some p then
      if (s.proc ⟨i, h⟩).state = .zombie then
        -- `copyout` of the exit status may fail
        if addr ≠ 0 ∧ ¬ok then (s.setWaitLock none).ret p (-1) else reap s p ⟨i, h⟩
      else s.goto p (.waitScan addr (i + 1) true)
    else s.goto p (.waitScan addr (i + 1) havekids)
  else if ¬havekids ∨ (s.proc p).killed ≠ 0 then (s.setWaitLock none).ret p (-1)
  else s.goto p (.waitSleep addr)

/-- `sleep(p, &wait_lock)` up to the switch to the scheduler. -/
def waitSleep (s : State) (p : Slot) (addr : ℕ) : State :=
  ((s.setProc p ((s.proc p).sleep (.proc p))).setWaitLock none).goto p (.waitAsleep addr)

def killScan (s : State) (p : Slot) (pid : ℤ) (i : ℕ) : State :=
  if h : i < NPROC then
    if (s.proc ⟨i, h⟩).pid = pid then (s.setProc ⟨i, h⟩ (s.proc ⟨i, h⟩).kill).ret p 0
    else s.goto p (.killScan pid (i + 1))
  else s.ret p (-1)

def advance (s : State) (p : Slot) (ok : Bool) : Option State :=
  match s.pc p with
  | .forkScan i => some (forkScan s p i ok)
  | .forkParent np pid => forkParent s p np pid
  | .forkRunnable np pid => some (forkRunnable s p np pid)
  | .exitAcquire status => acquireWaitLock s p (.exitReparent status 0)
  | .exitReparent status i => some (exitReparent s p status i)
  | .exitReparentWakeup status i j => some (exitReparentWakeup s p status i j)
  | .exitWakeup status parent j => some (exitWakeup s p status parent j)
  | .exitZombie status => some (exitZombie s p status)
  | .waitAcquire addr => acquireWaitLock s p (.waitScan addr 0 false)
  | .waitScan addr i havekids => some (waitScan s p addr i havekids ok)
  | .waitSleep addr => some (waitSleep s p addr)
  | .killScan pid i => some (killScan s p pid i)
  | .user | .asleep | .waitAsleep _ | .dead => none

/-- The scheduler picks `p`, whose thread returns from `sched` and gives up
`p->lock`; a thread that had called `sleep` first clears `chan`. -/
def schedule (s : State) (p : Slot) : State :=
  match s.pc p with
  | .asleep => (s.setProc p { s.proc p with state := .running, chan := none }).goto p .user
  | .waitAsleep addr =>
    (s.setProc p { s.proc p with state := .running, chan := none }).goto p (.waitAcquire addr)
  | _ => s.setProc p { s.proc p with state := .running }

def enter (s : State) (p : Slot) (c : Pc) : Option State :=
  if (s.proc p).state = .running ∧ s.pc p = .user then some (s.goto p c) else none

def step (s : State) : Event → Option State
  | .fork p => enter s p (.forkScan 0)
  | .exit p status =>
    -- `panic("init exiting")` stops the machine
    if p = initproc then none else enter s p (.exitAcquire status)
  | .wait p addr => enter s p (.waitAcquire addr)
  | .kill p pid => enter s p (.killScan pid 0)
  | .advance p ok => if (s.proc p).state = .running then advance s p ok else none
  | .schedule p => if (s.proc p).state = .runnable then some (schedule s p) else none
  | .yield p =>
    -- interrupts are off while the thread holds `wait_lock`
    if (s.proc p).state = .running ∧ s.waitLock ≠ some p then
      some (s.setProc p { s.proc p with state := .runnable })
    else none
  | .sleep p k =>
    if (s.proc p).state = .running ∧ s.pc p = .user then
      some ((s.setProc p ((s.proc p).sleep (.other k))).goto p .asleep)
    else none
  | .wakeup p k => some (s.setProc p ((s.proc p).wakeup (some (.other k))))

/-! ## What a step can do -/

/-- Every change that one step can make, with what held before it. -/
inductive Effect (s : State) : Event → State → Prop
  | fork {p : Slot} (hrun : (s.proc p).state = .running) (hpc : s.pc p = .user) :
      Effect s (.fork p) (s.goto p (.forkScan 0))
  | exit {p : Slot} {status : ℤ} (hp : p ≠ initproc) (hrun : (s.proc p).state = .running)
      (hpc : s.pc p = .user) : Effect s (.exit p status) (s.goto p (.exitAcquire status))
  | wait {p : Slot} {addr : ℕ} (hrun : (s.proc p).state = .running) (hpc : s.pc p = .user) :
      Effect s (.wait p addr) (s.goto p (.waitAcquire addr))
  | kill {p : Slot} {pid : ℤ} (hrun : (s.proc p).state = .running) (hpc : s.pc p = .user) :
      Effect s (.kill p pid) (s.goto p (.killScan pid 0))
  | forkNext {p : Slot} {ok : Bool} {i : ℕ} (hrun : (s.proc p).state = .running)
      (hpc : s.pc p = .forkScan i) : Effect s (.advance p ok) (s.goto p (.forkScan (i + 1)))
  | forkFull {p : Slot} {ok : Bool} {i : ℕ} (hrun : (s.proc p).state = .running)
      (hpc : s.pc p = .forkScan i) : Effect s (.advance p ok) (s.ret p (-1))
  | forkFail {p np : Slot} {ok : Bool} (hrun : (s.proc p).state = .running)
      (hpc : s.pc p = .forkScan np.idx) (hnp : (s.proc np).state = .unused) :
      Effect s (.advance p ok) (forkFail s p np)
  | forkAlloc {p np : Slot} {ok : Bool} (hrun : (s.proc p).state = .running)
      (hpc : s.pc p = .forkScan np.idx) (hnp : (s.proc np).state = .unused) :
      Effect s (.advance p ok) (forkAlloc s p np)
  | forkParent {p np : Slot} {ok : Bool} {pid : ℤ} (hrun : (s.proc p).state = .running)
      (hpc : s.pc p = .forkParent np pid) (hfree : s.waitLock = none) :
      Effect s (.advance p ok)
        ((s.setProc np { s.proc np with parent := some p }).goto p (.forkRunnable np pid))
  | forkRunnable {p np : Slot} {ok : Bool} {pid : ℤ} (hrun : (s.proc p).state = .running)
      (hpc : s.pc p = .forkRunnable np pid) :
      Effect s (.advance p ok) (forkRunnable s p np pid)
  | exitAcquire {p : Slot} {ok : Bool} {status : ℤ} (hrun : (s.proc p).state = .running)
      (hpc : s.pc p = .exitAcquire status) (hfree : s.waitLock = none) :
      Effect s (.advance p ok) ((s.setWaitLock (some p)).goto p (.exitReparent status 0))
  | reparent {p pp : Slot} {ok : Bool} {status : ℤ} (hrun : (s.proc p).state = .running)
      (hpc : s.pc p = .exitReparent status pp.idx) (hpp : (s.proc pp).parent = some p) :
      Effect s (.advance p ok)
        ((s.setProc pp { s.proc pp with parent := some initproc }).goto p
          (.exitReparentWakeup status pp.idx 0))
  | reparentNext {p q : Slot} {ok : Bool} {status : ℤ} (hrun : (s.proc p).state = .running)
      (hpc : s.pc p = .exitReparent status q.idx) (hq : (s.proc q).parent ≠ some p) :
      Effect s (.advance p ok) (s.goto p (.exitReparent status (q.idx + 1)))
  | reparentDone {p : Slot} {ok : Bool} {status : ℤ} {i : ℕ} (hrun : (s.proc p).state = .running)
      (hpc : s.pc p = .exitReparent status i) (hi : NPROC ≤ i) :
      Effect s (.advance p ok) (s.goto p (.exitWakeup status (s.proc p).parent 0))
  | initWakeup {p j : Slot} {ok : Bool} {status : ℤ} {i : ℕ} (hrun : (s.proc p).state = .running)
      (hpc : s.pc p = .exitReparentWakeup status i j.idx) :
      Effect s (.advance p ok) ((wakeupAt s p (some (.proc initproc)) j).goto p
        (.exitReparentWakeup status i (j.idx + 1)))
  | initWakeupDone {p : Slot} {ok : Bool} {status : ℤ} {i j : ℕ}
      (hrun : (s.proc p).state = .running) (hpc : s.pc p = .exitReparentWakeup status i j)
      (hj : NPROC ≤ j) : Effect s (.advance p ok) (s.goto p (.exitReparent status (i + 1)))
  | parentWakeup {p j : Slot} {ok : Bool} {status : ℤ} {parent : Option Slot}
      (hrun : (s.proc p).state = .running) (hpc : s.pc p = .exitWakeup status parent j.idx) :
      Effect s (.advance p ok) ((wakeupAt s p (parent.map .proc) j).goto p
        (.exitWakeup status parent (j.idx + 1)))
  | parentWakeupDone {p : Slot} {ok : Bool} {status : ℤ} {parent : Option Slot} {j : ℕ}
      (hrun : (s.proc p).state = .running) (hpc : s.pc p = .exitWakeup status parent j)
      (hj : NPROC ≤ j) : Effect s (.advance p ok) (s.goto p (.exitZombie status))
  | exitZombie {p : Slot} {ok : Bool} {status : ℤ} (hrun : (s.proc p).state = .running)
      (hpc : s.pc p = .exitZombie status) : Effect s (.advance p ok) (exitZombie s p status)
  | waitAcquire {p : Slot} {ok : Bool} {addr : ℕ} (hrun : (s.proc p).state = .running)
      (hpc : s.pc p = .waitAcquire addr) (hfree : s.waitLock = none) :
      Effect s (.advance p ok) ((s.setWaitLock (some p)).goto p (.waitScan addr 0 false))
  | waitNext {p q : Slot} {ok : Bool} {addr : ℕ} {havekids havekids' : Bool}
      (hrun : (s.proc p).state = .running) (hpc : s.pc p = .waitScan addr q.idx havekids)
      (hq : (s.proc q).parent = some p → (s.proc q).state ≠ .zombie) :
      Effect s (.advance p ok) (s.goto p (.waitScan addr (q.idx + 1) havekids'))
  | reap {p pp : Slot} {ok : Bool} {addr : ℕ} {havekids : Bool}
      (hrun : (s.proc p).state = .running) (hpc : s.pc p = .waitScan addr pp.idx havekids)
      (hpp : (s.proc pp).parent = some p) (hz : (s.proc pp).state = .zombie) :
      Effect s (.advance p ok) (reap s p pp)
  | waitFail {p : Slot} {ok : Bool} {addr i : ℕ} {havekids : Bool}
      (hrun : (s.proc p).state = .running) (hpc : s.pc p = .waitScan addr i havekids) :
      Effect s (.advance p ok) ((s.setWaitLock none).ret p (-1))
  | waitDone {p : Slot} {ok : Bool} {addr i : ℕ} {havekids : Bool}
      (hrun : (s.proc p).state = .running) (hpc : s.pc p = .waitScan addr i havekids)
      (hi : NPROC ≤ i) : Effect s (.advance p ok) (s.goto p (.waitSleep addr))
  | waitSleep {p : Slot} {ok : Bool} {addr : ℕ} (hrun : (s.proc p).state = .running)
      (hpc : s.pc p = .waitSleep addr) : Effect s (.advance p ok) (waitSleep s p addr)
  | killHit {p q : Slot} {ok : Bool} {pid : ℤ} (hrun : (s.proc p).state = .running)
      (hpc : s.pc p = .killScan pid q.idx) (hq : (s.proc q).pid = pid) :
      Effect s (.advance p ok) ((s.setProc q (s.proc q).kill).ret p 0)
  | killNext {p : Slot} {ok : Bool} {pid : ℤ} {i : ℕ} (hrun : (s.proc p).state = .running)
      (hpc : s.pc p = .killScan pid i) : Effect s (.advance p ok) (s.goto p (.killScan pid (i + 1)))
  | killNone {p : Slot} {ok : Bool} {pid : ℤ} {i : ℕ} (hrun : (s.proc p).state = .running)
      (hpc : s.pc p = .killScan pid i) : Effect s (.advance p ok) (s.ret p (-1))
  | schedule {p : Slot} (hrun : (s.proc p).state = .runnable) (hpc : s.pc p ≠ .asleep)
      (hpc' : ∀ addr, s.pc p ≠ .waitAsleep addr) :
      Effect s (.schedule p) (s.setProc p { s.proc p with state := .running })
  | resume {p : Slot} (hrun : (s.proc p).state = .runnable) (hpc : s.pc p = .asleep) :
      Effect s (.schedule p)
        ((s.setProc p { s.proc p with state := .running, chan := none }).goto p .user)
  | resumeWait {p : Slot} {addr : ℕ} (hrun : (s.proc p).state = .runnable)
      (hpc : s.pc p = .waitAsleep addr) :
      Effect s (.schedule p)
        ((s.setProc p { s.proc p with state := .running, chan := none }).goto p (.waitAcquire addr))
  | yield {p : Slot} (hrun : (s.proc p).state = .running) (hlock : s.waitLock ≠ some p) :
      Effect s (.yield p) (s.setProc p { s.proc p with state := .runnable })
  | sleep {p : Slot} {k : ℕ} (hrun : (s.proc p).state = .running) (hpc : s.pc p = .user) :
      Effect s (.sleep p k) ((s.setProc p ((s.proc p).sleep (.other k))).goto p .asleep)
  | wakeup {p : Slot} {k : ℕ} :
      Effect s (.wakeup p k) (s.setProc p ((s.proc p).wakeup (some (.other k))))

theorem enter_eq_some {s s' : State} {p : Slot} {c : Pc} (h : enter s p c = some s') :
    (s.proc p).state = .running ∧ s.pc p = .user ∧ s' = s.goto p c := by
  simp only [enter, Option.ite_none_right_eq_some, Option.some_inj] at h
  exact ⟨h.1.1, h.1.2, h.2.symm⟩

theorem effect_of_advance {s s' : State} {p : Slot} {ok : Bool} (hrun : (s.proc p).state = .running)
    (h : advance s p ok = some s') : Effect s (.advance p ok) s' := by
  cases hpc : s.pc p with
  | forkScan i =>
    simp only [advance, hpc, Option.some_inj, Proc.forkScan] at h
    split_ifs at h with hi hnp <;> subst h
    · exact .forkAlloc hrun hpc hnp
    · exact .forkFail hrun hpc hnp
    · exact .forkNext hrun hpc
    · exact .forkFull hrun hpc
  | forkParent np pid =>
    simp only [advance, hpc, Proc.forkParent, Option.ite_none_right_eq_some, Option.some_inj] at h
    obtain ⟨hfree, rfl⟩ := h
    exact .forkParent hrun hpc hfree
  | forkRunnable np pid =>
    simp only [advance, hpc, Option.some_inj] at h
    subst h
    exact .forkRunnable hrun hpc
  | exitAcquire status =>
    simp only [advance, hpc, acquireWaitLock, Option.ite_none_right_eq_some, Option.some_inj] at h
    obtain ⟨hfree, rfl⟩ := h
    exact .exitAcquire hrun hpc hfree
  | exitReparent status i =>
    simp only [advance, hpc, Option.some_inj, exitReparent] at h
    split_ifs at h with hi hpp <;> subst h
    · exact .reparent hrun hpc hpp
    · exact .reparentNext (q := ⟨i, hi⟩) hrun hpc hpp
    · exact .reparentDone hrun hpc (by omega)
  | exitReparentWakeup status i j =>
    simp only [advance, hpc, Option.some_inj, exitReparentWakeup] at h
    split_ifs at h with hj <;> subst h
    · exact .initWakeup (j := ⟨j, hj⟩) hrun hpc
    · exact .initWakeupDone hrun hpc (by omega)
  | exitWakeup status parent j =>
    simp only [advance, hpc, Option.some_inj, exitWakeup] at h
    split_ifs at h with hj <;> subst h
    · exact .parentWakeup (j := ⟨j, hj⟩) hrun hpc
    · exact .parentWakeupDone hrun hpc (by omega)
  | exitZombie status =>
    simp only [advance, hpc, Option.some_inj] at h
    subst h
    exact .exitZombie hrun hpc
  | waitAcquire addr =>
    simp only [advance, hpc, acquireWaitLock, Option.ite_none_right_eq_some, Option.some_inj] at h
    obtain ⟨hfree, rfl⟩ := h
    exact .waitAcquire hrun hpc hfree
  | waitScan addr i havekids =>
    simp only [advance, hpc, Option.some_inj, waitScan] at h
    split_ifs at h with hi hpp hz hok hkids <;> subst h
    · exact .waitFail hrun hpc
    · exact .reap hrun hpc hpp hz
    · exact .waitNext (q := ⟨i, hi⟩) hrun hpc fun _ => hz
    · exact .waitNext (q := ⟨i, hi⟩) hrun hpc fun hpp' => absurd hpp' hpp
    · exact .waitFail hrun hpc
    · exact .waitDone hrun hpc (by omega)
  | waitSleep addr =>
    simp only [advance, hpc, Option.some_inj] at h
    subst h
    exact .waitSleep hrun hpc
  | killScan pid i =>
    simp only [advance, hpc, Option.some_inj, killScan] at h
    split_ifs at h with hi hq <;> subst h
    · exact .killHit hrun hpc hq
    · exact .killNext hrun hpc
    · exact .killNone hrun hpc
  | user | asleep | waitAsleep addr | dead => simp [advance, hpc] at h

theorem effect_of_step {s s' : State} {e : Event} (h : step s e = some s') : Effect s e s' := by
  cases e with
  | fork p =>
    obtain ⟨hrun, hpc, rfl⟩ := enter_eq_some h
    exact .fork hrun hpc
  | exit p status =>
    simp only [step, Option.ite_none_left_eq_some] at h
    obtain ⟨hrun, hpc, rfl⟩ := enter_eq_some h.2
    exact .exit h.1 hrun hpc
  | wait p addr =>
    obtain ⟨hrun, hpc, rfl⟩ := enter_eq_some h
    exact .wait hrun hpc
  | kill p pid =>
    obtain ⟨hrun, hpc, rfl⟩ := enter_eq_some h
    exact .kill hrun hpc
  | advance p ok =>
    simp only [step, Option.ite_none_right_eq_some] at h
    exact effect_of_advance h.1 h.2
  | schedule p =>
    obtain ⟨hrun, rfl⟩ := Option.ite_some_none_eq_some.mp h
    unfold schedule
    split
    next hpc => exact .resume hrun hpc
    next hpc => exact .resumeWait hrun hpc
    next hpc hpc' => exact .schedule hrun hpc hpc'
  | yield p =>
    obtain ⟨⟨hrun, hlock⟩, rfl⟩ := Option.ite_some_none_eq_some.mp h
    exact .yield hrun hlock
  | sleep p k =>
    obtain ⟨⟨hrun, hpc⟩, rfl⟩ := Option.ite_some_none_eq_some.mp h
    exact .sleep hrun hpc
  | wakeup p k =>
    simp only [step, Option.some_inj] at h
    subst h
    exact .wakeup

end Xv6.Proc
