import Xv6.Proc.Machine

/-!
# CPUs, their schedulers and the threads they run

`scheduler`, `sched`, `yield`, `forkret`, `sleep`, `wakeup`, `kill`, `fork`,
`exit` and `wait` of `proc.c` and `swtch` of `swtch.S`, on any number of CPUs.
A step is a critical section of `p->lock` that is released where it was
acquired, an `acquire` or a `release` of its own where the lock is handed over,
or one instruction of `swtch`.
-/

namespace Xv6.Sched

open Proc (Slot initproc)
open Function (update)

/-- The spinlocks other than `p->lock`. -/
inductive Lk
  | wait
  | other (k : ℕ)
  deriving DecidableEq, Repr

/-- What called `sleep`: `wait`, with `wait_lock`, or some other kernel code. -/
inductive Caller
  | code (lk : Lk)
  | wait (addr : ℕ)
  deriving DecidableEq, Repr

def Caller.lk : Caller → Lk
  | .code l => l
  | .wait _ => .wait

/-- Before which critical section a thread is. -/
inductive Pc
  /-- User code, or kernel code outside the functions modelled here. -/
  | run
  | wakeup (chan : Option Chan) (j : ℕ)
  | killScan (pid : ℤ) (i : ℕ)
  /-- In `allocproc`'s loop. -/
  | forkScan (i : ℕ)
  /-- With `np->lock`, in the rest of `allocproc` or in `fork`. -/
  | forkInit (np : Slot)
  | forkParent (np : Slot) (pid : ℤ)
  | forkRunnable (np : Slot) (pid : ℤ)
  | exitAcquire (status : ℤ)
  | exitReparent (status : ℤ) (i : ℕ)
  | exitReparentWakeup (status : ℤ) (i j : ℕ)
  | exitWakeup (status : ℤ) (parent : Option Slot) (j : ℕ)
  | exitZombie (status : ℤ)
  /-- With `p->lock` and `wait_lock`, already a zombie. -/
  | exitRelease
  | waitAcquire (addr : ℕ)
  | waitScan (addr i : ℕ) (havekids : Bool)
  /-- `sleep` has been called and has not acquired `p->lock`. -/
  | sleepEnter (chan : Chan) (caller : Caller)
  | sleepRelease (chan : Chan) (caller : Caller)
  | sleepSet (chan : Chan) (caller : Caller)
  | sleepAcquire (caller : Caller)
  deriving DecidableEq

def Caller.pc : Caller → Pc
  | .code _ => .run
  | .wait addr => .waitScan addr 0 false

/-- What is on top of a thread's kernel stack.  The three middle ones are inside
`sched`, or have just returned from it. -/
inductive Frame
  | code (k : Pc)
  | yieldBack (k : Pc)
  | sleepBack (caller : Caller)
  | forkret
  | dead
  deriving DecidableEq

/-- What a CPU executes: the loop of `scheduler`, `swtch` with `k` of its
instructions done, or the thread of a process. -/
inductive Mode
  | sched
  | enter (k : ℕ)
  | exec (p : Slot)
  | leave (p : Slot) (k : ℕ)
  | back
  deriving DecidableEq

/-- An interrupt handler, the lock it holds and where its `wakeup` is. -/
structure Handler where
  lk : Lk
  scan : Option (Chan × ℕ)
  deriving DecidableEq

/-- `proc` is `c->proc`, `p` the variable of `scheduler`, `saved` the number of
registers in `c->context` and `stack` whose kernel stack `sp` points into. -/
structure Cpu where
  mode : Mode
  proc : Option Slot
  p : Slot
  saved : ℕ
  stack : Option Slot
  noff : ℕ
  handler : Option Handler
  deriving DecidableEq

/-- A call of `sleep` that no `wakeup` and no `kill` has ended: its arguments,
how often `lk` had been acquired by then, and its number. -/
structure Call where
  chan : Chan
  lk : Lk
  epoch : ℕ
  number : ℕ
  deriving DecidableEq

/-- `lock` and `lk` are the holders of `p->lock` and of the other spinlocks,
`saved` the number of registers in `p->context`.  No step reads `acquired`,
`calls` and `pending`. -/
structure State (κ : Type) where
  proc : Slot → Proc
  nextpid : ℤ
  lock : Slot → Option κ
  lk : Lk → Option κ
  frame : Slot → Frame
  saved : Slot → ℕ
  cpu : κ → Cpu
  acquired : Lk → ℕ
  calls : Slot → ℕ
  pending : Slot → Option Call

def SwtchRegs : ℕ := 14

def SwtchSp : ℕ := 1

/-- When every CPU is about to enter the loop of `scheduler`. -/
def boot (κ : Type) : State κ where
  proc := update (fun _ => Proc.zero) initproc
    { Proc.zero.allocproc 1 with state := .runnable }
  nextpid := Proc.allocpid 1
  lock := fun _ => none
  lk := fun _ => none
  frame := update (fun _ => .dead) initproc .forkret
  saved := update (fun _ => 0) initproc SwtchRegs
  cpu := fun _ => ⟨.sched, none, initproc, 0, none, 0, none⟩
  acquired := fun _ => 0
  calls := fun _ => 0
  pending := fun _ => none

inductive Op
  | acquire (l : Lk)
  | release (l : Lk)
  | sleep (chan : Chan) (l : Lk)
  | wakeup (chan : Chan)
  | fork
  | exit (status : ℤ)
  | wait (addr : ℕ)
  | kill (pid : ℤ)

inductive Event (κ : Type)
  /-- The process on `c` calls a function. -/
  | call (c : κ) (op : Op)
  /-- A timer interrupt. -/
  | yield (c : κ)
  /-- `c` goes on; `ok` tells whether the memory allocations or the copy to user
  space in the step succeed. -/
  | advance (c : κ) (ok : Bool)
  /-- A device interrupt, whose handler acquires `l`. -/
  | interrupt (c : κ) (l : Lk)
  | handlerWakeup (c : κ) (chan : Chan)
  | handlerReturn (c : κ)

variable {κ : Type} [DecidableEq κ]

namespace State

def setProc (s : State κ) (q : Slot) (P : Proc) : State κ :=
  { s with proc := update s.proc q P }

def goto (s : State κ) (p : Slot) (f : Frame) : State κ :=
  { s with frame := update s.frame p f }

def setCpu (s : State κ) (c : κ) (x : Cpu) : State κ :=
  { s with cpu := update s.cpu c x }

def ret (s : State κ) (p : Slot) (v : ℤ) : State κ :=
  (s.setProc p { s.proc p with a0 := v }).goto p (.code .run)

def acquire (s : State κ) (c : κ) (l : Lk) : State κ :=
  { s with
    lk := update s.lk l (some c)
    acquired := update s.acquired l (s.acquired l + 1)
    cpu := update s.cpu c { s.cpu c with noff := (s.cpu c).noff + 1 } }

def release (s : State κ) (c : κ) (l : Lk) : State κ :=
  { s with
    lk := update s.lk l none
    cpu := update s.cpu c { s.cpu c with noff := (s.cpu c).noff - 1 } }

def acquireProc (s : State κ) (c : κ) (p : Slot) : State κ :=
  { s with
    lock := update s.lock p (some c)
    cpu := update s.cpu c { s.cpu c with noff := (s.cpu c).noff + 1 } }

def releaseProc (s : State κ) (c : κ) (p : Slot) : State κ :=
  { s with
    lock := update s.lock p none
    cpu := update s.cpu c { s.cpu c with noff := (s.cpu c).noff - 1 } }

/-- Into `swtch(&p->context, &mycpu()->context)`. -/
def switchOut (s : State κ) (c : κ) (p : Slot) (f : Frame) : State κ :=
  { s with
    frame := update s.frame p f
    saved := update s.saved p 0
    cpu := update s.cpu c { s.cpu c with mode := .leave p 0 } }

end State

open State

/-- `sched`, after which `p` will find `f` on its stack.  Its three checks are
panics; interrupts are off as `p->lock` is held. -/
def sched (s : State κ) (c : κ) (p : Slot) (f : Frame) : Option (State κ) :=
  if s.lock p = some c ∧ (s.cpu c).noff = 1 ∧ (s.proc p).state ≠ .running then
    some (s.switchOut c p f)
  else none

def yield (s : State κ) (c : κ) (p : Slot) (k : Pc) : Option (State κ) :=
  if s.lock p = none then
    let s := s.acquireProc c p
    sched (s.setProc p { s.proc p with state := .runnable }) c p (.yieldBack k)
  else none

/-- The wakeup of one process by `wakeup` or `kill`, which ends its call of
`sleep`. -/
def wakeProc (s : State κ) (q : Slot) (P : Proc) : State κ :=
  { s with
    proc := update s.proc q P
    pending := if (s.proc q).state = .sleeping ∧ P.state = .runnable then
      update s.pending q none else s.pending }

/-- `wakeup(chan)` on CPU `c`, at slot `j`. -/
def wakeupAt (s : State κ) (c : κ) (chan : Option Chan) (j : Slot) : Option (State κ) :=
  if (s.cpu c).proc = some j then some s
  else if s.lock j = none then some (wakeProc s j ((s.proc j).wakeup chan)) else none

/-- The loop of `wakeup`, with what follows each of its steps. -/
def wakeupScan (s : State κ) (c : κ) (chan : Option Chan) (j : ℕ) (next done : State κ → State κ) :
    Option (State κ) :=
  if h : j < NPROC then (wakeupAt s c chan ⟨j, h⟩).map next else some (done s)

def callSleep (s : State κ) (p : Slot) (chan : Chan) (caller : Caller) : State κ :=
  { s with
    frame := update s.frame p (.code (.sleepEnter chan caller))
    calls := update s.calls p (s.calls p + 1)
    pending := update s.pending p
      (some ⟨chan, caller.lk, s.acquired caller.lk, s.calls p + 1⟩) }

def killScan (s : State κ) (p : Slot) (pid : ℤ) (i : ℕ) : Option (State κ) :=
  if h : i < NPROC then
    if s.lock ⟨i, h⟩ = none then
      if (s.proc ⟨i, h⟩).pid = pid then
        some ((wakeProc s ⟨i, h⟩ (s.proc ⟨i, h⟩).kill).ret p 0)
      else some (s.goto p (.code (.killScan pid (i + 1))))
    else none
  else some (s.ret p (-1))

def forkScan (s : State κ) (c : κ) (p : Slot) (i : ℕ) : Option (State κ) :=
  if h : i < NPROC then
    if s.lock ⟨i, h⟩ = none then
      if (s.proc ⟨i, h⟩).state = .unused then
        let s := { s with nextpid := Proc.allocpid s.nextpid }.setProc ⟨i, h⟩
          ((s.proc ⟨i, h⟩).allocproc s.nextpid)
        some ((s.acquireProc c ⟨i, h⟩).goto p (.code (.forkInit ⟨i, h⟩)))
      else some (s.goto p (.code (.forkScan (i + 1))))
    else none
  else some (s.ret p (-1))

/-- The new context starts at `forkret`; `fork` returns 0 in the child. -/
def forkReady (s : State κ) (c : κ) (p np : Slot) : State κ :=
  let s := { s.setProc np { s.proc np with a0 := 0 } with
    saved := update s.saved np SwtchRegs }
  (((s.goto np .forkret).releaseProc c np).goto p (.code (.forkParent np (s.proc np).pid)))

def forkInit (s : State κ) (c : κ) (p np : Slot) (ok : Bool) : Option (State κ) :=
  if s.lock np = some c then
    if ok then some (forkReady s c p np)
    else some (((s.setProc np (s.proc np).freeproc).releaseProc c np).ret p (-1))
  else none

def forkParent (s : State κ) (c : κ) (p np : Slot) (pid : ℤ) : Option (State κ) :=
  if s.lk .wait = none then
    let s := (s.acquire c .wait).setProc np { s.proc np with parent := some p }
    some ((s.release c .wait).goto p (.code (.forkRunnable np pid)))
  else none

def forkRunnable (s : State κ) (p np : Slot) (pid : ℤ) : Option (State κ) :=
  if s.lock np = none then
    some ((s.setProc np { s.proc np with state := .runnable }).ret p pid)
  else none

/-- `acquire(l)`, and then `f`. -/
def acquireThen (s : State κ) (c : κ) (l : Lk) (p : Slot) (k : Pc) : Option (State κ) :=
  if s.lk l = none then some ((s.acquire c l).goto p (.code k)) else none

def exitReparent (s : State κ) (p : Slot) (status : ℤ) (i : ℕ) : State κ :=
  if h : i < NPROC then
    if (s.proc ⟨i, h⟩).parent = some p then
      (s.setProc ⟨i, h⟩ { s.proc ⟨i, h⟩ with parent := some initproc }).goto p
        (.code (.exitReparentWakeup status i 0))
    else s.goto p (.code (.exitReparent status (i + 1)))
  else s.goto p (.code (.exitWakeup status (s.proc p).parent 0))

def exitZombie (s : State κ) (c : κ) (p : Slot) (status : ℤ) : Option (State κ) :=
  if s.lock p = none then
    some (((s.acquireProc c p).setProc p
      { s.proc p with xstate := status, state := .zombie }).goto p (.code .exitRelease))
  else none

def exitRelease (s : State κ) (c : κ) (p : Slot) : Option (State κ) :=
  if s.lk .wait = some c then sched (s.release c .wait) c p .dead else none

/-- `release(&wait_lock)` and the return of `wait`. -/
def waitReturn (s : State κ) (c : κ) (p : Slot) (v : ℤ) : Option (State κ) :=
  if s.lk .wait = some c then some ((s.release c .wait).ret p v) else none

/-- After the loop of `wait`; `killed(p)` is a critical section of `p->lock`. -/
def waitDone (s : State κ) (c : κ) (p : Slot) (addr : ℕ) (havekids : Bool) : Option (State κ) :=
  if havekids then
    if s.lock p = none then
      if (s.proc p).killed ≠ 0 then waitReturn s c p (-1)
      else some (callSleep s p (.proc p) (.wait addr))
    else none
  else waitReturn s c p (-1)

def waitScan (s : State κ) (c : κ) (p : Slot) (addr i : ℕ) (havekids ok : Bool) :
    Option (State κ) :=
  if h : i < NPROC then
    if (s.proc ⟨i, h⟩).parent = some p then
      if s.lock ⟨i, h⟩ = none then
        if (s.proc ⟨i, h⟩).state = .zombie then
          -- `copyout` of the exit status may fail
          if addr ≠ 0 ∧ ¬ok then waitReturn s c p (-1)
          else waitReturn (s.setProc ⟨i, h⟩ (s.proc ⟨i, h⟩).freeproc) c p (s.proc ⟨i, h⟩).pid
        else some (s.goto p (.code (.waitScan addr (i + 1) true)))
      else none
    else some (s.goto p (.code (.waitScan addr (i + 1) havekids)))
  else waitDone s c p addr havekids

def sleepEnter (s : State κ) (c : κ) (p : Slot) (chan : Chan) (caller : Caller) :
    Option (State κ) :=
  if s.lock p = none then
    some ((s.acquireProc c p).goto p (.code (.sleepRelease chan caller)))
  else none

def sleepRelease (s : State κ) (c : κ) (p : Slot) (chan : Chan) (caller : Caller) :
    Option (State κ) :=
  if s.lk caller.lk = some c then
    some ((s.release c caller.lk).goto p (.code (.sleepSet chan caller)))
  else none

def sleepSet (s : State κ) (c : κ) (p : Slot) (chan : Chan) (caller : Caller) :
    Option (State κ) :=
  sched (s.setProc p ((s.proc p).sleep chan)) c p (.sleepBack caller)

def advancePc (s : State κ) (c : κ) (p : Slot) (ok : Bool) : Pc → Option (State κ)
  | .run => none
  | .wakeup chan j => wakeupScan s c chan j (fun t => t.goto p (.code (.wakeup chan (j + 1))))
      fun t => t.goto p (.code .run)
  | .killScan pid i => killScan s p pid i
  | .forkScan i => forkScan s c p i
  | .forkInit np => forkInit s c p np ok
  | .forkParent np pid => forkParent s c p np pid
  | .forkRunnable np pid => forkRunnable s p np pid
  | .exitAcquire status => acquireThen s c .wait p (.exitReparent status 0)
  | .exitReparent status i => some (exitReparent s p status i)
  | .exitReparentWakeup status i j =>
    wakeupScan s c (some (.proc initproc)) j
      (fun t => t.goto p (.code (.exitReparentWakeup status i (j + 1))))
      fun t => t.goto p (.code (.exitReparent status (i + 1)))
  | .exitWakeup status parent j =>
    wakeupScan s c (parent.map .proc) j
      (fun t => t.goto p (.code (.exitWakeup status parent (j + 1))))
      fun t => t.goto p (.code (.exitZombie status))
  | .exitZombie status => exitZombie s c p status
  | .exitRelease => exitRelease s c p
  | .waitAcquire addr => acquireThen s c .wait p (.waitScan addr 0 false)
  | .waitScan addr i havekids => waitScan s c p addr i havekids ok
  | .sleepEnter chan caller => sleepEnter s c p chan caller
  | .sleepRelease chan caller => sleepRelease s c p chan caller
  | .sleepSet chan caller => sleepSet s c p chan caller
  | .sleepAcquire caller => acquireThen s c caller.lk p caller.pc

/-- What a thread does next that holds `p->lock` since the scheduler took it. -/
def returnFromSched (s : State κ) (c : κ) (p : Slot) : Frame → Option (State κ)
  | .yieldBack k => some ((s.releaseProc c p).goto p (.code k))
  | .sleepBack caller => some (((s.setProc p { s.proc p with chan := none }).releaseProc c p).goto
      p (.code (.sleepAcquire caller)))
  | .forkret => some ((s.releaseProc c p).goto p (.code .run))
  | .code _ | .dead => none

def advanceThread (s : State κ) (c : κ) (p : Slot) (ok : Bool) : Option (State κ) :=
  match s.frame p with
  | .code k => advancePc s c p ok k
  | f => if s.lock p = some c then returnFromSched s c p f else none

def nextSlot (p : Slot) : Slot := ⟨(p.idx + 1) % NPROC, Nat.mod_lt _ (by decide)⟩

def dispatch (s : State κ) (c : κ) : State κ :=
  let p := (s.cpu c).p
  let s := (s.acquireProc c p).setProc p { s.proc p with state := .running }
  s.setCpu c { s.cpu c with proc := some p, mode := .enter 0, saved := 0 }

def scheduler (s : State κ) (c : κ) : Option (State κ) :=
  if s.lock (s.cpu c).p = none then
    if (s.proc (s.cpu c).p).state = .runnable then some (dispatch s c)
    else some (s.setCpu c { s.cpu c with p := nextSlot (s.cpu c).p })
  else none

/-- `swtch(&c->context, &p->context)` after `k` instructions. -/
def swtchIn (s : State κ) (c : κ) (k : ℕ) : State κ :=
  if k < SwtchRegs then s.setCpu c { s.cpu c with mode := .enter (k + 1), saved := k + 1 }
  else if k < 2 * SwtchRegs then
    s.setCpu c { s.cpu c with
      mode := .enter (k + 1)
      stack := if k = SwtchRegs + SwtchSp then some (s.cpu c).p else (s.cpu c).stack }
  else s.setCpu c { s.cpu c with mode := .exec (s.cpu c).p }

/-- `swtch(&p->context, &c->context)` after `k` instructions. -/
def swtchOut (s : State κ) (c : κ) (p : Slot) (k : ℕ) : State κ :=
  if k < SwtchRegs then
    { s with saved := update s.saved p (k + 1) }.setCpu c
      { s.cpu c with mode := .leave p (k + 1) }
  else if k < 2 * SwtchRegs then
    s.setCpu c { s.cpu c with
      mode := .leave p (k + 1)
      stack := if k = SwtchRegs + SwtchSp then none else (s.cpu c).stack }
  else s.setCpu c { s.cpu c with mode := .back }

/-- `scheduler` after `swtch` has returned. -/
def schedulerBack (s : State κ) (c : κ) : Option (State κ) :=
  if s.lock (s.cpu c).p = some c then
    let s := s.releaseProc c (s.cpu c).p
    some (s.setCpu c { s.cpu c with mode := .sched, proc := none, p := nextSlot (s.cpu c).p })
  else none

def setHandler (s : State κ) (c : κ) (h : Option Handler) : State κ :=
  s.setCpu c { s.cpu c with handler := h }

def advanceHandler (s : State κ) (c : κ) (l : Lk) (chan : Chan) (j : ℕ) : Option (State κ) :=
  wakeupScan s c (some chan) j (fun t => setHandler t c (some ⟨l, some (chan, j + 1)⟩))
    fun t => setHandler t c (some ⟨l, none⟩)

def advance (s : State κ) (c : κ) (ok : Bool) : Option (State κ) :=
  match (s.cpu c).handler with
  | some ⟨l, some (chan, j)⟩ => advanceHandler s c l chan j
  | some ⟨_, none⟩ => none
  | none =>
    match (s.cpu c).mode with
    | .sched => scheduler s c
    | .enter k => some (swtchIn s c k)
    | .exec p => advanceThread s c p ok
    | .leave p k => some (swtchOut s c p k)
    | .back => schedulerBack s c

def call (s : State κ) (c : κ) (p : Slot) : Op → Option (State κ)
  | .acquire l => acquireThen s c l p .run
  | .release l => if s.lk l = some c then some (s.release c l) else none
  | .sleep chan l =>
    -- every caller of `sleep` holds `lk`
    if s.lk l = some c then some (callSleep s p chan (.code l)) else none
  | .wakeup chan => some (s.goto p (.code (.wakeup (some chan) 0)))
  | .fork => some (s.goto p (.code (.forkScan 0)))
  | .exit status =>
    -- `panic("init exiting")` stops the machine
    if p = initproc then none else some (s.goto p (.code (.exitAcquire status)))
  | .wait addr => some (s.goto p (.code (.waitAcquire addr)))
  | .kill pid => some (s.goto p (.code (.killScan pid 0)))

/-- The thread that can take a step of its own on `c`, and where it is. -/
def current (s : State κ) (c : κ) : Option (Slot × Pc) :=
  match (s.cpu c).handler, (s.cpu c).mode with
  | none, .exec p =>
    match s.frame p with
    | .code k => some (p, k)
    | _ => none
  | _, _ => none

def step (s : State κ) : Event κ → Option (State κ)
  | .call c op =>
    match current s c with
    | some (p, .run) => call s c p op
    | _ => none
  | .yield c =>
    match current s c with
    -- interrupts are off while the CPU holds a lock
    | some (p, k) => if (s.cpu c).noff = 0 then yield s c p k else none
    | none => none
  | .advance c ok => advance s c ok
  | .interrupt c l =>
    if (s.cpu c).handler = none ∧ (s.cpu c).noff = 0 ∧ s.lk l = none then
      some (setHandler (s.acquire c l) c (some ⟨l, none⟩))
    else none
  | .handlerWakeup c chan =>
    match (s.cpu c).handler with
    | some ⟨l, none⟩ => some (setHandler s c (some ⟨l, some (chan, 0)⟩))
    | _ => none
  | .handlerReturn c =>
    match (s.cpu c).handler with
    | some ⟨l, none⟩ =>
      if s.lk l = some c then some (setHandler (s.release c l) c none) else none
    | _ => none

/-! ## What a step can do -/

/-- The `wakeup` a thread is in: its channel and the next slot. -/
def Pc.scan : Pc → Option (Option Chan × ℕ)
  | .wakeup chan j => some (chan, j)
  | .exitReparentWakeup _ _ j => some (some (.proc initproc), j)
  | .exitWakeup _ parent j => some (parent.map .proc, j)
  | _ => none

def Pc.child : Pc → Option Slot
  | .forkInit np | .forkParent np _ | .forkRunnable np _ => some np
  | _ => none

/-- The lock a thread needs to hold where it is, to release it or to sleep. -/
def Pc.needs : Pc → Option Lk
  | .waitScan _ _ _ => some .wait
  | .sleepEnter _ caller | .sleepRelease _ caller => some caller.lk
  | _ => none

/-- The thread holds its own `p->lock`. -/
def Pc.locked : Pc → Bool
  | .exitRelease | .sleepRelease _ _ | .sleepSet _ _ => true
  | _ => false

/-- In a call of `sleep`, before `sched`. -/
def Pc.sleeps : Pc → Option (Chan × Lk)
  | .sleepEnter chan caller | .sleepRelease chan caller | .sleepSet chan caller =>
    some (chan, caller.lk)
  | _ => none

/-- Nothing but the lock it may need ties the thread to where it is. -/
structure Pc.Plain (k : Pc) : Prop where
  unlocked : k.locked = false
  child : k.child = none
  awake : k.sleeps = none

/-- What the thread of `p` can do on `c` where it is, with what held before, and the slots
beside its own that it touches. -/
inductive Own (s : State κ) (c : κ) (p : Slot) : Pc → List Slot → State κ → Prop
  | goto {k k' : Pc} (hk : k.Plain) (hk' : k'.Plain)
      (hneeds : k'.needs = none ∨ k'.needs = k.needs) (hscan : ∀ x, k'.scan = some x → x.2 = 0) :
      Own s c p k [] (s.goto p (.code k'))
  | ret {k : Pc} {v : ℤ} (hk : k.Plain) : Own s c p k [] (s.ret p v)
  | acquire {l : Lk} {k k' : Pc} (hk : k.Plain) (hk' : k'.Plain) (hfree : s.lk l = none)
      (hneeds : k'.needs = none ∨ k'.needs = some l) (hscan : k'.scan = none) :
      Own s c p k [] ((s.acquire c l).goto p (.code k'))
  | release {l : Lk} (hheld : s.lk l = some c) : Own s c p .run [] (s.release c l)
  | callSleep {k : Pc} {chan : Chan} {caller : Caller} (hk : k.Plain)
      (hheld : s.lk caller.lk = some c ∨ k.needs = some caller.lk) :
      Own s c p k [] (callSleep s p chan caller)
  | wakeSelf {j : Slot} {k k' : Pc} {chan : Option Chan} (hk : k.Plain) (hk' : k'.Plain)
      (hneeds : k'.needs = none) (hscan : k.scan = some (chan, j.idx))
      (hscan' : k'.scan = some (chan, j.idx + 1)) (hj : (s.cpu c).proc = some j) :
      Own s c p k [] (s.goto p (.code k'))
  | wake {j : Slot} {k k' : Pc} {chan : Option Chan} (hk : k.Plain) (hk' : k'.Plain)
      (hneeds : k'.needs = none) (hscan : k.scan = some (chan, j.idx))
      (hscan' : k'.scan = some (chan, j.idx + 1)) (hlock : s.lock j = none) :
      Own s c p k [j] ((wakeProc s j ((s.proc j).wakeup chan)).goto p (.code k'))
  | kill {j : Slot} {k : Pc} {v : ℤ} (hk : k.Plain) (hlock : s.lock j = none) :
      Own s c p k [j] ((wakeProc s j (s.proc j).kill).ret p v)
  | forkAlloc {np : Slot} {k : Pc} (hk : k.Plain) (hlock : s.lock np = none)
      (hnp : (s.proc np).state = .unused) :
      Own s c p k [np] ((({ s with nextpid := Proc.allocpid s.nextpid }.setProc np
        ((s.proc np).allocproc s.nextpid)).acquireProc c np).goto p (.code (.forkInit np)))
  | forkFail {np : Slot} (hlock : s.lock np = some c) : Own s c p (.forkInit np) [np]
      (((s.setProc np (s.proc np).freeproc).releaseProc c np).ret p (-1))
  | forkReady {np : Slot} (hlock : s.lock np = some c) :
      Own s c p (.forkInit np) [np] (forkReady s c p np)
  | forkParent {np : Slot} {pid : ℤ} (hfree : s.lk .wait = none) : Own s c p (.forkParent np pid) []
      ((((s.acquire c .wait).setProc np { s.proc np with parent := some p }).release
        c .wait).goto p (.code (.forkRunnable np pid)))
  | forkRunnable {np : Slot} {pid : ℤ} (hlock : s.lock np = none) : Own s c p (.forkRunnable np pid)
      [np] ((s.setProc np { s.proc np with state := .runnable }).ret p pid)
  | reparent {q : Slot} {k k' : Pc} (hk : k.Plain) (hk' : k'.Plain) (hneeds : k'.needs = none)
      (hscan : ∀ x, k'.scan = some x → x.2 = 0) : Own s c p k []
      ((s.setProc q { s.proc q with parent := some initproc }).goto p (.code k'))
  | exitZombie {k : Pc} {status : ℤ} (hk : k.Plain) (hlock : s.lock p = none) : Own s c p k []
      (((s.acquireProc c p).setProc p
        { s.proc p with xstate := status, state := .zombie }).goto p (.code .exitRelease))
  | exitRelease (hheld : s.lk .wait = some c) (hlock : s.lock p = some c)
      (hnoff : (s.cpu c).noff - 1 = 1) :
      Own s c p .exitRelease [] ((s.release c .wait).switchOut c p .dead)
  | waitReturn {k : Pc} {v : ℤ} (hk : k.Plain) (hheld : s.lk .wait = some c) :
      Own s c p k [] ((s.release c .wait).ret p v)
  | reap {q : Slot} {k : Pc} {v : ℤ} (hk : k.Plain) (hheld : s.lk .wait = some c)
      (hlock : s.lock q = none) (hq : (s.proc q).state = .zombie) :
      Own s c p k [q] (((s.setProc q (s.proc q).freeproc).release c .wait).ret p v)
  | sleepEnter {chan : Chan} {caller : Caller} (hlock : s.lock p = none) :
      Own s c p (.sleepEnter chan caller) []
        ((s.acquireProc c p).goto p (.code (.sleepRelease chan caller)))
  | sleepRelease {chan : Chan} {caller : Caller} (hheld : s.lk caller.lk = some c) :
      Own s c p (.sleepRelease chan caller) []
        ((s.release c caller.lk).goto p (.code (.sleepSet chan caller)))
  | sleepSet {chan : Chan} {caller : Caller} (hlock : s.lock p = some c)
      (hnoff : (s.cpu c).noff = 1) : Own s c p (.sleepSet chan caller) []
      ((s.setProc p ((s.proc p).sleep chan)).switchOut c p (.sleepBack caller))
  | yield {k : Pc} (hlock : s.lock p = none) (hnoff : (s.cpu c).noff = 0) : Own s c p k []
      (((s.acquireProc c p).setProc p { s.proc p with state := .runnable }).switchOut
        c p (.yieldBack k))

/-- What `c` can do in `scheduler` and `swtch`, and on the way from there into a thread. -/
inductive Switch (s : State κ) (c : κ) : List Slot → State κ → Prop
  | back {p : Slot} {P : Proc} {f : Frame} {k : Pc} (hmode : (s.cpu c).mode = .exec p)
      (hframe : s.frame p = f) (hlock : s.lock p = some c)
      (hf : f = .yieldBack k ∧ P = s.proc p ∨
        (∃ caller, f = .sleepBack caller ∧ k = .sleepAcquire caller ∧
          P = { s.proc p with chan := none }) ∨
        f = .forkret ∧ k = .run ∧ P = s.proc p) :
      Switch s c [p] (((s.setProc p P).releaseProc c p).goto p (.code k))
  | look {q : Slot} (hmode : (s.cpu c).mode = .sched) :
      Switch s c [] (s.setCpu c { s.cpu c with p := q })
  | dispatch (hmode : (s.cpu c).mode = .sched) (hlock : s.lock (s.cpu c).p = none)
      (hp : (s.proc (s.cpu c).p).state = .runnable) : Switch s c [(s.cpu c).p] (dispatch s c)
  | swtchIn {k : ℕ} (hmode : (s.cpu c).mode = .enter k) :
      Switch s c [(s.cpu c).p] (swtchIn s c k)
  | swtchOut {p : Slot} {k : ℕ} (hmode : (s.cpu c).mode = .leave p k) :
      Switch s c [] (swtchOut s c p k)
  | schedulerBack {q : Slot} (hmode : (s.cpu c).mode = .back)
      (hlock : s.lock (s.cpu c).p = some c) :
      Switch s c [(s.cpu c).p] ((s.releaseProc c (s.cpu c).p).setCpu c
        { s.cpu c with mode := .sched, proc := none, p := q, noff := (s.cpu c).noff - 1 })

/-- What an interrupt and its handler can do on `c`. -/
inductive Handles (s : State κ) (c : κ) : List Slot → State κ → Prop
  | interrupt {l : Lk} (hhand : (s.cpu c).handler = none) (hfree : s.lk l = none) :
      Handles s c [] (setHandler (s.acquire c l) c (some ⟨l, none⟩))
  | next {h h' : Handler} (hhand : (s.cpu c).handler = some h) (hh' : h'.lk = h.lk) :
      Handles s c [] (setHandler s c (some h'))
  | wake {h h' : Handler} {chan : Chan} {j : Slot} (hhand : (s.cpu c).handler = some h)
      (hh' : h'.lk = h.lk) (hlock : s.lock j = none) : Handles s c [j]
      (setHandler (wakeProc s j ((s.proc j).wakeup (some chan))) c (some h'))
  | done {h : Handler} (hhand : (s.cpu c).handler = some h) (hheld : s.lk h.lk = some c) :
      Handles s c [] (setHandler (s.release c h.lk) c none)

/-- Every change that one step of `c` can make, and the slots whose threads it may touch. -/
inductive Effect (s : State κ) (c : κ) : List Slot → State κ → Prop
  | own {p : Slot} {k : Pc} {T : List Slot} {t : State κ} (hcur : current s c = some (p, k))
      (ho : Own s c p k T t) : Effect s c (p :: T) t
  | switch {T : List Slot} {t : State κ} (hhand : (s.cpu c).handler = none)
      (hs : Switch s c T t) : Effect s c T t
  | handles {T : List Slot} {t : State κ} (hh : Handles s c T t) : Effect s c T t

omit [DecidableEq κ] in
theorem current_eq_some {s : State κ} {c : κ} {p : Slot} {k : Pc}
    (h : current s c = some (p, k)) :
    (s.cpu c).handler = none ∧ (s.cpu c).mode = .exec p ∧ s.frame p = .code k := by
  unfold current at h
  split at h
  next hhand hmode =>
    split at h
    next hframe =>
      obtain ⟨rfl, rfl⟩ : _ ∧ _ := by simpa using h
      exact ⟨hhand, hmode, hframe⟩
    next => simp at h
  next => simp at h

theorem sched_eq_some {s t : State κ} {c : κ} {p : Slot} {f : Frame} (h : sched s c p f = some t) :
    s.lock p = some c ∧ (s.cpu c).noff = 1 ∧ t = s.switchOut c p f := by
  simp only [sched, Option.ite_none_right_eq_some, Option.some_inj] at h
  exact ⟨h.1.1, h.1.2.1, h.2.symm⟩

section

variable {s t : State κ} {c : κ} {p : Slot} {ok : Bool} {k : Pc}

theorem own_of_wakeupScan {next done : Pc} {chan : Option Chan} {j : ℕ} (hk : k.Plain)
    (hnext : next.Plain) (hdone : done.Plain) (hscan : k.scan = some (chan, j))
    (hscan' : next.scan = some (chan, j + 1)) (hneeds : next.needs = none)
    (hdneeds : done.needs = none) (hdscan : done.scan = none)
    (h : wakeupScan s c chan j (fun t => t.goto p (.code next)) (fun t => t.goto p (.code done)) =
      some t) : ∃ T, Own s c p k T t := by
  unfold wakeupScan at h
  split_ifs at h with hj
  · simp only [wakeupAt, Option.map_eq_some_iff] at h
    obtain ⟨u, hu, rfl⟩ := h
    split_ifs at hu with hself hlock <;> obtain rfl := Option.some_inj.mp hu
    · exact ⟨_, .wakeSelf (j := ⟨j, hj⟩) hk hnext hneeds hscan hscan' hself⟩
    · exact ⟨_, .wake (j := ⟨j, hj⟩) hk hnext hneeds hscan hscan' hlock⟩
  · obtain rfl := Option.some_inj.mp h
    exact ⟨_, .goto hk hdone (.inl hdneeds) (by simp [hdscan])⟩

theorem own_of_acquireThen {l : Lk} {k' : Pc} (hk : k.Plain) (hk' : k'.Plain)
    (hneeds : k'.needs = none ∨ k'.needs = some l) (hscan : k'.scan = none)
    (h : acquireThen s c l p k' = some t) : ∃ T, Own s c p k T t := by
  obtain ⟨hfree, rfl⟩ := Option.ite_some_none_eq_some.mp h
  exact ⟨_, .acquire hk hk' hfree hneeds hscan⟩

theorem own_of_waitScan {addr i : ℕ} {havekids : Bool}
    (h : waitScan s c p addr i havekids ok = some t) :
    ∃ T, Own s c p (.waitScan addr i havekids) T t := by
  have hk : (Pc.waitScan addr i havekids).Plain := ⟨rfl, rfl, rfl⟩
  have hnext : ∀ b, Own s c p (.waitScan addr i havekids) []
      (s.goto p (.code (.waitScan addr (i + 1) b))) := fun b =>
    .goto hk ⟨rfl, rfl, rfl⟩ (.inr rfl) (by simp [Pc.scan])
  have hreturn : ∀ v, waitReturn s c p v = some t →
      ∃ T, Own s c p (.waitScan addr i havekids) T t := by
    intro v hv
    obtain ⟨hheld, rfl⟩ := Option.ite_some_none_eq_some.mp hv
    exact ⟨_, .waitReturn hk hheld⟩
  simp only [waitScan, waitDone] at h
  split_ifs at h with hi hparent hlock hz hok hkids hlock hkilled
  · exact hreturn _ h
  · obtain ⟨hheld, rfl⟩ := Option.ite_some_none_eq_some.mp h
    exact ⟨_, .reap hk hheld hlock hz⟩
  · obtain rfl := Option.some_inj.mp h
    exact ⟨_, hnext true⟩
  · obtain rfl := Option.some_inj.mp h
    exact ⟨_, hnext havekids⟩
  · exact hreturn _ h
  · obtain rfl := Option.some_inj.mp h
    exact ⟨_, .callSleep hk (.inr rfl)⟩
  · exact hreturn _ h

theorem own_of_advancePc (h : advancePc s c p ok k = some t) : ∃ T, Own s c p k T t := by
  have hrun : ∀ {m v}, m.Plain → ∃ T, Own s c p m T (s.ret p v) := fun hm => ⟨_, .ret hm⟩
  cases k with
  | run => simp [advancePc] at h
  | wakeup chan j | exitReparentWakeup status i j | exitWakeup status parent j =>
    exact own_of_wakeupScan ⟨rfl, rfl, rfl⟩ ⟨rfl, rfl, rfl⟩ ⟨rfl, rfl, rfl⟩ rfl rfl rfl rfl rfl h
  | killScan pid i =>
    simp only [advancePc, killScan] at h
    split_ifs at h with hi hlock hpid <;> obtain rfl := Option.some_inj.mp h
    · exact ⟨_, .kill ⟨rfl, rfl, rfl⟩ hlock⟩
    · exact ⟨_, .goto ⟨rfl, rfl, rfl⟩ ⟨rfl, rfl, rfl⟩ (.inl rfl) (by simp [Pc.scan])⟩
    · exact hrun ⟨rfl, rfl, rfl⟩
  | forkScan i =>
    simp only [advancePc, forkScan] at h
    split_ifs at h with hi hlock hnp <;> obtain rfl := Option.some_inj.mp h
    · exact ⟨_, .forkAlloc ⟨rfl, rfl, rfl⟩ hlock hnp⟩
    · exact ⟨_, .goto ⟨rfl, rfl, rfl⟩ ⟨rfl, rfl, rfl⟩ (.inl rfl) (by simp [Pc.scan])⟩
    · exact hrun ⟨rfl, rfl, rfl⟩
  | forkInit np =>
    simp only [advancePc, forkInit] at h
    split_ifs at h with hlock hok <;> obtain rfl := Option.some_inj.mp h
    · exact ⟨_, .forkReady hlock⟩
    · exact ⟨_, .forkFail hlock⟩
  | forkParent np pid =>
    obtain ⟨hfree, rfl⟩ := Option.ite_some_none_eq_some.mp h
    exact ⟨_, .forkParent hfree⟩
  | forkRunnable np pid =>
    obtain ⟨hlock, rfl⟩ := Option.ite_some_none_eq_some.mp h
    exact ⟨_, .forkRunnable hlock⟩
  | exitAcquire status =>
    exact own_of_acquireThen ⟨rfl, rfl, rfl⟩ ⟨rfl, rfl, rfl⟩ (.inl rfl) rfl h
  | exitReparent status i =>
    simp only [advancePc, exitReparent, Option.some_inj] at h
    split_ifs at h with hi hparent <;> subst h
    · exact ⟨_, .reparent ⟨rfl, rfl, rfl⟩ ⟨rfl, rfl, rfl⟩ rfl (by simp [Pc.scan])⟩
    · exact ⟨_, .goto ⟨rfl, rfl, rfl⟩ ⟨rfl, rfl, rfl⟩ (.inl rfl) (by simp [Pc.scan])⟩
    · exact ⟨_, .goto ⟨rfl, rfl, rfl⟩ ⟨rfl, rfl, rfl⟩ (.inl rfl) (by simp [Pc.scan])⟩
  | exitZombie status =>
    obtain ⟨hlock, rfl⟩ := Option.ite_some_none_eq_some.mp h
    exact ⟨_, .exitZombie ⟨rfl, rfl, rfl⟩ hlock⟩
  | exitRelease =>
    simp only [advancePc, exitRelease, Option.ite_none_right_eq_some] at h
    obtain ⟨hlock, hnoff, rfl⟩ := sched_eq_some h.2
    exact ⟨_, .exitRelease h.1 hlock (by simpa [State.release] using hnoff)⟩
  | waitAcquire addr =>
    exact own_of_acquireThen ⟨rfl, rfl, rfl⟩ ⟨rfl, rfl, rfl⟩ (.inr rfl) rfl h
  | waitScan addr i havekids => exact own_of_waitScan h
  | sleepEnter chan caller =>
    obtain ⟨hlock, rfl⟩ := Option.ite_some_none_eq_some.mp h
    exact ⟨_, .sleepEnter hlock⟩
  | sleepRelease chan caller =>
    obtain ⟨hheld, rfl⟩ := Option.ite_some_none_eq_some.mp h
    exact ⟨_, .sleepRelease hheld⟩
  | sleepSet chan caller =>
    obtain ⟨hlock, hnoff, rfl⟩ := sched_eq_some h
    exact ⟨_, .sleepSet hlock hnoff⟩
  | sleepAcquire caller =>
    cases caller with
    | code l => exact own_of_acquireThen ⟨rfl, rfl, rfl⟩ ⟨rfl, rfl, rfl⟩ (.inl rfl) rfl h
    | wait addr => exact own_of_acquireThen ⟨rfl, rfl, rfl⟩ ⟨rfl, rfl, rfl⟩ (.inr rfl) rfl h

theorem own_of_call {op : Op} (h : call s c p op = some t) : ∃ T, Own s c p .run T t := by
  have hrun : Pc.run.Plain := ⟨rfl, rfl, rfl⟩
  cases op with
  | acquire l => exact own_of_acquireThen hrun ⟨rfl, rfl, rfl⟩ (.inl rfl) rfl h
  | release l =>
    obtain ⟨hheld, rfl⟩ := Option.ite_some_none_eq_some.mp h
    exact ⟨_, .release hheld⟩
  | sleep chan l =>
    obtain ⟨hheld, rfl⟩ := Option.ite_some_none_eq_some.mp h
    exact ⟨_, .callSleep hrun (.inl hheld)⟩
  | exit status =>
    simp only [call, Option.ite_none_left_eq_some, Option.some_inj] at h
    obtain ⟨-, rfl⟩ := h
    exact ⟨_, .goto hrun ⟨rfl, rfl, rfl⟩ (.inl rfl) (by simp [Pc.scan])⟩
  | wakeup chan | fork | wait addr | kill pid =>
    obtain rfl := Option.some_inj.mp h
    exact ⟨_, .goto hrun ⟨rfl, rfl, rfl⟩ (.inl rfl) (by simp [Pc.scan])⟩

theorem effect_of_advanceThread (hhand : (s.cpu c).handler = none)
    (hmode : (s.cpu c).mode = .exec p) (h : advanceThread s c p ok = some t) :
    ∃ T, Effect s c T t := by
  have back : ∀ {f k P}, s.frame p = f → s.lock p = some c → _ →
      ∃ T, Effect s c T (((s.setProc p P).releaseProc c p).goto p (.code k)) :=
    fun hframe hlock hf => ⟨_, .switch hhand (.back hmode hframe hlock hf)⟩
  cases hframe : s.frame p with
  | code k =>
    simp only [advanceThread, hframe] at h
    obtain ⟨T, ho⟩ := own_of_advancePc h
    exact ⟨_, .own (by simp [current, hhand, hmode, hframe]) ho⟩
  | yieldBack k =>
    simp only [advanceThread, hframe, returnFromSched] at h
    obtain ⟨hlock, rfl⟩ := Option.ite_some_none_eq_some.mp h
    simpa [setProc] using back (k := k) hframe hlock (.inl ⟨rfl, rfl⟩)
  | sleepBack caller =>
    simp only [advanceThread, hframe, returnFromSched] at h
    obtain ⟨hlock, rfl⟩ := Option.ite_some_none_eq_some.mp h
    exact back hframe hlock (.inr (.inl ⟨caller, rfl, rfl, rfl⟩))
  | forkret =>
    simp only [advanceThread, hframe, returnFromSched] at h
    obtain ⟨hlock, rfl⟩ := Option.ite_some_none_eq_some.mp h
    simpa [setProc] using back (k := .run) hframe hlock (.inr (.inr ⟨rfl, rfl, rfl⟩))
  | dead => simp [advanceThread, hframe, returnFromSched] at h

theorem handles_of_advanceHandler {l : Lk} {chan : Chan} {j : ℕ}
    (hhand : (s.cpu c).handler = some ⟨l, some (chan, j)⟩)
    (h : advanceHandler s c l chan j = some t) : ∃ T, Handles s c T t := by
  unfold advanceHandler wakeupScan at h
  split_ifs at h with hj
  · simp only [wakeupAt, Option.map_eq_some_iff] at h
    obtain ⟨u, hu, rfl⟩ := h
    split_ifs at hu with hself hlock <;> obtain rfl := Option.some_inj.mp hu
    · exact ⟨_, .next hhand rfl⟩
    · exact ⟨_, .wake hhand rfl hlock⟩
  · obtain rfl := Option.some_inj.mp h
    exact ⟨_, .next hhand rfl⟩

theorem effect_of_advance (h : advance s c ok = some t) : ∃ T, Effect s c T t := by
  unfold advance at h
  split at h
  next l chan j hhand =>
    obtain ⟨T, hh⟩ := handles_of_advanceHandler hhand h
    exact ⟨T, .handles hh⟩
  next => simp at h
  next hhand =>
    split at h
    next hmode =>
      simp only [scheduler] at h
      split_ifs at h with hlock hp <;> obtain rfl := Option.some_inj.mp h
      · exact ⟨_, .switch hhand (.dispatch hmode hlock hp)⟩
      · exact ⟨_, .switch hhand (.look hmode)⟩
    next k hmode =>
      obtain rfl := Option.some_inj.mp h
      exact ⟨_, .switch hhand (.swtchIn hmode)⟩
    next p hmode => exact effect_of_advanceThread hhand hmode h
    next p k hmode =>
      obtain rfl := Option.some_inj.mp h
      exact ⟨_, .switch hhand (.swtchOut hmode)⟩
    next hmode =>
      obtain ⟨hlock, rfl⟩ := Option.ite_some_none_eq_some.mp h
      have := Switch.schedulerBack (q := nextSlot (s.cpu c).p) hmode hlock
      exact ⟨_, .switch hhand (by simpa [releaseProc] using this)⟩

theorem effect_of_step {e : Event κ} (h : step s e = some t) : ∃ c T, Effect s c T t := by
  cases e with
  | call c op =>
    simp only [step] at h
    split at h
    next p hcur =>
      obtain ⟨T, ho⟩ := own_of_call h
      exact ⟨c, _, .own hcur ho⟩
    next => simp at h
  | yield c =>
    simp only [step] at h
    split at h
    next p k hcur =>
      simp only [yield, Option.ite_none_right_eq_some] at h
      obtain ⟨-, -, rfl⟩ := sched_eq_some h.2.2
      exact ⟨c, _, .own hcur (.yield h.2.1 h.1)⟩
    next => simp at h
  | advance c ok => exact ⟨c, effect_of_advance h⟩
  | interrupt c l =>
    obtain ⟨⟨hhand, -, hfree⟩, rfl⟩ := Option.ite_some_none_eq_some.mp h
    exact ⟨c, _, .handles (.interrupt hhand hfree)⟩
  | handlerWakeup c chan =>
    simp only [step] at h
    split at h
    next l hhand =>
      obtain rfl := Option.some_inj.mp h
      exact ⟨c, _, .handles (.next hhand rfl)⟩
    next => simp at h
  | handlerReturn c =>
    simp only [step] at h
    split at h
    next l hhand =>
      obtain ⟨hheld, rfl⟩ := Option.ite_some_none_eq_some.mp h
      exact ⟨c, _, .handles (.done hhand hheld)⟩
    next => simp at h

end

end Xv6.Sched
