import Xv6.Sleep.Basic

/-!
# Calls that sleep

`pipewrite`, `piperead`, `pipeclose`, `consoleread` and `sys_sleep`, cut at the
critical sections of `p->lock`, on top of the process machine, which runs
`fork`, `exit`, `wait` and `kill` and owns the process table.  A thread that is
in one of the calls here is in user code, or asleep, for the process machine.
-/

namespace Xv6.Sleep

open Proc (Slot)
open Function (update update_apply)

/-- `ends k true` and `ends k false` tell whether the `struct file` of the write
end, and of the read end, of pipe `k` has references; `clock` and `uart` are the
slots that the running interrupt handlers have reached in `wakeup`.  `calls` is
bookkeeping: the number of calls so far. -/
structure State where
  life : Proc.State
  frame : Slot → Frame
  pipe : ℕ → Pipe
  ends : ℕ → Bool → Bool
  cons : Cons
  ticks : BitVec 32
  lock : Lock → Option Agent
  clock : Option ℕ
  uart : Option ℕ
  calls : ℕ

/-- The machine after `userinit`, with the given contents of memory. -/
def boot (data : ℕ → ℕ → UInt8) (buf : ℕ → UInt8) : State where
  life := Proc.boot
  frame := fun _ => .idle
  pipe := fun k => .page (data k)
  ends := fun _ _ => false
  cons := { buf := buf, r := 0, w := 0, e := 0 }
  ticks := 0
  lock := fun _ => none
  clock := none
  uart := none
  calls := 0

inductive Event
  /-- A step of the process machine by a thread in none of the calls here. -/
  | life (e : Proc.Event)
  /-- `p` gets page `k` for a new pipe. -/
  | pipealloc (p : Slot) (k : ℕ)
  | pipewrite (p : Slot) (k : ℕ) (src : ℕ → Option UInt8) (n : ℤ)
  | piperead (p : Slot) (k : ℕ) (dst : ℕ → Bool) (n : ℤ)
  | pipeclose (p : Slot) (k : ℕ) (writable : Bool)
  | consoleread (p : Slot) (dst : ℕ → Bool) (n : ℤ)
  | sysSleep (p : Slot) (n : ℤ)
  /-- The next critical section of `p`'s thread. -/
  | advance (p : Slot)
  | clockintr
  | consoleintr (ch : UInt8)
  /-- The next critical section of the handler of the clock. -/
  | clockWakeup
  | uartWakeup

/-- A slot-indexed statement is decided by going through the table. -/
instance decidableForallSlot (P : Slot → Prop) [DecidablePred P] : Decidable (∀ q, P q) :=
  decidable_of_iff (∀ i : Fin NPROC, P ⟨i, i.2⟩) ⟨fun h q => h ⟨q.idx, q.lt⟩, fun h _ => h _⟩

instance (k : ℕ) (writable : Bool) : DecidablePred (Frame.Uses k writable) := fun f => by
  unfold Frame.Uses
  split <;> infer_instance

namespace State

@[simps life pipe ends lock clock uart calls]
def goto (s : State) (p : Slot) (f : Frame) : State :=
  { s with frame := update s.frame p f }

@[simps life frame pipe ends clock uart calls]
def setLock (s : State) (l : Lock) (a : Option Agent) : State :=
  { s with lock := update s.lock l a }

@[simps life frame ends lock clock uart calls]
def setPipe (s : State) (k : ℕ) (P : Pipe) : State :=
  { s with pipe := update s.pipe k P }

def acquire (s : State) (p : Slot) (l : Lock) (f : Frame) : Option State :=
  if s.lock l = none then some ((s.setLock l (some (.thread p))).goto p f) else none

/-- Call `id`, which holds the lock `l`, returns `v`. -/
def finish (s : State) (l : Lock) (id : ℕ) (v : ℤ) : State :=
  match l with
  | .pipe k => s.setPipe k ((s.pipe k).finish id v)
  | _ => s

/-- The thread of `p` releases its lock and leaves call `id` with the value `v`. -/
def ret (s : State) (p : Slot) (l : Lock) (id : ℕ) (v : ℤ) : State :=
  { ((s.finish l id v).setLock l none).goto p .idle with life := s.life.ret p v }

/-- The section of `wakeup(chan)` at slot `j`; past the end of the table the
thread is `done`. -/
def wakeup (s : State) (p : Slot) (chan : Chan) (j : ℕ) (done : State) : State :=
  if h : j < NPROC then
    { s with life := Proc.wakeupAt s.life p (some chan) ⟨j, h⟩ }.goto p (s.frame p).nextSlot
  else done

/-- `sleep(chan, lk)` up to the switch to the scheduler. -/
def sleep (s : State) (p : Slot) (l : Loop) : State :=
  { (s.setLock l.lock none).goto p (.asleep l) with
    life := (s.life.setProc p ((s.life.proc p).sleep l.chan)).goto p .asleep }

/-- `if(killed(p))` in front of a `sleep`: give up, or go on to `f`. -/
def unlessKilled (s : State) (p : Slot) (l : Loop) (f : Frame) : State :=
  if (s.life.proc p).killed ≠ 0 then s.ret p l.lock l.id (-1) else s.goto p f

/-! ### What the updates leave alone -/

@[simp, grind =] theorem goto_frame (s : State) (p q : Slot) (f : Frame) :
    (s.goto p f).frame q = if q = p then f else s.frame q := by
  simp [goto, update_apply]

@[simp, grind =] theorem setLock_lock (s : State) (l m : Lock) (a : Option Agent) :
    (s.setLock l a).lock m = if m = l then a else s.lock m := by
  simp [setLock, update_apply]

@[simp, grind =] theorem setPipe_pipe (s : State) (k l : ℕ) (P : Pipe) :
    (s.setPipe k P).pipe l = if l = k then P else s.pipe l := by
  simp [setPipe, update_apply]

attribute [grind =] goto_life goto_pipe goto_ends goto_lock goto_clock goto_uart goto_calls
  setLock_life setLock_frame setLock_pipe setLock_ends setLock_clock setLock_uart setLock_calls
  setPipe_life setPipe_frame setPipe_ends setPipe_lock setPipe_clock setPipe_uart setPipe_calls

@[simp, grind =] theorem finish_life (s : State) (l : Lock) (id : ℕ) (v : ℤ) :
    (s.finish l id v).life = s.life := by
  cases l <;> rfl

@[simp, grind =] theorem finish_frame (s : State) (l : Lock) (id : ℕ) (v : ℤ) (q : Slot) :
    (s.finish l id v).frame q = s.frame q := by
  cases l <;> rfl

theorem finish_pipe (s : State) (l : Lock) (id : ℕ) (v : ℤ) (k : ℕ) :
    (s.finish l id v).pipe k = if l = .pipe k then (s.pipe k).finish id v else s.pipe k := by
  cases l with
  | pipe m => by_cases hm : k = m <;> simp [finish, hm, eq_comm]
  | cons | ticks => simp [finish]

end State

def writeTest (s : State) (p : Slot) (c : WriteCall) (i : ℕ) : State :=
  if (i : ℤ) < c.n then
    if (s.pipe c.pipe).readopen = false then s.ret p (.pipe c.pipe) c.id (-1)
    else s.unlessKilled p (.pipewrite c i) (.writeBody c i)
  else s.goto p (.writeWake c i 0)

/-- The rest of the loop body of `pipewrite`. -/
def writeBody (s : State) (p : Slot) (c : WriteCall) (i : ℕ) : State :=
  if (s.pipe c.pipe).Full then s.goto p (.writeFull c i 0)
  else
    match c.src i with
    | none => s.goto p (.writeWake c i 0)
    | some ch =>
      (s.setPipe c.pipe ((s.pipe c.pipe).put c.id ch)).goto p (.test (.pipewrite c (i + 1)))

def readTest (s : State) (p : Slot) (c : ReadCall) : State :=
  if (s.pipe c.pipe).Empty ∧ (s.pipe c.pipe).writeopen then
    s.unlessKilled p (.piperead c) (.sleep (.piperead c))
  else s.goto p (.readCopy c 0)

def readCopy (s : State) (p : Slot) (c : ReadCall) (i : ℕ) : State :=
  if (i : ℤ) < c.n ∧ ¬(s.pipe c.pipe).Empty then
    let ch := (s.pipe c.pipe).next
    let P := (s.pipe c.pipe).take
    if c.dst i then (s.setPipe c.pipe (P.deliver c.id ch)).goto p (.readCopy c (i + 1))
    else (s.setPipe c.pipe P).goto p (.readWake c i 0)
  else s.goto p (.readWake c i 0)

/-- The part of `consoleread` that has a byte `ch`; `s'` has it taken off the buffer. -/
def consByte (s s' : State) (p : Slot) (c : ConsCall) (n : ℤ) (ch : UInt8) : State :=
  if ch = Cons.C 'D' then
    -- a `^D` behind other input is kept for the next call
    if n < c.target then s.ret p .cons c.id (c.target - n) else s'.ret p .cons c.id (c.target - n)
  else if c.dst (c.target - n).toNat = false then s'.ret p .cons c.id (c.target - n)
  else if ch = '\n'.toUInt8 then s'.ret p .cons c.id (c.target - (n - 1))
  else s'.goto p (.test (.consoleread c (n - 1)))

/-- One round of the outer loop of `consoleread`. -/
def consTest (s : State) (p : Slot) (c : ConsCall) (n : ℤ) : State :=
  if 0 < n then
    if s.cons.r = s.cons.w then
      s.unlessKilled p (.consoleread c n) (.sleep (.consoleread c n))
    else
      consByte s { s with cons := s.cons.take } p c n
        (s.cons.buf (s.cons.r.toNat % INPUT_BUF_SIZE))
  else s.ret p .cons c.id (c.target - n)

def tickTest (s : State) (p : Slot) (id : ℕ) (n ticks0 : BitVec 32) : State :=
  if s.ticks - ticks0 < n then
    s.unlessKilled p (.sysSleep id n (some ticks0)) (.sleep (.sysSleep id n (some ticks0)))
  else s.ret p .ticks id 0

def test (s : State) (p : Slot) : Loop → State
  | .pipewrite c i => writeTest s p c i
  | .piperead c => readTest s p c
  | .consoleread c n => consTest s p c n
  | .sysSleep id n ticks0 => tickTest s p id n (ticks0.getD s.ticks)

/-- The first section of `pipeclose`. -/
def closeAcquire (s : State) (p : Slot) (k : ℕ) (writable : Bool) : Option State :=
  (s.acquire p (.pipe k) (.closeWake k writable 0)).map
    (State.setPipe · k ((s.pipe k).close writable))

def advance (s : State) (p : Slot) : Option State :=
  match s.frame p with
  | .idle | .asleep _ => none
  | .acquire l => s.acquire p l.lock (.test (l.locked s.ticks))
  | .test l => some (test s p l)
  | .sleep l => some (s.sleep p l)
  | .writeBody c i => some (writeBody s p c i)
  | .writeFull c i j =>
    some (s.wakeup p (chanRead c.pipe) j (s.goto p (.sleep (.pipewrite c i))))
  | .writeWake c i j =>
    some (s.wakeup p (chanRead c.pipe) j (s.ret p (.pipe c.pipe) c.id i))
  | .readCopy c i => some (readCopy s p c i)
  | .readWake c i j =>
    some (s.wakeup p (chanWrite c.pipe) j (s.ret p (.pipe c.pipe) c.id i))
  | .closeAcquire k writable => closeAcquire s p k writable
  | .closeWake k writable j =>
    -- the page of a pipe with both ends closed goes back to `kalloc`
    some (s.wakeup p (chanClose k writable) j ((s.setLock (.pipe k) none).goto p .idle))

def Free (s : State) (p : Slot) : Prop :=
  (s.life.proc p).state = .running ∧ s.life.pc p = .user ∧ (s.frame p).isIdle

instance (s : State) (p : Slot) : Decidable (Free s p) := inferInstanceAs (Decidable (_ ∧ _ ∧ _))

def enter (s : State) (p : Slot) (l : Loop) : Option State :=
  if Free s p then some ({ s with calls := s.calls + 1 }.goto p (.acquire l)) else none

/-- The slot whose thread takes a step of the process machine. -/
def actor : Proc.Event → Slot
  | .fork p | .exit p _ | .wait p _ | .kill p _ | .advance p _ | .schedule p | .yield p
  | .sleep p _ | .wakeup p _ => p

def lifeStep (s : State) (e : Proc.Event) : Option State :=
  (Proc.step s.life e).map fun l => { s with life := l }

def life (s : State) : Proc.Event → Option State
  | .schedule p => (lifeStep s (.schedule p)).map (State.goto · p (s.frame p).resume)
  -- interrupts are off while the thread holds a spin lock
  | .yield p => if (s.frame p).holds = none then lifeStep s (.yield p) else none
  -- every other `sleep` and `wakeup` is on channels of its own
  | .sleep _ _ | .wakeup _ _ => none
  | e => if (s.frame (actor e)).isIdle then lifeStep s e else none

/-- A handler that has set `h` goes on with `wakeup(chan)` at slot `j`. -/
def handlerWakeup (s : State) (l : Lock) (chan : Chan) (j : ℕ) (set : Option ℕ → State → State) :
    State :=
  -- the interrupted process is running, so that it does not matter that `wakeup` skips it
  if h : j < NPROC then
    set (some (j + 1))
      { s with life := s.life.setProc ⟨j, h⟩ ((s.life.proc ⟨j, h⟩).wakeup (some chan)) }
  else set none (s.setLock l none)

def setClock (j : Option ℕ) (s : State) : State := { s with clock := j }

def setUart (j : Option ℕ) (s : State) : State := { s with uart := j }

def clockintr (s : State) : Option State :=
  if s.lock .ticks = none then
    some { s.setLock .ticks (some .interrupt) with ticks := s.ticks + 1, clock := some 0 }
  else none

def consoleintr (s : State) (ch : UInt8) : Option State :=
  if s.lock .cons = none then
    let (cons, wake) := s.cons.consoleintr ch
    if wake then
      some { s.setLock .cons (some .interrupt) with cons := cons, uart := some 0 }
    else some { s with cons := cons }
  else none

def step (s : State) : Event → Option State
  | .life e => life s e
  | .pipealloc p k =>
    -- `kalloc` does not give out the page of a pipe with an open end
    if Free s p ∧ (s.pipe k).readopen = false ∧ (s.pipe k).writeopen = false ∧
        s.lock (.pipe k) = none then
      some { s.setPipe k (s.pipe k).init with ends := update s.ends k fun _ => true }
    else none
  | .pipewrite p k src n =>
    if s.ends k true then
      enter (s.setPipe k ((s.pipe k).start ⟨s.calls, k, src, n⟩)) p
        (.pipewrite ⟨s.calls, k, src, n⟩ 0)
    else none
  | .piperead p k dst n =>
    if s.ends k false then enter s p (.piperead ⟨s.calls, k, dst, n⟩) else none
  | .pipeclose p k writable =>
    -- `fileclose` has dropped the last reference; a thread in a call has one
    if Free s p ∧ s.ends k writable ∧ ∀ q, ¬(s.frame q).Uses k writable then
      some ({ s with
        ends := update s.ends k (update (s.ends k) writable false) }.goto p
          (.closeAcquire k writable))
    else none
  | .consoleread p dst n => enter s p (.consoleread ⟨s.calls, dst, n⟩ n)
  | .sysSleep p n => enter s p (.sysSleep s.calls (BitVec.ofInt 32 (max n 0)) none)
  | .advance p => if (s.life.proc p).state = .running then advance s p else none
  | .clockintr => clockintr s
  | .consoleintr ch => consoleintr s ch
  | .clockWakeup => s.clock.map fun j => handlerWakeup s .ticks chanTicks j setClock
  | .uartWakeup => s.uart.map fun j => handlerWakeup s .cons chanCons j setUart

/-! ## What a step can do -/

/-- Every change that one step can make, with what held before it. -/
inductive Effect (s : State) : Event → State → Prop
  | life {e : Proc.Event} {l : Proc.State} (hstep : Proc.step s.life e = some l)
      (hidle : (s.frame (actor e)).isIdle) (hsched : ∀ p, e ≠ .schedule p)
      (hsleep : ∀ p k, e ≠ .sleep p k) : Effect s (.life e) { s with life := l }
  | schedule {p : Slot} (hrun : (s.life.proc p).state = .runnable) :
      Effect s (.life (.schedule p))
        ({ s with life := Proc.schedule s.life p }.goto p (s.frame p).resume)
  | yield {p : Slot} (hrun : (s.life.proc p).state = .running) :
      Effect s (.life (.yield p))
        { s with life := s.life.setProc p { s.life.proc p with state := .runnable } }
  | pipealloc {p : Slot} {k : ℕ} (hread : (s.pipe k).readopen = false)
      (hwrite : (s.pipe k).writeopen = false) (hfree : s.lock (.pipe k) = none) (hp : Free s p) :
      Effect s (.pipealloc p k)
        { s.setPipe k (s.pipe k).init with ends := update s.ends k fun _ => true }
  | pipewrite {p : Slot} {k : ℕ} {src : ℕ → Option UInt8} {n : ℤ} (hp : Free s p)
      (hend : s.ends k true) :
      Effect s (.pipewrite p k src n)
        ({ s.setPipe k ((s.pipe k).start ⟨s.calls, k, src, n⟩) with calls := s.calls + 1 }.goto p
          (.acquire (.pipewrite ⟨s.calls, k, src, n⟩ 0)))
  | piperead {p : Slot} {k : ℕ} {dst : ℕ → Bool} {n : ℤ} (hp : Free s p) (hend : s.ends k false) :
      Effect s (.piperead p k dst n)
        ({ s with calls := s.calls + 1 }.goto p (.acquire (.piperead ⟨s.calls, k, dst, n⟩)))
  | pipeclose {p : Slot} {k : ℕ} {writable : Bool} (hp : Free s p) (hend : s.ends k writable)
      (hunused : ∀ q, ¬(s.frame q).Uses k writable) :
      Effect s (.pipeclose p k writable)
        ({ s with
          ends := update s.ends k (update (s.ends k) writable false) }.goto p
            (.closeAcquire k writable))
  | consoleread {p : Slot} {dst : ℕ → Bool} {n : ℤ} (hp : Free s p) :
      Effect s (.consoleread p dst n)
        ({ s with calls := s.calls + 1 }.goto p (.acquire (.consoleread ⟨s.calls, dst, n⟩ n)))
  | sysSleep {p : Slot} {n : ℤ} {m : BitVec 32} (hp : Free s p) :
      Effect s (.sysSleep p n)
        ({ s with calls := s.calls + 1 }.goto p (.acquire (.sysSleep s.calls m none)))
  | acquire {p : Slot} {l : Loop} (hf : s.frame p = .acquire l) (hfree : s.lock l.lock = none) :
      Effect s (.advance p)
        ((s.setLock l.lock (some (.thread p))).goto p (.test (l.locked s.ticks)))
  | giveUp {p : Slot} {l : Loop} (hf : s.frame p = .test l) (hk : (s.life.proc p).killed ≠ 0) :
      Effect s (.advance p) (s.ret p l.lock l.id (-1))
  | brokenPipe {p : Slot} {c : WriteCall} {i : ℕ} (hf : s.frame p = .test (.pipewrite c i))
      (hread : (s.pipe c.pipe).readopen = false) :
      Effect s (.advance p) (s.ret p (.pipe c.pipe) c.id (-1))
  | writeGo {p : Slot} {c : WriteCall} {i : ℕ} (hf : s.frame p = .test (.pipewrite c i))
      (hread : (s.pipe c.pipe).readopen) (hk : (s.life.proc p).killed = 0) :
      Effect s (.advance p) (s.goto p (.writeBody c i))
  | writeEnd {p : Slot} {c : WriteCall} {i : ℕ} (hf : s.frame p = .test (.pipewrite c i)) :
      Effect s (.advance p) (s.goto p (.writeWake c i 0))
  | writeFull {p : Slot} {c : WriteCall} {i : ℕ} (hf : s.frame p = .writeBody c i)
      (hfull : (s.pipe c.pipe).Full) : Effect s (.advance p) (s.goto p (.writeFull c i 0))
  | writeFault {p : Slot} {c : WriteCall} {i : ℕ} (hf : s.frame p = .writeBody c i) :
      Effect s (.advance p) (s.goto p (.writeWake c i 0))
  | put {p : Slot} {c : WriteCall} {i : ℕ} {ch : UInt8} (hf : s.frame p = .writeBody c i)
      (hroom : ¬(s.pipe c.pipe).Full) (hch : c.src i = some ch) :
      Effect s (.advance p)
        ((s.setPipe c.pipe ((s.pipe c.pipe).put c.id ch)).goto p (.test (.pipewrite c (i + 1))))
  | doze {p : Slot} {l l' : Loop} (hf : s.frame p = .test l) (hk : (s.life.proc p).killed = 0)
      (hlock : l'.lock = l.lock) (hwrite : ∀ c i, l' ≠ .pipewrite c i)
      (hread : ∀ c, l' = .piperead c →
        l = .piperead c ∧ (s.pipe c.pipe).Empty ∧ (s.pipe c.pipe).writeopen) :
      Effect s (.advance p) (s.goto p (.sleep l'))
  | readGo {p : Slot} {c : ReadCall} (hf : s.frame p = .test (.piperead c))
      (hgo : ¬((s.pipe c.pipe).Empty ∧ (s.pipe c.pipe).writeopen)) :
      Effect s (.advance p) (s.goto p (.readCopy c 0))
  | take {p : Slot} {c : ReadCall} {i : ℕ} (hf : s.frame p = .readCopy c i)
      (hne : ¬(s.pipe c.pipe).Empty) (hok : c.dst i) :
      Effect s (.advance p)
        ((s.setPipe c.pipe ((s.pipe c.pipe).take.deliver c.id (s.pipe c.pipe).next)).goto p
          (.readCopy c (i + 1)))
  | takeFault {p : Slot} {c : ReadCall} {i : ℕ} (hf : s.frame p = .readCopy c i)
      (hne : ¬(s.pipe c.pipe).Empty) (hok : c.dst i = false) :
      Effect s (.advance p) ((s.setPipe c.pipe (s.pipe c.pipe).take).goto p (.readWake c i 0))
  | readEnd {p : Slot} {c : ReadCall} {i : ℕ} (hf : s.frame p = .readCopy c i) :
      Effect s (.advance p) (s.goto p (.readWake c i 0))
  | consNext {p : Slot} {c : ConsCall} {n m : ℤ} {cons : Cons}
      (hf : s.frame p = .test (.consoleread c n)) :
      Effect s (.advance p) ({ s with cons := cons }.goto p (.test (.consoleread c m)))
  | consRet {p : Slot} {c : ConsCall} {n v : ℤ} {cons : Cons}
      (hf : s.frame p = .test (.consoleread c n)) :
      Effect s (.advance p) ({ s with cons := cons }.ret p .cons c.id v)
  | tickRet {p : Slot} {id : ℕ} {n : BitVec 32} {ticks0 : Option (BitVec 32)}
      (hf : s.frame p = .test (.sysSleep id n ticks0)) :
      Effect s (.advance p) (s.ret p .ticks id 0)
  | sleep {p : Slot} {l : Loop} (hf : s.frame p = .sleep l) : Effect s (.advance p) (s.sleep p l)
  | wake {p j : Slot} {chan : Chan} (hf : (s.frame p).waking = some (chan, j.idx)) :
      Effect s (.advance p)
        ({ s with life := Proc.wakeupAt s.life p (some chan) j }.goto p (s.frame p).nextSlot)
  | fullDone {p : Slot} {c : WriteCall} {i j : ℕ} (hf : s.frame p = .writeFull c i j)
      (hj : NPROC ≤ j) : Effect s (.advance p) (s.goto p (.sleep (.pipewrite c i)))
  | writeDone {p : Slot} {c : WriteCall} {i j : ℕ} (hf : s.frame p = .writeWake c i j)
      (hj : NPROC ≤ j) : Effect s (.advance p) (s.ret p (.pipe c.pipe) c.id i)
  | readDone {p : Slot} {c : ReadCall} {i j : ℕ} (hf : s.frame p = .readWake c i j)
      (hj : NPROC ≤ j) : Effect s (.advance p) (s.ret p (.pipe c.pipe) c.id i)
  | closeAcquire {p : Slot} {k : ℕ} {writable : Bool} (hf : s.frame p = .closeAcquire k writable)
      (hfree : s.lock (.pipe k) = none) :
      Effect s (.advance p)
        (((s.setLock (.pipe k) (some (.thread p))).goto p (.closeWake k writable 0)).setPipe k
          ((s.pipe k).close writable))
  | closeDone {p : Slot} {k j : ℕ} {writable : Bool} (hf : s.frame p = .closeWake k writable j)
      (hj : NPROC ≤ j) : Effect s (.advance p) ((s.setLock (.pipe k) none).goto p .idle)
  | clockintr (hfree : s.lock .ticks = none) :
      Effect s .clockintr
        { s.setLock .ticks (some .interrupt) with ticks := s.ticks + 1, clock := some 0 }
  | consoleintr {ch : UInt8} {cons : Cons} : Effect s (.consoleintr ch) { s with cons := cons }
  | consoleWake {ch : UInt8} {cons : Cons} (hfree : s.lock .cons = none) :
      Effect s (.consoleintr ch)
        { s.setLock .cons (some .interrupt) with cons := cons, uart := some 0 }
  | clockWake {j : Slot} (hj : s.clock = some j.idx) :
      Effect s .clockWakeup
        { s with
          life := s.life.setProc j ((s.life.proc j).wakeup (some chanTicks))
          clock := some (j.idx + 1) }
  | uartWake {j : Slot} (hj : s.uart = some j.idx) :
      Effect s .uartWakeup
        { s with
          life := s.life.setProc j ((s.life.proc j).wakeup (some chanCons))
          uart := some (j.idx + 1) }
  | clockDone (hj : s.clock ≠ none) :
      Effect s .clockWakeup { s.setLock .ticks none with clock := none }
  | uartDone (hj : s.uart ≠ none) :
      Effect s .uartWakeup { s.setLock .cons none with uart := none }

variable {s s' : State} {p : Slot} {e : Event}

theorem effect_of_unlessKilled {l l' : Loop} {f : Frame} (hf : s.frame p = .test l)
    (hlock : l'.lock = l.lock) (hid : l'.id = l.id)
    (hgo : (s.life.proc p).killed = 0 → Effect s (.advance p) (s.goto p f)) :
    Effect s (.advance p) (s.unlessKilled p l' f) := by
  unfold State.unlessKilled
  by_cases hk : (s.life.proc p).killed = 0
  · rw [if_neg (not_not.mpr hk)]
    exact hgo hk
  · rw [if_pos hk, hlock, hid]
    exact .giveUp hf hk

theorem effect_of_writeTest {c : WriteCall} {i : ℕ} (hf : s.frame p = .test (.pipewrite c i)) :
    Effect s (.advance p) (writeTest s p c i) := by
  unfold writeTest
  split_ifs with hi hread
  · exact .brokenPipe hf hread
  · exact effect_of_unlessKilled hf rfl rfl fun hk => .writeGo hf (by simpa using hread) hk
  · exact .writeEnd hf

theorem effect_of_writeBody {c : WriteCall} {i : ℕ} (hf : s.frame p = .writeBody c i) :
    Effect s (.advance p) (writeBody s p c i) := by
  unfold writeBody
  by_cases hfull : (s.pipe c.pipe).Full
  · rw [if_pos hfull]
    exact .writeFull hf hfull
  · rw [if_neg hfull]
    cases hch : c.src i with
    | none => exact .writeFault hf
    | some ch => exact .put hf hfull hch

theorem effect_of_readTest {c : ReadCall} (hf : s.frame p = .test (.piperead c)) :
    Effect s (.advance p) (readTest s p c) := by
  unfold readTest
  by_cases hwait : (s.pipe c.pipe).Empty ∧ (s.pipe c.pipe).writeopen
  · rw [if_pos hwait]
    refine effect_of_unlessKilled hf rfl rfl fun hk => .doze hf hk rfl nofun fun c' hc => ?_
    cases hc
    exact ⟨rfl, hwait⟩
  · rw [if_neg hwait]
    exact .readGo hf hwait

theorem effect_of_readCopy {c : ReadCall} {i : ℕ} (hf : s.frame p = .readCopy c i) :
    Effect s (.advance p) (readCopy s p c i) := by
  unfold readCopy
  split_ifs with hi hok
  · exact .take hf hi.2 hok
  · exact .takeFault hf hi.2 (by simpa using hok)
  · exact .readEnd hf

theorem effect_of_consRet {c : ConsCall} {n : ℤ} (hf : s.frame p = .test (.consoleread c n))
    (v : ℤ) : Effect s (.advance p) (s.ret p .cons c.id v) := by
  have h : Effect s (.advance p) ({ s with cons := s.cons }.ret p .cons c.id v) := .consRet hf
  exact h

theorem effect_of_consByte {c : ConsCall} {n : ℤ} (hf : s.frame p = .test (.consoleread c n))
    (cons : Cons) (ch : UInt8) :
    Effect s (.advance p) (consByte s { s with cons := cons } p c n ch) := by
  unfold consByte
  split_ifs
  · exact effect_of_consRet hf _
  · exact .consRet hf
  · exact .consRet hf
  · exact .consRet hf
  · exact .consNext hf

theorem effect_of_consTest {c : ConsCall} {n : ℤ} (hf : s.frame p = .test (.consoleread c n)) :
    Effect s (.advance p) (consTest s p c n) := by
  unfold consTest
  split_ifs
  · exact effect_of_unlessKilled hf rfl rfl fun hk => .doze hf hk rfl nofun nofun
  · exact effect_of_consByte hf _ _
  · exact effect_of_consRet hf _

theorem effect_of_tickTest {id : ℕ} {n : BitVec 32} {ticks0 : Option (BitVec 32)}
    (hf : s.frame p = .test (.sysSleep id n ticks0)) (t : BitVec 32) :
    Effect s (.advance p) (tickTest s p id n t) := by
  unfold tickTest
  split_ifs
  · exact effect_of_unlessKilled hf rfl rfl fun hk => .doze hf hk rfl nofun nofun
  · exact .tickRet hf

theorem effect_of_wakeup {chan : Chan} {j : ℕ} {t : State}
    (hf : (s.frame p).waking = some (chan, j)) (hdone : NPROC ≤ j → Effect s (.advance p) t) :
    Effect s (.advance p) (s.wakeup p chan j t) := by
  unfold State.wakeup
  split_ifs with hj
  · exact .wake (j := ⟨j, hj⟩) hf
  · exact hdone (by omega)

theorem effect_of_advance (h : advance s p = some s') : Effect s (.advance p) s' := by
  unfold advance at h
  cases hf : s.frame p with
  | idle | asleep l => simp [hf] at h
  | acquire l =>
    simp only [hf, State.acquire, Option.ite_none_right_eq_some, Option.some_inj] at h
    obtain ⟨hfree, rfl⟩ := h
    exact .acquire hf hfree
  | test l =>
    simp only [hf, Option.some_inj] at h
    subst h
    cases l with
    | pipewrite c i => exact effect_of_writeTest hf
    | piperead c => exact effect_of_readTest hf
    | consoleread c n => exact effect_of_consTest hf
    | sysSleep id n ticks0 => exact effect_of_tickTest hf _
  | sleep l =>
    simp only [hf, Option.some_inj] at h
    subst h
    exact .sleep hf
  | writeBody c i =>
    simp only [hf, Option.some_inj] at h
    subst h
    exact effect_of_writeBody hf
  | readCopy c i =>
    simp only [hf, Option.some_inj] at h
    subst h
    exact effect_of_readCopy hf
  | writeFull c i j =>
    simp only [hf, Option.some_inj] at h
    subst h
    exact effect_of_wakeup (by rw [hf]; rfl) fun hj => .fullDone hf hj
  | writeWake c i j =>
    simp only [hf, Option.some_inj] at h
    subst h
    exact effect_of_wakeup (by rw [hf]; rfl) fun hj => .writeDone hf hj
  | readWake c i j =>
    simp only [hf, Option.some_inj] at h
    subst h
    exact effect_of_wakeup (by rw [hf]; rfl) fun hj => .readDone hf hj
  | closeWake k writable j =>
    simp only [hf, Option.some_inj] at h
    subst h
    exact effect_of_wakeup (by rw [hf]; rfl) fun hj => .closeDone hf hj
  | closeAcquire k writable =>
    simp only [hf, Sleep.closeAcquire, State.acquire, Option.map_eq_some_iff,
      Option.ite_none_right_eq_some, Option.some_inj] at h
    obtain ⟨t, ⟨hfree, rfl⟩, rfl⟩ := h
    exact .closeAcquire hf hfree

theorem effect_of_life {e : Proc.Event} (h : life s e = some s') : Effect s (.life e) s' := by
  have hother : (if (s.frame (actor e)).isIdle then lifeStep s e else none) = some s' →
      (∀ p, e ≠ .schedule p) → (∀ p k, e ≠ .sleep p k) → Effect s (.life e) s' := by
    intro h hsched hsleep
    simp only [Option.ite_none_right_eq_some, lifeStep, Option.map_eq_some_iff] at h
    obtain ⟨hidle, l, hl, rfl⟩ := h
    exact .life hl hidle hsched hsleep
  cases e with
  | schedule p =>
    simp only [life, lifeStep, Proc.step, Option.map_eq_some_iff, Option.ite_none_right_eq_some,
      Option.some_inj] at h
    obtain ⟨t, ⟨l, ⟨hrun, rfl⟩, rfl⟩, rfl⟩ := h
    exact .schedule hrun
  | yield p =>
    simp only [life, lifeStep, Proc.step, Option.map_eq_some_iff, Option.ite_none_right_eq_some,
      Option.some_inj] at h
    obtain ⟨-, l, ⟨⟨hrun, -⟩, rfl⟩, rfl⟩ := h
    exact .yield hrun
  | sleep p k | wakeup p k => simp [life] at h
  | fork p | exit p status | wait p addr | kill p pid | advance p ok =>
    exact hother h (by simp) (by simp)

theorem enter_eq_some {l : Loop} (h : enter s p l = some s') :
    Free s p ∧ s' = { s with calls := s.calls + 1 }.goto p (.acquire l) := by
  obtain ⟨hfree, rfl⟩ := Option.ite_some_none_eq_some.mp h
  exact ⟨hfree, rfl⟩

theorem effect_of_step (h : step s e = some s') : Effect s e s' := by
  cases e with
  | life e => exact effect_of_life h
  | pipealloc p k =>
    obtain ⟨⟨hp, hread, hwrite, hfree⟩, rfl⟩ := Option.ite_some_none_eq_some.mp h
    exact .pipealloc hread hwrite hfree hp
  | pipewrite p k src n =>
    obtain ⟨hend, h⟩ := Option.ite_none_right_eq_some.mp h
    obtain ⟨hfree, rfl⟩ := enter_eq_some h
    exact .pipewrite hfree hend
  | piperead p k dst n =>
    obtain ⟨hend, h⟩ := Option.ite_none_right_eq_some.mp h
    obtain ⟨hfree, rfl⟩ := enter_eq_some h
    exact .piperead hfree hend
  | pipeclose p k writable =>
    obtain ⟨⟨hfree, hend, hunused⟩, rfl⟩ := Option.ite_some_none_eq_some.mp h
    exact .pipeclose hfree hend hunused
  | consoleread p dst n =>
    obtain ⟨hfree, rfl⟩ := enter_eq_some h
    exact .consoleread hfree
  | sysSleep p n =>
    obtain ⟨hfree, rfl⟩ := enter_eq_some h
    exact .sysSleep hfree
  | advance p =>
    exact effect_of_advance (Option.ite_none_right_eq_some.mp h).2
  | clockintr =>
    obtain ⟨hfree, rfl⟩ := Option.ite_some_none_eq_some.mp h
    exact .clockintr hfree
  | consoleintr ch =>
    simp only [step, Sleep.consoleintr, Option.ite_none_right_eq_some] at h
    obtain ⟨hfree, h⟩ := h
    split_ifs at h <;> simp only [Option.some_inj] at h <;> subst h
    · exact .consoleWake hfree
    · exact .consoleintr
  | clockWakeup =>
    simp only [step, Option.map_eq_some_iff, handlerWakeup] at h
    obtain ⟨j, hj, rfl⟩ := h
    split_ifs with hlt
    · exact .clockWake (j := ⟨j, hlt⟩) hj
    · exact .clockDone (by simp [hj])
  | uartWakeup =>
    simp only [step, Option.map_eq_some_iff, handlerWakeup] at h
    obtain ⟨j, hj, rfl⟩ := h
    split_ifs with hlt
    · exact .uartWake (j := ⟨j, hlt⟩) hj
    · exact .uartDone (by simp [hj])

end Xv6.Sleep
