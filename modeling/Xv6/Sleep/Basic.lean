import Xv6.Proc.Machine

/-!
# Pipes, the console and the clock

The shared objects of `pipe.c`, `console.c` and `trap.c` that a system call may
sleep on, and what the code does to each of them while it holds its lock.
-/

namespace Xv6

namespace Sleep

open Proc (Slot)

def PIPESIZE : ℕ := 512

def INPUT_BUF_SIZE : ℕ := 128

/-- A call of `pipewrite`: its number, the pipe, the user bytes (`none` where
`copyin` fails) and the count. -/
structure WriteCall where
  id : ℕ
  pipe : ℕ
  src : ℕ → Option UInt8
  n : ℤ

/-- A call of `piperead`; `dst i` tells whether `copyout` to `addr + i` succeeds. -/
structure ReadCall where
  id : ℕ
  pipe : ℕ
  dst : ℕ → Bool
  n : ℤ

/-- `struct pipe` without its lock.  The last four fields are bookkeeping that
the code does not have, all since `pipealloc`: the calls of `pipewrite`, the
bytes that entered the buffer and those that were delivered to readers, each
with the number of the call that moved it, and what the calls that have
returned gave back. -/
structure Pipe where
  data : ℕ → UInt8
  nread : BitVec 32
  nwrite : BitVec 32
  readopen : Bool
  writeopen : Bool
  writers : List WriteCall
  sent : List (ℕ × UInt8)
  got : List (ℕ × UInt8)
  rets : List (ℕ × ℤ)

namespace Pipe

/-- The condition under which `piperead` waits for a writer. -/
def Empty (P : Pipe) : Prop := P.nread = P.nwrite

def Full (P : Pipe) : Prop := P.nwrite = P.nread + BitVec.ofNat 32 PIPESIZE

instance (P : Pipe) : Decidable P.Empty := inferInstanceAs (Decidable (_ = _))

instance (P : Pipe) : Decidable P.Full := inferInstanceAs (Decidable (_ = _))

/-- A page fresh from `kalloc`, before `pipealloc` fills it in. -/
def page (data : ℕ → UInt8) : Pipe where
  data := data
  nread := 0
  nwrite := 0
  readopen := false
  writeopen := false
  writers := []
  sent := []
  got := []
  rets := []

/-- What `pipealloc` makes of the page that `kalloc` gave it; it leaves `data` alone. -/
def init (P : Pipe) : Pipe := { page P.data with readopen := true, writeopen := true }

def put (P : Pipe) (id : ℕ) (ch : UInt8) : Pipe :=
  { P with
    data := Function.update P.data (P.nwrite.toNat % PIPESIZE) ch
    nwrite := P.nwrite + 1
    sent := P.sent ++ [(id, ch)] }

/-- The byte that `pi->data[pi->nread++ % PIPESIZE]` reads. -/
def next (P : Pipe) : UInt8 := P.data (P.nread.toNat % PIPESIZE)

def take (P : Pipe) : Pipe := { P with nread := P.nread + 1 }

/-- `copyout` has given `ch` to the caller of call `id`. -/
def deliver (P : Pipe) (id : ℕ) (ch : UInt8) : Pipe := { P with got := P.got ++ [(id, ch)] }

def start (P : Pipe) (c : WriteCall) : Pipe := { P with writers := P.writers ++ [c] }

def finish (P : Pipe) (id : ℕ) (v : ℤ) : Pipe := { P with rets := P.rets ++ [(id, v)] }

def close (P : Pipe) (writable : Bool) : Pipe :=
  if writable then { P with writeopen := false } else { P with readopen := false }

def isOpen (P : Pipe) (writable : Bool) : Bool := if writable then P.writeopen else P.readopen

end Pipe

/-- `cons` of `console.c` without its lock. -/
structure Cons where
  buf : ℕ → UInt8
  r : BitVec 32
  w : BitVec 32
  e : BitVec 32

namespace Cons

def C (x : Char) : UInt8 := x.toUInt8 - '@'.toUInt8

def take (c : Cons) : Cons := { c with r := c.r + 1 }

def last (c : Cons) : UInt8 := c.buf ((c.e - 1).toNat % INPUT_BUF_SIZE)

/-- The loop of `C('U')`, which runs at most `e - w` times. -/
def killLine : ℕ → Cons → Cons
  | 0, c => c
  | fuel + 1, c =>
    if c.e ≠ c.w ∧ c.last ≠ '\n'.toUInt8 then killLine fuel { c with e := c.e - 1 } else c

/-- The `default` case: the new console, and whether readers are woken up. -/
def input (c : Cons) (ch : UInt8) : Cons × Bool :=
  if ch ≠ 0 ∧ (c.e - c.r).toNat < INPUT_BUF_SIZE then
    let ch := if ch = '\r'.toUInt8 then '\n'.toUInt8 else ch
    let c' : Cons :=
      { c with buf := Function.update c.buf (c.e.toNat % INPUT_BUF_SIZE) ch, e := c.e + 1 }
    if ch = '\n'.toUInt8 ∨ ch = C 'D' ∨ (c'.e - c'.r).toNat = INPUT_BUF_SIZE then
      ({ c' with w := c'.e }, true)
    else (c', false)
  else (c, false)

/-- `consoleintr`; the echo on the screen is left out. -/
def consoleintr (c : Cons) (ch : UInt8) : Cons × Bool :=
  if ch = C 'P' then (c, false)
  else if ch = C 'U' then (killLine (c.e - c.w).toNat c, false)
  else if ch = C 'H' ∨ ch = 0x7f then (if c.e ≠ c.w then { c with e := c.e - 1 } else c, false)
  else c.input ch

end Cons

/-- The spin locks that the sleepers of this development give up; `wait_lock`
belongs to the process table. -/
inductive Lock
  | pipe (k : ℕ)
  | cons
  | ticks
  deriving DecidableEq

/-- Who may hold a spin lock. -/
inductive Agent
  | thread (p : Slot)
  /-- The handler of a device or timer interrupt. -/
  | interrupt
  deriving DecidableEq

def chanCons : Chan := .other 0

def chanTicks : Chan := .other 1

def chanRead (k : ℕ) : Chan := .other (2 * k + 2)

def chanWrite (k : ℕ) : Chan := .other (2 * k + 3)

/-- The channel that `pipeclose` wakes up. -/
def chanClose (k : ℕ) (writable : Bool) : Chan := if writable then chanRead k else chanWrite k

@[simp] theorem chanRead_inj {k l : ℕ} : chanRead k = chanRead l ↔ k = l := by
  simp [chanRead]

@[simp] theorem chanWrite_inj {k l : ℕ} : chanWrite k = chanWrite l ↔ k = l := by
  simp [chanWrite]

/-- A call of `consoleread`. -/
structure ConsCall where
  id : ℕ
  dst : ℕ → Bool
  target : ℤ

/-- The local variables of a call in one of the loops that test `killed` before
they sleep; that of `wait` is in the process machine. -/
inductive Loop
  | pipewrite (c : WriteCall) (i : ℕ)
  | piperead (c : ReadCall)
  | consoleread (c : ConsCall) (n : ℤ)
  /-- `ticks0` is read once `tickslock` is held for the first time. -/
  | sysSleep (id : ℕ) (n : BitVec 32) (ticks0 : Option (BitVec 32))

namespace Loop

def lock : Loop → Lock
  | pipewrite c _ => .pipe c.pipe
  | piperead c => .pipe c.pipe
  | consoleread _ _ => .cons
  | sysSleep _ _ _ => .ticks

def chan : Loop → Chan
  | pipewrite c _ => chanWrite c.pipe
  | piperead c => chanRead c.pipe
  | consoleread _ _ => chanCons
  | sysSleep _ _ _ => chanTicks

def id : Loop → ℕ
  | pipewrite c _ => c.id
  | piperead c => c.id
  | consoleread c _ => c.id
  | sysSleep id _ _ => id

/-- What the loop remembers when it has got its lock. -/
def locked (ticks : BitVec 32) : Loop → Loop
  | sysSleep id n none => sysSleep id n (some ticks)
  | l => l

end Loop

/-- Where the thread of a process is in its call. -/
inductive Frame
  /-- In none of the calls modelled here. -/
  | idle
  /-- Before `acquire`, or back from `sched` in `sleep`. -/
  | acquire (l : Loop)
  /-- At the head of the loop. -/
  | test (l : Loop)
  /-- Past the test of `killed`, before `acquire(&p->lock)` in `sleep`. -/
  | sleep (l : Loop)
  /-- In `sched`, called by `sleep`. -/
  | asleep (l : Loop)
  /-- In the loop of `pipewrite`, past the test of `killed`. -/
  | writeBody (c : WriteCall) (i : ℕ)
  /-- In `wakeup(&pi->nread)` at slot `j`, the buffer being full. -/
  | writeFull (c : WriteCall) (i j : ℕ)
  /-- In the last `wakeup(&pi->nread)` of `pipewrite`. -/
  | writeWake (c : WriteCall) (i j : ℕ)
  | readCopy (c : ReadCall) (i : ℕ)
  | readWake (c : ReadCall) (i j : ℕ)
  | closeAcquire (k : ℕ) (writable : Bool)
  | closeWake (k : ℕ) (writable : Bool) (j : ℕ)

namespace Frame

def isIdle : Frame → Bool
  | idle => true
  | _ => false

/-- The spin lock that the thread holds. -/
def holds : Frame → Option Lock
  | idle | acquire _ | asleep _ | closeAcquire _ _ => none
  | test l | sleep l => some l.lock
  | writeBody c _ | writeFull c _ _ | writeWake c _ _ => some (.pipe c.pipe)
  | readCopy c _ | readWake c _ _ => some (.pipe c.pipe)
  | closeWake k _ _ => some (.pipe k)

/-- The thread is in a call of `pipewrite`, or of `piperead`, on pipe `k`. -/
def Uses (k : ℕ) : Bool → Frame → Prop
  | true, acquire (.pipewrite c _) | true, test (.pipewrite c _) | true, sleep (.pipewrite c _)
  | true, asleep (.pipewrite c _) | true, writeBody c _ | true, writeFull c _ _
  | true, writeWake c _ _ => c.pipe = k
  | false, acquire (.piperead c) | false, test (.piperead c) | false, sleep (.piperead c)
  | false, asleep (.piperead c) | false, readCopy c _ | false, readWake c _ _ => c.pipe = k
  | _, _ => False

/-- The channel and the slot at which the thread is in `wakeup`. -/
def waking : Frame → Option (Chan × ℕ)
  | writeFull c _ j | writeWake c _ j => some (chanRead c.pipe, j)
  | readWake c _ j => some (chanWrite c.pipe, j)
  | closeWake k writable j => some (chanClose k writable, j)
  | _ => none

/-- The thread goes on to the next slot in `wakeup`. -/
def nextSlot : Frame → Frame
  | writeFull c i j => writeFull c i (j + 1)
  | writeWake c i j => writeWake c i (j + 1)
  | readWake c i j => readWake c i (j + 1)
  | closeWake k writable j => closeWake k writable (j + 1)
  | f => f

/-- The scheduler has switched back to the thread. -/
def resume : Frame → Frame
  | asleep l => acquire l
  | f => f

end Frame

end Sleep

end Xv6
