import Xv6.Params

/-!
# Process slots

The entries of the process table of `proc.c`, and what one critical section of
`p->lock` does to an entry.
-/

namespace Xv6

namespace Proc

/-- An index into `proc[NPROC]`; pointers into the table are modelled by it. -/
@[ext] structure Slot where
  idx : ℕ
  lt : idx < NPROC
  deriving DecidableEq, Repr

end Proc

inductive ProcState
  | unused | used | sleeping | runnable | running | zombie
  deriving DecidableEq, Repr

/-- Sleep channels: the address of a slot, which `wait` sleeps on, or that of
some other kernel object. -/
inductive Chan
  | proc (p : Proc.Slot)
  | other (k : ℕ)
  deriving DecidableEq, Repr

/-- The fields of `struct proc` that the life cycle uses.  A null `chan` or
`parent` is `none`; `a0` is `trapframe->a0`, where a system call leaves its
result. -/
structure Proc where
  state : ProcState
  chan : Option Chan
  killed : ℤ
  xstate : ℤ
  pid : ℤ
  parent : Option Proc.Slot
  a0 : ℤ
  deriving DecidableEq

namespace Proc

@[grind →] theorem Slot.eq_of_idx {p q : Slot} (h : p.idx = q.idx) : p = q := Slot.ext h

@[grind ←] theorem Slot.idx_lt (p : Slot) : p.idx < NPROC := p.lt

def zero : Proc where
  state := .unused
  chan := none
  killed := 0
  xstate := 0
  pid := 0
  parent := none
  a0 := 0

/-- The part of `allocproc` after `found`; fields it does not name keep what
the previous occupant of the slot left there. -/
def allocproc (P : Proc) (pid : ℤ) : Proc := { P with pid := pid, state := .used }

def freeproc (P : Proc) : Proc :=
  { P with pid := 0, parent := none, chan := none, killed := 0, xstate := 0, state := .unused }

def allocpid (nextpid : ℤ) : ℤ := (nextpid + 1).bmod (2 ^ 32)

def wakeup (chan : Option Chan) (P : Proc) : Proc :=
  if P.state = .sleeping ∧ P.chan = chan then { P with state := .runnable } else P

/-- What `kill` does to the first slot with the pid it looks for. -/
def kill (P : Proc) : Proc :=
  { P with killed := 1, state := if P.state = .sleeping then .runnable else P.state }

/-- Before its process sleeps, under `p->lock`. -/
def sleep (chan : Chan) (P : Proc) : Proc := { P with chan := some chan, state := .sleeping }

/-- Processes that have been started and have not exited. -/
def Live (P : Proc) : Prop := P.state = .runnable ∨ P.state = .running ∨ P.state = .sleeping

instance (P : Proc) : Decidable P.Live := inferInstanceAs (Decidable (_ ∨ _ ∨ _))

end Proc

end Xv6
