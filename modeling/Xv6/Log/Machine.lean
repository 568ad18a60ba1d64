import Xv6.Log.Basic
import Xv6.Log.Buffer
import Xv6.Lib.Run
import Xv6.Lib.Replay

/-!
# The logging machine

Processes run operations `begin_op; (bread, modify, log_write, brelse)*; end_op`
in any interleaving.  The last `end_op` runs `commit`, one block write per
step, so that a crash can fall between any two of them; a crash loses
everything but the disk and starts `recover_from_log`, which may crash again.
-/

namespace Xv6.Log.Machine

open Lib

/-! ## The header block -/

def headN (hb : Block) : ℕ := getWord 4 hb 0

def headBlock (hb : Block) (i : ℕ) : ℕ := getWord 4 hb (4 + 4 * i)

/-- What `write_head` puts into the header block's buffer: entries at and above
`n` keep what an earlier transaction left. -/
def headFill (lh : LogHeader) (hb : Block) : Block :=
  (List.range lh.n).foldl (fun hb i => setWord 4 hb (4 + 4 * i) (lh.block i))
    (setWord 4 hb 0 lh.n)

/-- What `read_head` leaves in the in-memory header. -/
def headRead (lh : LogHeader) (hb : Block) : LogHeader where
  n := headN hb
  block := fun i => if i < headN hb then headBlock hb i else lh.block i

theorem headN_headFill {lh : LogHeader} {hb : Block} (hn : lh.n < 2 ^ 32) :
    headN (headFill lh hb) = lh.n := by
  have hfold : ∀ k, getWord 4 ((List.range k).foldl
      (fun hb i => setWord 4 hb (4 + 4 * i) (lh.block i)) (setWord 4 hb 0 lh.n)) 0 = lh.n := by
    intro k
    induction k with
    | zero => exact getWord_setWord_self 4 hb 0 (by simpa using hn)
    | succ k ih =>
      rw [List.range_succ, List.foldl_append, List.foldl_cons, List.foldl_nil,
        getWord_setWord_of_disjoint _ (by omega), ih]
  exact hfold lh.n

theorem headBlock_headFill {lh : LogHeader} {hb : Block} {i : ℕ} (hi : i < lh.n)
    (hb32 : lh.block i < 2 ^ 32) : headBlock (headFill lh hb) i = lh.block i := by
  have hfold : ∀ k, i < k → getWord 4 ((List.range k).foldl
      (fun hb i => setWord 4 hb (4 + 4 * i) (lh.block i)) (setWord 4 hb 0 lh.n)) (4 + 4 * i) =
        lh.block i := by
    intro k hk
    induction k with
    | zero => omega
    | succ k ih =>
      rw [List.range_succ, List.foldl_append, List.foldl_cons, List.foldl_nil]
      by_cases hik : i = k
      · subst hik
        exact getWord_setWord_self 4 _ _ (by simpa using hb32)
      · rw [getWord_setWord_of_disjoint _ (by omega), ih (by omega)]
  exact hfold lh.n hi

/-! ## States and events -/

/-- Where the committing process, or the booting one, stands. -/
inductive Phase
  /-- no `commit` is running -/
  | idle
  /-- in `write_log`, `tail` blocks copied; `write_head` follows the last one -/
  | writeLog (tail : ℕ)
  /-- in `install_trans(0)`, `tail` blocks installed; the clearing `write_head`
  follows the last one -/
  | install (tail : ℕ)
  /-- `commit` has returned, `log.committing` is still set -/
  | done
  /-- rebooted, before `read_head` -/
  | boot
  /-- in `install_trans(1)` of `recover_from_log` -/
  | recover (tail : ℕ)
  /-- `recover_from_log` has returned -/
  | recovered
  deriving DecidableEq

structure State where
  dev : Dev
  log : Log
  active : Finset ℕ
  phase : Phase

inductive Event
  | beginOp (p : ℕ)
  | bread (p b : ℕ)
  /-- change the held buffer of `b` to `x` and `log_write` it -/
  | write (p b : ℕ) (x : Block)
  | brelse (p b : ℕ)
  | endOp (p : ℕ)
  /-- the next block write of `commit` -/
  | commit
  /-- `log.committing = 0` after `commit` has returned -/
  | commitReturn
  /-- a read outside any transaction -/
  | read (b : ℕ)
  | evict (b : ℕ)
  | crash
  /-- the next step of `recover_from_log` -/
  | recover

/-- The blocks of the log area: the header and the data blocks. -/
def inLog (log : Log) (b : ℕ) : Prop := log.start ≤ b ∧ b < log.start + log.size

instance (log : Log) (b : ℕ) : Decidable (inLog log b) :=
  inferInstanceAs (Decidable (_ ∧ _))

def writeLogOne (s : State) (tail : ℕ) : State :=
  let src := s.log.lh.block tail
  { s with dev := (s.dev.touch src).bwrite (s.log.start + tail + 1) (s.dev.buf src).data,
           phase := .writeLog (tail + 1) }

def writeHead (s : State) : State :=
  { s with dev := s.dev.bwrite s.log.start (headFill s.log.lh (s.dev.buf s.log.start).data) }

def installOne (s : State) (tail : ℕ) : Dev :=
  let lbuf := s.log.start + tail + 1
  (s.dev.touch lbuf).bwrite (s.log.lh.block tail) (s.dev.buf lbuf).data

/-- The next block write of `commit`. -/
def commit (s : State) : Option State :=
  match s.phase with
  | .writeLog tail =>
    if tail < s.log.lh.n then some (writeLogOne s tail)
    else some { writeHead s with phase := .install 0 }
  | .install tail =>
    if tail < s.log.lh.n then
      some { s with dev := (installOne s tail).bunpin (s.log.lh.block tail),
                    phase := .install (tail + 1) }
    else
      let log := { s.log with lh := { s.log.lh with n := 0 } }
      some { writeHead { s with log := log } with phase := .done }
  | _ => none

/-- The next step of `recover_from_log`. -/
def recover (s : State) : Option State :=
  match s.phase with
  | .boot =>
    some { s with dev := s.dev.touch s.log.start,
                  log := { s.log with lh := headRead s.log.lh (s.dev.buf s.log.start).data },
                  phase := .recover 0 }
  | .recover tail =>
    if tail < s.log.lh.n then
      some { s with dev := installOne s tail, phase := .recover (tail + 1) }
    else
      let log := { s.log with lh := { s.log.lh with n := 0 } }
      some { writeHead { s with log := log } with phase := .recovered }
  | _ => none

def Phase.up : Phase → Bool
  | .boot | .recover _ | .recovered => false
  | _ => true

/-- One event.  `none`: the event is not enabled, the caller sleeps, or the
call panics.  Block numbers are `uint`s, and only blocks outside the log area
are logged. -/
def step (s : State) : Event → Option State
  | .beginOp p =>
    if p ∈ s.active ∨ s.phase.up = false then none else
    (Log.beginOp s.log).map fun log => { s with log := log, active := insert p s.active }
  | .bread p b =>
    if p ∉ s.active then none else
    (s.dev.bread p b).map fun dev => { s with dev := dev }
  | .write p b x =>
    if p ∉ s.active ∨ (p, b) ∉ s.dev.held ∨ inLog s.log b ∨ 2 ^ 32 ≤ b then none else
    match Log.logWrite s.log b with
    | .error _ => none
    | .ok (log, pin) =>
      let dev := s.dev.modify b x
      some { s with dev := if pin then dev.bpin b else dev, log := log }
  | .brelse p b => (s.dev.brelse p b).map fun dev => { s with dev := dev }
  | .endOp p =>
    if p ∉ s.active ∨ p ∈ s.dev.held.image Prod.fst then none else
    match Log.endOp s.log with
    | .error _ => none
    | .ok (log, doCommit) =>
      some { s with log := log, active := s.active.erase p,
                    phase := if doCommit then (if log.lh.n > 0 then .writeLog 0 else .done)
                             else s.phase }
  | .commit => commit s
  | .commitReturn =>
    if s.phase = .done then
      some { s with log := { s.log with committing := false }, phase := .idle }
    else none
  | .read b => if s.dev.locked b then none else some { s with dev := s.dev.touch b }
  | .evict b => (s.dev.evict b).map fun dev => { s with dev := dev }
  | .crash =>
    some { dev := s.dev.reset
           log := { start := s.log.start, size := s.log.size, outstanding := 0,
                    committing := false, lh := { n := 0, block := fun _ => 0 } }
           active := ∅
           phase := .boot }
  | .recover => recover s

/-- The machine right after `initlog` on a disk with an empty log. -/
def init (start size : ℕ) (disk : ℕ → Block) : State where
  dev := { disk := disk, cache := fun _ => none, held := ∅ }
  log := { start := start, size := size, outstanding := 0, committing := false,
           lh := { n := 0, block := fun _ => 0 } }
  active := ∅
  phase := .idle

/-! ## What the events say should be on the disk -/

/-- The groups of operations that share a commit, read off the events alone.
A group collects the logged writes in order and closes when no operation is
open any more. -/
structure Spec where
  openOps : Finset ℕ
  cur : List (ℕ × Block)
  groups : List (List (ℕ × Block))
  /-- how many groups' `commit` has returned -/
  returned : ℕ

def Spec.init : Spec := ⟨∅, [], [], 0⟩

def Spec.step (sp : Spec) : Event → Spec
  | .beginOp p => { sp with openOps := insert p sp.openOps }
  | .write _ b x => { sp with cur := sp.cur ++ [(b, x)] }
  | .endOp p =>
    if sp.openOps.erase p = ∅ then
      { sp with openOps := ∅, cur := [], groups := sp.groups ++ [sp.cur] }
    else { sp with openOps := sp.openOps.erase p }
  | .commitReturn => { sp with returned := sp.groups.length }
  | _ => sp

def spec (tr : List Event) : Spec := tr.foldl Spec.step Spec.init

@[simp] theorem spec_concat (tr : List Event) (e : Event) :
    spec (tr ++ [e]) = (spec tr).step e := by
  simp [spec]

end Xv6.Log.Machine
