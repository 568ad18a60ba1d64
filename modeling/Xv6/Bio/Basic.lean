import Xv6.Params
import Xv6.Lib.Chain
import Xv6.Lib.Count
import Xv6.Lib.Run

/-!
# The buffer cache

`bio.c`: the buffers, the circular list that `binit`, `bget` and `brelse` keep
of them, and the calls of any processes, in steps that end where a lock is
released or waited for.  `bread` is three steps: the critical section of
`bget`, `acquiresleep`, and the read of a buffer that is not valid.  `brelse`
is two: `releasesleep`, and the section that drops the reference.
-/

namespace Xv6.Bio

open Lib
open Function (update)

def NBUF : ℕ := MAXOPBLOCKS * 3

abbrev Key := BitVec 32 × BitVec 32

/-- `struct buf`; `lock` is the process that holds the sleep-lock. -/
structure Buf where
  valid : Bool
  dev : BitVec 32
  blockno : BitVec 32
  lock : Option (Fin NPROC)
  refcnt : ℕ
  data : Block

def Buf.key (b : Buf) : Key := (b.dev, b.blockno)

/-- Where a process is inside a call. -/
inductive Pc
  | idle
  /-- in `bget`, about to acquire the sleep-lock of the buffer -/
  | waiting (i : Fin NBUF) (k : Key)
  /-- in `bread`, behind `bget` -/
  | reading (i : Fin NBUF) (k : Key)
  /-- in `brelse`, behind `releasesleep` -/
  | releasing (i : Fin NBUF)
  deriving DecidableEq

/-- References that a process holds beside the sleep-lock. -/
def Pc.refs (i : Fin NBUF) : Pc → ℕ
  | .waiting j _ => if j = i then 1 else 0
  | .releasing j => if j = i then 1 else 0
  | _ => 0

structure State where
  buf : Fin NBUF → Buf
  links : Links (Fin NBUF)
  /-- the disk, by the first sector of a block -/
  disk : BitVec 32 → Block
  pc : Fin NPROC → Pc
  /-- calls of `bpin` that no `bunpin` has undone yet -/
  pins : Fin NBUF → ℕ
  /-- buffers that `bget` has returned at least once -/
  used : Fin NBUF → Bool
  /-- when the reference count last dropped to zero, `0` for never -/
  freed : Fin NBUF → ℕ
  clock : ℕ

/-- The sector `virtio_disk_rw` addresses; it does not look at the device. -/
def sector (k : Key) : BitVec 32 := k.2 * BitVec.ofNat 32 (BSIZE / 512)

def binit : Links (Fin NBUF) :=
  (List.finRange NBUF).foldl Links.insertFront ⟨fun _ => none, fun _ => none⟩

def boot (disk : BitVec 32 → Block) : State where
  buf _ := ⟨false, 0, 0, none, 0, fun _ => 0⟩
  links := binit
  disk := disk
  pc _ := .idle
  pins _ := 0
  used _ := false
  freed _ := 0
  clock := 0

namespace State

def setBuf (s : State) (i : Fin NBUF) (b : Buf) : State :=
  { s with buf := update s.buf i b }

def setPc (s : State) (p : Fin NPROC) (c : Pc) : State :=
  { s with pc := update s.pc p c }

def lookup (s : State) (k : Key) : Option (Fin NBUF) :=
  Links.scan s.links.next (fun i => (s.buf i).dev = k.1 ∧ (s.buf i).blockno = k.2) NBUF
    (s.links.next none)

def victim (s : State) : Option (Fin NBUF) :=
  Links.scan s.links.prev (fun i => (s.buf i).refcnt = 0) NBUF (s.links.prev none)

/-- The critical section of `bget`: the buffer for a block, with one more
reference. -/
def bget (s : State) (k : Key) : Except Panic (State × Fin NBUF) :=
  match s.lookup k with
  | some i =>
    let b := s.buf i
    .ok (s.setBuf i { b with refcnt := b.refcnt + 1 }, i)
  | none =>
    match s.victim with
    | some i =>
      .ok (s.setBuf i { s.buf i with dev := k.1, blockno := k.2, valid := false, refcnt := 1 }, i)
    | none => .error "bget: no buffers"

/-- `bread` behind `bget`: read the block unless the buffer has it. -/
def bread (s : State) (i : Fin NBUF) : State :=
  let b := s.buf i
  if b.valid then s
  else s.setBuf i { b with data := s.disk (sector b.key), valid := true }

def holdingsleep (s : State) (p : Fin NPROC) (i : Fin NBUF) : Prop := (s.buf i).lock = some p

instance (s : State) (p : Fin NPROC) (i : Fin NBUF) : Decidable (s.holdingsleep p i) :=
  inferInstanceAs (Decidable ((s.buf i).lock = some p))

def bwrite (s : State) (p : Fin NPROC) (i : Fin NBUF) : Except Panic State :=
  if s.holdingsleep p i then
    .ok { s with disk := update s.disk (sector (s.buf i).key) (s.buf i).data }
  else .error "bwrite"

def brelse (s : State) (p : Fin NPROC) (i : Fin NBUF) : Except Panic State :=
  if s.holdingsleep p i then .ok (s.setBuf i { s.buf i with lock := none })
  else .error "brelse"

def toFront (s : State) (i : Fin NBUF) : State :=
  { s with
    links := (s.links.unlink i).insertFront i
    freed := update s.freed i (s.clock + 1)
    clock := s.clock + 1 }

def unref (s : State) (i : Fin NBUF) : State :=
  s.setBuf i { s.buf i with refcnt := (s.buf i).refcnt - 1 }

def drop (s : State) (i : Fin NBUF) : State :=
  if ((s.unref i).buf i).refcnt = 0 then (s.unref i).toFront i else s.unref i

def bpin (s : State) (i : Fin NBUF) : State :=
  { s.setBuf i { s.buf i with refcnt := (s.buf i).refcnt + 1 } with
    pins := update s.pins i (s.pins i + 1) }

def bunpin (s : State) (i : Fin NBUF) : State :=
  { s.unref i with pins := update s.pins i (s.pins i - 1) }

end State

inductive Event
  | bget (p : Fin NPROC) (k : Key)
  | acquiresleep (p : Fin NPROC)
  | bread (p : Fin NPROC)
  /-- the holder changes `b->data` -/
  | modify (p : Fin NPROC) (i : Fin NBUF) (x : Block)
  | bwrite (p : Fin NPROC) (i : Fin NBUF)
  | brelse (p : Fin NPROC) (i : Fin NBUF)
  | drop (p : Fin NPROC)
  | bpin (p : Fin NPROC) (i : Fin NBUF)
  | bunpin (p : Fin NPROC) (i : Fin NBUF)

/-- One step of a process that follows the protocol: buffers are changed,
written and released by their holder, and `bunpin` undoes a `bpin` while the
buffer is held.  A panic stops the machine. -/
def step (s : State) : Event → Option State
  | .bget p k =>
    if s.pc p = .idle then
      match s.bget k with
      | .ok (t, i) => some ({ t with used := update t.used i true }.setPc p (.waiting i k))
      | .error _ => none
    else none
  | .acquiresleep p =>
    match s.pc p with
    | .waiting i k =>
      if (s.buf i).lock = none then
        some ((s.setBuf i { s.buf i with lock := some p }).setPc p (.reading i k))
      else none
    | _ => none
  | .bread p =>
    match s.pc p with
    | .reading i _ => some ((s.bread i).setPc p .idle)
    | _ => none
  | .modify p i x =>
    if s.pc p = .idle ∧ s.holdingsleep p i then some (s.setBuf i { s.buf i with data := x })
    else none
  | .bwrite p i => if s.pc p = .idle then (s.bwrite p i).toOption else none
  | .brelse p i =>
    if s.pc p = .idle then (s.brelse p i).toOption.map (·.setPc p (.releasing i)) else none
  | .drop p =>
    match s.pc p with
    | .releasing i => some ((s.drop i).setPc p .idle)
    | _ => none
  | .bpin p i => if s.pc p = .idle ∧ s.used i then some (s.bpin i) else none
  | .bunpin p i =>
    if s.pc p = .idle ∧ 0 < s.pins i ∧ (s.buf i).lock ≠ none then some (s.bunpin i) else none

/-- What each step does, once its test has succeeded. -/
inductive Effect (s : State) : Event → State → Prop
  | hit {p : Fin NPROC} {k : Key} {i : Fin NBUF} (hp : s.pc p = .idle) (hi : s.lookup k = some i) :
      Effect s (.bget p k)
        ({ s.setBuf i { s.buf i with refcnt := (s.buf i).refcnt + 1 } with
            used := update s.used i true }.setPc p (.waiting i k))
  | miss {p : Fin NPROC} {k : Key} {i : Fin NBUF} (hp : s.pc p = .idle) (hk : s.lookup k = none)
      (hi : s.victim = some i) :
      Effect s (.bget p k)
        ({ s.setBuf i { s.buf i with dev := k.1, blockno := k.2, valid := false, refcnt := 1 } with
            used := update s.used i true }.setPc p (.waiting i k))
  | acquiresleep {p : Fin NPROC} {k : Key} {i : Fin NBUF} (hp : s.pc p = .waiting i k)
      (hi : (s.buf i).lock = none) :
      Effect s (.acquiresleep p)
        ((s.setBuf i { s.buf i with lock := some p }).setPc p (.reading i k))
  | cached {p : Fin NPROC} {k : Key} {i : Fin NBUF} (hp : s.pc p = .reading i k)
      (hi : (s.buf i).valid = true) : Effect s (.bread p) (s.setPc p .idle)
  | load {p : Fin NPROC} {k : Key} {i : Fin NBUF} (hp : s.pc p = .reading i k)
      (hi : (s.buf i).valid = false) :
      Effect s (.bread p)
        ((s.setBuf i { s.buf i with data := s.disk (sector (s.buf i).key), valid := true }).setPc p
          .idle)
  | modify {p : Fin NPROC} {i : Fin NBUF} {x : Block} (hp : s.pc p = .idle)
      (hi : (s.buf i).lock = some p) :
      Effect s (.modify p i x) (s.setBuf i { s.buf i with data := x })
  | bwrite {p : Fin NPROC} {i : Fin NBUF} (hp : s.pc p = .idle) (hi : (s.buf i).lock = some p) :
      Effect s (.bwrite p i)
        { s with disk := update s.disk (sector (s.buf i).key) (s.buf i).data }
  | brelse {p : Fin NPROC} {i : Fin NBUF} (hp : s.pc p = .idle) (hi : (s.buf i).lock = some p) :
      Effect s (.brelse p i) ((s.setBuf i { s.buf i with lock := none }).setPc p (.releasing i))
  | last {p : Fin NPROC} {i : Fin NBUF} (hp : s.pc p = .releasing i)
      (hi : (s.buf i).refcnt - 1 = 0) :
      Effect s (.drop p) (((s.unref i).toFront i).setPc p .idle)
  | drop {p : Fin NPROC} {i : Fin NBUF} (hp : s.pc p = .releasing i)
      (hi : (s.buf i).refcnt - 1 ≠ 0) : Effect s (.drop p) ((s.unref i).setPc p .idle)
  | bpin {p : Fin NPROC} {i : Fin NBUF} (hp : s.pc p = .idle) (hi : s.used i = true) :
      Effect s (.bpin p i) (s.bpin i)
  | bunpin {p : Fin NPROC} {i : Fin NBUF} (hp : s.pc p = .idle) (hn : 0 < s.pins i)
      (hi : (s.buf i).lock ≠ none) : Effect s (.bunpin p i) (s.bunpin i)

theorem effect_of_step {s t : State} {e : Event} (h : step s e = some t) : Effect s e t := by
  cases e with
  | bget p k =>
    simp only [step, State.bget] at h
    split_ifs at h with hp
    cases hi : s.lookup k with
    | some i =>
      simp only [hi, Option.some_inj] at h
      exact h ▸ .hit hp hi
    | none =>
      cases hv : s.victim with
      | some i =>
        simp only [hi, hv, Option.some_inj] at h
        exact h ▸ .miss hp hi hv
      | none => simp [hi, hv] at h
  | acquiresleep p =>
    cases hp : s.pc p with
    | waiting i k =>
      simp only [step, hp] at h
      split_ifs at h with hi
      exact Option.some_inj.mp h ▸ .acquiresleep hp hi
    | _ => simp [step, hp] at h
  | bread p =>
    cases hp : s.pc p with
    | reading i k =>
      simp only [step, hp, State.bread, Option.some_inj] at h
      split_ifs at h with hi
      · exact h ▸ .cached hp hi
      · exact h ▸ .load hp (by simpa using hi)
    | _ => simp [step, hp] at h
  | modify p i x =>
    simp only [step] at h
    split_ifs at h with hp
    exact Option.some_inj.mp h ▸ .modify hp.1 hp.2
  | bwrite p i =>
    simp only [step, State.bwrite] at h
    split_ifs at h with hp hi
    · exact Option.some_inj.mp h ▸ .bwrite hp hi
    · simp [Except.toOption] at h
  | brelse p i =>
    simp only [step, State.brelse] at h
    split_ifs at h with hp hi
    · exact Option.some_inj.mp h ▸ .brelse hp hi
    · simp [Except.toOption] at h
  | drop p =>
    cases hp : s.pc p with
    | releasing i =>
      have hr : ((s.unref i).buf i).refcnt = (s.buf i).refcnt - 1 := by
        simp [State.unref, State.setBuf]
      simp only [step, hp, State.drop, hr, Option.some_inj] at h
      split_ifs at h with hi
      · exact h ▸ .last hp hi
      · exact h ▸ .drop hp hi
    | _ => simp [step, hp] at h
  | bpin p i =>
    simp only [step] at h
    split_ifs at h with hp
    exact Option.some_inj.mp h ▸ .bpin hp.1 hp.2
  | bunpin p i =>
    simp only [step] at h
    split_ifs at h with hp
    exact Option.some_inj.mp h ▸ .bunpin hp.1 hp.2.1 hp.2.2

end Xv6.Bio
