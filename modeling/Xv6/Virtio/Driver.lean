import Xv6.Params
import Xv6.Lib.Run
import Xv6.Lib.Ring
import Xv6.Lib.Outcome

/-!
# The driver of the virtio disk

`virtio_disk.c` from `alloc_desc` to `virtio_disk_intr`, its callers, and the
device.  The lock `vdisk_lock` orders the driver's steps among each other; the
device takes its steps between any two of them.
-/

namespace Xv6.Virtio

open Lib
open Function (update)

def NUM : ℕ := 8

def VRING_DESC_F_NEXT : ℕ := 1
def VRING_DESC_F_WRITE : ℕ := 2
def VIRTIO_BLK_T_IN : ℕ := 0
def VIRTIO_BLK_T_OUT : ℕ := 1

/-- Where a descriptor points to: `&disk.ops[i]`, `b->data` or
`&disk.info[i].status`. -/
inductive Addr (β : Type)
  | null
  | op (i : ℕ)
  | data (b : β)
  | status (i : ℕ)
  deriving DecidableEq

structure Desc (β : Type) where
  addr : Addr β
  len : ℕ
  flags : ℕ
  next : ℕ
  deriving DecidableEq

def Desc.zero {β : Type} : Desc β := ⟨.null, 0, 0, 0⟩

structure Op where
  type : ℕ
  reserved : ℕ
  sector : ℕ
  deriving DecidableEq

/-- An entry of `disk.info`; a null `b` is `none`. -/
structure Info (β : Type) where
  b : Option β
  status : ℕ
  deriving DecidableEq

/-- What a call of `virtio_disk_rw` asks for. -/
structure Req (β : Type) where
  b : β
  write : Bool
  sector : ℕ
  deriving DecidableEq

/-- The local `idx` of `virtio_disk_rw`. -/
structure Idx where
  i0 : ℕ
  i1 : ℕ
  i2 : ℕ
  deriving DecidableEq

def Idx.toList (x : Idx) : List ℕ := [x.i0, x.i1, x.i2]

/-- Where a thread is in `virtio_disk_rw`. -/
inductive Pc (β : Type)
  | idle
  | acquire (r : Req β)
  | alloc (r : Req β)
  /-- Asleep on `&disk.free[0]`. -/
  | sleepFree (r : Req β)
  | wokenFree (r : Req β)
  | format (r : Req β) (x : Idx)
  /-- Before the store to `disk.avail->ring`. -/
  | ring (r : Req β) (x : Idx)
  /-- Before `disk.avail->idx += 1`. -/
  | publish (r : Req β) (x : Idx)
  /-- At `while(b->disk == 1)`. -/
  | check (r : Req β) (x : Idx)
  /-- Asleep on `b`. -/
  | sleepBuf (r : Req β) (x : Idx)
  | wokenBuf (r : Req β) (x : Idx)
  deriving DecidableEq

inductive Holder (τ : Type)
  | thread (t : τ)
  | intr
  deriving DecidableEq

/-- What the device has transferred, as its descriptors told it. -/
structure Served (β : Type) where
  b : β
  op : Op
  deriving DecidableEq

/-- Everything but where the threads are.  `usedRingIdx` is `disk.used->idx`,
`next` the device's own index into the avail ring, `inflight` the heads it works
on, `onDisk` the field `b->disk`, and `holds` the holder of `b->lock`.  No step
reads `log` and `since`: what the device has served, and how much of it when a
thread made its call. -/
structure Core (τ β : Type) where
  desc : ℕ → Desc β
  free : ℕ → Bool
  info : ℕ → Info β
  ops : ℕ → Op
  availRing : ℕ → ℕ
  availIdx : BitVec 16
  usedRing : ℕ → ℕ
  usedRingIdx : BitVec 16
  usedIdx : BitVec 16
  onDisk : β → Bool
  holds : β → Option τ
  lock : Option (Holder τ)
  next : BitVec 16
  inflight : List ℕ
  log : List (Served β)
  since : τ → ℕ

structure State (τ β : Type) extends Core τ β where
  pc : τ → Pc β

def init (τ β : Type) : State τ β where
  desc := fun _ => .zero
  free := fun _ => true
  info := fun _ => ⟨none, 0⟩
  ops := fun _ => ⟨0, 0, 0⟩
  availRing := fun _ => 0
  availIdx := 0
  usedRing := fun _ => 0
  usedRingIdx := 0
  usedIdx := 0
  onDisk := fun _ => false
  holds := fun _ => none
  lock := none
  pc := fun _ => .idle
  next := 0
  inflight := []
  log := []
  since := fun _ => 0

/-- Why a step does not happen: it has to wait, or it is a panic, or it follows a
null pointer. -/
inductive Stop
  | blocked
  | panic (msg : String)
  | null
  deriving DecidableEq

inductive Event (τ β : Type)
  | acquiresleep (t : τ) (b : β)
  | releasesleep (t : τ) (b : β)
  /-- `virtio_disk_rw(b, write)`. -/
  | call (t : τ) (b : β) (blockno : ℕ) (write : Bool)
  | advance (t : τ)
  /-- A wakeup by `kill`. -/
  | kill (t : τ)
  | intr
  | intrAdvance
  /-- The device takes an entry off the avail ring. -/
  | consume
  /-- The device has served a head and posts it in the used ring. -/
  | complete (h : ℕ)

variable {τ β : Type} [DecidableEq τ] [DecidableEq β]

def Pc.wakeFree : Pc β → Pc β
  | .sleepFree r => .wokenFree r
  | k => k

def Pc.wakeBuf (b : β) : Pc β → Pc β
  | .sleepBuf r x => if r.b = b then .wokenBuf r x else .sleepBuf r x
  | k => k

namespace State

def goto (s : State τ β) (t : τ) (k : Pc β) : State τ β :=
  { s with pc := update s.pc t k }

def sleep (s : State τ β) (t : τ) (k : Pc β) : State τ β := { s.goto t k with lock := none }

end State

def allocDesc (free : ℕ → Bool) : Option ℕ := (List.range NUM).find? free

def freeDesc (s : State τ β) (i : ℕ) : Except Stop (State τ β) :=
  if NUM ≤ i then .error (.panic "free_desc 1")
  else if s.free i then .error (.panic "free_desc 2")
  else .ok { s with
    desc := update s.desc i .zero
    free := update s.free i true
    pc := fun t => (s.pc t).wakeFree }

/-- Every round frees a descriptor, so `NUM` rounds are enough. -/
def freeChain : ℕ → State τ β → ℕ → Except Stop (State τ β)
  | 0, s, _ => .ok s
  | fuel + 1, s, i => do
    let flag := (s.desc i).flags
    let nxt := (s.desc i).next
    let s ← freeDesc s i
    if flag &&& VRING_DESC_F_NEXT ≠ 0 then freeChain fuel s nxt else .ok s

def take (s : State τ β) (i : ℕ) : State τ β := { s with free := update s.free i false }

/-- The three rounds of the loop of `alloc3_desc`. -/
def alloc3Desc (s : State τ β) : Except Stop (State τ β × Option Idx) :=
  match allocDesc s.free with
  | none => .ok (s, none)
  | some i0 =>
    match allocDesc (take s i0).free with
    | none => do
      let s ← freeDesc (take s i0) i0
      .ok (s, none)
    | some i1 =>
      match allocDesc (take (take s i0) i1).free with
      | none => do
        let s ← freeDesc (take (take s i0) i1) i0
        let s ← freeDesc s i1
        .ok (s, none)
      | some i2 => .ok (take (take (take s i0) i1) i2, some ⟨i0, i1, i2⟩)

def opOf (r : Req β) : Op :=
  ⟨if r.write then VIRTIO_BLK_T_OUT else VIRTIO_BLK_T_IN, 0, r.sector⟩

def dataFlags (r : Req β) : ℕ := (if r.write then 0 else VRING_DESC_F_WRITE) ||| VRING_DESC_F_NEXT

/-- Formatting the three descriptors, and `b->disk = 1`. -/
def format (s : State τ β) (r : Req β) (x : Idx) : State τ β :=
  { s with
    ops := update s.ops x.i0 (opOf r)
    desc := update (update (update s.desc
      x.i0 ⟨.op x.i0, 16, VRING_DESC_F_NEXT, x.i1⟩)
      x.i1 ⟨.data r.b, BSIZE, dataFlags r, x.i2⟩)
      x.i2 ⟨.status x.i0, 1, VRING_DESC_F_WRITE, 0⟩
    info := update s.info x.i0 ⟨some r.b, 0xff⟩
    onDisk := update s.onDisk r.b true }

def finish (s : State τ β) (t : τ) (x : Idx) : Except Stop (State τ β) := do
  let s ← freeChain NUM
    { s with info := update s.info x.i0 { s.info x.i0 with b := none } } x.i0
  .ok { s.goto t .idle with lock := none }

def acquire (s : State τ β) (t : τ) (k : Pc β) : Except Stop (State τ β) :=
  if s.lock = none then .ok { s.goto t k with lock := some (.thread t) } else .error .blocked

def rw (s : State τ β) (t : τ) : Except Stop (State τ β) :=
  match s.pc t with
  | .idle | .sleepFree _ | .sleepBuf _ _ => .error .blocked
  | .acquire r => acquire s t (.alloc r)
  | .alloc r => do
    let (s, idx) ← alloc3Desc s
    match idx with
    | none => .ok (s.sleep t (.sleepFree r))
    | some x => .ok (s.goto t (.format r x))
  | .wokenFree r => acquire s t (.alloc r)
  | .format r x => .ok ((format s r x).goto t (.ring r x))
  | .ring r x => .ok ({ s with
      availRing := update s.availRing (s.availIdx.toNat % NUM) x.i0 }.goto t (.publish r x))
  | .publish r x => .ok ({ s with availIdx := s.availIdx + 1 }.goto t (.check r x))
  | .check r x => if s.onDisk r.b then .ok (s.sleep t (.sleepBuf r x)) else finish s t x
  | .wokenBuf r x => acquire s t (.check r x)

/-- One round of the loop of `virtio_disk_intr`, or its end. -/
def intrAdvance (s : State τ β) : Except Stop (State τ β) :=
  if s.usedIdx = s.usedRingIdx then .ok { s with lock := none }
  else
    let id := s.usedRing (s.usedIdx.toNat % NUM)
    if (s.info id).status ≠ 0 then .error (.panic "virtio_disk_intr status")
    else
      match (s.info id).b with
      | none => .error .null
      | some b => .ok { s with
          onDisk := update s.onDisk b false
          pc := fun t => (s.pc t).wakeBuf b
          usedIdx := s.usedIdx + 1 }

/-- The device serves the chain of `h`: it reads the operation, moves the data and
writes the status, where the descriptors tell it to. -/
def serve (s : State τ β) (h : ℕ) : Except Stop (State τ β) :=
  let d0 := s.desc h
  let d1 := s.desc d0.next
  let d2 := s.desc d1.next
  match d0.addr, d1.addr, d2.addr with
  | .op i, .data b, .status j => .ok { s with
      log := s.log ++ [⟨b, s.ops i⟩]
      info := update s.info j { s.info j with status := 0 } }
  | _, _, _ => .error .null

def complete (s : State τ β) (h : ℕ) : Except Stop (State τ β) := do
  let s ← serve s h
  .ok { s with
    inflight := s.inflight.erase h
    usedRing := update s.usedRing (s.usedRingIdx.toNat % NUM) h
    usedRingIdx := s.usedRingIdx + 1 }

def consume (s : State τ β) : State τ β :=
  { s with
    inflight := s.inflight ++ [s.availRing (s.next.toNat % NUM)]
    next := s.next + 1 }

def kill (s : State τ β) (t : τ) : State τ β :=
  match s.pc t with
  | .sleepFree r => s.goto t (.wokenFree r)
  | .sleepBuf r x => s.goto t (.wokenBuf r x)
  | _ => s

def exec (s : State τ β) : Event τ β → Except Stop (State τ β)
  | .acquiresleep t b =>
    if s.pc t = .idle ∧ s.holds b = none then
      .ok { s with holds := update s.holds b (some t) }
    else .error .blocked
  | .releasesleep t b =>
    if s.pc t = .idle ∧ s.holds b = some t then
      .ok { s with holds := update s.holds b none }
    else .error .blocked
  | .call t b blockno write =>
    -- the caller holds `b->lock`
    if s.pc t = .idle ∧ s.holds b = some t then
      .ok { s.goto t (.acquire ⟨b, write, blockno * (BSIZE / 512) % 2 ^ 32⟩) with
        since := update s.since t s.log.length }
    else .error .blocked
  | .advance t => rw s t
  | .kill t => .ok (kill s t)
  | .intr => if s.lock = none then .ok { s with lock := some .intr } else .error .blocked
  | .intrAdvance => if s.lock = some .intr then intrAdvance s else .error .blocked
  | .consume => if s.next = s.availIdx then .error .blocked else .ok (consume s)
  | .complete h => if h ∈ s.inflight then complete s h else .error .blocked

def step (s : State τ β) (e : Event τ β) : Option (State τ β) := (exec s e).toOption

end Xv6.Virtio
