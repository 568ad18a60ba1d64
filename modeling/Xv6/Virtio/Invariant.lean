import Xv6.Virtio.Driver

/-!
# Who owns a descriptor

Every descriptor that is not free belongs to one call of `virtio_disk_rw`, and
every head that is in a ring or with the device is the head of such a call.
Only the part a thread plays matters for that, not whether it sleeps.
-/

namespace Xv6.Virtio

open Lib

variable {τ β : Type} [DecidableEq τ] [DecidableEq β]

/-- What a thread has done for its request. -/
inductive Role (β : Type)
  | out
  | asking (r : Req β)
  | taken (r : Req β) (x : Idx)
  | formatted (r : Req β) (x : Idx)
  | stored (r : Req β) (x : Idx)
  | submitted (r : Req β) (x : Idx)
  deriving DecidableEq

def Pc.role : Pc β → Role β
  | .idle => .out
  | .acquire r | .alloc r | .sleepFree r | .wokenFree r => .asking r
  | .format r x => .taken r x
  | .ring r x => .formatted r x
  | .publish r x => .stored r x
  | .check r x | .sleepBuf r x | .wokenBuf r x => .submitted r x

def Pc.locked : Pc β → Bool
  | .alloc _ | .format _ _ | .ring _ _ | .publish _ _ | .check _ _ => true
  | _ => false

namespace Role

def req : Role β → Option (Req β)
  | .out => none
  | .asking r | .taken r _ | .formatted r _ | .stored r _ | .submitted r _ => some r

def idx : Role β → Option Idx
  | .taken _ x | .formatted _ x | .stored _ x | .submitted _ x => some x
  | _ => none

/-- The request whose descriptors have been written. -/
def shown : Role β → Option (Req β × Idx)
  | .formatted r x | .stored r x | .submitted r x => some (r, x)
  | _ => none

end Role

omit [DecidableEq β] in
@[simp] theorem Pc.wakeFree_role (k : Pc β) : k.wakeFree.role = k.role := by
  cases k <;> rfl

omit [DecidableEq β] in
@[simp] theorem Pc.wakeFree_locked (k : Pc β) : k.wakeFree.locked = k.locked := by
  cases k <;> rfl

@[simp] theorem Pc.wakeBuf_role (b : β) (k : Pc β) : (k.wakeBuf b).role = k.role := by
  cases k with
  | sleepBuf r x =>
    unfold Pc.wakeBuf
    dsimp only
    split_ifs <;> rfl
  | _ => rfl

@[simp] theorem Pc.wakeBuf_locked (b : β) (k : Pc β) : (k.wakeBuf b).locked = k.locked := by
  cases k with
  | sleepBuf r x =>
    unfold Pc.wakeBuf
    dsimp only
    split_ifs <;> rfl
  | _ => rfl

/-! ## The parts of the invariant -/

/-- The descriptors that are not free are the chains of three of the calls. -/
structure Chains (ρ : τ → Role β) (free : ℕ → Bool) : Prop where
  nodup : ∀ t x, (ρ t).idx = some x → x.toList.Nodup
  lt : ∀ t x, (ρ t).idx = some x → ∀ i ∈ x.toList, i < NUM
  disjoint : ∀ t u x y, (ρ t).idx = some x → (ρ u).idx = some y →
    ∀ i ∈ x.toList, i ∈ y.toList → t = u
  free : ∀ i < NUM, free i = false ↔ ∃ t x, (ρ t).idx = some x ∧ i ∈ x.toList

/-- The descriptors of `x` say what `r` asks for. -/
structure Formatted (desc : ℕ → Desc β) (ops : ℕ → Op) (info : ℕ → Info β) (r : Req β) (x : Idx) :
    Prop where
  first : desc x.i0 = ⟨.op x.i0, 16, VRING_DESC_F_NEXT, x.i1⟩
  second : desc x.i1 = ⟨.data r.b, BSIZE, dataFlags r, x.i2⟩
  third : desc x.i2 = ⟨.status x.i0, 1, VRING_DESC_F_WRITE, 0⟩
  op : ops x.i0 = opOf r
  buf : (info x.i0).b = some r.b

/-- What a thread in the role `k` has put down for the device. -/
structure Shown (d : Core τ β) (k : Role β) : Prop where
  formatted : ∀ r x, k.shown = some (r, x) → Formatted d.desc d.ops d.info r x
  busy : ∀ r x, k = .formatted r x ∨ k = .stored r x → d.onDisk r.b = true
  stored : ∀ r x, k = .stored r x → d.availRing (d.availIdx.toNat % NUM) = x.i0

/-- The heads that the device has not taken, and those it has handed back. -/
def Core.availQueue (d : Core τ β) : List ℕ := Ring.contents NUM d.availRing d.next d.availIdx

def Core.usedQueue (d : Core τ β) : List ℕ := Ring.contents NUM d.usedRing d.usedIdx d.usedRingIdx

def Core.heads (d : Core τ β) : List ℕ := d.availQueue ++ (d.inflight ++ d.usedQueue)

/-- The submitted requests whose buffers the disk owns are, each once, those under
way. -/
structure Heads (ρ : τ → Role β) (onDisk : β → Bool) (heads : List ℕ) : Prop where
  nodup : heads.Nodup
  owner : ∀ h ∈ heads, ∃ t r x, ρ t = .submitted r x ∧ x.i0 = h ∧ onDisk r.b = true
  mem : ∀ t r x, ρ t = .submitted r x → onDisk r.b = true → x.i0 ∈ heads

/-- What the device has served of `b` since `t` made its call. -/
def Core.servedSince (d : Core τ β) (t : τ) (b : β) : List (Served β) :=
  (d.log.drop (d.since t)).filter (·.b = b)

/-- The request of `t`, in the role `k`, has been served exactly when it is neither in
the avail ring nor with the device. -/
structure Logged (d : Core τ β) (t : τ) (k : Role β) : Prop where
  since : ∀ r, k.req = some r → d.since t ≤ d.log.length
  before : ∀ r, k.req = some r → (∀ x, k = .submitted r x → x.i0 ∈ d.availQueue ++ d.inflight) →
    d.servedSince t r.b = []
  after : ∀ r x, k = .submitted r x → x.i0 ∉ d.availQueue ++ d.inflight →
    d.servedSince t r.b = [⟨r.b, opOf r⟩]

def State.roles (s : State τ β) : τ → Role β := fun t => (s.pc t).role

/-- Everything in the driver's memory belongs to one of the roles. -/
structure Owned (ρ : τ → Role β) (d : Core τ β) : Prop where
  owner : ∀ t r, (ρ t).req = some r → d.holds r.b = some t
  chains : Chains ρ d.free
  shown : ∀ t, Shown d (ρ t)
  heads : Heads ρ d.onDisk d.heads
  status : ∀ h ∈ d.usedQueue, (d.info h).status = 0
  logged : ∀ t, Logged d t (ρ t)

/-- The threads between `acquire` and `release` are those that hold `vdisk_lock`. -/
def LockOk (pc : τ → Pc β) (lock : Option (Holder τ)) : Prop :=
  ∀ t, (pc t).locked = true ↔ lock = some (.thread t)

structure Inv (s : State τ β) : Prop extends Owned s.roles s.toCore where
  lock : LockOk s.pc s.lock

omit [DecidableEq τ] in
theorem inv_init : Inv (init τ β) where
  lock t := by simp [init, Pc.locked]
  owner t r h := by simp [init, State.roles, Pc.role, Role.req] at h
  chains := {
    nodup := fun t x h => by simp [init, State.roles, Pc.role, Role.idx] at h
    lt := fun t x h => by simp [init, State.roles, Pc.role, Role.idx] at h
    disjoint := fun t u x y h => by simp [init, State.roles, Pc.role, Role.idx] at h
    free := fun i _ => by simp [init, State.roles, Pc.role, Role.idx] }
  shown t := {
    formatted := fun r x h => by simp [init, State.roles, Pc.role, Role.shown] at h
    busy := fun r x h => by simp [init, State.roles, Pc.role] at h
    stored := fun r x h => by simp [init, State.roles, Pc.role] at h }
  heads := {
    nodup := by simp [init, Core.heads, Core.availQueue, Core.usedQueue]
    owner := by simp [init, Core.heads, Core.availQueue, Core.usedQueue]
    mem := fun t r x h => by simp [init, State.roles, Pc.role] at h }
  status := by simp [init, Core.usedQueue]
  logged t := {
    since := fun r h => by simp [init, State.roles, Pc.role, Role.req] at h
    before := fun r h => by simp [init, State.roles, Pc.role, Role.req] at h
    after := fun r x h => by simp [init, State.roles, Pc.role] at h }

end Xv6.Virtio
