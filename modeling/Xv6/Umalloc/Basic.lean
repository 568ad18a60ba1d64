import Xv6.Lib.Run
import Xv6.Lib.Segment

/-!
# The user-level memory allocator

`malloc` and `free` over a memory of headers.  Addresses are in bytes and sizes
in units of a header, as in the source.  `sbrk` is part of the environment:
each of its calls fails or returns a region above all earlier ones.
-/

namespace Xv6.Umalloc

open Lib
open Function (update)

def HEADER : ℕ := 16

structure Header where
  ptr : ℕ
  /-- A `uint`. -/
  size : ℕ

/-- The address of the static header `base`, and the end of the static data. -/
structure Layout where
  base : ℕ
  start : ℕ
  above : base + HEADER ≤ start
  aligned : HEADER ∣ start

/-- A header and the units behind it. -/
structure Block where
  addr : ℕ
  size : ℕ

def Block.stop (b : Block) : ℕ := b.addr + HEADER * b.size

def Block.span (b : Block) : Span := ⟨b.addr, b.stop⟩

/-- A block that has been returned for a request of `nbytes`. -/
structure Live where
  block : Block
  nbytes : ℕ

/-- The heap; `regions` and `live` are bookkeeping. -/
structure State where
  mem : ℕ → Header
  freep : Option ℕ
  /-- The end of the last region. -/
  brk : ℕ
  /-- The number of calls of `sbrk` so far. -/
  calls : ℕ
  regions : List Block
  live : List Live

/-- The answers of `sbrk`: the call with this number fails, or it returns a
region that many headers above the last one. -/
abbrev Sbrk := ℕ → Option ℕ

def units (bs : List Block) : ℕ := (bs.map Block.size).sum

/-- A bound for the loops, which go around the free list at most twice. -/
def State.fuel (s : State) : ℕ := 2 * units s.regions + 10

/-! ## free -/

/-- The condition under which the loop of `free` stops at `p`. -/
def Fits (mem : ℕ → Header) (bp p : ℕ) : Prop :=
  (p < bp ∧ bp < (mem p).ptr) ∨ ((mem p).ptr ≤ p ∧ (p < bp ∨ bp < (mem p).ptr))

instance (mem : ℕ → Header) (bp : ℕ) : DecidablePred (Fits mem bp) :=
  fun _ => inferInstanceAs (Decidable (_ ∨ _))

def next (mem : ℕ → Header) (p : ℕ) : ℕ := (mem p).ptr

/-- Set the pointer of the block behind `p`, or join it with the block behind it. -/
def joinNext (mem : ℕ → Header) (bp p : ℕ) : ℕ → Header :=
  let q := (mem p).ptr
  if bp + HEADER * (mem bp).size = q then
    update mem bp ⟨(mem q).ptr, ((mem bp).size + (mem q).size) % 2 ^ 32⟩
  else update mem bp ⟨q, (mem bp).size⟩

/-- Set the pointer of `p` to the block behind it, or join the two. -/
def joinPrev (mem : ℕ → Header) (bp p : ℕ) : ℕ → Header :=
  if p + HEADER * (mem p).size = bp then
    update mem p ⟨(mem bp).ptr, ((mem p).size + (mem bp).size) % 2 ^ 32⟩
  else update mem p ⟨bp, (mem p).size⟩

/-- `free(bp + 1)` -/
def free (s : State) (bp : ℕ) : Option State := do
  let f ← s.freep
  let p ← seek (next s.mem) (Fits s.mem bp) s.fuel f
  return { s with mem := joinPrev (joinNext s.mem bp p) bp p, freep := some p }

/-! ## malloc -/

/-- The number of units that `morecore` asks for. -/
def coreUnits (nu : ℕ) : ℕ := if nu < 4096 then 4096 else nu

/-- What `sbrk` does with the size it is given: the end of the region that it adds at an address
for a number of units. -/
abbrev Extent := ℕ → ℕ → ℕ

/-- `sbrk` adds the units that it is asked for. -/
def whole : Extent := fun hp nu => hp + HEADER * nu

theorem whole_sub (hp nu : ℕ) : (whole hp nu - hp) / HEADER = nu := by
  rw [whole, Nat.add_sub_cancel_left, Nat.mul_div_cancel_left nu (by decide : 0 < HEADER)]

/-- `morecore`, and whether it has found memory.  The header says `nu` units, whatever `sbrk`
made of its argument. -/
def morecore (extent : Extent) (sbrk : Sbrk) (s : State) (nu : ℕ) : Option (State × Bool) :=
  let nu := coreUnits nu
  match sbrk s.calls with
  | none => some ({ s with calls := s.calls + 1 }, false)
  | some gap =>
    let hp := s.brk + HEADER * gap
    let s := { s with
      calls := s.calls + 1
      brk := extent hp nu
      regions := s.regions ++ [⟨hp, (extent hp nu - hp) / HEADER⟩]
      mem := update s.mem hp ⟨(s.mem hp).ptr, nu⟩ }
    (free s hp).map fun s => (s, true)

/-- Take `nunits` from the block `p` behind `prevp`. -/
def carve (mem : ℕ → Header) (nunits prevp p : ℕ) : (ℕ → Header) × ℕ :=
  if (mem p).size = nunits then
    (update mem prevp ⟨(mem p).ptr, (mem prevp).size⟩, p)
  else
    let size := (mem p).size - nunits
    let q := p + HEADER * size
    let mem := update mem p ⟨(mem p).ptr, size⟩
    (update mem q ⟨(mem q).ptr, nunits⟩, q)

/-- The loop of `malloc`, and the header of the block that it returns. -/
def mallocLoop (extent : Extent) (sbrk : Sbrk) (nunits : ℕ) :
    ℕ → State → ℕ → Option (State × Option ℕ)
  | 0, _, _ => none
  | fuel + 1, s, prevp =>
    let p := (s.mem prevp).ptr
    if nunits ≤ (s.mem p).size then
      let (mem, p) := carve s.mem nunits prevp p
      some ({ s with mem := mem, freep := some prevp }, some p)
    else if s.freep = some p then
      match morecore extent sbrk s nunits with
      | none => none
      | some (s, false) => some (s, none)
      | some (s, true) =>
        match s.freep with
        | none => none
        | some f => mallocLoop extent sbrk nunits fuel s f
    else mallocLoop extent sbrk nunits fuel s p

def nunitsOf (nbytes : ℕ) : ℕ := (nbytes + HEADER - 1) / HEADER + 1

def malloc (extent : Extent) (L : Layout) (sbrk : Sbrk) (s : State) (nbytes : ℕ) :
    Option (State × Option ℕ) :=
  match s.freep with
  | none =>
    mallocLoop extent sbrk (nunitsOf nbytes) s.fuel
      { s with mem := update s.mem L.base ⟨L.base, 0⟩, freep := some L.base } L.base
  | some f => mallocLoop extent sbrk (nunitsOf nbytes) s.fuel s f

/-! ## The machine -/

inductive Event
  | malloc (nbytes : ℕ)
  /-- The block with header `bp` is freed. -/
  | free (bp : ℕ)
  /-- The program writes to memory that it has been given. -/
  | write (x : ℕ) (h : Header)

/-- Sizes for which `sbrk`, which takes an `int`, is asked for what is needed. -/
def MAXBYTES : ℕ := 2 ^ 31 - 65536

/-- The place lies behind the header of a block in use. -/
def State.Owned (s : State) (x : ℕ) : Prop :=
  ∃ l ∈ s.live, l.block.addr + HEADER ≤ x ∧ x + HEADER ≤ l.block.stop

instance (s : State) (x : ℕ) : Decidable (s.Owned x) := inferInstanceAs (Decidable (∃ l ∈ _, _))

/-- The machine for requests below `limit`. -/
def step (extent : Extent) (limit : ℕ) (L : Layout) (sbrk : Sbrk) (s : State) :
    Event → Option State
  | .malloc nbytes =>
    if nbytes < limit then
      match malloc extent L sbrk s nbytes with
      | none => none
      | some (s, none) => some s
      | some (s, some bp) =>
        some { s with live := s.live ++ [⟨⟨bp, nunitsOf nbytes⟩, nbytes⟩] }
    else none
  | .free bp =>
    match s.live.find? fun l => l.block.addr = bp with
    | none => none
    | some _ =>
      (free s bp).map fun s => { s with live := s.live.eraseP fun l => l.block.addr = bp }
  | .write x h => if s.Owned x then some { s with mem := update s.mem x h } else none

def init (L : Layout) (mem : ℕ → Header) : State where
  mem := mem
  freep := none
  brk := L.start
  calls := 0
  regions := []
  live := []

/-- `sbrk` does not let the heap grow to `2 ^ 32` units. -/
def Small (sbrk : Sbrk) (s : State) : Event → Prop
  | .malloc nbytes =>
    sbrk s.calls = none ∨ units s.regions + coreUnits (nunitsOf nbytes) < 2 ^ 32
  | _ => True

instance (sbrk : Sbrk) (s : State) (e : Event) : Decidable (Small sbrk s e) :=
  match e with
  | .malloc _ => inferInstanceAs (Decidable (_ ∨ _))
  | .free _ => inferInstanceAs (Decidable True)
  | .write _ _ => inferInstanceAs (Decidable True)

end Xv6.Umalloc
