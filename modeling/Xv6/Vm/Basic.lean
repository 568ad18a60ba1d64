import Xv6.Params
import Xv6.Lib.Move

/-!
# Physical memory, page tables and user copies

The functions of `kalloc.c` and `vm.c` on the bytes of physical memory.  Addresses and
sizes are `uint64`; a sum that may wrap is taken modulo `2 ^ 64`.
-/

namespace Xv6

open Lib

def PGSIZE : ℕ := 4096

def PTE_V : ℕ := 1
def PTE_R : ℕ := 2
def PTE_W : ℕ := 4
def PTE_X : ℕ := 8
def PTE_U : ℕ := 16

def MAXVA : ℕ := 2 ^ 38

def TRAMPOLINE : ℕ := MAXVA - PGSIZE

def TRAPFRAME : ℕ := TRAMPOLINE - PGSIZE

def PHYSTOP : ℕ := 0x80000000 + 128 * 1024 * 1024

namespace Vm

def PGROUNDUP (sz : ℕ) : ℕ := (sz + PGSIZE - 1) % 2 ^ 64 / PGSIZE * PGSIZE

def PGROUNDDOWN (a : ℕ) : ℕ := a / PGSIZE * PGSIZE

def PA2PTE (pa : ℕ) : ℕ := pa / PGSIZE * 1024

def PTE2PA (pte : ℕ) : ℕ := pte / 1024 * PGSIZE % 2 ^ 64

def PTE_FLAGS (pte : ℕ) : ℕ := pte % 1024

/-- The 9-bit page table index of a virtual address at a level. -/
def PX (level va : ℕ) : ℕ := va / 2 ^ (12 + 9 * level) % 512

/-- Physical memory and `kmem`. -/
structure Kernel where
  mem : Bytes
  /-- `kmem.freelist`, without the pointers that link its pages. -/
  freelist : List ℕ
  /-- For each of the next calls of `kalloc`, whether other processes hold all free pages. -/
  busy : List Bool
  /-- `end[]`, the first address after the kernel. -/
  kernelEnd : ℕ

namespace Kernel

def load (k : Kernel) (a : ℕ) : ℕ := getWord 8 k.mem a

def store (k : Kernel) (a w : ℕ) : Kernel := { k with mem := setWord 8 k.mem a w }

def setByte (k : Kernel) (a : ℕ) (c : UInt8) : Kernel :=
  { k with mem := Function.update k.mem a c }

def memset (k : Kernel) (dst : ℕ) (c : UInt8) (n : ℕ) : Kernel :=
  { k with mem := fun x => if dst ≤ x ∧ x < dst + n then c else k.mem x }

def memmove (k : Kernel) (dst src n : ℕ) : Kernel :=
  { k with mem := moveRange k.mem dst src n }

/-! ## Pages -/

def kalloc (k : Kernel) : ℕ × Kernel :=
  match k.busy, k.freelist with
  | true :: busy, _ => (0, { k with busy := busy })
  | busy, [] => (0, { k with busy := busy.tail })
  | busy, r :: freelist =>
    (r, { k with freelist := freelist, busy := busy.tail }.memset r 5 PGSIZE)

def kfree (k : Kernel) (pa : ℕ) : Except Panic Kernel :=
  if pa % PGSIZE ≠ 0 ∨ pa < k.kernelEnd ∨ PHYSTOP ≤ pa then .error "kfree"
  else
    .ok { (k.memset pa 1 PGSIZE).store pa (k.freelist.headD 0) with freelist := pa :: k.freelist }

/-! ## Page tables -/

/-- The loop of `walk` from a level on, with the address of the table at that level. -/
def walkFrom (va : ℕ) (alloc : Bool) : ℕ → Kernel → ℕ → ℕ × Kernel
  | 0, k, pagetable => (pagetable + 8 * PX 0 va, k)
  | level + 1, k, pagetable =>
    let pte := pagetable + 8 * PX (level + 1) va
    if k.load pte &&& PTE_V ≠ 0 then walkFrom va alloc level k (PTE2PA (k.load pte))
    else if !alloc then (0, k)
    else
      let (page, k) := k.kalloc
      if page = 0 then (0, k)
      else
        walkFrom va alloc level ((k.memset page 0 PGSIZE).store pte (PA2PTE page ||| PTE_V)) page

/-- The address of the entry of `va`, or 0. -/
def walk (k : Kernel) (pagetable va : ℕ) (alloc : Bool) : Except Panic (ℕ × Kernel) :=
  if MAXVA ≤ va then .error "walk" else .ok (walkFrom va alloc 2 k pagetable)

def walkaddr (k : Kernel) (pagetable va : ℕ) : Except Panic ℕ :=
  if MAXVA ≤ va then .ok 0
  else do
    let (pte, k) ← k.walk pagetable va false
    if pte = 0 then .ok 0
    else if k.load pte &&& PTE_V = 0 then .ok 0
    else if k.load pte &&& PTE_U = 0 then .ok 0
    else .ok (PTE2PA (k.load pte))

def mapLoop (pagetable last perm : ℕ) : ℕ → Kernel → (a pa : ℕ) → Except Panic (ℤ × Kernel)
  | 0, k, _, _ => .ok (0, k)
  | fuel + 1, k, a, pa => do
    let (pte, k) ← k.walk pagetable a true
    if pte = 0 then .ok (-1, k)
    else if k.load pte &&& PTE_V ≠ 0 then .error "mappages: remap"
    else
      let k := k.store pte (PA2PTE pa ||| perm ||| PTE_V)
      if a = last then .ok (0, k)
      else mapLoop pagetable last perm fuel k ((a + PGSIZE) % 2 ^ 64) ((pa + PGSIZE) % 2 ^ 64)

def mappages (k : Kernel) (pagetable va size pa perm : ℕ) : Except Panic (ℤ × Kernel) :=
  if va % PGSIZE ≠ 0 then .error "mappages: va not aligned"
  else if size % PGSIZE ≠ 0 then .error "mappages: size not aligned"
  else if size = 0 then .error "mappages: size"
  else mapLoop pagetable ((va + size - PGSIZE) % 2 ^ 64) perm (size / PGSIZE) k va pa

def unmapLoop (pagetable last : ℕ) (doFree : Bool) : ℕ → Kernel → ℕ → Except Panic Kernel
  | 0, k, _ => .ok k
  | fuel + 1, k, a =>
    if a < last then do
      let (pte, k) ← k.walk pagetable a false
      if pte = 0 then .error "uvmunmap: walk"
      else if k.load pte &&& PTE_V = 0 then .error "uvmunmap: not mapped"
      else if PTE_FLAGS (k.load pte) = PTE_V then .error "uvmunmap: not a leaf"
      else do
        let k ← if doFree then k.kfree (PTE2PA (k.load pte)) else .ok k
        unmapLoop pagetable last doFree fuel (k.store pte 0) ((a + PGSIZE) % 2 ^ 64)
    else .ok k

def uvmunmap (k : Kernel) (pagetable va npages : ℕ) (doFree : Bool) : Except Panic Kernel :=
  if va % PGSIZE ≠ 0 then .error "uvmunmap: not aligned"
  else unmapLoop pagetable ((va + npages * PGSIZE) % 2 ^ 64) doFree npages k va

def uvmcreate (k : Kernel) : ℕ × Kernel :=
  let (pagetable, k) := k.kalloc
  if pagetable = 0 then (0, k) else (pagetable, k.memset pagetable 0 PGSIZE)

/-- An `int` passed on as a `uint64`. -/
def intToUint64 (n : ℕ) : ℕ := (Int.bmod n (2 ^ 32) % 2 ^ 64).toNat

def uvmdealloc (k : Kernel) (pagetable oldsz newsz : ℕ) : Except Panic (ℕ × Kernel) :=
  if oldsz ≤ newsz then .ok (oldsz, k)
  else do
    let k ←
      if PGROUNDUP newsz < PGROUNDUP oldsz then
        let npages := (PGROUNDUP oldsz - PGROUNDUP newsz) / PGSIZE
        k.uvmunmap pagetable (PGROUNDUP newsz) (intToUint64 npages) true
      else .ok k
    .ok (newsz, k)

/-- The loop of `uvmalloc`; `oldsz` is page-aligned. -/
def allocLoop (pagetable oldsz newsz xperm : ℕ) : ℕ → Kernel → ℕ → Except Panic (ℕ × Kernel)
  | 0, k, _ => .ok (newsz, k)
  | fuel + 1, k, a =>
    if a < newsz then
      let (mem, k) := k.kalloc
      if mem = 0 then do
        let (_, k) ← k.uvmdealloc pagetable a oldsz
        .ok (0, k)
      else do
        let (r, k) ← (k.memset mem 0 PGSIZE).mappages pagetable a PGSIZE mem
          (PTE_R ||| PTE_U ||| xperm)
        if r ≠ 0 then do
          let k ← k.kfree mem
          let (_, k) ← k.uvmdealloc pagetable a oldsz
          .ok (0, k)
        else allocLoop pagetable oldsz newsz xperm fuel k ((a + PGSIZE) % 2 ^ 64)
    else .ok (newsz, k)

def uvmalloc (k : Kernel) (pagetable oldsz newsz xperm : ℕ) : Except Panic (ℕ × Kernel) :=
  if newsz < oldsz then .ok (oldsz, k)
  else allocLoop pagetable (PGROUNDUP oldsz) newsz xperm (newsz / PGSIZE + 1) k (PGROUNDUP oldsz)

/-- The body of the loop of `freewalk`, for entry `i`; `free` is the recursive call. -/
def freeEntry (free : Kernel → ℕ → Except Panic Kernel) (pagetable : ℕ) (k : Kernel) (i : ℕ) :
    Except Panic Kernel :=
  let pte := k.load (pagetable + 8 * i)
  if pte &&& PTE_V ≠ 0 ∧ pte &&& (PTE_R ||| PTE_W ||| PTE_X) = 0 then do
    -- this PTE points to a lower-level page table.
    let k ← free k (PTE2PA pte)
    .ok (k.store (pagetable + 8 * i) 0)
  else if pte &&& PTE_V ≠ 0 then .error "freewalk: leaf"
  else .ok k

/-- `freewalk` for a table with at most `depth` levels of tables. -/
def freewalk : ℕ → Kernel → ℕ → Except Panic Kernel
  | 0, _, _ => .error "freewalk: too deep"
  | depth + 1, k, pagetable => do
    let k ← (List.range 512).foldlM (freeEntry (freewalk depth) pagetable) k
    k.kfree pagetable

def uvmfree (k : Kernel) (pagetable sz : ℕ) : Except Panic Kernel := do
  let k ←
    if 0 < sz then k.uvmunmap pagetable 0 (PGROUNDUP sz / PGSIZE) true else .ok k
  freewalk 3 k pagetable

def uvmclear (k : Kernel) (pagetable va : ℕ) : Except Panic Kernel := do
  let (pte, k) ← k.walk pagetable va false
  if pte = 0 then .error "uvmclear"
  else .ok (k.store pte (k.load pte &&& (2 ^ 64 - 1 - PTE_U)))

/-! ## Copies between the kernel and a user -/

/-- The loop of `copyout`; every round copies at least one byte. -/
def copyoutLoop (pagetable : ℕ) :
    ℕ → Kernel → (dstva src len : ℕ) → Except Panic (ℤ × Kernel)
  | 0, k, _, _, _ => .ok (0, k)
  | fuel + 1, k, dstva, src, len =>
    if len = 0 then .ok (0, k)
    else
      let va0 := PGROUNDDOWN dstva
      if MAXVA ≤ va0 then .ok (-1, k)
      else do
        let (pte, k) ← k.walk pagetable va0 false
        if pte = 0 ∨ k.load pte &&& PTE_V = 0 ∨ k.load pte &&& PTE_U = 0 ∨
            k.load pte &&& PTE_W = 0 then .ok (-1, k)
        else
          let pa0 := PTE2PA (k.load pte)
          let n := min (PGSIZE - (dstva - va0)) len
          copyoutLoop pagetable fuel (k.memmove (pa0 + (dstva - va0)) src n) (va0 + PGSIZE)
            (src + n) (len - n)

def copyout (k : Kernel) (pagetable dstva src len : ℕ) : Except Panic (ℤ × Kernel) :=
  copyoutLoop pagetable len k dstva src len

def copyinLoop (pagetable : ℕ) :
    ℕ → Kernel → (dst srcva len : ℕ) → Except Panic (ℤ × Kernel)
  | 0, k, _, _, _ => .ok (0, k)
  | fuel + 1, k, dst, srcva, len =>
    if len = 0 then .ok (0, k)
    else do
      let va0 := PGROUNDDOWN srcva
      let pa0 ← k.walkaddr pagetable va0
      if pa0 = 0 then .ok (-1, k)
      else
        let n := min (PGSIZE - (srcva - va0)) len
        copyinLoop pagetable fuel (k.memmove dst (pa0 + (srcva - va0)) n) (dst + n)
          (va0 + PGSIZE) (len - n)

def copyin (k : Kernel) (pagetable dst srcva len : ℕ) : Except Panic (ℤ × Kernel) :=
  copyinLoop pagetable len k dst srcva len

/-- The inner loop of `copyinstr`: the memory, `got_null`, `dst` and `max` at its end. -/
def strLoop : ℕ → Kernel → (p dst max : ℕ) → Kernel × Bool × ℕ × ℕ
  | 0, k, _, dst, max => (k, false, dst, max)
  | n + 1, k, p, dst, max =>
    if k.mem p = 0 then (k.setByte dst 0, true, dst, max)
    else strLoop n (k.setByte dst (k.mem p)) (p + 1) (dst + 1) (max - 1)

def copyinstrLoop (pagetable : ℕ) :
    ℕ → Kernel → (dst srcva max : ℕ) → Except Panic (ℤ × Kernel)
  | 0, k, _, _, _ => .ok (-1, k)
  | fuel + 1, k, dst, srcva, max =>
    if max = 0 then .ok (-1, k)
    else do
      let va0 := PGROUNDDOWN srcva
      let pa0 ← k.walkaddr pagetable va0
      if pa0 = 0 then .ok (-1, k)
      else
        let n := min (PGSIZE - (srcva - va0)) max
        let (k, gotNull, dst, max) := strLoop n k (pa0 + (srcva - va0)) dst max
        if gotNull then .ok (0, k)
        else copyinstrLoop pagetable fuel k dst (va0 + PGSIZE) max

def copyinstr (k : Kernel) (pagetable dst srcva max : ℕ) : Except Panic (ℤ × Kernel) :=
  copyinstrLoop pagetable max k dst srcva max

end Kernel

/-! ## Processes -/

/-- The fields of `struct proc` that say what memory a process has. -/
structure Proc where
  pagetable : ℕ
  sz : ℕ
  /-- The page at `TRAPFRAME`. -/
  trapframe : ℕ

/-- A page table with no user memory, or 0; `trampoline` is the page of `trampoline.S`. -/
def Kernel.procPagetable (k : Kernel) (trampoline : ℕ) (p : Proc) : Except Panic (ℕ × Kernel) :=
  let (pagetable, k) := k.uvmcreate
  if pagetable = 0 then .ok (0, k)
  else do
    let (r, k) ← k.mappages pagetable TRAMPOLINE PGSIZE trampoline (PTE_R ||| PTE_X)
    if r < 0 then do
      let k ← k.uvmfree pagetable 0
      .ok (0, k)
    else do
      let (r, k) ← k.mappages pagetable TRAPFRAME PGSIZE p.trapframe (PTE_R ||| PTE_W)
      if r < 0 then do
        let k ← k.uvmunmap pagetable TRAMPOLINE 1 false
        let k ← k.uvmfree pagetable 0
        .ok (0, k)
      else .ok (pagetable, k)

/-- Free a page table and the memory it refers to. -/
def Kernel.procFreepagetable (k : Kernel) (pagetable sz : ℕ) : Except Panic Kernel := do
  let k ← k.uvmunmap pagetable TRAMPOLINE 1 false
  let k ← k.uvmunmap pagetable TRAPFRAME 1 false
  k.uvmfree pagetable sz

/-- Grow or shrink user memory by `n` bytes. -/
def Kernel.growproc (k : Kernel) (p : Proc) (n : ℤ) : Except Panic (ℤ × Proc × Kernel) :=
  let newsz := ((p.sz + n) % 2 ^ 64).toNat
  if 0 < n then do
    let (sz, k) ← k.uvmalloc p.pagetable p.sz newsz PTE_W
    if sz = 0 then .ok (-1, p, k) else .ok (0, { p with sz := sz }, k)
  else if n < 0 then do
    let (sz, k) ← k.uvmdealloc p.pagetable p.sz newsz
    .ok (0, { p with sz := sz }, k)
  else .ok (0, p, k)

end Vm

end Xv6
