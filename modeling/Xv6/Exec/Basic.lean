import Xv6.Vm.Basic

/-!
# `exec`

The functions of `exec.c`.  The file is the list of its bytes and is read with the offsets
and sizes that the code passes on, cut to 32 bits where the code's types do.
-/

namespace Xv6.Exec

open Lib Vm

def ELF_MAGIC : ℕ := 0x464C457F

def ELF_PROG_LOAD : ℕ := 1

def number (k : ℕ) (bs : List UInt8) (o : ℕ) : ℕ := getWord k (fun i => bs.getD i 0) o

structure Elfhdr where
  magic : ℕ
  entry : ℕ
  phoff : ℕ
  phnum : ℕ

def Elfhdr.ofBytes (bs : List UInt8) : Elfhdr where
  magic := number 4 bs 0
  entry := number 8 bs 24
  phoff := number 8 bs 32
  phnum := number 2 bs 56

structure Proghdr where
  type : ℕ
  flags : ℕ
  off : ℕ
  vaddr : ℕ
  filesz : ℕ
  memsz : ℕ

def Proghdr.ofBytes (bs : List UInt8) : Proghdr where
  type := number 4 bs 0
  flags := number 4 bs 4
  off := number 8 bs 8
  vaddr := number 8 bs 16
  filesz := number 8 bs 32
  memsz := number 8 bs 40

def elfhdrSize : ℕ := 64

def proghdrSize : ℕ := 56

def flags2perm (flags : ℕ) : ℕ :=
  let perm := if flags &&& 1 ≠ 0 then PTE_X else 0
  if flags &&& 2 ≠ 0 then perm ||| PTE_W else perm

/-- The bytes that `readi` delivers of an inode without holes. -/
def readi (data : List UInt8) (off n : ℕ) : List UInt8 :=
  if data.length < off ∨ (off + n) % 2 ^ 32 < off then []
  else (data.drop off).take (if data.length < (off + n) % 2 ^ 32 then data.length - off else n)

/-- Bytes that are read arrive at the kernel address `dst`. -/
def put (k : Kernel) (dst : ℕ) (bs : List UInt8) : Kernel :=
  { k with mem := fun x => if dst ≤ x ∧ x < dst + bs.length then bs.getD (x - dst) 0 else k.mem x }

/-! ## Loading -/

def loadLoop (pagetable va : ℕ) (data : List UInt8) (offset sz : ℕ) :
    ℕ → Kernel → ℕ → Except Panic (ℤ × Kernel)
  | 0, k, _ => .ok (0, k)
  | fuel + 1, k, i =>
    if i < sz then do
      let pa ← k.walkaddr pagetable ((va + i) % 2 ^ 64)
      if pa = 0 then .error "loadseg: address should exist"
      else
        let n := if sz - i < PGSIZE then sz - i else PGSIZE
        let bs := readi data ((offset + i) % 2 ^ 32) n
        let k := put k pa bs
        if bs.length ≠ n then .ok (-1, k)
        else loadLoop pagetable va data offset sz fuel k ((i + PGSIZE) % 2 ^ 32)
    else .ok (0, k)

/-- Load a program segment at `va`; `offset` and `sz` are `uint`. -/
def loadseg (k : Kernel) (pagetable va : ℕ) (data : List UInt8) (offset sz : ℕ) :
    Except Panic (ℤ × Kernel) :=
  loadLoop pagetable va data offset sz (sz / PGSIZE + 1) k 0

/-- The loop of `exec` over the program headers that are left, with the offset of the next
one: whether it reached the end, and the size. -/
def segLoop (pagetable : ℕ) (data : List UInt8) :
    ℕ → Kernel → (sz off : ℕ) → Except Panic (Bool × ℕ × Kernel)
  | 0, k, sz, _ => .ok (true, sz, k)
  | i + 1, k, sz, off =>
    let bs := readi data off proghdrSize
    let ph := Proghdr.ofBytes bs
    if bs.length ≠ proghdrSize then .ok (false, sz, k)
    else if ph.type ≠ ELF_PROG_LOAD then
      segLoop pagetable data i k sz ((off + proghdrSize) % 2 ^ 32)
    else if ph.memsz < ph.filesz then .ok (false, sz, k)
    else if (ph.vaddr + ph.memsz) % 2 ^ 64 < ph.vaddr then .ok (false, sz, k)
    else if ph.vaddr % PGSIZE ≠ 0 then .ok (false, sz, k)
    else do
      let (sz1, k) ← k.uvmalloc pagetable sz ((ph.vaddr + ph.memsz) % 2 ^ 64) (flags2perm ph.flags)
      if sz1 = 0 then .ok (false, sz, k)
      else do
        let (r, k) ← loadseg k pagetable ph.vaddr data (ph.off % 2 ^ 32) (ph.filesz % 2 ^ 32)
        if r < 0 then .ok (false, sz1, k)
        else segLoop pagetable data i k sz1 ((off + proghdrSize) % 2 ^ 32)

/-! ## Arguments -/

def strlenFrom (k : Kernel) : ℕ → ℕ → ℕ
  | 0, _ => 0
  | fuel + 1, s => if k.mem s = 0 then 0 else strlenFrom k fuel (s + 1) + 1

/-- `strlen` of an argument, which has a page of its own. -/
def strlen (k : Kernel) (s : ℕ) : ℕ := strlenFrom k PGSIZE s

/-- The stack pointer below `len` more bytes, aligned. -/
def lower (sp len : ℕ) : ℕ :=
  let sp := (sp + 2 ^ 64 - len) % 2 ^ 64
  sp - sp % 16

/-- Push the strings of `argv` from number `argc` on, and then the array of pointers to
them, which is put together at `ustack`: the number of strings and the stack pointer. -/
def pushArgs (pagetable stackbase ustack : ℕ) :
    List ℕ → ℕ → Kernel → ℕ → Except Panic (Option (ℕ × ℕ) × Kernel)
  | [], argc, k, sp => do
    let k := k.store (ustack + 8 * argc) 0
    let sp := lower sp ((argc + 1) * 8)
    if sp < stackbase then .ok (none, k)
    else do
      let (r, k) ← k.copyout pagetable sp ustack ((argc + 1) * 8)
      if r < 0 then .ok (none, k) else .ok (some (argc, sp), k)
  | s :: argv, argc, k, sp =>
    if MAXARG ≤ argc then .ok (none, k)
    else
      let sp := lower sp (strlen k s + 1)
      if sp < stackbase then .ok (none, k)
      else do
        let (r, k) ← k.copyout pagetable sp s (strlen k s + 1)
        if r < 0 then .ok (none, k)
        else pushArgs pagetable stackbase ustack argv (argc + 1) (k.store (ustack + 8 * argc) sp) sp

/-! ## `exec` -/

/-- Memory, the process, and what it holds of the file system. -/
structure State where
  k : Kernel
  p : Vm.Proc
  /-- `p->name`, up to its NUL. -/
  name : List UInt8
  /-- Transactions that the process has begun and not ended. -/
  ops : ℕ
  /-- References to the file's inode that `namei` has given to the process. -/
  ref : ℕ
  /-- The process holds the lock of the file's inode. -/
  locked : Bool

namespace State

def beginOp (s : State) : State := { s with ops := s.ops + 1 }

def endOp (s : State) : State := { s with ops := s.ops - 1 }

def namei (s : State) : State := { s with ref := s.ref + 1 }

def ilock (s : State) : State := { s with locked := true }

def iunlockput (s : State) : State := { s with locked := false, ref := s.ref - 1 }

/-- The label `bad`; `ip` says whether the inode is still held. -/
def bad (s : State) (pagetable sz : ℕ) (ip : Bool) : Except Panic State := do
  let k ← if pagetable = 0 then .ok s.k else s.k.procFreepagetable pagetable sz
  let s := { s with k := k }
  .ok (if ip then s.iunlockput.endOp else s)

/-- `goto bad`, before there is an image to commit to. -/
def fail (s : State) (pagetable sz : ℕ) (ip : Bool) :
    Except Panic (Option (ℕ × ℕ × ℕ) × State) := do
  let s ← s.bad pagetable sz ip
  .ok (none, s)

/-- Two pages at the next page boundary, the guard page and the stack. -/
def stack (s : State) (pagetable sz entry : ℕ) :
    Except Panic (Option (ℕ × ℕ × ℕ) × State) := do
  let sz := PGROUNDUP sz
  let (sz1, k) ← s.k.uvmalloc pagetable sz ((sz + 2 * PGSIZE) % 2 ^ 64) PTE_W
  let s := { s with k := k }
  if sz1 = 0 then s.fail pagetable sz false
  else do
    let k ← s.k.uvmclear pagetable (sz1 - 2 * PGSIZE)
    .ok (some (pagetable, sz1, entry), { s with k := k })

/-- The first part of `exec`, up to the arguments: the new page table, its size and the
entry point, or nothing after `bad`. -/
def load (s : State) (trampoline : ℕ) (file : Option (List UInt8)) :
    Except Panic (Option (ℕ × ℕ × ℕ) × State) :=
  let s := s.beginOp
  match file with
  | none => .ok (none, s.endOp)
  | some data =>
    let s := s.namei.ilock
    let bs := readi data 0 elfhdrSize
    let elf := Elfhdr.ofBytes bs
    if bs.length ≠ elfhdrSize then s.fail 0 0 true
    else if elf.magic ≠ ELF_MAGIC then s.fail 0 0 true
    else do
      let (pagetable, k) ← s.k.procPagetable trampoline s.p
      let s := { s with k := k }
      if pagetable = 0 then s.fail 0 0 true
      else do
        let (ok, sz, k) ← segLoop pagetable data elf.phnum s.k 0 (elf.phoff % 2 ^ 32)
        let s := { s with k := k }
        if !ok then s.fail pagetable sz true
        else s.iunlockput.endOp.stack pagetable sz elf.entry

def lastElem (path : List UInt8) : List UInt8 :=
  path.foldl (fun last c => if c = 47 then [] else last ++ [c]) []

def commit (s : State) (path : List UInt8) (pagetable sz entry sp : ℕ) : Except Panic State := do
  let k := s.k.store (s.p.trapframe + 120) sp
  let k := (k.store (s.p.trapframe + 24) entry).store (s.p.trapframe + 48) sp
  let k ← k.procFreepagetable s.p.pagetable s.p.sz
  .ok { s with k := k, p := { s.p with pagetable := pagetable, sz := sz },
               name := (lastElem path).take 15 }

/-- `exec`; `argv` holds the addresses of the argument strings and `ustack` is that of the
array on the kernel's stack. -/
def exec (s : State) (trampoline : ℕ) (path : List UInt8) (file : Option (List UInt8))
    (argv : List ℕ) (ustack : ℕ) : Except Panic (ℤ × State) := do
  let (image, s) ← s.load trampoline file
  match image with
  | none => .ok (-1, s)
  | some (pagetable, sz, entry) => do
    let (args, k) ← pushArgs pagetable (sz - PGSIZE) ustack argv 0 s.k sz
    let s := { s with k := k }
    match args with
    | none => do
      let s ← s.bad pagetable sz false
      .ok (-1, s)
    | some (argc, sp) => do
      let s ← s.commit path pagetable sz entry sp
      .ok (argc, s)

end State

end Xv6.Exec
