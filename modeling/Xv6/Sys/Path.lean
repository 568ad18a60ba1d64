import Xv6.Dir.Map

/-!
# Paths and names

The functions of `fs.c` that follow path names, over the inode layer, and the loop of
`isdirempty`.  They run between `begin_op` and `end_op`, on behalf of one process,
which locks inodes as it goes.
-/

namespace Xv6

open Lib

/-- What `skipelem` does to the buffer `name`: the element `s` is cut off at `DIRSIZ`, and
ends with a NUL only if it is shorter. -/
def setName (name : Bytes) (s : List UInt8) : Bytes := fun i =>
  if DIRSIZ ≤ s.length then if i < DIRSIZ then s.getD i 0 else name i
  else if i < s.length then s.getD i 0 else if i = s.length then 0 else name i

/-- Copy the next path element from `path` into `name`: the rest of the path, without
leading slashes, and the buffer. -/
def skipelem (path : List UInt8) (name : Bytes) : Option (List UInt8 × Bytes) :=
  let path := path.dropWhile (· = 47)
  if path = [] then none
  else some ((path.dropWhile (· ≠ 47)).dropWhile (· = 47), setName name (path.takeWhile (· ≠ 47)))

/-- The file system as one process uses it, and the inodes whose locks it holds. -/
structure Caller where
  fs : Fs
  lock : ℕ → Bool

namespace Caller

variable (sb : Superblock) (c : Caller)

/-- Not a panic: the process waits for a lock that it holds itself. -/
def stuck : Panic := "acquiresleep"

/-- Not a panic: the loop of `namex` has gone on for longer than there are bytes in the path. -/
def endless : Panic := "namex"

def setLock (k : ℕ) (b : Bool) : Caller := { c with lock := Function.update c.lock k b }

/-- The outcome of an operation on the file system. -/
def lift {α : Type} (x : Except Panic (α × Fs)) : Except Panic (α × Caller) := do
  let (a, fs) ← x
  .ok (a, { c with fs := fs })

def ilock (k : ℕ) : Except Panic Caller :=
  if (c.fs.itable k).ref < 1 then .error "ilock"
  else if c.lock k then .error stuck
  else do
    let fs ← c.fs.ilock sb k
    .ok ({ c with fs := fs }.setLock k true)

def iunlock (k : ℕ) : Except Panic Caller :=
  if c.lock k = false ∨ (c.fs.itable k).ref < 1 then .error "iunlock" else .ok (c.setLock k false)

def iput (k : ℕ) : Except Panic Caller :=
  let ip := c.fs.itable k
  if ip.ref = 1 ∧ ip.valid ∧ ip.nlink = 0 ∧ c.lock k then .error stuck
  else do
    let fs ← c.fs.iput sb k
    .ok { c with fs := fs }

def iunlockput (k : ℕ) : Except Panic Caller := do
  let c ← c.iunlock k
  c.iput sb k

def idup (k : ℕ) : Caller := { c with fs := c.fs.idup k }

/-- The loop of `namex`; there are at most as many elements as bytes. -/
def walk (nameiparent : Bool) :
    ℕ → Caller → ℕ → List UInt8 → Bytes → Except Panic (Option (ℕ × Bytes) × Caller)
  | 0, _, _, _, _ => .error endless
  | fuel + 1, c, ip, path, name =>
    match skipelem path name with
    | none =>
      if nameiparent then do
        let c ← c.iput sb ip
        .ok (none, c)
      else .ok (some (ip, name), c)
    | some (path, name) => do
      let c ← c.ilock sb ip
      if (c.fs.itable ip).type ≠ T_DIR then do
        let c ← c.iunlockput sb ip
        .ok (none, c)
      else if nameiparent ∧ path = [] then do
        -- Stop one level early.
        let c ← c.iunlock ip
        .ok (some (ip, name), c)
      else do
        let (next, c) ← c.lift (c.fs.dirlookup sb ip name)
        match next with
        | none => do
          let c ← c.iunlockput sb ip
          .ok (none, c)
        | some (next, _) => do
          let c ← c.iunlockput sb ip
          walk nameiparent fuel c next path name

/-- The walk from entry `ip` along the elements of a path, without the text of the path. -/
def follow (nameiparent : Bool) :
    Caller → ℕ → List (List UInt8) → Bytes → Except Panic (Option (ℕ × Bytes) × Caller)
  | c, ip, [], name =>
    if nameiparent then do
      let c ← c.iput sb ip
      .ok (none, c)
    else .ok (some (ip, name), c)
  | c, ip, e :: es, name => do
    let name := setName name e
    let c ← c.ilock sb ip
    if (c.fs.itable ip).type ≠ T_DIR then do
      let c ← c.iunlockput sb ip
      .ok (none, c)
    else if nameiparent ∧ es = [] then do
      let c ← c.iunlock ip
      .ok (some (ip, name), c)
    else do
      let (next, c) ← c.lift (c.fs.dirlookup sb ip name)
      match next with
      | none => do
        let c ← c.iunlockput sb ip
        .ok (none, c)
      | some (next, _) => do
        let c ← c.iunlockput sb ip
        follow nameiparent c next es name

/-- `namex`, for a process whose working directory is in entry `cwd`: the entry of the
result, and the buffer `name`. -/
def namex (cwd : ℕ) (path : List UInt8) (nameiparent : Bool) (name : Bytes) :
    Except Panic (Option (ℕ × Bytes) × Caller) :=
  if path.head? = some 47 then do
    let (ip, c) ← c.lift (c.fs.iget ROOTINO)
    walk sb nameiparent (path.length + 1) c ip path name
  else walk sb nameiparent (path.length + 1) (c.idup cwd) cwd path name

def isdiremptyLoop (dp : ℕ) : ℕ → Fs → ℕ → Except Panic (Bool × Fs)
  | 0, s, _ => .ok (true, s)
  | fuel + 1, s, off =>
    if off < (s.itable dp).size then do
      let (de, s) ← s.readDirent sb dp off "isdirempty: readi"
      if de.inum ≠ 0 then .ok (false, s) else isdiremptyLoop dp fuel s (off + 16)
    else .ok (true, s)

end Caller

end Xv6
