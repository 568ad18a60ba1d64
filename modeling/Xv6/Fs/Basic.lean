import Xv6.Fs.Layout

/-!
# Blocks, inodes and directories

The functions of `fs.c` from the block allocator up to directories, as they
run one after the other: each takes the file-system state and returns its
result with the new state, or the text of the panic it reaches.  Buffers are
byte arrays; `log_write` is what makes a change of a buffer last beyond the
recycling of the buffer.
-/

namespace Xv6

open Lib

def T_DIR : Short := 1
def T_FILE : Short := 2
def T_DEVICE : Short := 3

/-- `struct inode`, without its device number and sleep lock. -/
structure Inode extends Dinode where
  inum : ℕ
  ref : ℕ
  valid : Bool

structure Fs where
  /-- What `bread` returns. -/
  buf : ℕ → Block
  /-- What `bread` returns once the buffer has been recycled. -/
  disk : ℕ → Block
  /-- `itable.inode`, of which the first `NINODE` entries exist. -/
  itable : ℕ → Inode
  /-- The arguments of `log_write`, in order. -/
  logged : List ℕ

/-- Bytes handed to `either_copyin`: the byte at each offset, and how many of
them can be read before the copy fails. -/
structure Source where
  byte : ℕ → UInt8
  avail : ℕ

/-- Copy `m` bytes of `src` to offset `o` of a buffer. -/
def blit (x : Block) (o m : ℕ) (src : ℕ → UInt8) : Block :=
  fun j => if o ≤ j ∧ j < o + m then src (j - o) else x j

namespace Fs

variable (sb : Superblock) (s : Fs)

/-! ## Buffers -/

def setBuf (b : ℕ) (x : Block) : Fs := { s with buf := Function.update s.buf b x }

/-- Change a buffer to `x` and hand it to `log_write`. -/
def logWrite (b : ℕ) (x : Block) : Fs :=
  { s with
    buf := Function.update s.buf b x
    disk := Function.update s.disk b x
    logged := s.logged ++ [b] }

def evict (b : ℕ) : Fs := s.setBuf b (s.disk b)

def setInode (k : ℕ) (ip : Inode) : Fs := { s with itable := Function.update s.itable k ip }

def setAddr (k : ℕ) (i : Fin (NDIRECT + 1)) (addr : ℕ) : Fs :=
  s.setInode k { s.itable k with addrs := Function.update (s.itable k).addrs i addr }

def bit (b : ℕ) : Bool := getBit (s.buf (sb.bblock b)) (b % BPB)

def dinode (i : ℕ) : Dinode := Dinode.read (s.buf (sb.iblock i)) (i % IPB)

/-! ## Blocks -/

def bzero (bno : ℕ) : Fs := s.logWrite bno fun _ => 0

/-- The two loops of `balloc`: the first block whose bit is clear. -/
def ballocScan : Option ℕ :=
  (List.range ((sb.size + BPB - 1) / BPB)).findSome? fun c =>
    ((List.range (min BPB (sb.size - c * BPB))).find? fun bi =>
      !getBit (s.buf (sb.bblock (c * BPB))) bi).map fun bi => c * BPB + bi

def balloc : ℕ × Fs :=
  match s.ballocScan sb with
  | some b =>
    (b, (s.logWrite (sb.bblock b) (setBit (s.buf (sb.bblock b)) (b % BPB))).bzero b)
  | none => (0, s)

def bfree (b : ℕ) : Except Panic Fs :=
  if s.bit sb b then
    .ok (s.logWrite (sb.bblock b) (clearBit (s.buf (sb.bblock b)) (b % BPB)))
  else .error "freeing free block"

/-! ## Inodes -/

def iget (inum : ℕ) : Except Panic (ℕ × Fs) :=
  match (List.range NINODE).find? fun k => 0 < (s.itable k).ref ∧ (s.itable k).inum = inum with
  | some k => .ok (k, s.setInode k { s.itable k with ref := (s.itable k).ref + 1 })
  | none =>
    match (List.range NINODE).find? fun k => (s.itable k).ref = 0 with
    | some k => .ok (k, s.setInode k { s.itable k with inum := inum, ref := 1, valid := false })
    | none => .error "iget: no inodes"

def idup (k : ℕ) : Fs := s.setInode k { s.itable k with ref := (s.itable k).ref + 1 }

/-- `ialloc`; the result is the entry of the new inode in the table. -/
def ialloc (type : Short) : Except Panic (Option ℕ × Fs) :=
  match (List.range' 1 (sb.ninodes - 1)).find? fun inum => (s.dinode sb inum).type = 0 with
  | some inum => do
    let dip : Dinode := { Dinode.zero with type := type }
    let s := s.logWrite (sb.iblock inum) (dip.write (s.buf (sb.iblock inum)) (inum % IPB))
    let (k, s) ← s.iget inum
    .ok (some k, s)
  | none => .ok (none, s)

def iupdate (k : ℕ) : Fs :=
  let ip := s.itable k
  s.logWrite (sb.iblock ip.inum) (ip.toDinode.write (s.buf (sb.iblock ip.inum)) (ip.inum % IPB))

def ilock (k : ℕ) : Except Panic Fs :=
  let ip := s.itable k
  if ip.ref < 1 then .error "ilock"
  else if ip.valid then .ok s
  else
    let dip := s.dinode sb ip.inum
    if dip.type = 0 then .error "ilock: no type"
    else .ok (s.setInode k { ip with toDinode := dip, valid := true })

/-- Load `ip->addrs[i]`, allocating a block if there is none. -/
def loadAddr (k : ℕ) (i : Fin (NDIRECT + 1)) : ℕ × Fs :=
  if (s.itable k).addrs i = 0 then
    let (addr, s) := s.balloc sb
    if addr = 0 then (0, s) else (addr, s.setAddr k i addr)
  else ((s.itable k).addrs i, s)

def bmap (k bn : ℕ) : Except Panic (ℕ × Fs) :=
  if h : bn < NDIRECT then .ok (s.loadAddr sb k (Fin.castSucc ⟨bn, h⟩))
  else if bn - NDIRECT < NINDIRECT then
    -- Load indirect block, allocating if necessary.
    let (ind, s) := s.loadAddr sb k (Fin.last NDIRECT)
    if ind = 0 then .ok (0, s)
    else if getWord 4 (s.buf ind) (4 * (bn - NDIRECT)) = 0 then
      let (addr, s) := s.balloc sb
      if addr = 0 then .ok (0, s)
      else .ok (addr, s.logWrite ind (setWord 4 (s.buf ind) (4 * (bn - NDIRECT)) addr))
    else .ok (getWord 4 (s.buf ind) (4 * (bn - NDIRECT)), s)
  else .error "bmap: out of range"

def truncDirect (k : ℕ) (s : Fs) (i : Fin NDIRECT) : Except Panic Fs :=
  if (s.itable k).addrs i.castSucc ≠ 0 then do
    let s ← s.bfree sb ((s.itable k).addrs i.castSucc)
    .ok (s.setAddr k i.castSucc 0)
  else .ok s

/-- One pass of the second loop of `itrunc`, over the indirect block `ind`. -/
def truncEntry (ind : ℕ) (s : Fs) (j : Fin NINDIRECT) : Except Panic Fs :=
  if getWord 4 (s.buf ind) (4 * j) ≠ 0 then s.bfree sb (getWord 4 (s.buf ind) (4 * j))
  else .ok s

def itrunc (k : ℕ) : Except Panic Fs := do
  let s ← (List.finRange NDIRECT).foldlM (truncDirect sb k) s
  let ind := (s.itable k).addrs (Fin.last NDIRECT)
  let s ←
    if ind ≠ 0 then do
      let s ← (List.finRange NINDIRECT).foldlM (truncEntry sb ind) s
      let s ← s.bfree sb ind
      .ok (s.setAddr k (Fin.last NDIRECT) 0)
    else .ok s
  .ok ((s.setInode k { s.itable k with size := 0 }).iupdate sb k)

def iput (k : ℕ) : Except Panic Fs := do
  let ip := s.itable k
  let s ←
    if ip.ref = 1 ∧ ip.valid ∧ ip.nlink = 0 then do
      -- inode has no links and no other references: truncate and free.
      let s ← s.itrunc sb k
      let s := (s.setInode k { s.itable k with type := 0 }).iupdate sb k
      .ok (s.setInode k { s.itable k with valid := false })
    else .ok s
  .ok (s.setInode k { s.itable k with ref := (s.itable k).ref - 1 })

/-! ## Inode content -/

/-- The loop of `readi`.  `dst` collects the bytes copied out; the copy fails
once more than `avail` bytes would have been. -/
def readLoop (k n avail : ℕ) :
    ℕ → Fs → (tot off : ℕ) → List UInt8 → Except Panic (ℤ × List UInt8 × Fs)
  | 0, s, tot, _, dst => .ok (tot, dst, s)
  | fuel + 1, s, tot, off, dst =>
    if tot < n then do
      let (addr, s) ← s.bmap sb k (off / BSIZE)
      if addr = 0 then .ok (tot, dst, s)
      else
        let m := min (n - tot) (BSIZE - off % BSIZE)
        let bytes := (List.range m).map fun j => s.buf addr (off % BSIZE + j)
        if avail < tot + m then .ok (-1, dst ++ bytes.take (avail - tot), s)
        else readLoop k n avail fuel s (tot + m) (off + m) (dst ++ bytes)
    else .ok (tot, dst, s)

def readi (k off n avail : ℕ) : Except Panic (ℤ × List UInt8 × Fs) :=
  let size := (s.itable k).size
  if size < off ∨ (off + n) % 2 ^ 32 < off then .ok (0, [], s)
  else
    let n := if size < (off + n) % 2 ^ 32 then size - off else n
    readLoop sb k n avail n s 0 off []

def writeLoop (k n : ℕ) (src : Source) :
    ℕ → Fs → (tot off : ℕ) → Except Panic (ℕ × ℕ × Fs)
  | 0, s, tot, off => .ok (tot, off, s)
  | fuel + 1, s, tot, off =>
    if tot < n then do
      let (addr, s) ← s.bmap sb k (off / BSIZE)
      if addr = 0 then .ok (tot, off, s)
      else
        let m := min (n - tot) (BSIZE - off % BSIZE)
        let copy (m : ℕ) := blit (s.buf addr) (off % BSIZE) m fun j => src.byte (tot + j)
        -- a failed copy has changed the buffer up to the byte it failed at
        if src.avail < tot + m then .ok (tot, off, s.setBuf addr (copy (src.avail - tot)))
        else writeLoop k n src fuel (s.logWrite addr (copy m)) (tot + m) (off + m)
    else .ok (tot, off, s)

def writei (k : ℕ) (src : Source) (off n : ℕ) : Except Panic (ℤ × Fs) :=
  if (s.itable k).size < off ∨ (off + n) % 2 ^ 32 < off then .ok (-1, s)
  else if MAXFILE * BSIZE < (off + n) % 2 ^ 32 then .ok (-1, s)
  else do
    let (tot, off, s) ← writeLoop sb k n src n s 0 off
    let ip := s.itable k
    let s := if ip.size < off then s.setInode k { ip with size := off } else s
    .ok (tot, s.iupdate sb k)

end Fs

/-! ## Directories -/

def strncmp : ℕ → Bytes → Bytes → ℤ
  | 0, _, _ => 0
  | n + 1, p, q =>
    if p 0 ≠ 0 ∧ p 0 = q 0 then strncmp n (fun i => p (i + 1)) (fun i => q (i + 1))
    else (p 0).toNat - (q 0).toNat

/-- `strncpy`: the bytes of `t` up to and with its first NUL, then NULs. -/
def strncpy (t : Bytes) : Bytes :=
  fun i => if (List.range i).any fun j => t j = 0 then 0 else t i

def namecmp (p q : Bytes) : ℤ := strncmp DIRSIZ p q

structure Dirent where
  inum : ℕ
  name : Bytes

namespace Dirent

def ofBytes (l : List UInt8) : Dirent where
  inum := getWord 2 (fun i => l.getD i 0) 0
  name i := l.getD (2 + i) 0

def toBytes (de : Dirent) : Bytes :=
  setWord 2 (fun i => de.name (i - 2)) 0 de.inum

end Dirent

namespace Fs

variable (sb : Superblock) (s : Fs)

/-- Read the directory entry at `off`; `msg` is the panic if that fails. -/
def readDirent (dp off : ℕ) (msg : Panic) : Except Panic (Dirent × Fs) := do
  let (r, dst, s) ← s.readi sb dp off 16 16
  if r ≠ 16 then .error msg else .ok (Dirent.ofBytes dst, s)

def dirlookupLoop (dp : ℕ) (name : Bytes) :
    ℕ → Fs → ℕ → Except Panic (Option (ℕ × ℕ) × Fs)
  | 0, s, _ => .ok (none, s)
  | fuel + 1, s, off =>
    if off < (s.itable dp).size then do
      let (de, s) ← s.readDirent sb dp off "dirlookup read"
      if de.inum ≠ 0 ∧ namecmp name de.name = 0 then .ok (some (de.inum, off), s)
      else dirlookupLoop dp name fuel s (off + 16)
    else .ok (none, s)

/-- `dirlookup`; the result is the entry in the inode table and `*poff`. -/
def dirlookup (dp : ℕ) (name : Bytes) : Except Panic (Option (ℕ × ℕ) × Fs) :=
  if (s.itable dp).type ≠ T_DIR then .error "dirlookup not DIR"
  else do
    let (found, s) ← dirlookupLoop sb dp name ((s.itable dp).size / 16 + 1) s 0
    match found with
    | some (inum, off) => do
      let (k, s) ← s.iget inum
      .ok (some (k, off), s)
    | none => .ok (none, s)

/-- The loop of `dirlink`: the offset of an empty dirent, or the size. -/
def dirlinkLoop (dp : ℕ) : ℕ → Fs → ℕ → Except Panic (ℕ × Fs)
  | 0, s, off => .ok (off, s)
  | fuel + 1, s, off =>
    if off < (s.itable dp).size then do
      let (de, s) ← s.readDirent sb dp off "dirlink read"
      if de.inum = 0 then .ok (off, s) else dirlinkLoop dp fuel s (off + 16)
    else .ok (off, s)

def dirlink (dp : ℕ) (name : Bytes) (inum : ℕ) : Except Panic (ℤ × Fs) := do
  -- Check that name is not present.
  let (found, s) ← s.dirlookup sb dp name
  match found with
  | some (k, _) => do
    let s ← s.iput sb k
    .ok (-1, s)
  | none => do
    -- Look for an empty dirent.
    let (off, s) ← dirlinkLoop sb dp ((s.itable dp).size / 16 + 1) s 0
    let de : Dirent := ⟨inum, strncpy name⟩
    let (r, s) ← s.writei sb dp ⟨de.toBytes, 16⟩ off 16
    .ok (if r ≠ 16 then -1 else 0, s)

end Fs

end Xv6
