import Xv6.Lib.Words

/-!
# Parameters

The constants of `param.h` and `fs.h`.
-/

namespace Xv6

def NPROC : ℕ := 64

theorem NPROC_pos : 0 < NPROC := by decide

def NOFILE : ℕ := 16

def MAXARG : ℕ := 32

/-- Max number of blocks any file-system operation writes. -/
def MAXOPBLOCKS : ℕ := 10

def LOGSIZE : ℕ := MAXOPBLOCKS * 3

def BSIZE : ℕ := 1024

def BPB : ℕ := BSIZE * 8

def NDIRECT : ℕ := 12

def NINDIRECT : ℕ := BSIZE / 4

def MAXFILE : ℕ := NDIRECT + NINDIRECT

/-- On-disk inodes, of 64 bytes each, per block. -/
def IPB : ℕ := BSIZE / 64

def NINODE : ℕ := 50

def ROOTINO : ℕ := 1

def DIRSIZ : ℕ := 14

/-- The text of a kernel panic. -/
abbrev Panic := String

abbrev Block := Lib.Bytes

end Xv6
