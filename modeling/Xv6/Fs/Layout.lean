import Xv6.Lib.Bits
import Xv6.Params

/-!
# The on-disk layout

`mkfs` lays the disk out as boot block, super block, log, inode blocks, free
bit map, data blocks.  Inodes are 64-byte records, read and written field by
field inside the bytes of their block.
-/

namespace Xv6

open Lib

/-- `struct superblock`, as far as `fs.c` reads it, with the order of the areas.
The data blocks are the last `nblocks` ones. -/
structure Superblock where
  size : ℕ
  nblocks : ℕ
  ninodes : ℕ
  inodestart : ℕ
  bmapstart : ℕ
  size_lt : size < 2 ^ 31
  inodes_before : ∀ i < ninodes, i / IPB + inodestart < bmapstart
  bmapstart_le : bmapstart ≤ size - nblocks
  bitmap_before : ∀ b < size, b / BPB + bmapstart < size - nblocks

namespace Superblock

variable (sb : Superblock)

def nmeta : ℕ := sb.size - sb.nblocks

def bblock (b : ℕ) : ℕ := b / BPB + sb.bmapstart

def iblock (i : ℕ) : ℕ := i / IPB + sb.inodestart

variable {sb} {b i : ℕ}

theorem nmeta_le_size : sb.nmeta ≤ sb.size := Nat.sub_le ..

theorem bblock_lt (hb : b < sb.size) : sb.bblock b < sb.nmeta := sb.bitmap_before b hb

theorem iblock_lt_bmapstart (hi : i < sb.ninodes) : sb.iblock i < sb.bmapstart :=
  sb.inodes_before i hi

theorem iblock_lt_bblock (hi : i < sb.ninodes) : sb.iblock i < sb.bblock b :=
  (iblock_lt_bmapstart hi).trans_le (Nat.le_add_left ..)

theorem iblock_lt (hi : i < sb.ninodes) : sb.iblock i < sb.nmeta :=
  (iblock_lt_bmapstart hi).trans_le sb.bmapstart_le

theorem nmeta_pos (hb : b < sb.size) : 0 < sb.nmeta :=
  Nat.zero_lt_of_lt (bblock_lt hb)

end Superblock

abbrev Short := BitVec 16

structure Dinode where
  type : Short
  major : Short
  minor : Short
  nlink : Short
  size : ℕ
  addrs : Fin (NDIRECT + 1) → ℕ

namespace Dinode

def zero : Dinode := ⟨0, 0, 0, 0, 0, fun _ => 0⟩

def read (x : Block) (n : ℕ) : Dinode where
  type := .ofNat 16 (getWord 2 x (64 * n))
  major := .ofNat 16 (getWord 2 x (64 * n + 2))
  minor := .ofNat 16 (getWord 2 x (64 * n + 4))
  nlink := .ofNat 16 (getWord 2 x (64 * n + 6))
  size := getWord 4 x (64 * n + 8)
  addrs j := getWord 4 x (64 * n + 12 + 4 * j)

def write (d : Dinode) (x : Block) (n : ℕ) : Block :=
  let x := setWord 2 x (64 * n) d.type.toNat
  let x := setWord 2 x (64 * n + 2) d.major.toNat
  let x := setWord 2 x (64 * n + 4) d.minor.toNat
  let x := setWord 2 x (64 * n + 6) d.nlink.toNat
  let x := setWord 4 x (64 * n + 8) d.size
  setWords 4 x (64 * n + 12) (List.ofFn d.addrs)

/-- The unsigned fields fit their four bytes. -/
structure Fits (d : Dinode) : Prop where
  size : d.size < 2 ^ 32
  addrs : ∀ j, d.addrs j < 2 ^ 32

theorem fits_zero : zero.Fits := ⟨by decide, fun _ => by simp [zero]⟩

theorem write_of_outside (d : Dinode) (x : Block) {n o : ℕ}
    (h : o < 64 * n ∨ 64 * n + 64 ≤ o) : d.write x n o = x o := by
  have hlen : (List.ofFn d.addrs).length = 13 := List.length_ofFn
  unfold write
  rw [setWords_of_outside _ (by rw [hlen]; omega), setWord_of_outside _ (by omega),
    setWord_of_outside _ (by omega), setWord_of_outside _ (by omega),
    setWord_of_outside _ (by omega), setWord_of_outside _ (by omega)]

theorem read_congr {x y : Block} {n : ℕ}
    (h : ∀ o, 64 * n ≤ o → o < 64 * n + 64 → x o = y o) : read x n = read y n := by
  have hword : ∀ k o, 64 * n ≤ o → o + k ≤ 64 * n + 64 → getWord k x o = getWord k y o := by
    intro k o hlo hhi
    exact getWord_congr fun i hi => h _ (by omega) (by omega)
  unfold read
  rw [hword 2 _ (by omega) (by omega), hword 2 _ (by omega) (by omega),
    hword 2 _ (by omega) (by omega), hword 2 _ (by omega) (by omega),
    hword 4 _ (by omega) (by omega)]
  congr 1
  funext j
  have := j.isLt
  unfold NDIRECT at this
  exact hword 4 _ (by omega) (by omega)

theorem read_write_of_ne (d : Dinode) (x : Block) {n n' : ℕ} (h : n' ≠ n) :
    read (d.write x n) n' = read x n' := by
  apply read_congr
  intro o hlo hhi
  exact write_of_outside d x (by omega)

theorem read_write_self {d : Dinode} (hd : d.Fits) (x : Block) (n : ℕ) :
    read (d.write x n) n = d := by
  have hlen : (List.ofFn d.addrs).length = 13 := List.length_ofFn
  have hshort : ∀ v : Short, v.toNat < 256 ^ 2 := fun v => v.isLt
  have haddrs : ∀ v ∈ List.ofFn d.addrs, v < 256 ^ 4 := by
    intro v hv
    obtain ⟨j, rfl⟩ := List.mem_ofFn.mp hv
    exact hd.addrs j
  obtain ⟨type, major, minor, nlink, size, addrs⟩ := d
  unfold read
  congr 1
  -- each field is read back past the later stores, which lie above it
  · rw [write, getWord_setWords_of_disjoint _ (by omega),
      getWord_setWord_of_disjoint _ (by omega), getWord_setWord_of_disjoint _ (by omega),
      getWord_setWord_of_disjoint _ (by omega), getWord_setWord_of_disjoint _ (by omega),
      getWord_setWord_self _ _ _ (hshort _), BitVec.ofNat_toNat, BitVec.setWidth_eq]
  · rw [write, getWord_setWords_of_disjoint _ (by omega),
      getWord_setWord_of_disjoint _ (by omega), getWord_setWord_of_disjoint _ (by omega),
      getWord_setWord_of_disjoint _ (by omega),
      getWord_setWord_self _ _ _ (hshort _), BitVec.ofNat_toNat, BitVec.setWidth_eq]
  · rw [write, getWord_setWords_of_disjoint _ (by omega),
      getWord_setWord_of_disjoint _ (by omega), getWord_setWord_of_disjoint _ (by omega),
      getWord_setWord_self _ _ _ (hshort _), BitVec.ofNat_toNat, BitVec.setWidth_eq]
  · rw [write, getWord_setWords_of_disjoint _ (by omega),
      getWord_setWord_of_disjoint _ (by omega),
      getWord_setWord_self _ _ _ (hshort _), BitVec.ofNat_toNat, BitVec.setWidth_eq]
  · rw [write, getWord_setWords_of_disjoint _ (by omega),
      getWord_setWord_self _ _ _ hd.size]
  · funext j
    have hj : (j : ℕ) < (List.ofFn addrs).length := by
      rw [List.length_ofFn]
      exact j.isLt
    rw [write, getWord_setWords _ haddrs hj, List.getElem_ofFn]

end Dinode

end Xv6
