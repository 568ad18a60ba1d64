import Xv6.Fs.Basic

/-!
# What the primitives do to the volume

A block number below `nmeta` belongs to the free map or to the inode area (or
to the boot block, the super block and the log); the others hold data.  The
lemmas below say how changing one buffer shows in each of the three views: the
bits of the free map, the on-disk inodes, and the data blocks.
-/

namespace Xv6

open Lib
open Function (update update_self update_of_ne)

namespace Fs

variable {sb : Superblock} {s s' : Fs} {b c i k : ℕ} {x : Block} {ip : Inode}

@[simp] theorem setBuf_buf : (s.setBuf b x).buf = update s.buf b x := rfl
@[simp] theorem setBuf_disk : (s.setBuf b x).disk = s.disk := rfl
@[simp] theorem setBuf_itable : (s.setBuf b x).itable = s.itable := rfl
@[simp] theorem logWrite_buf : (s.logWrite b x).buf = update s.buf b x := rfl
@[simp] theorem logWrite_disk : (s.logWrite b x).disk = update s.disk b x := rfl
@[simp] theorem logWrite_itable : (s.logWrite b x).itable = s.itable := rfl
@[simp] theorem setInode_buf : (s.setInode k ip).buf = s.buf := rfl
@[simp] theorem setInode_disk : (s.setInode k ip).disk = s.disk := rfl
@[simp] theorem setInode_itable : (s.setInode k ip).itable = update s.itable k ip := rfl
@[simp] theorem setAddr_buf {j : Fin (NDIRECT + 1)} : (s.setAddr k j b).buf = s.buf := rfl
@[simp] theorem setAddr_disk {j : Fin (NDIRECT + 1)} : (s.setAddr k j b).disk = s.disk := rfl

/-- The buffer of block `b` holds what was last logged for it. -/
def Clean (s : Fs) (b : ℕ) : Prop := s.disk b = s.buf b

theorem Clean.logWrite (h : s.Clean c ∨ c = b) : (s.logWrite b x).Clean c := by
  unfold Clean at *
  by_cases hc : c = b
  · simp [hc]
  · simpa [hc] using h

theorem Clean.setBuf (h : s.Clean c) (hc : c ≠ b) : (s.setBuf b x).Clean c := by
  unfold Clean at *
  simpa [hc] using h

/-- Byte `o` of block `b` survives the recycling of the buffer. -/
def Settled (s : Fs) (b o : ℕ) : Prop := s.disk b o = s.buf b o

theorem Settled.logWrite {o : ℕ} (h : s.Settled c o ∨ c = b) : (s.logWrite b x).Settled c o := by
  unfold Settled at *
  by_cases hc : c = b
  · simp [hc]
  · simpa [hc] using h

theorem Settled.balloc {o : ℕ} (h : s.Settled c o) : (s.balloc sb).2.Settled c o := by
  unfold Fs.balloc
  cases s.ballocScan sb with
  | none => exact h
  | some b => exact .logWrite (.inl (.logWrite (.inl h)))

def Full (sb : Superblock) (s : Fs) : Prop := ∀ b < sb.size, s.bit sb b = true

theorem bit_congr (h : s'.buf (sb.bblock b) = s.buf (sb.bblock b)) :
    s'.bit sb b = s.bit sb b := by
  unfold bit
  rw [h]

theorem dinode_congr (h : s'.buf (sb.iblock i) = s.buf (sb.iblock i)) :
    s'.dinode sb i = s.dinode sb i := by
  unfold dinode
  rw [h]

/-- `Keeps sb s s'`: the free map and the inode area are as before. -/
structure Keeps (sb : Superblock) (s s' : Fs) : Prop where
  bit : ∀ c < sb.size, s'.bit sb c = s.bit sb c
  dinode : ∀ i < sb.ninodes, s'.dinode sb i = s.dinode sb i

theorem keeps_of_data (hb : sb.nmeta ≤ b)
    (h : ∀ c ≠ b, s'.buf c = s.buf c) : Keeps sb s s' := by
  refine ⟨fun c hc => bit_congr (h _ ?_), fun i hi => dinode_congr (h _ ?_)⟩
  · have := sb.bblock_lt hc
    omega
  · have := sb.iblock_lt hi
    omega

/-! ## The free map -/

theorem bit_logWrite_bblock (hx : ∀ j, j ≠ b % BPB → getBit x j = getBit (s.buf (sb.bblock b)) j) :
    (s.logWrite (sb.bblock b) x).bit sb c =
      if c = b then getBit x (b % BPB) else s.bit sb c := by
  have hmod : c / BPB = b / BPB → c % BPB = b % BPB → c = b := by
    intro h1 h2
    rw [← Nat.div_add_mod c BPB, ← Nat.div_add_mod b BPB, h1, h2]
  unfold bit
  rw [logWrite_buf]
  split_ifs with hcb
  · rw [hcb, update_self]
  · by_cases hblk : sb.bblock c = sb.bblock b
    · have hdiv : c / BPB = b / BPB := Nat.add_right_cancel hblk
      rw [hblk, update_self, hx _ fun h => hcb (hmod hdiv h)]
    · rw [update_of_ne hblk]

theorem ballocScan_eq_some (h : s.ballocScan sb = some b) :
    b < sb.size ∧ s.bit sb b = false := by
  obtain ⟨c, -, hc⟩ := List.exists_of_findSome?_eq_some h
  obtain ⟨bi, hfind, rfl⟩ := Option.map_eq_some_iff.mp hc
  have hbi := List.mem_range.mp (List.mem_of_find?_eq_some hfind)
  have hfree := List.find?_some hfind
  have hlt : bi < BPB := by omega
  have hdiv : (c * BPB + bi) / BPB = c * BPB / BPB := by
    unfold BPB BSIZE at *
    omega
  refine ⟨by omega, ?_⟩
  unfold bit Superblock.bblock
  rw [hdiv, Nat.mul_add_mod_of_lt hlt, ← Bool.not_eq_true']
  exact hfree

theorem full_of_ballocScan_eq_none (h : s.ballocScan sb = none) : Full sb s := by
  intro b hb
  have hB : BPB = 8192 := rfl
  have hchunk := List.findSome?_eq_none_iff.mp h (b / BPB) (by
    rw [List.mem_range, hB]
    omega)
  have hbit := List.find?_eq_none.mp (Option.map_eq_none_iff.mp hchunk) (b % BPB) (by
    rw [List.mem_range, hB]
    omega)
  have hblk : sb.bblock (b / BPB * BPB) = sb.bblock b := by
    unfold Superblock.bblock
    rw [Nat.mul_div_cancel _ (by decide)]
  rw [hblk] at hbit
  simpa [bit] using hbit

/-- What one successful call of `balloc` does. -/
structure Allocates (sb : Superblock) (s : Fs) (b : ℕ) (s' : Fs) : Prop where
  lt : b < sb.size
  free : s.bit sb b = false
  bit : ∀ c < sb.size, s'.bit sb c = (decide (c = b) || s.bit sb c)
  dinode : ∀ i < sb.ninodes, s'.dinode sb i = s.dinode sb i
  buf : ∀ c, sb.nmeta ≤ c → c ≠ b → s'.buf c = s.buf c
  zero : s'.buf b = fun _ => 0
  clean : ∀ c, s.Clean c ∨ c = b → s'.Clean c
  itable : s'.itable = s.itable

/-- As long as the bits of the metadata blocks are set, `balloc` either finds
the disk full or takes a data block. -/
theorem balloc_cases (hmeta : ∀ c < sb.nmeta, s.bit sb c = true) :
    (s.balloc sb = (0, s) ∧ Full sb s) ∨
      ∃ b s', s.balloc sb = (b, s') ∧ b ≠ 0 ∧ sb.nmeta ≤ b ∧ Allocates sb s b s' := by
  unfold balloc
  cases hscan : s.ballocScan sb with
  | none => exact .inl ⟨rfl, full_of_ballocScan_eq_none hscan⟩
  | some b =>
    obtain ⟨hlt, hfree⟩ := ballocScan_eq_some hscan
    have hb : sb.nmeta ≤ b := by
      by_contra hb
      rw [hmeta b (by omega)] at hfree
      cases hfree
    have hpos := sb.nmeta_pos hlt
    refine .inr ⟨b, _, rfl, by omega, hb, ?_⟩
    set s₁ := s.logWrite (sb.bblock b) (setBit (s.buf (sb.bblock b)) (b % BPB)) with hs₁
    -- zeroing the new block concerns none of the metadata
    have hkeep : Keeps sb s₁ (s₁.bzero b) := by
      apply keeps_of_data hb
      intro c hc
      exact update_of_ne hc ..
    have hbblock := sb.bblock_lt hlt
    refine ⟨hlt, hfree, ?_, ?_, ?_, ?_, ?_, rfl⟩
    · intro c hc
      rw [hkeep.bit c hc, hs₁, bit_logWrite_bblock fun j hj => by simp [getBit_setBit, hj]]
      by_cases hcb : c = b <;> simp [hcb, getBit_setBit]
    · intro i hi
      rw [hkeep.dinode i hi]
      exact dinode_congr (update_of_ne (sb.iblock_lt_bblock hi).ne ..)
    · intro c hc hcb
      have hne : c ≠ sb.bblock b := by omega
      simp [bzero, hs₁, hcb, hne]
    · simp [bzero]
    · rintro c (hc | rfl)
      · exact .logWrite (.inl (.logWrite (.inl hc)))
      · exact .logWrite (.inr rfl)

/-- What giving back the blocks of a set does. -/
structure Frees (sb : Superblock) (B : Set ℕ) (s s' : Fs) : Prop where
  bit : ∀ c < sb.size, s'.bit sb c = true ↔ s.bit sb c = true ∧ c ∉ B
  dinode : ∀ i < sb.ninodes, s'.dinode sb i = s.dinode sb i
  buf : ∀ c, sb.nmeta ≤ c → s'.buf c = s.buf c
  settled : ∀ c o, s.Settled c o → s'.Settled c o

theorem Frees.clean {B : Set ℕ} (h : Frees sb B s s') (hc : s.Clean c) : s'.Clean c :=
  funext fun o => h.settled c o (congrFun hc o)

theorem Frees.refl (s : Fs) : Frees sb ∅ s s :=
  ⟨fun _ _ => by simp, fun _ _ => rfl, fun _ _ => rfl, fun _ _ h => h⟩

theorem Frees.trans {B C : Set ℕ} {s₁ s₂ s₃ : Fs} (h : Frees sb B s₁ s₂) (h' : Frees sb C s₂ s₃) :
    Frees sb (B ∪ C) s₁ s₃ := by
  refine ⟨?_, ?_, ?_, fun c o hc => h'.settled c o (h.settled c o hc)⟩
  · intro c hc
    rw [h'.bit c hc, h.bit c hc, Set.mem_union, not_or, and_assoc]
  · intro i hi
    rw [h'.dinode i hi, h.dinode i hi]
  · intro c hc
    rw [h'.buf c hc, h.buf c hc]

theorem Frees.setInode {B : Set ℕ} (h : Frees sb B s s') : Frees sb B s (s'.setInode k ip) :=
  ⟨h.bit, h.dinode, h.buf, h.settled⟩

theorem bfree_of_bit (hb : b < sb.size) (hbit : s.bit sb b = true) :
    ∃ s', s.bfree sb b = .ok s' ∧ Frees sb {b} s s' ∧ s'.itable = s.itable := by
  refine ⟨s.logWrite (sb.bblock b) (clearBit (s.buf (sb.bblock b)) (b % BPB)), if_pos hbit,
    ⟨?_, ?_, ?_, ?_⟩, rfl⟩
  · intro c _
    rw [bit_logWrite_bblock fun j hj => by simp [getBit_clearBit, hj]]
    by_cases hcb : c = b <;> simp [hcb, getBit_clearBit]
  · intro i hi
    exact dinode_congr (update_of_ne (sb.iblock_lt_bblock hi).ne ..)
  · intro c hc
    have := sb.bblock_lt hb
    exact update_of_ne (by omega) ..
  · intro c o hc
    exact .logWrite (.inl hc)

/-! ## The inode area -/

theorem dinode_logWrite {d : Dinode} (hd : d.Fits) {j : ℕ} :
    (s.logWrite (sb.iblock i) (d.write (s.buf (sb.iblock i)) (i % IPB))).dinode sb j =
      if j = i then d else s.dinode sb j := by
  have hmod : j / IPB = i / IPB → j % IPB = i % IPB → j = i := by
    intro h1 h2
    rw [← Nat.div_add_mod j IPB, ← Nat.div_add_mod i IPB, h1, h2]
  unfold dinode
  rw [logWrite_buf]
  split_ifs with hji
  · rw [hji, update_self, Dinode.read_write_self hd]
  · by_cases hblk : sb.iblock j = sb.iblock i
    · have hdiv : j / IPB = i / IPB := Nat.add_right_cancel hblk
      rw [hblk, update_self, Dinode.read_write_of_ne _ _ fun h => hji (hmod hdiv h)]
    · rw [update_of_ne hblk]

theorem bit_logWrite_iblock (hi : i < sb.ninodes) :
    (s.logWrite (sb.iblock i) x).bit sb c = s.bit sb c :=
  bit_congr (update_of_ne (sb.iblock_lt_bblock hi).ne' ..)

end Fs

end Xv6
