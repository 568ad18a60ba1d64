import Xv6.Dir.Search

/-!
# Writing one directory entry

An entry never crosses a block boundary, so `writei` stores it as a whole or
not at all.  It fails exactly when the block it belongs to has to be allocated
and the free map has too few blocks: one for the block itself, and one for the
indirect block if that is missing too.
-/

namespace Xv6

open Lib

namespace Fs

variable {sb : Superblock} {s t : Fs} {b j k bn : ℕ}

def freeBlocks (sb : Superblock) (s : Fs) : ℕ :=
  ((Finset.range sb.size).filter fun b => s.bit sb b = false).card

/-- The number of blocks that `bmap` has to allocate for block `bn` of a file. -/
def missing (s : Fs) (k bn : ℕ) : ℕ :=
  if h : bn < NDIRECT then if (s.itable k).addrs (Fin.castSucc ⟨bn, h⟩) = 0 then 1 else 0
  else if (s.itable k).addrs (Fin.last NDIRECT) = 0 then 2
  else if getWord 4 (s.buf ((s.itable k).addrs (Fin.last NDIRECT))) (4 * (bn - NDIRECT)) = 0 then 1
  else 0

theorem freeBlocks_eq_zero_iff : freeBlocks sb s = 0 ↔ Full sb s := by
  rw [freeBlocks, Finset.card_eq_zero, Finset.filter_eq_empty_iff]
  simp [Full]

theorem Allocates.freeBlocks_eq (h : Allocates sb s b t) :
    freeBlocks sb s = freeBlocks sb t + 1 := by
  have herase : ((Finset.range sb.size).filter fun c => t.bit sb c = false) =
      ((Finset.range sb.size).filter fun c => s.bit sb c = false).erase b := by
    ext c
    simp only [Finset.mem_erase, Finset.mem_filter, Finset.mem_range]
    constructor
    · rintro ⟨hc, hbit⟩
      rw [h.bit c hc] at hbit
      simp only [Bool.or_eq_false_iff, decide_eq_false_iff_not] at hbit
      exact ⟨hbit.1, hc, hbit.2⟩
    · rintro ⟨hcb, hc, hbit⟩
      refine ⟨hc, ?_⟩
      rw [h.bit c hc, hbit]
      simp [hcb]
  rw [freeBlocks, freeBlocks, herase, Finset.card_erase_add_one]
  simp [h.lt, h.free]

theorem freeBlocks_congr (h : t.buf = s.buf) : freeBlocks sb t = freeBlocks sb s := by
  unfold freeBlocks bit
  rw [h]

theorem balloc_eq_zero_iff (hmeta : ∀ c < sb.nmeta, s.bit sb c = true) :
    ∃ b t, s.balloc sb = (b, t) ∧ (b = 0 ↔ freeBlocks sb s < 1) := by
  rcases balloc_cases hmeta with ⟨hb, hfull⟩ | ⟨b, t, hb, hb0, -, ha⟩
  · refine ⟨0, s, hb, iff_of_true rfl ?_⟩
    rw [Nat.lt_one_iff]
    exact freeBlocks_eq_zero_iff.mpr hfull
  · have hfree := ha.freeBlocks_eq
    exact ⟨b, t, hb, iff_of_false hb0 (by omega)⟩

theorem bmap_eq_zero_iff (h : Locked sb s k) (hbn : bn < MAXFILE) :
    ∃ addr t, s.bmap sb k bn = .ok (addr, t) ∧ (addr = 0 ↔ freeBlocks sb s < s.missing k bn) := by
  have hmeta := h.sound.bit_of_lt_nmeta
  unfold bmap missing
  by_cases hdir : bn < NDIRECT
  · rw [dif_pos hdir, dif_pos hdir]
    unfold loadAddr
    split_ifs with haddr
    · obtain ⟨b, t, hb, hiff⟩ := balloc_eq_zero_iff hmeta
      simp only [hb]
      split_ifs with hb0
      · exact ⟨0, t, rfl, iff_of_true rfl (hiff.mp hb0)⟩
      · exact ⟨b, _, rfl, hiff⟩
    · exact ⟨_, s, rfl, iff_of_false haddr (Nat.not_lt_zero _)⟩
  · have hlt : bn - NDIRECT < NINDIRECT := by
      unfold MAXFILE at hbn
      omega
    rw [dif_neg hdir, if_pos hlt, dif_neg hdir]
    unfold loadAddr
    by_cases hind : (s.itable k).addrs (Fin.last NDIRECT) = 0
    · rw [if_pos hind, if_pos hind]
      rcases balloc_cases hmeta with ⟨hb, hfull⟩ | ⟨ind, u, hb, hb0, -, ha⟩
      · simp only [hb, if_pos]
        refine ⟨0, s, rfl, iff_of_true rfl ?_⟩
        rw [freeBlocks_eq_zero_iff.mpr hfull]
        exact Nat.two_pos
      · -- the new indirect block is empty, so one more block is needed
        have hzero : getWord 4 ((u.setAddr k (Fin.last NDIRECT) ind).buf ind)
          (4 * (bn - NDIRECT)) = 0 := by
          change getWord 4 (u.buf ind) _ = 0
          rw [ha.zero, getWord_zero]
        have hmeta' : ∀ c < sb.nmeta, (u.setAddr k (Fin.last NDIRECT) ind).bit sb c = true := by
          intro c hc
          change u.bit sb c = true
          rw [ha.bit c (hc.trans_le (Nat.sub_le _ _)), hmeta c hc, Bool.or_true]
        obtain ⟨b, t, hb', hiff⟩ := balloc_eq_zero_iff hmeta'
        have hfree := ha.freeBlocks_eq
        have hsame : freeBlocks sb (u.setAddr k (Fin.last NDIRECT) ind) = freeBlocks sb u :=
          freeBlocks_congr rfl
        simp only [hb, if_neg hb0, hzero, if_true, hb']
        split_ifs with hb0'
        · exact ⟨0, t, rfl, iff_of_true rfl (by have := hiff.mp hb0'; omega)⟩
        · refine ⟨b, _, rfl, iff_of_false hb0' ?_⟩
          have hge := mt hiff.mpr hb0'
          omega
    · rw [if_neg hind, if_neg hind]
      simp only [if_neg hind]
      by_cases hword : getWord 4 (s.buf ((s.itable k).addrs (Fin.last NDIRECT)))
          (4 * (bn - NDIRECT)) = 0
      · obtain ⟨b, t, hb, hiff⟩ := balloc_eq_zero_iff hmeta
        simp only [if_pos hword, hb]
        split_ifs with hb0
        · exact ⟨0, t, rfl, iff_of_true rfl (hiff.mp hb0)⟩
        · exact ⟨b, _, rfl, hiff⟩
      · simp only [if_neg hword]
        exact ⟨_, s, rfl, iff_of_false hword (Nat.not_lt_zero _)⟩

theorem Locked.missing_eq_zero (h : Locked sb s k) (hj : j < (s.itable k).size) :
    ¬ freeBlocks sb s < s.missing k (j / BSIZE) := by
  obtain ⟨b, hlt, hb⟩ := h.ref_of_lt_size hj
  obtain ⟨-, -, hb0, -⟩ := slots_eq_some.mp hb
  obtain ⟨addr, t, hmap, hiff⟩ := bmap_eq_zero_iff h hlt
  rw [bmap_of_ref hlt hb] at hmap
  obtain ⟨rfl, -⟩ := Prod.mk.inj (Except.ok.inj hmap)
  exact mt hiff.mpr hb0

theorem writei_entry (h : Locked sb s k) (byte : ℕ → UInt8) (hj : 16 * j ≤ (s.itable k).size)
    (hmax : 16 * j + 16 ≤ MAXFILE * BSIZE) : ∃ t, s.writei sb k ⟨byte, 16⟩ (16 * j) 16 =
      .ok (if freeBlocks sb s < s.missing k (16 * j / BSIZE) then 0 else 16, t) := by
  have hB : BSIZE = 1024 := rfl
  have hlt : 16 * j / BSIZE < MAXFILE := by
    rw [hB] at hmax ⊢
    omega
  have h32 : 16 * j + 16 < 2 ^ 32 := hmax.trans_lt (by decide)
  obtain ⟨addr, u, hmap, hiff⟩ := bmap_eq_zero_iff h hlt
  have hchunk : min 16 (BSIZE - 16 * j % BSIZE) = 16 := by
    rw [hB]
    omega
  unfold writei
  rw [Nat.mod_eq_of_lt h32, if_neg (by omega), if_neg (by omega)]
  simp only [writeLoop, hmap, bind, Except.bind, Nat.sub_zero, hchunk, Nat.zero_add, lt_irrefl,
    if_false, if_true, Nat.zero_lt_succ]
  by_cases haddr : addr = 0
  · simp only [haddr, if_true, if_pos (hiff.mp haddr)]
    exact ⟨_, rfl⟩
  · simp only [haddr, if_false, if_neg (mt hiff.mpr haddr)]
    exact ⟨_, rfl⟩

end Fs

end Xv6
