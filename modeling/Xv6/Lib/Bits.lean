import Xv6.Lib.Words

/-!
# Bits of a byte array

Bit `i` of a region is bit `i % 8` of its byte `i / 8`, tested, set and
cleared with a one-bit mask.
-/

namespace Xv6.Lib

def bitMask (i : ℕ) : UInt8 := .ofBitVec (BitVec.twoPow 8 (i % 8))

def getBit (m : Bytes) (i : ℕ) : Bool := m (i / 8) &&& bitMask i ≠ 0

def setBit (m : Bytes) (i : ℕ) : Bytes :=
  Function.update m (i / 8) (m (i / 8) ||| bitMask i)

def clearBit (m : Bytes) (i : ℕ) : Bytes :=
  Function.update m (i / 8) (m (i / 8) &&& ~~~bitMask i)

theorem getBit_eq_getLsbD (m : Bytes) (i : ℕ) :
    getBit m i = (m (i / 8)).toBitVec.getLsbD (i % 8) := by
  have hlt : i % 8 < 8 := Nat.mod_lt i (by decide)
  have hmask : (BitVec.twoPow 8 (i % 8)) ≠ 0#8 := by
    intro h
    have := congrArg (fun v => v.getLsbD (i % 8)) h
    simp [hlt] at this
  have hand : (m (i / 8) &&& bitMask i).toBitVec =
      if (m (i / 8)).toBitVec.getLsbD (i % 8) then BitVec.twoPow 8 (i % 8) else 0#8 := by
    rw [UInt8.toBitVec_and, bitMask, BitVec.and_twoPow]
  have hiff : m (i / 8) &&& bitMask i ≠ 0 ↔ (m (i / 8)).toBitVec.getLsbD (i % 8) = true := by
    rw [Ne, ← UInt8.toBitVec_inj, hand]
    split_ifs with hbit
    · simp [hbit, hmask]
    · simp [hbit]
  simp [getBit, hiff]

theorem getBit_setBit (m : Bytes) (i j : ℕ) :
    getBit (setBit m i) j = (decide (j = i) || getBit m j) := by
  have hi : i % 8 < 8 := Nat.mod_lt i (by decide)
  have hj : j % 8 < 8 := Nat.mod_lt j (by decide)
  rw [getBit_eq_getLsbD, getBit_eq_getLsbD, setBit]
  by_cases hbyte : j / 8 = i / 8
  · rw [hbyte, Function.update_self, UInt8.toBitVec_or, BitVec.getLsbD_or, bitMask,
      BitVec.getLsbD_twoPow, Bool.or_comm]
    congr 1
    have hiff : j = i ↔ j % 8 < 8 ∧ i % 8 = j % 8 := by omega
    simp [hiff, hi, hj]
  · have hne : j ≠ i := fun h => hbyte (by rw [h])
    rw [Function.update_of_ne hbyte]
    simp [hne]

theorem getBit_clearBit (m : Bytes) (i j : ℕ) :
    getBit (clearBit m i) j = (decide (j ≠ i) && getBit m j) := by
  have hi : i % 8 < 8 := Nat.mod_lt i (by decide)
  have hj : j % 8 < 8 := Nat.mod_lt j (by decide)
  rw [getBit_eq_getLsbD, getBit_eq_getLsbD, clearBit]
  by_cases hbyte : j / 8 = i / 8
  · rw [hbyte, Function.update_self, UInt8.toBitVec_and, BitVec.getLsbD_and, UInt8.toBitVec_not,
      BitVec.getLsbD_not, bitMask, BitVec.getLsbD_twoPow, Bool.and_comm]
    congr 1
    have hiff : j ≠ i ↔ ¬(j % 8 < 8 ∧ i % 8 = j % 8) := by omega
    simp [hiff, hi, hj]
  · have hne : j ≠ i := fun h => hbyte (by rw [h])
    rw [Function.update_of_ne hbyte]
    simp [hne]

end Xv6.Lib
