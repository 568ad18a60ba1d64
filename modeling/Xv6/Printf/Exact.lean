import Xv6.Printf.Alike
import Xv6.Printf.Format

/-!
# Which numbers the kernel prints

The kernel prints every number at 64 bits. An `int` argument is sign-extended on the way,
also for `%u` and `%x`, and the buffer has no room for a decimal number of more than 16
characters. For the other arguments the printed text is the shortest numeral.
-/

namespace Xv6.Printf

open Lib

variable {z z' : ℤ} {l : Length} {k : Kind}

/-! ## Formats with one conversion -/

def Length.letters : Length → Text
  | int => []
  | long => text "l"
  | longLong => text "ll"

def Kind.letter : Kind → UInt8
  | d => 'd'.toUInt8
  | u => 'u'.toUInt8
  | x => 'x'.toUInt8

def format (l : Length) (k : Kind) : Text := '%'.toUInt8 :: (l.letters ++ [k.letter])

theorem parse_format (l : Length) (k : Kind) : parse 0 (format l k) = [.num l k] := by
  cases l <;> cases k <;> decide

theorem render_num (P : Printer) (hw : 16 < 2 ^ P.width) (l : Length) (k : Kind)
    (v : BitVec l.width) : P.render [.num l k] [l.arg v] =
      if (spell P.digits k.base (P.number l k v)).length ≤ 16 then
        .ok (spell P.digits k.base (P.number l k v))
      else .error (.overrun 16) := by
  rw [Printer.render, P.emit_num hw]
  split
  · exact congrArg Except.ok (List.append_nil _)
  · rfl

theorem printf_format (l : Length) (k : Kind) (v : BitVec l.width) :
    Kernel.printf (format l k) [l.arg v] =
      if (spell kernel.digits k.base (kernel.number l k v)).length ≤ 16 then
        .ok (spell kernel.digits k.base (kernel.number l k v))
      else .error (.overrun 16) := by
  rw [Kernel.printf_eq, parse_format, render_num kernel (by decide)]

/-! ## The printed number -/

/-- The shortest numeral of the argument at the conversion's width and signedness, with a
minus sign only before a negative number. -/
def Exact (l : Length) (k : Kind) (v : BitVec l.width) (out : Text) : Prop :=
  ∃ ds, Shortest k.base (value k.sign v).natAbs ds ∧
    out = (if value k.sign v < 0 then ['-'.toUInt8] else []) ++ ds.map (glyph kernel.digits)

theorem exact_iff {v : BitVec l.width} {out : Text} :
    Exact l k v out ↔ out = spell kernel.digits k.base (value k.sign v) := by
  constructor
  · rintro ⟨ds, hds, rfl⟩
    rw [hds.eq_numeral k.one_lt_base]
    rfl
  · rintro rfl
    exact ⟨_, shortest_numeral k.one_lt_base, rfl⟩

theorem spell_injective (k : Kind)
    (h : spell kernel.digits k.base z = spell kernel.digits k.base z') : z = z' := by
  apply eq_of_alike_spell k.one_lt_base k.base_le
  rw [h]
  exact alike_spell k.one_lt_base k.base_le z'

theorem printf_exact_iff_number (v : BitVec l.width) :
    (∃ out, Kernel.printf (format l k) [l.arg v] = .ok out ∧ Exact l k v out) ↔
      kernel.number l k v = value k.sign v ∧
        -(k.base ^ 15 : ℕ) < value k.sign v ∧ value k.sign v < (k.base ^ 16 : ℕ) := by
  rw [printf_format]
  constructor
  · rintro ⟨out, hout, hexact⟩
    rw [exact_iff] at hexact
    subst hexact
    split at hout
    · rename_i hlen
      have hnum := spell_injective k (Except.ok.inj hout)
      rw [hnum, length_spell_le_iff k.one_lt_base] at hlen
      exact ⟨hnum, hlen⟩
    · exact absurd hout (by simp)
  · rintro ⟨hnum, hlen⟩
    rw [hnum, if_pos ((length_spell_le_iff k.one_lt_base _).mpr hlen)]
    exact ⟨_, rfl, exact_iff.mpr rfl⟩

/-- The `int` arguments that are printed right. -/
def FitsInt : Kind → BitVec 32 → Prop
  | .d, _ => True
  | .u, v => v.toNat < 2 ^ 31
  | .x, v => v.toNat < 2 ^ 31

/-- The `uint64` arguments that are printed right. -/
def FitsLong : Kind → BitVec 64 → Prop
  | .d, v => -10 ^ 15 < v.toInt ∧ v.toInt < 10 ^ 16
  | .u, v => v.toNat < 10 ^ 16
  | .x, _ => True

def Fits : (l : Length) → Kind → BitVec l.width → Prop
  | .int, k, v => FitsInt k v
  | .long, k, v => FitsLong k v
  | .longLong, k, v => FitsLong k v

theorem toNat_signExtend_eq_iff (v : BitVec 32) :
    (v.signExtend 64).toNat = v.toNat ↔ v.toNat < 2 ^ 31 := by
  have hlt := v.isLt
  rw [BitVec.toNat_signExtend, BitVec.toNat_setWidth, Nat.mod_eq_of_lt (by omega)]
  split
  · rename_i hmsb
    rw [BitVec.msb_eq_true_iff_two_mul_ge] at hmsb
    omega
  · rename_i hmsb
    rw [Bool.not_eq_true, BitVec.msb_eq_false_iff_two_mul_lt] at hmsb
    omega

/-- Sign extension keeps signed numbers, and unsigned ones below 2 ^ 31. -/
theorem number_int_eq_iff (k : Kind) (v : BitVec 32) :
    kernel.number .int k v = value k.sign v ↔ k.sign = true ∨ v.toNat < 2 ^ 31 := by
  change value k.sign (v.signExtend 64) = value k.sign v ↔ _
  cases k.sign with
  | true => simp [value, BitVec.toInt_signExtend_of_le (by decide : 32 ≤ 64)]
  | false =>
    rw [← toNat_signExtend_eq_iff]
    simp [value]

theorem fitsInt_iff (k : Kind) (v : BitVec 32) : FitsInt k v ↔
    (k.sign = true ∨ v.toNat < 2 ^ 31) ∧ -(k.base ^ 15 : ℕ) < value k.sign v ∧
      value k.sign v < (k.base ^ 16 : ℕ) := by
  have hlt := v.isLt
  have hge := v.le_toInt
  have hle := v.toInt_lt
  cases k <;> simp [FitsInt, value, Kind.sign, Kind.base] <;> omega

theorem fitsLong_iff (k : Kind) (v : BitVec 64) : FitsLong k v ↔
    -(k.base ^ 15 : ℕ) < value k.sign v ∧ value k.sign v < (k.base ^ 16 : ℕ) := by
  have hlt := v.isLt
  cases k <;> simp [FitsLong, value, Kind.sign, Kind.base] <;> omega

/-- The kernel prints a number exactly, without leaving its buffer, if and only if an
unsigned `int` is below 2 ^ 31 and a decimal 64-bit number has at most 16 characters. -/
theorem printf_exact_iff (l : Length) (k : Kind) (v : BitVec l.width) :
    (∃ out, Kernel.printf (format l k) [l.arg v] = .ok out ∧ Exact l k v out) ↔ Fits l k v := by
  rw [printf_exact_iff_number]
  cases l with
  | int => exact (and_congr_left' (number_int_eq_iff k v)).trans (fitsInt_iff k v).symm
  | long => exact (and_iff_right rfl).trans (fitsLong_iff k v).symm
  | longLong => exact (and_iff_right rfl).trans (fitsLong_iff k v).symm

/-- The unsigned 2 ^ 31 comes out with its sign extended, and so do its hexadecimal digits;
17 decimal digits run over the end of the buffer. -/
theorem printf_not_exact :
    Kernel.printf (text "%u") [.int (2 ^ 31)] = .error (.overrun 16) ∧
      Kernel.printf (text "%x") [.int (2 ^ 31)] = .ok (text "ffffffff80000000") ∧
      Kernel.printf (text "%lu") [.long (10 ^ 16)] = .error (.overrun 16) ∧
      Kernel.printf (text "%ld") [.long (-10 ^ 15)] = .error (.overrun 16) := by
  decide +kernel

end Xv6.Printf
