import Xv6.Lib.Numeral
import Xv6.Printf.Basic

/-!
# Printed numbers

The digits go into the buffer from the last one on and come out the other way round. A
number is printed as its shortest numeral if that fits, with its sign, into 16 bytes;
otherwise the buffer is overrun.
-/

namespace Xv6.Printf

open Lib

variable {w b i fuel : ℕ} {digits : Text} {buf buf' : Bytes} {x : BitVec w}

/-! ## The buffer -/

theorem flush_congr (h : ∀ j < i, buf j = buf' j) : flush buf i = flush buf' i := by
  induction i with
  | zero => rfl
  | succ i ih =>
    rw [flush, flush, h i i.lt_succ_self, ih fun j hj => h j (Nat.lt_succ_of_lt hj)]

@[simp]
theorem flush_update (buf : Bytes) (i : ℕ) (c : UInt8) :
    flush (Function.update buf i c) (i + 1) = c :: flush buf i := by
  rw [flush, Function.update_self]
  congr 1
  exact flush_congr fun j hj => Function.update_of_ne hj.ne _ _

theorem store_of_lt (h : i < 16) (buf : Bytes) (c : UInt8) :
    store buf i c = .ok (Function.update buf i c) := if_pos h

theorem store_of_eq (buf : Bytes) (c : UInt8) : store buf 16 c = .error (.overrun 16) := rfl

/-! ## The loop over the digits -/

def glyph (digits : Text) (d : ℕ) : UInt8 := digits.getD d 0

section Base

variable (hb : 1 < b) (hw : b < 2 ^ w)

include hw

theorem toNat_base : (BitVec.ofNat w b).toNat = b := by
  rw [BitVec.toNat_ofNat, Nat.mod_eq_of_lt hw]

theorem toNat_umod_base : (x % BitVec.ofNat w b).toNat = x.toNat % b := by
  rw [BitVec.toNat_umod, toNat_base hw]

theorem toNat_udiv_base : (x / BitVec.ofNat w b).toNat = x.toNat / b := by
  rw [BitVec.toNat_udiv, toNat_base hw]

include hb

theorem udiv_base_eq_zero_iff : x / BitVec.ofNat w b = 0#w ↔ x.toNat < b := by
  rw [← BitVec.toNat_inj, toNat_udiv_base hw, BitVec.toNat_zero, Nat.div_eq_zero_iff]
  omega

theorem digitLoop_last (hx : x.toNat < b) (hi : i < 16) (digits : Text) (buf : Bytes) :
    digitLoop digits (BitVec.ofNat w b) (fuel + 1) buf i x =
      .ok (Function.update buf i (glyph digits (x.toNat % b)), i + 1) := by
  rw [digitLoop, store_of_lt hi, toNat_umod_base hw]
  exact if_pos ((udiv_base_eq_zero_iff hb hw).mpr hx)

theorem digitLoop_step (hx : b ≤ x.toNat) (hi : i < 16) (digits : Text) (buf : Bytes) :
    digitLoop digits (BitVec.ofNat w b) (fuel + 1) buf i x =
      digitLoop digits (BitVec.ofNat w b) fuel
        (Function.update buf i (glyph digits (x.toNat % b))) (i + 1) (x / BitVec.ofNat w b) := by
  rw [digitLoop, store_of_lt hi, toNat_umod_base hw]
  exact if_neg fun h => absurd ((udiv_base_eq_zero_iff hb hw).mp h) (Nat.not_lt.mpr hx)

/-- With room for the whole numeral the loop leaves it in the buffer, last digit first. -/
theorem digitLoop_of_fits (digits : Text) (buf : Bytes) (i : ℕ) (x : BitVec w)
    (hfits : i + (numeral b x.toNat).length ≤ 16)
    (hfuel : (numeral b x.toNat).length ≤ fuel) : ∃ buf',
      digitLoop digits (BitVec.ofNat w b) fuel buf i x =
        .ok (buf', i + (numeral b x.toNat).length) ∧
      flush buf' (i + (numeral b x.toNat).length) =
        (numeral b x.toNat).map (glyph digits) ++ flush buf i := by
  induction fuel generalizing buf i x with
  | zero =>
    have hne := (shortest_numeral (n := x.toNat) hb).ne_nil
    exact absurd (List.length_eq_zero_iff.mp (Nat.le_zero.mp hfuel)) hne
  | succ fuel ih =>
    rcases Nat.lt_or_ge x.toNat b with hx | hx
    · rw [numeral_of_lt hx] at hfits ⊢
      refine ⟨_, digitLoop_last hb hw hx hfits digits buf, ?_⟩
      rw [List.length_singleton, flush_update, Nat.mod_eq_of_lt hx]
      rfl
    · have hnum := numeral_of_le hb hx
      rw [← toNat_udiv_base hw] at hnum
      rw [hnum, List.length_append, List.length_singleton] at hfits hfuel ⊢
      rw [digitLoop_step hb hw hx (by omega)]
      obtain ⟨buf', hloop, hflush⟩ := ih
        (Function.update buf i (glyph digits (x.toNat % b))) (i + 1) (x / BitVec.ofNat w b)
        (by omega) (by omega)
      rw [Nat.add_right_comm] at hloop hflush
      refine ⟨buf', hloop, hflush.trans ?_⟩
      rw [flush_update, List.map_append, List.append_assoc]
      rfl

theorem digitLoop_of_long (hi : i ≤ 16) (hlong : 16 < i + (numeral b x.toNat).length)
    (hfuel : 16 < i + fuel) :
    digitLoop digits (BitVec.ofNat w b) fuel buf i x = .error (.overrun 16) := by
  induction fuel generalizing buf i x with
  | zero => omega
  | succ fuel ih =>
    rcases Nat.lt_or_eq_of_le hi with hlt | rfl
    · have hx : b ≤ x.toNat := by
        by_contra hx
        rw [numeral_of_lt (Nat.lt_of_not_le hx), List.length_singleton] at hlong
        omega
      rw [numeral_of_le hb hx, ← toNat_udiv_base hw, List.length_append,
        List.length_singleton] at hlong
      rw [digitLoop_step hb hw hx hlt]
      exact ih (by omega) (by omega) (by omega)
    · rw [digitLoop, store_of_eq]
      rfl

end Base

/-! ## printint -/

/-- The text of a number: a minus sign if it is negative, and its shortest numeral. -/
def spell (digits : Text) (b : ℕ) (z : ℤ) : Text :=
  (if z < 0 then ['-'.toUInt8] else []) ++ (numeral b z.natAbs).map (glyph digits)

def value (sign : Bool) (x : BitVec w) : ℤ := if sign then x.toInt else x.toNat

theorem length_spell_le_iff (hb : 1 < b) (z : ℤ) :
    (spell digits b z).length ≤ 16 ↔ -(b ^ 15 : ℕ) < z ∧ z < (b ^ 16 : ℕ) := by
  have hpos : 0 < b ^ 16 := Nat.pow_pos (by omega)
  have hpos' : 0 < b ^ 15 := Nat.pow_pos (by omega)
  rw [spell, List.length_append, List.length_map]
  by_cases hz : z < 0
  · rw [if_pos hz, List.length_singleton]
    have hlen := length_numeral_le_iff (n := z.natAbs) hb (by decide : 15 ≠ 0)
    omega
  · rw [if_neg hz, List.length_nil, Nat.zero_add]
    have hlen := length_numeral_le_iff (n := z.natAbs) hb (by decide : 16 ≠ 0)
    omega

theorem toNat_neg_of_slt (h : x.slt 0#w = true) : (-x).toNat = x.toInt.natAbs := by
  rw [BitVec.slt_zero_iff_msb_cond] at h
  have hlt := x.isLt
  have hmsb := BitVec.toInt_eq_msb_cond x
  rw [h, if_pos rfl] at hmsb
  have hne : x.toNat ≠ 0 := by
    intro h0
    rw [BitVec.msb_eq_true_iff_two_mul_ge, h0] at h
    have := Nat.two_pow_pos w
    omega
  rw [BitVec.toNat_neg, Nat.mod_eq_of_lt (by omega), hmsb]
  omega

theorem slt_zero_iff (x : BitVec w) : x.slt 0#w = true ↔ x.toInt < 0 := by
  rw [BitVec.slt_iff_toInt_lt, BitVec.toInt_zero]

theorem value_of_nonneg {sign : Bool} (h : (sign && x.slt 0#w) = false) :
    value sign x = x.toNat := by
  cases sign with
  | false => rfl
  | true =>
    have hslt : ¬ x.slt 0#w = true := by
      rw [← Bool.true_and (x.slt 0#w), h]
      exact Bool.false_ne_true
    rw [BitVec.slt_zero_iff_msb_cond, Bool.not_eq_true] at hslt
    exact BitVec.toInt_eq_toNat_of_msb hslt

section Printint

variable {P : Printer} {xx : BitVec P.width} {sign : Bool}

theorem printint_of_neg (h : (sign && xx.slt 0#P.width) = true) : P.printint xx b sign = do
    let (buf, i) ← digitLoop P.digits (BitVec.ofNat P.width b) 17 (fun _ => 0) 0 (-xx)
    let buf ← store buf i '-'.toUInt8
    return flush buf (i + 1) := by
  rw [Printer.printint, h]
  rfl

theorem printint_of_nonneg (h : (sign && xx.slt 0#P.width) = false) : P.printint xx b sign = do
    let (buf, i) ← digitLoop P.digits (BitVec.ofNat P.width b) 17 (fun _ => 0) 0 xx
    return flush buf i := by
  rw [Printer.printint, h]
  rfl

variable (P xx sign)

theorem printint_eq (hb : 1 < b) (hw : b < 2 ^ P.width) : P.printint xx b sign =
    if (spell P.digits b (value sign xx)).length ≤ 16 then
      .ok (spell P.digits b (value sign xx))
    else .error (.overrun 16) := by
  cases hneg : sign && xx.slt 0#P.width with
  | true =>
    obtain ⟨rfl, hslt⟩ := Bool.and_eq_true_iff.mp hneg
    have hz : value true xx < 0 := (slt_zero_iff xx).mp hslt
    have habs : (value true xx).natAbs = (-xx).toNat := (toNat_neg_of_slt hslt).symm
    rw [printint_of_neg hneg, spell, if_pos hz, habs, List.length_append, List.length_singleton,
      List.length_map]
    rcases Nat.lt_or_ge 16 (numeral b (-xx).toNat).length with hlong | hfits
    · rw [digitLoop_of_long hb hw (Nat.zero_le _) (by omega) (by omega), if_neg (by omega)]
      rfl
    · obtain ⟨buf, hloop, hflush⟩ := digitLoop_of_fits hb hw P.digits (fun _ => 0) 0
        (-xx) (by omega) (hfits.trans (by decide : 16 ≤ 17))
      rw [hloop]
      rw [Nat.zero_add] at hflush ⊢
      -- the sign needs one more byte
      rcases Nat.lt_or_eq_of_le hfits with hlt | heq
      · rw [if_pos (by omega)]
        change (store buf _ _ >>= fun buf => Except.ok (flush buf _)) = _
        rw [store_of_lt hlt]
        change Except.ok (flush (Function.update _ _ _) _) = _
        rw [flush_update, hflush, flush, List.append_nil]
        rfl
      · rw [if_neg (by omega), heq]
        rfl
  | false =>
    have hz : ¬ (xx.toNat : ℤ) < 0 := Int.not_lt.mpr (Int.natCast_nonneg _)
    rw [printint_of_nonneg hneg, value_of_nonneg hneg, spell, if_neg hz, Int.natAbs_natCast,
      List.nil_append, List.length_map]
    rcases Nat.lt_or_ge 16 (numeral b xx.toNat).length with hlong | hfits
    · rw [digitLoop_of_long hb hw (Nat.zero_le _) (by omega) (by omega), if_neg (by omega)]
      rfl
    · obtain ⟨buf, hloop, hflush⟩ := digitLoop_of_fits hb hw P.digits (fun _ => 0) 0
        xx (by omega) (hfits.trans (by decide : 16 ≤ 17))
      rw [hloop, if_pos hfits]
      rw [flush, List.append_nil] at hflush
      exact congrArg Except.ok hflush

end Printint

/-! ## The conversions of numbers -/

namespace Length

def width : Length → ℕ
  | int => 32
  | long => 64
  | longLong => 64

def arg : (l : Length) → BitVec l.width → Arg
  | int, v => .int v
  | long, v => .long v
  | longLong, v => .long v

end Length

theorem Kind.one_lt_base (k : Kind) : 1 < k.base := by
  cases k <;> decide

theorem Kind.base_le (k : Kind) : k.base ≤ 16 := by
  cases k <;> decide

namespace Printer

variable (P : Printer)

/-- The argument as `printint` gets it. -/
def pass : (l : Length) → BitVec l.width → BitVec P.width
  | .int, v => P.ofInt v
  | .long, v => P.ofLong v
  | .longLong, v => P.ofLong v

/-- The number that is printed for an argument. -/
def number (l : Length) (k : Kind) (v : BitVec l.width) : ℤ := value k.sign (P.pass l v)

theorem emit_num (hw : 16 < 2 ^ P.width) (l : Length) (k : Kind) (v : BitVec l.width)
    (ap : List Arg) : P.emit (.num l k) (l.arg v :: ap) =
      if (spell P.digits k.base (P.number l k v)).length ≤ 16 then
        .ok (spell P.digits k.base (P.number l k v), ap)
      else .error (.overrun 16) := by
  have hemit : P.emit (.num l k) (l.arg v :: ap) =
      P.printint (P.pass l v) k.base k.sign >>= fun out => .ok (out, ap) := by
    cases l <;> rfl
  rw [hemit, printint_eq P _ _ k.one_lt_base (k.base_le.trans_lt hw)]
  change (if (spell P.digits k.base (P.number l k v)).length ≤ 16 then _ else _) >>= _ = _
  split <;> rfl

end Printer

end Xv6.Printf
