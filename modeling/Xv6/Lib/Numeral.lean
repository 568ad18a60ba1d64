import Mathlib.Data.Nat.Digits.Lemmas

/-!
# Shortest numerals

The numeral of a number in a base, most significant digit first and without leading zeros.
-/

namespace Xv6.Lib

variable {b n k : ℕ} {ds es : List ℕ}

/-- The numeral of `n` in base `b`; zero has one digit. -/
def numeral (b n : ℕ) : List ℕ :=
  if n = 0 then [0] else (Nat.digits b n).reverse

/-- `ds` is a list of base `b` digits for `n` that no other one undercuts. -/
structure Shortest (b n : ℕ) (ds : List ℕ) : Prop where
  ne_nil : ds ≠ []
  lt : ∀ d ∈ ds, d < b
  value : Nat.ofDigits b ds.reverse = n
  least : ∀ es ≠ [], (∀ e ∈ es, e < b) → Nat.ofDigits b es.reverse = n → ds.length ≤ es.length

theorem numeral_of_lt (h : n < b) : numeral b n = [n] := by
  by_cases hn : n = 0
  · rw [numeral, if_pos hn, hn]
  · rw [numeral, if_neg hn, Nat.digits_of_lt b n hn h, List.reverse_singleton]

/-- The last digit is the remainder, and the quotient has the others. -/
theorem numeral_of_le (hb : 1 < b) (h : b ≤ n) : numeral b n = numeral b (n / b) ++ [n % b] := by
  have hn : n ≠ 0 := by omega
  have hq : n / b ≠ 0 := (Nat.div_pos h (by omega)).ne'
  rw [numeral, numeral, if_neg hn, if_neg hq, Nat.digits_def' hb (Nat.pos_of_ne_zero hn),
    List.reverse_cons]

theorem lt_of_mem_numeral (hb : 1 < b) {d : ℕ} (h : d ∈ numeral b n) : d < b := by
  by_cases hn : n = 0
  · rw [numeral, if_pos hn, List.mem_singleton] at h
    omega
  · rw [numeral, if_neg hn, List.mem_reverse] at h
    exact Nat.digits_lt_base hb h

theorem length_numeral_le_iff (hb : 1 < b) (hk : k ≠ 0) :
    (numeral b n).length ≤ k ↔ n < b ^ k := by
  by_cases hn : n = 0
  · have hpos : 0 < b ^ k := Nat.pow_pos (by omega)
    rw [numeral, if_pos hn, List.length_singleton, hn]
    omega
  · rw [numeral, if_neg hn, List.length_reverse]
    exact Nat.digits_length_le_iff hb n

theorem shortest_numeral (hb : 1 < b) : Shortest b n (numeral b n) where
  ne_nil := by
    rw [numeral]
    split
    · exact List.cons_ne_nil _ _
    · rename_i hn
      rw [Ne, List.reverse_eq_nil_iff]
      exact Nat.digits_ne_nil_iff_ne_zero.mpr hn
  lt d hd := lt_of_mem_numeral hb hd
  value := by
    rw [numeral]
    split
    · rename_i hn
      rw [hn]
      rfl
    · rw [List.reverse_reverse, Nat.ofDigits_digits]
  least es hne hlt hval := by
    rw [length_numeral_le_iff hb (List.length_pos_iff.mpr hne).ne', ← hval, ← List.length_reverse]
    exact Nat.ofDigits_lt_base_pow_length hb fun e he => hlt e (List.mem_reverse.mp he)

theorem Shortest.eq_numeral (hb : 1 < b) (h : Shortest b n ds) : ds = numeral b n := by
  have hnum := shortest_numeral (n := n) hb
  have hlen : ds.length = (numeral b n).length :=
    le_antisymm (h.least _ hnum.ne_nil hnum.lt hnum.value) (hnum.least _ h.ne_nil h.lt h.value)
  apply List.reverse_injective
  apply Nat.ofDigits_inj_of_len_eq hb
  · rw [List.length_reverse, List.length_reverse, hlen]
  · exact fun d hd => h.lt d (List.mem_reverse.mp hd)
  · exact fun d hd => hnum.lt d (List.mem_reverse.mp hd)
  · rw [h.value, hnum.value]

end Xv6.Lib
