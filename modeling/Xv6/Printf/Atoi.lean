import Xv6.Printf.Agree

/-!
# Reading numbers back

`atoi` of `ulib.c` against the numbers that `printf` of `printf.c` writes.
-/

namespace Xv6.Printf

open Lib

namespace User

def isDigit (c : UInt8) : Bool := '0'.toUInt8 ≤ c ∧ c ≤ '9'.toUInt8

def atoiLoop (n : BitVec 32) : Text → BitVec 32
  | [] => n
  | c :: s =>
    if isDigit c then
      atoiLoop (n * 10 + c.toBitVec.setWidth 32 - '0'.toUInt8.toBitVec.setWidth 32) s
    else n

def atoi (s : Text) : BitVec 32 := atoiLoop 0 s

theorem atoiLoop_glyph {d m : ℕ} (hd : d < 10) (s : Text) :
    atoiLoop (BitVec.ofNat 32 m) (glyph user.digits d :: s) =
      atoiLoop (BitVec.ofNat 32 (10 * m + d)) s := by
  have hdigit : isDigit (glyph user.digits d) = true := by
    interval_cases d <;> decide
  have hvalue : (glyph user.digits d).toBitVec.setWidth 32 =
      '0'.toUInt8.toBitVec.setWidth 32 + BitVec.ofNat 32 d := by
    interval_cases d <;> decide
  have hnext : BitVec.ofNat 32 m * 10 + (glyph user.digits d).toBitVec.setWidth 32 -
      '0'.toUInt8.toBitVec.setWidth 32 = BitVec.ofNat 32 (10 * m + d) := by
    have hten : BitVec.ofNat 32 10 = 10 := rfl
    rw [hvalue, BitVec.ofNat_add, BitVec.ofNat_mul, hten]
    ring
  rw [atoiLoop, if_pos hdigit, hnext]

theorem atoiLoop_digits {ds : List ℕ} {rest : Text} (hds : ∀ d ∈ ds, d < 10)
    (hrest : ∀ c ∈ rest.head?, isDigit c = false) (m : ℕ) :
    atoiLoop (BitVec.ofNat 32 m) (ds.map (glyph user.digits) ++ rest) =
      BitVec.ofNat 32 (ds.foldl (fun a d => 10 * a + d) m) := by
  induction ds generalizing m with
  | nil =>
    cases rest with
    | nil => rfl
    | cons c s =>
      have hc : isDigit c = false := hrest c rfl
      simp [atoiLoop, hc]
  | cons d ds ih =>
    rw [List.map_cons, List.cons_append, atoiLoop_glyph (hds d List.mem_cons_self)]
    exact ih (fun e he => hds e (List.mem_cons_of_mem d he)) _

theorem foldl_numeral (n : ℕ) : (numeral 10 n).foldl (fun a d => 10 * a + d) 0 = n := by
  have hvalue := (shortest_numeral (n := n) (b := 10) (by omega)).value
  rw [Nat.ofDigits_eq_foldr, List.foldr_reverse] at hvalue
  simpa [add_comm] using hvalue

/-- What `printf` writes for an `int`, followed by anything but a
digit, is read back as that number; a minus sign stops `atoi` at once. -/
theorem atoi_vprintf (v : BitVec 32) {rest : Text}
    (hrest : ∀ c ∈ rest.head?, isDigit c = false) :
    ∃ out, vprintf (format .int .d) [.int v] = .ok out ∧
      atoi (out ++ rest) = if v.toInt < 0 then 0 else v := by
  have hprint : vprintf (format .int .d) [.int v] = .ok (spell user.digits 10 v.toInt) := by
    rw [vprintf_eq, parse_format]
    exact (render_num user (by decide) .int .d v).trans (if_pos (length_spell_user .int .d v _))
  refine ⟨_, hprint, ?_⟩
  unfold spell atoi
  by_cases hneg : v.toInt < 0
  · rw [if_pos hneg, if_pos hneg]
    rfl
  · have hnat : v.toInt.natAbs = v.toNat := by
      rw [BitVec.toInt_eq_toNat_of_msb (by simpa [BitVec.msb_eq_toInt] using hneg)]
      rfl
    rw [if_neg hneg, if_neg hneg, hnat, List.nil_append]
    refine (atoiLoop_digits (fun d hd => lt_of_mem_numeral (by omega) hd) hrest 0).trans ?_
    rw [foldl_numeral, BitVec.ofNat_toNat, BitVec.setWidth_eq]

/-- The first of two numbers in a line. -/
theorem atoi_vprintf_line : ∃ out, vprintf (format .int .d) [.int 2024] = .ok out ∧
    atoi (out ++ text " 7") = 2024 := by
  have hspace : ∀ c ∈ (text " 7").head?, isDigit c = false := by decide +kernel
  obtain ⟨out, hout, hatoi⟩ := atoi_vprintf 2024 hspace
  exact ⟨out, hout, hatoi.trans (by decide)⟩

end User

end Xv6.Printf
