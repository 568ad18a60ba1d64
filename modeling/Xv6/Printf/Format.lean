import Xv6.Printf.Basic

/-!
# The pieces of a format

Both loops go through the same pieces of the format: characters to copy, and conversions.
What either of them prints is what its routines print for these pieces, one after the other.
-/

namespace Xv6.Printf

variable {fmt : Text} {ap : List Arg} {i skip fuel : ℕ} {p : Piece} {c : UInt8}

/-- The pieces of a format from its `k`-th character on. -/
def parse : ℕ → Text → List Piece
  | _, [] => []
  | k + 1, _ :: rest => parse k rest
  | 0, c :: rest =>
    if c = 0 then []
    else if c ≠ '%'.toUInt8 then .lit c :: parse 0 rest
    else
      let (c0, c1, c2) := lookahead rest 0
      match conversion c0 c1 c2 with
      | some (p, skip) => p :: parse (skip + 1) rest
      | none => if c0 = 0 then [] else .lit '%'.toUInt8 :: .lit c0 :: parse 1 rest

/-- The texts of the pieces, one after the other. -/
def Printer.render (P : Printer) : List Piece → List Arg → Except Fault Text
  | [], _ => .ok []
  | p :: ps, ap => do
    let (s, ap) ← P.emit p ap
    let out ← P.render ps ap
    return s ++ out

/-- The conversion after the `%` before index `i`. -/
def conversionAt (fmt : Text) (i : ℕ) : Option (Piece × ℕ) :=
  conversion (lookahead fmt i).1 (lookahead fmt i).2.1 (lookahead fmt i).2.2

theorem getD_drop (fmt : Text) (k i : ℕ) : (fmt.drop k).getD i 0 = fmt.getD (k + i) 0 := by
  rw [List.getD_eq_getElem?_getD, List.getElem?_drop, ← List.getD_eq_getElem?_getD]

theorem conversionAt_drop (fmt : Text) (k i : ℕ) :
    conversionAt (fmt.drop k) i = conversionAt fmt (k + i) := by
  simp only [conversionAt, lookahead, getD_drop, Nat.add_assoc]

theorem conversionAt_end (h : fmt.getD i 0 = 0) : conversionAt fmt i = none := by
  rw [conversionAt, lookahead, h]
  rfl

theorem lt_length_of_ne (h : fmt.getD i 0 ≠ 0) : i < fmt.length := by
  by_contra hi
  exact h (List.getD_eq_default _ _ (Nat.not_lt.mp hi))

theorem drop_eq_cons (h : fmt.getD i 0 ≠ 0) :
    fmt.drop i = fmt.getD i 0 :: fmt.drop (i + 1) := by
  have hi := lt_length_of_ne h
  rw [List.drop_eq_getElem_cons hi, List.getD_eq_getElem _ _ hi]

/-! ## Reading on -/

theorem parse_eq_drop (k : ℕ) (fmt : Text) : parse k fmt = parse 0 (fmt.drop k) := by
  induction k generalizing fmt with
  | zero => rfl
  | succ k ih =>
    cases fmt with
    | nil => rfl
    | cons c rest => exact ih rest

theorem parse_drop (k j : ℕ) (fmt : Text) : parse k (fmt.drop j) = parse (j + k) fmt := by
  rw [parse_eq_drop, List.drop_drop, ← parse_eq_drop]

theorem parse_end (h : fmt.getD i 0 = 0) : parse i fmt = [] := by
  rw [parse_eq_drop]
  rw [← Nat.add_zero i, ← getD_drop] at h
  cases hd : fmt.drop i with
  | nil => rfl
  | cons c rest =>
    rw [hd] at h
    exact if_pos h

theorem parse_lit (h : fmt.getD i 0 ≠ 0) (hc : fmt.getD i 0 ≠ '%'.toUInt8) :
    parse i fmt = .lit (fmt.getD i 0) :: parse (i + 1) fmt := by
  rw [parse_eq_drop, drop_eq_cons h, parse, if_neg h, if_pos hc, ← parse_eq_drop]

theorem parse_percent_cons (rest : Text) : parse 0 ('%'.toUInt8 :: rest) =
    match conversionAt rest 0 with
    | some (p, skip) => p :: parse (skip + 1) rest
    | none =>
      if rest.getD 0 0 = 0 then []
      else .lit '%'.toUInt8 :: .lit (rest.getD 0 0) :: parse 1 rest :=
  rfl

section Percent

variable (hc : fmt.getD i 0 = '%'.toUInt8)

include hc

theorem parse_percent : parse i fmt = parse 0 ('%'.toUInt8 :: fmt.drop (i + 1)) := by
  have hne : fmt.getD i 0 ≠ 0 := by
    rw [hc]
    decide
  rw [parse_eq_drop, drop_eq_cons hne, hc]

theorem parse_conversion (h : conversionAt fmt (i + 1) = some (p, skip)) :
    parse i fmt = p :: parse (i + 1 + (skip + 1)) fmt := by
  rw [parse_percent hc, parse_percent_cons, conversionAt_drop, Nat.add_zero, h, ← parse_drop]

theorem parse_percent_end (h : fmt.getD (i + 1) 0 = 0) : parse i fmt = [] := by
  rw [parse_percent hc, parse_percent_cons, conversionAt_drop, getD_drop, Nat.add_zero,
    conversionAt_end h]
  exact if_pos h

theorem parse_unknown (h : conversionAt fmt (i + 1) = none) (hne : fmt.getD (i + 1) 0 ≠ 0) :
    parse i fmt = .lit '%'.toUInt8 :: .lit (fmt.getD (i + 1) 0) :: parse (i + 1 + 1) fmt := by
  rw [parse_percent hc, parse_percent_cons, conversionAt_drop, getD_drop, Nat.add_zero, h,
    ← parse_drop]
  exact if_neg hne

end Percent

/-! ## The two loops -/

theorem emit_bind_render {P : Printer} {ps : List Piece} {loop : List Arg → Except Fault Text}
    (h : ∀ ap, loop ap = P.render ps ap) (p : Piece) (ap : List Arg) : (do
      let (s, ap) ← P.emit p ap
      let out ← loop ap
      return s ++ out) = P.render (p :: ps) ap := by
  rw [funext h]
  rfl

theorem render_lit_lit (P : Printer) (c d : UInt8) (ps : List Piece) (ap : List Arg) :
    P.render (.lit c :: .lit d :: ps) ap = do
      let out ← P.render ps ap
      return c :: d :: out := by
  change (P.render ps ap >>= fun out => Except.ok (d :: out)) >>=
    (fun out => Except.ok (c :: out)) = _
  cases P.render ps ap with
  | error e => rfl
  | ok out => rfl

theorem Kernel.printfLoop_percent (hc : fmt.getD i 0 = '%'.toUInt8) :
    Kernel.printfLoop fmt (fuel + 1) i ap =
      match conversionAt fmt (i + 1) with
      | some (p, skip) => do
        let (s, ap) ← kernel.emit p ap
        let out ← Kernel.printfLoop fmt fuel (i + 1 + skip + 1) ap
        return s ++ out
      | none =>
        if fmt.getD (i + 1) 0 = 0 then .ok []
        else do
          let out ← Kernel.printfLoop fmt fuel (i + 1 + 1) ap
          return '%'.toUInt8 :: fmt.getD (i + 1) 0 :: out := by
  rw [Kernel.printfLoop, hc]
  rfl

theorem Kernel.printfLoop_eq (hfuel : fmt.length < i + fuel) (hpos : 0 < fuel) :
    Kernel.printfLoop fmt fuel i ap = kernel.render (parse i fmt) ap := by
  induction fuel generalizing i ap with
  | zero => exact absurd hpos (Nat.lt_irrefl 0)
  | succ fuel ih =>
    by_cases hz : fmt.getD i 0 = 0
    · rw [Kernel.printfLoop, parse_end hz]
      exact if_pos hz
    have hi := lt_length_of_ne hz
    by_cases hc : fmt.getD i 0 = '%'.toUInt8
    · rw [Kernel.printfLoop_percent hc]
      cases hconv : conversionAt fmt (i + 1) with
      | some found =>
        rw [parse_conversion hc hconv]
        exact emit_bind_render (fun ap => ih (by omega) (by omega)) _ _
      | none =>
        by_cases hend : fmt.getD (i + 1) 0 = 0
        · rw [parse_percent_end hc hend]
          exact if_pos hend
        · rw [parse_unknown hc hconv hend, render_lit_lit, ← ih (by omega) (by omega)]
          exact if_neg hend
    · rw [Kernel.printfLoop, if_neg hz, if_pos hc, parse_lit hz hc, ih (by omega) (by omega)]
      rfl

theorem Kernel.printf_eq (fmt : Text) (ap : List Arg) :
    Kernel.printf fmt ap = kernel.render (parse 0 fmt) ap :=
  Kernel.printfLoop_eq (by omega) (by omega)

theorem User.vprintfLoop_percent (hz : fmt.getD i 0 ≠ 0) :
    User.vprintfLoop fmt (fuel + 1) i .percent ap =
      match conversionAt fmt i with
      | some (p, skip) => do
        let (s, ap) ← user.emit p ap
        let out ← User.vprintfLoop fmt fuel (i + skip + 1) .zero ap
        return s ++ out
      | none => do
        let out ← User.vprintfLoop fmt fuel (i + 1) .zero ap
        return '%'.toUInt8 :: fmt.getD i 0 :: out := by
  rw [User.vprintfLoop, if_neg hz]
  rfl

/-- In state '%' the pieces are those from the `%` on. -/
theorem User.vprintfLoop_eq (hfuel : fmt.length < i + fuel) (hpos : 0 < fuel) :
    User.vprintfLoop fmt fuel i .zero ap = user.render (parse i fmt) ap ∧
      ∀ j, i = j + 1 → fmt.getD j 0 = '%'.toUInt8 →
        User.vprintfLoop fmt fuel i .percent ap = user.render (parse j fmt) ap := by
  induction fuel generalizing i ap with
  | zero => exact absurd hpos (Nat.lt_irrefl 0)
  | succ fuel ih =>
    by_cases hz : fmt.getD i 0 = 0
    · constructor
      · rw [User.vprintfLoop, parse_end hz]
        exact if_pos hz
      · rintro j rfl hc
        rw [User.vprintfLoop, parse_percent_end hc hz]
        exact if_pos hz
    have hi := lt_length_of_ne hz
    constructor
    · rw [User.vprintfLoop, if_neg hz]
      by_cases hc : fmt.getD i 0 = '%'.toUInt8
      · exact (if_pos hc).trans ((ih (by omega) (by omega)).2 i rfl hc)
      · rw [parse_lit hz hc]
        change (if _ then _ else do
          let out ← User.vprintfLoop fmt fuel (i + 1) .zero ap
          return fmt.getD i 0 :: out) = _
        rw [if_neg hc, (ih (by omega) (by omega)).1]
        rfl
    · rintro j rfl hc
      rw [User.vprintfLoop_percent hz]
      cases hconv : conversionAt fmt (j + 1) with
      | some found =>
        rw [parse_conversion hc hconv]
        exact emit_bind_render (fun ap => (ih (by omega) (by omega)).1) _ _
      | none =>
        rw [parse_unknown hc hconv hz, render_lit_lit, ← (ih (by omega) (by omega)).1]

theorem User.vprintf_eq (fmt : Text) (ap : List Arg) :
    User.vprintf fmt ap = user.render (parse 0 fmt) ap :=
  (User.vprintfLoop_eq (by omega) (by omega)).1

end Xv6.Printf
