import Mathlib

/-!
# The matcher of grep

`match`, `matchhere` and `matchstar` on strings, which are lists of bytes without the
final NUL, and the language that a pattern stands for.
-/

namespace Xv6.Grep

variable {c : UInt8} {re text w : List UInt8}

def CARET : UInt8 := 94

def DOLLAR : UInt8 := 36

def STAR : UInt8 := 42

def DOT : UInt8 := 46

/-! ## The matcher -/

/-- The loop of `matchstar`; `here` is `matchhere` for the pattern behind the `*`. -/
def starLoop (c : UInt8) (here : List UInt8 → Bool) : List UInt8 → Bool
  | [] => here []
  | t :: text => here (t :: text) || ((t == c || c == DOT) && starLoop c here text)

/-- The end of `matchhere`: one byte of the text for one byte of the pattern. -/
def oneByte (c : UInt8) (here : List UInt8 → Bool) : List UInt8 → Bool
  | [] => false
  | t :: text => (c == DOT || c == t) && here text

/-- Search for `re` at the beginning of `text`. -/
def matchhere : List UInt8 → List UInt8 → Bool
  | [], _ => true
  | [c], text => if c = DOLLAR then text.isEmpty else oneByte c (matchhere []) text
  | c :: d :: re, text =>
    if d = STAR then starLoop c (matchhere re) text else oneByte c (matchhere (d :: re)) text

/-- Search for `c*re` at the beginning of `text`. -/
def matchstar (c : UInt8) (re text : List UInt8) : Bool := starLoop c (matchhere re) text

theorem matchhere_star : matchhere (c :: STAR :: re) text = matchstar c re text := if_pos rfl

def matchLoop (re : List UInt8) : List UInt8 → Bool
  | [] => matchhere re []
  | t :: text => matchhere re (t :: text) || matchLoop re text

def matchRe (re text : List UInt8) : Bool :=
  if re.head? = some CARET then matchhere re.tail text else matchLoop re text

/-! ## The language of a pattern -/

inductive Element
  /-- Zero or more of a byte, or of any bytes if it is a dot. -/
  | star (c : UInt8)
  /-- The end of the text. -/
  | eot
  | any
  | lit (c : UInt8)
  deriving DecidableEq

/-- The element that a byte stands for when no `*` is behind it and it does not end
the pattern. -/
def single (c : UInt8) : Element := if c = DOT then .any else .lit c

/-- A pattern, without the `^` it may begin with, read from left to right. -/
def elements : List UInt8 → List Element
  | [] => []
  | [c] => if c = DOLLAR then [.eot] else [single c]
  | c :: d :: re => if d = STAR then .star c :: elements re else single c :: elements (d :: re)

/-- The words of one byte that satisfies `P`. -/
def oneOf (P : UInt8 → Prop) : Language UInt8 := {w | ∃ t, P t ∧ w = [t]}

def Element.lang : Element → Language UInt8
  | .star c => KStar.kstar (oneOf fun t => c = DOT ∨ t = c)
  | .eot => 1
  | .any => oneOf fun _ => True
  | .lit c => oneOf fun t => t = c

def lang (es : List Element) : Language UInt8 := (es.map Element.lang).prod

/-- The pattern has to match up to the end of the text. -/
def AtEnd (es : List Element) : Prop := es.getLast? = some .eot

theorem mem_oneOf {P : UInt8 → Prop} : w ∈ oneOf P ↔ ∃ t, P t ∧ w = [t] := Iff.rfl

theorem mem_kstar_oneOf {P : UInt8 → Prop} : w ∈ KStar.kstar (oneOf P) ↔ ∀ t ∈ w, P t := by
  rw [Language.mem_kstar]
  constructor
  · rintro ⟨L, rfl, hL⟩ t ht
    obtain ⟨y, hy, hty⟩ := List.mem_flatten.mp ht
    obtain ⟨t', hP, rfl⟩ := mem_oneOf.mp (hL y hy)
    rwa [List.mem_singleton.mp hty]
  · intro h
    refine ⟨w.map fun t => [t], by simp [← List.flatMap_def], ?_⟩
    intro y hy
    obtain ⟨t, ht, rfl⟩ := List.mem_map.mp hy
    exact ⟨t, h t ht, rfl⟩

theorem lang_cons (e : Element) (es : List Element) : lang (e :: es) = e.lang * lang es := by
  rw [lang, List.map_cons, List.prod_cons, lang]

theorem mem_lang_single : w ∈ (single c).lang ↔ ∃ t, (c = DOT ∨ c = t) ∧ w = [t] := by
  unfold single
  split_ifs with hc
  · simp [Element.lang, mem_oneOf, hc]
  · simp [Element.lang, mem_oneOf, hc, eq_comm]

theorem single_ne_eot : single c ≠ .eot := by
  unfold single
  split_ifs <;> simp

/-! ## The matcher decides the language -/

/-- Some word of the language stands at the beginning of `text`, and the text ends with it
if the pattern says so. -/
def Begins (es : List Element) (text : List UInt8) : Prop :=
  ∃ w rest, text = w ++ rest ∧ w ∈ lang es ∧ (AtEnd es → rest = [])

theorem begins_nil (text : List UInt8) : Begins [] text :=
  ⟨[], text, rfl, rfl, fun h => by simp [AtEnd] at h⟩

theorem begins_eot : Begins [.eot] text ↔ text = [] := by
  simp [Begins, lang, Element.lang, AtEnd, Language.mem_one]

/-- A word of `e :: es` is a word of `e` and what `es` does with the rest of the text. -/
theorem begins_cons {e : Element} {es : List Element} (he : e ≠ .eot) :
    Begins (e :: es) text ↔ ∃ u rest, text = u ++ rest ∧ u ∈ e.lang ∧ Begins es rest := by
  have hend : AtEnd (e :: es) ↔ AtEnd es := by
    unfold AtEnd
    cases es with
    | nil => simpa using he
    | cons e' es => rw [List.getLast?_cons_cons]
  constructor
  · rintro ⟨w, rest, rfl, hw, hrest⟩
    rw [lang_cons] at hw
    obtain ⟨u, hu, v, hv, rfl⟩ := Language.mem_mul.mp hw
    exact ⟨u, v ++ rest, List.append_assoc u v rest, hu, v, rest, rfl, hv,
      fun h => hrest (hend.mpr h)⟩
  · rintro ⟨u, _, rfl, hu, v, rest, rfl, hv, hrest⟩
    refine ⟨u ++ v, rest, (List.append_assoc u v rest).symm, ?_, fun h => hrest (hend.mp h)⟩
    rw [lang_cons]
    exact Language.mem_mul.mpr ⟨u, hu, v, hv, rfl⟩

theorem starLoop_iff {here : List UInt8 → Bool} : starLoop c here text = true ↔
    ∃ u rest, text = u ++ rest ∧ (∀ t ∈ u, c = DOT ∨ t = c) ∧ here rest = true := by
  induction text with
  | nil => simp [starLoop]
  | cons t text ih =>
    rw [starLoop, Bool.or_eq_true, Bool.and_eq_true, ih]
    constructor
    · rintro (h | ⟨ht, u, rest, rfl, hu, h⟩)
      · exact ⟨[], t :: text, rfl, by simp, h⟩
      · refine ⟨t :: u, rest, rfl, ?_, h⟩
        rw [List.forall_mem_cons]
        exact ⟨by simpa [or_comm] using ht, hu⟩
    · rintro ⟨u, rest, htext, hu, h⟩
      cases u with
      | nil => exact .inl (by rwa [htext])
      | cons t' u =>
        obtain ⟨rfl, rfl⟩ := List.cons.inj htext
        rw [List.forall_mem_cons] at hu
        exact .inr ⟨by simpa [or_comm] using hu.1, u, rest, rfl, hu.2, h⟩

theorem oneByte_iff {here : List UInt8 → Bool} : oneByte c here text = true ↔
    ∃ u rest, text = u ++ rest ∧ u ∈ (single c).lang ∧ here rest = true := by
  simp only [mem_lang_single]
  cases text with
  | nil => simp [oneByte]
  | cons t text => simp [oneByte]

theorem matchhere_iff : matchhere re text = true ↔ Begins (elements re) text := by
  -- the cases are those in which `elements` reads the pattern
  fun_induction elements re generalizing text with
  | case1 => simpa [matchhere] using begins_nil text
  | case2 => simp [matchhere, begins_eot]
  | case3 c hc =>
    rw [matchhere, if_neg hc, oneByte_iff, begins_cons single_ne_eot]
    simp [matchhere, begins_nil]
  | case4 c re ih =>
    rw [matchhere_star, matchstar, starLoop_iff, begins_cons (by simp)]
    simp only [Element.lang, mem_kstar_oneOf, ih]
  | case5 c d re hd ih =>
    rw [matchhere, if_neg hd, oneByte_iff, begins_cons single_ne_eot]
    simp only [ih]

theorem matchLoop_iff : matchLoop re text = true ↔
    ∃ start rest, text = start ++ rest ∧ matchhere re rest = true := by
  induction text with
  | nil => simp [matchLoop]
  | cons t text ih =>
    rw [matchLoop, Bool.or_eq_true, ih]
    constructor
    · rintro (h | ⟨start, rest, rfl, h⟩)
      · exact ⟨[], t :: text, rfl, h⟩
      · exact ⟨t :: start, rest, rfl, h⟩
    · rintro ⟨start, rest, htext, h⟩
      cases start with
      | nil => exact .inl (by rwa [htext])
      | cons t' start => exact .inr ⟨start, rest, (List.cons.inj htext).2, h⟩

/-- The pattern without the `^` that ties it to the beginning of the text. -/
def body (re : List UInt8) : List UInt8 := if re.head? = some CARET then re.tail else re

/-- `match` finds a word of the language in the text: at its beginning if the pattern
begins with `^`, and at its end if the last element of the pattern is a bare `$`. -/
theorem match_decides (re text : List UInt8) : matchRe re text = true ↔
    ∃ start w rest, text = start ++ w ++ rest ∧ w ∈ lang (elements (body re)) ∧
      (re.head? = some CARET → start = []) ∧ (AtEnd (elements (body re)) → rest = []) := by
  unfold matchRe body
  split_ifs with hcaret
  · rw [matchhere_iff]
    constructor
    · rintro ⟨w, rest, rfl, hw, hrest⟩
      exact ⟨[], w, rest, rfl, hw, fun _ => rfl, hrest⟩
    · rintro ⟨start, w, rest, rfl, hw, hstart, hrest⟩
      obtain rfl := hstart hcaret
      exact ⟨w, rest, rfl, hw, hrest⟩
  · rw [matchLoop_iff]
    constructor
    · rintro ⟨start, _, rfl, h⟩
      obtain ⟨w, rest, rfl, hw, hrest⟩ := matchhere_iff.mp h
      exact ⟨start, w, rest, (List.append_assoc start w rest).symm, hw,
        fun h => absurd h hcaret, hrest⟩
    · rintro ⟨start, w, rest, rfl, hw, -, hrest⟩
      exact ⟨start, w ++ rest, List.append_assoc start w rest,
        matchhere_iff.mpr ⟨w, rest, rfl, hw, hrest⟩⟩

/-- `^$*.$` on `$$x` and on `x$`: the first `$` is starred, the last one ends the text. -/
example : matchRe [94, 36, 42, 46, 36] [36, 36, 120] = true ∧
    matchRe [94, 36, 42, 46, 36] [120, 36] = false := by decide

end Xv6.Grep
