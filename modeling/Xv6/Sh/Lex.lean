import Mathlib

/-!
# The tokens of a command line

`gettoken` and `peek` move a pointer through the line.  A pointer into the line
is represented by what is left of the line from there on, so that it is at the
end when nothing is left.  What they read off is compared with a definition of
the tokens of a text that does not mention them.
-/

namespace Xv6.Sh

abbrev Text := List UInt8

def whitespace : Text := [32, 9, 13, 10, 11]

def symbols : Text := ['<', '|', '>', '&', ';', '(', ')'].map Char.toUInt8

def IsWord (ch : UInt8) : Prop := ch ∉ whitespace ∧ ch ∉ symbols

instance (ch : UInt8) : Decidable (IsWord ch) := inferInstanceAs (Decidable (_ ∧ _))

def skip (s : Text) : Text := s.dropWhile fun ch => ch ∈ whitespace

/-- What a call of `gettoken` returns: the kind of token, where it starts and
ends, and the new position. -/
structure Token where
  ret : UInt8
  q : Text
  eq : Text
  s : Text

/-- The `switch` of `gettoken`, with `*q` the first character of the token. -/
def scan (q : Text) : UInt8 × Text :=
  match q with
  | [] => (0, [])
  | ch :: s =>
    if ch ∈ ['|', '(', ')', ';', '&', '<'].map Char.toUInt8 then (ch, s)
    else if ch = '>'.toUInt8 then
      if s.head? = some '>'.toUInt8 then ('+'.toUInt8, s.tail) else (ch, s)
    else ('a'.toUInt8, (ch :: s).dropWhile fun ch => IsWord ch)

def gettoken (s : Text) : Token :=
  let q := skip s
  let (ret, eq) := scan q
  ⟨ret, q, eq, skip eq⟩

def peek (s : Text) (toks : Text) : Bool × Text :=
  let s := skip s
  (s.head?.any fun ch => ch ∈ toks, s)

/-! ## Tokens -/

inductive Sym
  | bar | lpar | rpar | semi | amp | lt | gt | gtgt
  deriving DecidableEq

namespace Sym

def lead : Sym → UInt8
  | bar => '|'.toUInt8
  | lpar => '('.toUInt8
  | rpar => ')'.toUInt8
  | semi => ';'.toUInt8
  | amp => '&'.toUInt8
  | lt => '<'.toUInt8
  | gt | gtgt => '>'.toUInt8

def text : Sym → Text
  | gtgt => ['>'.toUInt8, '>'.toUInt8]
  | y => [y.lead]

/-- The number by which `gettoken` reports the symbol. -/
def code : Sym → UInt8
  | gtgt => '+'.toUInt8
  | y => y.lead

theorem lead_mem (y : Sym) : y.lead ∈ symbols := by
  cases y <;> decide

theorem text_eq_cons (y : Sym) : ∃ more, y.text = y.lead :: more := by
  cases y <;> exact ⟨_, rfl⟩

/-- Only `>` is the first character of two symbols. -/
theorem eq_of_lead {y z : Sym} (h : z.lead = y.lead) (hgt : y ≠ gt) (hgtgt : y ≠ gtgt) :
    z = y := by
  revert h hgt hgtgt
  cases y <;> cases z <;> decide

theorem code_ne (y : Sym) : y.code ≠ 'a'.toUInt8 ∧ y.code ≠ 0 := by
  cases y <;> decide

theorem text_of_ne {y : Sym} (h : y ≠ gtgt) : y.text = [y.lead] := by
  cases y with
  | gtgt => exact absurd rfl h
  | _ => rfl

theorem exists_lead {ch : UInt8} (h : ch ∈ symbols) : ∃ y : Sym, y.lead = ch ∧ y ≠ gtgt := by
  have hall : ∀ ch ∈ symbols, ch ∈ [lt, bar, gt, amp, semi, lpar, rpar].map lead := by
    decide +kernel
  obtain ⟨y, hy, rfl⟩ := List.mem_map.mp (hall ch h)
  refine ⟨y, rfl, ?_⟩
  rintro rfl
  revert hy
  decide

end Sym

inductive Tok
  | sym (y : Sym)
  | word (w : Text)

/-- `Lexes s ts`: the text `s` consists of the tokens `ts`.  A word is a maximal
run of characters that are neither blank nor symbols. -/
inductive Lexes : Text → List Tok → Prop
  | nil : Lexes [] []
  | space {ch : UInt8} {s : Text} {ts : List Tok} :
      ch ∈ whitespace → Lexes s ts → Lexes (ch :: s) ts
  | sym {y : Sym} {s : Text} {ts : List Tok} :
      (y = .gt → s.head? ≠ some '>'.toUInt8) → Lexes s ts → Lexes (y.text ++ s) (.sym y :: ts)
  | word {w s : Text} {ts : List Tok} :
      w ≠ [] → (∀ ch ∈ w, IsWord ch) → (∀ ch ∈ s.head?, ¬ IsWord ch) → Lexes s ts →
        Lexes (w ++ s) (.word w :: ts)

/-! ## What the two functions read -/

theorem not_mem_whitespace {ch : UInt8} (h : ch ∈ symbols) : ch ∉ whitespace := by
  have hall : ∀ ch ∈ symbols, ch ∉ whitespace := by decide +kernel
  exact hall ch h

theorem skip_of_mem {ch : UInt8} {s : Text} (h : ch ∈ whitespace) : skip (ch :: s) = skip s :=
  List.dropWhile_cons_of_pos (by simpa using h)

theorem skip_of_not_mem {ch : UInt8} {s : Text} (h : ch ∉ whitespace) : skip (ch :: s) = ch :: s :=
  List.dropWhile_cons_of_neg (by simpa using h)

theorem skip_suffix (s : Text) : skip s <:+ s := List.dropWhile_suffix _

/-- The text from the first character of a token on. -/
inductive Starts : Text → List Tok → Prop
  | nil : Starts [] []
  | sym {y : Sym} {s : Text} {ts : List Tok} :
      (y = .gt → s.head? ≠ some '>'.toUInt8) → Lexes s ts → Starts (y.text ++ s) (.sym y :: ts)
  | word {ch : UInt8} {w s : Text} {ts : List Tok} :
      (∀ x ∈ ch :: w, IsWord x) → (∀ x ∈ s.head?, ¬ IsWord x) → Lexes s ts →
        Starts (ch :: (w ++ s)) (.word (ch :: w) :: ts)

theorem Lexes.starts {s : Text} {ts : List Tok} (h : Lexes s ts) : Starts (skip s) ts := by
  induction h with
  | nil => exact .nil
  | space hch _ ih =>
    rw [skip_of_mem hch]
    exact ih
  | @sym y s ts hgt hs _ =>
    have hskip : skip (y.text ++ s) = y.text ++ s := by
      obtain ⟨more, hmore⟩ := y.text_eq_cons
      rw [hmore]
      exact skip_of_not_mem (not_mem_whitespace y.lead_mem)
    rw [hskip]
    exact .sym hgt hs
  | @word w s ts hne hw hstop hs _ =>
    cases w with
    | nil => exact absurd rfl hne
    | cons ch w =>
      have hskip : skip (ch :: w ++ s) = ch :: (w ++ s) :=
        skip_of_not_mem (hw ch List.mem_cons_self).1
      rw [hskip]
      exact .word hw hstop hs

theorem Starts.lexes {s : Text} {ts : List Tok} (h : Starts s ts) : Lexes s ts := by
  cases h with
  | nil => exact .nil
  | sym hgt hs => exact .sym hgt hs
  | word hw hstop hs => exact .word (List.cons_ne_nil _ _) hw hstop hs

theorem Lexes.skip {s : Text} {ts : List Tok} (h : Lexes s ts) : Lexes (skip s) ts := h.starts.lexes

theorem lexes_total (s : Text) : ∃ ts, Lexes s ts := by
  induction hn : s.length using Nat.strong_induction_on generalizing s with
  | _ n ih =>
    cases s with
    | nil => exact ⟨[], .nil⟩
    | cons ch s =>
      have hlen : s.length < n := by
        rw [← hn]
        exact Nat.lt_succ_self _
      by_cases hsp : ch ∈ whitespace
      · obtain ⟨ts, hts⟩ := ih _ hlen s rfl
        exact ⟨ts, .space hsp hts⟩
      by_cases hsy : ch ∈ symbols
      · obtain ⟨y, rfl, hne⟩ := Sym.exists_lead hsy
        by_cases hgtgt : y = .gt ∧ s.head? = some '>'.toUInt8
        · obtain ⟨rfl, hhead⟩ := hgtgt
          obtain ⟨s, rfl⟩ : ∃ s', s = '>'.toUInt8 :: s' := ⟨_, List.eq_cons_of_mem_head? hhead⟩
          obtain ⟨ts, hts⟩ := ih _ (Nat.lt_of_succ_lt hlen) s rfl
          exact ⟨_, .sym (y := .gtgt) nofun hts⟩
        · obtain ⟨ts, hts⟩ := ih _ hlen s rfl
          have htext : y.lead :: s = y.text ++ s := by rw [Sym.text_of_ne hne]; rfl
          rw [htext]
          exact ⟨_, .sym (fun hy hhead => hgtgt ⟨hy, hhead⟩) hts⟩
      · -- the longest run of word characters
        set p : UInt8 → Bool := fun ch => IsWord ch with hp
        have hch : p ch = true := decide_eq_true ⟨hsp, hsy⟩
        have hle : (s.dropWhile p).length ≤ s.length := (List.dropWhile_suffix p).length_le
        obtain ⟨ts, hts⟩ := ih _ (by omega) (s.dropWhile p) rfl
        refine ⟨.word (ch :: s.takeWhile p) :: ts, ?_⟩
        have hsplit : ch :: s = ch :: s.takeWhile p ++ s.dropWhile p := by
          rw [List.cons_append, List.takeWhile_append_dropWhile]
        rw [hsplit]
        refine .word (List.cons_ne_nil _ _) ?_ ?_ hts
        · intro x hx
          rcases List.mem_cons.mp hx with rfl | hx
          · exact ⟨hsp, hsy⟩
          · have hpx : p x = true := List.mem_takeWhile_imp hx
            exact of_decide_eq_true hpx
        · intro x hx hword
          have hstop := List.head?_dropWhile_not p s
          rw [Option.mem_def.mp hx] at hstop
          exact of_decide_eq_false hstop hword

/-- The symbols that `peek` looks for. -/
def Tok.leads (toks : Text) : Tok → Bool
  | .sym y => y.lead ∈ toks
  | .word _ => false

theorem peek_eq {s toks : Text} {ts : List Tok} (h : Lexes s ts) (htoks : toks ⊆ symbols) :
    peek s toks = (ts.head?.any (Tok.leads toks), skip s) := by
  have hs := h.starts
  change ((skip s).head?.any _, skip s) = _
  generalize skip s = q at hs
  congr 1
  cases hs with
  | nil => rfl
  | @sym y rest ts hgt hs =>
    obtain ⟨more, hmore⟩ := y.text_eq_cons
    rw [hmore]
    rfl
  | @word ch w rest ts hw hstop hs =>
    have hch : ch ∉ toks := fun hmem => (hw ch List.mem_cons_self).2 (htoks hmem)
    simp [Tok.leads, hch]

/-- `Spells line q eq w`: the word `w` of the line lies between two pointers. -/
structure Spells (line q eq w : Text) : Prop where
  suffix : q <:+ line
  text : q = w ++ eq
  isWord : ∀ ch ∈ w, IsWord ch
  stop : ∀ ch ∈ eq.head?, ¬ IsWord ch

/-- What `gettoken` returns for each first token. -/
inductive Gets (s : Text) : List Tok → Token → Prop
  | nil : Gets s [] ⟨0, [], [], []⟩
  | sym {y : Sym} {q eq s' : Text} {ts : List Tok} :
      Lexes s' ts → s' <:+ s → s'.length < s.length → Gets s (.sym y :: ts) ⟨y.code, q, eq, s'⟩
  | word {w q eq s' : Text} {ts : List Tok} :
      Spells s q eq w → Lexes s' ts → s' <:+ s → s'.length < s.length →
        Gets s (.word w :: ts) ⟨'a'.toUInt8, q, eq, s'⟩

theorem scan_sym {y : Sym} {s : Text} (hgt : y = .gt → s.head? ≠ some '>'.toUInt8) :
    scan (y.text ++ s) = (y.code, s) := by
  cases y with
  | gt =>
    have hne := hgt rfl
    simp only [Sym.text, List.cons_append, List.nil_append, scan, if_neg hne]
    rfl
  | _ => rfl

theorem scan_word {ch : UInt8} {w s : Text} (hw : ∀ x ∈ ch :: w, IsWord x)
    (hstop : ∀ x ∈ s.head?, ¬ IsWord x) : scan (ch :: (w ++ s)) = ('a'.toUInt8, s) := by
  have hch := (hw ch List.mem_cons_self).2
  have hsub : ['|', '(', ')', ';', '&', '<'].map Char.toUInt8 ⊆ symbols := by decide
  have hgt : '>'.toUInt8 ∈ symbols := by decide
  have hne : ch ≠ '>'.toUInt8 := fun heq => hch (heq ▸ hgt)
  rw [scan, if_neg fun hmem => hch (hsub hmem), if_neg hne]
  rw [← List.cons_append, List.dropWhile_append_of_pos (by simpa using hw)]
  cases s with
  | nil => rfl
  | cons x s => rw [List.dropWhile_cons_of_neg (by simpa using hstop x rfl)]

theorem gettoken_gets {s : Text} {ts : List Tok} (h : Lexes s ts) : Gets s ts (gettoken s) := by
  have hq := skip_suffix s
  have hs := h.starts
  unfold gettoken
  generalize skip s = q at hq hs
  dsimp only
  cases hs with
  | nil => exact .nil
  | @sym y rest ts hgt hrest =>
    rw [scan_sym hgt]
    have hsub : skip rest <:+ rest := skip_suffix rest
    have hlt : rest.length < (y.text ++ rest).length := by
      obtain ⟨more, hmore⟩ := y.text_eq_cons
      rw [hmore, List.length_append, List.length_cons]
      omega
    refine .sym hrest.skip (hsub.trans ((List.suffix_append _ _).trans hq)) ?_
    exact (hsub.length_le.trans_lt hlt).trans_le hq.length_le
  | @word ch w rest ts hw hstop hrest =>
    rw [scan_word hw hstop]
    have hsub : skip rest <:+ rest := skip_suffix rest
    have hrest' : rest <:+ ch :: (w ++ rest) := List.suffix_append (ch :: w) rest
    have hlt : rest.length < (ch :: (w ++ rest)).length := by
      rw [List.length_cons, List.length_append]
      omega
    refine .word ⟨hq, rfl, hw, hstop⟩ hrest.skip (hsub.trans (hrest'.trans hq)) ?_
    exact (hsub.length_le.trans_lt hlt).trans_le hq.length_le

end Xv6.Sh
