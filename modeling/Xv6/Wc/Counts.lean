import Xv6.Printf.Agree
import Xv6.Mem.Strings

/-!
# Counting lines, words and characters

`wc` and `main` of `wc.c`.  The text arrives in the pieces that `read` returns, and a word may
be cut anywhere.
-/

namespace Xv6.Wc

open Printf
open Mem (literal)
open Mem.Ulib (strchr strchr_literal)

/-- What a call of `read` has put into `buf`. -/
abbrev Buffer := {buf : Text // 0 < buf.length ∧ buf.length ≤ 512}

/-- What `read` returns for one descriptor: piece after piece of the text, at most the buffer at
a time, and then 0, or a negative number if it `fails`. -/
structure Input where
  reads : List Buffer
  fails : Bool

def Input.text (input : Input) : Text := (input.reads.map Subtype.val).flatten

def spaces : Text := text " \r\t\n\x0b"

structure State where
  l : BitVec 32
  w : BitVec 32
  c : BitVec 32
  inword : Bool
  deriving DecidableEq

def State.next (s : State) (b : UInt8) : State :=
  let s := { s with c := s.c + 1 }
  let s := if b = '\n'.toUInt8 then { s with l := s.l + 1 } else s
  if (strchr (literal spaces) b (spaces.length + 1) 0).join.isSome then { s with inword := false }
  else if !s.inword then { s with w := s.w + 1, inword := true }
  else s

def readLoop (s : State) : List Buffer → State
  | [] => s
  | buf :: reads => readLoop (buf.1.foldl State.next s) reads

/-- How a call ends, with what it has printed. -/
inductive Outcome
  | returned (out : Text)
  | exit (status : ℕ) (out : Text)
  deriving DecidableEq

def wc (input : Input) (name : Text) : Except Fault Outcome :=
  let s := readLoop ⟨0, 0, 0, false⟩ input.reads
  if input.fails then do
    let out ← User.vprintf (text "wc: read error\n") []
    return .exit 1 out
  else do
    let out ← User.vprintf (text "%d %d %d %s\n") [.int s.l, .int s.w, .int s.c, .str (some name)]
    return .returned out

/-- What has been printed before comes first. -/
def Outcome.after (out : Text) : Outcome → Outcome
  | .returned out' => .returned (out ++ out')
  | .exit status out' => .exit status (out ++ out')

/-- The loop of `main` over the names; `open` fails for those that have no input. -/
def mainLoop : List (Text × Option Input) → Except Fault Outcome
  | [] => .ok (.exit 0 [])
  | (name, none) :: _ => do
    let out ← User.vprintf (text "wc: cannot open %s\n") [.str (some name)]
    return .exit 1 out
  | (name, some input) :: files => do
    match ← wc input name with
    | .exit status out => return .exit status out
    | .returned out =>
      let rest ← mainLoop files
      return rest.after out

def main (stdin : Input) (files : List (Text × Option Input)) : Except Fault Outcome :=
  if files = [] then do
    match ← wc stdin [] with
    | .exit status out => return .exit status out
    | .returned out => return .exit 0 out
  else mainLoop files

/-! ## What there is to count -/

def isSpace (b : UInt8) : Bool := b ∈ spaces

/-- The words: what stands between the spaces, where anything does. -/
def words (t : Text) : List Text := (t.splitOnP isSpace).filter (· ≠ [])

/-- The words that begin in a text; its first piece goes on with a word if `inword`. -/
def begun (inword : Bool) (t : Text) : ℕ :=
  ((if inword then (t.splitOnP isSpace).tail else t.splitOnP isSpace).filter (· ≠ [])).length

theorem begun_nil (inword : Bool) : begun inword [] = 0 := by
  cases inword <;> rfl

theorem begun_cons_space {b : UInt8} (hb : isSpace b = true) (inword : Bool) (t : Text) :
    begun inword (b :: t) = begun false t := by
  cases inword <;> simp [begun, List.splitOnP_cons_eq_if_modifyHead, hb]

theorem begun_cons_letter {b : UInt8} (hb : isSpace b = false) (inword : Bool) (t : Text) :
    begun inword (b :: t) = (if inword then 0 else 1) + begun true t := by
  obtain ⟨u, us, hsplit⟩ := List.exists_cons_of_ne_nil (List.splitOnP_ne_nil isSpace t)
  cases inword <;> simp [begun, List.splitOnP_cons_eq_if_modifyHead, hb, hsplit, add_comm]

/-- `strchr(" \r\t\n\v", b)` -/
theorem strchr_spaces (b : UInt8) :
    (strchr (literal spaces) b (spaces.length + 1) 0).join.isSome = isSpace b :=
  strchr_literal spaces b (by decide)

/-! ## The loops -/

theorem not_newline {b : UInt8} (hb : isSpace b = false) : b ≠ '\n'.toUInt8 := by
  rintro rfl
  exact absurd hb (by decide)

theorem next_of_space {b : UInt8} (hb : isSpace b = true) (s : State) :
    s.next b = ⟨s.l + BitVec.ofNat 32 (if b = '\n'.toUInt8 then 1 else 0), s.w,
      s.c + BitVec.ofNat 32 1, false⟩ := by
  have hchr := (strchr_spaces b).trans hb
  unfold State.next
  by_cases h : b = '\n'.toUInt8
  · rw [if_pos hchr, if_pos h, if_pos h]
    rfl
  · rw [if_pos hchr, if_neg h, if_neg h, BitVec.add_zero]
    rfl

theorem next_of_letter {b : UInt8} (hb : isSpace b = false) (s : State) :
    s.next b = ⟨s.l, s.w + BitVec.ofNat 32 (if s.inword then 0 else 1),
      s.c + BitVec.ofNat 32 1, true⟩ := by
  have hchr := (strchr_spaces b).trans hb
  cases h : s.inword <;> simp [State.next, hchr, not_newline hb, h]

theorem foldl_next (t : Text) (s : State) : ∃ inword, t.foldl State.next s =
    ⟨s.l + BitVec.ofNat 32 (t.count '\n'.toUInt8), s.w + BitVec.ofNat 32 (begun s.inword t),
      s.c + BitVec.ofNat 32 t.length, inword⟩ := by
  induction t generalizing s with
  | nil => exact ⟨s.inword, by simp [begun_nil]⟩
  | cons b t ih =>
    obtain ⟨inword, hfold⟩ := ih (s.next b)
    refine ⟨inword, ?_⟩
    rw [List.foldl_cons, hfold, List.count_cons, List.length_cons, add_comm (t.count _),
      add_comm t.length, BitVec.ofNat_add, BitVec.ofNat_add, ← BitVec.add_assoc,
      ← BitVec.add_assoc]
    cases hb : isSpace b with
    | true =>
      rw [next_of_space hb, begun_cons_space hb]
      simp only [beq_iff_eq]
    | false =>
      rw [next_of_letter hb, begun_cons_letter hb, BitVec.ofNat_add, ← BitVec.add_assoc]
      simp [not_newline hb]

/-- However the text is cut into buffers. -/
theorem readLoop_eq (s : State) (reads : List Buffer) :
    readLoop s reads = (reads.map Subtype.val).flatten.foldl State.next s := by
  induction reads generalizing s with
  | nil => rfl
  | cons buf reads ih => rw [readLoop, ih, List.map_cons, List.flatten_cons, List.foldl_append]

/-! ## What is printed -/

def decimal (n : ℕ) : Text := spell user.digits 10 n

def report (t name : Text) : Text :=
  decimal (t.count '\n'.toUInt8) ++ text " " ++ decimal (words t).length ++ text " " ++
    decimal t.length ++ text " " ++ name ++ text "\n"

theorem emit_int (v : BitVec 32) (ap : List Arg) :
    user.emit (.num .int .d) (.int v :: ap) = .ok (spell user.digits 10 v.toInt, ap) :=
  (user.emit_num (by decide) .int .d v ap).trans (if_pos (length_spell_user .int .d v _))

theorem emit_name {name : Text} (hname : 0 ∉ name) (ap : List Arg) :
    user.emit .str (.str (some name) :: ap) = .ok (name, ap) := by
  have htake : name.takeWhile (· ≠ 0) = name := by
    rw [List.takeWhile_eq_self_iff]
    intro b hb
    simpa using ne_of_mem_of_not_mem hb hname
  change Except.ok (name.takeWhile (· ≠ 0), ap) = _
  rw [htake]

theorem vprintf_counts {name : Text} (hname : 0 ∉ name) (l w c : BitVec 32) :
    User.vprintf (text "%d %d %d %s\n") [.int l, .int w, .int c, .str (some name)] =
      .ok (spell user.digits 10 l.toInt ++ text " " ++ spell user.digits 10 w.toInt ++ text " " ++
        spell user.digits 10 c.toInt ++ text " " ++ name ++ text "\n") := by
  have hparse : parse 0 (text "%d %d %d %s\n") =
      [.num .int .d, .lit 32, .num .int .d, .lit 32, .num .int .d, .lit 32, .str, .lit 10] := by
    decide
  rw [User.vprintf_eq, hparse, List.append_assoc, List.append_assoc, List.append_assoc,
    List.append_assoc, List.append_assoc, List.append_assoc]
  exact render_cons (emit_int l _) (render_cons rfl (render_cons (emit_int w _) (render_cons rfl
    (render_cons (emit_int c _) (render_cons rfl (render_cons (emit_name hname _) rfl))))))

theorem toInt_count {n : ℕ} (h : n < 2 ^ 31) : (0 + BitVec.ofNat 32 n).toInt = n := by
  rw [zero_add, BitVec.toInt_ofNat']
  exact Int.bmod_eq_of_le (by omega) (by omega)

theorem length_words_le (t : Text) : (words t).length ≤ t.length := by
  have hbegun : ∀ inword, begun inword t ≤ t.length := by
    induction t with
    | nil => simp [begun_nil]
    | cons b t ih =>
      intro inword
      cases hb : isSpace b with
      | true =>
        rw [begun_cons_space hb, List.length_cons]
        exact (ih false).trans (Nat.le_succ _)
      | false =>
        rw [begun_cons_letter hb, List.length_cons, add_comm]
        exact Nat.add_le_add (ih true) (by split <;> omega)
  exact hbegun false

/-! ## Whole runs -/

/-- A file that is read to its end, of a length that an `int` can hold. -/
structure Readable (name : Text) (input : Input) : Prop where
  name_ends : 0 ∉ name
  reads_all : input.fails = false
  fits : input.text.length < 2 ^ 31

theorem wc_of_readable {name : Text} {input : Input} (h : Readable name input) :
    wc input name = .ok (.returned (report input.text name)) := by
  obtain ⟨inword, hloop⟩ := foldl_next input.text ⟨0, 0, 0, false⟩
  have hlines : (0 + BitVec.ofNat 32 (input.text.count '\n'.toUInt8)).toInt = _ :=
    toInt_count (List.count_le_length.trans_lt h.fits)
  have hwords : (0 + BitVec.ofNat 32 (begun false input.text)).toInt = (words input.text).length :=
    toInt_count ((length_words_le input.text).trans_lt h.fits)
  unfold wc
  rw [readLoop_eq, ← Input.text, hloop, h.reads_all]
  simp only [Bool.false_eq_true, if_false]
  rw [vprintf_counts h.name_ends, hlines, hwords, toInt_count h.fits]
  rfl

theorem render_lits {ps : List Piece} {ap : List Arg} {out : Text} (s : Text)
    (h : user.render ps ap = .ok out) : user.render (s.map .lit ++ ps) ap = .ok (s ++ out) := by
  induction s with
  | nil => exact h
  | cons b s ih =>
    rw [List.map_cons, List.cons_append]
    exact render_cons (s := [b]) rfl ih

theorem wc_of_fails {input : Input} (hfails : input.fails = true) (name : Text) :
    wc input name = .ok (.exit 1 (text "wc: read error\n")) := by
  have hparse : parse 0 (text "wc: read error\n") = (text "wc: read error\n").map .lit ++ [] := by
    decide
  have hprint : User.vprintf (text "wc: read error\n") [] =
      .ok (text "wc: read error\n" ++ []) := by
    rw [User.vprintf_eq, hparse]
    exact render_lits _ rfl
  unfold wc
  rw [hfails, hprint]
  rfl

theorem vprintf_cannot_open {name : Text} (hname : 0 ∉ name) :
    User.vprintf (text "wc: cannot open %s\n") [.str (some name)] =
      .ok (text "wc: cannot open " ++ (name ++ text "\n")) := by
  have hparse : parse 0 (text "wc: cannot open %s\n") =
      (text "wc: cannot open ").map .lit ++ [.str, .lit 10] := by decide
  rw [User.vprintf_eq, hparse]
  exact render_lits _ (render_cons (emit_name hname _) rfl)

def opened (files : List (Text × Input)) : List (Text × Option Input) :=
  files.map fun f => (f.1, some f.2)

def reports (files : List (Text × Input)) : Text := files.flatMap fun f => report f.2.text f.1

/-- The loop over the names passes the readable files and goes on behind them. -/
theorem mainLoop_append {files : List (Text × Input)} (h : ∀ f ∈ files, Readable f.1 f.2)
    {rest : List (Text × Option Input)} {status : ℕ} {out : Text}
    (hrest : mainLoop rest = .ok (.exit status out)) :
    mainLoop (opened files ++ rest) = .ok (.exit status (reports files ++ out)) := by
  induction files with
  | nil => exact hrest
  | cons f files ih =>
    have htail := ih fun g hg => h g (List.mem_cons_of_mem f hg)
    rw [opened, List.map_cons, List.cons_append, mainLoop, wc_of_readable (h f List.mem_cons_self),
      ← opened, reports, List.flatMap_cons, List.append_assoc]
    change (do
      let rest ← mainLoop (opened files ++ rest)
      return rest.after _) = _
    rw [htail]
    rfl

/-- Every run of `wc`: whatever pieces `read` returns, the line of a file has the
numbers of its newlines, of its words and of its bytes.  `main` prints the lines in order up to
the first file that cannot be opened or read, and reports that one; without files it reads its
standard input. -/
theorem main_prints (stdin : Input) {files : List (Text × Input)}
    (h : ∀ f ∈ files, Readable f.1 f.2) :
    (Readable [] stdin → main stdin [] = .ok (.exit 0 (report stdin.text []))) ∧
    (stdin.fails = true → main stdin [] = .ok (.exit 1 (text "wc: read error\n"))) ∧
    (files ≠ [] → main stdin (opened files) = .ok (.exit 0 (reports files))) ∧
    (∀ name rest, 0 ∉ name → main stdin (opened files ++ (name, none) :: rest) =
      .ok (.exit 1 (reports files ++ (text "wc: cannot open " ++ (name ++ text "\n"))))) ∧
    (∀ name input rest, input.fails = true →
      main stdin (opened files ++ (name, some input) :: rest) =
        .ok (.exit 1 (reports files ++ text "wc: read error\n"))) := by
  refine ⟨fun hstdin => ?_, fun hfails => ?_, fun hne => ?_, fun name rest hname => ?_,
    fun name input rest hfails => ?_⟩
  · rw [main, if_pos rfl, wc_of_readable hstdin]
    rfl
  · rw [main, if_pos rfl, wc_of_fails hfails]
    rfl
  · rw [main, if_neg (by simpa [opened] using hne)]
    have hnil : mainLoop [] = .ok (.exit 0 []) := rfl
    have hall := mainLoop_append h hnil
    rwa [List.append_nil, List.append_nil] at hall
  · rw [main, if_neg (by simp)]
    apply mainLoop_append h
    rw [mainLoop, vprintf_cannot_open hname]
    rfl
  · rw [main, if_neg (by simp)]
    apply mainLoop_append h
    rw [mainLoop, wc_of_fails hfails]
    rfl

/-- A word that two reads share counts once. -/
theorem main_prints_cut_word :
    main ⟨[], false⟩ [(text "f", some
      ⟨[⟨text "one tw", by decide⟩, ⟨text "o\n", by decide⟩], false⟩)] =
      .ok (.exit 0 (text "1 2 8 f\n")) := by
  let file : Input := ⟨[⟨text "one tw", by decide⟩, ⟨text "o\n", by decide⟩], false⟩
  have hfile : ∀ f ∈ [(text "f", file)], Readable f.1 f.2 := by
    intro f hf
    rw [List.mem_singleton] at hf
    subst hf
    exact ⟨by decide, rfl, by decide⟩
  have hline : reports [(text "f", file)] = text "1 2 8 f\n" := by decide +kernel
  exact ((main_prints ⟨[], false⟩ hfile).2.2.1 (by simp)).trans (by rw [hline])

end Xv6.Wc
