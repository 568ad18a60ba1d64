import Xv6.Lib.Outcome
import Xv6.Sh.Parse

/-!
# The grammar of command lines

Derivations of the grammar, and the command that each of them stands for.  The
parser is sound and complete for it: what it returns is the command of a
derivation of the tokens of the line, and it returns for every derivation.
-/

namespace Xv6.Sh

open Lib

/-! ## Derivations -/

inductive RedirOp
  | lt | gt | gtgt

namespace RedirOp

def sym : RedirOp → Sym
  | lt => .lt
  | gt => .gt
  | gtgt => .gtgt

def mode : RedirOp → ℕ
  | lt => O_RDONLY
  | gt => O_WRONLY ||| O_CREATE ||| O_TRUNC
  | gtgt => O_WRONLY ||| O_CREATE

def fd : RedirOp → ℕ
  | lt => 0
  | gt | gtgt => 1

end RedirOp

/-- `redir := ('<' | '>' | '>>') word` -/
structure Redirect where
  op : RedirOp
  file : Text

def Redirect.tokens (r : Redirect) : List Tok := [.sym r.op.sym, .word r.file]

def Redirect.redir (r : Redirect) : Redir Text := ⟨r.file, r.op.mode, r.op.fd⟩

/-- `word redir*` -/
structure Word where
  text : Text
  redirs : List Redirect

def Word.tokens (w : Word) : List Tok := .word w.text :: w.redirs.flatMap Redirect.tokens

mutual

/-- `line := pipe '&'* [';' line]` -/
inductive Line
  | last (p : Pipe) (amps : ℕ)
  | semi (p : Pipe) (amps : ℕ) (rest : Line)

/-- `pipe := exec ['|' pipe]` -/
inductive Pipe
  | last (e : Exec)
  | bar (e : Exec) (rest : Pipe)

/-- `exec := '(' line ')' redir* | redir* (word redir*)*` -/
inductive Exec
  | block (l : Line) (rs : List Redirect)
  | simple (rs : List Redirect) (words : List Word) (h : words.length < MAXARGS)

end

mutual

def Line.tokens : Line → List Tok
  | .last p n => p.tokens ++ List.replicate n (.sym .amp)
  | .semi p n rest => p.tokens ++ List.replicate n (.sym .amp) ++ .sym .semi :: rest.tokens

def Pipe.tokens : Pipe → List Tok
  | .last e => e.tokens
  | .bar e rest => e.tokens ++ .sym .bar :: rest.tokens

def Exec.tokens : Exec → List Tok
  | .block l rs => .sym .lpar :: (l.tokens ++ .sym .rpar :: rs.flatMap Redirect.tokens)
  | .simple rs words _ => rs.flatMap Redirect.tokens ++ words.flatMap Word.tokens

end

abbrev Tree := Cmd (List Text) Text

mutual

def Line.tree : Line → Tree
  | .last p n => Cmd.back^[n] p.tree
  | .semi p n rest => .list (Cmd.back^[n] p.tree) rest.tree

def Pipe.tree : Pipe → Tree
  | .last e => e.tree
  | .bar e rest => .pipe e.tree rest.tree

def Exec.tree : Exec → Tree
  | .block l rs => redircmds l.tree (rs.map Redirect.redir)
  | .simple rs words _ =>
    redircmds (.exec (words.map Word.text))
      ((rs ++ words.flatMap Word.redirs).map Redirect.redir)

end

/-! ## Commands whose strings lie in the line -/

section denotes

variable (line : Text)

/-- A redirection of the parser and the one it stands for. -/
structure RedirSpells (r : Redir Arg) (r' : Redirect) : Prop where
  file : Spells line r.file.q r.file.eq r'.file
  mode : r.mode = r'.op.mode
  fd : r.fd = r'.op.fd

/-- An argument vector with `argc` words and then null pointers. -/
structure Filled (argv : Argv) (argc : ℕ) (ws : List Text) : Prop where
  lt : argc < MAXARGS
  args : ∃ as : List Arg, argv = as.map some ++ List.replicate (MAXARGS - argc) none ∧
    as.length = argc ∧ List.Forall₂ (fun a w => Spells line a.q a.eq w) as ws

inductive Denotes : Cmd Argv Arg → Tree → Prop
  | exec {argv : Argv} {argc : ℕ} {ws : List Text} :
      Filled line argv argc ws → Denotes (.exec argv) (.exec ws)
  | redir {cmd : Cmd Argv Arg} {t : Tree} {r : Redir Arg} {r' : Redirect} :
      Denotes cmd t → RedirSpells line r r' →
        Denotes (.redir cmd r.file r.mode r.fd) (.redir t r'.file r'.op.mode r'.op.fd)
  | pipe {left right : Cmd Argv Arg} {t u : Tree} :
      Denotes left t → Denotes right u → Denotes (.pipe left right) (.pipe t u)
  | list {left right : Cmd Argv Arg} {t u : Tree} :
      Denotes left t → Denotes right u → Denotes (.list left right) (.list t u)
  | back {cmd : Cmd Argv Arg} {t : Tree} : Denotes cmd t → Denotes (.back cmd) (.back t)

/-- The pointer `s` into the line has the tokens `ts` before it. -/
structure Ahead (s : Text) (ts : List Tok) : Prop where
  lexes : Lexes s ts
  suffix : s <:+ line

/-- A function has read a part of the line that stands for `t`; the tokens `ts` are left. -/
structure Parsed (n : ℕ) (ts : List Tok) (t : Tree) (r : Cmd Argv Arg × Text) : Prop where
  denotes : Denotes line r.1 t
  ahead : Ahead line r.2 ts
  length : r.2.length ≤ n

end denotes

section

variable {line s : Text} {ts : List Tok}

theorem Denotes.redircmds {cmd : Cmd Argv Arg} {t : Tree} {rs : List (Redir Arg)}
    {rs' : List Redirect} (h : Denotes line cmd t) (hrs : List.Forall₂ (RedirSpells line) rs rs') :
    Denotes line (redircmds cmd rs) (redircmds t (rs'.map Redirect.redir)) := by
  induction hrs generalizing cmd t with
  | nil => exact h
  | cons hr _ ih => exact ih (.redir h hr)

theorem Filled.empty : Filled line (List.replicate MAXARGS none) 0 [] :=
  ⟨by decide, [], rfl, rfl, .nil⟩

theorem Filled.store {argv : Argv} {argc : ℕ} {ws : List Text} {a : Arg} {w : Text}
    (h : Filled line argv argc ws) (ha : Spells line a.q a.eq w) :
    ∃ argv', store argv argc (some a) = .ok argv' ∧
      (argc + 1 < MAXARGS → Filled line argv' (argc + 1) (ws ++ [w])) := by
  obtain ⟨as, rfl, hlen, hall⟩ := h.args
  have hlt := h.lt
  refine ⟨(as ++ [a]).map some ++ List.replicate (MAXARGS - (argc + 1)) none, ?_, fun hlt' =>
    ⟨hlt', as ++ [a], rfl, by simp [hlen], ?_⟩⟩
  · obtain ⟨k, hk⟩ : ∃ k, MAXARGS - argc = k + 1 := ⟨MAXARGS - (argc + 1), by omega⟩
    have hk' : MAXARGS - (argc + 1) = k := by omega
    rw [Sh.store, if_pos (by simp [hlen]; omega), hk, hk']
    congr 1
    simp [hlen, List.replicate_succ]
  · exact List.rel_append hall (.cons ha .nil)

theorem Filled.finish {argv : Argv} {argc : ℕ} {ws : List Text} (h : Filled line argv argc ws)
    (rs : List (Redir Arg)) (s : Text) :
    Sh.finish argv argc rs s = .ok (Sh.redircmds (.exec argv) rs, s) := by
  obtain ⟨as, rfl, hlen, -⟩ := h.args
  have hlt := h.lt
  obtain ⟨k, hk⟩ : ∃ k, MAXARGS - argc = k + 1 := ⟨MAXARGS - (argc + 1), by omega⟩
  have hstore : Sh.store (as.map some ++ List.replicate (MAXARGS - argc) none) argc none =
      .ok (as.map some ++ List.replicate (MAXARGS - argc) none) := by
    rw [Sh.store, if_pos (by simp [hlen]; omega), hk]
    congr 1
    simp [hlen, List.replicate_succ]
  rw [Sh.finish, hstore]
  rfl

/-! ## Moving through the tokens -/

theorem Ahead.skip (h : Ahead line s ts) : Ahead line (skip s) ts :=
  ⟨h.lexes.skip, (skip_suffix s).trans h.suffix⟩

theorem length_skip (s : Text) : (skip s).length ≤ s.length := (skip_suffix s).length_le

theorem Spells.trans {q eq w : Text} (h : Spells s q eq w) (hs : s <:+ line) :
    Spells line q eq w :=
  { h with suffix := h.suffix.trans hs }

theorem Ahead.sym {y : Sym} (h : Ahead line s (.sym y :: ts)) :
    (gettoken s).ret = y.code ∧ Ahead line (gettoken s).s ts ∧
      (gettoken s).s.length < s.length := by
  have hget := gettoken_gets h.lexes
  generalize gettoken s = tok at hget
  cases hget with
  | sym hlex hsub hlt => exact ⟨rfl, ⟨hlex, hsub.trans h.suffix⟩, hlt⟩

theorem Ahead.word {w : Text} (h : Ahead line s (.word w :: ts)) :
    (gettoken s).ret = 'a'.toUInt8 ∧ Spells line (gettoken s).q (gettoken s).eq w ∧
      Ahead line (gettoken s).s ts ∧ (gettoken s).s.length < s.length := by
  have hget := gettoken_gets h.lexes
  generalize gettoken s = tok at hget
  cases hget with
  | word hsp hlex hsub hlt =>
    exact ⟨rfl, hsp.trans h.suffix, ⟨hlex, hsub.trans h.suffix⟩, hlt⟩

theorem Ahead.nil (h : Ahead line s []) : (gettoken s).ret = 0 ∧ (gettoken s).s = [] := by
  have hget := gettoken_gets h.lexes
  generalize gettoken s = tok at hget
  cases hget with
  | nil => exact ⟨rfl, rfl⟩

theorem Ahead.empty : Ahead line [] [] := ⟨.nil, List.nil_suffix⟩

theorem Ahead.ret_ne (h : Ahead line s ts) (hword : ¬ ∃ w ts', ts = .word w :: ts') :
    (gettoken s).ret ≠ 'a'.toUInt8 := by
  have hget := gettoken_gets h.lexes
  generalize gettoken s = tok at hget
  cases hget with
  | nil => decide
  | @sym y _ _ _ _ _ _ _ => exact y.code_ne.1
  | word _ _ _ _ => exact absurd ⟨_, _, rfl⟩ hword

theorem Ahead.accept {y : Sym} {p : Text} (h : Ahead line s (.sym y :: ts))
    (hp : p = [y.lead]) :
    peek s p = (true, Sh.skip s) ∧ Ahead line (gettoken (Sh.skip s)).s ts ∧
      (gettoken (Sh.skip s)).s.length < s.length := by
  obtain ⟨-, hnext, hlt⟩ := h.skip.sym
  refine ⟨?_, hnext, hlt.trans_le (length_skip s)⟩
  rw [hp, peek_eq h.lexes (by simp [y.lead_mem])]
  simp [Tok.leads]

theorem Ahead.refuse {y : Sym} {p : Text} (h : Ahead line s ts) (hp : p = [y.lead])
    (hne : ts.head? ≠ some (.sym y)) (hgt : y ≠ .gt := by decide)
    (hgtgt : y ≠ .gtgt := by decide) : peek s p = (false, Sh.skip s) := by
  rw [hp, peek_eq h.lexes (by simp [y.lead_mem])]
  congr 1
  cases ts with
  | nil => rfl
  | cons tok ts =>
    cases tok with
    | word w => rfl
    | sym z =>
      have hzy : z.lead ≠ y.lead := by
        intro heq
        rw [Sym.eq_of_lead heq hgt hgtgt] at hne
        exact hne rfl
      simp [Tok.leads, hzy]

/-- A token that starts a redirection. -/
def StartsRedir (ts : List Tok) : Prop := ∃ op : RedirOp, ts.head? = some (.sym op.sym)

theorem Ahead.redir {op : RedirOp} (h : Ahead line s (.sym op.sym :: ts)) :
    peek s (['<', '>'].map Char.toUInt8) = (true, Sh.skip s) := by
  rw [peek_eq h.lexes (by decide)]
  cases op <;> rfl

theorem Ahead.no_redir (h : Ahead line s ts) (hno : ¬ StartsRedir ts) :
    peek s (['<', '>'].map Char.toUInt8) = (false, Sh.skip s) := by
  rw [peek_eq h.lexes (by decide)]
  congr 1
  cases ts with
  | nil => rfl
  | cons tok ts =>
    cases tok with
    | word w => rfl
    | sym y =>
      cases y with
      | lt => exact absurd ⟨.lt, rfl⟩ hno
      | gt => exact absurd ⟨.gt, rfl⟩ hno
      | gtgt => exact absurd ⟨.gtgt, rfl⟩ hno
      | _ => rfl

theorem redirmode_code (op : RedirOp) : redirmode op.sym.code = some (op.mode, op.fd) := by
  cases op <;> rfl

/-- Nothing follows, or one of the symbols `ys`. -/
def Follows (ys : List Sym) (ts : List Tok) : Prop := ∀ tok ∈ ts.head?, ∃ y ∈ ys, tok = .sym y

theorem Follows.mono {ys zs : List Sym} (h : Follows ys ts) (hsub : ys ⊆ zs) : Follows zs ts := by
  intro tok htok
  obtain ⟨y, hy, heq⟩ := h tok htok
  exact ⟨y, hsub hy, heq⟩

theorem Follows.cons {ys : List Sym} {y : Sym} (hy : y ∈ ys) : Follows ys (.sym y :: ts) := by
  intro tok htok
  exact ⟨y, hy, (Option.some.inj htok).symm⟩

theorem Follows.head_ne {ys : List Sym} {y : Sym} (h : Follows ys ts) (hy : y ∉ ys) :
    ts.head? ≠ some (.sym y) := by
  intro heq
  obtain ⟨z, hz, hzy⟩ := h _ heq
  exact hy (Tok.sym.inj hzy ▸ hz)

/-- What may follow the words of a command. -/
def closers : List Sym := [.bar, .rpar, .amp, .semi]

theorem Follows.not_redir (h : Follows closers ts) : ¬ StartsRedir ts := by
  rintro ⟨op, hop⟩
  have hne : op.sym ∉ closers := by cases op <;> decide
  exact h.head_ne hne hop

theorem lead_mem_closers (y : Sym) :
    y.lead ∈ ['|', ')', '&', ';'].map Char.toUInt8 ↔ y ∈ closers := by
  cases y <;> decide

theorem Ahead.closes (h : Ahead line s ts) (hts : Follows closers ts) (hne : ts ≠ []) :
    peek s (['|', ')', '&', ';'].map Char.toUInt8) = (true, Sh.skip s) := by
  rw [peek_eq h.lexes (by decide)]
  congr 1
  cases ts with
  | nil => exact absurd rfl hne
  | cons tok ts =>
    obtain ⟨y, hy, rfl⟩ := hts tok rfl
    exact decide_eq_true ((lead_mem_closers y).mpr hy)

theorem Ahead.word_goes_on {w : Text} (h : Ahead line s (.word w :: ts)) :
    peek s (['|', ')', '&', ';'].map Char.toUInt8) = (false, Sh.skip s) :=
  peek_eq h.lexes (by decide)

theorem Ahead.sym_goes_on {y : Sym} (h : Ahead line s (.sym y :: ts)) (hy : y ∉ closers) :
    peek s (['|', ')', '&', ';'].map Char.toUInt8) = (false, Sh.skip s) := by
  rw [peek_eq h.lexes (by decide)]
  congr 1
  exact decide_eq_false fun hmem => hy ((lead_mem_closers y).mp hmem)

theorem Ahead.nil_goes_on (h : Ahead line s []) :
    peek s (['|', ')', '&', ';'].map Char.toUInt8) = (false, Sh.skip s) :=
  peek_eq h.lexes (by decide)

/-! ## The loops -/

/-- The messages of the parser for a line that is not in the language. -/
def syntaxErrors : List String :=
  ["syntax", "missing file for redirection", "syntax - missing )", "too many args"]

def SyntaxError : Stop → Prop
  | .panic msg => msg ∈ syntaxErrors
  | .wild => False
  | .fuel => False

/-- What `parseredirs` has read, after the redirections `rs₀`. -/
structure Redirected (line : Text) (n : ℕ) (ts : List Tok) (rs : List Redirect)
    (r : List (Redir Arg) × Text) : Prop where
  redirs : List.Forall₂ (RedirSpells line) r.1 rs
  ahead : Ahead line r.2 ts
  length : r.2.length ≤ n

theorem parseredirs_complete {fuel : ℕ} {rs : List (Redir Arg)} {rs₀ items : List Redirect}
    (h : Ahead line s (items.flatMap Redirect.tokens ++ ts)) (hts : ¬ StartsRedir ts)
    (hrs : List.Forall₂ (RedirSpells line) rs rs₀) (hfuel : s.length < fuel) :
    ∃ r, parseredirs fuel rs s = .ok r ∧ Redirected line s.length ts (rs₀ ++ items) r := by
  induction fuel generalizing s rs rs₀ items with
  | zero => exact absurd hfuel (Nat.not_lt_zero _)
  | succ fuel ih =>
    rw [parseredirs]
    cases items with
    | nil =>
      simp only [h.no_redir hts, Bool.false_eq_true, if_false]
      exact ⟨_, rfl, by simpa using hrs, h.skip, length_skip s⟩
    | cons item items =>
      obtain ⟨hret, hnext, hlt⟩ := h.skip.sym
      obtain ⟨hret', hsp, hrest, hlt'⟩ := hnext.word
      simp only [h.redir, if_true, hret', ne_eq, not_true_eq_false, if_false, hret,
        redirmode_code]
      have hlen := length_skip s
      have hnew : RedirSpells line ⟨⟨_, _⟩, item.op.mode, item.op.fd⟩ item := ⟨hsp, rfl, rfl⟩
      obtain ⟨r, hr, hred⟩ := ih hrest (List.rel_append hrs (.cons hnew .nil)) (by omega)
      refine ⟨r, hr, ?_, hred.ahead, hred.length.trans (by omega)⟩
      have happ : rs₀ ++ item :: items = rs₀ ++ [item] ++ items := by simp
      rw [happ]
      exact hred.redirs

theorem parseredirs_sound {fuel : ℕ} {rs : List (Redir Arg)} {rs₀ : List Redirect}
    (h : Ahead line s ts) (hrs : List.Forall₂ (RedirSpells line) rs rs₀)
    (hfuel : s.length < fuel) :
    Ends SyntaxError (fun r => ∃ items ts', ts = items.flatMap Redirect.tokens ++ ts' ∧
      Redirected line s.length ts' (rs₀ ++ items) r) (parseredirs fuel rs s) := by
  induction fuel generalizing s ts rs rs₀ with
  | zero => exact absurd hfuel (Nat.not_lt_zero _)
  | succ fuel ih =>
    rw [parseredirs]
    by_cases hredir : StartsRedir ts
    swap
    · simp only [h.no_redir hredir, Bool.false_eq_true, if_false]
      exact ⟨[], ts, rfl, by simpa using hrs, h.skip, length_skip s⟩
    obtain ⟨op, hop⟩ := hredir
    obtain ⟨ts, rfl⟩ : ∃ ts', ts = .sym op.sym :: ts' := ⟨_, List.eq_cons_of_mem_head? hop⟩
    obtain ⟨hret, hnext, hlt⟩ := h.skip.sym
    simp only [h.redir, if_true]
    by_cases hword : ∃ w ts', ts = .word w :: ts'
    · obtain ⟨w, ts, rfl⟩ := hword
      obtain ⟨hret', hsp, hrest, hlt'⟩ := hnext.word
      simp only [hret', ne_eq, not_true_eq_false, if_false, hret, redirmode_code]
      have hlen := length_skip s
      have hnew : RedirSpells line ⟨⟨_, _⟩, op.mode, op.fd⟩ ⟨op, w⟩ := ⟨hsp, rfl, rfl⟩
      apply (ih hrest (List.rel_append hrs (.cons hnew .nil)) (by omega)).imp
      rintro r ⟨items, ts', rfl, hred⟩
      refine ⟨⟨op, w⟩ :: items, ts', rfl, ?_, hred.ahead, hred.length.trans (by omega)⟩
      have happ : rs₀ ++ ⟨op, w⟩ :: items = rs₀ ++ [⟨op, w⟩] ++ items := by simp
      rw [happ]
      exact hred.redirs
    · rw [if_pos (hnext.ret_ne hword)]
      exact List.mem_cons_of_mem _ List.mem_cons_self

theorem parsebacks_complete {fuel n : ℕ} {cmd : Cmd Argv Arg} {t : Tree}
    (h : Ahead line s (List.replicate n (.sym .amp) ++ ts)) (hts : ts.head? ≠ some (.sym .amp))
    (hcmd : Denotes line cmd t) (hfuel : s.length < fuel) :
    ∃ r, parsebacks fuel cmd s = .ok r ∧ Parsed line s.length ts (Cmd.back^[n] t) r := by
  induction fuel generalizing s n cmd t with
  | zero => exact absurd hfuel (Nat.not_lt_zero _)
  | succ fuel ih =>
    rw [parsebacks]
    cases n with
    | zero =>
      have hpeek := h.refuse (y := .amp) (p := ['&'].map Char.toUInt8) rfl hts
      simp only [hpeek, Bool.false_eq_true, if_false]
      exact ⟨_, rfl, hcmd, h.skip, length_skip s⟩
    | succ n =>
      obtain ⟨hpeek, hnext, hlt⟩ :=
        Ahead.accept (y := .amp) (p := ['&'].map Char.toUInt8) h rfl
      simp only [hpeek, if_true]
      obtain ⟨r, hr, hparsed⟩ := ih hnext hcmd.back (by omega)
      exact ⟨r, hr, hparsed.denotes, hparsed.ahead, hparsed.length.trans hlt.le⟩

theorem parsebacks_sound {fuel : ℕ} {cmd : Cmd Argv Arg} {t : Tree} (h : Ahead line s ts)
    (hcmd : Denotes line cmd t) (hfuel : s.length < fuel) :
    Ends SyntaxError (fun r => ∃ n ts', ts = List.replicate n (.sym .amp) ++ ts' ∧
      Parsed line s.length ts' (Cmd.back^[n] t) r) (parsebacks fuel cmd s) := by
  induction fuel generalizing s ts cmd t with
  | zero => exact absurd hfuel (Nat.not_lt_zero _)
  | succ fuel ih =>
    rw [parsebacks]
    by_cases hts : ts.head? = some (.sym .amp)
    · obtain ⟨ts, rfl⟩ : ∃ ts', ts = .sym .amp :: ts' := ⟨_, List.eq_cons_of_mem_head? hts⟩
      obtain ⟨hpeek, hnext, hlt⟩ := h.accept (p := ['&'].map Char.toUInt8) rfl
      simp only [hpeek, if_true]
      apply (ih hnext hcmd.back (by omega)).imp
      rintro r ⟨n, ts', rfl, hparsed⟩
      exact ⟨n + 1, ts', rfl, hparsed.denotes, hparsed.ahead, hparsed.length.trans hlt.le⟩
    · have hpeek := h.refuse (y := .amp) (p := ['&'].map Char.toUInt8) rfl hts
      simp only [hpeek, Bool.false_eq_true, if_false]
      exact ⟨0, ts, rfl, hcmd, h.skip, length_skip s⟩

end

end Xv6.Sh
