import Xv6.Sh.Derive

/-!
# What the shell accepts

The strings of a command once `nulterminate` has cut the line into pieces, the
tokens that a command has kept, and `parsecmd` as a whole.
-/

namespace Xv6.Sh

open Lib

variable {line s : Text} {ts : List Tok}

/-! ## The strings -/

/-- `buf'` is `buf` with more `NUL`s, none of them inside a word of the line. -/
def Clears (line buf buf' : Text) : Prop :=
  ∀ i : ℕ, buf'[i]? = buf[i]? ∨ buf'[i]? = some 0 ∧ ∀ ch ∈ (line)[i]?, ¬ IsWord ch

theorem Clears.refl (line buf : Text) : Clears line buf buf := fun _ => .inl rfl

theorem Clears.trans {buf buf' buf'' : Text} (h : Clears line buf buf')
    (h' : Clears line buf' buf'') : Clears line buf buf'' := by
  intro i
  rcases h' i with heq | hzero
  · rw [heq]
    exact h i
  · exact .inr hzero

theorem Clears.zero {buf buf' : Text} {i : ℕ} (h : Clears line buf buf') (hi : buf[i]? = some 0) :
    buf'[i]? = some 0 := by
  rcases h i with heq | hzero
  · rw [heq, hi]
  · exact hzero.1

theorem Spells.offsets {q eq w : Text} (h : Spells line q eq w) :
    ∃ pre, line = pre ++ (w ++ eq) ∧ line.length - q.length = pre.length ∧
      line.length - eq.length = pre.length + w.length := by
  obtain ⟨pre, hpre⟩ := h.suffix
  rw [h.text] at hpre
  refine ⟨pre, hpre.symm, ?_, ?_⟩
  · rw [← hpre, h.text, List.length_append]
    omega
  · rw [← hpre, List.length_append, List.length_append]
    omega

theorem Spells.clears {q eq w buf : Text} (h : Spells line q eq w) :
    Clears line buf (Text.clear buf line.length eq) := by
  intro i
  obtain ⟨pre, hline, -, heq⟩ := h.offsets
  rw [Text.clear, heq, List.getElem?_set]
  split_ifs with hi hlt
  · subst hi
    refine .inr ⟨rfl, ?_⟩
    have hhead : (line)[pre.length + w.length]? = eq.head? := by
      rw [hline, ← List.append_assoc, List.getElem?_append_right (by simp), List.length_append,
        Nat.sub_self, List.head?_eq_getElem?]
    rw [hhead]
    exact h.stop
  · left
    subst hi
    exact (List.getElem?_eq_none (Nat.not_lt.mp hlt)).symm
  · exact .inl rfl

theorem Clears.cleared {buf : Text} (hbuf : Clears line (line ++ [0]) buf) (eq : Text) :
    (Text.clear buf line.length eq)[line.length - eq.length]? = some 0 := by
  have hlt : line.length - eq.length < buf.length := by
    by_contra hge
    have hnone : buf[line.length - eq.length]? = none := List.getElem?_eq_none (Nat.not_lt.mp hge)
    rcases hbuf (line.length - eq.length) with heq | hzero
    · rw [hnone] at heq
      have hle := List.getElem?_eq_none_iff.mp heq.symm
      rw [List.length_append, List.length_singleton] at hle
      omega
    · rw [hnone] at hzero
      cases hzero.1
  rw [Text.clear, List.getElem?_set_self hlt]

theorem Spells.read {q eq w buf : Text} (h : Spells line q eq w) (hline : (0 : UInt8) ∉ line)
    (hbuf : Clears line (line ++ [0]) buf) (hzero : buf[line.length - eq.length]? = some 0) :
    Arg.read line.length buf ⟨q, eq⟩ = w := by
  obtain ⟨pre, hsplit, hq, heq⟩ := h.offsets
  rw [heq] at hzero
  have htake : (buf.drop pre.length).take (w.length + 1) = w ++ [0] := by
    apply List.ext_getElem?
    intro j
    rw [List.getElem?_take, List.getElem?_drop]
    rcases Nat.lt_trichotomy j w.length with hj | rfl | hj
    · rw [if_pos (by omega), List.getElem?_append_left hj]
      have hat : (line)[pre.length + j]? = some w[j] := by
        rw [hsplit, List.getElem?_append_right (by omega), Nat.add_sub_cancel_left,
          List.getElem?_append_left hj, List.getElem?_eq_getElem hj]
      have hlen : pre.length + j < line.length := (List.getElem?_eq_some_iff.mp hat).1
      rcases hbuf (pre.length + j) with hsame | ⟨-, hno⟩
      · rw [hsame, List.getElem?_append_left hlen, hat, List.getElem?_eq_getElem hj]
      · exact absurd (h.isWord _ (List.getElem_mem hj)) (hno _ hat)
    · rw [if_pos (Nat.lt_succ_self _), hzero]
      simp
    · rw [if_neg (by omega)]
      exact (List.getElem?_eq_none (by rw [List.length_append]; exact hj)).symm
  have hne : ∀ ch ∈ w, decide (ch ≠ 0) = true := by
    intro ch hch
    refine decide_eq_true ?_
    rintro rfl
    apply hline
    rw [hsplit]
    exact List.mem_append_right _ (List.mem_append_left _ hch)
  have hdrop := List.take_append_drop (w.length + 1) (buf.drop pre.length)
  rw [htake, List.append_assoc] at hdrop
  change cstring (buf.drop (line.length - q.length)) = w
  rw [hq, ← hdrop, cstring, List.takeWhile_append_of_pos hne]
  simp

theorem nulargs_spec {as : List Arg} {ws : List Text} {buf : Text} {k : ℕ}
    (h : List.Forall₂ (fun a w => Spells line a.q a.eq w) as ws) (hline : (0 : UInt8) ∉ line)
    (hbuf : Clears line (line ++ [0]) buf) :
    ∃ buf', nulargs line.length (as.map some ++ List.replicate (k + 1) none) buf = .ok buf' ∧
      Clears line buf buf' ∧
        ∀ buf'', Clears line buf' buf'' → as.map (Arg.read line.length buf'') = ws := by
  induction h generalizing buf with
  | nil => exact ⟨buf, rfl, .refl _ _, fun _ _ => rfl⟩
  | @cons a w as ws ha _ ih =>
    obtain ⟨buf', hbuf', hclears, hread⟩ := ih (hbuf.trans ha.clears)
    refine ⟨buf', hbuf', ha.clears.trans hclears, ?_⟩
    intro buf'' h''
    have hall := (ha.clears.trans hclears).trans h''
    rw [List.map_cons, hread buf'' h'',
      ha.read hline (hbuf.trans hall) (h''.zero (hclears.zero (hbuf.cleared a.eq)))]

theorem nulterminate_spec {cmd : Cmd Argv Arg} {t : Tree} {buf : Text} (h : Denotes line cmd t)
    (hline : (0 : UInt8) ∉ line) (hbuf : Clears line (line ++ [0]) buf) :
    ∃ buf', nulterminate line.length cmd buf = .ok buf' ∧ Clears line buf buf' ∧
      ∀ buf'', Clears line buf' buf'' → cmd.read line.length buf'' = t := by
  induction h generalizing buf with
  | exec hargv =>
    obtain ⟨as, rfl, hlen, hall⟩ := hargv.args
    have hlt := hargv.lt
    obtain ⟨k, hk⟩ : ∃ k, MAXARGS - as.length = k + 1 := ⟨MAXARGS - (as.length + 1), by omega⟩
    rw [← hlen, hk]
    obtain ⟨buf', hbuf', hclears, hread⟩ := nulargs_spec hall hline hbuf (k := k)
    refine ⟨buf', hbuf', hclears, fun buf'' h'' => ?_⟩
    rw [← hread buf'' h'']
    simp [Cmd.read, Cmd.map, Argv.read, List.takeWhile_append_of_pos, List.filterMap_map,
      List.replicate_succ]
  | redir _ hr ih =>
    obtain ⟨buf', hbuf', hclears, hread⟩ := ih hbuf
    have hfile := hr.file
    refine ⟨Text.clear buf' line.length _, ?_, hclears.trans hfile.clears, fun buf'' h'' => ?_⟩
    · rw [nulterminate, hbuf']
      rfl
    · have hall := hclears.trans (hfile.clears.trans h'')
      have hstring := hfile.read hline (hbuf.trans hall)
        (h''.zero ((hbuf.trans hclears).cleared _))
      have hcmd := hread buf'' (hfile.clears.trans h'')
      rw [Cmd.read, Cmd.map, hr.mode, hr.fd]
      congr 1
  | pipe _ _ ihl ihr =>
    obtain ⟨buf₁, hbuf₁, hclears₁, hread₁⟩ := ihl hbuf
    obtain ⟨buf₂, hbuf₂, hclears₂, hread₂⟩ := ihr (hbuf.trans hclears₁)
    refine ⟨buf₂, ?_, hclears₁.trans hclears₂, fun buf'' h'' => ?_⟩
    · rw [nulterminate, hbuf₁]
      exact hbuf₂
    · exact congrArg₂ Cmd.pipe (hread₁ buf'' (hclears₂.trans h'')) (hread₂ buf'' h'')
  | list _ _ ihl ihr =>
    obtain ⟨buf₁, hbuf₁, hclears₁, hread₁⟩ := ihl hbuf
    obtain ⟨buf₂, hbuf₂, hclears₂, hread₂⟩ := ihr (hbuf.trans hclears₁)
    refine ⟨buf₂, ?_, hclears₁.trans hclears₂, fun buf'' h'' => ?_⟩
    · rw [nulterminate, hbuf₁]
      exact hbuf₂
    · exact congrArg₂ Cmd.list (hread₁ buf'' (hclears₂.trans h'')) (hread₂ buf'' h'')
  | back _ ih =>
    obtain ⟨buf', hbuf', hclears, hread⟩ := ih hbuf
    exact ⟨buf', hbuf', hclears, fun buf'' h'' => congrArg Cmd.back (hread buf'' h'')⟩

/-! ## The tokens of a command -/

namespace Cmd

/-- The words of all argument vectors, from left to right. -/
def words : Tree → List Text
  | exec ws => ws
  | redir t _ _ _ => words t
  | pipe t u => words t ++ words u
  | list t u => words t ++ words u
  | back t => words t

/-- The redirections from left to right; the outermost one comes last. -/
def redirs : Tree → List (Redir Text)
  | exec _ => []
  | redir t file mode fd => redirs t ++ [⟨file, mode, fd⟩]
  | pipe t u => redirs t ++ redirs u
  | list t u => redirs t ++ redirs u
  | back t => redirs t

def operators : Tree → List Sym
  | exec _ => []
  | redir t _ _ _ => operators t
  | pipe t u => operators t ++ .bar :: operators u
  | list t u => operators t ++ .semi :: operators u
  | back t => operators t ++ [.amp]

end Cmd

namespace Tok

/-- A symbol with a file name behind it. -/
def redirOp : Sym → Option RedirOp
  | .lt => some .lt
  | .gt => some .gt
  | .gtgt => some .gtgt
  | _ => none

/-- The words that are not file names. -/
def words : List Tok → List Text
  | [] => []
  | .word w :: ts => w :: words ts
  | .sym y :: .word w :: ts => if (redirOp y).isSome then words ts else w :: words ts
  | .sym _ :: ts => words ts

def redirs : List Tok → List (Redir Text)
  | .sym y :: .word w :: ts =>
    match redirOp y with
    | some op => ⟨w, op.mode, op.fd⟩ :: redirs ts
    | none => redirs ts
  | _ :: ts => redirs ts
  | [] => []

def operators (ts : List Tok) : List Sym :=
  ts.filterMap fun tok =>
    match tok with
    | .sym y => if y ∈ [.bar, .semi, .amp] then some y else none
    | .word _ => none

theorem words_sym {y : Sym} (hy : redirOp y = none) (ts : List Tok) :
    words (.sym y :: ts) = words ts := by
  cases ts with
  | nil => rfl
  | cons tok ts =>
    cases tok with
    | sym z => rfl
    | word w => simp [words, hy]

theorem redirs_sym {y : Sym} (hy : redirOp y = none) (ts : List Tok) :
    redirs (.sym y :: ts) = redirs ts := by
  cases ts with
  | nil => rfl
  | cons tok ts =>
    cases tok with
    | sym z => rfl
    | word w => simp [redirs, hy]

end Tok

/-- The tokens before `ts` are those of the command `t`. -/
structure Yields (tokens : List Tok) (t : Tree) (ts : List Tok) : Prop where
  words : Tok.words (tokens ++ ts) = Cmd.words t ++ Tok.words ts
  redirs : Tok.redirs (tokens ++ ts) = Cmd.redirs t ++ Tok.redirs ts
  operators : Tok.operators tokens = Cmd.operators t

section yields

variable (rs : List Redirect) (ts : List Tok)

theorem words_redirects : Tok.words (rs.flatMap Redirect.tokens ++ ts) = Tok.words ts := by
  induction rs with
  | nil => rfl
  | cons r rs ih =>
    obtain ⟨op, file⟩ := r
    cases op <;> exact ih

theorem redirs_redirects :
    Tok.redirs (rs.flatMap Redirect.tokens ++ ts) = rs.map Redirect.redir ++ Tok.redirs ts := by
  induction rs with
  | nil => rfl
  | cons r rs ih =>
    obtain ⟨op, file⟩ := r
    cases op <;> exact congrArg _ ih

theorem operators_redirects : Tok.operators (rs.flatMap Redirect.tokens) = [] := by
  induction rs with
  | nil => rfl
  | cons r rs ih =>
    obtain ⟨op, file⟩ := r
    cases op <;> exact ih

variable (ws : List Word)

theorem words_words :
    Tok.words (ws.flatMap Word.tokens ++ ts) = ws.map Word.text ++ Tok.words ts := by
  induction ws with
  | nil => rfl
  | cons w ws ih =>
    rw [List.flatMap_cons, List.append_assoc, Word.tokens, List.cons_append, Tok.words,
      words_redirects, ih]
    rfl

theorem redirs_words : Tok.redirs (ws.flatMap Word.tokens ++ ts) =
    (ws.flatMap Word.redirs).map Redirect.redir ++ Tok.redirs ts := by
  induction ws with
  | nil => rfl
  | cons w ws ih =>
    rw [List.flatMap_cons, List.append_assoc, Word.tokens, List.cons_append, Tok.redirs,
      redirs_redirects, ih, List.flatMap_cons, List.map_append, List.append_assoc]
    exact nofun

theorem operators_words : Tok.operators (ws.flatMap Word.tokens) = [] := by
  induction ws with
  | nil => rfl
  | cons w ws ih =>
    rw [List.flatMap_cons, Tok.operators, List.filterMap_append]
    exact List.append_eq_nil_iff.mpr ⟨operators_redirects w.redirs, ih⟩

variable (t : Tree)

theorem redircmds_yield (rs : List (Redir Text)) :
    Cmd.words (redircmds t rs) = Cmd.words t ∧
      Cmd.redirs (redircmds t rs) = Cmd.redirs t ++ rs ∧
        Cmd.operators (redircmds t rs) = Cmd.operators t := by
  induction rs generalizing t with
  | nil => exact ⟨rfl, (List.append_nil _).symm, rfl⟩
  | cons r rs ih =>
    obtain ⟨hw, hr, ho⟩ := ih (.redir t r.file r.mode r.fd)
    refine ⟨hw, hr.trans ?_, ho⟩
    rw [Cmd.redirs, List.append_assoc]
    rfl

theorem backs_yield (n : ℕ) :
    Cmd.words (Cmd.back^[n] t) = Cmd.words t ∧ Cmd.redirs (Cmd.back^[n] t) = Cmd.redirs t ∧
      Cmd.operators (Cmd.back^[n] t) = Cmd.operators t ++ List.replicate n .amp := by
  induction n with
  | zero => exact ⟨rfl, rfl, (List.append_nil _).symm⟩
  | succ n ih =>
    obtain ⟨hw, hr, ho⟩ := ih
    rw [Function.iterate_succ_apply']
    refine ⟨hw, hr, ?_⟩
    rw [Cmd.operators, ho, List.append_assoc, List.replicate_succ']

theorem words_amps (n : ℕ) :
    Tok.words (List.replicate n (.sym .amp) ++ ts) = Tok.words ts ∧
      Tok.redirs (List.replicate n (.sym .amp) ++ ts) = Tok.redirs ts ∧
        Tok.operators (List.replicate n (.sym .amp)) = List.replicate n .amp := by
  induction n with
  | zero => exact ⟨rfl, rfl, rfl⟩
  | succ n ih =>
    obtain ⟨hw, hr, ho⟩ := ih
    refine ⟨?_, ?_, ?_⟩
    · rw [List.replicate_succ, List.cons_append, Tok.words_sym rfl, hw]
    · rw [List.replicate_succ, List.cons_append, Tok.redirs_sym rfl, hr]
    · exact congrArg _ ho

end yields

theorem Yields.between {a b : List Tok} {t u v : Tree} {y : Sym}
    (ht : Yields a t (.sym y :: (b ++ ts))) (hu : Yields b u ts) (hy : y ∈ [.bar, .semi, .amp])
    (hw : Cmd.words v = Cmd.words t ++ Cmd.words u)
    (hr : Cmd.redirs v = Cmd.redirs t ++ Cmd.redirs u)
    (ho : Cmd.operators v = Cmd.operators t ++ y :: Cmd.operators u) :
    Yields (a ++ .sym y :: b) v ts := by
  have hnone : Tok.redirOp y = none := by
    cases y with
    | bar | semi | amp => rfl
    | _ => simp at hy
  refine ⟨?_, ?_, ?_⟩
  · rw [List.append_assoc, List.cons_append, ht.words, Tok.words_sym hnone, hu.words, hw,
      List.append_assoc]
  · rw [List.append_assoc, List.cons_append, ht.redirs, Tok.redirs_sym hnone, hu.redirs, hr,
      List.append_assoc]
  · have hsplit : Tok.operators (a ++ .sym y :: b) = Tok.operators a ++ y :: Tok.operators b := by
      have hcons : Tok.operators (.sym y :: b) = y :: Tok.operators b :=
        List.filterMap_cons_some (if_pos hy)
      rw [← hcons]
      exact List.filterMap_append
    rw [hsplit, ht.operators, hu.operators, ho]

theorem Pipe.yields_backs {p : Pipe} {n : ℕ} (hp : ∀ ts, Yields p.tokens p.tree ts)
    (ts : List Tok) :
    Yields (p.tokens ++ List.replicate n (.sym .amp)) (Cmd.back^[n] p.tree) ts := by
  obtain ⟨hw, hr, ho⟩ := backs_yield p.tree n
  obtain ⟨hw', hr', ho'⟩ := words_amps ts n
  have h := hp (List.replicate n (.sym .amp) ++ ts)
  refine ⟨?_, ?_, ?_⟩
  · rw [List.append_assoc, h.words, hw', hw]
  · rw [List.append_assoc, h.redirs, hr', hr]
  · have hsplit : Tok.operators (p.tokens ++ List.replicate n (.sym .amp)) =
        Tok.operators p.tokens ++ Tok.operators (List.replicate n (.sym .amp)) :=
      List.filterMap_append
    rw [hsplit, h.operators, ho', ho]

theorem Exec.yields_block {l : Line} {rs : List Redirect} (hl : ∀ ts, Yields l.tokens l.tree ts)
    (ts : List Tok) : Yields (Exec.block l rs).tokens (Exec.block l rs).tree ts := by
  obtain ⟨hw, hr, ho⟩ := redircmds_yield l.tree (rs.map Redirect.redir)
  have h := hl (.sym .rpar :: (rs.flatMap Redirect.tokens ++ ts))
  rw [Exec.tokens, Exec.tree]
  refine ⟨?_, ?_, ?_⟩
  · rw [List.cons_append, Tok.words_sym rfl, List.append_assoc, List.cons_append, h.words,
      Tok.words_sym rfl, words_redirects, hw]
  · rw [List.cons_append, Tok.redirs_sym rfl, List.append_assoc, List.cons_append, h.redirs,
      Tok.redirs_sym rfl, redirs_redirects, hr, List.append_assoc]
  · have hsplit : Tok.operators (.sym .lpar :: (l.tokens ++
        .sym .rpar :: rs.flatMap Redirect.tokens)) =
        Tok.operators l.tokens ++ Tok.operators (rs.flatMap Redirect.tokens) :=
      List.filterMap_append
    rw [hsplit, h.operators, operators_redirects, List.append_nil, ho]

theorem Exec.yields_simple {rs : List Redirect} {words : List Word} (hw : words.length < MAXARGS)
    (ts : List Tok) :
    Yields (Exec.simple rs words hw).tokens (Exec.simple rs words hw).tree ts := by
  obtain ⟨hw', hr, ho⟩ := redircmds_yield (.exec (words.map Word.text))
    ((rs ++ words.flatMap Word.redirs).map Redirect.redir)
  rw [Exec.tokens, Exec.tree]
  refine ⟨?_, ?_, ?_⟩
  · rw [List.append_assoc, words_redirects, words_words, hw']
    rfl
  · rw [List.append_assoc, redirs_redirects, redirs_words, hr, List.map_append,
      ← List.append_assoc]
    rfl
  · have hsplit : Tok.operators (rs.flatMap Redirect.tokens ++ words.flatMap Word.tokens) =
        Tok.operators (rs.flatMap Redirect.tokens) ++ Tok.operators (words.flatMap Word.tokens) :=
      List.filterMap_append
    rw [hsplit, operators_redirects, operators_words, ho]
    rfl

mutual

theorem Line.yields : (d : Line) → ∀ ts, Yields d.tokens d.tree ts
  | .last p _ => Pipe.yields_backs (Pipe.yields p)
  | .semi p _ rest => fun ts =>
    (Pipe.yields_backs (Pipe.yields p) _).between (Line.yields rest ts) (by decide) rfl rfl rfl

theorem Pipe.yields : (d : Pipe) → ∀ ts, Yields d.tokens d.tree ts
  | .last e => Exec.yields e
  | .bar e rest => fun ts =>
    (Exec.yields e _).between (Pipe.yields rest ts) (by decide) rfl rfl rfl

theorem Exec.yields : (d : Exec) → ∀ ts, Yields d.tokens d.tree ts
  | .block l _ => Exec.yields_block (Line.yields l)
  | .simple _ _ hw => Exec.yields_simple hw

end

/-! ## The shell accepts its grammar -/

theorem not_mem_cstring (s : Text) : (0 : UInt8) ∉ cstring s := by
  intro hmem
  have hne := List.mem_takeWhile_imp hmem
  simp at hne

theorem parsecmd_of_parseline {mem : Text} {cmd : Cmd Argv Arg} {t : Tree}
    (hparse : parseline (4 * (cstring mem).length + 4) (cstring mem) = .ok (cmd, s))
    (hparsed : Parsed (cstring mem) (cstring mem).length ts t (cmd, s)) :
    (ts = [] → ∃ buf, parsecmd mem = .ok (cmd, buf) ∧
      cmd.read (cstring mem).length buf = t) ∧
      (ts ≠ [] → parsecmd mem = .error (.panic "syntax")) := by
  have hskip : peek s [] = (false, skip s) := by
    rw [peek_eq hparsed.ahead.lexes (List.nil_subset _)]
    congr 1
    cases ts with
    | nil => rfl
    | cons tok ts => cases tok <;> rfl
  have hstarts := hparsed.ahead.lexes.starts
  dsimp only at hstarts
  constructor
  · rintro rfl
    obtain ⟨buf, hbuf, -, hread⟩ :=
      nulterminate_spec hparsed.denotes (not_mem_cstring mem) (Clears.refl _ _)
    refine ⟨buf, ?_, hread buf (Clears.refl _ _)⟩
    have hnil : skip s = [] := by
      generalize skip s = q at hstarts
      cases hstarts
      rfl
    simp only [parsecmd, hparse, bind, Except.bind, hskip, hnil, ne_eq, not_true_eq_false, if_false,
      hbuf]
    rfl
  · intro hts
    have hne : skip s ≠ [] := by
      intro hnil
      rw [hnil] at hstarts
      generalize hq : ([] : Text) = q at hstarts
      cases hstarts with
      | nil => exact hts rfl
      | @sym y _ _ _ _ =>
        obtain ⟨more, hmore⟩ := y.text_eq_cons
        rw [hmore] at hq
        cases hq
      | word => cases hq
    simp only [parsecmd, hparse, bind, Except.bind, hskip, ne_eq, hne, not_false_eq_true, if_true]

theorem parsecmd_complete {mem : Text} {d : Line} (hd : Lexes (cstring mem) d.tokens) :
    ∃ cmd buf, parsecmd mem = .ok (cmd, buf) ∧ cmd.read (cstring mem).length buf = d.tree := by
  rw [← List.append_nil d.tokens] at hd
  obtain ⟨⟨cmd, s⟩, hr, hparsed⟩ := Line.complete (cstring mem) d _ _ []
    ⟨hd, List.suffix_rfl⟩ (fun _ h => nomatch h) le_rfl
  exact ⟨cmd, (parsecmd_of_parseline hr hparsed).1 rfl⟩

theorem parsecmd_sound (mem : Text) :
    Ends SyntaxError (fun r => ∃ d : Line, Lexes (cstring mem) d.tokens ∧
      r.1.read (cstring mem).length r.2 = d.tree) (parsecmd mem) := by
  obtain ⟨ts, hts⟩ := lexes_total (cstring mem)
  have hends := (parse_sound (cstring mem) _).1 _ ts ⟨hts, List.suffix_rfl⟩ le_rfl
  cases hr : parseline (4 * (cstring mem).length + 4) (cstring mem) with
  | error stop =>
    have herr : parsecmd mem = .error stop := by simp only [parsecmd, hr, bind, Except.bind]
    rw [herr]
    exact hends.of_error hr
  | ok r =>
    obtain ⟨d, ts', rfl, hparsed⟩ := hends.of_ok hr
    obtain ⟨hnil, hne⟩ := parsecmd_of_parseline hr hparsed
    by_cases hts' : ts' = []
    · subst hts'
      obtain ⟨buf, hok, hread⟩ := hnil rfl
      rw [List.append_nil] at hts
      rw [hok]
      exact ⟨d, hts, hread⟩
    · rw [hne hts']
      exact List.mem_cons_self

/-- The parser returns a command exactly for the lines of the grammar, and the
command is that of the derivation; for all other lines it panics. -/
theorem parsecmd_accepts (mem : Text) :
    (∀ d : Line, Lexes (cstring mem) d.tokens →
      ∃ cmd buf, parsecmd mem = .ok (cmd, buf) ∧
        cmd.read (cstring mem).length buf = d.tree) ∧
    (∀ cmd buf, parsecmd mem = .ok (cmd, buf) →
      ∃ d : Line, Lexes (cstring mem) d.tokens ∧ cmd.read (cstring mem).length buf = d.tree ∧
        d.tree.words = Tok.words d.tokens ∧ d.tree.redirs = Tok.redirs d.tokens ∧
          d.tree.operators = Tok.operators d.tokens) ∧
    (∀ stop, parsecmd mem = .error stop →
      (∃ msg ∈ syntaxErrors, stop = .panic msg) ∧ ∀ d : Line, ¬ Lexes (cstring mem) d.tokens) := by
  refine ⟨fun d hd => parsecmd_complete hd, ?_, ?_⟩
  · intro cmd buf hok
    obtain ⟨d, hd, hread⟩ := (parsecmd_sound mem).of_ok hok
    have hy := d.yields []
    refine ⟨d, hd, hread, ?_, ?_, hy.operators.symm⟩
    · simpa [Tok.words] using hy.words.symm
    · simpa [Tok.redirs] using hy.redirs.symm
  · intro stop herr
    refine ⟨?_, ?_⟩
    · have hstop := (parsecmd_sound mem).of_error herr
      cases stop with
      | panic msg => exact ⟨msg, hstop, rfl⟩
      | wild => exact hstop.elim
      | fuel => exact hstop.elim
    · intro d hd
      obtain ⟨cmd, buf, hok, -⟩ := parsecmd_complete hd
      rw [hok] at herr
      cases herr

example : (parsecmd ("(ls; wc <f) >>g | x &".toList.map Char.toUInt8)).isOk = true := by
  decide +kernel

end Xv6.Sh
