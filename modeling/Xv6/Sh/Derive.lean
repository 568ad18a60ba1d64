import Xv6.Sh.Grammar

/-!
# The parser and the grammar

What each function of the parser returns is the command of a derivation of the
tokens it has read, and each of them returns for every derivation whose tokens
are ahead.
-/

namespace Xv6.Sh

open Lib

variable {line s : Text} {ts : List Tok}

/-! ## Arguments -/

theorem words_not_redir {words : List Word} (hts : Follows closers ts) :
    ¬ StartsRedir (words.flatMap Word.tokens ++ ts) := by
  cases words with
  | nil => exact hts.not_redir
  | cons w words =>
    rintro ⟨op, hop⟩
    cases hop

theorem parseargs_complete {fuel argc : ℕ} {argv : Argv} {ws : List Text} {rs : List (Redir Arg)}
    {rs₀ : List Redirect} {words : List Word}
    (h : Ahead line s (words.flatMap Word.tokens ++ ts)) (hts : Follows closers ts)
    (hargv : Filled line argv argc ws) (hrs : List.Forall₂ (RedirSpells line) rs rs₀)
    (hargc : argc + words.length < MAXARGS) (hfuel : s.length < fuel) :
    ∃ r, parseargs fuel argv argc rs s = .ok r ∧
      Parsed line s.length ts (redircmds (.exec (ws ++ words.map Word.text))
        ((rs₀ ++ words.flatMap Word.redirs).map Redirect.redir)) r := by
  induction fuel generalizing s argv argc ws rs rs₀ words with
  | zero => exact absurd hfuel (Nat.not_lt_zero _)
  | succ fuel ih =>
    rw [parseargs]
    have hlen := length_skip s
    cases words with
    | nil =>
      have hdone : Denotes line (redircmds (.exec argv) rs)
          (redircmds (.exec (ws ++ [])) ((rs₀ ++ []).map Redirect.redir)) := by
        rw [List.append_nil, List.append_nil]
        exact (Denotes.exec hargv).redircmds hrs
      cases ts with
      | nil =>
        obtain ⟨hret, hnil⟩ := h.skip.nil
        simp only [h.nil_goes_on, Bool.false_eq_true, if_false, hret, if_true, hnil,
          hargv.finish]
        exact ⟨_, rfl, hdone, .empty, Nat.zero_le _⟩
      | cons tok ts =>
        simp only [h.closes hts (List.cons_ne_nil _ _), if_true, hargv.finish]
        exact ⟨_, rfl, hdone, h.skip, hlen⟩
    | cons word words =>
      rw [List.flatMap_cons, List.append_assoc] at h
      obtain ⟨hret, hsp, hnext, hlt⟩ := h.skip.word
      obtain ⟨argv', hstore, hfilled⟩ := hargv.store (a := ⟨_, _⟩) hsp
      rw [List.length_cons] at hargc
      have hnz : 'a'.toUInt8 ≠ 0 := by decide
      simp only [h.word_goes_on, Bool.false_eq_true, if_false, hret, if_neg hnz, ne_eq,
        not_true_eq_false, hstore]
      have hlt' : argc + 1 < MAXARGS := by omega
      obtain ⟨⟨rs', s'⟩, hr, hred⟩ := parseredirs_complete hnext (words_not_redir hts) hrs
        (Nat.lt_succ_self _)
      have hle : s'.length ≤ _ := hred.length
      obtain ⟨r, hr', hparsed⟩ := ih (s := s') hred.ahead (hfilled hlt') hred.redirs
        (by omega) (by omega)
      have hle' := hparsed.length
      refine ⟨r, ?_, ?_, hparsed.ahead, by omega⟩
      · simp only [bind, Except.bind, if_neg (Nat.not_le.mpr hlt'), hr]
        exact hr'
      · have hd := hparsed.denotes
        rw [List.append_assoc, List.append_assoc] at hd
        exact hd

theorem parseargs_sound {fuel argc : ℕ} {argv : Argv} {ws : List Text} {rs : List (Redir Arg)}
    {rs₀ : List Redirect} (h : Ahead line s ts) (hargv : Filled line argv argc ws)
    (hrs : List.Forall₂ (RedirSpells line) rs rs₀) (hfuel : s.length < fuel) :
    Ends SyntaxError (fun r => ∃ (words : List Word) (ts' : List Tok),
      ts = words.flatMap Word.tokens ++ ts' ∧ argc + words.length < MAXARGS ∧
        Parsed line s.length ts' (redircmds (.exec (ws ++ words.map Word.text))
          ((rs₀ ++ words.flatMap Word.redirs).map Redirect.redir)) r)
      (parseargs fuel argv argc rs s) := by
  induction fuel generalizing s ts argv argc ws rs rs₀ with
  | zero => exact absurd hfuel (Nat.not_lt_zero _)
  | succ fuel ih =>
    rw [parseargs]
    have hlen := length_skip s
    have hdone : Denotes line (redircmds (.exec argv) rs)
        (redircmds (.exec (ws ++ [])) ((rs₀ ++ []).map Redirect.redir)) := by
      rw [List.append_nil, List.append_nil]
      exact (Denotes.exec hargv).redircmds hrs
    cases ts with
    | nil =>
      obtain ⟨hret, hnil⟩ := h.skip.nil
      simp only [h.nil_goes_on, Bool.false_eq_true, if_false, hret, if_true, hnil,
        hargv.finish]
      exact ⟨[], [], rfl, hargv.lt, hdone, .empty, Nat.zero_le _⟩
    | cons tok ts =>
      cases tok with
      | sym y =>
        by_cases hy : y ∈ closers
        · simp only [h.closes (Follows.cons hy) (List.cons_ne_nil _ _), if_true,
            hargv.finish]
          exact ⟨[], _, rfl, hargv.lt, hdone, h.skip, hlen⟩
        · obtain ⟨hret, -, -⟩ := h.skip.sym
          simp only [h.sym_goes_on hy, Bool.false_eq_true, if_false, hret,
            if_neg y.code_ne.2, ne_eq, y.code_ne.1, not_false_eq_true, if_true]
          exact List.mem_cons_self
      | word w =>
        obtain ⟨hret, hsp, hnext, hlt⟩ := h.skip.word
        obtain ⟨argv', hstore, hfilled⟩ := hargv.store (a := ⟨_, _⟩) hsp
        have hnz : 'a'.toUInt8 ≠ 0 := by decide
        simp only [h.word_goes_on, Bool.false_eq_true, if_false, hret, if_neg hnz, ne_eq,
          not_true_eq_false, hstore, bind, Except.bind]
        by_cases hmax : MAXARGS ≤ argc + 1
        · rw [if_pos hmax]
          exact List.mem_of_mem_getLast? rfl
        rw [if_neg hmax]
        apply (parseredirs_sound hnext hrs (Nat.lt_succ_self _)).bind
        rintro ⟨rs', s'⟩ ⟨items, ts', rfl, hred⟩
        have hle : s'.length ≤ _ := hred.length
        apply (ih (s := s') hred.ahead (hfilled (by omega)) hred.redirs (by omega)).imp
        rintro r ⟨words, ts'', rfl, hargc, hparsed⟩
        have hle' := hparsed.length
        refine ⟨⟨w, items⟩ :: words, ts'', ?_, ?_, ?_, hparsed.ahead, by omega⟩
        · rw [List.flatMap_cons, List.append_assoc]
          rfl
        · rw [List.length_cons]
          omega
        · have hd := hparsed.denotes
          rw [List.append_assoc, List.append_assoc] at hd
          exact hd

/-! ## Soundness -/

/-- What a parsing function returns with enough fuel is the command of a
derivation of the tokens it has read. -/
def Sound (line : Text) {δ : Type} (tokens : δ → List Tok) (tree : δ → Tree) (c : ℕ)
    (parse : ℕ → Text → Parse (Cmd Argv Arg × Text)) (fuel : ℕ) : Prop :=
  ∀ s ts, Ahead line s ts → 4 * s.length + c ≤ fuel →
    Ends SyntaxError (fun r => ∃ d ts', ts = tokens d ++ ts' ∧ Parsed line s.length ts' (tree d) r)
      (parse fuel s)

theorem parseblock_sound {fuel : ℕ} (hline : Sound line Line.tokens Line.tree 4 parseline fuel)
    (h : Ahead line s (.sym .lpar :: ts)) (hfuel : 4 * s.length + 1 ≤ fuel + 1) :
    Ends SyntaxError (fun r => ∃ d ts', .sym .lpar :: ts = Exec.tokens d ++ ts' ∧
      Parsed line s.length ts' d.tree r) (parseblock (fuel + 1) s) := by
  rw [parseblock]
  obtain ⟨hpeek, hnext, hlt⟩ := h.accept (p := ['('].map Char.toUInt8) rfl
  simp only [hpeek, if_true]
  apply (hline _ _ hnext (by omega)).bind
  rintro ⟨cmd, s₁⟩ ⟨l, ts₁, rfl, hl⟩
  have hle : s₁.length ≤ _ := hl.length
  have h₁ : Ahead line s₁ ts₁ := hl.ahead
  by_cases hts : ts₁.head? = some (.sym .rpar)
  · obtain ⟨ts₁, rfl⟩ : ∃ ts', ts₁ = .sym .rpar :: ts' := ⟨_, List.eq_cons_of_mem_head? hts⟩
    obtain ⟨hpeek, hnext, hlt'⟩ := h₁.accept (p := [')'].map Char.toUInt8) rfl
    simp only [hpeek, if_true]
    apply (parseredirs_sound hnext .nil (Nat.lt_succ_self _)).bind
    rintro ⟨rs, s₂⟩ ⟨items, ts₂, rfl, hred⟩
    have hle' : s₂.length ≤ _ := hred.length
    refine ⟨.block l items, ts₂, ?_, hl.denotes.redircmds hred.redirs, hred.ahead, ?_⟩
    · rw [Exec.tokens, List.cons_append, List.append_assoc]
      rfl
    · dsimp only
      omega
  · simp only [h₁.refuse (y := .rpar) (p := [')'].map Char.toUInt8) rfl hts, Bool.false_eq_true,
      if_false]
    exact List.mem_cons_of_mem _ (List.mem_cons_of_mem _ List.mem_cons_self)

theorem parseexec_sound {fuel : ℕ}
    (hline : Sound line Line.tokens Line.tree 4 parseline (fuel - 1)) :
    Sound line Exec.tokens Exec.tree 2 parseexec (fuel + 1) := by
  intro s ts h hfuel
  rw [parseexec]
  have hlen := length_skip s
  by_cases hts : ts.head? = some (.sym .lpar)
  · obtain ⟨ts, rfl⟩ : ∃ ts', ts = .sym .lpar :: ts' := ⟨_, List.eq_cons_of_mem_head? hts⟩
    obtain ⟨hpeek, -, -⟩ := h.accept (p := ['('].map Char.toUInt8) rfl
    simp only [hpeek, if_true]
    obtain ⟨f, rfl⟩ : ∃ f, fuel = f + 1 := ⟨fuel - 1, by omega⟩
    apply (parseblock_sound hline h.skip (by omega)).imp
    rintro r ⟨d, ts', heq, hd⟩
    exact ⟨d, ts', heq, hd.denotes, hd.ahead, hd.length.trans hlen⟩
  · simp only [h.refuse (y := .lpar) (p := ['('].map Char.toUInt8) rfl hts, Bool.false_eq_true,
      if_false]
    apply (parseredirs_sound h.skip .nil (Nat.lt_succ_self _)).bind
    rintro ⟨rs, s₁⟩ ⟨items, ts₁, rfl, hred⟩
    have hle : s₁.length ≤ _ := hred.length
    have h₁ : Ahead line s₁ ts₁ := hred.ahead
    apply (parseargs_sound h₁ Filled.empty hred.redirs (Nat.lt_succ_self _)).imp
    rintro r ⟨words, ts₂, rfl, hargc, hparsed⟩
    refine ⟨.simple items words (by omega), ts₂, ?_, hparsed.denotes, hparsed.ahead, ?_⟩
    · rw [Exec.tokens, List.append_assoc]
    · exact hparsed.length.trans (hle.trans hlen)

theorem parsepipe_sound {fuel : ℕ} (hexec : Sound line Exec.tokens Exec.tree 2 parseexec fuel)
    (hpipe : Sound line Pipe.tokens Pipe.tree 3 parsepipe fuel) :
    Sound line Pipe.tokens Pipe.tree 3 parsepipe (fuel + 1) := by
  intro s ts h hfuel
  rw [parsepipe]
  apply (hexec s ts h (by omega)).bind
  rintro ⟨cmd, s₁⟩ ⟨e, ts₁, rfl, he⟩
  have hle : s₁.length ≤ _ := he.length
  have h₁ : Ahead line s₁ ts₁ := he.ahead
  by_cases hts : ts₁.head? = some (.sym .bar)
  · obtain ⟨ts₁, rfl⟩ : ∃ ts', ts₁ = .sym .bar :: ts' := ⟨_, List.eq_cons_of_mem_head? hts⟩
    obtain ⟨hpeek, hnext, hlt⟩ := h₁.accept (p := ['|'].map Char.toUInt8) rfl
    simp only [hpeek, if_true]
    apply (hpipe _ _ hnext (by omega)).bind
    rintro ⟨right, s₂⟩ ⟨rest, ts₂, rfl, hrest⟩
    have hle' : s₂.length ≤ _ := hrest.length
    refine ⟨.bar e rest, ts₂, ?_, he.denotes.pipe hrest.denotes, hrest.ahead, ?_⟩
    · rw [Pipe.tokens, List.append_assoc]
      rfl
    · dsimp only
      omega
  · simp only [h₁.refuse (y := .bar) (p := ['|'].map Char.toUInt8) rfl hts, Bool.false_eq_true,
      if_false]
    exact ⟨.last e, ts₁, rfl, he.denotes, h₁.skip, (length_skip s₁).trans hle⟩

theorem parseline_sound {fuel : ℕ} (hpipe : Sound line Pipe.tokens Pipe.tree 3 parsepipe fuel)
    (hline : Sound line Line.tokens Line.tree 4 parseline fuel) :
    Sound line Line.tokens Line.tree 4 parseline (fuel + 1) := by
  intro s ts h hfuel
  rw [parseline]
  apply (hpipe s ts h (by omega)).bind
  rintro ⟨cmd, s₁⟩ ⟨p, ts₁, rfl, hp⟩
  have hle : s₁.length ≤ _ := hp.length
  apply (parsebacks_sound hp.ahead hp.denotes (Nat.lt_succ_self _)).bind
  rintro ⟨cmd, s₂⟩ ⟨n, ts₂, rfl, hback⟩
  have hle' : s₂.length ≤ s₁.length := hback.length
  have h₂ : Ahead line s₂ ts₂ := hback.ahead
  by_cases hts : ts₂.head? = some (.sym .semi)
  · obtain ⟨ts₂, rfl⟩ : ∃ ts', ts₂ = .sym .semi :: ts' := ⟨_, List.eq_cons_of_mem_head? hts⟩
    obtain ⟨hpeek, hnext, hlt⟩ := h₂.accept (p := [';'].map Char.toUInt8) rfl
    simp only [hpeek, if_true]
    apply (hline _ _ hnext (by omega)).bind
    rintro ⟨right, s₃⟩ ⟨rest, ts₃, rfl, hrest⟩
    have hle'' : s₃.length ≤ _ := hrest.length
    refine ⟨.semi p n rest, ts₃, ?_, hback.denotes.list hrest.denotes, hrest.ahead, ?_⟩
    · simp only [Line.tokens, List.append_assoc, List.cons_append]
    · dsimp only
      omega
  · simp only [h₂.refuse (y := .semi) (p := [';'].map Char.toUInt8) rfl hts, Bool.false_eq_true,
      if_false]
    refine ⟨.last p n, ts₂, ?_, hback.denotes, h₂.skip, ?_⟩
    · rw [Line.tokens, List.append_assoc]
    · exact (length_skip s₂).trans (hle'.trans hle)

theorem parse_sound (line : Text) (fuel : ℕ) :
    Sound line Line.tokens Line.tree 4 parseline fuel ∧
      Sound line Pipe.tokens Pipe.tree 3 parsepipe fuel ∧
        Sound line Exec.tokens Exec.tree 2 parseexec fuel := by
  induction fuel using Nat.strong_induction_on with
  | _ fuel ih =>
    cases fuel with
    | zero =>
      refine ⟨?_, ?_, ?_⟩ <;> intro s ts _ hfuel <;> omega
    | succ fuel =>
      obtain ⟨hline, hpipe, hexec⟩ := ih fuel (Nat.lt_succ_self _)
      have hline' := (ih (fuel - 1) (by omega)).1
      exact ⟨parseline_sound hpipe hline, parsepipe_sound hexec hpipe, parseexec_sound hline'⟩

/-! ## Completeness -/

/-- With enough fuel a parsing function reads exactly the tokens of a derivation,
if they are followed by one of `ys`. -/
def Complete (line : Text) (tokens : List Tok) (tree : Tree) (ys : List Sym) (c : ℕ)
    (parse : ℕ → Text → Parse (Cmd Argv Arg × Text)) : Prop :=
  ∀ fuel s ts, Ahead line s (tokens ++ ts) → Follows ys ts → 4 * s.length + c ≤ fuel →
    ∃ r, parse fuel s = .ok r ∧ Parsed line s.length ts tree r

/-- The first token of a plain command, or what follows it, is no parenthesis. -/
theorem simple_head_ne {rs : List Redirect} {words : List Word} (hts : Follows closers ts) :
    (rs.flatMap Redirect.tokens ++ words.flatMap Word.tokens ++ ts).head? ≠ some (.sym .lpar) := by
  cases rs with
  | nil =>
    cases words with
    | nil => exact hts.head_ne (by decide)
    | cons w words => exact fun heq => nomatch heq
  | cons r rs =>
    intro heq
    have hsym : r.op.sym = .lpar := Tok.sym.inj (Option.some.inj heq)
    cases hop : r.op <;> rw [hop] at hsym <;> cases hsym

theorem Exec.complete_block {l : Line} {rs : List Redirect}
    (hl : Complete line l.tokens l.tree [.rpar] 4 parseline) :
    Complete line (Exec.block l rs).tokens (Exec.block l rs).tree closers 2 parseexec := by
  intro fuel s ts h hts hfuel
  have hlen := length_skip s
  obtain ⟨f, rfl⟩ : ∃ f, fuel = f + 2 := ⟨fuel - 2, by omega⟩
  rw [Exec.tokens, List.cons_append, List.append_assoc, List.cons_append] at h
  obtain ⟨hpeek, -, -⟩ := h.accept (p := ['('].map Char.toUInt8) rfl
  obtain ⟨hpeek', hnext, hlt⟩ := h.skip.accept (p := ['('].map Char.toUInt8) rfl
  obtain ⟨⟨cmd, s₁⟩, hr, hparsed⟩ := hl f _ _ hnext (Follows.cons List.mem_cons_self) (by omega)
  have hle : s₁.length ≤ _ := hparsed.length
  have h₁ : Ahead line s₁ _ := hparsed.ahead
  obtain ⟨hpeek₁, hnext₁, hlt₁⟩ := h₁.accept (p := [')'].map Char.toUInt8) rfl
  obtain ⟨⟨rs', s₂⟩, hr₂, hred⟩ :=
    parseredirs_complete hnext₁ hts.not_redir .nil (Nat.lt_succ_self _)
  have hle₂ : s₂.length ≤ _ := hred.length
  refine ⟨(redircmds cmd rs', s₂), ?_, hparsed.denotes.redircmds hred.redirs, hred.ahead, ?_⟩
  · simp only [parseexec, parseblock, hpeek, hpeek', if_true, hr, bind, Except.bind, hpeek₁, hr₂]
    rfl
  · dsimp only
    omega

theorem Exec.complete_simple {rs : List Redirect} {words : List Word}
    (hw : words.length < MAXARGS) :
    Complete line (Exec.simple rs words hw).tokens (Exec.simple rs words hw).tree closers 2
      parseexec := by
  intro fuel s ts h hts hfuel
  have hlen := length_skip s
  obtain ⟨f, rfl⟩ : ∃ f, fuel = f + 1 := ⟨fuel - 1, by omega⟩
  rw [Exec.tokens] at h
  have hpeek := h.refuse (y := .lpar) (p := ['('].map Char.toUInt8) rfl (simple_head_ne hts)
  rw [List.append_assoc] at h
  obtain ⟨⟨rs', s₁⟩, hr, hred⟩ :=
    parseredirs_complete h.skip (words_not_redir hts) .nil (Nat.lt_succ_self _)
  have hle : s₁.length ≤ _ := hred.length
  have h₁ : Ahead line s₁ _ := hred.ahead
  obtain ⟨r, hr', hparsed⟩ :=
    parseargs_complete h₁ hts Filled.empty hred.redirs (by omega) (Nat.lt_succ_self _)
  refine ⟨r, ?_, hparsed.denotes, hparsed.ahead, hparsed.length.trans (hle.trans hlen)⟩
  simp only [parseexec, hpeek, Bool.false_eq_true, if_false, hr, bind, Except.bind, hr']

theorem Pipe.complete_last {e : Exec} (he : Complete line e.tokens e.tree closers 2 parseexec) :
    Complete line (Pipe.last e).tokens (Pipe.last e).tree [.rpar, .amp, .semi] 3 parsepipe := by
  intro fuel s ts h hts hfuel
  obtain ⟨f, rfl⟩ : ∃ f, fuel = f + 1 := ⟨fuel - 1, by omega⟩
  obtain ⟨⟨cmd, s₁⟩, hr, hparsed⟩ := he f s ts h (hts.mono (by decide)) (by omega)
  have h₁ : Ahead line s₁ ts := hparsed.ahead
  have hpeek := h₁.refuse (y := .bar) (p := ['|'].map Char.toUInt8) rfl (hts.head_ne (by decide))
  refine ⟨(cmd, skip s₁), ?_, hparsed.denotes, h₁.skip, (length_skip s₁).trans hparsed.length⟩
  simp only [parsepipe, hr, bind, Except.bind, hpeek, Bool.false_eq_true, if_false]
  rfl

theorem Pipe.complete_bar {e : Exec} {rest : Pipe}
    (he : Complete line e.tokens e.tree closers 2 parseexec)
    (hrest : Complete line rest.tokens rest.tree [.rpar, .amp, .semi] 3 parsepipe) :
    Complete line (Pipe.bar e rest).tokens (Pipe.bar e rest).tree [.rpar, .amp, .semi] 3
      parsepipe := by
  intro fuel s ts h hts hfuel
  obtain ⟨f, rfl⟩ : ∃ f, fuel = f + 1 := ⟨fuel - 1, by omega⟩
  rw [Pipe.tokens, List.append_assoc, List.cons_append] at h
  obtain ⟨⟨cmd, s₁⟩, hr, hparsed⟩ := he f s _ h (Follows.cons (by decide)) (by omega)
  have hle : s₁.length ≤ _ := hparsed.length
  have h₁ : Ahead line s₁ _ := hparsed.ahead
  obtain ⟨hpeek, hnext, hlt⟩ := h₁.accept (p := ['|'].map Char.toUInt8) rfl
  obtain ⟨⟨right, s₂⟩, hr₂, hparsed₂⟩ := hrest f _ ts hnext hts (by omega)
  have hle₂ : s₂.length ≤ _ := hparsed₂.length
  refine ⟨(.pipe cmd right, s₂), ?_, hparsed.denotes.pipe hparsed₂.denotes, hparsed₂.ahead, ?_⟩
  · simp only [parsepipe, hr, bind, Except.bind, hpeek, if_true, hr₂]
    rfl
  · dsimp only
    omega

theorem Pipe.complete_backs {p : Pipe} {n fuel : ℕ}
    (hp : Complete line p.tokens p.tree [.rpar, .amp, .semi] 3 parsepipe)
    (h : Ahead line s (p.tokens ++ (List.replicate n (.sym .amp) ++ ts)))
    (hts : Follows [.rpar, .semi] ts) (hfuel : 4 * s.length + 3 ≤ fuel) :
    ∃ cmd s₁ r, parsepipe fuel s = .ok (cmd, s₁) ∧ parsebacks (s₁.length + 1) cmd s₁ = .ok r ∧
      Parsed line s.length ts (Cmd.back^[n] p.tree) r := by
  have hfollow : Follows [.rpar, .amp, .semi] (List.replicate n (.sym .amp) ++ ts) := by
    cases n with
    | zero => exact hts.mono (by decide)
    | succ n => exact Follows.cons (by decide)
  obtain ⟨⟨cmd, s₁⟩, hr, hparsed⟩ := hp fuel s _ h hfollow hfuel
  obtain ⟨r, hr₁, hparsed₁⟩ := parsebacks_complete hparsed.ahead (hts.head_ne (by decide))
    hparsed.denotes (Nat.lt_succ_self _)
  exact ⟨cmd, s₁, r, hr, hr₁, hparsed₁.denotes, hparsed₁.ahead,
    hparsed₁.length.trans hparsed.length⟩

theorem Line.complete_last {p : Pipe} {n : ℕ}
    (hp : Complete line p.tokens p.tree [.rpar, .amp, .semi] 3 parsepipe) :
    Complete line (Line.last p n).tokens (Line.last p n).tree [.rpar] 4 parseline := by
  intro fuel s ts h hts hfuel
  obtain ⟨f, rfl⟩ : ∃ f, fuel = f + 1 := ⟨fuel - 1, by omega⟩
  rw [Line.tokens, List.append_assoc] at h
  obtain ⟨cmd, s₁, ⟨cmd', s₂⟩, hr, hr₁, hparsed⟩ :=
    Pipe.complete_backs hp h (hts.mono (by decide)) (by omega : 4 * s.length + 3 ≤ f)
  have h₂ : Ahead line s₂ ts := hparsed.ahead
  have hpeek := h₂.refuse (y := .semi) (p := [';'].map Char.toUInt8) rfl (hts.head_ne (by decide))
  refine ⟨(cmd', skip s₂), ?_, hparsed.denotes, h₂.skip, (length_skip s₂).trans hparsed.length⟩
  simp only [parseline, hr, hr₁, bind, Except.bind, hpeek, Bool.false_eq_true, if_false]
  rfl

theorem Line.complete_semi {p : Pipe} {n : ℕ} {rest : Line}
    (hp : Complete line p.tokens p.tree [.rpar, .amp, .semi] 3 parsepipe)
    (hrest : Complete line rest.tokens rest.tree [.rpar] 4 parseline) :
    Complete line (Line.semi p n rest).tokens (Line.semi p n rest).tree [.rpar] 4 parseline := by
  intro fuel s ts h hts hfuel
  obtain ⟨f, rfl⟩ : ∃ f, fuel = f + 1 := ⟨fuel - 1, by omega⟩
  rw [Line.tokens, List.append_assoc, List.append_assoc, List.cons_append] at h
  obtain ⟨cmd, s₁, ⟨cmd', s₂⟩, hr, hr₁, hparsed⟩ :=
    Pipe.complete_backs hp h (Follows.cons (by decide)) (by omega : 4 * s.length + 3 ≤ f)
  have hle : s₂.length ≤ _ := hparsed.length
  have h₂ : Ahead line s₂ _ := hparsed.ahead
  obtain ⟨hpeek, hnext, hlt⟩ := h₂.accept (p := [';'].map Char.toUInt8) rfl
  obtain ⟨⟨right, s₃⟩, hr₃, hparsed₃⟩ := hrest f _ ts hnext hts (by omega)
  have hle₃ : s₃.length ≤ _ := hparsed₃.length
  refine ⟨(.list cmd' right, s₃), ?_, hparsed.denotes.list hparsed₃.denotes, hparsed₃.ahead, ?_⟩
  · simp only [parseline, hr, hr₁, bind, Except.bind, hpeek, if_true, hr₃]
    rfl
  · dsimp only
    omega

mutual

theorem Line.complete (line : Text) :
    (d : Line) → Complete line d.tokens d.tree [.rpar] 4 parseline
  | .last p _ => Line.complete_last (Pipe.complete line p)
  | .semi p _ rest => Line.complete_semi (Pipe.complete line p) (Line.complete line rest)

theorem Pipe.complete (line : Text) :
    (d : Pipe) → Complete line d.tokens d.tree [.rpar, .amp, .semi] 3 parsepipe
  | .last e => Pipe.complete_last (Exec.complete line e)
  | .bar e rest => Pipe.complete_bar (Exec.complete line e) (Pipe.complete line rest)

theorem Exec.complete (line : Text) :
    (d : Exec) → Complete line d.tokens d.tree closers 2 parseexec
  | .block l _ => Exec.complete_block (Line.complete line l)
  | .simple _ _ hw => Exec.complete_simple hw

end

end Xv6.Sh
