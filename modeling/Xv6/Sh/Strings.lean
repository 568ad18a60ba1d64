import Xv6.Sh.Accept

/-!
# The strings of a command

All strings of a command are parts of one line, which `nulterminate` cuts into pieces.
Each of them ends up as the word that `gettoken` found, and it does not matter in which
order the terminators are written.
-/

namespace Xv6.Sh

open Lib

variable {line s : Text} {ts : List Tok} {cmd : Cmd Argv Arg} {t : Tree} {a : Arg} {w buf : Text}

/-- The counted strings in a command, in the order in which `nulterminate` reaches them. -/
def Cmd.args : Cmd Argv Arg → List Arg
  | .exec argv => (argv.takeWhile Option.isSome).filterMap id
  | .redir cmd file _ _ => cmd.args ++ [file]
  | .pipe left right => left.args ++ right.args
  | .list left right => left.args ++ right.args
  | .back cmd => cmd.args

/-- The strings in a tree, in the same order. -/
def Cmd.strings : Tree → List Text
  | .exec ws => ws
  | .redir t file _ _ => t.strings ++ [file]
  | .pipe t u => t.strings ++ u.strings
  | .list t u => t.strings ++ u.strings
  | .back t => t.strings

/-- Write the terminators of `as` into the line. -/
def clearAll (n : ℕ) (buf : Text) (as : List Arg) : Text :=
  as.foldl (fun buf a => Text.clear buf n a.eq) buf

theorem clearAll_append (n : ℕ) (buf : Text) (as bs : List Arg) :
    clearAll n buf (as ++ bs) = clearAll n (clearAll n buf as) bs := List.foldl_append

/-! ## The terminators -/

theorem nulargs_eq (n k : ℕ) (as : List Arg) (buf : Text) :
    nulargs n (as.map some ++ List.replicate (k + 1) none) buf = .ok (clearAll n buf as) := by
  induction as generalizing buf with
  | nil => rfl
  | cons a as ih => exact ih _

theorem Filled.args_eq {argv : Argv} {argc : ℕ} {ws : List Text} (h : Filled line argv argc ws) :
    ∃ as k, argv = as.map some ++ List.replicate (k + 1) none ∧ Cmd.args (.exec argv) = as ∧
      List.Forall₂ (fun a w => Spells line a.q a.eq w) as ws := by
  obtain ⟨as, rfl, hlen, hall⟩ := h.args
  have hlt := h.lt
  obtain ⟨k, hk⟩ : ∃ k, MAXARGS - argc = k + 1 := ⟨MAXARGS - (argc + 1), by omega⟩
  refine ⟨as, k, by rw [hk], ?_, hall⟩
  simp [Cmd.args, hk, List.takeWhile_append_of_pos, List.filterMap_map, List.replicate_succ]

/-- `nulterminate` writes the terminators of all strings and does nothing else. -/
theorem nulterminate_eq (n : ℕ) (h : Denotes line cmd t) (buf : Text) :
    nulterminate n cmd buf = .ok (clearAll n buf cmd.args) := by
  induction h generalizing buf with
  | exec hargv =>
    obtain ⟨as, k, hargv, hargs, -⟩ := hargv.args_eq
    rw [nulterminate, hargs, hargv, nulargs_eq]
  | redir _ _ ih =>
    rw [nulterminate, ih, Cmd.args, clearAll_append]
    rfl
  | pipe _ _ ihl ihr | list _ _ ihl ihr =>
    rw [nulterminate, ihl, Cmd.args, clearAll_append]
    exact ihr _
  | back _ ih => exact ih buf

theorem exists_of_forall₂ {as : List Arg} {ws : List Text}
    (h : List.Forall₂ (fun a w => Spells line a.q a.eq w) as ws) (ha : a ∈ as) :
    ∃ w ∈ ws, Spells line a.q a.eq w := by
  induction h with
  | nil => cases ha
  | cons hw _ ih =>
    rcases List.mem_cons.mp ha with rfl | ha
    · exact ⟨_, List.mem_cons_self, hw⟩
    · obtain ⟨w, hmem, hsp⟩ := ih ha
      exact ⟨w, List.mem_cons_of_mem _ hmem, hsp⟩

theorem Denotes.args (h : Denotes line cmd t) :
    List.Forall₂ (fun a w => Spells line a.q a.eq w) cmd.args t.strings := by
  induction h with
  | exec hargv =>
    obtain ⟨as, k, -, hargs, hall⟩ := hargv.args_eq
    rwa [hargs]
  | redir _ hr ih => exact List.rel_append ih (.cons hr.file .nil)
  | pipe _ _ ihl ihr | list _ _ ihl ihr => exact List.rel_append ihl ihr
  | back _ ih => exact ih

theorem clearAll_perm {as bs : List Arg} (h : as.Perm bs) (n : ℕ) (buf : Text) :
    clearAll n buf as = clearAll n buf bs := by
  refine h.foldl_eq' (fun a _ b _ buf => ?_) buf
  by_cases heq : n - a.eq.length = n - b.eq.length
  · rw [Text.clear, Text.clear, Text.clear, Text.clear, heq]
  · exact List.set_comm _ _ heq

theorem clears_clearAll {as : List Arg} (h : ∀ a ∈ as, ∃ w, Spells line a.q a.eq w) (buf : Text) :
    Clears line buf (clearAll line.length buf as) := by
  induction as generalizing buf with
  | nil => exact .refl _ _
  | cons a as ih =>
    rw [List.forall_mem_cons] at h
    obtain ⟨⟨w, hw⟩, h⟩ := h
    exact hw.clears.trans (ih h _)

theorem clearAll_zero {as : List Arg} (h : ∀ a ∈ as, ∃ w, Spells line a.q a.eq w)
    (hbuf : Clears line (line ++ [0]) buf) (ha : a ∈ as) :
    (clearAll line.length buf as)[line.length - a.eq.length]? = some 0 := by
  induction as generalizing buf with
  | nil => cases ha
  | cons b as ih =>
    rw [List.forall_mem_cons] at h
    obtain ⟨⟨w, hw⟩, h⟩ := h
    rcases List.mem_cons.mp ha with rfl | ha
    · exact (clears_clearAll h _).zero (hbuf.cleared a.eq)
    · exact ih h (hbuf.trans hw.clears) ha

/-- Each string, read once all terminators have been written. -/
theorem read_clearAll {as : List Arg} (h : ∀ a ∈ as, ∃ w, Spells line a.q a.eq w)
    (hline : (0 : UInt8) ∉ line) (ha : a ∈ as) (hw : Spells line a.q a.eq w) :
    a.read line.length (clearAll line.length (line ++ [0]) as) = w :=
  hw.read hline (clears_clearAll h _) (clearAll_zero h (.refl _ _) ha)

/-! ## The tokens -/

theorem Lexes.ne_nil (h : Lexes s ts) (hw : .word w ∈ ts) : w ≠ [] := by
  induction h with
  | nil => cases hw
  | space _ _ ih => exact ih hw
  | sym _ _ ih => exact ih (by simpa using hw)
  | word hne _ _ _ ih =>
    rcases List.mem_cons.mp hw with heq | hw
    · exact Tok.word.inj heq ▸ hne
    · exact ih hw

theorem Tok.mem_of_words (h : w ∈ Tok.words ts) : .word w ∈ ts := by
  fun_induction Tok.words ts with
  | case1 => cases h
  | case2 w' ts ih =>
    rcases List.mem_cons.mp h with rfl | h
    · exact List.mem_cons_self
    · exact List.mem_cons_of_mem _ (ih h)
  | case3 y w' ts hy ih => exact List.mem_cons_of_mem _ (List.mem_cons_of_mem _ (ih h))
  | case4 y w' ts hy ih =>
    refine List.mem_cons_of_mem _ ?_
    rcases List.mem_cons.mp h with rfl | h
    · exact List.mem_cons_self
    · exact List.mem_cons_of_mem _ (ih h)
  | case5 y ts hts ih => exact List.mem_cons_of_mem _ (ih h)

theorem Tok.mem_of_redirs {r : Redir Text} (h : r ∈ Tok.redirs ts) : .word r.file ∈ ts := by
  fun_induction Tok.redirs ts with
  | case1 y w' ts op hy ih =>
    refine List.mem_cons_of_mem _ ?_
    rcases List.mem_cons.mp h with rfl | h
    · exact List.mem_cons_self
    · exact List.mem_cons_of_mem _ (ih h)
  | case2 y w' ts hy ih => exact List.mem_cons_of_mem _ (List.mem_cons_of_mem _ (ih h))
  | case3 tok ts hts ih => exact List.mem_cons_of_mem _ (ih h)
  | case4 => cases h

theorem Cmd.mem_strings (h : w ∈ t.strings) : w ∈ t.words ∨ ∃ r ∈ t.redirs, r.file = w := by
  induction t with
  | exec ws => exact .inl h
  | redir t file mode fd ih =>
    rcases List.mem_append.mp h with h | h
    · refine (ih h).imp_right ?_
      rintro ⟨r, hr, rfl⟩
      exact ⟨r, List.mem_append_left _ hr, rfl⟩
    · exact .inr ⟨_, List.mem_append_right _ List.mem_cons_self, (List.mem_singleton.mp h).symm⟩
  | pipe t u iht ihu | list t u iht ihu =>
    simp only [Cmd.words, Cmd.redirs, List.mem_append]
    rcases List.mem_append.mp h with h | h
    · rcases iht h with hw | ⟨r, hr, rfl⟩
      · exact .inl (.inl hw)
      · exact .inr ⟨r, .inl hr, rfl⟩
    · rcases ihu h with hw | ⟨r, hr, rfl⟩
      · exact .inl (.inr hw)
      · exact .inr ⟨r, .inr hr, rfl⟩
  | back t ih => exact ih h

theorem Line.mem_tokens (d : Line) (h : w ∈ d.tree.strings) : .word w ∈ d.tokens := by
  have hy := d.yields []
  have hwords : Tok.words d.tokens = d.tree.words := by simpa [Tok.words] using hy.words
  have hredirs : Tok.redirs d.tokens = d.tree.redirs := by simpa [Tok.redirs] using hy.redirs
  rcases Cmd.mem_strings h with hw | ⟨r, hr, rfl⟩
  · exact Tok.mem_of_words (hwords ▸ hw)
  · exact Tok.mem_of_redirs (hredirs ▸ hr)

/-- The pointers of a string are those that `gettoken` returns for the word. -/
theorem Spells.gettoken_eq {q eq : Text} (h : Spells line q eq w) (hw : w ≠ []) :
    gettoken q = ⟨'a'.toUInt8, q, eq, skip eq⟩ := by
  cases w with
  | nil => exact absurd rfl hw
  | cons ch w =>
    have hq : q = ch :: (w ++ eq) := h.text
    have hskip : skip q = q := by
      rw [hq]
      exact skip_of_not_mem (h.isWord ch List.mem_cons_self).1
    rw [gettoken, hskip, hq, scan_word h.isWord h.stop]

/-! ## The strings survive -/

theorem parsecmd_denotes {mem : Text} (hok : parsecmd mem = .ok (cmd, buf)) :
    ∃ d : Line, Lexes (cstring mem) d.tokens ∧ Denotes (cstring mem) cmd d.tree ∧
      buf = clearAll (cstring mem).length (cstring mem ++ [0]) cmd.args := by
  obtain ⟨ts, hts⟩ := lexes_total (cstring mem)
  have hends := (parse_sound (cstring mem) _).1 _ ts ⟨hts, List.suffix_rfl⟩ le_rfl
  cases hr : parseline (4 * (cstring mem).length + 4) (cstring mem) with
  | error stop => simp [parsecmd, hr, bind, Except.bind] at hok
  | ok r =>
    obtain ⟨d, ts', rfl, hparsed⟩ := hends.of_ok hr
    obtain ⟨hnil, hne⟩ := parsecmd_of_parseline hr hparsed
    have hts' : ts' = [] := by
      by_contra hne'
      rw [hne hne'] at hok
      cases hok
    subst hts'
    rw [List.append_nil] at hts
    have hnul := nulterminate_eq (cstring mem).length hparsed.denotes (cstring mem ++ [0])
    simp only [parsecmd, hr, bind, Except.bind, hnul] at hok
    split_ifs at hok
    obtain ⟨rfl, rfl⟩ := Prod.mk.inj (Except.ok.inj hok)
    exact ⟨d, hts, hparsed.denotes, rfl⟩

/-- Every string of an accepted command, read from the line with its terminators, is the
word of the line that `gettoken` found there; any order of writing the terminators gives
the same line. -/
theorem strings_survive (mem : Text) (cmd : Cmd Argv Arg) (buf : Text)
    (hok : parsecmd mem = .ok (cmd, buf)) :
    (∃ ts, Lexes (cstring mem) ts ∧ ∀ a ∈ cmd.args, ∃ w, .word w ∈ ts ∧ a.q <:+ cstring mem ∧
      gettoken a.q = ⟨'a'.toUInt8, a.q, a.eq, skip a.eq⟩ ∧ a.q = w ++ a.eq ∧
        a.read (cstring mem).length buf = w) ∧
    ∀ order : List Arg, order.Perm cmd.args →
      clearAll (cstring mem).length (cstring mem ++ [0]) order = buf := by
  obtain ⟨d, hd, hdenotes, rfl⟩ := parsecmd_denotes hok
  have hargs : ∀ a ∈ cmd.args, ∃ w ∈ d.tree.strings, Spells (cstring mem) a.q a.eq w :=
    fun a ha => exists_of_forall₂ hdenotes.args ha
  refine ⟨⟨d.tokens, hd, fun a ha => ?_⟩, fun order h => clearAll_perm h _ _⟩
  obtain ⟨w, hw, hsp⟩ := hargs a ha
  have hmem := d.mem_tokens hw
  refine ⟨w, hmem, hsp.suffix, hsp.gettoken_eq (hd.ne_nil hmem), hsp.text, ?_⟩
  exact read_clearAll (fun a ha => (hargs a ha).imp fun _ h => h.2) (not_mem_cstring mem) ha hsp

def lsLine : Text := "ls <in >out".toList.map Char.toUInt8

theorem strings_survive_ls : ∃ cmd buf, parsecmd lsLine = .ok (cmd, buf) ∧ cmd.args.length = 3 ∧
    ∀ order : List Arg, order.Perm cmd.args →
      clearAll (cstring lsLine).length (cstring lsLine ++ [0]) order = buf := by
  have hrun : (parsecmd lsLine).toOption.any (fun r => decide (r.1.args.length = 3)) = true := by
    decide +kernel
  cases hok : parsecmd lsLine with
  | error stop =>
    rw [hok] at hrun
    cases hrun
  | ok r =>
    rw [hok] at hrun
    exact ⟨r.1, r.2, rfl, of_decide_eq_true hrun, (strings_survive lsLine r.1 r.2 hok).2⟩

end Xv6.Sh
