import Xv6.Params
import Xv6.Sh.Accept

/-!
# Running a command

`runcmd` as the list of the system calls that a process makes, with the processes it
forks inside.  The answers of the system are given by the position in the tree at which
they are asked for.
-/

namespace Xv6.Sh

variable {t : Tree} {fd : ℕ}

/-! ## Descriptors -/

/-- What a descriptor is open on; a pipe is named after its place in the tree. -/
inductive Desc
  | file (name : Text) (mode : ℕ)
  | pipe (place : List Bool) (writes : Bool)
  | other (k : ℕ)
  deriving DecidableEq

abbrev Fds := ℕ → Option Desc

namespace Fds

def close (fds : Fds) (fd : ℕ) : Fds := Function.update fds fd none

/-- The lowest descriptor that is free, as `fdalloc` finds it. -/
def free (fds : Fds) : Option ℕ := (List.range NOFILE).find? fun fd => (fds fd).isNone

def alloc (fds : Fds) (d : Desc) : Option (ℕ × Fds) :=
  fds.free.map fun fd => (fd, Function.update fds fd (some d))

def dup (fds : Fds) (fd : ℕ) : Fds :=
  match fds fd with
  | none => fds
  | some d => ((fds.alloc d).map Prod.snd).getD fds

end Fds

/-! ## `runcmd` -/

/-- The answers of the system: whether `open`, `exec`, `pipe` and `fork` succeed. -/
structure System where
  opens : Text → ℕ → Bool
  execs : List Text → Bool
  pipes : List Bool → Bool
  forks : List Bool → Bool → Bool

/-- What a process does. -/
inductive Act
  | close (fd : ℕ)
  | open (file : Text) (mode fd : ℕ)
  | pipe (p₀ p₁ : ℕ)
  | dup (fd : ℕ)
  /-- The child, and what it does. -/
  | fork (acts : List Act)
  | wait
  /-- The program is replaced, if `exec` succeeds, with these descriptors open. -/
  | exec (argv : List Text) (fds : Fds)
  | print (msg : String) (arg : Text)
  | exit (status : ℕ)

def panicked (msg : String) : List Act := [.print (msg ++ "\n") [], .exit 1]

variable (sys : System)

/-- `fork1`, with what the child and the parent do. -/
def fork1 (place : List Bool) (second : Bool) (child parent : List Act) : List Act :=
  if sys.forks place second then .fork child :: parent else panicked "fork"

def openFile (fds : Fds) (file : Text) (mode : ℕ) : Option (ℕ × Fds) :=
  if sys.opens file mode then fds.alloc (.file file mode) else none

def pipeFds (place : List Bool) (fds : Fds) : Option (ℕ × ℕ × Fds) :=
  if sys.pipes place then do
    let (p₀, fds) ← fds.alloc (.pipe place false)
    let (p₁, fds) ← fds.alloc (.pipe place true)
    return (p₀, p₁, fds)
  else none

def runcmd (place : List Bool) : Tree → Fds → List Act
  | .exec [], _ => [.exit 1]
  | .exec (arg :: argv), fds =>
    .exec (arg :: argv) fds ::
      if sys.execs (arg :: argv) then [] else [.print "exec %s failed\n" arg, .exit 0]
  | .redir cmd file mode fd, fds =>
    .close fd ::
      match openFile sys (fds.close fd) file mode with
      | none => [.print "open %s failed\n" file, .exit 1]
      | some (new, fds) => .open file mode new :: runcmd place cmd fds
  | .list left right, fds =>
    fork1 sys place false (runcmd (place ++ [false]) left fds)
      (.wait :: runcmd (place ++ [true]) right fds)
  | .pipe left right, fds =>
    match pipeFds sys place fds with
    | none => panicked "pipe"
    | some (p₀, p₁, fds) =>
      let leftFds := ((((fds.close 1).dup p₁).close p₀).close p₁)
      let rightFds := ((((fds.close 0).dup p₀).close p₀).close p₁)
      .pipe p₀ p₁ :: fork1 sys place false
        ([.close 1, .dup p₁, .close p₀, .close p₁] ++ runcmd (place ++ [false]) left leftFds)
        (fork1 sys place true
          ([.close 0, .dup p₀, .close p₀, .close p₁] ++ runcmd (place ++ [true]) right rightFds)
          [.close p₀, .close p₁, .wait, .wait, .exit 0])
  | .back cmd, fds => fork1 sys place false (runcmd place cmd fds) [.exit 0]

/-! ## Redirections -/

/-- The shell keeps its standard input and output open. -/
def Standard (fds : Fds) : Prop := fds 0 ≠ none ∧ fds 1 ≠ none

/-- The descriptors after the redirections `rs`, the last of them made first. -/
def redirect (fds : Fds) (rs : List Redirect) : Fds :=
  rs.foldr (fun r fds => Function.update fds r.op.fd (some (.file r.file r.op.mode))) fds

theorem RedirOp.fd_cases (op : RedirOp) : op.fd = 0 ∨ op.fd = 1 := by
  cases op with
  | lt => exact .inl rfl
  | gt | gtgt => exact .inr rfl

theorem Standard.free {fds : Fds} (h : Standard fds) (op : RedirOp) :
    (fds.close op.fd).free = some op.fd := by
  obtain ⟨h₀, h₁⟩ := h
  rcases op.fd_cases with hfd | hfd
  · rw [hfd, Fds.free, NOFILE, List.range_succ_eq_map, List.find?_cons_of_pos]
    simp [Fds.close]
  · rw [hfd, Fds.free, NOFILE, List.range_succ_eq_map, List.find?_cons_of_neg,
      List.range_succ_eq_map, List.map_cons, List.find?_cons_of_pos]
    · simp [Fds.close]
    · simpa [Fds.close, Option.isNone_iff_eq_none] using h₀

theorem Standard.update {fds : Fds} (h : Standard fds) (fd : ℕ) (d : Desc) :
    Standard (Function.update fds fd (some d)) := by
  constructor
  · by_cases hfd : 0 = fd
    · subst hfd
      simp
    · rw [Function.update_of_ne hfd]
      exact h.1
  · by_cases hfd : 1 = fd
    · subst hfd
      simp
    · rw [Function.update_of_ne hfd]
      exact h.2

theorem Standard.openFile {fds : Fds} (h : Standard fds) (r : Redirect)
    (hopen : sys.opens r.file r.op.mode = true) :
    openFile sys (fds.close r.op.fd) r.file r.op.mode =
      some (r.op.fd, Function.update fds r.op.fd (some (.file r.file r.op.mode))) := by
  rw [Sh.openFile, if_pos hopen, Fds.alloc, h.free, Option.map_some, Fds.close,
    Function.update_idem]

def Redirect.acts (r : Redirect) : List Act := [.close r.op.fd, .open r.file r.op.mode r.op.fd]

/-- The redirections around a command are made from the last one to the first. -/
theorem runcmd_redircmds (place : List Bool) {rs : List Redirect} {fds : Fds} (h : Standard fds)
    (hopens : ∀ r ∈ rs, sys.opens r.file r.op.mode = true) :
    runcmd sys place (redircmds t (rs.map Redirect.redir)) fds =
      rs.reverse.flatMap Redirect.acts ++ runcmd sys place t (redirect fds rs) := by
  -- `rs` is taken apart at its end: the last redirection is the outermost command
  induction rs using List.reverseRecOn generalizing fds with
  | nil => rfl
  | append_singleton rs r ih =>
    have hr : sys.opens r.file r.op.mode = true := hopens r (by simp)
    have hrest := ih (h.update r.op.fd (.file r.file r.op.mode)) fun r' hr' =>
      hopens r' (List.mem_append_left _ hr')
    have hwrap : redircmds t ((rs ++ [r]).map Redirect.redir) =
        .redir (redircmds t (rs.map Redirect.redir)) r.file r.op.mode r.op.fd := by
      rw [redircmds, List.map_append, List.foldl_append]
      rfl
    have hlast : redirect fds (rs ++ [r]) =
        redirect (Function.update fds r.op.fd (some (.file r.file r.op.mode))) rs := by
      rw [redirect, List.foldr_append]
      rfl
    rw [hwrap, hlast, runcmd, h.openFile sys r hr, List.reverse_append, List.flatMap_append,
      List.append_assoc, ← hrest]
    rfl

/-- Each descriptor is open on the file of its first redirection. -/
theorem redirect_apply (fds : Fds) (rs : List Redirect) (fd : ℕ) : redirect fds rs fd =
    match rs.find? fun r => r.op.fd = fd with
    | some r => some (.file r.file r.op.mode)
    | none => fds fd := by
  induction rs with
  | nil => rfl
  | cons r rs ih =>
    rw [redirect, List.foldr_cons, List.find?_cons]
    by_cases hfd : r.op.fd = fd
    · simp [hfd]
    · simp only [hfd, decide_false]
      rw [Function.update_of_ne (Ne.symm hfd)]
      exact ih

namespace Exec

/-- The redirections of a command in the order in which they are written. -/
def redirs : Exec → List Redirect
  | .block _ rs => rs
  | .simple rs words _ => rs ++ words.flatMap Word.redirs

/-- The command without its redirections. -/
def inner : Exec → Tree
  | .block l _ => l.tree
  | .simple _ words _ => .exec (words.map Word.text)

theorem tree_eq (e : Exec) : e.tree = redircmds e.inner (e.redirs.map Redirect.redir) := by
  cases e with
  | block l rs => rfl
  | simple rs words hw => rfl

end Exec

theorem parsecmd_exec {e : Exec} {mem : Text} (h : Lexes (cstring mem) e.tokens) :
    ∃ cmd buf, parsecmd mem = .ok (cmd, buf) ∧ cmd.read (cstring mem).length buf = e.tree := by
  have htokens : (Line.last (.last e) 0).tokens = e.tokens := by
    rw [Line.tokens, Pipe.tokens]
    exact List.append_nil _
  rw [← htokens] at h
  exact parsecmd_complete h

/-- The files that a process opens itself. -/
def opened (acts : List Act) : List Text :=
  acts.filterMap fun act =>
    match act with
    | .open file _ _ => some file
    | _ => none

theorem opened_acts (rs : List Redirect) :
    opened (rs.flatMap Redirect.acts) = rs.map Redirect.file := by
  induction rs with
  | nil => rfl
  | cons r rs ih => exact congrArg _ ih

/-- The redirection of `fd` that is written first. -/
def firstOf (rs : List Redirect) (fd : ℕ) : Option Redirect := rs.find? fun r => r.op.fd = fd

/-- The redirection of `fd` that is written last. -/
def lastOf (rs : List Redirect) (fd : ℕ) : Option Redirect := rs.reverse.find? fun r => r.op.fd = fd

/-- Redirections that take effect from left to right: `acts` opens the files in the order in which
they are written, and each descriptor that is redirected is open on the file of its last
redirection. -/
def LeftToRight (rs : List Redirect) (acts : List Act) (fds : Fds) : Prop :=
  opened acts = rs.map Redirect.file ∧
    ∀ fd, ∀ r ∈ lastOf rs fd, ∃ mode, fds fd = some (.file r.file mode)

/-- Redirections for which the order makes no difference: the files read the same backwards, and
the first redirection of a descriptor is to the same file as the last one. -/
def Symmetric (rs : List Redirect) : Prop :=
  (rs.map Redirect.file).reverse = rs.map Redirect.file ∧
    ∀ fd, (firstOf rs fd).map Redirect.file = (lastOf rs fd).map Redirect.file

theorem isSome_firstOf (rs : List Redirect) (fd : ℕ) :
    (firstOf rs fd).isSome = (lastOf rs fd).isSome := by
  rw [Bool.eq_iff_iff, firstOf, lastOf, List.find?_isSome, List.find?_isSome]
  simp

theorem leftToRight_iff (fds : Fds) (rs : List Redirect) :
    LeftToRight rs (rs.reverse.flatMap Redirect.acts) (redirect fds rs) ↔ Symmetric rs := by
  rw [LeftToRight, Symmetric, opened_acts, List.map_reverse]
  refine and_congr_right' (forall_congr' fun fd => ?_)
  have hsome := isSome_firstOf rs fd
  have happly := redirect_apply fds rs fd
  change redirect fds rs fd = match firstOf rs fd with
    | some r => some (.file r.file r.op.mode)
    | none => fds fd at happly
  rw [happly]
  cases hfirst : firstOf rs fd with
  | none =>
    have hlast : lastOf rs fd = none := by simpa [hfirst] using hsome.symm
    simp [hlast]
  | some r =>
    obtain ⟨r', hlast⟩ := Option.isSome_iff_exists.mp (hsome.symm.trans (by rw [hfirst]; rfl))
    simp [hlast]

/-- The redirections of a command take effect from left to right exactly if their order makes no
difference: they are made from the last one to the first. -/
theorem redirections_in_order (e : Exec) (mem : Text) (hlex : Lexes (cstring mem) e.tokens)
    (fds : Fds) (hstd : Standard fds)
    (hopens : ∀ r ∈ e.redirs, sys.opens r.file r.op.mode = true) :
    ∃ cmd buf, parsecmd mem = .ok (cmd, buf) ∧
      runcmd sys [] (cmd.read (cstring mem).length buf) fds =
        e.redirs.reverse.flatMap Redirect.acts ++
          runcmd sys [] e.inner (redirect fds e.redirs) ∧
      (LeftToRight e.redirs (e.redirs.reverse.flatMap Redirect.acts) (redirect fds e.redirs) ↔
        Symmetric e.redirs) := by
  obtain ⟨cmd, buf, hok, hread⟩ := parsecmd_exec hlex
  refine ⟨cmd, buf, hok, ?_, leftToRight_iff fds e.redirs⟩
  rw [hread, e.tree_eq, runcmd_redircmds sys [] hstd hopens]

/-! ## Two redirections -/

section twoRedirections

def echo : Text := [101, 99, 104, 111]

def fileX : Text := [120]

def fileY : Text := [121]

def calm : System := ⟨fun _ _ => true, fun _ => true, fun _ => true, fun _ _ => true⟩

def console : Fds := fun fd => if fd < 3 then some (.other 0) else none

theorem console_standard : Standard console := by
  constructor <;> decide

def sameRedirects : Exec := .simple [] [⟨echo, [⟨.gt, fileX⟩, ⟨.gt, fileX⟩]⟩] (by decide)

def twoRedirects : Exec := .simple [] [⟨echo, [⟨.gt, fileX⟩, ⟨.gt, fileY⟩]⟩] (by decide)

def sameLine : Text := echo ++ [32, 62] ++ fileX ++ [32, 62] ++ fileX

def twoLine : Text := echo ++ [32, 62] ++ fileX ++ [32, 62] ++ fileY

theorem lexes_echo {s : Text} {ts : List Tok} (h : Lexes s ts) (hs : ∀ ch ∈ s.head?, ¬ IsWord ch) :
    Lexes (echo ++ s) (.word echo :: ts) :=
  .word (by decide) (by decide +kernel) hs h

theorem lexes_gt {w s : Text} {ts : List Tok} (hw : w ≠ []) (hword : ∀ ch ∈ w, IsWord ch)
    (hs : ∀ ch ∈ s.head?, ¬ IsWord ch) (h : Lexes s ts) :
    Lexes ([32, 62] ++ (w ++ s)) (.sym .gt :: .word w :: ts) := by
  refine .space (by decide) (Lexes.sym (y := .gt) (fun _ => ?_) (.word hw hword hs h))
  cases w with
  | nil => exact absurd rfl hw
  | cons ch w =>
    intro hch
    have hgt : IsWord '>'.toUInt8 := Option.some.inj hch ▸ hword ch List.mem_cons_self
    exact absurd hgt (by decide)

theorem lexes_two {w w' : Text} (hw : w ≠ [] ∧ ∀ ch ∈ w, IsWord ch)
    (hw' : w' ≠ [] ∧ ∀ ch ∈ w', IsWord ch) : Lexes (echo ++ [32, 62] ++ w ++ [32, 62] ++ w')
      [.word echo, .sym .gt, .word w, .sym .gt, .word w'] := by
  have hspace : ∀ s : Text, ∀ ch ∈ ([32, 62] ++ s).head?, ¬ IsWord ch := by
    intro s ch hch
    obtain rfl := Option.some.inj hch
    decide
  have hlast := lexes_gt hw'.1 hw'.2 (by simp) Lexes.nil
  rw [List.append_nil] at hlast
  have hfirst := lexes_gt hw.1 hw.2 (hspace w') hlast
  simpa [List.append_assoc] using lexes_echo hfirst (hspace _)

theorem redirections_in_order_same : ∃ cmd buf, parsecmd sameLine = .ok (cmd, buf) ∧
    runcmd calm [] (cmd.read (cstring sameLine).length buf) console =
      sameRedirects.redirs.reverse.flatMap Redirect.acts ++
        runcmd calm [] sameRedirects.inner (redirect console sameRedirects.redirs) ∧
    LeftToRight sameRedirects.redirs (sameRedirects.redirs.reverse.flatMap Redirect.acts)
      (redirect console sameRedirects.redirs) := by
  have hlex : Lexes (cstring sameLine) sameRedirects.tokens :=
    lexes_two (w := fileX) (by decide +kernel) (by decide +kernel)
  obtain ⟨cmd, buf, hok, hrun, hiff⟩ :=
    redirections_in_order calm sameRedirects sameLine hlex console
    console_standard (fun _ _ => rfl)
  exact ⟨cmd, buf, hok, hrun, hiff.mpr ⟨rfl, fun _ => rfl⟩⟩

/-- Of `echo >x >y` the file `y` is opened before `x`, and `echo` writes to `x`. -/
theorem redirections_reversed : ∃ cmd buf acts fds', parsecmd twoLine = .ok (cmd, buf) ∧
    runcmd calm [] (cmd.read (cstring twoLine).length buf) console =
      acts ++ runcmd calm [] (.exec [echo]) fds' ∧ opened acts = [fileY, fileX] ∧
      fds' 1 = some (.file fileX (O_WRONLY ||| O_CREATE ||| O_TRUNC)) := by
  have hlex : Lexes (cstring twoLine) twoRedirects.tokens :=
    lexes_two (w := fileX) (by decide +kernel) (by decide +kernel)
  obtain ⟨cmd, buf, hok, hread⟩ := parsecmd_exec hlex
  refine ⟨cmd, buf, twoRedirects.redirs.reverse.flatMap Redirect.acts,
    redirect console twoRedirects.redirs, hok, ?_, rfl, rfl⟩
  rw [hread, twoRedirects.tree_eq, runcmd_redircmds calm [] console_standard fun _ _ => rfl]
  rfl

end twoRedirections

end Xv6.Sh
