import Xv6.Sh.Lex

/-!
# The parser of the shell

`parsecmd` and the functions it calls, each with the pointer that it moves as
an argument and a result.  `fuel` bounds the loops and the depth of the
recursion.
-/

namespace Xv6.Sh

def MAXARGS : ℕ := 10

def O_RDONLY : ℕ := 0x000

def O_WRONLY : ℕ := 0x001

def O_CREATE : ℕ := 0x200

def O_TRUNC : ℕ := 0x400

/-- Commands, over what stands for an argument vector and for a file name. -/
inductive Cmd (α β : Type)
  | exec (argv : α)
  | redir (cmd : Cmd α β) (file : β) (mode fd : ℕ)
  | pipe (left right : Cmd α β)
  | list (left right : Cmd α β)
  | back (cmd : Cmd α β)

/-- The start and the end of a counted string: `argv[i]` and `eargv[i]`, or
`file` and `efile`. -/
structure Arg where
  q : Text
  eq : Text

/-- `argv` and `eargv`, which are null at the same places. -/
abbrev Argv := List (Option Arg)

/-- A redirection without the command inside it. -/
structure Redir (β : Type) where
  file : β
  mode : ℕ
  fd : ℕ

/-- How a call ends that does not return. -/
inductive Stop
  | panic (msg : String)
  /-- An element of `argv` behind its end is read or written. -/
  | wild
  | fuel

abbrev Parse := Except Stop

/-- A command with redirections around it, the last one outermost. -/
def redircmds {α β : Type} (cmd : Cmd α β) (rs : List (Redir β)) : Cmd α β :=
  rs.foldl (fun cmd r => .redir cmd r.file r.mode r.fd) cmd

def redirmode (tok : UInt8) : Option (ℕ × ℕ) :=
  if tok = '<'.toUInt8 then some (O_RDONLY, 0)
  else if tok = '>'.toUInt8 then some (O_WRONLY ||| O_CREATE ||| O_TRUNC, 1)
  else if tok = '+'.toUInt8 then some (O_WRONLY ||| O_CREATE, 1)
  else none

/-- `parseredirs`; `rs` are the redirections around the command so far.  They
are kept apart from the command, which `parseexec` goes on to fill in after
it has been wrapped. -/
def parseredirs : ℕ → List (Redir Arg) → Text → Parse (List (Redir Arg) × Text)
  | 0, _, _ => .error .fuel
  | fuel + 1, rs, s =>
    let (more, s) := peek s (['<', '>'].map Char.toUInt8)
    if more then
      let tok := gettoken s
      let file := gettoken tok.s
      if file.ret ≠ 'a'.toUInt8 then .error (.panic "missing file for redirection")
      else
        match redirmode tok.ret with
        | some (mode, fd) => parseredirs fuel (rs ++ [⟨⟨file.q, file.eq⟩, mode, fd⟩]) file.s
        | none => parseredirs fuel rs file.s
    else .ok (rs, s)

def store (argv : Argv) (i : ℕ) (arg : Option Arg) : Parse Argv :=
  if i < argv.length then .ok (argv.set i arg) else .error .wild

def finish (argv : Argv) (argc : ℕ) (rs : List (Redir Arg)) (s : Text) :
    Parse (Cmd Argv Arg × Text) := do
  let argv ← store argv argc none
  return (redircmds (.exec argv) rs, s)

def parseargs : ℕ → Argv → ℕ → List (Redir Arg) → Text → Parse (Cmd Argv Arg × Text)
  | 0, _, _, _, _ => .error .fuel
  | fuel + 1, argv, argc, rs, s =>
    let (stop, s) := peek s (['|', ')', '&', ';'].map Char.toUInt8)
    if stop then finish argv argc rs s
    else
      let tok := gettoken s
      if tok.ret = 0 then finish argv argc rs tok.s
      else if tok.ret ≠ 'a'.toUInt8 then .error (.panic "syntax")
      else do
        let argv ← store argv argc (some ⟨tok.q, tok.eq⟩)
        if MAXARGS ≤ argc + 1 then .error (.panic "too many args")
        else do
          let (rs, s) ← parseredirs (tok.s.length + 1) rs tok.s
          parseargs fuel argv (argc + 1) rs s

def parsebacks : ℕ → Cmd Argv Arg → Text → Parse (Cmd Argv Arg × Text)
  | 0, _, _ => .error .fuel
  | fuel + 1, cmd, s =>
    let (more, s) := peek s (['&'].map Char.toUInt8)
    if more then parsebacks fuel (.back cmd) (gettoken s).s else .ok (cmd, s)

mutual

def parseline : ℕ → Text → Parse (Cmd Argv Arg × Text)
  | 0, _ => .error .fuel
  | fuel + 1, s => do
    let (cmd, s) ← parsepipe fuel s
    let (cmd, s) ← parsebacks (s.length + 1) cmd s
    let (more, s) := peek s ([';'].map Char.toUInt8)
    if more then do
      let (right, s) ← parseline fuel (gettoken s).s
      return (.list cmd right, s)
    else return (cmd, s)

def parsepipe : ℕ → Text → Parse (Cmd Argv Arg × Text)
  | 0, _ => .error .fuel
  | fuel + 1, s => do
    let (cmd, s) ← parseexec fuel s
    let (more, s) := peek s (['|'].map Char.toUInt8)
    if more then do
      let (right, s) ← parsepipe fuel (gettoken s).s
      return (.pipe cmd right, s)
    else return (cmd, s)

def parseexec : ℕ → Text → Parse (Cmd Argv Arg × Text)
  | 0, _ => .error .fuel
  | fuel + 1, s =>
    let (block, s) := peek s (['('].map Char.toUInt8)
    if block then parseblock fuel s
    else do
      let (rs, s) ← parseredirs (s.length + 1) [] s
      parseargs (s.length + 1) (List.replicate MAXARGS none) 0 rs s

def parseblock : ℕ → Text → Parse (Cmd Argv Arg × Text)
  | 0, _ => .error .fuel
  | fuel + 1, s =>
    let (block, s) := peek s (['('].map Char.toUInt8)
    if block then do
      let (cmd, s) ← parseline fuel (gettoken s).s
      let (close, s) := peek s ([')'].map Char.toUInt8)
      if close then do
        let s := (gettoken s).s
        let (rs, s) ← parseredirs (s.length + 1) [] s
        return (redircmds cmd rs, s)
      else .error (.panic "syntax - missing )")
    else .error (.panic "parseblock")

end

/-! ## The strings in the line -/

/-- `*p = 0`, where `p` points into a line of `n` characters. -/
def Text.clear (buf : Text) (n : ℕ) (p : Text) : Text := buf.set (n - p.length) 0

/-- The loop of `nulterminate` over `argv`. -/
def nulargs (n : ℕ) : Argv → Text → Parse Text
  | [], _ => .error .wild
  | none :: _, buf => .ok buf
  | some arg :: argv, buf => nulargs n argv (Text.clear buf n arg.eq)

def nulterminate (n : ℕ) : Cmd Argv Arg → Text → Parse Text
  | .exec argv, buf => nulargs n argv buf
  | .redir cmd file _ _, buf => do
    let buf ← nulterminate n cmd buf
    return Text.clear buf n file.eq
  | .pipe left right, buf => nulterminate n left buf >>= nulterminate n right
  | .list left right, buf => nulterminate n left buf >>= nulterminate n right
  | .back cmd, buf => nulterminate n cmd buf

/-- The line that starts at `s`: the characters before the first `NUL`. -/
def cstring (s : Text) : Text := s.takeWhile fun ch => ch ≠ 0

/-- The command, and the line with its terminators. -/
def parsecmd (s : Text) : Parse (Cmd Argv Arg × Text) := do
  let line := cstring s
  let (cmd, s) ← parseline (4 * line.length + 4) line
  let (_, s) := peek s []
  if s ≠ [] then .error (.panic "syntax")
  else do
    let buf ← nulterminate line.length cmd (line ++ [0])
    return (cmd, buf)

def Cmd.map {α β γ δ : Type} (f : α → γ) (g : β → δ) : Cmd α β → Cmd γ δ
  | .exec argv => .exec (f argv)
  | .redir cmd file mode fd => .redir (cmd.map f g) (g file) mode fd
  | .pipe left right => .pipe (left.map f g) (right.map f g)
  | .list left right => .list (left.map f g) (right.map f g)
  | .back cmd => .back (cmd.map f g)

/-- The string at a pointer into a line of `n` characters. -/
def Arg.read (n : ℕ) (buf : Text) (arg : Arg) : Text := cstring (buf.drop (n - arg.q.length))

/-- What `exec` is called with: the strings before the first null pointer. -/
def Argv.read (n : ℕ) (buf : Text) (argv : Argv) : List Text :=
  ((argv.takeWhile Option.isSome).filterMap id).map (Arg.read n buf)

def Cmd.read (n : ℕ) (buf : Text) (cmd : Cmd Argv Arg) : Cmd (List Text) Text :=
  cmd.map (Argv.read n buf) (Arg.read n buf)

end Xv6.Sh
