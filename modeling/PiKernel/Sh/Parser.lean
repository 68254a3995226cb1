import PiKernel.Sh.Lexer

/-!
# The parser of the shell

A recursive descent over one cursor.  Its memory comes from `malloc1`, which is never
given back; a syntax error ends the process.  The functions that call each other take fuel,
and so do the loops, which consume a byte in every round.
-/

namespace PiKernel.Sh

def MAXARGS : Nat := 10

/-- The bytes of `malloc1`. -/
def MAXN : Nat := 10000

/-- How a process that parses ends. -/
inductive Failure where
  | panic (message : String)
  /-- `malloc1: memory used out` -/
  | memory
  | fuel
  deriving DecidableEq

/-- The second argument of `open`. -/
inductive Mode where
  /-- `O_RDONLY` -/
  | rdonly
  /-- `O_WRONLY | O_CREAT` -/
  | wronlyCreat
  deriving DecidableEq

/-- What a `struct redircmd` says about a file. -/
structure Redir where
  file : Word
  mode : Mode
  fd : Nat
  deriving DecidableEq

/-- The nodes of `struct cmd`. -/
inductive Cmd where
  | exec (argv : List Word)
  | redir (cmd : Cmd) (redir : Redir)
  | pipe (left right : Cmd)
  | list (left right : Cmd)
  | back (cmd : Cmd)
  deriving DecidableEq

/-- `malloc1`, with its static counter -/
def malloc1 (sz i : Nat) : Except Failure Nat :=
  if MAXN < i + sz then .error .memory else .ok (i + sz)

/-- The calls of `redircmd` in `parseredirs`. -/
def redirection (file : Word) : Kind → Option Redir
  | .lt => some { file := file, mode := .rdonly, fd := 0 }
  | .gt | .append => some { file := file, mode := .wronlyCreat, fd := 1 }
  | _ => none

/-- Redirections are nested in the order of the source. -/
def redircmds (cmd : Cmd) (redirs : List Redir) : Cmd := redirs.foldl .redir cmd

/-- `parseredirs`; the command is wrapped by the caller. -/
def parseredirs : Nat → Ptr → Nat → Except Failure (List Redir × Ptr × Nat)
  | 0, _, _ => .error .fuel
  | fuel + 1, s, i =>
      if (peek s ['<', '>']).2 = true then
        let tok := gettoken s
        let file := gettoken tok.2
        if file.1.kind ≠ .word then
          .error (.panic "missing file for redirection")
        else
          match redirection file.1.toWord tok.1.kind with
          | none => parseredirs fuel file.2 i
          | some redir => do
              let i ← malloc1 40 i
              let (redirs, s, i) ← parseredirs fuel file.2 i
              return (redir :: redirs, s, i)
      else
        .ok ([], skip s, i)

/-- The loop of `parseexec`, which has found `argc` arguments. -/
def parseargs : Nat → Ptr → Nat → Nat →
    Except Failure (List Word × List Redir × Ptr × Nat)
  | 0, _, _, _ => .error .fuel
  | fuel + 1, s, i, argc =>
      if (peek s ['|', ')', '&', ';']).2 = true then
        .ok ([], [], skip s, i)
      else
        let tok := gettoken s
        if tok.1.kind = .eof then
          .ok ([], [], tok.2, i)
        else if tok.1.kind ≠ .word then
          .error (.panic "syntax")
        else if MAXARGS ≤ argc + 1 then
          .error (.panic "too many args")
        else do
          let (redirs, s, i) ← parseredirs (tok.2.length + 1) tok.2 i
          let (argv, more, s, i) ← parseargs fuel s i (argc + 1)
          return (tok.1.toWord :: argv, redirs ++ more, s, i)

/-- The loop of `parseline`. -/
def parsebacks : Nat → Cmd → Ptr → Nat → Except Failure (Cmd × Ptr × Nat)
  | 0, _, _, _ => .error .fuel
  | fuel + 1, cmd, s, i =>
      if (peek s ['&']).2 = true then do
        let i ← malloc1 16 i
        parsebacks fuel (.back cmd) (gettoken s).2 i
      else
        .ok (cmd, skip s, i)

mutual

def parseline : Nat → Ptr → Nat → Except Failure (Cmd × Ptr × Nat)
  | 0, _, _ => .error .fuel
  | fuel + 1, s, i => do
      let (cmd, s, i) ← parsepipe fuel s i
      let (cmd, s, i) ← parsebacks (s.length + 1) cmd s i
      if (peek s [';']).2 = true then do
        let (right, s, i) ← parseline fuel (gettoken s).2 i
        let i ← malloc1 24 i
        return (.list cmd right, s, i)
      else
        return (cmd, skip s, i)

def parsepipe : Nat → Ptr → Nat → Except Failure (Cmd × Ptr × Nat)
  | 0, _, _ => .error .fuel
  | fuel + 1, s, i => do
      let (cmd, s, i) ← parseexec fuel s i
      if (peek s ['|']).2 = true then do
        let (right, s, i) ← parsepipe fuel (gettoken s).2 i
        let i ← malloc1 24 i
        return (.pipe cmd right, s, i)
      else
        return (cmd, skip s, i)

def parseexec : Nat → Ptr → Nat → Except Failure (Cmd × Ptr × Nat)
  | 0, _, _ => .error .fuel
  | fuel + 1, s, i =>
      if (peek s ['(']).2 = true then
        parseblock fuel (skip s) i
      else do
        let i ← malloc1 168 i
        let (redirs, s, i) ← parseredirs (s.length + 1) (skip s) i
        let (argv, more, s, i) ← parseargs (s.length + 1) s i 0
        -- `ret` already points to the node that the loop fills in
        return (redircmds (.exec argv) (redirs ++ more), s, i)

def parseblock : Nat → Ptr → Nat → Except Failure (Cmd × Ptr × Nat)
  | 0, _, _ => .error .fuel
  | fuel + 1, s, i =>
      if (peek s ['(']).2 = false then
        .error (.panic "parseblock")
      else do
        let (cmd, s, i) ← parseline fuel (gettoken s).2 i
        if (peek s [')']).2 = false then
          .error (.panic "syntax - missing )")
        else do
          let (redirs, s, i) ← parseredirs (s.length + 1) (gettoken s).2 i
          return (redircmds cmd redirs, s, i)

end

/-- `parsecmd`, up to `nulterminate`; `es` is the end of the list. -/
def parseall (line : Ptr) : Except Failure Cmd := do
  let (cmd, s, _) ← parseline (4 * line.length + 4) line 0
  if (peek s []).1 ≠ [] then .error (.panic "syntax") else return cmd

/-! ## Memory -/

/-- What the nodes of a command take. -/
def Cmd.size : Cmd → Nat
  | .exec _ => 168
  | .redir cmd _ => cmd.size + 40
  | .pipe left right | .list left right => left.size + right.size + 24
  | .back cmd => cmd.size + 16

end PiKernel.Sh
