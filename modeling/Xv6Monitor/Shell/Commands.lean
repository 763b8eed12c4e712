import Xv6Monitor.Lib.Program

/-! The parser of the shell, `user/sh.c`. A pointer into the line is an index, and the state of the parser
is the pointer `*ps`; behind the line stands a null byte. -/

namespace Xv6Monitor.Shell.Commands
open Lib.Program

def MAXARGS : Nat := 10

/-- `kernel/fcntl.h` -/
def O_RDONLY : Nat := 0x000
def O_WRONLY : Nat := 0x001
def O_CREATE : Nat := 0x200
def O_TRUNC : Nat := 0x400

/-- `" \t\r\n\v"` -/
def whitespace : List UInt8 := [32, 9, 13, 10, 11]

/-- `"<|>&;()"` -/
def symbols : List UInt8 := [60, 124, 62, 38, 59, 40, 41]

structure Span where
  q : Nat
  eq : Nat
  deriving DecidableEq

structure Redir where
  file : Span
  mode : Nat
  fd : Nat
  deriving DecidableEq

inductive Cmd where
  | exec (argv : List Span)
  | redir (cmd : Cmd) (redir : Redir)
  | pipe (left right : Cmd)
  | list (left right : Cmd)
  | back (cmd : Cmd)
  deriving DecidableEq

inductive Stop where
  | panic (message : String)
  /-- `argv` or `eargv` is written outside its bounds. -/
  | bounds
  /-- The parser has not come to an end yet. -/
  | rounds
  deriving DecidableEq

abbrev Parse (α : Type) : Type := Prog Stop Nat α

structure Token where
  ret : UInt8
  q : Nat
  eq : Nat

section Parsing

variable (line : List UInt8)

/-- `*s` -/
def deref (s : Nat) : UInt8 := line.getD s 0

/-- `while(s < es && strchr(whitespace, *s)) s++` -/
def skip (s : Nat) : Nat := s + ((line.drop s).takeWhile fun c => whitespace.contains c).length

def plain (c : UInt8) : Bool := !whitespace.contains c && !symbols.contains c

/-- The switch of `gettoken`: its result, and where the token ends. -/
def scan (s : Nat) : UInt8 × Nat :=
  let c := deref line s
  if c = 0 then (0, s)
  else if [124, 40, 41, 59, 38, 60].contains c then (c, s + 1)
  else if c = 62 then
    if deref line (s + 1) = 62 then (43, s + 2) else (c, s + 1)
  else (97, s + ((line.drop s).takeWhile plain).length)

def gettoken : Parse Token := do
  let s ← get
  let q := skip line s
  let (ret, eq) := scan line q
  set (skip line eq)
  pure ⟨ret, q, eq⟩

def peek (toks : List UInt8) : Parse Bool := do
  modify fun s => skip line s
  let s ← get
  pure (deref line s ≠ 0 && toks.contains (deref line s))

def redirection (tok : UInt8) (file : Span) : List Redir :=
  if tok = 60 then [⟨file, O_RDONLY, 0⟩]
  else if tok = 62 then [⟨file, O_WRONLY ||| O_CREATE ||| O_TRUNC, 1⟩]
  else if tok = 43 then [⟨file, O_WRONLY ||| O_CREATE, 1⟩]
  else []

/-- The redirections that `parseredirs` puts around its command, in their order. -/
def parseredirs : (rounds : Nat) → Parse (List Redir)
  | 0 => stop .rounds
  | rounds + 1 => do
    if ← peek line [60, 62] then do
      let tok ← gettoken line
      let file ← gettoken line
      if file.ret ≠ 97 then stop (.panic "missing file for redirection")
      else do
        let more ← parseredirs rounds
        pure (redirection tok.ret ⟨file.q, file.eq⟩ ++ more)
    else pure []

def wrap (cmd : Cmd) (redirs : List Redir) : Cmd := redirs.foldl .redir cmd

def finish (argv : List Span) (redirs : List Redir) : Parse Cmd :=
  if MAXARGS ≤ argv.length then stop .bounds else pure (wrap (.exec argv) redirs)

def parseargs : (rounds : Nat) → (argv : List Span) → (redirs : List Redir) → Parse Cmd
  | 0, _, _ => stop .rounds
  | rounds + 1, argv, redirs => do
    if ← peek line [124, 41, 38, 59] then finish argv redirs
    else do
      let tok ← gettoken line
      if tok.ret = 0 then finish argv redirs
      else if tok.ret ≠ 97 then stop (.panic "syntax")
      else if MAXARGS ≤ argv.length then stop .bounds
      else if MAXARGS ≤ argv.length + 1 then stop (.panic "too many args")
      else do
        let more ← parseredirs line rounds
        parseargs rounds (argv ++ [⟨tok.q, tok.eq⟩]) (redirs ++ more)

def parsebacks : (rounds : Nat) → Cmd → Parse Cmd
  | 0, _ => stop .rounds
  | rounds + 1, cmd => do
    if ← peek line [38] then do
      let _ ← gettoken line
      parsebacks rounds (.back cmd)
    else pure cmd

mutual

def parseline : (rounds : Nat) → Parse Cmd
  | 0 => stop .rounds
  | rounds + 1 => do
    let cmd ← parsepipe rounds
    let cmd ← parsebacks line rounds cmd
    if ← peek line [59] then do
      let _ ← gettoken line
      let right ← parseline rounds
      pure (.list cmd right)
    else pure cmd

def parsepipe : (rounds : Nat) → Parse Cmd
  | 0 => stop .rounds
  | rounds + 1 => do
    let cmd ← parseexec rounds
    if ← peek line [124] then do
      let _ ← gettoken line
      let right ← parsepipe rounds
      pure (.pipe cmd right)
    else pure cmd

def parseexec : (rounds : Nat) → Parse Cmd
  | 0 => stop .rounds
  | rounds + 1 => do
    if ← peek line [40] then parseblock rounds
    else do
      let redirs ← parseredirs line rounds
      parseargs line rounds [] redirs

def parseblock : (rounds : Nat) → Parse Cmd
  | 0 => stop .rounds
  | rounds + 1 => do
    if ← peek line [40] then do
      let _ ← gettoken line
      let cmd ← parseline rounds
      if ← peek line [41] then do
        let _ ← gettoken line
        let redirs ← parseredirs line rounds
        pure (wrap cmd redirs)
      else stop (.panic "syntax - missing )")
    else stop (.panic "parseblock")

end

/-- The strings of a command are ended with null bytes. -/
def nulterminate : Cmd → (Nat → UInt8) → Nat → UInt8
  | .exec argv, buf => argv.foldl (fun buf arg => Function.update buf arg.eq 0) buf
  | .redir cmd redir, buf => Function.update (nulterminate cmd buf) redir.file.eq 0
  | .pipe left right, buf => nulterminate right (nulterminate left buf)
  | .list left right, buf => nulterminate right (nulterminate left buf)
  | .back cmd, buf => nulterminate cmd buf

def parseall (rounds : Nat) : Parse Cmd := do
  let cmd ← parseline line rounds
  let _ ← peek line []
  let s ← get
  if s ≠ line.length then stop (.panic "syntax") else pure cmd

/-- As many rounds as any line of this length needs. -/
def enough : Nat := 4 * line.length + 8

/-- The command, and the line as it is left. -/
def parsecmd : Except Stop (Cmd × (Nat → UInt8)) :=
  match parseall line (enough line) 0 with
  | .ok (cmd, _) => .ok (cmd, nulterminate cmd (deref line))
  | .error e => .error e

end Parsing

end Xv6Monitor.Shell.Commands
