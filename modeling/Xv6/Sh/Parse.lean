/-
The parser of the shell (sh.c): gettoken, peek, and the five functions that call each other.

- `Str`: a line, the bytes before its NUL. A pointer into the line is a position; `es` is the position of the NUL.
- The cursor `*ps` is the state. A panic of the shell is an error with its message. `stuck` is a loop or a recursion that has
  gone on for as many rounds as it was given, `bounds` an index outside argv and eargv.
- A command is a tree. Its words are still positions: where the token starts, and where it ends.
- parseexec's execcmd is shared between cmd and the redirections around it, and gets words after it has got redirections; here
  the words and the redirections are collected and put together at the end.
- malloc does not fail.
-/
import Xv6.Lib.Fallible

namespace Xv6.Sh

open Function

abbrev MAXARGS : ℕ := 10
abbrev O_RDONLY : ℕ := 0x000
abbrev O_WRONLY : ℕ := 0x001
abbrev O_CREATE : ℕ := 0x200

/-! ## The line -/

structure Str where
  bytes : List UInt8
  clean : 0 ∉ bytes

namespace Str

def length (s : Str) : ℕ := s.bytes.length

/-- `*s` at position i, the NUL included -/
def char (s : Str) (i : ℕ) : UInt8 := s.bytes.getD i 0

/-- `while(s < es && p(*s)) s++` -/
def skip (s : Str) (p : UInt8 → Bool) (i : ℕ) : ℕ := i + ((s.bytes.drop i).takeWhile p).length

end Str

/-- ` \t\r\n\v` -/
def whitespace : List UInt8 := [32, 9, 13, 10, 11]

/-- `<|>&;()` -/
def symbols : List UInt8 := ['<'.toUInt8, '|'.toUInt8, '>'.toUInt8, '&'.toUInt8, ';'.toUInt8, '('.toUInt8, ')'.toUInt8]

def isSpace (c : UInt8) : Bool := c ∈ whitespace

def isWord (c : UInt8) : Bool := c ∉ whitespace ∧ c ∉ symbols

/-! ## Tokens -/

/-- a token of the line, from q to eq -/
structure Word where
  q : ℕ
  eq : ℕ
deriving DecidableEq, Repr

inductive Stop where
  | panic (msg : String)
  | stuck
  | bounds
deriving DecidableEq, Repr

abbrev P := StateT ℕ (Except Stop)

/-- the code of the token at q, which is no whitespace, and its end -/
def tokenAt (s : Str) (q : ℕ) : UInt8 × ℕ :=
  let c := s.char q
  if c = 0 then (0, q)
  else if c ∈ ['|'.toUInt8, '('.toUInt8, ')'.toUInt8, ';'.toUInt8, '&'.toUInt8, '<'.toUInt8] then (c, q + 1)
  else if c = '>'.toUInt8 then
    if s.char (q + 1) = '>'.toUInt8 then ('+'.toUInt8, q + 2) else ('>'.toUInt8, q + 1)
  else ('a'.toUInt8, s.skip isWord q)

def gettoken (s : Str) : P (UInt8 × Word) := do
  let q := s.skip isSpace (← get)
  let t := tokenAt s q
  set (s.skip isSpace t.2)
  return (t.1, ⟨q, t.2⟩)

def peek (s : Str) (toks : List Char) : P Bool := do
  let i := s.skip isSpace (← get)
  set i
  return s.char i ≠ 0 ∧ s.char i ∈ toks.map Char.toUInt8

/-! ## Commands -/

inductive Cmd where
  | exec (argv : List Word)
  | redir (cmd : Cmd) (file : Word) (mode fd : ℕ)
  | pipe (left right : Cmd)
  | list (left right : Cmd)
  | back (cmd : Cmd)
deriving DecidableEq, Repr

/-- a redirection by its token: `<`, `>` or `>>` -/
inductive Op where
  | lt
  | gt
  | gtgt
deriving DecidableEq, Repr

def Op.code : Op → UInt8
  | .lt => '<'.toUInt8
  | .gt => '>'.toUInt8
  | .gtgt => '+'.toUInt8

structure Redir where
  op : Op
  file : Word
deriving DecidableEq, Repr

/-- `redircmd(cmd, q, eq, mode, fd)` -/
def redircmd (cmd : Cmd) (r : Redir) : Cmd :=
  match r.op with
  | .lt => .redir cmd r.file O_RDONLY 0
  | .gt => .redir cmd r.file (O_WRONLY ||| O_CREATE) 1
  | .gtgt => .redir cmd r.file (O_WRONLY ||| O_CREATE) 1

/-- the redirections around a command, the first one innermost -/
def wrap (cmd : Cmd) (rs : List Redir) : Cmd := rs.foldl redircmd cmd

/-! ## The parser -/

variable (s : Str)

/-- parseredirs -/
def parseredirs : ℕ → P (List Redir)
  | 0 => throw .stuck
  | n + 1 => do
    if ← peek s ['<', '>'] then
      let tok ← gettoken s
      let file ← gettoken s
      if file.1 ≠ 'a'.toUInt8 then throw (.panic "missing file for redirection")
      else
        let rs ← parseredirs n
        if tok.1 = '<'.toUInt8 then return ⟨.lt, file.2⟩ :: rs
        else if tok.1 = '>'.toUInt8 then return ⟨.gt, file.2⟩ :: rs
        else if tok.1 = '+'.toUInt8 then return ⟨.gtgt, file.2⟩ :: rs
        else return rs
    else return []

/-- parseexec's loop, with the words so far -/
def parsewords : ℕ → List Word → P (List Word × List Redir)
  | 0, _ => throw .stuck
  | n + 1, argv => do
    if ← peek s ['|', ')', '&', ';'] then return (argv, [])
    else
      let tok ← gettoken s
      if tok.1 = 0 then return (argv, [])
      else if tok.1 ≠ 'a'.toUInt8 then throw (.panic "syntax")
      else if ¬ argv.length < MAXARGS then throw .bounds
      else if MAXARGS ≤ argv.length + 1 then throw (.panic "too many args")
      else
        let rs ← parseredirs s n
        let rest ← parsewords n (argv ++ [tok.2])
        return (rest.1, rs ++ rest.2)

/-- `while(peek(ps, es, "&"))` of parseline -/
def parseback : ℕ → Cmd → P Cmd
  | 0, _ => throw .stuck
  | n + 1, cmd => do
    if ← peek s ['&'] then
      let _ ← gettoken s
      parseback n (.back cmd)
    else return cmd

mutual

def parseline : ℕ → P Cmd
  | 0 => throw .stuck
  | n + 1 => do
    let cmd ← parsepipe n
    let cmd ← parseback s n cmd
    if ← peek s [';'] then
      let _ ← gettoken s
      let right ← parseline n
      return .list cmd right
    else return cmd

def parsepipe : ℕ → P Cmd
  | 0 => throw .stuck
  | n + 1 => do
    let cmd ← parseexec n
    if ← peek s ['|'] then
      let _ ← gettoken s
      let right ← parsepipe n
      return .pipe cmd right
    else return cmd

def parseblock : ℕ → P Cmd
  | 0 => throw .stuck
  | n + 1 => do
    if ← peek s ['('] then
      let _ ← gettoken s
      let cmd ← parseline n
      if ← peek s [')'] then
        let _ ← gettoken s
        let rs ← parseredirs s n
        return wrap cmd rs
      else throw (.panic "syntax - missing )")
    else throw (.panic "parseblock")

def parseexec : ℕ → P Cmd
  | 0 => throw .stuck
  | n + 1 => do
    if ← peek s ['('] then parseblock n
    else
      let rs ← parseredirs s n
      let rest ← parsewords s n []
      if ¬ rest.1.length < MAXARGS then throw .bounds
      else return wrap (.exec rest.1) (rs ++ rest.2)

end

/-- parsecmd up to nulterminate; fuel bounds the depth of calls and the rounds of loops -/
def parsetree (fuel : ℕ) : P Cmd := do
  let cmd ← parseline s fuel
  let _ ← peek s []
  if (← get) ≠ s.length then throw (.panic "syntax") else return cmd

/-! ## nulterminate -/

/-- the line in memory -/
def Str.memory (s : Str) : ℕ → UInt8 := s.char

/-- `*eq = 0` for each word -/
def terminate (ws : List Word) (m : ℕ → UInt8) : ℕ → UInt8 := ws.foldl (fun m w => update m w.eq 0) m

def nulterminate : Cmd → (ℕ → UInt8) → ℕ → UInt8
  | .exec argv, m => terminate argv m
  | .redir cmd file _ _, m => update (nulterminate cmd m) file.eq 0
  | .pipe left right, m => nulterminate right (nulterminate left m)
  | .list left right, m => nulterminate right (nulterminate left m)
  | .back cmd, m => nulterminate cmd m

/-- **parsecmd**: the tree and the memory that it leaves -/
def parsecmd (fuel : ℕ) : Except Stop (Cmd × (ℕ → UInt8)) :=
  match parsetree s fuel 0 with
  | .ok (cmd, _) => .ok (cmd, nulterminate cmd s.memory)
  | .error e => .error e

end Xv6.Sh
