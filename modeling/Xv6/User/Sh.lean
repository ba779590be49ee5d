import Xv6.Lib.Fallible

/-!
# The parser of the shell

`sh.c`. Pointers into the line are offsets; the offset of its NUL is `es`, and `*ps` is passed to each
function and returned by it. The commands refer to the line by a pair of pointers for each string.
-/

namespace Xv6.Shell

open Fallible

/-- `MAXARGS` -/
abbrev maxargs : ℕ := 10

/-- `struct cmd`, with strings of any kind. -/
inductive Cmd (α : Type) where
  | exec (argv : List α)
  | redir (cmd : Cmd α) (file : α) (mode fd : ℕ)
  | pipe (left right : Cmd α)
  | list (left right : Cmd α)
  | back (cmd : Cmd α)
  deriving DecidableEq, Repr

inductive Fault where
  /-- more calls or passes than there are tokens -/
  | endless
  | panic (message : String)
  deriving DecidableEq, Repr

def whitespace : List Char := [' ', '\t', '\r', '\n', '\x0b']

def symbols : List Char := ['<', '|', '>', '&', ';', '(', ')']

/-- `*s` -/
def charAt (line : List Char) (s : ℕ) : Char := line.getD s '\x00'

/-- The loop `while(s < es && p(*s)) s++`. -/
def scan (p : Char → Bool) (line : List Char) (s : ℕ) : ℕ := s + ((line.drop s).takeWhile p).length

def blank (c : Char) : Bool := whitespace.contains c

/-- A character of a word. -/
def ordinary (c : Char) : Bool := !whitespace.contains c && !symbols.contains c

/-- What `gettoken` returns, in the order `ret`, `*q`, `*eq`, `*ps`. -/
structure Found where
  ret : Char
  q : ℕ
  eq : ℕ
  s : ℕ

def gettoken (line : List Char) (s : ℕ) : Found :=
  let s := scan blank line s
  let q := s
  let c := charAt line s
  let (ret, s) :=
    if c = '\x00' then (c, s)
    else if c = '|' ∨ c = '(' ∨ c = ')' ∨ c = ';' ∨ c = '&' ∨ c = '<' then (c, s + 1)
    else if c = '>' then
      let s := s + 1
      if charAt line s = '>' then ('+', s + 1) else (c, s)
    else ('a', scan ordinary line s)
  let eq := s
  ⟨ret, q, eq, scan blank line s⟩

def peek (line toks : List Char) (s : ℕ) : Bool × ℕ :=
  let s := scan blank line s
  (charAt line s ≠ '\x00' && toks.contains (charAt line s), s)

/-- `O_RDONLY` -/
abbrev rdonly : ℕ := 0x000

/-- `O_WRONLY|O_CREATE` -/
abbrev wronlyCreate : ℕ := 0x001 ||| 0x200

/-- The `switch` of `parseredirs`. -/
def redirect {α : Type} (tok : Char) (cmd : Cmd α) (file : α) : Cmd α :=
  if tok = '<' then .redir cmd file rdonly 0
  else if tok = '>' then .redir cmd file wronlyCreate 1
  else if tok = '+' then .redir cmd file wronlyCreate 1
  else cmd

/-- The loop of `parseredirs`. -/
def parseredirs (line : List Char) : ℕ → Cmd (ℕ × ℕ) → ℕ → Except Fault (Cmd (ℕ × ℕ) × ℕ)
  | 0, _, _ => .error .endless
  | passes + 1, cmd, s =>
      let (found, s) := peek line ['<', '>'] s
      if found then
        let tok := gettoken line s
        let name := gettoken line tok.s
        if name.ret ≠ 'a' then .error (.panic "missing file for redirection")
        else parseredirs line passes (redirect tok.ret cmd (name.q, name.eq)) name.s
      else .ok (cmd, s)

/-- `argv` and `eargv` of the `execcmd` below the redirections are extended. -/
def Cmd.addArg {α : Type} (arg : α) : Cmd α → Cmd α
  | .exec argv => .exec (argv ++ [arg])
  | .redir cmd file mode fd => .redir (cmd.addArg arg) file mode fd
  | cmd => cmd

/-- The bound of the loops: a line has no more tokens than characters. -/
abbrev maxPasses (line : List Char) : ℕ := line.length + 1

/-- The loop of `parseexec`. -/
def parseargs (line : List Char) : ℕ → ℕ → Cmd (ℕ × ℕ) → ℕ → Except Fault (Cmd (ℕ × ℕ) × ℕ)
  | 0, _, _, _ => .error .endless
  | passes + 1, argc, ret, s =>
      let (found, s) := peek line ['|', ')', '&', ';'] s
      if found then .ok (ret, s)
      else
        let tok := gettoken line s
        if tok.ret = '\x00' then .ok (ret, tok.s)
        else if tok.ret ≠ 'a' then .error (.panic "syntax")
        else
          let ret := ret.addArg (tok.q, tok.eq)
          let argc := argc + 1
          if argc ≥ maxargs then .error (.panic "too many args")
          else do
            let (ret, s) ← parseredirs line (maxPasses line) ret tok.s
            parseargs line passes argc ret s

/-- The loop of `parseline`. -/
def parsebacks (line : List Char) : ℕ → Cmd (ℕ × ℕ) → ℕ → Except Fault (Cmd (ℕ × ℕ) × ℕ)
  | 0, _, _ => .error .endless
  | passes + 1, cmd, s =>
      let (found, s) := peek line ['&'] s
      if found then parsebacks line passes (.back cmd) (gettoken line s).s
      else .ok (cmd, s)

mutual

def parseline (line : List Char) : ℕ → ℕ → Except Fault (Cmd (ℕ × ℕ) × ℕ)
  | 0, _ => .error .endless
  | calls + 1, s => do
      let (cmd, s) ← parsepipe line calls s
      let (cmd, s) ← parsebacks line (maxPasses line) cmd s
      let (found, s) := peek line [';'] s
      if found then
        let (right, s) ← parseline line calls (gettoken line s).s
        return (.list cmd right, s)
      else return (cmd, s)
termination_by structural calls => calls

def parsepipe (line : List Char) : ℕ → ℕ → Except Fault (Cmd (ℕ × ℕ) × ℕ)
  | 0, _ => .error .endless
  | calls + 1, s => do
      let (cmd, s) ← parseexec line calls s
      let (found, s) := peek line ['|'] s
      if found then
        let (right, s) ← parsepipe line calls (gettoken line s).s
        return (.pipe cmd right, s)
      else return (cmd, s)
termination_by structural calls => calls

def parseblock (line : List Char) : ℕ → ℕ → Except Fault (Cmd (ℕ × ℕ) × ℕ)
  | 0, _ => .error .endless
  | calls + 1, s => do
      let (found, s) := peek line ['('] s
      if ¬found then .error (.panic "parseblock")
      else do
        let (cmd, s) ← parseline line calls (gettoken line s).s
        let (found, s) := peek line [')'] s
        if ¬found then .error (.panic "syntax - missing )")
        else parseredirs line (maxPasses line) cmd (gettoken line s).s
termination_by structural calls => calls

def parseexec (line : List Char) : ℕ → ℕ → Except Fault (Cmd (ℕ × ℕ) × ℕ)
  | 0, _ => .error .endless
  | calls + 1, s => do
      let (found, s) := peek line ['('] s
      if found then parseblock line calls s
      else do
        let (ret, s) ← parseredirs line (maxPasses line) (.exec []) s
        parseargs line (maxPasses line) 0 ret s
termination_by structural calls => calls

end

def nulterminate : Cmd (ℕ × ℕ) → List Char → List Char
  | .exec argv, mem => argv.foldl (fun mem arg => mem.set arg.2 '\x00') mem
  | .redir cmd file _ _, mem => (nulterminate cmd mem).set file.2 '\x00'
  | .pipe left right, mem => nulterminate right (nulterminate left mem)
  | .list left right, mem => nulterminate right (nulterminate left mem)
  | .back cmd, mem => nulterminate cmd mem

/-- The bound of the calls that are nested: four for each parenthesis. -/
abbrev maxCalls (line : List Char) : ℕ := 4 * (line.length + 1)

/-- The command, and the line with the NULs in it. -/
def parsecmd (line : List Char) : Except Fault (Cmd (ℕ × ℕ) × List Char) := do
  let (cmd, s) ← parseline line (maxCalls line) 0
  let (_, s) := peek line [] s
  if s ≠ line.length then .error (.panic "syntax")
  else return (cmd, nulterminate cmd (line ++ ['\x00']))

end Xv6.Shell
