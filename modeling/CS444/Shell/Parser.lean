/-
The parser of the shell.

The line is the text before the first NUL, and a pointer into it is what is left of the
line from there: `s < es` says that something is left, and `*s` is the first byte of it,
the NUL when nothing is.  `*ps` is the state of the parsing functions.

The tree keeps a pointer as its distance from the end of the line.  That is also its
address in the buffer, which is written once, by `nulterminate`, after the whole line has
been read.
-/
import CS444.Lib.Program

namespace CS444
namespace Shell

open Program Prog

/-- A text: a byte is the character with its code. -/
abbrev Text : Type := List Char

def NUL : Char := '\x00'

def MAXARGS : Nat := 10

def O_RDONLY : Nat := 0x000
def O_WRONLY : Nat := 0x001
def O_CREATE : Nat := 0x200

def whitespace : Text := [' ', '\t', '\r', '\n', '\x0b']
def symbols : Text := ['<', '|', '>', '&', ';', '(', ')']

/-- `strchr(s, c) != 0` -/
def strchr (s : Text) (c : Char) : Bool := s.contains c

/-! ## The tree -/

/-- A parsed command.  Of `argv` and `eargv` the entries before the null pointers. -/
inductive Cmd
  | exec (argv : List (Nat × Nat))
  | redir (cmd : Cmd) (file efile mode fd : Nat)
  | pipe (left right : Cmd)
  | list (left right : Cmd)
  | back (cmd : Cmd)
  deriving DecidableEq, Repr

/-- `cmd->argv[argc] = q; cmd->eargv[argc] = eq;` in the command that `execcmd` made, which
the redirections are wrapped around. -/
def Cmd.addArg : Cmd → Nat → Nat → Cmd
  | .exec argv, q, eq => .exec (argv ++ [(q, eq)])
  | .redir cmd file efile mode fd, q, eq => .redir (cmd.addArg q eq) file efile mode fd
  | cmd, _, _ => cmd

/-! ## Tokens -/

/-- Why the parser gives up. -/
inductive Failure
  | panic (s : String)
  /-- `leftovers: s` is printed before the `panic("syntax")`. -/
  | leftovers (s : Text)
  | outOfFuel
  deriving DecidableEq, Repr

abbrev Parser (α : Type) : Type := Prog Text Failure α

/-- `while(s < es && strchr(whitespace, *s)) s++;` -/
def skip (s : Text) : Text := s.dropWhile (strchr whitespace)

/-- `!strchr(whitespace, *s) && !strchr(symbols, *s)` -/
def wordChar (c : Char) : Bool := !strchr whitespace c && !strchr symbols c

/-- The switch of `gettoken`: what it returns, and where the token ends. -/
def scan : Text → Char × Text
  | [] => (NUL, [])
  | c :: s =>
    if strchr ['|', '(', ')', ';', '&', '<'] c then (c, s)
    else if c = '>' then
      match s with
      | '>' :: s => ('+', s)
      | s => ('>', s)
    else ('a', (c :: s).dropWhile wordChar)

/-- What `gettoken` returns, `*q` and `*eq`. -/
structure Tok where
  ret : Char
  q : Text
  eq : Text

def gettoken : Parser Tok := do
  modify skip
  let q ← get
  modify fun _ => skip (scan q).2
  return ⟨(scan q).1, q, (scan q).2⟩

/-- `*s && strchr(toks, *s)` -/
def among (toks : Text) : Text → Bool
  | [] => false
  | c :: _ => strchr toks c

def peek (toks : Text) : Parser Bool := do
  modify skip
  gets (among toks)

/-! ## Commands -/

/-- The switch of `parseredirs` -/
def redircmd (cmd : Cmd) (tok : Char) (file : Tok) : Cmd :=
  if tok = '<' then .redir cmd file.q.length file.eq.length O_RDONLY 0
  else if tok = '>' then .redir cmd file.q.length file.eq.length (O_WRONLY ||| O_CREATE) 1
  else if tok = '+' then .redir cmd file.q.length file.eq.length (O_WRONLY ||| O_CREATE) 1
  else cmd

def parseredirs : Nat → Cmd → Parser Cmd
  | 0, _ => halt .outOfFuel
  | n + 1, cmd => do
    if ← peek ['<', '>'] then
      let tok ← gettoken
      let file ← gettoken
      if file.ret ≠ 'a' then
        halt (.panic "missing file for redirection")
      else
        parseredirs n (redircmd cmd tok.ret file)
    else
      return cmd

/-- The loop of `parseexec` -/
def parseargs : Nat → Nat → Cmd → Parser Cmd
  | 0, _, _ => halt .outOfFuel
  | n + 1, argc, ret => do
    if ← peek ['|', ')', '&', ';'] then
      return ret
    else
      let tok ← gettoken
      if tok.ret = NUL then
        return ret
      else if tok.ret ≠ 'a' then
        halt (.panic "syntax")
      else if MAXARGS ≤ argc + 1 then
        halt (.panic "too many args")
      else
        let ret ← parseredirs n (ret.addArg tok.q.length tok.eq.length)
        parseargs n (argc + 1) ret

/-- The loop of `parseline` -/
def parsebacks : Nat → Cmd → Parser Cmd
  | 0, _ => halt .outOfFuel
  | n + 1, cmd => do
    if ← peek ['&'] then
      let _ ← gettoken
      parsebacks n (.back cmd)
    else
      return cmd

mutual

def parseline : Nat → Parser Cmd
  | 0 => halt .outOfFuel
  | n + 1 => do
    let cmd ← parsepipe n
    let cmd ← parsebacks n cmd
    if ← peek [';'] then
      let _ ← gettoken
      let right ← parseline n
      return .list cmd right
    else
      return cmd

def parsepipe : Nat → Parser Cmd
  | 0 => halt .outOfFuel
  | n + 1 => do
    let cmd ← parseexec n
    if ← peek ['|'] then
      let _ ← gettoken
      let right ← parsepipe n
      return .pipe cmd right
    else
      return cmd

def parseblock : Nat → Parser Cmd
  | 0 => halt .outOfFuel
  | n + 1 => do
    if ← peek ['('] then
      let _ ← gettoken
      let cmd ← parseline n
      if ← peek [')'] then
        let _ ← gettoken
        parseredirs n cmd
      else
        halt (.panic "syntax - missing )")
    else
      halt (.panic "parseblock")

def parseexec : Nat → Parser Cmd
  | 0 => halt .outOfFuel
  | n + 1 => do
    if ← peek ['('] then
      parseblock n
    else
      let ret ← parseredirs n (.exec [])
      parseargs n 0 ret

end

/-! ## The buffer -/

/-- The bytes of the buffer, by their distance from the end of the line. -/
abbrev Buffer : Type := Nat → Char

/-- The buffer that holds a line and the NUL after it. -/
def Buffer.ofLine : Text → Buffer
  | [] => fun _ => NUL
  | c :: s => Function.update (ofLine s) (s.length + 1) c

/-- `*p = 0` -/
def Buffer.terminate (buf : Buffer) (p : Nat) : Buffer := Function.update buf p NUL

/-- The string at an address: the bytes before the first NUL. -/
def Buffer.string (buf : Buffer) : Nat → Text
  | 0 => []
  | p + 1 => if buf (p + 1) = NUL then [] else buf (p + 1) :: buf.string p

def nulterminate : Cmd → Buffer → Buffer
  | .exec argv, buf => argv.foldl (fun buf arg => buf.terminate arg.2) buf
  | .redir cmd _ efile _ _, buf => (nulterminate cmd buf).terminate efile
  | .pipe left right, buf => nulterminate right (nulterminate left buf)
  | .list left right, buf => nulterminate right (nulterminate left buf)
  | .back cmd, buf => nulterminate cmd buf

/-- `s` up to `s + strlen(s)` -/
def cline (s : Text) : Text := s.takeWhile (· ≠ NUL)

/-- Enough for every line, `parsecmd_ends`. -/
def fuel (line : Text) : Nat := 4 * line.length + 4

/-- The parser run on a line, up to the test for leftovers. -/
def parseall (n : Nat) : Parser Cmd := do
  let cmd ← parseline n
  let _ ← peek []
  let s ← get
  if s ≠ [] then halt (.leftovers s) else return cmd

/-- `parsecmd(s)`: the tree, and the buffer as it leaves it. -/
def parsecmd (s : Text) : Except Failure (Cmd × Buffer) :=
  match (parseall (fuel (cline s))).run (cline s) with
  | .error e => .error e
  | .ok r => .ok (r.1, nulterminate r.1 (Buffer.ofLine (cline s)))

end Shell
end CS444
