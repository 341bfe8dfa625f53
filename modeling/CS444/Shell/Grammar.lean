/-
The language of the shell: its words and symbols, its phrases, and the command that a
phrase stands for.

  line  ::=  pipe &* [ ; line ]
  pipe  ::=  exec [ | pipe ]
  exec  ::=  redir* (word redir*)*  |  ( line ) redir*
  redir ::=  < word  |  > word  |  >> word

A phrase of the first kind of `exec` has fewer words than `MAXARGS`.
-/
import CS444.Shell.Parser

namespace CS444
namespace Shell

/-! ## Words and symbols -/

inductive Token
  | word (w : Text)
  | less
  | greater
  | append
  | bar
  | amp
  | semi
  | lparen
  | rparen
  deriving DecidableEq, Repr

/-- The symbol that a byte is, when `>>` is read as two. -/
def symbol : Char → Option Token
  | '<' => some .less
  | '>' => some .greater
  | '|' => some .bar
  | '&' => some .amp
  | ';' => some .semi
  | '(' => some .lparen
  | ')' => some .rparen
  | _ => none

/-- The tokens of a text: words are as long as they can be, and so is `>>`. -/
def tokens : Text → List Token
  | [] => []
  | c :: s =>
    if c ∈ whitespace then tokens s
    else if c = '>' ∧ s.head? = some '>' then .append :: tokens s.tail
    else match symbol c with
      | some t => t :: tokens s
      | none => .word (c :: s.takeWhile wordChar) :: tokens (s.dropWhile wordChar)
  termination_by s => s.length
  decreasing_by
    all_goals simp only [List.length_cons, List.length_tail]
    · omega
    · omega
    · omega
    · have := (s.dropWhile_suffix wordChar).length_le
      omega

/-! ## Commands -/

/-- What a line asks the shell to run. -/
inductive Command
  | exec (argv : List Text)
  | redir (cmd : Command) (file : Text) (mode fd : Nat)
  | pipe (left right : Command)
  | list (left right : Command)
  | back (cmd : Command)
  deriving DecidableEq, Repr

inductive Dir
  | input
  | output
  | append
  deriving DecidableEq, Repr

def Dir.token : Dir → Token
  | .input => .less
  | .output => .greater
  | .append => .append

def Dir.mode : Dir → Nat
  | .input => O_RDONLY
  | .output => O_WRONLY ||| O_CREATE
  | .append => O_WRONLY ||| O_CREATE

def Dir.fd : Dir → Nat
  | .input => 0
  | .output => 1
  | .append => 1

structure Redir where
  dir : Dir
  file : Text
  deriving DecidableEq, Repr

def Redir.tokens (r : Redir) : List Token := [r.dir.token, .word r.file]

/-- The redirections are wrapped around the command one by one. -/
def wrap (c : Command) (rs : List Redir) : Command :=
  rs.foldl (fun c r => .redir c r.file r.dir.mode r.dir.fd) c

/-! ## Phrases -/

inductive Nonterminal
  | line
  | pipe
  | exec
  deriving DecidableEq, Repr

/-- A word of a simple command and the redirections after it. -/
structure Arg where
  word : Text
  redirs : List Redir
  deriving DecidableEq, Repr

def Arg.tokens (a : Arg) : List Token := .word a.word :: a.redirs.flatMap Redir.tokens

/-- `&` after `&`, around a command. -/
def backs (c : Command) : Nat → Command
  | 0 => c
  | n + 1 => backs (.back c) n

/-- The tokens are a phrase of the nonterminal, which stands for the command. -/
inductive Phrase : Nonterminal → List Token → Command → Prop
  | simple (rs : List Redir) (as : List Arg) (few : as.length < MAXARGS) :
      Phrase .exec (rs.flatMap Redir.tokens ++ as.flatMap Arg.tokens)
        (wrap (.exec (as.map Arg.word)) (rs ++ as.flatMap Arg.redirs))
  | block (rs : List Redir) {ts : List Token} {c : Command} (inner : Phrase .line ts c) :
      Phrase .exec (.lparen :: ts ++ .rparen :: rs.flatMap Redir.tokens) (wrap c rs)
  | single {ts : List Token} {c : Command} (only : Phrase .exec ts c) : Phrase .pipe ts c
  | pipe {ts us : List Token} {c d : Command} (left : Phrase .exec ts c)
      (right : Phrase .pipe us d) : Phrase .pipe (ts ++ .bar :: us) (.pipe c d)
  | last (n : Nat) {ts : List Token} {c : Command} (only : Phrase .pipe ts c) :
      Phrase .line (ts ++ List.replicate n .amp) (backs c n)
  | seq (n : Nat) {ts us : List Token} {c d : Command} (first : Phrase .pipe ts c)
      (rest : Phrase .line us d) :
      Phrase .line (ts ++ List.replicate n .amp ++ .semi :: us) (.list (backs c n) d)

end Shell
end CS444
