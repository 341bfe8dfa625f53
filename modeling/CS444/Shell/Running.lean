/-
The processes of a command and the files they have open.

`runcmd` starts the programs of a command by `fork`, and before each of them it closes,
opens and duplicates descriptors, where the kernel always hands out the lowest one.  What
this should come to is `plumb`: the standard input and output of each process, and
nothing about descriptors.  `runcmd_plumb` says that it does: whatever else the shell has
open is open in each process and nothing more is, with two descriptors to spare; and when
no call fails, the programs that run are those of the command, however long the pipelines
are.  So no process holds both ends of a pipe, `one_end`, and the reader of a pipe is told
when its writers are gone.

Whether `fork`, `pipealloc`, `open` and `exec` succeed depends on the rest of the system,
and on when they are called.  As `runcmd` has no loops, each part of a command is run once
at most, and `Kernel` gives the `Answers` for it.  A process is recorded with the
descriptors it has when it turns into a program, or when it blocks in `wait`; one that
gives up prints a message and is gone.
-/
import CS444.Shell.Printing
import Mathlib.Logic.Function.Basic

namespace CS444
namespace Shell

/-- An open file: one the shell was started with, a file by its name, or one end of a pipe. -/
inductive File
  | given (n : Nat)
  | named (name : Text) (mode : Nat)
  | readEnd (pipe : Nat)
  | writeEnd (pipe : Nat)
  deriving DecidableEq, Repr

/-! ## Descriptors -/

def NOFILE : Nat := 16

/-- The descriptors of a process. -/
abbrev Table : Type := Nat → Option File

def Table.set (t : Table) (fd : Nat) (f : File) : Table := Function.update t fd (some f)

def close (t : Table) (fd : Nat) : Table := Function.update t fd none

/-- The lowest descriptor that is free. -/
def fdalloc (t : Table) : Option Nat := (List.range NOFILE).find? fun fd => (t fd).isNone

/-- `dup(fd)`; when it fails nothing changes. -/
def dup (t : Table) (fd : Nat) : Table :=
  match t fd, fdalloc t with
  | some f, some new => t.set new f
  | _, _ => t

/-- `open`, or nothing when it fails; `ok` is whether the file can be opened. -/
def openfile (ok : Bool) (t : Table) (name : Text) (mode : Nat) : Option Table :=
  match fdalloc t with
  | some fd => if ok then some (t.set fd (.named name mode)) else none
  | none => none

/-- `pipe(p)`: `p[0]`, `p[1]` and the descriptors, or nothing when it fails; `ok` is
whether `pipealloc` finds two files and a page. -/
def pipe (ok : Bool) (t : Table) (n : Nat) : Option (Nat × Nat × Table) :=
  if ok then
    match fdalloc t with
    | some fd0 =>
      match fdalloc (t.set fd0 (.readEnd n)) with
      | some fd1 => some (fd0, fd1, (t.set fd0 (.readEnd n)).set fd1 (.writeEnd n))
      | none => none
    | none => none
  else none

/-! ## What the kernel answers -/

/-- Which calls for one part of a command succeed: its two `fork`s, `pipealloc`, `open`,
and the two tries of `exec`. -/
structure Answers where
  fork : Bool
  fork2 : Bool
  pipealloc : Bool
  opened : Bool
  exec : Bool
  exec2 : Bool

/-- The answers for each part of a command, which is named by the way to it: `true` is the
right part of a list or of a pipe. -/
abbrev Kernel : Type := List Bool → Answers

def Kernel.sub (k : Kernel) (part : Bool) : Kernel := fun way => k (part :: way)

/-- No call fails. -/
def Kernel.Grants (k : Kernel) : Prop := ∀ way, k way = ⟨true, true, true, true, true, true⟩

theorem Kernel.Grants.sub {k : Kernel} (h : k.Grants) (part : Bool) : (k.sub part).Grants :=
  fun way => h (part :: way)

/-! ## Running a command -/

/-- What a process comes to: a program that was started by its path, or a shell that waits
for its children.  One in which `strcpy` has written past `ncmd` may do anything. -/
inductive Role
  | program (path : Text) (argv : List Text)
  | waiting
  | overrun
  deriving DecidableEq, Repr

/-- The pipes made so far are the numbers below `pipes`; `said` are the messages. -/
structure World where
  pipes : Nat
  procs : List (Role × Table)
  said : List Text

def World.add (w : World) (r : Role) (t : Table) : World :=
  { w with procs := w.procs ++ [(r, t)] }

def World.say (w : World) (s : Text) : World := { w with said := w.said ++ [s] }

/-- `printf(2, "exec %s failed\n", name)`, and the same for `open` -/
def failed (call name : Text) : Text := call ++ ' ' :: name ++ " failed\n".toList

/-- `panic("fork")` and `panic("pipe")` -/
def panicked (s : Text) : Text := s ++ ['\n']

/-- The two tries of `exec`; `ncmd` has 20 bytes, for a slash, the name and its NUL. -/
def Answers.start (a : Answers) (arg : Text) (argv : List Text) : Except Text Role :=
  if a.exec then .ok (.program arg (arg :: argv))
  else if arg.length + 2 ≤ 20 then
    if a.exec2 then .ok (.program ('/' :: arg) (arg :: argv))
    else .error (failed "exec".toList arg)
  else .ok .overrun

/-- `runcmd(cmd)` in a process with the descriptors `t`.  A `fork` runs the branch of the
child on a copy of them. -/
def runcmd (k : Kernel) : Command → Table → World → World
  | .exec [], _, w => w
  | .exec (arg :: argv), t, w =>
    match (k []).start arg argv with
    | .ok role => w.add role t
    | .error message => w.say message
  | .redir cmd file mode fd, t, w =>
    match openfile (k []).opened (close t fd) file mode with
    | some t => runcmd (k.sub false) cmd t w
    | none => w.say (failed "open".toList file)
  | .list left right, t, w =>
    if (k []).fork then
      runcmd (k.sub true) right t ((runcmd (k.sub false) left t w).add .waiting t)
    else w.say (panicked "fork".toList)
  | .pipe left right, t, w =>
    match pipe (k []).pipealloc t w.pipes with
    | some (p0, p1, t) =>
      let w := { w with pipes := w.pipes + 1 }
      if (k []).fork then
        let w := runcmd (k.sub false) left (close (close (dup (close t 1) p1) p0) p1) w
        if (k []).fork2 then
          let w := runcmd (k.sub true) right (close (close (dup (close t 0) p0) p0) p1) w
          w.add .waiting (close (close t p0) p1)
        else w.say (panicked "fork".toList)
      else w.say (panicked "fork".toList)
    | none => w.say (panicked "pipe".toList)
  | .back cmd, t, w =>
    if (k []).fork then runcmd (k.sub false) cmd t w else w.say (panicked "fork".toList)

/-! ## What it is for -/

/-- A process with its standard input and output. -/
structure Process where
  role : Role
  stdin : File
  stdout : File
  deriving DecidableEq, Repr

/-- The processes of a command, its messages, and the number of pipes when they are there. -/
structure Plan where
  procs : List Process
  said : List Text
  pipes : Nat

namespace Plan

def nothing (n : Nat) : Plan := ⟨[], [], n⟩

def one (r : Process) (n : Nat) : Plan := ⟨[r], [], n⟩

def message (s : Text) (n : Nat) : Plan := ⟨[], [s], n⟩

/-- `a`, and then `b` with its pipes. -/
def andThen (a b : Plan) : Plan := ⟨a.procs ++ b.procs, a.said ++ b.said, b.pipes⟩

end Plan

/-- What a command that runs with a standard input and output comes to, when `n` pipes were
made before. -/
def plumb (k : Kernel) : Command → File → File → Nat → Plan
  | .exec [], _, _, n => .nothing n
  | .exec (arg :: argv), i, o, n =>
    match (k []).start arg argv with
    | .ok role => .one ⟨role, i, o⟩ n
    | .error message => .message message n
  | .redir cmd file mode fd, i, o, n =>
    if (k []).opened then
      plumb (k.sub false) cmd (if fd = 0 then .named file mode else i)
        (if fd = 1 then .named file mode else o) n
    else .message (failed "open".toList file) n
  | .list left right, i, o, n =>
    if (k []).fork then
      let l := (plumb (k.sub false) left i o n).andThen (.one ⟨.waiting, i, o⟩
        (plumb (k.sub false) left i o n).pipes)
      l.andThen (plumb (k.sub true) right i o l.pipes)
    else .message (panicked "fork".toList) n
  | .pipe left right, i, o, n =>
    if (k []).pipealloc then
      if (k []).fork then
        let l := plumb (k.sub false) left i (.writeEnd n) (n + 1)
        if (k []).fork2 then
          let r := plumb (k.sub true) right (.readEnd n) o l.pipes
          (l.andThen r).andThen (.one ⟨.waiting, i, o⟩ r.pipes)
        else l.andThen (.message (panicked "fork".toList) l.pipes)
      else .message (panicked "fork".toList) (n + 1)
    else .message (panicked "pipe".toList) n
  | .back cmd, i, o, n =>
    if (k []).fork then plumb (k.sub false) cmd i o n else .message (panicked "fork".toList) n

/-- The programs that a process is to run. -/
def Role.argv : Role → Option (List Text)
  | .program _ argv => some argv
  | _ => none

/-- The programs of a command, as they stand on the line. -/
def Command.programs : Command → List (List Text)
  | .exec [] => []
  | .exec (arg :: argv) => [arg :: argv]
  | .redir cmd _ _ _ => cmd.programs
  | .list left right => left.programs ++ right.programs
  | .pipe left right => left.programs ++ right.programs
  | .back cmd => cmd.programs

variable {K : Kernel} {t : Table} {fd n p k : Nat} {f g i o : File} {c : Command} {w : World}
  {r : Process}

/-- The descriptors with the standard input and output set. -/
def Table.std (t : Table) (i o : File) : Table := (t.set 0 i).set 1 o

/-! ## The lowest descriptor -/

theorem fdalloc_iff : fdalloc t = some fd ↔
    fd < NOFILE ∧ t fd = none ∧ ∀ k < fd, t k ≠ none := by
  unfold fdalloc
  rw [List.find?_range_eq_some]
  simp only [Option.isNone_iff_eq_none, List.mem_range, Bool.not_eq_true',
    Option.isNone_eq_false_iff, Option.isSome_iff_ne_none]
  tauto

theorem fdalloc_of_free (hfd : fd < NOFILE) (hfree : t fd = none) :
    ∃ k, fdalloc t = some k := by
  apply Option.isSome_iff_exists.1
  unfold fdalloc
  rw [List.find?_isSome]
  exact ⟨fd, List.mem_range.2 hfd, by simp [hfree]⟩

/-- Two descriptors beside the standard input and output are free. -/
def Spare (t : Table) : Prop :=
  ∃ a b, 1 < a ∧ a < b ∧ b < NOFILE ∧ t a = none ∧ t b = none

theorem std_apply (t : Table) (i o : File) (k : Nat) :
    t.std i o k = if k = 1 then some o else if k = 0 then some i else t k := by
  unfold Table.std Table.set
  rw [Function.update_apply, Function.update_apply]

theorem std_self {t : Table} (hi : t 0 = some i) (ho : t 1 = some o) : t.std i o = t := by
  funext k
  rw [std_apply]
  split
  · simp_all
  · split
    · simp_all
    · rfl

theorem set_apply (t : Table) (fd : Nat) (f : File) (k : Nat) :
    t.set fd f k = if k = fd then some f else t k := by
  unfold Table.set
  rw [Function.update_apply]

theorem close_apply (t : Table) (fd k : Nat) : close t fd k = if k = fd then none else t k := by
  unfold close
  rw [Function.update_apply]

theorem set_close : (close t fd).set fd f = t.set fd f := Function.update_idem ..

/-- The standard input or output, once it is closed, is the lowest descriptor. -/
theorem fdalloc_close (hfd : fd = 0 ∨ fd = 1 ∧ t 0 ≠ none) : fdalloc (close t fd) = some fd := by
  have hlt : fd < NOFILE := by
    unfold NOFILE
    omega
  refine fdalloc_iff.2 ⟨hlt, by rw [close_apply, if_pos rfl], fun k hk => ?_⟩
  obtain ⟨rfl, hopen⟩ : fd = 1 ∧ t 0 ≠ none := by
    refine hfd.resolve_left ?_
    omega
  obtain rfl : k = 0 := by omega
  rwa [close_apply, if_neg (by decide)]

theorem dup_close (hfd : fd = 0 ∨ fd = 1 ∧ t 0 ≠ none) (hp : t p = some f) (hne : p ≠ fd) :
    dup (close t fd) p = t.set fd f := by
  unfold dup
  rw [close_apply, if_neg hne, hp, fdalloc_close hfd, ← set_close]

theorem openfile_close {ok : Bool} {name : Text} {mode : Nat}
    (hfd : fd = 0 ∨ fd = 1 ∧ t 0 ≠ none) : openfile ok (close t fd) name mode =
      if ok then some (t.set fd (.named name mode)) else none := by
  unfold openfile
  rw [fdalloc_close hfd, ← set_close]

theorem std_ne_none (hk : k ≤ 1) : t.std i o k ≠ none := by
  rw [std_apply]
  split
  · simp
  · rw [if_pos (by omega)]
    simp

theorem std_other (hk : 1 < k) : t.std i o k = t k := by
  rw [std_apply, if_neg (by omega), if_neg (by omega)]

/-- `pipe` takes two descriptors that were free. -/
theorem pipe_std (ht : Spare t) : ∃ p0 p1, 1 < p0 ∧ p0 < p1 ∧ t p0 = none ∧ t p1 = none ∧
    pipe true (t.std i o) n =
      some (p0, p1, ((t.std i o).set p0 (.readEnd n)).set p1 (.writeEnd n)) := by
  obtain ⟨a, b, ha, hab, hb, hfa, hfb⟩ := ht
  obtain ⟨p0, hp0⟩ := fdalloc_of_free (t := t.std i o) (by omega) ((std_other ha).trans hfa)
  obtain ⟨-, hfree0, hlow0⟩ := fdalloc_iff.1 hp0
  have hlt0 : 1 < p0 := by
    by_contra hle
    exact std_ne_none (by omega) hfree0
  have hle0 : p0 ≤ a := by
    by_contra hlt
    exact hlow0 a (by omega) ((std_other ha).trans hfa)
  have hfree : (t.std i o).set p0 (.readEnd n) b = none := by
    rw [set_apply, if_neg (by omega), std_other (by omega), hfb]
  obtain ⟨p1, hp1⟩ := fdalloc_of_free hb hfree
  obtain ⟨-, hfree1, -⟩ := fdalloc_iff.1 hp1
  have hne : p1 ≠ p0 := by
    intro he
    rw [he, set_apply, if_pos rfl] at hfree1
    exact absurd hfree1 (by simp)
  rw [set_apply, if_neg hne] at hfree1
  have hlt1 : p0 < p1 := by
    by_contra hle
    exact hlow0 p1 (by omega) hfree1
  rw [std_other hlt0] at hfree0
  rw [std_other (by omega)] at hfree1
  refine ⟨p0, p1, hlt0, hlt1, hfree0, hfree1, ?_⟩
  unfold pipe
  rw [if_pos rfl, hp0]
  simp only [hp1]

/-! ## Running a command comes to plumbing -/

/-- A process that has closed both ends of the pipe has what it had before. -/
theorem close_both {p0 p1 : Nat} {t t' : Table} (h0 : 1 < p0) (h1 : p0 < p1) (hf0 : t p0 = none)
    (hf1 : t p1 = none) (hother : ∀ k, k ≠ p0 → k ≠ p1 → t' k = t.std i o k) :
    close (close t' p0) p1 = t.std i o := by
  funext k
  rw [close_apply, close_apply]
  by_cases hk1 : k = p1
  · rw [if_pos hk1, hk1, std_other (by omega), hf1]
  · rw [if_neg hk1]
    by_cases hk0 : k = p0
    · rw [if_pos hk0, hk0, std_other h0, hf0]
    · rw [if_neg hk0, hother k hk0 hk1]

theorem pipe_other {p0 p1 : Nat} {t : Table} (h0 : k ≠ p0) (h1 : k ≠ p1) :
    (t.set p0 f).set p1 g k = t k := by
  rw [set_apply, if_neg h1, set_apply, if_neg h0]

/-- The writer of a pipe keeps one end of it, as its standard output. -/
theorem writer_table {p0 p1 : Nat} (h0 : 1 < p0) (h1 : p0 < p1) (hf0 : t p0 = none)
    (hf1 : t p1 = none) :
    close (close (dup (close (((t.std i o).set p0 (.readEnd n)).set p1 (.writeEnd n)) 1) p1) p0)
      p1 = t.std i (.writeEnd n) := by
  have hopen : ((t.std i o).set p0 (.readEnd n)).set p1 (.writeEnd n) 0 ≠ none := by
    rw [pipe_other (by omega) (by omega)]
    exact std_ne_none (by decide)
  rw [dup_close (f := .writeEnd n) (Or.inr ⟨rfl, hopen⟩) (by rw [set_apply, if_pos rfl]) (by omega)]
  apply close_both h0 h1 hf0 hf1
  intro k hk0 hk1
  rw [set_apply, pipe_other hk0 hk1, std_apply, std_apply]
  split <;> rfl

/-- The reader of a pipe keeps the other end, as its standard input. -/
theorem reader_table {p0 p1 : Nat} (h0 : 1 < p0) (h1 : p0 < p1) (hf0 : t p0 = none)
    (hf1 : t p1 = none) :
    close (close (dup (close (((t.std i o).set p0 (.readEnd n)).set p1 (.writeEnd n)) 0) p0) p0)
      p1 = t.std (.readEnd n) o := by
  rw [dup_close (f := .readEnd n) (Or.inl rfl)
    (by rw [set_apply, if_neg (by omega), set_apply, if_pos rfl]) (by omega)]
  apply close_both h0 h1 hf0 hf1
  intro k hk0 hk1
  rw [set_apply, pipe_other hk0 hk1, std_apply, std_apply]
  by_cases hk : k = 0
  · rw [if_pos hk, if_neg (by omega), if_pos hk]
  · simp only [if_neg hk]

theorem set_std (hfd : fd = 0 ∨ fd = 1) :
    (t.std i o).set fd f = t.std (if fd = 0 then f else i) (if fd = 1 then f else o) := by
  funext k
  rw [set_apply, std_apply, std_apply]
  obtain rfl | rfl := hfd
  · by_cases hk : k = 0
    · rw [if_pos hk, if_neg (by omega), if_pos hk, if_pos rfl]
    · rw [if_neg hk, if_neg hk, if_neg hk, if_neg Nat.zero_ne_one]
  · by_cases hk : k = 1
    · rw [if_pos hk, if_pos hk, if_pos rfl]
    · rw [if_neg hk, if_neg hk, if_neg hk, if_neg Nat.one_ne_zero]

/-- The processes of a plan with the descriptors they have in a shell that has `t`. -/
def World.plumbed (w : World) (t : Table) (a : Plan) : World where
  pipes := a.pipes
  procs := w.procs ++ a.procs.map fun q => (q.role, t.std q.stdin q.stdout)
  said := w.said ++ a.said

theorem plumbed_nothing : w.plumbed t (.nothing w.pipes) = w := by
  simp [World.plumbed, Plan.nothing]

theorem plumbed_one {role : Role} :
    w.plumbed t (.one ⟨role, i, o⟩ w.pipes) = w.add role (t.std i o) := by
  simp [World.plumbed, World.add, Plan.one]

theorem plumbed_message {s : Text} : w.plumbed t (.message s w.pipes) = w.say s := by
  simp [World.plumbed, World.say, Plan.message]

theorem plumbed_andThen {a b : Plan} :
    w.plumbed t (a.andThen b) = (w.plumbed t a).plumbed t b := by
  simp [World.plumbed, Plan.andThen]

/-- The processes of a command have the standard input and output it is to have, and
otherwise what the shell has open. -/
theorem runcmd_std (hc : c.WellFormed) (ht : Spare t) :
    runcmd K c (t.std i o) w = w.plumbed t (plumb K c i o w.pipes) := by
  induction c generalizing K i o w with
  | exec argv =>
      cases argv with
      | nil => rw [runcmd, plumb, plumbed_nothing]
      | cons arg argv =>
          rw [runcmd, plumb]
          cases (K []).start arg argv with
          | ok role => exact plumbed_one.symm
          | error message => exact plumbed_message.symm
  | redir cmd file mode fd ih =>
      obtain ⟨hcmd, -, dir, rfl, rfl⟩ := hc
      have hfd : dir.fd = 0 ∨ dir.fd = 1 := by cases dir <;> decide
      rw [runcmd, openfile_close (hfd.imp_right fun h => ⟨h, std_ne_none (by decide)⟩), plumb]
      by_cases hopen : (K []).opened = true
      · rw [if_pos hopen, if_pos hopen]
        show runcmd _ cmd _ w = _
        rw [set_std hfd, ih hcmd]
      · rw [if_neg hopen, if_neg hopen]
        exact plumbed_message.symm
  | list left right ihl ihr =>
      rw [runcmd, plumb]
      by_cases hfork : (K []).fork = true
      · rw [if_pos hfork, if_pos hfork]
        dsimp only
        have hwait : (w.plumbed t (plumb (K.sub false) left i o w.pipes)).add .waiting (t.std i o) =
            (w.plumbed t (plumb (K.sub false) left i o w.pipes)).plumbed t
              (.one ⟨.waiting, i, o⟩ (plumb (K.sub false) left i o w.pipes).pipes) :=
          plumbed_one.symm
        rw [ihl hc.1, hwait, ihr hc.2, plumbed_andThen, plumbed_andThen]
        rfl
      · rw [if_neg hfork, if_neg hfork]
        exact plumbed_message.symm
  | pipe left right ihl ihr =>
      rw [runcmd, plumb]
      by_cases halloc : (K []).pipealloc = true
      · obtain ⟨p0, p1, h0, h1, hf0, hf1, hpipe⟩ := pipe_std (i := i) (o := o) (n := w.pipes) ht
        rw [halloc, hpipe, if_pos rfl]
        dsimp only
        rw [writer_table h0 h1 hf0 hf1, reader_table h0 h1 hf0 hf1,
          close_both h0 h1 hf0 hf1 fun k hk0 hk1 => pipe_other hk0 hk1, ihl hc.1]
        by_cases hfork : (K []).fork = true
        · rw [if_pos hfork, if_pos hfork]
          by_cases hfork2 : (K []).fork2 = true
          · rw [if_pos hfork2, if_pos hfork2, ihr hc.2, plumbed_andThen, plumbed_andThen]
            exact plumbed_one.symm
          · rw [if_neg hfork2, if_neg hfork2, plumbed_andThen]
            exact plumbed_message.symm
        · rw [if_neg hfork, if_neg hfork]
          exact (plumbed_message (w := { w with pipes := w.pipes + 1 })).symm
      · rw [Bool.eq_false_of_not_eq_true halloc, if_neg Bool.noConfusion]
        exact plumbed_message.symm
  | back cmd ih =>
      rw [runcmd, plumb]
      by_cases hfork : (K []).fork = true
      · rw [if_pos hfork, if_pos hfork]
        exact ih hc
      · rw [if_neg hfork, if_neg hfork]
        exact plumbed_message.symm

/-- The programs of a plan. -/
def Plan.programs (a : Plan) : List (List Text) := a.procs.filterMap fun q => q.role.argv

theorem programs_andThen (a b : Plan) :
    (a.andThen b).programs = a.programs ++ b.programs := List.filterMap_append

theorem programs_waiting : (Plan.one ⟨.waiting, i, o⟩ n).programs = [] := rfl

/-- When no call fails, all the programs of the command run. -/
theorem plumb_programs (hK : K.Grants) :
    (plumb K c i o n).programs = c.programs ∧ (plumb K c i o n).said = [] := by
  induction c generalizing K i o n with
  | exec argv =>
      cases argv with
      | nil => exact ⟨rfl, rfl⟩
      | cons arg argv =>
          rw [plumb, hK []]
          exact ⟨rfl, rfl⟩
  | redir cmd file mode fd ih =>
      rw [plumb, hK []]
      exact ih (hK.sub false)
  | list left right ihl ihr =>
      rw [plumb, hK [], if_pos rfl]
      obtain ⟨hl, hsl⟩ := ihl (i := i) (o := o) (n := n) (hK.sub false)
      dsimp only
      refine ⟨?_, ?_⟩
      · rw [programs_andThen, programs_andThen, hl, (ihr (hK.sub true)).1, programs_waiting,
          List.append_nil, Command.programs]
      · show (_ ++ []) ++ _ = []
        rw [hsl, (ihr (hK.sub true)).2]
        rfl
  | pipe left right ihl ihr =>
      rw [plumb, hK [], if_pos rfl, if_pos rfl]
      dsimp only
      rw [if_pos rfl]
      refine ⟨?_, ?_⟩
      · rw [programs_andThen, programs_andThen, (ihl (hK.sub false)).1, (ihr (hK.sub true)).1,
          programs_waiting, List.append_nil, Command.programs]
      · show (_ ++ _) ++ [] = []
        rw [(ihl (hK.sub false)).2, (ihr (hK.sub true)).2]
        rfl
  | back cmd ih =>
      rw [plumb, hK [], if_pos rfl]
      exact ih (hK.sub false)

/-- The programs that run. -/
def World.programs (w : World) : List (List Text) := w.procs.filterMap fun q => q.1.argv

theorem programs_plumbed (a : Plan) : (w.plumbed t a).programs = w.programs ++ a.programs := by
  simp [World.programs, World.plumbed, Plan.programs, List.filterMap_map]

/-- A shell that has `t` runs a command as it is meant to be run, whatever fails; and when
nothing fails it runs all of it, and has nothing to say. -/
theorem runcmd_plumb (K : Kernel) (w : World) (hc : c.WellFormed) (hi : t 0 = some i)
    (ho : t 1 = some o) (ht : Spare t) :
    runcmd K c t w = w.plumbed t (plumb K c i o w.pipes) ∧
      (K.Grants → (runcmd K c t w).programs = w.programs ++ c.programs ∧
        (runcmd K c t w).said = w.said) := by
  have hrun : runcmd K c t w = w.plumbed t (plumb K c i o w.pipes) := by
    rw [← runcmd_std hc ht, std_self hi ho]
  refine ⟨hrun, fun hK => ⟨?_, ?_⟩⟩
  · rw [hrun, programs_plumbed, (plumb_programs hK).1]
  · rw [hrun]
    show w.said ++ (plumb K c i o w.pipes).said = w.said
    rw [(plumb_programs hK).2, List.append_nil]

/-- The descriptors that `main` leaves the shell with. -/
def consoles : Table := fun k => if k < 3 then some (.given 0) else none

theorem spare_consoles : Spare consoles := ⟨3, 4, by decide, by decide, by decide, rfl, rfl⟩

/-- `a | b > c` -/
def piped : Command := .pipe (.exec [['a']]) (.redir (.exec [['b']]) ['c'] 0x201 1)

theorem wellFormed_piped : piped.WellFormed := by
  have hword : ∀ c, wordChar c = true ∧ c ≠ NUL → Proper [c] := fun c hc =>
    ⟨by simp, by simpa using hc.1, by simpa using hc.2.symm⟩
  refine ⟨⟨by decide, ?_⟩, ⟨by decide, ?_⟩, hword 'c' (by decide), .output, rfl, rfl⟩
  · intro w hw
    exact List.mem_singleton.1 hw ▸ hword 'a' (by decide)
  · intro w hw
    exact List.mem_singleton.1 hw ▸ hword 'b' (by decide)

/-- Everything succeeds. -/
def willing : Kernel := fun _ => ⟨true, true, true, true, true, true⟩

/-- Everything but the `open` of the reader. -/
def closedOut : Kernel := fun way => { willing way with opened := way != [true] }

/-- When `c` cannot be opened, `a` is started and writes to a pipe that nobody reads. -/
theorem runcmd_plumb_piped :
    (runcmd willing piped consoles ⟨0, [], []⟩ = World.plumbed ⟨0, [], []⟩ consoles
      ⟨[⟨.program ['a'] [['a']], .given 0, .writeEnd 0⟩,
        ⟨.program ['b'] [['b']], .readEnd 0, .named ['c'] 0x201⟩,
        ⟨.waiting, .given 0, .given 0⟩], [], 1⟩ ∧
      (runcmd willing piped consoles ⟨0, [], []⟩).programs = [[['a']], [['b']]]) ∧
    runcmd closedOut piped consoles ⟨0, [], []⟩ = World.plumbed ⟨0, [], []⟩ consoles
      ⟨[⟨.program ['a'] [['a']], .given 0, .writeEnd 0⟩, ⟨.waiting, .given 0, .given 0⟩],
        ["open c failed\n".toList], 1⟩ :=
  ⟨⟨(runcmd_plumb willing ⟨0, [], []⟩ wellFormed_piped rfl rfl spare_consoles).1,
    ((runcmd_plumb willing ⟨0, [], []⟩ wellFormed_piped rfl rfl spare_consoles).2
      fun _ => rfl).1⟩,
    (runcmd_plumb closedOut ⟨0, [], []⟩ wellFormed_piped rfl rfl spare_consoles).1⟩

/-! ## The ends of the pipes -/

/-- The standard input and output of a process, when `n` pipes have been made: it reads from
no pipe that it writes to. -/
structure Wired (n : Nat) (i o : File) : Prop where
  input : ∀ p, i ≠ .writeEnd p
  output : ∀ p, o ≠ .readEnd p
  reads : ∀ p, i = .readEnd p → p < n
  writes : ∀ p, o = .writeEnd p → p < n
  apart : ∀ p, i = .readEnd p → o ≠ .writeEnd p

theorem Wired.mono (h : Wired n i o) (hn : n ≤ p) : Wired p i o where
  input := h.input
  output := h.output
  reads := fun q hq => Nat.lt_of_lt_of_le (h.reads q hq) hn
  writes := fun q hq => Nat.lt_of_lt_of_le (h.writes q hq) hn
  apart := h.apart

/-- What writes to a new pipe. -/
theorem Wired.writer (h : Wired n i o) : Wired (n + 1) i (.writeEnd n) where
  input := h.input
  output := by simp
  reads := fun q hq => Nat.lt_succ_of_lt (h.reads q hq)
  writes := by
    intro q hq
    obtain rfl := File.writeEnd.inj hq
    exact Nat.lt_succ_self _
  apart := by
    intro q hq he
    obtain rfl := File.writeEnd.inj he
    exact Nat.lt_irrefl _ (h.reads _ hq)

/-- What reads from a new pipe. -/
theorem Wired.reader (h : Wired n i o) (hn : n < p) : Wired p (.readEnd n) o where
  input := by simp
  output := h.output
  reads := by
    intro q hq
    obtain rfl := File.readEnd.inj hq
    exact hn
  writes := fun q hq => Nat.lt_trans (h.writes q hq) hn
  apart := by
    intro q hq he
    obtain rfl := File.readEnd.inj hq
    exact Nat.lt_irrefl _ (h.writes _ he)

theorem Wired.redir {name : Text} {mode : Nat} (h : Wired n i o) :
    Wired n (if fd = 0 then .named name mode else i) (if fd = 1 then .named name mode else o) := by
  constructor
  all_goals intro q
  all_goals split
  all_goals first
    | exact h.input q
    | exact h.output q
    | exact h.reads q
    | exact h.writes q
    | simp
  · split
    · simp
    · exact h.apart q

theorem plumb_pipes (c : Command) (i o : File) (n : Nat) : n ≤ (plumb K c i o n).pipes := by
  induction c generalizing K i o n with
  | exec argv =>
      cases argv with
      | nil => exact Nat.le_refl n
      | cons arg argv =>
          rw [plumb]
          split <;> exact Nat.le_refl n
  | redir cmd file mode fd ih =>
      rw [plumb]
      split
      · exact ih ..
      · exact Nat.le_refl n
  | list left right ihl ihr =>
      rw [plumb]
      split
      · exact Nat.le_trans (ihl i o n) (ihr ..)
      · exact Nat.le_refl n
  | pipe left right ihl ihr =>
      rw [plumb]
      split
      · split
        · have hleft := ihl (K := K.sub false) i (.writeEnd n) (n + 1)
          dsimp only
          split
          · exact Nat.le_trans (Nat.le_of_succ_le hleft) (ihr ..)
          · exact Nat.le_of_succ_le hleft
        · exact Nat.le_succ n
      · exact Nat.le_refl n
  | back cmd ih =>
      rw [plumb]
      split
      · exact ih i o n
      · exact Nat.le_refl n

theorem mem_andThen {a b : Plan} : r ∈ (a.andThen b).procs ↔ r ∈ a.procs ∨ r ∈ b.procs :=
  List.mem_append

theorem plumb_wired (h : Wired n i o) (hr : r ∈ (plumb K c i o n).procs) :
    ∃ m, Wired m r.stdin r.stdout := by
  induction c generalizing K i o n with
  | exec argv =>
      cases argv with
      | nil => exact absurd hr List.not_mem_nil
      | cons arg argv =>
          rw [plumb] at hr
          split at hr
          · obtain rfl := List.mem_singleton.1 hr
            exact ⟨n, h⟩
          · exact absurd hr List.not_mem_nil
  | redir cmd file mode fd ih =>
      rw [plumb] at hr
      split at hr
      · exact ih h.redir hr
      · exact absurd hr List.not_mem_nil
  | list left right ihl ihr =>
      rw [plumb] at hr
      split at hr
      · obtain hr | hr := mem_andThen.1 hr
        · obtain hr | hr := mem_andThen.1 hr
          · exact ihl h hr
          · obtain rfl := List.mem_singleton.1 hr
            exact ⟨n, h⟩
        · exact ihr (h.mono (plumb_pipes ..)) hr
      · exact absurd hr List.not_mem_nil
  | pipe left right ihl ihr =>
      rw [plumb] at hr
      split at hr
      · split at hr
        · dsimp only at hr
          split at hr
          · obtain hr | hr := mem_andThen.1 hr
            · obtain hr | hr := mem_andThen.1 hr
              · exact ihl h.writer hr
              · exact ihr (h.reader (plumb_pipes ..)) hr
            · obtain rfl := List.mem_singleton.1 hr
              exact ⟨n, h⟩
          · obtain hr | hr := mem_andThen.1 hr
            · exact ihl h.writer hr
            · exact absurd hr List.not_mem_nil
        · exact absurd hr List.not_mem_nil
      · exact absurd hr List.not_mem_nil
  | back cmd ih =>
      rw [plumb] at hr
      split at hr
      · exact ih h hr
      · exact absurd hr List.not_mem_nil

/-- No end of a pipe is open. -/
def NoPipes (t : Table) : Prop := ∀ k p, t k ≠ some (.readEnd p) ∧ t k ≠ some (.writeEnd p)

theorem std_readEnd (hno : NoPipes t) (hw : Wired n i o) (h : t.std i o k = some (.readEnd p)) :
    i = .readEnd p := by
  rw [std_apply] at h
  split at h
  · exact absurd (Option.some.inj h) (hw.output p)
  · split at h
    · exact Option.some.inj h
    · exact absurd h (hno k p).1

theorem std_writeEnd (hno : NoPipes t) (hw : Wired n i o) (h : t.std i o k = some (.writeEnd p)) :
    o = .writeEnd p := by
  rw [std_apply] at h
  split at h
  · exact Option.some.inj h
  · split at h
    · exact absurd (Option.some.inj h) (hw.input p)
    · exact absurd h (hno k p).2

/-- No process of a command has both ends of a pipe open, so a program that reads a pipe
to its end does not wait for itself, and no shell that waits keeps a pipe open. -/
theorem one_end (K : Kernel) (hc : c.WellFormed) (hi : t 0 = some i) (ho : t 1 = some o)
    (ht : Spare t) (hno : NoPipes t) {role : Role} {u : Table}
    (hu : (role, u) ∈ (runcmd K c t ⟨n, [], []⟩).procs) (p : Nat) :
    ¬ ((∃ k, u k = some (.readEnd p)) ∧ ∃ k, u k = some (.writeEnd p)) := by
  have hwired : Wired n i o := by
    constructor
    all_goals intro q
    · exact fun he => (hno 0 q).2 (he ▸ hi)
    · exact fun he => (hno 1 q).1 (he ▸ ho)
    · exact fun he => absurd (he ▸ hi) (hno 0 q).1
    · exact fun he => absurd (he ▸ ho) (hno 1 q).2
    · exact fun he => absurd (he ▸ hi) (hno 0 q).1
  rw [← std_self hi ho, runcmd_std hc ht] at hu
  obtain ⟨r, hr, he⟩ := List.mem_map.1 hu
  obtain ⟨m, hw⟩ := plumb_wired hwired hr
  obtain ⟨-, rfl⟩ := Prod.mk.inj he
  intro ⟨⟨k, hk⟩, k', hk'⟩
  exact hw.apart p (std_readEnd hno hw hk) (std_writeEnd hno hw hk')

theorem noPipes_consoles : NoPipes consoles := by
  intro k p
  unfold consoles
  split <;> simp

theorem reader_mem :
    (Role.program ['b'] [['b']], consoles.std (.readEnd 0) (.named ['c'] 0x201)) ∈
      (runcmd willing piped consoles ⟨0, [], []⟩).procs := by
  have hself : consoles.std (.given 0) (.given 0) = consoles := std_self rfl rfl
  rw [← hself, runcmd_std wellFormed_piped spare_consoles, hself]
  exact List.mem_cons_of_mem _ List.mem_cons_self

theorem one_end_piped :
    ¬ ((∃ k, consoles.std (.readEnd 0) (.named ['c'] 0x201) k = some (.readEnd 0)) ∧
      ∃ k, consoles.std (.readEnd 0) (.named ['c'] 0x201) k = some (.writeEnd 0)) :=
  one_end willing wellFormed_piped rfl rfl spare_consoles noPipes_consoles reader_mem 0

end Shell
end CS444
