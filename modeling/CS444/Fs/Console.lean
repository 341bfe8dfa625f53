/-
The line discipline of the console.

The keyboard puts keys into a ring and `consoleread` takes them out; three counters modulo
`2 ^ 32` say how far a reader may go, how far keys are final, and where the next one goes.
`console_refines`: with any number of readers, in every order of interrupts and reads, this
is a text of three parts, what was read, what can be read and the line that is still being
edited, and the screen shows just that text.  `reads_typed`: as long as the ring does not
fill up, the readers together get the text that was typed, edited and cut into lines, each
byte once and in order, however the reads fall between the interrupts.  `reads_served`: a
read returns a line or a part of one, and nobody waits for a ring that is full.

A step is what runs under `cons.lock`: a call of `consoleintr`, or a part of `consoleread`
up to `sleep` or the end.  `getc` gives bytes, and `consoleread` leaves out the lock of
the inode.  `read_consoleIn`: what can be read here is the `consoleIn` of the kernel.
-/
import CS444.Fs.Inode
import CS444.Lib.RingQueue
import CS444.Lib.Runs

namespace CS444
namespace Fs
namespace Console

open Runs RingQueue Program

def INPUT_BUF : Nat := 128

/-- `C(x)` -/
def C (x : Char) : UInt8 := (x.toNat - '@'.toNat).toUInt8

def newline : UInt8 := 10

/-- `input`, and the calls of `consputc` so far; nothing is `BACKSPACE`. -/
structure Input where
  buf : Nat → UInt8
  r : Nat
  w : Nat
  e : Nat
  out : List (Option UInt8)

/-- `x--` of a `uint` -/
def dec (x : Nat) : Nat := (x + (2 ^ 32 - 1)) % 2 ^ 32

/-- `x++` of a `uint` -/
def inc (x : Nat) : Nat := (x + 1) % 2 ^ 32

/-- `x - y` of `uint`s -/
def sub (x y : Nat) : Nat := (x + 2 ^ 32 - y) % 2 ^ 32

namespace Input

/-- `input.e--; consputc(BACKSPACE);` -/
def erase (s : Input) : Input :=
  { s with e := dec s.e, out := s.out ++ [none] }

/-- `input.buf[input.e++ % INPUT_BUF] = c; consputc(c);` -/
def put (s : Input) (c : UInt8) : Input :=
  { s with
    buf := Function.update s.buf (s.e % INPUT_BUF) c
    e := inc s.e
    out := s.out ++ [some c] }

/-- The loop of control-U, which makes no more than `input.e - input.w` turns. -/
def killLine : Nat → Input → Input
  | 0, s => s
  | n + 1, s =>
    if s.e ≠ s.w ∧ s.buf (dec s.e % INPUT_BUF) ≠ newline then
      killLine n s.erase
    else s

/-- `input.w = input.e`, when the line ends or the ring is full. -/
def commit (s : Input) (c : UInt8) : Input :=
  if c = newline ∨ c = C 'D' ∨ s.e = (s.r + INPUT_BUF) % 2 ^ 32 then { s with w := s.e } else s

/-- The `switch` of `consoleintr`; control-P only lists the processes. -/
def key (s : Input) (c : UInt8) : Input :=
  if c = C 'P' then s
  else if c = C 'U' then killLine (sub s.e s.w) s
  else if c = C 'H' ∨ c = 127 then
    if s.e ≠ s.w then s.erase else s
  else if c ≠ 0 ∧ sub s.e s.r < INPUT_BUF then
    (s.put (if c = 13 then newline else c)).commit (if c = 13 then newline else c)
  else s

def consoleintr (s : Input) (keys : Str) : Input := keys.foldl key s

/-- The loop of `consoleread` with `n` bytes to go and these bytes read: what it has then,
and how many are to go if it sleeps. -/
def consoleread (target : Nat) : Nat → Input → Str → Input × Str × Option Nat
  | 0, s, got => (s, got, none)
  | n + 1, s, got =>
    if s.r = s.w then (s, got, some (n + 1))
    else
      let c := s.buf (s.r % INPUT_BUF)
      let s := { s with r := inc s.r }
      if c = C 'D' then
        -- control-D is kept for the next call, which then reads nothing
        if n + 1 < target then ({ s with r := dec s.r }, got, none)
        else (s, got, none)
      else if c = newline then (s, got ++ [c], none)
      else consoleread target n s (got ++ [c])

end Input

/-! ## The text -/

/-- What was read, what can be read and what can still be edited. -/
structure Text where
  taken : Str
  ready : Str
  line : Str

namespace Text

def put (t : Text) (c : UInt8) : Text :=
  if c = newline ∨ c = C 'D' ∨ (t.ready ++ t.line).length + 1 = INPUT_BUF then
    ⟨t.taken, t.ready ++ t.line ++ [c], []⟩
  else { t with line := t.line ++ [c] }

def key (t : Text) (c : UInt8) : Text :=
  if c = C 'P' then t
  else if c = C 'U' then { t with line := [] }
  else if c = C 'H' ∨ c = 127 then { t with line := t.line.dropLast }
  else if c ≠ 0 ∧ (t.ready ++ t.line).length < INPUT_BUF then
    t.put (if c = 13 then newline else c)
  else t

/-- A read goes to the end of a line, to control-D or until it has all it wants. -/
def read (target : Nat) : Nat → Text → Str → Text × Str × Option Nat
  | 0, t, got => (t, got, none)
  | n + 1, ⟨taken, [], line⟩, got => (⟨taken, [], line⟩, got, some (n + 1))
  | n + 1, ⟨taken, c :: ready, line⟩, got =>
    if c = C 'D' then
      if n + 1 < target then (⟨taken, c :: ready, line⟩, got, none)
      else (⟨taken ++ [c], ready, line⟩, got, none)
    else if c = newline then (⟨taken ++ [c], ready, line⟩, got ++ [c], none)
    else read target n ⟨taken ++ [c], ready, line⟩ (got ++ [c])

end Text

/-- What calls of `consputc` leave on the screen. -/
def shown (out : List (Option UInt8)) : Str :=
  out.foldl (fun text c => c.elim text.dropLast fun c => text ++ [c]) []

/-- The ring holds what can be read and, behind the mark, the line.  A line that fills the
ring is no longer edited. -/
structure Shows (s : Input) (t : Text) : Prop where
  ring : Queued s.buf INPUT_BUF (2 ^ 32) s.r s.e (t.ready ++ t.line)
  mark : s.w = (s.r + t.ready.length) % 2 ^ 32
  plain : newline ∉ t.line
  room : t.line ≠ [] → (t.ready ++ t.line).length < INPUT_BUF
  screen : shown s.out = t.taken ++ t.ready ++ t.line

variable {s : Input} {t : Text} {c : UInt8} {n target : Nat} {got : Str}

theorem dvd_counters : INPUT_BUF ∣ 2 ^ 32 := ⟨2 ^ 25, rfl⟩

theorem lt_counters : INPUT_BUF < 2 ^ 32 := by decide

-- `rfl` on an open state would try to unify the counters

@[simp] theorem erase_buf (s : Input) : s.erase.buf = s.buf := by cases s; rfl

@[simp] theorem erase_r (s : Input) : s.erase.r = s.r := by cases s; rfl

@[simp] theorem erase_w (s : Input) : s.erase.w = s.w := by cases s; rfl

theorem not_mem_concat {b : UInt8} {l : Str} (hl : b ∉ l) (hc : c ≠ b) : b ∉ l ++ [c] := by
  rw [List.mem_append, List.mem_singleton, not_or]
  exact ⟨hl, hc.symm⟩

theorem shown_concat (out : List (Option UInt8)) (c : Option UInt8) : shown (out ++ [c]) =
    c.elim (shown out).dropLast fun c => shown out ++ [c] := by
  rw [shown, List.foldl_append]
  rfl

/-! ## Keys -/

theorem Shows.front (h : Shows s t) : Queued s.buf INPUT_BUF (2 ^ 32) s.r s.w t.ready := by
  rw [h.mark]
  exact h.ring.front

/-- There is a line to edit when the edit index is not at the mark. -/
theorem Shows.edit_iff (h : Shows s t) : s.e = s.w ↔ t.line = [] := by
  rw [h.mark]
  exact h.ring.mark_iff lt_counters

theorem Shows.typed (h : Shows s t) : sub s.e s.w = t.line.length := by
  rw [h.mark]
  exact h.ring.length_behind lt_counters

theorem Shows.used (h : Shows s t) : sub s.e s.r = (t.ready ++ t.line).length :=
  h.ring.length_eq lt_counters

theorem Shows.erase {line : Str} (h : Shows s t) (hline : t.line = line ++ [c]) :
    s.buf (dec s.e % INPUT_BUF) = c ∧ Shows s.erase { t with line := line } := by
  have hring := h.ring
  rw [hline, ← List.append_assoc] at hring
  obtain ⟨hc, hring⟩ := hring.unpush dvd_counters
  refine ⟨hc, ?_, ?_, ?_, ?_, ?_⟩
  · rw [erase_buf, erase_r]
    exact hring
  · rw [erase_w, erase_r]
    exact h.mark
  · intro hmem
    apply h.plain
    rw [hline]
    exact List.mem_append_left _ hmem
  · intro _
    have hroom := h.room (by simp [hline])
    rw [hline, ← List.append_assoc, List.length_append] at hroom
    exact Nat.lt_of_le_of_lt (Nat.le_add_right ..) hroom
  · show shown (s.out ++ [none]) = _
    rw [shown_concat, Option.elim_none, h.screen, hline, ← List.append_assoc,
      List.dropLast_concat]

theorem Shows.killLine {n : Nat} (h : Shows s t) (hn : t.line.length ≤ n) :
    Shows (s.killLine n) { t with line := [] } := by
  induction n generalizing s t with
  | zero =>
      have hline : t.line = [] := List.length_eq_zero_iff.1 (Nat.le_zero.1 hn)
      rw [← hline]
      exact h
  | succ n ih =>
      unfold Input.killLine
      by_cases hline : t.line = []
      · rw [if_neg (fun hcond => hcond.1 (h.edit_iff.2 hline)), ← hline]
        exact h
      · obtain ⟨line, c, hlast⟩ := (List.eq_nil_or_concat t.line).resolve_left hline
        rw [List.concat_eq_append] at hlast
        obtain ⟨hc, herase⟩ := h.erase hlast
        have hplain : c ≠ newline := by
          rintro rfl
          apply h.plain
          rw [hlast]
          simp
        rw [if_pos ⟨fun he => hline (h.edit_iff.1 he), hc ▸ hplain⟩]
        refine ih (t := { t with line := line }) herase ?_
        rw [hlast, List.length_append, List.length_singleton] at hn
        exact Nat.le_of_succ_le_succ hn

theorem Shows.put (h : Shows s t)
    (hroom : (t.ready ++ t.line).length < INPUT_BUF) :
    Shows ((s.put c).commit c) (t.put c) := by
  have hring := h.ring.push (c := c) dvd_counters hroom
  rw [List.append_assoc] at hring
  have hscreen : shown (s.out ++ [some c]) = t.taken ++ t.ready ++ (t.line ++ [c]) := by
    rw [shown_concat, Option.elim_some, h.screen, List.append_assoc _ t.line]
  have hfull : (s.put c).e = ((s.put c).r + INPUT_BUF) % 2 ^ 32 ↔
      (t.ready ++ t.line).length + 1 = INPUT_BUF := by
    refine (hring.full_iff lt_counters).trans ?_
    rw [← List.append_assoc, List.length_append, List.length_singleton]
  have hends := or_congr_right (a := c = newline) (or_congr_right (a := c = C 'D') hfull)
  unfold Input.commit Text.put
  by_cases hend : c = newline ∨ c = C 'D' ∨ (t.ready ++ t.line).length + 1 = INPUT_BUF
  · rw [if_pos hend, if_pos (hends.2 hend)]
    refine ⟨?_, ?_, List.not_mem_nil, fun hne => absurd rfl hne, ?_⟩
    · rw [List.append_nil, List.append_assoc]
      exact hring
    · show (s.put c).e = _
      rw [List.append_assoc]
      exact hring.wr_eq
    · show shown (s.out ++ [some c]) = _
      rw [hscreen]
      simp
  · rw [if_neg hend, if_neg fun h => hend (hends.1 h)]
    refine ⟨hring, h.mark, ?_, fun _ => ?_, hscreen⟩
    · have hne : c ≠ newline := fun he => hend (Or.inl he)
      exact not_mem_concat h.plain hne
    · have hless : (t.ready ++ t.line).length + 1 ≠ INPUT_BUF := fun he =>
        hend (Or.inr (Or.inr he))
      show (t.ready ++ (t.line ++ [c])).length < INPUT_BUF
      rw [← List.append_assoc, List.length_append, List.length_singleton]
      omega

/-- The same key acts on the ring and on the text. -/
theorem Shows.key (h : Shows s t) : Shows (s.key c) (t.key c) := by
  unfold Input.key Text.key
  by_cases hp : c = C 'P'
  · rw [if_pos hp, if_pos hp]
    exact h
  rw [if_neg hp, if_neg hp]
  by_cases hu : c = C 'U'
  · rw [if_pos hu, if_pos hu]
    exact h.killLine h.typed.ge
  rw [if_neg hu, if_neg hu]
  by_cases hh : c = C 'H' ∨ c = 127
  · rw [if_pos hh, if_pos hh]
    by_cases hline : t.line = []
    · rw [if_neg (not_not.2 (h.edit_iff.2 hline)), hline, List.dropLast_nil, ← hline]
      exact h
    · rw [if_pos fun he => hline (h.edit_iff.1 he)]
      obtain ⟨line, b, hlast⟩ := (List.eq_nil_or_concat t.line).resolve_left hline
      rw [List.concat_eq_append] at hlast
      rw [hlast, List.dropLast_concat]
      exact (h.erase hlast).2
  rw [if_neg hh, if_neg hh, h.used]
  by_cases hroom : c ≠ 0 ∧ (t.ready ++ t.line).length < INPUT_BUF
  · rw [if_pos hroom, if_pos hroom]
    exact h.put hroom.2
  · rw [if_neg hroom, if_neg hroom]
    exact h

theorem Shows.consoleintr {keys : Str} (h : Shows s t) :
    Shows (s.consoleintr keys) (keys.foldl Text.key t) := by
  induction keys generalizing s t with
  | nil => exact h
  | cons c keys ih => exact ih h.key

/-! ## Reads -/

theorem dec_inc {x : Nat} (hx : x < 2 ^ 32) : dec (inc x) = x := by
  unfold dec inc
  omega

theorem Shows.taken {ready : Str} (h : Shows s t) (hready : t.ready = c :: ready) :
    s.buf (s.r % INPUT_BUF) = c ∧
      Shows { s with r := inc s.r } ⟨t.taken ++ [c], ready, t.line⟩ := by
  have hring := h.ring
  rw [hready, List.cons_append] at hring
  obtain ⟨hc, hring⟩ := hring.pop dvd_counters
  refine ⟨hc, hring, ?_, h.plain, fun hne => ?_, ?_⟩
  · show s.w = (inc s.r + ready.length) % 2 ^ 32
    rw [h.mark, hready, List.length_cons, inc, Nat.mod_add_mod]
    congr 1
    omega
  · have hroom := h.room hne
    rw [hready, List.cons_append, List.length_cons] at hroom
    exact Nat.lt_of_succ_lt hroom
  · show shown s.out = t.taken ++ [c] ++ ready ++ t.line
    rw [h.screen, hready]
    simp

/-- The same read of the ring and of the text. -/
theorem Shows.consoleread (h : Shows s t) (target n : Nat) (got : Str) :
    (s.consoleread target n got).2 = (t.read target n got).2 ∧
      Shows (s.consoleread target n got).1 (t.read target n got).1 := by
  induction n generalizing s t got with
  | zero => exact ⟨rfl, h⟩
  | succ n ih =>
      obtain ⟨taken, ready, line⟩ := t
      have hempty : s.r = s.w ↔ ready = [] := h.front.eq_nil_iff lt_counters
      unfold Input.consoleread
      cases ready with
      | nil =>
          rw [if_pos (hempty.2 rfl)]
          exact ⟨rfl, h⟩
      | cons c ready =>
          obtain ⟨hc, htaken⟩ := h.taken rfl
          rw [if_neg fun heq => List.cons_ne_nil _ _ (hempty.1 heq)]
          unfold Text.read
          simp only [hc]
          by_cases heof : c = C 'D'
          · rw [if_pos heof, if_pos heof]
            by_cases hmore : n + 1 < target
            · rw [if_pos hmore, if_pos hmore, dec_inc h.ring.rd_lt]
              exact ⟨rfl, h⟩
            · rw [if_neg hmore, if_neg hmore]
              exact ⟨rfl, htaken⟩
          rw [if_neg heof, if_neg heof]
          by_cases hnl : c = newline
          · rw [if_pos hnl, if_pos hnl]
            exact ⟨rfl, htaken⟩
          · rw [if_neg hnl, if_neg hnl]
            exact ih htaken _

/-- A call of `consoleread` that never sleeps takes what can be read as the input of the
console, as the file system has it. -/
theorem read_consoleIn {k : Kernel} (hready : k.consoleIn = t.ready)
    (hover : (t.read target n got).2.2 = none) :
    (consolereadLoop target n got).run k = .ok (some (t.read target n got).2.1,
      { k with consoleIn := (t.read target n got).1.ready }) := by
  induction n generalizing k t got with
  | zero =>
      rw [consolereadLoop, Prog.pure_run, Text.read, ← hready]
  | succ n ih =>
      obtain ⟨taken, ready, line⟩ := t
      change k.consoleIn = ready at hready
      rw [consolereadLoop, Prog.get_bind_run, hready]
      cases ready with
      | nil => exact absurd hover (by simp [Text.read])
      | cons c ready =>
          unfold Text.read at hover ⊢
          dsimp only
          by_cases heof : c = C 'D'
          · rw [if_pos heof, if_pos (show c = 4 from heof)]
            by_cases hmore : n + 1 < target
            · rw [if_pos hmore, if_pos hmore, ← hready]
              rfl
            · rw [if_neg hmore, if_neg hmore]
              rfl
          rw [if_neg heof] at hover ⊢
          rw [if_neg (show ¬ c = 4 from heof), Prog.modify_bind_run]
          by_cases hnl : c = newline
          · rw [if_pos hnl, if_pos (show c = 10 from hnl)]
            rfl
          · rw [if_neg hnl] at hover ⊢
            rw [if_neg (show ¬ c = 10 from hnl)]
            exact ih rfl hover

/-! ## Runs -/

/-- A process in `consoleread`: what it asked for, how much is to go, and what it has. -/
structure Reader where
  target : Nat
  left : Nat
  got : Str

/-- What the calls of `consoleread` returned. -/
structure Result (κ : Type*) where
  proc : κ
  target : Nat
  bytes : Str

/-- A console, the processes that read from it, the bytes that were handed to them so far
and the calls that are over. -/
structure State (κ σ : Type*) where
  cons : σ
  reader : κ → Option Reader
  handed : Str
  results : List (Result κ)

inductive Move (κ : Type*)
  | intr (keys : Str)
  | call (k : κ) (n : Nat)
  | read (k : κ)
  | killed (k : κ)

/-- The sections under `cons.lock`. -/
structure Device (σ : Type*) where
  start : σ
  intr : σ → Str → σ
  read : Nat → Nat → σ → Str → σ × Str × Option Nat
  empty : σ → Prop

variable {κ σ : Type*} [DecidableEq κ]

/-- A process that was killed leaves `consoleread` when there is nothing to read. -/
inductive Step (d : Device σ) : State κ σ → Move κ → State κ σ → Prop
  | intr {s : State κ σ} {keys : Str} :
      Step d s (.intr keys) { s with cons := d.intr s.cons keys }
  | call {s : State κ σ} {k : κ} {n : Nat} (idle : s.reader k = none) :
      Step d s (.call k n) { s with reader := Function.update s.reader k (some ⟨n, n, []⟩) }
  | read {s : State κ σ} {k : κ} {q : Reader} {c : σ} {bytes : Str} {left : Option Nat}
      (waits : s.reader k = some q)
      (reads : d.read q.target q.left s.cons q.got = (c, bytes, left)) :
      Step d s (.read k) ⟨c,
        Function.update s.reader k (left.map fun n => ⟨q.target, n, bytes⟩),
        s.handed ++ bytes.drop q.got.length,
        if left = none then ⟨k, q.target, bytes⟩ :: s.results else s.results⟩
  | killed {s : State κ σ} {k : κ} {q : Reader} (waits : s.reader k = some q)
      (empty : d.empty s.cons) :
      Step d s (.killed k) { s with reader := Function.update s.reader k none }

def system (κ : Type*) [DecidableEq κ] (d : Device σ) : System (State κ σ) (Move κ) where
  init := fun s => s = ⟨d.start, fun _ => none, [], []⟩
  step := Step d

/-- `console.c` -/
def ring : Device Input where
  start := ⟨fun _ => 0, 0, 0, 0, []⟩
  intr := Input.consoleintr
  read := Input.consoleread
  empty := fun s => s.r = s.w

def text : Device Text where
  start := ⟨[], [], []⟩
  intr := fun t keys => keys.foldl Text.key t
  read := Text.read
  empty := fun t => t.ready = []

theorem shows_start : Shows ring.start text.start :=
  ⟨.empty (by decide), rfl, List.not_mem_nil, fun hne => absurd rfl hne, rfl⟩

/-- The key may take a place in the ring; the others edit the line, list the processes
or are dropped. -/
def stores (c : UInt8) : Bool :=
  c != 0 && c != C 'P' && c != C 'U' && c != C 'H' && c != 127

/-- The ring has room for all the keys of an interrupt that may take a place. -/
def roomy (s : State κ Input) : Move κ → Prop
  | .intr keys => sub s.cons.e s.cons.r + keys.countP stores < INPUT_BUF
  | _ => True

/-- `hi` and a newline were typed, and a process wants to read. -/
def hi : State Unit Input :=
  ⟨ring.intr ring.start [104, 105, 10],
    Function.update (fun _ => none) () (some ⟨100, 100, []⟩), [], []⟩

def afterHi : State Unit Input :=
  ⟨(hi.cons.consoleread 100 100 []).1, Function.update hi.reader () none,
    [104, 105, 10], [⟨(), 100, [104, 105, 10]⟩]⟩

theorem run_afterHi : Run (system Unit ring) roomy
    [.read (), .call () 100, .intr [104, 105, 10]] afterHi := by
  have hlast : (hi.cons.consoleread 100 100 []).2 = ([104, 105, 10], none) := by decide
  have hread : ring.read 100 100 hi.cons [] =
      ((hi.cons.consoleread 100 100 []).1, [104, 105, 10], none) := Prod.ext rfl hlast
  have hwaits : hi.reader () = some ⟨100, 100, []⟩ := rfl
  have hstep : Step ring hi (.read ()) afterHi := .read hwaits hread
  have hroom : sub 0 0 + [104, 105, 10].countP stores < INPUT_BUF := by decide
  have hhi : Run (system Unit ring) roomy [.call () 100, .intr [104, 105, 10]] hi :=
    .step (.step (.init rfl) .intr hroom) (.call rfl) trivial
  exact .step hhi hstep trivial

/-- The ring shows the text, and the processes cannot tell the two apart. -/
structure Matches (s : State κ Input) (t : State κ Text) : Prop where
  cons : Shows s.cons t.cons
  reader : s.reader = t.reader
  handed : s.handed = t.handed
  results : s.results = t.results

theorem Step.matched {s s' : State κ Input} {t : State κ Text} {m : Move κ} (hm : Matches s t)
    (hstep : Step ring s m s') : ∃ t', Step text t m t' ∧ Matches s' t' := by
  obtain ⟨cons, reader, handed, results⟩ := t
  obtain ⟨hcons, rfl, rfl, rfl⟩ := hm
  cases hstep with
  | intr => exact ⟨_, .intr, hcons.consoleintr, rfl, rfl, rfl⟩
  | call idle => exact ⟨_, .call idle, hcons, rfl, rfl, rfl⟩
  | @read k q c bytes left waits reads =>
      obtain ⟨hsame, hshows⟩ := hcons.consoleread q.target q.left q.got
      have hring : s.cons.consoleread q.target q.left q.got = (c, bytes, left) := reads
      rw [hring] at hsame hshows
      have htext : text.read q.target q.left cons q.got =
          ((cons.read q.target q.left q.got).1, bytes, left) := Prod.ext rfl hsame.symm
      exact ⟨_, .read waits htext, hshows, rfl, rfl, rfl⟩
  | killed waits empty =>
      have hempty := (hcons.front.eq_nil_iff lt_counters).1 empty
      exact ⟨_, .killed waits hempty, hcons, rfl, rfl, rfl⟩

/-- The console is a text that is edited at its end and read at its front: what its
processes see in a run they can see in a run with the text. -/
theorem console_refines {tr : List (Move κ)} {s : State κ Input}
    (hrun : Run (system κ ring) anyStep tr s) :
    ∃ t, Run (system κ text) anyStep tr t ∧ Matches s t := by
  refine hrun.simulate ?_ ?_
  · rintro s rfl
    exact ⟨_, rfl, shows_start, rfl, rfl, rfl⟩
  · intro s m s' t hm hstep _
    obtain ⟨t', hstep', hm'⟩ := hstep.matched hm
    exact ⟨t', hstep', trivial, hm'⟩

theorem console_refines_afterHi : ∃ t, Run (system Unit text) anyStep
    [.read (), .call () 100, .intr [104, 105, 10]] t ∧ Matches afterHi t :=
  console_refines (run_afterHi.mono fun _ _ _ => trivial)

/-! ## What was typed -/

/-- The keys of a run, its last step first. -/
def typed : List (Move κ) → Str
  | [] => []
  | .intr keys :: tr => typed tr ++ keys
  | _ :: tr => typed tr

/-- One key in an editor without a bound: the finished lines, and the one at work. -/
def editKey (t : Str × Str) (c : UInt8) : Str × Str :=
  if c = C 'P' then t
  else if c = C 'U' then (t.1, [])
  else if c = C 'H' ∨ c = 127 then (t.1, t.2.dropLast)
  else if c = 0 then t
  else if c = 13 ∨ c = newline then (t.1 ++ t.2 ++ [newline], [])
  else if c = C 'D' then (t.1 ++ t.2 ++ [c], [])
  else (t.1, t.2 ++ [c])

def edited (keys : Str) : Str × Str := keys.foldl editKey ([], [])

/-- Control-D is read but not handed to anybody. -/
def bytes (text : Str) : Str := text.filter fun c => c ≠ C 'D'

namespace Text

def final (t : Text) : Str := t.taken ++ t.ready

theorem put_final (hroom : (t.ready ++ t.line).length + 1 < INPUT_BUF) :
    ((t.put c).final, (t.put c).line) =
      if c = newline ∨ c = C 'D' then (t.final ++ t.line ++ [c], [])
      else (t.final, t.line ++ [c]) := by
  unfold put
  by_cases hend : c = newline ∨ c = C 'D'
  · rw [if_pos hend, if_pos (hend.imp_right Or.inl)]
    simp [final]
  · have hno : ¬ (c = newline ∨ c = C 'D' ∨ (t.ready ++ t.line).length + 1 = INPUT_BUF) := by
      rintro (hc | hc | hfull)
      · exact hend (Or.inl hc)
      · exact hend (Or.inr hc)
      · omega
    rw [if_neg hend, if_neg hno]
    rfl

/-- With room in the ring a key does what it does without a bound. -/
theorem key_final (hroom : stores c = true → (t.ready ++ t.line).length + 1 < INPUT_BUF) :
    ((t.key c).final, (t.key c).line) = editKey (t.final, t.line) c := by
  unfold key editKey
  by_cases hp : c = C 'P'
  · rw [if_pos hp, if_pos hp]
  rw [if_neg hp, if_neg hp]
  by_cases hu : c = C 'U'
  · rw [if_pos hu, if_pos hu]
    rfl
  rw [if_neg hu, if_neg hu]
  by_cases hh : c = C 'H' ∨ c = 127
  · rw [if_pos hh, if_pos hh]
    rfl
  rw [if_neg hh, if_neg hh]
  by_cases hz : c = 0
  · rw [if_pos hz, if_neg fun hcond => hcond.1 hz]
  have hnot : ¬ (c = C 'H') ∧ ¬ (c = 127) := not_or.1 hh
  have hroom := hroom (by simp [stores, hp, hu, hz, hnot])
  rw [if_neg hz, if_pos ⟨hz, Nat.lt_of_succ_lt hroom⟩, put_final hroom]
  by_cases hcr : c = 13
  · rw [if_pos hcr, if_pos (Or.inl rfl), if_pos (Or.inl hcr)]
  rw [if_neg hcr]
  by_cases hnl : c = newline
  · rw [if_pos (Or.inl hnl), if_pos (Or.inr hnl), hnl]
  have hno : ¬ (c = 13 ∨ c = newline) := fun h => h.elim hcr hnl
  rw [if_neg hno]
  by_cases hd : c = C 'D'
  · rw [if_pos (Or.inr hd), if_pos hd]
  · have hend : ¬ (c = newline ∨ c = C 'D') := fun h => h.elim hnl hd
    rw [if_neg hend, if_neg hd]

theorem put_length :
    ((t.put c).ready ++ (t.put c).line).length = (t.ready ++ t.line).length + 1 := by
  unfold put
  split
  · rw [List.append_nil, List.length_append, List.length_singleton]
  · rw [← List.append_assoc, List.length_append, List.length_singleton]

theorem key_length : ((t.key c).ready ++ (t.key c).line).length ≤
    (t.ready ++ t.line).length + if stores c then 1 else 0 := by
  unfold key
  by_cases hp : c = C 'P'
  · rw [if_pos hp]
    exact Nat.le_add_right ..
  rw [if_neg hp]
  by_cases hu : c = C 'U'
  · rw [if_pos hu]
    simp only [List.length_append, List.length_nil]
    omega
  rw [if_neg hu]
  by_cases hh : c = C 'H' ∨ c = 127
  · rw [if_pos hh]
    simp only [List.length_append, List.length_dropLast]
    omega
  rw [if_neg hh]
  split
  · rename_i hput
    have hnot : ¬ (c = C 'H') ∧ ¬ (c = 127) := not_or.1 hh
    rw [put_length, if_pos (by simp [stores, hp, hu, hput.1, hnot])]
  · exact Nat.le_add_right ..

theorem keys_final {keys : Str}
    (hroom : (t.ready ++ t.line).length + keys.countP stores < INPUT_BUF) :
    ((keys.foldl key t).final, (keys.foldl key t).line) =
      keys.foldl editKey (t.final, t.line) := by
  induction keys generalizing t with
  | nil => rfl
  | cons c keys ih =>
      rw [List.countP_cons] at hroom
      have hlen := key_length (t := t) (c := c)
      rw [List.foldl_cons, List.foldl_cons, ← key_final fun hstores => by
        rw [if_pos hstores] at hroom
        omega]
      exact ih (by omega)

/-- A read moves the end of what was read, and hands out what it passes. -/
theorem read_final (t : Text) (target n : Nat) (got : Str) :
    (t.read target n got).1.final = t.final ∧
    (t.read target n got).1.line = t.line ∧
    ∃ new, (t.read target n got).2.1 = got ++ new ∧
      bytes (t.read target n got).1.taken = bytes t.taken ++ new := by
  induction n generalizing t got with
  | zero => exact ⟨rfl, rfl, [], by simp [read], by simp [read]⟩
  | succ n ih =>
      obtain ⟨taken, ready, line⟩ := t
      cases ready with
      | nil => exact ⟨rfl, rfl, [], by simp [read], by simp [read]⟩
      | cons c ready =>
          have hfinal : taken ++ [c] ++ ready = taken ++ c :: ready := by simp
          unfold read
          by_cases heof : c = C 'D'
          · rw [if_pos heof]
            split
            · exact ⟨rfl, rfl, [], by simp, by simp⟩
            · exact ⟨hfinal, rfl, [], by simp, by simp [bytes, heof]⟩
          rw [if_neg heof]
          have hbyte : bytes (taken ++ [c]) = bytes taken ++ [c] := by simp [bytes, heof]
          by_cases hnl : c = newline
          · rw [if_pos hnl]
            exact ⟨hfinal, rfl, [c], rfl, hbyte⟩
          · rw [if_neg hnl]
            obtain ⟨hall, hline, new, hgot, htaken⟩ := ih ⟨taken ++ [c], ready, line⟩
              (got ++ [c])
            refine ⟨hall.trans hfinal, hline, c :: new, ?_, ?_⟩
            · rw [hgot, List.append_assoc]
              rfl
            · rw [htaken, hbyte, List.append_assoc]
              rfl

end Text

theorem typed_final {t : Text} {keys tr : Str}
    (hfinal : (t.final, t.line) = edited tr)
    (hroom : (t.ready ++ t.line).length + keys.countP stores < INPUT_BUF) :
    ((keys.foldl Text.key t).final, (keys.foldl Text.key t).line) = edited (tr ++ keys) := by
  rw [Text.keys_final hroom, hfinal]
  unfold edited
  rw [List.foldl_append]

/-- The ring holds what was typed and not yet handed out. -/
structure Holds (tr : List (Move κ)) (s : State κ Input) (t : Text) : Prop where
  cons : Shows s.cons t
  final : (t.final, t.line) = edited (typed tr)
  handed : s.handed = bytes t.taken

theorem keys_taken (keys : Str) (t : Text) : (keys.foldl Text.key t).taken = t.taken := by
  induction keys generalizing t with
  | nil => rfl
  | cons c keys ih =>
      refine (ih _).trans ?_
      unfold Text.key Text.put
      split_ifs <;> rfl

theorem Holds.step {tr : List (Move κ)} {s s' : State κ Input} {t : Text} {m : Move κ}
    (h : Holds tr s t) (hstep : Step ring s m s') (hroomy : roomy s m) :
    ∃ t', Holds (m :: tr) s' t' := by
  obtain ⟨hcons, hfinal, hhanded⟩ := h
  cases hstep with
  | @intr keys =>
      have hroom : sub s.cons.e s.cons.r + keys.countP stores < INPUT_BUF := hroomy
      rw [hcons.used] at hroom
      exact ⟨_, hcons.consoleintr, typed_final hfinal hroom,
        hhanded.trans (congrArg bytes (keys_taken keys t).symm)⟩
  | call idle => exact ⟨t, hcons, hfinal, hhanded⟩
  | @read k q c bs left waits reads =>
      have hring : s.cons.consoleread q.target q.left q.got = (c, bs, left) := reads
      obtain ⟨hsame, hshows⟩ := hcons.consoleread q.target q.left q.got
      obtain ⟨hall, hline, new, hgot, htaken⟩ := t.read_final q.target q.left q.got
      rw [hring] at hsame hshows
      refine ⟨(t.read q.target q.left q.got).1, hshows, ?_, ?_⟩
      · rw [hall, hline]
        exact hfinal
      · have hbs : bs = q.got ++ new := by
          rw [← hgot, ← hsame]
        show s.handed ++ bs.drop q.got.length = _
        rw [hbs, List.drop_left, htaken, hhanded]
  | killed waits empty => exact ⟨t, hcons, hfinal, hhanded⟩

theorem exists_holds {tr : List (Move κ)} {s : State κ Input}
    (hrun : Run (system κ ring) roomy tr s) : ∃ t, Holds tr s t := by
  induction hrun with
  | init h =>
      subst h
      exact ⟨text.start, shows_start, rfl, rfl⟩
  | step _ hstep hroomy ih =>
      obtain ⟨t, ht⟩ := ih
      exact ht.step hstep hroomy

/-- What the processes and the screen have of the keys. -/
structure Delivered (tr : List (Move κ)) (s : State κ Input) : Prop where
  /-- nothing else is handed out, and nothing twice or out of order -/
  handed : s.handed <+: bytes (edited (typed tr)).1
  /-- when there is nothing to read, all was handed out -/
  drained : s.cons.r = s.cons.w → s.handed = bytes (edited (typed tr)).1
  screen : shown s.cons.out = (edited (typed tr)).1 ++ (edited (typed tr)).2

/-- As long as the ring does not fill up, the readers together get the lines as they were
typed and edited, in whatever order interrupts and reads come. -/
theorem reads_typed {tr : List (Move κ)} {s : State κ Input}
    (hrun : Run (system κ ring) roomy tr s) : Delivered tr s := by
  obtain ⟨t, hcons, hfinal, hhanded⟩ := exists_holds hrun
  have hbytes : bytes t.final = bytes t.taken ++ bytes t.ready := List.filter_append ..
  rw [Prod.ext_iff] at hfinal
  constructor
  case handed =>
    rw [← hfinal.1, hbytes, hhanded]
    exact List.prefix_append ..
  case drained =>
    intro hempty
    have hready := (hcons.front.eq_nil_iff lt_counters).1 hempty
    rw [← hfinal.1, hbytes, hready, hhanded]
    exact (List.append_nil _).symm
  case screen =>
    rw [← hfinal.1, ← hfinal.2]
    exact hcons.screen

theorem reads_typed_afterHi :
    Delivered [.read (), .call () 100, .intr [104, 105, 10]] afterHi := reads_typed run_afterHi

/-! ## What a read returns -/

/-- At most what was asked for, a newline only at the end, and no control-D. -/
structure Whole (n : Nat) (bytes : Str) : Prop where
  fits : bytes.length ≤ n
  line : newline ∉ bytes.dropLast
  plain : C 'D' ∉ bytes

/-- A call that is not over has no end of a line yet. -/
structure Unfinished (q : Reader) : Prop where
  length : q.got.length + q.left = q.target
  line : newline ∉ q.got
  plain : C 'D' ∉ q.got

theorem Unfinished.whole {q : Reader} (h : Unfinished q) : Whole q.target q.got where
  fits := by
    have hlength := h.length
    omega
  line := fun hmem => h.line (List.dropLast_subset _ hmem)
  plain := h.plain

theorem read_whole (t : Text) {q : Reader} (h : Unfinished q) :
    Whole q.target (t.read q.target q.left q.got).2.1 ∧
      ∀ m, (t.read q.target q.left q.got).2.2 = some m →
        Unfinished ⟨q.target, m, (t.read q.target q.left q.got).2.1⟩ := by
  obtain ⟨target, n, got⟩ := q
  induction n generalizing t got with
  | zero => exact ⟨h.whole, fun m hm => absurd hm.symm (Option.some_ne_none m)⟩
  | succ n ih =>
      obtain ⟨taken, ready, line⟩ := t
      cases ready with
      | nil =>
          refine ⟨h.whole, fun m hm => ?_⟩
          rw [← Option.some_inj.1 (show some (n + 1) = some m from hm)]
          exact h
      | cons c ready =>
          have hlength : got.length + (n + 1) = target := h.length
          simp only [Text.read]
          by_cases heof : c = C 'D'
          · rw [if_pos heof]
            split <;> exact ⟨h.whole, fun m hm => absurd hm.symm (Option.some_ne_none m)⟩
          rw [if_neg heof]
          have hplain : C 'D' ∉ got ++ [c] := not_mem_concat h.plain heof
          have hlen : (got ++ [c]).length + n = target := by
            rw [List.length_append, List.length_singleton]
            omega
          by_cases hnl : c = newline
          · rw [if_pos hnl]
            refine ⟨⟨?_, ?_, hplain⟩, fun m hm => absurd hm.symm (Option.some_ne_none m)⟩
            · show (got ++ [c]).length ≤ target
              omega
            · show newline ∉ (got ++ [c]).dropLast
              rw [List.dropLast_concat]
              exact h.line
          · rw [if_neg hnl]
            exact ih _ _ ⟨hlen, not_mem_concat h.line hnl, hplain⟩

/-- The calls that are over, and those that are not. -/
structure Calls {σ : Type*} (s : State κ σ) : Prop where
  going : ∀ k q, s.reader k = some q → Unfinished q
  ended : ∀ r ∈ s.results, Whole r.target r.bytes

theorem Calls.update {s : State κ Text} {k : κ} {q : Option Reader} (h : Calls s)
    (hq : ∀ p, q = some p → Unfinished p) (i : κ) (p : Reader)
    (hp : Function.update s.reader k q i = some p) : Unfinished p := by
  by_cases hi : i = k
  · rw [hi, Function.update_self] at hp
    exact hq p hp
  · rw [Function.update_of_ne hi] at hp
    exact h.going i p hp

theorem Step.calls {s s' : State κ Text} {m : Move κ} (hs : Calls s) (h : Step text s m s') :
    Calls s' := by
  cases h with
  | intr => exact ⟨hs.going, hs.ended⟩
  | call idle =>
      refine ⟨hs.update fun p hp => ?_, hs.ended⟩
      rw [← Option.some_inj.1 hp]
      exact ⟨Nat.zero_add _, List.not_mem_nil, List.not_mem_nil⟩
  | @read k q c bs left waits reads =>
      obtain ⟨hwhole, hunder⟩ := read_whole s.cons (hs.going k q waits)
      have htext : s.cons.read q.target q.left q.got = (c, bs, left) := reads
      rw [htext] at hwhole hunder
      refine ⟨hs.update fun p hp => ?_, fun r hr => ?_⟩
      · obtain ⟨m, hm, rfl⟩ := Option.map_eq_some_iff.1 hp
        exact hunder m hm
      · change r ∈ if left = none then ⟨k, q.target, bs⟩ :: s.results else s.results at hr
        split at hr
        · obtain rfl | hr := List.mem_cons.1 hr
          · exact hwhole
          · exact hs.ended r hr
        · exact hs.ended r hr
  | killed waits empty =>
      exact ⟨hs.update fun p hp => absurd hp.symm (Option.some_ne_none p), hs.ended⟩

/-- What a process can rely on. -/
structure Served (s : State κ Input) : Prop where
  calls : Calls s
  /-- a ring that takes no more keys has something to read -/
  awake : INPUT_BUF ≤ sub s.cons.e s.cons.r → s.cons.r ≠ s.cons.w

theorem Shows.awake (h : Shows s t) (hfull : INPUT_BUF ≤ sub s.e s.r) : s.r ≠ s.w := by
  intro hempty
  have hready := (h.front.eq_nil_iff lt_counters).1 hempty
  rw [h.used, hready, List.nil_append] at hfull
  have hroom := h.room fun hline => by
    rw [hline] at hfull
    exact absurd hfull (by decide)
  rw [hready, List.nil_append] at hroom
  omega

def Followed (s : State κ Input) : Prop := ∃ t, Matches s t ∧ Calls t

/-- A read is a line or a part of one, and nobody waits for a ring that is full. -/
theorem reads_served {tr : List (Move κ)} {s : State κ Input}
    (hrun : Run (system κ ring) anyStep tr s) : Served s := by
  have hinv : Followed s := by
    refine hrun.invariant ?_ ?_
    · rintro s rfl
      refine ⟨⟨text.start, fun _ => none, [], []⟩, ⟨shows_start, rfl, rfl, rfl⟩, ?_⟩
      refine ⟨fun k q hq => ?_, fun r hr => absurd hr List.not_mem_nil⟩
      exact absurd hq.symm (Option.some_ne_none q)
    · rintro s m s' ⟨t, hm, hcalls⟩ hstep _
      obtain ⟨t', hstep', hm'⟩ := hstep.matched hm
      exact ⟨t', hm', hstep'.calls hcalls⟩
  obtain ⟨t, hm, hcalls⟩ := hinv
  refine ⟨⟨?_, ?_⟩, hm.cons.awake⟩
  · rw [hm.reader]
    exact hcalls.going
  · rw [hm.results]
    exact hcalls.ended

theorem reads_served_afterHi : Served afterHi :=
  reads_served (run_afterHi.mono fun _ _ _ => trivial)

end Console
end Fs
end CS444
