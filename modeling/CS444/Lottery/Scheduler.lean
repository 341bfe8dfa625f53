/-
The lottery kernel's process table and one turn of `scheduler()`'s outer loop.

The scheduler holds `ptable.lock` from the sum of the tickets to the end of the
selection loop and gives it away only around `swtch`.  What the other CPUs and
the dispatched process itself do in that window is the parameter `run`: the
world the loop finds when `swtch` comes back to it, as a function of the slot
that was dispatched and of the world it was dispatched in.
-/
import CS444.Lib.Numerals
import Mathlib.Data.List.FinRange
import Mathlib.Logic.Function.Basic

namespace CS444
namespace Lottery

/-- `NPROC`. -/
def nproc : Nat := 64

theorem nproc_pos : 0 < nproc := by decide

def minNiceValue : UInt32 := 1

def maxNiceValue : UInt32 := 50

/-- `enum procstate`. -/
inductive ProcState where
  | unused
  | embryo
  | sleeping
  | runnable
  | running
  | zombie
  deriving DecidableEq, Repr

/-- The fields of `struct proc` that the scheduler reads or writes. -/
structure Proc where
  state : ProcState := .unused
  niceValue : UInt32 := 0
  ticksTotal : UInt32 := 0
  ticksBegin : UInt32 := 0
  schedTimes : UInt32 := 0
  deriving DecidableEq, Repr

/-- A slot of `ptable.proc`. -/
abbrev Slot : Type := Fin nproc

/-- What the scheduler shares with the rest of the kernel: the process table,
the tick counter behind `suptime()` and the state of the generator in
`rand.c`. -/
structure World where
  ptable : Slot → Proc
  ticks : UInt32
  next : UInt32

/-- The slots in the order of the loop `for(p = ptable.proc; ...; p++)`. -/
def slots : List Slot := List.finRange nproc

/-- `rand()`: the value returned and the world with the generator advanced. -/
def rand (w : World) : UInt32 × World :=
  let next := w.next * 1103515245 + 12345
  ((next / 65536) % 0x80000000, { w with next := next })

/-- The first loop over the table: the tickets of the RUNNABLE processes. -/
def sumNice (ptable : Slot → Proc) : List Slot → UInt32 → UInt32
  | [], totalNice => totalNice
  | p :: ps, totalNice =>
    if (ptable p).state = .runnable then sumNice ptable ps (totalNice + (ptable p).niceValue)
    else sumNice ptable ps totalNice

/-- Everything between choosing `p` and `swtch` into it. -/
def dispatch (p : Slot) (w : World) : World :=
  { w with
    ptable := Function.update w.ptable p
      { w.ptable p with
        state := .running
        schedTimes := (w.ptable p).schedTimes + 1
        ticksBegin := w.ticks } }

/-- Everything between `swtch` coming back from `p` and the next turn of the
selection loop. -/
def resumed (p : Slot) (w : World) : World :=
  { w with
    ptable := Function.update w.ptable p
      { w.ptable p with
        ticksTotal := (w.ptable p).ticksTotal + (w.ticks - (w.ptable p).ticksBegin) } }

/-- The selection loop: the slots it switches to, in order, and the world it
leaves.  The loop has no `break`, so after a dispatch it goes on with the next
slot of the table it finds and with the running count it had. -/
def selectLoop (run : Slot → World → World) (randVal : UInt32) :
    List Slot → UInt32 → World → List Slot × World
  | [], _, w => ([], w)
  | p :: ps, count, w =>
    if (w.ptable p).state ≠ .runnable then selectLoop run randVal ps count w
    else
      let count := count + (w.ptable p).niceValue
      if count ≤ randVal then selectLoop run randVal ps count w
      else
        let rest := selectLoop run randVal ps count (resumed p (run p (dispatch p w)))
        (p :: rest.1, rest.2)

/-- The slots one draw switches to. -/
def dispatched (run : Slot → World → World) (randVal : UInt32) (w : World) : List Slot :=
  (selectLoop run randVal slots 0 w).1

/-- The tickets a slot holds in a table. -/
def tickets (ptable : Slot → Proc) (p : Slot) : Nat :=
  if (ptable p).state = .runnable then (ptable p).niceValue.toNat else 0

theorem tickets_of_runnable {ptable : Slot → Proc} {p : Slot}
    (h : (ptable p).state = .runnable) : tickets ptable p = (ptable p).niceValue.toNat := by
  rw [tickets, if_pos h]

theorem tickets_of_not_runnable {ptable : Slot → Proc} {p : Slot}
    (h : (ptable p).state ≠ .runnable) : tickets ptable p = 0 := by
  rw [tickets, if_neg h]

theorem slots_nodup : slots.Nodup := List.nodup_finRange nproc

theorem mem_slots (p : Slot) : p ∈ slots := List.mem_finRange p

@[simp] theorem resumed_state (p q : Slot) (w : World) :
    ((resumed p w).ptable q).state = (w.ptable q).state := by
  unfold resumed
  by_cases h : q = p
  · subst h
    simp
  · simp [h]

@[simp] theorem resumed_niceValue (p q : Slot) (w : World) :
    ((resumed p w).ptable q).niceValue = (w.ptable q).niceValue := by
  unfold resumed
  by_cases h : q = p
  · subst h
    simp
  · simp [h]

theorem selectLoop_skip {run : Slot → World → World} {randVal count : UInt32} {p : Slot}
    {ps : List Slot} {w : World} (h : (w.ptable p).state ≠ .runnable) :
    selectLoop run randVal (p :: ps) count w = selectLoop run randVal ps count w := by
  rw [selectLoop, if_pos h]

theorem selectLoop_pass {run : Slot → World → World} {randVal count : UInt32} {p : Slot}
    {ps : List Slot} {w : World} (h : (w.ptable p).state = .runnable)
    (hle : count + (w.ptable p).niceValue ≤ randVal) :
    selectLoop run randVal (p :: ps) count w =
      selectLoop run randVal ps (count + (w.ptable p).niceValue) w := by
  rw [selectLoop, if_neg (by simp [h]), if_pos hle]

theorem selectLoop_take {run : Slot → World → World} {randVal count : UInt32} {p : Slot}
    {ps : List Slot} {w : World} (h : (w.ptable p).state = .runnable)
    (hgt : ¬ count + (w.ptable p).niceValue ≤ randVal) :
    (selectLoop run randVal (p :: ps) count w).1 =
      p :: (selectLoop run randVal ps (count + (w.ptable p).niceValue)
        (resumed p (run p (dispatch p w)))).1 := by
  rw [selectLoop, if_neg (by simp [h]), if_neg hgt]

end Lottery
end CS444
