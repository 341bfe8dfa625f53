/-
The process table of `lab3/xv6-lottery` under all CPUs: `fork`, `exec`, `exit`,
`wait`, `renice`, `kill`, `sleep`, `wakeup` and the lottery.

Each CPU is in `scheduler()` or has a process; a process in the kernel has its
own control point, which it keeps while it is off the CPU.  What happens with
`ptable.lock` held by a process is one step; the scheduler holds the lock over
many turns of its two loops and is a step a slot.  `renice` takes no lock, and
its test of a slot and its assignment are two steps.  What the process table
does not hold is left out: memory, files, names and `suptime()`'s own lock.
-/
import CS444.Lib.Runs
import CS444.Lottery.Scheduler

namespace CS444
namespace Lottery
namespace Processes

open Runs

/-- `DEFAULT_NICE_VALUE`. -/
def defaultNiceValue : UInt32 := 25

/-- An address a process sleeps on. -/
inductive Chan where
  | proc (p : Slot)
  | ticks
  | other (a : Nat)
deriving DecidableEq, Repr

/-- The other fields of `struct proc` that `fork`, `exit`, `wait` and `kill` use. -/
structure Ids where
  pid : Int32 := 0
  parent : Option Slot := none
  chan : Option Chan := none
  killed : Bool := false
deriving DecidableEq, Repr

/-- Where a process is: in user mode or in code that leaves the table alone; in
`fork` behind the search of `allocproc`, behind `allocproc`, and behind the copy
of `nice_value`; at the top of the loop of `wait`; in the loop of `renice` at the
test of slot `i` and at the assignment to it. -/
inductive Point where
  | user
  | newproc (np : Slot)
  | allocated (np : Slot)
  | copied (np : Slot)
  | waiting
  | check (i : Nat) (newValue pid : Int32)
  | assign (i : Slot) (newValue pid : Int32)
deriving DecidableEq, Repr

/-- Where `scheduler()` is: between two turns, in the loop that adds up
`total_nice`, in the selection loop, and in the selection loop with `p` on the
CPU.  Both loops are about to look at slot `i`. -/
inductive Sched where
  | idle
  | sum (i : Nat) (totalNice : UInt32)
  | select (i : Nat) (randVal count : UInt32)
  | away (i : Nat) (randVal count : UInt32) (p : Slot)
deriving DecidableEq, Repr

structure Kernel (C : Type) where
  world : World
  ids : Slot → Ids
  nextpid : Int32
  initproc : Slot
  /-- The CPU that holds `ptable.lock`. -/
  lock : Option C
  sched : C → Sched
  point : Slot → Point

/-- What a CPU does next where its control point leaves it open. -/
inductive Move where
  | go
  /-- An allocation of memory fails. -/
  | fail
  | fork
  | exec
  | exit
  | wait
  | renice (newValue pid : Int32)
  | kill (pid : Int32)
  /-- A system call that blocks. -/
  | sleep (ch : Chan)
  /-- The end of what a process waits for. -/
  | wakeup (ch : Chan)
  /-- The timer interrupt, on CPU 0 and on any other. -/
  | tick
  | yield
deriving DecidableEq, Repr

variable {C : Type} [DecidableEq C]

namespace Kernel

def proc (s : Kernel C) (p : Slot) : Proc := s.world.ptable p

def setProc (s : Kernel C) (p : Slot) (x : Proc) : Kernel C :=
  { s with world := { s.world with ptable := Function.update s.world.ptable p x } }

def setState (s : Kernel C) (p : Slot) (st : ProcState) : Kernel C :=
  s.setProc p { s.proc p with state := st }

def setNice (s : Kernel C) (p : Slot) (v : UInt32) : Kernel C :=
  s.setProc p { s.proc p with niceValue := v }

def setIds (s : Kernel C) (p : Slot) (x : Ids) : Kernel C :=
  { s with ids := Function.update s.ids p x }

/-- Process `p` goes on at `k`. -/
def goto (s : Kernel C) (p : Slot) (k : Point) : Kernel C :=
  { s with point := Function.update s.point p k }

/-- The scheduler of `c` goes on at `k`, with `ptable.lock` as `l` says. -/
def cpu (s : Kernel C) (c : C) (k : Sched) (l : Option C) : Kernel C :=
  { s with sched := Function.update s.sched c k, lock := l }

/-- `wakeup1(chan)` -/
def wakeup1 (s : Kernel C) (ch : Chan) : Kernel C :=
  { s with
    world := { s.world with
      ptable := fun p =>
        if (s.proc p).state = .sleeping ∧ (s.ids p).chan = some ch then
          { s.proc p with state := .runnable }
        else s.proc p } }

/-- `sched()` with the state of `p` already changed: back in the selection loop
of `c`, which holds the lock. -/
def giveUp (s : Kernel C) (c : C) (p : Slot) (back : Sched) : Kernel C :=
  { s with world := resumed p s.world }.cpu c back (some c)

/-- `allocproc()` up to its `release`, for the slot it found. -/
def allocate (s : Kernel C) (np : Slot) : Kernel C :=
  { (s.setState np .embryo).setIds np { s.ids np with pid := s.nextpid } with
    nextpid := s.nextpid + 1 }

/-- The fields `allocproc()` sets behind `kalloc`. -/
def initFields (s : Kernel C) (np : Slot) : Kernel C :=
  s.setProc np { s.proc np with
    ticksTotal := 0, ticksBegin := 0, schedTimes := 0, niceValue := defaultNiceValue }

/-- Children of `p` pass to `initproc`. -/
def reparent (s : Kernel C) (p : Slot) : Kernel C :=
  { s with
    ids := fun q =>
      if (s.ids q).parent = some p then { s.ids q with parent := some s.initproc } else s.ids q }

/-- Does `p` leave a zombie to `initproc`? -/
def leavesZombie (s : Kernel C) (p : Slot) : Prop :=
  ∃ q, (s.ids q).parent = some p ∧ (s.proc q).state = .zombie

instance (s : Kernel C) (p : Slot) : Decidable (s.leavesZombie p) :=
  inferInstanceAs (Decidable (∃ _ : Fin nproc, _))

/-- `exit()` between `acquire` and `sched`. -/
def exitProc (s : Kernel C) (p : Slot) : Kernel C :=
  let s₁ := match (s.ids p).parent with
    | some q => s.wakeup1 (.proc q)
    | none => s
  let s₂ := if s₁.leavesZombie p then s₁.wakeup1 (.proc s.initproc) else s₁
  (s₂.reparent p).setState p .zombie

/-- `wait()` frees the slot of a zombie. -/
def reap (s : Kernel C) (q : Slot) : Kernel C :=
  (s.setState q .unused).setIds q
    { s.ids q with pid := 0, parent := none, killed := false }

def isZombieOf (s : Kernel C) (p q : Slot) : Bool :=
  (s.ids q).parent = some p ∧ (s.proc q).state = .zombie

def hasKids (s : Kernel C) (p : Slot) : Bool := slots.any fun q => (s.ids q).parent = some p

/-- `kill` for the slot it found. -/
def killSlot (s : Kernel C) (q : Slot) : Kernel C :=
  let s₁ := s.setIds q { s.ids q with killed := true }
  if (s.proc q).state = .sleeping then s₁.setState q .runnable else s₁

/-- `switchuvm(p)` and `swtch`; a process that slept clears `chan`. -/
def switchTo (s : Kernel C) (p : Slot) : Kernel C :=
  { s with world := dispatch p s.world }.setIds p { s.ids p with chan := none }

end Kernel

open Kernel

/-- A step of `scheduler()` on `c`. -/
def schedStep (s : Kernel C) (c : C) : Sched → Option (Kernel C)
  | .idle => if s.lock = none then some (s.cpu c (.sum 0 0) (some c)) else none
  | .sum i totalNice =>
    if h : i < nproc then
      let q := s.proc ⟨i, h⟩
      some (s.cpu c
        (.sum (i + 1) (if q.state = .runnable then totalNice + q.niceValue else totalNice)) s.lock)
    else if totalNice = 0 then some (s.cpu c .idle none)
    else
      some ({ s with world := (rand s.world).2 }.cpu c
        (.select 0 ((rand s.world).1 % totalNice + 1) 0) s.lock)
  | .select i randVal count =>
    if h : i < nproc then
      let q := s.proc ⟨i, h⟩
      if q.state ≠ .runnable then some (s.cpu c (.select (i + 1) randVal count) s.lock)
      else if count + q.niceValue ≤ randVal then
        some (s.cpu c (.select (i + 1) randVal (count + q.niceValue)) s.lock)
      else
        some ((s.switchTo ⟨i, h⟩).cpu c
          (.away (i + 1) randVal (count + q.niceValue) ⟨i, h⟩) none)
    else some (s.cpu c .idle none)
  | .away _ _ _ _ => none

/-- Does `renice` turn `newValue` down? -/
def reniceRefuses (newValue : Int32) : Prop :=
  newValue < minNiceValue.toInt32 ∧ newValue > maxNiceValue.toInt32

instance (newValue : Int32) : Decidable (reniceRefuses newValue) :=
  inferInstanceAs (Decidable (_ ∧ _))

/-- A step of `p`, which `c` runs; `back` is where the scheduler of `c` goes on. -/
def procStep (s : Kernel C) (c : C) (back : Sched) (p : Slot) : Point → Move → Option (Kernel C)
  -- fork
  | .user, .fork =>
    if s.lock = none then
      match slots.find? fun q => (s.proc q).state = .unused with
      | none => some s
      | some np => some ((s.allocate np).goto p (.newproc np))
    else none
  | .newproc np, .fail => some ((s.setState np .unused).goto p .user)
  | .newproc np, .go => some ((s.initFields np).goto p (.allocated np))
  | .allocated np, .fail => some ((s.setState np .unused).goto p .user)
  | .allocated np, .go =>
    some (((s.setNice np (s.proc p).niceValue).setIds np
      { s.ids np with parent := some p }).goto p (.copied np))
  | .copied np, .go =>
    if s.lock = none then some ((s.setState np .runnable).goto p .user) else none
  -- exec
  | .user, .exec => some s
  -- exit
  | .user, .exit =>
    if s.lock = none ∧ p ≠ s.initproc then some ((s.exitProc p).giveUp c p back) else none
  -- wait
  | .user, .wait => some (s.goto p .waiting)
  | .waiting, .go =>
    if s.lock = none then
      match slots.find? fun q => s.isZombieOf p q with
      | some q => some ((s.reap q).goto p .user)
      | none =>
        if s.hasKids p = false ∨ (s.ids p).killed then some (s.goto p .user)
        else
          some (((s.setState p .sleeping).setIds p
            { s.ids p with chan := some (.proc p) }).giveUp c p back)
    else none
  -- renice
  | .user, .renice newValue pid =>
    some (if reniceRefuses newValue then s else s.goto p (.check 0 newValue pid))
  | .check i newValue pid, .go =>
    if h : i < nproc then
      if (s.proc ⟨i, h⟩).state ≠ .unused ∧ (s.ids ⟨i, h⟩).pid = pid then
        some (s.goto p (.assign ⟨i, h⟩ newValue pid))
      else some (s.goto p (.check (i + 1) newValue pid))
    else some (s.goto p .user)
  | .assign i newValue pid, .go =>
    some ((s.setNice i newValue.toUInt32).goto p (.check (i.val + 1) newValue pid))
  -- kill
  | .user, .kill pid =>
    if s.lock = none then
      match slots.find? fun q => (s.ids q).pid = pid with
      | some q => some (s.killSlot q)
      | none => some s
    else none
  -- sleep
  | .user, .sleep ch =>
    if s.lock = none then
      some (((s.setState p .sleeping).setIds p { s.ids p with chan := some ch }).giveUp c p back)
    else none
  -- yield
  | _, .yield =>
    if s.lock = none then some ((s.setState p .runnable).giveUp c p back) else none
  | _, _ => none

/-- One step of CPU `c`. -/
def step (s : Kernel C) (c : C) (m : Move) : Option (Kernel C) :=
  match s.sched c, m with
  | .sum _ _, .wakeup _ | .select _ _ _, .wakeup _ | .sum _ _, .tick | .select _ _ _, .tick => none
  | _, .wakeup ch => if s.lock = none then some (s.wakeup1 ch) else none
  | _, .tick =>
    if s.lock = none then
      some ({ s with world := { s.world with ticks := s.world.ticks + 1 } }.wakeup1 .ticks)
    else none
  | .away i randVal count p, m => procStep s c (.select i randVal count) p (s.point p) m
  | k, .go => schedStep s c k
  | _, _ => none

def firstSlot : Slot := ⟨0, nproc_pos⟩

/-- The kernel behind `userinit()`: one process, which `allocproc` made in slot 0
with pid 1. -/
structure Booted (s : Kernel C) : Prop where
  first : s.proc firstSlot = { state := .runnable, niceValue := defaultNiceValue }
  others : ∀ p, p ≠ firstSlot → (s.proc p).state = .unused
  pid : s.ids firstSlot = { pid := 1 }
  nextpid : s.nextpid = 2
  initproc : s.initproc = firstSlot
  lock : s.lock = none
  sched : ∀ c, s.sched c = .idle
  point : ∀ p, s.point p = .user

def kernel (C : Type) [DecidableEq C] : System (Kernel C) (C × Move) where
  init := Booted
  step s l s' := step s l.1 l.2 = some s'

end Processes
end Lottery
end CS444
