/-
`ptable.lock` and `tickslock` in `lab3/xv6-lottery`.

Each CPU runs `scheduler()` or a process; what it does next with the two locks
is its control point.  Interrupts are off wherever a lock is held or waited
for, so a timer interrupt comes only at `idle` and `user`.  Only CPU 0 counts
ticks (`trap.c`); the others go straight to `yield()`.  Which RUNNABLE process
the lottery picks, whether the scan ends, and whether a sleeper was killed are
left open.

`scheduler()` calls `suptime()`, which takes `tickslock`, with `ptable.lock`
held.  The timer interrupt and `sys_sleep` take `ptable.lock`, in `wakeup()` and
`sleep()`, with `tickslock` held.
-/
import CS444.Lib.Runs
import CS444.Lottery.Scheduler
import Mathlib.Data.Fintype.Basic

namespace CS444
namespace Lottery
namespace Locks

open Runs

/-- Where a process goes on when the scheduler comes back to it: in `sleep()`
of `sys_sleep(n)`, which began at `ticks0`, or else at the end of `yield()` or
`forkret()`. -/
inductive Resume where
  | yield
  | sleep (n ticks0 : UInt32)
deriving DecidableEq, Repr

inductive Process where
  | unused
  | running
  | runnable (r : Resume)
  | sleeping (n ticks0 : UInt32)
deriving DecidableEq, Repr

/-- What called `suptime()`: `scheduler()` before or after its `swtch`, or
`sys_uptime`. -/
inductive Caller where
  | dispatch (p : Slot) (r : Resume)
  | resumed
  | uptime (p : Slot)
deriving DecidableEq, Repr

/-- Where a CPU is.  A name ending in `Acquire` or `Ptable` is a spin on the
lock the process is about to take. -/
inductive Pc where
  | idle
  | schedAcquire
  | schedScan
  | suptimeAcquire (k : Caller)
  | suptimeRelease (k : Caller)
  | afterSched (p : Slot) (r : Resume)
  | user (p : Slot)
  | tickAcquire (p : Option Slot)
  | wakeupAcquire (p : Option Slot)
  | wakeupRelease (p : Option Slot)
  | tickRelease (p : Option Slot)
  | yieldAcquire (p : Slot)
  | yieldSched (p : Slot)
  | sleepAcquire (p : Slot) (n : UInt32) (ticks0 : Option UInt32)
  | sleepCheck (p : Slot) (n ticks0 : UInt32)
  | sleepPtable (p : Slot) (n ticks0 : UInt32)
  | sleepSched (p : Slot) (n ticks0 : UInt32)
deriving DecidableEq, Repr

structure Machine (C : Type) where
  pc : C → Pc
  proc : Slot → Process
  ticks : UInt32
  ptable : Option C
  tickslock : Option C

/-- What decides a step that the control point leaves open. -/
inductive Move where
  | go
  | timer
  | pick (p : Slot)
  | uptime
  | sleep (n : UInt32)
  | killed
deriving DecidableEq, Repr

variable {C : Type} [DecidableEq C]

namespace Machine

/-- CPU `c` goes on at `k`. -/
def goto (s : Machine C) (c : C) (k : Pc) : Machine C :=
  { s with pc := Function.update s.pc c k }

/-- `acquire(&ptable.lock)`, which spins while the lock is taken. -/
def takePtable (s : Machine C) (c : C) (k : Pc) : Option (Machine C) :=
  if s.ptable = none then some { s.goto c k with ptable := some c } else none

/-- `acquire(&tickslock)`. -/
def takeTicks (s : Machine C) (c : C) (k : Pc) : Option (Machine C) :=
  if s.tickslock = none then some { s.goto c k with tickslock := some c } else none

def dropPtable (s : Machine C) (c : C) (k : Pc) : Machine C :=
  { s.goto c k with ptable := none }

def dropTicks (s : Machine C) (c : C) (k : Pc) : Machine C :=
  { s.goto c k with tickslock := none }

def setProc (s : Machine C) (p : Slot) (st : Process) : Machine C :=
  { s with proc := Function.update s.proc p st }

/-- `wakeup1(&ticks)` -/
def wakeTicks (s : Machine C) : Machine C :=
  { s with
    proc := fun p =>
      match s.proc p with
      | .sleeping n ticks0 => .runnable (.sleep n ticks0)
      | st => st }

end Machine

open Machine

/-- One step of CPU `c`; `boot` is CPU 0. -/
def step (boot : C) (s : Machine C) (c : C) (m : Move) : Option (Machine C) :=
  match s.pc c, m with
  -- scheduler
  | .idle, .go => some (s.goto c .schedAcquire)
  | .idle, .timer => some (if c = boot then s.goto c (.tickAcquire none) else s)
  | .schedAcquire, .go => s.takePtable c .schedScan
  | .schedScan, .go => some (s.dropPtable c .idle)
  | .schedScan, .pick p =>
    match s.proc p with
    | .runnable r =>
      some ((s.setProc p .running).goto c (.suptimeAcquire (.dispatch p r)))
    | _ => none
  -- suptime, and swtch behind it
  | .suptimeAcquire k, .go => s.takeTicks c (.suptimeRelease k)
  | .suptimeRelease (.dispatch p r), .go => some (s.dropTicks c (.afterSched p r))
  | .suptimeRelease .resumed, .go => some (s.dropTicks c .schedScan)
  | .suptimeRelease (.uptime p), .go => some (s.dropTicks c (.user p))
  -- sched() has come back
  | .afterSched p .yield, .go => some (s.dropPtable c (.user p))
  | .afterSched p (.sleep n ticks0), .go =>
    some (s.dropPtable c (.sleepAcquire p n (some ticks0)))
  -- a process
  | .user p, .uptime => some (s.goto c (.suptimeAcquire (.uptime p)))
  | .user p, .sleep n => some (s.goto c (.sleepAcquire p n none))
  | .user p, .timer =>
    some (s.goto c (if c = boot then .tickAcquire (some p) else .yieldAcquire p))
  -- the timer interrupt
  | .tickAcquire p, .go =>
    (s.takeTicks c (.wakeupAcquire p)).map fun s => { s with ticks := s.ticks + 1 }
  | .wakeupAcquire p, .go => (s.takePtable c (.wakeupRelease p)).map wakeTicks
  | .wakeupRelease p, .go => some (s.dropPtable c (.tickRelease p))
  | .tickRelease none, .go => some (s.dropTicks c .idle)
  | .tickRelease (some p), .go => some (s.dropTicks c (.yieldAcquire p))
  -- yield
  | .yieldAcquire p, .go => s.takePtable c (.yieldSched p)
  | .yieldSched p, .go =>
    some ((s.setProc p (.runnable .yield)).goto c (.suptimeAcquire .resumed))
  -- sys_sleep
  | .sleepAcquire p n ticks0, .go => s.takeTicks c (.sleepCheck p n (ticks0.getD s.ticks))
  | .sleepCheck p n ticks0, .go =>
    some (if s.ticks - ticks0 < n then s.goto c (.sleepPtable p n ticks0)
      else s.dropTicks c (.user p))
  | .sleepCheck p n ticks0, .killed =>
    if s.ticks - ticks0 < n then some (s.dropTicks c (.user p)) else none
  | .sleepPtable p n ticks0, .go => s.takePtable c (.sleepSched p n ticks0)
  | .sleepSched p n ticks0, .go =>
    some ((s.setProc p (.sleeping n ticks0)).dropTicks c (.suptimeAcquire .resumed))
  | _, _ => none

/-- Every CPU enters `scheduler()`; no process runs yet. -/
structure Start (s : Machine C) : Prop where
  pc : ∀ c, s.pc c = .idle
  ptable : s.ptable = none
  tickslock : s.tickslock = none

/-- The kernel as far as the two locks go. -/
def kernel (boot : C) : System (Machine C) (C × Move) where
  init := Start
  step s l s' := step boot s l.1 l.2 = some s'

/-! ## Who holds and who waits -/

namespace Pc

def holdsPtable : Pc → Bool
  | .schedScan | .suptimeAcquire (.dispatch _ _) | .suptimeAcquire .resumed
  | .suptimeRelease (.dispatch _ _) | .suptimeRelease .resumed | .afterSched _ _
  | .wakeupRelease _ | .yieldSched _ | .sleepSched _ _ _ => true
  | _ => false

def holdsTicks : Pc → Bool
  | .suptimeRelease _ | .wakeupAcquire _ | .wakeupRelease _ | .tickRelease _
  | .sleepCheck _ _ _ | .sleepPtable _ _ _ | .sleepSched _ _ _ => true
  | _ => false

/-- In a dispatch: `ptable.lock` has been taken in `scheduler()` or `yield()`, and
`suptime()` has not returned. -/
def dispatching : Pc → Bool
  | .schedScan | .yieldSched _
  | .suptimeAcquire (.dispatch _ _) | .suptimeAcquire .resumed
  | .suptimeRelease (.dispatch _ _) | .suptimeRelease .resumed => true
  | _ => false

/-- In a tick or a sleep: `tickslock` has been taken in `trap()` or `sys_sleep`, and
`ptable.lock` has not. -/
def ticking : Pc → Bool
  | .wakeupAcquire _ | .sleepCheck _ _ _ | .sleepPtable _ _ _ => true
  | _ => false

/-- The step takes `ptable.lock` in `scheduler()` or `yield()`. -/
def dispatches : Pc → Move → Bool
  | .schedAcquire, .go | .yieldAcquire _, .go => true
  | _, _ => false

/-- The step takes `tickslock` in the timer interrupt or in `sys_sleep`. -/
def ticks : Pc → Move → Bool
  | .tickAcquire _, .go | .sleepAcquire _ _ _, .go => true
  | _, _ => false

theorem holdsTicks_of_ticking {k : Pc} (hticking : k.ticking = true) : k.holdsTicks = true := by
  cases k <;> first | rfl | exact absurd hticking Bool.false_ne_true

theorem not_dispatching_of_ticking {k : Pc} (hticking : k.ticking = true) :
    k.dispatching = false := by
  cases k <;> first | rfl | exact absurd hticking Bool.false_ne_true

end Pc

/-- Dispatches do not overlap ticks and sleeps: a CPU takes `ptable.lock` in
`scheduler()` or `yield()` only while none is in a tick or a sleep, and takes
`tickslock` in the timer interrupt or in `sys_sleep` only while none is in a
dispatch. -/
def Apart (s : Machine C) (l : C × Move) : Prop :=
  ∀ c, ((s.pc l.1).dispatches l.2 = true → (s.pc c).ticking = false) ∧
    ((s.pc l.1).ticks l.2 = true → (s.pc c).dispatching = false)

instance [Fintype C] (s : Machine C) (l : C × Move) : Decidable (Apart s l) :=
  inferInstanceAs (Decidable (∀ _, _))

omit [DecidableEq C] in
/-- On one CPU nothing overlaps. -/
theorem apart_of_subsingleton [Subsingleton C] (s : Machine C) (l : C × Move) : Apart s l := by
  intro c
  obtain rfl := Subsingleton.elim l.1 c
  refine ⟨fun h => ?_, fun h => ?_⟩
  · cases hpc : s.pc l.1 <;> rw [hpc] at h <;>
      first | rfl | exact absurd h Bool.false_ne_true
  · cases hpc : s.pc l.1 <;> rw [hpc] at h <;>
      first | rfl | exact absurd h Bool.false_ne_true

/-! ## One step -/

/-- What CPU `c` does to the locks when it goes on at `k`. -/
structure Moves (s s' : Machine C) (c : C) (m : Move) (k : Pc) : Prop where
  pc : s'.pc = Function.update s.pc c k
  ptable : s'.ptable = s.ptable ∧ k.holdsPtable = (s.pc c).holdsPtable ∨
    s.ptable = none ∧ s'.ptable = some c ∧ k.holdsPtable = true ∨
    (s.pc c).holdsPtable = true ∧ s'.ptable = none ∧ k.holdsPtable = false
  tickslock : s'.tickslock = s.tickslock ∧ k.holdsTicks = (s.pc c).holdsTicks ∨
    s.tickslock = none ∧ s'.tickslock = some c ∧ k.holdsTicks = true ∨
    (s.pc c).holdsTicks = true ∧ s'.tickslock = none ∧ k.holdsTicks = false
  dispatching : k.dispatching = true → (s.pc c).dispatching = true ∨
    (s.pc c).dispatches m = true ∨ (s.pc c).holdsTicks = true
  ticking : k.ticking = true → (s.pc c).ticking = true ∨ (s.pc c).ticks m = true

variable {boot c : C} {s s' : Machine C} {m : Move}

theorem takePtable_some {k : Pc} (h : s.takePtable c k = some s') :
    s.ptable = none ∧ s' = { s.goto c k with ptable := some c } := by
  unfold takePtable at h
  split at h
  · exact ⟨‹_›, (Option.some.inj h).symm⟩
  · exact absurd h (by simp)

theorem takeTicks_some {k : Pc} (h : s.takeTicks c k = some s') :
    s.tickslock = none ∧ s' = { s.goto c k with tickslock := some c } := by
  unfold takeTicks at h
  split at h
  · exact ⟨‹_›, (Option.some.inj h).symm⟩
  · exact absurd h (by simp)

/-- A step that takes or drops no lock. -/
theorem moves_goto {k : Pc} (hpc : s'.pc = Function.update s.pc c k)
    (hptable : s'.ptable = s.ptable) (htickslock : s'.tickslock = s.tickslock)
    (hheld : k.holdsPtable = (s.pc c).holdsPtable ∧ k.holdsTicks = (s.pc c).holdsTicks)
    (hdispatch : k.dispatching = true → (s.pc c).dispatching = true)
    (htick : k.ticking = true → (s.pc c).ticking = true) : ∃ k, Moves s s' c m k :=
  ⟨k, hpc, Or.inl ⟨hptable, hheld.1⟩, Or.inl ⟨htickslock, hheld.2⟩,
    fun hk => Or.inl (hdispatch hk), fun hk => Or.inl (htick hk)⟩

/-- A step that takes or drops `ptable.lock`. -/
theorem moves_ptable {k : Pc} (hpc : s'.pc = Function.update s.pc c k)
    (hptable : s.ptable = none ∧ s'.ptable = some c ∧ k.holdsPtable = true ∨
      (s.pc c).holdsPtable = true ∧ s'.ptable = none ∧ k.holdsPtable = false)
    (htickslock : s'.tickslock = s.tickslock) (hheld : k.holdsTicks = (s.pc c).holdsTicks)
    (hdispatch : k.dispatching = true → (s.pc c).dispatches m = true ∨
      (s.pc c).holdsTicks = true)
    (htick : k.ticking = false) : ∃ k, Moves s s' c m k :=
  ⟨k, hpc, Or.inr hptable, Or.inl ⟨htickslock, hheld⟩, fun hk => Or.inr (hdispatch hk),
    by simp [htick]⟩

/-- A step that takes or drops `tickslock`. -/
theorem moves_ticks {k : Pc} (hpc : s'.pc = Function.update s.pc c k)
    (hptable : s'.ptable = s.ptable) (hheld : k.holdsPtable = (s.pc c).holdsPtable)
    (htickslock : s.tickslock = none ∧ s'.tickslock = some c ∧ k.holdsTicks = true ∨
      (s.pc c).holdsTicks = true ∧ s'.tickslock = none ∧ k.holdsTicks = false)
    (hdispatch : k.dispatching = true → (s.pc c).dispatching = true ∨ (s.pc c).holdsTicks = true)
    (htick : k.ticking = true → (s.pc c).ticks m = true) : ∃ k, Moves s s' c m k := by
  refine ⟨k, hpc, Or.inl ⟨hptable, hheld⟩, Or.inr htickslock, fun hk => ?_,
    fun hk => Or.inr (htick hk)⟩
  rcases hdispatch hk with hold | hticks
  · exact Or.inl hold
  · exact Or.inr (Or.inr hticks)

theorem step_moves (h : step boot s c m = some s') : ∃ k, Moves s s' c m k := by
  unfold step at h
  have hself : s.pc = Function.update s.pc c (s.pc c) := (Function.update_eq_self c s.pc).symm
  cases hpc : s.pc c with
  | idle =>
      cases m <;> simp only [hpc, reduceCtorEq, Option.some.injEq] at h
      · subst h
        exact moves_goto rfl rfl rfl (by rw [hpc]; exact ⟨rfl, rfl⟩) (by simp [Pc.dispatching])
          (by simp [Pc.ticking])
      · split at h <;> subst h
        · exact moves_goto rfl rfl rfl (by rw [hpc]; exact ⟨rfl, rfl⟩)
            (by simp [Pc.dispatching]) (by simp [Pc.ticking])
        · exact moves_goto hself rfl rfl ⟨rfl, rfl⟩ (by simp) (by simp)
  | schedAcquire =>
      cases m <;> simp only [hpc, reduceCtorEq] at h
      obtain ⟨hfree, rfl⟩ := takePtable_some h
      exact moves_ptable rfl (Or.inl ⟨hfree, rfl, rfl⟩) rfl (by rw [hpc]; rfl)
        (fun _ => Or.inl (by rw [hpc]; rfl)) rfl
  | schedScan =>
      cases m <;> simp only [hpc, reduceCtorEq, Option.some.injEq] at h
      · subst h
        exact moves_ptable rfl (Or.inr ⟨by rw [hpc]; rfl, rfl, rfl⟩) rfl (by rw [hpc]; rfl)
          (by simp [Pc.dispatching]) rfl
      · split at h
        · obtain rfl := Option.some.inj h
          exact moves_goto rfl rfl rfl (by rw [hpc]; exact ⟨rfl, rfl⟩)
            (fun _ => by rw [hpc]; rfl) (by simp [Pc.ticking])
        · exact absurd h (by simp)
  | suptimeAcquire k =>
      cases m <;> simp only [hpc, reduceCtorEq] at h
      obtain ⟨hfree, rfl⟩ := takeTicks_some h
      refine moves_ticks rfl rfl ?_ (Or.inl ⟨hfree, rfl, rfl⟩) (fun hk => Or.inl ?_)
        (by simp [Pc.ticking])
      · rw [hpc]
        cases k <;> rfl
      · rw [hpc]
        cases k <;> exact hk
  | suptimeRelease k =>
      cases k <;> cases m <;> simp only [hpc, reduceCtorEq, Option.some.injEq] at h <;>
        subst h <;>
        exact moves_ticks rfl rfl (by rw [hpc]; rfl) (Or.inr ⟨by rw [hpc]; rfl, rfl, rfl⟩)
          (fun _ => Or.inr (by rw [hpc]; rfl)) (by simp [Pc.ticking])
  | afterSched p r =>
      cases r <;> cases m <;> simp only [hpc, reduceCtorEq, Option.some.injEq] at h <;>
        subst h <;>
        exact moves_ptable rfl (Or.inr ⟨by rw [hpc]; rfl, rfl, rfl⟩) rfl (by rw [hpc]; rfl)
          (by simp [Pc.dispatching]) rfl
  | user p =>
      cases m <;> simp only [hpc, reduceCtorEq, Option.some.injEq] at h <;> subst h
      · split <;> exact moves_goto rfl rfl rfl (by rw [hpc]; exact ⟨rfl, rfl⟩)
          (by simp [Pc.dispatching]) (by simp [Pc.ticking])
      all_goals
        exact moves_goto rfl rfl rfl (by rw [hpc]; exact ⟨rfl, rfl⟩) (by simp [Pc.dispatching])
          (by simp [Pc.ticking])
  | tickAcquire p =>
      cases m <;> simp only [hpc, reduceCtorEq] at h
      obtain ⟨s₁, htake, rfl⟩ := Option.map_eq_some_iff.mp h
      obtain ⟨hfree, rfl⟩ := takeTicks_some htake
      exact moves_ticks rfl rfl (by rw [hpc]; rfl) (Or.inl ⟨hfree, rfl, rfl⟩)
        (by simp [Pc.dispatching]) fun _ => by rw [hpc]; rfl
  | wakeupAcquire p =>
      cases m <;> simp only [hpc, reduceCtorEq] at h
      obtain ⟨s₁, htake, rfl⟩ := Option.map_eq_some_iff.mp h
      obtain ⟨hfree, rfl⟩ := takePtable_some htake
      exact moves_ptable rfl (Or.inl ⟨hfree, rfl, rfl⟩) rfl (by rw [hpc]; rfl)
        (by simp [Pc.dispatching]) rfl
  | wakeupRelease p =>
      cases m <;> simp only [hpc, reduceCtorEq, Option.some.injEq] at h
      subst h
      exact moves_ptable rfl (Or.inr ⟨by rw [hpc]; rfl, rfl, rfl⟩) rfl (by rw [hpc]; rfl)
        (by simp [Pc.dispatching]) rfl
  | tickRelease p =>
      cases p <;> cases m <;> simp only [hpc, reduceCtorEq, Option.some.injEq] at h <;>
        subst h <;>
        exact moves_ticks rfl rfl (by rw [hpc]; rfl) (Or.inr ⟨by rw [hpc]; rfl, rfl, rfl⟩)
          (by simp [Pc.dispatching]) (by simp [Pc.ticking])
  | yieldAcquire p =>
      cases m <;> simp only [hpc, reduceCtorEq] at h
      obtain ⟨hfree, rfl⟩ := takePtable_some h
      exact moves_ptable rfl (Or.inl ⟨hfree, rfl, rfl⟩) rfl (by rw [hpc]; rfl)
        (fun _ => Or.inl (by rw [hpc]; rfl)) rfl
  | yieldSched p =>
      cases m <;> simp only [hpc, reduceCtorEq, Option.some.injEq] at h
      subst h
      exact moves_goto rfl rfl rfl (by rw [hpc]; exact ⟨rfl, rfl⟩) (fun _ => by rw [hpc]; rfl)
        (by simp [Pc.ticking])
  | sleepAcquire p n ticks0 =>
      cases m <;> simp only [hpc, reduceCtorEq] at h
      obtain ⟨hfree, rfl⟩ := takeTicks_some h
      exact moves_ticks rfl rfl (by rw [hpc]; rfl) (Or.inl ⟨hfree, rfl, rfl⟩)
        (by simp [Pc.dispatching]) fun _ => by rw [hpc]; rfl
  | sleepCheck p n ticks0 =>
      cases m <;> simp only [hpc, reduceCtorEq, Option.some.injEq] at h
      · subst h
        split
        · exact moves_goto rfl rfl rfl (by rw [hpc]; exact ⟨rfl, rfl⟩)
            (by simp [Pc.dispatching]) fun _ => by rw [hpc]; rfl
        · exact moves_ticks rfl rfl (by rw [hpc]; rfl) (Or.inr ⟨by rw [hpc]; rfl, rfl, rfl⟩)
            (by simp [Pc.dispatching]) (by simp [Pc.ticking])
      · split at h
        · obtain rfl := Option.some.inj h
          exact moves_ticks rfl rfl (by rw [hpc]; rfl) (Or.inr ⟨by rw [hpc]; rfl, rfl, rfl⟩)
            (by simp [Pc.dispatching]) (by simp [Pc.ticking])
        · exact absurd h (by simp)
  | sleepPtable p n ticks0 =>
      cases m <;> simp only [hpc, reduceCtorEq] at h
      obtain ⟨hfree, rfl⟩ := takePtable_some h
      exact moves_ptable rfl (Or.inl ⟨hfree, rfl, rfl⟩) rfl (by rw [hpc]; rfl)
        (by simp [Pc.dispatching]) rfl
  | sleepSched p n ticks0 =>
      cases m <;> simp only [hpc, reduceCtorEq, Option.some.injEq] at h
      subst h
      exact moves_ticks rfl rfl (by rw [hpc]; rfl) (Or.inr ⟨by rw [hpc]; rfl, rfl, rfl⟩)
        (fun _ => Or.inr (by rw [hpc]; rfl)) (by simp [Pc.ticking])

/-! ## Over a run -/

/-- The locks belong to the CPUs whose control points say so, and no CPU is in a
dispatch while another is in a tick or a sleep. -/
structure Ordered (s : Machine C) : Prop where
  ptable : ∀ c, s.ptable = some c ↔ (s.pc c).holdsPtable = true
  tickslock : ∀ c, s.tickslock = some c ↔ (s.pc c).holdsTicks = true
  apart : ∀ c c', (s.pc c).dispatching = true → (s.pc c').ticking = false

/-- A lock that is taken from free, dropped by its holder or left alone. -/
theorem owner_iff {c₀ : C} {owner owner' : Option C} {holds : Pc → Bool} {pc pc' : C → Pc}
    {k : Pc} (hpc : pc' = Function.update pc c₀ k)
    (hold : ∀ c, owner = some c ↔ holds (pc c) = true)
    (hstep : owner' = owner ∧ holds k = holds (pc c₀) ∨
      owner = none ∧ owner' = some c₀ ∧ holds k = true ∨
      holds (pc c₀) = true ∧ owner' = none ∧ holds k = false) (c : C) :
    owner' = some c ↔ holds (pc' c) = true := by
  subst hpc
  by_cases hc : c = c₀
  · subst hc
    rw [Function.update_self]
    rcases hstep with ⟨rfl, hk⟩ | ⟨-, rfl, hk⟩ | ⟨-, rfl, hk⟩
    · rw [hk]
      exact hold c
    · simp [hk]
    · simp [hk]
  · rw [Function.update_of_ne hc]
    rcases hstep with ⟨rfl, -⟩ | ⟨hfree, rfl, -⟩ | ⟨hheld, rfl, -⟩
    · exact hold c
    · have hnone := hold c
      rw [hfree] at hnone
      simpa [Ne.symm hc] using hnone
    · have howner := (hold c₀).mpr hheld
      have hnone := hold c
      rw [howner] at hnone
      simpa [Ne.symm hc] using hnone

theorem Ordered.step (hinv : Ordered s) (hstep : step boot s c m = some s')
    (hok : Apart s (c, m)) : Ordered s' := by
  obtain ⟨k, hmoves⟩ := step_moves hstep
  refine ⟨owner_iff hmoves.pc hinv.ptable hmoves.ptable,
    owner_iff hmoves.pc hinv.tickslock hmoves.tickslock, fun c₁ c₂ hdispatch => ?_⟩
  have hself : s'.pc c = k := by rw [hmoves.pc, Function.update_self]
  have hothers : ∀ c', c' ≠ c → s'.pc c' = s.pc c' := fun c' hc => by
    rw [hmoves.pc, Function.update_of_ne hc]
  by_contra htick
  replace htick : (s'.pc c₂).ticking = true := by simpa using htick
  by_cases h₁ : c₁ = c <;> by_cases h₂ : c₂ = c
  · subst h₁ h₂
    rw [Pc.not_dispatching_of_ticking htick] at hdispatch
    exact absurd hdispatch (by simp)
  · -- `c` enters or goes on with a dispatch
    subst h₁
    rw [hself] at hdispatch
    rw [hothers c₂ h₂] at htick
    rcases hmoves.dispatching hdispatch with hold | htakes | hticks
    · exact absurd ((hinv.apart c₁ c₂ hold).symm.trans htick) (by simp)
    · exact absurd (((hok c₂).1 htakes).symm.trans htick) (by simp)
    · -- it held `tickslock`, so no other CPU did
      have howner := (hinv.tickslock c₁).mpr hticks
      have hother := (hinv.tickslock c₂).mpr (Pc.holdsTicks_of_ticking htick)
      exact h₂ (Option.some.inj (hother.symm.trans howner))
  · -- `c` enters or goes on with a tick or a sleep
    subst h₂
    rw [hself] at htick
    rw [hothers c₁ h₁] at hdispatch
    rcases hmoves.ticking htick with hold | htakes
    · exact absurd ((hinv.apart c₁ c₂ hdispatch).symm.trans hold) (by simp)
    · exact absurd (((hok c₁).2 htakes).symm.trans hdispatch) (by simp)
  · rw [hothers c₁ h₁] at hdispatch
    rw [hothers c₂ h₂] at htick
    exact absurd ((hinv.apart c₁ c₂ hdispatch).symm.trans htick) (by simp)

/-- The slot of the first process. -/
def initproc : Slot := ⟨0, nproc_pos⟩

/-- Two CPUs after boot: one process, about to be scheduled for the first time. -/
def booted : Machine (Fin 2) where
  pc _ := .idle
  proc p := if p = initproc then .runnable .yield else .unused
  ticks := 0
  ptable := none
  tickslock := none

end Locks
end Lottery
end CS444
