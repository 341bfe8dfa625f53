/-
Sleep locks: `sleeplock.c`, over `sleep` and `wakeup` of `proc.c`.

Any number of processes use any number of sleep locks; `lk` is the spin lock inside each
of them, `ptable` the lock of the process table, and a process spins where it waits for
one of those.  A process in `sched` goes on when `scheduler` finds it RUNNABLE, which it
does with `ptable.lock` held.  The scan of `wakeup1` is one step, since `state` changes
under `ptable.lock` only.  `kill` makes a sleeping process RUNNABLE at any time, so that
it wakes with its lock taken.  How many CPUs there are, and the timer, is left out: a
process that may run runs.

`has` is what the callers know: that they have come back from `acquiresleep` and have
not called `releasesleep`.
-/
import CS444.Lib.Runs
import CS444.Lib.SpinLock

namespace CS444
namespace Kthreads
namespace SleepLocks

open Runs SpinLocks

/-! ## The machine -/

inductive State where
  | running
  | runnable
  | sleeping
deriving DecidableEq

/-- What a process does next; `i` is the sleep lock it is at work on. -/
inductive Pc (ι : Type*) where
  | user
  -- acquiresleep
  | acquire (i : ι)
  | test (i : ι)
  | lock (i : ι)
  | acquired (i : ι)
  -- sleep, called from there
  | takePtable (i : ι)
  | dropLk (i : ι)
  | sched (i : ι)
  | asleep (i : ι)
  | tidy (i : ι)
  -- releasesleep
  | release (i : ι)
  | unlock (i : ι)
  | wakeup (i : ι)
  | wakeup1 (i : ι)
  | woken (i : ι)
  | released (i : ι)
deriving DecidableEq

structure Machine (κ ι : Type*) where
  locked : ι → Bool
  pid : ι → Option κ
  lk : ι → Option κ
  ptable : Option κ
  state : κ → State
  chan : κ → Option ι
  pc : κ → Pc ι
  has : κ → ι → Bool

inductive Move (κ ι : Type*) where
  | acquiresleep (k : κ) (i : ι)
  | releasesleep (k : κ) (i : ι)
  | go (k : κ)
  | kill (k : κ)

variable {κ ι : Type*} [DecidableEq κ] [DecidableEq ι]

namespace Machine

def goto (m : Machine κ ι) (k : κ) (p : Pc ι) : Machine κ ι :=
  { m with pc := Function.update m.pc k p }

def setLk (m : Machine κ ι) (i : ι) (o : Option κ) : Machine κ ι :=
  { m with lk := Function.update m.lk i o }

def setPtable (m : Machine κ ι) (o : Option κ) : Machine κ ι := { m with ptable := o }

def setState (m : Machine κ ι) (k : κ) (st : State) : Machine κ ι :=
  { m with state := Function.update m.state k st }

def setChan (m : Machine κ ι) (k : κ) (c : Option ι) : Machine κ ι :=
  { m with chan := Function.update m.chan k c }

/-- `lk->locked` and `lk->pid`, written together since `lk->lk` is held. -/
def setLocked (m : Machine κ ι) (i : ι) (locked : Bool) (pid : Option κ) : Machine κ ι :=
  { m with
    locked := Function.update m.locked i locked
    pid := Function.update m.pid i pid }

def setHas (m : Machine κ ι) (k : κ) (i : ι) (b : Bool) : Machine κ ι :=
  { m with has := Function.update m.has k (Function.update (m.has k) i b) }

/-- `acquire(&lk->lk)` -/
def takeLk (m : Machine κ ι) (k : κ) (i : ι) (p : Pc ι) : Option (Machine κ ι) :=
  if m.lk i = none then some ((m.setLk i (some k)).goto k p) else none

/-- `acquire(&ptable.lock)` -/
def takePtable (m : Machine κ ι) (k : κ) (p : Pc ι) : Option (Machine κ ι) :=
  if m.ptable = none then some ((m.setPtable (some k)).goto k p) else none

/-- `wakeup1(chan)` -/
def wakeup1 (m : Machine κ ι) (i : ι) : Machine κ ι :=
  { m with
    state := fun k =>
      if m.state k = .sleeping ∧ m.chan k = some i then .runnable else m.state k }

/-- The next step of process `k`. -/
def run (m : Machine κ ι) (k : κ) : Option (Machine κ ι) :=
  match m.pc k with
  | .user => none
  | .acquire i => m.takeLk k i (.test i)
  | .test i => some (m.goto k (if m.locked i then .takePtable i else .lock i))
  | .lock i => some ((m.setLocked i true (some k)).goto k (.acquired i))
  | .acquired i => some (((m.setLk i none).setHas k i true).goto k .user)
  | .takePtable i => m.takePtable k (.dropLk i)
  | .dropLk i => some ((m.setLk i none).goto k (.sched i))
  | .sched i =>
    some ((((m.setChan k (some i)).setState k .sleeping).setPtable none).goto k (.asleep i))
  | .asleep i =>
    if m.state k = .runnable then (m.setState k .running).takePtable k (.tidy i) else none
  | .tidy i => some (((m.setChan k none).setPtable none).goto k (.acquire i))
  | .release i => m.takeLk k i (.unlock i)
  | .unlock i => some ((m.setLocked i false none).goto k (.wakeup i))
  | .wakeup i => m.takePtable k (.wakeup1 i)
  | .wakeup1 i => some ((m.wakeup1 i).goto k (.woken i))
  | .woken i => some ((m.setPtable none).goto k (.released i))
  | .released i => some ((m.setLk i none).goto k .user)

/-- A process calls a function, goes on, or is killed. -/
def step (m : Machine κ ι) : Move κ ι → Option (Machine κ ι)
  | .acquiresleep k i => if m.pc k = .user then some (m.goto k (.acquire i)) else none
  | .releasesleep k i =>
    if m.pc k = .user then some ((m.setHas k i false).goto k (.release i)) else none
  | .go k => m.run k
  | .kill k =>
    if m.ptable = none then
      some (if m.state k = .sleeping then m.setState k .runnable else m)
    else none

end Machine

/-- Every lock is free and every process in user space. -/
structure Boot (m : Machine κ ι) : Prop where
  locked : ∀ i, m.locked i = false
  pid : ∀ i, m.pid i = none
  lk : ∀ i, m.lk i = none
  ptable : m.ptable = none
  pc : ∀ k, m.pc k = .user
  has : ∀ k i, m.has k i = false

/-- Only what was acquired is released. -/
def OwnRelease (m : Machine κ ι) : Move κ ι → Prop
  | .releasesleep k i => m.has k i = true
  | _ => True

instance (m : Machine κ ι) : ∀ a, Decidable (OwnRelease m a)
  | .releasesleep k i => inferInstanceAs (Decidable (m.has k i = true))
  | .acquiresleep _ _ => .isTrue trivial
  | .go _ => .isTrue trivial
  | .kill _ => .isTrue trivial

def machine (κ ι : Type*) [DecidableEq κ] [DecidableEq ι] : System (Machine κ ι) (Move κ ι) where
  init := Boot
  step m a m' := m.step a = some m'

/-! ## What a control point says -/

namespace Pc

/-- The process holds the spin lock of `i`. -/
def holds (i : ι) : Pc ι → Bool
  | .test j | .lock j | .acquired j | .takePtable j | .dropLk j | .unlock j | .wakeup j
  | .wakeup1 j | .woken j | .released j => decide (j = i)
  | _ => false

def holdsPtable : Pc ι → Bool
  | .dropLk _ | .sched _ | .tidy _ | .wakeup1 _ | .woken _ => true
  | _ => false

/-- The process has the sleep lock `i`, and its caller does not know it yet or any more. -/
def owns (i : ι) : Pc ι → Bool
  | .acquired j | .release j | .unlock j => decide (j = i)
  | _ => false

/-- The process has found `i` locked and still holds its spin lock. -/
def waits (i : ι) : Pc ι → Bool
  | .takePtable j | .dropLk j => decide (j = i)
  | _ => false

/-- The process is about to wake the sleepers of `i`. -/
def wakes (i : ι) : Pc ι → Bool
  | .wakeup j | .wakeup1 j => decide (j = i)
  | _ => false

/-- Nothing has to be known of the sleep locks here. -/
def quiet : Pc ι → Bool
  | .lock _ | .takePtable _ | .dropLk _ | .sched _ | .asleep _ => false
  | _ => true

theorem holds_of_waits {i : ι} {p : Pc ι} (h : p.waits i = true) : p.holds i = true := by
  cases p with
  | takePtable j => exact h
  | dropLk j => exact h
  | _ => cases h

end Pc

/-- Some process is about to wake the sleepers of `i`, or need not, since it is locked. -/
def Heard (m : Machine κ ι) (i : ι) : Prop := m.locked i = true ∨ ∃ w, (m.pc w).wakes i = true

/-- What holds between the locks and the control points. -/
structure Inv (m : Machine κ ι) : Prop where
  lk : ∀ i, HeldBy (m.lk i) (Pc.holds i) m.pc
  ptable : HeldBy m.ptable Pc.holdsPtable m.pc
  owner : ∀ i k, m.pid i = some k ↔ (m.pc k).owns i = true ∨ m.has k i = true
  locked : ∀ i, m.locked i = (m.pid i).isSome
  free : ∀ k i, m.pc k = .lock i → m.locked i = false
  saw : ∀ k i, (m.pc k).waits i = true → m.locked i = true
  apart : ∀ k i, (m.pc k).owns i = true → m.has k i = false
  heard : ∀ k i, m.pc k = .sched i ∨ m.pc k = .asleep i ∧ m.state k = .sleeping → Heard m i
  chan : ∀ k i, m.pc k = .asleep i → m.chan k = some i
  off : ∀ k i, m.pc k = .asleep i → m.state k ≠ .running

variable {m m' : Machine κ ι} {k : κ} {i : ι} {p : Pc ι}

omit [DecidableEq κ] in
theorem inv_boot (hboot : Boot m) : Inv m where
  lk i k := by
    rw [hboot.lk, hboot.pc]
    exact iff_of_false (fun h => nomatch h) Bool.noConfusion
  ptable k := by
    rw [hboot.ptable, hboot.pc]
    exact iff_of_false (fun h => nomatch h) Bool.noConfusion
  owner i k := by
    rw [hboot.pid, hboot.pc, hboot.has]
    exact iff_of_false (fun h => nomatch h) fun h => h.elim Bool.noConfusion Bool.noConfusion
  locked i := by
    rw [hboot.locked, hboot.pid]
    rfl
  apart k i _ := hboot.has k i
  free k i h := by
    rw [hboot.pc] at h
    cases h
  saw k i h := by
    rw [hboot.pc] at h
    cases h
  heard k i h := by
    rw [hboot.pc] at h
    exact h.elim (fun h => nomatch h) fun h => nomatch h.1
  chan k i h := by
    rw [hboot.pc] at h
    cases h
  off k i h := by
    rw [hboot.pc] at h
    cases h

/-! ## The spin locks -/

theorem lk_keep (hinv : Inv m) (hp : ∀ j, p.holds j = (m.pc k).holds j) (j : ι) :
    HeldBy (m.lk j) (Pc.holds j) (Function.update m.pc k p) :=
  (hinv.lk j).keep (hp j)

theorem lk_take (hinv : Inv m) (hfree : m.lk i = none) (hp : ∀ j, p.holds j = decide (i = j))
    (hk : ∀ j, (m.pc k).holds j = false) (j : ι) :
    HeldBy (Function.update m.lk i (some k) j) (Pc.holds j) (Function.update m.pc k p) := by
  have hold := hinv.lk j
  by_cases hj : j = i
  · subst hj
    rw [hfree] at hold
    rw [Function.update_self]
    exact hold.take ((hp j).trans (decide_eq_true rfl))
  · rw [Function.update_of_ne hj]
    exact hold.keep ((hp j).trans ((decide_eq_false (Ne.symm hj)).trans (hk j).symm))

theorem lk_drop (hinv : Inv m) (hk : ∀ j, (m.pc k).holds j = decide (i = j))
    (hp : ∀ j, p.holds j = false) (j : ι) :
    HeldBy (Function.update m.lk i none j) (Pc.holds j) (Function.update m.pc k p) := by
  have hold := hinv.lk j
  by_cases hj : j = i
  · subst hj
    rw [Function.update_self]
    exact hold.drop ((hk j).trans (decide_eq_true rfl)) (hp j)
  · rw [Function.update_of_ne hj]
    exact hold.keep ((hp j).trans ((hk j).trans (decide_eq_false (Ne.symm hj))).symm)

theorem ptable_take (hinv : Inv m) (hfree : m.ptable = none) (hp : p.holdsPtable = true) :
    HeldBy (some k) Pc.holdsPtable (Function.update m.pc k p) := by
  have hold := hinv.ptable
  rw [hfree] at hold
  exact hold.take hp

/-! ## Every step keeps the invariant -/

/-- A step of process `k`, which goes on at `p`. -/
theorem Inv.next (hinv : Inv m) (hpc : m'.pc = Function.update m.pc k p)
    (hlk : ∀ i, HeldBy (m'.lk i) (Pc.holds i) (Function.update m.pc k p))
    (hptable : HeldBy m'.ptable Pc.holdsPtable (Function.update m.pc k p))
    (howner : ∀ i j, m'.pid i = some j ↔
      (Function.update m.pc k p j).owns i = true ∨ m'.has j i = true)
    (happart : ∀ i j, (Function.update m.pc k p j).owns i = true → m'.has j i = false)
    (hlocked : ∀ i, m'.locked i = (m'.pid i).isSome)
    (hkept : ∀ j, j ≠ k → ∀ i, (m.pc j).holds i = true → m'.locked i = m.locked i)
    (hchan : ∀ j, j ≠ k → m'.chan j = m.chan j)
    (hoff : ∀ j, j ≠ k → m.state j ≠ .running → m'.state j ≠ .running)
    (hheard : ∀ j, j ≠ k → ∀ i,
      m.pc j = .sched i ∨ m.pc j = .asleep i ∧ m'.state j = .sleeping → Heard m' i)
    (hfree : ∀ i, p = .lock i → m'.locked i = false)
    (hsaw : ∀ i, p.waits i = true → m'.locked i = true)
    (hsleep : ∀ i, p = .sched i ∨ p = .asleep i → Heard m' i)
    (hasleep : ∀ i, p = .asleep i → m'.chan k = some i ∧ m'.state k ≠ .running) : Inv m' where
  lk := hpc ▸ hlk
  ptable := hpc ▸ hptable
  owner := hpc ▸ howner
  apart j i := hpc ▸ happart i j
  locked := hlocked
  free j i h := by
    rw [hpc] at h
    by_cases hj : j = k
    · rw [hj, Function.update_self] at h
      exact hfree i h
    · rw [Function.update_of_ne hj] at h
      rw [hkept j hj i (by rw [h]; exact decide_eq_true rfl)]
      exact hinv.free j i h
  saw j i h := by
    rw [hpc] at h
    by_cases hj : j = k
    · rw [hj, Function.update_self] at h
      exact hsaw i h
    · rw [Function.update_of_ne hj] at h
      rw [hkept j hj i (Pc.holds_of_waits h)]
      exact hinv.saw j i h
  heard j i h := by
    rw [hpc] at h
    by_cases hj : j = k
    · rw [hj, Function.update_self] at h
      exact hsleep i (h.imp id And.left)
    · rw [Function.update_of_ne hj] at h
      exact hheard j hj i h
  chan j i h := by
    rw [hpc] at h
    by_cases hj : j = k
    · rw [hj, Function.update_self] at h
      rw [hj]
      exact (hasleep i h).1
    · rw [Function.update_of_ne hj] at h
      rw [hchan j hj]
      exact hinv.chan j i h
  off j i h := by
    rw [hpc] at h
    by_cases hj : j = k
    · rw [hj, Function.update_self] at h
      rw [hj]
      exact (hasleep i h).2
    · rw [Function.update_of_ne hj] at h
      exact hoff j hj (hinv.off j i h)

theorem owner_keep (hinv : Inv m) (howns : ∀ i, p.owns i = (m.pc k).owns i) (i : ι) (j : κ) :
    m.pid i = some j ↔ (Function.update m.pc k p j).owns i = true ∨ m.has j i = true := by
  rw [hinv.owner i j]
  by_cases hj : j = k
  · rw [hj, Function.update_self, howns]
  · rw [Function.update_of_ne hj]

theorem apart_keep (hinv : Inv m) (howns : ∀ i, p.owns i = (m.pc k).owns i) (i : ι) (j : κ)
    (h : (Function.update m.pc k p j).owns i = true) : m.has j i = false := by
  apply hinv.apart j i
  by_cases hj : j = k
  · rwa [hj, Function.update_self, howns, ← hj] at h
  · rwa [Function.update_of_ne hj] at h

/-- Whoever was heard still is, unless it was the process that goes on. -/
theorem Heard.next (hheard : Heard m i) (hpc : m'.pc = Function.update m.pc k p)
    (hlocked : m.locked i = true → Heard m' i)
    (hwakes : (m.pc k).wakes i = true → p.wakes i = true) : Heard m' i := by
  obtain h | ⟨w, hw⟩ := hheard
  · exact hlocked h
  · refine .inr ⟨w, ?_⟩
    rw [hpc]
    by_cases hwk : w = k
    · rw [hwk] at hw
      rw [hwk, Function.update_self]
      exact hwakes hw
    · rwa [Function.update_of_ne hwk]

/-- A step that moves the process on and leaves the sleep locks alone. -/
theorem Inv.moved (hinv : Inv m) (hpc : m'.pc = Function.update m.pc k p)
    (hlk : ∀ i, HeldBy (m'.lk i) (Pc.holds i) (Function.update m.pc k p))
    (hptable : HeldBy m'.ptable Pc.holdsPtable (Function.update m.pc k p))
    (hlocked : m'.locked = m.locked) (hpid : m'.pid = m.pid) (hhas : m'.has = m.has)
    (hstate : ∀ j, j ≠ k → m'.state j = m.state j) (hchan : ∀ j, j ≠ k → m'.chan j = m.chan j)
    (howns : ∀ i, p.owns i = (m.pc k).owns i)
    (hwakes : ∀ i, (m.pc k).wakes i = true → p.wakes i = true)
    (hfree : ∀ i, p = .lock i → m.locked i = false)
    (hsaw : ∀ i, p.waits i = true → m.locked i = true)
    (hsleep : ∀ i, p = .sched i ∨ p = .asleep i → Heard m i)
    (hasleep : ∀ i, p = .asleep i → m'.chan k = some i ∧ m'.state k ≠ .running) : Inv m' := by
  have hkeep : ∀ i, Heard m i → Heard m' i := fun i h =>
    h.next hpc (fun h => .inl (hlocked ▸ h)) (hwakes i)
  refine hinv.next hpc hlk hptable ?_ (hhas ▸ apart_keep hinv howns) ?_
    (fun _ _ i _ => by rw [hlocked]) hchan
    (fun j hj h => hstate j hj ▸ h) (fun j hj i h => hkeep i ?_) (hlocked ▸ hfree) (hlocked ▸ hsaw)
    (fun i h => hkeep i (hsleep i h)) hasleep
  · rw [hpid, hhas]
    exact owner_keep hinv howns
  · rw [hlocked, hpid]
    exact hinv.locked
  · rw [hstate j hj] at h
    exact hinv.heard j i h

theorem takeLk_some (h : m.takeLk k i p = some m') :
    m.lk i = none ∧ m' = (m.setLk i (some k)).goto k p := by
  unfold Machine.takeLk at h
  split at h
  next hfree => exact ⟨hfree, (Option.some.inj h).symm⟩
  next => cases h

omit [DecidableEq ι] in
theorem takePtable_some (h : m.takePtable k p = some m') :
    m.ptable = none ∧ m' = (m.setPtable (some k)).goto k p := by
  unfold Machine.takePtable at h
  split at h
  next hfree => exact ⟨hfree, (Option.some.inj h).symm⟩
  next => cases h

omit [DecidableEq κ] in
theorem holds_ne (hinv : Inv m) (hk : (m.pc k).holds i = true) {j : κ} {i' : ι} (hj : j ≠ k)
    (h : (m.pc j).holds i' = true) : i' ≠ i := by
  rintro rfl
  exact hj ((hinv.lk i').unique h hk)

/-- `locked = 1` -/
theorem inv_lock (hinv : Inv m) (hpc : m.pc k = .lock i) :
    Inv ((m.setLocked i true (some k)).goto k (.acquired i)) := by
  have hholds : (m.pc k).holds i = true := by
    rw [hpc]
    exact decide_eq_true rfl
  have hnobody : m.pid i = none := by
    have hlocked := hinv.locked i
    rw [hinv.free k i hpc] at hlocked
    exact Option.not_isSome_iff_eq_none.mp (by rw [← hlocked]; exact Bool.noConfusion)
  refine hinv.next rfl (lk_keep hinv fun j => by rw [hpc]; rfl)
    (hinv.ptable.keep (by rw [hpc]; rfl)) (fun i' j => ?_) (fun i' j h => ?_) (fun i' => ?_)
    (fun j hj i' h => Function.update_of_ne (holds_ne hinv hholds hj h) _ _) (fun _ _ => rfl)
    (fun _ _ h => h) (fun j hj i' h => ?_) (fun _ h => nomatch h) (fun _ h => nomatch h)
    (fun _ h => h.elim (fun h => nomatch h) fun h => nomatch h) (fun _ h => nomatch h)
  · show Function.update m.pid i (some k) i' = some j ↔ _ ∨ m.has j i' = true
    have hold := hinv.owner i' j
    by_cases hi : i' = i
    · subst hi
      rw [Function.update_self]
      rw [hnobody] at hold
      by_cases hj : j = k
      · rw [hj, Function.update_self]
        exact iff_of_true rfl (.inl (decide_eq_true rfl))
      · rw [Function.update_of_ne hj, ← hold]
        exact iff_of_false (fun h => hj (Option.some.inj h).symm) fun h => nomatch h
    · rw [Function.update_of_ne hi]
      by_cases hj : j = k
      · rw [hj] at hold ⊢
        have hne : Pc.owns i' (.acquired i) = false := decide_eq_false (Ne.symm hi)
        rw [Function.update_self, hold, hpc, hne]
        rfl
      · rw [Function.update_of_ne hj]
        exact hold
  · by_cases hj : j = k
    · rw [hj, Function.update_self] at h
      obtain rfl : i = i' := of_decide_eq_true h
      have hold := hinv.owner i k
      rw [hnobody] at hold
      rw [hj, ← Bool.not_eq_true]
      exact fun hhas => nomatch hold.mpr (.inr hhas)
    · rw [Function.update_of_ne hj] at h
      exact hinv.apart j i' h
  · show Function.update m.locked i true i' = (Function.update m.pid i (some k) i').isSome
    by_cases hi : i' = i
    · rw [hi, Function.update_self, Function.update_self]
      rfl
    · rw [Function.update_of_ne hi, Function.update_of_ne hi]
      exact hinv.locked i'
  · refine (hinv.heard j i' h).next rfl (fun h => .inl ?_) fun h => ?_
    · show Function.update m.locked i true i' = true
      by_cases hi : i' = i
      · rw [hi, Function.update_self]
      · rwa [Function.update_of_ne hi]
    · rw [hpc] at h
      cases h

/-- `locked = 0` -/
theorem inv_unlock (hinv : Inv m) (hpc : m.pc k = .unlock i) :
    Inv ((m.setLocked i false none).goto k (.wakeup i)) := by
  have hholds : (m.pc k).holds i = true := by
    rw [hpc]
    exact decide_eq_true rfl
  have hownsk : (m.pc k).owns i = true := by
    rw [hpc]
    exact decide_eq_true rfl
  have hmine : m.pid i = some k := (hinv.owner i k).mpr (.inl hownsk)
  refine hinv.next rfl (lk_keep hinv fun j => by rw [hpc]; rfl)
    (hinv.ptable.keep (by rw [hpc]; rfl)) (fun i' j => ?_) (fun i' j h => ?_) (fun i' => ?_)
    (fun j hj i' h => Function.update_of_ne (holds_ne hinv hholds hj h) _ _) (fun _ _ => rfl)
    (fun _ _ h => h) (fun j hj i' h => ?_) (fun _ h => nomatch h) (fun _ h => nomatch h)
    (fun _ h => h.elim (fun h => nomatch h) fun h => nomatch h) (fun _ h => nomatch h)
  · show Function.update m.pid i none i' = some j ↔ _ ∨ m.has j i' = true
    have hold := hinv.owner i' j
    by_cases hi : i' = i
    · subst hi
      rw [Function.update_self]
      rw [hmine] at hold
      refine iff_of_false (fun h => nomatch h) ?_
      by_cases hj : j = k
      · rw [hj, Function.update_self, hinv.apart k i' hownsk]
        exact fun h => h.elim Bool.noConfusion Bool.noConfusion
      · rw [Function.update_of_ne hj, ← hold]
        exact fun h => hj (Option.some.inj h).symm
    · rw [Function.update_of_ne hi]
      by_cases hj : j = k
      · rw [hj] at hold ⊢
        have hne : Pc.owns i' (.unlock i) = false := decide_eq_false (Ne.symm hi)
        rw [Function.update_self, hold, hpc, hne]
        rfl
      · rw [Function.update_of_ne hj]
        exact hold
  · by_cases hj : j = k
    · rw [hj, Function.update_self] at h
      cases h
    · rw [Function.update_of_ne hj] at h
      exact hinv.apart j i' h
  · show Function.update m.locked i false i' = (Function.update m.pid i none i').isSome
    by_cases hi : i' = i
    · rw [hi, Function.update_self, Function.update_self]
      rfl
    · rw [Function.update_of_ne hi, Function.update_of_ne hi]
      exact hinv.locked i'
  · refine (hinv.heard j i' h).next rfl (fun h => ?_) fun h => ?_
    · by_cases hi : i' = i
      · refine .inr ⟨k, ?_⟩
        show (Function.update m.pc k (.wakeup i) k).wakes i' = true
        rw [Function.update_self]
        exact decide_eq_true hi.symm
      · refine .inl ?_
        show Function.update m.locked i false i' = true
        rwa [Function.update_of_ne hi]
    · rw [hpc] at h
      cases h

/-- A process says that it has the lock, or that it will give it back. -/
theorem inv_setHas {b : Bool} (hinv : Inv m) (howns : (m.pc k).owns i = b)
    (hb : b = false → m.has k i = true) (hpc : m'.pc = Function.update m.pc k p)
    (hp : ∀ j, p.owns j = if j = i then !b else false)
    (hk : ∀ j, j ≠ i → (m.pc k).owns j = false)
    (hhas : m'.has = Function.update m.has k (Function.update (m.has k) i b))
    (hlk : ∀ i, HeldBy (m'.lk i) (Pc.holds i) (Function.update m.pc k p))
    (hptable : HeldBy m'.ptable Pc.holdsPtable (Function.update m.pc k p))
    (hlocked : m'.locked = m.locked) (hpid : m'.pid = m.pid) (hstate : m'.state = m.state)
    (hchan : m'.chan = m.chan) (hwakes : ∀ j, (m.pc k).wakes j = false)
    (hfree : ∀ j, p ≠ .lock j) (hsaw : ∀ j, p.waits j = false)
    (hsleep : ∀ j, p ≠ .sched j ∧ p ≠ .asleep j) : Inv m' := by
  refine hinv.next hpc hlk hptable (fun i' j => ?_) (fun i' j h => ?_) ?_
    (fun _ _ i _ => by rw [hlocked]) (fun _ _ => by rw [hchan])
    (fun _ _ h => hstate ▸ h) (fun j hj i' h => ?_)
    (fun j h => absurd h (hfree j)) (fun j h => ?_)
    (fun j h => h.elim (fun h => absurd h (hsleep j).1) fun h => absurd h (hsleep j).2)
    (fun j h => absurd h (hsleep j).2)
  · have hold := hinv.owner i' j
    rw [hpid, hhas, hold]
    by_cases hj : j = k
    · subst hj
      rw [Function.update_self, Function.update_self, hp i']
      by_cases hi : i' = i
      · subst hi
        rw [if_pos rfl, Function.update_self, howns]
        cases b with
        | true => exact iff_of_true (.inl rfl) (.inr rfl)
        | false => exact iff_of_true (.inr (hb rfl)) (.inl rfl)
      · rw [if_neg hi, Function.update_of_ne hi, hk i' hi]
    · rw [Function.update_of_ne hj, Function.update_of_ne hj]
  · rw [hhas]
    by_cases hj : j = k
    · subst hj
      rw [Function.update_self, hp i'] at h
      rw [Function.update_self]
      by_cases hi : i' = i
      · subst hi
        rw [if_pos rfl] at h
        rw [Function.update_self]
        cases b with
        | true => cases h
        | false => rfl
      · rw [if_neg hi] at h
        cases h
    · rw [Function.update_of_ne hj] at h ⊢
      exact hinv.apart j i' h
  · rw [hlocked, hpid]
    exact hinv.locked
  · rw [hstate] at h
    refine (hinv.heard j i' h).next hpc (fun h => .inl (hlocked ▸ h)) fun h => ?_
    rw [hwakes] at h
    cases h
  · rw [hsaw j] at h
    cases h

theorem inv_acquired (hinv : Inv m) (hpc : m.pc k = .acquired i) :
    Inv (((m.setLk i none).setHas k i true).goto k .user) := by
  apply inv_setHas (b := true) hinv _ (fun h => nomatch h) rfl (p := .user) _ _ rfl
  · exact lk_drop hinv (fun j => by rw [hpc]; rfl) fun j => rfl
  · exact hinv.ptable.keep (by rw [hpc]; rfl)
  · rfl
  · rfl
  · rfl
  · rfl
  · intro j
    rw [hpc]
    rfl
  · exact fun j h => nomatch h
  · exact fun j => rfl
  · exact fun j => And.intro (fun h => nomatch h) fun h => nomatch h
  · rw [hpc]
    exact decide_eq_true rfl
  · intro j
    by_cases hj : j = i
    · rw [if_pos hj]
      rfl
    · rw [if_neg hj]
      rfl
  · intro j hj
    rw [hpc]
    exact decide_eq_false (Ne.symm hj)

theorem inv_releasesleep (hinv : Inv m) (hpc : m.pc k = .user) (hhas : m.has k i = true) :
    Inv ((m.setHas k i false).goto k (.release i)) := by
  apply inv_setHas (b := false) hinv _ (fun _ => hhas) rfl (p := .release i) _ _ rfl
  · exact lk_keep hinv fun j => by rw [hpc]; rfl
  · exact hinv.ptable.keep (by rw [hpc]; rfl)
  · rfl
  · rfl
  · rfl
  · rfl
  · intro j
    rw [hpc]
    rfl
  · exact fun j h => nomatch h
  · exact fun j => rfl
  · exact fun j => And.intro (fun h => nomatch h) fun h => nomatch h
  · rw [hpc]
    rfl
  · intro j
    by_cases hj : j = i
    · rw [if_pos hj, hj]
      exact decide_eq_true rfl
    · rw [if_neg hj]
      exact decide_eq_false (Ne.symm hj)
  · intro j hj
    rw [hpc]
    rfl

/-- Everybody who sleeps on the lock is RUNNABLE after the scan, and nobody is on the way
to sleep, since the scan has `ptable.lock`. -/
theorem inv_wakeup1 (hinv : Inv m) (hpc : m.pc k = .wakeup1 i) :
    Inv ((m.wakeup1 i).goto k (.woken i)) := by
  refine hinv.next rfl (lk_keep hinv fun j => by rw [hpc]; rfl)
    (hinv.ptable.keep (by rw [hpc]; rfl))
    (owner_keep hinv fun j => by rw [hpc]; rfl) (apart_keep hinv fun j => by rw [hpc]; rfl)
    hinv.locked (fun _ _ _ _ => rfl) (fun _ _ => rfl) (fun j _ h => ?_) (fun j hj i' h => ?_)
    (fun _ h => nomatch h) (fun _ h => nomatch h)
    (fun _ h => h.elim (fun h => nomatch h) fun h => nomatch h) (fun _ h => nomatch h)
  · show (if m.state j = .sleeping ∧ m.chan j = some i then State.runnable else m.state j) ≠ _
    split
    · exact State.noConfusion
    · exact h
  have hptable : (m.pc k).holdsPtable = true := by
    rw [hpc]
    rfl
  have hne : m.pc j ≠ .sched i' := by
    intro hsched
    apply hj
    apply hinv.ptable.unique _ hptable
    rw [hsched]
    rfl
  obtain ⟨hasleep, hstate⟩ := h.resolve_left hne
  change (if m.state j = .sleeping ∧ m.chan j = some i then State.runnable else m.state j) =
    .sleeping at hstate
  by_cases hwoken : m.state j = .sleeping ∧ m.chan j = some i
  · rw [if_pos hwoken] at hstate
    cases hstate
  · rw [if_neg hwoken] at hstate
    have hi : i' ≠ i := by
      rintro rfl
      exact hwoken ⟨hstate, hinv.chan j i' hasleep⟩
    refine (hinv.heard j i' (.inr ⟨hasleep, hstate⟩)).next rfl (fun h => .inl h) fun h => ?_
    rw [hpc] at h
    exact absurd (of_decide_eq_true h) (Ne.symm hi)

theorem Inv.moved_quiet (hinv : Inv m) (hpc : m'.pc = Function.update m.pc k p)
    (hlk : ∀ i, HeldBy (m'.lk i) (Pc.holds i) (Function.update m.pc k p))
    (hptable : HeldBy m'.ptable Pc.holdsPtable (Function.update m.pc k p))
    (hlocked : m'.locked = m.locked) (hpid : m'.pid = m.pid) (hhas : m'.has = m.has)
    (hstate : ∀ j, j ≠ k → m'.state j = m.state j) (hchan : ∀ j, j ≠ k → m'.chan j = m.chan j)
    (howns : ∀ i, p.owns i = (m.pc k).owns i)
    (hwakes : ∀ i, (m.pc k).wakes i = true → p.wakes i = true) (hquiet : p.quiet = true) :
    Inv m' := by
  refine hinv.moved hpc hlk hptable hlocked hpid hhas hstate hchan howns hwakes ?_ ?_ ?_ ?_
  · rintro i rfl
    cases hquiet
  · intro i hwaits
    cases p with
    | takePtable j => cases hquiet
    | dropLk j => cases hquiet
    | _ => cases hwaits
  · rintro i (rfl | rfl)
    · cases hquiet
    · cases hquiet
  · rintro i rfl
    cases hquiet

theorem inv_test (hinv : Inv m) (hpc : m.pc k = .test i) :
    Inv (m.goto k (if m.locked i then .takePtable i else .lock i)) := by
  cases hlocked : m.locked i with
  | true =>
      refine hinv.moved (p := .takePtable i) rfl (lk_keep hinv fun j => by rw [hpc]; rfl)
        (hinv.ptable.keep (by rw [hpc]; rfl)) rfl rfl rfl (fun _ _ => rfl) (fun _ _ => rfl)
        (fun j => by rw [hpc]; rfl) (fun j hw => by rw [hpc] at hw; cases hw)
        (fun _ h => nomatch h) (fun j hwaits => ?_)
        (fun _ h => h.elim (fun h => nomatch h) fun h => nomatch h) (fun _ h => nomatch h)
      obtain rfl : i = j := of_decide_eq_true hwaits
      exact hlocked
  | false =>
      refine hinv.moved (p := .lock i) rfl (lk_keep hinv fun j => by rw [hpc]; rfl)
        (hinv.ptable.keep (by rw [hpc]; rfl)) rfl rfl rfl (fun _ _ => rfl) (fun _ _ => rfl)
        (fun j => by rw [hpc]; rfl) (fun j hw => by rw [hpc] at hw; cases hw)
        (fun j h => ?_) (fun _ h => nomatch h)
        (fun _ h => h.elim (fun h => nomatch h) fun h => nomatch h) (fun _ h => nomatch h)
      obtain rfl := Pc.lock.inj h
      exact hlocked

/-- `sleep` lets go of the spin lock once it has `ptable.lock`. -/
theorem inv_dropLk (hinv : Inv m) (hpc : m.pc k = .dropLk i) :
    Inv ((m.setLk i none).goto k (.sched i)) := by
  refine hinv.moved (p := .sched i) rfl (lk_drop hinv (fun j => by rw [hpc]; rfl) fun j => rfl)
    (hinv.ptable.keep (by rw [hpc]; rfl)) rfl rfl rfl (fun _ _ => rfl) (fun _ _ => rfl)
    (fun j => by rw [hpc]; rfl) (fun j hw => by rw [hpc] at hw; cases hw)
    (fun _ h => nomatch h) (fun _ h => nomatch h) (fun j h => ?_) (fun _ h => nomatch h)
  obtain rfl := Pc.sched.inj (h.resolve_right fun h => nomatch h)
  exact .inl (hinv.saw k i (by rw [hpc]; exact decide_eq_true rfl))

/-- It falls asleep. -/
theorem inv_sched (hinv : Inv m) (hpc : m.pc k = .sched i) :
    Inv ((((m.setChan k (some i)).setState k .sleeping).setPtable none).goto k (.asleep i)) := by
  refine hinv.moved (p := .asleep i) rfl (lk_keep hinv fun j => by rw [hpc]; rfl)
    (hinv.ptable.drop (by rw [hpc]; rfl) rfl) rfl rfl rfl
    (fun j hj => Function.update_of_ne hj _ _) (fun j hj => Function.update_of_ne hj _ _)
    (fun j => by rw [hpc]; rfl) (fun j hw => by rw [hpc] at hw; cases hw)
    (fun _ h => nomatch h) (fun _ h => nomatch h) (fun j h => ?_) (fun j h => ?_)
  · obtain rfl := Pc.asleep.inj (h.resolve_left fun h => nomatch h)
    exact hinv.heard k i (.inl hpc)
  · obtain rfl := Pc.asleep.inj h
    refine ⟨Function.update_self _ _ _, ?_⟩
    show Function.update m.state k .sleeping k ≠ .running
    rw [Function.update_self]
    exact State.noConfusion

theorem inv_run (hinv : Inv m) (h : m.run k = some m') : Inv m' := by
  unfold Machine.run at h
  cases hpc : m.pc k with
  | user =>
      rw [hpc] at h
      cases h
  | acquire i =>
      rw [hpc] at h
      obtain ⟨hfree, rfl⟩ := takeLk_some h
      exact hinv.moved_quiet (p := .test i) rfl
        (lk_take hinv hfree (fun j => rfl) fun j => by rw [hpc]; rfl)
        (hinv.ptable.keep (by rw [hpc]; rfl)) rfl rfl rfl (fun _ _ => rfl) (fun _ _ => rfl)
        (fun j => by rw [hpc]; rfl) (fun j hw => by rw [hpc] at hw; cases hw) rfl
  | test i =>
      rw [hpc] at h
      obtain rfl := Option.some.inj h
      exact inv_test hinv hpc
  | lock i =>
      rw [hpc] at h
      obtain rfl := Option.some.inj h
      exact inv_lock hinv hpc
  | acquired i =>
      rw [hpc] at h
      obtain rfl := Option.some.inj h
      exact inv_acquired hinv hpc
  | takePtable i =>
      rw [hpc] at h
      obtain ⟨hfree, rfl⟩ := takePtable_some h
      have hsaw := hinv.saw k i (by rw [hpc]; exact decide_eq_true rfl)
      refine hinv.moved (p := .dropLk i) rfl (lk_keep hinv fun j => by rw [hpc]; rfl)
        (ptable_take hinv hfree rfl) rfl rfl rfl (fun _ _ => rfl) (fun _ _ => rfl)
        (fun j => by rw [hpc]; rfl) (fun j hw => by rw [hpc] at hw; cases hw)
        (fun _ h => nomatch h) (fun j hwaits => ?_)
        (fun _ h => h.elim (fun h => nomatch h) fun h => nomatch h) (fun _ h => nomatch h)
      obtain rfl : i = j := of_decide_eq_true hwaits
      exact hsaw
  | dropLk i =>
      rw [hpc] at h
      obtain rfl := Option.some.inj h
      exact inv_dropLk hinv hpc
  | sched i =>
      rw [hpc] at h
      obtain rfl := Option.some.inj h
      exact inv_sched hinv hpc
  | asleep i =>
      rw [hpc] at h
      dsimp only at h
      split at h
      next =>
        obtain ⟨hfree, rfl⟩ := takePtable_some h
        exact hinv.moved_quiet (p := .tidy i) rfl (lk_keep hinv fun j => by rw [hpc]; rfl)
          (ptable_take hinv hfree rfl) rfl rfl rfl (fun j hj => Function.update_of_ne hj _ _)
          (fun _ _ => rfl) (fun j => by rw [hpc]; rfl)
          (fun j hw => by rw [hpc] at hw; cases hw) rfl
      next => cases h
  | tidy i =>
      rw [hpc] at h
      obtain rfl := Option.some.inj h
      exact hinv.moved_quiet (p := .acquire i) rfl (lk_keep hinv fun j => by rw [hpc]; rfl)
        (hinv.ptable.drop (by rw [hpc]; rfl) rfl) rfl rfl rfl (fun _ _ => rfl)
        (fun j hj => Function.update_of_ne hj _ _) (fun j => by rw [hpc]; rfl)
        (fun j hw => by rw [hpc] at hw; cases hw) rfl
  | release i =>
      rw [hpc] at h
      obtain ⟨hfree, rfl⟩ := takeLk_some h
      exact hinv.moved_quiet (p := .unlock i) rfl
        (lk_take hinv hfree (fun j => rfl) fun j => by rw [hpc]; rfl)
        (hinv.ptable.keep (by rw [hpc]; rfl)) rfl rfl rfl (fun _ _ => rfl) (fun _ _ => rfl)
        (fun j => by rw [hpc]; rfl) (fun j hw => by rw [hpc] at hw; cases hw) rfl
  | unlock i =>
      rw [hpc] at h
      obtain rfl := Option.some.inj h
      exact inv_unlock hinv hpc
  | wakeup i =>
      rw [hpc] at h
      obtain ⟨hfree, rfl⟩ := takePtable_some h
      exact hinv.moved_quiet (p := .wakeup1 i) rfl (lk_keep hinv fun j => by rw [hpc]; rfl)
        (ptable_take hinv hfree rfl) rfl rfl rfl (fun _ _ => rfl) (fun _ _ => rfl)
        (fun j => by rw [hpc]; rfl) (fun j hw => by rw [hpc] at hw; exact hw) rfl
  | wakeup1 i =>
      rw [hpc] at h
      obtain rfl := Option.some.inj h
      exact inv_wakeup1 hinv hpc
  | woken i =>
      rw [hpc] at h
      obtain rfl := Option.some.inj h
      exact hinv.moved_quiet (p := .released i) rfl (lk_keep hinv fun j => by rw [hpc]; rfl)
        (hinv.ptable.drop (by rw [hpc]; rfl) rfl) rfl rfl rfl (fun _ _ => rfl)
        (fun _ _ => rfl) (fun j => by rw [hpc]; rfl)
        (fun j hw => by rw [hpc] at hw; cases hw) rfl
  | released i =>
      rw [hpc] at h
      obtain rfl := Option.some.inj h
      exact hinv.moved_quiet (p := .user) rfl
        (lk_drop hinv (fun j => by rw [hpc]; rfl) fun j => rfl)
        (hinv.ptable.keep (by rw [hpc]; rfl)) rfl rfl rfl (fun _ _ => rfl)
        (fun _ _ => rfl) (fun j => by rw [hpc]; rfl)
        (fun j hw => by rw [hpc] at hw; cases hw) rfl

/-- A sleeper that is killed wakes, with the lock taken or not. -/
theorem inv_kill (hinv : Inv m) :
    Inv (if m.state k = .sleeping then m.setState k .runnable else m) := by
  split
  next =>
    have hstill : ∀ j, Function.update m.state k .runnable j = .sleeping →
        m.state j = .sleeping := by
      intro j hstate
      by_cases hj : j = k
      · rw [hj, Function.update_self] at hstate
        cases hstate
      · rwa [Function.update_of_ne hj] at hstate
    refine ⟨hinv.lk, hinv.ptable, hinv.owner, hinv.locked, hinv.free, hinv.saw, hinv.apart,
      fun j i h => hinv.heard j i (h.imp id fun h => ⟨h.1, hstill j h.2⟩), hinv.chan,
      fun j i h => ?_⟩
    show Function.update m.state k .runnable j ≠ .running
    by_cases hj : j = k
    · rw [hj, Function.update_self]
      exact State.noConfusion
    · rw [Function.update_of_ne hj]
      exact hinv.off j i h
  next => exact hinv

theorem inv_step {a : Move κ ι} (hinv : Inv m) (h : m.step a = some m') (hok : OwnRelease m a) :
    Inv m' := by
  cases a with
  | acquiresleep k i =>
      unfold Machine.step at h
      dsimp only at h
      split at h
      next hpc =>
        obtain rfl := Option.some.inj h
        exact hinv.moved_quiet (p := .acquire i) rfl (lk_keep hinv fun j => by rw [hpc]; rfl)
          (hinv.ptable.keep (by rw [hpc]; rfl)) rfl rfl rfl (fun _ _ => rfl) (fun _ _ => rfl)
          (fun j => by rw [hpc]; rfl) (fun j hw => by rw [hpc] at hw; cases hw) rfl
      next => cases h
  | releasesleep k i =>
      unfold Machine.step at h
      dsimp only at h
      split at h
      next hpc =>
        obtain rfl := Option.some.inj h
        exact inv_releasesleep hinv hpc hok
      next => cases h
  | go k => exact inv_run hinv h
  | kill k =>
      unfold Machine.step at h
      dsimp only at h
      split at h
      next =>
        obtain rfl := Option.some.inj h
        exact inv_kill hinv
      next => cases h

theorem inv_reached {tr : List (Move κ ι)} (hrun : Run (machine κ ι) OwnRelease tr m) : Inv m :=
  hrun.invariant (fun _ hboot => inv_boot hboot) fun _ _ _ hinv h hok => inv_step hinv h hok

/-! ## What the locks are for -/

/-- Nobody goes on unless a process calls a function or is killed. -/
def Stuck (m : Machine κ ι) : Prop := ∀ k, m.run k = none

theorem ptable_free (hinv : Inv m) (hstuck : Stuck m) : m.ptable = none := by
  apply hinv.ptable.none_of_free
  intro k
  have hrun := hstuck k
  unfold Machine.run at hrun
  cases hpc : m.pc k with
  | dropLk i =>
      rw [hpc] at hrun
      cases hrun
  | sched i =>
      rw [hpc] at hrun
      cases hrun
  | tidy i =>
      rw [hpc] at hrun
      cases hrun
  | wakeup1 i =>
      rw [hpc] at hrun
      cases hrun
  | woken i =>
      rw [hpc] at hrun
      cases hrun
  | _ => rfl

/-- A process that holds a spin lock goes on once `ptable.lock` is free. -/
theorem lk_free (hinv : Inv m) (hstuck : Stuck m) (i : ι) : m.lk i = none := by
  have hptable := ptable_free hinv hstuck
  apply (hinv.lk i).none_of_free
  intro k
  have hrun := hstuck k
  unfold Machine.run Machine.takePtable at hrun
  cases hpc : m.pc k with
  | user => rfl
  | acquire j => rfl
  | sched j => rfl
  | asleep j => rfl
  | tidy j => rfl
  | release j => rfl
  | takePtable j =>
      rw [hpc] at hrun
      dsimp only at hrun
      rw [if_pos hptable] at hrun
      cases hrun
  | wakeup j =>
      rw [hpc] at hrun
      dsimp only at hrun
      rw [if_pos hptable] at hrun
      cases hrun
  | _ =>
      rw [hpc] at hrun
      cases hrun

/-- Who does not go on is in user space or asleep. -/
theorem stuck_cases (hinv : Inv m) (hstuck : Stuck m) (k : κ) :
    m.pc k = .user ∨ ∃ i, m.pc k = .asleep i ∧ m.state k = .sleeping := by
  have hptable := ptable_free hinv hstuck
  have hlk := lk_free hinv hstuck
  have hrun := hstuck k
  unfold Machine.run Machine.takeLk Machine.takePtable at hrun
  cases hpc : m.pc k with
  | user => exact .inl rfl
  | asleep i =>
      refine .inr ⟨i, rfl, ?_⟩
      have hoff := hinv.off k i hpc
      rw [hpc] at hrun
      cases hstate : m.state k with
      | running => exact absurd hstate hoff
      | sleeping => rfl
      | runnable =>
          dsimp only at hrun
          rw [if_pos hstate] at hrun
          cases (if_pos hptable).symm.trans hrun
  | acquire i =>
      rw [hpc] at hrun
      cases (if_pos (hlk i)).symm.trans hrun
  | release i =>
      rw [hpc] at hrun
      cases (if_pos (hlk i)).symm.trans hrun
  | takePtable i =>
      rw [hpc] at hrun
      cases (if_pos hptable).symm.trans hrun
  | wakeup i =>
      rw [hpc] at hrun
      cases (if_pos hptable).symm.trans hrun
  | _ =>
      rw [hpc] at hrun
      cases hrun

/-- At most one caller has a sleep lock, and no wakeup is lost: whoever sleeps on a lock
sleeps because somebody has it, or is about to be woken.  If nobody goes on by himself,
then every process that is not in user space sleeps on a lock that another's caller has. -/
theorem sleeplocks_sound {tr : List (Move κ ι)} (hrun : Run (machine κ ι) OwnRelease tr m) :
    (∀ i j k, m.has j i = true → m.has k i = true → j = k) ∧
    (∀ k i, m.pc k = .asleep i → m.state k = .sleeping →
      (∃ j, m.has j i = true ∨ (m.pc j).owns i = true) ∨ ∃ j, (m.pc j).wakes i = true) ∧
    (Stuck m → ∀ k, m.pc k = .user ∨ ∃ i j, m.pc k = .asleep i ∧ m.state k = .sleeping ∧
      m.has j i = true) := by
  have hinv := inv_reached hrun
  have howner : ∀ i, m.locked i = true → ∃ j, m.has j i = true ∨ (m.pc j).owns i = true := by
    intro i hlocked
    rw [hinv.locked i] at hlocked
    obtain ⟨j, hj⟩ := Option.isSome_iff_exists.mp hlocked
    exact ⟨j, ((hinv.owner i j).mp hj).symm⟩
  refine ⟨fun i j k hj hk => ?_, fun k i hasleep hstate => ?_, fun hstuck k => ?_⟩
  · have hpj := (hinv.owner i j).mpr (.inr hj)
    have hpk := (hinv.owner i k).mpr (.inr hk)
    exact Option.some.inj (hpj.symm.trans hpk)
  · exact (hinv.heard k i (.inr ⟨hasleep, hstate⟩)).imp (howner i) id
  · refine (stuck_cases hinv hstuck k).imp id fun ⟨i, hasleep, hstate⟩ => ?_
    have hquiet : ∀ j, (m.pc j).wakes i = false ∧ (m.pc j).owns i = false := by
      intro j
      obtain hj | ⟨i', hj, -⟩ := stuck_cases hinv hstuck j
      · rw [hj]
        exact ⟨rfl, rfl⟩
      · rw [hj]
        exact ⟨rfl, rfl⟩
    obtain hlocked | ⟨w, hw⟩ := hinv.heard k i (.inr ⟨hasleep, hstate⟩)
    · obtain ⟨j, hj | hj⟩ := howner i hlocked
      · exact ⟨i, j, hasleep, hstate, hj⟩
      · rw [(hquiet j).2] at hj
        cases hj
    · rw [(hquiet w).1] at hw
      cases hw

/-- Two processes and a lock. -/
def atBoot : Machine Bool Unit where
  locked _ := false
  pid _ := none
  lk _ := none
  ptable := none
  state _ := .running
  chan _ := none
  pc _ := .user
  has _ _ := false

/-- One takes the lock, and the other falls asleep on it. -/
def contended : List (Move Bool Unit) :=
  [.acquiresleep false (), .go false, .go false, .go false, .go false, .acquiresleep true (),
    .go true, .go true, .go true, .go true, .go true]

theorem sleeplocks_sound_contended : ∃ m : Machine Bool Unit, m.pc true = .asleep () ∧
    m.state true = .sleeping ∧
    ((∃ j, m.has j () = true ∨ (m.pc j).owns () = true) ∨ ∃ j, (m.pc j).wakes () = true) := by
  have hruns : (contended.foldlM (fun m a => if OwnRelease m a then m.step a else none)
      atBoot).map (fun m => (m.pc true, m.state true)) = some (.asleep (), .sleeping) := by
    decide +kernel
  obtain ⟨m, hm, hend⟩ := Option.map_eq_some_iff.mp hruns
  obtain ⟨hpc, hstate⟩ := Prod.mk.inj hend
  have hboot : Boot atBoot :=
    ⟨fun _ => rfl, fun _ => rfl, fun _ => rfl, rfl, fun _ => rfl, fun _ _ => rfl⟩
  have hrun : Run (machine Bool Unit) OwnRelease contended.reverse m := by
    refine Run.of_foldlM hboot (fun m a m' h => ?_) hm
    split at h
    next hok => exact ⟨h, hok⟩
    next => cases h
  exact ⟨m, hpc, hstate, (sleeplocks_sound hrun).2.1 true () hpc hstate⟩

end SleepLocks
end Kthreads
end CS444
