/-
A main thread that creates `T` threads, joins them all, and is done.

`Code` is what the threads run on a shared state: where they enter, and what
the next instruction does, which may block.  `all_exited` is what a program
relies on when it goes on behind its joins.
-/
import CS444.Lib.Runs
import Mathlib.Data.List.FinRange
import Mathlib.Logic.Function.Basic

namespace CS444
namespace Threads

open Runs

variable {T : Nat} {σ π ι : Type*}

/-- The next instruction gives a label, the shared state, and the control point
after it, or none after `pthread_exit`; it gives nothing while it blocks. -/
structure Code (T : Nat) (σ π ι : Type*) where
  enter : Fin T → π
  exec : Fin T → σ → π → Option (ι × σ × Option π)

inductive Thread (π : Type*) where
  | unborn
  | running (p : π)
  | exited

inductive Main where
  | create (t : Nat)
  | join (t : Nat)
  | done
deriving DecidableEq, Repr

structure State (T : Nat) (σ π : Type*) where
  shared : σ
  thread : Fin T → Thread π
  main : Main

/-- A step of `main`, or of a thread with what it did. -/
inductive Label (T : Nat) (ι : Type*) where
  | main
  | thread (t : Fin T) (l : ι)

def Thread.next : Option π → Thread π
  | none => .exited
  | some p => .running p

inductive Step (code : Code T σ π ι) (s : State T σ π) : Label T ι → State T σ π → Prop
  | create (t : Fin T) (hmain : s.main = .create t.val) :
      Step code s .main { s with
        thread := Function.update s.thread t (.running (code.enter t))
        main := .create (t.val + 1) }
  | created (hmain : s.main = .create T) : Step code s .main { s with main := .join 0 }
  | join (t : Fin T) (hmain : s.main = .join t.val) (hexited : s.thread t = .exited) :
      Step code s .main { s with main := .join (t.val + 1) }
  | joined (hmain : s.main = .join T) : Step code s .main { s with main := .done }
  | thread (t : Fin T) (p : π) (l : ι) (sh : σ) (next : Option π)
      (hrunning : s.thread t = .running p) (hexec : code.exec t s.shared p = some (l, sh, next)) :
      Step code s (.thread t l) { s with
        shared := sh
        thread := Function.update s.thread t (Thread.next next) }

/-- Before `main` creates the first thread. -/
def start (T : Nat) (sh : σ) : State T σ π where
  shared := sh
  thread _ := .unborn
  main := .create 0

def system (code : Code T σ π ι) (sh : σ) : System (State T σ π) (Label T ι) where
  init s := s = start T sh
  step := Step code

variable {code : Code T σ π ι} {s s' : State T σ π} {l : Label T ι} {sh : σ}
  {tr : List (Label T ι)} {ok : State T σ π → Label T ι → Prop}

/-- What `main` has done so far. -/
def Progress (s : State T σ π) : Prop :=
  match s.main with
  | .create n => ∀ t : Fin T, n ≤ t.val → s.thread t = .unborn
  | .join n => ∀ t : Fin T, t.val < n → s.thread t = .exited
  | .done => ∀ t, s.thread t = .exited

theorem Progress.step (h : Progress s) (hstep : Step code s l s') : Progress s' := by
  unfold Progress at h
  cases hstep with
  | create t hmain =>
      rw [hmain] at h
      intro u hu
      have hne : u ≠ t := by
        intro heq
        subst heq
        omega
      have hkeep : Function.update s.thread t (.running (code.enter t)) u = s.thread u :=
        Function.update_of_ne hne _ _
      exact hkeep.trans (h u (by omega))
  | created hmain => exact fun t ht => absurd ht (Nat.not_lt_zero _)
  | join t hmain hexited =>
      rw [hmain] at h
      intro u hu
      by_cases heq : u = t
      · subst heq
        exact hexited
      · have hlt : u.val < t.val := by
          have hval : u.val ≠ t.val := fun hval => heq (Fin.ext hval)
          have hle : u.val < t.val + 1 := hu
          omega
        exact h u hlt
  | joined hmain =>
      rw [hmain] at h
      exact fun t => h t t.isLt
  | thread t p l sh next hrunning hexec =>
      -- a running thread was born and has not been joined
      have hkeep : ∀ u, s.thread u = .unborn ∨ s.thread u = .exited →
          Function.update s.thread t (Thread.next next) u = s.thread u := by
        intro u hu
        apply Function.update_of_ne
        intro heq
        subst heq
        rw [hrunning] at hu
        exact hu.elim (fun h => absurd h (by simp)) fun h => absurd h (by simp)
      show match s.main with
        | .create n => ∀ u : Fin T, n ≤ u.val → _
        | .join n => ∀ u : Fin T, u.val < n → _
        | .done => ∀ u, _
      cases hmain : s.main with
      | create n =>
          rw [hmain] at h
          exact fun u hu => (hkeep u (Or.inl (h u hu))).trans (h u hu)
      | join n =>
          rw [hmain] at h
          exact fun u hu => (hkeep u (Or.inr (h u hu))).trans (h u hu)
      | done =>
          rw [hmain] at h
          exact fun u => (hkeep u (Or.inr (h u))).trans (h u)

theorem run_progress (hrun : Run (system code sh) ok tr s) : Progress s := by
  apply hrun.invariant
  · rintro s rfl
    exact fun _ _ => rfl
  · exact fun s l s' hs hstep _ => hs.step hstep

/-- When `main` is through with its joins every thread has exited. -/
theorem all_exited (hrun : Run (system code sh) ok tr s) (hdone : s.main = .done) (t : Fin T) :
    s.thread t = .exited := by
  have hprogress := run_progress hrun
  unfold Progress at hprogress
  rw [hdone] at hprogress
  exact hprogress t

/-! ## Runs on a schedule -/

/-- The step of `main`, where it has one. -/
def mainTurn (code : Code T σ π ι) (s : State T σ π) : State T σ π :=
  match s.main with
  | .create n =>
    if h : n < T then
      { s with
        thread := Function.update s.thread ⟨n, h⟩ (.running (code.enter ⟨n, h⟩))
        main := .create (n + 1) }
    else if n = T then { s with main := .join 0 } else s
  | .join n =>
    if h : n < T then
      match s.thread ⟨n, h⟩ with
      | .exited => { s with main := .join (n + 1) }
      | _ => s
    else if n = T then { s with main := .done } else s
  | .done => s

/-- The step of thread `t`, where it has one. -/
def threadTurn (code : Code T σ π ι) (s : State T σ π) (t : Fin T) : State T σ π :=
  match s.thread t with
  | .running p =>
    match code.exec t s.shared p with
    | some r =>
      { s with
        shared := r.2.1
        thread := Function.update s.thread t (Thread.next r.2.2) }
    | none => s
  | _ => s

/-- `main` and the threads take turns, `n` rounds of them. -/
def rounds (code : Code T σ π ι) : Nat → State T σ π → State T σ π
  | 0, s => s
  | n + 1, s => rounds code n ((List.finRange T).foldl (threadTurn code) (mainTurn code s))

theorem mainTurn_cases (code : Code T σ π ι) (s : State T σ π) :
    mainTurn code s = s ∨ Step code s .main (mainTurn code s) := by
  unfold mainTurn
  cases hmain : s.main with
  | create n =>
      dsimp only
      by_cases hn : n < T
      · rw [dif_pos hn]
        exact Or.inr (.create ⟨n, hn⟩ hmain)
      · rw [dif_neg hn]
        by_cases heq : n = T
        · subst heq
          rw [if_pos rfl]
          exact Or.inr (.created hmain)
        · rw [if_neg heq]
          exact Or.inl rfl
  | join n =>
      dsimp only
      by_cases hn : n < T
      · rw [dif_pos hn]
        cases hth : s.thread ⟨n, hn⟩ with
        | exited => exact Or.inr (.join ⟨n, hn⟩ hmain hth)
        | unborn => exact Or.inl rfl
        | running p => exact Or.inl rfl
      · rw [dif_neg hn]
        by_cases heq : n = T
        · subst heq
          rw [if_pos rfl]
          exact Or.inr (.joined hmain)
        · rw [if_neg heq]
          exact Or.inl rfl
  | done => exact Or.inl rfl

theorem threadTurn_cases (code : Code T σ π ι) (s : State T σ π) (t : Fin T) :
    threadTurn code s t = s ∨ ∃ l, Step code s (.thread t l) (threadTurn code s t) := by
  unfold threadTurn
  cases hth : s.thread t with
  | unborn => exact Or.inl rfl
  | exited => exact Or.inl rfl
  | running p =>
      dsimp only
      cases hexec : code.exec t s.shared p with
      | none => exact Or.inl rfl
      | some r => exact Or.inr ⟨r.1, .thread t p r.1 r.2.1 r.2.2 hth hexec⟩

/-- Turns are a run. -/
theorem run_rounds {tr : List (Label T ι)} (hrun : Run (system code sh) anyStep tr s) (n : Nat) :
    ∃ tr, Run (system code sh) anyStep tr (rounds code n s) := by
  have hthreads : ∀ (ts : List (Fin T)) (s : State T σ π),
      (∃ tr, Run (system code sh) anyStep tr s) →
        ∃ tr, Run (system code sh) anyStep tr (ts.foldl (threadTurn code) s) := by
    intro ts
    induction ts with
    | nil => exact fun s h => h
    | cons t ts ih =>
        rintro s ⟨tr, hrun⟩
        refine ih _ ?_
        rcases threadTurn_cases code s t with heq | ⟨l, hstep⟩
        · rw [heq]
          exact ⟨tr, hrun⟩
        · exact ⟨_, hrun.step hstep trivial⟩
  induction n generalizing s tr with
  | zero => exact ⟨tr, hrun⟩
  | succ n ih =>
      have hmain : ∃ tr, Run (system code sh) anyStep tr (mainTurn code s) := by
        rcases mainTurn_cases code s with heq | hstep
        · rw [heq]
          exact ⟨tr, hrun⟩
        · exact ⟨_, hrun.step hstep trivial⟩
      obtain ⟨tr', hrun'⟩ := hthreads (List.finRange T) _ hmain
      exact ih hrun'

end Threads
end CS444
