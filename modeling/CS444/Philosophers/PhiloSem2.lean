/-
`philo_sem2`: even philosophers take the right chopstick first, odd ones the
left.

`never_stuck` is what that buys.  An odd philosopher's left chopstick is odd and
so is an even one's right, except that of the last philosopher of an odd table,
which is chopstick 0.  So everybody takes first a chopstick of lower `rank`:
odd ones, then 0, then the other even ones.
-/
import CS444.Philosophers.Table

namespace CS444
namespace Philosophers
namespace PhiloSem2

open Ledger Runs Semaphores

variable {N : Nat}

inductive Pc where
  | thinking
  | gotFirst
  | eating
  | doneEating
  | setDownRight
deriving DecidableEq, Repr

def eat_or_think (n : Fin N) : Pc → Instr (Fin N) Pc
  | .thinking =>
    if n.val % 2 = 0 then .wait (RIGHT n) .gotFirst else .wait (LEFT n) .gotFirst
  | .gotFirst =>
    if n.val % 2 = 0 then .wait (LEFT n) .eating else .wait (RIGHT n) .eating
  -- sleep(1), times_eating[n]++
  | .eating => .go .doneEating
  | .doneEating => .post (RIGHT n) .setDownRight
  | .setDownRight => .post (LEFT n) .thinking

/-- `main` makes every chopstick with value 1. -/
def start (N : Nat) : Machine (Fin N) (Fin N) Pc where
  sem _ := 1
  pc _ := .thinking

def table (N : Nat) : System (Machine (Fin N) (Fin N) Pc) (Fin N × Act (Fin N)) :=
  system eat_or_think (start N)

/-- Between the second `sem_wait` and the first `sem_post`. -/
def Pc.Eats (k : Pc) : Prop := k = .eating ∨ k = .doneEating

/-- The chopsticks in the hands of philosopher `n`. -/
def chopstics (n : Fin N) : Pc → Fin N → Nat
  | .thinking => 0
  | .gotFirst => if n.val % 2 = 0 then one (RIGHT n) else one (LEFT n)
  | .eating => one (LEFT n) + one (RIGHT n)
  | .doneEating => one (LEFT n) + one (RIGHT n)
  | .setDownRight => one (LEFT n)

theorem keeps_chopstics : Keeps (eat_or_think (N := N)) chopstics := by
  intro n k
  cases k with
  | thinking =>
      by_cases heven : n.val % 2 = 0
      · simp [eat_or_think, chopstics, heven, Instr.Keeps]
      · simp [eat_or_think, chopstics, heven, Instr.Keeps]
  | gotFirst =>
      by_cases heven : n.val % 2 = 0
      · simp [eat_or_think, chopstics, heven, Instr.Keeps, add_comm]
      · simp [eat_or_think, chopstics, heven, Instr.Keeps]
  | eating => rfl
  | doneEating => rfl
  | setDownRight => exact zero_add _

theorem chopstics_le_one (hN : 2 ≤ N) (n : Fin N) (k : Pc) (c : Fin N) :
    chopstics n k c ≤ 1 := by
  cases k with
  | thinking => exact Nat.zero_le 1
  | gotFirst =>
      show (if n.val % 2 = 0 then one (RIGHT n) else one (LEFT n)) c ≤ 1
      split
      · exact one_le_one _ c
      · exact one_le_one _ c
  | eating => exact both_le_one hN n c
  | doneEating => exact both_le_one hN n c
  | setDownRight => exact one_le_one _ c

theorem Pc.Eats.chopstics {n : Fin N} {k : Pc} (h : k.Eats) :
    chopstics n k = one (LEFT n) + one (RIGHT n) := by
  rcases h with rfl | rfl
  · rfl
  · rfl

/-- The order in which everybody takes chopsticks. -/
def rank (c : Fin N) : Nat := if c.val % 2 = 1 then 0 else if c.val = 0 then 1 else 2

theorem rank_lt_of_even (hN : 2 ≤ N) {n : Fin N} (h : n.val % 2 = 0) :
    rank (RIGHT n) < rank (LEFT n) := by
  have hright := RIGHT_val n
  show (if (RIGHT n).val % 2 = 1 then 0 else if (RIGHT n).val = 0 then 1 else 2) <
    if n.val % 2 = 1 then 0 else if n.val = 0 then 1 else 2
  rw [if_neg (show ¬n.val % 2 = 1 by omega)]
  split
  · split <;> omega
  · have hzero : (RIGHT n).val = 0 := by omega
    rw [if_pos hzero, if_neg (show ¬n.val = 0 by omega)]
    omega

theorem rank_lt_of_odd {n : Fin N} (h : ¬n.val % 2 = 0) : rank (LEFT n) < rank (RIGHT n) := by
  have hright := RIGHT_val n
  show (if n.val % 2 = 1 then 0 else if n.val = 0 then 1 else 2) <
    if (RIGHT n).val % 2 = 1 then 0 else if (RIGHT n).val = 0 then 1 else 2
  rw [if_pos (show n.val % 2 = 1 by omega), if_neg (show ¬(RIGHT n).val % 2 = 1 by omega)]
  split <;> omega

/-- A philosopher waits only for a chopstick above the one it has. -/
theorem rank_lt_of_wait (hN : 2 ≤ N) {n i j : Fin N} {k next : Pc}
    (hwait : eat_or_think n k = .wait i next) (hheld : 0 < chopstics n k j) :
    rank j < rank i := by
  have of_one {c : Fin N} (h : 0 < one c j) : j = c := by
    by_contra hne
    rw [one_of_ne hne] at h
    omega
  cases k with
  | thinking => exact absurd hheld (Nat.lt_irrefl 0)
  | gotFirst =>
      by_cases heven : n.val % 2 = 0
      · simp only [eat_or_think, if_pos heven, Instr.wait.injEq] at hwait
        simp only [chopstics, if_pos heven] at hheld
        rw [of_one hheld, ← hwait.1]
        exact rank_lt_of_even hN heven
      · simp only [eat_or_think, if_neg heven, Instr.wait.injEq] at hwait
        simp only [chopstics, if_neg heven] at hheld
        rw [of_one hheld, ← hwait.1]
        exact rank_lt_of_odd heven
  | eating => exact absurd hwait (by simp [eat_or_think])
  | doneEating => exact absurd hwait (by simp [eat_or_think])
  | setDownRight => exact absurd hwait (by simp [eat_or_think])

/-- Somebody can always go on, no two neighbours eat together, and every
chopstick lies on the table or is in one hand. -/
theorem never_stuck (hN : 2 ≤ N) {tr : List (Fin N × Act (Fin N))}
    {s : Machine (Fin N) (Fin N) Pc} (hrun : Run (table N) anyStep tr s) :
    (∃ n, Enabled eat_or_think s n) ∧
      (∀ n, ¬((s.pc n).Eats ∧ (s.pc (RIGHT n)).Eats)) ∧
        ∀ c, s.sem c + (Finset.univ.filter fun n => Holds tr n c).card = 1 := by
  have hstart : ∀ n : Fin N, chopstics n ((start N).pc n) = 0 := fun _ => rfl
  have hfree : Nonempty (Fin N) := ⟨⟨0, by omega⟩⟩
  refine ⟨?_, ?_, ?_⟩
  · apply exists_step_of_rank rank
    · intro n i j next hwait hheld
      exact rank_lt_of_wait hN hwait hheld
    · intro c hzero
      exact exists_holder keeps_chopstics hstart hrun Nat.one_pos hzero
  · intro n heats
    have hn : 0 < chopstics n (s.pc n) (RIGHT n) := by
      rw [heats.1.chopstics, Pi.add_apply, one_self]
      omega
    have hright : 0 < chopstics (RIGHT n) (s.pc (RIGHT n)) (RIGHT n) := by
      rw [heats.2.chopstics, Pi.add_apply, LEFT, one_self]
      omega
    have hsame := eq_of_units keeps_chopstics hstart hrun (Nat.le_refl 1) hn hright
    exact RIGHT_ne hN n hsame.symm
  · intro c
    exact sem_add_card keeps_chopstics hstart (chopstics_le_one hN) hrun c

/-- Five philosophers, of whom philosopher 0 has taken chopstick 1. -/
theorem never_stuck_five : ∃ s, Run (table 5) anyStep [(0, .took 1)] s ∧
    (∃ n, Enabled eat_or_think s n) ∧
      (∀ n, ¬((s.pc n).Eats ∧ (s.pc (RIGHT n)).Eats)) ∧
        ∀ c, s.sem c + (Finset.univ.filter fun n : Fin 5 => Holds [(0, .took 1)] n c).card = 1 := by
  have hrun : ∃ s, Run (table 5) anyStep [(0, .took 1)] s :=
    ⟨_, .step (.init rfl) rfl trivial⟩
  obtain ⟨s, hrun⟩ := hrun
  exact ⟨s, hrun, never_stuck (by omega) hrun⟩

end PhiloSem2
end Philosophers
end CS444
