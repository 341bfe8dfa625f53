/-
`philo_sem3`: philosophers that only try.

`left`, what `sem_trywait` on the left chopstick returned last, lives through
the rounds, and the `else` branch gives the left chopstick back by it.  In that
branch it is always of this round: `chopstics` can therefore say from the control
point and `left` alone what a philosopher has, and `none_forged` follows.
-/
import CS444.Philosophers.Table

namespace CS444
namespace Philosophers
namespace PhiloSem3

open Ledger Runs Semaphores

variable {N : Nat}

inductive Pc where
  | wants
  | afterLeft
  | eating
  | doneEating
  | setDownRight
  | otherwise
  | fasting
deriving DecidableEq, Repr

/-- A philosopher between two semaphore calls. -/
structure Philosopher where
  pc : Pc
  left : Int
deriving DecidableEq, Repr

def eat_or_think (n : Fin N) (p : Philosopher) : Instr (Fin N) Philosopher :=
  match p.pc with
  | .wants => .tryWait (LEFT n) { pc := .afterLeft, left := 0 } { pc := .afterLeft, left := -1 }
  -- && does not try the right one without the left one
  | .afterLeft =>
    if p.left = 0 then .tryWait (RIGHT n) { p with pc := .eating } { p with pc := .otherwise }
    else .go { p with pc := .otherwise }
  -- sleep(1), times_eating[n]++
  | .eating => .go { p with pc := .doneEating }
  | .doneEating => .post (RIGHT n) { p with pc := .setDownRight }
  | .setDownRight => .post (LEFT n) { p with pc := .wants }
  | .otherwise =>
    if p.left = 0 then .post (LEFT n) { p with pc := .fasting } else .go { p with pc := .fasting }
  -- sleep(1)
  | .fasting => .go { p with pc := .wants }

def start (N : Nat) : Machine (Fin N) (Fin N) Philosopher where
  sem _ := 1
  pc _ := { pc := .wants, left := -1 }

def table (N : Nat) : System (Machine (Fin N) (Fin N) Philosopher) (Fin N × Act (Fin N)) :=
  system eat_or_think (start N)

/-- Between the second `sem_trywait`, successful, and the first `sem_post`. -/
def Philosopher.Eats (p : Philosopher) : Prop := p.pc = .eating ∨ p.pc = .doneEating

/-- The chopsticks in the hands of philosopher `n`. -/
def chopstics (n : Fin N) (p : Philosopher) : Fin N → Nat :=
  match p.pc with
  | .wants | .fasting => 0
  | .afterLeft | .otherwise => if p.left = 0 then one (LEFT n) else 0
  | .eating | .doneEating => one (LEFT n) + one (RIGHT n)
  | .setDownRight => one (LEFT n)

theorem keeps_chopstics : Keeps (eat_or_think (N := N)) chopstics := by
  intro n p
  obtain ⟨pc, left⟩ := p
  cases pc with
  | wants =>
      refine ⟨?_, ?_⟩
      · show (if (0 : Int) = 0 then one (LEFT n) else 0) = 0 + one (LEFT n)
        rw [if_pos rfl, zero_add]
      · show (if (-1 : Int) = 0 then one (LEFT n) else 0) = 0
        exact if_neg (by omega)
  | afterLeft =>
      by_cases hleft : left = 0
      · simp [eat_or_think, chopstics, hleft, Instr.Keeps]
      · simp [eat_or_think, chopstics, hleft, Instr.Keeps]
  | eating => rfl
  | doneEating => rfl
  | setDownRight => exact zero_add _
  | otherwise =>
      by_cases hleft : left = 0
      · simp [eat_or_think, chopstics, hleft, Instr.Keeps]
      · simp [eat_or_think, chopstics, hleft, Instr.Keeps]
  | fasting => rfl

theorem chopstics_le_one (hN : 2 ≤ N) (n : Fin N) (p : Philosopher) (c : Fin N) :
    chopstics n p c ≤ 1 := by
  obtain ⟨pc, left⟩ := p
  have hpending : (if left = 0 then one (LEFT n) else 0) c ≤ 1 := by
    split
    · exact one_le_one _ c
    · exact Nat.zero_le 1
  cases pc with
  | wants => exact Nat.zero_le 1
  | afterLeft => exact hpending
  | eating => exact both_le_one hN n c
  | doneEating => exact both_le_one hN n c
  | setDownRight => exact one_le_one _ c
  | otherwise => exact hpending
  | fasting => exact Nat.zero_le 1

theorem Philosopher.Eats.chopstics {n : Fin N} {p : Philosopher} (h : p.Eats) :
    chopstics n p = one (LEFT n) + one (RIGHT n) := by
  obtain ⟨pc, left⟩ := p
  rcases h with h | h
  · obtain rfl : pc = .eating := h
    rfl
  · obtain rfl : pc = .doneEating := h
    rfl

/-- Every chopstick lies on the table or is in one hand, no two neighbours eat
together, and who starts a round holds nothing. -/
theorem none_forged (hN : 2 ≤ N) {tr : List (Fin N × Act (Fin N))}
    {s : Machine (Fin N) (Fin N) Philosopher} (hrun : Run (table N) anyStep tr s) :
    (∀ c, s.sem c + (Finset.univ.filter fun n => Holds tr n c).card = 1) ∧
      (∀ n, ¬((s.pc n).Eats ∧ (s.pc (RIGHT n)).Eats)) ∧
        ∀ n, (s.pc n).pc = .wants → ∀ c, ¬Holds tr n c := by
  have hstart : ∀ n : Fin N, chopstics n ((start N).pc n) = 0 := fun _ => rfl
  refine ⟨?_, ?_, ?_⟩
  · intro c
    exact sem_add_card keeps_chopstics hstart (chopstics_le_one hN) hrun c
  · intro n heats
    have hn : 0 < chopstics n (s.pc n) (RIGHT n) := by
      rw [heats.1.chopstics, Pi.add_apply, one_self]
      omega
    have hright : 0 < chopstics (RIGHT n) (s.pc (RIGHT n)) (RIGHT n) := by
      rw [heats.2.chopstics, Pi.add_apply, LEFT, one_self]
      omega
    have hsame := eq_of_units keeps_chopstics hstart hrun (Nat.le_refl 1) hn hright
    exact RIGHT_ne hN n hsame.symm
  · intro n hwants c hholds
    have hpos := (holds_iff keeps_chopstics hstart hrun n c).mp hholds
    have hnone : chopstics n (s.pc n) = 0 := by
      show (match (s.pc n).pc with
        | .wants | .fasting => (0 : Fin N → Nat)
        | .afterLeft | .otherwise => if (s.pc n).left = 0 then one (LEFT n) else 0
        | .eating | .doneEating => one (LEFT n) + one (RIGHT n)
        | .setDownRight => one (LEFT n)) = 0
      rw [hwants]
    rw [hnone] at hpos
    exact Nat.lt_irrefl 0 hpos

/-- Both of two philosophers have taken their left chopstick, and philosopher 0
has failed to get the right one. -/
def bothLeft : List (Fin 2 × Act (Fin 2)) := [(0, .failed 1), (1, .took 1), (0, .took 0)]

theorem none_forged_bothLeft : ∃ s, Run (table 2) anyStep bothLeft s ∧
    (∀ c, s.sem c + (Finset.univ.filter fun n => Holds bothLeft n c).card = 1) ∧
      (∀ n, ¬((s.pc n).Eats ∧ (s.pc (RIGHT n)).Eats)) ∧
        ∀ n, (s.pc n).pc = .wants → ∀ c, ¬Holds bothLeft n c := by
  have hrun : ∃ s, Run (table 2) anyStep bothLeft s :=
    ⟨_, .step (.step (.step (.init rfl) rfl trivial) rfl trivial) rfl trivial⟩
  obtain ⟨s, hrun⟩ := hrun
  exact ⟨s, hrun, none_forged (by omega) hrun⟩

end PhiloSem3
end Philosophers
end CS444
