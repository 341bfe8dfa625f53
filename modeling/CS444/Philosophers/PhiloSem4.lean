/-
`philo_sem4`: a waiter lets all philosophers but one into the room.

Everybody takes the left chopstick first.  `never_stuck_waiter` counts: if all wait,
the waiter has let in all but one, `p`; the chopstick of `p` is then free for
the philosopher before `p`, unless that one still waits for its own, which in
turn nobody can have.
-/
import CS444.Philosophers.Table

namespace CS444
namespace Philosophers
namespace PhiloSem4

open Ledger Runs Semaphores

variable {N : Nat}

inductive Sem (N : Nat) where
  | chopstic (n : Fin N)
  | waiter
deriving DecidableEq

inductive Pc where
  | outside
  | entered
  | gotLeft
  | eating
  | doneEating
  | setDownRight
  | setDownLeft
deriving DecidableEq, Repr

def eat_or_think (n : Fin N) : Pc → Instr (Sem N) Pc
  | .outside => .wait .waiter .entered
  | .entered => .wait (.chopstic (LEFT n)) .gotLeft
  | .gotLeft => .wait (.chopstic (RIGHT n)) .eating
  -- sleep(1), times_eating[n]++
  | .eating => .go .doneEating
  | .doneEating => .post (.chopstic (RIGHT n)) .setDownRight
  | .setDownRight => .post (.chopstic (LEFT n)) .setDownLeft
  | .setDownLeft => .post .waiter .outside

/-- The values `main` makes the semaphores with. -/
def initial : Sem N → Nat
  | .chopstic _ => 1
  | .waiter => N - 1

def start (N : Nat) : Machine (Fin N) (Sem N) Pc where
  sem := initial
  pc _ := .outside

def table (N : Nat) : System (Machine (Fin N) (Sem N) Pc) (Fin N × Act (Sem N)) :=
  system eat_or_think (start N)

namespace Pc

/-- Between `sem_wait(&waiter)` and `sem_post(&waiter)`. -/
def InRoom (k : Pc) : Prop := k ≠ .outside

instance (k : Pc) : Decidable k.InRoom := inferInstanceAs (Decidable (k ≠ .outside))

/-- Between the second chopstick and the first `sem_post`. -/
def Eats (k : Pc) : Prop := k = .eating ∨ k = .doneEating

end Pc

/-- The chopsticks in the hands of philosopher `n`, and the waiter's leave. -/
def units (n : Fin N) : Pc → Sem N → Nat
  | .outside => 0
  | .entered => one .waiter
  | .gotLeft => one .waiter + one (.chopstic (LEFT n))
  | .eating => one .waiter + one (.chopstic (LEFT n)) + one (.chopstic (RIGHT n))
  | .doneEating => one .waiter + one (.chopstic (LEFT n)) + one (.chopstic (RIGHT n))
  | .setDownRight => one .waiter + one (.chopstic (LEFT n))
  | .setDownLeft => one .waiter

theorem keeps_units : Keeps (eat_or_think (N := N)) units := by
  intro n k
  cases k with
  | outside => exact (zero_add _).symm
  | entered => rfl
  | gotLeft => rfl
  | eating => rfl
  | doneEating => rfl
  | setDownRight => rfl
  | setDownLeft => exact zero_add _

theorem units_waiter (n : Fin N) (k : Pc) :
    units n k .waiter = if k.InRoom then 1 else 0 := by
  cases k <;> rfl

theorem Pc.Eats.units_right {n : Fin N} {k : Pc} (h : k.Eats) :
    0 < units n k (.chopstic (RIGHT n)) := by
  rcases h with rfl | rfl
  · simp [units]
  · simp [units]

theorem Pc.Eats.units_left {n : Fin N} {k : Pc} (h : k.Eats) :
    0 < units n k (.chopstic (LEFT n)) := by
  rcases h with rfl | rfl
  · simp [units]
  · simp [units]

variable {s : Machine (Fin N) (Sem N) Pc} {tr : List (Fin N × Act (Sem N))}

theorem waiter_add_room (hrun : Run (table N) anyStep tr s) :
    s.sem .waiter + (Finset.univ.filter fun n => (s.pc n).InRoom).card = N - 1 := by
  have htotal := sem_add_inUse keeps_units (fun _ => rfl) hrun .waiter
  have hroom : inUse units s.pc .waiter = (Finset.univ.filter fun n => (s.pc n).InRoom).card := by
    rw [Finset.card_filter]
    show (∑ n, units n (s.pc n) .waiter) = _
    exact Finset.sum_congr rfl fun n _ => units_waiter n (s.pc n)
  rw [← hroom]
  exact htotal

/-- Where a blocked philosopher is and what it waits for. -/
theorem blocked_cases {n : Fin N} (h : ¬Enabled eat_or_think s n) :
    s.pc n = .outside ∧ s.sem .waiter = 0 ∨
      s.pc n = .entered ∧ s.sem (.chopstic (LEFT n)) = 0 ∨
        s.pc n = .gotLeft ∧ s.sem (.chopstic (RIGHT n)) = 0 := by
  obtain ⟨i, next, hwait, hzero⟩ := blocked_iff.mp h
  cases hpc : s.pc n with
  | outside =>
      rw [hpc] at hwait
      cases hwait
      exact Or.inl ⟨rfl, hzero⟩
  | entered =>
      rw [hpc] at hwait
      cases hwait
      exact Or.inr (Or.inl ⟨rfl, hzero⟩)
  | gotLeft =>
      rw [hpc] at hwait
      cases hwait
      exact Or.inr (Or.inr ⟨rfl, hzero⟩)
  | _ =>
      rw [hpc] at hwait
      cases hwait

/-- While all wait, a chopstick that is not on the table is in its own
philosopher's hand. -/
theorem own_of_blocked (hrun : Run (table N) anyStep tr s)
    (hall : ∀ n, ¬Enabled eat_or_think s n) {c : Fin N} (hzero : s.sem (.chopstic c) = 0) :
    s.pc c = .gotLeft := by
  have hone : 0 < (start N).sem (.chopstic c) := Nat.one_pos
  obtain ⟨n, hn⟩ := exists_holder keeps_units (fun _ => rfl) hrun hone hzero
  rcases blocked_cases (hall n) with ⟨hpc, -⟩ | ⟨hpc, -⟩ | ⟨hpc, -⟩
  · rw [hpc] at hn
    exact absurd hn (Nat.lt_irrefl 0)
  · rw [hpc] at hn
    exact absurd hn (Nat.lt_irrefl 0)
  · by_cases hc : c = n
    · rw [hc]
      exact hpc
    · rw [hpc] at hn
      have hnone : units n .gotLeft (.chopstic c) = 0 := by
        show one Sem.waiter (Sem.chopstic c) + one (Sem.chopstic n) (Sem.chopstic c) = 0
        rw [one_of_ne (by simp), one_of_ne (by simpa using hc)]
      omega

theorem exists_enabled (hN : 2 ≤ N) (hrun : Run (table N) anyStep tr s) :
    ∃ n, Enabled eat_or_think s n := by
  by_contra hnone
  have hall : ∀ n, ¬Enabled eat_or_think s n := fun n h => hnone ⟨n, h⟩
  have hroom := waiter_add_room hrun
  have hsplit := Finset.card_filter_add_card_filter_not (s := (Finset.univ : Finset (Fin N)))
    fun n => (s.pc n).InRoom
  rw [Finset.card_univ, Fintype.card_fin] at hsplit
  -- somebody has not been let in
  have hout : ∃ p, s.pc p = .outside := by
    have hpos : 0 < (Finset.univ.filter fun n => ¬(s.pc n).InRoom).card := by omega
    obtain ⟨p, hp⟩ := Finset.card_pos.mp hpos
    exact ⟨p, not_not.mp (Finset.mem_filter.mp hp).2⟩
  obtain ⟨p, hp⟩ := hout
  have hfull : s.sem .waiter = 0 := by
    rcases blocked_cases (hall p) with ⟨-, hzero⟩ | ⟨hpc, -⟩ | ⟨hpc, -⟩
    · exact hzero
    · exact absurd (hp.symm.trans hpc) (by simp)
    · exact absurd (hp.symm.trans hpc) (by simp)
  -- and it is the only one
  have honly : ∀ q, s.pc q = .outside → q = p := by
    have hcard : (Finset.univ.filter fun n => ¬(s.pc n).InRoom).card ≤ 1 := by omega
    intro q hq
    refine Finset.card_le_one.mp hcard q ?_ p ?_
    · exact Finset.mem_filter.mpr ⟨Finset.mem_univ q, not_not.mpr hq⟩
    · exact Finset.mem_filter.mpr ⟨Finset.mem_univ p, not_not.mpr hp⟩
  obtain ⟨q, hq⟩ := exists_RIGHT_eq p
  rcases blocked_cases (hall q) with ⟨hpc, -⟩ | ⟨hpc, hzero⟩ | ⟨-, hzero⟩
  · have := honly q hpc
    subst this
    exact RIGHT_ne hN q hq
  · have hown := own_of_blocked hrun hall hzero
    exact absurd (hpc.symm.trans hown) (by simp)
  · rw [hq] at hzero
    have hown := own_of_blocked hrun hall hzero
    exact absurd (hp.symm.trans hown) (by simp)

/-- Somebody can always go on, there is always one philosopher who is not in
the room, no two neighbours eat together, and the waiter counts who is in. -/
theorem never_stuck_waiter (hN : 2 ≤ N) {tr : List (Fin N × Act (Sem N))}
    {s : Machine (Fin N) (Sem N) Pc} (hrun : Run (table N) anyStep tr s) :
    (∃ n, Enabled eat_or_think s n) ∧
      (Finset.univ.filter fun n => (s.pc n).InRoom).card ≤ N - 1 ∧
        (∀ n, ¬((s.pc n).Eats ∧ (s.pc (RIGHT n)).Eats)) ∧
          s.sem .waiter + (Finset.univ.filter fun n => (s.pc n).InRoom).card = N - 1 := by
  have hroom := waiter_add_room hrun
  refine ⟨exists_enabled hN hrun, by omega, ?_, hroom⟩
  intro n heats
  have hone : (start N).sem (.chopstic (RIGHT n)) ≤ 1 := Nat.le_refl 1
  have hsame := eq_of_units keeps_units (fun _ => rfl) hrun hone heats.1.units_right
    heats.2.units_left
  exact RIGHT_ne hN n hsame.symm

/-- Of five philosophers one has been let in. -/
theorem never_stuck_waiter_five : ∃ s, Run (table 5) anyStep [(0, .took .waiter)] s ∧
    (∃ n, Enabled eat_or_think s n) ∧
      (Finset.univ.filter fun n => (s.pc n).InRoom).card ≤ 5 - 1 ∧
        (∀ n, ¬((s.pc n).Eats ∧ (s.pc (RIGHT n)).Eats)) ∧
          s.sem .waiter + (Finset.univ.filter fun n => (s.pc n).InRoom).card = 5 - 1 := by
  have hrun : ∃ s, Run (table 5) anyStep [(0, .took .waiter)] s :=
    ⟨_, .step (.init rfl) rfl trivial⟩
  obtain ⟨s, hrun⟩ := hrun
  exact ⟨s, hrun, never_stuck_waiter (by omega) hrun⟩

end PhiloSem4
end Philosophers
end CS444
