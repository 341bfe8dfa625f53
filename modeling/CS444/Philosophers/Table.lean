/-
The table of `inclass6`: `NUM_PHILO` philosophers, a chopstick between each two.

`chopstic[n]` is on the left of philosopher `n` and on the right of the one
before.  The programs differ in `eat_or_think` only; what they print, and
`times_eating`, which each philosopher counts for itself, play no part.
-/
import CS444.Lib.Semaphores

namespace CS444
namespace Philosophers

open Ledger Runs Semaphores

variable {N : Nat}

def RIGHT (n : Fin N) : Fin N := ⟨(n + 1) % N, Nat.mod_lt _ n.pos⟩

def LEFT (n : Fin N) : Fin N := n

theorem RIGHT_val (n : Fin N) :
    (RIGHT n).val = n.val + 1 ∧ n.val + 1 < N ∨ (RIGHT n).val = 0 ∧ n.val + 1 = N := by
  have hlt := n.isLt
  show (n.val + 1) % N = n.val + 1 ∧ _ ∨ (n.val + 1) % N = 0 ∧ _
  by_cases hlast : n.val + 1 = N
  · right
    rw [hlast]
    exact ⟨Nat.mod_self N, rfl⟩
  · left
    have hin : n.val + 1 < N := by omega
    exact ⟨Nat.mod_eq_of_lt hin, hin⟩

theorem RIGHT_ne (hN : 2 ≤ N) (n : Fin N) : RIGHT n ≠ n := by
  intro h
  have hval := congrArg Fin.val h
  have := RIGHT_val n
  omega

/-- Both chopsticks of a philosopher, one of each. -/
theorem both_le_one (hN : 2 ≤ N) (n c : Fin N) : (one (LEFT n) + one (RIGHT n)) c ≤ 1 := by
  have hne := RIGHT_ne hN n
  show one n c + one (RIGHT n) c ≤ 1
  unfold one
  by_cases hleft : c = n
  · subst hleft
    rw [if_pos rfl, if_neg hne.symm]
  · rw [if_neg hleft]
    split <;> omega

theorem one_le_one (n c : Fin N) : one n c ≤ 1 := by
  unfold one
  split <;> omega

/-- The philosopher at whose right a chopstick lies. -/
theorem exists_RIGHT_eq (c : Fin N) : ∃ n, RIGHT n = c := by
  have hlt := c.isLt
  by_cases hzero : c.val = 0
  · refine ⟨⟨N - 1, by omega⟩, Fin.ext ?_⟩
    show (N - 1 + 1) % N = c.val
    rw [Nat.sub_add_cancel c.pos, Nat.mod_self, hzero]
  · refine ⟨⟨c.val - 1, by omega⟩, Fin.ext ?_⟩
    show (c.val - 1 + 1) % N = c.val
    rw [Nat.sub_add_cancel (Nat.pos_of_ne_zero hzero), Nat.mod_eq_of_lt hlt]

end Philosophers
end CS444
