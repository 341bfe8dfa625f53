/-
A binary semaphore and who has it.

`Token n P` says that the semaphore is at 1 and nobody is in `P`, or that it is
at 0 and one agent is.  The group of agents may be of any size.  The rules are
one for each thing that can happen: somebody takes it, gives it back, or moves
about while it stays where it is.
-/
import Mathlib.Logic.Function.Basic

namespace CS444
namespace Semaphores

variable {κ : Type*} {n : Nat} {P P' : κ → Prop} {j k : κ}

/-- The semaphore has the value `n`, and those in `P` have it. -/
def Token (n : Nat) (P : κ → Prop) : Prop :=
  n = 1 ∧ (∀ j, ¬P j) ∨ n = 0 ∧ ∃ k, ∀ j, P j ↔ j = k

theorem Token.unique (h : Token n P) (hj : P j) (hk : P k) : j = k := by
  rcases h with ⟨-, hnone⟩ | ⟨-, m, hm⟩
  · exact absurd hj (hnone j)
  · exact ((hm j).mp hj).trans ((hm k).mp hk).symm

theorem Token.zero (h : Token n P) (hk : P k) : n = 0 := by
  rcases h with ⟨-, hnone⟩ | ⟨hzero, -⟩
  · exact absurd hk (hnone k)
  · exact hzero

theorem Token.exists_of_zero (h : Token n P) (hzero : n = 0) : ∃ k, P k := by
  rcases h with ⟨hone, -⟩ | ⟨-, m, hm⟩
  · omega
  · exact ⟨m, (hm m).mpr rfl⟩

theorem Token.same (h : Token n P) (hsame : ∀ j, P' j ↔ P j) : Token n P' := by
  rcases h with ⟨hone, hnone⟩ | ⟨hzero, m, hm⟩
  · exact Or.inl ⟨hone, fun j hj => hnone j ((hsame j).mp hj)⟩
  · exact Or.inr ⟨hzero, m, fun j => (hsame j).trans (hm j)⟩

theorem Token.take (h : Token n P) (hn : n ≠ 0) (hk : P' k) (hother : ∀ j, j ≠ k → (P' j ↔ P j)) :
    Token (n - 1) P' := by
  rcases h with ⟨hone, hnone⟩ | ⟨hzero, -⟩
  · refine Or.inr ⟨by omega, k, fun j => ?_⟩
    by_cases hj : j = k
    · subst hj
      exact iff_of_true hk rfl
    · exact iff_of_false (fun h => hnone j ((hother j hj).mp h)) hj
  · exact absurd hzero hn

theorem Token.give (h : Token n P) (hk : P k) (hk' : ¬P' k)
    (hother : ∀ j, j ≠ k → (P' j ↔ P j)) : Token (n + 1) P' := by
  have hzero := h.zero hk
  refine Or.inl ⟨by omega, fun j hj => ?_⟩
  by_cases hjk : j = k
  · subst hjk
    exact hk' hj
  · exact hjk (h.unique ((hother j hjk).mp hj) hk)

end Semaphores
end CS444
