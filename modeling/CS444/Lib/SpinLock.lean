/-
A spin lock and who holds it.

The word of the lock names the holder; what each thread does next says whether it is
between its `acquire` and its `release`.  `HeldBy` is the agreement of the two, and the
rules are one for each thing that can happen to a lock when one thread takes a step.
-/
import Mathlib.Logic.Function.Basic

namespace CS444
namespace SpinLocks

variable {κ π : Type*} {o : Option κ} {holds : π → Bool} {pc : κ → π} {j k : κ} {p : π}

/-- The lock is held by the thread whose control point says so, if there is one. -/
def HeldBy (o : Option κ) (holds : π → Bool) (pc : κ → π) : Prop :=
  ∀ k, o = some k ↔ holds (pc k) = true

theorem HeldBy.unique (h : HeldBy o holds pc) (hj : holds (pc j) = true)
    (hk : holds (pc k) = true) : j = k :=
  Option.some.inj (((h j).mpr hj).symm.trans ((h k).mpr hk))

theorem HeldBy.none_of_free (h : HeldBy o holds pc) (hfree : ∀ k, holds (pc k) = false) :
    o = none := by
  cases o with
  | none => rfl
  | some k =>
      have hk := (h k).mp rfl
      rw [hfree k] at hk
      cases hk

variable [DecidableEq κ]

/-- The thread goes on, with the lock as it was. -/
theorem HeldBy.keep (h : HeldBy o holds pc) (hp : holds p = holds (pc k)) :
    HeldBy o holds (Function.update pc k p) := by
  intro j
  by_cases hj : j = k
  · rw [hj, Function.update_self, hp]
    exact h k
  · rw [Function.update_of_ne hj]
    exact h j

theorem HeldBy.take (h : HeldBy none holds pc) (hp : holds p = true) :
    HeldBy (some k) holds (Function.update pc k p) := by
  intro j
  by_cases hj : j = k
  · rw [hj, Function.update_self]
    exact iff_of_true rfl hp
  · rw [Function.update_of_ne hj, ← h j]
    exact iff_of_false (fun heq => hj (Option.some.inj heq).symm) (fun heq => nomatch heq)

theorem HeldBy.drop (h : HeldBy o holds pc) (hk : holds (pc k) = true) (hp : holds p = false) :
    HeldBy none holds (Function.update pc k p) := by
  intro j
  by_cases hj : j = k
  · rw [hj, Function.update_self, hp]
    exact iff_of_false (fun heq => nomatch heq) Bool.noConfusion
  · rw [Function.update_of_ne hj]
    exact iff_of_false (fun heq => nomatch heq) fun hheld => hj (h.unique hheld hk)

end SpinLocks
end CS444
