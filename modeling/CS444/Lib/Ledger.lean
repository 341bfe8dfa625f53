/-
Reference counts and who holds them.

A table keeps a count for each entry.  A piece of a program takes over some of
the references, `h`, and leaves with others, `h'`: `Balanced c h c' h'` says
that the counts moved by exactly the difference, so that what nobody in the
program holds is as it was.  Pieces compose, and a piece that knows nothing of
other references leaves them alone, `Balanced.frame`.  What the records of a
second table hold together is `holdings`; changing one record changes it by
what that record holds.
-/
import Mathlib.Algebra.BigOperators.Group.Finset.Piecewise
import Mathlib.Algebra.Order.BigOperators.Group.Finset
import Mathlib.Algebra.Group.Pi.Basic
import Mathlib.Algebra.Order.Ring.Nat
import Mathlib.Data.Fintype.Basic

namespace CS444
namespace Ledger

variable {ι : Type*} [DecidableEq ι]

/-- One reference to `k`. -/
def one (k : ι) : ι → Nat := fun j => if j = k then 1 else 0

@[simp] theorem one_self (k : ι) : one k k = 1 := if_pos rfl

theorem one_of_ne {k j : ι} (h : j ≠ k) : one k j = 0 := if_neg h

/-- The references a result stands for, if there is one. -/
def ofOption : Option ι → ι → Nat
  | none => 0
  | some k => one k

/-- The counts went from `c` to `c'` while the references held went from `h` to
`h'`. -/
def Balanced (c : ι → Int) (h : ι → Nat) (c' : ι → Int) (h' : ι → Nat) : Prop :=
  ∀ k, c' k + h k = c k + h' k

variable {c c₁ c' : ι → Int} {h h₁ h' : ι → Nat}

omit [DecidableEq ι] in
theorem Balanced.refl (c : ι → Int) (h : ι → Nat) : Balanced c h c h := fun _ => rfl

omit [DecidableEq ι] in
theorem Balanced.trans (hab : Balanced c h c₁ h₁) (hbc : Balanced c₁ h₁ c' h') :
    Balanced c h c' h' := by
  intro k
  have := hab k
  have := hbc k
  omega

omit [DecidableEq ι] in
theorem Balanced.frame (hab : Balanced c h c' h') (r : ι → Nat) :
    Balanced c (r + h) c' (r + h') := by
  intro k
  have := hab k
  simp only [Pi.add_apply]
  omega

/-- Dropping a reference. -/
theorem Balanced.drop {k : ι} (hk : c' k = c k - 1) (hne : ∀ j, j ≠ k → c' j = c j) :
    Balanced c (one k) c' 0 := by
  intro j
  by_cases hj : j = k
  · subst hj
    simp [hk]
  · simp [hne j hj, one_of_ne hj]

/-! ## What a table of records holds -/

section Holdings

variable {κ α : Type*} [Fintype κ] [DecidableEq κ] {w : α → ι → Nat} {a : κ → α}

omit [DecidableEq ι] [DecidableEq κ] in
/-- The references held by the records of `a`, of which each holds `w`. -/
def holdings (w : α → ι → Nat) (a : κ → α) : ι → Nat := fun k => ∑ j, w (a j) k

omit [DecidableEq ι] in
theorem holdings_update (w : α → ι → Nat) (a : κ → α) (j : κ) (x : α) (k : ι) :
    holdings w (Function.update a j x) k + w (a j) k = holdings w a k + w x k := by
  have hupdate : (fun i => w (Function.update a j x i) k) =
      Function.update (fun i => w (a i) k) j (w x k) :=
    funext fun i => Function.apply_update (fun _ r => w r k) a j x i
  have hmem := Finset.mem_univ j
  unfold holdings
  rw [hupdate, Finset.sum_update_of_mem hmem,
    Finset.sum_eq_add_sum_sdiff_singleton_of_mem hmem fun i => w (a i) k]
  omega

omit [DecidableEq ι] in
/-- A change that holds what the old record held. -/
theorem holdings_update_same {j : κ} {x : α} (h : w x = w (a j)) :
    holdings w (Function.update a j x) = holdings w a := by
  funext k
  have := holdings_update w a j x k
  rw [h] at this
  omega

omit [DecidableEq ι] [DecidableEq κ] in
theorem le_holdings (w : α → ι → Nat) (a : κ → α) (j : κ) (k : ι) :
    w (a j) k ≤ holdings w a k :=
  Finset.single_le_sum (f := fun i => w (a i) k) (fun _ _ => Nat.zero_le _) (Finset.mem_univ j)

end Holdings

end Ledger
end CS444
