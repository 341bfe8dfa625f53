/-
The loops of `inclass5`: `mm1` and the row loop the other programs share.

`mm1` runs `result[i][j] += matrix1[i][k] * matrix2[k][j]` over all `i`, `j` and
`k`.  In the others a thread that has a row runs the loops over `j` and `k`;
`rowLoop` takes the sum and its store as two steps.  `rowRule` says that a thread
leaves in the row what `mm1` leaves there: every cell added up in the order of
`k`, with the sum and the product of the element type, whatever they are.

Rows and columns are natural numbers: an index stays below `dim` and the number
of threads together.
-/
import CS444.Lib.Crew

namespace CS444
namespace Matmul

open Crews

variable {E : Type*} [Add E] [Mul E]

abbrev Matrix (E : Type*) : Type _ := Nat → Nat → E

/-- What the programs read: `dim`, `matrix1` and `matrix2`. -/
structure Input (E : Type*) where
  dim : Nat
  matrix1 : Matrix E
  matrix2 : Matrix E

/-- `result[i][j] += matrix1[i][k] * matrix2[k][j]`. -/
def addTo (inp : Input E) (i j : Nat) (result : Matrix E) (k : Nat) : Matrix E :=
  Function.update result i
    (Function.update (result i) j (result i j + inp.matrix1 i k * inp.matrix2 k j))

/-- The three loops of `main` in `mm1.c`. -/
def mm1 (inp : Input E) (result : Matrix E) : Matrix E :=
  (List.range inp.dim).foldl (fun r i =>
    (List.range inp.dim).foldl (fun r j =>
      (List.range inp.dim).foldl (addTo inp i j) r) r) result

/-- A cell after the first `n` products. -/
def cell (inp : Input E) (i j : Nat) (x : E) (n : Nat) : E :=
  (List.range n).foldl (fun x k => x + inp.matrix1 i k * inp.matrix2 k j) x

theorem cell_succ (inp : Input E) (i j : Nat) (x : E) (n : Nat) :
    cell inp i j x (n + 1) = cell inp i j x n + inp.matrix1 i n * inp.matrix2 n j := by
  unfold cell
  rw [List.range_succ, List.foldl_append]
  rfl

/-- A row after the cells before `n`. -/
def row (inp : Input E) (i : Nat) (init : Nat → E) (n : Nat) : Nat → E :=
  fun j => if j < n then cell inp i j (init j) inp.dim else init j

theorem foldl_addTo (inp : Input E) (i j : Nat) (result : Matrix E) (n : Nat) :
    (List.range n).foldl (addTo inp i j) result =
      Function.update result i (Function.update (result i) j (cell inp i j (result i j) n)) := by
  induction n with
  | zero => simp [cell]
  | succ n ih =>
      rw [List.range_succ, List.foldl_append, ih, cell_succ]
      simp only [List.foldl_cons, List.foldl_nil, addTo, Function.update_self,
        Function.update_idem]

theorem foldl_row (inp : Input E) (i : Nat) (result : Matrix E) (n : Nat) :
    (List.range n).foldl (fun r j => (List.range inp.dim).foldl (addTo inp i j) r) result =
      Function.update result i (row inp i (result i) n) := by
  induction n with
  | zero =>
      have hrow : row inp i (result i) 0 = result i := rfl
      rw [hrow, Function.update_eq_self]
      rfl
  | succ n ih =>
      rw [List.range_succ, List.foldl_append, ih]
      simp only [List.foldl_cons, List.foldl_nil, foldl_addTo, Function.update_self,
        Function.update_idem]
      congr 1
      funext j
      by_cases hj : j = n
      · subst hj
        rw [Function.update_self]
        simp [row]
      · rw [Function.update_of_ne hj]
        simp only [row]
        by_cases hlt : j < n
        · rw [if_pos hlt, if_pos (by omega)]
        · rw [if_neg hlt, if_neg (by omega)]

/-- Every row below `dim` has all its cells added up; the rest is left. -/
theorem mm1_apply (inp : Input E) (result : Matrix E) (i : Nat) :
    mm1 inp result i = if i < inp.dim then row inp i (result i) inp.dim else result i := by
  have hrows : ∀ n, (List.range n).foldl (fun r i =>
      (List.range inp.dim).foldl (fun r j => (List.range inp.dim).foldl (addTo inp i j) r) r)
        result = fun i => if i < n then row inp i (result i) inp.dim else result i := by
    intro n
    induction n with
    | zero => simp
    | succ n ih =>
        rw [List.range_succ, List.foldl_append, ih]
        simp only [List.foldl_cons, List.foldl_nil, foldl_row]
        funext i
        by_cases hi : i = n
        · subst hi
          rw [Function.update_self]
          simp
        · rw [Function.update_of_ne hi]
          by_cases hlt : i < n
          · rw [if_pos hlt, if_pos (by omega)]
          · rw [if_neg hlt, if_neg (by omega)]
  exact congrFun (hrows inp.dim) i

/-! ## The row loop of a thread -/

/-- `j` and `k`, and the sum before it is stored. -/
structure Locals (E : Type*) where
  j : Nat
  k : Nat
  sum : Option E

def rowLoop (inp : Input E) : Loop Nat (Nat → E) (Locals E) where
  start := { j := 0, k := 0, sum := none }
  body i c r :=
    match c.sum with
    | some x => some ({ c with k := c.k + 1, sum := none }, Function.update r c.j x)
    | none =>
      if c.j < inp.dim then
        if c.k < inp.dim then
          some ({ c with sum := some (r c.j + inp.matrix1 i c.k * inp.matrix2 c.k c.j) }, r)
        else some ({ j := c.j + 1, k := 0, sum := none }, r)
      else none

/-- A row in the middle of its loop: the cells before `j` are done, the cell `j`
has `k` products, and a sum that waits for its store has one more. -/
structure Halfway (inp : Input E) (init : Matrix E) (i : Nat) (c : Locals E) (r : Nat → E) :
    Prop where
  bound : c.k ≤ inp.dim ∧ c.j ≤ inp.dim ∧ (c.j = inp.dim → c.k = 0)
  done : ∀ j, j < c.j → r j = cell inp i j (init i j) inp.dim
  now : r c.j = cell inp i c.j (init i c.j) c.k
  rest : ∀ j, c.j < j → r j = init i j
  sum : ∀ x, c.sum = some x →
    x = cell inp i c.j (init i c.j) (c.k + 1) ∧ c.k < inp.dim ∧ c.j < inp.dim

theorem halfway_body {inp : Input E} {init : Matrix E} {i : Nat} {c c' : Locals E}
    {r r' : Nat → E} (h : Halfway inp init i c r)
    (hbody : (rowLoop inp).body i c r = some (c', r')) : Halfway inp init i c' r' := by
  obtain ⟨⟨hk, hj, hlast⟩, hdone, hnow, hrest, hsum⟩ := h
  obtain ⟨j, k, sum⟩ := c
  cases sum with
  | some x =>
      obtain ⟨hx, hkdim, hjdim⟩ := hsum x rfl
      obtain ⟨rfl, rfl⟩ := Prod.mk.inj (Option.some.inj hbody)
      refine ⟨⟨hkdim, hj, fun h => ?_⟩, fun j' hj' => ?_, ?_, fun j' hj' => ?_, by simp⟩
      · have : j = inp.dim := h
        have : j < inp.dim := hjdim
        omega
      · have hne : j' ≠ j := Nat.ne_of_lt hj'
        exact (Function.update_of_ne hne _ _).trans (hdone j' hj')
      · exact (Function.update_self _ _ _).trans hx
      · have hne : j' ≠ j := Nat.ne_of_gt hj'
        exact (Function.update_of_ne hne _ _).trans (hrest j' hj')
  | none =>
      simp only [rowLoop] at hbody
      split at hbody
      · rename_i hjdim
        split at hbody
        · rename_i hkdim
          obtain ⟨rfl, rfl⟩ := Prod.mk.inj (Option.some.inj hbody)
          refine ⟨⟨hk, hj, hlast⟩, hdone, hnow, hrest, fun x hx => ⟨?_, hkdim, hjdim⟩⟩
          obtain rfl := Option.some.inj hx
          rw [cell_succ, hnow]
        · rename_i hkdim
          obtain ⟨rfl, rfl⟩ := Prod.mk.inj (Option.some.inj hbody)
          have hfull : k = inp.dim := by
            have : k ≤ inp.dim := hk
            omega
          refine ⟨⟨Nat.zero_le _, hjdim, fun _ => rfl⟩, fun j' hj' => ?_, ?_, fun j' hj' => ?_,
            by simp⟩
          · have hlt : j' < j + 1 := hj'
            by_cases heq : j' = j
            · subst heq
              rw [← hfull]
              exact hnow
            · exact hdone j' (show j' < j by omega)
          · show r (j + 1) = cell inp i (j + 1) (init i (j + 1)) 0
            exact hrest (j + 1) (Nat.lt_succ_self j)
          · exact hrest j' (Nat.lt_of_succ_lt hj')
      · exact absurd hbody (by simp)

/-- The row loop leaves in its row what `mm1` leaves there. -/
theorem rowRule (inp : Input E) (init : Matrix E) :
    Rule (rowLoop inp) init (Halfway inp init) fun i r => r = row inp i (init i) inp.dim where
  start i := {
    bound := ⟨Nat.zero_le _, Nat.zero_le _, fun _ => rfl⟩
    done := fun j hj => absurd hj (Nat.not_lt_zero j)
    now := rfl
    rest := fun _ _ => rfl
    sum := fun x hx => absurd hx (by simp [rowLoop]) }
  body _ _ _ _ _ h hbody := halfway_body h hbody
  post i c r h hbody := by
    obtain ⟨j, k, sum⟩ := c
    cases sum with
    | some x => exact absurd hbody (by simp [rowLoop])
    | none =>
        have hdim : ¬j < inp.dim := by
          intro hlt
          simp only [rowLoop, if_pos hlt] at hbody
          split at hbody <;> exact absurd hbody (by simp)
        obtain rfl : j = inp.dim := Nat.le_antisymm h.bound.2.1 (Nat.le_of_not_lt hdim)
        obtain rfl : k = 0 := h.bound.2.2 rfl
        funext j
        show r j = if j < inp.dim then cell inp i j (init i j) inp.dim else init i j
        by_cases hlt : j < inp.dim
        · rw [if_pos hlt]
          exact h.done j hlt
        · rw [if_neg hlt]
          by_cases heq : j = inp.dim
          · subst heq
            exact h.now
          · exact h.rest j (show inp.dim < j by omega)

/-- A crew that has worked off exactly the rows below `dim` has computed `mm1`,
each row once. -/
theorem mm1_of_sound {κ : Type*} {inp : Input E} {init : Matrix E} {tr : List (Option Nat)}
    {s : Crew κ Nat (Nat → E) (Locals E)}
    (h : Sound init (Halfway inp init) (fun i r => r = row inp i (init i) inp.dim) tr s)
    (hfree : ∀ k, s.task k = none) (hgiven : ∀ i, s.given i ↔ i < inp.dim) :
    s.store = mm1 inp init ∧ ∀ i, i < inp.dim → tr.count (some i) = 1 := by
  refine ⟨?_, fun i hi => ((h.all_free hfree i).1 ((hgiven i).mpr hi)).2⟩
  funext i
  obtain ⟨hdone, hleft⟩ := h.all_free hfree i
  rw [mm1_apply]
  by_cases hi : i < inp.dim
  · rw [if_pos hi]
    exact (hdone ((hgiven i).mpr hi)).1
  · rw [if_neg hi]
    exact hleft fun hg => hi ((hgiven i).mp hg)

end Matmul
end CS444
