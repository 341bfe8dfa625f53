/-
Loads and stores of shared cells, without a lock.

A process that has loaded a cell and is going to store it holds the cell and the
value it found.  `UpToDate` says that every value held is still the one in memory
and that no two processes hold one cell; it is kept by the steps in which a cell
is loaded only while nobody holds it, so that no store overwrites a value that
its process has not seen.
-/
import Mathlib.Logic.Basic

namespace CS444
namespace Windows

variable {ρ κ ν : Type*}

/-- What the processes hold is what the memory has, and each cell is held once. -/
structure UpToDate (held : ρ → Option (κ × ν)) (mem : κ → ν) : Prop where
  current : ∀ p x v, held p = some (x, v) → v = mem x
  alone : ∀ p q x v w, held p = some (x, v) → held q = some (x, w) → q = p

variable {held held' : ρ → Option (κ × ν)} {mem mem' : κ → ν} {p : ρ}

theorem UpToDate.of_none (h : ∀ p, held p = none) : UpToDate held mem where
  current p x v hp := absurd ((h p).symm.trans hp) (by simp)
  alone p q x v w hp := absurd ((h p).symm.trans hp) (by simp)

theorem UpToDate.congr (h : UpToDate held mem) (hheld : ∀ p, held' p = held p)
    (hmem : ∀ x, mem' x = mem x) : UpToDate held' mem' where
  current p x v hp := (h.current p x v ((hheld p).symm.trans hp)).trans (hmem x).symm
  alone p q x v w hp hq := h.alone p q x v w ((hheld p).symm.trans hp) ((hheld q).symm.trans hq)

/-- What a process holds after a step of `p` it held before, or `p` has just
loaded it. -/
theorem held_cases (hothers : ∀ q, q ≠ p → held' q = none ∨ held' q = held q)
    (hself : held' p = none ∨ held' p = held p ∨ ∃ x, held' p = some (x, mem x) ∧
      ∀ q v, held q ≠ some (x, v)) {q : ρ} {x : κ} {v : ν} (hq : held' q = some (x, v)) :
    held q = some (x, v) ∨ q = p ∧ v = mem x ∧ ∀ r w, held r ≠ some (x, w) := by
  by_cases hqp : q = p
  · subst hqp
    rcases hself with hnone | hsame | ⟨y, hload, hfree⟩
    · exact absurd (hnone.symm.trans hq) (by simp)
    · exact Or.inl (hsame.symm.trans hq)
    · obtain ⟨rfl, rfl⟩ := Prod.mk.inj (Option.some.inj (hload.symm.trans hq))
      exact Or.inr ⟨rfl, rfl, hfree⟩
  · rcases hothers q hqp with hnone | hsame
    · exact absurd (hnone.symm.trans hq) (by simp)
    · exact Or.inl (hsame.symm.trans hq)

/-- One step of `p`: it loads a cell nobody holds, stores the one it holds or does
neither, and no other cell that is held changes. -/
theorem UpToDate.step (h : UpToDate held mem)
    (hothers : ∀ q, q ≠ p → held' q = none ∨ held' q = held q)
    (hself : held' p = none ∨ held' p = held p ∨ ∃ x, held' p = some (x, mem x) ∧
      ∀ q v, held q ≠ some (x, v))
    (hmem : ∀ q x v, held' q = some (x, v) →
      mem' x = mem x ∨ held' p = none ∧ ∃ w, held p = some (x, w)) : UpToDate held' mem' := by
  have hcases := fun {q : ρ} {x : κ} {v : ν} => held_cases (q := q) (x := x) (v := v) hothers hself
  constructor
  case current =>
    intro q x v hq
    have hsame : mem' x = mem x := by
      rcases hmem q x v hq with hsame | ⟨hnone, w, hp⟩
      · exact hsame
      · rcases hcases hq with hold | ⟨rfl, -⟩
        · obtain rfl := h.alone p q x w v hp hold
          exact absurd (hnone.symm.trans hq) (by simp)
        · exact absurd (hnone.symm.trans hq) (by simp)
    rw [hsame]
    rcases hcases hq with hold | ⟨-, hv, -⟩
    · exact h.current q x v hold
    · exact hv
  case alone =>
    intro q r x v w hq hr
    rcases hcases hq with hold | ⟨rfl, -, hfree⟩ <;> rcases hcases hr with hold' | ⟨rfl, -, hfree'⟩
    · exact h.alone q r x v w hold hold'
    · exact absurd hold (hfree' q v)
    · exact absurd hold' (hfree r w)
    · rfl

end Windows
end CS444
