/-
How a run of a program ends.

`Ends x s Q E` says that the run of `x` from `s` returns with `Q` of its result and of
the state it leaves, or stops for a reason of which `E` holds.  With `E` always false
the run returns.  There is one rule for each way a program is put together, and
`Ends.bind` asks for the state between its two parts only what the second part needs.
-/
import CS444.Lib.Program

namespace CS444
namespace Program
namespace Prog

variable {σ ε α β : Type} {x : Prog σ ε α} {f : α → Prog σ ε β} {s s' : σ} {a : α}
  {Q Q₁ : α → σ → Prop} {R : β → σ → Prop} {E E₁ : ε → Prop}

/-- The run of `x` from `s` returns with `Q`, or stops with `E`. -/
def Ends (x : Prog σ ε α) (s : σ) (Q : α → σ → Prop) (E : ε → Prop) : Prop :=
  match x.run s with
  | .ok r => Q r.1 r.2
  | .error e => E e

theorem ends_ok (h : x.run s = .ok (a, s')) : Ends x s Q E ↔ Q a s' := by
  unfold Ends
  rw [h]

theorem Ends.ok (hx : Ends x s Q E) (h : x.run s = .ok (a, s')) : Q a s' := (ends_ok h).1 hx

theorem Ends.error {e : ε} (hx : Ends x s Q E) (h : x.run s = .error e) : E e := by
  unfold Ends at hx
  rw [h] at hx
  exact hx

/-- A run that cannot stop returns. -/
theorem Ends.returns (hx : Ends x s Q fun _ => False) :
    ∃ a s', x.run s = .ok (a, s') ∧ Q a s' := by
  cases h : x.run s with
  | ok r => exact ⟨r.1, r.2, rfl, hx.ok h⟩
  | error e => exact (hx.error h).elim

theorem Ends.mono (hx : Ends x s Q₁ E₁) (hq : ∀ a s', Q₁ a s' → Q a s')
    (he : ∀ e, E₁ e → E e) : Ends x s Q E := by
  cases h : x.run s with
  | ok r => exact (ends_ok h).2 (hq _ _ (hx.ok h))
  | error e =>
      have hend := he e (hx.error h)
      unfold Ends
      rw [h]
      exact hend

theorem Ends.pure (h : Q a s) : Ends (Pure.pure a : Prog σ ε α) s Q E := h

theorem Ends.halt {e : ε} (h : E e) : Ends (halt e : Prog σ ε α) s Q E := h

theorem Ends.bind (hx : Ends x s Q E) (hf : ∀ a s', Q a s' → Ends (f a) s' R E) :
    Ends (x >>= f) s R E := by
  cases h : x.run s with
  | ok r =>
      have hend := hf r.1 r.2 (hx.ok h)
      unfold Ends
      rw [bind_eq h]
      exact hend
  | error e =>
      have hend := hx.error h
      unfold Ends
      rw [run_bind, h]
      exact hend

/-- A call that is known to return is put in its place. -/
theorem Ends.call (h : x.run s = .ok (a, s')) (hf : Ends (f a) s' R E) :
    Ends (x >>= f) s R E := by
  unfold Ends
  rw [bind_eq h]
  exact hf

end Prog
end Program
end CS444
