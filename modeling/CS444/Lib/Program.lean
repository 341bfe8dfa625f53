/-
Programs over a state that may stop for good.

`Prog σ ε α` is a program that reads and writes a state `σ` and either returns
an `α` or stops with an `ε` (a panic, a call that never comes back).  The simp
set runs the primitives; a call of another program is taken apart with
`bind_ok` when the program is known to return, and put in its place with
`bind_eq` when the call is.  `returns` tests a run on a given state.
-/
import CS444.Lib.Numerals
import Mathlib.Logic.Function.Basic

namespace CS444
namespace Program

/-- A program over states `σ` that returns an `α` or stops with an `ε`. -/
structure Prog (σ ε α : Type) where
  run : σ → Except ε (α × σ)

variable {σ ε α β γ : Type}

namespace Prog

instance : Monad (Prog σ ε) where
  pure a := ⟨fun s => .ok (a, s)⟩
  bind x f := ⟨fun s =>
    match x.run s with
    | .ok (a, s') => (f a).run s'
    | .error e => .error e⟩

/-- The state. -/
def get : Prog σ ε σ := ⟨fun s => .ok (s, s)⟩

/-- A value read off the state. -/
def gets (f : σ → α) : Prog σ ε α := ⟨fun s => .ok (f s, s)⟩

def modify (f : σ → σ) : Prog σ ε Unit := ⟨fun s => .ok ((), f s)⟩

/-- Stop and never return. -/
def halt (e : ε) : Prog σ ε α := ⟨fun _ => .error e⟩

/-- `if (c) x;` -/
def when (c : Prop) [Decidable c] (x : Prog σ ε Unit) : Prog σ ε Unit :=
  if c then x else pure ()

variable {x y : Prog σ ε α} {f : α → Prog σ ε β} {s s' : σ} {a c : α} {b : β}

theorem run_bind : (x >>= f).run s =
    match x.run s with
    | .ok (a, s') => (f a).run s'
    | .error e => .error e := rfl

/-- A run of `x` followed by `f` is a run of each. -/
theorem bind_ok : (x >>= f).run s = .ok (b, s') ↔
    ∃ a s₁, x.run s = .ok (a, s₁) ∧ (f a).run s₁ = .ok (b, s') := by
  rw [run_bind]
  cases h : x.run s with
  | error e => simp
  | ok r =>
      obtain ⟨a, s₁⟩ := r
      constructor
      · exact fun h => ⟨a, s₁, rfl, h⟩
      · rintro ⟨a', s₁', heq, h⟩
        obtain ⟨rfl, rfl⟩ := Prod.mk.inj (Except.ok.inj heq)
        exact h

theorem pure_ok : (pure a : Prog σ ε α).run s = .ok (c, s') ↔ a = c ∧ s = s' := by
  show Except.ok (a, s) = _ ↔ _
  simp

theorem modify_ok {g : σ → σ} {u : Unit} :
    (modify g : Prog σ ε Unit).run s = .ok (u, s') ↔ g s = s' := by
  show Except.ok ((), g s) = _ ↔ _
  simp

theorem bind_eq {s₁ : σ} (h : x.run s = .ok (a, s₁)) : (x >>= f).run s = (f a).run s₁ := by
  rw [run_bind, h]

/-! ## Running the primitives -/

@[simp] theorem pure_run : (pure a : Prog σ ε α).run s = .ok (a, s) := rfl

@[simp] theorem get_run : (get : Prog σ ε σ).run s = .ok (s, s) := rfl

@[simp] theorem gets_run (f : σ → α) : (gets f : Prog σ ε α).run s = .ok (f s, s) := rfl

@[simp] theorem modify_run (f : σ → σ) : (modify f : Prog σ ε Unit).run s = .ok ((), f s) := rfl

@[simp] theorem halt_run (e : ε) : (halt e : Prog σ ε α).run s = .error e := rfl

@[simp] theorem pure_bind_run : (pure a >>= f : Prog σ ε β).run s = (f a).run s := rfl

@[simp] theorem get_bind_run (f : σ → Prog σ ε β) : (get >>= f).run s = (f s).run s := rfl

@[simp] theorem gets_bind_run (g : σ → α) : (gets g >>= f).run s = (f (g s)).run s := rfl

@[simp] theorem modify_bind_run (g : σ → σ) (f : Unit → Prog σ ε β) :
    (modify g >>= f).run s = (f ()).run (g s) := rfl

@[simp] theorem halt_bind_run (e : ε) : (halt e >>= f).run s = .error e := rfl

@[simp] theorem bind_bind_run (g : β → Prog σ ε γ) :
    ((x >>= f) >>= g).run s = (x >>= fun a => f a >>= g).run s := by
  simp only [run_bind]
  cases x.run s <;> rfl

theorem when_ok {c : Prop} [Decidable c] {x : Prog σ ε Unit} {u : Unit} :
    (when c x).run s = .ok (u, s') ↔ c ∧ x.run s = .ok (u, s') ∨ ¬ c ∧ s' = s := by
  unfold when
  by_cases h : c
  · simp [h]
  · simp [h, eq_comm]

/-! ## Testing a run -/

/-- Does the run return, with a result and a state that pass the test? -/
def returns (x : Except ε (α × σ)) (test : α → σ → Bool) : Bool :=
  match x with
  | .ok r => test r.1 r.2
  | .error _ => false

theorem returns_iff {x : Except ε (α × σ)} {test : α → σ → Bool} :
    returns x test = true ↔ ∃ a s, x = .ok (a, s) ∧ test a s = true := by
  cases x with
  | error e => simp [returns]
  | ok r =>
      constructor
      · exact fun h => ⟨r.1, r.2, rfl, h⟩
      · rintro ⟨a, s, heq, h⟩
        obtain rfl := Except.ok.inj heq
        exact h

theorem returns_eq [DecidableEq α] {x : Except ε (α × σ)} {a : α} {test : σ → Bool} :
    returns x (fun r s => decide (r = a) && test s) = true ↔
      ∃ s, x = .ok (a, s) ∧ test s = true := by
  rw [returns_iff]
  simp only [Bool.and_eq_true, decide_eq_true_eq]
  constructor
  · rintro ⟨r, s, hx, rfl, htest⟩
    exact ⟨s, hx, htest⟩
  · rintro ⟨s, hx, htest⟩
    exact ⟨a, s, hx, rfl, htest⟩

end Prog
end Program
end CS444
