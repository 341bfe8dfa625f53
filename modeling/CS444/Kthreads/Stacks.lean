/-
The kernel stacks name the threads: no two slots have the same one, and the
number of a stack is new when `allocproc` takes it.
-/
import CS444.Kthreads.Steps

namespace CS444
namespace Kthreads

open Runs

variable {C : Type} {s s' : Kernel C} {c : C} {a : Act} {t t' : Table} {p q : Slot} {i : Nat}
  {pick : Pick} {k : Ctl} {n : Next}

structure Stacks (t : Table) : Prop where
  fresh : ∀ q i, (t.proc q).kstack = some i → i < t.nextstack
  apart : ∀ q q' i, (t.proc q).kstack = some i → (t.proc q').kstack = some i → q = q'

/-- `allocproc` gives out a stack, no other step does. -/
theorem body_stack (h : BodyStep t p k t' n) :
    (t'.nextstack = t.nextstack ∧
        ∀ q, (t'.proc q).kstack = (t.proc q).kstack ∨ (t'.proc q).kstack = none) ∨
      ∃ thread np, k = .newborn thread np ∧ t' = initSlot t np := by
  have hset : ∀ (u : Table) (p : Slot) (f : Proc → Proc), (∀ r, (f r).kstack = none) →
      ∀ q, ((u.set p f).proc q).kstack = (u.proc q).kstack ∨
        ((u.set p f).proc q).kstack = none := by
    intro u p f hf q
    rw [Table.set_apply]
    split
    · exact Or.inr (hf _)
    · exact Or.inl rfl
  cases h with
  | newborn thread np => exact Or.inr ⟨thread, np, rfl, rfl⟩
  | alloc => exact Or.inl ⟨rfl, fun _ => Or.inl (takeSlot_keeps Proc.kstack fun _ _ _ => rfl)⟩
  | newbornFail | forkUndo => exact Or.inl ⟨rfl, hset _ _ _ fun _ => rfl⟩
  | forkCopy =>
      exact Or.inl ⟨rfl, fun _ => Or.inl (copyImage_keeps Proc.kstack fun _ _ _ _ => rfl)⟩
  | storeTid =>
      exact Or.inl ⟨rfl, fun _ =>
        Or.inl (takeTid_keeps Proc.kstack (fun _ _ => rfl) fun _ _ => rfl)⟩
  | joinTake owner tid r v =>
      refine Or.inl ⟨rfl, fun q => ?_⟩
      have hreset : ∀ u : Table, ((u.joinReset r).proc q).kstack = (u.proc q).kstack ∨
          ((u.joinReset r).proc q).kstack = none := fun u => hset u r _ (fun _ => rfl) q
      refine Or.imp_left (fun hkeep => Eq.trans hkeep ?_) (hreset _)
      exact Table.set_keeps Proc.kstack fun _ => rfl
  | threadExit2 =>
      exact Or.inl ⟨rfl, fun _ => Or.inl (threadZombie_keeps Proc.kstack fun _ _ => rfl)⟩
  | exitSched =>
      refine Or.inl ⟨by rw [exitBody_rest], fun _ => Or.inl ?_⟩
      exact exitBody_keeps Proc.kstack (fun _ _ => rfl) fun _ _ => rfl
  | waitTake r kids => exact Or.inl ⟨rfl, hset _ r _ fun _ => rfl⟩
  | execCommit =>
      exact Or.inl ⟨rfl, fun _ => Or.inl (commitImage_keeps Proc.kstack fun _ _ _ => rfl)⟩
  | _ =>
      first
        | exact Or.inl ⟨rfl, fun _ => Or.inl rfl⟩
        | exact Or.inl ⟨rfl, fun _ => Or.inl (Table.set_keeps Proc.kstack fun _ => rfl)⟩

/-- A stack a slot has after a step is its own or new. -/
theorem body_stack_old (h : BodyStep t p k t' n) : t.nextstack ≤ t'.nextstack ∧
    ∀ q i, (t'.proc q).kstack = some i → (t.proc q).kstack = some i ∨ i = t.nextstack := by
  rcases body_stack h with ⟨hnext, hkeep⟩ | ⟨thread, np, -, rfl⟩
  · refine ⟨hnext.ge, fun q i hq => Or.inl ?_⟩
    rcases hkeep q with hsame | hnone
    · exact hsame.symm.trans hq
    · exact absurd (hnone.symm.trans hq) (by simp)
  · refine ⟨Nat.le_succ _, fun q i hq => ?_⟩
    by_cases hqn : q = np
    · subst hqn
      have hi : some t.nextstack = some i := by simpa [initSlot] using hq
      exact Or.inr (Option.some.inj hi).symm
    · rw [initSlot] at hq
      exact Or.inl (by simpa [Table.set_of_ne hqn] using hq)

theorem Stacks.alike (hst : Stacks t) (h : Alike t t') : Stacks t' := by
  have hkeep : ∀ q, (t'.proc q).kstack = (t.proc q).kstack :=
    h.keeps Proc.kstack fun _ _ _ => rfl
  constructor
  case fresh =>
    intro q i hq
    rw [h.rest]
    exact hst.fresh q i ((hkeep q).symm.trans hq)
  case apart =>
    intro q q' i hq hq'
    exact hst.apart q q' i ((hkeep q).symm.trans hq) ((hkeep q').symm.trans hq')

theorem Stacks.body (hst : Stacks t) (h : BodyStep t p k t' n) : Stacks t' := by
  rcases body_stack h with ⟨hnext, hkeep⟩ | ⟨thread, np, -, rfl⟩
  · have hold : ∀ q i, (t'.proc q).kstack = some i → (t.proc q).kstack = some i := by
      intro q i hq
      rcases hkeep q with hsame | hnone
      · exact hsame.symm.trans hq
      · exact absurd (hnone.symm.trans hq) (by simp)
    exact ⟨fun q i hq => hnext ▸ hst.fresh q i (hold q i hq),
      fun q q' i hq hq' => hst.apart q q' i (hold q i hq) (hold q' i hq')⟩
  · have hnew : ∀ q i, ((initSlot t np).proc q).kstack = some i →
        q = np ∧ i = t.nextstack ∨ q ≠ np ∧ (t.proc q).kstack = some i := by
      intro q i hq
      by_cases hqn : q = np
      · subst hqn
        have hi : some t.nextstack = some i := by simpa [initSlot] using hq
        exact Or.inl ⟨rfl, (Option.some.inj hi).symm⟩
      · rw [initSlot] at hq
        exact Or.inr ⟨hqn, by simpa [Table.set_of_ne hqn] using hq⟩
    constructor
    case fresh =>
      intro q i hq
      show i < t.nextstack + 1
      rcases hnew q i hq with ⟨-, rfl⟩ | ⟨-, hold⟩
      · omega
      · have := hst.fresh q i hold
        omega
    case apart =>
      intro q q' i hq hq'
      rcases hnew q i hq with ⟨hqn, hi⟩ | ⟨hqn, hold⟩ <;>
        rcases hnew q' i hq' with ⟨hqn', hi'⟩ | ⟨hqn', hold'⟩
      · exact hqn.trans hqn'.symm
      · exact absurd (hst.fresh q' i hold') (by omega)
      · exact absurd (hst.fresh q i hold) (by omega)
      · exact hst.apart q q' i hold hold'

theorem goto_stacks (hst : Stacks t) : Stacks (t.goto p k) where
  fresh q i hq := hst.fresh q i (goto_kstack.symm.trans hq)
  apart q q' i hq hq' := hst.apart q q' i (goto_kstack.symm.trans hq) (goto_kstack.symm.trans hq')

theorem boot_stacks (h : Boot s) : Stacks s.table := by
  have hinit : ∀ q i, (s.table.proc q).kstack = some i → q = initproc ∧ i = 0 := by
    intro q i hq
    by_cases hqi : q = initproc
    · rw [hqi, h.init] at hq
      exact ⟨hqi, (Option.some.inj hq).symm⟩
    · rw [h.unused q hqi] at hq
      exact absurd hq (by simp)
  refine ⟨fun q i hq => ?_, fun q q' i hq hq' => ?_⟩
  · rw [h.nextstack, (hinit q i hq).2]
    omega
  · exact (hinit q i hq).1.trans (hinit q' i hq').1.symm

theorem Stacks.step [DecidableEq C] (hinv : Running s) (hst : Stacks s.table)
    (hstep : CpuStep s c a s') : Stacks s'.table := by
  rcases hinv.split hstep with halike | ⟨p, i, pick, t, n, -, htakes, ht⟩
  · exact hst.alike halike
  · rw [ht]
    exact goto_stacks (hst.body htakes.body)

end Kthreads
end CS444
