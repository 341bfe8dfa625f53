/-
A redo log.

A list of targets says where the blocks in a row of slots belong.  `redo` is the store
with all of them where they belong.  Writing a target makes no difference to
it, `redo_update`, and once every slot has been copied the store is what `redo` says,
`redo_done`: whoever copies them may stop at any point and begin again.
-/
import Mathlib.Logic.Function.Basic
import Mathlib.Data.List.Nodup

namespace CS444
namespace RedoLog

variable {β : Type*} {slot : Nat → Nat} {targets : List Nat} {d d' : Nat → β} {b i : Nat}
  {v : β}

/-- The store `d` with every slot copied to its target. -/
def redo (slot : Nat → Nat) (targets : List Nat) (d : Nat → β) : Nat → β :=
  fun b => if b ∈ targets then d (slot (targets.idxOf b)) else d b

/-- No slot in use is a target. -/
def Apart (slot : Nat → Nat) (targets : List Nat) : Prop :=
  ∀ i < targets.length, slot i ∉ targets

theorem redo_nil : redo slot [] d = d := by
  funext b
  exact if_neg List.not_mem_nil

theorem redo_of_notMem (h : b ∉ targets) : redo slot targets d b = d b := if_neg h

theorem redo_getElem (hnodup : targets.Nodup) (hi : i < targets.length) :
    redo slot targets d targets[i] = d (slot i) := by
  rw [redo, if_pos (List.getElem_mem hi), hnodup.idxOf_getElem i hi]

/-- Stores that agree on the slots, and on the rest, are redone alike. -/
theorem redo_congr (hslots : ∀ i, i < targets.length → d' (slot i) = d (slot i))
    (hrest : b ∉ targets → d' b = d b) : redo slot targets d' b = redo slot targets d b := by
  unfold redo
  by_cases hb : b ∈ targets
  · rw [if_pos hb, if_pos hb]
    exact hslots _ (List.idxOf_lt_length_of_mem hb)
  · rw [if_neg hb, if_neg hb]
    exact hrest hb

/-- A target may be written. -/
theorem redo_update (happart : Apart slot targets) (hb : b ∈ targets) :
    redo slot targets (Function.update d b v) = redo slot targets d := by
  funext c
  refine redo_congr (fun i hi => ?_) fun hc => ?_
  · rw [Function.update_of_ne]
    exact fun heq => happart i hi (heq ▸ hb)
  · rw [Function.update_of_ne]
    exact fun heq => hc (heq ▸ hb)

/-- The store is redone when every target holds what its slot does. -/
theorem redo_done (hnodup : targets.Nodup)
    (h : ∀ i (hi : i < targets.length), d targets[i] = d (slot i)) :
    redo slot targets d = d := by
  funext b
  by_cases hb : b ∈ targets
  · obtain ⟨i, hi, rfl⟩ := List.mem_iff_getElem.mp hb
    rw [redo_getElem hnodup hi, h i hi]
  · exact redo_of_notMem hb

/-- Targets that were copied stay copied. -/
theorem copied_next (hnodup : targets.Nodup) (happart : Apart slot targets) {n : Nat}
    (hn : n < targets.length) (h : ∀ i (hi : i < targets.length), i < n →
      d targets[i] = d (slot i)) (i : Nat) (hi : i < targets.length) (hin : i < n + 1) :
    Function.update d targets[n] (d (slot n)) targets[i] =
      Function.update d targets[n] (d (slot n)) (slot i) := by
  have hslot : slot i ≠ targets[n] := fun heq => happart i hi (heq ▸ List.getElem_mem hn)
  rw [Function.update_of_ne hslot]
  by_cases heq : i = n
  · subst heq
    rw [Function.update_self]
  · have hne : targets[i] ≠ targets[n] := fun h => heq (hnodup.getElem_inj_iff.mp h)
    rw [Function.update_of_ne hne]
    exact h i hi (by omega)

end RedoLog
end CS444
