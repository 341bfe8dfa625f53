/-
Runs of a labelled transition system.

A run is a sequence of steps from an initial state.  `Run sys ok tr s` carries
the labels taken so far, latest first, and a condition `ok` that every step of
the run meets; `ok` sees the state before the step and the label, so it can
say "no call of this kind is made now" but nothing about what the step
computes.  An invariant of a run is proved once, one step at a time, by
`Run.invariant`; `Run.mono` weakens the condition.
-/
import CS444.Lib.Numerals
import Mathlib.Data.List.Basic
import Mathlib.Data.List.ReduceOption

namespace CS444
namespace Runs

variable {σ ι : Type*}

/-- Initial states and labelled steps. -/
structure System (σ ι : Type*) where
  init : σ → Prop
  step : σ → ι → σ → Prop

/-- The runs of `sys` whose steps all meet `ok`. -/
inductive Run (sys : System σ ι) (ok : σ → ι → Prop) : List ι → σ → Prop
  | init {s : σ} : sys.init s → Run sys ok [] s
  | step {s s' : σ} {l : ι} {tr : List ι} :
      Run sys ok tr s → sys.step s l s' → ok s l → Run sys ok (l :: tr) s'

/-- The condition every step meets. -/
def anyStep : σ → ι → Prop := fun _ _ => True

variable {sys : System σ ι} {ok ok' : σ → ι → Prop} {tr : List ι} {s : σ}

/-- A property of states that holds at first and is kept by every step that
meets the condition holds all along the run. -/
theorem Run.invariant {inv : σ → Prop} (hrun : Run sys ok tr s)
    (hinit : ∀ s, sys.init s → inv s)
    (hstep : ∀ s l s', inv s → sys.step s l s' → ok s l → inv s') : inv s := by
  induction hrun with
  | init h => exact hinit _ h
  | step _ hnext hok ih => exact hstep _ _ _ ih hnext hok

theorem Run.mono (hrun : Run sys ok tr s) (himp : ∀ s l, ok s l → ok' s l) :
    Run sys ok' tr s := by
  induction hrun with
  | init h => exact .init h
  | step _ hnext hok ih => exact .step ih hnext (himp _ _ hok)

/-- A system that can follow every step of another one has its runs. -/
theorem Run.simulate {τ : Type*} {sys' : System τ ι} {okay : τ → ι → Prop} {rel : σ → τ → Prop}
    (hrun : Run sys ok tr s) (hinit : ∀ s, sys.init s → ∃ t, sys'.init t ∧ rel s t)
    (hstep : ∀ s l s' t, rel s t → sys.step s l s' → ok s l →
      ∃ t', sys'.step t l t' ∧ okay t l ∧ rel s' t') :
    ∃ t, Run sys' okay tr t ∧ rel s t := by
  induction hrun with
  | init h =>
      obtain ⟨t, ht, hrel⟩ := hinit _ h
      exact ⟨t, .init ht, hrel⟩
  | step _ hnext hok ih =>
      obtain ⟨t, hrun', hrel⟩ := ih
      obtain ⟨t', hnext', hok', hrel'⟩ := hstep _ _ _ _ hrel hnext hok
      exact ⟨t', .step hrun' hnext' hok', hrel'⟩

/-- A system that takes a step of its own, or none, for every step of another one.  What
can be heard of the two, `hear` of a label of the one and the labels of the other that
are not silent, is the same. -/
theorem Run.refine {τ o : Type*} {sys' : System τ (Option o)} {hear : ι → Option o}
    {rel : σ → τ → Prop} (hrun : Run sys ok tr s)
    (hinit : ∀ s, sys.init s → ∃ t, sys'.init t ∧ rel s t)
    (hstep : ∀ s l s' t, rel s t → sys.step s l s' → ok s l →
      hear l = none ∧ rel s' t ∨ ∃ t', sys'.step t (hear l) t' ∧ rel s' t') :
    ∃ tr' t, Run sys' anyStep tr' t ∧ tr'.reduceOption = tr.filterMap hear ∧ rel s t := by
  induction hrun with
  | init h =>
      obtain ⟨t, ht, hrel⟩ := hinit _ h
      exact ⟨[], t, .init ht, rfl, hrel⟩
  | step _ hnext hok ih =>
      rename_i l _ _
      obtain ⟨tr', t, hrun', heard, hrel⟩ := ih
      obtain ⟨hsilent, hrel'⟩ | ⟨t', hnext', hrel'⟩ := hstep _ _ _ _ hrel hnext hok
      · refine ⟨tr', t, hrun', ?_, hrel'⟩
        rw [List.filterMap_cons_none hsilent, heard]
      · refine ⟨hear l :: tr', t', .step hrun' hnext' trivial, ?_, hrel'⟩
        cases hl : hear l with
        | none => rw [List.filterMap_cons_none hl, List.reduceOption_cons_of_none, heard]
        | some x => rw [List.filterMap_cons_some hl, List.reduceOption_cons_of_some, heard]

/-- The steps of a partial function, taken one after the other, are a run. -/
theorem Run.of_foldlM {next : σ → ι → Option σ} (hinit : sys.init s)
    (hnext : ∀ s l s', next s l = some s' → sys.step s l s' ∧ ok s l) {s' : σ}
    (htr : tr.foldlM next s = some s') : Run sys ok tr.reverse s' := by
  suffices hfrom : ∀ tr₀ s, Run sys ok tr₀ s → tr.foldlM next s = some s' →
      Run sys ok (tr.reverse ++ tr₀) s' by
    simpa using hfrom [] s (.init hinit) htr
  clear htr
  induction tr with
  | nil =>
      intro tr₀ s hrun htr
      obtain rfl := Option.some.inj htr
      exact hrun
  | cons l tr ih =>
      intro tr₀ s hrun htr
      rw [List.foldlM_cons] at htr
      obtain ⟨s₁, hstep, hrest⟩ := Option.bind_eq_some_iff.mp htr
      obtain ⟨hstep, hok⟩ := hnext s l s₁ hstep
      rw [List.reverse_cons, List.append_assoc]
      exact ih _ s₁ (.step hrun hstep hok) hrest

/-- One step of a partial function, where the condition allows it. -/
def guarded (ok : σ → ι → Prop) [∀ s l, Decidable (ok s l)] (next : σ → ι → Option σ) (s : σ)
    (l : ι) : Option σ :=
  if ok s l then next s l else none

/-- The steps of a partial function, each checked against the condition, are a run
that meets it. -/
theorem Run.of_guarded [∀ s l, Decidable (ok s l)] {next : σ → ι → Option σ}
    (hinit : sys.init s) (hnext : ∀ s l s', next s l = some s' → sys.step s l s') {s' : σ}
    (htr : tr.foldlM (guarded ok next) s = some s') : Run sys ok tr.reverse s' := by
  refine Run.of_foldlM hinit (fun s l s' h => ?_) htr
  unfold guarded at h
  by_cases hok : ok s l
  · rw [if_pos hok] at h
    exact ⟨hnext s l s' h, hok⟩
  · rw [if_neg hok] at h
    exact absurd h (by simp)

end Runs
end CS444
