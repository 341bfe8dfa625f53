/-
A crew that works off tasks.

Every task has a part of a store to itself and is a loop over that part.  A
worker that has nothing to do may take a task nobody has had yet, run its loop,
and be free again.  `Sound` is what holds however the workers interleave: a
task is untouched, in the hands of one worker and as far as that worker's loop
has come, or finished, and finished once.  The rule for the loop is the usual
one: `inv` holds where the loop starts, its body keeps it, and where the body
ends it gives `post`.
-/
import Mathlib.Data.List.Basic
import Mathlib.Logic.Function.Basic

namespace CS444
namespace Crews

variable {κ ι β γ : Type*}

/-- A loop over the part `β` of a task with variables `γ`; the body returns
nothing when the loop is over. -/
structure Loop (ι β γ : Type*) where
  start : γ
  body : ι → γ → β → Option (γ × β)

/-- The store, the task of each worker and the tasks given out so far. -/
structure Crew (κ ι β γ : Type*) where
  store : ι → β
  task : κ → Option (ι × γ)
  given : ι → Prop

section Moves

variable [DecidableEq κ] [DecidableEq ι]

/-- One step of the crew; the label is the task it finishes. -/
inductive Move (loop : Loop ι β γ) (s s' : Crew κ ι β γ) : Option ι → Prop
  | idle (hstore : s'.store = s.store) (htask : s'.task = s.task)
      (hgiven : ∀ j, s'.given j ↔ s.given j) : Move loop s s' none
  | take (k : κ) (i : ι) (hfree : s.task k = none) (hnew : ¬s.given i)
      (hstore : s'.store = s.store)
      (htask : s'.task = Function.update s.task k (some (i, loop.start)))
      (hgiven : ∀ j, s'.given j ↔ s.given j ∨ j = i) : Move loop s s' none
  | work (k : κ) (i : ι) (c c' : γ) (b : β) (hbusy : s.task k = some (i, c))
      (hbody : loop.body i c (s.store i) = some (c', b))
      (hstore : s'.store = Function.update s.store i b)
      (htask : s'.task = Function.update s.task k (some (i, c')))
      (hgiven : ∀ j, s'.given j ↔ s.given j) : Move loop s s' none
  | finish (k : κ) (i : ι) (c : γ) (hbusy : s.task k = some (i, c))
      (hbody : loop.body i c (s.store i) = none)
      (hstore : s'.store = s.store)
      (htask : s'.task = Function.update s.task k none)
      (hgiven : ∀ j, s'.given j ↔ s.given j) : Move loop s s' (some i)

/-- `inv` is an invariant of every task's loop, begun on the part `init`. -/
structure Rule (loop : Loop ι β γ) (init : ι → β) (inv : ι → γ → β → Prop)
    (post : ι → β → Prop) : Prop where
  start : ∀ i, inv i loop.start (init i)
  body : ∀ i c b c' b', inv i c b → loop.body i c b = some (c', b') → inv i c' b'
  post : ∀ i c b, inv i c b → loop.body i c b = none → post i b

/-- Nobody has task `i`. -/
def Left (s : Crew κ ι β γ) (i : ι) : Prop := ∀ k c, s.task k ≠ some (i, c)

/-- Where task `i` is, `n` being how often it was finished. -/
inductive At (init : ι → β) (inv : ι → γ → β → Prop) (post : ι → β → Prop) (n : Nat)
    (s : Crew κ ι β γ) (i : ι) : Prop
  | untouched (hgiven : ¬s.given i) (hstore : s.store i = init i) (hleft : Left s i) (hn : n = 0)
  | running (k : κ) (c : γ) (hgiven : s.given i) (hbusy : s.task k = some (i, c))
      (honly : ∀ k' c', s.task k' = some (i, c') → k' = k) (hinv : inv i c (s.store i))
      (hn : n = 0)
  | finished (hgiven : s.given i) (hpost : post i (s.store i)) (hleft : Left s i) (hn : n = 1)

/-- Every task is somewhere, and was finished as often as the trace says. -/
def Sound (init : ι → β) (inv : ι → γ → β → Prop) (post : ι → β → Prop)
    (tr : List (Option ι)) (s : Crew κ ι β γ) : Prop :=
  ∀ i, At init inv post (tr.count (some i)) s i

variable {loop : Loop ι β γ} {init : ι → β} {inv : ι → γ → β → Prop} {post : ι → β → Prop}
  {s s' : Crew κ ι β γ} {n : Nat} {i : ι} {tr : List (Option ι)} {l : Option ι}

omit [DecidableEq κ] [DecidableEq ι] in
/-- A task that the step does not touch. -/
theorem At.untouched_by (h : At init inv post n s i) (hstore : s'.store i = s.store i)
    (htask : ∀ k c, s'.task k = some (i, c) ↔ s.task k = some (i, c))
    (hgiven : s'.given i ↔ s.given i) : At init inv post n s' i := by
  have hleft : Left s i → Left s' i := fun hl k c hk => hl k c ((htask k c).mp hk)
  cases h with
  | untouched hnew hinit hl hn =>
      exact .untouched (fun hg => hnew (hgiven.mp hg)) (hstore.trans hinit) (hleft hl) hn
  | running k c hg hbusy honly hinv hn =>
      refine .running k c (hgiven.mpr hg) ((htask k c).mpr hbusy) ?_ (hstore.symm ▸ hinv) hn
      exact fun k' c' hk' => honly k' c' ((htask k' c').mp hk')
  | finished hg hpost hl hn =>
      exact .finished (hgiven.mpr hg) (hstore.symm ▸ hpost) (hleft hl) hn

omit [DecidableEq ι] in
/-- Who moves touches only the task it has and the task it gets. -/
theorem task_update_iff {k : κ} {t : Option (ι × γ)} (hold : ∀ c, s.task k ≠ some (i, c))
    (hnew : ∀ c, t ≠ some (i, c)) (k' : κ) (c : γ) :
    Function.update s.task k t k' = some (i, c) ↔ s.task k' = some (i, c) := by
  by_cases hk : k' = k
  · subst hk
    rw [Function.update_self]
    exact iff_of_false (hnew c) (hold c)
  · rw [Function.update_of_ne hk]

omit [DecidableEq κ] [DecidableEq ι] in
/-- A task in somebody's hands runs. -/
theorem At.of_busy (h : At init inv post n s i) {k : κ} {c : γ} (hk : s.task k = some (i, c)) :
    s.given i ∧ inv i c (s.store i) ∧ (∀ k' c', s.task k' = some (i, c') → k' = k) ∧ n = 0 := by
  cases h with
  | untouched _ _ hl _ => exact absurd hk (hl k c)
  | running k₀ c₀ hg hbusy honly hinv hn =>
      obtain rfl : k = k₀ := honly k c hk
      obtain rfl : c = c₀ := (Prod.mk.inj (Option.some.inj (hk.symm.trans hbusy))).2
      exact ⟨hg, hinv, honly, hn⟩
  | finished _ _ hl _ => exact absurd hk (hl k c)

theorem Sound.move (hrule : Rule loop init inv post) (h : Sound init inv post tr s)
    (hmove : Move loop s s' l) : Sound init inv post (l :: tr) s' := by
  intro j
  have hj := h j
  cases hmove with
  | idle hstore htask hgiven =>
      rw [List.count_cons_of_ne (by simp)]
      exact hj.untouched_by (congrFun hstore j) (fun k c => by rw [htask]) (hgiven j)
  | take k i hfree hnew hstore htask hgiven =>
      rw [List.count_cons_of_ne (by simp)]
      by_cases hji : j = i
      · subst hji
        cases hj with
        | untouched _ hinit hleft hn =>
            refine .running k loop.start ((hgiven j).mpr (Or.inr rfl)) ?_ ?_ ?_ hn
            · rw [htask, Function.update_self]
            · intro k' c' hk'
              by_contra hne
              rw [htask, Function.update_of_ne hne] at hk'
              exact hleft k' c' hk'
            · rw [hstore, hinit]
              exact hrule.start j
        | running _ _ hg => exact absurd hg hnew
        | finished hg => exact absurd hg hnew
      · refine hj.untouched_by (congrFun hstore j) ?_ ?_
        · rw [htask]
          apply task_update_iff
          · intro c
            rw [hfree]
            simp
          · intro c heq
            exact hji (Prod.mk.inj (Option.some.inj heq)).1.symm
        · rw [hgiven]
          exact or_iff_left hji
  | work k i c c' b hbusy hbody hstore htask hgiven =>
      rw [List.count_cons_of_ne (by simp)]
      by_cases hji : j = i
      · subst hji
        obtain ⟨hg, hinv, honly, hn⟩ := hj.of_busy hbusy
        refine .running k c' ((hgiven j).mpr hg) ?_ ?_ ?_ hn
        · rw [htask, Function.update_self]
        · intro k' c'' hk'
          by_contra hne
          rw [htask, Function.update_of_ne hne] at hk'
          exact hne (honly k' c'' hk')
        · rw [hstore, Function.update_self]
          exact hrule.body j c (s.store j) c' b hinv hbody
      · refine hj.untouched_by ?_ ?_ (hgiven j)
        · rw [hstore, Function.update_of_ne hji]
        · rw [htask]
          apply task_update_iff
          · intro c₀ heq
            exact hji (Prod.mk.inj (Option.some.inj (heq.symm.trans hbusy))).1
          · intro c₀ heq
            exact hji (Prod.mk.inj (Option.some.inj heq)).1.symm
  | finish k i c hbusy hbody hstore htask hgiven =>
      by_cases hji : j = i
      · subst hji
        obtain ⟨hg, hinv, honly, hn⟩ := hj.of_busy hbusy
        refine .finished ((hgiven j).mpr hg) ?_ ?_ ?_
        · rw [hstore]
          exact hrule.post j c _ hinv hbody
        · intro k' c' hk'
          by_cases hk : k' = k
          · subst hk
            rw [htask, Function.update_self] at hk'
            exact absurd hk' (by simp)
          · rw [htask, Function.update_of_ne hk] at hk'
            exact hk (honly k' c' hk')
        · rw [List.count_cons_self, hn]
      · rw [List.count_cons_of_ne (by simpa using Ne.symm hji)]
        refine hj.untouched_by (congrFun hstore j) ?_ (hgiven j)
        rw [htask]
        apply task_update_iff
        · intro c₀ heq
          exact hji (Prod.mk.inj (Option.some.inj (heq.symm.trans hbusy))).1
        · simp

omit [DecidableEq κ] in
/-- When everybody is free, what was given out is finished, once, and the rest is
as it was. -/
theorem Sound.all_free (h : Sound init inv post tr s) (hfree : ∀ k, s.task k = none) (i : ι) :
    (s.given i → post i (s.store i) ∧ tr.count (some i) = 1) ∧
      (¬s.given i → s.store i = init i) := by
  have hi := h i
  cases hi with
  | untouched hnew hinit _ _ => exact ⟨fun hg => absurd hg hnew, fun _ => hinit⟩
  | running k c _ hbusy => exact absurd hbusy (by simp [hfree k])
  | finished hg hpost _ hn => exact ⟨fun _ => ⟨hpost, hn⟩, fun hnew => absurd hg hnew⟩

end Moves

end Crews
end CS444
