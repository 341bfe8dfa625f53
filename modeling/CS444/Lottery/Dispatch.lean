/-
How many processes one draw switches to.

The selection loop has no `break`: after `swtch` comes back it goes on with the
next slot of the table it now finds and with the count it already had, which is
above `rand_val`.  `oneDispatch_iff` says exactly when the rest of the loop
switches to nobody, for every change of the table made in the meantime, and
`noWinner_iff_none_runnable` is the form the condition takes while nice values
are in range.
-/
import CS444.Lottery.Fairness

namespace CS444
namespace Lottery

/-- Walking `l` from the count `count` switches to nobody: at every RUNNABLE
slot the running count is at most `rand_val`. -/
def NoWinner (ptable : Slot → Proc) (randVal count : UInt32) (l : List Slot) : Prop :=
  ∀ pre q post, l = pre ++ q :: post → (ptable q).state = .runnable →
    sumNice ptable pre count + (ptable q).niceValue ≤ randVal

/-- The count the loop has reached when it decides on slot `p` after `pre`. -/
def countAt (ptable : Slot → Proc) (pre : List Slot) (count : UInt32) (p : Slot) : UInt32 :=
  sumNice ptable pre count + (ptable p).niceValue

theorem noWinner_nil (ptable : Slot → Proc) (randVal count : UInt32) :
    NoWinner ptable randVal count [] := by
  intro pre q post h
  simp at h

theorem noWinner_cons_iff {ptable : Slot → Proc} {randVal count : UInt32} {p : Slot}
    {l : List Slot} :
    NoWinner ptable randVal count (p :: l) ↔
      ((ptable p).state = .runnable → count + (ptable p).niceValue ≤ randVal) ∧
      NoWinner ptable randVal (sumNice ptable [p] count) l := by
  constructor
  · intro h
    refine ⟨fun hrun => h [] p l rfl hrun, fun pre q post hl hrun => ?_⟩
    have hq := h (p :: pre) q post (by rw [hl]; rfl) hrun
    by_cases hp : (ptable p).state = .runnable
    · simpa [sumNice, hp] using hq
    · simpa [sumNice, hp] using hq
  · rintro ⟨hhead, htail⟩ pre q post hl hrun
    cases pre with
    | nil =>
        obtain ⟨rfl, rfl⟩ := List.cons.inj hl
        exact hhead hrun
    | cons a rest =>
        obtain ⟨rfl, hrest⟩ := List.cons.inj hl
        have hq := htail rest q post hrest hrun
        by_cases hp : (ptable p).state = .runnable
        · simpa [sumNice, hp] using hq
        · simpa [sumNice, hp] using hq

/-- A table that agrees on states and nice values has the same winners. -/
theorem noWinner_congr {s t : Slot → Proc} {randVal : UInt32}
    (hstate : ∀ q, (s q).state = (t q).state) (hnice : ∀ q, (s q).niceValue = (t q).niceValue)
    {l : List Slot} : ∀ {count : UInt32},
      NoWinner s randVal count l ↔ NoWinner t randVal count l := by
  induction l with
  | nil => intro count; simp [noWinner_nil]
  | cons p rest ih =>
      intro count
      rw [noWinner_cons_iff, noWinner_cons_iff, hstate, hnice, ih]
      simp only [sumNice, hstate, hnice]

/-- The loop switches to nobody exactly when there is no winner in the slots it
walks. -/
theorem selectLoop_eq_nil_iff {run : Slot → World → World} {randVal : UInt32} {w : World}
    {l : List Slot} : ∀ {count : UInt32},
      (selectLoop run randVal l count w).1 = [] ↔ NoWinner w.ptable randVal count l := by
  induction l with
  | nil => intro count; simp [selectLoop, noWinner_nil]
  | cons p rest ih =>
      intro count
      rw [noWinner_cons_iff]
      by_cases hrun : (w.ptable p).state = .runnable
      · by_cases hpass : count + (w.ptable p).niceValue ≤ randVal
        · rw [selectLoop_pass hrun hpass, ih]
          simp [sumNice, hrun, hpass]
        · rw [selectLoop_take hrun hpass]
          simp [hrun, hpass]
      · rw [selectLoop_skip hrun, ih]
        simp [sumNice, hrun]

/-- What must hold of the slots after the one that won: the table that `swtch`
comes back with holds no further winner for the count already reached. -/
def RestQuiet (run : Slot → World → World) (randVal : UInt32) (w : World) (l : List Slot)
    (count : UInt32) : Prop :=
  ∀ pre p post, l = pre ++ p :: post → NoWinner w.ptable randVal count pre →
    (w.ptable p).state = .runnable → randVal < countAt w.ptable pre count p →
    NoWinner (run p (dispatch p w)).ptable randVal (countAt w.ptable pre count p) post

theorem restQuiet_cons_of_pass {run : Slot → World → World} {randVal count : UInt32} {w : World}
    {p : Slot} {l : List Slot}
    (hpass : (w.ptable p).state = .runnable → count + (w.ptable p).niceValue ≤ randVal) :
    RestQuiet run randVal w (p :: l) count ↔
      RestQuiet run randVal w l (sumNice w.ptable [p] count) := by
  have hcount : ∀ pre q, countAt w.ptable (p :: pre) count q =
      countAt w.ptable pre (sumNice w.ptable [p] count) q := by
    intro pre q
    by_cases hp : (w.ptable p).state = .runnable <;> simp [countAt, sumNice, hp]
  constructor
  · intro h pre q post hl hquiet hrun hlt
    have hpre : NoWinner w.ptable randVal count (p :: pre) :=
      noWinner_cons_iff.mpr ⟨hpass, hquiet⟩
    have := h (p :: pre) q post (by rw [hl]; rfl) hpre hrun (by rw [hcount]; exact hlt)
    rwa [hcount] at this
  · intro h pre q post hl hquiet hrun hlt
    cases pre with
    | nil =>
        obtain ⟨rfl, rfl⟩ := List.cons.inj hl
        have hle := hpass hrun
        exact absurd hlt (UInt32.not_lt.mpr hle)
    | cons a rest =>
        obtain ⟨rfl, hrest⟩ := List.cons.inj hl
        rw [hcount] at hlt ⊢
        exact h rest q post hrest (noWinner_cons_iff.mp hquiet).2 hrun hlt

theorem selectLoop_length_le_one_iff {run : Slot → World → World} {randVal : UInt32}
    {w : World} {l : List Slot} : ∀ {count : UInt32},
      (selectLoop run randVal l count w).1.length ≤ 1 ↔ RestQuiet run randVal w l count := by
  induction l with
  | nil =>
      intro count
      simp [selectLoop, RestQuiet]
  | cons p rest ih =>
      intro count
      by_cases hrun : (w.ptable p).state = .runnable
      · by_cases hpass : count + (w.ptable p).niceValue ≤ randVal
        · rw [selectLoop_pass hrun hpass, ih, restQuiet_cons_of_pass (fun _ => hpass)]
          simp [sumNice, hrun]
        · -- `p` wins, so the rest of the loop has to stay quiet
          have hlt : randVal < count + (w.ptable p).niceValue := UInt32.not_le.mp hpass
          rw [selectLoop_take hrun hpass, List.length_cons, Nat.succ_le_succ_iff,
            Nat.le_zero, List.length_eq_zero_iff, selectLoop_eq_nil_iff,
            noWinner_congr (resumed_state p · _) (resumed_niceValue p · _)]
          constructor
          · intro hquiet pre q post hl hpre hq hltq
            cases pre with
            | nil =>
                obtain ⟨rfl, rfl⟩ := List.cons.inj hl
                exact hquiet
            | cons a pre =>
                obtain ⟨rfl, -⟩ := List.cons.inj hl
                exact absurd ((noWinner_cons_iff.mp hpre).1 hrun) hpass
          · intro h
            exact h [] p rest rfl (noWinner_nil _ _ _) hrun hlt
      · rw [selectLoop_skip hrun, ih,
          restQuiet_cons_of_pass (fun h => absurd h hrun)]
        simp [sumNice, hrun]

/-- One draw switches to at most one process exactly when, whatever slot wins
it, the table that `swtch` comes back with holds no winner after that slot for
the count already reached. -/
theorem oneDispatch_iff (run : Slot → World → World) (randVal : UInt32) (w : World) :
    (dispatched run randVal w).length ≤ 1 ↔ RestQuiet run randVal w slots 0 :=
  selectLoop_length_le_one_iff

/-- The draw 1 is won by slot 0 and goes on to switch to slot 1 as well. -/
theorem pair_dispatched_twice :
    dispatched undisturbed 1 pairWorld = [⟨0, by decide⟩, ⟨1, by decide⟩] ∧
      ¬ (dispatched undisturbed 1 pairWorld).length ≤ 1 := by
  constructor <;> decide

/-- While the count stays above the draw without wrapping, a slot wins as soon
as it is RUNNABLE: the loop has become a plain sweep of the table. -/
theorem noWinner_iff_none_runnable {ptable : Slot → Proc} {randVal : UInt32}
    {l : List Slot} : ∀ {count : UInt32}, randVal < count →
      count.toNat + Tickets.total (tickets ptable) l < 2 ^ 32 →
      (NoWinner ptable randVal count l ↔ ∀ q ∈ l, (ptable q).state ≠ .runnable) := by
  induction l with
  | nil => intro count _ _; simp [noWinner_nil]
  | cons p rest ih =>
      intro count hlt hsum
      rw [Tickets.total_cons] at hsum
      rw [noWinner_cons_iff, List.forall_mem_cons]
      by_cases hrun : (ptable p).state = .runnable
      · have htick := tickets_of_runnable hrun
        have hadd : (count + (ptable p).niceValue).toNat =
            count.toNat + (ptable p).niceValue.toNat := by
          rw [UInt32.toNat_add]
          exact Nat.mod_eq_of_lt (by omega)
        have hgt : ¬ count + (ptable p).niceValue ≤ randVal := by
          rw [UInt32.le_iff_toNat_le, hadd]
          have := UInt32.lt_iff_toNat_lt.mp hlt
          omega
        simp [hrun, hgt]
      · have hstay : sumNice ptable [p] count = count := by simp [sumNice, hrun]
        rw [hstay, ih hlt (by omega)]
        simp [hrun]

end Lottery
end CS444
