/-
Selection by running total.

A list of weighted entries is walked from the front, the weights are added up,
and the first entry at which the running total exceeds a number `r` is taken.
An entry of weight `w` then owns the `w` numbers between the total before it
and the total after it, and an entry of weight zero owns none.

`pick` is the walk, `pick_append_eq_some_iff` is the interval an entry owns, and
`card_draws` counts the numbers of `1 .. total` in that interval.
-/
import CS444.Lib.Numerals
import Mathlib.Algebra.BigOperators.Group.List.Basic
import Mathlib.Data.List.Nodup
import Mathlib.Order.Interval.Finset.Nat

namespace CS444
namespace Tickets

variable {α : Type*} (w : α → Nat)

/-- Total weight of a list. -/
def total (l : List α) : Nat := (l.map w).sum

/-- The first entry at which the running total, started at `acc`, exceeds `r`. -/
def pick (r : Nat) : Nat → List α → Option α
  | _, [] => none
  | acc, a :: l => if r < acc + w a then some a else pick r (acc + w a) l

@[simp] theorem total_nil : total w [] = 0 := rfl

@[simp] theorem total_cons (a : α) (l : List α) : total w (a :: l) = w a + total w l := by
  simp [total]

@[simp] theorem total_append (l m : List α) : total w (l ++ m) = total w l + total w m := by
  simp [total]

variable {w}

theorem weight_le_total {a : α} {l : List α} (h : a ∈ l) : w a ≤ total w l := by
  induction l with
  | nil => simp at h
  | cons b rest ih =>
      rw [total_cons]
      rcases List.mem_cons.mp h with rfl | h
      · omega
      · have := ih h
        omega

/-- A prefix that stays at or below `r` is passed over. -/
theorem pick_append_of_le {r acc : Nat} {pre : List α} (l : List α)
    (h : acc + total w pre ≤ r) :
    pick w r acc (pre ++ l) = pick w r (acc + total w pre) l := by
  induction pre generalizing acc with
  | nil => simp
  | cons a rest ih =>
      rw [total_cons] at h
      have hskip : ¬ r < acc + w a := by omega
      rw [List.cons_append, pick, if_neg hskip, ih (by omega), total_cons, Nat.add_assoc]

theorem pick_eq_none_of_le {r acc : Nat} {l : List α} (h : acc + total w l ≤ r) :
    pick w r acc l = none := by
  have hpass := pick_append_of_le (w := w) [] h
  rw [List.append_nil] at hpass
  rw [hpass, pick]

theorem mem_of_pick {r acc : Nat} {l : List α} {a : α} (h : pick w r acc l = some a) :
    a ∈ l := by
  induction l generalizing acc with
  | nil => simp [pick] at h
  | cons b rest ih =>
      rw [pick] at h
      split at h
      · cases h
        exact List.mem_cons_self
      · exact List.mem_cons_of_mem b (ih h)

/-- A number below the running total of a prefix is won inside that prefix. -/
theorem mem_of_pick_append {r acc : Nat} {pre l : List α} {a : α}
    (hlt : r < acc + total w pre) (hacc : acc ≤ r)
    (h : pick w r acc (pre ++ l) = some a) : a ∈ pre := by
  induction pre generalizing acc with
  | nil =>
      rw [total_nil] at hlt
      omega
  | cons b rest ih =>
      rw [List.cons_append, pick] at h
      split at h
      · cases h
        exact List.mem_cons_self
      · rename_i hge
        rw [total_cons] at hlt
        exact List.mem_cons_of_mem b (ih (by omega) (by omega) h)

/-- The numbers an entry owns: from the total before it up to, and without, the
total after it. -/
theorem pick_append_eq_some_iff {r : Nat} {pre post : List α} {a : α}
    (hnd : (pre ++ a :: post).Nodup) :
    pick w r 0 (pre ++ a :: post) = some a ↔
      total w pre ≤ r ∧ r < total w pre + w a := by
  constructor
  · intro h
    have hle : total w pre ≤ r := by
      by_contra hlt
      have hmem := mem_of_pick_append (by omega) (Nat.zero_le r) h
      exact (List.nodup_append.mp hnd).2.2 a hmem a List.mem_cons_self rfl
    refine ⟨hle, ?_⟩
    rw [pick_append_of_le _ (by omega), Nat.zero_add, pick] at h
    by_contra hge
    rw [if_neg hge] at h
    have hpost := mem_of_pick h
    exact (List.nodup_cons.mp (List.nodup_append.mp hnd).2.1).1 hpost
  · rintro ⟨hle, hlt⟩
    rw [pick_append_of_le _ (by omega), Nat.zero_add, pick, if_pos hlt]

/-- Of the numbers `1 .. total`, the first entry with weight owns one fewer than
its weight and every later entry owns exactly its weight. -/
theorem card_draws [DecidableEq α] {pre post : List α} {a : α}
    (hnd : (pre ++ a :: post).Nodup) (hw : 0 < w a) :
    ((Finset.Icc 1 (total w (pre ++ a :: post))).filter
        (fun r => pick w r 0 (pre ++ a :: post) = some a)).card =
      if total w pre = 0 then w a - 1 else w a := by
  have hset : (Finset.Icc 1 (total w (pre ++ a :: post))).filter
      (fun r => pick w r 0 (pre ++ a :: post) = some a) =
      Finset.Ico (max 1 (total w pre)) (total w pre + w a) := by
    ext r
    simp only [Finset.mem_filter, Finset.mem_Icc, Finset.mem_Ico,
      pick_append_eq_some_iff hnd, total_append, total_cons]
    omega
  rw [hset, Nat.card_Ico]
  split <;> omega

end Tickets
end CS444
