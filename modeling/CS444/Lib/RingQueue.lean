/-
A queue in a ring of cells.

Two counters say how many items were ever put in and taken out, modulo `m`; an
item's cell is its number modulo `cap`.  `Queued` says which items the ring
holds.  As long as `cap` divides `m`, and is smaller, the counters tell an empty
ring from a full one, and `push` and `pop` act on the list of items.
-/
import Mathlib.Logic.Function.Basic
import Mathlib.Data.Nat.ModEq

namespace CS444
namespace RingQueue

variable {α : Type*} {data : Nat → α} {cap m rd wr n : Nat} {items rest : List α} {c : α}

/-- The `n` items from number `start` on. -/
def window (data : Nat → α) (cap start n : Nat) : List α :=
  (List.range n).map fun j => data ((start + j) % cap)

@[simp] theorem length_window (start : Nat) : (window data cap start n).length = n := by
  simp [window]

theorem window_succ (start : Nat) :
    window data cap start (n + 1) = data (start % cap) :: window data cap (start + 1) n := by
  rw [window, window, List.range_succ_eq_map, List.map_cons, List.map_map, Nat.add_zero]
  refine congrArg _ (List.map_congr_left fun j _ => ?_)
  show data ((start + (j + 1)) % cap) = data ((start + 1 + j) % cap)
  rw [Nat.add_comm j 1, ← Nat.add_assoc]

/-- A cell behind the window is free to take the next item. -/
theorem window_push (start : Nat) (hn : n < cap) :
    window (Function.update data ((start + n) % cap) c) cap start (n + 1) =
      window data cap start n ++ [c] := by
  rw [window, List.range_succ, List.map_append, List.map_singleton, Function.update_self]
  refine congrArg (· ++ [c]) (List.map_congr_left fun j hj => ?_)
  rw [List.mem_range] at hj
  refine Function.update_of_ne (fun heq => ?_) ..
  have hmod : j ≡ n [MOD cap] := Nat.ModEq.add_left_cancel' start heq
  have := Nat.ModEq.eq_of_lt_of_lt hmod (by omega) hn
  omega

theorem window_mod (start : Nat) (hm : cap ∣ m) :
    window data cap (start % m) n = window data cap start n := by
  refine List.map_congr_left fun j _ => ?_
  rw [Nat.add_mod, Nat.mod_mod_of_dvd start hm, ← Nat.add_mod]

/-- The ring holds `items`: number `rd` is the next to be taken out and number
`wr` the next to be put in. -/
structure Queued (data : Nat → α) (cap m rd wr : Nat) (items : List α) : Prop where
  fits : items.length ≤ cap
  rd_lt : rd < m
  wr_eq : wr = (rd + items.length) % m
  items_eq : items = window data cap rd items.length

namespace Queued

theorem empty (hm : 0 < m) : Queued data cap m 0 0 [] :=
  ⟨Nat.zero_le _, hm, (Nat.zero_mod m).symm, rfl⟩

theorem eq_nil_iff (hq : Queued data cap m rd wr items) (hlt : cap < m) :
    rd = wr ↔ items = [] := by
  obtain ⟨hfits, hrd, rfl, -⟩ := hq
  rw [← List.length_eq_zero_iff]
  constructor
  · intro heq
    by_cases hwrap : rd + items.length < m
    · rw [Nat.mod_eq_of_lt hwrap] at heq
      omega
    · rw [Nat.mod_eq_sub_mod (by omega), Nat.mod_eq_of_lt (by omega)] at heq
      omega
  · intro hlen
    rw [hlen, Nat.add_zero, Nat.mod_eq_of_lt hrd]

theorem full_iff (hq : Queued data cap m rd wr items) (hlt : cap < m) :
    wr = (rd + cap) % m ↔ items.length = cap := by
  obtain ⟨hfits, hrd, rfl, -⟩ := hq
  constructor
  · intro heq
    have hmod : items.length ≡ cap [MOD m] := Nat.ModEq.add_left_cancel' rd heq
    exact Nat.ModEq.eq_of_lt_of_lt hmod (by omega) hlt
  · intro hlen
    rw [hlen]

theorem push (hq : Queued data cap m rd wr items) (hm : cap ∣ m) (hroom : items.length < cap) :
    Queued (Function.update data (wr % cap) c) cap m rd ((wr + 1) % m) (items ++ [c]) := by
  obtain ⟨hfits, hrd, rfl, hitems⟩ := hq
  refine ⟨?_, hrd, ?_, ?_⟩
  · rw [List.length_append, List.length_singleton]
    omega
  · rw [List.length_append, List.length_singleton, Nat.mod_add_mod, Nat.add_assoc]
  · rw [List.length_append, List.length_singleton, Nat.mod_mod_of_dvd _ hm,
      window_push rd hroom, ← hitems]

theorem pop (hq : Queued data cap m rd wr (c :: rest)) (hm : cap ∣ m) :
    data (rd % cap) = c ∧ Queued data cap m ((rd + 1) % m) wr rest := by
  obtain ⟨hfits, hrd, rfl, hitems⟩ := hq
  rw [List.length_cons, window_succ] at hitems
  obtain ⟨hhead, htail⟩ := List.cons.inj hitems
  rw [List.length_cons] at hfits
  refine ⟨hhead.symm, by omega, Nat.mod_lt _ (by omega), ?_, ?_⟩
  · rw [Nat.mod_add_mod, List.length_cons]
    congr 1
    omega
  · rw [window_mod _ hm]
    exact htail

/-- The item that was put in last is taken back. -/
theorem unpush (hq : Queued data cap m rd wr (items ++ [c])) (hm : cap ∣ m) :
    data ((wr + (m - 1)) % m % cap) = c ∧
      Queued data cap m rd ((wr + (m - 1)) % m) items := by
  obtain ⟨hfits, hrd, rfl, hitems⟩ := hq
  rw [List.length_append, List.length_singleton] at hfits hitems ⊢
  have hlast : (rd + (items.length + 1)) % m + (m - 1) ≡ rd + items.length [MOD m] := by
    have hsum : rd + (items.length + 1) + (m - 1) = rd + items.length + m := by omega
    rw [Nat.ModEq, Nat.mod_add_mod, hsum, Nat.add_mod_right]
  rw [hlast, Nat.mod_mod_of_dvd _ hm]
  rw [window, List.range_succ, List.map_append, List.map_singleton] at hitems
  obtain ⟨hitems, hc⟩ := List.append_inj' hitems rfl
  exact ⟨(List.singleton_inj.1 hc).symm, by omega, hrd, rfl, hitems⟩

/-- The items up to a mark between the counters. -/
theorem front (hq : Queued data cap m rd wr (items ++ rest)) :
    Queued data cap m rd ((rd + items.length) % m) items := by
  obtain ⟨hfits, hrd, -, hitems⟩ := hq
  rw [List.length_append] at hfits hitems
  refine ⟨by omega, hrd, rfl, ?_⟩
  rw [window, List.range_add, List.map_append] at hitems
  exact (List.append_inj hitems (by simp)).1

theorem mark_iff (hq : Queued data cap m rd wr (items ++ rest)) (hlt : cap < m) :
    wr = (rd + items.length) % m ↔ rest = [] := by
  obtain ⟨hfits, hrd, rfl, -⟩ := hq
  rw [List.length_append] at hfits ⊢
  rw [← List.length_eq_zero_iff]
  constructor
  · intro heq
    have hmod : items.length + rest.length ≡ items.length [MOD m] :=
      Nat.ModEq.add_left_cancel' rd heq
    have := Nat.ModEq.eq_of_lt_of_lt hmod (by omega) (by omega)
    omega
  · intro hlen
    rw [hlen, Nat.add_zero]

/-- How many items there are behind a mark. -/
theorem length_behind (hq : Queued data cap m rd wr (items ++ rest)) (hlt : cap < m) :
    (wr + m - (rd + items.length) % m) % m = rest.length := by
  obtain ⟨hfits, hrd, rfl, -⟩ := hq
  rw [List.length_append, ← Nat.add_assoc, Nat.add_mod (rd + items.length)] at *
  generalize hmark : (rd + items.length) % m = mark
  have hlt' : mark < m := hmark ▸ Nat.mod_lt _ (by omega)
  rw [Nat.mod_eq_of_lt (by omega : rest.length < m)]
  by_cases hwrap : mark + rest.length < m
  · rw [Nat.mod_eq_of_lt hwrap, show mark + rest.length + m - mark = rest.length + m by omega,
      Nat.add_mod_right, Nat.mod_eq_of_lt (by omega)]
  · have hinner : (mark + rest.length) % m = mark + rest.length - m := by
      rw [Nat.mod_eq_sub_mod (by omega), Nat.mod_eq_of_lt (by omega)]
    rw [hinner, show mark + rest.length - m + m - mark = rest.length by omega,
      Nat.mod_eq_of_lt (by omega)]

theorem length_eq (hq : Queued data cap m rd wr items) (hlt : cap < m) :
    (wr + m - rd) % m = items.length := by
  have hnil : Queued data cap m rd wr ([] ++ items) := hq
  have hlen := hnil.length_behind hlt
  rwa [List.length_nil, Nat.add_zero, Nat.mod_eq_of_lt hq.rd_lt] at hlen

end Queued
end RingQueue
end CS444
