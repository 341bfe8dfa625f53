/-
How many draws of the lottery each process wins.

Without wrap-around the selection loop is the running-total walk of
`CS444.Lib.Tickets`: the first slot it switches to is the first one whose
running total exceeds `rand_val`.  The draw runs over `1 .. T` and the
comparison is strict, so the first RUNNABLE slot owns one draw fewer than its
tickets and the draw `T` belongs to nobody.
-/
import CS444.Lib.Tickets
import CS444.Lottery.Scheduler

namespace CS444
namespace Lottery

open Tickets

/-- The first slot a draw switches to. -/
def firstDispatched (run : Slot → World → World) (randVal : UInt32) (w : World) : Option Slot :=
  (dispatched run randVal w).head?

/-- `T`: the tickets of the RUNNABLE processes, without wrap-around. -/
def totalTickets (w : World) : Nat := total (tickets w.ptable) slots

/-- The draws of `1 .. T` whose first dispatch is `p`. -/
def winningDraws (run : Slot → World → World) (w : World) (p : Slot) : Finset Nat :=
  (Finset.Icc 1 (totalTickets w)).filter
    (fun r => firstDispatched run (UInt32.ofNat r) w = some p)

/-- Every nice value of a RUNNABLE process lies in the range `renice` names. -/
def NiceInRange (w : World) : Prop :=
  ∀ p, (w.ptable p).state = .runnable →
    minNiceValue ≤ (w.ptable p).niceValue ∧ (w.ptable p).niceValue ≤ maxNiceValue

/-- A fair lottery: every RUNNABLE process wins exactly its tickets, every draw
is won, and nobody who is RUNNABLE is without a winning draw. -/
structure Fair (run : Slot → World → World) (w : World) : Prop where
  wins : ∀ p, (w.ptable p).state = .runnable →
    (winningDraws run w p).card = (w.ptable p).niceValue.toNat
  drawn : ∀ r, 1 ≤ r → r ≤ totalTickets w →
    (firstDispatched run (UInt32.ofNat r) w).isSome
  chance : ∀ p, (w.ptable p).state = .runnable → 0 < (winningDraws run w p).card

/-- The selection loop up to its first dispatch is the running-total walk, as
long as the running count cannot wrap. -/
theorem selectLoop_head (run : Slot → World → World) (randVal : UInt32) (w : World) :
    ∀ (ps : List Slot) (count : UInt32),
      count.toNat + total (tickets w.ptable) ps < 2 ^ 32 → count.toNat ≤ randVal.toNat →
      (selectLoop run randVal ps count w).1.head? =
        pick (tickets w.ptable) randVal.toNat count.toNat ps := by
  intro ps
  induction ps with
  | nil => intro count _ _; rfl
  | cons p rest ih =>
      intro count hsum hle
      rw [total_cons] at hsum
      by_cases hrun : (w.ptable p).state = .runnable
      · have htick := tickets_of_runnable hrun
        have hadd : (count + (w.ptable p).niceValue).toNat =
            count.toNat + tickets w.ptable p := by
          rw [UInt32.toNat_add, htick]
          exact Nat.mod_eq_of_lt (by omega)
        by_cases hpass : count + (w.ptable p).niceValue ≤ randVal
        · have hge := UInt32.le_iff_toNat_le.mp hpass
          rw [selectLoop_pass hrun hpass, ih _ (by omega) hge, pick, ← hadd,
            if_neg (Nat.not_lt.mpr hge)]
        · have hlt : randVal.toNat < count.toNat + tickets w.ptable p := by
            rw [← hadd]
            exact Nat.lt_of_not_le (fun h => hpass (UInt32.le_iff_toNat_le.mpr h))
          rw [selectLoop_take hrun hpass, pick, if_pos hlt, List.head?_cons]
      · have hzero := tickets_of_not_runnable hrun
        have hskip : ¬ randVal.toNat < count.toNat + tickets w.ptable p := by omega
        rw [selectLoop_skip hrun, ih count (by omega) hle, pick, if_neg hskip, hzero,
          Nat.add_zero]

/-- Sixty-four slots of at most `MAX_NICE_VALUE` tickets stay far below
`2 ^ 32`. -/
theorem totalTickets_le {w : World} (h : NiceInRange w) : totalTickets w ≤ nproc * 50 := by
  have hslot : ∀ p, tickets w.ptable p ≤ 50 := by
    intro p
    by_cases hrun : (w.ptable p).state = .runnable
    · rw [tickets_of_runnable hrun]
      exact UInt32.le_iff_toNat_le.mp (h p hrun).2
    · rw [tickets_of_not_runnable hrun]
      omega
  have hlist : ∀ l : List Slot, total (tickets w.ptable) l ≤ l.length * 50 := by
    intro l
    induction l with
    | nil => simp
    | cons p rest ih =>
        have := hslot p
        rw [total_cons, List.length_cons]
        omega
  have hlen : slots.length = nproc := List.length_finRange
  rw [← hlen]
  exact hlist slots

/-- A draw of `1 .. T` is decided by the running-total walk. -/
theorem firstDispatched_eq_pick {run : Slot → World → World} {w : World} (h : NiceInRange w)
    {r : Nat} (hr : r ≤ totalTickets w) :
    firstDispatched run (UInt32.ofNat r) w = pick (tickets w.ptable) r 0 slots := by
  have hT := totalTickets_le h
  have hbound : nproc * 50 < 2 ^ 32 := by decide
  have hval : (UInt32.ofNat r).toNat = r := by
    rw [UInt32.toNat_ofNat']
    exact Nat.mod_eq_of_lt (by omega)
  have hzero : (0 : UInt32).toNat = 0 := rfl
  have hhead := selectLoop_head run (UInt32.ofNat r) w slots 0
    (by rw [hzero]; unfold totalTickets at hT; omega) (Nat.zero_le _)
  rw [hval, hzero] at hhead
  exact hhead

/-- The exact law of the lottery: the first RUNNABLE slot wins one draw fewer
than its tickets, every later RUNNABLE slot wins exactly its tickets. -/
theorem card_winningDraws {run : Slot → World → World} {w : World} (h : NiceInRange w)
    {p : Slot} (hrun : (w.ptable p).state = .runnable)
    {pre post : List Slot} (hsplit : slots = pre ++ p :: post) :
    (winningDraws run w p).card =
      if total (tickets w.ptable) pre = 0 then (w.ptable p).niceValue.toNat - 1
      else (w.ptable p).niceValue.toNat := by
  have hpos : 0 < tickets w.ptable p := by
    rw [tickets_of_runnable hrun]
    exact UInt32.le_iff_toNat_le.mp (h p hrun).1
  have hset : winningDraws run w p = (Finset.Icc 1 (totalTickets w)).filter
      (fun r => pick (tickets w.ptable) r 0 slots = some p) := by
    apply Finset.filter_congr
    intro r hr
    rw [firstDispatched_eq_pick h (Finset.mem_Icc.mp hr).2]
  have hnd := slots_nodup
  rw [hsplit] at hnd
  rw [hset, ← tickets_of_runnable hrun]
  unfold totalTickets
  rw [hsplit]
  exact card_draws hnd hpos

/-- The draw `T` switches to nobody. -/
theorem firstDispatched_total {run : Slot → World → World} {w : World} (h : NiceInRange w) :
    firstDispatched run (UInt32.ofNat (totalTickets w)) w = none := by
  rw [firstDispatched_eq_pick h (Nat.le_refl _)]
  exact pick_eq_none_of_le (by unfold totalTickets; omega)

/-- No table with a RUNNABLE process is served fairly: the highest draw is
wasted. -/
theorem lottery_not_fair (run : Slot → World → World) (w : World) (hnice : NiceInRange w)
    (hsome : ∃ p, (w.ptable p).state = .runnable) : ¬ Fair run w := by
  rintro ⟨-, hdrawn, -⟩
  obtain ⟨p, hrun⟩ := hsome
  have hpos : 0 < tickets w.ptable p := by
    rw [tickets_of_runnable hrun]
    exact UInt32.le_iff_toNat_le.mp (hnice p hrun).1
  have hle : tickets w.ptable p ≤ totalTickets w := weight_le_total (mem_slots p)
  have hwon := hdrawn (totalTickets w) (by omega) (Nat.le_refl _)
  rw [firstDispatched_total hnice] at hwon
  simp at hwon

/-- One RUNNABLE process with one ticket. -/
def soloWorld : World :=
  { ptable := fun p => if p.val = 0 then { state := .runnable, niceValue := 1 } else {}
    ticks := 0
    next := 1 }

/-- Two RUNNABLE processes in neighbouring slots, with two tickets and one. -/
def pairWorld : World :=
  { ptable := fun p =>
      if p.val = 0 then { state := .runnable, niceValue := 2 }
      else if p.val = 1 then { state := .runnable, niceValue := 1 }
      else {}
    ticks := 0
    next := 1 }

/-- Nothing changes while the dispatched process runs. -/
def undisturbed (_ : Slot) (w : World) : World := w

theorem soloWorld_niceInRange : NiceInRange soloWorld := by
  intro p h
  by_cases hp : p.val = 0
  · simp [soloWorld, hp, minNiceValue, maxNiceValue]
  · simp [soloWorld, hp] at h

theorem pairWorld_niceInRange : NiceInRange pairWorld := by
  intro p h
  by_cases hp : p.val = 0
  · simp [pairWorld, hp, minNiceValue, maxNiceValue]
  · by_cases hp1 : p.val = 1
    · simp [pairWorld, hp1, minNiceValue, maxNiceValue]
    · simp [pairWorld, hp, hp1] at h

/-- A single process with one ticket never wins: the only draw is 1. -/
theorem solo_never_wins :
    NiceInRange soloWorld ∧ (∃ p, (soloWorld.ptable p).state = .runnable) ∧
      ¬ Fair undisturbed soloWorld := by
  refine ⟨soloWorld_niceInRange, ⟨⟨0, by decide⟩, by decide⟩, fun hfair => ?_⟩
  have htotal : totalTickets soloWorld = 1 := by decide
  have hwon := hfair.drawn 1 (by decide) (by omega)
  have hnone : firstDispatched undisturbed (UInt32.ofNat 1) soloWorld = none := by decide
  rw [hnone] at hwon
  simp at hwon

theorem lottery_not_fair_pair : ¬ Fair undisturbed pairWorld :=
  lottery_not_fair undisturbed pairWorld pairWorld_niceInRange ⟨⟨1, by decide⟩, by decide⟩

end Lottery
end CS444
