/-
The count of a process's threads, and the ids it gives them.

`Counts` says that `thread_count` is the number of threads a process has created
and not joined; it is an invariant of the runs in which no thread loads the count
while another one is between its load and its store of it (`Tallied`).  Then
`exit` and `wait` find a count of zero only where there are no threads, so that
such runs are `Orderly`.
-/
import CS444.Kthreads.Counters
import CS444.Kthreads.Stacks
import Mathlib.Data.Set.Card

namespace CS444
namespace Kthreads

open Runs

variable {C : Type} {s s' : Kernel C} {c : C} {a : Act} {t t' : Table} {p q m np : Slot} {i : Nat}
  {pick : Pick} {k k' : Ctl} {n : Next}

/-! ## What a step does to the counts -/

/-- What a step from `k` to `k'` does to `thread_count` and to the thread it is
about to count. -/
inductive Tally (t t' : Table) (k k' : Ctl) : Prop
  | same : k'.uncounted = k.uncounted → (∀ owner tid q v, k ≠ .joinTake owner tid q v) →
      (∀ m, (t'.proc m).thread_count = (t.proc m).thread_count ∨
        k.creating = some m ∧ (t'.proc m).thread_count = 0) → Tally t t' k k'
  | linked (np : Slot) (owner : Option Slot) : k = .storeParent np owner → k' = .tidParent np →
      (∀ m, (t'.proc m).thread_count = (t.proc m).thread_count) → Tally t t' k k'
  | added (np owner : Slot) (v : Nat) : k = .storeCount np owner v →
      k' = .acquire (.publish np (some owner)) →
      (∀ m, (t'.proc m).thread_count =
        if m = owner then ushort (v + 1) else (t.proc m).thread_count) → Tally t t' k k'
  | dropped (owner : Slot) (tid : Int) (q : Slot) (v : Nat) : k = .joinTake owner tid q v →
      k'.uncounted = none → (t'.proc q).parent = none →
      (∀ m, (t'.proc m).thread_count =
        if m = owner then ushort (v + 2 ^ 16 - 1) else (t.proc m).thread_count) → Tally t t' k k'

theorem Tally.of_eq {k' : Ctl} (hcount : ∀ m, (t'.proc m).thread_count = (t.proc m).thread_count)
    (hk : k'.uncounted = k.uncounted) (htake : ∀ owner tid q v, k ≠ .joinTake owner tid q v) :
    Tally t t' k k' :=
  .same hk htake fun m => Or.inl (hcount m)

theorem uncounted_of_creating {k : Ctl} (h : k.creating = none) : k.uncounted = none := by
  by_contra hsome
  obtain ⟨np, hnp⟩ := Option.ne_none_iff_exists'.mp hsome
  exact absurd (h.symm.trans (Ctl.creating_of_uncounted hnp)) (by simp)

theorem body_tally (h : BodyStep t p k t' n) : Tally t t' k n.ctl := by
  cases h with
  | preempt k _ hopen | block n k _ hopen =>
      refine .of_eq (fun _ => rfl) rfl ?_
      rintro owner tid q v rfl
      exact absurd hopen (by simp [Ctl.locked])
  | call sc k hstart =>
      exact .of_eq (fun _ => rfl) (uncounted_of_creating (start_spec hstart).2.2.1) (by simp)
  | alloc =>
      exact .of_eq (fun _ => takeSlot_keeps Proc.thread_count fun _ _ _ => rfl) rfl (by simp)
  | newborn thread np =>
      refine .same (by cases thread <;> rfl) (by simp) fun m => ?_
      by_cases hm : m = np
      · subst hm
        exact Or.inr ⟨rfl, by simp [initSlot]⟩
      · exact Or.inl (by simp [initSlot, Table.set_of_ne hm])
  | forkCopy =>
      exact .of_eq (fun _ => copyImage_keeps Proc.thread_count fun _ _ _ _ => rfl) rfl (by simp)
  | storeParent np owner =>
      exact .linked np owner rfl rfl fun _ => Table.set_keeps Proc.thread_count fun _ => rfl
  | storeTid =>
      exact .of_eq (fun _ => takeTid_keeps Proc.thread_count (fun _ _ => rfl) fun _ _ => rfl) rfl
        (by simp)
  | storeCount np owner v =>
      refine .added np owner v rfl rfl fun m => ?_
      rw [Table.set_apply]
      split <;> rfl
  | joinTake owner tid q v =>
      refine .dropped owner tid q v rfl rfl (by simp [takeThread, Table.joinReset]) fun m => ?_
      have hreset : ∀ u : Table, ((u.joinReset q).proc m).thread_count = (u.proc m).thread_count :=
        fun u => Table.set_keeps Proc.thread_count fun _ => rfl
      rw [takeThread, hreset, Table.set_apply]
      split <;> rfl
  | threadExit2 =>
      exact .of_eq (fun _ => threadZombie_keeps Proc.thread_count fun _ _ => rfl) rfl (by simp)
  | exitSched =>
      refine .of_eq (fun _ => ?_) rfl (by simp)
      exact exitBody_keeps Proc.thread_count (fun _ _ => rfl) fun _ _ => rfl
  | waitTake =>
      exact .of_eq (fun _ => waitReset_keeps Proc.thread_count fun _ => rfl) rfl (by simp)
  | execCommit =>
      exact .of_eq (fun _ => commitImage_keeps Proc.thread_count fun _ _ _ => rfl) rfl (by simp)
  | _ =>
      first
        | exact .of_eq (fun _ => rfl) rfl (by simp)
        | exact .of_eq (fun _ => Table.set_keeps Proc.thread_count fun _ => rfl) rfl (by simp)

/-! ## The invariant -/

/-- A thread that its maker has not added to `thread_count` yet. -/
def Pending (t : Table) (q : Slot) : Prop :=
  ∃ p, (t.proc p).Active ∧ (t.proc p).ctl.uncounted = some q

/-- The threads of `m` that its `thread_count` counts. -/
def counted (t : Table) (m : Slot) : Set Slot := {q | ThreadOf t q m ∧ ¬Pending t q}

def Counts (t : Table) : Prop := ∀ m, (t.proc m).thread_count = (counted t m).ncard

/-- The `thread_count` of a process is loaded only while no thread is between its
load and its store of it, no slot is reaped while a CPU is on its stack, and a
join takes its slot while no other join waits for it. -/
structure Tallied (s : Kernel C) (l : C × Act) : Prop where
  spaced : Spaced s l
  single : Single s l
  apart : threadCount.Apart s l

instance (s : Kernel C) (l : C × Act) : Decidable (Tallied s l) :=
  decidable_of_iff (Spaced s l ∧ Single s l ∧ threadCount.Apart s l)
    ⟨fun h => ⟨h.1, h.2.1, h.2.2⟩, fun h => ⟨h.spaced, h.single, h.apart⟩⟩

theorem Alike.pending (h : Alike t t') : Pending t' q ↔ Pending t q := by
  have hsame : ∀ p, (t.proc p).Active →
      (t'.proc p).ctl.uncounted = (t.proc p).ctl.uncounted := by
    intro p hp
    rw [Ctl.uncounted, Ctl.uncounted, h.core p hp]
  constructor
  · rintro ⟨p, hact, hk⟩
    have hold := (h.active p).mp hact
    exact ⟨p, hold, (hsame p hold).symm.trans hk⟩
  · rintro ⟨p, hact, hk⟩
    exact ⟨p, (h.active p).mpr hact, (hsame p hact).trans hk⟩

theorem Counts.alike (hcount : Counts t) (h : Alike t t') : Counts t' := by
  intro m
  rw [h.keeps Proc.thread_count fun _ _ _ => rfl, hcount m]
  congr 1
  ext q
  show _ ∧ ¬_ ↔ _ ∧ ¬_
  rw [h.pending, threadOf_congr (h.keeps Proc.kin (fun _ _ _ => rfl) q)]

/-- A process whose count is zero has no threads, not even one under
construction: its maker would be a thread that is counted. -/
theorem Family.no_threads (hfam : Family t) (hcount : Counts t) (hplaced : Placed t)
    (hm : (t.proc m).Active) (hbusy : (t.proc m).ctl.uncounted = none)
    (hzero : (t.proc m).thread_count = 0) (q : Slot) :
    ¬ThreadOf t q m := by
  have hempty : counted t m = ∅ := by
    rw [← Set.ncard_eq_zero (Set.toFinite _), ← hcount m]
    exact hzero
  have hpending : ∀ r, ThreadOf t r m → Pending t r := by
    intro r hr
    by_contra hno
    have hmem : r ∈ counted t m := ⟨hr, hno⟩
    rw [hempty] at hmem
    exact hmem
  intro hq
  obtain ⟨p, hp, hk⟩ := hpending q hq
  have hlinked : ∃ owner, Linked t p q owner := by
    have hstage := hfam.stage p hp
    rw [← stage_congr (Ctl.core_core _) (fun _ => rfl) fun _ => rfl] at hstage
    unfold Ctl.uncounted at hk
    generalize (t.proc p).ctl.core = k at hk hstage
    cases k with
    | tidParent np =>
        obtain rfl : np = q := Option.some.inj hk
        exact hstage.1
    | countParent np =>
        obtain rfl : np = q := Option.some.inj hk
        exact hstage
    | loadTid np owner | storeTid np owner =>
        obtain rfl : np = q := Option.some.inj hk
        have hboth : _ ∧ _ := hstage
        exact ⟨owner, hboth.1⟩
    | loadCount np owner | storeCount np owner =>
        obtain rfl : np = q := Option.some.inj hk
        exact ⟨owner, hstage⟩
    | _ => exact absurd hk (by simp)
  obtain ⟨owner, hthread, hprocess⟩ := hlinked
  obtain rfl : m = owner := Option.some.inj (hq.2.symm.trans hthread.2)
  rw [process] at hprocess
  split at hprocess
  · rename_i hself
    obtain ⟨p', hp', hk'⟩ := hpending p ⟨hself, hprocess⟩
    exact absurd rfl (hp.not (hplaced.embryo p' p hp' (Ctl.creating_of_uncounted hk'))).2.1
  · obtain rfl : p = m := Option.some.inj hprocess
    exact absurd (hbusy.symm.trans hk) (by simp)

/-! ## A step of a running process -/

namespace Takes

variable (h : Takes s c p i pick t n) (hfam : Family s.table)

include h hfam

omit hfam in
/-- A thread is pending with its maker, the step's thread or another one. -/
theorem pending_before : Pending s.table q ↔
    (∃ r, r ≠ p ∧ (s.table.proc r).Active ∧ (s.table.proc r).ctl.uncounted = some q) ∨
      (s.table.proc p).ctl.uncounted = some q := by
  constructor
  · rintro ⟨r, hr, hk⟩
    by_cases hrp : r = p
    · subst hrp
      exact Or.inr hk
    · exact Or.inl ⟨r, hrp, hr, hk⟩
  · rintro (⟨r, -, hr, hk⟩ | hk)
    · exact ⟨r, hr, hk⟩
    · exact ⟨p, h.active, hk⟩

omit hfam in
theorem pending_after : Pending (t.goto p n.ctl) q ↔
    (∃ r, r ≠ p ∧ (s.table.proc r).Active ∧ (s.table.proc r).ctl.uncounted = some q) ∨
      n.ctl.uncounted = some q := by
  constructor
  · rintro ⟨r, hr, hk⟩
    rw [goto_active] at hr
    by_cases hrp : r = p
    · subst hrp
      rw [goto_ctl_self] at hk
      exact Or.inr hk
    · rw [goto_of_ne hrp] at hk
      rcases h.was_active hrp hr with ⟨hold, hctl⟩ | ⟨hctl, -⟩
      · exact Or.inl ⟨r, hrp, hold, hctl ▸ hk⟩
      · rw [hctl] at hk
        exact absurd hk (by simp [Ctl.uncounted, Ctl.core])
  · rintro (⟨r, hrp, hr, hk⟩ | hk)
    · obtain ⟨hact, hctl⟩ := h.still_active hrp hr
      refine ⟨r, goto_active.mpr hact, ?_⟩
      rw [goto_of_ne hrp, hctl]
      exact hk
    · refine ⟨p, goto_active.mpr ?_, by rw [goto_ctl_self]; exact hk⟩
      rcases h.own with hact | ⟨-, ⟨v, -, rfl⟩ | ⟨-, rfl⟩⟩
      · exact hact
      · exact absurd hk (by simp [Next.ctl, Ctl.uncounted, Ctl.core])
      · exact absurd hk (by simp [Next.ctl, Ctl.uncounted, Ctl.core])

omit hfam in
/-- What the step's thread is making is pending with nobody else. -/
theorem not_other (hk : (s.table.proc p).ctl.creating = some q) :
    ¬∃ r, r ≠ p ∧ (s.table.proc r).Active ∧ (s.table.proc r).ctl.uncounted = some q := by
  rintro ⟨r, hrp, hr, hpend⟩
  exact h.not_maker hrp hr hk (Ctl.creating_of_uncounted hpend)

omit h hfam in
theorem counted_le (t : Table) (m : Slot) : (counted t m).ncard ≤ NPROC := by
  have hcard := Set.ncard_le_ncard (Set.subset_univ (counted t m)) (Set.toFinite _)
  rwa [Set.ncard_univ, Nat.card_eq_fintype_card, Fintype.card_fin] at hcard

theorem count_same (huncounted : n.ctl.uncounted = (s.table.proc p).ctl.uncounted)
    (htake : ∀ owner tid q v, (s.table.proc p).ctl ≠ .joinTake owner tid q v) :
    counted (t.goto p n.ctl) m = counted s.table m := by
  ext q
  show ThreadOf _ q m ∧ ¬_ ↔ ThreadOf _ q m ∧ ¬_
  rw [threadOf_goto, h.pending_after, huncounted, ← h.pending_before]
  refine and_congr_left fun _ => ⟨fun hq => ?_, fun hq => ?_⟩
  · rcases h.thread_new hfam hq with hold | ⟨hk, hgo, -⟩
    · exact hold
    · rw [hk, hgo] at huncounted
      exact absurd huncounted (by simp [Ctl.uncounted, Ctl.core])
  · rcases h.thread_lost hfam hq with hkeep | ⟨-, tid, v, hk⟩
    · exact hkeep
    · exact absurd hk (htake m tid q v)

theorem count_linked {owner : Option Slot} (hk : (s.table.proc p).ctl = .storeParent np owner)
    (hgo : n.ctl = .tidParent np) : counted (t.goto p n.ctl) m = counted s.table m := by
  have hstage : _ ∧ _ := h.stage hfam hk
  ext q
  show ThreadOf _ q m ∧ ¬_ ↔ ThreadOf _ q m ∧ ¬_
  rw [threadOf_goto, h.pending_after, h.pending_before, hgo, hk]
  constructor
  · rintro ⟨hq, hpend⟩
    have hne : np ≠ q := fun heq => hpend (Or.inr (congrArg some heq))
    rcases h.thread_new hfam hq with hold | ⟨hk', -⟩
    · refine ⟨hold, ?_⟩
      rintro (hother | hmine)
      · exact hpend (Or.inl hother)
      · exact absurd hmine (by simp [Ctl.uncounted, Ctl.core])
    · exact absurd (Ctl.storeParent.inj (hk.symm.trans hk')).1 hne
  · rintro ⟨hq, hpend⟩
    have hne : np ≠ q := by
      rintro rfl
      exact absurd (hstage.1.1.symm.trans hq.2) (by simp)
    refine ⟨?_, ?_⟩
    · rcases h.thread_lost hfam hq with hkeep | ⟨-, tid, v, hk'⟩
      · exact hkeep
      · exact absurd (hk.symm.trans hk') (by simp)
    · rintro (hother | hmine)
      · exact hpend (Or.inl hother)
      · exact hne (Option.some.inj hmine)

/-- The new thread is counted from here on. -/
theorem count_added {owner : Slot} {v : Nat} (hk : (s.table.proc p).ctl = .storeCount np owner v)
    (hgo : n.ctl = .acquire (.publish np (some owner))) :
    (counted (t.goto p n.ctl) m).ncard =
      (counted s.table m).ncard + if m = owner then 1 else 0 := by
  have hlinked : Linked s.table p np owner := h.stage hfam hk
  have hnot := h.not_other (q := np) (by rw [hk]; rfl)
  have hiff : ∀ q, ThreadOf t q m ↔ ThreadOf s.table q m := by
    intro q
    constructor
    · intro hq
      rcases h.thread_new hfam hq with hold | ⟨hk', -⟩
      · exact hold
      · exact absurd (hk.symm.trans hk') (by simp)
    · intro hq
      rcases h.thread_lost hfam hq with hkeep | ⟨-, tid, v, hk'⟩
      · exact hkeep
      · exact absurd (hk.symm.trans hk') (by simp)
  have hmem : ∀ q, q ∈ counted (t.goto p n.ctl) m ↔
      q ∈ counted s.table m ∨ q = np ∧ m = owner := by
    intro q
    show ThreadOf _ q m ∧ ¬_ ↔ (ThreadOf _ q m ∧ ¬_) ∨ _
    rw [threadOf_goto, h.pending_after, h.pending_before, hgo, hk, hiff]
    simp only [Ctl.uncounted, Ctl.core, reduceCtorEq, or_false, Option.some.injEq]
    constructor
    · rintro ⟨hq, hno⟩
      by_cases hqn : np = q
      · subst hqn
        exact Or.inr ⟨rfl, Option.some.inj (hq.2.symm.trans hlinked.1.2)⟩
      · exact Or.inl ⟨hq, fun hor => hor.elim hno hqn⟩
    · rintro (⟨hq, hno⟩ | ⟨rfl, rfl⟩)
      · exact ⟨hq, fun hother => hno (Or.inl hother)⟩
      · exact ⟨hlinked.1, hnot⟩
  by_cases hm : m = owner
  · have hset : counted (t.goto p n.ctl) m = insert np (counted s.table m) := by
      ext q
      rw [hmem, Set.mem_insert_iff]
      exact ⟨fun hq => hq.elim Or.inr fun hq => Or.inl hq.1,
        fun hq => hq.elim (fun hq => Or.inr ⟨hq, hm⟩) Or.inl⟩
    have hnew : np ∉ counted s.table m := fun hq =>
      hq.2 (h.pending_before.mpr (Or.inr (by rw [hk]; rfl)))
    rw [hset, Set.ncard_insert_of_notMem hnew (Set.toFinite _), if_pos hm]
  · have hset : counted (t.goto p n.ctl) m = counted s.table m := by
      ext q
      rw [hmem]
      exact ⟨fun hq => hq.elim id fun hq => absurd hq.2 hm, Or.inl⟩
    rw [hset, if_neg hm, Nat.add_zero]

/-- The thread a join takes is counted until then. -/
theorem count_dropped {owner : Slot} {tid : Int} {v : Nat} {r : Slot}
    (hk : (s.table.proc p).ctl = .joinTake owner tid r v) (hgo : n.ctl.uncounted = none)
    (hnone : (t.proc r).parent = none) :
    r ∈ counted s.table owner ∧ counted (t.goto p n.ctl) m = counted s.table m \ {r} := by
  obtain ⟨-, -, -, m', hm', hthread⟩ := h.stage hfam hk
  obtain rfl : owner = m' := Option.some.inj hm'
  have hzombie := (h.inv.target p r h.active (by rw [hk]; rfl)).2
  have hcounted : ¬Pending s.table r := by
    rintro ⟨p', hp', hk'⟩
    have hembryo := h.inv.embryo p' r hp' (Ctl.creating_of_uncounted hk')
    exact absurd (hzombie.symm.trans hembryo) (by decide)
  refine ⟨⟨hthread, hcounted⟩, ?_⟩
  ext q
  show ThreadOf _ q m ∧ ¬_ ↔ (ThreadOf _ q m ∧ ¬_) ∧ q ∉ ({r} : Set Slot)
  have hmine : (s.table.proc p).ctl.uncounted = none := by rw [hk]; rfl
  rw [threadOf_goto, h.pending_after, h.pending_before, hgo, hmine, Set.mem_singleton_iff]
  constructor
  · rintro ⟨hq, hno⟩
    refine ⟨⟨?_, hno⟩, ?_⟩
    · rcases h.thread_new hfam hq with hold | ⟨hk', -⟩
      · exact hold
      · exact absurd (hk.symm.trans hk') (by simp)
    · rintro rfl
      exact absurd (hnone.symm.trans hq.2) (by simp)
  · rintro ⟨⟨hq, hno⟩, hne⟩
    refine ⟨?_, hno⟩
    rcases h.thread_lost hfam hq with hkeep | ⟨-, tid', v', hk'⟩
    · exact hkeep
    · exact absurd (Ctl.joinTake.inj (hk.symm.trans hk')).2.2.1.symm hne

omit hfam in
/-- The count that is about to be stored over is the one that was loaded. -/
theorem loaded_count (hheld : threadCount.Held s.table) {owner : Slot} {v : Nat}
    (hk : threadCount.held (s.table.proc p).ctl = some (owner, v)) :
    v = (s.table.proc owner).thread_count :=
  hheld.current p owner v (Counter.holds_eq_some.mpr ⟨h.active, hk⟩)

theorem counts (hcount : Counts s.table) (hheld : threadCount.Held s.table) :
    Counts (t.goto p n.ctl) := by
  intro m
  refine (goto_keeps Proc.thread_count fun _ _ => rfl).trans ?_
  have hold := hcount m
  cases body_tally h.body with
  | same huncounted htake hsame =>
      rw [h.count_same hfam huncounted htake, ← hold]
      rcases hsame m with hkeep | ⟨hmake, hzero⟩
      · exact hkeep
      · have hempty : counted s.table m = ∅ := by
          rw [Set.eq_empty_iff_forall_notMem]
          rintro q ⟨hq, -⟩
          exact absurd (h.embryo hmake) (fun he => ((hfam.host q m hq).1.not he).2.1 rfl)
        rw [hzero, hold, hempty, Set.ncard_empty]
  | linked np owner hk hgo hstore => rw [h.count_linked hfam hk hgo, ← hold, hstore]
  | added np owner v hk hgo hstore =>
      have hv : v = (s.table.proc owner).thread_count :=
        h.loaded_count hheld (by rw [hk]; rfl)
      rw [h.count_added hfam hk hgo, hstore, ← hold]
      split
      · rename_i hm
        have hle := counted_le s.table m
        rw [hv, ← hm, ushort, Nat.mod_eq_of_lt]
        rw [hold]
        exact lt_of_le_of_lt (Nat.succ_le_succ hle) (by decide)
      · rfl
  | dropped owner tid r v hk hgo hnone hstore =>
      have hv : v = (s.table.proc owner).thread_count :=
        h.loaded_count hheld (by rw [hk]; rfl)
      obtain ⟨hmem, hset⟩ := h.count_dropped hfam hk hgo hnone (m := m)
      rw [hset, hstore]
      split
      · rename_i hm
        subst hm
        have hpos : 0 < (counted s.table m).ncard :=
          (Set.ncard_pos (Set.toFinite _)).mpr ⟨r, hmem⟩
        have hle : (counted s.table m).ncard ≤ 64 := counted_le s.table m
        rw [Set.ncard_sdiff_singleton_of_mem hmem, hv, hold, ushort]
        omega
      · rename_i hm
        have hnot : r ∉ counted s.table m := fun hr =>
          hm (Option.some.inj (hr.1.2.symm.trans hmem.1.2))
        rw [Set.sdiff_singleton_eq_self hnot, ← hold]

end Takes

/-! ## Over a run -/

theorem boot_counts (h : Boot s) : Counts s.table := by
  intro m
  have hempty : counted s.table m = ∅ := by
    rw [Set.eq_empty_iff_forall_notMem]
    rintro q ⟨⟨hself, -⟩, -⟩
    by_cases hq : q = initproc
    · rw [hq, h.init] at hself
      exact absurd hself (by simp)
    · rw [h.unused q hq] at hself
      exact absurd hself (by simp)
  rw [hempty, Set.ncard_empty]
  by_cases hm : m = initproc
  · rw [hm, h.init]
  · rw [h.unused m hm]

variable [DecidableEq C]

/-- `exit` and `wait` panic unless they find a count of zero. -/
theorem start_count {sc : Syscall} (hsc : sc = .exit ∨ sc = .wait) (h : start t p sc = some k) :
    (t.proc p).thread_count = 0 := by
  have hno : ¬(t.proc p).thread_count > 0 := by
    intro hpos
    rcases hsc with rfl | rfl <;> simp [start, hpos] at h
  omega

/-- The calls of `exit` and `wait` that go through are those of processes
without threads. -/
theorem Tallied.orderly (hinv : Running s) (hfam : Family s.table) (hcount : Counts s.table)
    (hstep : CpuStep s c a s') (hok : Tallied s (c, a)) : Orderly s (c, a) := by
  refine ⟨hok.spaced, hok.single, fun p i hcpu huser hcall => ?_⟩
  have hstart : ∃ sc, (sc = .exit ∨ sc = .wait) ∧ a = .run (.call sc) := by
    rcases hcall with hcall | hcall
    · exact ⟨_, Or.inl rfl, hcall⟩
    · exact ⟨_, Or.inr rfl, hcall⟩
  obtain ⟨sc, hsc, rfl⟩ := hstart
  have hsome : ∃ k, start s.table p sc = some k := by
    cases hstep with
    | go q j pick t k hcpu' hbody | swtch q j pick t k hcpu' hbody =>
        obtain ⟨rfl, -⟩ := Prod.mk.inj (Option.some.inj (hcpu'.symm.trans hcpu))
        rw [huser] at hbody
        obtain ⟨k, hk, -⟩ := Option.map_eq_some_iff.mp hbody
        exact ⟨k, hk⟩
  obtain ⟨k, hk⟩ := hsome
  have hact : (s.table.proc p).Active := by
    rcases hinv.cpu c p i hcpu with hrun | ⟨-, hctl | hctl⟩
    · exact Or.inl hrun
    · exact absurd (huser.symm.trans hctl) (by simp)
    · exact absurd (huser.symm.trans hctl) (by simp)
  exact hfam.no_threads hcount hinv.toPlaced hact (by rw [huser]; rfl) (start_count hsc hk)

theorem Counts.step (hinv : Running s) (hfam : Family s.table) (hcount : Counts s.table)
    (hheld : threadCount.Held s.table) (hstep : CpuStep s c a s') : Counts s'.table := by
  rcases hinv.split hstep with halike | ⟨p, i, pick, t, n, rfl, htakes, ht⟩
  · exact hcount.alike halike
  · rw [ht]
    exact htakes.counts hfam hcount hheld

theorem run_counts {tr : List (C × Act)} (h : Run (kthreads C) Tallied tr s) :
    Running s ∧ Family s.table ∧ Counts s.table ∧ threadCount.Held s.table := by
  have hinit : ∀ s, (kthreads C).init s →
      Running s ∧ Family s.table ∧ Counts s.table ∧ threadCount.Held s.table := fun _ hboot =>
    ⟨boot_running hboot, boot_family hboot, boot_counts hboot, boot_held hboot⟩
  refine h.invariant hinit ?_
  rintro s ⟨c, a⟩ s' ⟨hinv, hfam, hcount, hheld⟩ hstep hok
  have hstep := step_cases hstep
  exact ⟨hinv.step hstep hok.spaced,
    hfam.step hinv hstep (hok.orderly hinv hfam hcount hstep),
    hcount.step hinv hfam hheld hstep, threadCount_step hinv hfam hheld hstep hok.apart⟩

end Kthreads
end CS444
