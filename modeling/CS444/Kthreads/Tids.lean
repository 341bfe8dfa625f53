/-
The ids of threads.

`Numbers` is about `next_tid`: while no thread loads it between another one's
load and store of it, it counts the ids the process has handed out, so that
these are distinct up to the 65536th, and other than 0 up to the 65535th.
`Names` is about the threads that have not been joined: each has one of the ids
its process has handed out, and no two have the same.
-/
import CS444.Kthreads.Count

namespace CS444
namespace Kthreads

open Runs

variable {C : Type} {s s' : Kernel C} {c : C} {a : Act} {t t' : Table} {p q m np : Slot} {i : Nat}
  {pick : Pick} {k k' : Ctl} {n : Next}

/-! ## The ids handed out -/

/-- The ids handed out by the process with kernel stack `i`, latest first. -/
def handed (t : Table) (i : Nat) : List Nat := (t.tids.filter fun e => e.1 = i).map Prod.snd

/-- What a step does to `next_tid` and to the ids handed out. -/
inductive Naming (t t' : Table) (k : Ctl) (n : Next) : Prop
  | same : t'.tids = t.tids → (∀ q, (t'.proc q).next_tid = (t.proc q).next_tid) →
      t'.nextstack = t.nextstack →
      (∀ q, (t'.proc q).kstack = (t.proc q).kstack ∨ (t'.proc q).kstack = none) → Naming t t' k n
  | born (np : Slot) : t' = initSlot t np → Naming t t' k n
  | taken (np owner : Slot) (v : Nat) : k = .storeTid np owner v → n = .go (.countParent np) →
      t' = takeTid t np owner v → Naming t t' k n

theorem body_naming (h : BodyStep t p k t' n) : Naming t t' k n := by
  have hnames : (t'.tids = t.tids ∧ ∀ q, (t'.proc q).next_tid = (t.proc q).next_tid) ∨
      (∃ np, t' = initSlot t np) ∨
      ∃ np owner v, k = .storeTid np owner v ∧ n = .go (.countParent np) ∧
        t' = takeTid t np owner v := by
    cases h with
    | newborn thread np => exact Or.inr (Or.inl ⟨np, rfl⟩)
    | storeTid np owner v => exact Or.inr (Or.inr ⟨np, owner, v, rfl, rfl, rfl⟩)
    | alloc => exact Or.inl ⟨rfl, fun _ => takeSlot_keeps Proc.next_tid fun _ _ _ => rfl⟩
    | forkCopy => exact Or.inl ⟨rfl, fun _ => copyImage_keeps Proc.next_tid fun _ _ _ _ => rfl⟩
    | joinTake =>
        exact Or.inl ⟨rfl, fun _ => takeThread_keeps Proc.next_tid (fun _ _ => rfl) fun _ => rfl⟩
    | threadExit2 => exact Or.inl ⟨rfl, fun _ => threadZombie_keeps Proc.next_tid fun _ _ => rfl⟩
    | exitSched =>
        refine Or.inl ⟨by rw [exitBody_rest], fun _ => ?_⟩
        exact exitBody_keeps Proc.next_tid (fun _ _ => rfl) fun _ _ => rfl
    | waitTake => exact Or.inl ⟨rfl, fun _ => waitReset_keeps Proc.next_tid fun _ => rfl⟩
    | execCommit => exact Or.inl ⟨rfl, fun _ => commitImage_keeps Proc.next_tid fun _ _ _ => rfl⟩
    | _ =>
        first
          | exact Or.inl ⟨rfl, fun _ => rfl⟩
          | exact Or.inl ⟨rfl, fun _ => Table.set_keeps Proc.next_tid fun _ => rfl⟩
  rcases hnames with ⟨htids, hnext⟩ | ⟨np, rfl⟩ | ⟨np, owner, v, rfl, rfl, rfl⟩
  · rcases body_stack h with ⟨hstack, hkeep⟩ | ⟨thread, np, -, rfl⟩
    · exact .same htids hnext hstack hkeep
    · exact .born np rfl
  · exact .born np rfl
  · exact .taken np owner v rfl rfl rfl

/-- `next_tid` counts the ids a process handed out. -/
structure Numbers (t : Table) : Prop where
  next : ∀ q i, (t.proc q).kstack = some i →
    (t.proc q).next_tid = ushort ((handed t i).length + 1)
  order : ∀ i, handed t i = (List.range (handed t i).length).reverse.map fun j => ushort (j + 1)
  few : ∀ i, (handed t i).length ≤ 2 ^ 16
  fresh : ∀ i, t.nextstack ≤ i → handed t i = []

/-- `kthread_create` hands out an id only in a process that has handed out fewer
than `b`. -/
def Few (b : Nat) (s : Kernel C) (l : C × Act) : Prop :=
  ∀ p i, s.cpu l.1 = some (p, i) → l.2 = .run .next →
    ∀ np owner v, (s.table.proc p).ctl = .storeTid np owner v →
      ∀ j, (s.table.proc owner).kstack = some j → (handed s.table j).length < b

/-- Moreover `next_tid` is loaded only while no thread is between its load and its
store of it, and no process makes more than 65536 threads. -/
structure Creating (s : Kernel C) (l : C × Act) : Prop extends Tallied s l where
  next : nextTid.Apart s l
  few : Few (2 ^ 16) s l

/-- The process that is about to hand out an id. -/
def Ctl.naming : Ctl → Option Slot
  | .storeTid _ owner _ => some owner
  | _ => none

theorem naming_eq_some : k.naming = some m ↔ ∃ np v, k = .storeTid np m v := by
  cases k <;> simp [Ctl.naming]

instance (b : Nat) (s : Kernel C) (l : C × Act) : Decidable (Few b s l) :=
  decidable_of_iff (∀ p i, s.cpu l.1 = some (p, i) → l.2 = .run .next →
    ∀ owner ∈ (s.table.proc p).ctl.naming, ∀ j ∈ (s.table.proc owner).kstack,
      (handed s.table j).length < b) <| by
    refine ⟨fun h p i hcpu ha np owner v hk j hj =>
      h p i hcpu ha owner (naming_eq_some.mpr ⟨np, v, hk⟩) j hj, fun h p i hcpu ha owner hk => ?_⟩
    obtain ⟨np, v, hk⟩ := naming_eq_some.mp hk
    exact fun j hj => h p i hcpu ha np owner v hk j hj

instance (s : Kernel C) (l : C × Act) : Decidable (Creating s l) :=
  decidable_of_iff (Tallied s l ∧ nextTid.Apart s l ∧ Few (2 ^ 16) s l)
    ⟨fun h => ⟨h.1, h.2.1, h.2.2⟩, fun h => ⟨h.toTallied, h.next, h.few⟩⟩

/-- Ids that count up to 65536 are distinct. -/
theorem Numbers.nodup (h : Numbers t) (i : Nat) : (handed t i).Nodup := by
  have hfew := h.few i
  rw [h.order i]
  refine (List.nodup_reverse.mpr List.nodup_range).map_on ?_
  intro x hx y hy hxy
  rw [List.mem_reverse, List.mem_range] at hx hy
  rw [ushort, ushort] at hxy
  omega

theorem Numbers.congr (h : Numbers t) (htids : t'.tids = t.tids)
    (hnext : ∀ q, (t'.proc q).next_tid = (t.proc q).next_tid)
    (hstack : t'.nextstack = t.nextstack)
    (hkeep : ∀ q, (t'.proc q).kstack = (t.proc q).kstack ∨ (t'.proc q).kstack = none) :
    Numbers t' := by
  have hhanded : ∀ i, handed t' i = handed t i := fun i => by rw [handed, handed, htids]
  constructor
  case next =>
    intro q i hq
    rw [hhanded, hnext]
    rcases hkeep q with hsame | hnone
    · exact h.next q i (hsame.symm.trans hq)
    · exact absurd (hnone.symm.trans hq) (by simp)
  case order =>
    intro i
    rw [hhanded]
    exact h.order i
  case few =>
    intro i
    rw [hhanded]
    exact h.few i
  case fresh =>
    intro i hi
    rw [hhanded]
    exact h.fresh i (hstack ▸ hi)

theorem Numbers.alike (hnum : Numbers t) (h : Alike t t') : Numbers t' := by
  have hstack := h.keeps Proc.kstack fun _ _ _ => rfl
  exact hnum.congr (by rw [h.rest]) (h.keeps Proc.next_tid fun _ _ _ => rfl) (by rw [h.rest])
    fun q => Or.inl (hstack q)

theorem Numbers.born (h : Numbers t) (np : Slot) : Numbers (initSlot t np) := by
  constructor
  case next =>
    intro q i hq
    show _ = ushort ((handed t i).length + 1)
    by_cases hqn : q = np
    · subst hqn
      have hi : some t.nextstack = some i := by simpa [initSlot] using hq
      rw [← Option.some.inj hi, h.fresh t.nextstack le_rfl]
      simp [initSlot, ushort]
    · rw [initSlot] at hq ⊢
      simp only [Table.set_of_ne hqn] at hq ⊢
      exact h.next q i hq
  case order => exact h.order
  case few => exact h.few
  case fresh => exact fun i hi => h.fresh i (Nat.le_of_succ_le hi)

theorem handed_takeTid {owner : Slot} {v j : Nat} (hj : (t.proc owner).kstack = some j) :
    handed (takeTid t np owner v) i = if i = j then v :: handed t i else handed t i := by
  show (((((t.proc owner).kstack.map fun i => (i, v)).toList ++ t.tids).filter _).map _) = _
  rw [hj]
  by_cases hij : i = j
  · subst hij
    simp [handed]
  · have hji : j ≠ i := fun heq => hij heq.symm
    simp [handed, hij, hji]

theorem Numbers.taken (h : Numbers t) (hst : Stacks t) {owner : Slot} {v j : Nat}
    (hj : (t.proc owner).kstack = some j) (hv : v = (t.proc owner).next_tid)
    (hroom : (handed t j).length < 2 ^ 16) : Numbers (takeTid t np owner v) := by
  have hv' : v = ushort ((handed t j).length + 1) := hv.trans (h.next owner j hj)
  have hkeep : ∀ q, ((takeTid t np owner v).proc q).kstack = (t.proc q).kstack := fun q =>
    takeTid_keeps Proc.kstack (fun _ _ => rfl) fun _ _ => rfl
  constructor
  case next =>
    intro q i hq
    rw [hkeep] at hq
    rw [takeTid_next, handed_takeTid hj]
    by_cases hqo : q = owner
    · subst hqo
      obtain rfl : j = i := Option.some.inj (hj.symm.trans hq)
      rw [if_pos rfl, if_pos rfl, hv', List.length_cons, ushort, ushort, ushort]
      omega
    · have hij : i ≠ j := by
        rintro rfl
        exact hqo (hst.apart q owner i hq hj)
      rw [if_neg hqo, if_neg hij]
      exact h.next q i hq
  case order =>
    intro i
    rw [handed_takeTid hj]
    split
    · rename_i hij
      subst hij
      rw [List.length_cons, List.range_succ, List.reverse_append, List.reverse_singleton,
        List.singleton_append, List.map_cons, ← h.order i, ← hv']
    · exact h.order i
  case few =>
    intro i
    rw [handed_takeTid hj]
    split
    · rename_i hij
      subst hij
      exact hroom
    · exact h.few i
  case fresh =>
    intro i hi
    have hij : i ≠ j := by
      have := hst.fresh owner j hj
      have hi' : t.nextstack ≤ i := hi
      omega
    rw [handed_takeTid hj, if_neg hij]
    exact h.fresh i hi

theorem goto_numbers (h : Numbers t) : Numbers (t.goto p k) :=
  h.congr rfl (fun _ => goto_keeps Proc.next_tid fun _ _ => rfl) rfl fun _ => Or.inl goto_kstack

namespace Takes

variable (h : Takes s c p i pick t n) (hfam : Family s.table) (hnum : Numbers s.table)
  (hheld : nextTid.Held s.table)

include h hfam hnum hheld

/-- The id that is about to be stored is the next one, and its process has one
kernel stack all along. -/
theorem next_number {owner : Slot} {v : Nat}
    (hk : (s.table.proc p).ctl = .storeTid np owner v) :
    v = (s.table.proc owner).next_tid ∧ ∃ j, (s.table.proc owner).kstack = some j ∧
      v = ushort ((handed s.table j).length + 1) := by
  have hv : v = (s.table.proc owner).next_tid :=
    hheld.current p owner v (Counter.holds_eq_some.mpr ⟨h.active, by rw [hk]; rfl⟩)
  have hlinked : _ ∧ _ := h.stage hfam hk
  obtain ⟨j, hj⟩ := h.inv.kstack owner (hfam.host np owner hlinked.1.1).1
  exact ⟨hv, j, hj, hv.trans (hnum.next owner j hj)⟩

theorem numbers (hst : Stacks s.table) (hok : Few (2 ^ 16) s (c, .run pick)) : Numbers t := by
  cases body_naming h.body with
  | same htids hnext hstack hkeep => exact hnum.congr htids hnext hstack hkeep
  | born np ht => exact ht ▸ hnum.born np
  | taken np owner v hk hgo ht =>
      have hnext : pick = .next :=
        body_next_of_go h.step (Or.inr (Or.inl ⟨np, owner, v, hk⟩))
          (by rw [hgo, hk]; simp [Next.ctl, Ctl.core])
      obtain ⟨hv, j, hj, -⟩ := h.next_number hfam hnum hheld hk
      exact ht ▸ hnum.taken hst hj hv (hok p i h.cpu (by rw [hnext]) np owner v hk j hj)

end Takes

theorem boot_numbers (h : Boot s) : Numbers s.table := by
  have hnone : ∀ i, handed s.table i = [] := fun i => by simp [handed, h.tids]
  constructor
  case next =>
    intro q i hstack
    rw [hnone]
    by_cases hq : q = initproc
    · rw [hq, h.init]
      rfl
    · rw [h.unused q hq] at hstack
      exact absurd hstack (by simp)
  case order =>
    intro i
    rw [hnone]
    rfl
  case few =>
    intro i
    rw [hnone]
    decide
  case fresh => exact fun i _ => hnone i

/-- No thread is being created. -/
def Quiet (t : Table) : Prop := ∀ p, (t.proc p).Active → (t.proc p).ctl.creating = none

instance (t : Table) : Decidable (Quiet t) := inferInstanceAs (Decidable (∀ _, _ → _))

variable [DecidableEq C]

/-- What is kept about the ids handed out. -/
structure Handing (s : Kernel C) : Prop where
  kstacks : Stacks s.table
  held : nextTid.Held s.table
  numbers : Numbers s.table

omit [DecidableEq C] in
theorem boot_handing (h : Boot s) : Handing s := ⟨boot_stacks h, boot_held h, boot_numbers h⟩

theorem Handing.step (hh : Handing s) (hinv : Running s) (hfam : Family s.table)
    (hstep : CpuStep s c a s') (hnext : nextTid.Apart s (c, a)) (hfew : Few (2 ^ 16) s (c, a)) :
    Handing s' := by
  refine ⟨hh.kstacks.step hinv hstep, nextTid_step hinv hfam hh.held hstep hnext, ?_⟩
  rcases hinv.split hstep with halike | ⟨p, i, pick, t, n, rfl, htakes, ht⟩
  · exact hh.numbers.alike halike
  · rw [ht]
    exact goto_numbers (htakes.numbers hfam hh.numbers hh.held hh.kstacks hfew)

theorem run_handing {tr : List (C × Act)} (h : Run (kthreads C) Creating tr s) : Handing s := by
  induction h with
  | init hboot => exact boot_handing hboot
  | @step s s' l tr hrun hstep hok ih =>
      obtain ⟨hinv, hfam, -⟩ := run_counts (hrun.mono fun _ _ hok => hok.toTallied)
      exact ih.step hinv hfam (step_cases hstep) hok.next hok.few

/-- While no counter is loaded between another thread's load and store of it, a
process has as many threads as its `thread_count` says whenever none is being
created, and the thread ids it hands out are distinct. -/
theorem creation_counted {tr : List (C × Act)} (h : Run (kthreads C) Creating tr s) :
    (Quiet s.table → ∀ m, (s.table.proc m).thread_count = {q | ThreadOf s.table q m}.ncard) ∧
      ∀ i, (handed s.table i).Nodup := by
  obtain ⟨-, -, hcount, -⟩ := run_counts (h.mono fun _ _ hok => hok.toTallied)
  refine ⟨fun hquiet m => ?_, (run_handing h).numbers.nodup⟩
  have hall : counted s.table m = {q | ThreadOf s.table q m} := by
    ext q
    refine and_iff_left ?_
    rintro ⟨p, hp, hk⟩
    exact absurd ((hquiet p hp).symm.trans (Ctl.creating_of_uncounted hk)) (by simp)
  rw [hcount m, hall]

/-- Init and its thread create a thread each, every load before the other's store. -/
def createTwice : List (Fin 2 × Act) :=
  threadRuns ++ createTo 0 2 ++ createTo 1 3 ++ [onward 0, onward 0, onward 0, onward 1, onward 1,
    onward 1, onward 0, onward 1] ++ List.replicate 4 (onward 0) ++ List.replicate 4 (onward 1)

theorem createTwice_run : ∃ s : Kernel (Fin 2),
    Run (kthreads (Fin 2)) anyStep createTwice.reverse s ∧ Quiet s.table ∧
      (s.table.proc 0).thread_count = 2 ∧ handed s.table 0 = [2, 2, 1] ∧
      ∀ q : Slot, q = 1 ∨ q = 2 ∨ q = 3 →
        (s.table.proc q).is_thread = true ∧ (s.table.proc q).parent = some 0 := by
  have htr : ((createTwice.foldlM (fun s l => step s l.1 l.2) boot).map fun s =>
      decide (Quiet s.table ∧ (s.table.proc 0).thread_count = 2 ∧ handed s.table 0 = [2, 2, 1] ∧
        ∀ q : Slot, q = 1 ∨ q = 2 ∨ q = 3 →
          (s.table.proc q).is_thread = true ∧ (s.table.proc q).parent = some 0)) =
      some true := by
    decide +kernel
  obtain ⟨s, hs, hend⟩ := Option.map_eq_some_iff.mp htr
  exact ⟨s, Run.of_foldlM boot_boot (fun _ _ _ h => ⟨h, trivial⟩) hs, of_decide_eq_true hend⟩

/-- Both get the id 2, and one of the two is not counted. -/
theorem createTwice_loses : ∃ (tr : List (Fin 2 × Act)) (s : Kernel (Fin 2)),
    Run (kthreads (Fin 2)) anyStep tr s ∧ Quiet s.table ∧
      (s.table.proc 0).thread_count < {q | ThreadOf s.table q 0}.ncard ∧
      ¬(handed s.table 0).Nodup := by
  obtain ⟨s, hrun, hquiet, hcount, hhanded, hthread⟩ := createTwice_run
  refine ⟨_, s, hrun, hquiet, ?_, by rw [hhanded]; decide⟩
  have hsub : (({1, 2, 3} : Finset Slot) : Set Slot) ⊆ {q | ThreadOf s.table q 0} := by
    intro q hq
    exact hthread q (by simpa using hq)
  have hle := Set.ncard_le_ncard hsub (Set.toFinite _)
  rw [Set.ncard_coe_finset] at hle
  rw [hcount]
  exact lt_of_lt_of_le (by decide) hle

/-- The thread of init makes a thread, and both exit; init joins the first. -/
def createNested : List (Fin 2 × Act) :=
  threadRuns ++ creates 1 2 ++ exits 1 7 ++ starts 1 2 ++ exits 1 8 ++ joins 0 1 1

theorem creation_counted_nested : ∃ s : Kernel (Fin 2),
    Run (kthreads (Fin 2)) Creating createNested.reverse s ∧ s.table.joins = [(1, 7)] ∧
      {q | ThreadOf s.table q 0}.ncard = 1 ∧ handed s.table 0 = [2, 1] ∧
      (handed s.table 0).Nodup := by
  have htr : ((createNested.foldlM (guarded Creating fun s l => step s l.1 l.2) boot).map fun s =>
      decide (Quiet s.table ∧ (s.table.proc 0).thread_count = 1 ∧ s.table.joins = [(1, 7)] ∧
        handed s.table 0 = [2, 1])) = some true := by
    decide +kernel
  obtain ⟨s, hs, hend⟩ := Option.map_eq_some_iff.mp htr
  obtain ⟨hquiet, hcount, hjoins, hhanded⟩ := of_decide_eq_true hend
  have hrun := run_checked hs
  obtain ⟨hall, hnodup⟩ := creation_counted hrun
  exact ⟨s, hrun, hjoins, (hall hquiet 0).symm.trans hcount, hhanded, hnodup 0⟩

/-! ## The ids of the threads that have not been joined -/

namespace Ctl

/-- The thread it is making, while that has no id. -/
def unnamed (k : Ctl) : Option Slot :=
  match k.core with
  | .tidParent np | .loadTid np _ | .storeTid np _ _ => some np
  | _ => none

/-- The id of the thread a join waits for, and the slot it found it in. -/
def joins (k : Ctl) : Option (Int × Slot) :=
  match k.core with
  | .joinPoll _ tid q | .joinLoad _ tid q | .joinTake _ tid q _ => some (tid, q)
  | _ => none

end Ctl

theorem uncounted_of_unnamed (h : k.unnamed = some q) : k.uncounted = some q := by
  unfold Ctl.unnamed at h
  unfold Ctl.uncounted
  generalize k.core = k' at h ⊢
  cases k' <;> first | exact h | exact absurd h (by simp)

/-- Some thread is about to give `q` an id. -/
def Unnamed (t : Table) (q : Slot) : Prop :=
  ∃ p, (t.proc p).Active ∧ (t.proc p).ctl.unnamed = some q

structure Names (t : Table) : Prop where
  given : ∀ q m j, ThreadOf t q m → (t.proc q).tid ≠ 0 → (t.proc m).kstack = some j →
    (t.proc q).tid ∈ handed t j
  distinct : ∀ q q' m, ThreadOf t q m → ThreadOf t q' m → (t.proc q).tid ≠ 0 →
    (t.proc q').tid = (t.proc q).tid → q' = q
  unnamed : ∀ q m, ThreadOf t q m → (t.proc q).tid = 0 → Unnamed t q

/-- `next_tid` is loaded only while no thread is between its load and its store of
it, and no process makes more than 65535 threads, so that it does not come around
to 0. -/
structure Distinct (s : Kernel C) (l : C × Act) : Prop extends Orderly s l where
  next : nextTid.Apart s l
  few : Few (2 ^ 16 - 1) s l

instance (s : Kernel C) (l : C × Act) : Decidable (Distinct s l) :=
  decidable_of_iff (Orderly s l ∧ nextTid.Apart s l ∧ Few (2 ^ 16 - 1) s l)
    ⟨fun h => ⟨h.1, h.2.1, h.2.2⟩, fun h => ⟨h.toOrderly, h.next, h.few⟩⟩

omit [DecidableEq C] in
theorem Few.mono {b b' : Nat} {l : C × Act} (h : Few b s l) (hb : b ≤ b') : Few b' s l :=
  fun p i hcpu ha np owner v hk j hj => lt_of_lt_of_le (h p i hcpu ha np owner v hk j hj) hb

omit [DecidableEq C] in
/-- The next id of a process that has handed out fewer than 65535 is none of these,
and not 0. -/
theorem Numbers.next_new (h : Numbers t) {j v : Nat} (hv : v = ushort ((handed t j).length + 1))
    (hfew : (handed t j).length < 2 ^ 16 - 1) : v ≠ 0 ∧ v ∉ handed t j := by
  have hplain : v = (handed t j).length + 1 := by
    rw [hv, ushort]
    omega
  refine ⟨by omega, fun hmem => ?_⟩
  rw [h.order j] at hmem
  obtain ⟨x, hx, heq⟩ := List.mem_map.mp hmem
  rw [List.mem_reverse, List.mem_range] at hx
  rw [ushort] at heq
  omega

omit [DecidableEq C] in
/-- Ids that were handed out stay so. -/
theorem Naming.handed (h : Naming t t' k n) {v j : Nat} (hv : v ∈ handed t j) :
    v ∈ CS444.Kthreads.handed t' j := by
  cases h with
  | same htids =>
      rw [CS444.Kthreads.handed, htids]
      exact hv
  | born np ht =>
      rw [ht]
      exact hv
  | taken np owner w _ _ ht =>
      obtain ⟨e, he, hev⟩ := List.mem_map.mp hv
      obtain ⟨he, hej⟩ := List.mem_filter.mp he
      refine List.mem_map.mpr ⟨e, List.mem_filter.mpr ⟨?_, hej⟩, hev⟩
      rw [ht]
      exact List.mem_append_right _ he

omit [DecidableEq C] in
theorem Names.alike (hnames : Names t) (h : Alike t t') : Names t' := by
  have hkin : ∀ q m, ThreadOf t' q m ↔ ThreadOf t q m := fun q m =>
    threadOf_congr (h.keeps Proc.kin (fun _ _ _ => rfl) q)
  have htid := h.keeps Proc.tid fun _ _ _ => rfl
  have hhanded : ∀ j, handed t' j = handed t j := fun j => by rw [handed, handed, h.rest]
  constructor
  case given =>
    intro q m j hq hne hj
    rw [htid] at hne ⊢
    rw [hhanded]
    refine hnames.given q m j ((hkin q m).mp hq) hne ?_
    exact (h.keeps Proc.kstack (fun _ _ _ => rfl) m).symm.trans hj
  case distinct =>
    intro q q' m hq hq' hne heq
    rw [htid] at hne heq
    rw [htid] at heq
    exact hnames.distinct q q' m ((hkin q m).mp hq) ((hkin q' m).mp hq') hne heq
  case unnamed =>
    intro q m hq hzero
    obtain ⟨p, hp, hk⟩ := hnames.unnamed q m ((hkin q m).mp hq) ((htid q).symm.trans hzero)
    refine ⟨p, (h.active p).mpr hp, ?_⟩
    rw [Ctl.unnamed, h.core p hp]
    exact hk

omit [DecidableEq C] in
/-- A thread under construction keeps its maker until it has an id. -/
theorem body_unnamed (h : BodyStep t p k t' n) (hq : k.unnamed = some q) :
    n.ctl.unnamed = some q ∨ ∃ owner v, k = .storeTid q owner v ∧ n.ctl = .countParent q ∧
      (t'.proc q).tid = v := by
  cases h with
  | preempt k | block n k | yieldSched k | sleepSched n k => exact Or.inl hq
  | tidParent np owner | loadTid np owner => exact Or.inl hq
  | storeTid np owner v =>
      obtain rfl : np = q := Option.some.inj hq
      exact Or.inr ⟨owner, v, rfl, rfl, by simp [takeTid]⟩
  | _ => exact absurd hq (by simp [Ctl.unnamed, Ctl.core])

namespace Takes

variable (h : Takes s c p i pick t n) (hfam : Family s.table)

include h hfam

omit [DecidableEq C] in
/-- The thread has the id it had, has just been linked, or gets its id. -/
theorem tid_cases (hq : ThreadOf t q m) :
    (t.proc q).tid = (s.table.proc q).tid ∧ ThreadOf s.table q m ∨
      (t.proc q).tid = 0 ∧ n.ctl = .tidParent q ∨
      ∃ v, (s.table.proc p).ctl = .storeTid q m v ∧ n.ctl = .countParent q ∧
        (t.proc q).tid = v := by
  rcases h.thread_new hfam hq with hold | ⟨hk, hgo, -⟩
  · by_cases htid : (t.proc q).tid = (s.table.proc q).tid
    · exact Or.inl ⟨htid, hold⟩
    cases body_kin h.body q with
    | same _ _ hsame => exact absurd hsame htid
    | fresh thread hk =>
        have hnone : (s.table.proc q).parent = none := h.stage hfam hk
        exact absurd (hnone.symm.trans hold.2) (by simp)
    | forked d _ _ _ hsame => exact absurd hsame htid
    | linked owner _ _ _ _ hsame => exact absurd hsame htid
    | named owner v hk hv _ _ hgo =>
        have hlinked : _ ∧ _ := h.stage hfam hk
        obtain rfl : owner = m := Option.some.inj (hlinked.1.1.2.symm.trans hold.2)
        exact Or.inr (Or.inr ⟨v, hk, hgo, hv⟩)
    | passed _ _ _ _ hsame => exact absurd hsame htid
    | reaped _ _ _ _ hsame => exact absurd hsame htid
  · refine Or.inr (Or.inl ⟨?_, hgo⟩)
    have hstage : _ ∧ _ := h.stage hfam hk
    have hzero : (s.table.proc q).tid = 0 := hstage.1.2
    cases body_kin h.body q with
    | same _ _ htid => exact htid.trans hzero
    | fresh thread _ _ _ htid => exact htid
    | forked d _ _ _ htid => exact htid.trans hzero
    | linked owner _ _ _ _ htid => exact htid.trans hzero
    | named owner v hk' => exact absurd (hk.symm.trans hk') (by simp)
    | passed _ _ _ _ htid => exact htid.trans hzero
    | reaped _ _ _ _ htid => exact htid.trans hzero

omit [DecidableEq C] in
theorem names (hnames : Names s.table) (hh : Handing s)
    (hok : Few (2 ^ 16 - 1) s (c, .run pick)) : Names (t.goto p n.ctl) := by
  have htid : ∀ q, ((t.goto p n.ctl).proc q).tid = (t.proc q).tid := fun q =>
    goto_keeps Proc.tid fun _ _ => rfl
  have hgiven : ∀ q m v, (s.table.proc p).ctl = .storeTid q m v → n.ctl = .countParent q →
      ∃ j, (s.table.proc m).kstack = some j ∧ v ≠ 0 ∧ v ∉ handed s.table j := by
    intro q m v hk hgo
    have hnext : pick = .next := by
      refine body_next_of_go h.step (Or.inr (Or.inl ⟨q, m, v, hk⟩)) ?_
      rw [hgo, hk]
      simp [Ctl.core]
    obtain ⟨-, j, hj, hv⟩ := h.next_number hfam hh.numbers hh.held hk
    exact ⟨j, hj, hh.numbers.next_new hv (hok p i h.cpu (by rw [hnext]) q m v hk j hj)⟩
  have hfresh : ∀ q m v, (s.table.proc p).ctl = .storeTid q m v → n.ctl = .countParent q →
      v ≠ 0 ∧ ∀ q', ThreadOf s.table q' m → (s.table.proc q').tid ≠ v := by
    intro q m v hk hgo
    obtain ⟨j, hj, hne, hnot⟩ := hgiven q m v hk hgo
    refine ⟨hne, ?_⟩
    rintro q' hq' rfl
    exact hnot (hnames.given q' m j hq' hne hj)
  -- The new id is none of the other threads'.
  have hnew : ∀ q q' m v, (s.table.proc p).ctl = .storeTid q m v → n.ctl = .countParent q →
      ThreadOf t q' m → (t.proc q').tid = v → q' = q := by
    intro q q' m v hk hgo hq' heq
    rcases h.tid_cases hfam hq' with ⟨hsame, hold⟩ | ⟨-, hgo'⟩ | ⟨v', hk', -⟩
    · exact absurd (hsame.symm.trans heq) ((hfresh q m v hk hgo).2 q' hold)
    · exact absurd (hgo.symm.trans hgo') (by simp)
    · exact (Ctl.storeTid.inj (hk.symm.trans hk')).1.symm
  constructor
  case given =>
    intro q m j hq hne hj
    rw [threadOf_goto] at hq
    rw [htid] at hne ⊢
    show _ ∈ handed t j
    have hnaming := body_naming h.body
    have hstack : (s.table.proc m).kstack = some j := by
      have hact : (s.table.proc m).Active := by
        rcases h.tid_cases hfam hq with ⟨-, hold⟩ | ⟨hzero, -⟩ | ⟨v, hk, -⟩
        · exact (hfam.host q m hold).1
        · exact absurd hzero hne
        · have hlinked : _ ∧ _ := h.stage hfam hk
          exact (hfam.host q m hlinked.1.1).1
      exact (h.kstack_same hact).symm.trans (goto_kstack.symm.trans hj)
    rcases h.tid_cases hfam hq with ⟨hsame, hold⟩ | ⟨hzero, -⟩ | ⟨v, hk, hgo, hv⟩
    · rw [hsame] at hne ⊢
      exact hnaming.handed (hnames.given q m j hold hne hstack)
    · exact absurd hzero hne
    · have hbody := h.body
      rw [hk] at hbody
      cases hbody with
      | preempt | block => exact absurd hgo (by simp [Next.ctl])
      | storeTid =>
          rw [hv, handed_takeTid hstack, if_pos rfl]
          exact List.mem_cons_self
  case distinct =>
    intro q q' m hq hq' hne heq
    rw [threadOf_goto] at hq hq'
    rw [htid] at hne heq
    rw [htid] at heq
    rcases h.tid_cases hfam hq with ⟨hsame, hold⟩ | ⟨hzero, -⟩ | ⟨v, hk, hgo, hv⟩
    · rcases h.tid_cases hfam hq' with ⟨hsame', hold'⟩ | ⟨hzero', -⟩ | ⟨v, hk, hgo, hv⟩
      · rw [hsame] at hne heq
        exact hnames.distinct q q' m hold hold' hne (hsame'.symm.trans heq)
      · exact absurd (heq.symm.trans hzero') hne
      · exact (hnew q' q m v hk hgo hq (heq.symm.trans hv)).symm
    · exact absurd hzero hne
    · exact hnew q q' m v hk hgo hq' (heq.trans hv)
  case unnamed =>
    intro q m hq hzero
    rw [threadOf_goto] at hq
    rw [htid] at hzero
    have hself : ∀ np, n.ctl.unnamed = some np → Unnamed (t.goto p n.ctl) np := by
      intro np hk
      refine ⟨p, goto_active.mpr ?_, by rw [goto_ctl_self]; exact hk⟩
      rcases h.own with hact | ⟨-, ⟨v, -, rfl⟩ | ⟨-, rfl⟩⟩
      · exact hact
      · exact absurd hk (by simp [Next.ctl, Ctl.unnamed, Ctl.core])
      · exact absurd hk (by simp [Next.ctl, Ctl.unnamed, Ctl.core])
    rcases h.tid_cases hfam hq with ⟨hsame, hold⟩ | ⟨-, hgo⟩ | ⟨v, hk, hgo, hv⟩
    · obtain ⟨r, hr, hk⟩ := hnames.unnamed q m hold (hsame.symm.trans hzero)
      by_cases hrp : r = p
      · subst hrp
        rcases body_unnamed h.body hk with hk' | ⟨owner, v, hk', hgo, hv⟩
        · exact hself q hk'
        · exact absurd (hv.symm.trans hzero) (hfresh q owner v hk' hgo).1
      · obtain ⟨hact, hctl⟩ := h.still_active hrp hr
        refine ⟨r, goto_active.mpr hact, ?_⟩
        rw [goto_of_ne hrp, hctl]
        exact hk
    · exact hself q (by rw [hgo]; rfl)
    · exact absurd (hv.symm.trans hzero) (hfresh q m v hk hgo).1

end Takes

omit [DecidableEq C] in
theorem boot_names (h : Boot s) : Names s.table := by
  have hno : ∀ q m, ¬ThreadOf s.table q m := by
    rintro q m ⟨hself, -⟩
    by_cases hq : q = initproc
    · rw [hq, h.init] at hself
      exact absurd hself (by simp)
    · rw [h.unused q hq] at hself
      exact absurd hself (by simp)
  exact ⟨fun q m _ hq => absurd hq (hno q m), fun q _ m hq => absurd hq (hno q m),
    fun q m hq => absurd hq (hno q m)⟩

theorem Names.step (hnames : Names s.table) (hh : Handing s) (hinv : Running s)
    (hfam : Family s.table) (hstep : CpuStep s c a s') (hok : Few (2 ^ 16 - 1) s (c, a)) :
    Names s'.table := by
  rcases hinv.split hstep with halike | ⟨p, i, pick, t, n, rfl, htakes, ht⟩
  · exact hnames.alike halike
  · rw [ht]
    exact htakes.names hfam hnames hh hok

theorem run_names {tr : List (C × Act)} (h : Run (kthreads C) Distinct tr s) :
    Handing s ∧ Names s.table := by
  induction h with
  | init hboot => exact ⟨boot_handing hboot, boot_names hboot⟩
  | @step s s' l tr hrun hstep hok ih =>
      obtain ⟨hh, hnames⟩ := ih
      obtain ⟨hinv, hfam⟩ := run_family (hrun.mono fun _ _ hok => hok.toOrderly)
      have hstep := step_cases hstep
      exact ⟨hh.step hinv hfam hstep hok.next (hok.few.mono (by decide)),
        hnames.step hh hinv hfam hstep hok.few⟩

/-- The threads of a process that have not been joined have ids other than 0 as
soon as `kthread_create` has stored them, the ids are distinct, and the slot a
join waits for is the one thread of its process with the id it was called with. -/
theorem tids_distinct {tr : List (C × Act)} (h : Run (kthreads C) Distinct tr s) :
    (∀ q m, ThreadOf s.table q m → ¬Unnamed s.table q → (s.table.proc q).tid ≠ 0 ∧
      ∀ q', ThreadOf s.table q' m → (s.table.proc q').tid = (s.table.proc q).tid → q' = q) ∧
    ∀ p tid q, (s.table.proc p).Active → (s.table.proc p).ctl.joins = some (tid, q) →
      ∃ m, process s.table p = some m ∧
        ∀ q', ThreadOf s.table q' m ∧ ((s.table.proc q').tid : Int) = tid ↔ q' = q := by
  obtain ⟨-, hnames⟩ := run_names h
  obtain ⟨-, hfam⟩ := run_family (h.mono fun _ _ hok => hok.toOrderly)
  constructor
  · intro q m hq hnamed
    have hne : (s.table.proc q).tid ≠ 0 := fun hzero => hnamed (hnames.unnamed q m hq hzero)
    exact ⟨hne, fun q' hq' heq => hnames.distinct q q' m hq hq' hne heq⟩
  · intro p tid q hp hjoin
    have hjoining : ∃ owner, Joining s.table p owner tid q := by
      have hstage := hfam.stage p hp
      rw [← stage_congr (Ctl.core_core _) (fun _ => rfl) fun _ => rfl] at hstage
      unfold Ctl.joins at hjoin
      generalize (s.table.proc p).ctl.core = k at hjoin hstage
      cases k with
      | joinPoll owner tid' q' | joinLoad owner tid' q' =>
          obtain ⟨rfl, rfl⟩ := Prod.mk.inj (Option.some.inj hjoin)
          exact ⟨owner, hstage⟩
      | joinTake owner tid' q' v =>
          obtain ⟨rfl, rfl⟩ := Prod.mk.inj (Option.some.inj hjoin)
          exact ⟨some owner, hstage⟩
      | _ => exact absurd hjoin (by simp)
    obtain ⟨owner, howner, hne, htid, m, hm, hthread⟩ := hjoining
    refine ⟨m, howner.symm.trans hm, fun q' => ⟨?_, ?_⟩⟩
    · rintro ⟨hq', heq⟩
      exact hnames.distinct q q' m hthread hq' (by omega) (by omega)
    · rintro rfl
      exact ⟨hthread, htid⟩

/-- The thread of init makes a thread and exits, init joins it and makes another one
in its slot, and waits for the second. -/
def joinsNested : List (Fin 2 × Act) :=
  threadRuns ++ creates 1 2 ++ exits 1 7 ++ joins 0 1 1 ++ creates 0 1 ++ starts 1 2 ++
    exits 1 8 ++ [(0, .run (.call (.kthread_join 2)))] ++ List.replicate 4 (onward 0)

theorem tids_distinct_nested : ∃ s : Kernel (Fin 2),
    Run (kthreads (Fin 2)) Distinct joinsNested.reverse s ∧ (s.table.proc 1).tid = 3 ∧
      (∀ q, ThreadOf s.table q 0 → (s.table.proc q).tid = 3 → q = 1) ∧
      ∃ m, process s.table 0 = some m ∧
        ∀ q, ThreadOf s.table q m ∧ ((s.table.proc q).tid : Int) = 2 ↔ q = 2 := by
  have htr : ((joinsNested.foldlM (guarded Distinct fun s l => step s l.1 l.2) boot).map fun s =>
      decide (Quiet s.table ∧ ThreadOf s.table 1 0 ∧ (s.table.proc 1).tid = 3 ∧
        (s.table.proc 0).state = .running ∧ (s.table.proc 0).ctl.joins = some (2, 2))) =
          some true := by
    decide +kernel
  obtain ⟨s, hs, hend⟩ := Option.map_eq_some_iff.mp htr
  obtain ⟨hquiet, hthread, htid, hstate, hjoins⟩ := of_decide_eq_true hend
  have hrun := run_checked hs
  obtain ⟨hdistinct, hdenotes⟩ := tids_distinct hrun
  have hnamed : ¬Unnamed s.table 1 := by
    rintro ⟨p, hp, hk⟩
    have hmake := Ctl.creating_of_uncounted (uncounted_of_unnamed hk)
    exact absurd ((hquiet p hp).symm.trans hmake) (by simp)
  refine ⟨s, hrun, htid, fun q hq heq => ?_, hdenotes 0 2 2 (Or.inl hstate) hjoins⟩
  exact (hdistinct 1 0 hthread hnamed).2 q hq (heq.trans htid.symm)

/-- Two threads of init have the id 2. -/
theorem createTwice_same_tid : ∃ (tr : List (Fin 2 × Act)) (s : Kernel (Fin 2)),
    Run (kthreads (Fin 2)) anyStep tr s ∧ Quiet s.table ∧ ThreadOf s.table 2 0 ∧
      ThreadOf s.table 3 0 ∧ (s.table.proc 2).tid = (s.table.proc 3).tid := by
  have htr : ((createTwice.foldlM (fun s l => step s l.1 l.2) boot).map fun s =>
      decide (Quiet s.table ∧ (s.table.proc 2).kin = (some 0, true, 2) ∧
        (s.table.proc 3).kin = (some 0, true, 2))) = some true := by
    decide +kernel
  obtain ⟨s, hs, hend⟩ := Option.map_eq_some_iff.mp htr
  obtain ⟨hquiet, htwo, hthree⟩ := of_decide_eq_true hend
  simp only [Proc.kin, Prod.mk.injEq] at htwo hthree
  exact ⟨_, s, Run.of_foldlM boot_boot (fun _ _ _ h => ⟨h, trivial⟩) hs, hquiet, ⟨htwo.2.1, htwo.1⟩,
    ⟨hthree.2.1, hthree.1⟩, htwo.2.2.trans hthree.2.2.symm⟩

end Kthreads
end CS444
