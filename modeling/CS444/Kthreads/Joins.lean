/-
Every thread that exits is joined once.

`History` relates the threads' calls of `kthread_exit`, which `exits` records,
to the values the joins returned, which `joins` records: a thread is named by
its kernel stack in both.  `join_takes` and `join_waits` are about one step of a
join: it takes the thread it was called for or leaves the table as it is.
-/
import CS444.Kthreads.Count

namespace CS444
namespace Kthreads

open Runs

variable {C : Type} {s s' : Kernel C} {c : C} {a : Act} {t t' : Table} {p q m : Slot} {i : Nat}
  {pick : Pick} {k : Ctl} {n : Next}

structure History (t : Table) : Prop where
  exits : (t.exits.map Prod.fst).Nodup
  joins : (t.joins.map Prod.fst).Nodup
  joined : ∀ e ∈ t.joins, e ∈ t.exits
  waiting : ∀ e ∈ t.exits, e ∈ t.joins ∨
    ∃ q, Exited t q ∧ (t.proc q).kstack = some e.1 ∧ (t.proc q).thread_exit_value = e.2
  zombie : ∀ q, Exited t q → ∃ i, (t.proc q).kstack = some i ∧
    (i, (t.proc q).thread_exit_value) ∈ t.exits ∧ i ∉ t.joins.map Prod.fst
  alive : ∀ q i, (t.proc q).kstack = some i → ¬Exited t q → i ∉ t.exits.map Prod.fst
  old : ∀ e ∈ t.exits, e.1 < t.nextstack

/-! ## One step -/

/-- What a step does to the records. -/
inductive Record (t t' : Table) (p : Slot) (k : Ctl) (n : Next) : Prop
  | same : t'.exits = t.exits → t'.joins = t.joins →
      (∀ v, k = .threadExit2 v → n ≠ .go (.acquire .threadSched)) →
      (∀ owner tid q v, k ≠ .joinTake owner tid q v) → Record t t' p k n
  | exited (v : Int) : k = .threadExit2 v → t' = threadZombie t p v →
      n = .go (.acquire .threadSched) → Record t t' p k n
  | joined (owner : Slot) (tid : Int) (q : Slot) (v : Nat) : k = .joinTake owner tid q v →
      t' = takeThread t owner q v → n = .go (.release (.ret (t.proc q).thread_exit_value)) →
      Record t t' p k n

theorem body_record (h : BodyStep t p k t' n) : Record t t' p k n := by
  cases h with
  | threadExit2 v => exact .exited v rfl rfl rfl
  | joinTake owner tid q v => exact .joined owner tid q v rfl rfl rfl
  | preempt k _ hopen | block m k _ hopen =>
      refine .same rfl rfl (by simp) ?_
      rintro owner tid q v rfl
      exact absurd hopen (by simp [Ctl.locked])
  | exitSched =>
      exact .same (by rw [exitBody_rest]) (by rw [exitBody_rest]) (by simp) (by simp)
  | _ => exact .same rfl rfl (by simp) (by simp)

namespace Takes

variable (h : Takes s c p i pick t n) (hfam : Family s.table)

include h

include hfam

/-- A thread that exited stays as it is while no join takes it. -/
theorem exited_same (hq : Exited s.table q)
    (htake : ∀ owner tid v, (s.table.proc p).ctl ≠ .joinTake owner tid q v) :
    Exited t q ∧ (t.proc q).kstack = (s.table.proc q).kstack ∧
      (t.proc q).thread_exit_value = (s.table.proc q).thread_exit_value := by
  rcases h.exited_step hfam hq with hkeep | ⟨-, owner, tid, v, hk⟩
  · exact hkeep
  · exact absurd hk (htake owner tid v)

omit hfam in
/-- No record of an exit is about a stack that is still in use or new. -/
theorem alive_step (hh : History s.table)
    (hkeep : ∀ q, ¬Exited t q → (t.proc q).kstack ≠ none → ¬Exited s.table q) (q : Slot) (i : Nat)
    (hi : (t.proc q).kstack = some i) (hno : ¬Exited t q) : i ∉ s.table.exits.map Prod.fst := by
  rcases (body_stack_old h.body).2 q i hi with hold | rfl
  · exact hh.alive q i hold (hkeep q hno (by simp [hi]))
  · intro hmem
    obtain ⟨e, he, heq⟩ := List.mem_map.mp hmem
    have := hh.old e he
    omega

theorem history_exited {v : Int} (hst : Stacks s.table) (hh : History s.table)
    (hk : (s.table.proc p).ctl = .threadExit2 v)
    (ht : t = threadZombie s.table p v) : History t := by
  have hi := h.inv.stack c p i h.cpu
  have hstage : _ ∧ _ := h.stage hfam hk
  have hexits : t.exits = (i, v) :: s.table.exits := by
    rw [ht, threadZombie, Table.set, hi]
    rfl
  have hself : Exited t p := by
    refine ⟨by rw [ht, threadZombie, Table.set_self], ?_⟩
    exact (h.is_thread_same h.active.used.2).trans hstage.1
  have hvalue : (t.proc p).thread_exit_value = v := by
    rw [ht]
    exact (threadZombie_keeps Proc.thread_exit_value fun _ _ => rfl).trans hstage.2
  have hstack : ∀ q, (t.proc q).kstack = (s.table.proc q).kstack := fun q => by
    rw [ht]
    exact threadZombie_keeps Proc.kstack fun _ _ => rfl
  have hsame : ∀ q, Exited s.table q → _ := fun q hq =>
    h.exited_same hfam hq fun owner tid w => by simp [hk]
  have hnew : i ∉ s.table.exits.map Prod.fst := hh.alive p i hi fun hexited =>
    absurd (hexited.1.symm.trans h.run) (by decide)
  have hjoins : t.joins = s.table.joins := by
    rw [ht]
    rfl
  constructor
  case exits =>
    rw [hexits, List.map_cons]
    exact List.nodup_cons.mpr ⟨hnew, hh.exits⟩
  case joins => exact hjoins ▸ hh.joins
  case joined =>
    intro e he
    rw [hexits]
    exact List.mem_cons_of_mem _ (hh.joined e (hjoins ▸ he))
  case waiting =>
    intro e he
    rw [hexits] at he
    rw [hjoins]
    rcases List.mem_cons.mp he with rfl | he
    · exact Or.inr ⟨p, hself, (hstack p).trans hi, hvalue⟩
    · refine (hh.waiting e he).imp_right ?_
      rintro ⟨q, hq, hqi, hqv⟩
      obtain ⟨hq', hqi', hqv'⟩ := hsame q hq
      exact ⟨q, hq', hqi'.trans hqi, hqv'.trans hqv⟩
  case zombie =>
    intro q hq
    rw [hexits, hjoins]
    rcases h.was_exited hfam hq with hold | ⟨rfl, -⟩
    · obtain ⟨j, hj, hmem, hnot⟩ := hh.zombie q hold
      obtain ⟨-, hqi, hqv⟩ := hsame q hold
      exact ⟨j, hqi.trans hj, List.mem_cons_of_mem _ (hqv ▸ hmem), hnot⟩
    · refine ⟨i, (hstack q).trans hi, by simp [hvalue], fun hmem => hnew ?_⟩
      obtain ⟨e, he, heq⟩ := List.mem_map.mp hmem
      exact List.mem_map.mpr ⟨e, hh.joined e he, heq⟩
  case alive =>
    intro q j hj hno
    rw [hexits, List.map_cons, List.mem_cons, not_or]
    refine ⟨?_, h.alive_step hh (fun r hr _ hold => hr (hsame r hold).1) q j hj hno⟩
    rintro rfl
    obtain rfl := hst.apart q p j ((hstack q).symm.trans hj) hi
    exact hno hself
  case old =>
    intro e he
    rw [hexits] at he
    refine lt_of_lt_of_le ?_ (body_stack_old h.body).1
    rcases List.mem_cons.mp he with rfl | he
    · exact hst.fresh p _ hi
    · exact hh.old e he

theorem history_joined {owner r : Slot} {tid : Int} {v : Nat} (hst : Stacks s.table)
    (hh : History s.table) (hk : (s.table.proc p).ctl = .joinTake owner tid r v)
    (ht : t = takeThread s.table owner r v) : History t := by
  obtain ⟨-, -, -, m, -, hthread⟩ := h.stage hfam hk
  have hexited : Exited s.table r :=
    ⟨(h.inv.target p r h.active (by rw [hk]; rfl)).2, hthread.1⟩
  obtain ⟨i', hi', hmem', hnot'⟩ := hh.zombie r hexited
  have hexits : t.exits = s.table.exits := by
    rw [ht]
    rfl
  have hjoins : t.joins = (i', (s.table.proc r).thread_exit_value) :: s.table.joins := by
    rw [ht, takeThread, Table.joinReset, Table.set, Table.set, hi']
    rfl
  have hfree : (t.proc r).state = .unused ∧ (t.proc r).kstack = none := by
    rw [ht, takeThread, Table.joinReset, Table.set_self]
    exact ⟨rfl, rfl⟩
  have hsame : ∀ q, q ≠ r → Exited s.table q → _ := fun q hqr hq =>
    h.exited_same hfam hq fun owner' tid' v' hk' =>
      hqr (Ctl.joinTake.inj (hk.symm.trans hk')).2.2.1.symm
  have hbefore : ∀ q, Exited t q → Exited s.table q ∧ q ≠ r := by
    intro q hq
    rcases h.was_exited hfam hq with hold | ⟨-, w, hk', -⟩
    · refine ⟨hold, ?_⟩
      rintro rfl
      exact absurd (hfree.1.symm.trans hq.1) (by decide)
    · exact absurd (hk.symm.trans hk') (by simp)
  constructor
  case exits => exact hexits ▸ hh.exits
  case joins =>
    rw [hjoins, List.map_cons]
    exact List.nodup_cons.mpr ⟨hnot', hh.joins⟩
  case joined =>
    intro e he
    rw [hjoins] at he
    rw [hexits]
    rcases List.mem_cons.mp he with rfl | he
    · exact hmem'
    · exact hh.joined e he
  case waiting =>
    intro e he
    rw [hexits] at he
    rw [hjoins]
    rcases hh.waiting e he with hjoined | ⟨q, hq, hqi, hqv⟩
    · exact Or.inl (List.mem_cons_of_mem _ hjoined)
    by_cases hqr : q = r
    · subst hqr
      refine Or.inl (List.mem_cons.mpr (Or.inl ?_))
      exact Prod.ext (Option.some.inj (hqi.symm.trans hi')) hqv.symm
    · obtain ⟨hq', hqi', hqv'⟩ := hsame q hqr hq
      exact Or.inr ⟨q, hq', hqi'.trans hqi, hqv'.trans hqv⟩
  case zombie =>
    intro q hq
    obtain ⟨hold, hqr⟩ := hbefore q hq
    obtain ⟨j, hj, hmem, hnot⟩ := hh.zombie q hold
    obtain ⟨-, hqi, hqv⟩ := hsame q hqr hold
    refine ⟨j, hqi.trans hj, hexits ▸ hqv ▸ hmem, ?_⟩
    rw [hjoins, List.map_cons, List.mem_cons, not_or]
    refine ⟨?_, hnot⟩
    rintro rfl
    exact hqr (hst.apart q r j hj hi')
  case alive =>
    intro q j hj hno
    rw [hexits]
    refine h.alive_step hh (fun q' hq' hstack hold => ?_) q j hj hno
    by_cases hqr : q' = r
    · exact hstack (hqr ▸ hfree.2)
    · exact hq' (hsame q' hqr hold).1
  case old =>
    intro e he
    exact lt_of_lt_of_le (hh.old e (hexits ▸ he)) (body_stack_old h.body).1

theorem history (hst : Stacks s.table) (hh : History s.table) : History t := by
  cases body_record h.body with
  | exited v hk ht => exact h.history_exited hfam hst hh hk ht
  | joined owner tid r v hk ht => exact h.history_joined hfam hst hh hk ht
  | same hexits hjoins hexit htake =>
      have hsame : ∀ q, Exited s.table q → _ := fun q hq =>
        h.exited_same hfam hq fun owner tid v => htake owner tid q v
      have hbefore : ∀ q, Exited t q → Exited s.table q := by
        intro q hq
        rcases h.was_exited hfam hq with hold | ⟨-, v, hk, hgo⟩
        · exact hold
        · exact absurd hgo (hexit v hk)
      constructor
      case exits => exact hexits ▸ hh.exits
      case joins => exact hjoins ▸ hh.joins
      case joined =>
        rw [hexits, hjoins]
        exact hh.joined
      case waiting =>
        intro e he
        rw [hjoins]
        refine (hh.waiting e (hexits ▸ he)).imp_right ?_
        rintro ⟨q, hq, hqi, hqv⟩
        obtain ⟨hq', hqi', hqv'⟩ := hsame q hq
        exact ⟨q, hq', hqi'.trans hqi, hqv'.trans hqv⟩
      case zombie =>
        intro q hq
        obtain ⟨j, hj, hmem, hnot⟩ := hh.zombie q (hbefore q hq)
        obtain ⟨-, hqi, hqv⟩ := hsame q (hbefore q hq)
        exact ⟨j, hqi.trans hj, hexits ▸ hqv ▸ hmem, hjoins ▸ hnot⟩
      case alive =>
        intro q j hj hno
        rw [hexits]
        exact h.alive_step hh (fun r hr _ hold => hr (hsame r hold).1) q j hj hno
      case old =>
        intro e he
        exact lt_of_lt_of_le (hh.old e (hexits ▸ he)) (body_stack_old h.body).1

end Takes

/-! ## The steps of a join -/

/-- A join takes `q`, the zombie thread `tid` of its caller's process `owner`. -/
structure JoinTakes (t t' : Table) (p owner : Slot) (tid : Int) (q : Slot) (n : Next) : Prop where
  caller : process t p = some owner
  thread : ThreadOf t q owner
  named : ((t.proc q).tid : Int) = tid
  zombie : (t.proc q).state = .zombie
  value : n = .go (.release (.ret (t.proc q).thread_exit_value))
  count : (t.proc owner).thread_count = (t'.proc owner).thread_count + 1
  others : ∀ r, r ≠ q → r ≠ owner → t'.proc r = t.proc r

/-- A join goes on looking, waits, or gives up and returns -1. -/
structure JoinWaits (t t' : Table) (p : Slot) (n : Next) : Prop where
  rest : t' = { t with proc := t'.proc }
  self : t'.proc p =
    { t.proc p with state := (t'.proc p).state, chan := (t'.proc p).chan }
  others : ∀ q, q ≠ p → t'.proc q = t.proc q
  value : ∀ v, n = .go (.release (.ret v)) → v = -1

/-- In a join that has not loaded `thread_count` yet. -/
def Ctl.joining (k : Ctl) : Prop :=
  match k.core with
  | .joinScan _ _ _ | .joinPoll _ _ _ | .joinLoad _ _ _ => True
  | _ => False

theorem join_waits (h : BodyStep t p k t' n) (hk : k.joining) : JoinWaits t t' p n := by
  have hsame : ∀ k', (∀ v, k' ≠ .release (.ret v)) → JoinWaits t t p (.go k') := fun k' hne =>
    ⟨rfl, rfl, fun _ _ => rfl, fun v hv => absurd (congrArg Next.ctl hv) (hne v)⟩
  cases h with
  | preempt | block => exact hsame _ (by simp)
  | yieldSched | sleepSched =>
      exact ⟨rfl, by simp, fun q hq => Table.set_of_ne hq, fun v hv => absurd hv (by simp)⟩
  | joinMatch | joinSkip | joinZombie | joinWait | joinLoad => exact hsame _ (by simp)
  | joinNone => exact ⟨rfl, rfl, fun _ _ => rfl, fun v hv => by simpa using hv.symm⟩
  | _ => exact absurd hk (by simp [Ctl.joining, Ctl.core])

theorem Takes.join_takes {owner : Slot} {tid : Int} {v : Nat} (h : Takes s c p i pick t n)
    (hfam : Family s.table) (hcount : Counts s.table) (hheld : threadCount.Held s.table)
    (hk : (s.table.proc p).ctl = .joinTake owner tid q v) :
    JoinTakes s.table t p owner tid q n := by
  obtain ⟨hcaller, -, htid, m, hm, hthread⟩ := h.stage hfam hk
  obtain rfl : owner = m := Option.some.inj hm
  have hv : v = (s.table.proc owner).thread_count := h.loaded_count hheld (by rw [hk]; rfl)
  have htaken : t = takeThread s.table owner q v ∧
      n = .go (.release (.ret (s.table.proc q).thread_exit_value)) := by
    have hbody := h.body
    rw [hk] at hbody
    cases hbody with
    | preempt _ _ hopen | block _ _ _ hopen => exact absurd hopen (by simp [Ctl.locked])
    | joinTake => exact ⟨rfl, rfl⟩
  obtain ⟨ht, hgo⟩ := htaken
  refine ⟨hcaller.symm, hthread, htid, (h.inv.target p q h.active (by rw [hk]; rfl)).2, hgo, ?_, ?_⟩
  · cases body_tally h.body with
    | same _ htake => exact absurd hk (htake owner tid q v)
    | linked np owner' hk' => exact absurd (hk.symm.trans hk') (by simp)
    | added np owner' v' hk' => exact absurd (hk.symm.trans hk') (by simp)
    | dropped owner' tid' q' v' hk' hnone hparent hstore =>
        obtain ⟨rfl, rfl, rfl, rfl⟩ := Ctl.joinTake.inj (hk.symm.trans hk')
        obtain ⟨hmem, -⟩ := h.count_dropped hfam hk hnone hparent (m := owner)
        have hpos : 0 < (counted s.table owner).ncard :=
          (Set.ncard_pos (Set.toFinite _)).mpr ⟨q, hmem⟩
        have hle : (counted s.table owner).ncard ≤ 64 := Takes.counted_le s.table owner
        rw [hstore, if_pos rfl, hv, hcount owner, ushort]
        omega
  · intro r hrq hro
    rw [ht, takeThread, Table.joinReset, Table.set_of_ne hrq, Table.set_of_ne hro]

/-! ## Over a run -/

theorem boot_history (h : Boot s) : History s.table := by
  have hnone : ∀ q, ¬Exited s.table q := by
    rintro q ⟨-, hself⟩
    by_cases hq : q = initproc
    · rw [hq, h.init] at hself
      exact absurd hself (by simp)
    · rw [h.unused q hq] at hself
      exact absurd hself (by simp)
  constructor
  case exits => simp [h.exits]
  case joins => simp [h.joins]
  case joined => simp [h.joins]
  case waiting => simp [h.exits]
  case zombie => exact fun q hq => absurd hq (hnone q)
  case alive => simp [h.exits]
  case old => simp [h.exits]

theorem History.congr (hh : History t) (hrest : t'.exits = t.exits ∧ t'.joins = t.joins ∧
      t'.nextstack = t.nextstack) (hexited : ∀ q, Exited t' q ↔ Exited t q)
    (hstack : ∀ q, (t'.proc q).kstack = (t.proc q).kstack)
    (hvalue : ∀ q, (t'.proc q).thread_exit_value = (t.proc q).thread_exit_value) :
    History t' := by
  obtain ⟨hexits, hjoins, hnext⟩ := hrest
  constructor
  case exits => exact hexits ▸ hh.exits
  case joins => exact hjoins ▸ hh.joins
  case joined =>
    rw [hexits, hjoins]
    exact hh.joined
  case waiting =>
    intro e he
    rw [hjoins]
    refine (hh.waiting e (hexits ▸ he)).imp_right ?_
    rintro ⟨q, hq, hqi, hqv⟩
    exact ⟨q, (hexited q).mpr hq, (hstack q).trans hqi, (hvalue q).trans hqv⟩
  case zombie =>
    intro q hq
    rw [hstack, hvalue, hexits, hjoins]
    exact hh.zombie q ((hexited q).mp hq)
  case alive =>
    intro q j hj hno
    rw [hexits]
    exact hh.alive q j ((hstack q).symm.trans hj) fun hq => hno ((hexited q).mpr hq)
  case old =>
    intro e he
    rw [hnext]
    exact hh.old e (hexits ▸ he)

variable [DecidableEq C]

theorem History.step (hinv : Running s) (hfam : Family s.table) (hst : Stacks s.table)
    (hh : History s.table) (hstep : CpuStep s c a s') : History s'.table := by
  rcases hinv.split hstep with halike | ⟨p, i, pick, t, n, -, htakes, ht⟩
  · have hrest := halike.rest
    refine hh.congr (by rw [hrest]; exact ⟨rfl, rfl, rfl⟩) (fun q => halike.exited)
      (halike.keeps Proc.kstack fun _ _ _ => rfl)
      (halike.keeps Proc.thread_exit_value fun _ _ _ => rfl)
  · rw [ht]
    refine (htakes.history hfam hst hh).congr ⟨rfl, rfl, rfl⟩ (fun q => ?_)
      (fun _ => goto_kstack) fun _ => goto_keeps Proc.thread_exit_value fun _ _ => rfl
    have hthread : ((t.goto p n.ctl).proc q).is_thread = (t.proc q).is_thread :=
      goto_keeps Proc.is_thread fun _ _ => rfl
    rw [Exited, Exited, goto_state, hthread]

theorem run_history {tr : List (C × Act)} (h : Run (kthreads C) Tallied tr s) :
    Stacks s.table ∧ History s.table := by
  induction h with
  | init hboot => exact ⟨boot_stacks hboot, boot_history hboot⟩
  | step hrun hstep _ ih =>
      obtain ⟨hinv, hfam, -⟩ := run_counts hrun
      have hstep := step_cases hstep
      exact ⟨ih.1.step hinv hstep, ih.2.step hinv hfam ih.1 hstep⟩

/-- Every thread exits once and is joined at most once, with the value it passed
to `kthread_exit`, and is there to be joined until then; a join takes the zombie
thread it was called for, which lowers `thread_count` by one, or it changes
nothing and returns -1. -/
theorem joined_once {tr : List (C × Act)} (h : Run (kthreads C) Tallied tr s) :
    ((s.table.exits.map Prod.fst).Nodup ∧ (s.table.joins.map Prod.fst).Nodup ∧
      (∀ e ∈ s.table.joins, e ∈ s.table.exits) ∧
      ∀ e ∈ s.table.exits, e ∈ s.table.joins ∨ ∃ q m, ThreadOf s.table q m ∧
        (s.table.proc q).state = .zombie ∧ (s.table.proc q).kstack = some e.1 ∧
        (s.table.proc q).thread_exit_value = e.2) ∧
    ∀ c p i pick t n, s.cpu c = some (p, i) →
      body s.table p (s.table.proc p).ctl pick = some (t, n) →
      ((s.table.proc p).ctl.joining → JoinWaits s.table t p n) ∧
      ∀ owner tid q v, (s.table.proc p).ctl = .joinTake owner tid q v →
        JoinTakes s.table t p owner tid q n := by
  obtain ⟨hinv, hfam, hcount, hheld⟩ := run_counts h
  obtain ⟨-, hh⟩ := run_history h
  refine ⟨⟨hh.exits, hh.joins, hh.joined, fun e he => ?_⟩, ?_⟩
  · refine (hh.waiting e he).imp_right ?_
    rintro ⟨q, ⟨hzombie, hself⟩, hstack, hvalue⟩
    obtain ⟨m, hm⟩ := hfam.thread q (by simp [Proc.Used, hzombie]) hself
    exact ⟨q, m, hm, hzombie, hstack, hvalue⟩
  · intro c p i pick t n hcpu hstep
    refine ⟨join_waits (body_step hstep), fun owner tid q v hk => ?_⟩
    have hrun : (s.table.proc p).state = .running := by
      rcases hinv.cpu c p i hcpu with hrun | ⟨-, hctl | hctl⟩
      · exact hrun
      · exact absurd (hk.symm.trans hctl) (by simp)
      · exact absurd (hk.symm.trans hctl) (by simp)
    exact Takes.join_takes ⟨hinv, hcpu, hrun, hstep⟩ hfam hcount hheld hk

/-- Init makes two threads; both have exited when init is about to take the second,
which it joins first. -/
def joinsSecond : List (Fin 2 × Act) :=
  threadRuns ++ exits 1 7 ++ creates 0 2 ++ starts 1 2 ++ exits 1 (-1) ++
    [(0, .run (.call (.kthread_join 2)))] ++ List.replicate 6 (onward 0)

/-- The join takes the second thread, and the first one is there to be joined. -/
theorem joined_once_second : ∃ s : Kernel (Fin 2),
    Run (kthreads (Fin 2)) Tallied joinsSecond.reverse s ∧ s.table.exits = [(2, -1), (1, 7)] ∧
      (∃ t n, body s.table 0 (.joinTake 0 2 2 2) .next = some (t, n) ∧
        JoinTakes s.table t 0 0 2 2 n) ∧
      ∃ q m, ThreadOf s.table q m ∧ (s.table.proc q).state = .zombie ∧
        (s.table.proc q).kstack = some 1 ∧ (s.table.proc q).thread_exit_value = 7 := by
  have htr : ((joinsSecond.foldlM (guarded Tallied fun s l => step s l.1 l.2) boot).map fun s =>
      decide (s.table.exits = [(2, -1), (1, 7)] ∧ s.table.joins = [] ∧ s.cpu 0 = some (0, 0) ∧
        (s.table.proc 0).ctl = .joinTake 0 2 2 2)) = some true := by
    decide +kernel
  obtain ⟨s, hs, hend⟩ := Option.map_eq_some_iff.mp htr
  obtain ⟨hexits, hjoins, hcpu, hk⟩ := of_decide_eq_true hend
  have hrun := run_checked hs
  obtain ⟨⟨-, -, -, hwaiting⟩, hbody⟩ := joined_once hrun
  refine ⟨s, hrun, hexits, ?_, ?_⟩
  · refine ⟨_, _, rfl, (hbody 0 0 0 .next _ _ hcpu (by rw [hk]; rfl)).2 0 2 2 2 hk⟩
  · have hfirst : ((1 : Nat), (7 : Int)) ∈ s.table.exits := by simp [hexits]
    rcases hwaiting _ hfirst with hjoined | hthere
    · exact absurd hjoined (by simp [hjoins])
    · exact hthere

/-- A thread of init waits for the thread 2, which exits and is joined by init;
init makes another thread in its slot, which exits too. -/
def joinReused : List (Fin 2 × Act) :=
  threadRuns ++ creates 0 2 ++ [(1, .run (.call (.kthread_join 2)))] ++
    List.replicate 8 (onward 1) ++ [(1, .dispatch 2), onward 1] ++ exits 1 5 ++ joins 0 2 2 ++
    creates 0 2 ++ starts 1 2 ++ [(1, .run (.call (.kthread_exit 9)))] ++
    List.replicate 5 (onward 1) ++ [(1, .dispatch 1)] ++ List.replicate 4 (onward 1)

/-- The join of thread 2 takes the thread 3, which is in the slot it found. -/
theorem joinReused_takes_other : ∃ (tr : List (Fin 2 × Act)) (s s' : Kernel (Fin 2)),
    Run (kthreads (Fin 2)) anyStep tr s ∧ step s 1 (.run .next) = some s' ∧
      s.cpu 1 = some (1, 1) ∧ (s.table.proc 1).ctl = .joinTake 0 2 2 2 ∧
      (s.table.proc 2).tid = 3 ∧ (s'.table.proc 2).state = .unused ∧
      s'.table.joins = [(3, 9), (2, 5)] := by
  have htr : (((joinReused ++ [onward 1]).foldlM (fun s l => step s l.1 l.2) boot).map fun s =>
      ((s.table.proc 2).state, s.table.joins)) = some (.unused, [(3, 9), (2, 5)]) := by
    decide +kernel
  have hbefore : ((joinReused.foldlM (fun s l => step s l.1 l.2) boot).map fun s =>
      (s.cpu 1, (s.table.proc 1).ctl, (s.table.proc 2).tid)) =
        some (some (1, 1), .joinTake 0 2 2 2, 3) := by
    decide +kernel
  obtain ⟨s, hs, hend⟩ := Option.map_eq_some_iff.mp hbefore
  obtain ⟨s', hs', hend'⟩ := Option.map_eq_some_iff.mp htr
  have hstep : step s 1 (.run .next) = some s' := by
    rw [List.foldlM_append, hs] at hs'
    simpa [onward] using hs'
  simp only [Prod.mk.injEq] at hend hend'
  exact ⟨_, s, s', Run.of_foldlM boot_boot (fun _ _ _ h => ⟨h, trivial⟩) hs, hstep, hend.1,
    hend.2.1, hend.2.2, hend'⟩

end Kthreads
end CS444
