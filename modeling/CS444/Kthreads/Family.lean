/-
Threads and their processes.

`Family` says what a kernel thread knows about the slots its calls are about and
that every thread has a live process for its parent.  It is an invariant of the
runs whose steps are `Orderly`: a join takes a slot no other join waits for, and
`exit` and `wait` are called by processes without threads, which is what their
tests of `thread_count` are for.
-/
import CS444.Kthreads.Kin
import CS444.Kthreads.Steps

namespace CS444
namespace Kthreads

open Runs

variable {C : Type} {s s' : Kernel C} {c : C} {a : Act} {t t' : Table} {p q m np : Slot} {i : Nat}
  {pick : Pick} {k k' : Ctl} {n : Next}

/-! ## The invariant -/

/-- `np` is a thread `p` is making for its process, `owner`. -/
def Linked (t : Table) (p np owner : Slot) : Prop :=
  ThreadOf t np owner ∧ process t p = some owner

/-- `q` is the thread `tid` of the process of `p`. -/
def Joining (t : Table) (p : Slot) (owner : Option Slot) (tid : Int) (q : Slot) : Prop :=
  owner = process t p ∧ tid ≠ 0 ∧ ((t.proc q).tid : Int) = tid ∧
    ∃ m, owner = some m ∧ ThreadOf t q m

/-- What the thread of `p` knows at the control point `k`. -/
def Stage (t : Table) (p : Slot) (k : Ctl) : Prop :=
  match k.core with
  | .newborn _ np | .forkUndo np => (t.proc np).parent = none
  | .forkSetup np | .forkCopy np _ => (t.proc np).parent = none ∧ (t.proc np).is_thread = false
  | .threadLink np => (t.proc np).parent = none ∧ (t.proc np).tid = 0
  | .storeParent np owner =>
    ((t.proc np).parent = none ∧ (t.proc np).tid = 0) ∧ owner = process t p
  | .tidParent np => (∃ owner, Linked t p np owner) ∧ (t.proc np).tid = 0
  | .loadTid np owner | .storeTid np owner _ => Linked t p np owner ∧ (t.proc np).tid = 0
  | .countParent np => ∃ owner, Linked t p np owner
  | .loadCount np owner | .storeCount np owner _ | .publish np (some owner) =>
    Linked t p np owner
  | .publish np none => (t.proc np).parent = some p ∧ (t.proc np).is_thread = false
  | .joinScan owner tid _ => owner = process t p ∧ tid ≠ 0
  | .joinPoll owner tid q | .joinLoad owner tid q => Joining t p owner tid q
  | .joinTake owner tid q _ => Joining t p (some owner) tid q
  | .threadExit _ | .threadExit1 _ => (t.proc p).is_thread = true
  | .threadExit2 v => (t.proc p).is_thread = true ∧ (t.proc p).thread_exit_value = v
  | .exitSched | .waitScan _ _ => (t.proc p).is_thread = false ∧ ∀ q, ¬ThreadOf t q p
  | _ => True

structure Family (t : Table) : Prop where
  stage : ∀ p, (t.proc p).Active → Stage t p (t.proc p).ctl
  unused : ∀ q, (t.proc q).state = .unused → (t.proc q).parent = none
  thread : ∀ q, (t.proc q).Used → (t.proc q).is_thread = true → ∃ m, ThreadOf t q m
  host : ∀ q m, ThreadOf t q m → (t.proc m).Active ∧ (t.proc m).is_thread = false
  named : ∀ q, (t.proc q).tid ≠ 0 → (t.proc q).is_thread = true

/-- A join takes its slot while no other join waits for it. -/
def Single (s : Kernel C) (l : C × Act) : Prop :=
  ∀ p i owner tid q v, s.cpu l.1 = some (p, i) →
    (s.table.proc p).ctl = .joinTake owner tid q v →
    ∀ p', (s.table.proc p').Active → (s.table.proc p').ctl.polls = some q → p' = p

/-- A thread that exited and was not joined yet. -/
def Exited (t : Table) (q : Slot) : Prop :=
  (t.proc q).state = .zombie ∧ (t.proc q).is_thread = true

/-- No slot is reaped while a CPU is on its stack or another join waits for it,
and no process that has threads calls `exit` or `wait`. -/
structure Orderly (s : Kernel C) (l : C × Act) : Prop where
  spaced : Spaced s l
  single : Single s l
  alone : ∀ p i, s.cpu l.1 = some (p, i) → (s.table.proc p).ctl = .user →
    l.2 = .run (.call .exit) ∨ l.2 = .run (.call .wait) → ∀ q, ¬ThreadOf s.table q p

instance (s : Kernel C) (l : C × Act) : Decidable (Single s l) :=
  decidable_of_iff (∀ p i, s.cpu l.1 = some (p, i) → ∀ q,
    (s.table.proc p).ctl.taking = some q → ∀ p', (s.table.proc p').Active →
      (s.table.proc p').ctl.polls = some q → p' = p) <| by
    refine ⟨fun h p i owner tid q v hcpu hk => h p i hcpu q (taking_eq_some.mpr ⟨_, _, _, hk⟩),
      fun h p i hcpu q hk => ?_⟩
    obtain ⟨owner, tid, v, hk⟩ := taking_eq_some.mp hk
    exact h p i owner tid q v hcpu hk

instance (t : Table) (q m : Slot) : Decidable (ThreadOf t q m) :=
  inferInstanceAs (Decidable (_ ∧ _))

instance (s : Kernel C) (l : C × Act) : Decidable (Orderly s l) :=
  decidable_of_iff (Spaced s l ∧ Single s l ∧ ∀ p i, s.cpu l.1 = some (p, i) →
    (s.table.proc p).ctl = .user → l.2 = .run (.call .exit) ∨ l.2 = .run (.call .wait) →
      ∀ q, ¬ThreadOf s.table q p)
    ⟨fun h => ⟨h.1, h.2.1, h.2.2⟩, fun h => ⟨h.spaced, h.single, h.alone⟩⟩

/-! ## What does not change it -/

/-- A step that leaves `parent`, `is_thread`, `tid` and the exit values alone. -/
theorem stage_congr (hcore : k'.core = k.core) (hkin : ∀ q, (t'.proc q).kin = (t.proc q).kin)
    (hvalue : ∀ q, (t'.proc q).thread_exit_value = (t.proc q).thread_exit_value) :
    Stage t' p k' ↔ Stage t p k := by
  have hparent : ∀ q, (t'.proc q).parent = (t.proc q).parent := fun q =>
    congrArg Prod.fst (hkin q)
  have hthread : ∀ q, (t'.proc q).is_thread = (t.proc q).is_thread := fun q =>
    congrArg (fun r => r.2.1) (hkin q)
  have htid : ∀ q, (t'.proc q).tid = (t.proc q).tid := fun q => congrArg (fun r => r.2.2) (hkin q)
  unfold Stage
  rw [hcore]
  split <;> simp only [Linked, Joining, ThreadOf, process, hparent, hthread, htid, hvalue]

theorem threadOf_congr (h : (t'.proc q).kin = (t.proc q).kin) :
    ThreadOf t' q m ↔ ThreadOf t q m := by
  obtain ⟨hparent, hrest⟩ := Prod.mk.inj h
  rw [ThreadOf, ThreadOf, hparent, (Prod.mk.inj hrest).1]

theorem Alike.used (h : Alike t t') : (t'.proc q).Used ↔ (t.proc q).Used := by
  rw [Proc.Used, Proc.Used, Ne, Ne, Ne, Ne, h.state_iff (by decide), h.state_iff (by decide)]

theorem Alike.exited (h : Alike t t') : Exited t' q ↔ Exited t q := by
  rw [Exited, Exited, h.state_iff (by decide), h.keeps Proc.is_thread fun _ _ _ => rfl]

theorem Family.alike (hfam : Family t) (h : Alike t t') : Family t' where
  stage p hp := by
    have hold := (h.active p).mp hp
    exact (stage_congr (h.core p hold) (h.keeps Proc.kin fun _ _ _ => rfl)
      (h.keeps Proc.thread_exit_value fun _ _ _ => rfl)).mpr (hfam.stage p hold)
  unused q hq := by
    rw [h.keeps Proc.parent fun _ _ _ => rfl]
    exact hfam.unused q ((h.state_iff (by decide)).mp hq)
  thread q hq hthread := by
    rw [h.keeps Proc.is_thread fun _ _ _ => rfl] at hthread
    obtain ⟨m, hm⟩ := hfam.thread q (h.used.mp hq) hthread
    exact ⟨m, (threadOf_congr (h.keeps Proc.kin (fun _ _ _ => rfl) q)).mpr hm⟩
  host q m hm := by
    rw [h.active m, h.keeps Proc.is_thread fun _ _ _ => rfl]
    exact hfam.host q m ((threadOf_congr (h.keeps Proc.kin (fun _ _ _ => rfl) q)).mp hm)
  named q htid := by
    rw [h.keeps Proc.is_thread fun _ _ _ => rfl]
    rw [h.keeps Proc.tid fun _ _ _ => rfl] at htid
    exact hfam.named q htid

/-- A thread that may run has a process. -/
theorem Family.has_process (hfam : Family t) (hp : (t.proc p).Active) :
    ∃ m, process t p = some m := by
  rw [process]
  split
  · rename_i hself
    obtain ⟨m, hm⟩ := hfam.thread p hp.used hself
    exact ⟨m, hm.2⟩
  · exact ⟨p, rfl⟩

/-- What a system call finds out before it starts. -/
theorem start_stage {sc : Syscall}
    (halone : sc = .exit ∨ sc = .wait → ∀ q, ¬ThreadOf t q p)
    (hstart : start t p sc = some k) : Stage t p k := by
  unfold start at hstart
  dsimp only at hstart
  cases sc with
  | exit =>
      simp only at hstart
      split at hstart
      · exact absurd hstart (by simp)
      · rename_i hno
        obtain rfl := Option.some.inj hstart
        exact ⟨by simpa using fun h => hno (Or.inl h), halone (by simp)⟩
  | wait =>
      simp only at hstart
      split at hstart
      · exact absurd hstart (by simp)
      · rename_i hno
        obtain rfl := Option.some.inj hstart
        exact ⟨by simpa using fun h => hno (Or.inl h), halone (by simp)⟩
  | kthread_join tid =>
      simp only at hstart
      split at hstart
      · obtain rfl := Option.some.inj hstart
        trivial
      · rename_i hne
        obtain rfl := Option.some.inj hstart
        exact ⟨rfl, hne⟩
  | kthread_exit v =>
      simp only at hstart
      split at hstart
      · rename_i hself
        obtain rfl := Option.some.inj hstart
        exact hself
      · obtain rfl := Option.some.inj hstart
        trivial
  | _ =>
      simp only at hstart
      repeat' split at hstart
      all_goals cases hstart <;> trivial

/-! ## A step of a running process -/

namespace Takes

variable (h : Takes s c p i pick t n) (hfam : Family s.table)

include h hfam

/-- What the step's thread knows, at the control point it is at. -/
theorem stage (hk : (s.table.proc p).ctl = k) : Stage s.table p k := by
  rw [← hk]
  exact hfam.stage p h.active

omit hfam in
/-- Only `allocproc` and `kthread_create` say whether a slot is a thread. -/
theorem is_thread_same (hq : (s.table.proc q).state ≠ .embryo) :
    (t.proc q).is_thread = (s.table.proc q).is_thread := by
  have hmade : (s.table.proc p).ctl.creating ≠ some q := fun hk => hq (h.embryo hk)
  cases body_kin h.body q with
  | same _ hthread => exact hthread
  | fresh thread hk => exact absurd (by rw [hk]; rfl) hmade
  | forked d hk => exact absurd (by rw [hk]; rfl) hmade
  | linked owner hk => exact absurd (by rw [hk]; rfl) hmade
  | named owner v hk => exact absurd (by rw [hk]; rfl) hmade
  | passed _ _ _ hthread => exact hthread
  | reaped _ _ _ hthread => exact hthread

/-- A thread stays one until a join takes it. -/
theorem thread_lost (hq : ThreadOf s.table q m) : ThreadOf t q m ∨
    (t.proc q).state = .unused ∧ ∃ tid v, (s.table.proc p).ctl = .joinTake m tid q v := by
  obtain ⟨hthread, hparent⟩ := hq
  have hlinked : (s.table.proc q).parent ≠ none := by simp [hparent]
  cases body_kin h.body q with
  | same hparent' hthread' =>
      exact Or.inl ⟨hthread'.trans hthread, hparent'.trans hparent⟩
  | fresh thread hk => exact absurd (h.stage hfam hk) hlinked
  | forked d hk =>
      have hstage : _ ∧ _ := h.stage hfam hk
      exact absurd hstage.1 hlinked
  | linked owner hk =>
      have hstage : _ ∧ _ := h.stage hfam hk
      exact absurd hstage.1.1 hlinked
  | named owner v _ _ hparent' hthread' =>
      exact Or.inl ⟨hthread'.trans hthread, hparent'.trans hparent⟩
  | passed hk hchild =>
      have hstage : _ ∧ _ := h.stage hfam hk
      exact absurd ⟨hthread, hchild⟩ (hstage.2 q)
  | reaped htake hfree =>
      rcases htake with ⟨owner, tid, v, hk⟩ | ⟨kids, hk, hchild, -⟩
      · obtain ⟨-, -, -, m', hm', -, hown⟩ := h.stage hfam hk
        obtain rfl : owner = m' := Option.some.inj hm'
        obtain rfl : m = owner := Option.some.inj (hparent.symm.trans hown)
        exact Or.inr ⟨hfree, tid, v, hk⟩
      · have hstage : _ ∧ _ := h.stage hfam hk
        exact absurd ⟨hthread, hchild⟩ (hstage.2 q)

/-- Threads are made by `kthread_create` only. -/
theorem thread_new (hq : ThreadOf t q m) : ThreadOf s.table q m ∨
    (s.table.proc p).ctl = .storeParent q (some m) ∧ n.ctl = .tidParent q ∧
      process s.table p = some m := by
  obtain ⟨hthread, hparent⟩ := hq
  cases body_kin h.body q with
  | same hparent' hthread' =>
      exact Or.inl ⟨hthread'.symm.trans hthread, hparent'.symm.trans hparent⟩
  | fresh thread _ _ hthread' => exact absurd (hthread'.symm.trans hthread) (by simp)
  | forked d hk _ hthread' =>
      have hstage : _ ∧ _ := h.stage hfam hk
      exact absurd ((hthread'.trans hstage.2).symm.trans hthread) (by simp)
  | linked owner hk hgo hparent' =>
      obtain rfl : owner = some m := hparent'.symm.trans hparent
      have hstage : _ ∧ _ := h.stage hfam hk
      exact Or.inr ⟨hk, hgo, hstage.2.symm⟩
  | named owner v _ _ hparent' hthread' =>
      exact Or.inl ⟨hthread'.symm.trans hthread, hparent'.symm.trans hparent⟩
  | passed hk hchild _ hthread' =>
      have hstage : _ ∧ _ := h.stage hfam hk
      exact absurd ⟨hthread'.symm.trans hthread, hchild⟩ (hstage.2 q)
  | reaped _ _ hnone => exact absurd (hnone.symm.trans hparent) (by simp)

/-- A process that may run stays of the same process. -/
theorem process_same (hq : (s.table.proc q).Active) :
    (t.proc q).is_thread = (s.table.proc q).is_thread ∧ process t q = process s.table q := by
  have hmade : (s.table.proc p).ctl.creating ≠ some q := fun hk =>
    absurd rfl (hq.not (h.embryo hk)).2.1
  cases body_kin h.body q with
  | same hparent hthread =>
      exact ⟨hthread, by rw [process, process, hparent, hthread]⟩
  | fresh thread hk => exact absurd (by rw [hk]; rfl) hmade
  | forked d hk => exact absurd (by rw [hk]; rfl) hmade
  | linked owner hk => exact absurd (by rw [hk]; rfl) hmade
  | named owner v hk => exact absurd (by rw [hk]; rfl) hmade
  | passed hk hchild _ hthread =>
      refine ⟨hthread, ?_⟩
      have hstage : _ ∧ _ := h.stage hfam hk
      have hself : (s.table.proc q).is_thread = false := by
        by_contra htrue
        exact hstage.2 q ⟨by simpa using htrue, hchild⟩
      simp [process, hthread, hself]
  | reaped htake => exact absurd rfl (hq.not (h.inv.reaps h.cpu h.run htake).1).2.2

/-- What another thread is making keeps its kinship, unless `exit` passes it on. -/
theorem making_same (hq : q ≠ p) (hact : (s.table.proc q).Active)
    (hnp : (s.table.proc q).ctl.creating = some np) :
    (t.proc np).is_thread = (s.table.proc np).is_thread ∧
      (t.proc np).tid = (s.table.proc np).tid ∧
      ((t.proc np).parent = (s.table.proc np).parent ∨
        (s.table.proc np).is_thread = false ∧ (s.table.proc np).parent = some p) := by
  have hmade : (s.table.proc p).ctl.creating ≠ some np := fun hk =>
    h.not_maker hq hact hk hnp
  cases body_kin h.body np with
  | same hparent hthread htid => exact ⟨hthread, htid, Or.inl hparent⟩
  | fresh thread hk => exact absurd (by rw [hk]; rfl) hmade
  | forked d hk => exact absurd (by rw [hk]; rfl) hmade
  | linked owner hk => exact absurd (by rw [hk]; rfl) hmade
  | named owner v hk => exact absurd (by rw [hk]; rfl) hmade
  | passed hk hchild _ hthread htid =>
      refine ⟨hthread, htid, Or.inr ⟨?_, hchild⟩⟩
      have hstage : _ ∧ _ := h.stage hfam hk
      by_contra htrue
      exact hstage.2 np ⟨by simpa using htrue, hchild⟩
  | reaped htake =>
      have hzombie := (h.inv.reaps h.cpu h.run htake).1
      exact absurd (hzombie.symm.trans (h.inv.embryo q np hact hnp)) (by decide)

/-- A thread that has its id keeps it. -/
theorem tid_same (hq : ThreadOf s.table q m) (htid : (s.table.proc q).tid ≠ 0) :
    (t.proc q).tid = (s.table.proc q).tid := by
  cases body_kin h.body q with
  | same _ _ htid' => exact htid'
  | fresh thread hk => exact absurd (h.stage hfam hk) (by simp [Stage, Ctl.core, hq.2])
  | forked d hk _ _ htid' => exact htid'
  | linked owner _ _ _ _ htid' => exact htid'
  | named owner v hk =>
      have hstage : _ ∧ _ := h.stage hfam hk
      exact absurd hstage.2 htid
  | passed _ _ _ _ htid' => exact htid'
  | reaped _ _ _ _ htid' => exact htid'

theorem linked_same {owner : Slot} (hq : (s.table.proc q).Active)
    (hnp : (s.table.proc np).state = .embryo) (hlinked : Linked s.table q np owner) :
    Linked t q np owner := by
  refine ⟨?_, (h.process_same hfam hq).2.trans hlinked.2⟩
  rcases h.thread_lost hfam hlinked.1 with hkeep | ⟨-, tid, v, hk⟩
  · exact hkeep
  · have hzombie := (h.inv.target p np h.active (by rw [hk]; rfl)).2
    exact absurd (hzombie.symm.trans hnp) (by decide)

theorem joining_same {owner : Option Slot} {tid : Int} {r : Slot} (hq : (s.table.proc q).Active)
    (hsingle : ∀ owner tid v, (s.table.proc p).ctl ≠ .joinTake owner tid r v)
    (hjoin : Joining s.table q owner tid r) : Joining t q owner tid r := by
  obtain ⟨howner, hne, htid, m, hm, hthread⟩ := hjoin
  refine ⟨howner.trans (h.process_same hfam hq).2.symm, hne, ?_, m, hm, ?_⟩
  · rw [h.tid_same hfam hthread (by omega)]
    exact htid
  · rcases h.thread_lost hfam hthread with hkeep | ⟨-, tid', v, hk⟩
    · exact hkeep
    · exact absurd hk (hsingle m tid' v)

/-- What another thread knows stays true. -/
theorem stage_other (hok : Orderly s (c, a)) (hq : q ≠ p) (hact : (s.table.proc q).Active) :
    Stage t q (s.table.proc q).ctl := by
  have hstage := hfam.stage q hact
  have hmake : ∀ np, (s.table.proc q).ctl.core.creating = some np →
      (s.table.proc q).ctl.creating = some np := fun np hnp =>
    (Ctl.creating_core _).symm.trans hnp
  have hjoin : ∀ owner tid r, (s.table.proc q).ctl.polls = some r →
      Joining s.table q owner tid r → Joining t q owner tid r := by
    intro owner tid r hpolls hj
    refine h.joining_same hfam hact (fun owner' tid' v hk => hq ?_) hj
    exact hok.single p i owner' tid' r v h.cpu hk q hact hpolls
  obtain ⟨hthread, hprocess⟩ := h.process_same hfam hact
  rw [← stage_congr (Ctl.core_core _) (fun _ => rfl) fun _ => rfl] at hstage ⊢
  have hflat := Ctl.core_flat (s.table.proc q).ctl
  generalize hk : (s.table.proc q).ctl.core = k at hstage hmake hflat ⊢
  cases k with
  | acquire k => exact absurd rfl (hflat k).1
  | release k => exact absurd rfl (hflat k).2.1
  | yieldSched k => exact absurd rfl (hflat k).2.2.1
  | sleepSched n k => exact absurd rfl ((hflat k).2.2.2 n)
  | newborn _ np | forkUndo np =>
      have hnone : (s.table.proc np).parent = none := hstage
      obtain ⟨-, -, hparent | ⟨-, hp⟩⟩ := h.making_same hfam hq hact (hmake np rfl)
      · exact hparent.trans hnone
      · exact absurd (hnone.symm.trans hp) (by simp)
  | forkSetup np | forkCopy np _ =>
      have hnone : _ ∧ _ := hstage
      obtain ⟨hthread', -, hparent | ⟨-, hp⟩⟩ := h.making_same hfam hq hact (hmake np rfl)
      · exact ⟨hparent.trans hnone.1, hthread'.trans hnone.2⟩
      · exact absurd (hnone.1.symm.trans hp) (by simp)
  | threadLink np =>
      have hnone : _ ∧ _ := hstage
      obtain ⟨-, htid, hparent | ⟨-, hp⟩⟩ := h.making_same hfam hq hact (hmake np rfl)
      · exact ⟨hparent.trans hnone.1, htid.trans hnone.2⟩
      · exact absurd (hnone.1.symm.trans hp) (by simp)
  | storeParent np owner =>
      have hnone : (_ ∧ _) ∧ _ := hstage
      obtain ⟨-, htid, hparent | ⟨-, hp⟩⟩ := h.making_same hfam hq hact (hmake np rfl)
      · exact ⟨⟨hparent.trans hnone.1.1, htid.trans hnone.1.2⟩, hnone.2.trans hprocess.symm⟩
      · exact absurd (hnone.1.1.symm.trans hp) (by simp)
  | tidParent np =>
      obtain ⟨⟨owner, hlinked⟩, htid⟩ := hstage
      have hmaking := hmake np rfl
      exact ⟨⟨owner, h.linked_same hfam hact (h.inv.embryo q np hact hmaking) hlinked⟩,
        (h.making_same hfam hq hact hmaking).2.1.trans htid⟩
  | countParent np =>
      obtain ⟨owner, hlinked⟩ := hstage
      exact ⟨owner, h.linked_same hfam hact (h.inv.embryo q np hact (hmake np rfl)) hlinked⟩
  | loadTid np owner | storeTid np owner v =>
      have hlinked : _ ∧ _ := hstage
      have hmaking := hmake np rfl
      exact ⟨h.linked_same hfam hact (h.inv.embryo q np hact hmaking) hlinked.1,
        (h.making_same hfam hq hact hmaking).2.1.trans hlinked.2⟩
  | loadCount np owner | storeCount np owner v =>
      exact h.linked_same hfam hact (h.inv.embryo q np hact (hmake np rfl)) hstage
  | publish np owner =>
      have hmaking := hmake np rfl
      cases owner with
      | some owner => exact h.linked_same hfam hact (h.inv.embryo q np hact hmaking) hstage
      | none =>
          have hchild : _ ∧ _ := hstage
          obtain ⟨hthread', -, hparent | ⟨-, hp⟩⟩ := h.making_same hfam hq hact hmaking
          · exact ⟨hparent.trans hchild.1, hthread'.trans hchild.2⟩
          · exact absurd (Option.some.inj (hchild.1.symm.trans hp)) hq
  | joinScan owner tid i =>
      have hscan : _ ∧ _ := hstage
      exact ⟨hscan.1.trans hprocess.symm, hscan.2⟩
  | joinPoll owner tid r | joinLoad owner tid r =>
      exact hjoin owner tid r (by rw [Ctl.polls, hk]) hstage
  | joinTake owner tid r v => exact hjoin (some owner) tid r (by rw [Ctl.polls, hk]) hstage
  | threadExit v | threadExit1 v => exact hthread.trans hstage
  | threadExit2 v =>
      have hexit : _ ∧ _ := hstage
      refine ⟨hthread.trans hexit.1, ?_⟩
      rcases body_value h.body hq with ⟨thread, hnew⟩ | hvalue
      · exact absurd rfl (hact.not (h.embryo (by rw [hnew]; rfl))).2.1
      · exact hvalue.trans hexit.2
  | exitSched | waitScan i kids =>
      have halone : _ ∧ _ := hstage
      refine ⟨hthread.trans halone.1, fun r hr => ?_⟩
      rcases h.thread_new hfam hr with hold | ⟨-, -, hown⟩
      · exact halone.2 r hold
      · rw [process] at hown
        split at hown
        · rename_i hself
          exact halone.2 p ⟨hself, hown⟩
        · exact hq (Option.some.inj hown).symm
  | _ => trivial

/-- What the step's thread knows next. -/
theorem stage_self (hok : Orderly s (c, .run pick)) : Stage t p n.ctl := by
  have hact := h.active
  have hstage := hfam.stage p hact
  have hbody := h.body
  generalize hk : (s.table.proc p).ctl = k at hbody hstage
  have hembryo : ∀ np, k.creating = some np → (s.table.proc np).state = .embryo :=
    fun np hnp => h.embryo (hk ▸ hnp)
  cases hbody with
  | yieldSched k | sleepSched n k =>
      refine (stage_congr rfl (fun q => ?_) fun q => ?_).mpr hstage
      · exact Table.set_keeps Proc.kin fun _ => rfl
      · exact Table.set_keeps Proc.thread_exit_value fun _ => rfl
  | call sc k hstart =>
      have hstep := h.step
      rw [hk] at hstep
      rcases body_call hstep with ⟨sc', rfl, hstart'⟩ | rfl | ⟨m, rfl⟩
      · refine start_stage (fun hsc => hok.alone p i h.cpu hk ?_) hstart'
        simpa using hsc
      · trivial
      · trivial
  | alloc thread np hfree =>
      show ((takeSlot s.table np).proc np).parent = none
      rw [takeSlot_keeps Proc.parent fun _ _ _ => rfl]
      exact hfam.unused np hfree
  | newborn thread np =>
      have hnone : (s.table.proc np).parent = none := hstage
      have hparent : ((initSlot s.table np).proc np).parent = none := by
        simpa [initSlot] using hnone
      cases thread with
      | false => exact ⟨hparent, by simp [initSlot]⟩
      | true => exact ⟨hparent, by simp [initSlot]⟩
  | forkSetupFail np | forkCopyFail np d =>
      have hnone : _ ∧ _ := hstage
      exact hnone.1
  | forkCopy np d =>
      have hnone : _ ∧ _ := hstage
      exact ⟨by simp [copyImage],
        (copyImage_keeps Proc.is_thread fun _ _ _ _ => rfl).trans hnone.2⟩
  | threadLink np owner howner => exact ⟨hstage, howner.symm⟩
  | storeParent np owner =>
      have hnone : (_ ∧ _) ∧ _ := hstage
      obtain ⟨m, hm⟩ := hfam.has_process hact
      refine ⟨⟨m, ⟨by simp [linkThread], ?_⟩, ?_⟩, ?_⟩
      · simpa [linkThread] using hnone.2.trans hm
      · exact (h.process_same hfam hact).2.trans hm
      · simpa [linkThread] using hnone.1.2
  | tidParent np owner howner | countParent np owner howner =>
      first
        | obtain ⟨⟨m, hlinked⟩, htid⟩ := hstage
          obtain rfl : m = owner := Option.some.inj (hlinked.1.2.symm.trans howner)
          exact ⟨hlinked, htid⟩
        | obtain ⟨m, hlinked⟩ := hstage
          obtain rfl : m = owner := Option.some.inj (hlinked.1.2.symm.trans howner)
          exact hlinked
  | storeTid np owner v =>
      have hlinked : _ ∧ _ := hstage
      exact ⟨owner, h.linked_same hfam hact (hembryo np rfl) hlinked.1⟩
  | storeCount np owner v => exact h.linked_same hfam hact (hembryo np rfl) hstage
  | joinMatch owner tid q howner htid =>
      have hscan : _ ∧ _ := hstage
      have hthread : (s.table.proc q).is_thread = true := hfam.named q (by omega)
      obtain ⟨m, hm⟩ := hfam.has_process hact
      exact ⟨hscan.1, hscan.2, htid, m, hscan.1.trans hm, hthread,
        howner.trans (hscan.1.trans hm)⟩
  | threadExit v => exact (h.process_same hfam hact).1.trans hstage
  | threadExit1 v => exact ⟨(h.process_same hfam hact).1.trans hstage, by simp⟩
  | waitSleep i kids =>
      have halone : _ ∧ _ := hstage
      refine ⟨(h.process_same hfam hact).1.trans halone.1, fun q hq => halone.2 q ?_⟩
      refine (threadOf_congr ?_).mp hq
      exact Table.set_keeps Proc.kin fun _ => rfl
  | _ => first | exact hstage | trivial

omit h hfam in
theorem threadOf_goto : ThreadOf (t.goto p k) q m ↔ ThreadOf t q m :=
  threadOf_congr (goto_keeps Proc.kin fun _ _ => rfl)

omit hfam in
/-- A slot that is reset has no parent, any other unused one had none. -/
theorem unused_parent (hold : (s.table.proc q).state = .unused → (s.table.proc q).parent = none)
    (hdropped : (∃ thread, (s.table.proc p).ctl = .newborn thread q) ∨
      (s.table.proc p).ctl = .forkUndo q → (s.table.proc q).parent = none)
    (hq : (t.proc q).state = .unused) : (t.proc q).parent = none := by
  by_cases hqp : q = p
  · subst hqp
    rcases h.own with hact | ⟨hzombie, -⟩
    · exact absurd rfl (hact.not hq).1
    · exact absurd (hzombie.symm.trans hq) (by decide)
  have hkeep : (s.table.proc q).parent = none →
      (∀ d, (s.table.proc p).ctl ≠ .forkCopy q d) ∧
        (∀ owner, (s.table.proc p).ctl ≠ .storeParent q owner) →
      (t.proc q).parent = none := by
    rintro hnone ⟨hfork, hlink⟩
    cases body_kin h.body q with
    | same hparent => exact hparent.trans hnone
    | fresh thread _ hparent => exact hparent.trans hnone
    | forked d hk => exact absurd hk (hfork d)
    | linked owner hk => exact absurd hk (hlink owner)
    | named owner v _ _ hparent => exact hparent.trans hnone
    | passed _ hchild => exact absurd (hnone.symm.trans hchild) (by simp)
    | reaped _ _ hparent => exact hparent
  cases body_touch h.body hqp with
  | rest hwoken =>
      cases hwoken with
      | same hkey =>
          have hfree := (key_eq_iff.mp hkey).1.symm.trans hq
          have hmade : ∀ k : Ctl, k.creating = some q → (s.table.proc p).ctl ≠ k := by
            rintro k hk rfl
            exact absurd (hfree.symm.trans (h.embryo hk)) (by decide)
          exact hkeep (hold hfree) ⟨fun d => hmade _ rfl, fun _ => hmade _ rfl⟩
      | woken _ hstate => exact absurd (hstate.symm.trans hq) (by decide)
  | taken _ hstate => exact absurd (hstate.symm.trans hq) (by decide)
  | made hmake hstate =>
      exact absurd ((h.embryo hmake).symm.trans (hstate.symm.trans hq)) (by decide)
  | dropped hdrop =>
      refine hkeep (hdropped hdrop) ?_
      rcases hdrop with ⟨thread, hk⟩ | hk
      · simp [hk]
      · simp [hk]
  | published _ _ hstate => exact absurd (hstate.symm.trans hq) (by decide)
  | reaped _ _ _ hnone => exact hnone

theorem unused_step (hq : (t.proc q).state = .unused) : (t.proc q).parent = none := by
  apply h.unused_parent (hfam.unused q) ?_ hq
  rintro (⟨thread, hk⟩ | hk)
  · exact h.stage hfam hk
  · exact h.stage hfam hk

theorem thread_step (hq : (t.proc q).Used) (hthread : (t.proc q).is_thread = true) :
    ∃ m, ThreadOf t q m := by
  have hold : ∃ m, ThreadOf s.table q m := by
    rcases h.was_used hq with hused | ⟨owner, hk⟩
    · by_cases hlink : ∃ m, ThreadOf s.table q m
      · exact hlink
      have hself : (s.table.proc q).is_thread ≠ true := fun hself =>
        hlink (hfam.thread q hused hself)
      have hmade : (s.table.proc p).ctl.creating ≠ some q := fun hk =>
        hused.2 (h.embryo hk)
      cases body_kin h.body q with
      | same _ hsame => exact absurd (hsame.symm.trans hthread) hself
      | fresh thread hk => exact absurd (by rw [hk]; rfl) hmade
      | forked d hk => exact absurd (by rw [hk]; rfl) hmade
      | linked owner hk => exact absurd (by rw [hk]; rfl) hmade
      | named owner v hk => exact absurd (by rw [hk]; rfl) hmade
      | passed _ _ _ hsame => exact absurd (hsame.symm.trans hthread) hself
      | reaped _ hfree => exact absurd hfree hq.1
    · cases owner with
      | some owner =>
          have hlinked : Linked s.table p q owner := h.stage hfam hk
          exact ⟨owner, hlinked.1⟩
      | none =>
          have hchild : _ ∧ _ := h.stage hfam hk
          cases body_kin h.body q with
          | same _ hsame =>
              exact absurd ((hsame.trans hchild.2).symm.trans hthread) (by simp)
          | fresh thread hk' => exact absurd (hk.symm.trans hk') (by simp)
          | forked d hk' => exact absurd (hk.symm.trans hk') (by simp)
          | linked owner hk' => exact absurd (hk.symm.trans hk') (by simp)
          | named owner v hk' => exact absurd (hk.symm.trans hk') (by simp)
          | passed hk' => exact absurd (hk.symm.trans hk') (by simp)
          | reaped htake =>
              rcases htake with ⟨owner, tid, v, hk'⟩ | ⟨kids, hk', -⟩ <;>
                exact absurd (hk.symm.trans hk') (by simp)
  obtain ⟨m, hm⟩ := hold
  rcases h.thread_lost hfam hm with hkeep | ⟨hfree, -⟩
  · exact ⟨m, hkeep⟩
  · exact absurd hfree hq.1

theorem host_step (hq : ThreadOf t q m) :
    (t.proc m).Active ∧ (t.proc m).is_thread = false := by
  have hold : (s.table.proc m).Active ∧ (s.table.proc m).is_thread = false ∧
      (m = p → (s.table.proc p).ctl ≠ .exitSched) := by
    rcases h.thread_new hfam hq with hold | ⟨hk, -, howner⟩
    · refine ⟨(hfam.host q m hold).1, (hfam.host q m hold).2, ?_⟩
      rintro rfl hk
      have hstage : _ ∧ _ := h.stage hfam hk
      exact hstage.2 q hold
    · have hexit : (s.table.proc p).ctl ≠ .exitSched := by simp [hk]
      rw [process] at howner
      split at howner
      · rename_i hself
        have hhost := hfam.host p m ⟨hself, howner⟩
        exact ⟨hhost.1, hhost.2, fun _ => hexit⟩
      · rename_i hself
        obtain rfl : p = m := Option.some.inj howner
        exact ⟨h.active, by simpa using hself, fun _ => hexit⟩
  obtain ⟨hact, hself, hexit⟩ := hold
  refine ⟨?_, (h.process_same hfam hact).1.trans hself⟩
  by_cases hmp : m = p
  · subst hmp
    rcases h.own with hgo | ⟨-, ⟨v, hk, -⟩ | ⟨hk, -⟩⟩
    · exact hgo
    · have hstage : _ ∧ _ := h.stage hfam hk
      exact absurd (hself.symm.trans hstage.1) (by simp)
    · exact absurd hk (hexit rfl)
  · exact (h.still_active hmp hact).1

theorem named_step (hq : (t.proc q).tid ≠ 0) : (t.proc q).is_thread = true := by
  cases body_kin h.body q with
  | same _ hthread htid => exact hthread.trans (hfam.named q (htid ▸ hq))
  | fresh thread _ _ _ htid => exact absurd htid hq
  | forked d _ _ hthread htid => exact hthread.trans (hfam.named q (htid ▸ hq))
  | linked owner _ _ _ hthread => exact hthread
  | named owner v hk _ _ hthread =>
      have hlinked : _ ∧ _ := h.stage hfam hk
      exact hthread.trans hlinked.1.1.1
  | passed _ _ _ hthread htid => exact hthread.trans (hfam.named q (htid ▸ hq))
  | reaped _ _ _ hthread htid => exact hthread.trans (hfam.named q (htid ▸ hq))

/-- A thread that exited stays as it is until it is joined. -/
theorem exited_step (hq : Exited s.table q) :
    (Exited t q ∧ (t.proc q).kstack = (s.table.proc q).kstack ∧
        (t.proc q).thread_exit_value = (s.table.proc q).thread_exit_value) ∨
      (t.proc q).parent = none ∧
        ∃ owner tid v, (s.table.proc p).ctl = .joinTake owner tid q v := by
  obtain ⟨hzombie, hthread⟩ := hq
  have hqp : q ≠ p := by
    rintro rfl
    exact absurd (hzombie.symm.trans h.run) (by decide)
  have hno : ∀ st, st ≠ .zombie → (s.table.proc q).state ≠ st := fun st hne heq =>
    hne (heq.symm.trans hzombie)
  have hkey : (t.proc q).key = (s.table.proc q).key ∨ (t.proc q).parent = none ∧
      ∃ owner tid v, (s.table.proc p).ctl = .joinTake owner tid q v := by
    cases body_touch h.body hqp with
    | rest hwoken =>
        cases hwoken with
        | same hkey => exact Or.inl hkey
        | woken hsleep => exact absurd hsleep (hno _ (by decide))
    | taken hfree => exact absurd hfree (hno _ (by decide))
    | made hmake => exact absurd (h.embryo hmake) (hno _ (by decide))
    | dropped hdrop =>
        exact absurd (h.embryo (Touch.creating_of_dropped hdrop)) (hno _ (by decide))
    | published owner hk =>
        have hmake : (s.table.proc p).ctl.creating = some q := by rw [hk]; rfl
        exact absurd (h.embryo hmake) (hno _ (by decide))
    | reaped hreap _ _ hnone =>
        rcases hreap with ⟨owner, tid, v, hk⟩ | ⟨kids, hk, hchild, -⟩
        · exact Or.inr ⟨hnone, owner, tid, v, hk⟩
        · have hstage : _ ∧ _ := h.stage hfam hk
          exact absurd ⟨hthread, hchild⟩ (hstage.2 q)
  refine hkey.imp_left fun hkey => ?_
  obtain ⟨hstate, -, hstack⟩ := key_eq_iff.mp hkey
  refine ⟨⟨hstate.trans hzombie, ?_⟩, hstack, ?_⟩
  · exact (h.is_thread_same (hno _ (by decide))).trans hthread
  · rcases body_value h.body hqp with ⟨thread, hk⟩ | hvalue
    · have hmake : (s.table.proc p).ctl.creating = some q := by rw [hk]; rfl
      exact absurd (h.embryo hmake) (hno _ (by decide))
    · exact hvalue

/-- A thread that has exited had, or does so in this step. -/
theorem was_exited (hq : Exited t q) : Exited s.table q ∨
    q = p ∧ ∃ v, (s.table.proc p).ctl = .threadExit2 v ∧ n = .go (.acquire .threadSched) := by
  obtain ⟨hzombie, hthread⟩ := hq
  by_cases hqp : q = p
  · subst hqp
    rcases h.own with hact | ⟨-, hexit | ⟨hk, -⟩⟩
    · exact absurd rfl (hact.not hzombie).2.2
    · exact Or.inr ⟨rfl, hexit⟩
    · have hstage : _ ∧ _ := h.stage hfam hk
      have hsame := h.is_thread_same (q := q) (h.active.used.2)
      exact absurd (hstage.1.symm.trans (hsame.symm.trans hthread)) (by simp)
  have hold : (s.table.proc q).state = .zombie := by
    cases body_touch h.body hqp with
    | rest hwoken =>
        cases hwoken with
        | same hkey => exact (key_eq_iff.mp hkey).1.symm.trans hzombie
        | woken _ hstate => exact absurd (hstate.symm.trans hzombie) (by decide)
    | taken _ hstate => exact absurd (hstate.symm.trans hzombie) (by decide)
    | made _ hstate => exact hstate.symm.trans hzombie
    | dropped _ hstate => exact absurd (hstate.symm.trans hzombie) (by decide)
    | published _ _ hstate => exact absurd (hstate.symm.trans hzombie) (by decide)
    | reaped _ _ hstate => exact absurd (hstate.symm.trans hzombie) (by decide)
  refine Or.inl ⟨hold, ?_⟩
  exact (h.is_thread_same (by simp [hold])).symm.trans hthread

theorem family (hok : Orderly s (c, .run pick)) : Family (t.goto p n.ctl) := by
  have hkin : ∀ q, ((t.goto p n.ctl).proc q).kin = (t.proc q).kin := fun q =>
    goto_keeps Proc.kin fun _ _ => rfl
  have hvalue : ∀ q, ((t.goto p n.ctl).proc q).thread_exit_value =
      (t.proc q).thread_exit_value := fun q => goto_keeps Proc.thread_exit_value fun _ _ => rfl
  have hparent : ∀ q, ((t.goto p n.ctl).proc q).parent = (t.proc q).parent := fun q =>
    congrArg Prod.fst (hkin q)
  have hthread : ∀ q, ((t.goto p n.ctl).proc q).is_thread = (t.proc q).is_thread := fun q =>
    congrArg (fun r => r.2.1) (hkin q)
  constructor
  case stage =>
    intro q hq
    rw [goto_active] at hq
    rw [stage_congr rfl hkin hvalue]
    by_cases hqp : q = p
    · subst hqp
      rw [goto_ctl_self]
      exact h.stage_self hfam hok
    · rw [goto_of_ne hqp]
      rcases h.was_active hqp hq with ⟨hold, hctl⟩ | ⟨hctl, -⟩
      · rw [hctl]
        exact h.stage_other hfam hok hqp hold
      · rw [hctl]
        trivial
  case unused =>
    intro q hq
    rw [hparent]
    exact h.unused_step hfam (goto_state.symm.trans hq)
  case thread =>
    intro q hq hself
    rw [Proc.Used, goto_state] at hq
    rw [hthread] at hself
    obtain ⟨m, hm⟩ := h.thread_step hfam hq hself
    exact ⟨m, threadOf_goto.mpr hm⟩
  case host =>
    intro q m hq
    rw [goto_active, hthread]
    exact h.host_step hfam (threadOf_goto.mp hq)
  case named =>
    intro q hq
    rw [hthread]
    exact h.named_step hfam ((goto_keeps Proc.tid fun _ _ => rfl).symm.trans_ne hq)

end Takes

/-! ## Over a run -/

theorem boot_family (h : Boot s) : Family s.table := by
  have hthread : ∀ q m, ¬ThreadOf s.table q m := by
    rintro q m ⟨hself, -⟩
    by_cases hq : q = initproc
    · rw [hq, h.init] at hself
      exact absurd hself (by simp)
    · rw [h.unused q hq] at hself
      exact absurd hself (by simp)
  have hsame : ∀ {α : Type} (g : Proc → α) (x : α), g (s.table.proc initproc) = x →
      (∀ q, q ≠ initproc → g (s.table.proc q) = x) → ∀ q, g (s.table.proc q) = x := by
    intro α g x hinit hrest q
    by_cases hq : q = initproc
    · rw [hq, hinit]
    · exact hrest q hq
  constructor
  case stage =>
    intro p hp
    by_cases hpi : p = initproc
    · rw [hpi, h.init]
      trivial
    · rw [h.unused p hpi] at hp
      rcases hp with hp | hp | hp <;> exact absurd hp (by simp)
  case unused =>
    intro q _
    exact hsame Proc.parent none (by rw [h.init]) (fun q hq => by rw [h.unused q hq]) q
  case thread =>
    intro q _ hself
    have hno : (s.table.proc q).is_thread = false :=
      hsame Proc.is_thread false (by rw [h.init]) (fun q hq => by rw [h.unused q hq]) q
    exact absurd (hno.symm.trans hself) (by simp)
  case host => exact fun q m hq => absurd hq (hthread q m)
  case named =>
    intro q hq
    have hzero : (s.table.proc q).tid = 0 :=
      hsame Proc.tid 0 (by rw [h.init]) (fun q hq => by rw [h.unused q hq]) q
    exact absurd hzero hq

variable [DecidableEq C]

theorem Family.step (hinv : Running s) (hfam : Family s.table) (hstep : CpuStep s c a s')
    (hok : Orderly s (c, a)) : Family s'.table := by
  rcases hinv.split hstep with halike | ⟨p, i, pick, t, n, rfl, htakes, ht⟩
  · exact hfam.alike halike
  · rw [ht]
    exact htakes.family hfam hok

theorem run_family {tr : List (C × Act)} (h : Run (kthreads C) Orderly tr s) :
    Running s ∧ Family s.table := by
  have hinit : ∀ s, (kthreads C).init s → Running s ∧ Family s.table := fun _ hboot =>
    ⟨boot_running hboot, boot_family hboot⟩
  refine h.invariant hinit ?_
  rintro s ⟨c, a⟩ s' ⟨hinv, hfam⟩ hstep hok
  have hstep := step_cases hstep
  exact ⟨hinv.step hstep hok.spaced, hfam.step hinv hstep hok⟩

end Kthreads
end CS444
