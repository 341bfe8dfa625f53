/-
Who a process's parent is.

`exit` passes the children of a process to init; `kthread_exit` does not, so a
child that a thread forked keeps a parent whose slot is reused.  `Parents` says
that every parent is a process, not a thread, that is alive; it is an invariant
of the runs in which no thread forks (`ProcessForks`).  `traced` runs the kernel
with a record of who made what is in each slot.
-/
import CS444.Kthreads.Family

namespace CS444
namespace Kthreads

open Runs

variable {C : Type} {s s' : Kernel C} {c : C} {a : Act} {t t' : Table} {p q m np : Slot} {i : Nat}
  {pick : Pick} {k k' : Ctl} {n : Next}

/-! ## Makers -/

/-- Who made what is in a slot, by their kernel stacks: the process or thread
that called `fork` or `kthread_create`, and the process this belonged to. -/
structure Maker where
  self : Option Nat
  host : Option Nat
deriving DecidableEq

/-- `p` as a maker. -/
def makerOf (t : Table) (o : Slot → Maker) (p : Slot) : Maker where
  self := (t.proc p).kstack
  host := if (t.proc p).is_thread then (o p).host else (t.proc p).kstack

/-- The makers after a step of CPU `c`: `fork` and `kthread_create` have one when
they set `np->parent`. -/
def makers [DecidableEq C] (s : Kernel C) (c : C) (a : Act) (o : Slot → Maker) : Slot → Maker :=
  match s.cpu c with
  | none => o
  | some (p, _) =>
    match (s.table.proc p).ctl, a with
    | .forkCopy np _, .run (.done true) => Function.update o np (makerOf s.table o p)
    | .storeParent np _, .run .next => Function.update o np (makerOf s.table o p)
    | _, _ => o

structure Traced (C : Type) where
  kernel : Kernel C
  maker : Slot → Maker

/-- The kernel with the record of makers. -/
def traced (C : Type) [DecidableEq C] : System (Traced C) (C × Act) where
  init s := Boot s.kernel
  step s l s' := step s.kernel l.1 l.2 = some s'.kernel ∧
    s'.maker = makers s.kernel l.1 l.2 s.maker

/-- The parent of `q` is alive, no thread, and init or the process that made `q`:
the caller of `fork`, or for a thread the process of the caller. -/
def Rooted (t : Table) (o : Slot → Maker) (q : Slot) : Prop :=
  ∃ m, (t.proc q).parent = some m ∧ (t.proc m).Active ∧ (t.proc m).is_thread = false ∧
    (m = initproc ∨
      (t.proc m).kstack = if (t.proc q).is_thread then (o q).host else (o q).self)

/-- No thread gets as far as the copy of a parent in `fork`, no slot is reaped
while a CPU is on its stack, and no process passes its children on in `exit`
while one of its threads is between the load of `curproc->parent` and the store
of `np->parent` in `kthread_create`. -/
structure ProcessForks (s : Kernel C) (l : C × Act) : Prop where
  spaced : Spaced s l
  forks : ∀ p i np d, s.cpu l.1 = some (p, i) → (s.table.proc p).ctl = .forkCopy np d →
    l.2 = .run (.done true) → (s.table.proc p).is_thread = false
  exits : ∀ p i, s.cpu l.1 = some (p, i) → (s.table.proc p).ctl = .exitSched →
    ∀ q np, (s.table.proc q).Active → (s.table.proc q).ctl.core ≠ .storeParent np (some p)

/-- About to copy the address space in `fork`. -/
def Ctl.copies : Ctl → Bool
  | .forkCopy _ _ => true
  | _ => false

theorem copies_eq_true {k : Ctl} : k.copies = true ↔ ∃ np d, k = .forkCopy np d := by
  cases k <;> simp [Ctl.copies]

instance (s : Kernel C) (l : C × Act) : Decidable (ProcessForks s l) :=
  decidable_of_iff (Spaced s l ∧ (∀ p i, s.cpu l.1 = some (p, i) →
      (s.table.proc p).ctl.copies = true → l.2 = .run (.done true) →
        (s.table.proc p).is_thread = false) ∧
    ∀ p i, s.cpu l.1 = some (p, i) → (s.table.proc p).ctl = .exitSched →
      ∀ q np, (s.table.proc q).Active → (s.table.proc q).ctl.core ≠ .storeParent np (some p)) <| by
    refine ⟨fun h => ⟨h.1, fun p i np d hcpu hk => ?_, h.2.2⟩,
      fun h => ⟨h.spaced, fun p i hcpu hk => ?_, h.exits⟩⟩
    · exact h.2.1 p i hcpu (copies_eq_true.mpr ⟨np, d, hk⟩)
    · obtain ⟨np, d, hk⟩ := copies_eq_true.mp hk
      exact h.forks p i np d hcpu hk

/-! ## The invariant -/

/-- What the thread of `p` knows about parents at the control point `k`. -/
def Knows (t : Table) (p : Slot) (k : Ctl) : Prop :=
  match k.core with
  | .newborn _ np | .forkUndo np | .threadLink np | .storeParent np _ =>
    (t.proc np).parent = none
  | .forkSetup np | .forkCopy np _ => (t.proc np).parent = none ∧ (t.proc np).is_thread = false
  | .tidParent np | .loadTid np _ | .storeTid np _ _ | .countParent np | .loadCount np _
  | .storeCount np _ _ | .publish np _ => (t.proc np).parent ≠ none
  | .threadExit _ | .threadExit1 _ | .threadExit2 _ => (t.proc p).is_thread = true
  | .exitSched => p ≠ initproc
  | _ => True

/-- `m` is a live process, and the one the maker `p` belongs to or init. -/
def Hosts (t : Table) (o : Slot → Maker) (p m : Slot) : Prop :=
  (t.proc m).Active ∧ (t.proc m).is_thread = false ∧
    (m = initproc ∨ (t.proc m).kstack = (makerOf t o p).host)

structure Parents (t : Table) (o : Slot → Maker) : Prop where
  knows : ∀ p, (t.proc p).Active → Knows t p (t.proc p).ctl
  unused : ∀ q, (t.proc q).state = .unused → (t.proc q).parent = none
  known : ∀ q, (t.proc q).Used → q ≠ initproc → (t.proc q).parent ≠ none
  alive : ∀ q m, (t.proc q).parent = some m → (t.proc m).Active ∧ (t.proc m).is_thread = false
  maker : ∀ q m, (t.proc q).parent = some m → m = initproc ∨
    (t.proc m).kstack = if (t.proc q).is_thread then (o q).host else (o q).self
  init : (t.proc initproc).Active ∧ (t.proc initproc).is_thread = false
  linking : ∀ p np owner, (t.proc p).Active → (t.proc p).ctl.core = .storeParent np owner →
    ∃ m, owner = some m ∧ Hosts t o p m

variable {o o' : Slot → Maker}

theorem Parents.rooted (hpar : Parents t o) (hq : (t.proc q).Used) (hne : q ≠ initproc) :
    Rooted t o q := by
  obtain ⟨m, hm⟩ := Option.ne_none_iff_exists'.mp (hpar.known q hq hne)
  exact ⟨m, hm, (hpar.alive q m hm).1, (hpar.alive q m hm).2, hpar.maker q m hm⟩

/-- Init is no thread. -/
theorem Parents.thread_parent (hpar : Parents t o) (hq : (t.proc q).Used)
    (hthread : (t.proc q).is_thread = true) : (t.proc q).parent ≠ none := by
  refine hpar.known q hq ?_
  rintro rfl
  exact absurd (hpar.init.2.symm.trans hthread) (by simp)

theorem makerOf_congr (hstack : (t'.proc q).kstack = (t.proc q).kstack)
    (hthread : (t'.proc q).is_thread = (t.proc q).is_thread)
    (ho : (t.proc q).is_thread = true → o' q = o q) : makerOf t' o' q = makerOf t o q := by
  unfold makerOf
  rw [hstack, hthread]
  by_cases hself : (t.proc q).is_thread = true
  · rw [ho hself]
  · rw [if_neg hself, if_neg hself]

/-- A step that leaves `parent` and `is_thread` alone. -/
theorem knows_congr (hcore : k'.core = k.core)
    (hparent : ∀ q, (t'.proc q).parent = (t.proc q).parent)
    (hthread : ∀ q, (t'.proc q).is_thread = (t.proc q).is_thread) :
    Knows t' p k' ↔ Knows t p k := by
  unfold Knows
  rw [hcore]
  split <;> simp only [hparent, hthread]

theorem Parents.alike (hpar : Parents t o) (h : Alike t t') : Parents t' o := by
  have hparent : ∀ q, (t'.proc q).parent = (t.proc q).parent := h.keeps Proc.parent fun _ _ _ => rfl
  have hthread : ∀ q, (t'.proc q).is_thread = (t.proc q).is_thread :=
    h.keeps Proc.is_thread fun _ _ _ => rfl
  have hstack : ∀ q, (t'.proc q).kstack = (t.proc q).kstack := h.keeps Proc.kstack fun _ _ _ => rfl
  constructor
  case knows =>
    intro p hp
    have hold := (h.active p).mp hp
    exact (knows_congr (h.core p hold) hparent hthread).mpr (hpar.knows p hold)
  case unused =>
    intro q hq
    rw [hparent]
    exact hpar.unused q ((h.state_iff (by decide)).mp hq)
  case known =>
    intro q hq hne
    rw [hparent]
    refine hpar.known q ?_ hne
    rw [Proc.Used, Ne, Ne, h.state_iff (by decide), h.state_iff (by decide)] at hq
    exact hq
  case alive =>
    intro q m hm
    rw [hparent] at hm
    rw [h.active m, hthread]
    exact hpar.alive q m hm
  case maker =>
    intro q m hm
    rw [hparent] at hm
    rw [hstack, hthread]
    exact hpar.maker q m hm
  case init =>
    rw [h.active, hthread]
    exact hpar.init
  case linking =>
    intro p np owner hp hk
    have hold := (h.active p).mp hp
    obtain ⟨m, hm, hhosts⟩ := hpar.linking p np owner hold ((h.core p hold).symm.trans hk)
    refine ⟨m, hm, ?_⟩
    unfold Hosts makerOf
    rw [h.active, hthread, hthread, hstack, hstack]
    exact hhosts

theorem boot_parents (h : Boot s) (o : Slot → Maker) : Parents s.table o := by
  have hparent : ∀ q, (s.table.proc q).parent = none := by
    intro q
    by_cases hq : q = initproc
    · rw [hq, h.init]
    · rw [h.unused q hq]
  constructor
  case knows =>
    intro p hp
    by_cases hpi : p = initproc
    · rw [hpi, h.init]
      trivial
    · rw [h.unused p hpi] at hp
      rcases hp with hp | hp | hp <;> exact absurd hp (by simp)
  case unused => exact fun q _ => hparent q
  case known =>
    intro q hq hne
    rw [h.unused q hne] at hq
    exact absurd rfl hq.1
  case alive => exact fun q m hm => absurd ((hparent q).symm.trans hm) (by simp)
  case maker => exact fun q m hm => absurd ((hparent q).symm.trans hm) (by simp)
  case init =>
    rw [h.init]
    exact ⟨Or.inr (Or.inl rfl), rfl⟩
  case linking =>
    intro p np owner hp hk
    by_cases hpi : p = initproc
    · rw [hpi, h.init] at hk
      exact absurd hk (by simp [Ctl.core])
    · rw [h.unused p hpi] at hp
      rcases hp with hp | hp | hp <;> exact absurd hp (by simp)

/-- What a system call finds out before it starts. -/
theorem start_knows {sc : Syscall} (hstart : start t p sc = some k) : Knows t p k := by
  unfold start at hstart
  dsimp only at hstart
  cases sc with
  | exit =>
      simp only at hstart
      split at hstart
      · exact absurd hstart (by simp)
      · rename_i hno
        obtain rfl := Option.some.inj hstart
        exact fun hinit => hno (Or.inr (Or.inr hinit))
  | kthread_exit v =>
      simp only at hstart
      split at hstart
      · rename_i hself
        obtain rfl := Option.some.inj hstart
        exact hself
      · obtain rfl := Option.some.inj hstart
        trivial
  | _ =>
      simp only at hstart
      repeat' split at hstart
      all_goals cases hstart <;> trivial

/-! ## A step of a running process -/

namespace Takes

variable (h : Takes s c p i pick t n)

include h

variable (hpar : Parents s.table o)

include hpar

theorem knows (hk : (s.table.proc p).ctl = k) : Knows s.table p k := by
  rw [← hk]
  exact hpar.knows p h.active

/-- Where a parent comes from. -/
theorem parent_cases (hm : (t.proc q).parent = some m) :
    ((s.table.proc q).parent = some m ∧ (t.proc q).is_thread = (s.table.proc q).is_thread) ∨
      ((∃ d, (s.table.proc p).ctl = .forkCopy q d) ∧ m = p ∧ (t.proc q).is_thread = false) ∨
      ((s.table.proc p).ctl = .storeParent q (some m) ∧ (t.proc q).is_thread = true) ∨
      ((s.table.proc p).ctl = .exitSched ∧ m = initproc) := by
  cases body_kin h.body q with
  | same hparent hthread => exact Or.inl ⟨hparent.symm.trans hm, hthread⟩
  | fresh thread hk hparent =>
      have hnone : (s.table.proc q).parent = none := h.knows hpar hk
      exact absurd (hnone.symm.trans (hparent.symm.trans hm)) (by simp)
  | forked d hk hparent hthread =>
      have hnone : _ ∧ _ := h.knows hpar hk
      exact Or.inr (Or.inl ⟨⟨d, hk⟩, (Option.some.inj (hparent.symm.trans hm)).symm,
        hthread.trans hnone.2⟩)
  | linked owner hk _ hparent hthread =>
      obtain rfl : owner = some m := hparent.symm.trans hm
      exact Or.inr (Or.inr (Or.inl ⟨hk, hthread⟩))
  | named owner v _ _ hparent hthread => exact Or.inl ⟨hparent.symm.trans hm, hthread⟩
  | passed hk _ hparent =>
      exact Or.inr (Or.inr (Or.inr ⟨hk, (Option.some.inj (hparent.symm.trans hm)).symm⟩))
  | reaped _ _ hparent => exact absurd (hparent.symm.trans hm) (by simp)

omit hpar in
/-- `exit` passes all children on. -/
theorem exit_parent (hk : (s.table.proc p).ctl = .exitSched) : (t.proc q).parent =
    if (s.table.proc q).parent = some p then some initproc else (s.table.proc q).parent := by
  have hbody := h.body
  rw [hk] at hbody
  cases hbody with
  | preempt _ _ hopen => exact absurd hopen (by simp [Ctl.locked])
  | block _ _ _ hopen => exact absurd hopen (by simp [Ctl.locked])
  | exitSched => exact exitBody_parent

/-- A process that is a parent after the step stays alive. -/
theorem still_alive (hm : (t.proc q).parent = some m) (hact : (s.table.proc m).Active)
    (hself : (s.table.proc m).is_thread = false) : (t.proc m).Active := by
  by_cases hmp : m = p
  · rw [hmp]
    rcases h.own with hgo | ⟨-, ⟨v, hk, -⟩ | ⟨hk, -⟩⟩
    · exact hgo
    · have hthread : _ = true := h.knows hpar hk
      rw [hmp, hthread] at hself
      exact absurd hself (by simp)
    · have hne : p ≠ initproc := h.knows hpar hk
      rw [h.exit_parent hk, hmp] at hm
      split at hm
      · exact absurd (Option.some.inj hm).symm hne
      · rename_i hother
        exact absurd hm hother
  · exact (h.still_active hmp hact).1

/-- What another thread knows stays true. -/
theorem knows_other (hq : q ≠ p) (hact : (s.table.proc q).Active) :
    Knows t q (s.table.proc q).ctl := by
  have hknows := hpar.knows q hact
  have hthread : (t.proc q).is_thread = (s.table.proc q).is_thread :=
    h.is_thread_same fun hemb => absurd rfl (hact.not hemb).2.1
  have hmaking : ∀ np, (s.table.proc q).ctl.core.creating = some np →
      (t.proc np).is_thread = (s.table.proc np).is_thread ∧
        ((t.proc np).parent = none ↔ (s.table.proc np).parent = none) := by
    intro np hnp
    have hnp : (s.table.proc q).ctl.creating = some np := (Ctl.creating_core _).symm.trans hnp
    have hmade : (s.table.proc p).ctl.creating ≠ some np := fun hk => h.not_maker hq hact hk hnp
    cases body_kin h.body np with
    | same hparent hself => exact ⟨hself, by rw [hparent]⟩
    | fresh thread hk => exact absurd (by rw [hk]; rfl) hmade
    | forked d hk => exact absurd (by rw [hk]; rfl) hmade
    | linked owner hk => exact absurd (by rw [hk]; rfl) hmade
    | named owner v hk => exact absurd (by rw [hk]; rfl) hmade
    | passed _ hchild hparent hself => exact ⟨hself, by rw [hparent, hchild]; simp⟩
    | reaped htake =>
        have hzombie := (h.inv.reaps h.cpu h.run htake).1
        exact absurd (hzombie.symm.trans (h.inv.embryo q np hact hnp)) (by decide)
  rw [← knows_congr (Ctl.core_core _) (fun _ => rfl) fun _ => rfl] at hknows ⊢
  have hflat := Ctl.core_flat (s.table.proc q).ctl
  generalize (s.table.proc q).ctl.core = k at hknows hmaking hflat ⊢
  cases k with
  | acquire k => exact absurd rfl (hflat k).1
  | release k => exact absurd rfl (hflat k).2.1
  | yieldSched k => exact absurd rfl (hflat k).2.2.1
  | sleepSched n k => exact absurd rfl ((hflat k).2.2.2 n)
  | newborn _ np | forkUndo np | threadLink np | storeParent np _ =>
      exact (hmaking np rfl).2.mpr hknows
  | forkSetup np | forkCopy np _ =>
      have hnone : _ ∧ _ := hknows
      exact ⟨(hmaking np rfl).2.mpr hnone.1, (hmaking np rfl).1.trans hnone.2⟩
  | tidParent np | loadTid np _ | storeTid np _ _ | countParent np | loadCount np _
  | storeCount np _ _ | publish np _ =>
      exact fun hnone => hknows ((hmaking np rfl).2.mp hnone)
  | threadExit _ | threadExit1 _ | threadExit2 _ => exact hthread.trans hknows
  | exitSched => exact hknows
  | _ => trivial

/-- What the step's thread knows next. -/
theorem knows_self : Knows t p n.ctl := by
  have hact := h.active
  have hknows := hpar.knows p hact
  have hthread : (t.proc p).is_thread = (s.table.proc p).is_thread :=
    h.is_thread_same fun hemb => absurd rfl (hact.not hemb).2.1
  have hbody := h.body
  generalize hk : (s.table.proc p).ctl = k at hbody hknows
  cases hbody with
  | yieldSched k | sleepSched n k =>
      refine (knows_congr rfl (fun q => ?_) fun q => ?_).mpr hknows
      · exact Table.set_keeps Proc.parent fun _ => rfl
      · exact Table.set_keeps Proc.is_thread fun _ => rfl
  | call sc k hstart => exact start_knows hstart
  | alloc thread np hfree =>
      show ((takeSlot s.table np).proc np).parent = none
      rw [takeSlot_keeps Proc.parent fun _ _ _ => rfl]
      exact hpar.unused np hfree
  | newborn thread np =>
      have hnone : (s.table.proc np).parent = none := hknows
      have hparent : ((initSlot s.table np).proc np).parent = none := by
        simpa [initSlot] using hnone
      cases thread with
      | false => exact ⟨hparent, by simp [initSlot]⟩
      | true => exact hparent
  | forkSetupFail np | forkCopyFail np d =>
      have hnone : _ ∧ _ := hknows
      exact hnone.1
  | forkCopy np d =>
      show ((copyImage s.table p np d).proc np).parent ≠ none
      simp [copyImage]
  | storeParent np owner =>
      obtain ⟨m, rfl, -⟩ := hpar.linking p np owner hact (by rw [hk]; rfl)
      show ((linkThread s.table p np (some m)).proc np).parent ≠ none
      simp [linkThread]
  | storeTid np owner v =>
      show ((takeTid s.table np owner v).proc np).parent ≠ none
      rw [takeTid_keeps Proc.parent (fun _ _ => rfl) fun _ _ => rfl]
      exact hknows
  | storeCount np owner v =>
      refine fun hnone => hknows (Eq.trans ?_ hnone)
      exact (Table.set_keeps Proc.parent fun _ => by simp only).symm
  | threadExit v | threadExit1 v => exact hthread.trans hknows
  | _ => first | exact hknows | trivial

theorem unused_kept (hq : (t.proc q).state = .unused) : (t.proc q).parent = none := by
  apply h.unused_parent (hpar.unused q) ?_ hq
  rintro (⟨thread, hk⟩ | hk)
  · exact h.knows hpar hk
  · exact h.knows hpar hk

theorem known_kept (hq : (t.proc q).Used) (hne : q ≠ initproc) : (t.proc q).parent ≠ none := by
  have hsame : (s.table.proc q).parent ≠ none → (t.proc q).parent ≠ none := by
    intro hsome
    cases body_kin h.body q with
    | same hparent => rw [hparent]; exact hsome
    | fresh thread _ hparent => rw [hparent]; exact hsome
    | forked d _ hparent => simp [hparent]
    | linked owner hk _ hparent =>
        obtain ⟨m, rfl, -⟩ := hpar.linking p q owner h.active (by rw [hk]; rfl)
        simp [hparent]
    | named owner v _ _ hparent => rw [hparent]; exact hsome
    | passed _ _ hparent => simp [hparent]
    | reaped _ hfree => exact absurd hfree hq.1
  apply hsame
  rcases h.was_used hq with hused | ⟨owner, hk⟩
  · exact hpar.known q hused hne
  · exact h.knows hpar hk

theorem init_kept : (t.proc initproc).Active ∧ (t.proc initproc).is_thread = false := by
  obtain ⟨hact, hself⟩ := hpar.init
  have hthread : (t.proc initproc).is_thread = (s.table.proc initproc).is_thread :=
    h.is_thread_same fun hemb => absurd rfl (hact.not hemb).2.1
  refine ⟨?_, hthread.trans hself⟩
  by_cases hp : initproc = p
  · rw [hp]
    rcases h.own with hgo | ⟨-, ⟨v, hk, -⟩ | ⟨hk, -⟩⟩
    · exact hgo
    · have hthread : _ = true := h.knows hpar hk
      rw [hp, hthread] at hself
      exact absurd hself (by simp)
    · have hne : p ≠ initproc := h.knows hpar hk
      exact absurd hp.symm hne
  · exact (h.still_active hp hact).1

omit h hpar in
/-- An interrupt sets no parent. -/
theorem not_interrupt (hnew : (t.proc q).parent ≠ (s.table.proc q).parent) (b : Prop) [Decidable b]
    (r : Next) : (if b then some (s.table, r) else none) ≠ some (t, n) := by
  intro heq
  split at heq
  · exact hnew (by rw [(Prod.mk.inj (Option.some.inj heq)).1])
  · exact absurd heq (by simp)

omit hpar in
/-- `fork` sets a parent in the step that copies the address space. -/
theorem copies {d : Nat} (hk : (s.table.proc p).ctl = .forkCopy q d)
    (hnew : (t.proc q).parent ≠ (s.table.proc q).parent) : pick = .done true := by
  have hnone : (none : Option (Table × Next)) ≠ some (t, n) := by simp
  have hstep := h.step
  rw [hk] at hstep
  cases pick with
  | done success =>
      cases success with
      | true => rfl
      | false =>
          obtain ⟨rfl, -⟩ := Prod.mk.inj (Option.some.inj hstep)
          exact absurd rfl hnew
  | preempt => exact absurd hstep (not_interrupt hnew _ _)
  | block m => exact absurd hstep (not_interrupt hnew _ _)
  | next => exact absurd hstep hnone
  | call sc => exact absurd hstep hnone
  | slot np => cases np <;> exact absurd hstep hnone
  | page d => cases d <;> exact absurd hstep hnone
  | image sz => exact absurd hstep hnone

omit hpar in
/-- `kthread_create` sets a parent in the step that is not an interrupt. -/
theorem links {owner : Option Slot} (hk : (s.table.proc p).ctl = .storeParent q owner)
    (hnew : (t.proc q).parent ≠ (s.table.proc q).parent) : pick = .next := by
  have hnone : (none : Option (Table × Next)) ≠ some (t, n) := by simp
  have hstep := h.step
  rw [hk] at hstep
  cases pick with
  | next => rfl
  | preempt => exact absurd hstep (not_interrupt hnew _ _)
  | block m => exact absurd hstep (not_interrupt hnew _ _)
  | call sc => exact absurd hstep hnone
  | slot np => cases np <;> exact absurd hstep hnone
  | page d => cases d <;> exact absurd hstep hnone
  | done success => cases success <;> exact absurd hstep hnone
  | image sz => exact absurd hstep hnone

/-- The process of a thread that takes a step. -/
theorem process_hosts : ∃ m, process s.table p = some m ∧ Hosts s.table o p m := by
  unfold process Hosts makerOf
  by_cases hself : (s.table.proc p).is_thread = true
  · have hne : p ≠ initproc := by
      rintro rfl
      exact absurd (hpar.init.2.symm.trans hself) (by simp)
    obtain ⟨m, hm⟩ := Option.ne_none_iff_exists'.mp (hpar.known p h.active.used hne)
    obtain ⟨hact, hthread⟩ := hpar.alive p m hm
    have hmaker := hpar.maker p m hm
    simp only [if_pos hself] at hmaker ⊢
    exact ⟨m, hm, hact, hthread, hmaker⟩
  · simp only [if_neg hself]
    exact ⟨p, rfl, h.active, by simpa using hself, Or.inr rfl⟩

/-- A process hosts a maker until it exits. -/
theorem hosts_kept (hq : (s.table.proc q).Active) (hhosts : Hosts s.table o q m)
    (hexit : m = p → (s.table.proc p).ctl ≠ .exitSched) : Hosts t o q m := by
  obtain ⟨hact, hself, hmaker⟩ := hhosts
  have hthread : ∀ r, (s.table.proc r).Active →
      (t.proc r).is_thread = (s.table.proc r).is_thread := fun r hr =>
    h.is_thread_same fun hemb => absurd rfl (hr.not hemb).2.1
  refine ⟨?_, (hthread m hact).trans hself, ?_⟩
  · by_cases hmp : m = p
    · rw [hmp]
      rcases h.own with hgo | ⟨-, ⟨v, hk, -⟩ | ⟨hk, -⟩⟩
      · exact hgo
      · have hkthread : _ = true := h.knows hpar hk
        rw [hmp, hkthread] at hself
        exact absurd hself (by simp)
      · exact absurd hk (hexit hmp)
    · exact (h.still_active hmp hact).1
  · rw [h.kstack_same hact, makerOf, h.kstack_same hq, hthread q hq]
    exact hmaker

theorem alive_kept (hok : ProcessForks s (c, .run pick)) (hm : (t.proc q).parent = some m) :
    (t.proc m).Active ∧ (t.proc m).is_thread = false := by
  have hold : (s.table.proc m).Active ∧ (s.table.proc m).is_thread = false := by
    rcases h.parent_cases hpar hm with ⟨hsame, -⟩ | ⟨⟨d, hk⟩, rfl, -⟩ | ⟨hk, -⟩ | ⟨-, rfl⟩
    · exact hpar.alive q m hsame
    · have hnone : _ ∧ _ := h.knows hpar hk
      have hpick := h.copies hk (by rw [hm, hnone.1]; simp)
      exact ⟨h.active, hok.forks m i q d h.cpu hk (by rw [hpick])⟩
    · obtain ⟨m', hm', hact, hself, -⟩ := hpar.linking p q _ h.active (by rw [hk]; rfl)
      obtain rfl := Option.some.inj hm'
      exact ⟨hact, hself⟩
    · exact hpar.init
  have hthread : (t.proc m).is_thread = (s.table.proc m).is_thread :=
    h.is_thread_same fun hemb => absurd rfl (hold.1.not hemb).2.1
  exact ⟨h.still_alive hpar hm hold.1 hold.2, hthread.trans hold.2⟩

end Takes

/-- A thread is about to store `np->parent` where it was, or has just loaded
`curproc->parent`. -/
theorem body_storing {owner : Option Slot} (h : BodyStep t p k t' n)
    (hgo : n.ctl.core = .storeParent np owner) :
    k.core = .storeParent np owner ∨ k = .threadLink np ∧ process t p = owner := by
  have hmake : n.ctl.creating = some np := by rw [← Ctl.creating_core, hgo]; rfl
  cases h with
  | preempt | block | yieldSched | sleepSched => exact Or.inl hgo
  | call sc k hstart => exact absurd ((start_spec hstart).2.2.1.symm.trans hmake) (by simp)
  | newborn thread np' => cases thread <;> exact absurd hgo (by simp [Next.ctl, Ctl.core])
  | threadLink np' owner' howner =>
      obtain ⟨rfl, rfl⟩ := Ctl.storeParent.inj hgo
      exact Or.inr ⟨rfl, howner⟩
  | growFailed | growFreed => exact absurd hgo (by simp [Next.ctl, Ctl.core])
  | _ => exact absurd hgo (by simp [Next.ctl, Ctl.core])

variable [DecidableEq C]

/-- Only the maker of `q` is recorded for it. -/
theorem makers_other (hcpu : s.cpu c = some (p, i))
    (hfork : ∀ d, (s.table.proc p).ctl ≠ .forkCopy q d)
    (hlink : ∀ owner, (s.table.proc p).ctl ≠ .storeParent q owner) : makers s c a o q = o q := by
  have hcases : makers s c a o = o ∨
      ∃ np, q ≠ np ∧ makers s c a o = Function.update o np (makerOf s.table o p) := by
    unfold makers
    simp only [hcpu]
    split
    · rename_i np d hk
      exact Or.inr ⟨np, fun heq => hfork d (heq ▸ hk), rfl⟩
    · rename_i np owner hk
      exact Or.inr ⟨np, fun heq => hlink owner (heq ▸ hk), rfl⟩
    · exact Or.inl rfl
  rcases hcases with hsame | ⟨np, hne, hnew⟩
  · rw [hsame]
  · rw [hnew, Function.update_of_ne hne]

/-- A slot that has a parent keeps its maker. -/
theorem Parents.recorded (hinv : Running s) (hpar : Parents s.table o)
    (hq : (s.table.proc q).parent ≠ none) : makers s c a o q = o q := by
  cases hcpu : s.cpu c with
  | none =>
      unfold makers
      rw [hcpu]
  | some r =>
      obtain ⟨p, i⟩ := r
      rcases hinv.cpu c p i hcpu with hrun | ⟨-, hk | hk⟩
      · have hknows := hpar.knows p (Or.inl hrun)
        refine makers_other hcpu (fun d hk => ?_) fun owner hk => ?_
        · rw [hk] at hknows
          exact hq hknows.1
        · rw [hk] at hknows
          exact hq hknows
      · exact makers_other hcpu (by simp [hk]) (by simp [hk])
      · exact makers_other hcpu (by simp [hk]) (by simp [hk])

theorem makers_forked (hcpu : s.cpu c = some (p, i)) {d : Nat}
    (hk : (s.table.proc p).ctl = .forkCopy q d) :
    makers s c (.run (.done true)) o q = makerOf s.table o p := by
  unfold makers
  simp only [hcpu, hk]
  exact Function.update_self _ _ _

theorem makers_linked {owner : Option Slot} (hcpu : s.cpu c = some (p, i))
    (hk : (s.table.proc p).ctl = .storeParent q owner) :
    makers s c (.run .next) o q = makerOf s.table o p := by
  unfold makers
  simp only [hcpu, hk]
  exact Function.update_self _ _ _

namespace Takes

variable (h : Takes s c p i pick t n) (hpar : Parents s.table o)

include h hpar

theorem maker_kept (hm : (t.proc q).parent = some m) : m = initproc ∨
    (t.proc m).kstack = if (t.proc q).is_thread then (makers s c (.run pick) o q).host
      else (makers s c (.run pick) o q).self := by
  rcases h.parent_cases hpar hm with
    ⟨hsame, hself⟩ | ⟨⟨d, hk⟩, rfl, hself⟩ | ⟨hk, hself⟩ | ⟨-, hinit⟩
  · have hlinked : (s.table.proc q).parent ≠ none := by simp [hsame]
    rw [hself, hpar.recorded h.inv hlinked, h.kstack_same (hpar.alive q m hsame).1]
    exact hpar.maker q m hsame
  · have hnone : _ ∧ _ := h.knows hpar hk
    obtain rfl := h.copies hk (by rw [hm, hnone.1]; simp)
    rw [makers_forked h.cpu hk, h.kstack_same h.active, hself]
    exact Or.inr rfl
  · have hnone : (s.table.proc q).parent = none := h.knows hpar hk
    obtain rfl := h.links hk (by rw [hm, hnone]; simp)
    obtain ⟨m', hm', hact, -, hmaker⟩ := hpar.linking p q _ h.active (by rw [hk]; rfl)
    obtain rfl := Option.some.inj hm'
    rw [makers_linked h.cpu hk, h.kstack_same hact, hself]
    exact hmaker
  · exact Or.inl hinit

theorem parents (hok : ProcessForks s (c, .run pick)) :
    Parents (t.goto p n.ctl) (makers s c (.run pick) o) := by
  have hparent : ∀ q, ((t.goto p n.ctl).proc q).parent = (t.proc q).parent := fun q =>
    goto_keeps Proc.parent fun _ _ => rfl
  have hthread : ∀ q, ((t.goto p n.ctl).proc q).is_thread = (t.proc q).is_thread := fun q =>
    goto_keeps Proc.is_thread fun _ _ => rfl
  have hstack : ∀ q, ((t.goto p n.ctl).proc q).kstack = (t.proc q).kstack := fun q =>
    goto_keeps Proc.kstack fun _ _ => rfl
  constructor
  case knows =>
    intro q hq
    rw [goto_active] at hq
    rw [knows_congr rfl hparent hthread]
    by_cases hqp : q = p
    · rw [hqp, goto_ctl_self]
      exact h.knows_self hpar
    · rw [goto_of_ne hqp]
      rcases h.was_active hqp hq with ⟨hact, hctl⟩ | ⟨hctl, -⟩
      · rw [hctl]
        exact h.knows_other hpar hqp hact
      · rw [hctl]
        trivial
  case unused =>
    intro q hq
    rw [goto_state] at hq
    rw [hparent]
    exact h.unused_kept hpar hq
  case known =>
    intro q hq hne
    rw [Proc.Used, goto_state] at hq
    rw [hparent]
    exact h.known_kept hpar hq hne
  case alive =>
    intro q m hm
    rw [hparent] at hm
    rw [goto_active, hthread]
    exact h.alive_kept hpar hok hm
  case maker =>
    intro q m hm
    rw [hparent] at hm
    rw [hstack, hthread]
    exact h.maker_kept hpar hm
  case init =>
    rw [goto_active, hthread]
    exact h.init_kept hpar
  case linking =>
    intro q np owner hq hk
    rw [goto_active] at hq
    have hold : (s.table.proc q).Active ∧ ∃ m, owner = some m ∧ Hosts s.table o q m ∧
        (m = p → (s.table.proc p).ctl ≠ .exitSched) := by
      by_cases hqp : q = p
      · rw [hqp, goto_ctl_self] at hk
        rw [hqp]
        refine ⟨h.active, ?_⟩
        rcases body_storing h.body hk with hk' | ⟨hk', howner⟩
        · obtain ⟨m, hm, hhosts⟩ := hpar.linking p np owner h.active hk'
          refine ⟨m, hm, hhosts, fun _ hexit => ?_⟩
          rw [hexit] at hk'
          exact absurd hk' (by simp [Ctl.core])
        · obtain ⟨m, hm, hhosts⟩ := h.process_hosts hpar
          exact ⟨m, howner.symm.trans hm, hhosts, fun _ => by simp [hk']⟩
      · rw [goto_of_ne hqp] at hk
        rcases h.was_active hqp hq with ⟨hact, hctl⟩ | ⟨hctl, -⟩
        · rw [hctl] at hk
          obtain ⟨m, rfl, hhosts⟩ := hpar.linking q np owner hact hk
          refine ⟨hact, m, rfl, hhosts, ?_⟩
          rintro rfl hexit
          exact hok.exits m i h.cpu hexit q np hact hk
        · rw [hctl] at hk
          exact absurd hk (by simp [Ctl.core])
    obtain ⟨hact, m, hm, hhosts, hexit⟩ := hold
    obtain ⟨hmact, hself, hmaker⟩ := h.hosts_kept hpar hact hhosts hexit
    refine ⟨m, hm, goto_active.mpr hmact, (hthread m).trans hself, ?_⟩
    have hsame : (t.proc q).is_thread = (s.table.proc q).is_thread :=
      h.is_thread_same fun hemb => absurd rfl (hact.not hemb).2.1
    rw [hstack, makerOf_congr (hstack q) (hthread q) fun hq =>
      hpar.recorded h.inv (hpar.thread_parent hact.used (hsame.symm.trans hq))]
    exact hmaker

end Takes

/-! ## Over a run -/

theorem Parents.record (hpar : Parents t o)
    (hsame : ∀ q, (t.proc q).parent ≠ none → o' q = o q) : Parents t o' where
  knows := hpar.knows
  unused := hpar.unused
  known := hpar.known
  alive := hpar.alive
  maker q m hm := by
    rw [hsame q (by simp [hm])]
    exact hpar.maker q m hm
  init := hpar.init
  linking p np owner hp hk := by
    obtain ⟨m, hm, hact, hself, hmaker⟩ := hpar.linking p np owner hp hk
    refine ⟨m, hm, hact, hself, ?_⟩
    rw [makerOf_congr rfl rfl fun hthread => hsame p (hpar.thread_parent hp.used hthread)]
    exact hmaker

theorem Parents.step (hinv : Running s) (hpar : Parents s.table o) (hstep : CpuStep s c a s')
    (hok : ProcessForks s (c, a)) : Parents s'.table (makers s c a o) := by
  rcases hinv.split hstep with halike | ⟨p, i, pick, t, n, rfl, htakes, ht⟩
  · exact (hpar.record fun q hq => hpar.recorded hinv hq).alike halike
  · rw [ht]
    exact htakes.parents hpar hok

theorem run_parents {tr : List (C × Act)} {s : Traced C}
    (h : Run (traced C) (fun s l => ProcessForks s.kernel l) tr s) :
    Running s.kernel ∧ Parents s.kernel.table s.maker := by
  have hinit : ∀ s, (traced C).init s → Running s.kernel ∧ Parents s.kernel.table s.maker :=
    fun s hboot => ⟨boot_running hboot, boot_parents hboot s.maker⟩
  refine h.invariant hinit ?_
  rintro s ⟨c, a⟩ s' ⟨hinv, hpar⟩ ⟨hstep, hmaker⟩ hok
  have hstep := step_cases hstep
  rw [hmaker]
  exact ⟨hinv.step hstep hok.spaced, hpar.step hinv hstep hok⟩

/-- The record of makers leaves the kernel alone: it has all runs of the kernel. -/
theorem run_traced {tr : List (C × Act)} {ok : Kernel C → C × Act → Prop}
    (h : Run (kthreads C) ok tr s) :
    ∃ s₀ : Traced C, Run (traced C) (fun s l => ok s.kernel l) tr s₀ ∧ s₀.kernel = s := by
  have hsim : ∃ s₀ : Traced C, Run (traced C) (fun s l => ok s.kernel l) tr s₀ ∧
      s = s₀.kernel := by
    apply h.simulate
    · exact fun s hboot => ⟨⟨s, fun _ => ⟨none, none⟩⟩, hboot, rfl⟩
    · rintro _ l s' s₀ rfl hstep hok
      exact ⟨⟨s', makers s₀.kernel l.1 l.2 s₀.maker⟩, ⟨hstep, rfl⟩, hok, rfl⟩
  obtain ⟨s₀, hrun, heq⟩ := hsim
  exact ⟨s₀, hrun, heq.symm⟩

theorem scan_step (hcpu : s.cpu c = some (m, i)) (hstack : (s.table.proc m).kstack = some i)
    {j : Nat} {kids : Bool} (hk : (s.table.proc m).ctl = .waitScan j kids)
    (hbody : body s.table m (.waitScan j kids) .next = some (t, .go k)) :
    step s c (.run .next) = some { s with table := t.goto m k } := by
  have hthread : threadStep s c m .next = some { s with table := t.goto m k } := by
    unfold threadStep
    simp only [hk, hbody]
  unfold Kthreads.step
  simp only [hcpu, hstack, or_true, if_true]
  exact hthread

/-- The scan of `wait` goes on by itself until it reaps a child. -/
theorem scan_reaps (hcpu : s.cpu c = some (m, i)) (hstack : (s.table.proc m).kstack = some i)
    {j : Nat} {kids : Bool} (hk : (s.table.proc m).ctl = .waitScan j kids)
    (hq : ∃ q : Slot, j ≤ q.val ∧ (s.table.proc q).parent = some m ∧
      (s.table.proc q).state = .zombie) :
    ∃ q s', (s.table.proc q).parent = some m ∧ (s.table.proc q).state = .zombie ∧
      Relation.ReflTransGen (fun s s' => step s c (.run .next) = some s') s s' ∧
        (s'.table.proc q).state = .unused := by
  obtain ⟨q, hle, hparent, hzombie⟩ := hq
  have hj : j < NPROC := Nat.lt_of_le_of_lt hle q.isLt
  induction hd : NPROC - j generalizing s j kids with
  | zero => omega
  | succ d ih =>
      by_cases htake : (s.table.proc ⟨j, hj⟩).parent = some m ∧
          (s.table.proc ⟨j, hj⟩).state = .zombie
      · have hbody : body s.table m (.waitScan j kids) .next =
            some ((s.table.free (s.table.proc ⟨j, hj⟩).pgdir).waitReset ⟨j, hj⟩,
              .go (.release (.ret (s.table.proc ⟨j, hj⟩).pid))) := by
          unfold body
          simp only [dif_pos hj, if_pos htake.1, if_pos htake.2]
        refine ⟨_, _, htake.1, htake.2, .single (scan_step hcpu hstack hk hbody), ?_⟩
        rw [goto_state, Table.waitReset, Table.set_self]
      · have hbody : ∃ kids', body s.table m (.waitScan j kids) .next =
            some (s.table, .go (.waitScan (j + 1) kids')) := by
          unfold body
          simp only [dif_pos hj]
          by_cases hchild : (s.table.proc ⟨j, hj⟩).parent = some m
          · rw [if_pos hchild, if_neg fun hz => htake ⟨hchild, hz⟩]
            exact ⟨_, rfl⟩
          · rw [if_neg hchild]
            exact ⟨_, rfl⟩
        obtain ⟨kids', hbody⟩ := hbody
        have hstep := scan_step hcpu hstack hk hbody
        have hlt : j + 1 ≤ q.val := by
          by_contra hge
          have hqj : q = ⟨j, hj⟩ := Fin.ext (by show q.val = j; omega)
          rw [hqj] at hparent hzombie
          exact htake ⟨hparent, hzombie⟩
        have hsame : ∀ r, ((s.table.goto m (.waitScan (j + 1) kids')).proc r).parent =
            (s.table.proc r).parent := fun r => goto_keeps Proc.parent fun _ _ => rfl
        obtain ⟨r, s', hr, hrz, hsteps, hfree⟩ := ih
          (s := { s with table := s.table.goto m (.waitScan (j + 1) kids') }) hcpu
          (by rw [goto_kstack]; exact hstack) goto_ctl_self hlt
          (by rw [hsame]; exact hparent) (by rw [goto_state]; exact hzombie)
          (Nat.lt_of_le_of_lt hlt q.isLt) (by omega)
        rw [hsame] at hr
        rw [goto_state] at hrz
        exact ⟨r, s', hr, hrz, .head hstep hsteps, hfree⟩

/-- Every process but init has a parent that is alive, that is init or the process
it was made by, and that can call `wait`, which reaps a child that exited. -/
theorem parents_kept {tr : List (C × Act)} {s : Traced C}
    (h : Run (traced C) (fun s l => ProcessForks s.kernel l) tr s) :
    (∀ q, (s.kernel.table.proc q).Used → q ≠ initproc → Rooted s.kernel.table s.maker q) ∧
    ∀ c m i kids, s.kernel.cpu c = some (m, i) →
      (s.kernel.table.proc m).ctl = .waitScan 0 kids →
      (∃ q, (s.kernel.table.proc q).parent = some m ∧
        (s.kernel.table.proc q).state = .zombie) →
      ∃ q s', (s.kernel.table.proc q).parent = some m ∧
        (s.kernel.table.proc q).state = .zombie ∧
        Relation.ReflTransGen (fun s s' => step s c (.run .next) = some s') s.kernel s' ∧
          (s'.table.proc q).state = .unused := by
  obtain ⟨hinv, hpar⟩ := run_parents h
  refine ⟨fun q hq hne => hpar.rooted hq hne, fun c m i kids hcpu hk hq => ?_⟩
  obtain ⟨q, hparent, hzombie⟩ := hq
  exact scan_reaps hcpu (hinv.stack c m i hcpu) hk ⟨q, Nat.zero_le _, hparent, hzombie⟩

/-- A thread of init makes a thread, init forks, the child forks and exits, the
threads exit and are joined, and init calls `wait`. -/
def familyWaits : List (Fin 2 × Act) :=
  threadRuns ++ creates 1 2 ++ forks 0 3 2 ++ exits 1 7 ++ starts 1 2 ++ exits 1 8 ++
    starts 1 3 ++ forks 1 4 3 ++ [(1, .run (.call .exit)), onward 1, onward 1, (1, .rest)] ++
    joins 0 1 1 ++ joins 0 2 2 ++ [(0, .run (.call .wait)), onward 0]

/-- The grandchild has init for a parent, which can reap the child. -/
theorem parents_kept_waits : ∃ s : Traced (Fin 2),
    Run (traced (Fin 2)) (fun s l => ProcessForks s.kernel l) familyWaits.reverse s ∧
      (s.kernel.table.proc 4).state = .runnable ∧ Rooted s.kernel.table s.maker 4 ∧
      ∃ q s', (s.kernel.table.proc q).parent = some 0 ∧
        Relation.ReflTransGen (fun s s' => step s 0 (.run .next) = some s') s.kernel s' ∧
          (s'.table.proc q).state = .unused := by
  have htr : ((familyWaits.foldlM (guarded (fun s l => ProcessForks s.kernel l)
      fun (s : Traced (Fin 2)) l => (step s.kernel l.1 l.2).map fun t =>
        ⟨t, makers s.kernel l.1 l.2 s.maker⟩) ⟨boot, fun _ => ⟨none, none⟩⟩).map fun s =>
      decide ((s.kernel.table.proc 4).state = .runnable ∧ s.kernel.cpu 0 = some (0, 0) ∧
        (s.kernel.table.proc 0).ctl = .waitScan 0 false ∧
        (s.kernel.table.proc 3).parent = some 0 ∧ (s.kernel.table.proc 3).state = .zombie)) =
          some true := by
    decide +kernel
  obtain ⟨s, hs, hend⟩ := Option.map_eq_some_iff.mp htr
  obtain ⟨hstate, hcpu, hk, hparent, hzombie⟩ := of_decide_eq_true hend
  have hrun : Run (traced (Fin 2)) (fun s l => ProcessForks s.kernel l) familyWaits.reverse s := by
    refine Run.of_guarded boot_boot (fun s l s' h => ?_) hs
    obtain ⟨t, hstep, rfl⟩ := Option.map_eq_some_iff.mp h
    exact ⟨hstep, rfl⟩
  obtain ⟨hrooted, hreaps⟩ := parents_kept hrun
  obtain ⟨q, s', hq, -, hsteps, hfree⟩ := hreaps 0 0 0 false hcpu hk ⟨3, hparent, hzombie⟩
  exact ⟨s, hrun, hstate, hrooted 4 (by simp [Proc.Used, hstate]) (by decide), q, s', hq, hsteps,
    hfree⟩

/-- A thread of init forks and calls `kthread_exit`, and init joins it. -/
def threadForks : List (Fin 2 × Act) := threadRuns ++ forks 1 2 2 ++ exits 1 7 ++ joins 0 1 1

/-- The child is left with a parent whose slot is free. -/
theorem threadForks_dangles :
    ∃ (tr : List (Fin 2 × Act)) (s : Kernel (Fin 2)), Run (kthreads (Fin 2)) anyStep tr s ∧
      (s.table.proc 2).state = .runnable ∧ (s.table.proc 2).parent = some 1 ∧
        (s.table.proc 1).state = .unused := by
  have htr : ((threadForks.foldlM (fun s l => step s l.1 l.2) boot).map fun s =>
      ((s.table.proc 2).state, (s.table.proc 2).parent, (s.table.proc 1).state)) =
        some (.runnable, some 1, .unused) := by
    decide +kernel
  obtain ⟨s, hs, heq⟩ := Option.map_eq_some_iff.mp htr
  obtain ⟨hstate, heq⟩ := Prod.mk.inj heq
  obtain ⟨hparent, hfree⟩ := Prod.mk.inj heq
  exact ⟨_, s, Run.of_foldlM boot_boot (fun _ _ _ h => ⟨h, trivial⟩) hs, hstate, hparent, hfree⟩

end Kthreads
end CS444
