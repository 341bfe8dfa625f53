/-
Who uses which page directory.

A process that is not a thread holds the directory of its slot from the moment
it is runnable until it is waited for, and the code of `fork` and `exec` holds
the one it is building or about to free.  `Images` says that a directory with a
holder is allocated and has one holder, and that threads use the directory of
their process.  It is an invariant of the runs in which only processes without
running threads replace their image (`SoleExec`).
-/
import CS444.Kthreads.Family

namespace CS444
namespace Kthreads

open Runs

variable {C : Type} {s s' : Kernel C} {c : C} {a : Act} {t t' : Table} {p q m np : Slot} {i d : Nat}
  {pick : Pick} {k : Ctl} {n : Next}

/-! ## Slots under construction -/

/-- Every slot under construction has a maker. -/
def Made (t : Table) : Prop :=
  ∀ q, (t.proc q).state = .embryo → ∃ p, (t.proc p).Active ∧ (t.proc p).ctl.creating = some q

/-- The maker goes on until the slot is published or free again. -/
theorem body_makes (h : BodyStep t p k t' n) (hk : k.creating = some q)
    (hq : (t'.proc q).state = .embryo) : n.ctl.creating = some q := by
  cases h with
  | newbornFail thread np | forkUndo np | publish np owner v =>
      obtain rfl : np = q := Option.some.inj hk
      exact absurd hq (by simp)
  | newborn thread np => cases thread <;> exact hk
  | _ => first | exact hk | exact absurd hk (by simp [Ctl.creating])

theorem Made.alike (hmade : Made t) (h : Alike t t') : Made t' := by
  intro q hq
  obtain ⟨p, hp, hk⟩ := hmade q ((h.state_iff (by decide)).mp hq)
  refine ⟨p, (h.active p).mpr hp, ?_⟩
  rw [← Ctl.creating_core, h.core p hp, Ctl.creating_core]
  exact hk

theorem Takes.made (h : Takes s c p i pick t n) (hmade : Made s.table) :
    Made (t.goto p n.ctl) := by
  intro q hq
  rw [goto_state] at hq
  have hself : n.ctl.creating = some q →
      ∃ r, ((t.goto p n.ctl).proc r).Active ∧ ((t.goto p n.ctl).proc r).ctl.creating = some q := by
    intro hk
    refine ⟨p, goto_active.mpr ?_, by rw [goto_ctl_self]; exact hk⟩
    rcases h.own with hact | ⟨-, ⟨v, -, rfl⟩ | ⟨-, rfl⟩⟩
    · exact hact
    · exact absurd hk (by simp [Next.ctl, Ctl.creating])
    · exact absurd hk (by simp [Next.ctl, Ctl.creating])
  have hqp : q ≠ p := by
    rintro rfl
    rcases h.own with hact | ⟨hzombie, -⟩
    · exact absurd rfl (hact.not hq).2.1
    · exact absurd (hzombie.symm.trans hq) (by decide)
  have hold : (s.table.proc q).state = .embryo ∨ n.ctl.creating = some q := by
    cases body_touch h.body hqp with
    | rest hwoken =>
        cases hwoken with
        | same hkey => exact Or.inl ((key_eq_iff.mp hkey).1.symm.trans hq)
        | woken _ hstate => exact absurd (hstate.symm.trans hq) (by decide)
    | taken _ _ hk => exact Or.inr hk
    | made _ hstate => exact Or.inl (hstate.symm.trans hq)
    | dropped _ hstate => exact absurd (hstate.symm.trans hq) (by decide)
    | published _ _ hstate => exact absurd (hstate.symm.trans hq) (by decide)
    | reaped _ _ hstate => exact absurd (hstate.symm.trans hq) (by decide)
  rcases hold with hold | hk
  · obtain ⟨r, hr, hk⟩ := hmade q hold
    by_cases hrp : r = p
    · subst hrp
      exact hself (body_makes h.body hk hq)
    · obtain ⟨hact, hctl⟩ := h.still_active hrp hr
      refine ⟨r, goto_active.mpr hact, ?_⟩
      rw [goto_of_ne hrp, hctl]
      exact hk
  · exact hself hk

/-! ## The invariant -/

/-- Who is responsible for a directory: the process in a slot, or the code its
thread is in. -/
inductive Holder where
  | image (q : Slot)
  | working (p : Slot)
deriving DecidableEq

/-- The directory that `fork` or `exec` has at the control point `k`. -/
def Ctl.directory (t : Table) (k : Ctl) : Option Nat :=
  match k.core with
  | .forkCopy _ d | .execBuilt d | .freevm d => some d
  | .publish np none => some (t.proc np).pgdir
  | _ => none

def Holds (t : Table) : Holder → Nat → Prop
  | .image q, d => (t.proc q).Used ∧ (t.proc q).is_thread = false ∧ (t.proc q).pgdir = d
  | .working p, d => (t.proc p).Active ∧ (t.proc p).ctl.directory t = some d

structure Images (t : Table) : Prop where
  live : ∀ x d, Holds t x d → t.live d = true
  sole : ∀ x y d, Holds t x d → Holds t y d → x = y
  shared : ∀ q m, ThreadOf t q m → (t.proc q).state ≠ .zombie →
    (t.proc q).pgdir = (t.proc m).pgdir

/-- The directory a step frees. -/
def frees (t : Table) (p : Slot) : Ctl → Pick → Option Nat
  | .forkCopy _ d, .done false => some d
  | .freevm d, .next => some d
  | .waitScan i _, .next =>
    if h : i < NPROC then
      if (t.proc ⟨i, h⟩).parent = some p ∧ (t.proc ⟨i, h⟩).state = .zombie then
        some (t.proc ⟨i, h⟩).pgdir
      else none
    else none
  | _, _ => none

/-- `p` is a process all of whose threads have exited. -/
def Sole (t : Table) (p : Slot) : Prop :=
  (t.proc p).is_thread = false ∧ ∀ q, ThreadOf t q p → (t.proc q).state = .zombie

/-- The slot that it has from `allocproc` and has not stored a directory in. -/
def Ctl.filling (k : Ctl) : Option Slot :=
  match k.core with
  | .newborn _ np | .forkSetup np | .forkCopy np _ | .forkUndo np | .threadLink np
  | .storeParent np _ => some np
  | _ => none

/-- `exec` commits in a process whose threads have all exited. -/
structure SoleExec (s : Kernel C) (l : C × Act) : Prop extends Orderly s l where
  exec : ∀ p i d sz, s.cpu l.1 = some (p, i) → (s.table.proc p).ctl = .execBuilt d →
    l.2 = .run (.image sz) → Sole s.table p

/-- Moreover a directory is freed only while no `fork` or `kthread_create` is
between `allocproc` and the store of `np->pgdir` in a slot that last used it. -/
structure Exclusive (s : Kernel C) (l : C × Act) : Prop extends SoleExec s l where
  stale : ∀ p i pick d, s.cpu l.1 = some (p, i) → l.2 = .run pick →
    frees s.table p (s.table.proc p).ctl pick = some d →
    ∀ r q, (s.table.proc r).Active → (s.table.proc r).ctl.filling = some q →
      (s.table.proc q).pgdir ≠ d

instance (t : Table) (p : Slot) : Decidable (Sole t p) := inferInstanceAs (Decidable (_ ∧ _))

def Act.picked : Act → Option Pick
  | .run pick => some pick
  | _ => none

theorem picked_eq_some {a : Act} {pick : Pick} : a.picked = some pick ↔ a = .run pick := by
  cases a <;> simp [Act.picked]

/-- The step in which `exec` commits. -/
def commits (k : Ctl) (a : Act) : Bool :=
  match k, a with
  | .execBuilt _, .run (.image _) => true
  | _, _ => false

theorem commits_eq_true {k : Ctl} {a : Act} :
    commits k a = true ↔ ∃ d sz, k = .execBuilt d ∧ a = .run (.image sz) := by
  unfold commits
  split
  · exact ⟨fun _ => ⟨_, _, rfl, rfl⟩, fun _ => rfl⟩
  · rename_i hno
    refine ⟨fun h => absurd h (by simp), ?_⟩
    rintro ⟨d, sz, rfl, rfl⟩
    exact absurd rfl (hno d sz rfl)

instance (s : Kernel C) (l : C × Act) : Decidable (SoleExec s l) :=
  decidable_of_iff (Orderly s l ∧ ∀ p i, s.cpu l.1 = some (p, i) →
    commits (s.table.proc p).ctl l.2 = true → Sole s.table p) <| by
    refine ⟨fun h => ⟨h.1, fun p i d sz hcpu hk ha => ?_⟩,
      fun h => ⟨h.toOrderly, fun p i hcpu hk => ?_⟩⟩
    · exact h.2 p i hcpu (commits_eq_true.mpr ⟨d, sz, hk, ha⟩)
    · obtain ⟨d, sz, hk, ha⟩ := commits_eq_true.mp hk
      exact h.exec p i d sz hcpu hk ha

instance (s : Kernel C) (l : C × Act) : Decidable (Exclusive s l) :=
  decidable_of_iff (SoleExec s l ∧ ∀ p i, s.cpu l.1 = some (p, i) → ∀ pick ∈ l.2.picked,
    ∀ d ∈ frees s.table p (s.table.proc p).ctl pick, ∀ r, (s.table.proc r).Active →
      ∀ q ∈ (s.table.proc r).ctl.filling, (s.table.proc q).pgdir ≠ d)
    ⟨fun h => ⟨h.1, fun p i pick d hcpu ha hd r q hr hq =>
        h.2 p i hcpu pick (picked_eq_some.mpr ha) d hd r hr q hq⟩,
      fun h => ⟨h.toSoleExec, fun p i hcpu pick ha d hd r hr q hq =>
        h.stale p i pick d hcpu (picked_eq_some.mp ha) hd r q hr hq⟩⟩

/-! ## One step -/

/-- What a step from `k` to `k'` does to the directories. -/
inductive Paging (t t' : Table) (p : Slot) (k k' : Ctl) : Prop
  | same : t'.live = t.live → (∀ q, (t'.proc q).pgdir = (t.proc q).pgdir) →
      k'.directory t = k.directory t → (∀ q owner, k ≠ .publish q owner) → Paging t t' p k k'
  | published (np : Slot) (owner : Option Slot) : k = .publish np owner → t'.live = t.live →
      (∀ q, (t'.proc q).pgdir = (t.proc q).pgdir) → (∀ u, k'.directory u = none) →
      Paging t t' p k k'
  | linked (np : Slot) (owner : Option Slot) : k = .storeParent np owner →
      k' = .tidParent np → t'.live = t.live →
      (∀ q, (t'.proc q).pgdir = if q = np then (t.proc p).pgdir else (t.proc q).pgdir) →
      Paging t t' p k k'
  | built (d : Nat) : t.live d = false → t'.live = Function.update t.live d true →
      (∀ q, (t'.proc q).pgdir = (t.proc q).pgdir) → (∀ u, k'.directory u = some d) →
      (∀ q owner, k ≠ .publish q owner) → Paging t t' p k k'
  | copied (np : Slot) (d : Nat) : k = .forkCopy np d → k' = .acquire (.publish np none) →
      t'.live = t.live → (∀ q, (t'.proc q).pgdir = if q = np then d else (t.proc q).pgdir) →
      Paging t t' p k k'
  | freed (d : Nat) : k.directory t = some d → (∀ u, k'.directory u = none) →
      t'.live = Function.update t.live d false → (∀ q, (t'.proc q).pgdir = (t.proc q).pgdir) →
      (∀ q owner, k ≠ .publish q owner) → Paging t t' p k k'
  | waited (q : Slot) (kids : Bool) : k = .waitScan q kids → (t.proc q).parent = some p →
      (t.proc q).state = .zombie → (t'.proc q).state = .unused →
      t'.live = Function.update t.live (t.proc q).pgdir false →
      (∀ q, (t'.proc q).pgdir = (t.proc q).pgdir) → (∀ u, k'.directory u = none) →
      Paging t t' p k k'
  | committed (d sz : Nat) : k = .execBuilt d → k' = .freevm (t.proc p).pgdir →
      t' = commitImage t p d sz → Paging t t' p k k'

theorem start_directory {sc : Syscall} (h : start t p sc = some k) (u : Table) :
    k.directory u = none := by
  unfold start at h
  dsimp only at h
  repeat' split at h
  all_goals cases h <;> rfl

theorem body_paging (h : BodyStep t p k t' n) : Paging t t' p k n.ctl := by
  cases h with
  | preempt k _ hopen | block m k _ hopen =>
      refine .same rfl (fun _ => rfl) rfl ?_
      rintro q owner rfl
      exact absurd hopen (by simp [Ctl.locked])
  | yieldSched k | sleepSched m k =>
      exact .same rfl (fun _ => Table.set_keeps Proc.pgdir fun _ => rfl) rfl (by simp)
  | call sc k hstart =>
      exact .same rfl (fun _ => rfl) (start_directory hstart t) (by simp)
  | alloc => exact .same rfl (fun _ => takeSlot_keeps Proc.pgdir fun _ _ _ => rfl) rfl (by simp)
  | newborn thread np =>
      exact .same rfl (fun _ => initSlot_keeps Proc.pgdir fun _ _ => rfl)
        (by cases thread <;> rfl) (by simp)
  | forkSetup np d hfree =>
      exact .built d hfree rfl (fun _ => rfl) (fun _ => rfl) (by simp)
  | forkCopy np d =>
      refine .copied np d rfl rfl rfl fun q => ?_
      rw [copyImage, Table.set_apply]
      split <;> rfl
  | forkCopyFail np d => exact .freed d rfl (fun _ => rfl) rfl (fun _ => rfl) (by simp)
  | storeParent np owner =>
      refine .linked np owner rfl rfl rfl fun q => ?_
      rw [linkThread, Table.set_apply]
      split <;> rfl
  | storeTid =>
      exact .same rfl (fun _ => takeTid_keeps Proc.pgdir (fun _ _ => rfl) fun _ _ => rfl) rfl
        (by simp)
  | publish np owner v =>
      exact .published np owner rfl rfl (fun _ => Table.set_keeps Proc.pgdir fun _ => rfl)
        fun _ => rfl
  | joinTake =>
      exact .same rfl (fun _ => takeThread_keeps Proc.pgdir (fun _ _ => rfl) fun _ => rfl) rfl
        (by simp)
  | threadExit2 =>
      exact .same rfl (fun _ => threadZombie_keeps Proc.pgdir fun _ _ => rfl) rfl (by simp)
  | exitSched =>
      refine .same (by rw [exitBody_rest]) (fun _ => ?_) rfl (by simp)
      exact exitBody_keeps Proc.pgdir (fun _ _ => rfl) fun _ _ => rfl
  | waitTake q kids hparent hzombie =>
      exact .waited q kids rfl hparent hzombie (by rw [Table.waitReset, Table.set_self]) rfl
        (fun _ => waitReset_keeps Proc.pgdir fun _ => rfl) fun _ => rfl
  | execSetup d hfree => exact .built d hfree rfl (fun _ => rfl) (fun _ => rfl) (by simp)
  | execCommit d sz => exact .committed d sz rfl rfl rfl
  | freevm d => exact .freed d rfl (fun _ => rfl) rfl (fun _ => rfl) (by simp)
  | _ =>
      first
        | exact .same rfl (fun _ => rfl) rfl (by simp)
        | exact .same rfl (fun _ => Table.set_keeps Proc.pgdir fun _ => rfl) rfl (by simp)

/-- `exec` commits only with a new image. -/
theorem body_exec (h : body t p (.execBuilt d) pick = some (t', n)) :
    (∃ sz, pick = .image sz) ∨ t' = t ∧ n.ctl.directory t = some d := by
  have hnone : (none : Option (Table × Next)) ≠ some (t', n) := by simp
  have hsame : ∀ k : Ctl, k.core = .execBuilt d → ∀ (b : Prop) [Decidable b],
      (if b then some (t, Next.go k) else none) = some (t', n) →
        t' = t ∧ n.ctl.directory t = some d := by
    intro k hk b _ heq
    split at heq
    · obtain ⟨rfl, rfl⟩ := Prod.mk.inj (Option.some.inj heq)
      exact ⟨rfl, by rw [Next.ctl, Ctl.directory, hk]⟩
    · exact absurd heq hnone
  cases pick with
  | image sz => exact Or.inl ⟨sz, rfl⟩
  | preempt => exact Or.inr (hsame _ rfl _ h)
  | block m => exact Or.inr (hsame _ rfl _ h)
  | done success =>
      cases success with
      | false =>
          obtain ⟨rfl, rfl⟩ := Prod.mk.inj (Option.some.inj h)
          exact Or.inr ⟨rfl, rfl⟩
      | true => exact absurd h hnone
  | next => exact absurd h hnone
  | call sc => exact absurd h hnone
  | slot np => cases np <;> exact absurd h hnone
  | page d => cases d <;> exact absurd h hnone

namespace Takes

variable (h : Takes s c p i pick t n) (hfam : Family s.table)

include h

/-- Where the next directory of another thread is, and its last. -/
theorem directory_other (hq : q ≠ p) (hact : (s.table.proc q).Active)
    (hpgdir : ∀ np, (s.table.proc p).ctl.creating ≠ some np → (s.table.proc np).state = .embryo →
      (t.proc np).pgdir = (s.table.proc np).pgdir) :
    (s.table.proc q).ctl.directory t = (s.table.proc q).ctl.directory s.table := by
  have hmake : ∀ np, (s.table.proc q).ctl.core.creating = some np →
      (t.proc np).pgdir = (s.table.proc np).pgdir := by
    intro np hnp
    rw [Ctl.creating_core] at hnp
    exact hpgdir np (fun hk => h.not_maker hq hact hk hnp) (h.inv.embryo q np hact hnp)
  unfold Ctl.directory
  generalize (s.table.proc q).ctl.core = k at hmake
  cases k with
  | publish np owner =>
      cases owner with
      | none => exact congrArg some (hmake np rfl)
      | some owner => rfl
  | _ => rfl

/-- Slots that no `fork` or `kthread_create` of the step's thread is about keep
their directory, but for its own in `exec`. -/
theorem pgdir_same (hq : (s.table.proc p).ctl.creating ≠ some q) (hqp : q ≠ p) :
    (t.proc q).pgdir = (s.table.proc q).pgdir := by
  cases body_paging h.body with
  | same _ hsame => exact hsame q
  | published np owner _ _ hsame => exact hsame q
  | linked np owner hk _ _ hpgdir =>
      have hne : q ≠ np := by
        rintro rfl
        exact hq (by rw [hk]; rfl)
      rw [hpgdir, if_neg hne]
  | built d _ _ hsame => exact hsame q
  | copied np d hk _ _ hpgdir =>
      have hne : q ≠ np := by
        rintro rfl
        exact hq (by rw [hk]; rfl)
      rw [hpgdir, if_neg hne]
  | freed d _ _ _ hsame => exact hsame q
  | waited r kids _ _ _ _ _ hsame => exact hsame q
  | committed d sz _ _ ht =>
      rw [ht, commitImage, Table.set_of_ne hqp]
      rfl

omit h in
theorem directory_congr (hpgdir : ∀ q, (t'.proc q).pgdir = (t.proc q).pgdir) (k : Ctl) :
    k.directory t' = k.directory t := by
  unfold Ctl.directory
  split
  all_goals first | rfl | rw [hpgdir]

include hfam

/-- Where the holders after the step come from. -/
theorem holds_before {x : Holder} (hx : Holds (t.goto p n.ctl) x d) :
    (x = .working p ∧ n.ctl.directory t = some d) ∨
      (∃ r, r ≠ p ∧ x = .working r ∧ Holds s.table x d) ∨
      ∃ q, x = .image q ∧ (t.proc q).Used ∧ (t.proc q).pgdir = d ∧
        (s.table.proc q).is_thread = false ∧
        ((s.table.proc q).Used ∨ (s.table.proc p).ctl = .publish q none) := by
  have hgoto : ∀ q, ((t.goto p n.ctl).proc q).pgdir = (t.proc q).pgdir := fun q =>
    goto_keeps Proc.pgdir fun _ _ => rfl
  cases x with
  | working r =>
      obtain ⟨hact, hdir⟩ := hx
      rw [goto_active] at hact
      rw [directory_congr hgoto] at hdir
      by_cases hrp : r = p
      · subst hrp
        rw [goto_ctl_self] at hdir
        exact Or.inl ⟨rfl, hdir⟩
      · rw [goto_of_ne hrp] at hdir
        rcases h.was_active hrp hact with ⟨hold, hctl⟩ | ⟨hctl, -⟩
        · refine Or.inr (Or.inl ⟨r, hrp, rfl, hold, ?_⟩)
          rw [← h.directory_other hrp hold, ← hctl]
          · exact hdir
          · intro np hnp hembryo
            refine h.pgdir_same hnp ?_
            rintro rfl
            exact absurd (hembryo.symm.trans h.run) (by decide)
        · rw [hctl] at hdir
          exact absurd hdir (by simp [Ctl.directory, Ctl.core])
  | image q =>
      obtain ⟨hused, hself, hdir⟩ := hx
      rw [Proc.Used, goto_state] at hused
      have hself' : (t.proc q).is_thread = false :=
        (goto_keeps Proc.is_thread fun _ _ => rfl).symm.trans hself
      refine Or.inr (Or.inr ⟨q, rfl, hused, (hgoto q).symm.trans hdir, ?_⟩)
      rcases h.was_used hused with hold | ⟨owner, hk⟩
      · exact ⟨(h.is_thread_same hold.2).symm.trans hself', Or.inl hold⟩
      · cases owner with
        | none =>
            have hchild : _ ∧ _ := h.stage hfam hk
            exact ⟨hchild.2, Or.inr hk⟩
        | some owner =>
            have hlinked : Linked s.table p q owner := h.stage hfam hk
            rcases h.thread_lost hfam hlinked.1 with hkeep | ⟨hfree, -⟩
            · exact absurd (hself'.symm.trans hkeep.1) (by simp)
            · exact absurd hfree hused.1

/-- Every holder after the step was one before, maybe under another name, and no
directory still held was freed. -/
def Pulled (t u : Table) : Prop :=
  ∃ f : Holder → Holder, Function.Injective f ∧
    ∀ x d, Holds u x d → Holds t (f x) d ∧ (t.live d = true → u.live d = true)

omit h hfam in
theorem Pulled.images (hpull : Pulled t t') (hlive : ∀ x d, Holds t x d → t.live d = true)
    (hsole : ∀ x y d, Holds t x d → Holds t y d → x = y) :
    (∀ x d, Holds t' x d → t'.live d = true) ∧
      ∀ x y d, Holds t' x d → Holds t' y d → x = y := by
  obtain ⟨f, hinj, hback⟩ := hpull
  refine ⟨fun x d hx => (hback x d hx).2 (hlive _ d (hback x d hx).1), fun x y d hx hy => ?_⟩
  exact hinj (hsole _ _ d (hback x d hx).1 (hback y d hy).1)

/-- The step leaves the directories alone. -/
theorem pulled_same (hlive : t.live = s.table.live)
    (hpgdir : ∀ q, (s.table.proc q).Used → (t.proc q).pgdir = (s.table.proc q).pgdir)
    (hdir : ∀ d, n.ctl.directory t = some d → (s.table.proc p).ctl.directory s.table = some d)
    (hpub : ∀ q, (s.table.proc p).ctl ≠ .publish q none) : Pulled s.table (t.goto p n.ctl) := by
  refine ⟨id, Function.injective_id, fun x d hx => ⟨?_, ?_⟩⟩
  · rcases h.holds_before hfam hx with ⟨rfl, hd⟩ | ⟨r, -, rfl, hr⟩ | ⟨q, rfl, -, hd, hself, hused⟩
    · exact ⟨h.active, hdir d hd⟩
    · exact hr
    · rcases hused with hused | hk
      · exact ⟨hused, hself, (hpgdir q hused).symm.trans hd⟩
      · exact absurd hk (hpub q)
  · show _ → t.live d = true
    rw [hlive]
    exact id

theorem pulled_published (hk : (s.table.proc p).ctl = .publish np none)
    (hlive : t.live = s.table.live) (hpgdir : ∀ q, (t.proc q).pgdir = (s.table.proc q).pgdir)
    (hdir : ∀ u, n.ctl.directory u = none) : Pulled s.table (t.goto p n.ctl) := by
  have hnp : (s.table.proc np).state = .embryo := h.embryo (by rw [hk]; rfl)
  refine ⟨Equiv.swap (.image np) (.working p), Equiv.injective _, fun x d hx => ⟨?_, ?_⟩⟩
  · rcases h.holds_before hfam hx with ⟨rfl, hd⟩ | ⟨r, hrp, rfl, hr⟩ | ⟨q, rfl, -, hd, hself, hused⟩
    · exact absurd ((hdir t).symm.trans hd) (by simp)
    · rw [Equiv.swap_apply_of_ne_of_ne (by simp) (by simpa using hrp)]
      exact hr
    · by_cases hqn : q = np
      · subst hqn
        rw [Equiv.swap_apply_left]
        refine ⟨h.active, ?_⟩
        rw [hk]
        exact congrArg some ((hpgdir q).symm.trans hd)
      · rw [Equiv.swap_apply_of_ne_of_ne (by simpa using hqn) (by simp)]
        rcases hused with hused | hk'
        · exact ⟨hused, hself, (hpgdir q).symm.trans hd⟩
        · exact absurd (Ctl.publish.inj (hk.symm.trans hk')).1.symm hqn
  · show _ → t.live d = true
    rw [hlive]
    exact id

theorem pulled_committed {sz : Nat} (hk : (s.table.proc p).ctl = .execBuilt d)
    (hgo : n.ctl = .freevm (s.table.proc p).pgdir) (ht : t = commitImage s.table p d sz)
    (hself : (s.table.proc p).is_thread = false) : Pulled s.table (t.goto p n.ctl) := by
  refine ⟨Equiv.swap (.image p) (.working p), Equiv.injective _, fun x d' hx => ⟨?_, ?_⟩⟩
  · rcases h.holds_before hfam hx with ⟨rfl, hd⟩ | ⟨r, hrp, rfl, hr⟩ | ⟨q, rfl, -, hd, hq, hused⟩
    · rw [hgo] at hd
      rw [Equiv.swap_apply_right]
      exact ⟨h.active.used, hself, Option.some.inj hd⟩
    · rw [Equiv.swap_apply_of_ne_of_ne (by simp) (by simpa using hrp)]
      exact hr
    · by_cases hqp : q = p
      · subst hqp
        rw [Equiv.swap_apply_left]
        refine ⟨h.active, ?_⟩
        rw [hk, ← hd, ht, commitImage, Table.set_self]
        rfl
      · rw [Equiv.swap_apply_of_ne_of_ne (by simpa using hqp) (by simp)]
        have hmake : (s.table.proc p).ctl.creating ≠ some q := by
          rw [hk]
          simp [Ctl.creating]
        rcases hused with hused | hk'
        · exact ⟨hused, hq, (h.pgdir_same hmake hqp).symm.trans hd⟩
        · exact absurd (hk.symm.trans hk') (by simp)
  · show _ → t.live d' = true
    rw [ht]
    exact id

/-- A directory the code held is freed. -/
theorem pulled_freed (hi : Images s.table) (hk : (s.table.proc p).ctl.directory s.table = some d)
    (hdir : ∀ u, n.ctl.directory u = none) (hlive : t.live = Function.update s.table.live d false)
    (hpgdir : ∀ q, (t.proc q).pgdir = (s.table.proc q).pgdir)
    (hpub : ∀ q, (s.table.proc p).ctl ≠ .publish q none) : Pulled s.table (t.goto p n.ctl) := by
  refine ⟨id, Function.injective_id, fun x d' hx => ?_⟩
  have hold : Holds s.table x d' ∧ x ≠ .working p := by
    rcases h.holds_before hfam hx with ⟨-, hd⟩ | ⟨r, hrp, rfl, hr⟩ | ⟨q, rfl, -, hd, hself, hused⟩
    · exact absurd ((hdir t).symm.trans hd) (by simp)
    · exact ⟨hr, by simpa using hrp⟩
    · rcases hused with hused | hk
      · exact ⟨⟨hused, hself, (hpgdir q).symm.trans hd⟩, by simp⟩
      · exact absurd hk (hpub q)
  refine ⟨hold.1, fun hl => ?_⟩
  have hne : d' ≠ d := by
    rintro rfl
    exact hold.2 (hi.sole x (.working p) d' hold.1 ⟨h.active, hk⟩)
  show t.live d' = true
  rw [hlive, Function.update_of_ne hne]
  exact hl

/-- The directory of a process that was waited for is freed. -/
theorem pulled_waited {kids : Bool} (hi : Images s.table)
    (hk : (s.table.proc p).ctl = .waitScan q kids) (hchild : (s.table.proc q).parent = some p)
    (hzombie : (s.table.proc q).state = .zombie) (hfree : (t.proc q).state = .unused)
    (hlive : t.live = Function.update s.table.live (s.table.proc q).pgdir false)
    (hpgdir : ∀ q, (t.proc q).pgdir = (s.table.proc q).pgdir)
    (hdir : ∀ u, n.ctl.directory u = none) : Pulled s.table (t.goto p n.ctl) := by
  have hstage : _ ∧ _ := h.stage hfam hk
  have hself : (s.table.proc q).is_thread = false := by
    by_contra htrue
    exact hstage.2 q ⟨by simpa using htrue, hchild⟩
  have hholds : Holds s.table (.image q) (s.table.proc q).pgdir :=
    ⟨by simp [Proc.Used, hzombie], hself, rfl⟩
  refine ⟨id, Function.injective_id, fun x d' hx => ?_⟩
  have hold : Holds s.table x d' ∧ x ≠ .image q := by
    rcases h.holds_before hfam hx with ⟨-, hd⟩ | ⟨r, hrp, rfl, hr⟩ | ⟨r, rfl, hr, hd, hr', hused⟩
    · exact absurd ((hdir t).symm.trans hd) (by simp)
    · exact ⟨hr, by simp⟩
    · refine ⟨?_, ?_⟩
      · rcases hused with hused | hk'
        · exact ⟨hused, hr', (hpgdir r).symm.trans hd⟩
        · exact absurd (hk.symm.trans hk') (by simp)
      · rintro heq
        obtain rfl := Holder.image.inj heq
        exact absurd hfree hr.1
  refine ⟨hold.1, fun hl => ?_⟩
  have hne : d' ≠ (s.table.proc q).pgdir := by
    rintro rfl
    exact hold.2 (hi.sole x (.image q) _ hold.1 hholds)
  show t.live d' = true
  rw [hlive, Function.update_of_ne hne]
  exact hl

/-- A new directory, held by the code that made it. -/
theorem images_built (hi : Images s.table) (hfree : s.table.live d = false)
    (hlive : t.live = Function.update s.table.live d true)
    (hpgdir : ∀ q, (t.proc q).pgdir = (s.table.proc q).pgdir)
    (hdir : ∀ u, n.ctl.directory u = some d)
    (hpub : ∀ q, (s.table.proc p).ctl ≠ .publish q none) :
    (∀ x d', Holds (t.goto p n.ctl) x d' → (t.goto p n.ctl).live d' = true) ∧
      ∀ x y d', Holds (t.goto p n.ctl) x d' → Holds (t.goto p n.ctl) y d' → x = y := by
  have hcases : ∀ x d', Holds (t.goto p n.ctl) x d' →
      x = .working p ∧ d' = d ∨ Holds s.table x d' ∧ d' ≠ d := by
    intro x d' hx
    have hold : x = .working p ∧ d' = d ∨ Holds s.table x d' := by
      rcases h.holds_before hfam hx with ⟨rfl, hd⟩ | ⟨r, -, rfl, hr⟩ | ⟨q, rfl, -, hd, hself, hused⟩
      · exact Or.inl ⟨rfl, Option.some.inj (hd.symm.trans (hdir t))⟩
      · exact Or.inr hr
      · rcases hused with hused | hk
        · exact Or.inr ⟨hused, hself, (hpgdir q).symm.trans hd⟩
        · exact absurd hk (hpub q)
    refine hold.imp_right fun hx' => ⟨hx', ?_⟩
    rintro rfl
    exact absurd (hfree.symm.trans (hi.live x d' hx')) (by simp)
  constructor
  · intro x d' hx
    show t.live d' = true
    rw [hlive]
    rcases hcases x d' hx with ⟨-, rfl⟩ | ⟨hx', hne⟩
    · exact Function.update_self ..
    · rw [Function.update_of_ne hne]
      exact hi.live x d' hx'
  · intro x y d' hx hy
    rcases hcases x d' hx with ⟨rfl, hd⟩ | ⟨hx', hne⟩ <;>
      rcases hcases y d' hy with ⟨rfl, hd'⟩ | ⟨hy', hne'⟩
    · rfl
    · exact absurd hd hne'
    · exact absurd hd' hne
    · exact hi.sole x y d' hx' hy'

theorem holders_step (hi : Images s.table) (hok : SoleExec s (c, .run pick)) :
    (∀ x d', Holds (t.goto p n.ctl) x d' → (t.goto p n.ctl).live d' = true) ∧
      ∀ x y d', Holds (t.goto p n.ctl) x d' → Holds (t.goto p n.ctl) y d' → x = y := by
  have hpulled : Pulled s.table (t.goto p n.ctl) → _ := fun hpull =>
    hpull.images hi.live hi.sole
  have hmade : ∀ np, (s.table.proc p).ctl.creating = some np → ∀ q, (s.table.proc q).Used →
      q ≠ np := by
    rintro np hk q hq rfl
    exact hq.2 (h.embryo hk)
  cases body_paging h.body with
  | same hlive hpgdir hdir hpub =>
      refine hpulled (h.pulled_same hfam hlive (fun q _ => hpgdir q) (fun d hd => ?_)
        fun q => hpub q none)
      rw [directory_congr hpgdir, hdir] at hd
      exact hd
  | published np owner hk hlive hpgdir hdir =>
      cases owner with
      | none => exact hpulled (h.pulled_published hfam hk hlive hpgdir hdir)
      | some owner =>
          exact hpulled (h.pulled_same hfam hlive (fun q _ => hpgdir q)
            (fun d hd => absurd ((hdir t).symm.trans hd) (by simp)) (by simp [hk]))
  | linked np owner hk hgo hlive hpgdir =>
      refine hpulled (h.pulled_same hfam hlive (fun q hq => ?_) (fun d hd => ?_) (by simp [hk]))
      · rw [hpgdir, if_neg (hmade np (by rw [hk]; rfl) q hq)]
      · rw [hgo] at hd
        exact absurd hd (by simp [Ctl.directory, Ctl.core])
  | built d hfree hlive hpgdir hdir hpub =>
      exact h.images_built hfam hi hfree hlive hpgdir hdir fun q => hpub q none
  | copied np d hk hgo hlive hpgdir =>
      refine hpulled (h.pulled_same hfam hlive (fun q hq => ?_) (fun d' hd => ?_) (by simp [hk]))
      · rw [hpgdir, if_neg (hmade np (by rw [hk]; rfl) q hq)]
      · have hd' : some (t.proc np).pgdir = some d' := by
          rw [hgo] at hd
          exact hd
        rw [hk, ← hd', hpgdir, if_pos rfl]
        rfl
  | freed d hk hdir hlive hpgdir hpub =>
      exact hpulled (h.pulled_freed hfam hi hk hdir hlive hpgdir fun q => hpub q none)
  | waited q kids hk hchild hzombie hfree hlive hpgdir hdir =>
      exact hpulled (h.pulled_waited hfam hi hk hchild hzombie hfree hlive hpgdir hdir)
  | committed d sz hk hgo ht =>
      have hstep := h.step
      rw [hk] at hstep
      rcases body_exec hstep with ⟨sz', rfl⟩ | ⟨rfl, hdir⟩
      · have hself := (hok.exec p i d sz' h.cpu hk rfl).1
        exact hpulled (h.pulled_committed hfam hk hgo ht hself)
      · refine hpulled (h.pulled_same hfam rfl (fun _ _ => rfl) (fun d' hd => ?_) (by simp [hk]))
        rw [hk]
        exact hdir.symm.trans hd

omit hfam in
/-- Another slot keeps its directory unless it is given one to start with. -/
theorem pgdir_cases (hq : ∀ owner, (s.table.proc p).ctl ≠ .storeParent q owner)
    (hq' : ∀ d, (s.table.proc p).ctl ≠ .forkCopy q d) :
    (t.proc q).pgdir = (s.table.proc q).pgdir ∨
      q = p ∧ ∃ d sz, (s.table.proc p).ctl = .execBuilt d ∧ pick = .image sz := by
  cases body_paging h.body with
  | same _ hsame => exact Or.inl (hsame q)
  | published np owner _ _ hsame => exact Or.inl (hsame q)
  | linked np owner hk _ _ hpgdir =>
      have hne : q ≠ np := fun heq => hq owner (heq ▸ hk)
      exact Or.inl (by rw [hpgdir, if_neg hne])
  | built d _ _ hsame => exact Or.inl (hsame q)
  | copied np d hk _ _ hpgdir =>
      have hne : q ≠ np := fun heq => hq' d (heq ▸ hk)
      exact Or.inl (by rw [hpgdir, if_neg hne])
  | freed d _ _ _ hsame => exact Or.inl (hsame q)
  | waited r kids _ _ _ _ _ hsame => exact Or.inl (hsame q)
  | committed d sz hk _ ht =>
      by_cases hqp : q = p
      · have hstep := h.step
        rw [hk] at hstep
        rcases body_exec hstep with ⟨sz', hpick⟩ | ⟨rfl, -⟩
        · exact Or.inr ⟨hqp, d, sz', hk, hpick⟩
        · exact Or.inl rfl
      · refine Or.inl ?_
        rw [ht, commitImage, Table.set_of_ne hqp]
        rfl

/-- Threads that have not exited use the directory of their process. -/
theorem shared_step (hi : Images s.table) (hok : SoleExec s (c, .run pick))
    (hq : ThreadOf t q m) (hlive : (t.proc q).state ≠ .zombie) :
    (t.proc q).pgdir = (t.proc m).pgdir := by
  rcases h.thread_new hfam hq with hold | ⟨hk, hgo, howner⟩
  · have hzombie : (s.table.proc q).state ≠ .zombie := by
      intro hzombie
      rcases h.exited_step hfam ⟨hzombie, hold.1⟩ with ⟨hkeep, -⟩ | ⟨hnone, -⟩
      · exact hlive hkeep.1
      · exact absurd (hnone.symm.trans hq.2) (by simp)
    have hthread : (t.proc q).pgdir = (s.table.proc q).pgdir := by
      have hlinked : (s.table.proc q).parent ≠ none := by simp [hold.2]
      have hlink : ∀ owner, (s.table.proc p).ctl ≠ .storeParent q owner := by
        intro owner hk
        have hstage : _ ∧ _ := h.stage hfam hk
        exact hlinked hstage.1.1
      have hfork : ∀ d, (s.table.proc p).ctl ≠ .forkCopy q d := by
        intro d hk
        have hstage : _ ∧ _ := h.stage hfam hk
        exact hlinked hstage.1
      rcases h.pgdir_cases hlink hfork with hsame | ⟨rfl, d, sz, hk, rfl⟩
      · exact hsame
      · have hself := (hok.exec q i d sz h.cpu hk rfl).1
        exact absurd (hself.symm.trans hold.1) (by simp)
    have hhost : (t.proc m).pgdir = (s.table.proc m).pgdir := by
      have hact := (hfam.host q m hold).1
      have hmade : ∀ k : Ctl, k.creating = some m → (s.table.proc p).ctl ≠ k := by
        rintro k hk rfl
        exact absurd rfl (hact.not (h.embryo hk)).2.1
      rcases h.pgdir_cases (fun owner => hmade _ rfl) (fun d => hmade _ rfl) with
        hsame | ⟨rfl, d, sz, hk, rfl⟩
      · exact hsame
      · exact absurd ((hok.exec m i d sz h.cpu hk rfl).2 q hold) hzombie
    rw [hthread, hhost]
    exact hi.shared q m hold hzombie
  · have hmine : (s.table.proc p).pgdir = (s.table.proc m).pgdir := by
      rw [process] at howner
      split at howner
      · rename_i hself
        exact hi.shared p m ⟨hself, howner⟩ (by simp [h.run])
      · rw [Option.some.inj howner]
    have hmq : m ≠ q := by
      rintro rfl
      exact absurd ((h.host_step hfam hq).2.symm.trans hq.1) (by simp)
    have hbody := h.body
    rw [hk] at hbody
    cases hbody with
    | preempt | block => exact absurd hgo (by simp [Next.ctl])
    | storeParent np owner =>
        rw [linkThread, Table.set_self, Table.set_of_ne hmq]
        exact hmine

theorem images (hi : Images s.table) (hok : SoleExec s (c, .run pick)) :
    Images (t.goto p n.ctl) := by
  obtain ⟨hlive, hsole⟩ := h.holders_step hfam hi hok
  refine ⟨hlive, hsole, fun q m hq hstate => ?_⟩
  have hgoto : ∀ q, ((t.goto p n.ctl).proc q).pgdir = (t.proc q).pgdir := fun q =>
    goto_keeps Proc.pgdir fun _ _ => rfl
  rw [hgoto, hgoto]
  exact h.shared_step hfam hi hok (threadOf_goto.mp hq) (goto_state.symm.trans_ne hstate)

end Takes

theorem Images.alike (hi : Images t) (h : Alike t t') : Images t' := by
  have hpgdir := h.keeps Proc.pgdir fun _ _ _ => rfl
  have hholds : ∀ x d, Holds t' x d → Holds t x d := by
    rintro (q | p) d hx
    · obtain ⟨hused, hself, hd⟩ := hx
      refine ⟨h.used.mp hused, ?_, (hpgdir q).symm.trans hd⟩
      exact (h.keeps Proc.is_thread (fun _ _ _ => rfl) q).symm.trans hself
    · obtain ⟨hact, hd⟩ := hx
      have hold := (h.active p).mp hact
      refine ⟨hold, ?_⟩
      rw [Ctl.directory, h.core p hold] at hd
      exact (Takes.directory_congr hpgdir _).symm.trans hd
  refine ⟨fun x d hx => ?_, fun x y d hx hy => ?_, fun q m hq hstate => ?_⟩
  · rw [h.rest]
    exact hi.live x d (hholds x d hx)
  · exact hi.sole x y d (hholds x d hx) (hholds y d hy)
  · rw [hpgdir, hpgdir]
    refine hi.shared q m ((threadOf_congr (h.keeps Proc.kin (fun _ _ _ => rfl) q)).mp hq) ?_
    exact fun hzombie => hstate ((h.state_iff (by decide)).mpr hzombie)

theorem boot_images (h : Boot s) : Made s.table ∧ Images s.table := by
  have hrest : ∀ q, q ≠ initproc → (s.table.proc q).state = .unused ∧
      (s.table.proc q).is_thread = false := fun q hq => by
    rw [h.unused q hq]
    exact ⟨rfl, rfl⟩
  have hinit : (s.table.proc initproc).state = .runnable ∧
      (s.table.proc initproc).is_thread = false ∧
      (s.table.proc initproc).ctl = .release .user ∧ (s.table.proc initproc).pgdir = 1 := by
    rw [h.init]
    exact ⟨rfl, rfl, rfl, rfl⟩
  have hholds : ∀ x d, Holds s.table x d → x = .image initproc ∧ d = 1 := by
    rintro (q | p) d hx
    · by_cases hq : q = initproc
      · subst hq
        exact ⟨rfl, hx.2.2.symm.trans hinit.2.2.2⟩
      · exact absurd (hrest q hq).1 hx.1.1
    · by_cases hp : p = initproc
      · subst hp
        have hdir := hx.2
        rw [hinit.2.2.1] at hdir
        exact absurd hdir (by simp [Ctl.directory, Ctl.core])
      · exact absurd rfl (hx.1.not (hrest p hp).1).1
  refine ⟨fun q hq => ?_, fun x d hx => ?_, fun x y d hx hy => ?_, fun q m hq _ => ?_⟩
  · by_cases hqi : q = initproc
    · rw [hqi, hinit.1] at hq
      exact absurd hq (by decide)
    · rw [(hrest q hqi).1] at hq
      exact absurd hq (by decide)
  · rw [(hholds x d hx).2, h.live]
    rfl
  · exact (hholds x d hx).1.trans (hholds y d hy).1.symm
  · by_cases hqi : q = initproc
    · rw [ThreadOf, hqi, hinit.2.1] at hq
      exact absurd hq.1 (by simp)
    · rw [ThreadOf, (hrest q hqi).2] at hq
      exact absurd hq.1 (by simp)

variable [DecidableEq C]

theorem run_images {tr : List (C × Act)} (h : Run (kthreads C) SoleExec tr s) :
    Running s ∧ Family s.table ∧ Made s.table ∧ Images s.table := by
  have hinit : ∀ s, (kthreads C).init s →
      Running s ∧ Family s.table ∧ Made s.table ∧ Images s.table := fun _ hboot =>
    ⟨boot_running hboot, boot_family hboot, boot_images hboot⟩
  refine h.invariant hinit ?_
  rintro s ⟨c, a⟩ s' ⟨hinv, hfam, hmade, hi⟩ hstep hok
  have hstep := step_cases hstep
  refine ⟨hinv.step hstep hok.spaced, hfam.step hinv hstep hok.toOrderly, ?_⟩
  rcases hinv.split hstep with halike | ⟨p, i, pick, t, n, rfl, htakes, ht⟩
  · exact ⟨hmade.alike halike, hi.alike halike⟩
  · rw [ht]
    exact ⟨htakes.made hmade, htakes.images hfam hi hok⟩

omit [DecidableEq C] in
/-- What a step frees is held by the code that frees it or by the process that
is waited for. -/
theorem frees_cases (h : frees t p k pick = some d) :
    k.directory t = some d ∧ (∀ np, k.core ≠ .publish np none) ∨
      ∃ (q : Slot) (kids : Bool), k = .waitScan q kids ∧ (t.proc q).parent = some p ∧
        (t.proc q).state = .zombie ∧ d = (t.proc q).pgdir := by
  unfold frees at h
  split at h
  · obtain rfl := Option.some.inj h
    exact Or.inl ⟨rfl, by simp [Ctl.core]⟩
  · obtain rfl := Option.some.inj h
    exact Or.inl ⟨rfl, by simp [Ctl.core]⟩
  · rename_i i kids
    split at h
    · rename_i hi
      split at h
      · rename_i hzombie
        exact Or.inr ⟨⟨i, hi⟩, kids, rfl, hzombie.1, hzombie.2, (Option.some.inj h).symm⟩
      · exact absurd h (by simp)
    · exact absurd h (by simp)
  · exact absurd h (by simp)

omit [DecidableEq C] in
/-- `frees` says which directory a step frees. -/
theorem frees_of_body (h : body t p k pick = some (t', n)) (hlive : t.live d = true)
    (hdead : t'.live d = false) : frees t p k pick = some d := by
  have hnone : (none : Option (Table × Next)) ≠ some (t', n) := by simp
  have hswitch : ∀ (b : Prop) [Decidable b] (j : Ctl),
      (if b then some (t, Next.go j) else none) ≠ some (t', n) := by
    intro b _ j heq
    split at heq
    · obtain ⟨rfl, -⟩ := Prod.mk.inj (Option.some.inj heq)
      exact absurd (hlive.symm.trans hdead) (by simp)
    · exact hnone heq
  have hone : ∀ d', t'.live = Function.update t.live d' false → d = d' := by
    intro d' heq
    by_contra hne
    rw [heq, Function.update_of_ne hne] at hdead
    exact absurd (hlive.symm.trans hdead) (by simp)
  have hbuilt : ∀ d', (t.setupkvm d').live d ≠ false := by
    intro d' heq
    by_cases hd : d = d'
    · subst hd
      exact absurd (heq.symm.trans (Function.update_self ..)) (by simp)
    · have hsame : (t.setupkvm d').live d = t.live d := Function.update_of_ne hd ..
      exact absurd (hlive.symm.trans (hsame.symm.trans heq)) (by simp)
  have hbody := body_step h
  cases hbody with
  | forkCopyFail np d' =>
      obtain rfl := hone d' rfl
      cases pick with
      | done success =>
          cases success with
          | false => rfl
          | true =>
              replace h : (if imagePresent t p then some (copyImage t p np d,
                Next.go (.acquire (.publish np none))) else none) = _ := h
              split at h <;> simp at h
      | preempt => exact absurd h (hswitch _ _)
      | block m => exact absurd h (hswitch _ _)
      | slot np => cases np <;> exact absurd h hnone
      | page d => cases d <;> exact absurd h hnone
      | next | call | image => exact absurd h hnone
  | freevm d' =>
      obtain rfl := hone d' rfl
      cases pick with
      | next => rfl
      | preempt => exact absurd h (hswitch _ _)
      | block m => exact absurd h (hswitch _ _)
      | slot np => cases np <;> exact absurd h hnone
      | page d => cases d <;> exact absurd h hnone
      | done success => cases success <;> exact absurd h hnone
      | call | image => exact absurd h hnone
  | waitTake q kids hparent hzombie =>
      obtain rfl := hone _ rfl
      cases pick with
      | next => simp [frees, hparent, hzombie]
      | preempt => exact absurd h (hswitch _ _)
      | block m => exact absurd h (hswitch _ _)
      | slot np => cases np <;> exact absurd h hnone
      | page d => cases d <;> exact absurd h hnone
      | done success => cases success <;> exact absurd h hnone
      | call | image => exact absurd h hnone
  | forkSetup np d' | execSetup d' => exact absurd hdead (hbuilt d')
  | exitSched =>
      rw [exitBody_rest] at hdead
      exact absurd (hlive.symm.trans hdead) (by simp)
  | _ => exact absurd (hlive.symm.trans hdead) (by simp)

/-- A directory that is freed is allocated, and no slot that is being made or
may run uses it. -/
theorem freed_unused {tr : List (C × Act)} (h : Run (kthreads C) Exclusive tr s) (c : C) (p : Slot)
    (i : Nat) (pick : Pick) (d : Nat) (hcpu : s.cpu c = some (p, i))
    (hok : Exclusive s (c, .run pick))
    (hfree : frees s.table p (s.table.proc p).ctl pick = some d) :
    s.table.live d = true ∧ ∀ q, (s.table.proc q).state = .embryo ∨ (s.table.proc q).Active →
      (s.table.proc q).pgdir ≠ d := by
  obtain ⟨hinv, hfam, hmade, hi⟩ := run_images (h.mono fun _ _ hok => hok.toSoleExec)
  have hstale := hok.stale p i pick d hcpu rfl hfree
  have hact : (s.table.proc p).Active := by
    rcases hinv.cpu c p i hcpu with hrun | ⟨-, hctl | hctl⟩
    · exact Or.inl hrun
    · rw [hctl] at hfree
      exact absurd hfree (by simp [frees])
    · rw [hctl] at hfree
      exact absurd hfree (by simp [frees])
  -- The directory is held by this thread's code or by a zombie.
  have hholder : ∃ x, Holds s.table x d ∧ (∀ q, (s.table.proc q).Active → x ≠ .image q) ∧
      ∀ r np, x = .working r → (s.table.proc r).ctl.core ≠ .publish np none := by
    rcases frees_cases hfree with ⟨hdir, hpub⟩ | ⟨q, kids, hk, hchild, hzombie, rfl⟩
    · refine ⟨.working p, ⟨hact, hdir⟩, fun q _ => by simp, ?_⟩
      rintro r np heq hk
      obtain rfl := Holder.working.inj heq
      exact hpub np hk
    · have hstage : Stage s.table p (.waitScan q kids) := hk ▸ hfam.stage p hact
      have hself : (s.table.proc q).is_thread = false := by
        by_contra htrue
        exact hstage.2 q ⟨by simpa using htrue, hchild⟩
      refine ⟨.image q, ⟨by simp [Proc.Used, hzombie], hself, rfl⟩, ?_, fun r np => by simp⟩
      rintro r hr heq
      obtain rfl := Holder.image.inj heq
      exact absurd rfl (hr.not hzombie).2.2
  obtain ⟨x, hx, himage, hworking⟩ := hholder
  have hprocess : ∀ m, (s.table.proc m).Active → (s.table.proc m).is_thread = false →
      (s.table.proc m).pgdir ≠ d := fun m hm hself heq =>
    himage m hm (hi.sole x (.image m) d hx ⟨hm.used, hself, heq⟩)
  have hthread : ∀ q m, ThreadOf s.table q m → (s.table.proc q).state ≠ .zombie →
      (s.table.proc q).pgdir ≠ d := by
    intro q m hq hstate
    rw [hi.shared q m hq hstate]
    exact hprocess m (hfam.host q m hq).1 (hfam.host q m hq).2
  refine ⟨hi.live x d hx, ?_⟩
  rintro q (hembryo | hq)
  · obtain ⟨r, hr, hk⟩ := hmade q hembryo
    have hstage := hfam.stage r hr
    rw [← stage_congr (Ctl.core_core _) (fun _ => rfl) fun _ => rfl] at hstage
    rw [← Ctl.creating_core] at hk
    have hlinked : ∀ owner, Linked s.table r q owner → (s.table.proc q).pgdir ≠ d :=
      fun owner hl => hthread q owner hl.1 (by simp [hembryo])
    have hflat := Ctl.core_flat (s.table.proc r).ctl
    have hfilling := hstale r q hr
    unfold Ctl.filling at hfilling
    generalize hcore : (s.table.proc r).ctl.core = k at hk hstage hflat hfilling
    cases k with
    | acquire k => exact absurd rfl (hflat k).1
    | release k => exact absurd rfl (hflat k).2.1
    | yieldSched k => exact absurd rfl (hflat k).2.2.1
    | sleepSched n k => exact absurd rfl ((hflat k).2.2.2 n)
    | newborn _ np | forkUndo np | forkSetup np | forkCopy np _ | threadLink np
    | storeParent np owner => exact hfilling hk
    | tidParent np =>
        obtain rfl : np = q := Option.some.inj hk
        obtain ⟨⟨owner, hl⟩, -⟩ := hstage
        exact hlinked owner hl
    | countParent np =>
        obtain rfl : np = q := Option.some.inj hk
        obtain ⟨owner, hl⟩ := hstage
        exact hlinked owner hl
    | loadTid np owner | storeTid np owner v =>
        obtain rfl : np = q := Option.some.inj hk
        have hboth : _ ∧ _ := hstage
        exact hlinked owner hboth.1
    | loadCount np owner | storeCount np owner v =>
        obtain rfl : np = q := Option.some.inj hk
        exact hlinked owner hstage
    | publish np owner =>
        obtain rfl : np = q := Option.some.inj hk
        cases owner with
        | some owner => exact hlinked owner hstage
        | none =>
            rintro rfl
            have hholds : Holds s.table (.working r) (s.table.proc np).pgdir := by
              refine ⟨hr, ?_⟩
              rw [Ctl.directory, hcore]
            exact hworking r np (hi.sole x _ _ hx hholds) hcore
    | _ => exact absurd hk (by simp [Ctl.creating])
  · by_cases hself : (s.table.proc q).is_thread = true
    · obtain ⟨m, hm⟩ := hfam.thread q hq.used hself
      refine hthread q m hm fun hzombie => ?_
      exact absurd rfl (hq.not hzombie).2.2
    · exact hprocess q hq (by simpa using hself)

omit [DecidableEq C] in
theorem not_threadOf (h : (t.proc q).is_thread = false) : ¬ThreadOf t q m := fun hq =>
  absurd (h.symm.trans hq.1) (by simp)

/-- Init forks, its thread exits, and init calls `exec`, up to the free of its old
directory, which is that of the thread too. -/
def execJoined : List (Fin 2 × Act) :=
  threadRuns ++ forks 0 2 2 ++ exits 1 7 ++
    [(0, .run (.call .exec)), (0, .run (.page (some 3))), (0, .run (.image PGSIZE))]

theorem freed_unused_exec : ∃ s : Kernel (Fin 2), Run (kthreads (Fin 2)) Exclusive
    execJoined.reverse s ∧ frees s.table 0 (s.table.proc 0).ctl .next = some 1 ∧
      (s.table.proc 1).pgdir = 1 ∧ s.table.live 1 = true ∧ (s.table.proc 2).state = .runnable ∧
      (s.table.proc 2).pgdir ≠ 1 := by
  have htr : ((execJoined.foldlM (guarded Exclusive fun s l => step s l.1 l.2) boot).map fun s =>
      decide (Exclusive s (0, .run .next) ∧ s.cpu 0 = some (0, 0) ∧
        frees s.table 0 (s.table.proc 0).ctl .next = some 1 ∧ (s.table.proc 1).pgdir = 1 ∧
        (s.table.proc 2).state = .runnable)) = some true := by
    decide +kernel
  obtain ⟨s, hs, hend⟩ := Option.map_eq_some_iff.mp htr
  obtain ⟨hok, hcpu, hfree, hzombie, hchild⟩ := of_decide_eq_true hend
  have hrun := run_checked hs
  obtain ⟨hlive, hothers⟩ := freed_unused hrun 0 0 0 .next 1 hcpu hok hfree
  exact ⟨s, hrun, hfree, hzombie, hlive, hchild, hothers 2 (Or.inr (Or.inr (Or.inl hchild)))⟩

/-- Init calls `exec` while its thread runs on the other CPU. -/
def execShared : List (Fin 2 × Act) :=
  threadRuns ++ [(0, .run (.call .exec)), (0, .run (.page (some 2))), (0, .run (.image PGSIZE))]

theorem execShared_frees_used : ∃ (tr : List (Fin 2 × Act)) (s : Kernel (Fin 2)),
    Run (kthreads (Fin 2)) anyStep tr s ∧ s.cpu 0 = some (0, 0) ∧
      frees s.table 0 (s.table.proc 0).ctl .next = some 1 ∧
      (s.table.proc 1).state = .running ∧ (s.table.proc 1).pgdir = 1 := by
  have htr : ((execShared.foldlM (fun s l => step s l.1 l.2) boot).map fun s =>
      decide (s.cpu 0 = some (0, 0) ∧ frees s.table 0 (s.table.proc 0).ctl .next = some 1 ∧
        (s.table.proc 1).state = .running ∧ (s.table.proc 1).pgdir = 1)) = some true := by
    decide +kernel
  obtain ⟨s, hs, hend⟩ := Option.map_eq_some_iff.mp htr
  exact ⟨_, s, Run.of_foldlM boot_boot (fun _ _ _ h => ⟨h, trivial⟩) hs, of_decide_eq_true hend⟩

end Kthreads
end CS444
