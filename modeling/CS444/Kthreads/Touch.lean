/-
What a step does to the slots, as far as scheduling goes.

`body_own` is about the slot of the thread that takes the step, `body_touch`
about every other slot.
-/
import CS444.Kthreads.BodyStep

namespace CS444
namespace Kthreads

open Runs

/-! ## Control points -/

namespace Ctl

/-- The slot a join found to be a zombie. -/
def target : Ctl → Option Slot
  | .acquire k | .release k | .yieldSched k | .sleepSched _ k => k.target
  | .joinLoad _ _ q | .joinTake _ _ q _ => some q
  | _ => none

/-- A control point of a thread that is not exiting: it drops the lock only
where it holds it and takes it only where it does not. -/
def Wf : Ctl → Prop
  | .acquire k => k.locked = true ∧ k.target = none ∧ k.Wf
  | .release k | .yieldSched k | .sleepSched _ k => k.locked = false ∧ k.Wf
  | .threadSched | .dead => False
  | _ => True

/-- The slot the thread is making a process or thread of. -/
def creating : Ctl → Option Slot
  | .acquire k | .release k | .yieldSched k | .sleepSched _ k => k.creating
  | .newborn _ np | .forkSetup np | .forkCopy np _ | .forkUndo np | .threadLink np
  | .storeParent np _ | .tidParent np | .loadTid np _ | .storeTid np _ _ | .countParent np
  | .loadCount np _ | .storeCount np _ _ | .publish np _ => some np
  | _ => none

/-- The slot it is making, once that has a kernel stack. -/
def born : Ctl → Option Slot
  | .acquire k | .release k | .yieldSched k | .sleepSched _ k => k.born
  | .forkSetup np | .forkCopy np _ | .forkUndo np | .threadLink np
  | .storeParent np _ | .tidParent np | .loadTid np _ | .storeTid np _ _ | .countParent np
  | .loadCount np _ | .storeCount np _ _ | .publish np _ => some np
  | _ => none

theorem target_of_open {k : Ctl} (hwf : k.Wf) (hopen : k.locked = false) : k.target = none := by
  cases k with
  | acquire k => exact hwf.2.1
  | _ => first | rfl | exact absurd hopen (by simp [locked])

end Ctl

def Next.ctl : Next → Ctl
  | .go k => k
  | .swtch k => k

/-- The step takes over the slot `q`: a join or `wait` found it a zombie. -/
def Reaps (t : Table) (p : Slot) (k : Ctl) (q : Slot) : Prop :=
  (∃ owner tid v, k = .joinTake owner tid q v) ∨
    ∃ kids, k = .waitScan q kids ∧ (t.proc q).parent = some p ∧ (t.proc q).state = .zombie

/-- The slot a join takes over in the next step. -/
def Ctl.taking : Ctl → Option Slot
  | .joinTake _ _ q _ => some q
  | _ => none

theorem taking_eq_some {k : Ctl} {q : Slot} :
    k.taking = some q ↔ ∃ owner tid v, k = .joinTake owner tid q v := by
  cases k <;> simp [Ctl.taking]

instance (t : Table) (p : Slot) (k : Ctl) (q : Slot) : Decidable (Reaps t p k q) :=
  decidable_of_iff (k.taking = some q ∨
    ∃ kids, k = .waitScan q kids ∧ (t.proc q).parent = some p ∧ (t.proc q).state = .zombie)
    (or_congr_left taking_eq_some)

/-- At most a wakeup happened to `q`. -/
inductive Woken (t t' : Table) (q : Slot) : Prop
  | same : (t'.proc q).key = (t.proc q).key → Woken t t' q
  | woken : (t.proc q).state = .sleeping → (t'.proc q).state = .runnable →
      (t'.proc q).ctl = (t.proc q).ctl → (t'.proc q).kstack = (t.proc q).kstack →
      Woken t t' q

/-- What a step from `k` to `k'` of the thread of another slot can do to `q`. -/
inductive Touch (t t' : Table) (p : Slot) (k k' : Ctl) (q : Slot) : Prop
  | rest : Woken t t' q → Touch t t' p k k' q
  | taken : (t.proc q).state = .unused → (t'.proc q).state = .embryo →
      k'.creating = some q → Touch t t' p k k' q
  | made : k.creating = some q → (t'.proc q).state = (t.proc q).state →
      (∃ i, (t'.proc q).kstack = some i) → (t'.proc q).ctl = .release .user →
      Touch t t' p k k' q
  | dropped : (∃ thread, k = .newborn thread q) ∨ k = .forkUndo q →
      (t'.proc q).state = .unused → k'.creating = none → Touch t t' p k k' q
  | published (owner : Option Slot) : k = .publish q owner → (t'.proc q).state = .runnable →
      (t'.proc q).ctl = (t.proc q).ctl → (t'.proc q).kstack = (t.proc q).kstack →
      k'.creating = none → Touch t t' p k k' q
  | reaped : Reaps t p k q → k.locked = true → (t'.proc q).state = .unused →
      (t'.proc q).parent = none → Touch t t' p k k' q

variable {t t' : Table} {p q : Slot} {k : Ctl} {n : Next}

theorem key_eq_iff {r r' : Proc} :
    r'.key = r.key ↔ r'.state = r.state ∧ r'.ctl = r.ctl ∧ r'.kstack = r.kstack := by
  simp [Proc.key]

theorem Woken.trans {t₁ : Table} (hab : Woken t t₁ q) (hbc : Woken t₁ t' q) : Woken t t' q := by
  cases hab with
  | same hkey =>
      obtain ⟨hstate, hctl, hstack⟩ := key_eq_iff.mp hkey
      cases hbc with
      | same hkey' => exact .same (hkey'.trans hkey)
      | woken hsleep hrun hctl' hstack' =>
          exact .woken (hstate.symm.trans hsleep) hrun (hctl'.trans hctl) (hstack'.trans hstack)
  | woken hsleep hrun hctl hstack =>
      cases hbc with
      | same hkey =>
          obtain ⟨hstate', hctl', hstack'⟩ := key_eq_iff.mp hkey
          exact .woken hsleep (hstate'.trans hrun) (hctl'.trans hctl) (hstack'.trans hstack)
      | woken hsleep' => exact absurd (hsleep'.symm.trans hrun) (by decide)

theorem wakeup1_woken (chan : Chan) (q : Slot) : Woken t (t.wakeup1 chan) q := by
  by_cases hsleep : (t.proc q).state = .sleeping ∧ (t.proc q).chan = chan
  · apply Woken.woken hsleep.1 <;> simp [Table.wakeup1, hsleep]
  · exact .same (by simp [Table.wakeup1, hsleep])

theorem reparent_woken (p q : Slot) : Woken t (t.reparent p) q := by
  refine .same ?_
  simp only [Table.reparent]
  split <;> rfl

/-- `exit` wakes sleepers, passes children on and becomes a zombie. -/
theorem exitBody_eq (t : Table) (p : Slot) : ∃ t₁ : Table,
    t.exitBody p = t₁.set p (fun r => { r with state := .zombie }) ∧ ∀ q, Woken t t₁ q := by
  refine ⟨_, rfl, fun q => ?_⟩
  have hrest : ∀ t₁ : Table, Woken t t₁ q → Woken t (if t₁.leavesZombie p then
      (t₁.reparent p).wakeup1 (.proc initproc) else t₁.reparent p) q := by
    intro t₁ hparent
    split
    · exact hparent.trans ((reparent_woken p q).trans (wakeup1_woken _ q))
    · exact hparent.trans (reparent_woken p q)
  apply hrest
  split
  · exact .same rfl
  · exact wakeup1_woken _ q

theorem Woken.kstack (h : Woken t t' q) : (t'.proc q).kstack = (t.proc q).kstack := by
  cases h with
  | same hkey => exact (key_eq_iff.mp hkey).2.2
  | woken _ _ _ hstack => exact hstack

/-- The fields `kthread_create` leaves alone when it takes a thread id. -/
theorem takeTid_keeps {α : Type} {np owner : Slot} {v : Nat} (g : Proc → α)
    (hnext : ∀ r v, g { r with next_tid := v } = g r) (htid : ∀ r v, g { r with tid := v } = g r) :
    g ((takeTid t np owner v).proc q) = g (t.proc q) :=
  (Table.set_keeps g fun r => htid r v).trans (Table.set_keeps g fun r => hnext r _)

/-- The fields `fork` leaves alone when it copies the address space. -/
theorem copyImage_keeps {α : Type} {np : Slot} {d : Nat} (g : Proc → α)
    (hg : ∀ r d sz m, g { r with pgdir := d, sz, parent := m } = g r) :
    g ((copyImage t p np d).proc q) = g (t.proc q) :=
  Table.set_keeps g fun r => hg r _ _ _

/-- The fields `exec` leaves alone when it commits. -/
theorem commitImage_keeps {α : Type} {d sz : Nat} (g : Proc → α)
    (hg : ∀ r d sz, g { r with pgdir := d, sz } = g r) :
    g ((commitImage t p d sz).proc q) = g (t.proc q) :=
  Table.set_keeps g fun r => hg r _ _

theorem takeThread_key {owner q' : Slot} {v : Nat} (hq : q ≠ q') :
    ((takeThread t owner q' v).proc q).key = (t.proc q).key := by
  rw [takeThread, Table.joinReset, Table.set_of_ne hq]
  refine (Table.set_keeps Proc.key fun _ => ?_).trans rfl
  simp only [Proc.key]

theorem body_touch (h : BodyStep t p k t' n) (hq : q ≠ p) : Touch t t' p k n.ctl q := by
  cases h with
  | alloc thread np hfree =>
      by_cases hnp : q = np
      · subst hnp
        exact .taken hfree (by simp [takeSlot]) rfl
      · exact .rest (.same (by simp [takeSlot, Table.set_of_ne hnp]))
  | newbornFail thread np =>
      by_cases hnp : q = np
      · subst hnp
        exact .dropped (Or.inl ⟨thread, rfl⟩) (by simp) rfl
      · exact .rest (.same (by rw [Table.set_of_ne hnp]))
  | newborn thread np =>
      by_cases hnp : q = np
      · subst hnp
        exact .made rfl (by simp [initSlot]) ⟨_, by simp [initSlot]; rfl⟩ (by simp [initSlot])
      · exact .rest (.same (by simp [initSlot, Table.set_of_ne hnp]))
  | forkUndo np =>
      by_cases hnp : q = np
      · subst hnp
        exact .dropped (Or.inr rfl) (by simp) rfl
      · exact .rest (.same (by rw [Table.set_of_ne hnp]))
  | publish np owner v =>
      by_cases hnp : q = np
      · subst hnp
        exact .published owner rfl (by simp) (by simp) (by simp) rfl
      · exact .rest (.same (by rw [Table.set_of_ne hnp]))
  | joinTake owner tid q' v =>
      by_cases hq' : q = q'
      · subst hq'
        exact .reaped (Or.inl ⟨_, _, _, rfl⟩) rfl (by simp [takeThread, Table.joinReset])
          (by simp [takeThread, Table.joinReset])
      · exact .rest (.same (takeThread_key hq'))
  | waitTake q' kids hparent hzombie =>
      by_cases hq' : q = q'
      · subst hq'
        refine .reaped (Or.inr ⟨kids, rfl, hparent, hzombie⟩) rfl ?_ ?_ <;>
          rw [Table.waitReset, Table.set_self]
      · refine .rest (.same ?_)
        rw [Table.waitReset, Table.set_of_ne hq']
        rfl
  | exitSched =>
      obtain ⟨t₁, heq, hwoken⟩ := exitBody_eq t p
      rw [heq]
      exact .rest ((hwoken q).trans (.same (by rw [Table.set_of_ne hq])))
  | kill pid q' =>
      by_cases hq' : q = q'
      · subst hq'
        by_cases hsleep : (t.proc q).state = .sleeping
        · exact .rest (.woken hsleep (by simp [hsleep]) (by simp) (by simp))
        · exact .rest (.same (by simp [Proc.key, hsleep]))
      · exact .rest (.same (by rw [Table.set_of_ne hq']))
  | forkCopy np d => exact .rest (.same (copyImage_keeps Proc.key fun _ _ _ _ => rfl))
  | storeParent np owner => exact .rest (.same (Table.set_keeps Proc.key fun _ => rfl))
  | storeTid np owner v =>
      exact .rest (.same (takeTid_keeps Proc.key (fun _ _ => rfl) fun _ _ => rfl))
  | execCommit d sz => exact .rest (.same (commitImage_keeps Proc.key fun _ _ _ => rfl))
  | storeCount np owner v => exact .rest (.same (Table.set_keeps Proc.key fun _ => rfl))
  | threadExit2 v =>
      refine .rest (.same ?_)
      rw [threadZombie, Table.set_of_ne hq]
  | _ => first | exact .rest (.same rfl) | exact .rest (.same (by rw [Table.set_of_ne hq]))

theorem start_spec {sc : Syscall} (h : start t p sc = some k) :
    k.Wf ∧ k.locked = false ∧ k.creating = none ∧ k.born = none ∧ k.target = none := by
  unfold start at h
  dsimp only at h
  repeat' split at h
  all_goals
    simp only [Option.some.injEq, reduceCtorEq] at h
    try
      subst h
      simp [Ctl.Wf, Ctl.locked, Ctl.creating, Ctl.born, Ctl.target]

theorem Touch.creating_of_dropped (h : (∃ thread, k = .newborn thread q) ∨ k = .forkUndo q) :
    k.creating = some q := by
  rcases h with ⟨thread, rfl⟩ | rfl <;> rfl

/-- What a step does to its own thread while that is not exiting. -/
inductive Own (t' : Table) (p : Slot) (k : Ctl) : Next → Prop
  | go (k' : Ctl) : (t'.proc p).state = .running → k'.Wf → k'.locked = k.locked →
      Own t' p k (.go k')
  | zombie (v : Int) : k = .threadExit2 v → (t'.proc p).state = .zombie →
      Own t' p k (.go (.acquire .threadSched))
  | off (k' : Ctl) : k.locked = true → (t'.proc p).state = .runnable ∨
      (t'.proc p).state = .sleeping → k'.Wf → k'.locked = true → Own t' p k (.swtch k')
  | gone (k' : Ctl) : k = .exitSched → (t'.proc p).state = .zombie → Own t' p k (.swtch k')

theorem Own.keep {k' : Ctl} (hkey : (t'.proc p).key = (t.proc p).key)
    (hrun : (t.proc p).state = .running) (hwf : k'.Wf) (hlocked : k'.locked = k.locked) :
    (t'.proc p).kstack = (t.proc p).kstack ∧ Own t' p k (.go k') := by
  obtain ⟨hstate, -, hstack⟩ := key_eq_iff.mp hkey
  exact ⟨hstack, .go _ (hstate.trans hrun) hwf hlocked⟩

theorem body_own (h : BodyStep t p k t' n) (hrun : (t.proc p).state = .running) (hwf : k.Wf)
    (hmake : k.creating ≠ some p) (htarget : k.target ≠ some p) :
    (t'.proc p).kstack = (t.proc p).kstack ∧ Own t' p k n := by
  have hmade : ∀ np, k.creating = some np → p ≠ np := by
    rintro np hnp rfl
    exact hmake hnp
  cases h with
  | preempt k _ hopen =>
      have htarget := Ctl.target_of_open hwf hopen
      exact ⟨rfl, .go _ hrun ⟨rfl, htarget, hopen, hwf⟩ hopen.symm⟩
  | block n k _ hopen =>
      have htarget := Ctl.target_of_open hwf hopen
      exact ⟨rfl, .go _ hrun ⟨rfl, htarget, hopen, hwf⟩ hopen.symm⟩
  | yieldSched k => exact ⟨by simp, .off _ rfl (by simp) hwf rfl⟩
  | sleepSched n k => exact ⟨by simp, .off _ rfl (by simp) hwf rfl⟩
  | call sc k hstart =>
      obtain ⟨hwf', hopen, -⟩ := start_spec hstart
      exact ⟨rfl, .go _ hrun hwf' hopen⟩
  | alloc thread np hfree =>
      have hne : p ≠ np := by
        rintro rfl
        exact absurd (hfree.symm.trans hrun) (by decide)
      exact Own.keep (by simp [takeSlot, Table.set_of_ne hne]) hrun ⟨rfl, trivial⟩ rfl
  | newbornFail thread np =>
      exact Own.keep (by rw [Table.set_of_ne (hmade np rfl)]) hrun trivial rfl
  | newborn thread np =>
      refine Own.keep (by simp [initSlot, Table.set_of_ne (hmade np rfl)]) hrun ?_ ?_ <;>
        cases thread <;> trivial
  | forkCopy np d =>
      exact Own.keep (copyImage_keeps Proc.key fun _ _ _ _ => rfl) hrun ⟨rfl, rfl, trivial⟩ rfl
  | forkUndo np => exact Own.keep (by rw [Table.set_of_ne (hmade np rfl)]) hrun trivial rfl
  | storeParent np owner =>
      exact Own.keep (by rw [linkThread, Table.set_of_ne (hmade np rfl)]) hrun trivial rfl
  | storeTid np owner v =>
      exact Own.keep (takeTid_keeps Proc.key (fun _ _ => rfl) fun _ _ => rfl) hrun trivial rfl
  | storeCount np owner v =>
      refine Own.keep ?_ hrun ⟨rfl, rfl, trivial⟩ rfl
      exact Table.set_keeps Proc.key fun _ => by simp only [Proc.key]
  | publish np owner v =>
      exact Own.keep (by rw [Table.set_of_ne (hmade np rfl)]) hrun ⟨rfl, trivial⟩ rfl
  | joinTake owner tid q v =>
      have hne : p ≠ q := by
        rintro rfl
        exact htarget rfl
      exact Own.keep (takeThread_key hne) hrun ⟨rfl, trivial⟩ rfl
  | threadExit v => exact Own.keep (by simp [Proc.key]) hrun trivial rfl
  | threadExit1 v => exact Own.keep (by simp [Proc.key]) hrun trivial rfl
  | threadExit2 v => exact ⟨by simp [threadZombie], .zombie v rfl (by simp [threadZombie])⟩
  | threadSched hstate => exact absurd hrun hstate
  | exitSched =>
      obtain ⟨t₁, heq, hwoken⟩ := exitBody_eq t p
      rw [heq]
      exact ⟨by simpa using (hwoken p).kstack, .gone _ rfl (by simp)⟩
  | waitTake q kids _ hzombie =>
      have hne : p ≠ q := by
        rintro rfl
        exact absurd (hzombie.symm.trans hrun) (by decide)
      refine Own.keep ?_ hrun ⟨rfl, trivial⟩ rfl
      rw [Table.waitReset, Table.set_of_ne hne]
      rfl
  | waitSleep i kids => exact ⟨by simp, .off _ rfl (by simp) trivial rfl⟩
  | kill pid q =>
      refine Own.keep ?_ hrun ⟨rfl, trivial⟩ rfl
      by_cases hq : p = q
      · subst hq
        simp [Proc.key, hrun]
      · rw [Table.set_of_ne hq]
  | execCommit d sz =>
      exact Own.keep (commitImage_keeps Proc.key fun _ _ _ => rfl) hrun trivial rfl
  | growStore sz => exact Own.keep (by simp [Proc.key]) hrun trivial rfl
  | joinWait owner tid q _ => exact Own.keep rfl hrun ⟨rfl, rfl, rfl, rfl, rfl, rfl, trivial⟩ rfl
  | _ => first | exact Own.keep rfl hrun trivial rfl | exact Own.keep rfl hrun ⟨rfl, trivial⟩ rfl

/-- A slot the thread is making was so before, or was free. -/
theorem body_creating (h : BodyStep t p k t' n) {np : Slot} (hnp : n.ctl.creating = some np) :
    k.creating = some np ∨ (t.proc np).state = .unused ∧ (t'.proc np).state = .embryo ∧
      n.ctl.born = none ∧ k.creating = none := by
  cases h with
  | call sc k hstart =>
      obtain ⟨-, -, hnone, -⟩ := start_spec hstart
      exact absurd (hnone.symm.trans hnp) (by simp)
  | alloc thread np' hfree =>
      obtain rfl : np' = np := Option.some.inj hnp
      exact Or.inr ⟨hfree, by simp [takeSlot], rfl, rfl⟩
  | newborn thread np' => cases thread <;> exact Or.inl hnp
  | _ => first | exact Or.inl hnp | exact absurd hnp (by simp [Next.ctl, Ctl.creating])

/-- A slot it has a stack for had one, or has just got it. -/
theorem body_born (h : BodyStep t p k t' n) {np : Slot} (hnp : n.ctl.born = some np) :
    k.born = some np ∨ k.creating = some np ∧ (∃ i, (t'.proc np).kstack = some i) ∧
      (t'.proc np).ctl = .release .user := by
  cases h with
  | call sc k hstart =>
      obtain ⟨-, -, -, hnone, -⟩ := start_spec hstart
      exact absurd (hnone.symm.trans hnp) (by simp)
  | newborn thread np' =>
      obtain rfl : np' = np := by cases thread <;> exact Option.some.inj hnp
      exact Or.inr ⟨rfl, ⟨_, by simp [initSlot]; rfl⟩, by simp [initSlot]⟩
  | _ => first | exact Or.inl hnp | exact absurd hnp (by simp [Next.ctl, Ctl.born])

theorem body_target (h : BodyStep t p k t' n) (hwf : k.Wf) (hq : n.ctl.target = some q) :
    t' = t ∧ (k.target = some q ∨ (t.proc q).state = .zombie) := by
  have hopen : ∀ k' : Ctl, k'.Wf → k'.locked = false → k'.target ≠ some q := by
    intro k' hwf' hlocked heq
    exact absurd ((Ctl.target_of_open hwf' hlocked).symm.trans heq) (by simp)
  cases h with
  | preempt k => exact ⟨rfl, Or.inl hq⟩
  | block n k => exact ⟨rfl, Or.inl hq⟩
  | yieldSched k => exact absurd hq (hopen k hwf.2 hwf.1)
  | sleepSched n k => exact absurd hq (hopen k hwf.2 hwf.1)
  | call sc k hstart =>
      obtain ⟨-, -, -, -, hnone⟩ := start_spec hstart
      exact absurd (hnone.symm.trans hq) (by simp)
  | joinZombie owner tid q' hzombie =>
      obtain rfl : q' = q := Option.some.inj hq
      exact ⟨rfl, Or.inr hzombie⟩
  | joinLoad owner tid q' => exact ⟨rfl, Or.inl hq⟩
  | newborn thread np' => cases thread <;> exact absurd hq (by simp [Next.ctl, Ctl.target])
  | _ => exact absurd hq (by simp [Next.ctl, Ctl.target])

/-! ## Steps of a CPU -/

variable {C : Type} [DecidableEq C] {s s' : Kernel C} {c c' : C} {a : Act} {i : Nat}

/-- What one step of CPU `c` does. -/
inductive CpuStep (s : Kernel C) (c : C) : Act → Kernel C → Prop
  | enter : s.cpu c = none → s.lock = none → CpuStep s c .enter { s with lock := some c }
  | rest : s.cpu c = none → s.lock = some c → CpuStep s c .rest { s with lock := none }
  | dispatch (p : Slot) (i : Nat) : s.cpu c = none → s.lock = some c →
      (s.table.proc p).state = .runnable → (s.table.proc p).kstack = some i →
      CpuStep s c (.dispatch p) { s with
        table := s.table.set p fun r => { r with state := .running }
        cpu := Function.update s.cpu c (some (p, i)) }
  | wakeup (m : Nat) : s.lock = none →
      CpuStep s c (.wakeup m) { s with table := s.table.wakeup1 (.other m) }
  | acquire (p : Slot) (i : Nat) (k : Ctl) : s.cpu c = some (p, i) →
      (s.table.proc p).ctl = .acquire k → s.lock = none →
      CpuStep s c (.run .next) { s with table := s.table.goto p k, lock := some c }
  | release (p : Slot) (i : Nat) (k : Ctl) : s.cpu c = some (p, i) →
      (s.table.proc p).ctl = .release k → s.lock = some c →
      CpuStep s c (.run .next) { s with table := s.table.goto p k, lock := none }
  | go (p : Slot) (i : Nat) (pick : Pick) (t : Table) (k : Ctl) : s.cpu c = some (p, i) →
      body s.table p (s.table.proc p).ctl pick = some (t, .go k) →
      CpuStep s c (.run pick) { s with table := t.goto p k }
  | swtch (p : Slot) (i : Nat) (pick : Pick) (t : Table) (k : Ctl) : s.cpu c = some (p, i) →
      body s.table p (s.table.proc p).ctl pick = some (t, .swtch k) → s.lock = some c →
      CpuStep s c (.run pick) { s with
        table := t.goto p k, cpu := Function.update s.cpu c none }

theorem step_cases (h : step s c a = some s') : CpuStep s c a s' := by
  cases a with
  | enter =>
      simp only [step] at h
      split at h
      · rename_i hg
        obtain rfl := Option.some.inj h
        exact .enter hg.1 hg.2
      · exact absurd h (by simp)
  | rest =>
      simp only [step] at h
      split at h
      · rename_i hg
        obtain rfl := Option.some.inj h
        exact .rest hg.1 hg.2
      · exact absurd h (by simp)
  | dispatch p =>
      simp only [step] at h
      split at h
      · rename_i hg
        split at h
        · exact absurd h (by simp)
        · rename_i i hstack
          obtain rfl := Option.some.inj h
          exact .dispatch p i hg.1 hg.2.1 hg.2.2 hstack
      · exact absurd h (by simp)
  | wakeup m =>
      simp only [step] at h
      split at h
      · rename_i hg
        obtain rfl := Option.some.inj h
        exact .wakeup m hg
      · exact absurd h (by simp)
  | run pick =>
      simp only [step] at h
      split at h
      · exact absurd h (by simp)
      · rename_i p i hcpu
        split at h
        · unfold threadStep at h
          split at h
          · rename_i k hctl
            split at h
            · rename_i hlock
              obtain rfl := Option.some.inj h
              exact .acquire p i k hcpu hctl hlock
            · exact absurd h (by simp)
          · rename_i k hctl
            split at h
            · rename_i hlock
              obtain rfl := Option.some.inj h
              exact .release p i k hcpu hctl hlock
            · exact absurd h (by simp)
          · split at h
            · exact absurd h (by simp)
            · rename_i t k hbody
              obtain rfl := Option.some.inj h
              exact .go p i _ t k hcpu hbody
            · rename_i t k hbody
              split at h
              · rename_i hlock
                obtain rfl := Option.some.inj h
                exact .swtch p i _ t k hcpu hbody hlock
              · exact absurd h (by simp)
        · exact absurd h (by simp)

end Kthreads
end CS444
