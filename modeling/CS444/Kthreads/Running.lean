/-
Which kernel thread runs where.

`Placed` is about the table: a process that may run has a control point and a
stack to go on with, a slot under construction has one maker, and what a join
is about to take is a zombie.  `Running` adds the CPUs: a stack is run by one
CPU, and the CPU that holds the lock is the one whose thread is at a locked
control point.  A thread that stored `ZOMBIE` and has not taken the lock yet is
the one kind of zombie that still runs without the lock; `Spaced` says that no
step takes such a slot.
-/
import CS444.Kthreads.Touch

namespace CS444
namespace Kthreads

open Runs

/-- It runs, or the scheduler may still run it. -/
def Proc.Active (r : Proc) : Prop :=
  r.state = .running ∨ r.state = .runnable ∨ r.state = .sleeping

instance (r : Proc) : Decidable r.Active := inferInstanceAs (Decidable (_ ∨ _))

structure Placed (t : Table) : Prop where
  wf : ∀ p, (t.proc p).Active → (t.proc p).ctl.Wf
  kstack : ∀ p, (t.proc p).Active → ∃ i, (t.proc p).kstack = some i
  saved : ∀ p, (t.proc p).Active → (t.proc p).state ≠ .running → (t.proc p).ctl.locked = true
  embryo : ∀ p np, (t.proc p).Active → (t.proc p).ctl.creating = some np →
    (t.proc np).state = .embryo
  maker : ∀ p p' np, (t.proc p).Active → (t.proc p').Active →
    (t.proc p).ctl.creating = some np → (t.proc p').ctl.creating = some np → p = p'
  born : ∀ p np, (t.proc p).Active → (t.proc p).ctl.born = some np →
    (∃ i, (t.proc np).kstack = some i) ∧ (t.proc np).ctl = .release .user
  target : ∀ p q, (t.proc p).Active → (t.proc p).ctl.target = some q →
    (t.proc p).state = .running ∧ (t.proc q).state = .zombie

/-- What runs on a CPU: a running process, or a zombie on its way out. -/
def Proc.OnCpu (r : Proc) : Prop :=
  r.state = .running ∨ r.state = .zombie ∧ (r.ctl = .acquire .threadSched ∨ r.ctl = .threadSched)

variable {C : Type}

structure Running (s : Kernel C) : Prop extends Placed s.table where
  cpu : ∀ c p i, s.cpu c = some (p, i) → (s.table.proc p).OnCpu
  stack : ∀ c p i, s.cpu c = some (p, i) → (s.table.proc p).kstack = some i
  lock : ∀ c p i, s.cpu c = some (p, i) → (s.lock = some c ↔ (s.table.proc p).ctl.locked = true)
  alone : ∀ c c' p i i', s.cpu c = some (p, i) → s.cpu c' = some (p, i') → c = c'
  runs : ∀ p, (s.table.proc p).state = .running → ∃ c i, s.cpu c = some (p, i)

/-- The step takes no slot whose thread is still between the store of `ZOMBIE`
and the lock in `kthread_exit`. -/
def Spaced (s : Kernel C) (l : C × Act) : Prop :=
  ∀ p i q, s.cpu l.1 = some (p, i) → Reaps s.table p (s.table.proc p).ctl q →
    (s.table.proc q).ctl ≠ .acquire .threadSched

/-- What holds of the thread a CPU runs can be looked up. -/
instance decidableRuns {P : Slot → Nat → Prop} [∀ p i, Decidable (P p i)] :
    (x : Option (Slot × Nat)) → Decidable (∀ p i, x = some (p, i) → P p i)
  | none => .isTrue (by simp)
  | some (p, i) => decidable_of_iff (P p i) (by simp)

instance (s : Kernel C) (l : C × Act) : Decidable (Spaced s l) :=
  decidable_of_iff (∀ p i, s.cpu l.1 = some (p, i) → ∀ q,
    Reaps s.table p (s.table.proc p).ctl q → (s.table.proc q).ctl ≠ .acquire .threadSched)
    ⟨fun h p i q hcpu => h p i hcpu q, fun h p i hcpu q => h p i q hcpu⟩

variable {s s' : Kernel C} {c c' : C} {a : Act} {t : Table} {p q np : Slot} {i i' : Nat}
  {k : Ctl} {n : Next}

theorem creating_of_born {k : Ctl} (h : k.born = some np) : k.creating = some np := by
  induction k with
  | acquire k ih | release k ih | yieldSched k ih | sleepSched _ k ih => exact ih h
  | _ => first | exact h | exact absurd h (by simp [Ctl.born])

theorem locked_of_target {k : Ctl} (hwf : k.Wf) (h : k.target = some q) : k.locked = true := by
  by_contra hopen
  have hnone := Ctl.target_of_open hwf (by simpa using hopen)
  exact absurd (hnone.symm.trans h) (by simp)

@[simp] theorem goto_state : ((t.goto p k).proc q).state = (t.proc q).state :=
  Table.set_keeps Proc.state fun _ => rfl

@[simp] theorem goto_kstack : ((t.goto p k).proc q).kstack = (t.proc q).kstack :=
  Table.set_keeps Proc.kstack fun _ => rfl

@[simp] theorem goto_ctl_self : ((t.goto p k).proc p).ctl = k := by simp [Table.goto]

theorem goto_of_ne (hq : q ≠ p) : (t.goto p k).proc q = t.proc q := Table.set_of_ne hq

theorem goto_active : ((t.goto p k).proc q).Active ↔ (t.proc q).Active := by
  simp [Proc.Active]

/-- One thread holds the lock. -/
theorem same_slot (hcpu : s.cpu c = some (p, i))
    (hcpu' : s.cpu c' = some (q, i')) (hheld : s.lock = some c) (hheld' : s.lock = some c') :
    q = p := by
  obtain rfl : c = c' := Option.some.inj (hheld.symm.trans hheld')
  exact (congrArg Prod.fst (Option.some.inj (hcpu.symm.trans hcpu'))).symm

/-! ## What other slots go through -/

section Others

variable (hinv : Running s) (hcpu : s.cpu c = some (p, i))
  (hrun : (s.table.proc p).state = .running)
  (hbody : BodyStep s.table p (s.table.proc p).ctl t n) (hok : Spaced s (c, a))

include hinv hrun

theorem Running.maker_embryo (h : (s.table.proc p).ctl.creating = some np) :
    (s.table.proc np).state = .embryo :=
  hinv.embryo p np (Or.inl hrun) h

omit hinv in
theorem Running.ne_embryo (h : (s.table.proc q).state = .embryo) : q ≠ p := by
  rintro rfl
  exact absurd (h.symm.trans hrun) (by decide)

include hcpu

/-- The slots a step takes are zombies, and this thread holds the lock. -/
theorem Running.reaps (h : Reaps s.table p (s.table.proc p).ctl q) :
    (s.table.proc q).state = .zombie ∧ s.lock = some c := by
  have hlock := hinv.lock c p i hcpu
  rcases h with ⟨owner, tid, v, hk⟩ | ⟨kids, hk, -, hzombie⟩
  · rw [hk] at hlock
    exact ⟨(hinv.target p q (Or.inl hrun) (by rw [hk]; rfl)).2, hlock.mpr rfl⟩
  · rw [hk] at hlock
    exact ⟨hzombie, hlock.mpr rfl⟩

include hbody

/-- A slot under construction changes only at the hands of its maker. -/
theorem Running.keeps_embryo (hq : (s.table.proc q).state = .embryo) :
    (t.proc q).key = (s.table.proc q).key ∨
      (s.table.proc p).ctl.creating = some q ∧
        ((t.proc q).state = .embryo ∧ (∃ i, (t.proc q).kstack = some i) ∧
          (t.proc q).ctl = .release .user ∨ n.ctl.creating = none) := by
  have hne : q ≠ p := by
    rintro rfl
    exact absurd (hq.symm.trans hrun) (by decide)
  cases body_touch hbody hne with
  | rest hwoken =>
      cases hwoken with
      | same hkey => exact Or.inl hkey
      | woken hsleep => exact absurd (hq.symm.trans hsleep) (by decide)
  | taken hfree => exact absurd (hq.symm.trans hfree) (by decide)
  | made hmake hstate hstack hctl =>
      exact Or.inr ⟨hmake, Or.inl ⟨hstate.trans hq, hstack, hctl⟩⟩
  | dropped hdrop _ hnone => exact Or.inr ⟨Touch.creating_of_dropped hdrop, Or.inr hnone⟩
  | published owner hk _ _ _ hnone => exact Or.inr ⟨by rw [hk]; rfl, Or.inr hnone⟩
  | reaped htake =>
      have hzombie := (hinv.reaps hcpu hrun htake).1
      exact absurd (hq.symm.trans hzombie) (by decide)

omit hcpu in
/-- Another process that may run could run before and is where it was, or the
step published it. -/
theorem Running.was_active (hq : q ≠ p) (hact : (t.proc q).Active) :
    (s.table.proc q).Active ∧ (t.proc q).ctl = (s.table.proc q).ctl ∧
        (t.proc q).kstack = (s.table.proc q).kstack ∧
        ((t.proc q).state = .running ↔ (s.table.proc q).state = .running) ∨
      (t.proc q).state = .runnable ∧ (t.proc q).ctl = .release .user ∧
        (∃ i, (t.proc q).kstack = some i) ∧ ∃ owner, (s.table.proc p).ctl = .publish q owner := by
  have hdead : ∀ st : ProcState, (t.proc q).state = st →
      st ≠ .unused ∧ st ≠ .embryo ∧ st ≠ .zombie := by
    rintro st rfl
    rcases hact with h | h | h <;> simp [h]
  cases body_touch hbody hq with
  | rest hwoken =>
      cases hwoken with
      | same hkey =>
          obtain ⟨hstate, hctl, hstack⟩ := key_eq_iff.mp hkey
          refine Or.inl ⟨?_, hctl, hstack, by rw [hstate]⟩
          rwa [Proc.Active, hstate] at hact
      | woken hsleep hrun' hctl hstack =>
          exact Or.inl ⟨Or.inr (Or.inr hsleep), hctl, hstack, by simp [hsleep, hrun']⟩
  | taken _ hstate => exact absurd rfl (hdead _ hstate).2.1
  | made hmake hstate =>
      exact absurd rfl (hdead _ (hstate.trans (hinv.maker_embryo hrun hmake))).2.1
  | dropped _ hstate => exact absurd rfl (hdead _ hstate).1
  | published owner hk hstate hctl hstack =>
      obtain ⟨⟨i, hi⟩, hctl'⟩ := hinv.born p q (Or.inl hrun) (by rw [hk]; rfl)
      exact Or.inr ⟨hstate, hctl.trans hctl', ⟨i, hstack.trans hi⟩, owner, hk⟩
  | reaped _ _ hstate => exact absurd rfl (hdead _ hstate).1

/-- A zombie goes only while this thread holds the lock. -/
theorem Running.keeps_zombie (hq : (s.table.proc q).state = .zombie) :
    (t.proc q).key = (s.table.proc q).key ∨ s.lock = some c := by
  have hne : q ≠ p := by
    rintro rfl
    exact absurd (hq.symm.trans hrun) (by decide)
  cases body_touch hbody hne with
  | rest hwoken =>
      cases hwoken with
      | same hkey => exact Or.inl hkey
      | woken hsleep => exact absurd (hq.symm.trans hsleep) (by decide)
  | taken hfree => exact absurd (hq.symm.trans hfree) (by decide)
  | made hmake => exact absurd (hq.symm.trans (hinv.maker_embryo hrun hmake)) (by decide)
  | dropped hdrop =>
      have hstate := hinv.maker_embryo hrun (Touch.creating_of_dropped hdrop)
      exact absurd (hq.symm.trans hstate) (by decide)
  | published owner hk =>
      have hmake : (s.table.proc p).ctl.creating = some q := by rw [hk]; rfl
      have hstate := hinv.maker_embryo hrun hmake
      exact absurd (hq.symm.trans hstate) (by decide)
  | reaped htake => exact Or.inr (hinv.reaps hcpu hrun htake).2

/-! ## A step of a running process -/

omit hcpu in
theorem Running.own : (t.proc p).kstack = (s.table.proc p).kstack ∧
    Own t p (s.table.proc p).ctl n := by
  have hact : (s.table.proc p).Active := Or.inl hrun
  have hmake : (s.table.proc p).ctl.creating ≠ some p := fun h =>
    absurd (hrun.symm.trans (hinv.maker_embryo hrun h)) (by decide)
  have htarget : (s.table.proc p).ctl.target ≠ some p := fun h =>
    absurd (hrun.symm.trans (hinv.target p p hact h).2) (by decide)
  exact body_own hbody hrun (hinv.wf p hact) hmake htarget

omit hcpu in
/-- The thread itself, if it may still run. -/
theorem Running.next_self (hact : (t.proc p).Active) :
    n.ctl.Wf ∧ ((t.proc p).state ≠ .running → n.ctl.locked = true) := by
  obtain ⟨-, hown⟩ := hinv.own hrun hbody
  cases hown with
  | go k hrun' hwf' => exact ⟨hwf', fun h => absurd hrun' h⟩
  | zombie v _ hstate =>
      rcases hact with h | h | h <;> exact absurd (h.symm.trans hstate) (by decide)
  | off k _ _ hwf' hlocked => exact ⟨hwf', fun _ => hlocked⟩
  | gone k _ hstate => rcases hact with h | h | h <;> exact absurd (h.symm.trans hstate) (by decide)

omit hcpu in
theorem Running.next_wf (q : Slot) (hq : ((t.goto p n.ctl).proc q).Active) :
    ((t.goto p n.ctl).proc q).ctl.Wf := by
  rw [goto_active] at hq
  by_cases hqp : q = p
  · subst hqp
    rw [goto_ctl_self]
    exact (hinv.next_self hrun hbody hq).1
  · rw [goto_of_ne hqp]
    rcases hinv.was_active hrun hbody hqp hq with ⟨hold, hctl, -⟩ | ⟨-, hctl, -⟩
    · rw [hctl]
      exact hinv.wf q hold
    · rw [hctl]
      exact ⟨rfl, trivial⟩

theorem Running.next_kstack (q : Slot) (hq : ((t.goto p n.ctl).proc q).Active) :
    ∃ i, ((t.goto p n.ctl).proc q).kstack = some i := by
  rw [goto_active] at hq
  rw [goto_kstack]
  by_cases hqp : q = p
  · subst hqp
    rw [(hinv.own hrun hbody).1]
    exact ⟨i, hinv.stack c q i hcpu⟩
  · rcases hinv.was_active hrun hbody hqp hq with ⟨hold, -, hkeep, -⟩ | ⟨-, -, hnew, -⟩
    · rw [hkeep]
      exact hinv.kstack q hold
    · exact hnew

omit hcpu in
theorem Running.next_saved (q : Slot) (hq : ((t.goto p n.ctl).proc q).Active)
    (hstate : ((t.goto p n.ctl).proc q).state ≠ .running) :
    ((t.goto p n.ctl).proc q).ctl.locked = true := by
  rw [goto_active] at hq
  rw [goto_state] at hstate
  by_cases hqp : q = p
  · subst hqp
    rw [goto_ctl_self]
    exact (hinv.next_self hrun hbody hq).2 hstate
  · rw [goto_of_ne hqp]
    rcases hinv.was_active hrun hbody hqp hq with ⟨hold, hctl, -, hiff⟩ | ⟨-, hctl, -⟩
    · rw [hctl]
      exact hinv.saved q hold fun h => hstate (hiff.mpr h)
    · rw [hctl]
      rfl

theorem Running.next_embryo (q np : Slot) (hq : ((t.goto p n.ctl).proc q).Active)
    (hnp : ((t.goto p n.ctl).proc q).ctl.creating = some np) :
    ((t.goto p n.ctl).proc np).state = .embryo := by
  rw [goto_active] at hq
  rw [goto_state]
  by_cases hqp : q = p
  · subst hqp
    rw [goto_ctl_self] at hnp
    rcases body_creating hbody hnp with hold | ⟨-, hnew, -⟩
    · have hstate := hinv.maker_embryo hrun hold
      rcases hinv.keeps_embryo hcpu hrun hbody hstate with hkey | ⟨-, hmade | hnone⟩
      · exact (key_eq_iff.mp hkey).1.trans hstate
      · exact hmade.1
      · exact absurd (hnone.symm.trans hnp) (by simp)
    · exact hnew
  · rw [goto_of_ne hqp] at hnp
    rcases hinv.was_active hrun hbody hqp hq with ⟨hold, hctl, -⟩ | ⟨-, hctl, -⟩
    · rw [hctl] at hnp
      have hstate := hinv.embryo q np hold hnp
      rcases hinv.keeps_embryo hcpu hrun hbody hstate with hkey | ⟨hmine, -⟩
      · exact (key_eq_iff.mp hkey).1.trans hstate
      · exact absurd (hinv.maker q p np hold (Or.inl hrun) hnp hmine) hqp
    · rw [hctl] at hnp
      exact absurd hnp (by simp [Ctl.creating])

omit hcpu in
theorem Running.next_maker (q q' np : Slot) (hq : ((t.goto p n.ctl).proc q).Active)
    (hq' : ((t.goto p n.ctl).proc q').Active)
    (hnp : ((t.goto p n.ctl).proc q).ctl.creating = some np)
    (hnp' : ((t.goto p n.ctl).proc q').ctl.creating = some np) : q = q' := by
  -- Two makers of one slot: one of them is `p`, which took it while unused.
  have hone : ∀ q np, q ≠ p → (t.proc q).Active → (t.proc q).ctl.creating = some np →
      n.ctl.creating ≠ some np := by
    intro q np hqp hq hnp hmine
    rcases hinv.was_active hrun hbody hqp hq with ⟨hold, hctl, -⟩ | ⟨-, hctl, -⟩
    · rw [hctl] at hnp
      rcases body_creating hbody hmine with hold' | ⟨hfree, -⟩
      · exact hqp (hinv.maker q p np hold (Or.inl hrun) hnp hold')
      · exact absurd (hfree.symm.trans (hinv.embryo q np hold hnp)) (by decide)
    · rw [hctl] at hnp
      exact absurd hnp (by simp [Ctl.creating])
  rw [goto_active] at hq hq'
  by_cases hqp : q = p <;> by_cases hqp' : q' = p
  · rw [hqp, hqp']
  · subst hqp
    rw [goto_ctl_self] at hnp
    rw [goto_of_ne hqp'] at hnp'
    exact absurd hnp (hone q' np hqp' hq' hnp')
  · subst hqp'
    rw [goto_ctl_self] at hnp'
    rw [goto_of_ne hqp] at hnp
    exact absurd hnp' (hone q np hqp hq hnp)
  · rw [goto_of_ne hqp] at hnp
    rw [goto_of_ne hqp'] at hnp'
    rcases hinv.was_active hrun hbody hqp hq with ⟨hold, hctl, -⟩ | ⟨-, hctl, -⟩
    · rcases hinv.was_active hrun hbody hqp' hq' with ⟨hold', hctl', -⟩ | ⟨-, hctl', -⟩
      · rw [hctl] at hnp
        rw [hctl'] at hnp'
        exact hinv.maker q q' np hold hold' hnp hnp'
      · rw [hctl'] at hnp'
        exact absurd hnp' (by simp [Ctl.creating])
    · rw [hctl] at hnp
      exact absurd hnp (by simp [Ctl.creating])

theorem Running.next_born (q np : Slot) (hq : ((t.goto p n.ctl).proc q).Active)
    (hnp : ((t.goto p n.ctl).proc q).ctl.born = some np) :
    (∃ i, ((t.goto p n.ctl).proc np).kstack = some i) ∧
      ((t.goto p n.ctl).proc np).ctl = .release .user := by
  rw [goto_active] at hq
  rw [goto_kstack]
  by_cases hqp : q = p
  · subst hqp
    rw [goto_ctl_self] at hnp
    have hcreate := creating_of_born hnp
    rcases body_born hbody hnp with hold | ⟨hold, hnew, hctl⟩
    · have hstate := hinv.maker_embryo hrun (creating_of_born hold)
      have hne := ne_embryo hrun hstate
      rw [goto_of_ne hne]
      rcases hinv.keeps_embryo hcpu hrun hbody hstate with hkey | ⟨-, hmade | hnone⟩
      · obtain ⟨-, hctl, hstack⟩ := key_eq_iff.mp hkey
        rw [hstack, hctl]
        exact hinv.born q np (Or.inl hrun) hold
      · exact hmade.2
      · exact absurd (hnone.symm.trans hcreate) (by simp)
    · rw [goto_of_ne (ne_embryo hrun (hinv.maker_embryo hrun hold))]
      exact ⟨hnew, hctl⟩
  · rw [goto_of_ne hqp] at hnp
    rcases hinv.was_active hrun hbody hqp hq with ⟨hold, hctl, -⟩ | ⟨-, hctl, -⟩
    · rw [hctl] at hnp
      have hcreate := creating_of_born hnp
      have hstate := hinv.embryo q np hold hcreate
      rw [goto_of_ne (ne_embryo hrun hstate)]
      rcases hinv.keeps_embryo hcpu hrun hbody hstate with hkey | ⟨hmine, -⟩
      · obtain ⟨-, hctl', hstack⟩ := key_eq_iff.mp hkey
        rw [hstack, hctl']
        exact hinv.born q np hold hnp
      · exact absurd (hinv.maker q p np hold (Or.inl hrun) hcreate hmine) hqp
    · rw [hctl] at hnp
      exact absurd hnp (by simp [Ctl.born])

theorem Running.next_target (q r : Slot) (hq : ((t.goto p n.ctl).proc q).Active)
    (hr : ((t.goto p n.ctl).proc q).ctl.target = some r) :
    ((t.goto p n.ctl).proc q).state = .running ∧ ((t.goto p n.ctl).proc r).state = .zombie := by
  rw [goto_active] at hq
  rw [goto_state, goto_state]
  by_cases hqp : q = p
  · subst hqp
    rw [goto_ctl_self] at hr
    obtain ⟨rfl, hold⟩ := body_target hbody (hinv.wf q (Or.inl hrun)) hr
    refine ⟨hrun, ?_⟩
    rcases hold with hold | hzombie
    · exact (hinv.target q r (Or.inl hrun) hold).2
    · exact hzombie
  · rw [goto_of_ne hqp] at hr
    rcases hinv.was_active hrun hbody hqp hq with ⟨hold, hctl, -, hiff⟩ | ⟨-, hctl, -⟩
    · rw [hctl] at hr
      obtain ⟨hrun', hzombie⟩ := hinv.target q r hold hr
      refine ⟨hiff.mpr hrun', ?_⟩
      obtain ⟨c', i', hcpu'⟩ := hinv.runs q hrun'
      have hheld := (hinv.lock c' q i' hcpu').mpr (locked_of_target (hinv.wf q hold) hr)
      rcases hinv.keeps_zombie hcpu hrun hbody hzombie with hkey | hheld'
      · exact (key_eq_iff.mp hkey).1.trans hzombie
      · exact absurd (same_slot hcpu hcpu' hheld' hheld) hqp
    · rw [hctl] at hr
      exact absurd hr (by simp [Ctl.target])

/-- A running process takes a step. -/
theorem Running.placed : Placed (t.goto p n.ctl) where
  wf := hinv.next_wf hrun hbody
  kstack := hinv.next_kstack hcpu hrun hbody
  saved := hinv.next_saved hrun hbody
  embryo := hinv.next_embryo hcpu hrun hbody
  maker := hinv.next_maker hrun hbody
  born := hinv.next_born hcpu hrun hbody
  target := hinv.next_target hcpu hrun hbody

include hok

/-- What another CPU runs stays as it is. -/
theorem Running.keeps_onCpu (hcpu' : s.cpu c' = some (q, i')) (hq : q ≠ p) :
    (t.proc q).key = (s.table.proc q).key := by
  have hon := hinv.cpu c' q i' hcpu'
  have hstate : (s.table.proc q).state = .running ∨ (s.table.proc q).state = .zombie :=
    hon.imp_right And.left
  cases body_touch hbody hq with
  | rest hwoken =>
      cases hwoken with
      | same hkey => exact hkey
      | woken hsleep => rcases hstate with h | h <;> exact absurd (h.symm.trans hsleep) (by decide)
  | taken hfree => rcases hstate with h | h <;> exact absurd (h.symm.trans hfree) (by decide)
  | made hmake =>
      have := hinv.maker_embryo hrun hmake
      rcases hstate with h | h <;> exact absurd (h.symm.trans this) (by decide)
  | dropped hdrop =>
      have := hinv.maker_embryo hrun (Touch.creating_of_dropped hdrop)
      rcases hstate with h | h <;> exact absurd (h.symm.trans this) (by decide)
  | published owner hk =>
      have hmake : (s.table.proc p).ctl.creating = some q := by rw [hk]; rfl
      have := hinv.maker_embryo hrun hmake
      rcases hstate with h | h <;> exact absurd (h.symm.trans this) (by decide)
  | reaped htake =>
      obtain ⟨hzombie, hlock⟩ := hinv.reaps hcpu hrun htake
      rcases hon with hrun' | ⟨-, hctl | hctl⟩
      · exact absurd (hrun'.symm.trans hzombie) (by decide)
      · exact absurd hctl (hok p i q hcpu htake)
      · have hlock' := (hinv.lock c' q i' hcpu').mpr (by rw [hctl]; rfl)
        exact absurd (same_slot hcpu hcpu' hlock hlock') hq

end Others

/-! ## Scheduling -/

/-- The thread of `p` goes on to `k` with the table as it is. -/
theorem Placed.goto (h : Placed t) (hp : (t.proc p).state ≠ .embryo)
    (hk : (t.proc p).Active → k.Wf ∧ k.creating = (t.proc p).ctl.creating ∧
      k.born = (t.proc p).ctl.born ∧ k.target = (t.proc p).ctl.target ∧
      ((t.proc p).state ≠ .running → k.locked = true)) : Placed (t.goto p k) := by
  have hcreating : ∀ q, (t.proc q).Active →
      ((t.goto p k).proc q).ctl.creating = (t.proc q).ctl.creating := by
    intro q hq
    by_cases hqp : q = p
    · subst hqp
      rw [goto_ctl_self]
      exact (hk hq).2.1
    · rw [goto_of_ne hqp]
  constructor
  case wf =>
    intro q hq
    rw [goto_active] at hq
    by_cases hqp : q = p
    · subst hqp
      rw [goto_ctl_self]
      exact (hk hq).1
    · rw [goto_of_ne hqp]
      exact h.wf q hq
  case kstack =>
    intro q hq
    rw [goto_active] at hq
    rw [goto_kstack]
    exact h.kstack q hq
  case saved =>
    intro q hq hstate
    rw [goto_active] at hq
    rw [goto_state] at hstate
    by_cases hqp : q = p
    · subst hqp
      rw [goto_ctl_self]
      exact (hk hq).2.2.2.2 hstate
    · rw [goto_of_ne hqp]
      exact h.saved q hq hstate
  case embryo =>
    intro q np hq hnp
    rw [goto_active] at hq
    rw [hcreating q hq] at hnp
    rw [goto_state]
    exact h.embryo q np hq hnp
  case maker =>
    intro q q' np hq hq' hnp hnp'
    rw [goto_active] at hq hq'
    rw [hcreating q hq] at hnp
    rw [hcreating q' hq'] at hnp'
    exact h.maker q q' np hq hq' hnp hnp'
  case born =>
    intro q np hq hnp
    rw [goto_active] at hq
    have hborn : (t.proc q).ctl.born = some np := by
      by_cases hqp : q = p
      · subst hqp
        rw [goto_ctl_self] at hnp
        exact (hk hq).2.2.1.symm.trans hnp
      · rwa [goto_of_ne hqp] at hnp
    have hne : np ≠ p := by
      rintro rfl
      exact hp (h.embryo q np hq (creating_of_born hborn))
    rw [goto_of_ne hne]
    exact h.born q np hq hborn
  case target =>
    intro q r hq hr
    rw [goto_active] at hq
    rw [goto_state, goto_state]
    by_cases hqp : q = p
    · subst hqp
      rw [goto_ctl_self] at hr
      exact h.target q r hq ((hk hq).2.2.2.1.symm.trans hr)
    · rw [goto_of_ne hqp] at hr
      exact h.target q r hq hr

/-- At most the scheduler or a wakeup happened to `q`. -/
def Moved (t t' : Table) (q : Slot) : Prop :=
  (t'.proc q).key = (t.proc q).key ∨
    ((t.proc q).state = .runnable ∨ (t.proc q).state = .sleeping) ∧
      ((t'.proc q).state = .running ∨ (t'.proc q).state = .runnable) ∧
      (t'.proc q).ctl = (t.proc q).ctl ∧ (t'.proc q).kstack = (t.proc q).kstack

theorem Moved.ctl {t' : Table} (h : Moved t t' q) :
    (t'.proc q).ctl = (t.proc q).ctl ∧ (t'.proc q).kstack = (t.proc q).kstack := by
  rcases h with hkey | ⟨-, -, hctl, hstack⟩
  · exact (key_eq_iff.mp hkey).2
  · exact ⟨hctl, hstack⟩

theorem Moved.active {t' : Table} (h : Moved t t' q) :
    (t'.proc q).Active ↔ (t.proc q).Active := by
  rcases h with hkey | ⟨hold, hnew, -⟩
  · rw [Proc.Active, Proc.Active, (key_eq_iff.mp hkey).1]
  · exact ⟨fun _ => Or.inr hold, fun _ => hnew.imp_right Or.inl⟩

/-- A state that is none of a schedulable process's stays. -/
theorem Moved.state {t' : Table} (h : Moved t t' q) {st : ProcState}
    (hst : (t.proc q).state = st) (hne : st ≠ .runnable ∧ st ≠ .sleeping) :
    (t'.proc q).state = st := by
  rcases h with hkey | ⟨hold | hold, -⟩
  · exact (key_eq_iff.mp hkey).1.trans hst
  · exact absurd (hst.symm.trans hold) hne.1
  · exact absurd (hst.symm.trans hold) hne.2

theorem Placed.moved {t' : Table} (h : Placed t) (hmoved : ∀ q, Moved t t' q) : Placed t' where
  wf q hq := by
    rw [(hmoved q).ctl.1]
    exact h.wf q ((hmoved q).active.mp hq)
  kstack q hq := by
    rw [(hmoved q).ctl.2]
    exact h.kstack q ((hmoved q).active.mp hq)
  saved q hq hstate := by
    rw [(hmoved q).ctl.1]
    refine h.saved q ((hmoved q).active.mp hq) fun hrun => hstate ?_
    exact (hmoved q).state hrun (by decide)
  embryo q np hq hnp := by
    rw [(hmoved q).ctl.1] at hnp
    exact (hmoved np).state (h.embryo q np ((hmoved q).active.mp hq) hnp) (by decide)
  maker q q' np hq hq' hnp hnp' := by
    rw [(hmoved q).ctl.1] at hnp
    rw [(hmoved q').ctl.1] at hnp'
    exact h.maker q q' np ((hmoved q).active.mp hq) ((hmoved q').active.mp hq') hnp hnp'
  born q np hq hnp := by
    rw [(hmoved q).ctl.1] at hnp
    rw [(hmoved np).ctl.1, (hmoved np).ctl.2]
    exact h.born q np ((hmoved q).active.mp hq) hnp
  target q r hq hr := by
    rw [(hmoved q).ctl.1] at hr
    obtain ⟨hrun, hzombie⟩ := h.target q r ((hmoved q).active.mp hq) hr
    exact ⟨(hmoved q).state hrun (by decide), (hmoved r).state hzombie (by decide)⟩

theorem Woken.moved {t' : Table} (h : Woken t t' q) : Moved t t' q := by
  cases h with
  | same hkey => exact Or.inl hkey
  | woken hsleep hrun hctl hstack =>
      exact Or.inr ⟨Or.inr hsleep, Or.inr hrun, hctl, hstack⟩

theorem dispatch_moved (hp : (t.proc p).state = .runnable) (q : Slot) :
    Moved t (t.set p fun r => { r with state := .running }) q := by
  by_cases hqp : q = p
  · subst hqp
    exact Or.inr ⟨Or.inl hp, by simp⟩
  · exact Or.inl (by rw [Table.set_of_ne hqp])

end Kthreads
end CS444
