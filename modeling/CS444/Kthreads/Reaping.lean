/-
When a thread is reaped.
-/
import CS444.Kthreads.Running

namespace CS444
namespace Kthreads

open Runs

variable {C : Type} {s s' : Kernel C} {c c' : C} {a : Act} {t t' : Table}
  {p q : Slot} {i i' : Nat} {k : Ctl} {n : Next}

/-! ## Every step keeps the invariant -/

/-- The one step of a zombie that is not about the lock. -/
theorem zombie_step (hbody : BodyStep t p (t.proc p).ctl t' n)
    (hzombie : (t.proc p).state = .zombie)
    (hctl : (t.proc p).ctl = .acquire .threadSched ∨ (t.proc p).ctl = .threadSched) :
    t' = t ∧ n = .swtch .dead := by
  have hrun : (t.proc p).state ≠ .running := by simp [hzombie]
  rcases hctl with hctl | hctl
  · rw [hctl] at hbody
    cases hbody with
    | preempt _ h => exact absurd h hrun
    | block _ _ h => exact absurd h hrun
  · rw [hctl] at hbody
    cases hbody with
    | preempt _ h => exact absurd h hrun
    | block _ _ h => exact absurd h hrun
    | threadSched => exact ⟨rfl, rfl⟩

section Cpu

variable (hinv : Running s)

include hinv

/-- Another CPU runs another slot. -/
theorem Running.ne_slot (hcpu : s.cpu c = some (p, i)) (hcpu' : s.cpu c' = some (q, i'))
    (hc : c' ≠ c) : q ≠ p := by
  rintro rfl
  exact hc (hinv.alone c' c q i' i hcpu' hcpu)

/-- The thread of `p` goes on to `k`; what the other CPUs run stays as it is. -/
theorem Running.goOn {t : Table} {lock : Option C} (hcpu : s.cpu c = some (p, i))
    (hplaced : Placed (t.goto p k))
    (hothers : ∀ c' q i', s.cpu c' = some (q, i') → c' ≠ c →
      (t.proc q).key = (s.table.proc q).key ∧ (lock = some c' ↔ s.lock = some c'))
    (hon : ({ t.proc p with ctl := k } : Proc).OnCpu)
    (hstack : (t.proc p).kstack = (s.table.proc p).kstack)
    (hlock : lock = some c ↔ k.locked = true)
    (hruns : ∀ q, q ≠ p → (t.proc q).state = .running → (s.table.proc q).state = .running) :
    Running { table := t.goto p k, cpu := s.cpu, lock } := by
  have hkey : ∀ c' q i', s.cpu c' = some (q, i') → c' ≠ c →
      ((t.goto p k).proc q).key = (s.table.proc q).key := by
    intro c' q i' hcpu' hc
    rw [goto_of_ne (hinv.ne_slot hcpu hcpu' hc)]
    exact (hothers c' q i' hcpu' hc).1
  have hself : ∀ q i', s.cpu c = some (q, i') → q = p := fun q i' hcpu' =>
    congrArg Prod.fst (Option.some.inj (hcpu'.symm.trans hcpu))
  constructor
  case toPlaced => exact hplaced
  case cpu =>
    intro c' q i' hcpu'
    by_cases hc : c' = c
    · subst hc
      obtain rfl := hself q i' hcpu'
      simpa [Table.goto] using hon
    · obtain ⟨hstate, hctl, -⟩ := key_eq_iff.mp (hkey c' q i' hcpu' hc)
      have := hinv.cpu c' q i' hcpu'
      rwa [Proc.OnCpu, ← hstate, ← hctl] at this
  case stack =>
    intro c' q i' hcpu'
    show ((t.goto p k).proc q).kstack = some i'
    by_cases hc : c' = c
    · subst hc
      obtain rfl := hself q i' hcpu'
      rw [goto_kstack, hstack]
      exact hinv.stack c' q i' hcpu'
    · rw [(key_eq_iff.mp (hkey c' q i' hcpu' hc)).2.2]
      exact hinv.stack c' q i' hcpu'
  case lock =>
    intro c' q i' hcpu'
    show lock = some c' ↔ ((t.goto p k).proc q).ctl.locked = true
    by_cases hc : c' = c
    · subst hc
      obtain rfl := hself q i' hcpu'
      rw [goto_ctl_self]
      exact hlock
    · rw [(key_eq_iff.mp (hkey c' q i' hcpu' hc)).2.1, (hothers c' q i' hcpu' hc).2]
      exact hinv.lock c' q i' hcpu'
  case alone => exact hinv.alone
  case runs =>
    intro q hq
    by_cases hqp : q = p
    · exact ⟨c, i, by rw [hqp]; exact hcpu⟩
    · exact hinv.runs q (hruns q hqp (by simpa using hq))

/-- The thread of `p` leaves its CPU. -/
theorem Running.leave [DecidableEq C] {t : Table} (hcpu : s.cpu c = some (p, i))
    (hplaced : Placed t)
    (hothers : ∀ c' q i', s.cpu c' = some (q, i') → c' ≠ c →
      (t.proc q).key = (s.table.proc q).key)
    (hoff : (t.proc p).state ≠ .running)
    (hruns : ∀ q, q ≠ p → (t.proc q).state = .running → (s.table.proc q).state = .running) :
    Running { s with table := t, cpu := Function.update s.cpu c none } := by
  have hold : ∀ c' q i', Function.update s.cpu c none c' = some (q, i') →
      c' ≠ c ∧ s.cpu c' = some (q, i') := by
    intro c' q i' hcpu'
    by_cases hc : c' = c
    · subst hc
      rw [Function.update_self] at hcpu'
      exact absurd hcpu' (by simp)
    · rw [Function.update_of_ne hc] at hcpu'
      exact ⟨hc, hcpu'⟩
  constructor
  case toPlaced => exact hplaced
  case cpu =>
    intro c' q i' hcpu'
    obtain ⟨hc, hcpu'⟩ := hold c' q i' hcpu'
    obtain ⟨hstate, hctl, -⟩ := key_eq_iff.mp (hothers c' q i' hcpu' hc)
    have := hinv.cpu c' q i' hcpu'
    rwa [Proc.OnCpu, ← hstate, ← hctl] at this
  case stack =>
    intro c' q i' hcpu'
    obtain ⟨hc, hcpu'⟩ := hold c' q i' hcpu'
    exact (key_eq_iff.mp (hothers c' q i' hcpu' hc)).2.2.trans (hinv.stack c' q i' hcpu')
  case lock =>
    intro c' q i' hcpu'
    obtain ⟨hc, hcpu'⟩ := hold c' q i' hcpu'
    show s.lock = some c' ↔ (t.proc q).ctl.locked = true
    rw [(key_eq_iff.mp (hothers c' q i' hcpu' hc)).2.1]
    exact hinv.lock c' q i' hcpu'
  case alone =>
    intro c' c'' q i' i'' hcpu' hcpu''
    exact hinv.alone c' c'' q i' i'' (hold c' q i' hcpu').2 (hold c'' q i'' hcpu'').2
  case runs =>
    intro q hq
    have hqp : q ≠ p := by
      rintro rfl
      exact hoff hq
    obtain ⟨c', i', hcpu'⟩ := hinv.runs q (hruns q hqp hq)
    have hc : c' ≠ c := by
      rintro rfl
      exact hqp (congrArg Prod.fst (Option.some.inj (hcpu'.symm.trans hcpu)))
    exact ⟨c', i', (Function.update_of_ne hc ..).trans hcpu'⟩

end Cpu

/-- A step makes no other process run. -/
theorem running_before (hbody : BodyStep t p k t' n) (hq : q ≠ p)
    (hrun : (t'.proc q).state = .running) (hembryo : k.creating = some q →
      (t.proc q).state = .embryo) : (t.proc q).state = .running := by
  cases body_touch hbody hq with
  | rest hwoken =>
      cases hwoken with
      | same hkey => exact (key_eq_iff.mp hkey).1.symm.trans hrun
      | woken _ hstate => exact absurd (hstate.symm.trans hrun) (by decide)
  | taken _ hstate => exact absurd (hstate.symm.trans hrun) (by decide)
  | made hmake hstate =>
      exact absurd ((hembryo hmake).symm.trans (hstate.symm.trans hrun)) (by decide)
  | dropped _ hstate => exact absurd (hstate.symm.trans hrun) (by decide)
  | published _ _ hstate => exact absurd (hstate.symm.trans hrun) (by decide)
  | reaped _ _ hstate => exact absurd (hstate.symm.trans hrun) (by decide)

/-- Only the scheduler and wakeups: what the CPUs run stays. -/
theorem Running.moved (hinv : Running s) (hmoved : ∀ q, Moved s.table t q)
    (hstays : ∀ q, (t.proc q).state = .running → (s.table.proc q).state = .running) :
    Running { s with table := t } where
  toPlaced := hinv.toPlaced.moved hmoved
  cpu c p i hcpu := by
    rcases hinv.cpu c p i hcpu with hrun | ⟨hzombie, hctl⟩
    · exact Or.inl ((hmoved p).state hrun (by decide))
    · refine Or.inr ⟨(hmoved p).state hzombie (by decide), ?_⟩
      rwa [(hmoved p).ctl.1]
  stack c p i hcpu := (hmoved p).ctl.2.trans (hinv.stack c p i hcpu)
  lock c p i hcpu := by
    show s.lock = some c ↔ (t.proc p).ctl.locked = true
    rw [(hmoved p).ctl.1]
    exact hinv.lock c p i hcpu
  alone := hinv.alone
  runs p hrun := hinv.runs p (hstays p hrun)

variable [DecidableEq C]

/-- The scheduler switches to `p`. -/
theorem Running.dispatch (hinv : Running s) (hidle : s.cpu c = none) (hheld : s.lock = some c)
    (hrun : (s.table.proc p).state = .runnable) (hstack : (s.table.proc p).kstack = some i)
    (hmoved : ∀ q, Moved s.table t q) (hself : (t.proc p).state = .running)
    (hothers : ∀ q, q ≠ p → t.proc q = s.table.proc q) :
    Running { s with table := t, cpu := Function.update s.cpu c (some (p, i)) } := by
  have hact : (s.table.proc p).Active := Or.inr (Or.inl hrun)
  have hoff : ∀ c' i', s.cpu c' ≠ some (p, i') := by
    intro c' i' hcpu
    rcases hinv.cpu c' p i' hcpu with h | ⟨h, -⟩ <;> exact absurd (h.symm.trans hrun) (by decide)
  have hold : ∀ c' q i', Function.update s.cpu c (some (p, i)) c' = some (q, i') →
      c' = c ∧ q = p ∧ i' = i ∨ c' ≠ c ∧ q ≠ p ∧ s.cpu c' = some (q, i') := by
    intro c' q i' hcpu
    by_cases hc : c' = c
    · subst hc
      rw [Function.update_self] at hcpu
      obtain ⟨rfl, rfl⟩ := Prod.mk.inj (Option.some.inj hcpu)
      exact Or.inl ⟨rfl, rfl, rfl⟩
    · rw [Function.update_of_ne hc] at hcpu
      refine Or.inr ⟨hc, ?_, hcpu⟩
      rintro rfl
      exact hoff c' i' hcpu
  constructor
  case toPlaced => exact hinv.toPlaced.moved hmoved
  case cpu =>
    intro c' q i' hcpu
    rcases hold c' q i' hcpu with ⟨-, rfl, -⟩ | ⟨-, hq, hcpu⟩
    · exact Or.inl hself
    · show (t.proc q).OnCpu
      rw [hothers q hq]
      exact hinv.cpu c' q i' hcpu
  case stack =>
    intro c' q i' hcpu
    show (t.proc q).kstack = some i'
    rw [(hmoved q).ctl.2]
    rcases hold c' q i' hcpu with ⟨-, rfl, rfl⟩ | ⟨-, -, hcpu⟩
    · exact hstack
    · exact hinv.stack c' q i' hcpu
  case lock =>
    intro c' q i' hcpu
    show s.lock = some c' ↔ (t.proc q).ctl.locked = true
    rw [(hmoved q).ctl.1]
    rcases hold c' q i' hcpu with ⟨rfl, rfl, -⟩ | ⟨-, -, hcpu⟩
    · have hlocked := hinv.saved q hact (by simp [hrun])
      simp [hheld, hlocked]
    · exact hinv.lock c' q i' hcpu
  case alone =>
    intro c' c'' q i' i'' hcpu hcpu'
    rcases hold c' q i' hcpu with ⟨hc, hq, -⟩ | ⟨-, hq, hcpu⟩
    · rcases hold c'' q i'' hcpu' with ⟨hc', -⟩ | ⟨-, hq', -⟩
      · exact hc.trans hc'.symm
      · exact absurd hq hq'
    · rcases hold c'' q i'' hcpu' with ⟨-, hq', -⟩ | ⟨-, -, hcpu'⟩
      · exact absurd hq' hq
      · exact hinv.alone c' c'' q i' i'' hcpu hcpu'
  case runs =>
    intro q hq
    by_cases hqp : q = p
    · subst hqp
      exact ⟨c, i, Function.update_self ..⟩
    · have hq' : (t.proc q).state = .running := hq
      rw [hothers q hqp] at hq'
      obtain ⟨c', i', hcpu⟩ := hinv.runs q hq'
      have hc : c' ≠ c := by
        rintro rfl
        exact absurd (hidle.symm.trans hcpu) (by simp)
      exact ⟨c', i', (Function.update_of_ne hc ..).trans hcpu⟩

omit [DecidableEq C] in
/-- The thread of `p` takes the lock or drops it. -/
theorem Running.relock (hinv : Running s) {lock : Option C} (hcpu : s.cpu c = some (p, i))
    (hothers : ∀ c', c' ≠ c → (lock = some c' ↔ s.lock = some c'))
    (hctl : (s.table.proc p).ctl = .acquire k ∧ lock = some c ∨
      (s.table.proc p).ctl = .release k ∧ lock = none) :
    Running { table := s.table.goto p k, cpu := s.cpu, lock } := by
  have hon := hinv.cpu c p i hcpu
  have hkeep : ∀ c' q i', s.cpu c' = some (q, i') → c' ≠ c →
      (s.table.proc q).key = (s.table.proc q).key ∧ (lock = some c' ↔ s.lock = some c') :=
    fun c' q i' _ hc => ⟨rfl, hothers c' hc⟩
  rcases hon with hrun | ⟨hzombie, hwindow⟩
  · have hwf := hinv.wf p (Or.inl hrun)
    have hlock : lock = some c ↔ k.locked = true := by
      rcases hctl with ⟨hctl, rfl⟩ | ⟨hctl, rfl⟩ <;> rw [hctl] at hwf
      · simp [hwf.1]
      · simp [hwf.1]
    refine hinv.goOn hcpu (hinv.toPlaced.goto (by simp [hrun]) fun _ => ?_) hkeep (Or.inl hrun)
      rfl hlock fun _ _ h => h
    rcases hctl with ⟨hctl, -⟩ | ⟨hctl, -⟩ <;> rw [hctl] at hwf ⊢
    · exact ⟨hwf.2.2, rfl, rfl, rfl, fun h => absurd hrun h⟩
    · exact ⟨hwf.2, rfl, rfl, rfl, fun h => absurd hrun h⟩
  · obtain ⟨rfl, rfl⟩ : k = .threadSched ∧ lock = some c := by
      rcases hwindow with hwindow | hwindow <;> rw [hwindow] at hctl
      · simpa [eq_comm] using hctl
      · simp at hctl
    refine hinv.goOn hcpu (hinv.toPlaced.goto (by simp [hzombie]) fun hact => ?_) hkeep
      (Or.inr ⟨hzombie, Or.inr rfl⟩) rfl (by simp [Ctl.locked]) fun _ _ h => h
    rcases hact with h | h | h <;> exact absurd (hzombie.symm.trans h) (by decide)

theorem Running.step (hinv : Running s) (hstep : CpuStep s c a s') (hok : Spaced s (c, a)) :
    Running s' := by
  cases hstep with
  | enter hidle hfree =>
      refine { hinv with lock := fun c' p i hcpu => ?_ }
      have hc : c ≠ c' := by
        rintro rfl
        exact absurd (hidle.symm.trans hcpu) (by simp)
      simpa [hfree, hc] using hinv.lock c' p i hcpu
  | rest hidle hheld =>
      refine { hinv with lock := fun c' p i hcpu => ?_ }
      have hc : c ≠ c' := by
        rintro rfl
        exact absurd (hidle.symm.trans hcpu) (by simp)
      simpa [hheld, hc] using hinv.lock c' p i hcpu
  | dispatch p i hidle hheld hrun hstack =>
      exact hinv.dispatch hidle hheld hrun hstack (dispatch_moved hrun) (by simp)
        fun q hq => Table.set_of_ne hq
  | wakeup m hfree =>
      have hwoken := wakeup1_woken (t := s.table) (.other m)
      refine hinv.moved (fun q => (hwoken q).moved) fun q hrun => ?_
      cases hwoken q with
      | same hkey => exact (key_eq_iff.mp hkey).1.symm.trans hrun
      | woken _ hstate => exact absurd (hstate.symm.trans hrun) (by decide)
  | acquire p i k hcpu hctl hfree =>
      exact hinv.relock hcpu (fun c' hc => by simp [hfree, hc.symm]) (Or.inl ⟨hctl, rfl⟩)
  | release p i k hcpu hctl hheld =>
      exact hinv.relock hcpu (fun c' hc => by simp [hheld, hc.symm]) (Or.inr ⟨hctl, rfl⟩)
  | go p i pick t k hcpu hstep =>
      have hbody := body_step hstep
      rcases hinv.cpu c p i hcpu with hrun | ⟨hzombie, hctl⟩
      · obtain ⟨hstack, hown⟩ := hinv.own hrun hbody
        have hkeep : ∀ c' q i', s.cpu c' = some (q, i') → c' ≠ c →
            (t.proc q).key = (s.table.proc q).key ∧ (s.lock = some c' ↔ s.lock = some c') :=
          fun c' q i' hcpu' hc => ⟨hinv.keeps_onCpu hcpu hrun hbody hok hcpu'
            (hinv.ne_slot hcpu hcpu' hc), Iff.rfl⟩
        have hruns : ∀ q, q ≠ p → (t.proc q).state = .running →
            (s.table.proc q).state = .running := fun q hq hstate =>
          running_before hbody hq hstate (hinv.maker_embryo hrun)
        have hlock := hinv.lock c p i hcpu
        refine hinv.goOn hcpu (hinv.placed hcpu hrun hbody) hkeep ?_ hstack ?_ hruns
        · cases hown with
          | go _ hstate => exact Or.inl hstate
          | zombie v _ hstate => exact Or.inr ⟨hstate, Or.inl rfl⟩
        · cases hown with
          | go _ _ _ hlocked => rwa [hlocked]
          | zombie v hk => rwa [hk] at hlock
      · exact absurd (zombie_step hbody hzombie hctl).2 (by simp)
  | swtch p i pick t k hcpu hstep hheld =>
      have hbody := body_step hstep
      rcases hinv.cpu c p i hcpu with hrun | ⟨hzombie, hctl⟩
      · refine hinv.leave hcpu (hinv.placed hcpu hrun hbody) (fun c' q i' hcpu' hc => ?_) ?_
          fun q hq hstate => ?_
        · have hq := hinv.ne_slot hcpu hcpu' hc
          rw [goto_of_ne hq]
          exact hinv.keeps_onCpu hcpu hrun hbody hok hcpu' hq
        · rw [goto_state]
          cases (hinv.own hrun hbody).2 with
          | off _ _ hstate => rcases hstate with h | h <;> simp [h]
          | gone _ _ hstate => simp [hstate]
        · rw [goto_state] at hstate
          exact running_before hbody hq hstate (hinv.maker_embryo hrun)
      · obtain ⟨rfl, -⟩ := zombie_step hbody hzombie hctl
        refine hinv.leave hcpu (hinv.toPlaced.goto (by simp [hzombie]) fun hact => ?_)
          (fun c' q i' hcpu' hc => ?_) (by simp [hzombie]) fun q _ hstate => ?_
        · rcases hact with h | h | h <;> exact absurd (hzombie.symm.trans h) (by decide)
        · rw [goto_of_ne (hinv.ne_slot hcpu hcpu' hc)]
        · rwa [goto_state] at hstate

/-! ## Over a run -/

omit [DecidableEq C] in
theorem boot_running (h : Boot s) : Running s := by
  have hstate : ∀ p, (s.table.proc p).Active → p = initproc := by
    intro p hact
    by_contra hp
    rw [h.unused p hp] at hact
    rcases hact with h | h | h <;> exact absurd h (by decide)
  have hidle : ∀ c p i, s.cpu c ≠ some (p, i) := fun c p i => by simp [h.cpu c]
  constructor
  case toPlaced =>
    constructor
    case wf =>
      intro p hp
      rw [hstate p hp, h.init]
      exact ⟨rfl, trivial⟩
    case kstack =>
      intro p hp
      rw [hstate p hp, h.init]
      exact ⟨0, rfl⟩
    case saved =>
      intro p hp _
      rw [hstate p hp, h.init]
      rfl
    case embryo =>
      intro p np hp hnp
      rw [hstate p hp, h.init] at hnp
      exact absurd hnp (by simp [Ctl.creating])
    case maker =>
      intro p p' np hp hp' _ _
      rw [hstate p hp, hstate p' hp']
    case born =>
      intro p np hp hnp
      rw [hstate p hp, h.init] at hnp
      exact absurd hnp (by simp [Ctl.born])
    case target =>
      intro p q hp hq
      rw [hstate p hp, h.init] at hq
      exact absurd hq (by simp [Ctl.target])
  case cpu => exact fun c p i hcpu => absurd hcpu (hidle c p i)
  case stack => exact fun c p i hcpu => absurd hcpu (hidle c p i)
  case lock => exact fun c p i hcpu => absurd hcpu (hidle c p i)
  case alone => exact fun c _ p i _ hcpu => absurd hcpu (hidle c p i)
  case runs =>
    intro p hrun
    have hp := hstate p (Or.inl hrun)
    rw [hp, h.init] at hrun
    exact absurd hrun (by decide)

theorem run_running {tr : List (C × Act)} (h : Run (kthreads C) Spaced tr s) : Running s :=
  h.invariant (fun _ hboot => boot_running hboot)
    fun _ _ _ hinv hstep hok => hinv.step (step_cases hstep) hok

/-- While a CPU runs on the stack of a slot, that stack is the slot's and the
slot is in use, and a thread is a zombie when `kthread_exit` calls `sched()`. -/
theorem running_not_reaped {tr : List (C × Act)} (h : Run (kthreads C) Spaced tr s)
    (hcpu : s.cpu c = some (p, i)) :
    (s.table.proc p).kstack = some i ∧ (s.table.proc p).state ≠ .unused ∧
      ((s.table.proc p).ctl = .threadSched → (s.table.proc p).state = .zombie) := by
  have hinv := run_running h
  refine ⟨hinv.stack c p i hcpu, ?_, ?_⟩
  · rcases hinv.cpu c p i hcpu with hrun | ⟨hzombie, -⟩
    · simp [hrun]
    · simp [hzombie]
  · intro hctl
    rcases hinv.cpu c p i hcpu with hrun | ⟨hzombie, -⟩
    · have hwf := hinv.wf p (Or.inl hrun)
      rw [hctl] at hwf
      exact hwf.elim
    · exact hzombie

/-! ### Runs on two CPUs -/

/-- A thread takes the step it is at. -/
def onward (c : Fin 2) : Fin 2 × Act := (c, .run .next)

/-- The scheduler takes `p`. -/
def starts (c : Fin 2) (p : Slot) : List (Fin 2 × Act) := [(c, .enter), (c, .dispatch p), onward c]

/-- `kthread_create` in slot `np`, up to the load of `next_tid`. -/
def createTo (c : Fin 2) (np : Slot) : List (Fin 2 × Act) :=
  [(c, .run (.call .kthread_create)), onward c, (c, .run (.slot (some np))), onward c,
    (c, .run (.page (some 0))), onward c, onward c, onward c, onward c]

/-- All of it. -/
def creates (c : Fin 2) (np : Slot) : List (Fin 2 × Act) :=
  createTo c np ++ List.replicate 8 (onward c)

/-- `fork` in slot `np`, with a new directory. -/
def forks (c : Fin 2) (np : Slot) (d : Nat) : List (Fin 2 × Act) :=
  [(c, .run (.call .fork)), onward c, (c, .run (.slot (some np))), onward c,
    (c, .run (.page (some 0))), (c, .run (.page (some d))), (c, .run (.done true))] ++
    List.replicate 4 (onward c)

/-- `kthread_exit`, and the scheduler after it. -/
def exits (c : Fin 2) (v : Int) : List (Fin 2 × Act) :=
  [(c, .run (.call (.kthread_exit v)))] ++ List.replicate 5 (onward c) ++ [(c, .rest)]

/-- `kthread_join` of a thread that has exited, in slot `i`. -/
def joins (c : Fin 2) (tid : Int) (i : Nat) : List (Fin 2 × Act) :=
  [(c, .run (.call (.kthread_join tid)))] ++ List.replicate (i + 7) (onward c)

/-- Init has made a thread, which runs on the other CPU. -/
def threadRuns : List (Fin 2 × Act) := starts 0 0 ++ creates 0 1 ++ starts 1 1

/-- The thread has exited and init has joined it. -/
def threadJoined : List (Fin 2 × Act) := threadRuns ++ exits 1 7 ++ joins 0 1 1

/-- A run of steps that are each checked against the condition. -/
theorem run_checked {ok : Kernel (Fin 2) → Fin 2 × Act → Prop} [∀ s l, Decidable (ok s l)]
    {tr : List (Fin 2 × Act)} {s : Kernel (Fin 2)}
    (htr : tr.foldlM (guarded ok fun s l => step s l.1 l.2) boot = some s) :
    Run (kthreads (Fin 2)) ok tr.reverse s :=
  Run.of_guarded boot_boot (fun _ _ _ h => h) htr

/-- Init makes another thread in the same slot, which is about to call `sched()`. -/
def exitsAgain : List (Fin 2 × Act) :=
  threadJoined ++ creates 0 1 ++ starts 1 1 ++ [(1, .run (.call (.kthread_exit 9)))] ++
    List.replicate 4 (onward 1)

theorem running_not_reaped_again : ∃ s : Kernel (Fin 2),
    Run (kthreads (Fin 2)) Spaced exitsAgain.reverse s ∧ s.table.joins = [(1, 7)] ∧
      s.cpu 1 = some (1, 2) ∧ (s.table.proc 1).kstack = some 2 ∧
      (s.table.proc 1).state = .zombie := by
  have htr : ((exitsAgain.foldlM (guarded Spaced fun s l => step s l.1 l.2) boot).map fun s =>
      (s.table.joins, s.cpu 1, (s.table.proc 1).ctl)) =
        some ([(1, 7)], some (1, 2), .threadSched) := by
    decide +kernel
  obtain ⟨s, hs, heq⟩ := Option.map_eq_some_iff.mp htr
  simp only [Prod.mk.injEq] at heq
  obtain ⟨hjoins, hcpu, hctl⟩ := heq
  have hrun := run_checked hs
  obtain ⟨hstack, -, hzombie⟩ := running_not_reaped hrun hcpu
  exact ⟨s, hrun, hjoins, hcpu, hstack, hzombie hctl⟩

/-- Init makes a thread, which exits on the other CPU and has yet to take the
lock when init joins it. -/
def joinTooSoon : List (Fin 2 × Act) :=
  threadRuns ++ [(1, .run (.call (.kthread_exit 7)))] ++ List.replicate 3 (onward 1) ++
    [(0, .run (.call (.kthread_join 1)))] ++ List.replicate 7 (onward 0) ++ [onward 1]

/-- The thread enters `sched()` on a freed stack, in a slot that is not in use. -/
theorem joinTooSoon_reaps_running :
    ∃ (tr : List (Fin 2 × Act)) (s : Kernel (Fin 2)), Run (kthreads (Fin 2)) anyStep tr s ∧
      s.cpu 1 = some (1, 1) ∧ (s.table.proc 1).kstack = none ∧
      (s.table.proc 1).state = .unused ∧ (s.table.proc 1).ctl = .threadSched := by
  have htr : ((joinTooSoon.foldlM (fun s l => step s l.1 l.2) boot).map fun s =>
      (s.cpu 1, (s.table.proc 1).key)) = some (some (1, 1), .unused, .threadSched, none) := by
    decide +kernel
  obtain ⟨s, hs, heq⟩ := Option.map_eq_some_iff.mp htr
  obtain ⟨hcpu, hkey⟩ := Prod.mk.inj heq
  obtain ⟨hstate, hkey⟩ := Prod.mk.inj hkey
  obtain ⟨hctl, hstack⟩ := Prod.mk.inj hkey
  exact ⟨_, s, Run.of_foldlM boot_boot (fun _ _ _ h => ⟨h, trivial⟩) hs, hcpu, hstack, hstate, hctl⟩

end Kthreads
end CS444
