/-
The two kinds of steps of the kernel: scheduling, which leaves every slot but
for its state and its place in the code (`Alike`), and a step of a running
process (`Takes`).  An invariant of the process table that is not about
scheduling has to be kept by each of them.
-/
import CS444.Kthreads.Kin
import CS444.Kthreads.Reaping

namespace CS444
namespace Kthreads

open Runs

/-! ## Steps of the scheduler and steps of a thread -/

/-- Only scheduling happened: the lock, the CPUs, wakeups. -/
structure Alike (t t' : Table) : Prop where
  rest : t' = { t with proc := t'.proc }
  slot : ∀ q, t'.proc q = { t.proc q with state := (t'.proc q).state, ctl := (t'.proc q).ctl }
  state : ∀ q, (t'.proc q).state = (t.proc q).state ∨ (t.proc q).Active ∧ (t'.proc q).Active
  core : ∀ q, (t.proc q).Active → (t'.proc q).ctl.core = (t.proc q).ctl.core

/-- The running process `p` takes a step on CPU `c`. -/
structure Takes {C : Type} (s : Kernel C) (c : C) (p : Slot) (i : Nat) (pick : Pick) (t : Table)
    (n : Next) : Prop where
  inv : Running s
  cpu : s.cpu c = some (p, i)
  run : (s.table.proc p).state = .running
  step : body s.table p (s.table.proc p).ctl pick = some (t, n)

variable {C : Type} {s s' : Kernel C} {c : C} {a : Act} {t t' : Table} {p q m np : Slot} {i : Nat}
  {pick : Pick} {k : Ctl} {n : Next}

theorem Alike.keeps {α : Type} (h : Alike t t') (g : Proc → α)
    (hg : ∀ r st k, g { r with state := st, ctl := k } = g r) (q : Slot) :
    g (t'.proc q) = g (t.proc q) := by
  rw [h.slot q]
  exact hg _ _ _

theorem Alike.active (h : Alike t t') (q : Slot) : (t'.proc q).Active ↔ (t.proc q).Active := by
  rcases h.state q with hstate | ⟨hold, hnew⟩
  · rw [Proc.Active, Proc.Active, hstate]
  · exact ⟨fun _ => hold, fun _ => hnew⟩

/-- A state that is none of a schedulable process's. -/
theorem Alike.state_iff (h : Alike t t') {st : ProcState}
    (hst : st ≠ .running ∧ st ≠ .runnable ∧ st ≠ .sleeping) :
    (t'.proc q).state = st ↔ (t.proc q).state = st := by
  have hno : ∀ r : Proc, r.Active → r.state ≠ st := by
    rintro r (h | h | h) rfl
    · exact hst.1 h
    · exact hst.2.1 h
    · exact hst.2.2 h
  rcases h.state q with hstate | ⟨hold, hnew⟩
  · rw [hstate]
  · exact ⟨fun h => absurd h (hno _ hnew), fun h => absurd h (hno _ hold)⟩

theorem goto_keeps {α : Type} (g : Proc → α) (hg : ∀ r k, g { r with ctl := k } = g r) :
    g ((t.goto p k).proc q) = g (t.proc q) :=
  Table.set_keeps g fun r => hg r _

theorem goto_alike (h : (t.proc p).Active → k.core = (t.proc p).ctl.core) :
    Alike t (t.goto p k) where
  rest := rfl
  slot q := by
    by_cases hq : q = p
    · subst hq
      simp [Table.goto]
    · rw [goto_of_ne hq]
  state q := Or.inl goto_state
  core q hact := by
    by_cases hq : q = p
    · subst hq
      rw [goto_ctl_self]
      exact h hact
    · rw [goto_of_ne hq]

theorem wakeup1_alike (chan : Chan) : Alike t (t.wakeup1 chan) where
  rest := rfl
  slot q := by
    simp only [Table.wakeup1]
    split <;> rfl
  state q := by
    simp only [Table.wakeup1]
    split
    · rename_i hsleep
      exact Or.inr ⟨Or.inr (Or.inr hsleep.1), Or.inr (Or.inl rfl)⟩
    · exact Or.inl rfl
  core q _ := by
    simp only [Table.wakeup1]
    split <;> rfl

theorem dispatch_alike (h : (t.proc p).state = .runnable) :
    Alike t (t.set p fun r => { r with state := .running }) where
  rest := rfl
  slot q := by
    by_cases hq : q = p
    · subst hq
      simp
    · rw [Table.set_of_ne hq]
  state q := by
    by_cases hq : q = p
    · subst hq
      exact Or.inr ⟨Or.inr (Or.inl h), Or.inl (by simp)⟩
    · exact Or.inl (by rw [Table.set_of_ne hq])
  core q _ := congrArg Ctl.core (Table.set_keeps Proc.ctl fun _ => rfl)

theorem Alike.refl (t : Table) : Alike t t where
  rest := rfl
  slot _ := rfl
  state _ := Or.inl rfl
  core _ _ := rfl

/-- A step of the kernel is about scheduling or is one of a running process. -/
theorem Running.split [DecidableEq C] (hinv : Running s) (hstep : CpuStep s c a s') :
    Alike s.table s'.table ∨ ∃ p i pick t n, a = .run pick ∧ Takes s c p i pick t n ∧
      s'.table = t.goto p n.ctl := by
  cases hstep with
  | enter | rest => exact Or.inl (.refl _)
  | dispatch p i _ _ hrun => exact Or.inl (dispatch_alike hrun)
  | wakeup m => exact Or.inl (wakeup1_alike _)
  | acquire p i k _ hctl => exact Or.inl (goto_alike fun _ => by rw [hctl]; rfl)
  | release p i k _ hctl => exact Or.inl (goto_alike fun _ => by rw [hctl]; rfl)
  | go p i pick t k hcpu hstep =>
      rcases hinv.cpu c p i hcpu with hrun | ⟨hzombie, hctl⟩
      · exact Or.inr ⟨p, i, pick, t, _, rfl, ⟨hinv, hcpu, hrun, hstep⟩, rfl⟩
      · exact absurd (zombie_step (body_step hstep) hzombie hctl).2 (by simp)
  | swtch p i pick t k hcpu hstep =>
      rcases hinv.cpu c p i hcpu with hrun | ⟨hzombie, hctl⟩
      · exact Or.inr ⟨p, i, pick, t, _, rfl, ⟨hinv, hcpu, hrun, hstep⟩, rfl⟩
      · obtain ⟨rfl, -⟩ := zombie_step (body_step hstep) hzombie hctl
        refine Or.inl (goto_alike fun hact => ?_)
        rcases hact with h | h | h <;> exact absurd (hzombie.symm.trans h) (by decide)

/-- A slot that is in use and not under construction. -/
def Proc.Used (r : Proc) : Prop := r.state ≠ .unused ∧ r.state ≠ .embryo

theorem Proc.Active.used {r : Proc} (h : r.Active) : r.Used := by
  rcases h with h | h | h <;> simp [Used, h]

theorem Proc.Active.not {r : Proc} (h : r.Active) {st : ProcState} (hst : r.state = st) :
    st ≠ .unused ∧ st ≠ .embryo ∧ st ≠ .zombie := by
  subst hst
  rcases h with h | h | h <;> simp [h]

namespace Takes

variable (h : Takes s c p i pick t n)

include h

theorem body : BodyStep s.table p (s.table.proc p).ctl t n := body_step h.step

theorem active : (s.table.proc p).Active := Or.inl h.run

theorem embryo (hk : (s.table.proc p).ctl.creating = some np) :
    (s.table.proc np).state = .embryo :=
  h.inv.maker_embryo h.run hk

/-- Nobody else works on a slot the step's thread is making. -/
theorem not_maker (hq : q ≠ p) (hact : (s.table.proc q).Active)
    (hk : (s.table.proc p).ctl.creating = some np) : (s.table.proc q).ctl.creating ≠ some np :=
  fun hnp => hq (h.inv.maker q p np hact h.active hnp hk)

/-- The step's own thread goes on, exits with `kthread_exit` or with `exit`. -/
theorem own : (t.proc p).Active ∨
    (t.proc p).state = .zombie ∧
      ((∃ v, (s.table.proc p).ctl = .threadExit2 v ∧ n = .go (.acquire .threadSched)) ∨
        (s.table.proc p).ctl = .exitSched ∧ n = .swtch .dead) := by
  have hdead : (s.table.proc p).ctl = .exitSched → n = .swtch .dead := by
    intro hk
    have hbody := h.body
    rw [hk] at hbody
    cases hbody with
    | preempt _ _ hopen | block _ _ _ hopen => exact absurd hopen (by simp [Ctl.locked])
    | exitSched => rfl
  cases (h.inv.own h.run h.body).2 with
  | go _ hstate => exact Or.inl (Or.inl hstate)
  | zombie v hk hstate => exact Or.inr ⟨hstate, Or.inl ⟨v, hk, rfl⟩⟩
  | off _ _ hstate => exact Or.inl (Or.inr hstate)
  | gone _ hk hstate => exact Or.inr ⟨hstate, Or.inr ⟨hk, hdead hk⟩⟩

/-- Other processes that may run still may. -/
theorem still_active (hq : q ≠ p) (hact : (s.table.proc q).Active) :
    (t.proc q).Active ∧ (t.proc q).ctl = (s.table.proc q).ctl := by
  cases body_touch h.body hq with
  | rest hwoken =>
      cases hwoken with
      | same hkey =>
          obtain ⟨hstate, hctl, -⟩ := key_eq_iff.mp hkey
          rw [Proc.Active, hstate]
          exact ⟨hact, hctl⟩
      | woken _ hstate hctl => exact ⟨Or.inr (Or.inl hstate), hctl⟩
  | taken hfree => exact absurd rfl (hact.not hfree).1
  | made hmake => exact absurd rfl (hact.not (h.embryo hmake)).2.1
  | dropped hdrop =>
      exact absurd rfl (hact.not (h.embryo (Touch.creating_of_dropped hdrop))).2.1
  | published owner hk =>
      have hmake : (s.table.proc p).ctl.creating = some q := by rw [hk]; rfl
      exact absurd rfl (hact.not (h.embryo hmake)).2.1
  | reaped htake => exact absurd rfl (hact.not (h.inv.reaps h.cpu h.run htake).1).2.2

/-- Other processes that may run could, or were just published. -/
theorem was_active (hq : q ≠ p) (hact : (t.proc q).Active) :
    (s.table.proc q).Active ∧ (t.proc q).ctl = (s.table.proc q).ctl ∨
      (t.proc q).ctl = .release .user ∧ ∃ owner, (s.table.proc p).ctl = .publish q owner := by
  rcases h.inv.was_active h.run h.body hq hact with ⟨hold, hctl, -⟩ | ⟨-, hctl, -, hk⟩
  · exact Or.inl ⟨hold, hctl⟩
  · exact Or.inr ⟨hctl, hk⟩

/-- A slot in use was in use, or was just published. -/
theorem was_used (hused : (t.proc q).Used) :
    (s.table.proc q).Used ∨ ∃ owner, (s.table.proc p).ctl = .publish q owner := by
  by_cases hq : q = p
  · subst hq
    exact Or.inl h.active.used
  cases body_touch h.body hq with
  | rest hwoken =>
      cases hwoken with
      | same hkey =>
          rw [Proc.Used, (key_eq_iff.mp hkey).1] at hused
          exact Or.inl hused
      | woken hsleep => exact Or.inl (by simp [Proc.Used, hsleep])
  | taken _ hstate => exact absurd hstate hused.2
  | made hmake hstate => exact absurd (hstate.trans (h.embryo hmake)) hused.2
  | dropped _ hstate => exact absurd hstate hused.1
  | published owner hk => exact Or.inr ⟨owner, hk⟩
  | reaped _ _ hstate => exact absurd hstate hused.1

/-- A process that may run keeps its stack. -/
theorem kstack_same (hq : (s.table.proc q).Active) :
    (t.proc q).kstack = (s.table.proc q).kstack := by
  by_cases hqp : q = p
  · rw [hqp]
    exact (h.inv.own h.run h.body).1
  cases body_touch h.body hqp with
  | rest hwoken => exact hwoken.kstack
  | taken hfree => exact absurd rfl (hq.not hfree).1
  | made hmake => exact absurd rfl (hq.not (h.embryo hmake)).2.1
  | dropped hdrop =>
      exact absurd rfl (hq.not (h.embryo (Touch.creating_of_dropped hdrop))).2.1
  | published owner hk =>
      have hmake : (s.table.proc p).ctl.creating = some q := by rw [hk]; rfl
      exact absurd rfl (hq.not (h.embryo hmake)).2.1
  | reaped htake => exact absurd rfl (hq.not (h.inv.reaps h.cpu h.run htake).1).2.2

end Takes

end Kthreads
end CS444
