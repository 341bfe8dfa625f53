/-
Which process a slot's thread belongs to, and what a step does to that.

`Kin` lists the changes to `parent`, `is_thread` and `tid`; the other fields
that threads share have one lemma each.
-/
import CS444.Kthreads.Touch

namespace CS444
namespace Kthreads

/-! ## Control points without the scheduling around them -/

namespace Ctl

/-- What the thread is about, whether it holds the CPU, the lock or neither. -/
def core : Ctl → Ctl
  | .acquire k | .release k | .yieldSched k | .sleepSched _ k => k.core
  | k => k

/-- The slot a join waits for. -/
def polls (k : Ctl) : Option Slot :=
  match k.core with
  | .joinPoll _ _ q | .joinLoad _ _ q | .joinTake _ _ q _ => some q
  | _ => none

/-- The thread under construction that its process has not counted yet. -/
def uncounted (k : Ctl) : Option Slot :=
  match k.core with
  | .tidParent np | .loadTid np _ | .storeTid np _ _ | .countParent np | .loadCount np _
  | .storeCount np _ _ => some np
  | _ => none

theorem creating_core (k : Ctl) : k.core.creating = k.creating := by
  induction k with
  | acquire k ih | release k ih | yieldSched k ih | sleepSched _ k ih => exact ih
  | _ => rfl

theorem core_core (k : Ctl) : k.core.core = k.core := by
  induction k with
  | acquire k ih | release k ih | yieldSched k ih | sleepSched _ k ih => exact ih
  | _ => rfl

theorem core_flat (k k' : Ctl) : k.core ≠ .acquire k' ∧ k.core ≠ .release k' ∧
    k.core ≠ .yieldSched k' ∧ ∀ n, k.core ≠ .sleepSched n k' := by
  induction k with
  | acquire k ih | release k ih | yieldSched k ih | sleepSched _ k ih => exact ih
  | _ => simp [core]

theorem creating_of_uncounted {k : Ctl} {np : Slot} (h : k.uncounted = some np) :
    k.creating = some np := by
  rw [← creating_core]
  unfold uncounted at h
  cases hk : k.core <;> rw [hk] at h <;> first | exact h | exact absurd h (by simp)

end Ctl

/-- `q` is a kernel thread of `m`. -/
def ThreadOf (t : Table) (q m : Slot) : Prop :=
  (t.proc q).is_thread = true ∧ (t.proc q).parent = some m

/-- The process whose threads `p` makes and joins. -/
def process (t : Table) (p : Slot) : Option Slot :=
  if (t.proc p).is_thread then (t.proc p).parent else some p

variable {t t' : Table} {p q m : Slot} {k : Ctl} {n : Next}

/-! ## One step -/

/-- What a step from `k` to `k'` of the thread of `p` does to the kinship of `q`. -/
inductive Kin (t t' : Table) (p : Slot) (k k' : Ctl) (q : Slot) : Prop
  | same : (t'.proc q).parent = (t.proc q).parent →
      (t'.proc q).is_thread = (t.proc q).is_thread → (t'.proc q).tid = (t.proc q).tid →
      Kin t t' p k k' q
  | fresh (thread : Bool) : k = .newborn thread q →
      (t'.proc q).parent = (t.proc q).parent → (t'.proc q).is_thread = false →
      (t'.proc q).tid = 0 → Kin t t' p k k' q
  | forked (d : Nat) : k = .forkCopy q d → (t'.proc q).parent = some p →
      (t'.proc q).is_thread = (t.proc q).is_thread → (t'.proc q).tid = (t.proc q).tid →
      Kin t t' p k k' q
  | linked (owner : Option Slot) : k = .storeParent q owner → k' = .tidParent q →
      (t'.proc q).parent = owner → (t'.proc q).is_thread = true →
      (t'.proc q).tid = (t.proc q).tid → Kin t t' p k k' q
  | named (owner : Slot) (v : Nat) : k = .storeTid q owner v → (t'.proc q).tid = v →
      (t'.proc q).parent = (t.proc q).parent →
      (t'.proc q).is_thread = (t.proc q).is_thread → k' = .countParent q →
      Kin t t' p k k' q
  | passed : k = .exitSched → (t.proc q).parent = some p →
      (t'.proc q).parent = some initproc → (t'.proc q).is_thread = (t.proc q).is_thread →
      (t'.proc q).tid = (t.proc q).tid → Kin t t' p k k' q
  | reaped : Reaps t p k q → (t'.proc q).state = .unused → (t'.proc q).parent = none →
      (t'.proc q).is_thread = (t.proc q).is_thread → (t'.proc q).tid = (t.proc q).tid →
      Kin t t' p k k' q

/-- What `Kin` looks at. -/
def Proc.kin (r : Proc) : Option Slot × Bool × Nat := (r.parent, r.is_thread, r.tid)

theorem Kin.of_eq {k' : Ctl} (h : (t'.proc q).kin = (t.proc q).kin) : Kin t t' p k k' q := by
  obtain ⟨hparent, hrest⟩ := Prod.mk.inj h
  obtain ⟨hthread, htid⟩ := Prod.mk.inj hrest
  exact .same hparent hthread htid

/-- The fields `allocproc` leaves alone when it takes a slot. -/
theorem takeSlot_keeps {α : Type} {np : Slot} (g : Proc → α)
    (hg : ∀ r st v, g { r with state := st, pid := v } = g r) :
    g ((takeSlot t np).proc q) = g (t.proc q) :=
  Table.set_keeps g fun r => hg r _ _

/-- The fields the rest of `allocproc` leaves alone. -/
theorem initSlot_keeps {α : Type} {np : Slot} (g : Proc → α)
    (hg : ∀ r i, g { r with
      kstack := i, ctl := .release .user, is_thread := false, tid := 0, next_tid := 1,
      thread_exit_value := 0, thread_count := 0 } = g r) :
    g ((initSlot t np).proc q) = g (t.proc q) :=
  Table.set_keeps g fun r => hg r _

/-- The fields `kthread_exit` leaves alone when it becomes a zombie. -/
theorem threadZombie_keeps {α : Type} {v : Int} (g : Proc → α)
    (hg : ∀ r st, g { r with state := st } = g r) :
    g ((threadZombie t p v).proc q) = g (t.proc q) :=
  Table.set_keeps g fun r => hg r _

/-- The fields `wakeup1` leaves alone. -/
theorem wakeup1_keeps {α : Type} (g : Proc → α) (chan : Chan)
    (hg : ∀ r, g { r with state := .runnable } = g r) :
    g ((t.wakeup1 chan).proc q) = g (t.proc q) := by
  simp only [Table.wakeup1]
  split
  · exact hg _
  · rfl

/-- The fields `exit` leaves alone in every slot. -/
theorem exitBody_keeps {α : Type} (g : Proc → α)
    (hstate : ∀ r st, g { r with state := st } = g r)
    (hparent : ∀ r m, g { r with parent := m } = g r) :
    g ((t.exitBody p).proc q) = g (t.proc q) := by
  have hwake : ∀ (t : Table) chan, g ((t.wakeup1 chan).proc q) = g (t.proc q) :=
    fun t chan => wakeup1_keeps g chan fun r => hstate r _
  have hpass : ∀ t : Table, g ((t.reparent p).proc q) = g (t.proc q) := by
    intro t
    simp only [Table.reparent]
    split
    · exact hparent _ _
    · rfl
  unfold Table.exitBody
  refine (Table.set_keeps g fun r => hstate r _).trans ?_
  have hfirst : ∀ t : Table, g ((if t.leavesZombie p then
      (t.reparent p).wakeup1 (.proc initproc) else t.reparent p).proc q) = g (t.proc q) := by
    intro t
    split
    · exact (hwake _ _).trans (hpass t)
    · exact hpass t
  refine (hfirst _).trans ?_
  split
  · rfl
  · exact hwake t _

/-- `exit` passes its children to init and changes no other parent. -/
theorem exitBody_parent : ((t.exitBody p).proc q).parent =
    if (t.proc q).parent = some p then some initproc else (t.proc q).parent := by
  have hwake : ∀ (t : Table) chan, ((t.wakeup1 chan).proc q).parent = (t.proc q).parent :=
    fun t chan => wakeup1_keeps Proc.parent chan fun _ => rfl
  have hpass : ∀ t : Table, ((if t.leavesZombie p then
      (t.reparent p).wakeup1 (.proc initproc) else t.reparent p).proc q).parent =
      if (t.proc q).parent = some p then some initproc else (t.proc q).parent := by
    intro t
    have hone : ((t.reparent p).proc q).parent =
        if (t.proc q).parent = some p then some initproc else (t.proc q).parent := by
      simp only [Table.reparent]
      split <;> rfl
    split
    · rw [hwake, hone]
    · exact hone
  have hlast : ∀ t : Table, ((t.set p fun r => { r with state := .zombie }).proc q).parent =
      (t.proc q).parent := fun t => Table.set_keeps Proc.parent fun _ => rfl
  unfold Table.exitBody
  refine (hlast _).trans ((hpass _).trans ?_)
  cases (t.proc p).parent with
  | none => rfl
  | some m => simp only [hwake]

/-- `exit` changes slots only. -/
theorem exitBody_rest : t.exitBody p = { t with proc := (t.exitBody p).proc } := by
  cases hparent : (t.proc p).parent with
  | none =>
      simp only [Table.exitBody, hparent]
      split <;> rfl
  | some m =>
      simp only [Table.exitBody, hparent]
      split <;> rfl

/-- The fields a join leaves alone. -/
theorem takeThread_keeps {α : Type} {owner q' : Slot} {v : Nat} (g : Proc → α)
    (hcount : ∀ r v, g { r with thread_count := v } = g r)
    (hreset : ∀ r, g { r with
      kstack := none, pid := -1, parent := none, sz := 0, killed := false, state := .unused } =
        g r) :
    g ((takeThread t owner q' v).proc q) = g (t.proc q) :=
  (Table.set_keeps g hreset).trans (Table.set_keeps g fun r => hcount r _)

/-- The fields `wait` leaves alone. -/
theorem waitReset_keeps {α : Type} {q' : Slot} {d : Nat} (g : Proc → α)
    (hreset : ∀ r, g { r with
      kstack := none, pid := 0, parent := none, killed := false, state := .unused } = g r) :
    g (((t.free d).waitReset q').proc q) = g (t.proc q) :=
  Table.set_keeps g hreset

/-- Another slot's exit value changes only in `allocproc`. -/
theorem body_value (h : BodyStep t p k t' n) (hq : q ≠ p) :
    (∃ thread, k = .newborn thread q) ∨
      (t'.proc q).thread_exit_value = (t.proc q).thread_exit_value := by
  cases h with
  | alloc => exact Or.inr (takeSlot_keeps Proc.thread_exit_value fun _ _ _ => rfl)
  | newborn thread np =>
      by_cases hnp : q = np
      · exact Or.inl ⟨thread, by rw [hnp]⟩
      · exact Or.inr (by simp [initSlot, Table.set_of_ne hnp])
  | forkCopy => exact Or.inr (copyImage_keeps Proc.thread_exit_value fun _ _ _ _ => rfl)
  | storeTid =>
      exact Or.inr (takeTid_keeps Proc.thread_exit_value (fun _ _ => rfl) fun _ _ => rfl)
  | joinTake =>
      exact Or.inr (takeThread_keeps Proc.thread_exit_value (fun _ _ => rfl) fun _ => rfl)
  | threadExit1 v => exact Or.inr (by rw [Table.set_of_ne hq])
  | threadExit2 v => exact Or.inr (threadZombie_keeps Proc.thread_exit_value fun _ _ => rfl)
  | exitSched =>
      exact Or.inr (exitBody_keeps Proc.thread_exit_value (fun _ _ => rfl) fun _ _ => rfl)
  | waitTake => exact Or.inr (waitReset_keeps Proc.thread_exit_value fun _ => rfl)
  | execCommit => exact Or.inr (commitImage_keeps Proc.thread_exit_value fun _ _ _ => rfl)
  | _ =>
      first
        | exact Or.inr rfl
        | exact Or.inr (Table.set_keeps Proc.thread_exit_value fun _ => rfl)

theorem body_kin (h : BodyStep t p k t' n) (q : Slot) : Kin t t' p k n.ctl q := by
  cases h with
  | alloc thread np hfree => exact .of_eq (takeSlot_keeps Proc.kin fun _ _ _ => rfl)
  | newborn thread np =>
      by_cases hnp : q = np
      · subst hnp
        exact .fresh thread rfl (by simp [initSlot]) (by simp [initSlot]) (by simp [initSlot])
      · exact .of_eq (by simp [initSlot, Table.set_of_ne hnp])
  | forkCopy np d =>
      by_cases hnp : q = np
      · subst hnp
        exact .forked d rfl (by simp [copyImage]) (by simp [copyImage, Table.setPages])
          (by simp [copyImage, Table.setPages])
      · refine .of_eq ?_
        rw [copyImage, Table.set_of_ne hnp]
        rfl
  | storeParent np owner =>
      by_cases hnp : q = np
      · subst hnp
        exact .linked owner rfl rfl (by simp [linkThread]) (by simp [linkThread])
          (by simp [linkThread])
      · exact .of_eq (by rw [linkThread, Table.set_of_ne hnp])
  | storeTid np owner v =>
      have hparent : ((takeTid t np owner v).proc q).parent = (t.proc q).parent :=
        takeTid_keeps Proc.parent (fun _ _ => rfl) fun _ _ => rfl
      have hthread : ((takeTid t np owner v).proc q).is_thread = (t.proc q).is_thread :=
        takeTid_keeps Proc.is_thread (fun _ _ => rfl) fun _ _ => rfl
      by_cases hnp : q = np
      · subst hnp
        exact .named owner v rfl (by simp [takeTid]) hparent hthread rfl
      · refine .same hparent hthread ?_
        rw [takeTid, Table.set_of_ne hnp]
        exact Table.set_keeps Proc.tid fun _ => by simp only
  | execCommit d sz => exact .of_eq (commitImage_keeps Proc.kin fun _ _ _ => rfl)
  | joinTake owner tid q' v =>
      have hstore : ∀ {α : Type} (g : Proc → α),
          (∀ r : Proc, ∀ v, g { r with thread_count := v } = g r) →
          ∀ t : Table, g ((t.set owner fun r =>
            { r with thread_count := ushort (v + 2 ^ 16 - 1) }).proc q) = g (t.proc q) :=
        fun g hg t => Table.set_keeps g fun r => hg r _
      by_cases hq' : q = q'
      · subst hq'
        refine .reaped (Or.inl ⟨_, _, _, rfl⟩) ?_ ?_ ?_ ?_
        · rw [takeThread, Table.joinReset, Table.set_self]
        · rw [takeThread, Table.joinReset, Table.set_self]
        · rw [takeThread, Table.joinReset, Table.set_self]
          exact hstore Proc.is_thread (fun _ _ => rfl) _
        · rw [takeThread, Table.joinReset, Table.set_self]
          exact hstore Proc.tid (fun _ _ => rfl) _
      · refine .of_eq ?_
        rw [takeThread, Table.joinReset, Table.set_of_ne hq']
        exact hstore Proc.kin (fun _ _ => by simp only [Proc.kin]) _
  | exitSched =>
      have hthread : ((t.exitBody p).proc q).is_thread = (t.proc q).is_thread :=
        exitBody_keeps Proc.is_thread (fun _ _ => rfl) fun _ _ => rfl
      have htid : ((t.exitBody p).proc q).tid = (t.proc q).tid :=
        exitBody_keeps Proc.tid (fun _ _ => rfl) fun _ _ => rfl
      have hparent := exitBody_parent (t := t) (p := p) (q := q)
      by_cases hchild : (t.proc q).parent = some p
      · rw [if_pos hchild] at hparent
        exact .passed rfl hchild hparent hthread htid
      · rw [if_neg hchild] at hparent
        exact .same hparent hthread htid
  | waitTake q' kids hparent hzombie =>
      by_cases hq' : q = q'
      · subst hq'
        refine .reaped (Or.inr ⟨kids, rfl, hparent, hzombie⟩) ?_ ?_ ?_ ?_ <;>
          rw [Table.waitReset, Table.set_self] <;> rfl
      · refine .of_eq ?_
        rw [Table.waitReset, Table.set_of_ne hq']
        rfl
  | threadExit2 v => exact .of_eq (threadZombie_keeps Proc.kin fun _ _ => rfl)
  | storeCount np owner v =>
      exact .of_eq (Table.set_keeps Proc.kin fun _ => by simp only [Proc.kin])
  | _ => first | exact .same rfl rfl rfl | exact .of_eq (Table.set_keeps Proc.kin fun _ => rfl)

/-- From user mode a thread makes a system call or is interrupted. -/
theorem body_call {pick : Pick} {j : Ctl} (h : body t p .user pick = some (t', .go j)) :
    (∃ sc, pick = .call sc ∧ start t p sc = some j) ∨ j = .acquire (.yieldSched .user) ∨
      ∃ m, j = .acquire (.sleepSched m .user) := by
  have hnone : (none : Option (Table × Next)) ≠ some (t', .go j) := by simp
  have hswitch : ∀ (b : Prop) [Decidable b] (k : Ctl),
      (if b then some (t, Next.go k) else none) = some (t', .go j) → j = k := by
    intro b _ k heq
    split at heq
    · exact congrArg (fun r => r.2.ctl) (Option.some.inj heq).symm
    · exact absurd heq hnone
  cases pick with
  | preempt => exact Or.inr (Or.inl (hswitch _ _ h))
  | block m => exact Or.inr (Or.inr ⟨m, hswitch _ _ h⟩)
  | call sc =>
      obtain ⟨k, hk, heq⟩ := Option.map_eq_some_iff.mp h
      have hgo : k = j := congrArg (fun r => r.2.ctl) heq
      exact Or.inl ⟨sc, rfl, hgo ▸ hk⟩
  | next => exact absurd h hnone
  | slot np => cases np <;> exact absurd h hnone
  | page d => cases d <;> exact absurd h hnone
  | done success => cases success <;> exact absurd h hnone
  | image sz => exact absurd h hnone

end Kthreads
end CS444
