/-
The counters of a process that its threads change without a lock.

`kthread_create` loads and stores `next_tid` and `thread_count` of the process,
and `kthread_join` loads and stores `thread_count`, each in two steps.  `Apart`
says that a thread loads a counter only while no other thread of the process is
between its load and its store of it; in the runs that meet it, `Held` says that
a thread stores over the value it loaded.
-/
import CS444.Lib.Windows
import CS444.Kthreads.Family

namespace CS444
namespace Kthreads

open Runs Windows

variable {C : Type} {s s' : Kernel C} {c : C} {a : Act} {t t' : Table} {p q m np : Slot} {i : Nat}
  {pick : Pick} {k k' : Ctl} {n : Next}

/-! ## Loads and stores -/

/-- A counter in `struct proc`, the control points at which a thread is about to
load it, and those at which it has the value of some process and has not stored
it yet. -/
structure Counter where
  get : Proc → Nat
  loads : Ctl → Option Slot
  held : Ctl → Option (Slot × Nat)
  get_sched : ∀ r st k, get { r with state := st, ctl := k } = get r
  held_core : ∀ k, held k.core = held k
  held_user : held (.release .user) = none

/-- `thread_count` -/
def threadCount : Counter where
  get := Proc.thread_count
  loads
    | .loadCount _ owner | .joinLoad (some owner) _ _ => some owner
    | _ => none
  held k :=
    match k.core with
    | .storeCount _ owner v | .joinTake owner _ _ v => some (owner, v)
    | _ => none
  get_sched _ _ _ := rfl
  held_core k := by rw [Ctl.core_core]
  held_user := rfl

/-- `next_tid` -/
def nextTid : Counter where
  get := Proc.next_tid
  loads
    | .loadTid _ owner => some owner
    | _ => none
  held k :=
    match k.core with
    | .storeTid _ owner v => some (owner, v)
    | _ => none
  get_sched _ _ _ := rfl
  held_core k := by rw [Ctl.core_core]
  held_user := rfl

/-- What a slot's thread has loaded and not stored. -/
def Counter.holds (f : Counter) (t : Table) (p : Slot) : Option (Slot × Nat) :=
  if (t.proc p).Active then f.held (t.proc p).ctl else none

/-- The step loads the counter of a process only while no thread is between its
load and its store of that counter. -/
def Counter.Apart (f : Counter) (s : Kernel C) (l : C × Act) : Prop :=
  ∀ p i, s.cpu l.1 = some (p, i) → l.2 = .run .next →
    ∀ owner, f.loads (s.table.proc p).ctl = some owner →
      ∀ q, (f.holds s.table q).map Prod.fst ≠ some owner

instance (f : Counter) (s : Kernel C) (l : C × Act) : Decidable (f.Apart s l) :=
  inferInstanceAs (Decidable (∀ _ _, _ → _))

/-- Every thread is going to store over the value it loaded. -/
def Counter.Held (f : Counter) (t : Table) : Prop := UpToDate (f.holds t) fun m => f.get (t.proc m)

/-- What a step from `k` to `k'` does to a counter. -/
inductive Access (f : Counter) (t t' : Table) (pick : Pick) (k k' : Ctl) : Prop
  | kept : f.held k' = none ∨ f.held k' = f.held k →
      (∀ m, f.get (t'.proc m) = f.get (t.proc m) ∨ k.creating = some m) → Access f t t' pick k k'
  | loaded (owner : Slot) : pick = .next → f.loads k = some owner →
      f.held k' = some (owner, f.get (t.proc owner)) →
      (∀ m, f.get (t'.proc m) = f.get (t.proc m)) → Access f t t' pick k k'
  | stored (owner : Slot) (v : Nat) : f.held k = some (owner, v) → f.held k' = none →
      (∀ m, m ≠ owner → f.get (t'.proc m) = f.get (t.proc m)) → Access f t t' pick k k'

/-- Where a thread loads or stores a counter it takes the next step or is
interrupted. -/
theorem body_next (h : body t p k pick = some (t', n))
    (hk : (∃ np owner, k = .loadTid np owner) ∨ (∃ np owner v, k = .storeTid np owner v) ∨
      (∃ np owner, k = .loadCount np owner) ∨ (∃ np owner v, k = .storeCount np owner v) ∨
      ∃ owner tid q, k = .joinLoad (some owner) tid q) :
    pick = .next ∨ n.ctl = .acquire (.yieldSched k) ∨ ∃ m, n.ctl = .acquire (.sleepSched m k) := by
  have hnone : (none : Option (Table × Next)) ≠ some (t', n) := by simp
  have hswitch : ∀ (b : Prop) [Decidable b] (k : Ctl),
      (if b then some (t, Next.go k) else none) = some (t', n) → n.ctl = k := by
    intro b _ k heq
    split at heq
    · exact congrArg (fun r => r.2.ctl) (Option.some.inj heq).symm
    · exact absurd heq hnone
  rcases hk with ⟨np, owner, rfl⟩ | ⟨np, owner, v, rfl⟩ | ⟨np, owner, rfl⟩ | ⟨np, owner, v, rfl⟩ |
    ⟨owner, tid, q, rfl⟩
  all_goals
    cases pick with
    | next => exact Or.inl rfl
    | preempt => exact Or.inr (Or.inl (hswitch _ _ h))
    | block m => exact Or.inr (Or.inr ⟨m, hswitch _ _ h⟩)
    | call sc => exact absurd h hnone
    | slot np => cases np <;> exact absurd h hnone
    | page d => cases d <;> exact absurd h hnone
    | done success => cases success <;> exact absurd h hnone
    | image sz => exact absurd h hnone

/-- A step that goes on by itself from where a counter is loaded or stored. -/
theorem body_next_of_go (h : body t p k pick = some (t', n))
    (hk : (∃ np owner, k = .loadTid np owner) ∨ (∃ np owner v, k = .storeTid np owner v) ∨
      (∃ np owner, k = .loadCount np owner) ∨ (∃ np owner v, k = .storeCount np owner v) ∨
      ∃ owner tid q, k = .joinLoad (some owner) tid q)
    (hgo : n.ctl.core ≠ k) : pick = .next := by
  have hcore : k.core = k := by
    rcases hk with ⟨np, owner, rfl⟩ | ⟨np, owner, v, rfl⟩ | ⟨np, owner, rfl⟩ |
      ⟨np, owner, v, rfl⟩ | ⟨owner, tid, q, rfl⟩ <;> rfl
  rcases body_next h hk with hnext | hgo' | ⟨m, hgo'⟩
  · exact hnext
  · exact absurd (by rw [hgo']; exact hcore) hgo
  · exact absurd (by rw [hgo']; exact hcore) hgo

theorem start_held {sc : Syscall} (h : start t p sc = some k) :
    threadCount.held k = none ∧ nextTid.held k = none := by
  unfold start at h
  dsimp only at h
  repeat' split at h
  all_goals cases h <;> exact ⟨rfl, rfl⟩

theorem body_thread_count (h : body t p k pick = some (t', n)) :
    Access threadCount t t' pick k n.ctl := by
  have hnext := body_next_of_go h
  have hbody := body_step h
  have hset : ∀ (u : Table) (q : Slot) (f : Proc → Proc),
      (∀ r, (f r).thread_count = r.thread_count) →
      ∀ m, ((u.set q f).proc m).thread_count = (u.proc m).thread_count ∨ k.creating = some m :=
    fun u q f hf m => Or.inl (Table.set_keeps Proc.thread_count hf)
  cases hbody with
  | preempt | block => exact .kept (Or.inr rfl) fun _ => Or.inl rfl
  | yieldSched | sleepSched => exact .kept (Or.inr rfl) (hset _ _ _ fun _ => rfl)
  | call sc k hstart => exact .kept (Or.inl (start_held hstart).1) fun _ => Or.inl rfl
  | alloc =>
      exact .kept (Or.inl rfl) fun _ => Or.inl (takeSlot_keeps Proc.thread_count fun _ _ _ => rfl)
  | newborn thread np =>
      refine .kept (Or.inl (by cases thread <;> rfl)) fun m => ?_
      by_cases hm : m = np
      · exact Or.inr (congrArg some hm.symm)
      · exact Or.inl (by simp [threadCount, initSlot, Table.set_of_ne hm])
  | forkCopy =>
      exact .kept (Or.inl rfl) fun _ =>
        Or.inl (copyImage_keeps Proc.thread_count fun _ _ _ _ => rfl)
  | storeTid =>
      exact .kept (Or.inl rfl) fun _ =>
        Or.inl (takeTid_keeps Proc.thread_count (fun _ _ => rfl) fun _ _ => rfl)
  | loadCount np owner =>
      refine .loaded owner (hnext ?_ (by simp [Next.ctl, Ctl.core])) rfl rfl fun _ => rfl
      exact Or.inr (Or.inr (Or.inl ⟨np, owner, rfl⟩))
  | joinLoad owner tid q =>
      refine .loaded owner (hnext ?_ (by simp [Next.ctl, Ctl.core])) rfl rfl fun _ => rfl
      exact Or.inr (Or.inr (Or.inr (Or.inr ⟨owner, tid, q, rfl⟩)))
  | storeCount np owner v =>
      refine .stored owner v rfl rfl fun m hm => ?_
      exact congrArg Proc.thread_count (Table.set_of_ne hm)
  | joinTake owner tid q v =>
      refine .stored owner v rfl rfl fun m hm => ?_
      have hreset : ∀ u : Table, ((u.joinReset q).proc m).thread_count = (u.proc m).thread_count :=
        fun u => Table.set_keeps Proc.thread_count fun _ => rfl
      refine (hreset _).trans ?_
      rw [Table.set_of_ne hm]
      rfl
  | threadExit2 =>
      exact .kept (Or.inl rfl) fun _ =>
        Or.inl (threadZombie_keeps Proc.thread_count fun _ _ => rfl)
  | exitSched =>
      exact .kept (Or.inl rfl) fun _ =>
        Or.inl (exitBody_keeps Proc.thread_count (fun _ _ => rfl) fun _ _ => rfl)
  | waitTake =>
      exact .kept (Or.inl rfl) fun _ => Or.inl (waitReset_keeps Proc.thread_count fun _ => rfl)
  | execCommit =>
      exact .kept (Or.inl rfl) fun _ =>
        Or.inl (commitImage_keeps Proc.thread_count fun _ _ _ => rfl)
  | growFailed | growFreed => exact .kept (Or.inl rfl) fun _ => Or.inl rfl
  | _ =>
      first
        | exact .kept (Or.inl rfl) fun _ => Or.inl rfl
        | exact .kept (Or.inl rfl) (hset _ _ _ fun _ => rfl)

theorem takeTid_next {owner : Slot} {v : Nat} : ((takeTid t np owner v).proc q).next_tid =
    if q = owner then ushort (v + 1) else (t.proc q).next_tid := by
  have hset : ∀ u : Table, ((u.set np fun r => { r with tid := v }).proc q).next_tid =
      (u.proc q).next_tid := fun u => Table.set_keeps Proc.next_tid fun _ => rfl
  rw [takeTid, hset, Table.set_apply]
  split <;> rfl

theorem body_next_tid (h : body t p k pick = some (t', n)) :
    Access nextTid t t' pick k n.ctl := by
  have hnext := body_next_of_go h
  have hbody := body_step h
  have hset : ∀ (u : Table) (q : Slot) (f : Proc → Proc), (∀ r, (f r).next_tid = r.next_tid) →
      ∀ m, ((u.set q f).proc m).next_tid = (u.proc m).next_tid ∨ k.creating = some m :=
    fun u q f hf m => Or.inl (Table.set_keeps Proc.next_tid hf)
  cases hbody with
  | preempt | block => exact .kept (Or.inr rfl) fun _ => Or.inl rfl
  | yieldSched | sleepSched => exact .kept (Or.inr rfl) (hset _ _ _ fun _ => rfl)
  | call sc k hstart => exact .kept (Or.inl (start_held hstart).2) fun _ => Or.inl rfl
  | alloc =>
      exact .kept (Or.inl rfl) fun _ => Or.inl (takeSlot_keeps Proc.next_tid fun _ _ _ => rfl)
  | newborn thread np =>
      refine .kept (Or.inl (by cases thread <;> rfl)) fun m => ?_
      by_cases hm : m = np
      · exact Or.inr (congrArg some hm.symm)
      · exact Or.inl (by simp [nextTid, initSlot, Table.set_of_ne hm])
  | forkCopy =>
      exact .kept (Or.inl rfl) fun _ => Or.inl (copyImage_keeps Proc.next_tid fun _ _ _ _ => rfl)
  | loadTid np owner =>
      refine .loaded owner (hnext ?_ (by simp [Next.ctl, Ctl.core])) rfl rfl fun _ => rfl
      exact Or.inl ⟨np, owner, rfl⟩
  | storeTid np owner v =>
      refine .stored owner v rfl rfl fun m hm => ?_
      exact takeTid_next.trans (if_neg hm)
  | joinTake =>
      exact .kept (Or.inl rfl) fun _ =>
        Or.inl (takeThread_keeps Proc.next_tid (fun _ _ => rfl) fun _ => rfl)
  | threadExit2 =>
      exact .kept (Or.inl rfl) fun _ => Or.inl (threadZombie_keeps Proc.next_tid fun _ _ => rfl)
  | exitSched =>
      exact .kept (Or.inl rfl) fun _ =>
        Or.inl (exitBody_keeps Proc.next_tid (fun _ _ => rfl) fun _ _ => rfl)
  | waitTake =>
      exact .kept (Or.inl rfl) fun _ => Or.inl (waitReset_keeps Proc.next_tid fun _ => rfl)
  | execCommit =>
      exact .kept (Or.inl rfl) fun _ => Or.inl (commitImage_keeps Proc.next_tid fun _ _ _ => rfl)
  | growFailed | growFreed => exact .kept (Or.inl rfl) fun _ => Or.inl rfl
  | _ =>
      first
        | exact .kept (Or.inl rfl) fun _ => Or.inl rfl
        | exact .kept (Or.inl rfl) (hset _ _ _ fun _ => rfl)

/-! ## The invariant -/

variable {f : Counter}

theorem Counter.holds_eq_some {x : Slot × Nat} :
    f.holds t p = some x ↔ (t.proc p).Active ∧ f.held (t.proc p).ctl = some x := by
  unfold Counter.holds
  split
  · rename_i hact
    exact ⟨fun h => ⟨hact, h⟩, fun h => h.2⟩
  · rename_i hact
    exact ⟨fun h => absurd h (by simp), fun h => absurd h.1 hact⟩

theorem Counter.Held.alike (hheld : f.Held t) (h : Alike t t') : f.Held t' := by
  refine hheld.congr (fun p => ?_) (h.keeps f.get f.get_sched)
  unfold Counter.holds
  by_cases hact : (t.proc p).Active
  · rw [if_pos hact, if_pos ((h.active p).mpr hact), ← f.held_core, h.core p hact, f.held_core]
  · rw [if_neg hact, if_neg fun hact' => hact ((h.active p).mp hact')]

/-- A process whose counter is held is not under construction. -/
def Counter.Hosted (f : Counter) (t : Table) : Prop :=
  ∀ p owner v, (t.proc p).Active → f.held (t.proc p).ctl = some (owner, v) → (t.proc owner).Active

theorem Takes.held (h : Takes s c p i pick t n) (hheld : f.Held s.table)
    (hhost : f.Hosted s.table)
    (haccess : Access f s.table t pick (s.table.proc p).ctl n.ctl)
    (hok : f.Apart s (c, .run pick)) : f.Held (t.goto p n.ctl) := by
  have hget : ∀ m, f.get ((t.goto p n.ctl).proc m) = f.get (t.proc m) := fun m =>
    goto_keeps f.get fun r k => f.get_sched r r.state k
  have hself : f.holds (t.goto p n.ctl) p = none ∨
      f.holds (t.goto p n.ctl) p = f.held n.ctl := by
    unfold Counter.holds
    rw [goto_ctl_self]
    split
    · exact Or.inr rfl
    · exact Or.inl rfl
  have hmine : f.holds s.table p = f.held (s.table.proc p).ctl := if_pos h.active
  have hothers : ∀ q, q ≠ p → f.holds (t.goto p n.ctl) q = none ∨
      f.holds (t.goto p n.ctl) q = f.holds s.table q := by
    intro q hq
    unfold Counter.holds
    rw [goto_of_ne hq]
    by_cases hact : (t.proc q).Active
    · rw [if_pos hact]
      rcases h.was_active hq hact with ⟨hold, hctl⟩ | ⟨hctl, -⟩
      · exact Or.inr (by rw [if_pos hold, hctl])
      · exact Or.inl (by rw [hctl, f.held_user])
    · exact Or.inl (if_neg hact)
  have hactive : ∀ q x v, f.holds s.table q = some (x, v) →
      (s.table.proc p).ctl.creating ≠ some x := by
    intro q x v hq hk
    obtain ⟨hact, hq⟩ := Counter.holds_eq_some.mp hq
    exact absurd rfl ((hhost q x v hact hq).not (h.embryo hk)).2.1
  cases haccess with
  | kept hk hsame =>
      have hold : f.holds (t.goto p n.ctl) p = none ∨
          f.holds (t.goto p n.ctl) p = f.holds s.table p := by
        rcases hself with hnone | hnew
        · exact Or.inl hnone
        · rw [hnew, hmine]
          exact hk
      refine hheld.step (p := p) hothers (hold.imp_right Or.inl) fun q x v hq => Or.inl ?_
      have hbefore : f.holds s.table q = some (x, v) := by
        by_cases hqp : q = p
        · subst hqp
          rcases hold with hnone | hsame
          · exact absurd (hnone.symm.trans hq) (by simp)
          · exact hsame.symm.trans hq
        · rcases hothers q hqp with hnone | hsame
          · exact absurd (hnone.symm.trans hq) (by simp)
          · exact hsame.symm.trans hq
      exact (hget x).trans ((hsame x).resolve_right (hactive q x v hbefore))
  | loaded owner hnext hload hk hsame =>
      have hfree : ∀ q v, f.holds s.table q ≠ some (owner, v) := by
        intro q v hq
        exact hok p i h.cpu (by rw [hnext]) owner hload q (by rw [hq]; rfl)
      refine hheld.step (p := p) hothers ?_ fun q x v _ => Or.inl ((hget x).trans (hsame x))
      rcases hself with hnone | hnew
      · exact Or.inl hnone
      · exact Or.inr (Or.inr ⟨owner, hnew.trans hk, hfree⟩)
  | stored owner v hk hdone hsame =>
      have hnone : f.holds (t.goto p n.ctl) p = none := by
        rcases hself with hnone | hnew
        · exact hnone
        · exact hnew.trans hdone
      refine hheld.step (p := p) hothers (Or.inl hnone) fun q x w _ => ?_
      by_cases hx : x = owner
      · exact Or.inr ⟨hnone, v, hx ▸ hmine.trans hk⟩
      · exact Or.inl ((hget x).trans (hsame x hx))

/-- The counters that are held are those of processes with threads. -/
theorem Family.hosted (hfam : Family t) : threadCount.Hosted t ∧ nextTid.Hosted t := by
  constructor
  all_goals
    intro p owner v hp hk
    have hstage := hfam.stage p hp
    rw [← stage_congr (Ctl.core_core _) (fun _ => rfl) fun _ => rfl] at hstage
    simp only [threadCount, nextTid] at hk
    generalize (t.proc p).ctl.core = k at hk hstage
  · cases k with
    | storeCount np owner' v' =>
        obtain ⟨rfl, rfl⟩ := Prod.mk.inj (Option.some.inj hk)
        have hlinked : _ ∧ _ := hstage
        exact (hfam.host np _ hlinked.1).1
    | joinTake owner' tid q v' =>
        obtain ⟨rfl, rfl⟩ := Prod.mk.inj (Option.some.inj hk)
        obtain ⟨-, -, -, m, hm, hthread⟩ := hstage
        obtain rfl := Option.some.inj hm
        exact (hfam.host q _ hthread).1
    | _ => exact absurd hk (by simp)
  · cases k with
    | storeTid np owner' v' =>
        obtain ⟨rfl, rfl⟩ := Prod.mk.inj (Option.some.inj hk)
        have hlinked : _ ∧ _ := hstage
        exact (hfam.host np _ hlinked.1.1).1
    | _ => exact absurd hk (by simp)

theorem boot_held (h : Boot s) : f.Held s.table := by
  refine UpToDate.of_none fun p => ?_
  unfold Counter.holds
  by_cases hp : p = initproc
  · rw [hp, h.init]
    exact f.held_user
  · rw [h.unused p hp, if_neg (by simp [Proc.Active])]

variable [DecidableEq C]

theorem threadCount_step (hinv : Running s) (hfam : Family s.table)
    (hheld : threadCount.Held s.table) (hstep : CpuStep s c a s')
    (hok : threadCount.Apart s (c, a)) : threadCount.Held s'.table := by
  rcases hinv.split hstep with halike | ⟨p, i, pick, t, n, rfl, htakes, ht⟩
  · exact hheld.alike halike
  · rw [ht]
    exact htakes.held hheld hfam.hosted.1 (body_thread_count htakes.step) hok

theorem nextTid_step (hinv : Running s) (hfam : Family s.table) (hheld : nextTid.Held s.table)
    (hstep : CpuStep s c a s') (hok : nextTid.Apart s (c, a)) : nextTid.Held s'.table := by
  rcases hinv.split hstep with halike | ⟨p, i, pick, t, n, rfl, htakes, ht⟩
  · exact hheld.alike halike
  · rw [ht]
    exact htakes.held hheld hfam.hosted.2 (body_next_tid htakes.step) hok

end Kthreads
end CS444
