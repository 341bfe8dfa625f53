/-
Runs of the calls on files and threads.

Between calls every count is exact, and a slot that runs no code has neither
open files nor a directory: `exit` and `kthread_exit` empty a slot before it
becomes a zombie, and nothing gives it anything until a caller has copied its
own descriptors there and made it live again.
-/
import CS444.Fs.Conservation
import CS444.Fs.ThreadCounts
import CS444.Lib.Runs

namespace CS444
namespace Fs

open Program Ledger Runs

/-- The slot holds no file and no directory. -/
structure Emptied (r : Proc) : Prop where
  ofile : ∀ fd, r.ofile fd = none
  cwd : r.cwd = none

/-! ## The counts as numbers of holders -/

theorem holdings_eq_card {κ ι α : Type} [Fintype κ] [DecidableEq ι] {w : α → ι → Nat}
    {a : κ → α} (holds : κ → ι → Prop) [∀ j k, Decidable (holds j k)]
    (hw : ∀ j k, w (a j) k = if holds j k then 1 else 0) (k : ι) :
    holdings w a k = (Finset.univ.filter fun j => holds j k).card := by
  rw [Finset.card_filter]
  exact Finset.sum_congr rfl fun j _ => hw j k

theorem descriptors_eq_card (s : Kernel) (f : FileSlot) :
    descriptors s f = (Finset.univ.filter fun x : ProcSlot × Fin NOFILE =>
      (s.proc x.1).ofile x.2 = some f).card :=
  holdings_eq_card (fun (x : ProcSlot × Fin NOFILE) f' => (s.proc x.1).ofile x.2 = some f')
    (fun _ f' => ofOption_eq _ f') f

theorem held_eq_card (s : Kernel) (k : Slot) :
    held s k = (Finset.univ.filter fun p => (s.proc p).cwd = some k).card +
      (Finset.univ.filter fun f => (s.file f).type = .inode ∧ (s.file f).ip = some k).card := by
  have hcwd := holdings_eq_card (w := cwdOf) (a := s.proc)
    (fun p k' => (s.proc p).cwd = some k') (fun _ k' => ofOption_eq _ k') k
  have hfile := holdings_eq_card (w := inodeOf) (a := s.file)
    (fun f k' => (s.file f).type = .inode ∧ (s.file f).ip = some k') (fun f k' => ?_) k
  · rw [held, Pi.add_apply, hcwd, hfile]
  · by_cases htype : (s.file f).type = .inode
    · simp only [inodeOf_of_inode htype, ofOption_eq, htype, true_and]
    · simp [inodeOf_of_ne htype, htype]

namespace Threads

variable {m m₁ m' : Machine} {p np owner : ProcSlot} {page copy : Bool}

/-! ## Running the calls -/

/-- Write `t` over the task of `p`. -/
def withTask (m : Machine) (p : ProcSlot) (t : Task) : Machine :=
  { m with task := Function.update m.task p t }

theorem withTask_self (m : Machine) (p : ProcSlot) (t : Task) : (withTask m p t).task p = t :=
  Function.update_self ..

theorem withTask_of_ne {q : ProcSlot} (h : q ≠ p) (t : Task) :
    (withTask m p t).task q = m.task q :=
  Function.update_of_ne h ..

@[simp] theorem setTask_bind_run {α : Type} (p : ProcSlot) (g : Task → Task) (x : Unit → M α)
    (m : Machine) : (setTask p g >>= x).run m = (x ()).run (withTask m p (g (m.task p))) := rfl

@[simp] theorem taskAt_bind_run {α : Type} (p : ProcSlot) (x : Task → M α) (m : Machine) :
    (taskAt p >>= x).run m = (x (m.task p)).run m := rfl

@[simp] theorem curproc_bind_run {α : Type} (x : ProcSlot → M α) (m : Machine) :
    (curproc >>= x).run m = (x m.fs.cur).run m := rfl

theorem setTask_ok {g : Task → Task} {u : Unit} :
    (setTask p g).run m = .ok (u, m') ↔ withTask m p (g (m.task p)) = m' := Prog.modify_ok

theorem lift_ok {α : Type} {x : K α} {a : α} :
    (lift x).run m = .ok (a, m') ↔ ∃ fs, x.run m.fs = .ok (a, fs) ∧ { m with fs := fs } = m' := by
  unfold lift
  dsimp only
  cases x.run m.fs with
  | error e => simp
  | ok r =>
      obtain ⟨b, fs⟩ := r
      constructor
      · intro h
        obtain ⟨rfl, rfl⟩ := Prod.mk.inj (Except.ok.inj h)
        exact ⟨fs, rfl, rfl⟩
      · rintro ⟨fs', h, rfl⟩
        obtain ⟨rfl, rfl⟩ := Prod.mk.inj (Except.ok.inj h)
        rfl

theorem void_ok {α : Type} {x : M α} {u : Unit} :
    (void x).run m = .ok (u, m') ↔ ∃ a, x.run m = .ok (a, m') := by
  rw [void, Prog.bind_ok]
  simp only [Prog.pure_ok]
  grind

/-! ## The invariant -/

/-- The counts are exact, and what does not run holds nothing. -/
structure Linked (m : Machine) : Prop where
  settled : Settled m.fs
  emptied : ∀ p, (m.task p).state ≠ .live → Emptied (m.fs.proc p)

/-- A slot that does not run now was emptied by the step or did not run before
either. -/
theorem Linked.step (hl : Linked m) (hset : Settled m'.fs)
    (hslot : ∀ p, (m'.task p).state ≠ .live → Emptied (m'.fs.proc p) ∨
      (m.task p).state ≠ .live ∧ m'.fs.proc p = m.fs.proc p) : Linked m' := by
  refine ⟨hset, fun p hp => ?_⟩
  rcases hslot p hp with hempty | ⟨hold, hproc⟩
  · exact hempty
  · rw [hproc]
    exact hl.emptied p hold

/-- Tasks changed, and none that ran stopped. -/
theorem Linked.tasks (hl : Linked m) (hfs : m'.fs = m.fs)
    (hstate : ∀ p, (m.task p).state = .live → (m'.task p).state = .live) : Linked m' := by
  refine hl.step ?_ fun p hp => Or.inr ⟨fun hold => hp (hstate p hold), by rw [hfs]⟩
  rw [hfs]
  exact hl.settled

/-- A call of the running slot on its files. -/
theorem Linked.own (hl : Linked m) (hcur : (m.task m.fs.cur).state = .live) {fs : Kernel}
    (hset : Settled fs) (hown : OwnSlot m.fs fs) : Linked { m with fs := fs } := by
  refine hl.step hset fun p hp => Or.inr ⟨hp, hown.others p ?_⟩
  rintro rfl
  exact hp hcur

/-- The running slot gave up all it had. -/
theorem Linked.left (hl : Linked m) {fs : Kernel} {r : Unit}
    (hexit : Fs.exit.run m.fs = .ok (r, fs)) (hfs : m'.fs = fs)
    (hstate : ∀ p, p ≠ m.fs.cur → (m'.task p).state = (m.task p).state) : Linked m' := by
  obtain ⟨hset, hown, hofile, hcwd⟩ := exit_settled hl.settled hexit
  refine hl.step (by rwa [hfs]) fun p hp => ?_
  by_cases hpc : p = m.fs.cur
  · subst hpc
    refine Or.inl ?_
    rw [hfs, ← hown.cur]
    exact ⟨hofile, hcwd⟩
  · refine Or.inr ⟨?_, by rw [hfs, hown.others p hpc]⟩
    rw [← hstate p hpc]
    exact hp

/-- A free slot received the files of the running one. -/
theorem Linked.forked (hl : Linked m) (hcur : (m.task m.fs.cur).state = .live)
    (hfree : (m.task np).state = .unused) {fs : Kernel} {r : Unit}
    (hfork : (Fs.fork np).run m.fs = .ok (r, fs)) (hfs : m'.fs = fs)
    (hlive : (m'.task np).state = .live)
    (hstate : ∀ p, p ≠ np → (m'.task p).state = (m.task p).state) : Linked m' := by
  have hnp : np ≠ m.fs.cur := by
    rintro rfl
    rw [hcur] at hfree
    exact absurd hfree (by simp)
  have hempty := hl.emptied np (by simp [hfree])
  obtain ⟨hset, honly⟩ := fork_settled hl.settled hnp hempty.ofile hempty.cwd hfork
  refine hl.step (by rwa [hfs]) fun p hp => Or.inr ?_
  have hpnp : p ≠ np := by
    rintro rfl
    exact hp hlive
  rw [hstate p hpnp] at hp
  exact ⟨hp, by rw [hfs, honly.others p hpnp]⟩

/-! ## Processes and threads -/

/-- `allocproc` hands out a free slot or leaves the states alone. -/
theorem allocproc_cases {r : Option ProcSlot} (hrun : (allocproc page).run m = .ok (r, m')) :
    m'.fs = m.fs ∧
      (r = none ∧ (∀ p, (m'.task p).state = (m.task p).state) ∨
        ∃ np, r = some np ∧ (m.task np).state = .unused ∧
          ∀ p, p ≠ np → m'.task p = m.task p) := by
  rw [allocproc, Prog.get_bind_run] at hrun
  split at hrun
  · obtain ⟨rfl, rfl⟩ := Prog.pure_ok.mp hrun
    exact ⟨rfl, Or.inl ⟨rfl, fun _ => rfl⟩⟩
  · rename_i np hfind
    have hfree : (m.task np).state = .unused := by
      simpa using List.find?_some hfind
    rw [setTask_bind_run, Prog.modify_bind_run] at hrun
    split at hrun
    · rw [setTask_bind_run] at hrun
      obtain ⟨rfl, rfl⟩ := Prog.pure_ok.mp hrun
      refine ⟨rfl, Or.inr ⟨np, rfl, hfree, fun p hp => ?_⟩⟩
      rw [withTask_of_ne hp]
      exact withTask_of_ne hp _
    · rw [setTask_bind_run] at hrun
      obtain ⟨rfl, rfl⟩ := Prog.pure_ok.mp hrun
      refine ⟨rfl, Or.inl ⟨rfl, fun p => ?_⟩⟩
      by_cases hp : p = np
      · subst hp
        rw [withTask_self, hfree]
      · rw [withTask_of_ne hp]
        exact congrArg Task.state (withTask_of_ne hp _)

theorem fork_linked {r : Int} (hl : Linked m) (hcur : (m.task m.fs.cur).state = .live)
    (hrun : (Threads.fork page copy).run m = .ok (r, m')) : Linked m' := by
  rw [Threads.fork, Prog.bind_ok] at hrun
  obtain ⟨slot, m₁, halloc, hrun⟩ := hrun
  obtain ⟨hfs, ⟨rfl, hstate⟩ | ⟨np, rfl, hfree, hother⟩⟩ := allocproc_cases halloc
  · obtain ⟨-, rfl⟩ := Prog.pure_ok.mp hrun
    exact hl.tasks hfs fun p hp => by rw [hstate, hp]
  · simp only at hrun
    split at hrun
    · rw [curproc_bind_run, setTask_bind_run, Prog.bind_ok] at hrun
      obtain ⟨_, m₂, hlift, hrun⟩ := hrun
      obtain ⟨fs, hfork, rfl⟩ := lift_ok.mp hlift
      rw [taskAt_bind_run, setTask_bind_run] at hrun
      obtain ⟨-, rfl⟩ := Prog.pure_ok.mp hrun
      rw [show (withTask m₁ np _).fs = m.fs from hfs] at hfork
      refine hl.forked hcur hfree hfork rfl (congrArg Task.state (withTask_self _ np _))
        fun p hp => congrArg Task.state ?_
      rw [withTask_of_ne hp, ← hother p hp]
      exact withTask_of_ne hp _
    · rw [setTask_bind_run] at hrun
      obtain ⟨-, rfl⟩ := Prog.pure_ok.mp hrun
      refine hl.tasks hfs fun p hp => ?_
      have hne : p ≠ np := by
        rintro rfl
        rw [hfree] at hp
        exact absurd hp (by simp)
      rw [withTask_of_ne hne, hother p hne, hp]

theorem kthread_create_linked {tstack : Nat} {r : Int} (hl : Linked m)
    (hcur : (m.task m.fs.cur).state = .live)
    (hrun : (kthread_create page tstack).run m = .ok (r, m')) : Linked m' := by
  rw [kthread_create] at hrun
  split at hrun
  · obtain ⟨-, rfl⟩ := Prog.pure_ok.mp hrun
    exact hl
  rw [Prog.bind_ok] at hrun
  obtain ⟨slot, m₁, halloc, hrun⟩ := hrun
  obtain ⟨hfs, ⟨rfl, hstate⟩ | ⟨np, rfl, hfree, hother⟩⟩ := allocproc_cases halloc
  · obtain ⟨-, rfl⟩ := Prog.pure_ok.mp hrun
    exact hl.tasks hfs fun p hp => by rw [hstate, hp]
  · simp only at hrun
    rw [curproc_bind_run, taskAt_bind_run] at hrun
    split at hrun
    · simp at hrun
    · rename_i owner howner
      rw [taskAt_bind_run, setTask_bind_run, setTask_bind_run, Prog.bind_ok] at hrun
      obtain ⟨_, m₂, hlift, hrun⟩ := hrun
      obtain ⟨fs, hfork, rfl⟩ := lift_ok.mp hlift
      rw [taskAt_bind_run, setTask_bind_run] at hrun
      obtain ⟨-, rfl⟩ := Prog.pure_ok.mp hrun
      rw [show (withTask (withTask m₁ np _) owner _).fs = m.fs from hfs] at hfork
      refine hl.forked hcur hfree hfork rfl (congrArg Task.state (withTask_self _ np _))
        fun p hp => ?_
      rw [withTask_of_ne hp]
      -- the owner's two counters change, its state does not
      show ((withTask (withTask m₁ np _) owner _).task p).state = _
      by_cases ho : p = owner
      · subst ho
        rw [withTask_self, withTask_of_ne hp, hother p hp]
      · rw [withTask_of_ne ho, withTask_of_ne hp, hother p hp]

theorem kthread_join_linked {tid : Int} {r : Option Int} (hl : Linked m)
    (hrun : (kthread_join tid).run m = .ok (r, m')) : Linked m' := by
  rw [kthread_join] at hrun
  split at hrun
  · obtain ⟨-, rfl⟩ := Prog.pure_ok.mp hrun
    exact hl
  rw [curproc_bind_run, taskAt_bind_run, Prog.get_bind_run] at hrun
  split at hrun
  · obtain ⟨-, rfl⟩ := Prog.pure_ok.mp hrun
    exact hl
  · rw [setTask_bind_run] at hrun
    obtain ⟨-, rfl⟩ := Prog.pure_ok.mp hrun
    refine hl.tasks rfl fun p hp => ?_
    by_cases hpc : p = m.fs.cur
    · subst hpc
      rw [withTask_self]
      exact hp
    · rw [withTask_of_ne hpc]
      exact hp

theorem joined_linked {r : Int} (hl : Linked m) (hrun : joined.run m = .ok (r, m')) :
    Linked m' := by
  rw [joined, curproc_bind_run, taskAt_bind_run] at hrun
  split at hrun
  · simp at hrun
  · simp at hrun
  rename_i owner q hjoin
  rw [taskAt_bind_run] at hrun
  split at hrun
  · rename_i hzombie
    rw [setTask_bind_run, setTask_bind_run, setTask_bind_run] at hrun
    obtain ⟨-, rfl⟩ := Prog.pure_ok.mp hrun
    refine hl.tasks rfl fun p hp => ?_
    have hq : p ≠ q := by
      rintro rfl
      rw [hzombie] at hp
      exact absurd hp (by simp)
    rw [withTask_of_ne hq]
    have hown : ((withTask m m.fs.cur
        { m.task m.fs.cur with joining := none }).task p).state = .live := by
      by_cases hpc : p = m.fs.cur
      · subst hpc
        rw [withTask_self]
        exact hp
      · rw [withTask_of_ne hpc]
        exact hp
    by_cases ho : p = owner
    · subst ho
      rw [withTask_self]
      exact hown
    · rw [withTask_of_ne ho]
      exact hown
  · simp at hrun

theorem kthread_exit_linked {v : Int} {u : Unit} (hl : Linked m)
    (hrun : (kthread_exit v).run m = .ok (u, m')) : Linked m' := by
  rw [kthread_exit, curproc_bind_run, taskAt_bind_run] at hrun
  rcases Prog.when_ok.mp hrun with ⟨-, hrun⟩ | ⟨-, rfl⟩
  · rw [Prog.bind_ok] at hrun
    obtain ⟨_, m₁, hlift, hrun⟩ := hrun
    obtain ⟨fs, hexit, rfl⟩ := lift_ok.mp hlift
    obtain rfl := setTask_ok.mp hrun
    exact hl.left hexit rfl fun p hp => congrArg Task.state (withTask_of_ne hp _)
  · exact hl

theorem exit_linked {u : Unit} (hl : Linked m) (hrun : Threads.exit.run m = .ok (u, m')) :
    Linked m' := by
  rw [Threads.exit, curproc_bind_run, taskAt_bind_run] at hrun
  split at hrun
  · simp at hrun
  split at hrun
  · simp at hrun
  split at hrun
  · simp at hrun
  rw [Prog.bind_ok] at hrun
  obtain ⟨_, m₁, hlift, hrun⟩ := hrun
  obtain ⟨fs, hexit, rfl⟩ := lift_ok.mp hlift
  rw [Prog.modify_bind_run] at hrun
  obtain rfl := setTask_ok.mp hrun
  refine hl.left hexit rfl fun p hp => ?_
  rw [withTask_of_ne hp, reparent]
  dsimp only
  split <;> rfl

theorem wait_linked {r : Int} (hl : Linked m) (hrun : Threads.wait.run m = .ok (r, m')) :
    Linked m' := by
  rw [Threads.wait, curproc_bind_run, taskAt_bind_run] at hrun
  split at hrun
  · simp at hrun
  split at hrun
  · simp at hrun
  rw [Prog.get_bind_run] at hrun
  split at hrun
  · rename_i q hfind
    have hzombie : (m.task q).state = .zombie := by
      have := List.find?_some hfind
      simp only [decide_eq_true_eq] at this
      exact this.2
    rw [setTask_bind_run] at hrun
    obtain ⟨-, rfl⟩ := Prog.pure_ok.mp hrun
    refine hl.tasks rfl fun p hp => ?_
    have hq : p ≠ q := by
      rintro rfl
      rw [hzombie] at hp
      exact absurd hp (by simp)
    rw [withTask_of_ne hq]
    exact hp
  · split at hrun
    · simp at hrun
    · obtain ⟨-, rfl⟩ := Prog.pure_ok.mp hrun
      exact hl

/-! ## Runs -/

/-- A call on files of the running slot. -/
theorem lift_linked {α : Type} {x : K α} {u : Unit} (hl : Linked m)
    (hcur : (m.task m.fs.cur).state = .live)
    (hx : ∀ a fs, x.run m.fs = .ok (a, fs) → Settled fs ∧ OwnSlot m.fs fs)
    (hrun : (lift (ignore x)).run m = .ok (u, m')) : Linked m' := by
  obtain ⟨fs, hcall, rfl⟩ := lift_ok.mp hrun
  obtain ⟨a, hcall⟩ := ignore_ok.mp hcall
  obtain ⟨hset, hown⟩ := hx a fs hcall
  exact hl.own hcur hset hown

/-- Every call keeps the invariant. -/
theorem call_linked {call : Call} (hl : Linked m) (hstep : machine.step m call m') :
    Linked m' := by
  obtain ⟨hen, hrun⟩ := hstep
  cases call with
  | «open» u => exact lift_linked hl hen.1 (fun _ _ => sys_open_settled hl.settled) hrun
  | close u => exact lift_linked hl hen.1 (fun _ _ => sys_close_settled hl.settled) hrun
  | dup u => exact lift_linked hl hen.1 (fun _ _ => sys_dup_settled hl.settled) hrun
  | pipe u => exact lift_linked hl hen.1 (fun _ _ => sys_pipe_settled hl.settled) hrun
  | fork page copy =>
      obtain ⟨r, hrun⟩ := void_ok.mp hrun
      exact fork_linked hl hen.1 hrun
  | exit => exact exit_linked hl hrun
  | wait =>
      obtain ⟨r, hrun⟩ := void_ok.mp hrun
      exact wait_linked hl hrun
  | kthread_create page tstack =>
      obtain ⟨r, hrun⟩ := void_ok.mp hrun
      exact kthread_create_linked hl hen.1 hrun
  | kthread_join tid =>
      obtain ⟨r, hrun⟩ := void_ok.mp hrun
      exact kthread_join_linked hl hrun
  | joined =>
      obtain ⟨r, hrun⟩ := void_ok.mp hrun
      exact joined_linked hl hrun
  | kthread_exit v => exact kthread_exit_linked hl hrun
  | switch p =>
      obtain rfl := Prog.modify_ok.mp hrun
      exact ⟨hl.settled.quiet rfl rfl rfl rfl, hl.emptied⟩
  | pages n =>
      obtain rfl := Prog.modify_ok.mp hrun
      exact ⟨hl.settled.quiet rfl rfl rfl rfl, hl.emptied⟩

theorem Boot.linked (hb : Boot m) : Linked m := by
  obtain ⟨k, hk, hone, hzero⟩ := hb.cwd
  have hdescriptors (f : FileSlot) : descriptors m.fs f = 0 := by
    rw [descriptors, holdings, Finset.sum_eq_zero]
    intro x _
    rw [Fs.fds, hb.fds]
    rfl
  have hfiles (j : Slot) : holdings inodeOf m.fs.file j = 0 := by
    rw [holdings, Finset.sum_eq_zero]
    intro f _
    rw [inodeOf_of_ne (by simp [(hb.files f).2])]
    rfl
  have hcwds (j : Slot) : holdings cwdOf m.fs.proc j = one k j := by
    rw [holdings, Finset.sum_eq_single initproc]
    · rw [cwdOf, hk, ofOption]
    · intro p _ hp
      rw [cwdOf, (hb.others p hp).1]
      rfl
    · simp
  refine ⟨⟨hb.cache, fun f _ => (hb.files f).2, fun f _ => Or.inl (hb.files f).1, fun f => ?_,
    fun j => ?_⟩, fun p hp => ⟨hb.fds p, ?_⟩⟩
  · rw [hdescriptors, (hb.files f).1]
    rfl
  · rw [held, Pi.add_apply, hcwds, hfiles]
    by_cases hj : j = k
    · subst hj
      rw [one_self, hone]
      rfl
    · rw [one_of_ne hj, hzero j hj]
      rfl
  · refine (hb.others p ?_).1
    rintro rfl
    exact hp hb.init

theorem run_linked {tr : List Call} (hrun : Run machine anyStep tr m) : Linked m :=
  hrun.invariant (fun _ hb => hb.linked) fun _ _ _ hl hstep _ => call_linked hl hstep

/-- In every run, the count of a file is the number of descriptors on it, over all
slots, and the count of an inode that of the current directories and open files
on it; a free slot holds neither, and a file is closed exactly when no
descriptor is left on it. -/
theorem counts_exact {tr : List Call} (hrun : Run machine anyStep tr m) :
    (∀ f, (m.fs.file f).ref = ((Finset.univ.filter fun x : ProcSlot × Fin NOFILE =>
      (m.fs.proc x.1).ofile x.2 = some f).card : Int)) ∧
    (∀ k, (m.fs.inode k).ref = ((Finset.univ.filter fun p => (m.fs.proc p).cwd = some k).card +
      (Finset.univ.filter fun f =>
        (m.fs.file f).type = .inode ∧ (m.fs.file f).ip = some k).card : Int)) ∧
    (∀ p, (m.task p).state = .unused →
      (∀ fd, (m.fs.proc p).ofile fd = none) ∧ (m.fs.proc p).cwd = none) ∧
    ∀ f, (m.fs.file f).type = .none ↔ ∀ p fd, (m.fs.proc p).ofile fd ≠ some f := by
  have hl := run_linked hrun
  have hfiles (f : FileSlot) : (m.fs.file f).ref = descriptors m.fs f :=
    (hl.settled.files f).trans (add_zero _)
  refine ⟨fun f => ?_, fun k => ?_, fun p hp => ?_,
    fun f => ⟨fun htype p fd hfd => ?_, fun hno => ?_⟩⟩
  · rw [hfiles, descriptors_eq_card]
  · have hinodes : (m.fs.inode k).ref = held m.fs k := (hl.settled.inodes k).trans (add_zero _)
    rw [hinodes, held_eq_card]
    exact Nat.cast_add _ _
  · have := hl.emptied p (by simp [hp])
    exact ⟨this.ofile, this.cwd⟩
  · have hzero := (hl.settled.typed f htype).resolve_right id
    have := one_le_descriptors hfd
    have := hfiles f
    omega
  · refine hl.settled.closed f ?_
    rw [hfiles, descriptors_eq_card, Finset.filter_false_of_mem fun x _ => hno x.1 x.2]
    rfl

/-! ## A run -/

/-- Only init runs. -/
def started : Machine where
  fs := booted
  task p := ⟨if p = initproc then .live else .unused, 1, none, false, 0, 1, 0, 0, none⟩
  nextpid := 2

theorem started_boot : Boot started where
  cache := booted_sane.cache
  files _ := ⟨rfl, rfl⟩
  fds _ _ := rfl
  cwd := by
    refine ⟨0, rfl, rfl, fun j hj => ?_⟩
    show (if j = 0 then (1 : Int) else 0) = 0
    rw [if_neg hj]
  others p hp := by
    refine ⟨?_, ?_⟩
    · show (if p = 0 then some 0 else none) = (none : Option Slot)
      exact if_neg hp
    · show (if p = initproc then State.live else .unused) = .unused
      exact if_neg hp
  init := rfl
  cur := rfl

instance (m : Machine) (call : Call) : Decidable (call.Enabled m) :=
  match call with
  | .switch p => inferInstanceAs (Decidable ((m.task p).state = .live))
  | .pages _ => inferInstanceAs (Decidable True)
  | .joined => inferInstanceAs (Decidable ((m.task m.fs.cur).state = .live))
  | .open _ | .close _ | .dup _ | .pipe _ | .fork _ _ | .exit | .wait | .kthread_create _ _
  | .kthread_join _ | .kthread_exit _ =>
    inferInstanceAs (Decidable ((m.task m.fs.cur).state = .live ∧
      (m.task m.fs.cur).joining = none))

def tryCall (m : Machine) (call : Call) : Option Machine :=
  if call.Enabled m then
    match call.code.run m with
    | .ok (_, m') => some m'
    | .error _ => none
  else none

theorem step_of_tryCall {call : Call} (htry : tryCall m call = some m') :
    machine.step m call m' := by
  unfold tryCall at htry
  split at htry
  · rename_i hen
    split at htry
    · rename_i hrun
      obtain rfl := Option.some.inj htry
      exact ⟨hen, hrun⟩
    · simp at htry
  · simp at htry

/-- Init opens the root and starts a thread, which exits and is joined. -/
def threadCalls : List Call :=
  [.open (rootCall 0), .kthread_create true 4096, .switch 1, .kthread_exit 7, .switch 0,
    .kthread_join 1, .joined]

/-- The thread's descriptor is gone with it, and the file is open once. -/
theorem counts_exact_thread : ∃ m, Run machine anyStep threadCalls.reverse m ∧
    (m.task 1).thread_exit_value = 7 ∧ (m.task 1).state = .unused ∧
    (m.fs.proc 1).ofile 0 = none ∧ (m.fs.file 0).ref = 1 ∧
    (Finset.univ.filter fun x : ProcSlot × Fin NOFILE =>
      (m.fs.proc x.1).ofile x.2 = some 0).card = 1 := by
  have htr : ((threadCalls.foldlM tryCall started).map fun m =>
      decide ((m.task 1).thread_exit_value = 7 ∧ (m.task 1).state = .unused ∧
        (m.fs.file 0).ref = 1)) = some true := by
    decide +kernel
  obtain ⟨m, hm, hend⟩ := Option.map_eq_some_iff.mp htr
  obtain ⟨hvalue, hstate, href⟩ := of_decide_eq_true hend
  have hrun : Run machine anyStep threadCalls.reverse m :=
    Run.of_foldlM started_boot (fun _ _ _ h => ⟨step_of_tryCall h, trivial⟩) hm
  obtain ⟨hfiles, -, hunused, -⟩ := counts_exact hrun
  have hcount := hfiles 0
  rw [href] at hcount
  exact ⟨m, hrun, hvalue, hstate, (hunused 1 hstate).1 0, href, by omega⟩

end Threads
end Fs
end CS444
