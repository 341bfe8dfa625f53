/-
The life of a thread of the library, from its creation to its join.

`Tidy` is the invariant: what is known of the kernel, the `Books` of the library and where
its threads stand.  Each step of the kernel and each step of the library keeps it in the
runs in which allocation succeeds, the kernel has a thread to give, the ids are distinct
and the threads that are joined exited with 0: `life_cycle`.
-/
import CS444.Kthreads.Places

namespace CS444
namespace Kthreads

open Runs

variable {C : Type} {home i j : Nat} {c : C} {t t' : Table} {p q np : Slot} {pick : Pick}
  {k : Ctl} {n : Next} {call : Call} {m : Memory} {s s' : Library C}

/-! ## The invariant -/

structure Tidy (home : Nat) (s : Library C) : Prop where
  sound : Sound s.kernel
  books : Books home s.table s.memory s.call
  stands : Stands home s.table s.memory s.call

theorem Unused.tidy (h : Unused s) : Tidy home s where
  sound := boot_sound h.boot
  books := by
    have hidle := h.call
    constructor
    case stack => exact fun a ha => absurd ((h.descBlocks a).symm.trans ha) (by simp)
    case alone => exact fun a _ ha => absurd ((h.descBlocks a).symm.trans ha) (by simp)
    case handle => exact fun a ha => absurd ((h.handles a).symm.trans ha) (by simp)
    case apart => exact fun a _ ha => absurd ((h.handles a).symm.trans ha) (by simp)
    case fine => exact fun i => hidle i ▸ .idle
    case differ => exact fun i _ _ => hidle i ▸ .idle
    case fresh => exact fun i _ => hidle i
    case used => exact fun _ i _ hne => absurd (hidle i) hne
  stands := by
    intro p i hp _
    rw [h.call]
    refine ⟨fun _ => Call.fits_idle (Or.inl ?_), fun _ => rfl⟩
    have hboot := h.boot
    by_cases hpi : p = initproc
    · show (s.kernel.table.proc p).ctl.doing = .other
      rw [hpi, hboot.init]
      rfl
    · have hfree : (s.kernel.table.proc p).Active := hp
      rw [hboot.unused p hpi] at hfree
      rcases hfree with hfree | hfree | hfree <;> exact absurd hfree (by simp)

section Kernel

variable {K : Kernel C} (h : Tidy home s) (htakes : Takes s.kernel c p i pick t n)
  (hc : Carries home s.table (t.goto p n.ctl))

include h htakes

/-- The place of the thread that takes the step, in the library. -/
theorem Tidy.fits (hhome : homeOf s.table p = some home) :
    (s.call i).Fits home s.table s.memory (s.table.proc p).ctl :=
  (h.stands p i htakes.active (htakes.inv.stack c p i htakes.cpu)).1 hhome

include hc

/-- The thread of a call that has made one is not taken by a join. -/
theorem Tidy.books_takes : Books home (t.goto p n.ctl) s.memory s.call := by
  refine h.books.carries hc fun i' j hj => ?_
  obtain ⟨⟨v, hd⟩, ⟨q, hq⟩, hhandle⟩ := (h.books.fine i').new j hj
  rcases htakes.denoted_stays h.sound.family hd hq with hstay | ⟨⟨owner, tid, w, hk⟩, hhome⟩
  · exact ⟨q, goto_kstack.trans hstay⟩
  · have hfits := h.fits htakes hhome
    have hk' : (s.table.proc p).ctl = .joinTake owner tid q w := hk
    rw [hk'] at hfits
    obtain ⟨abt, -, v', htid', -, -, hwant⟩ := hfits
    obtain ⟨-, hown, htid, -⟩ := htakes.taken h.sound.family h.sound.handing.kstacks h.sound.past
      hhome hk
    obtain ⟨hhas, j', hthread, hj'⟩ := hwant q hown (by exact_mod_cast htid.trans htid')
    obtain rfl := Option.some.inj (hj'.symm.trans hq)
    exact absurd hthread (hhandle abt hhas)

/-- A thread that takes a step comes to another place in the library. -/
theorem Tidy.move (hfine : Fine home (t.goto p n.ctl) s.memory call)
    (hdiffer : ∀ i', i' ≠ i → Differ call (s.call i')) :
    Books home (t.goto p n.ctl) s.memory (Function.update s.call i call) := by
  have hst : Stacks (t.goto p n.ctl) := goto_stacks (h.sound.handing.kstacks.body htakes.body)
  have hp : ((t.goto p n.ctl).proc p).kstack = some i := goto_kstack.trans
    ((htakes.kstack_same htakes.active).trans (htakes.inv.stack c p i htakes.cpu))
  have hbooks := h.books_takes htakes hc
  refine hbooks.setCall hfine hdiffer (fun _ => hst.fresh p i hp) fun _ q hq => ?_
  obtain rfl := hst.apart q p i hq hp
  obtain ⟨-, hused⟩ := hc.used q i (h.sound.handing.kstacks.fresh q i
    (htakes.inv.stack c q i htakes.cpu)) hp
  exact hused htakes.active.used

theorem Tidy.keeps_call (hfits : (s.call i).Fits home (t.goto p n.ctl) s.memory n.ctl)
    (hcall : call = s.call i) :
    Books home (t.goto p n.ctl) s.memory (Function.update s.call i call) ∧
      call.Fits home (t.goto p n.ctl) s.memory n.ctl := by
  subst hcall
  rw [Function.update_eq_self]
  exact ⟨h.books_takes htakes hc, hfits⟩

/-- `kthread_create` makes its thread runnable. -/
theorem Tidy.published {owner : Slot} (hhome : homeOf s.table p = some home)
    (hk : (s.table.proc p).ctl = .publish np (some owner)) :
    Books home (t.goto p n.ctl) s.memory
        (Function.update s.call i ((s.call i).after s.table (.publish np (some owner)))) ∧
      ((s.call i).after s.table (.publish np (some owner))).Fits home (t.goto p n.ctl) s.memory
        n.ctl := by
  obtain ⟨ht, hn, hembryo, j, hj, hd⟩ := htakes.published h.sound.family h.sound.handing.kstacks
    h.sound.names hhome hk
  have hd' := (goto_carries (p := p) (k := n.ctl)).denotes _ _ hd
  have hfits := h.fits htakes hhome
  rw [hk] at hfits
  obtain ⟨bt, hbt⟩ := hfits
  have hcall : (s.call i).after s.table (.publish np (some owner)) = .creating bt (some j) := by
    rw [hbt]
    exact congrArg (Call.creating bt) hj
  rw [hcall]
  -- Until now the thread was under construction, so that no id denoted it.
  have hnew : ∀ v, ¬Denotes home s.table v j := fun v hold => (hold.grown np hj).2 hembryo
  have hnp : ((t.goto p n.ctl).proc np).kstack = some j := by
    have hsame : (t.proc np).kstack = (s.kernel.table.proc np).kstack := by
      rw [ht]
      exact Table.set_keeps Proc.kstack fun _ => rfl
    exact goto_kstack.trans (hsame.trans hj)
  refine ⟨h.move htakes hc ⟨fun a ha => ?_, fun j' hj' => ?_, fun _ _ he => ?_, fun _ _ _ heq => ?_,
    fun _ _ _ heq => ?_⟩ fun i' hi => ⟨fun a ha => ?_, fun j' hj' hold => ?_, fun _ he => ?_⟩, ?_⟩
  · exact (h.books.fine i).building a (by rw [hbt]; exact ha)
  · obtain rfl := Option.some.inj hj'
    refine ⟨⟨_, hd'⟩, ⟨np, hnp⟩, fun a ha hthread => ?_⟩
    obtain ⟨-, v, j', -, hthread', hold⟩ := h.books.handle a ha
    obtain rfl := Option.some.inj (hthread.symm.trans hthread')
    exact hnew v hold
  · exact absurd he (by simp [Call.taken])
  · exact absurd heq (by simp)
  · exact absurd heq (by simp)
  · exact (h.books.differ i i' hi).building a (by rw [hbt]; exact ha)
  · obtain rfl := Option.some.inj hj'
    obtain ⟨⟨v, hold⟩, -⟩ := (h.books.fine i').new j hold
    exact hnew v hold
  · exact absurd he (by simp [Call.taken])
  · have hback : n.ctl.doing = .back (s.kernel.table.proc np).tid := by
      rw [hn]
      rfl
    rw [Call.Fits, hback]
    exact ⟨j, _, rfl, rfl, hd'⟩

/-- `kthread_join` takes the thread of the handle. -/
theorem Tidy.took {owner : Slot} {tid : Int} {w : Nat} (hhome : homeOf s.table p = some home)
    (hk : (s.table.proc p).ctl = .joinTake owner tid q w)
    (hvalue : (s.table.proc q).thread_exit_value = 0) :
    Books home (t.goto p n.ctl) s.memory
        (Function.update s.call i ((s.call i).after s.table (.joinTake owner tid q w))) ∧
      ((s.call i).after s.table (.joinTake owner tid q w)).Fits home (t.goto p n.ctl) s.memory
        n.ctl := by
  obtain ⟨hn, hown, htid, j, hj, hexit, hgone⟩ := htakes.taken h.sound.family
    h.sound.handing.kstacks h.sound.past hhome hk
  have hfits := h.fits htakes hhome
  rw [hk] at hfits
  obtain ⟨abt, habt, v, hv, -, -, hwant⟩ := hfits
  obtain ⟨hhas, j', hthread, hj'⟩ := hwant q hown (by exact_mod_cast htid.trans hv)
  obtain rfl := Option.some.inj (hj'.symm.trans hj)
  have hcall : (s.call i).after s.table (.joinTake owner tid q w) = .joining abt (some j') := by
    rw [habt]
    exact congrArg (Call.joining abt) hj
  rw [hcall]
  refine ⟨h.move htakes hc ⟨fun a ha => ?_, fun j hj => ?_, fun a j he => ?_, fun _ _ _ heq => ?_,
    fun _ _ _ heq => ?_⟩ fun i' hi => ⟨fun a ha => ?_, fun j' hj' => ?_, fun e he hold => ?_⟩, ?_⟩
  · exact absurd ha (by simp [Call.building])
  · exact absurd hj (by simp [Call.new])
  · obtain ⟨rfl, rfl⟩ := Prod.mk.inj (Option.some.inj he)
    exact ⟨hhas, hthread, fun r hr => hgone r (goto_kstack.symm.trans hr)⟩
  · exact absurd heq (by simp)
  · exact absurd heq (by simp)
  · exact absurd ha (by simp [Call.building])
  · exact absurd hj' (by simp [Call.new])
  · obtain rfl := Option.some.inj he
    exact ((h.books.fine i').taken abt j' hold).2.2 q hj
  · have hvalue' : (s.kernel.table.proc q).thread_exit_value = 0 := hvalue
    have hback : n.ctl.doing = .back 0 := by
      rw [hn, hvalue']
      rfl
    rw [Call.Fits, hback]
    rw [hvalue'] at hexit
    exact ⟨rfl, hc.exits _ hexit⟩

/-- A system call returns to the library. -/
theorem Tidy.returned {w : Int} (hhome : homeOf s.table p = some home)
    (hk : (s.table.proc p).ctl = .ret w) (hn : n.ctl.doing = .other) :
    Books home (t.goto p n.ctl) s.memory
        (Function.update s.call i ((s.call i).after s.table (.ret w))) ∧
      ((s.call i).after s.table (.ret w)).Fits home (t.goto p n.ctl) s.memory n.ctl := by
  have hfits := h.fits htakes hhome
  rw [hk] at hfits
  have hfine := (h.books_takes htakes hc).fine i
  have hdiffer : ∀ i', i' ≠ i → Differ (s.call i) (s.call i') := fun i' hi =>
    h.books.differ i i' hi
  have hother : ∀ {call : Call}, call.underway = false →
      call.Fits home (t.goto p n.ctl) s.memory n.ctl := by
    intro call hcall
    rw [Call.Fits, hn]
    exact hcall
  have hreturns : (s.call i).Returns home s.table w := hfits
  have hright := hreturns.carries hc
  by_cases hunder : (s.call i).underway = false
  · exact h.keeps_call htakes hc (hother hunder) (Call.after_of_not_underway hunder)
  cases hcall : s.call i with
  | creating bt new =>
      rw [hcall] at hfine hdiffer hright
      refine ⟨h.move htakes hc ⟨hfine.building, hfine.new, hfine.taken, ?_, ?_⟩
        fun i' hi => ⟨(hdiffer i' hi).building, (hdiffer i' hi).new, (hdiffer i' hi).taken⟩,
        hother rfl⟩
      · intro bt' new' bid heq
        obtain ⟨rfl, rfl, rfl⟩ := Call.created.inj heq
        exact hright
      · exact fun _ _ _ heq => absurd heq (by simp [Call.after])
  | joining abt taken =>
      rw [hcall] at hfine hdiffer hright
      refine ⟨h.move htakes hc ⟨hfine.building, hfine.new, hfine.taken, ?_, ?_⟩
        fun i' hi => ⟨(hdiffer i' hi).building, (hdiffer i' hi).new, (hdiffer i' hi).taken⟩,
        hother rfl⟩
      · exact fun _ _ _ heq => absurd heq (by simp [Call.after])
      · intro abt' taken' r heq
        obtain ⟨rfl, rfl, rfl⟩ := Call.joined.inj heq
        exact hright
  | _ => exact absurd (by rw [hcall]; rfl) hunder

/-- A thread of the process takes a step of the kernel. -/
theorem Tidy.turn (hhome : homeOf s.table p = some home)
    (hserved : s.call i = .idle ∨ (s.table.proc p).ctl.served s.table (.run pick) = true)
    (hsys : ∀ sc, (s.table.proc p).ctl = .user → pick = .call sc →
      sc = .exit ∨ s.call i = .idle ∧ sc.ofThreads = false)
    (hcall : call = if pick = .next then (s.call i).after s.table (s.table.proc p).ctl
      else s.call i) :
    Books home (t.goto p n.ctl) s.memory (Function.update s.call i call) ∧
      call.Fits home (t.goto p n.ctl) s.memory n.ctl := by
  have hfits := h.fits htakes hhome
  cases body_turn htakes.step with
  | within hdoing hafter =>
      refine h.keeps_call htakes hc (hfits.carries hc .refl hdoing) ?_
      rw [hcall]
      split
      · rename_i hpick
        exact hafter hpick _
      · rfl
  | refused hdoing hno =>
      unfold Call.Fits at hfits
      have hdoing' : (s.table.proc p).ctl.doing = .create := hdoing
      rw [hdoing'] at hfits
      obtain ⟨bt, hbt⟩ := hfits
      rcases hserved with hidle | hserved
      · exact absurd (hbt.symm.trans hidle) (by simp)
      · exact absurd (hno.symm.trans hserved) (by simp)
  | published np owner hk hpick =>
      have hk' : (s.table.proc p).ctl = .publish np (some owner) := hk
      rw [hcall, if_pos hpick, hk']
      exact h.published htakes hc hhome hk
  | missed tid hdoing hgo hafter =>
      have hdoing' : (s.table.proc p).ctl.doing = .join tid := hdoing
      unfold Call.Fits at hfits
      rw [hdoing'] at hfits
      obtain ⟨abt, habt, -⟩ := hfits
      refine h.keeps_call htakes hc ?_ ?_
      · rw [Call.Fits, hgo, habt]
        exact rfl
      · rw [hcall]
        split
        · exact hafter _
        · rfl
  | took owner tid q w hk hpick =>
      have hk' : (s.table.proc p).ctl = .joinTake owner tid q w := hk
      have hvalue : (s.table.proc q).thread_exit_value = 0 := by
        rw [hk'] at hfits
        obtain ⟨abt, habt, -⟩ := hfits
        rcases hserved with hidle | hserved
        · exact absurd (habt.symm.trans hidle) (by simp)
        · rw [hk', hpick] at hserved
          exact of_decide_eq_true hserved
      rw [hcall, if_pos hpick, hk']
      exact h.took htakes hc hhome hk hvalue
  | returned w hk hpick hgo =>
      have hk' : (s.table.proc p).ctl = .ret w := hk
      rw [hcall, if_pos hpick, hk']
      exact h.returned htakes hc hhome hk hgo
  | called sc hk hpick hstart =>
      have hk' : (s.table.proc p).ctl = .user := hk
      rw [hk'] at hfits
      refine h.keeps_call htakes hc ?_ ?_
      · rcases hsys sc hk' hpick with rfl | ⟨hidle, hsc⟩
        · unfold start at hstart
          simp only at hstart
          split at hstart
          · exact absurd hstart (by simp)
          · rw [Call.Fits, ← Option.some.inj hstart]
            exact hfits
        · rw [hidle]
          exact Call.fits_idle (start_doing hstart hsc)
      · rw [hcall, hpick]
        rfl
  | other hdoing hgo =>
      have hdoing' : (s.table.proc p).ctl.doing = .other := hdoing
      unfold Call.Fits at hfits
      rw [hdoing'] at hfits
      have hunder : (s.call i).underway = false := hfits
      refine h.keeps_call htakes hc ?_ ?_
      · unfold Call.Fits
        rcases hgo with hgo | ⟨w, hgo⟩
        · rw [hgo]
          exact hunder
        · rw [hgo]
          exact Call.returns_of_not_underway hunder
      · rw [hcall]
        split
        · exact Call.after_of_not_underway hunder
        · rfl

end Kernel

/-- Only `exec` takes a new image. -/
theorem body_image {sz : Nat} (h : body t p k (.image sz) = some (t', n)) :
    (∃ d, k = .execBuilt d) ∧ n.ctl.doing = .other := by
  have hnone : (none : Option (Table × Next)) ≠ some (t', n) := by simp
  cases k with
  | execBuilt d =>
      obtain ⟨rfl, rfl⟩ := Prod.mk.inj (Option.some.inj h)
      exact ⟨⟨d, rfl⟩, rfl⟩
  | _ => exact absurd h hnone

variable [DecidableEq C]

/-! ## One step -/

/-- What a step of the library is: who takes it, and where. -/
inductive LibMove (home : Nat) (s : Library C) : LibAct C → Library C → Prop
  | kernel (c : C) (a : Act) (K : Kernel C) (houtside : s.outside home c a = true)
      (hstep : step s.kernel c a = some K) :
      LibMove home s (.kernel c a) { s.follow home c a with kernel := K }
  | bt_new (c : C) (m1 m2 i : Nat) (hrun : s.running home c = some i) (hidle : s.call i = .idle)
      (hdesc : m1 ≠ 0 → s.memory.descBlocks m1 = false)
      (hstack : m2 ≠ 0 → s.memory.stackBlocks m2 = false) :
      LibMove home s (.bt_new c m1 m2)
        { s.setCall i (.made (s.memory.bt_new m1 m2).1) with
          memory := (s.memory.bt_new m1 m2).2 }
  | misaligned (c : C) (i bt : Nat) (hrun : s.running home c = some i)
      (hcall : s.call i = .made bt) (hpage : (s.memory.bt bt).bt_stack % PGSIZE ≠ 0) :
      LibMove home s (.kthread_create c) (s.setCall i (.created bt none (-1)))
  | kthread_create (c : C) (i bt : Nat) (s' : Library C) (hrun : s.running home c = some i)
      (hcall : s.call i = .made bt)
      (hstep : s.enter c i .kthread_create (.creating bt none) = some s') :
      LibMove home s (.kthread_create c) s'
  | create (c : C) (i bt : Nat) (new : Option Nat) (bid : Int)
      (hrun : s.running home c = some i) (hcall : s.call i = .created bt new bid) :
      LibMove home s (.create c)
        { s.setCall i .idle with memory := (s.memory.create bt new bid).2.2 }
  | kthread_join (c : C) (abt i : Nat) (s' : Library C) (hrun : s.running home c = some i)
      (hidle : s.call i = .idle) (hhas : s.memory.handles abt = true)
      (hstep : s.enter c i (.kthread_join (s.memory.bt abt).bid) (.joining abt none) = some s') :
      LibMove home s (.kthread_join c abt) s'
  | join (c : C) (i abt : Nat) (taken : Option Nat) (retVal : Int)
      (hrun : s.running home c = some i) (hcall : s.call i = .joined abt taken retVal) :
      LibMove home s (.join c) { s.setCall i .idle with memory := (s.memory.join abt retVal).2 }
  | exit (c : C) (exit_value : Int) (i : Nat) (s' : Library C)
      (hrun : s.running home c = some i) (hidle : s.call i = .idle)
      (hstep : s.enter c i (.kthread_exit exit_value) .idle = some s') :
      LibMove home s (.exit c exit_value) s'

omit [DecidableEq C] in
/-- A step of the library is taken by a thread in user mode. -/
theorem running_of_step {f : Nat → Option (Library C)}
    (h : (match s.running home c with | none => none | some i => f i) = some s') :
    ∃ i, s.running home c = some i ∧ f i = some s' := by
  split at h
  · exact absurd h (by simp)
  · exact ⟨_, ‹_›, h⟩

theorem library_cases {l : LibAct C} (h : s.step home l = some s') : LibMove home s l s' := by
  unfold Library.step at h
  cases l with
  | kernel c a =>
      by_cases houtside : s.outside home c a = true
      · simp only [if_pos houtside] at h
        obtain ⟨K, hK, rfl⟩ := Option.map_eq_some_iff.mp h
        exact .kernel c a K houtside hK
      · exact absurd h (by simp [houtside])
  | bt_new c m1 m2 =>
      obtain ⟨i, hrun, h⟩ := running_of_step h
      dsimp only at h
      split at h
      · rename_i hfree
        obtain rfl := Option.some.inj h
        exact .bt_new c m1 m2 i hrun hfree.1 hfree.2.1 hfree.2.2
      · exact absurd h (by simp)
  | kthread_create c =>
      obtain ⟨i, hrun, h⟩ := running_of_step h
      split at h
      · rename_i bt hcall
        split at h
        · rename_i hpage
          obtain rfl := Option.some.inj h
          exact .misaligned c i bt hrun hcall hpage
        · exact .kthread_create c i bt s' hrun hcall h
      · exact absurd h (by simp)
  | create c =>
      obtain ⟨i, hrun, h⟩ := running_of_step h
      split at h
      · rename_i bt new bid hcall
        obtain rfl := Option.some.inj h
        exact .create c i bt new bid hrun hcall
      · exact absurd h (by simp)
  | kthread_join c abt =>
      obtain ⟨i, hrun, h⟩ := running_of_step h
      split at h
      · rename_i hhas
        exact .kthread_join c abt i s' hrun hhas.1 hhas.2 h
      · exact absurd h (by simp)
  | join c =>
      obtain ⟨i, hrun, h⟩ := running_of_step h
      split at h
      · rename_i abt taken retVal hcall
        obtain rfl := Option.some.inj h
        exact .join c i abt taken retVal hrun hcall
      · exact absurd h (by simp)
  | exit c exit_value =>
      obtain ⟨i, hrun, h⟩ := running_of_step h
      split at h
      · rename_i hidle
        exact .exit c exit_value i s' hrun hidle h
      · exact absurd h (by simp)

/-- What the library makes of scheduling is nothing. -/
theorem follow_split (home : Nat) {K : Kernel C} {b : Act} (hinv : Running s.kernel)
    (hstep : CpuStep s.kernel c b K) :
    Alike s.table K.table ∧ s.follow home c b = s ∨ ∃ p i pick t n, b = .run pick ∧
      Takes s.kernel c p i pick t n ∧ K.table = t.goto p n.ctl := by
  have hidle : ∀ b : Act, (∀ pick, b ≠ .run pick) → s.follow home c b = s := by
    intro b hb
    unfold Library.follow
    split <;> first | rfl | exact absurd rfl (hb _)
  have hsame : ∀ {p i}, s.kernel.cpu c = some (p, i) →
      (∀ call : Call, call.after s.table (s.table.proc p).ctl = call) →
      s.follow home c (.run .next) = s := by
    intro p i hcpu hafter
    simp only [Library.follow, hcpu, Library.setCall, hafter, Function.update_eq_self]
  cases hstep with
  | enter | rest => exact Or.inl ⟨.refl _, hidle _ (by simp)⟩
  | dispatch p i _ _ hrun => exact Or.inl ⟨dispatch_alike hrun, hidle _ (by simp)⟩
  | wakeup m => exact Or.inl ⟨wakeup1_alike _, hidle _ (by simp)⟩
  | acquire p i k hcpu hctl =>
      have halike : Alike s.table (s.table.goto p k) := goto_alike fun _ => by
        rw [Library.table, hctl]
        rfl
      refine Or.inl ⟨halike, hsame hcpu fun call => ?_⟩
      rw [Library.table, hctl]
      cases call <;> rfl
  | release p i k hcpu hctl =>
      have halike : Alike s.table (s.table.goto p k) := goto_alike fun _ => by
        rw [Library.table, hctl]
        rfl
      refine Or.inl ⟨halike, hsame hcpu fun call => ?_⟩
      rw [Library.table, hctl]
      cases call <;> rfl
  | go p i pick t k hcpu hstep =>
      rcases hinv.cpu c p i hcpu with hrun | ⟨hzombie, hctl⟩
      · exact Or.inr ⟨p, i, pick, t, _, rfl, ⟨hinv, hcpu, hrun, hstep⟩, rfl⟩
      · exact absurd (zombie_step (body_step hstep) hzombie hctl).2 (by simp)
  | swtch p i pick t k hcpu hstep =>
      rcases hinv.cpu c p i hcpu with hrun | ⟨hzombie, hctl⟩
      · exact Or.inr ⟨p, i, pick, t, _, rfl, ⟨hinv, hcpu, hrun, hstep⟩, rfl⟩
      · obtain ⟨rfl, -⟩ := zombie_step (body_step hstep) hzombie hctl
        refine Or.inl ⟨goto_alike fun hact => ?_, ?_⟩
        · rcases hact with h | h | h <;> exact absurd (hzombie.symm.trans h) (by decide)
        · cases pick with
          | next =>
              refine hsame hcpu fun call => ?_
              rw [Library.table]
              rcases hctl with hctl | hctl <;> rw [hctl] <;> cases call <;> rfl
          | image sz =>
              obtain ⟨⟨d, hk⟩, -⟩ := body_image hstep
              rcases hctl with hctl | hctl <;> exact absurd (hctl.symm.trans hk) (by simp)
          | _ => simp only [Library.follow, hcpu]

omit [DecidableEq C] in
/-- A process without threads runs another program. -/
theorem Tidy.image {sz : Nat} {K : Kernel C} (h : Tidy home s)
    (htakes : Takes s.kernel c p i (.image sz) t n) (hsound : Sound K)
    (ht : K.table = t.goto p n.ctl) (hhome : homeOf s.table p = some home)
    (halone : ∀ q, ¬OwnThread home s.table q) : Tidy home { s.forget with kernel := K } where
  sound := hsound
  books := by
    constructor
    case stack => exact fun a ha => absurd ha Bool.false_ne_true
    case alone => exact fun a _ ha => absurd ha Bool.false_ne_true
    case handle => exact fun a ha => absurd ha Bool.false_ne_true
    case apart => exact fun a _ ha => absurd ha Bool.false_ne_true
    case fine => exact fun _ => .idle
    case differ => exact fun _ _ _ => .idle
    case fresh => exact fun _ _ => rfl
    case used => exact fun _ _ _ hne => absurd rfl hne
  stands := by
    intro q i' hq _
    refine ⟨fun hown => Call.fits_idle ?_, fun _ => rfl⟩
    show (K.table.proc q).ctl.doing = .other ∨ _
    have hq' : (t.proc q).Active := by
      have hact : (K.table.proc q).Active := hq
      rwa [ht, goto_active] at hact
    have hown' : homeOf t q = some home := by
      have hown' : homeOf K.table q = some home := hown
      rwa [ht, homeOf_goto] at hown'
    -- The stack of `home` is the one of a process that is no thread.
    have hself : ∀ r, (s.table.proc r).Active → homeOf s.table r = some home →
        (s.table.proc r).kstack = some home := by
      intro r _ hr
      have hno : (s.table.proc r).is_thread ≠ true := fun hthread => halone r ⟨hthread, hr⟩
      rw [homeOf, process, if_neg hno] at hr
      exact hr
    rw [ht]
    by_cases hqp : q = p
    · rw [hqp, goto_ctl_self]
      exact Or.inl (body_image htakes.step).2
    rw [goto_of_ne hqp]
    rcases htakes.was_active hqp hq' with ⟨hold, -⟩ | ⟨hctl, -⟩
    · rw [htakes.homeOf_same h.sound.family hold] at hown'
      exact absurd (h.sound.handing.kstacks.apart q p home (hself q hold hown')
        (hself p htakes.active hhome)) hqp
    · rw [hctl]
      exact Or.inl rfl

/-- The kernel has taken a step and the library is where that leaves it. -/
theorem Tidy.kernel {K : Kernel C} {b : Act} (h : Tidy home s)
    (houtside : s.outside home c b = true) (hK : step s.kernel c b = some K)
    (hok : Succeeds s (.kernel c b)) : Tidy home { s.follow home c b with kernel := K } := by
  obtain ⟨hdistinct, hserved⟩ := hok
  have hcpu := step_cases hK
  have hsound := h.sound.step hcpu hdistinct
  rcases follow_split home h.sound.running hcpu with
    ⟨halike, hfollow⟩ | ⟨p, i, pick, t, n, rfl, htakes, ht⟩
  · rw [hfollow]
    refine ⟨hsound, ?_, h.stands.alike halike⟩
    refine h.books.carries halike.carries fun i j hj => ?_
    obtain ⟨-, ⟨q, hq⟩, -⟩ := (h.books.fine i).new j hj
    exact ⟨q, (halike.keeps Proc.kstack (fun _ _ _ => rfl) q).trans hq⟩
  have hc : Carries home s.table (t.goto p n.ctl) :=
    (htakes.carries h.sound.family h.sound.handing hdistinct.few).trans goto_carries
  by_cases himage : (∃ sz, pick = .image sz) ∧ homeOf s.table p = some home
  · obtain ⟨⟨sz, rfl⟩, hhome⟩ := himage
    have halone : ∀ q, ¬OwnThread home s.table q := by
      simp only [Library.outside, htakes.cpu] at houtside
      exact (of_decide_eq_true houtside).resolve_left (not_not.mpr hhome)
    have hfollow : s.follow home c (.run (.image sz)) = s.forget := by
      simp only [Library.follow, htakes.cpu, if_pos hhome]
    rw [hfollow]
    exact h.image htakes hsound ht hhome halone
  let call := if pick = .next then (s.call i).after s.table (s.table.proc p).ctl else s.call i
  have hfollow : s.follow home c (.run pick) = s.setCall i call := by
    have hsame : s.setCall i (s.call i) = s := by
      simp only [Library.setCall, Function.update_eq_self]
    cases pick with
    | next => simp only [Library.follow, htakes.cpu, call, if_pos]
    | image sz =>
        have hno : homeOf s.table p ≠ some home := fun hhome => himage ⟨⟨sz, rfl⟩, hhome⟩
        simp only [Library.follow, htakes.cpu, if_neg hno]
        exact hsame.symm
    | _ =>
        simp only [Library.follow, htakes.cpu]
        exact hsame.symm
  have hcall : (homeOf s.table p ≠ some home → call = .idle) ∧
      Books home (t.goto p n.ctl) s.memory (Function.update s.call i call) ∧
      (homeOf s.table p = some home → call.Fits home (t.goto p n.ctl) s.memory n.ctl) := by
    by_cases hhome : homeOf s.table p = some home
    · have hserved' : s.call i = .idle ∨
          (s.table.proc p).ctl.served s.table (.run pick) = true := by
        simp only [Library.served, htakes.cpu] at hserved
        exact of_decide_eq_true hserved
      have hsys : ∀ sc, (s.table.proc p).ctl = .user → pick = .call sc →
          sc = .exit ∨ s.call i = .idle ∧ sc.ofThreads = false := by
        rintro sc - rfl
        simp only [Library.outside, htakes.cpu] at houtside
        exact (of_decide_eq_true houtside).resolve_left (not_not.mpr hhome)
      obtain ⟨hbooks, hfits⟩ := h.turn htakes hc hhome hserved' hsys rfl
      exact ⟨fun hno => absurd hhome hno, hbooks, fun _ => hfits⟩
    · have hidle : s.call i = .idle :=
        (h.stands p i htakes.active (htakes.inv.stack c p i htakes.cpu)).2 hhome
      have hcall : call = .idle := by
        show (if _ then _ else _) = _
        rw [hidle]
        split
        · exact Call.after_of_not_underway rfl
        · rfl
      refine ⟨fun _ => hcall, ?_, fun hown => absurd hown hhome⟩
      rw [hcall, ← hidle, Function.update_eq_self]
      exact h.books_takes htakes hc
  obtain ⟨hidle, hbooks, hfits⟩ := hcall
  rw [hfollow]
  refine ⟨hsound, ?_, ?_⟩
  · show Books home K.table s.memory (Function.update s.call i call)
    rw [ht]
    exact hbooks
  · show Stands home K.table s.memory (Function.update s.call i call)
    rw [ht]
    exact h.stands.takes h.sound htakes hc h.books ⟨hfits, hidle⟩

/-! ## Steps of the library -/

omit [DecidableEq C] in
/-- The thread of the process that CPU `c` runs in user mode. -/
theorem Tidy.user (h : Tidy home s) (hrun : s.running home c = some i) :
    ∃ p, s.kernel.cpu c = some (p, i) ∧ (s.table.proc p).state = .running ∧
      (s.table.proc p).ctl = .user ∧ homeOf s.table p = some home ∧
      (s.table.proc p).kstack = some i := by
  unfold Library.running at hrun
  split at hrun
  case h_2 => exact absurd hrun (by simp)
  rename_i p i' hcpu
  split at hrun
  case isFalse => exact absurd hrun (by simp)
  rename_i hmode
  obtain rfl := Option.some.inj hrun
  exact ⟨p, hcpu, hmode.1, hmode.2.1, hmode.2.2, h.sound.running.stack c p i' hcpu⟩

omit [DecidableEq C] in
theorem Tidy.comes (h : Tidy home s) (hrun : s.running home c = some i)
    (hbooks : Books home s.table m s.call) (hfine : Fine home s.table m call)
    (hdiffer : ∀ i', i' ≠ i → Differ call (s.call i')) :
    Books home s.table m (Function.update s.call i call) := by
  obtain ⟨p, -, hstate, -, -, hp⟩ := h.user hrun
  have hst : Stacks s.table := h.sound.handing.kstacks
  refine hbooks.setCall hfine hdiffer (fun _ => hst.fresh p i hp) fun _ q hq => ?_
  obtain rfl := hst.apart q p i hq hp
  simp [Proc.Used, hstate]

omit [DecidableEq C] in
/-- A thread goes on in the library. -/
theorem Tidy.follow (h : Tidy home s) (hrun : s.running home c = some i)
    (hbooks : Books home s.table m (Function.update s.call i call))
    (hkeep : Keeps s.table s.memory m) (hcall : call.underway = false) :
    Tidy home { s.setCall i call with memory := m } := by
  obtain ⟨p, -, -, hk, hhome, hp⟩ := h.user hrun
  exact ⟨h.sound, hbooks, h.stands.follow h.sound.handing.kstacks hp hkeep hhome hk hcall⟩

/-- A thread of the library makes a system call. -/
theorem Tidy.enter {sc : Syscall} (h : Tidy home s) (hrun : s.running home c = some i)
    (hsc : sc.ofThreads = true) (hstep : s.enter c i sc call = some s')
    (hbooks : Books home s.table s.memory (Function.update s.call i call))
    (hfits : ∀ p k, start s.table p sc = some k → call.Fits home s.table s.memory k) :
    Tidy home s' := by
  obtain ⟨p, hcpu, hstate, hk, hhome, -⟩ := h.user hrun
  obtain ⟨K, hK, rfl⟩ := Option.map_eq_some_iff.mp hstep
  have hk' : (s.kernel.table.proc p).ctl = .user := hk
  have hself : ∀ p' i', s.kernel.cpu c = some (p', i') → (s.kernel.table.proc p').ctl = .user := by
    intro p' i' hcpu'
    obtain ⟨rfl, -⟩ := Prod.mk.inj (Option.some.inj (hcpu.symm.trans hcpu'))
    exact hk'
  have hdistinct : Distinct s.kernel (c, .run (.call sc)) := by
    constructor
    case toOrderly =>
      constructor
      case spaced =>
        rintro p' i' q hcpu' (⟨owner, tid, w, hreap⟩ | ⟨kids, hreap, -⟩)
        · exact absurd ((hself p' i' hcpu').symm.trans hreap) (by simp)
        · exact absurd ((hself p' i' hcpu').symm.trans hreap) (by simp)
      case single =>
        intro p' i' owner tid q w hcpu' htake
        exact absurd ((hself p' i' hcpu').symm.trans htake) (by simp)
      case alone =>
        rintro p' i' - - (heq | heq)
        · obtain rfl : sc = .exit := by simpa using heq
          exact absurd hsc (by decide)
        · obtain rfl : sc = .wait := by simpa using heq
          exact absurd hsc (by decide)
    case next => exact fun p' i' _ hpick => absurd hpick (by simp)
    case few => exact fun p' i' _ hpick => absurd hpick (by simp)
  have hsound := h.sound.step (step_cases hK) hdistinct
  have hbody : ∀ {p' i' t n}, s.kernel.cpu c = some (p', i') →
      body s.kernel.table p' (s.kernel.table.proc p').ctl (.call sc) = some (t, n) →
      p' = p ∧ i' = i ∧ ∃ k, start s.table p sc = some k ∧ t = s.table ∧ n = .go k := by
    intro p' i' t n hcpu' hbody
    obtain ⟨rfl, rfl⟩ := Prod.mk.inj (Option.some.inj (hcpu.symm.trans hcpu'))
    rw [hk'] at hbody
    obtain ⟨k, hstart, heq⟩ := Option.map_eq_some_iff.mp hbody
    obtain ⟨rfl, rfl⟩ := Prod.mk.inj heq
    exact ⟨rfl, rfl, k, hstart, rfl, rfl⟩
  cases step_cases hK with
  | go p' i' _ t k hcpu' hcall =>
      obtain ⟨rfl, rfl, k, hstart, rfl, hgo⟩ := hbody hcpu' hcall
      obtain rfl := Next.go.inj hgo
      have hc : Carries home s.table (s.table.goto p' k) := goto_carries
      refine ⟨hsound, hbooks.carries hc fun i j hj => ?_, ?_⟩
      · obtain ⟨-, ⟨q, hq⟩, -⟩ := (hbooks.fine i).new j hj
        exact ⟨q, goto_kstack.trans hq⟩
      · exact h.stands.takes h.sound ⟨h.sound.running, hcpu', hstate, hcall⟩ hc h.books
          ⟨fun _ => (hfits p' k hstart).carries hc .refl rfl, fun hno => absurd hhome hno⟩
  | swtch p' i' _ t k hcpu' hcall =>
      obtain ⟨-, -, k, -, -, hgo⟩ := hbody hcpu' hcall
      exact absurd hgo (by simp)

/-- Every step keeps the library in order. -/
theorem Tidy.step {l : LibAct C} (h : Tidy home s) (hstep : s.step home l = some s')
    (hok : Succeeds s l) : Tidy home s' := by
  cases library_cases hstep with
  | kernel c b K houtside hK => exact h.kernel houtside hK hok
  | bt_new c m1 m2 i hrun hidle hdesc hstack =>
      obtain ⟨h1, h2⟩ := hok
      obtain ⟨hbooks, hfine, hdiffer⟩ := h.books.bt_new h1 h2 (hdesc h1) (hstack h2)
      have hmade : (s.memory.bt_new m1 m2).1 = m1 := by rw [bt_new_eq h1 h2]
      rw [hmade]
      refine h.follow hrun (h.comes hrun hbooks hfine fun i' _ => hdiffer i') ?_ rfl
      rw [bt_new_eq h1 h2]
      exact .refl
  | misaligned c i bt hrun hcall hpage =>
      have hfine := h.books.fine i
      rw [hcall] at hfine
      exact absurd (hfine.building bt rfl).2.2 hpage
  | kthread_create c i bt _ hrun hcall hstep =>
      have hfine := h.books.fine i
      have hdiffer : ∀ i', i' ≠ i → Differ (s.call i) (s.call i') := fun i' hi =>
        h.books.differ i i' hi
      rw [hcall] at hfine hdiffer
      have hbooks := h.comes hrun h.books hfine.creating fun i' hi => (hdiffer i' hi).creating
      refine h.enter hrun rfl hstep hbooks fun p k hstart => ?_
      rw [← Option.some.inj hstart]
      exact ⟨bt, rfl⟩
  | create c i bt new bid hrun hcall =>
      exact h.follow hrun (h.books.create hcall) (h.books.create_keeps hcall) rfl
  | kthread_join c abt i _ hrun hidle hhas hstep =>
      obtain ⟨-, v, j, hbid, hthread, hd⟩ := h.books.handle abt hhas
      have hfine : Fine home s.table s.memory (.joining abt none) := .joining
      have hbooks := h.comes hrun h.books hfine fun _ _ => .joining
      refine h.enter hrun rfl hstep hbooks fun p k hstart => ?_
      have hne : (s.memory.bt abt).bid ≠ 0 := by
        rw [hbid]
        exact_mod_cast hd.nonzero
      unfold start at hstart
      simp only [if_neg hne] at hstart
      rw [← Option.some.inj hstart]
      refine ⟨abt, rfl, v, hbid, hd.nonzero, hd.given, fun q hq hv => ?_⟩
      exact ⟨hhas, j, hthread, (hd.iff q).mpr ⟨hq, hv⟩⟩
  | join c i abt taken retVal hrun hcall =>
      exact h.follow hrun (h.books.join hcall) (h.books.join_keeps hcall) rfl
  | exit c exit_value i _ hrun hidle hstep =>
      refine h.enter hrun rfl hstep h.books.leave fun p k hstart => Call.fits_idle (Or.inl ?_)
      unfold start at hstart
      simp only at hstart
      split at hstart <;> rw [← Option.some.inj hstart] <;> rfl

def unused : Library (Fin 2) where
  kernel := boot
  memory := ⟨fun _ => ⟨0, 0, 0⟩, fun _ => false, fun _ => false, fun _ => false, fun _ => none⟩
  call _ := .idle

end Kthreads
end CS444
