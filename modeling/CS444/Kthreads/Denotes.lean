/-
Which thread an id denotes.

`Denotes` ties an id that a process has handed out to a kernel stack: the thread of the
process that has the id is the one on the stack, as long as there is one.  `Carries` is
what every step of the kernel does to that: ids and stacks are not given out twice, so an
id goes on denoting its thread, and once the thread is reaped it denotes none.
`Sound` collects what is known of the kernel in the runs in which the ids are distinct.
-/
import CS444.Kthreads.Joins
import CS444.Kthreads.Tids

namespace CS444
namespace Kthreads

open Runs

/-! ## The process of a thread -/

/-- The kernel stack of the process that `p` is a thread of, or of `p` itself. -/
def homeOf (t : Table) (p : Slot) : Option Nat := (process t p).bind fun m => (t.proc m).kstack

/-- `q` is a thread of the process with the kernel stack `home`. -/
def OwnThread (home : Nat) (t : Table) (q : Slot) : Prop :=
  (t.proc q).is_thread = true ∧ homeOf t q = some home

instance (home : Nat) (t : Table) (q : Slot) : Decidable (OwnThread home t q) :=
  inferInstanceAs (Decidable (_ ∧ _))

/-- The id `v` was given out by the process and denotes the thread with the kernel stack
`j`, which has been published; neither is there any more once the thread is reaped. -/
structure Denotes (home : Nat) (t : Table) (v j : Nat) : Prop where
  nonzero : v ≠ 0
  given : v ∈ handed t home
  old : j < t.nextstack
  iff : ∀ q, (t.proc q).kstack = some j ↔ OwnThread home t q ∧ (t.proc q).tid = v
  grown : ∀ q, (t.proc q).kstack = some j → (t.proc q).Used

/-- What a step leaves of the threads of the process. -/
structure Carries (home : Nat) (t t' : Table) : Prop where
  denotes : ∀ v j, Denotes home t v j → Denotes home t' v j
  gone : ∀ j < t.nextstack, (∀ q, (t.proc q).kstack ≠ some j) → ∀ q, (t'.proc q).kstack ≠ some j
  next : t.nextstack ≤ t'.nextstack
  exits : ∀ e ∈ t.exits, e ∈ t'.exits
  given : ∀ v ∈ handed t home, v ∈ handed t' home
  named : ∀ q v, v ≠ 0 → v ∈ handed t home → OwnThread home t' q → (t'.proc q).tid = v →
    OwnThread home t q ∧ (t.proc q).tid = v ∧ (t'.proc q).kstack = (t.proc q).kstack
  used : ∀ q i, i < t.nextstack → (t'.proc q).kstack = some i →
    (t.proc q).kstack = some i ∧ ((t.proc q).Used → (t'.proc q).Used)

variable {C : Type} {s s' : Kernel C} {home i j v : Nat} {c : C} {a : Act} {t t' : Table}
  {p q m np : Slot} {pick : Pick} {k k' : Ctl} {n : Next}

theorem ownThread_iff :
    OwnThread home t q ↔ ∃ m, ThreadOf t q m ∧ (t.proc m).kstack = some home := by
  unfold OwnThread homeOf process ThreadOf
  constructor
  · rintro ⟨hself, hhome⟩
    rw [if_pos hself] at hhome
    obtain ⟨m, hm, hstack⟩ := Option.bind_eq_some_iff.mp hhome
    exact ⟨m, ⟨hself, hm⟩, hstack⟩
  · rintro ⟨m, ⟨hself, hm⟩, hstack⟩
    rw [if_pos hself, hm]
    exact ⟨hself, hstack⟩

theorem homeOf_congr (hkin : ∀ q, (t'.proc q).kin = (t.proc q).kin)
    (hstack : ∀ q, (t'.proc q).kstack = (t.proc q).kstack) : homeOf t' q = homeOf t q := by
  have hparent : (t'.proc q).parent = (t.proc q).parent := congrArg Prod.fst (hkin q)
  have hself : (t'.proc q).is_thread = (t.proc q).is_thread := congrArg (fun r => r.2.1) (hkin q)
  unfold homeOf process
  rw [hparent, hself]
  simp only [hstack]

theorem Alike.homeOf (h : Alike t t') : homeOf t' q = CS444.Kthreads.homeOf t q :=
  homeOf_congr (h.keeps Proc.kin fun _ _ _ => rfl) (h.keeps Proc.kstack fun _ _ _ => rfl)

theorem homeOf_goto : homeOf (t.goto p k) q = homeOf t q :=
  homeOf_congr (fun _ => goto_keeps Proc.kin fun _ _ => rfl) fun _ => goto_kstack

/-! ## Steps that have nothing to do with threads -/

theorem Carries.of_same (hkin : ∀ q, (t'.proc q).kin = (t.proc q).kin)
    (hstack : ∀ q, (t'.proc q).kstack = (t.proc q).kstack) (htids : t'.tids = t.tids)
    (hnext : t'.nextstack = t.nextstack) (hexits : t'.exits = t.exits)
    (hused : ∀ q, (t.proc q).Used → (t'.proc q).Used) : Carries home t t' := by
  have htid : ∀ q, (t'.proc q).tid = (t.proc q).tid := fun q => congrArg (fun r => r.2.2) (hkin q)
  have hself : ∀ q, (t'.proc q).is_thread = (t.proc q).is_thread := fun q =>
    congrArg (fun r => r.2.1) (hkin q)
  have hown : ∀ q, OwnThread home t' q ↔ OwnThread home t q := fun q => by
    rw [OwnThread, OwnThread, hself, homeOf_congr hkin hstack]
  have hhanded : handed t' home = handed t home := by rw [handed, handed, htids]
  constructor
  case denotes =>
    rintro v j ⟨hne, hgiven, hold, hiff, hgrown⟩
    refine ⟨hne, hhanded ▸ hgiven, hnext ▸ hold, fun q => ?_, fun q hq => ?_⟩
    · rw [hstack, hown, htid]
      exact hiff q
    · rw [hstack] at hq
      exact hused q (hgrown q hq)
  case gone =>
    intro j _ hgone q
    rw [hstack]
    exact hgone q
  case next => exact hnext.ge
  case exits => exact fun e he => hexits ▸ he
  case given => exact fun v hv => hhanded ▸ hv
  case named => exact fun q v _ _ hq hv => ⟨(hown q).mp hq, (htid q).symm.trans hv, hstack q⟩
  case used => exact fun q i _ hq => ⟨(hstack q).symm.trans hq, hused q⟩

theorem Alike.carries (h : Alike t t') : Carries home t t' :=
  .of_same (h.keeps Proc.kin fun _ _ _ => rfl) (h.keeps Proc.kstack fun _ _ _ => rfl)
    (by rw [h.rest]) (by rw [h.rest]) (by rw [h.rest]) fun _ hq => h.used.mpr hq

theorem goto_carries : Carries home t (t.goto p k) :=
  .of_same (fun _ => goto_keeps Proc.kin fun _ _ => rfl) (fun _ => goto_kstack) rfl rfl rfl
    fun q hq => by rwa [Proc.Used, goto_state]

theorem Carries.trans {t'' : Table} (h : Carries home t t') (h' : Carries home t' t'') :
    Carries home t t'' where
  denotes v j hd := h'.denotes v j (h.denotes v j hd)
  gone j hj hgone := h'.gone j (Nat.lt_of_lt_of_le hj h.next) (h.gone j hj hgone)
  next := Nat.le_trans h.next h'.next
  exits e he := h'.exits e (h.exits e he)
  given v hv := h'.given v (h.given v hv)
  named q v hne hv hq htid := by
    obtain ⟨hown, htid', hstack'⟩ := h'.named q v hne (h.given v hv) hq htid
    obtain ⟨hown, htid, hstack⟩ := h.named q v hne hv hown htid'
    exact ⟨hown, htid, hstack'.trans hstack⟩
  used q i hi hq := by
    obtain ⟨hstack', hused'⟩ := h'.used q i (Nat.lt_of_lt_of_le hi h.next) hq
    obtain ⟨hstack, hused⟩ := h.used q i hi hstack'
    exact ⟨hstack, fun hold => hused' (hused hold)⟩

/-! ## A step of a running process -/

/-- A slot changes its stack when it is made, when its maker gives up and when it is reset. -/
theorem body_kstack (h : BodyStep t p k t' n) (q : Slot) :
    (t'.proc q).kstack = (t.proc q).kstack ∨ (∃ thread, k = .newborn thread q) ∨
      k = .forkUndo q ∨ (t'.proc q).parent = none := by
  have hset : ∀ {u : Table} {r : Slot} {f : Proc → Proc} {b : Prop},
      (u.proc q).kstack = (t.proc q).kstack → (q = r → b) →
      ((u.set r f).proc q).kstack = (t.proc q).kstack ∨ b := by
    intro u r f b hu hb
    by_cases hqr : q = r
    · exact Or.inr (hb hqr)
    · rw [Table.set_of_ne hqr]
      exact Or.inl hu
  cases h with
  | newborn thread np =>
      by_cases hq : q = np
      · exact Or.inr (Or.inl ⟨thread, hq ▸ rfl⟩)
      · exact Or.inl (by simp [initSlot, Table.set_of_ne hq])
  | newbornFail thread np => exact hset rfl fun hq => Or.inl ⟨thread, hq ▸ rfl⟩
  | forkUndo np => exact hset rfl fun hq => Or.inr (Or.inl (hq ▸ rfl))
  | alloc => exact Or.inl (takeSlot_keeps Proc.kstack fun _ _ _ => rfl)
  | forkCopy => exact Or.inl (copyImage_keeps Proc.kstack fun _ _ _ _ => rfl)
  | storeTid => exact Or.inl (takeTid_keeps Proc.kstack (fun _ _ => rfl) fun _ _ => rfl)
  | joinTake owner tid r v =>
      rw [takeThread, Table.joinReset]
      refine hset (Table.set_keeps Proc.kstack fun _ => rfl) fun hq => ?_
      rw [hq, Table.set_self]
      exact Or.inr (Or.inr rfl)
  | threadExit2 => exact Or.inl (threadZombie_keeps Proc.kstack fun _ _ => rfl)
  | exitSched => exact Or.inl (exitBody_keeps Proc.kstack (fun _ _ => rfl) fun _ _ => rfl)
  | waitTake r kids =>
      refine hset rfl fun hq => ?_
      rw [hq, Table.waitReset, Table.set_self]
      exact Or.inr (Or.inr rfl)
  | execCommit => exact Or.inl (commitImage_keeps Proc.kstack fun _ _ _ => rfl)
  | _ => first | exact Or.inl rfl | exact Or.inl (Table.set_keeps Proc.kstack fun _ => rfl)

/-- A slot that is reaped gives up its stack. -/
theorem reaped_kstack (h : BodyStep t p k t' n) (hreap : Reaps t p k q)
    (hzombie : (t.proc q).state = .zombie) (hfree : (t'.proc q).state = .unused) :
    (t'.proc q).kstack = none := by
  have hsame : t' ≠ t := by
    rintro rfl
    exact absurd (hzombie.symm.trans hfree) (by decide)
  rcases hreap with ⟨owner, tid, v, rfl⟩ | ⟨kids, hk, hchild, -⟩
  · cases h with
    | preempt | block => exact absurd rfl hsame
    | joinTake => rw [takeThread, Table.joinReset, Table.set_self]
  · cases h with
    | waitTake r kids' =>
        obtain rfl : r = q := Fin.ext (Ctl.waitScan.inj hk).1
        rw [Table.waitReset, Table.set_self]
    | waitSleep =>
        rw [Table.set_apply] at hfree
        split at hfree
        · exact absurd hfree (by simp)
        · exact absurd (hzombie.symm.trans hfree) (by decide)
    | preempt | block | waitNext | waitNone => exact absurd rfl hsame
    | _ => exact absurd hk (by simp)

namespace Takes

variable (h : Takes s c p i pick t n) (hfam : Family s.table)

include h

/-- A slot in use that keeps a stack stays in use. -/
theorem keeps_used (hused : (s.table.proc q).Used) (hstack : (t.proc q).kstack ≠ none) :
    (t.proc q).Used := by
  have hno : ∀ st, (s.table.proc q).state = st → st ≠ .unused ∧ st ≠ .embryo := by
    rintro st rfl
    exact hused
  by_cases hqp : q = p
  · subst hqp
    rcases h.own with hact | ⟨hzombie, -⟩
    · exact hact.used
    · simp [Proc.Used, hzombie]
  cases body_touch h.body hqp with
  | rest hwoken =>
      cases hwoken with
      | same hkey => rwa [Proc.Used, (key_eq_iff.mp hkey).1]
      | woken _ hstate => simp [Proc.Used, hstate]
  | taken hfree => exact absurd rfl (hno _ hfree).1
  | made hmake hstate => rwa [Proc.Used, hstate]
  | dropped hdrop => exact absurd rfl (hno _ (h.embryo (Touch.creating_of_dropped hdrop))).2
  | published _ _ hstate => simp [Proc.Used, hstate]
  | reaped hreap _ hfree =>
      exact absurd (reaped_kstack h.body hreap (h.inv.reaps h.cpu h.run hreap).1 hfree) hstack

include hfam

/-- A thread that stays one stays on its stack. -/
theorem thread_kstack {m' : Slot} (hq : ThreadOf s.table q m) (hq' : ThreadOf t q m') :
    (t.proc q).kstack = (s.table.proc q).kstack := by
  have hlinked : (s.table.proc q).parent ≠ none := by simp [hq.2]
  rcases body_kstack h.body q with hsame | ⟨thread, hk⟩ | hk | hnone
  · exact hsame
  · exact absurd (h.stage hfam hk) hlinked
  · exact absurd (h.stage hfam hk) hlinked
  · exact absurd (hnone.symm.trans hq'.2) (by simp)

theorem homeOf_same (hq : (s.table.proc q).Active) : homeOf t q = homeOf s.table q := by
  rw [homeOf, homeOf, (h.process_same hfam hq).2]
  obtain ⟨m, hm⟩ := hfam.has_process hq
  rw [hm]
  show (t.proc m).kstack = (s.table.proc m).kstack
  rw [process] at hm
  split at hm
  · rename_i hself
    exact h.kstack_same (hfam.host q m ⟨hself, hm⟩).1
  · obtain rfl := Option.some.inj hm
    exact h.kstack_same hq

variable (hh : Handing s) (hnames : Names s.table) (hok : Few (2 ^ 16 - 1) s (c, .run pick))

include hh hok

/-- A thread that has an id which its process had handed out had that id and its stack. -/
theorem own_old (hne : v ≠ 0) (hgiven : v ∈ handed s.table home) (hq : OwnThread home t q)
    (htid : (t.proc q).tid = v) : OwnThread home s.table q ∧ (s.table.proc q).tid = v ∧
      (t.proc q).kstack = (s.table.proc q).kstack := by
  obtain ⟨m, hm, hhome⟩ := ownThread_iff.mp hq
  rcases h.tid_cases hfam hm with ⟨hsame, hold⟩ | ⟨hzero, -⟩ | ⟨w, hk, hgo, hw⟩
  · have hstack := h.kstack_same (hfam.host q m hold).1
    exact ⟨ownThread_iff.mpr ⟨m, hold, hstack.symm.trans hhome⟩, hsame.symm.trans htid,
      h.thread_kstack hfam hold hm⟩
  · exact absurd (htid.symm.trans hzero) hne
  · -- An id that is handed out now was not handed out before.
    have hnext : pick = .next := by
      refine body_next_of_go h.step (Or.inr (Or.inl ⟨q, m, w, hk⟩)) ?_
      rw [hgo, hk]
      simp [Ctl.core]
    obtain ⟨-, j, hj, heq⟩ := h.next_number hfam hh.numbers hh.held hk
    obtain ⟨-, hnew⟩ := hh.numbers.next_new heq (hok p i h.cpu (by rw [hnext]) q m w hk j hj)
    have hlinked : _ ∧ _ := h.stage hfam hk
    have hstack := h.kstack_same (hfam.host q m hlinked.1.1).1
    obtain rfl : j = home := Option.some.inj (hj.symm.trans (hstack.symm.trans hhome))
    exact absurd (hw.symm.trans htid ▸ hgiven) hnew

theorem denotes (hd : Denotes home s.table v j) : Denotes home t v j := by
  obtain ⟨hne, hgiven, hold, hiff, hgrown⟩ := hd
  obtain ⟨hnext, hstacks⟩ := body_stack_old h.body
  have hbefore : ∀ q, (t.proc q).kstack = some j → (s.table.proc q).kstack = some j := by
    intro q hq
    rcases hstacks q j hq with hsame | rfl
    · exact hsame
    · exact absurd hold (Nat.lt_irrefl _)
  refine ⟨hne, (body_naming h.body).handed hgiven, Nat.lt_of_lt_of_le hold hnext, fun q => ?_,
    fun q hq => h.keeps_used (hgrown q (hbefore q hq)) (by simp [hq])⟩
  constructor
  · intro hq
    obtain ⟨hown, htid⟩ := (hiff q).mp (hbefore q hq)
    obtain ⟨m, hm, hhome⟩ := ownThread_iff.mp hown
    rcases h.thread_lost hfam hm with hkeep | ⟨hfree, tid, w, hk⟩
    · refine ⟨ownThread_iff.mpr ⟨m, hkeep, ?_⟩, ?_⟩
      · exact (h.kstack_same (hfam.host q m hm).1).trans hhome
      · exact (h.tid_same hfam hm (by omega)).trans htid
    · have hreap : Reaps s.table p (s.table.proc p).ctl q := Or.inl ⟨m, tid, w, hk⟩
      have hzombie := (h.inv.reaps h.cpu h.run hreap).1
      exact absurd ((reaped_kstack h.body hreap hzombie hfree).symm.trans hq) (by simp)
  · rintro ⟨hown, htid⟩
    obtain ⟨hown, htid, hstack⟩ := h.own_old hfam hh hok hne hgiven hown htid
    exact hstack.trans ((hiff q).mpr ⟨hown, htid⟩)

theorem carries : Carries home s.table t where
  denotes _ _ hd := h.denotes hfam hh hok hd
  gone j hj hgone q hq := by
    rcases (body_stack_old h.body).2 q j hq with hsame | rfl
    · exact hgone q hsame
    · exact absurd hj (Nat.lt_irrefl _)
  next := (body_stack_old h.body).1
  exits e he := by
    cases body_record h.body with
    | same hexits => exact hexits ▸ he
    | exited w hk ht => exact ht ▸ List.mem_append_right _ he
    | joined owner tid q w hk ht => exact ht ▸ he
  given v hv := (body_naming h.body).handed hv
  named q v hne hv hq htid := h.own_old hfam hh hok hne hv hq htid
  used q i hi hq := by
    rcases (body_stack_old h.body).2 q i hq with hsame | rfl
    · exact ⟨hsame, fun hold => h.keeps_used hold (by simp [hq])⟩
    · exact absurd hi (Nat.lt_irrefl _)

omit hh hok

/-- Only a join of the process takes a thread that an id denotes. -/
theorem denoted_stays (hd : Denotes home s.table v j) (hq : (s.table.proc q).kstack = some j) :
    (t.proc q).kstack = some j ∨ (∃ owner tid w, (s.table.proc p).ctl = .joinTake owner tid q w) ∧
      homeOf s.table p = some home := by
  obtain ⟨m, hm, hhome⟩ := ownThread_iff.mp ((hd.iff q).mp hq).1
  rcases h.thread_lost hfam hm with hkeep | ⟨-, tid, w, hk⟩
  · exact Or.inl ((h.thread_kstack hfam hm hkeep).trans hq)
  · refine Or.inr ⟨⟨m, tid, w, hk⟩, ?_⟩
    obtain ⟨hcaller, -⟩ := h.stage hfam hk
    rw [homeOf, ← hcaller]
    exact hhome

/-- A thread that is published is denoted by the id that `kthread_create` returns. -/
theorem published {owner : Slot} (hst : Stacks s.table) (hnames : Names s.table)
    (hhome : homeOf s.table p = some home)
    (hk : (s.table.proc p).ctl = .publish np (some owner)) :
    t = (s.table.set np fun r => { r with state := .runnable }) ∧
      n = .go (.release (.ret (s.table.proc np).tid)) ∧ (s.table.proc np).state = .embryo ∧
      ∃ j, (s.table.proc np).kstack = some j ∧ Denotes home t (s.table.proc np).tid j := by
  have hlinked : ThreadOf s.table np owner ∧ process s.table p = some owner := h.stage hfam hk
  obtain ⟨⟨j, hj⟩, -⟩ := h.inv.born p np h.active (by rw [hk]; rfl)
  have hmake : (s.table.proc p).ctl.creating = some np := by rw [hk]; rfl
  have howner : (s.table.proc owner).kstack = some home := by
    rw [homeOf, hlinked.2] at hhome
    exact hhome
  have hstep : t = (s.table.set np fun r => { r with state := .runnable }) ∧
      n = .go (.release (.ret (s.table.proc np).tid)) := by
    have hstep := h.step
    rw [hk] at hstep
    have hnone : (none : Option (Table × Next)) ≠ some (t, n) := by simp
    have hopen : ∀ (b : Prop) [Decidable b] (x : Table × Next),
        (if b then some x else none) = some (t, n) → b := by
      intro b _ x heq
      by_contra hb
      rw [if_neg hb] at heq
      exact hnone heq
    cases pick with
    | next =>
        obtain ⟨rfl, rfl⟩ := Prod.mk.inj (Option.some.inj hstep)
        exact ⟨rfl, rfl⟩
    | preempt | block => exact absurd (hopen _ _ hstep).2 (by simp [Ctl.locked])
    | slot x | page x => cases x <;> exact absurd hstep hnone
    | done x => cases x <;> exact absurd hstep hnone
    | _ => exact absurd hstep hnone
  -- The id was stored before the slot is published.
  have hne : (s.table.proc np).tid ≠ 0 := by
    intro hzero
    obtain ⟨r, hr, hnp⟩ := hnames.unnamed np owner hlinked.1 hzero
    obtain rfl := h.inv.maker r p np hr h.active
      (Ctl.creating_of_uncounted (uncounted_of_unnamed hnp)) hmake
    rw [hk] at hnp
    exact absurd hnp (by simp [Ctl.unnamed, Ctl.core])
  have hown : OwnThread home s.table np := ownThread_iff.mpr ⟨owner, hlinked.1, howner⟩
  obtain ⟨rfl, hgo⟩ := hstep
  refine ⟨rfl, hgo, h.embryo hmake, j, hj, ?_⟩
  have hkin : ∀ q, ((s.table.set np fun r => { r with state := .runnable }).proc q).kin =
      (s.table.proc q).kin := fun q => Table.set_keeps Proc.kin fun _ => rfl
  have hkeep : ∀ q, ((s.table.set np fun r => { r with state := .runnable }).proc q).kstack =
      (s.table.proc q).kstack := fun q => Table.set_keeps Proc.kstack fun _ => rfl
  have htid : ∀ q, ((s.table.set np fun r => { r with state := .runnable }).proc q).tid =
      (s.table.proc q).tid := fun q => Table.set_keeps Proc.tid fun _ => rfl
  have hself : ∀ q, ((s.table.set np fun r => { r with state := .runnable }).proc q).is_thread =
      (s.table.proc q).is_thread := fun q => Table.set_keeps Proc.is_thread fun _ => rfl
  refine ⟨hne, hnames.given np owner home hlinked.1 hne howner, hst.fresh np j hj, fun q => ?_,
    fun q hq => ?_⟩
  · rw [hkeep, htid, OwnThread, hself, homeOf_congr hkin hkeep]
    constructor
    · intro hq
      obtain rfl := hst.apart q np j hq hj
      exact ⟨hown, rfl⟩
    · rintro ⟨hq, heq⟩
      obtain ⟨m, hm, hmhome⟩ := ownThread_iff.mp hq
      obtain rfl := hst.apart m owner home hmhome howner
      rw [hnames.distinct np q m hlinked.1 hm hne heq]
      exact hj
  · rw [hkeep] at hq
    obtain rfl := hst.apart q np j hq hj
    simp [Proc.Used]

/-- A join takes a thread of the process, with the value that this exited with. -/
theorem taken {owner : Slot} {tid : Int} {w : Nat} (hst : Stacks s.table) (hpast : History s.table)
    (hhome : homeOf s.table p = some home)
    (hk : (s.table.proc p).ctl = .joinTake owner tid q w) :
    n = .go (.release (.ret (s.table.proc q).thread_exit_value)) ∧
      OwnThread home s.table q ∧ ((s.table.proc q).tid : Int) = tid ∧
      ∃ j, (s.table.proc q).kstack = some j ∧
        (j, (s.table.proc q).thread_exit_value) ∈ s.table.exits ∧
        ∀ r, (t.proc r).kstack ≠ some j := by
  obtain ⟨hcaller, -, htid, m, hm, hthread⟩ := h.stage hfam hk
  obtain rfl := Option.some.inj hm
  have howner : (s.table.proc owner).kstack = some home := by
    rw [homeOf, ← hcaller] at hhome
    exact hhome
  have hzombie := (h.inv.target p q h.active (by rw [hk]; rfl)).2
  obtain ⟨j, hj, hexit, -⟩ := hpast.zombie q ⟨hzombie, hthread.1⟩
  have hbody := h.body
  rw [hk] at hbody
  cases hbody with
  | preempt _ _ hopen | block _ _ _ hopen => exact absurd hopen (by simp [Ctl.locked])
  | joinTake =>
      refine ⟨rfl, ownThread_iff.mpr ⟨owner, hthread, howner⟩, htid, j, hj, hexit, fun r hr => ?_⟩
      have hold : (s.table.proc r).kstack = some j := by
        rcases (body_stack_old h.body).2 r j hr with hsame | rfl
        · exact hsame
        · exact absurd (hst.fresh q _ hj) (Nat.lt_irrefl _)
      obtain rfl := hst.apart r q j hold hj
      rw [takeThread, Table.joinReset, Table.set_self] at hr
      exact absurd hr (by simp)

end Takes

/-! ## What is known of the kernel -/

structure Sound (s : Kernel C) : Prop where
  running : Running s
  family : Family s.table
  handing : Handing s
  names : Names s.table
  past : History s.table

theorem boot_sound (h : Boot s) : Sound s :=
  ⟨boot_running h, boot_family h, boot_handing h, boot_names h, boot_history h⟩

theorem Sound.step [DecidableEq C] (h : Sound s) (hstep : CpuStep s c a s')
    (hok : Distinct s (c, a)) : Sound s' where
  running := h.running.step hstep hok.spaced
  family := h.family.step h.running hstep hok.toOrderly
  handing := h.handing.step h.running h.family hstep hok.next (hok.few.mono (by decide))
  names := h.names.step h.handing h.running h.family hstep hok.few
  past := h.past.step h.running h.family h.handing.kstacks hstep

end Kthreads
end CS444
