/-
`kill` and the slots that are no process.

`kill` looks for the pid alone, and free slots have pids: 0 from boot or from
`wait`, -1 from `kthread_join`, or the one they had when `allocproc` or `fork`
failed.  As long as it finds none of these, and no slot under construction, a
slot that is not in use is not marked as killed, whatever else the CPUs do:
`kill` alone sets the mark, and the reapers and `kthread_exit` clear it.
-/
import CS444.Kthreads.Steps

namespace CS444
namespace Kthreads

open Runs

/-- The slot `kill(pid)` finds. -/
def found (t : Table) (pid : Int) : Option Slot :=
  (List.finRange NPROC).find? fun q => (t.proc q).pid = pid

/-- What `kill` makes of it. -/
def marked (r : Proc) : Proc :=
  { r with killed := true, state := if r.state = .sleeping then .runnable else r.state }

theorem marked_used {r : Proc} (h : r.Used) : (marked r).Used := by
  by_cases hsleep : r.state = .sleeping
  · simp [marked, Proc.Used, hsleep]
  · simpa [marked, Proc.Used, hsleep] using h

/-- The slot a step finds if it is the scan of `kill`. -/
def hit {C : Type} (s : Kernel C) (l : C × Act) : Option Slot :=
  match s.cpu l.1, l.2 with
  | some (p, _), .run .next =>
    match (s.table.proc p).ctl with
    | .killScan pid => found s.table pid
    | _ => none
  | _, _ => none

/-- What `kill` finds is in use, and no `fork` or `kthread_create` is making it. -/
def KillsUsed {C : Type} (s : Kernel C) (l : C × Act) : Prop :=
  ∀ q ∈ hit s l, (s.table.proc q).Used ∧ ∀ r, (s.table.proc r).ctl.creating ≠ some q

/-- What is not in use, or still being made, is not killed. -/
structure Fresh (t : Table) : Prop where
  free : ∀ q, ¬ (t.proc q).Used → (t.proc q).killed = false
  made : ∀ p q, (t.proc p).ctl.creating = some q → (t.proc q).killed = false

/-- The step from `k` does not mark `q`, and it takes `q` out of use only when it
was making it. -/
structure Harmless (k : Ctl) (q : Slot) (r r' : Proc) : Prop where
  killed : r'.killed = true → r.killed = true
  used : ¬ r'.Used → r'.killed = false ∨ ¬ r.Used ∨ k.creating = some q
  ctl : r'.ctl = r.ctl ∨ r'.ctl = .release .user

variable {C : Type} {s s' : Kernel C} {c : C} {a : Act} {t t₁ t' : Table} {p q m : Slot} {k : Ctl}
  {n : Next} {pid : Int} {r r₁ r' : Proc}

/-! ## One step of a thread -/

/-- What a harmless step may not write freely. -/
def Proc.mark (r : Proc) : Bool × ProcState × Ctl := (r.killed, r.state, r.ctl)

theorem Harmless.of_mark (hmark : r'.mark = r.mark) : Harmless k q r r' := by
  simp only [Proc.mark, Prod.mk.injEq] at hmark
  obtain ⟨hkilled, hstate, hctl⟩ := hmark
  refine ⟨fun h => hkilled.symm.trans h, fun hused => Or.inr (Or.inl ?_), Or.inl hctl⟩
  rw [Proc.Used, ← hstate]
  exact hused

theorem Harmless.unmarked (h : Harmless k q r r') (hr : r.killed = false) : r'.killed = false := by
  by_contra hmark
  have hmark' := h.killed (by simpa using hmark)
  rw [hr] at hmark'
  exact absurd hmark' (by simp)

theorem Harmless.trans (hab : Harmless k q r r₁) (hbc : Harmless k q r₁ r') :
    Harmless k q r r' := by
  refine ⟨fun h => hab.killed (hbc.killed h), fun hused => ?_, ?_⟩
  · rcases hbc.used hused with hkilled | hfree | hmade
    · exact Or.inl hkilled
    · rcases hab.used hfree with hkilled | hfree' | hmade
      · refine Or.inl ?_
        exact hbc.unmarked hkilled
      · exact Or.inr (Or.inl hfree')
      · exact Or.inr (Or.inr hmade)
    · exact Or.inr (Or.inr hmade)
  · rcases hbc.ctl with hctl | hctl
    · rw [hctl]
      exact hab.ctl
    · exact Or.inr hctl

/-- Writing a state of a slot in use. -/
theorem Harmless.of_used (hkilled : r'.killed = r.killed) (hused : r'.Used)
    (hctl : r'.ctl = r.ctl) : Harmless k q r r' :=
  ⟨fun h => hkilled.symm.trans h, fun h => absurd hused h, Or.inl hctl⟩

/-- Clearing the mark. -/
theorem Harmless.of_clear (hkilled : r'.killed = false) (hctl : r'.ctl = r.ctl) :
    Harmless k q r r' := by
  refine ⟨fun h => ?_, fun _ => Or.inl hkilled, Or.inl hctl⟩
  rw [hkilled] at h
  exact absurd h (by simp)

/-- Writing one slot. -/
theorem harmless_set {f : Proc → Proc} (h : Harmless k m (t.proc m) (f (t.proc m))) :
    Harmless k q (t.proc q) ((t.set m f).proc q) := by
  by_cases hq : q = m
  · subst hq
    rw [Table.set_self]
    exact h
  · rw [Table.set_of_ne hq]
    exact .of_mark rfl

theorem Harmless.of_woken (hkilled : (t'.proc q).killed = (t.proc q).killed)
    (h : Woken t t' q) : Harmless k q (t.proc q) (t'.proc q) := by
  cases h with
  | same hkey =>
      obtain ⟨hstate, hctl, -⟩ := key_eq_iff.mp hkey
      exact .of_mark (by simp only [Proc.mark, hkilled, hstate, hctl])
  | woken _ hstate hctl => exact .of_used hkilled (by simp [Proc.Used, hstate]) hctl

theorem wakeup1_harmless (chan : Chan) : Harmless k q (t.proc q) ((t.wakeup1 chan).proc q) :=
  .of_woken (wakeup1_keeps Proc.killed chan fun _ => rfl) (wakeup1_woken chan q)

theorem exitBody_harmless : Harmless k q (t.proc q) ((t.exitBody p).proc q) := by
  obtain ⟨t₁, heq, hwoken⟩ := exitBody_eq t p
  have hkilled : (t₁.proc q).killed = (t.proc q).killed := by
    have hall : ((t.exitBody p).proc q).killed = (t.proc q).killed :=
      exitBody_keeps Proc.killed (fun _ _ => rfl) fun _ _ => rfl
    have hset : ((t.exitBody p).proc q).killed = (t₁.proc q).killed := by
      rw [heq]
      exact Table.set_keeps Proc.killed fun _ => rfl
    exact hset.symm.trans hall
  rw [heq]
  apply (Harmless.of_woken hkilled (hwoken q)).trans
  exact harmless_set (.of_used rfl ⟨by simp, by simp⟩ rfl)

theorem takeThread_harmless {owner : Slot} {v : Nat} :
    Harmless k q (t.proc q) ((takeThread t owner m v).proc q) := by
  have hreset : ∀ u : Table, Harmless k q (u.proc q) ((u.joinReset m).proc q) :=
    fun u => harmless_set (.of_clear rfl rfl)
  rw [takeThread]
  refine Harmless.trans (.of_mark ?_) (hreset _)
  refine (Table.set_keeps Proc.mark fun _ => ?_).trans rfl
  simp only [Proc.mark]

/-- Every step but the scan of `kill`. -/
theorem body_harmless (h : BodyStep t p k t' n) (hk : ∀ pid, k ≠ .killScan pid) (q : Slot) :
    Harmless k q (t.proc q) (t'.proc q) := by
  cases h with
  | yieldSched | sleepSched | publish | waitSleep =>
      exact harmless_set (.of_used rfl ⟨by simp, by simp⟩ rfl)
  | threadExit2 v =>
      show Harmless _ q _ ((t.set p fun r => { r with state := .zombie }).proc q)
      exact harmless_set (.of_used rfl ⟨by simp, by simp⟩ rfl)
  | alloc thread np hfree =>
      show Harmless _ q _ ((t.set np fun r =>
        { r with state := .embryo, pid := t.nextpid }).proc q)
      refine harmless_set ⟨id, fun _ => Or.inr (Or.inl ?_), Or.inl rfl⟩
      simp [Proc.Used, hfree]
  | newbornFail | forkUndo =>
      exact harmless_set ⟨id, fun _ => Or.inr (Or.inr rfl), Or.inl rfl⟩
  | newborn thread np =>
      show Harmless _ q _ ((t.set np fun r =>
        { r with
          kstack := some t.nextstack, ctl := .release .user, is_thread := false, tid := 0,
          next_tid := 1, thread_exit_value := 0, thread_count := 0 }).proc q)
      exact harmless_set ⟨id, fun _ => Or.inr (Or.inr rfl), Or.inr rfl⟩
  | forkCopy np d => exact .of_mark (copyImage_keeps Proc.mark fun _ _ _ _ => rfl)
  | storeTid np owner v => exact .of_mark (takeTid_keeps Proc.mark (fun _ _ => rfl) fun _ _ => rfl)
  | execCommit d sz => exact .of_mark (commitImage_keeps Proc.mark fun _ _ _ => rfl)
  | storeParent | storeCount | threadExit1 | growStore =>
      exact .of_mark (Table.set_keeps Proc.mark fun _ => rfl)
  | joinTake owner tid q' v => exact takeThread_harmless
  | threadExit v => exact harmless_set (.of_clear rfl rfl)
  | waitTake q' kids =>
      show Harmless _ q _ ((t.set q' fun r => { r with
        kstack := none, pid := 0, parent := none, killed := false, state := .unused }).proc q)
      exact harmless_set (.of_clear rfl rfl)
  | exitSched => exact exitBody_harmless
  | kill pid => exact absurd rfl (hk pid)
  | _ => exact .of_mark rfl

/-- The scan of `kill`. -/
theorem kill_cases {pick : Pick} (h : body t p (.killScan pid) pick = some (t', n)) :
    pick = .next ∧ (t' = t ∧ n = .go (.release (.ret (-1))) ∨ ∃ q, found t pid = some q ∧
      t' = t.set q marked ∧ n = .go (.release (.ret 0))) := by
  cases pick with
  | next =>
      refine ⟨rfl, ?_⟩
      delta body at h
      dsimp only at h
      split at h
      · obtain ⟨rfl, rfl⟩ := Prod.mk.inj (Option.some.inj h)
        exact Or.inl ⟨rfl, rfl⟩
      · rename_i q hq
        obtain ⟨rfl, rfl⟩ := Prod.mk.inj (Option.some.inj h)
        exact Or.inr ⟨q, hq, rfl, rfl⟩
  | preempt | block =>
      have hlocked : ¬((t.proc p).state = .running ∧ (Ctl.killScan pid).locked = false) :=
        fun h => absurd h.2 (by simp [Ctl.locked])
      exact absurd ((if_neg hlocked).symm.trans h) (by simp)
  | slot o | page o | done o =>
      cases o <;> exact absurd (show (none : Option (Table × Next)) = some _ from h) (by simp)
  | _ => exact absurd (show (none : Option (Table × Next)) = some _ from h) (by simp)

/-! ## The invariant -/

theorem Fresh.goto (hf : Fresh t) (hk : ∀ q, k.creating = some q → (t.proc q).killed = false) :
    Fresh (t.goto p k) := by
  have hkilled : ∀ q, ((t.goto p k).proc q).killed = (t.proc q).killed :=
    fun q => goto_keeps Proc.killed fun _ _ => rfl
  refine ⟨fun q hq => ?_, fun r q hr => ?_⟩
  · rw [Proc.Used, goto_state] at hq
    rw [hkilled]
    exact hf.free q hq
  · rw [hkilled]
    by_cases hrp : r = p
    · subst hrp
      rw [goto_ctl_self] at hr
      exact hk q hr
    · rw [goto_of_ne hrp] at hr
      exact hf.made r q hr

theorem Fresh.harmless (hf : Fresh t)
    (h : ∀ q, Harmless (t.proc p).ctl q (t.proc q) (t'.proc q)) : Fresh t' := by
  refine ⟨fun q hq => ?_, fun r q hr => (h q).unmarked (hf.made r q ?_)⟩
  · rcases (h q).used hq with hclear | hfree | hmade
    · exact hclear
    · exact (h q).unmarked (hf.free q hfree)
    · exact (h q).unmarked (hf.made p q hmade)
  · rcases (h r).ctl with hctl | hctl
    · rwa [hctl] at hr
    · rw [hctl] at hr
      exact absurd hr (by simp [Ctl.creating])

theorem KillsUsed.found (hok : KillsUsed s (c, .run .next)) {i : Nat} (hcpu : s.cpu c = some (p, i))
    (hk : (s.table.proc p).ctl = .killScan pid) (hq : Kthreads.found s.table pid = some q) :
    (s.table.proc q).Used ∧ ∀ r, (s.table.proc r).ctl.creating ≠ some q := by
  apply hok
  simp only [hit, hcpu, hk]
  exact hq

theorem Fresh.marked (hf : Fresh t) (hused : (t.proc q).Used)
    (hmaker : ∀ r, (t.proc r).ctl.creating ≠ some q) : Fresh (t.set q Kthreads.marked) := by
  refine ⟨fun r hr => ?_, fun r m hr => ?_⟩
  · have hne : r ≠ q := by
      rintro rfl
      rw [Table.set_self] at hr
      exact hr (marked_used hused)
    rw [Table.set_of_ne hne] at hr ⊢
    exact hf.free r hr
  · have hctl : ((t.set q Kthreads.marked).proc r).ctl = (t.proc r).ctl :=
      Table.set_keeps Proc.ctl fun _ => rfl
    rw [hctl] at hr
    have hne : m ≠ q := by
      rintro rfl
      exact hmaker r hr
    rw [Table.set_of_ne hne]
    exact hf.made r m hr

/-- A step of a thread that is no hit of `kill` on a slot out of use. -/
theorem Fresh.body {pick : Pick} (hf : Fresh t)
    (hstep : body t p (t.proc p).ctl pick = some (t', n))
    (hkill : ∀ pid q, pick = .next → (t.proc p).ctl = .killScan pid → found t pid = some q →
      (t.proc q).Used ∧ ∀ r, (t.proc r).ctl.creating ≠ some q) :
    Fresh (t'.goto p n.ctl) := by
  by_cases hscan : ∃ pid, (t.proc p).ctl = .killScan pid
  · obtain ⟨pid, hk⟩ := hscan
    rw [hk] at hstep
    obtain ⟨rfl, ⟨rfl, rfl⟩ | ⟨q, hq, rfl, rfl⟩⟩ := kill_cases hstep
    · exact hf.goto fun q hq => absurd hq (by simp [Next.ctl, Ctl.creating])
    · obtain ⟨hused, hmaker⟩ := hkill pid q rfl hk hq
      exact (hf.marked hused hmaker).goto fun r hr =>
        absurd hr (by simp [Next.ctl, Ctl.creating])
  · have hbody := body_step hstep
    have hharm := body_harmless hbody fun pid h => hscan ⟨pid, h⟩
    refine (hf.harmless hharm).goto fun q hq => (hharm q).unmarked ?_
    rcases body_creating hbody hq with hold | ⟨hfree, -⟩
    · exact hf.made p q hold
    · exact hf.free q (by simp [Proc.Used, hfree])

theorem boot_fresh (h : Boot s) : Fresh s.table := by
  have hkilled : ∀ q, (s.table.proc q).killed = false := by
    intro q
    by_cases hq : q = initproc
    · rw [hq, h.init]
    · rw [h.unused q hq]
  exact ⟨fun q _ => hkilled q, fun _ q _ => hkilled q⟩

/-- A step of any CPU. -/
theorem Fresh.step [DecidableEq C] (hf : Fresh s.table) (hstep : CpuStep s c a s')
    (hok : KillsUsed s (c, a)) : Fresh s'.table := by
  have hrelock : ∀ p i k, s.cpu c = some (p, i) → k.creating = (s.table.proc p).ctl.creating →
      Fresh (s.table.goto p k) := by
    intro p i k _ hsame
    refine hf.goto fun q hq => hf.made p q ?_
    rw [← hsame, hq]
  cases hstep with
  | enter | rest => exact hf
  | dispatch p i =>
      refine hf.harmless (p := p) fun q => ?_
      show Harmless _ q _ ((s.table.set p fun r => { r with state := .running }).proc q)
      exact harmless_set (.of_used rfl ⟨by simp, by simp⟩ rfl)
  | wakeup m => exact hf.harmless (p := initproc) fun q => wakeup1_harmless _
  | acquire p i k hcpu hctl => exact hrelock p i k hcpu (by rw [hctl]; rfl)
  | release p i k hcpu hctl => exact hrelock p i k hcpu (by rw [hctl]; rfl)
  | go p i pick t k hcpu hbody =>
      refine hf.body hbody fun pid q hpick hk hq => ?_
      subst hpick
      exact hok.found hcpu hk hq
  | swtch p i pick t k hcpu hbody =>
      refine hf.body hbody fun pid q hpick hk hq => ?_
      subst hpick
      exact hok.found hcpu hk hq

theorem run_fresh [DecidableEq C] {tr : List (C × Act)} (h : Run (kthreads C) KillsUsed tr s) :
    Fresh s.table :=
  h.invariant (fun _ hboot => boot_fresh hboot)
    fun _ _ _ hf hstep hok => hf.step (step_cases hstep) hok

/-! ## The result -/

theorem found_pid (h : found t pid = some q) : (t.proc q).pid = pid := by
  simpa using List.find?_some h

/-- In every run in which `kill` finds no slot that is out of use or being made,
those slots are not marked, and a `kill` changes nothing but a process with the
pid, and returns 0 only if there is one. -/
theorem newborn_unmarked [DecidableEq C] {tr : List (C × Act)}
    (h : Run (kthreads C) KillsUsed tr s) :
    (∀ q, (s.table.proc q).state = .unused ∨ (s.table.proc q).state = .embryo →
      (s.table.proc q).killed = false) ∧
    ∀ c p i pid pick s', s.cpu c = some (p, i) → (s.table.proc p).ctl = .killScan pid →
      KillsUsed s (c, .run pick) → step s c (.run pick) = some s' →
      (∀ q, { s'.table.proc q with ctl := (s.table.proc q).ctl } ≠ s.table.proc q →
        (s.table.proc q).state ≠ .unused ∧ (s.table.proc q).pid = pid) ∧
      ((s'.table.proc p).ctl = .release (.ret 0) →
        ∃ q, (s.table.proc q).state ≠ .unused ∧ (s.table.proc q).pid = pid) := by
  refine ⟨fun q hq => (run_fresh h).free q ?_, fun c p i pid pick s' hcpu hk hok hstep => ?_⟩
  · rintro ⟨hunused, hembryo⟩
    exact hq.elim hunused hembryo
  obtain ⟨t, n, hbody, ht⟩ : ∃ t n, body s.table p (.killScan pid) pick = some (t, n) ∧
      s'.table = t.goto p n.ctl := by
    cases step_cases hstep with
    | acquire p' i' k hcpu' hctl =>
        obtain ⟨rfl, -⟩ := Prod.mk.inj (Option.some.inj (hcpu.symm.trans hcpu'))
        exact absurd (hk.symm.trans hctl) (by simp)
    | release p' i' k hcpu' hctl =>
        obtain ⟨rfl, -⟩ := Prod.mk.inj (Option.some.inj (hcpu.symm.trans hcpu'))
        exact absurd (hk.symm.trans hctl) (by simp)
    | go p' i' pick t k hcpu' hbody =>
        obtain ⟨rfl, -⟩ := Prod.mk.inj (Option.some.inj (hcpu.symm.trans hcpu'))
        rw [hk] at hbody
        exact ⟨t, _, hbody, rfl⟩
    | swtch p' i' pick t k hcpu' hbody =>
        obtain ⟨rfl, -⟩ := Prod.mk.inj (Option.some.inj (hcpu.symm.trans hcpu'))
        rw [hk] at hbody
        exact ⟨t, _, hbody, rfl⟩
  have hgoto : ∀ (u : Table) q, { (u.goto p n.ctl).proc q with ctl := (s.table.proc q).ctl } =
      { u.proc q with ctl := (s.table.proc q).ctl } := fun u q =>
    goto_keeps (fun r => { r with ctl := (s.table.proc q).ctl }) fun _ _ => rfl
  obtain ⟨rfl, ⟨rfl, rfl⟩ | ⟨r, hr, rfl, rfl⟩⟩ := kill_cases hbody
  · refine ⟨fun q hq => absurd ?_ hq, fun hret => ?_⟩
    · rw [ht, hgoto]
    · rw [ht, goto_ctl_self] at hret
      exact absurd hret (by simp [Next.ctl])
  · obtain ⟨hused, -⟩ := hok.found hcpu hk hr
    refine ⟨fun q hq => ?_, fun _ => ⟨r, hused.1, found_pid hr⟩⟩
    by_cases hqr : q = r
    · subst hqr
      exact ⟨hused.1, found_pid hr⟩
    · refine absurd ?_ hq
      rw [ht, hgoto, Table.set_of_ne hqr]

instance (r : Proc) : Decidable r.Used := inferInstanceAs (Decidable (_ ∧ _))

instance (s : Kernel C) (l : C × Act) : Decidable (KillsUsed s l) :=
  Option.decidableForallMem (hit s l)

/-- Init forks and is about to kill its child. -/
def killsChild : List (Fin 1 × Act) :=
  [(0, .enter), (0, .dispatch 0), (0, .run .next), (0, .run (.call .fork)), (0, .run .next),
    (0, .run (.slot (some 1))), (0, .run .next), (0, .run (.page (some 0))),
    (0, .run (.page (some 2))), (0, .run (.done true)), (0, .run .next), (0, .run .next),
    (0, .run .next), (0, .run .next), (0, .run (.call (.kill 2))), (0, .run .next)]

theorem newborn_unmarked_child : ∃ s s' : Kernel (Fin 1),
    Run (kthreads (Fin 1)) KillsUsed killsChild.reverse s ∧ step s 0 (.run .next) = some s' ∧
    (s'.table.proc 1).killed = true ∧ (s.table.proc 1).pid = 2 ∧
    ∀ q, { s'.table.proc q with ctl := (s.table.proc q).ctl } ≠ s.table.proc q →
      (s.table.proc q).state ≠ .unused ∧ (s.table.proc q).pid = 2 := by
  have htr : ((killsChild.foldlM (fun s l => if KillsUsed s l then step s l.1 l.2 else none)
      boot).bind fun s => (step s 0 (.run .next)).map fun s' =>
        decide (s.cpu 0 = some (0, 0) ∧ (s.table.proc 0).ctl = .killScan 2 ∧
          KillsUsed s (0, .run .next) ∧ (s'.table.proc 1).killed = true ∧
          (s.table.proc 1).pid = 2)) = some true := by
    decide +kernel
  obtain ⟨s, hs, hstep⟩ := Option.bind_eq_some_iff.mp htr
  obtain ⟨s', hstep, hend⟩ := Option.map_eq_some_iff.mp hstep
  obtain ⟨hcpu, hk, hok, hkilled, hpid⟩ := of_decide_eq_true hend
  have hrun : Run (kthreads (Fin 1)) KillsUsed killsChild.reverse s := by
    refine Run.of_foldlM boot_boot (fun s l s' h => ?_) hs
    split at h
    · rename_i hl
      exact ⟨h, hl⟩
    · exact absurd h (by simp)
  obtain ⟨-, hkill⟩ := newborn_unmarked hrun
  exact ⟨s, s', hrun, hstep, hkilled, hpid, (hkill 0 0 0 2 .next s' hcpu hk hok hstep).1⟩

/-- Init is about to call `kill(0)`. -/
def killsUnused : List (Fin 1 × Act) :=
  [(0, .enter), (0, .dispatch 0), (0, .run .next), (0, .run (.call (.kill 0))), (0, .run .next)]

/-- It goes on to `fork`. -/
def forksMarked : List (Fin 1 × Act) :=
  killsUnused ++
  [(0, .run .next), (0, .run .next), (0, .run .next), (0, .run (.call .fork)), (0, .run .next),
    (0, .run (.slot (some 1))), (0, .run .next), (0, .run (.page (some 0))),
    (0, .run (.page (some 2))), (0, .run (.done true)), (0, .run .next), (0, .run .next)]

/-- `kill(0)` returns 0 though no process has the pid, marks a slot that was never
used, and the process that `fork` makes there starts out killed. -/
theorem kill_marks_unused :
    (∃ s s' : Kernel (Fin 1), Run (kthreads (Fin 1)) anyStep killsUnused.reverse s ∧
      s.cpu 0 = some (0, 0) ∧ (s.table.proc 0).ctl = .killScan 0 ∧
      step s 0 (.run .next) = some s' ∧ (s'.table.proc 0).ctl = .release (.ret 0) ∧
      (∀ q, (s.table.proc q).pid = 0 → (s.table.proc q).state = .unused) ∧
      (s'.table.proc 1).state = .unused ∧ (s.table.proc 1).killed = false ∧
      (s'.table.proc 1).killed = true) ∧
    ∃ s : Kernel (Fin 1), Run (kthreads (Fin 1)) anyStep forksMarked.reverse s ∧
      (s.table.proc 1).state = .runnable ∧ (s.table.proc 1).killed = true := by
  refine ⟨?_, ?_⟩
  · have htr : ((killsUnused.foldlM (fun s l => step s l.1 l.2) boot).bind fun s =>
        (step s 0 (.run .next)).map fun s' =>
          decide (s.cpu 0 = some (0, 0) ∧ (s.table.proc 0).ctl = .killScan 0 ∧
            (s'.table.proc 0).ctl = .release (.ret 0) ∧
            (∀ q, (s.table.proc q).pid = 0 → (s.table.proc q).state = .unused) ∧
            (s'.table.proc 1).state = .unused ∧ (s.table.proc 1).killed = false ∧
            (s'.table.proc 1).killed = true)) = some true := by
      decide +kernel
    obtain ⟨s, hs, hstep⟩ := Option.bind_eq_some_iff.mp htr
    obtain ⟨s', hstep, hend⟩ := Option.map_eq_some_iff.mp hstep
    obtain ⟨hcpu, hk, hret, hnone, hstate, hclear, hkilled⟩ := of_decide_eq_true hend
    exact ⟨s, s', Run.of_foldlM boot_boot (fun _ _ _ h => ⟨h, trivial⟩) hs, hcpu, hk, hstep, hret,
      hnone, hstate, hclear, hkilled⟩
  · have htr : ((forksMarked.foldlM (fun s l => step s l.1 l.2) boot).map fun s =>
        decide ((s.table.proc 1).state = .runnable ∧ (s.table.proc 1).killed = true)) =
        some true := by
      decide +kernel
    obtain ⟨s, hs, hend⟩ := Option.map_eq_some_iff.mp htr
    obtain ⟨hstate, hkilled⟩ := of_decide_eq_true hend
    exact ⟨s, Run.of_foldlM boot_boot (fun _ _ _ h => ⟨h, trivial⟩) hs, hstate, hkilled⟩

end Kthreads
end CS444
