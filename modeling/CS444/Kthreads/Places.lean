/-
Where a thread of the library is in the kernel.

`Turn` says what a step of the kernel is for a thread that is in the library, and `Stands`
ties the place of a thread in the kernel to its place in the library: while it is in
`kthread_create` or `kthread_join` its call is one that is under way, a join waits for the
thread of its handle, and what a system call is about to return is right.
-/
import CS444.Kthreads.Handles

namespace CS444
namespace Kthreads

open Runs

variable {C : Type} {home i j a v : Nat} {c : C} {t t' : Table} {p q np : Slot} {pick : Pick}
  {k k' : Ctl} {n : Next} {call call' : Call} {m m' : Memory} {calls : Nat → Call}
  {s s' : Library C}

/-! ## What a thread does in the kernel -/

/-- What a thread does in the kernel, as far as the library is concerned. -/
inductive Doing where
  | create
  | join (tid : Int)
  /-- About to return from a system call. -/
  | back (v : Int)
  | other

def Ctl.doing (k : Ctl) : Doing :=
  match k.core with
  | .alloc true | .newborn true _ | .threadLink _ | .storeParent _ _ | .tidParent _
  | .loadTid _ _ | .storeTid _ _ _ | .countParent _ | .loadCount _ _ | .storeCount _ _ _
  | .publish _ (some _) => .create
  | .joinScan _ tid _ | .joinPoll _ tid _ | .joinLoad _ tid _ | .joinTake _ tid _ _ => .join tid
  | .ret v => .back v
  | _ => .other

theorem doing_congr (h : k'.core = k.core) : k'.doing = k.doing := by
  unfold Ctl.doing
  rw [h]

/-- What a step of the kernel is for a thread that is in the library. -/
inductive Turn (t : Table) (p : Slot) (k : Ctl) (pick : Pick) (n : Next) : Prop
  | within : n.ctl.doing = k.doing → (pick = .next → ∀ call : Call, call.after t k = call) →
      Turn t p k pick n
  | refused : k.doing = .create → k.served t (.run pick) = false → Turn t p k pick n
  | published (np owner : Slot) : k = .publish np (some owner) → pick = .next →
      Turn t p k pick n
  | missed (tid : Int) : k.doing = .join tid → n.ctl.doing = .back (-1) →
      (∀ call : Call, call.after t k = call) → Turn t p k pick n
  | took (owner : Slot) (tid : Int) (q : Slot) (v : Nat) : k = .joinTake owner tid q v →
      pick = .next → Turn t p k pick n
  | returned (v : Int) : k = .ret v → pick = .next → n.ctl.doing = .other → Turn t p k pick n
  | called (sc : Syscall) : k = .user → pick = .call sc → start t p sc = some n.ctl →
      Turn t p k pick n
  | other : k.doing = .other → (n.ctl.doing = .other ∨ ∃ v, n.ctl.doing = .back v) →
      Turn t p k pick n

/-- A thread that is interrupted does not get on in the library. -/
theorem after_same (h : body t p k .next = some (t', n)) (hcore : n.ctl.core = k.core) :
    call.after t k = call := by
  have hmoves : ∀ {u : Table} {k' : Ctl}, some (u, Next.go k') = some (t', n) →
      k'.core ≠ k.core → False := by
    intro u k' heq hne
    obtain ⟨-, rfl⟩ := Prod.mk.inj (Option.some.inj heq)
    exact hne hcore
  unfold Call.after
  split
  · exact (hmoves h (by simp [Ctl.core])).elim
  · exact (hmoves h (by simp [Ctl.core])).elim
  · exact (hmoves h (by simp [Ctl.core])).elim
  · exact (hmoves h (by simp [Ctl.core])).elim
  · rfl

theorem eq_of_ite_some {α : Type} {b : Prop} [Decidable b] {x y : α}
    (h : (if b then some x else none) = some y) : x = y := by
  split at h
  · exact Option.some.inj h
  · exact absurd h (by simp)

/-- Where a thread gets on in the library it takes the next step or is interrupted. -/
theorem body_pick (h : body t p k pick = some (t', n))
    (hk : (∃ v, k = .ret v) ∨ (∃ np owner, k = .publish np owner) ∨
      ∃ owner tid q v, k = .joinTake owner tid q v) : pick = .next ∨ n.ctl.core = k.core := by
  have hnone : (none : Option (Table × Next)) ≠ some (t', n) := by simp
  rcases hk with ⟨v, rfl⟩ | ⟨np, owner, rfl⟩ | ⟨owner, tid, q, v, rfl⟩
  all_goals
    cases pick with
    | next => exact Or.inl rfl
    | preempt | block =>
        obtain ⟨-, rfl⟩ := Prod.mk.inj (eq_of_ite_some h)
        exact Or.inr rfl
    | slot x | page x | done x => cases x <;> exact absurd h hnone
    | _ => exact absurd h hnone

/-- `kthread_create` goes on unless there is no slot or no page. -/
theorem body_refused (h : body t p k pick = some (t', n)) (hn : n.ctl.doing = .back (-1))
    (hk : k = .alloc true ∨ ∃ np, k = .newborn true np) : k.served t (.run pick) = false := by
  have hnone : (none : Option (Table × Next)) ≠ some (t', n) := by simp
  rcases hk with rfl | ⟨np, rfl⟩
  all_goals
    cases pick with
    | preempt | block =>
        obtain ⟨-, rfl⟩ := Prod.mk.inj (eq_of_ite_some h)
        exact absurd hn (by simp [Next.ctl, Ctl.doing, Ctl.core])
    | slot x | page x =>
        cases x with
        | none => first | rfl | exact absurd h hnone
        | some x =>
            first
              | exact absurd h hnone
              | obtain ⟨-, rfl⟩ := Prod.mk.inj (eq_of_ite_some h)
                exact absurd hn (by simp [Next.ctl, Ctl.doing, Ctl.core])
              | obtain ⟨-, rfl⟩ := Prod.mk.inj (Option.some.inj h)
                exact absurd hn (by simp [Next.ctl, Ctl.doing, Ctl.core])
    | done x => cases x <;> exact absurd h hnone
    | _ => exact absurd h hnone

theorem body_turn (h : body t p k pick = some (t', n)) : Turn t p k pick n := by
  have hsame : n.ctl.core = k.core → Turn t p k pick n := by
    intro hcore
    refine .within (doing_congr hcore) ?_
    rintro rfl call
    exact after_same h hcore
  have hkeep : n.ctl.doing = k.doing → (∀ call : Call, call.after t k = call) →
      Turn t p k pick n := fun hdoing hafter => .within hdoing fun _ => hafter
  cases body_step h with
  | preempt | block | yieldSched | sleepSched => exact hsame rfl
  | call sc k' hstart =>
      rcases body_call h with ⟨sc', rfl, hstart'⟩ | rfl | ⟨m, rfl⟩
      · exact .called sc' rfl rfl hstart'
      · exact hsame rfl
      · exact hsame rfl
  | ret w =>
      rcases body_pick h (Or.inl ⟨w, rfl⟩) with hpick | hcore
      · exact .returned w rfl hpick rfl
      · exact hsame hcore
  | publish np owner w =>
      cases owner with
      | none => exact .other rfl (Or.inr ⟨_, rfl⟩)
      | some owner =>
          rcases body_pick h (Or.inr (Or.inl ⟨np, some owner, rfl⟩)) with hpick | hcore
          · exact .published np owner rfl hpick
          · exact hsame hcore
  | joinTake owner tid q w =>
      rcases body_pick h (Or.inr (Or.inr ⟨owner, tid, q, w, rfl⟩)) with hpick | hcore
      · exact .took owner tid q w rfl hpick
      · exact hsame hcore
  | allocNone thread =>
      cases thread with
      | false => exact .other rfl (Or.inr ⟨_, rfl⟩)
      | true => exact .refused rfl (body_refused h rfl (Or.inl rfl))
  | newbornFail thread np =>
      cases thread with
      | false => exact .other rfl (Or.inr ⟨_, rfl⟩)
      | true => exact .refused rfl (body_refused h rfl (Or.inr ⟨np, rfl⟩))
  | alloc thread | newborn thread =>
      cases thread <;> exact hkeep rfl fun call => by cases call <;> rfl
  | joinNone => exact .missed _ rfl rfl fun call => by cases call <;> rfl
  | threadLink | storeParent | tidParent | loadTid | storeTid | countParent | loadCount
  | storeCount | joinMatch | joinSkip | joinZombie | joinWait | joinLoad =>
      exact hkeep rfl fun call => by cases call <;> rfl
  | _ => first | exact .other rfl (Or.inl rfl) | exact .other rfl (Or.inr ⟨_, rfl⟩)

theorem start_doing {sc : Syscall} (h : start t p sc = some k) (hsc : sc.ofThreads = false) :
    k.doing = .other ∨ ∃ v, k.doing = .back v := by
  cases sc with
  | kthread_create | kthread_join | kthread_exit => exact absurd hsc (by simp [Syscall.ofThreads])
  | _ =>
      unfold start at h
      dsimp only at h
      repeat' split at h
      all_goals
        simp only [Option.some.injEq, reduceCtorEq] at h
        try
          subst h
          first | exact Or.inl rfl | exact Or.inr ⟨_, rfl⟩

/-! ## Places in the kernel and in the library -/

/-- A thread of the process that has the id `tid` is the one of the handle `abt`. -/
def Wants (home : Nat) (t : Table) (m : Memory) (abt : Nat) (tid : Int) : Prop :=
  ∃ v : Nat, tid = v ∧ v ≠ 0 ∧ v ∈ handed t home ∧
    ∀ q, OwnThread home t q → (t.proc q).tid = v →
      m.handles abt = true ∧ ∃ j, m.thread abt = some j ∧ (t.proc q).kstack = some j

/-- The place `k` of a thread in the kernel agrees with its place in the library. -/
def Call.Fits (home : Nat) (t : Table) (m : Memory) (k : Ctl) (call : Call) : Prop :=
  match k.doing with
  | .create => ∃ bt, call = .creating bt none
  | .join tid => ∃ abt, call = .joining abt none ∧ Wants home t m abt tid
  | .back v => call.Returns home t v
  | .other => call.underway = false

/-- Every thread of the process is at a place that agrees with its call; others make none. -/
def Stands (home : Nat) (t : Table) (m : Memory) (calls : Nat → Call) : Prop :=
  ∀ p i, (t.proc p).Active → (t.proc p).kstack = some i →
    (homeOf t p = some home → (calls i).Fits home t m (t.proc p).ctl) ∧
      (homeOf t p ≠ some home → calls i = .idle)

theorem Call.fits_idle (h : k.doing = .other ∨ ∃ v, k.doing = .back v) :
    Call.idle.Fits home t m k := by
  unfold Fits
  rcases h with h | ⟨v, h⟩
  · rw [h]
    rfl
  · rw [h]
    trivial

theorem Call.Fits.carries (h : call.Fits home t m k) (hc : Carries home t t')
    (hkeep : Keeps t m m') (hdoing : k'.doing = k.doing) : call.Fits home t' m' k' := by
  unfold Fits at h ⊢
  rw [hdoing]
  cases hk : k.doing with
  | create =>
      rw [hk] at h
      exact h
  | join tid =>
      rw [hk] at h
      obtain ⟨abt, hcall, v, htid, hne, hgiven, hwant⟩ := h
      refine ⟨abt, hcall, v, htid, hne, hc.given v hgiven, fun q hq hv => ?_⟩
      obtain ⟨hown, hv, hstack⟩ := hc.named q v hne hgiven hq hv
      obtain ⟨hhas, j, hthread, hj⟩ := hwant q hown hv
      obtain ⟨hhas, hthread⟩ := hkeep abt q j hhas hthread hj
      exact ⟨hhas, j, hthread, hstack.trans hj⟩
  | back v =>
      rw [hk] at h
      exact Call.Returns.carries h hc
  | other =>
      rw [hk] at h
      exact h

/-- Threads that step in the library leave the kernel as it is. -/
theorem Stands.follow (hst : Stacks t) (h : Stands home t m calls)
    (hp : (t.proc p).kstack = some i) (hkeep : Keeps t m m') (hhome : homeOf t p = some home)
    (hk : (t.proc p).ctl = .user) (hcall : call.underway = false) :
    Stands home t m' (Function.update calls i call) := by
  intro q i' hq hqi
  by_cases hi : i' = i
  · obtain rfl := hst.apart q p i (hi ▸ hqi) hp
    rw [hi, Function.update_self]
    refine ⟨fun _ => ?_, fun hno => absurd hhome hno⟩
    rw [hk]
    exact hcall
  · rw [Function.update_of_ne hi]
    obtain ⟨hfits, hidle⟩ := h q i' hq hqi
    exact ⟨fun hown => (hfits hown).carries (Alike.refl t).carries hkeep rfl, hidle⟩

/-- Scheduling leaves every thread where it is. -/
theorem Stands.alike (h : Stands home t m calls) (halike : Alike t t') :
    Stands home t' m calls := by
  intro q i hq hqi
  have hact := (halike.active q).mp hq
  have hstack := halike.keeps Proc.kstack (fun _ _ _ => rfl) q
  obtain ⟨hfits, hidle⟩ := h q i hact (hstack.symm.trans hqi)
  rw [halike.homeOf]
  exact ⟨fun hown => (hfits hown).carries halike.carries .refl (doing_congr (halike.core q hact)),
    hidle⟩

/-- A thread takes a step in the kernel and comes to another place in the library. -/
theorem Stands.takes {K : Kernel C} (hsound : Sound K) (h : Takes K c p i pick t n)
    (hc : Carries home K.table (t.goto p n.ctl)) (hstands : Stands home K.table m calls)
    (hbooks : Books home K.table m calls)
    (hself : (homeOf K.table p = some home → call.Fits home (t.goto p n.ctl) m n.ctl) ∧
      (homeOf K.table p ≠ some home → call = .idle)) :
    Stands home (t.goto p n.ctl) m (Function.update calls i call) := by
  have hstack : (t.proc p).kstack = some i :=
    (h.kstack_same h.active).trans (h.inv.stack c p i h.cpu)
  intro q i' hq hqi
  rw [goto_active] at hq
  rw [goto_kstack] at hqi
  rw [homeOf_goto]
  by_cases hqp : q = p
  · subst hqp
    obtain rfl := Option.some.inj (hqi.symm.trans hstack)
    rw [Function.update_self, goto_ctl_self, h.homeOf_same hsound.family h.active]
    exact hself
  have hi : i' ≠ i := by
    rintro rfl
    exact hqp ((hsound.handing.kstacks.body h.body).apart q p i' hqi hstack)
  rw [Function.update_of_ne hi, goto_of_ne hqp]
  rcases h.was_active hqp hq with ⟨hold, hctl⟩ | ⟨hctl, owner, hk⟩
  · rw [h.homeOf_same hsound.family hold, hctl]
    obtain ⟨hfits, hidle⟩ := hstands q i' hold ((h.kstack_same hold).symm.trans hqi)
    exact ⟨fun hown => (hfits hown).carries hc .refl rfl, hidle⟩
  · -- A thread that was just published is in no call.
    have hidle : calls i' = .idle := by
      by_contra hne
      have hold : i' < K.table.nextstack := by
        by_contra hge
        exact hne (hbooks.fresh i' (Nat.not_lt.mp hge))
      obtain ⟨hbefore, -⟩ := hc.used q i' hold (goto_kstack.trans hqi)
      exact (hbooks.used q i' hbefore hne).2 (h.embryo (by rw [hk]; rfl))
    rw [hidle, hctl]
    exact ⟨fun _ => Call.fits_idle (Or.inl rfl), fun _ => rfl⟩

end Kthreads
end CS444
