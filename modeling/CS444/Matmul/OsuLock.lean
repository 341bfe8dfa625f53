/-
`osu_lock` of `inclass5/mm5.c`: a lock that knows who has it.

`locking_thread` is read by everybody and written only by the thread that has
`lock`.  A thread that has the lock already gets 0 from `osu_lock_acquire` at
once; nothing counts how often, so the first release gives the lock back
however many acquires there were.  `owned_until_release` is what remains: from
an acquire to the next release of the thread nobody else's acquire returns.
`nestedRelease` is a run in which the inner of two releases lets another thread
in.
-/
import CS444.Lib.Runs
import CS444.Lib.Token
import Mathlib.Data.List.Count

namespace CS444
namespace Matmul
namespace OsuLock

open Runs Semaphores

variable {κ : Type*}

/-- `osu_lock_t`. -/
structure Lock (κ : Type*) where
  lock : Nat
  guard : Nat
  locking_thread : Option κ

def osu_lock_init : Lock κ := { lock := 1, guard := 1, locking_thread := none }

/-- Where a thread is: in neither function, or before the instruction named. -/
inductive Pc where
  | idle
  | acquireCheck
  | waitGuard
  | waitLock
  | setThread
  | postGuard
  | releaseCheck
  | clearThread
  | postLock
deriving DecidableEq, Repr

/-- A call, a return with its value (an acquire returns 0), or a step between. -/
inductive Act where
  | acquire
  | release
  | inside
  | acquired
  | released (ret : Int)
deriving DecidableEq, Repr

section Step

variable [DecidableEq κ]

/-- The next instruction of thread `self`; a wait at zero blocks. -/
def exec (self : κ) (l : Lock κ) : Pc → Option (Act × Lock κ × Pc)
  | .idle => none
  -- osu_lock_acquire
  | .acquireCheck =>
    if l.locking_thread = some self then some (.acquired, l, .idle)
    else some (.inside, l, .waitGuard)
  | .waitGuard =>
    if l.guard = 0 then none else some (.inside, { l with guard := l.guard - 1 }, .waitLock)
  | .waitLock =>
    if l.lock = 0 then none else some (.inside, { l with lock := l.lock - 1 }, .setThread)
  | .setThread => some (.inside, { l with locking_thread := some self }, .postGuard)
  | .postGuard => some (.acquired, { l with guard := l.guard + 1 }, .idle)
  -- osu_lock_release
  | .releaseCheck =>
    if l.locking_thread = some self then some (.inside, l, .clearThread)
    else some (.released 17, l, .idle)
  | .clearThread => some (.inside, { l with locking_thread := none }, .postLock)
  | .postLock => some (.released 0, { l with lock := l.lock + 1 }, .idle)

structure State (κ : Type*) where
  l : Lock κ
  pc : κ → Pc

def State.goto (s : State κ) (k : κ) (p : Pc) : State κ :=
  { s with pc := Function.update s.pc k p }

/-- Thread `k` does `a`.  Outside it may call what it likes. -/
def step (s : State κ) (k : κ) (a : Act) : Option (State κ) :=
  if s.pc k = .idle then
    match a with
    | .acquire => some (s.goto k .acquireCheck)
    | .release => some (s.goto k .releaseCheck)
    | _ => none
  else
    (exec k s.l (s.pc k)).bind fun r =>
      if r.1 = a then some { l := r.2.1, pc := Function.update s.pc k r.2.2 } else none

def start : State κ := { l := osu_lock_init, pc := fun _ => .idle }

def threads (κ : Type*) [DecidableEq κ] : System (State κ) (κ × Act) where
  init s := s = start
  step s l s' := step s l.1 l.2 = some s'

/-- Thread `k` waits for a semaphore at zero. -/
def Blocked (s : State κ) (k : κ) : Prop :=
  s.pc k = .waitGuard ∧ s.l.guard = 0 ∨ s.pc k = .waitLock ∧ s.l.lock = 0

variable {s s' : State κ} {k : κ} {a : Act}

theorem step_cases (h : step s k a = some s') :
    s.pc k = .idle ∧ a = .acquire ∧ s' = s.goto k .acquireCheck ∨
      s.pc k = .idle ∧ a = .release ∧ s' = s.goto k .releaseCheck ∨
        ∃ l p, exec k s.l (s.pc k) = some (a, l, p) ∧
          s' = { l := l, pc := Function.update s.pc k p } := by
  unfold step at h
  by_cases hidle : s.pc k = .idle
  · rw [if_pos hidle] at h
    cases a with
    | acquire => exact Or.inl ⟨hidle, rfl, (Option.some.inj h).symm⟩
    | release => exact Or.inr (Or.inl ⟨hidle, rfl, (Option.some.inj h).symm⟩)
    | _ => exact absurd h (by simp)
  · rw [if_neg hidle] at h
    obtain ⟨⟨act, l, p⟩, hexec, hact⟩ := Option.bind_eq_some_iff.mp h
    have hsame : act = a := by
      by_contra hne
      rw [if_neg hne] at hact
      exact absurd hact (by simp)
    subst hsame
    rw [if_pos rfl] at hact
    exact Or.inr (Or.inr ⟨l, p, hexec, (Option.some.inj hact).symm⟩)

theorem step_of_exec {l : Lock κ} {p : Pc} (h : exec k s.l (s.pc k) = some (a, l, p)) :
    step s k a = some { l := l, pc := Function.update s.pc k p } := by
  have hidle : s.pc k ≠ .idle := by
    intro hidle
    rw [hidle] at h
    exact absurd h (by simp [exec])
  unfold step
  rw [if_neg hidle, h]
  show (if a = a then _ else none) = _
  rw [if_pos rfl]

/-! ## Who has what -/

namespace Pc

/-- With `guard`. -/
def Guards (p : Pc) : Prop := p = .waitLock ∨ p = .setThread ∨ p = .postGuard

/-- With `lock`, and not in `locking_thread`. -/
def Unnamed (p : Pc) : Prop := p = .setThread ∨ p = .postLock

/-- In `locking_thread`. -/
def Named (p : Pc) : Prop := p = .postGuard ∨ p = .clearThread

/-- Not in `locking_thread`. -/
def Apart (p : Pc) : Prop :=
  p = .waitGuard ∨ p = .waitLock ∨ p = .setThread ∨ p = .postLock

end Pc

structure Inv (s : State κ) : Prop where
  guard : Token s.l.guard fun k => (s.pc k).Guards
  lock : Token s.l.lock fun k => (s.pc k).Unnamed ∨ s.l.locking_thread = some k
  named : ∀ k, (s.pc k).Named → s.l.locking_thread = some k
  apart : ∀ k, (s.pc k).Apart → s.l.locking_thread ≠ some k

omit [DecidableEq κ] in
theorem start_inv : Inv (start : State κ) where
  guard := Or.inl ⟨rfl, fun _ h => by rcases h with h | h | h <;> exact absurd h (by simp [start])⟩
  lock := Or.inl ⟨rfl, fun _ h => by
    rcases h with (h | h) | h <;> exact absurd h (by simp [start, osu_lock_init])⟩
  named _ h := by rcases h with h | h <;> exact absurd h (by simp [start])
  apart _ _ := by simp [start, osu_lock_init]

theorem guards_of_ne {pc : κ → Pc} {p : Pc} (j : κ) (hj : j ≠ k) :
    (Function.update pc k p j).Guards ↔ (pc j).Guards := by
  rw [Function.update_of_ne hj]

theorem guards_same {pc : κ → Pc} {p : Pc} (h : p.Guards ↔ (pc k).Guards) (j : κ) :
    (Function.update pc k p j).Guards ↔ (pc j).Guards :=
  (Function.forall_update_iff _ fun j (q : Pc) => q.Guards ↔ (pc j).Guards).mpr
    ⟨h, fun _ _ => Iff.rfl⟩ j

theorem unnamed_same {pc : κ → Pc} {p : Pc} (h : p.Unnamed ↔ (pc k).Unnamed) (j : κ) :
    (Function.update pc k p j).Unnamed ↔ (pc j).Unnamed :=
  (Function.forall_update_iff _ fun j (q : Pc) => q.Unnamed ↔ (pc j).Unnamed).mpr
    ⟨h, fun _ _ => Iff.rfl⟩ j

/-- A step of thread `k` that leaves the others' claims on `locking_thread`. -/
theorem Inv.moved (h : Inv s) {l : Lock κ} {p : Pc}
    (hguard : Token l.guard fun j => (Function.update s.pc k p j).Guards)
    (hlock : Token l.lock fun j => (Function.update s.pc k p j).Unnamed ∨ l.locking_thread = some j)
    (hnamed : p.Named → l.locking_thread = some k) (hapart : p.Apart → l.locking_thread ≠ some k)
    (hother : ∀ j, j ≠ k → (l.locking_thread = some j ↔ s.l.locking_thread = some j)) :
    Inv { l := l, pc := Function.update s.pc k p } where
  guard := hguard
  lock := hlock
  named := (Function.forall_update_iff _ fun j (q : Pc) => q.Named → l.locking_thread = some j).mpr
    ⟨hnamed, fun j hj hq => (hother j hj).mpr (h.named j hq)⟩
  apart := (Function.forall_update_iff _ fun j (q : Pc) => q.Apart → l.locking_thread ≠ some j).mpr
    ⟨hapart, fun j hj hq heq => h.apart j hq ((hother j hj).mp heq)⟩

/-- A thread moves on and the lock stays as it is. -/
theorem Inv.goto (h : Inv s) {p : Pc} (hguards : p.Guards ↔ (s.pc k).Guards)
    (hunnamed : p.Unnamed ↔ (s.pc k).Unnamed)
    (hnamed : p.Named → s.l.locking_thread = some k)
    (hapart : p.Apart → s.l.locking_thread ≠ some k) : Inv (s.goto k p) := by
  apply h.moved
  · exact h.guard.same (guards_same hguards)
  · exact h.lock.same fun j => or_congr_left (unnamed_same hunnamed j)
  · exact hnamed
  · exact hapart
  · exact fun _ _ => Iff.rfl

theorem Inv.exec (h : Inv s) {l : Lock κ} {p : Pc}
    (hexec : exec k s.l (s.pc k) = some (a, l, p)) :
    Inv { l := l, pc := Function.update s.pc k p } := by
  have hnamed := h.named k
  have hapart := h.apart k
  cases hpc : s.pc k with
  | idle =>
      rw [hpc] at hexec
      exact absurd hexec (by simp [OsuLock.exec])
  | acquireCheck =>
      rw [hpc] at hexec
      simp only [OsuLock.exec] at hexec
      split at hexec
      · cases hexec
        apply h.goto
        all_goals simp [Pc.Guards, Pc.Unnamed, Pc.Named, Pc.Apart, hpc]
      · rename_i hne
        cases hexec
        apply h.goto
        all_goals simp [Pc.Guards, Pc.Unnamed, Pc.Named, Pc.Apart, hpc, hne]
  | waitGuard =>
      rw [hpc] at hexec hapart
      simp only [OsuLock.exec] at hexec
      split at hexec
      · exact absurd hexec (by simp)
      · rename_i hpos
        cases hexec
        apply h.moved
        · exact h.guard.take hpos (by simp [Pc.Guards]) guards_of_ne
        · exact h.lock.same fun j => or_congr_left (unnamed_same (by simp [Pc.Unnamed, hpc]) j)
        · simp [Pc.Named]
        · exact fun _ => hapart (by simp [Pc.Apart])
        · exact fun _ _ => Iff.rfl
  | waitLock =>
      rw [hpc] at hexec hapart
      simp only [OsuLock.exec] at hexec
      split at hexec
      · exact absurd hexec (by simp)
      · rename_i hpos
        cases hexec
        apply h.moved
        · exact h.guard.same (guards_same (by simp [Pc.Guards, hpc]))
        · refine h.lock.take (k := k) hpos (by simp [Pc.Unnamed]) fun j hj => ?_
          rw [Function.update_of_ne hj]
        · simp [Pc.Named]
        · exact fun _ => hapart (by simp [Pc.Apart])
        · exact fun _ _ => Iff.rfl
  | setThread =>
      rw [hpc] at hexec
      cases hexec
      have hhas : (s.pc k).Unnamed ∨ s.l.locking_thread = some k := by simp [Pc.Unnamed, hpc]
      have hfree : ∀ j, j ≠ k → ¬((s.pc j).Unnamed ∨ s.l.locking_thread = some j) :=
        fun j hj hj' => hj (h.lock.unique hj' hhas)
      apply h.moved
      · exact h.guard.same (guards_same (by simp [Pc.Guards, hpc]))
      · refine h.lock.same fun j => ?_
        by_cases hj : j = k
        · subst hj
          exact iff_of_true (Or.inr rfl) hhas
        · rw [Function.update_of_ne hj]
          refine iff_of_false (fun hj' => ?_) (hfree j hj)
          rcases hj' with hj' | hj'
          · exact hfree j hj (Or.inl hj')
          · exact hj (Option.some.inj hj').symm
      · exact fun _ => rfl
      · simp [Pc.Apart]
      · intro j hj
        refine iff_of_false (fun heq => hj (Option.some.inj heq).symm) fun heq => ?_
        exact hfree j hj (Or.inr heq)
  | postGuard =>
      rw [hpc] at hexec
      cases hexec
      apply h.moved
      · exact h.guard.give (k := k) (by simp [Pc.Guards, hpc]) (by simp [Pc.Guards]) guards_of_ne
      · exact h.lock.same fun j => or_congr_left (unnamed_same (by simp [Pc.Unnamed, hpc]) j)
      · simp [Pc.Named]
      · simp [Pc.Apart]
      · exact fun _ _ => Iff.rfl
  | releaseCheck =>
      rw [hpc] at hexec
      simp only [OsuLock.exec] at hexec
      split at hexec
      · rename_i heq
        cases hexec
        apply h.goto
        all_goals simp [Pc.Guards, Pc.Unnamed, Pc.Named, Pc.Apart, hpc, heq]
      · cases hexec
        apply h.goto
        all_goals simp [Pc.Guards, Pc.Unnamed, Pc.Named, Pc.Apart, hpc]
  | clearThread =>
      rw [hpc] at hexec hnamed
      cases hexec
      have heq := hnamed (by simp [Pc.Named])
      have hfree : ∀ j, j ≠ k → ¬((s.pc j).Unnamed ∨ s.l.locking_thread = some j) :=
        fun j hj hj' => hj (h.lock.unique hj' (Or.inr heq))
      apply h.moved
      · exact h.guard.same (guards_same (by simp [Pc.Guards, hpc]))
      · refine h.lock.same fun j => ?_
        by_cases hj : j = k
        · subst hj
          rw [Function.update_self]
          exact iff_of_true (Or.inl (by simp [Pc.Unnamed])) (Or.inr heq)
        · rw [Function.update_of_ne hj]
          refine iff_of_false (fun hj' => ?_) (hfree j hj)
          rcases hj' with hj' | hj'
          · exact hfree j hj (Or.inl hj')
          · exact absurd hj' (by simp)
      · simp [Pc.Named]
      · simp
      · intro j hj
        exact iff_of_false (by simp) fun heq' => hfree j hj (Or.inr heq')
  | postLock =>
      rw [hpc] at hexec hapart
      cases hexec
      have hne := hapart (by simp [Pc.Apart])
      apply h.moved
      · exact h.guard.same (guards_same (by simp [Pc.Guards, hpc]))
      · refine h.lock.give (k := k) (by simp [Pc.Unnamed, hpc]) ?_ fun j hj => ?_
        · rw [Function.update_self]
          simp [Pc.Unnamed, hne]
        · rw [Function.update_of_ne hj]
      · simp [Pc.Named]
      · simp [Pc.Apart]
      · exact fun _ _ => Iff.rfl

theorem Inv.step (h : Inv s) (hstep : step s k a = some s') : Inv s' := by
  rcases step_cases hstep with ⟨hpc, -, rfl⟩ | ⟨hpc, -, rfl⟩ | ⟨l, p, hexec, rfl⟩
  · apply h.goto
    all_goals simp [Pc.Guards, Pc.Unnamed, Pc.Named, Pc.Apart, hpc]
  · apply h.goto
    all_goals simp [Pc.Guards, Pc.Unnamed, Pc.Named, Pc.Apart, hpc]
  · exact h.exec hexec

theorem run_inv {ok : State κ → κ × Act → Prop} {tr : List (κ × Act)}
    (hrun : Run (threads κ) ok tr s) : Inv s := by
  apply hrun.invariant
  · rintro s rfl
    exact start_inv
  · exact fun s l s' hinv hstep _ => hinv.step hstep

/-! ## Ownership -/

/-- Whether a thread owns the lock after `a`, if it did before it or not. -/
def Act.claims (a : Act) (before : Prop) : Prop :=
  match a with
  | .acquired => True
  | .release => False
  | _ => before

/-- Thread `k` owns the lock: since an acquire of `k` returned, `k` has not
called release. -/
def Owns : List (κ × Act) → κ → Prop
  | [], _ => False
  | (j, a) :: tr, k => if j = k then a.claims (Owns tr k) else Owns tr k

/-- Thread `k` owned the lock when it last called release. -/
def OwnedAtRelease : List (κ × Act) → κ → Prop
  | [], _ => False
  | (j, a) :: tr, k => if j = k ∧ a = .release then Owns tr k else OwnedAtRelease tr k

theorem Owns_cons_of_ne {tr : List (κ × Act)} {j : κ} (h : j ≠ k) :
    Owns ((j, a) :: tr) k ↔ Owns tr k := by
  rw [Owns, if_neg h]

theorem Owns_cons_self {tr : List (κ × Act)} :
    Owns ((k, a) :: tr) k ↔ a.claims (Owns tr k) := by
  rw [Owns, if_pos rfl]

theorem OwnedAtRelease_cons {tr : List (κ × Act)} {j : κ} (h : ¬(j = k ∧ a = .release)) :
    OwnedAtRelease ((j, a) :: tr) k ↔ OwnedAtRelease tr k := by
  rw [OwnedAtRelease, if_neg h]

/-- The owners are who `locking_thread` names, outside release. -/
structure Books (tr : List (κ × Act)) (s : State κ) : Prop where
  owns : ∀ k, Owns tr k ↔
    s.l.locking_thread = some k ∧ (s.pc k = .idle ∨ s.pc k = .acquireCheck)
  release : ∀ k, s.pc k = .releaseCheck → (OwnedAtRelease tr k ↔ s.l.locking_thread = some k)

/-- A step of another thread moves no claim of `k` on `locking_thread`. -/
theorem exec_other (hinv : Inv s) {j : κ} (hj : j ≠ k) {l : Lock κ} {p : Pc}
    (hexec : exec j s.l (s.pc j) = some (a, l, p)) :
    l.locking_thread = some k ↔ s.l.locking_thread = some k := by
  have hnamed := hinv.named j
  cases hpc : s.pc j with
  | setThread =>
      rw [hpc] at hexec
      cases hexec
      refine iff_of_false (fun heq => hj (Option.some.inj heq)) fun heq => ?_
      exact hj (hinv.lock.unique (Or.inl (Or.inl hpc)) (Or.inr heq))
  | clearThread =>
      rw [hpc] at hexec hnamed
      cases hexec
      have heq := hnamed (Or.inr rfl)
      refine iff_of_false (by simp) fun heq' => ?_
      exact hj (Option.some.inj (heq.symm.trans heq'))
  | idle =>
      rw [hpc] at hexec
      exact absurd hexec (by simp [exec])
  | acquireCheck | releaseCheck | waitGuard | waitLock =>
      rw [hpc] at hexec
      simp only [exec] at hexec
      split at hexec <;> cases hexec <;> rfl
  | postGuard | postLock =>
      rw [hpc] at hexec
      cases hexec
      rfl

theorem Books.other {tr : List (κ × Act)} (h : Books tr s) {j : κ} (hj : j ≠ k)
    (hpc : s'.pc k = s.pc k)
    (hthread : s'.l.locking_thread = some k ↔ s.l.locking_thread = some k) :
    (Owns ((j, a) :: tr) k ↔
      s'.l.locking_thread = some k ∧ (s'.pc k = .idle ∨ s'.pc k = .acquireCheck)) ∧
    (s'.pc k = .releaseCheck →
      (OwnedAtRelease ((j, a) :: tr) k ↔ s'.l.locking_thread = some k)) := by
  rw [Owns_cons_of_ne hj, OwnedAtRelease_cons (fun hk => hj hk.1), hpc, hthread]
  exact ⟨h.owns k, h.release k⟩

/-- What the step of `k` itself does to its claims. -/
theorem Books.self {tr : List (κ × Act)} (h : Books tr s) (hinv : Inv s)
    (hstep : step s k a = some s') :
    (Owns ((k, a) :: tr) k ↔
      s'.l.locking_thread = some k ∧ (s'.pc k = .idle ∨ s'.pc k = .acquireCheck)) ∧
    (s'.pc k = .releaseCheck →
      (OwnedAtRelease ((k, a) :: tr) k ↔ s'.l.locking_thread = some k)) := by
  have howns := h.owns k
  have hnamed := hinv.named k
  have hapart := hinv.apart k
  rcases step_cases hstep with ⟨hpc, rfl, rfl⟩ | ⟨hpc, rfl, rfl⟩ | ⟨l, p, hexec, rfl⟩
  · refine ⟨?_, ?_⟩
    · rw [Owns_cons_self]
      show Owns tr k ↔ _
      rw [howns, hpc]
      simp [State.goto]
    · simp [State.goto]
  · refine ⟨?_, fun _ => ?_⟩
    · simp [Owns_cons_self, Act.claims, State.goto]
    · simp only [OwnedAtRelease, and_self, if_true, State.goto]
      rw [howns, hpc]
      simp
  · rw [Owns_cons_self]
    simp only [Function.update_self]
    cases hpc : s.pc k with
    | idle =>
        rw [hpc] at hexec
        exact absurd hexec (by simp [exec])
    | acquireCheck =>
        rw [hpc] at hexec howns
        simp only [exec] at hexec
        split at hexec
        · rename_i heq
          cases hexec
          simp [Act.claims, heq]
        · rename_i hne
          cases hexec
          simp [Act.claims, howns, hne]
    | waitGuard | waitLock =>
        rw [hpc] at hexec howns
        simp only [exec] at hexec
        split at hexec
        · exact absurd hexec (by simp)
        · cases hexec
          simp [Act.claims, howns]
    | setThread =>
        rw [hpc] at hexec howns
        cases hexec
        simp [Act.claims, howns]
    | postGuard =>
        rw [hpc] at hexec hnamed
        cases hexec
        simp [Act.claims, hnamed (Or.inl rfl)]
    | releaseCheck =>
        rw [hpc] at hexec howns
        simp only [exec] at hexec
        split at hexec
        · cases hexec
          simp [Act.claims, howns]
        · rename_i hne
          cases hexec
          simp [Act.claims, howns, hne]
    | clearThread =>
        rw [hpc] at hexec howns
        cases hexec
        simp [Act.claims, howns]
    | postLock =>
        rw [hpc] at hexec howns hapart
        cases hexec
        simp [Act.claims, howns, hapart (by simp [Pc.Apart])]

theorem Books.step {tr : List (κ × Act)} (h : Books tr s) (hinv : Inv s)
    (hstep : step s k a = some s') : Books ((k, a) :: tr) s' := by
  have hall : ∀ j, (Owns ((k, a) :: tr) j ↔
      s'.l.locking_thread = some j ∧ (s'.pc j = .idle ∨ s'.pc j = .acquireCheck)) ∧
      (s'.pc j = .releaseCheck →
        (OwnedAtRelease ((k, a) :: tr) j ↔ s'.l.locking_thread = some j)) := by
    intro j
    by_cases hj : j = k
    · subst hj
      exact h.self hinv hstep
    · rcases step_cases hstep with ⟨-, -, rfl⟩ | ⟨-, -, rfl⟩ | ⟨l, p, hexec, rfl⟩
      · exact h.other (Ne.symm hj) (Function.update_of_ne hj _ _) Iff.rfl
      · exact h.other (Ne.symm hj) (Function.update_of_ne hj _ _) Iff.rfl
      · exact h.other (Ne.symm hj) (Function.update_of_ne hj _ _)
          (exec_other hinv (Ne.symm hj) hexec)
  exact ⟨fun j => (hall j).1, fun j => (hall j).2⟩

theorem run_books {ok : State κ → κ × Act → Prop} {tr : List (κ × Act)}
    (hrun : Run (threads κ) ok tr s) : Books tr s := by
  induction hrun with
  | @init s h =>
      obtain rfl : s = start := h
      exact ⟨fun k => by simp [Owns, start, osu_lock_init], fun k h => absurd h (by simp [start])⟩
  | @step s s' l tr hrun hstep _ ih => exact ih.step (run_inv hrun) hstep

omit [DecidableEq κ] in
/-- There is always a thread that is not blocked: who holds `guard` waits for
`lock`, and who holds `lock` waits for nothing. -/
theorem exists_not_blocked [Nonempty κ] (hinv : Inv s) : ∃ k, ¬Blocked s k := by
  by_contra hnone
  have hall : ∀ k, Blocked s k := fun k => not_not.mp fun h => hnone ⟨k, h⟩
  have hlock : s.l.lock ≠ 0 := by
    intro hzero
    obtain ⟨k, hk⟩ := hinv.lock.exists_of_zero hzero
    have hapart := hinv.apart k
    rcases hall k with ⟨hpc, -⟩ | ⟨hpc, -⟩
    · rw [hpc] at hk hapart
      exact hapart (Or.inl rfl) (hk.resolve_left (by simp [Pc.Unnamed]))
    · rw [hpc] at hk hapart
      exact hapart (Or.inr (Or.inl rfl)) (hk.resolve_left (by simp [Pc.Unnamed]))
  have hguard : ∀ k, s.pc k = .waitGuard ∧ s.l.guard = 0 := fun k =>
    (hall k).resolve_right fun h => hlock h.2
  obtain ⟨k⟩ := ‹Nonempty κ›
  obtain ⟨j, hj⟩ := hinv.guard.exists_of_zero (hguard k).2
  rw [(hguard j).1] at hj
  exact absurd hj (by simp [Pc.Guards])

/-- From the return of an acquire to the next release of the thread no acquire
of another returns; a release by a thread that does not own the lock returns 17
and changes nothing; and never is every thread blocked. -/
theorem owned_until_release [Nonempty κ] {tr : List (κ × Act)}
    (hrun : Run (threads κ) anyStep tr s) :
    (∀ k j s', Owns tr k → step s j .acquired = some s' → j = k) ∧
      (∀ k, s.pc k = .releaseCheck → ¬OwnedAtRelease tr k →
        ∀ a s', step s k a = some s' ↔ a = .released 17 ∧ s' = s.goto k .idle) ∧
        ¬∀ k, Blocked s k := by
  have hinv := run_inv hrun
  have hbooks := run_books hrun
  refine ⟨?_, ?_, ?_⟩
  · intro k j s' howns hstep
    have hthread := ((hbooks.owns k).mp howns).1
    rcases step_cases hstep with ⟨-, hact, -⟩ | ⟨-, hact, -⟩ | ⟨l, p, hexec, -⟩
    · exact absurd hact (by simp)
    · exact absurd hact (by simp)
    · have hjthread : s.l.locking_thread = some j := by
        have hnamed := hinv.named j
        cases hpc : s.pc j with
        | acquireCheck =>
            rw [hpc] at hexec
            simp only [exec] at hexec
            split at hexec
            · assumption
            · exact absurd hexec (by simp)
        | postGuard => exact hnamed (Or.inl hpc)
        | _ =>
            rw [hpc] at hexec
            simp only [exec] at hexec
            first
              | exact absurd hexec (by simp)
              | (split at hexec <;> exact absurd hexec (by simp))
      exact Option.some.inj (hjthread.symm.trans hthread)
  · intro k hpc howned a s'
    have hne : ¬s.l.locking_thread = some k := fun heq =>
      howned ((hbooks.release k hpc).mpr heq)
    have hexec : exec k s.l (s.pc k) = some (.released 17, s.l, .idle) := by
      rw [hpc]
      exact if_neg hne
    constructor
    · intro hstep
      rcases step_cases hstep with ⟨hidle, -⟩ | ⟨hidle, -⟩ | ⟨l, p, hexec', rfl⟩
      · exact absurd (hidle.symm.trans hpc) (by simp)
      · exact absurd (hidle.symm.trans hpc) (by simp)
      · cases hexec.symm.trans hexec'
        exact ⟨rfl, rfl⟩
    · rintro ⟨rfl, rfl⟩
      exact step_of_exec hexec
  · intro hall
    obtain ⟨k, hk⟩ := exists_not_blocked hinv
    exact hk (hall k)

/-- The acquires of `k` that have returned, less its releases. -/
def depth (tr : List (κ × Act)) (k : κ) : Int :=
  (tr.count (k, .acquired) : Int) - tr.count (k, .release)

end Step

/-- Thread 0 acquires, thread 1 waits for the lock, and thread 2, which never had it,
calls release. -/
def contended : List (Fin 3 × Act) :=
  [(0, .acquire), (0, .inside), (0, .inside), (0, .inside), (0, .inside), (0, .acquired),
    (1, .acquire), (1, .inside), (1, .inside), (2, .release)]

theorem owned_until_release_contended : ∃ s, Run (threads (Fin 3)) anyStep contended.reverse s ∧
    Blocked s 1 ∧ (∀ j s', step s j .acquired = some s' → j = 0) ∧
      (∀ a s', step s 2 a = some s' ↔ a = .released 17 ∧ s' = s.goto 2 .idle) ∧
        ¬∀ k, Blocked s k := by
  have hpcs : (contended.foldlM (fun s l => step s l.1 l.2) start).map (fun s =>
      (s.pc 1, s.pc 2, s.l.lock)) = some (.waitLock, .releaseCheck, 0) := by
    decide
  obtain ⟨s, hs, hpc⟩ := Option.map_eq_some_iff.mp hpcs
  obtain ⟨hwaits, hreleases, hlock⟩ :
      s.pc 1 = .waitLock ∧ s.pc 2 = .releaseCheck ∧ s.l.lock = 0 := by
    simpa using hpc
  have hrun : Run (threads (Fin 3)) anyStep contended.reverse s :=
    Run.of_foldlM rfl (fun _ _ _ h => ⟨h, trivial⟩) hs
  have howns : Owns contended.reverse 0 := by
    simp [contended, Owns, Act.claims]
  have hstranger : ¬OwnedAtRelease contended.reverse 2 := by
    simp [contended, OwnedAtRelease, Owns]
  obtain ⟨hexclusive, hrefused, hprogress⟩ := owned_until_release hrun
  exact ⟨s, hrun, Or.inr ⟨hwaits, hlock⟩, fun j s' => hexclusive 0 j s' howns,
    hrefused 2 hreleases hstranger, hprogress⟩

/-- Thread 0 acquires twice and releases once; thread 1 acquires. -/
def nestedRelease : List (Fin 2 × Act) :=
  [(0, .acquire), (0, .inside), (0, .inside), (0, .inside), (0, .inside), (0, .acquired),
    (0, .acquire), (0, .acquired), (0, .release), (0, .inside), (0, .inside), (0, .released 0),
    (1, .acquire), (1, .inside), (1, .inside), (1, .inside), (1, .inside)]

/-- Both release once more. -/
def lastReleases : List (Fin 2 × Act) :=
  [(1, .acquired), (0, .release), (0, .released 17), (1, .release), (1, .inside), (1, .inside),
    (1, .released 0)]

/-- The acquire of thread 1 returns between the two releases of thread 0; in the
end everybody has released as often as acquired. -/
theorem nestedRelease_lets_in : ∃ (tr tr' : List (Fin 2 × Act)) (s s' s'' : State (Fin 2)),
    Run (threads (Fin 2)) anyStep tr s ∧ 0 < depth tr 0 ∧ step s 1 .acquired = some s' ∧
      Run (threads (Fin 2)) anyStep (tr' ++ (1, .acquired) :: tr) s'' ∧
        ∀ k, depth (tr' ++ (1, .acquired) :: tr) k = 0 := by
  have hfirst : ((nestedRelease.foldlM (fun s l => step s l.1 l.2) start).bind fun s =>
      step s 1 .acquired).isSome = true := by
    decide
  have hall : ((nestedRelease ++ lastReleases).foldlM (fun s l => step s l.1 l.2)
      start).isSome = true := by
    decide
  obtain ⟨s', hs'⟩ := Option.isSome_iff_exists.mp hfirst
  obtain ⟨s, hs, hstep⟩ := Option.bind_eq_some_iff.mp hs'
  obtain ⟨s'', hs''⟩ := Option.isSome_iff_exists.mp hall
  have hrun : Run (threads (Fin 2)) anyStep nestedRelease.reverse s :=
    Run.of_foldlM rfl (fun _ _ _ h => ⟨h, trivial⟩) hs
  have hrun'' : Run (threads (Fin 2)) anyStep (nestedRelease ++ lastReleases).reverse s'' :=
    Run.of_foldlM rfl (fun _ _ _ h => ⟨h, trivial⟩) hs''
  have hsplit : (nestedRelease ++ lastReleases).reverse =
      lastReleases.tail.reverse ++ (1, .acquired) :: nestedRelease.reverse := rfl
  rw [hsplit] at hrun''
  exact ⟨_, _, s, s', s'', hrun, by decide, hstep, hrun'', by decide⟩

end OsuLock
end Matmul
end CS444
