/-
`mm5`: rows are drawn from `next_row` under `osu_lock`.

`refines` makes every run of `mm5` a run of `mm4`: a thread that has got past
`sem_wait(&l->lock)` has the semaphore of `mm4`, and it has given it back with
`sem_post(&l->lock)`; what `osu_lock` does before, between and after is no step
of `mm4`.  That needs that a thread never finds itself in `locking_thread` when
it acquires, and always when it releases, `Claims`.
-/
import CS444.Matmul.Counter
import CS444.Matmul.OsuLock

namespace CS444
namespace Matmul

open Crews Runs Threads

variable {E : Type*} [Add E] [Mul E] {T : Nat}

namespace Owner

structure Shared (E : Type*) (T : Nat) where
  result : Matrix E
  l : OsuLock.Lock (Fin T)
  next_row : Nat

/-- Up to `releasing` a thread is in `get_next_row`. -/
inductive Pc (E : Type*) where
  | acquiring (p : OsuLock.Pc)
  | readRow
  | bumpRow (cur_row : Nat)
  | releasing (p : OsuLock.Pc) (cur_row : Nat)
  | test (i : Nat)
  | row (i : Nat) (c : Locals E)

/-- Behind an instruction of `osu_lock_acquire`. -/
def afterAcquire (a : OsuLock.Act) (p : OsuLock.Pc) : Pc E :=
  match a with
  | .acquired => .readRow
  | _ => .acquiring p

/-- Behind an instruction of `osu_lock_release`; what it returns is not looked
at. -/
def afterRelease (cur : Nat) (a : OsuLock.Act) (p : OsuLock.Pc) : Pc E :=
  match a with
  | .released _ => .test cur
  | _ => .releasing p cur

/-- `mult` and `get_next_row` of `mm5.c`. -/
def mult (inp : Input E) (T : Nat) : Code T (Shared E T) (Pc E) (Option Nat) where
  enter _ := .acquiring .acquireCheck
  exec t sh
    | .acquiring p => (OsuLock.exec t sh.l p).map fun r =>
        (none, { sh with l := r.2.1 }, some (afterAcquire r.1 r.2.2))
    | .readRow => some (none, sh, some (.bumpRow sh.next_row))
    | .bumpRow cur =>
      some (none, { sh with next_row := cur + 1 }, some (.releasing .releaseCheck cur))
    | .releasing p cur => (OsuLock.exec t sh.l p).map fun r =>
        (none, { sh with l := r.2.1 }, some (afterRelease cur r.1 r.2.2))
    | .test i => some (none, sh, if i < inp.dim then some (.row i (rowLoop inp).start) else none)
    | .row i c =>
      match (rowLoop inp).body i c (sh.result i) with
      | some (c', r) =>
        some (none, { sh with result := Function.update sh.result i r }, some (.row i c'))
      | none => some (some i, sh, some (.acquiring .acquireCheck))

/-- `main` makes the lock with `osu_lock_init`. -/
def mm5 (inp : Input E) (T : Nat) (init : Matrix E) :
    System (State T (Shared E T) (Pc E)) (Label T (Option Nat)) :=
  system (mult inp T) { result := init, l := OsuLock.osu_lock_init, next_row := 0 }

/-! ## What a thread knows of the lock -/

/-- Where a thread is in `osu_lock`. -/
def lockPc : Thread (Pc E) → OsuLock.Pc
  | .running (.acquiring p) | .running (.releasing p _) => p
  | _ => .idle

def lockState (s : State T (Shared E T) (Pc E)) : OsuLock.State (Fin T) where
  l := s.shared.l
  pc := lockPc ∘ s.thread

/-- In `get_next_row` behind its acquire thread `t` is in `locking_thread`; before
the acquire, and outside, it is not.  In between `osu_lock` knows. -/
def Claims (locking_thread : Option (Fin T)) (t : Fin T) : Thread (Pc E) → Prop
  | .running (.acquiring .acquireCheck) => locking_thread ≠ some t
  | .running (.acquiring p) =>
    p = .waitGuard ∨ p = .waitLock ∨ p = .setThread ∨ p = .postGuard
  | .running .readRow | .running (.bumpRow _) => locking_thread = some t
  | .running (.releasing .releaseCheck _) => locking_thread = some t
  | .running (.releasing p _) => p = .clearThread ∨ p = .postLock
  | _ => locking_thread ≠ some t

structure Inv (s : State T (Shared E T) (Pc E)) : Prop where
  lock : OsuLock.Inv (lockState s)
  claims : ∀ t, Claims s.shared.l.locking_thread t (s.thread t)

variable {inp : Input E} {init : Matrix E} {s s' : State T (Shared E T) (Pc E)} {t : Fin T}
  {x : Thread (Pc E)} {l : Label T (Option Nat)} {tr : List (Label T (Option Nat))}

omit [Add E] [Mul E] in
theorem claims_congr {lt lt' : Option (Fin T)} (h : lt' = some t ↔ lt = some t) :
    Claims lt' t x ↔ Claims lt t x := by
  cases x with
  | unborn => exact not_congr h
  | exited => exact not_congr h
  | running p =>
      cases p with
      | acquiring q => cases q <;> first | exact not_congr h | exact Iff.rfl
      | releasing q cur => cases q <;> first | exact h | exact Iff.rfl
      | readRow => exact h
      | bumpRow cur => exact h
      | test i => exact not_congr h
      | row i c => exact not_congr h

omit [Add E] [Mul E] in
theorem claims_update {lt : Option (Fin T)} (h : Inv s) (hx : Claims lt t x)
    (hother : ∀ u, u ≠ t → (lt = some u ↔ s.shared.l.locking_thread = some u)) (u : Fin T) :
    Claims lt u (Function.update s.thread t x u) :=
  (Function.forall_update_iff _ (Claims lt)).mpr
    ⟨hx, fun v hv => (claims_congr (hother v hv)).mpr (h.claims v)⟩ u

omit [Add E] [Mul E] in
/-- A step of thread `t` in `osu_lock`. -/
theorem Inv.exec (h : Inv s) {a : OsuLock.Act} {lk : OsuLock.Lock (Fin T)} {q : OsuLock.Pc}
    (hexec : OsuLock.exec t s.shared.l (lockPc (s.thread t)) = some (a, lk, q))
    (hpc : lockPc x = q) (hx : Claims lk.locking_thread t x) {m : Main} :
    Inv { shared := { s.shared with l := lk }, thread := Function.update s.thread t x, main := m }
    where
  lock := by
    have hlock := h.lock.exec (k := t) hexec
    show OsuLock.Inv { l := lk, pc := lockPc ∘ Function.update s.thread t x }
    rw [Function.comp_update, hpc]
    exact hlock
  claims := claims_update h hx fun _ hu => OsuLock.exec_other h.lock (Ne.symm hu) hexec

omit [Add E] [Mul E] in
/-- A step of thread `t` elsewhere, or a call. -/
theorem Inv.goto (h : Inv s) (hidle : lockPc (s.thread t) = .idle)
    (hpc : lockPc x = .idle ∨ lockPc x = .acquireCheck ∨ lockPc x = .releaseCheck)
    (hx : Claims s.shared.l.locking_thread t x) {m : Main} {sh : Shared E T}
    (hsh : sh.l = s.shared.l) :
    Inv { shared := sh, thread := Function.update s.thread t x, main := m } where
  lock := by
    show OsuLock.Inv { l := sh.l, pc := lockPc ∘ Function.update s.thread t x }
    have hpc' : (lockState s).pc t = .idle := hidle
    have hgoto := h.lock.goto (k := t) (p := lockPc x)
      (by rw [hpc']; rcases hpc with hq | hq | hq <;> simp [hq, OsuLock.Pc.Guards])
      (by rw [hpc']; rcases hpc with hq | hq | hq <;> simp [hq, OsuLock.Pc.Unnamed])
      (by rcases hpc with hq | hq | hq <;> simp [hq, OsuLock.Pc.Named])
      (by rcases hpc with hq | hq | hq <;> simp [hq, OsuLock.Pc.Apart])
    rw [Function.comp_update, hsh]
    exact hgoto
  claims := by
    show ∀ u, Claims sh.l.locking_thread u (Function.update s.thread t x u)
    rw [hsh]
    exact claims_update h hx fun _ _ => Iff.rfl

/-! ## The run of `mm4` -/

def absThread : Thread (Pc E) → Thread (Counter.Pc E)
  | .unborn => .unborn
  | .running (.acquiring .setThread) | .running (.acquiring .postGuard) => .running .readRow
  | .running (.acquiring _) => .running .lockRow
  | .running .readRow => .running .readRow
  | .running (.bumpRow cur) => .running (.bumpRow cur)
  | .running (.releasing _ cur) => .running (.unlockRow cur)
  | .running (.test i) => .running (.test i)
  | .running (.row i c) => .running (.row i c)
  | .exited => .exited

def absShared (sh : Shared E T) : Counter.Shared E Nat where
  result := sh.result
  lock := sh.l.lock
  next_row := sh.next_row

def abs (s : State T (Shared E T) (Pc E)) : State T (Counter.Shared E Nat) (Counter.Pc E) where
  shared := absShared s.shared
  thread := absThread ∘ s.thread
  main := s.main

omit [Add E] [Mul E] in
theorem abs_update (thread : Fin T → Thread (Pc E)) (sh : Shared E T) (m : Main) :
    abs { shared := sh, thread := Function.update thread t x, main := m } =
      { shared := absShared sh, thread := Function.update (absThread ∘ thread) t (absThread x),
        main := m } := by
  unfold abs
  rw [Function.comp_update]

omit [Add E] [Mul E] in
/-- A step that `mm4` does not have. -/
theorem abs_stays {sh : Shared E T} (hsh : absShared sh = absShared s.shared)
    (hx : absThread x = absThread (s.thread t)) :
    abs { shared := sh, thread := Function.update s.thread t x, main := s.main } = abs s := by
  rw [abs_update, hsh, hx]
  unfold abs
  rw [show absThread (s.thread t) = (absThread ∘ s.thread) t from rfl, Function.update_eq_self]

/-- A step of thread `t` of `mm4`. -/
theorem abs_moves {p : Counter.Pc E} {sh : Shared E T} {label : Option Nat}
    {n : Option (Counter.Pc E)} (hrunning : absThread (s.thread t) = .running p)
    (hexec : (Counter.mult inp (semaphore T)).exec t (absShared s.shared) p =
      some (label, absShared sh, n))
    (hx : absThread x = Thread.next n) :
    Step (Counter.mult inp (semaphore T)) (abs s) (.thread t label)
      (abs { shared := sh, thread := Function.update s.thread t x, main := s.main }) := by
  rw [abs_update, hx]
  exact .thread t p label (absShared sh) n hrunning hexec

/-- After a step of thread `t`. -/
def moved (s : State T (Shared E T) (Pc E)) (t : Fin T) (sh : Shared E T) (x : Thread (Pc E)) :
    State T (Shared E T) (Pc E) :=
  { s with
    shared := sh
    thread := Function.update s.thread t x }

/-- `mm4` takes the step too, or it is none of its steps and finishes no row. -/
def Matches (inp : Input E) (s s' : State T (Shared E T) (Pc E)) (l : Label T (Option Nat)) :
    Prop :=
  Step (Counter.mult inp (semaphore T)) (abs s) l (abs s') ∨ abs s' = abs s ∧ finished l = none

theorem acquiring_step {p : OsuLock.Pc} (h : Inv s) (hth : s.thread t = .running (.acquiring p))
    {sh : Shared E T} {next : Option (Pc E)} {label : Option Nat}
    (hexec : (mult inp T).exec t s.shared (.acquiring p) = some (label, sh, next)) :
    Inv (moved s t sh (Thread.next next)) ∧
      Matches inp s (moved s t sh (Thread.next next)) (.thread t label) := by
  have hclaims := h.claims t
  have hnamed := h.lock.named t
  have hpc : lockPc (s.thread t) = p := by rw [hth]; rfl
  rw [hth] at hclaims
  obtain ⟨⟨a, lk, q⟩, hlock, heq⟩ := Option.map_eq_some_iff.mp hexec
  cases heq
  have hstep : OsuLock.exec t s.shared.l (lockPc (s.thread t)) = some (a, lk, q) := by
    rw [hpc]
    exact hlock
  cases p with
  | acquireCheck =>
      have hne : s.shared.l.locking_thread ≠ some t := hclaims
      simp only [OsuLock.exec, if_neg hne] at hlock
      cases hlock
      refine ⟨h.exec (x := .running (.acquiring .waitGuard)) hstep rfl (Or.inl rfl),
        Or.inr ⟨abs_stays rfl ?_, rfl⟩⟩
      rw [hth]
      rfl
  | waitGuard =>
      simp only [OsuLock.exec] at hlock
      split at hlock
      · exact absurd hlock (by simp)
      · cases hlock
        refine ⟨h.exec (x := .running (.acquiring .waitLock)) hstep rfl (Or.inr (Or.inl rfl)),
        Or.inr ⟨abs_stays rfl ?_, rfl⟩⟩
        rw [hth]
        rfl
  | waitLock =>
      simp only [OsuLock.exec] at hlock
      split at hlock
      · exact absurd hlock (by simp)
      · rename_i hpos
        cases hlock
        refine ⟨h.exec (x := .running (.acquiring .setThread)) hstep rfl
          (Or.inr (Or.inr (Or.inl rfl))), Or.inl ?_⟩
        refine abs_moves (p := .lockRow) (n := some .readRow) (by rw [hth]; rfl) ?_ rfl
        show ((semaphore T).acquire t s.shared.l.lock).map _ = _
        have hacquire : (semaphore T).acquire t s.shared.l.lock = some (s.shared.l.lock - 1) :=
          if_neg hpos
        rw [hacquire]
        rfl
  | setThread =>
      cases hlock
      refine ⟨h.exec (x := .running (.acquiring .postGuard)) hstep rfl
        (Or.inr (Or.inr (Or.inr rfl))), Or.inr ⟨abs_stays rfl ?_, rfl⟩⟩
      rw [hth]
      rfl
  | postGuard =>
      cases hlock
      have hmine : s.shared.l.locking_thread = some t := hnamed (Or.inl hpc)
      refine ⟨h.exec (x := .running .readRow) hstep rfl hmine,
        Or.inr ⟨abs_stays rfl ?_, rfl⟩⟩
      rw [hth]
      rfl
  | idle | releaseCheck | clearThread | postLock =>
      exact absurd hclaims (by simp [Claims])

theorem releasing_step {p : OsuLock.Pc} {cur : Nat} (h : Inv s)
    (hth : s.thread t = .running (.releasing p cur))
    {sh : Shared E T} {next : Option (Pc E)} {label : Option Nat}
    (hexec : (mult inp T).exec t s.shared (.releasing p cur) = some (label, sh, next)) :
    Inv (moved s t sh (Thread.next next)) ∧
      Matches inp s (moved s t sh (Thread.next next)) (.thread t label) := by
  have hclaims := h.claims t
  have hapart := h.lock.apart t
  have hpc : lockPc (s.thread t) = p := by rw [hth]; rfl
  rw [hth] at hclaims
  obtain ⟨⟨a, lk, q⟩, hlock, heq⟩ := Option.map_eq_some_iff.mp hexec
  cases heq
  have hstep : OsuLock.exec t s.shared.l (lockPc (s.thread t)) = some (a, lk, q) := by
    rw [hpc]
    exact hlock
  cases p with
  | releaseCheck =>
      have hmine : s.shared.l.locking_thread = some t := hclaims
      simp only [OsuLock.exec, if_pos hmine] at hlock
      cases hlock
      refine ⟨h.exec (x := .running (.releasing .clearThread cur)) hstep rfl (Or.inl rfl),
        Or.inr ⟨abs_stays rfl ?_, rfl⟩⟩
      rw [hth]
      rfl
  | clearThread =>
      cases hlock
      refine ⟨h.exec (x := .running (.releasing .postLock cur)) hstep rfl (Or.inr rfl),
        Or.inr ⟨abs_stays rfl ?_, rfl⟩⟩
      rw [hth]
      rfl
  | postLock =>
      cases hlock
      have hne : s.shared.l.locking_thread ≠ some t := hapart (by
        show (lockPc (s.thread t)).Apart
        rw [hpc]
        exact Or.inr (Or.inr (Or.inr rfl)))
      refine ⟨h.exec (x := .running (.test cur)) hstep rfl hne, Or.inl ?_⟩
      exact abs_moves (p := .unlockRow cur) (n := some (.test cur)) (by rw [hth]; rfl) rfl rfl
  | idle | acquireCheck | waitGuard | waitLock | setThread | postGuard =>
      exact absurd hclaims (by simp [Claims])

theorem step_matches (h : Inv s) (hprogress : Progress s) (hstep : Step (mult inp T) s l s') :
    Inv s' ∧ Matches inp s s' l := by
  cases hstep with
  | create t hmain =>
      have hunborn : s.thread t = .unborn := by
        unfold Progress at hprogress
        rw [hmain] at hprogress
        exact hprogress t (Nat.le_refl _)
      have hclaims := h.claims t
      rw [hunborn] at hclaims
      refine ⟨h.goto (x := .running (.acquiring .acquireCheck)) (by rw [hunborn]; rfl)
        (Or.inr (Or.inl rfl)) hclaims rfl, Or.inl ?_⟩
      rw [abs_update]
      exact .create t hmain
  | created hmain => exact ⟨⟨h.lock, h.claims⟩, Or.inl (.created hmain)⟩
  | join t hmain hexited =>
      refine ⟨⟨h.lock, h.claims⟩, Or.inl (.join t hmain ?_)⟩
      show absThread (s.thread t) = .exited
      rw [hexited]
      rfl
  | joined hmain => exact ⟨⟨h.lock, h.claims⟩, Or.inl (.joined hmain)⟩
  | thread t p label sh next hrunning hexec =>
      have hclaims := h.claims t
      rw [hrunning] at hclaims
      cases p with
      | acquiring p => exact acquiring_step h hrunning hexec
      | releasing p cur => exact releasing_step h hrunning hexec
      | readRow =>
          cases hexec
          refine ⟨h.goto (x := .running (.bumpRow s.shared.next_row)) (by rw [hrunning]; rfl)
            (Or.inl rfl) hclaims rfl, Or.inl ?_⟩
          exact abs_moves (n := some (.bumpRow s.shared.next_row)) (by rw [hrunning]; rfl) rfl
            rfl
      | bumpRow cur =>
          cases hexec
          refine ⟨h.goto (x := .running (.releasing .releaseCheck cur)) (by rw [hrunning]; rfl)
            (Or.inr (Or.inr rfl)) hclaims rfl, Or.inl ?_⟩
          exact abs_moves (n := some (.unlockRow cur)) (by rw [hrunning]; rfl) rfl rfl
      | test i =>
          cases hexec
          by_cases hi : i < inp.dim
          · have htest : (if i < inp.dim then some (Pc.row i (rowLoop inp).start) else none) =
                some (.row i (rowLoop inp).start) := if_pos hi
            rw [htest]
            refine ⟨h.goto (x := .running (.row i (rowLoop inp).start)) (by rw [hrunning]; rfl)
              (Or.inl rfl) hclaims rfl, Or.inl ?_⟩
            refine abs_moves (p := .test i) (by rw [hrunning]; rfl) rfl ?_
            rw [if_pos hi]
            rfl
          · have htest : (if i < inp.dim then some (Pc.row i (rowLoop inp).start) else none) =
                (none : Option (Pc E)) := if_neg hi
            rw [htest]
            refine ⟨h.goto (x := .exited) (by rw [hrunning]; rfl)
              (Or.inl rfl) hclaims rfl, Or.inl ?_⟩
            refine abs_moves (p := .test i) (by rw [hrunning]; rfl) rfl ?_
            rw [if_neg hi]
            rfl
      | row i c =>
          simp only [mult] at hexec
          split at hexec
          · rename_i c' r hbody
            cases hexec
            refine ⟨h.goto (x := .running (.row i c')) (by rw [hrunning]; rfl)
              (Or.inl rfl) hclaims rfl, Or.inl ?_⟩
            refine abs_moves (p := .row i c) (n := some (.row i c')) (by rw [hrunning]; rfl) ?_ rfl
            have hbody' : (rowLoop inp).body i c ((absShared s.shared).result i) = some (c', r) :=
              hbody
            simp only [Counter.mult, hbody']
            rfl
          · rename_i hbody
            cases hexec
            refine ⟨h.goto (x := .running (.acquiring .acquireCheck)) (by rw [hrunning]; rfl)
              (Or.inr (Or.inl rfl)) hclaims rfl, Or.inl ?_⟩
            refine abs_moves (p := .row i c) (n := some .lockRow) (by rw [hrunning]; rfl) ?_ rfl
            have hbody' : (rowLoop inp).body i c ((absShared s.shared).result i) = none := hbody
            simp only [Counter.mult, hbody']

/-- Every run of `mm5` is a run of `mm4` that finishes the same rows. -/
theorem refines (hrun : Run (mm5 inp T init) anyStep tr s) :
    Inv s ∧ ∃ tr', Run (Counter.mm4 inp T init) anyStep tr' (abs s) ∧
      ∀ i, (tr'.map finished).count (some i) = (tr.map finished).count (some i) := by
  induction hrun with
  | @init s h =>
      obtain rfl : s = start T _ := h
      refine ⟨⟨OsuLock.start_inv, fun t => ?_⟩, [], .init rfl, fun _ => rfl⟩
      show (none : Option (Fin T)) ≠ some t
      simp
  | step hrun hstep _ ih =>
      obtain ⟨hinv, tr', hrun', hcount⟩ := ih
      obtain ⟨hinv', hstep' | ⟨hsame, hnone⟩⟩ := step_matches hinv (run_progress hrun) hstep
      · refine ⟨hinv', _, .step hrun' hstep' trivial, fun i => ?_⟩
        rw [List.map_cons, List.map_cons, List.count_cons, List.count_cons, hcount]
      · refine ⟨hinv', tr', hsame ▸ hrun', fun i => ?_⟩
        rw [hcount, List.map_cons, hnone, List.count_cons_of_ne (by simp)]

/-- `mm5` computes what `mm1` computes, every row once. -/
theorem mm5_eq_mm1 (hT : 1 ≤ T) (hrun : Run (mm5 inp T init) anyStep tr s)
    (hdone : s.main = .done) : s.shared.result = mm1 inp init ∧ EachRowOnce inp tr := by
  obtain ⟨-, tr', hrun', hcount⟩ := refines hrun
  obtain ⟨hresult, honce⟩ := Counter.program_eq_mm1 (semaphore_excludes T) hT hrun' hdone
  exact ⟨hresult, fun i hi => (hcount i).symm.trans (honce i hi)⟩

end Owner

/-! ## The programs together -/

/-- When `main` has joined the threads, the result is that of `mm1`, and every
row has been computed once. -/
def Computes {σ π : Type*} (inp : Input E) (init : Matrix E) (result : σ → Matrix E)
    (sys : System (State T σ π) (Label T (Option Nat))) : Prop :=
  ∀ tr s, Run sys anyStep tr s → s.main = .done →
    result s.shared = mm1 inp init ∧ EachRowOnce inp tr

/-- The four parallel programs compute what the sequential one computes. -/
theorem parallel_eq_mm1 (inp : Input E) (init : Matrix E) (hT : 1 ≤ T) :
    Computes inp init id (Static.mm2 inp T init) ∧
      Computes inp init (·.result) (Counter.mm3 inp T init) ∧
        Computes inp init (·.result) (Counter.mm4 inp T init) ∧
          Computes inp init (·.result) (Owner.mm5 inp T init) := by
  refine ⟨?_, ?_, ?_, ?_⟩
  · exact fun tr s hrun hdone => Static.mm2_eq_mm1 hT hrun hdone
  · exact fun tr s hrun hdone => Counter.program_eq_mm1 (mutex_excludes T) hT hrun hdone
  · exact fun tr s hrun hdone => Counter.program_eq_mm1 (semaphore_excludes T) hT hrun hdone
  · exact fun tr s hrun hdone => Owner.mm5_eq_mm1 hT hrun hdone

/-- Two rows and columns. -/
def twoRows : Input Nat where
  dim := 2
  matrix1 i k := i + k + 1
  matrix2 k j := 2 * k + j

/-- `main` gets through its joins, with the result of `mm1` and every row computed
once. -/
def Finishes {σ π : Type*} (inp : Input E) (init : Matrix E) (result : σ → Matrix E)
    (sys : System (State T σ π) (Label T (Option Nat))) : Prop :=
  ∃ tr s, Run sys anyStep tr s ∧ s.main = .done ∧ result s.shared = mm1 inp init ∧
    EachRowOnce inp tr

theorem Computes.finishes {σ π : Type*} {code : Code T σ π (Option Nat)} {sh : σ}
    {inp : Input E} {init : Matrix E} {result : σ → Matrix E}
    (h : Computes inp init result (system code sh)) {n : Nat}
    (hdone : (rounds code n (start T sh)).main = .done) :
    Finishes inp init result (system code sh) := by
  obtain ⟨tr, hrun⟩ := run_rounds (.init rfl : Run (system code sh) anyStep [] (start T sh)) n
  exact ⟨tr, _, hrun, hdone, h tr _ hrun hdone⟩

/-- The four programs on two rows, two threads taking turns with `main`. -/
theorem parallel_eq_mm1_twoRows :
    Finishes twoRows (fun _ _ => 0) id (Static.mm2 twoRows 2 fun _ _ => 0) ∧
      Finishes twoRows (fun _ _ => 0) (·.result) (Counter.mm3 twoRows 2 fun _ _ => 0) ∧
        Finishes twoRows (fun _ _ => 0) (·.result) (Counter.mm4 twoRows 2 fun _ _ => 0) ∧
          Finishes twoRows (fun _ _ => 0) (·.result) (Owner.mm5 twoRows 2 fun _ _ => 0) ∧
            mm1 twoRows (fun _ _ => 0) 1 1 = 11 := by
  obtain ⟨h2, h3, h4, h5⟩ := parallel_eq_mm1 (T := 2) twoRows (fun _ _ => 0) (by omega)
  refine ⟨Computes.finishes (n := 20) h2 ?_, Computes.finishes (n := 30) h3 ?_,
    Computes.finishes (n := 30) h4 ?_, Computes.finishes (n := 50) h5 ?_, by decide⟩
  all_goals decide +kernel

end Matmul
end CS444
