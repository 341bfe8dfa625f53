/-
`mm3` and `mm4`: rows are drawn from `next_row`, under a lock.

The two programs differ in the lock of `get_next_row` alone, a mutex or a
semaphore, so there is one `mult` over a `Locking`, and one proof for every lock
that `Excludes`.  The read of `next_row` and its write are two steps; `Inv` says
that whoever is between them has the lock and read the present value.
-/
import CS444.Matmul.Static

namespace CS444
namespace Matmul

open Crews Runs Threads

variable {E : Type*} [Add E] [Mul E] {T : Nat} {Λ : Type*}

/-- A lock of `T` threads; `acquire` gives nothing while it blocks. -/
structure Locking (T : Nat) (Λ : Type*) where
  init : Λ
  acquire : Fin T → Λ → Option Λ
  release : Fin T → Λ → Λ

/-- `pthread_mutex_t`: who has it. -/
def mutex (T : Nat) : Locking T (Option (Fin T)) where
  init := none
  acquire t m := if m.isNone then some (some t) else none
  release _ _ := none

/-- A `sem_t` made with 1. -/
def semaphore (T : Nat) : Locking T Nat where
  init := 1
  acquire _ n := if n = 0 then none else some (n - 1)
  release _ n := n + 1

/-- What a lock must do: a taken one blocks, until it is released. -/
structure Excludes (k : Locking T Λ) (free taken : Λ → Prop) : Prop where
  init : free k.init
  acquire_free : ∀ t l l', free l → k.acquire t l = some l' → taken l'
  acquire_taken : ∀ t l, taken l → k.acquire t l = none
  release : ∀ t l, taken l → free (k.release t l)

theorem mutex_excludes (T : Nat) :
    Excludes (mutex T) (fun m => m = none) (fun m => m.isSome) where
  init := rfl
  acquire_free t m m' hfree h := by
    obtain rfl : m = none := hfree
    obtain rfl : some t = m' := Option.some.inj h
    rfl
  acquire_taken t m htaken := by
    cases m with
    | none => exact absurd htaken (by simp)
    | some u => rfl
  release t m _ := rfl

theorem semaphore_excludes (T : Nat) :
    Excludes (semaphore T) (fun n => n = 1) (fun n => n = 0) where
  init := rfl
  acquire_free t n n' hfree h := by
    obtain rfl : n = 1 := hfree
    exact (Option.some.inj h).symm
  acquire_taken t n htaken := if_pos htaken
  release t n htaken := by
    obtain rfl : n = 0 := htaken
    rfl

namespace Counter

structure Shared (E Λ : Type*) where
  result : Matrix E
  lock : Λ
  next_row : Nat

/-- Up to `unlockRow` a thread is in `get_next_row`. -/
inductive Pc (E : Type*) where
  | lockRow
  | readRow
  | bumpRow (cur_row : Nat)
  | unlockRow (cur_row : Nat)
  | test (i : Nat)
  | row (i : Nat) (c : Locals E)

/-- `mult` and `get_next_row` of `mm3.c` and `mm4.c`. -/
def mult (inp : Input E) (k : Locking T Λ) : Code T (Shared E Λ) (Pc E) (Option Nat) where
  enter _ := .lockRow
  exec t sh
    | .lockRow => (k.acquire t sh.lock).map fun l => (none, { sh with lock := l }, some .readRow)
    | .readRow => some (none, sh, some (.bumpRow sh.next_row))
    | .bumpRow cur => some (none, { sh with next_row := cur + 1 }, some (.unlockRow cur))
    | .unlockRow cur => some (none, { sh with lock := k.release t sh.lock }, some (.test cur))
    | .test i => some (none, sh, if i < inp.dim then some (.row i (rowLoop inp).start) else none)
    | .row i c =>
      match (rowLoop inp).body i c (sh.result i) with
      | some (c', r) =>
        some (none, { sh with result := Function.update sh.result i r }, some (.row i c'))
      | none => some (some i, sh, some .lockRow)

def program (inp : Input E) (k : Locking T Λ) (init : Matrix E) :
    System (State T (Shared E Λ) (Pc E)) (Label T (Option Nat)) :=
  system (mult inp k) { result := init, lock := k.init, next_row := 0 }

def mm3 (inp : Input E) (T : Nat) (init : Matrix E) :
    System (State T (Shared E (Option (Fin T))) (Pc E)) (Label T (Option Nat)) :=
  program inp (mutex T) init

def mm4 (inp : Input E) (T : Nat) (init : Matrix E) :
    System (State T (Shared E Nat) (Pc E)) (Label T (Option Nat)) :=
  program inp (semaphore T) init

/-- A thread has the lock. -/
def Critical : Thread (Pc E) → Prop
  | .running .readRow | .running (.bumpRow _) | .running (.unlockRow _) => True
  | _ => False

/-- The row a thread has drawn. -/
def taskOf (inp : Input E) : Thread (Pc E) → Option (Nat × Locals E)
  | .running (.unlockRow i) | .running (.test i) =>
    if i < inp.dim then some (i, (rowLoop inp).start) else none
  | .running (.row i c) => some (i, c)
  | _ => none

/-- What a thread knows of `next_row`. -/
def Knows (inp : Input E) (next_row : Nat) : Thread (Pc E) → Prop
  | .running (.bumpRow cur) => cur = next_row
  | .running (.unlockRow i) | .running (.test i) => i < next_row
  | .running (.row i _) => i < inp.dim
  | .exited => inp.dim ≤ next_row
  | _ => True

def crew (inp : Input E) (s : State T (Shared E Λ) (Pc E)) :
    Crew (Fin T) Nat (Nat → E) (Locals E) where
  store := s.shared.result
  task := taskOf inp ∘ s.thread
  given i := i < s.shared.next_row ∧ i < inp.dim

structure Inv (inp : Input E) (free taken : Λ → Prop) (s : State T (Shared E Λ) (Pc E)) :
    Prop where
  lock : free s.shared.lock ∧ (∀ t, ¬Critical (s.thread t)) ∨
    taken s.shared.lock ∧ ∃ t, ∀ u, Critical (s.thread u) ↔ u = t
  knows : ∀ t, Knows inp s.shared.next_row (s.thread t)

variable {inp : Input E} {init : Matrix E} {k : Locking T Λ} {free taken : Λ → Prop}
  {s s' : State T (Shared E Λ) (Pc E)} {t : Fin T} {x : Thread (Pc E)}
  {l : Label T (Option Nat)} {tr : List (Label T (Option Nat))}

omit [Add E] [Mul E] in
theorem critical_same (h : Critical x ↔ Critical (s.thread t)) (u : Fin T) :
    Critical (Function.update s.thread t x u) ↔ Critical (s.thread u) :=
  (Function.forall_update_iff _ fun u y => Critical y ↔ Critical (s.thread u)).mpr
    ⟨h, fun _ _ => Iff.rfl⟩ u

omit [Add E] [Mul E] in
/-- A thread moves on that neither takes nor drops the lock. -/
theorem Inv.moved (h : Inv inp free taken s) (hcritical : Critical x ↔ Critical (s.thread t))
    (hknows : Knows inp s.shared.next_row x) {sh : Shared E Λ} {m : Main}
    (hlock : sh.lock = s.shared.lock) (hnext : sh.next_row = s.shared.next_row) :
    Inv inp free taken { shared := sh, thread := Function.update s.thread t x, main := m } where
  lock := by
    show free sh.lock ∧ (∀ u, ¬Critical (Function.update s.thread t x u)) ∨
      taken sh.lock ∧ ∃ v, ∀ u, Critical (Function.update s.thread t x u) ↔ u = v
    simp only [hlock, critical_same hcritical]
    exact h.lock
  knows := by
    show ∀ u, Knows inp sh.next_row (Function.update s.thread t x u)
    rw [hnext]
    exact (Function.forall_update_iff _ fun _ y => Knows inp s.shared.next_row y).mpr
      ⟨hknows, fun u _ => h.knows u⟩

theorem Inv.step (hk : Excludes k free taken) (h : Inv inp free taken s) (hprogress : Progress s)
    (hstep : Step (mult inp k) s l s') : Inv inp free taken s' := by
  cases hstep with
  | create t hmain =>
      have hunborn : s.thread t = .unborn := by
        unfold Progress at hprogress
        rw [hmain] at hprogress
        exact hprogress t (Nat.le_refl _)
      refine h.moved ?_ ?_ rfl rfl
      · rw [hunborn]
        exact Iff.rfl
      · trivial
  | created hmain => exact ⟨h.lock, h.knows⟩
  | join t hmain hexited => exact ⟨h.lock, h.knows⟩
  | joined hmain => exact ⟨h.lock, h.knows⟩
  | thread t p l sh next hrunning hexec =>
      have hmine := h.knows t
      rw [hrunning] at hmine
      cases p with
      | lockRow =>
          obtain ⟨lock, hacquire, heq⟩ := Option.map_eq_some_iff.mp hexec
          cases heq
          rcases h.lock with ⟨hfree, hnone⟩ | ⟨htaken, -⟩
          · refine ⟨Or.inr ⟨hk.acquire_free t _ _ hfree hacquire, t, ?_⟩, ?_⟩
            · exact (Function.forall_update_iff _ fun u y => Critical y ↔ u = t).mpr
                ⟨iff_of_true trivial rfl, fun u hu => iff_of_false (hnone u) hu⟩
            · exact (Function.forall_update_iff _ fun _ y => Knows inp s.shared.next_row y).mpr
                ⟨trivial, fun u _ => h.knows u⟩
          · exact absurd (hacquire.symm.trans (hk.acquire_taken t _ htaken)) (by simp)
      | readRow =>
          cases hexec
          refine h.moved ?_ ?_ rfl rfl
          · rw [hrunning]
            exact Iff.rfl
          · exact rfl
      | bumpRow cur =>
          cases hexec
          obtain rfl : cur = s.shared.next_row := hmine
          have hcritical : Critical (s.thread t) := by
            rw [hrunning]
            trivial
          refine ⟨?_, ?_⟩
          · have hsame := critical_same (s := s) (t := t)
              (x := Thread.next (some (.unlockRow s.shared.next_row)))
              (iff_of_true trivial hcritical)
            simp only [hsame]
            exact h.lock
          · refine (Function.forall_update_iff _ fun _ y =>
              Knows inp (s.shared.next_row + 1) y).mpr ⟨Nat.lt_succ_self _, fun u hu => ?_⟩
            have hother := h.knows u
            -- nobody else is between the read and the write
            have hapart : ¬Critical (s.thread u) := by
              intro hcu
              rcases h.lock with ⟨-, hnone⟩ | ⟨-, v, hv⟩
              · exact hnone u hcu
              · exact hu (((hv u).mp hcu).trans ((hv t).mp hcritical).symm)
            cases hth : s.thread u with
            | unborn => trivial
            | exited =>
                rw [hth] at hother
                exact Nat.le_succ_of_le hother
            | running q =>
                rw [hth] at hother hapart
                cases q with
                | lockRow => trivial
                | readRow => trivial
                | bumpRow c => exact absurd trivial hapart
                | unlockRow c => exact Nat.lt_succ_of_lt hother
                | test c => exact Nat.lt_succ_of_lt hother
                | row c d => exact hother
      | unlockRow cur =>
          cases hexec
          have hcritical : Critical (s.thread t) := by
            rw [hrunning]
            trivial
          rcases h.lock with ⟨-, hnone⟩ | ⟨htaken, v, hv⟩
          · exact absurd hcritical (hnone t)
          · refine ⟨Or.inl ⟨hk.release t _ htaken, ?_⟩, ?_⟩
            · exact (Function.forall_update_iff _ fun _ y => ¬Critical y).mpr ⟨id, fun u hu hcu =>
                hu (((hv u).mp hcu).trans ((hv t).mp hcritical).symm)⟩
            · exact (Function.forall_update_iff _ fun _ y => Knows inp s.shared.next_row y).mpr
                ⟨hmine, fun u _ => h.knows u⟩
      | test i =>
          cases hexec
          have hbelow : i < s.shared.next_row := hmine
          by_cases hi : i < inp.dim
          · have htest : (if i < inp.dim then some (Pc.row i (rowLoop inp).start) else none) =
                some (.row i (rowLoop inp).start) := if_pos hi
            rw [htest]
            refine h.moved ?_ ?_ rfl rfl
            · rw [hrunning]
              exact Iff.rfl
            · exact hi
          · have htest : (if i < inp.dim then some (Pc.row i (rowLoop inp).start) else none) =
                (none : Option (Pc E)) := if_neg hi
            rw [htest]
            refine h.moved ?_ ?_ rfl rfl
            · rw [hrunning]
              exact Iff.rfl
            · show inp.dim ≤ s.shared.next_row
              omega
      | row i c =>
          simp only [mult] at hexec
          split at hexec
          · cases hexec
            refine h.moved ?_ ?_ rfl rfl
            · rw [hrunning]
              exact Iff.rfl
            · exact hmine
          · cases hexec
            refine h.moved ?_ ?_ rfl rfl
            · rw [hrunning]
              exact Iff.rfl
            · trivial

/-- Every step of the program is a step of the crew. -/
theorem crew_move (h : Inv inp free taken s) (hprogress : Progress s)
    (hstep : Step (mult inp k) s l s') :
    Move (rowLoop inp) (crew inp s) (crew inp s') (finished l) := by
  have hstay {t : Fin T} {x : Thread (Pc E)} (hx : taskOf inp x = taskOf inp (s.thread t)) :
      taskOf inp ∘ Function.update s.thread t x = taskOf inp ∘ s.thread := by
    rw [Function.comp_update]
    exact Function.update_eq_self_iff.mpr hx
  cases hstep with
  | create t hmain =>
      have hunborn : s.thread t = .unborn := by
        unfold Progress at hprogress
        rw [hmain] at hprogress
        exact hprogress t (Nat.le_refl _)
      refine .idle rfl (hstay ?_) fun _ => Iff.rfl
      rw [hunborn]
      rfl
  | created hmain => exact .idle rfl rfl fun _ => Iff.rfl
  | join t hmain hexited => exact .idle rfl rfl fun _ => Iff.rfl
  | joined hmain => exact .idle rfl rfl fun _ => Iff.rfl
  | thread t p l sh next hrunning hexec =>
      have hmine := h.knows t
      rw [hrunning] at hmine
      have hnow : (crew inp s).task t = taskOf inp (.running p) :=
        congrArg (taskOf inp) hrunning
      have htask {x : Thread (Pc E)} : taskOf inp ∘ Function.update s.thread t x =
          Function.update (taskOf inp ∘ s.thread) t (taskOf inp x) :=
        Function.comp_update (taskOf inp) s.thread t x
      cases p with
      | lockRow =>
          obtain ⟨lock, -, heq⟩ := Option.map_eq_some_iff.mp hexec
          cases heq
          refine .idle rfl (hstay ?_) fun _ => Iff.rfl
          rw [hrunning]
          rfl
      | readRow =>
          cases hexec
          refine .idle rfl (hstay ?_) fun _ => Iff.rfl
          rw [hrunning]
          rfl
      | bumpRow cur =>
          cases hexec
          obtain rfl : cur = s.shared.next_row := hmine
          by_cases hdim : s.shared.next_row < inp.dim
          · refine .take t s.shared.next_row hnow (fun hg => Nat.lt_irrefl _ hg.1) rfl ?_ ?_
            · refine htask.trans (congrArg (Function.update _ t) ?_)
              exact if_pos hdim
            · intro i
              show i < s.shared.next_row + 1 ∧ i < inp.dim ↔
                (i < s.shared.next_row ∧ i < inp.dim) ∨ i = s.shared.next_row
              omega
          · refine .idle rfl (hstay ?_) fun i => ?_
            · rw [hrunning]
              exact if_neg hdim
            · show i < s.shared.next_row + 1 ∧ i < inp.dim ↔ i < s.shared.next_row ∧ i < inp.dim
              omega
      | unlockRow cur =>
          cases hexec
          refine .idle rfl (hstay ?_) fun _ => Iff.rfl
          rw [hrunning]
          rfl
      | test i =>
          cases hexec
          refine .idle rfl (hstay ?_) fun _ => Iff.rfl
          rw [hrunning]
          show taskOf inp (Thread.next (if i < inp.dim then some _ else none)) =
            if i < inp.dim then some (i, (rowLoop inp).start) else none
          by_cases hi : i < inp.dim
          · rw [if_pos hi, if_pos hi]
            rfl
          · rw [if_neg hi, if_neg hi]
            rfl
      | row i c =>
          simp only [mult] at hexec
          split at hexec
          · rename_i c' r hbody
            cases hexec
            exact .work t i c c' r hnow hbody rfl htask fun _ => Iff.rfl
          · rename_i hbody
            cases hexec
            exact .finish t i c hnow hbody rfl htask fun _ => Iff.rfl

/-- With any lock that excludes, the program computes what `mm1` computes, every
row once. -/
theorem program_eq_mm1 (hk : Excludes k free taken) (hT : 1 ≤ T)
    (hrun : Run (program inp k init) anyStep tr s) (hdone : s.main = .done) :
    s.shared.result = mm1 inp init ∧ EachRowOnce inp tr := by
  have hsound : Inv inp free taken s ∧
      Sound init (Halfway inp init) (fun i r => r = row inp i (init i) inp.dim) (tr.map finished)
        (crew inp s) := by
    clear hdone
    induction hrun with
    | @init s h =>
        obtain rfl : s = start T _ := h
        refine ⟨⟨Or.inl ⟨hk.init, fun _ => id⟩, fun _ => trivial⟩,
          fun i => .untouched ?_ rfl ?_ rfl⟩
        · exact fun hg => absurd hg.1 (Nat.not_lt_zero i)
        · exact fun t c ht => absurd ht (by simp [crew, taskOf, start])
    | step hrun hstep _ ih =>
        have hprogress := run_progress hrun
        exact ⟨ih.1.step hk hprogress hstep, ih.2.move (rowRule inp init)
          (crew_move ih.1 hprogress hstep)⟩
  have hexited := all_exited hrun hdone
  have hdim : inp.dim ≤ s.shared.next_row := by
    have hknows := hsound.1.knows ⟨0, hT⟩
    rw [hexited] at hknows
    exact hknows
  refine mm1_of_sound hsound.2 (fun t => ?_) fun i => ?_
  · show taskOf inp (s.thread t) = none
    rw [hexited t]
    rfl
  · show i < s.shared.next_row ∧ i < inp.dim ↔ i < inp.dim
    omega

end Counter
end Matmul
end CS444
