/-
`mm2`: thread `tid` computes the rows `tid`, `tid + num_threads`, and so on.

`mm2_crew` makes the threads a crew: the rows that have been given out are, for
each thread, those of its remainder that it has come to.
-/
import CS444.Lib.Threads
import CS444.Matmul.Rows

namespace CS444
namespace Matmul

open Crews Runs Threads

variable {E : Type*} [Add E] [Mul E] {T : Nat}

/-- The row a step finished. -/
def finished : Label T (Option Nat) → Option Nat
  | .main => none
  | .thread _ l => l

/-- Every row below `dim` was finished once, by one thread. -/
def EachRowOnce (inp : Input E) (tr : List (Label T (Option Nat))) : Prop :=
  ∀ i, i < inp.dim → (tr.map finished).count (some i) = 1

namespace Static

inductive Pc (E : Type*) where
  | test (i : Nat)
  | row (i : Nat) (c : Locals E)

/-- `mult` of `mm2.c`. -/
def mult (inp : Input E) (T : Nat) : Code T (Matrix E) (Pc E) (Option Nat) where
  enter tid := .test tid
  exec _ result
    | .test i =>
      some (none, result, if i < inp.dim then some (.row i (rowLoop inp).start) else none)
    | .row i c =>
      match (rowLoop inp).body i c (result i) with
      | some (c', r) => some (none, Function.update result i r, some (.row i c'))
      | none => some (some i, result, some (.test (i + T)))

/-- `mm2` from a result matrix `init`. -/
def mm2 (inp : Input E) (T : Nat) (init : Matrix E) :
    System (State T (Matrix E) (Pc E)) (Label T (Option Nat)) :=
  system (mult inp T) init

/-- The row a thread works on. -/
def taskOf : Thread (Pc E) → Option (Nat × Locals E)
  | .running (.row i c) => some (i, c)
  | _ => none

/-- A thread has come to row `i`, if that is one of its own. -/
def Reached (inp : Input E) : Thread (Pc E) → Nat → Prop
  | .unborn, _ => False
  | .running (.test n), i => i < n ∧ i < inp.dim
  | .running (.row n _), i => i ≤ n
  | .exited, i => i < inp.dim

def Given (inp : Input E) (thread : Fin T → Thread (Pc E)) (i : Nat) : Prop :=
  ∃ t : Fin T, i % T = t.val ∧ Reached inp (thread t) i

def crew (inp : Input E) (s : State T (Matrix E) (Pc E)) :
    Crew (Fin T) Nat (Nat → E) (Locals E) where
  store := s.shared
  task := taskOf ∘ s.thread
  given := Given inp s.thread

/-- A thread works on rows of its own below `dim`. -/
def Own (inp : Input E) (t : Fin T) : Thread (Pc E) → Prop
  | .running (.test n) => n % T = t.val
  | .running (.row n _) => n % T = t.val ∧ n < inp.dim
  | _ => True

omit [Add E] [Mul E] in
theorem given_update {inp : Input E} {thread : Fin T → Thread (Pc E)} {t : Fin T}
    {x : Thread (Pc E)} {Q : Nat → Prop}
    (h : ∀ i, i % T = t.val → (Reached inp x i ↔ Reached inp (thread t) i ∨ Q i))
    (hQ : ∀ i, Q i → i % T = t.val) (i : Nat) :
    Given inp (Function.update thread t x) i ↔ Given inp thread i ∨ Q i := by
  constructor
  · rintro ⟨u, hu, hreached⟩
    by_cases hut : u = t
    · subst hut
      rw [Function.update_self] at hreached
      exact ((h i hu).mp hreached).imp_left fun hr => ⟨u, hu, hr⟩
    · rw [Function.update_of_ne hut] at hreached
      exact Or.inl ⟨u, hu, hreached⟩
  · intro hgiven
    have hcase : (i % T = t.val ∧ (Reached inp (thread t) i ∨ Q i)) ∨
        ∃ u, u ≠ t ∧ i % T = u.val ∧ Reached inp (thread u) i := by
      rcases hgiven with ⟨u, hu, hreached⟩ | hq
      · by_cases hut : u = t
        · subst hut
          exact Or.inl ⟨hu, Or.inl hreached⟩
        · exact Or.inr ⟨u, hut, hu, hreached⟩
      · exact Or.inl ⟨hQ i hq, Or.inr hq⟩
    rcases hcase with ⟨hi, hr⟩ | ⟨u, hut, hu, hreached⟩
    · refine ⟨t, hi, ?_⟩
      rw [Function.update_self]
      exact (h i hi).mpr hr
    · refine ⟨u, hu, ?_⟩
      rw [Function.update_of_ne hut]
      exact hreached

omit [Add E] [Mul E] in
/-- A thread moves on and has come to no other row. -/
theorem given_same {inp : Input E} {thread : Fin T → Thread (Pc E)} {t : Fin T}
    {x : Thread (Pc E)} (h : ∀ i, i % T = t.val → (Reached inp x i ↔ Reached inp (thread t) i))
    (i : Nat) : Given inp (Function.update thread t x) i ↔ Given inp thread i := by
  have hupdate := given_update (Q := fun _ => False)
    (fun i hi => (h i hi).trans (or_iff_left id).symm) (fun _ h => h.elim) i
  exact hupdate.trans (or_iff_left id)

/-- Between two rows of one thread there is no row of it. -/
theorem le_of_lt_add {i n t : Nat} (hi : i % T = t) (hn : n % T = t) (h : i < n + T) : i ≤ n := by
  by_contra hlt
  have hdvd : T ∣ i - n := Nat.dvd_of_mod_eq_zero (Nat.sub_mod_eq_zero_of_mod_eq (hi.trans hn.symm))
  have hle := Nat.le_of_dvd (by omega) hdvd
  omega

variable {inp : Input E} {init : Matrix E} {s s' : State T (Matrix E) (Pc E)}
  {l : Label T (Option Nat)} {tr : List (Label T (Option Nat))}

omit [Add E] [Mul E] in
theorem own_update {t : Fin T} {x : Thread (Pc E)} (h : ∀ u, Own inp u (s.thread u))
    (hx : Own inp t x) (u : Fin T) : Own inp u (Function.update s.thread t x u) :=
  (Function.forall_update_iff _ (Own inp)).mpr ⟨hx, fun v _ => h v⟩ u

theorem own_step (h : ∀ u, Own inp u (s.thread u)) (hstep : Step (mult inp T) s l s') :
    ∀ u, Own inp u (s'.thread u) := by
  cases hstep with
  | create t hmain => exact own_update h (Nat.mod_eq_of_lt t.isLt)
  | created hmain => exact h
  | join t hmain hexited => exact h
  | joined hmain => exact h
  | thread t p l sh next hrunning hexec =>
      have hown := h t
      rw [hrunning] at hown
      apply own_update h
      cases p with
      | test n =>
          cases hexec
          show Own inp t
            (Thread.next (if n < inp.dim then some (.row n (rowLoop inp).start) else none))
          by_cases hn : n < inp.dim
          · rw [if_pos hn]
            exact ⟨hown, hn⟩
          · rw [if_neg hn]
            trivial
      | row n c =>
          simp only [mult] at hexec
          split at hexec
          · cases hexec
            exact hown
          · cases hexec
            show (n + T) % T = t.val
            rw [Nat.add_mod_right]
            exact hown.1

/-- Every step of `mm2` is a step of the crew. -/
theorem crew_move (hown : ∀ u, Own inp u (s.thread u)) (hprogress : Progress s)
    (hstep : Step (mult inp T) s l s') :
    Move (rowLoop inp) (crew inp s) (crew inp s') (finished l) := by
  cases hstep with
  | create t hmain =>
      have hunborn : s.thread t = .unborn := by
        unfold Progress at hprogress
        rw [hmain] at hprogress
        exact hprogress t (Nat.le_refl _)
      refine .idle rfl ?_ (given_same fun i hi => ?_)
      · show taskOf ∘ Function.update s.thread t (.running (.test t.val)) = taskOf ∘ s.thread
        rw [Function.comp_update]
        apply Function.update_eq_self_iff.mpr
        rw [Function.comp_apply, hunborn]
        rfl
      · rw [hunborn]
        refine iff_of_false (fun h => ?_) id
        have hlt : i < t.val := h.1
        have hle := Nat.mod_le i T
        omega
  | created hmain => exact .idle rfl rfl fun _ => Iff.rfl
  | join t hmain hexited => exact .idle rfl rfl fun _ => Iff.rfl
  | joined hmain => exact .idle rfl rfl fun _ => Iff.rfl
  | thread t p l sh next hrunning hexec =>
      have hmine := hown t
      rw [hrunning] at hmine
      have htask {x : Thread (Pc E)} :
          taskOf ∘ Function.update s.thread t x =
            Function.update (taskOf ∘ s.thread) t (taskOf x) :=
        Function.comp_update taskOf s.thread t x
      have hnow {p' : Pc E} (hp : p = p') : (crew inp s).task t = taskOf (.running p') := by
        show taskOf (s.thread t) = _
        rw [hrunning, hp]
      cases p with
      | test n =>
          cases hexec
          by_cases hn : n < inp.dim
          · have htest : (if n < inp.dim then some (Pc.row n (rowLoop inp).start) else none) =
                some (.row n (rowLoop inp).start) := if_pos hn
            rw [htest]
            refine .take t n (hnow rfl) ?_ rfl htask (given_update (fun i hi => ?_) ?_)
            · rintro ⟨u, hu, hreached⟩
              obtain rfl : u = t := Fin.ext (hu.symm.trans hmine)
              rw [hrunning] at hreached
              exact Nat.lt_irrefl n hreached.1
            · rw [hrunning]
              show i ≤ n ↔ i < n ∧ i < inp.dim ∨ i = n
              omega
            · rintro i rfl
              exact hmine
          · have htest : (if n < inp.dim then some (Pc.row n (rowLoop inp).start) else none) =
                (none : Option (Pc E)) := if_neg hn
            rw [htest]
            refine .idle rfl ?_ (given_same fun i hi => ?_)
            · refine (htask (x := .exited)).trans (Function.update_eq_self_iff.mpr ?_)
              exact (hnow rfl).symm
            · rw [hrunning]
              show i < inp.dim ↔ i < n ∧ i < inp.dim
              omega
      | row n c =>
          simp only [mult] at hexec
          split at hexec
          · rename_i c' r hbody
            cases hexec
            refine .work t n c c' r (hnow rfl) hbody rfl htask (given_same fun i hi => ?_)
            rw [hrunning]
            exact Iff.rfl
          · rename_i hbody
            cases hexec
            refine .finish t n c (hnow rfl) hbody rfl htask (given_same fun i hi => ?_)
            rw [hrunning]
            have hdim : n < inp.dim := hmine.2
            have hnext := le_of_lt_add hi hmine.1
            have hpos : 0 < T := t.pos
            show i < n + T ∧ i < inp.dim ↔ i ≤ n
            constructor
            · exact fun h => hnext h.1
            · intro h
              omega

/-- `mm2` computes what `mm1` computes, every row once. -/
theorem mm2_eq_mm1 (hT : 1 ≤ T) (hrun : Run (mm2 inp T init) anyStep tr s)
    (hdone : s.main = .done) : s.shared = mm1 inp init ∧ EachRowOnce inp tr := by
  have hsound : (∀ u, Own inp u (s.thread u)) ∧
      Sound init (Halfway inp init) (fun i r => r = row inp i (init i) inp.dim) (tr.map finished)
        (crew inp s) := by
    clear hdone
    induction hrun with
    | @init s h =>
        obtain rfl : s = start T init := h
        refine ⟨fun _ => trivial, fun i => .untouched ?_ rfl ?_ rfl⟩
        · rintro ⟨u, -, hreached⟩
          exact hreached
        · exact fun k c hk => absurd hk (by simp [crew, taskOf, start])
    | step hrun hstep _ ih =>
        exact ⟨own_step ih.1 hstep, ih.2.move (rowRule inp init)
          (crew_move ih.1 (run_progress hrun) hstep)⟩
  have hexited := all_exited hrun hdone
  refine mm1_of_sound hsound.2 (fun k => ?_) fun i => ⟨?_, fun hi => ?_⟩
  · show taskOf (s.thread k) = none
    rw [hexited k]
    rfl
  · rintro ⟨u, -, hreached⟩
    rw [hexited u] at hreached
    exact hreached
  · refine ⟨⟨i % T, Nat.mod_lt _ hT⟩, rfl, ?_⟩
    rw [hexited]
    exact hi

end Static
end Matmul
end CS444
