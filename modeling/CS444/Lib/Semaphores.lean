/-
Programs over counting semaphores.

The agents of a group share nothing but a table of semaphores.  `Instr` is what
an agent does next, `step` lets one agent take one step, and the label of the
step says what it did with which semaphore; an agent `Holds` a semaphore that
it took more often than it gave it back.

Reasoning starts from `units`, what an agent is meant to hold at each of its
control points.  When the code `Keeps` it, the units are what the trace says,
`count_took`, and the value of a semaphore and the units in use add up to what
it was made with, `sem_add_inUse`.  `exists_step_of_rank` is the ordering
argument: agents that wait only for semaphores above all those they hold are
never all blocked.
-/
import CS444.Lib.Ledger
import CS444.Lib.Runs
import Mathlib.Data.Fintype.EquivFin
import Mathlib.Data.Fintype.Lattice

namespace CS444
namespace Semaphores

open Ledger Runs

variable {κ ι α : Type*}

/-- The next instruction of an agent, with the control points it leads to. -/
inductive Instr (ι α : Type*) where
  | wait (i : ι) (next : α)
  | tryWait (i : ι) (got failed : α)
  | post (i : ι) (next : α)
  | go (next : α)

/-- What a step did. -/
inductive Act (ι : Type*) where
  | took (i : ι)
  | failed (i : ι)
  | gave (i : ι)
  | went
deriving DecidableEq

structure Machine (κ ι α : Type*) where
  sem : ι → Nat
  pc : κ → α

section Step

variable [DecidableEq ι]

/-- An instruction on the semaphores; a `wait` at zero blocks. -/
def exec (sem : ι → Nat) : Instr ι α → Option (Act ι × (ι → Nat) × α)
  | .wait i next =>
    if sem i = 0 then none else some (.took i, Function.update sem i (sem i - 1), next)
  | .tryWait i got failed =>
    if sem i = 0 then some (.failed i, sem, failed)
    else some (.took i, Function.update sem i (sem i - 1), got)
  | .post i next => some (.gave i, Function.update sem i (sem i + 1), next)
  | .go next => some (.went, sem, next)

variable [DecidableEq κ]

/-- Agent `k` takes its next step. -/
def step (prog : κ → α → Instr ι α) (s : Machine κ ι α) (k : κ) :
    Option (Act ι × Machine κ ι α) :=
  (exec s.sem (prog k (s.pc k))).map fun r => (r.1, ⟨r.2.1, Function.update s.pc k r.2.2⟩)

/-- All interleavings of the agents. -/
def system (prog : κ → α → Instr ι α) (start : Machine κ ι α) :
    System (Machine κ ι α) (κ × Act ι) where
  init s := s = start
  step s l s' := step prog s l.1 = some (l.2, s')

/-- Agent `k` can take a step. -/
def Enabled (prog : κ → α → Instr ι α) (s : Machine κ ι α) (k : κ) : Prop :=
  (step prog s k).isSome

/-- Agent `k` took `i` more often than it gave it back. -/
def Holds (tr : List (κ × Act ι)) (k : κ) (i : ι) : Prop :=
  tr.count (k, .gave i) < tr.count (k, .took i)

instance (tr : List (κ × Act ι)) (k : κ) (i : ι) : Decidable (Holds tr k i) :=
  inferInstanceAs (Decidable (_ < _))

variable {prog : κ → α → Instr ι α} {s s' start : Machine κ ι α} {k : κ} {i : ι} {act : Act ι}
  {tr : List (κ × Act ι)}

/-- An agent that cannot take a step waits for a semaphore at zero. -/
theorem blocked_iff : ¬Enabled prog s k ↔
    ∃ i next, prog k (s.pc k) = .wait i next ∧ s.sem i = 0 := by
  unfold Enabled step
  cases hinstr : prog k (s.pc k) with
  | wait i next =>
      by_cases hzero : s.sem i = 0
      · simp [exec, hzero]
      · simp [exec, hzero]
  | tryWait i got failed =>
      by_cases hzero : s.sem i = 0
      · simp [exec, hzero]
      · simp [exec, hzero]
  | post i next => simp [exec]
  | go next => simp [exec]

/-! ## What an agent holds at each control point -/

namespace Instr

/-- An agent with the units `now` has, after the instruction, the units `u` of
the control point it goes to. -/
def Keeps (u : α → ι → Nat) (now : ι → Nat) : Instr ι α → Prop
  | .wait i next => u next = now + one i
  | .tryWait i got failed => u got = now + one i ∧ u failed = now
  | .post i next => u next + one i = now
  | .go next => u next = now

end Instr

/-- The code of every agent does with its units what `units` says. -/
def Keeps (prog : κ → α → Instr ι α) (units : κ → α → ι → Nat) : Prop :=
  ∀ k a, (prog k a).Keeps (units k) (units k a)

namespace Act

def takes : Act ι → ι → Nat
  | .took i => one i
  | _ => 0

def gives : Act ι → ι → Nat
  | .gave i => one i
  | _ => 0

end Act

variable {units : κ → α → ι → Nat}

/-- One step moves units between a semaphore and one agent. -/
theorem step_units (hkeeps : Keeps prog units) (h : step prog s k = some (act, s')) :
    ∃ a, s'.pc = Function.update s.pc k a ∧ ∀ i,
      s'.sem i + units k a i = s.sem i + units k (s.pc k) i ∧
        units k a i + act.gives i = units k (s.pc k) i + act.takes i := by
  obtain ⟨⟨act', sem', a⟩, hexec, heq⟩ := Option.map_eq_some_iff.mp h
  obtain ⟨rfl, rfl⟩ := Prod.mk.inj heq
  refine ⟨a, rfl, fun j => ?_⟩
  have hk := hkeeps k (s.pc k)
  have htake {i : ι} {next : α} (hunits : units k next = units k (s.pc k) + one i)
      (hpos : ¬s.sem i = 0) : Function.update s.sem i (s.sem i - 1) j + units k next j =
        s.sem j + units k (s.pc k) j := by
    rw [hunits, Pi.add_apply]
    by_cases hj : j = i
    · subst hj
      rw [Function.update_self, one_self]
      omega
    · rw [Function.update_of_ne hj, one_of_ne hj]
      omega
  cases hinstr : prog k (s.pc k) with
  | wait i next =>
      rw [hinstr] at hk hexec
      change units k next = _ at hk
      simp only [exec] at hexec
      split at hexec
      · exact absurd hexec (by simp)
      · rename_i hpos
        cases hexec
        refine ⟨htake hk hpos, ?_⟩
        simp only [hk, Act.gives, Act.takes, Pi.add_apply, Pi.zero_apply]
        omega
  | tryWait i got failed =>
      rw [hinstr] at hk hexec
      obtain ⟨hgot, hfailed⟩ : units k got = _ ∧ units k failed = _ := hk
      simp only [exec] at hexec
      split at hexec
      · cases hexec
        simp [hfailed, Act.gives, Act.takes]
      · rename_i hpos
        cases hexec
        refine ⟨htake hgot hpos, ?_⟩
        simp only [hgot, Act.gives, Act.takes, Pi.add_apply, Pi.zero_apply]
        omega
  | post i next =>
      rw [hinstr] at hk hexec
      cases hexec
      have hunits : units k (s.pc k) j = units k a j + one i j := (congrFun hk j).symm
      refine ⟨?_, ?_⟩
      · show Function.update s.sem i (s.sem i + 1) j + units k a j = _
        rw [hunits]
        by_cases hj : j = i
        · subst hj
          rw [Function.update_self, one_self]
          omega
        · rw [Function.update_of_ne hj, one_of_ne hj]
          omega
      · simp only [hunits, Act.gives, Act.takes, Pi.zero_apply]
        omega
  | go next =>
      rw [hinstr] at hk hexec
      cases hexec
      have hunits : units k a = units k (s.pc k) := hk
      simp [hunits, Act.gives, Act.takes]

/-- Agents that wait only for semaphores above those they hold are never all
blocked: of the semaphores waited for the highest has a holder, and what that
one waits for is higher still. -/
theorem exists_step_of_rank [Finite κ] [Nonempty κ] (rank : ι → Nat)
    (hrank : ∀ k i j next, prog k (s.pc k) = .wait i next → 0 < units k (s.pc k) j →
      rank j < rank i)
    (hheld : ∀ i, s.sem i = 0 → ∃ k, 0 < units k (s.pc k) i) : ∃ k, Enabled prog s k := by
  by_contra hnone
  have hblocked : ∀ k, ∃ i next, prog k (s.pc k) = .wait i next ∧ s.sem i = 0 := by
    intro k
    exact blocked_iff.mp fun h => hnone ⟨k, h⟩
  choose want next hwait hzero using hblocked
  obtain ⟨k, hmax⟩ := Finite.exists_max fun k => rank (want k)
  obtain ⟨k', hk'⟩ := hheld (want k) (hzero k)
  have hlt := hrank k' (want k') (want k) (next k') (hwait k') hk'
  have := hmax k'
  omega

/-! ## Runs -/

theorem Act.count_took (act : Act ι) (j : ι) :
    [act].count (.took j) = act.takes j ∧ [act].count (.gave j) = act.gives j := by
  cases act with
  | took i =>
      by_cases hj : j = i
      · subst hj
        simp [Act.takes, Act.gives]
      · simp [Act.takes, Act.gives, one_of_ne hj, Ne.symm hj]
  | gave i =>
      by_cases hj : j = i
      · subst hj
        simp [Act.takes, Act.gives]
      · simp [Act.takes, Act.gives, one_of_ne hj, Ne.symm hj]
  | failed i => simp [Act.takes, Act.gives]
  | went => simp [Act.takes, Act.gives]

theorem count_cons_self (tr : List (κ × Act ι)) (k : κ) (act b : Act ι) :
    ((k, act) :: tr).count (k, b) = [act].count b + tr.count (k, b) := by
  rw [List.count_cons, List.count_cons, List.count_nil]
  simp only [beq_iff_eq, Prod.mk.injEq, true_and]
  omega

theorem count_cons_of_ne {k k' : κ} (h : k' ≠ k) (tr : List (κ × Act ι)) (act b : Act ι) :
    ((k, act) :: tr).count (k', b) = tr.count (k', b) := by
  rw [List.count_cons_of_ne]
  intro heq
  exact h (congrArg Prod.fst heq).symm

/-- The units at an agent's control point are what it took and did not give back. -/
theorem count_took {ok : Machine κ ι α → κ × Act ι → Prop} (hkeeps : Keeps prog units)
    (hstart : ∀ k, units k (start.pc k) = 0) (hrun : Run (system prog start) ok tr s) (k : κ)
    (i : ι) : tr.count (k, .took i) = tr.count (k, .gave i) + units k (s.pc k) i := by
  induction hrun with
  | @init s h =>
      obtain rfl : s = start := h
      simp [hstart]
  | @step s s' l tr _ hstep _ ih =>
      obtain ⟨k', act⟩ := l
      obtain ⟨a, hpc, hunits⟩ := step_units hkeeps hstep
      obtain ⟨htook, hgave⟩ := Act.count_took act i
      rw [hpc]
      by_cases hk : k = k'
      · subst hk
        have hself : units k a i + act.gives i = units k (s.pc k) i + act.takes i := (hunits i).2
        rw [count_cons_self, count_cons_self, htook, hgave, Function.update_self]
        omega
      · rw [count_cons_of_ne hk, count_cons_of_ne hk, Function.update_of_ne hk]
        exact ih

theorem holds_iff {ok : Machine κ ι α → κ × Act ι → Prop} (hkeeps : Keeps prog units)
    (hstart : ∀ k, units k (start.pc k) = 0) (hrun : Run (system prog start) ok tr s) (k : κ)
    (i : ι) : Holds tr k i ↔ 0 < units k (s.pc k) i := by
  have hcount := count_took hkeeps hstart hrun k i
  unfold Holds
  omega

variable [Fintype κ]

/-- The units of `i` that the agents hold together. -/
def inUse (units : κ → α → ι → Nat) (pc : κ → α) : ι → Nat :=
  holdings (fun r : κ × α => units r.1 r.2) fun k => (k, pc k)

omit [DecidableEq ι] in
theorem inUse_update (units : κ → α → ι → Nat) (pc : κ → α) (k : κ) (a : α) (i : ι) :
    inUse units (Function.update pc k a) i + units k (pc k) i =
      inUse units pc i + units k a i := by
  have hupdate : (fun j => (j, Function.update pc k a j)) =
      Function.update (fun j => (j, pc j)) k (k, a) := by
    funext j
    by_cases hj : j = k
    · subst hj
      rw [Function.update_self, Function.update_self]
    · rw [Function.update_of_ne hj, Function.update_of_ne hj]
  unfold inUse
  rw [hupdate]
  exact holdings_update _ _ k (k, a) i

/-- No unit is lost or made. -/
theorem sem_add_inUse {ok : Machine κ ι α → κ × Act ι → Prop} (hkeeps : Keeps prog units)
    (hstart : ∀ k, units k (start.pc k) = 0) (hrun : Run (system prog start) ok tr s) (i : ι) :
    s.sem i + inUse units s.pc i = start.sem i := by
  induction hrun with
  | @init s h =>
      obtain rfl : s = start := h
      simp [inUse, holdings, hstart]
  | @step s s' l tr _ hstep _ ih =>
      obtain ⟨a, hpc, hunits⟩ := step_units hkeeps hstep
      have hself := (hunits i).1
      have hmove := inUse_update units s.pc l.1 a i
      rw [hpc]
      omega

/-- For agents that never hold two units of one semaphore: its value and the
number of its holders. -/
theorem sem_add_card {ok : Machine κ ι α → κ × Act ι → Prop} (hkeeps : Keeps prog units)
    (hstart : ∀ k, units k (start.pc k) = 0) (hone : ∀ k a i, units k a i ≤ 1)
    (hrun : Run (system prog start) ok tr s) (i : ι) :
    s.sem i + (Finset.univ.filter fun k => Holds tr k i).card = start.sem i := by
  have hcard : (Finset.univ.filter fun k => Holds tr k i).card = inUse units s.pc i := by
    rw [Finset.card_filter]
    refine Finset.sum_congr rfl fun k _ => ?_
    have hholds := holds_iff hkeeps hstart hrun k i
    have hle := hone k (s.pc k) i
    split
    · have : 0 < units k (s.pc k) i := hholds.mp ‹_›
      show 1 = units k (s.pc k) i
      omega
    · have : ¬0 < units k (s.pc k) i := fun h => ‹¬_› (hholds.mpr h)
      show 0 = units k (s.pc k) i
      omega
  rw [hcard]
  exact sem_add_inUse hkeeps hstart hrun i

/-- A semaphore at zero that had a unit is held by somebody. -/
theorem exists_holder {ok : Machine κ ι α → κ × Act ι → Prop} (hkeeps : Keeps prog units)
    (hstart : ∀ k, units k (start.pc k) = 0) (hrun : Run (system prog start) ok tr s)
    (hpos : 0 < start.sem i) (hzero : s.sem i = 0) : ∃ k, 0 < units k (s.pc k) i := by
  have htotal := sem_add_inUse hkeeps hstart hrun i
  by_contra hnone
  have hempty : inUse units s.pc i = 0 := by
    refine Finset.sum_eq_zero fun k _ => ?_
    by_contra hk
    exact hnone ⟨k, Nat.pos_of_ne_zero hk⟩
  omega

/-- Two agents do not hold one unit. -/
theorem eq_of_units {ok : Machine κ ι α → κ × Act ι → Prop} (hkeeps : Keeps prog units)
    (hstart : ∀ k, units k (start.pc k) = 0) (hrun : Run (system prog start) ok tr s)
    (hle : start.sem i ≤ 1) {k k' : κ} (h : 0 < units k (s.pc k) i)
    (h' : 0 < units k' (s.pc k') i) : k = k' := by
  have htotal := sem_add_inUse hkeeps hstart hrun i
  by_contra hne
  have hpair : units k (s.pc k) i + units k' (s.pc k') i ≤ inUse units s.pc i := by
    have hsub := Finset.sum_le_sum_of_subset (f := fun j => units j (s.pc j) i)
      (Finset.subset_univ {k, k'})
    rw [Finset.sum_pair hne] at hsub
    exact hsub
  omega

end Step

end Semaphores
end CS444
