/-
`renice` and the range of the nice values.

The test in `renice` asks for a value below `MIN_NICE_VALUE` and above
`MAX_NICE_VALUE`, which no value is, so every `int` reaches the assignment.  As
long as the values that reach it are in range, the nice values of all processes
are, the scheduler finds tickets whenever it finds a RUNNABLE process, and its
sums do not wrap.
-/
import CS444.Lottery.Processes

namespace CS444
namespace Lottery
namespace Processes

open Runs

variable {C : Type} {s s' : Kernel C} {c : C} {p q : Slot}

/-! ## Nice values in range -/

def Active (st : ProcState) : Prop := st ≠ .unused ∧ st ≠ .embryo

instance (st : ProcState) : Decidable (Active st) := inferInstanceAs (Decidable (_ ∧ _))

def InRange (v : UInt32) : Prop := minNiceValue ≤ v ∧ v ≤ maxNiceValue

/-- The nice values are in range, the sum over all slots is positive when one of
them is RUNNABLE, and no addition of the scheduler wraps. -/
structure NiceKept (s : Kernel C) : Prop where
  range : ∀ p, Active (s.proc p).state → InRange (s.proc p).niceValue
  total : ∀ c i totalNice, s.sched c = .sum i totalNice → nproc ≤ i →
    (∃ p, (s.proc p).state = .runnable) → totalNice ≠ 0
  totalNoWrap : ∀ c i totalNice, s.sched c = .sum i totalNice → ∀ p, p.val = i →
    (s.proc p).state = .runnable → totalNice.toNat + (s.proc p).niceValue.toNat < 2 ^ 32
  countNoWrap : ∀ c i randVal count, s.sched c = .select i randVal count → ∀ p, p.val = i →
    (s.proc p).state = .runnable → count.toNat + (s.proc p).niceValue.toNat < 2 ^ 32

/-- The value `renice` assigns in the step `l`. -/
def assigned (s : Kernel C) (l : C × Move) : Option Int32 :=
  match s.sched l.1 with
  | .away _ _ _ p =>
    match s.point p, l.2 with
    | .assign _ newValue _, .go => some newValue
    | _, _ => none
  | _ => none

/-- If the step is the assignment of `renice`, the value is one it means to accept. -/
def AssignsInRange (s : Kernel C) (l : C × Move) : Prop :=
  ∀ newValue ∈ assigned s l,
    minNiceValue.toInt32 ≤ newValue ∧ newValue ≤ maxNiceValue.toInt32

instance (s : Kernel C) (l : C × Move) : Decidable (AssignsInRange s l) :=
  Option.decidableForallMem (assigned s l)

/-- The test of `renice` turns no value down. -/
theorem reniceRefuses_never (newValue : Int32) : ¬ reniceRefuses newValue := by
  rintro ⟨hlow, hhigh⟩
  have hlow' := Int32.lt_iff_toInt_lt.mp hlow
  have hhigh' := Int32.lt_iff_toInt_lt.mp hhigh
  have hmin : minNiceValue.toInt32.toInt = 1 := by decide
  have hmax : maxNiceValue.toInt32.toInt = 50 := by decide
  omega

theorem inRange_iff {v : UInt32} : InRange v ↔ 1 ≤ v.toNat ∧ v.toNat ≤ 50 := by
  unfold InRange
  rw [UInt32.le_iff_toNat_le, UInt32.le_iff_toNat_le]
  rfl

theorem inRange_toUInt32 {v : Int32}
    (hv : minNiceValue.toInt32 ≤ v ∧ v ≤ maxNiceValue.toInt32) : InRange v.toUInt32 := by
  have hlow := Int32.le_iff_toInt_le.mp hv.1
  have hhigh := Int32.le_iff_toInt_le.mp hv.2
  have hmin : minNiceValue.toInt32.toInt = 1 := by decide
  have hmax : maxNiceValue.toInt32.toInt = 50 := by decide
  have hzero : (0 : Int32).toInt = 0 := by decide
  have hpos : 0 ≤ v := Int32.le_iff_toInt_le.mpr (by omega)
  have hnat : v.toUInt32.toNat = v.toInt.toNat := Int32.toNat_toUInt32_of_le hpos
  rw [inRange_iff]
  omega

theorem inRange_default : InRange defaultNiceValue := by
  rw [inRange_iff]
  decide

/-! ## The invariant -/

namespace Sched

/-- Does the CPU run `p`? -/
def Runs : Sched → Slot → Prop
  | .away _ _ _ p, q => p = q
  | _, _ => False

/-- Does the scheduler hold `ptable.lock`? -/
def Holds : Sched → Prop
  | .sum _ _ | .select _ _ _ => True
  | _ => False

end Sched

/-- The slot a process is making into a new process. -/
def Point.creates : Point → Option Slot
  | .newproc np | .allocated np | .copied np => some np
  | _ => none

/-- The scheduler's sums over the slots before `i`. -/
def SumOk (s : Kernel C) : Sched → Prop
  | .idle => True
  | .sum i totalNice => totalNice.toNat ≤ 50 * i ∧
      ∀ p, p.val < i → (s.proc p).state = .runnable → 0 < totalNice.toNat
  | .select i _ count | .away i _ count _ => count.toNat ≤ 50 * i

/-- What holds of a slot with `x` in it. -/
structure SlotOk (s : Kernel C) (p : Slot) (x : Proc) : Prop where
  nice : Active x.state → InRange x.niceValue
  running : ∀ c, (s.sched c).Runs p → x.state = .running
  embryo : ∀ q, (s.point q).creates = some p → x.state = .embryo
  copied : ∀ q, s.point q = .copied p → InRange x.niceValue

structure Inv (s : Kernel C) : Prop where
  slot : ∀ p, SlotOk s p (s.proc p)
  runsOne : ∀ c c' p, (s.sched c).Runs p → (s.sched c').Runs p → c = c'
  createsOne : ∀ p q np, (s.point p).creates = some np → (s.point q).creates = some np → p = q
  lock : ∀ c, (s.sched c).Holds → s.lock = some c
  sums : ∀ c, SumOk s (s.sched c)

/-- No scheduler is adding up `total_nice`. -/
def NoSum (s : Kernel C) : Prop := ∀ c i totalNice, s.sched c ≠ .sum i totalNice

theorem Inv.noSum (hinv : Inv s) (hlock : s.lock = none) : NoSum s := by
  intro c i totalNice hsum
  have hheld := hinv.lock c (by rw [hsum]; trivial)
  rw [hlock] at hheld
  exact absurd hheld (by simp)

/-! ## What keeps it -/

/-- Another process table. -/
theorem Inv.table (hinv : Inv s) (hsched : s'.sched = s.sched) (hlock : s'.lock = s.lock)
    (hpoint : s'.point = s.point) (hslot : ∀ p, SlotOk s p (s'.proc p))
    (hnew : ∀ p, (s'.proc p).state = .runnable → (s.proc p).state = .runnable ∨ NoSum s) :
    Inv s' where
  slot := fun p => {
    nice := (hslot p).nice
    running := by rw [hsched]; exact (hslot p).running
    embryo := by rw [hpoint]; exact (hslot p).embryo
    copied := by rw [hpoint]; exact (hslot p).copied }
  runsOne := by rw [hsched]; exact hinv.runsOne
  createsOne := by rw [hpoint]; exact hinv.createsOne
  lock := by rw [hsched, hlock]; exact hinv.lock
  sums := by
    intro c
    rw [hsched]
    have hsum := hinv.sums c
    cases hk : s.sched c with
    | sum i totalNice =>
        rw [hk] at hsum
        refine ⟨hsum.1, fun p hp hrun => ?_⟩
        rcases hnew p hrun with hold | hno
        · exact hsum.2 p hp hold
        · exact absurd hk (hno c i totalNice)
    | _ =>
        rw [hk] at hsum
        exact hsum

/-- One slot changes. -/
theorem Inv.setProc (hinv : Inv s) {x : Proc} (hx : SlotOk s p x)
    (hnew : x.state = .runnable → (s.proc p).state = .runnable ∨ NoSum s) :
    Inv (s.setProc p x) := by
  have hproc (q : Slot) : (s.setProc p x).proc q = if q = p then x else s.proc q :=
    Function.update_apply _ _ _ _
  refine hinv.table rfl rfl rfl ?_ ?_
  · intro q
    rw [hproc]
    by_cases hq : q = p
    · rw [if_pos hq, hq]
      exact hx
    · rw [if_neg hq]
      exact hinv.slot q
  · intro q hrun
    rw [hproc] at hrun
    by_cases hq : q = p
    · rw [if_pos hq] at hrun
      rw [hq]
      exact hnew hrun
    · rw [if_neg hq] at hrun
      exact Or.inl hrun

theorem Inv.setState (hinv : Inv s) {st : ProcState}
    (hnice : Active st → InRange (s.proc p).niceValue) (hruns : ∀ c, ¬ (s.sched c).Runs p)
    (hcreates : ∀ q, (s.point q).creates ≠ some p) (hnew : st = .runnable → NoSum s) :
    Inv (s.setState p st) := by
  apply hinv.setProc
  · constructor
    · exact hnice
    · exact fun c hc => absurd hc (hruns c)
    · exact fun q hq => absurd hq (hcreates q)
    · exact fun q hq => absurd (by rw [hq]; rfl) (hcreates q)
  · exact fun hrun => Or.inr (hnew hrun)

theorem Inv.setNice (hinv : Inv s) {v : UInt32} (hv : InRange v) : Inv (s.setNice p v) := by
  apply hinv.setProc
  · exact ⟨fun _ => hv, (hinv.slot p).running, (hinv.slot p).embryo, fun _ _ => hv⟩
  · exact Or.inl

theorem Inv.initFields (hinv : Inv s) : Inv (s.initFields p) := by
  apply hinv.setProc
  · exact ⟨fun _ => inRange_default, (hinv.slot p).running, (hinv.slot p).embryo,
      fun _ _ => inRange_default⟩
  · exact Or.inl

/-- Nothing the invariant speaks of changes. -/
theorem Inv.same (hinv : Inv s) (hsched : s'.sched = s.sched) (hlock : s'.lock = s.lock)
    (hpoint : s'.point = s.point)
    (hproc : ∀ p, (s'.proc p).state = (s.proc p).state ∧
      (s'.proc p).niceValue = (s.proc p).niceValue) : Inv s' := by
  apply hinv.table hsched hlock hpoint
  · intro p
    obtain ⟨hnice, hrunning, hembryo, hcopied⟩ := hinv.slot p
    constructor
    · rw [(hproc p).1, (hproc p).2]
      exact hnice
    · rw [(hproc p).1]
      exact hrunning
    · rw [(hproc p).1]
      exact hembryo
    · rw [(hproc p).2]
      exact hcopied
  · intro p hrun
    rw [(hproc p).1] at hrun
    exact Or.inl hrun

theorem Inv.world (hinv : Inv s) {w : World} (htable : w.ptable = s.world.ptable) :
    Inv { s with world := w } := by
  refine hinv.same rfl rfl rfl fun p => ?_
  show (w.ptable p).state = _ ∧ (w.ptable p).niceValue = _
  rw [htable]
  exact ⟨rfl, rfl⟩

theorem Inv.setIds (hinv : Inv s) (x : Ids) : Inv (s.setIds p x) :=
  hinv.same rfl rfl rfl fun _ => ⟨rfl, rfl⟩

theorem Inv.wakeup1 (hinv : Inv s) (hno : NoSum s) (ch : Chan) : Inv (s.wakeup1 ch) := by
  have hproc (q : Slot) : (s.wakeup1 ch).proc q =
      if (s.proc q).state = .sleeping ∧ (s.ids q).chan = some ch then
        { s.proc q with state := .runnable }
      else s.proc q := rfl
  refine hinv.table rfl rfl rfl ?_ ?_
  · intro q
    rw [hproc]
    by_cases hwake : (s.proc q).state = .sleeping ∧ (s.ids q).chan = some ch
    · rw [if_pos hwake]
      obtain ⟨hnice, hrunning, hembryo, hcopied⟩ := hinv.slot q
      rw [hwake.1] at hnice hrunning hembryo
      exact ⟨fun _ => hnice (by decide), fun c hc => absurd (hrunning c hc) (by decide),
        fun r hr => absurd (hembryo r hr) (by decide), hcopied⟩
    · rw [if_neg hwake]
      exact hinv.slot q
  · exact fun _ _ => Or.inr hno

/-- A process goes on at another point. -/
theorem Inv.goto (hinv : Inv s) {k : Point}
    (hcreates : ∀ np, k.creates = some np → (s.point p).creates = some np ∨
      ((s.proc np).state = .embryo ∧ ∀ q, (s.point q).creates ≠ some np))
    (hcopied : ∀ np, k = .copied np → InRange (s.proc np).niceValue) : Inv (s.goto p k) := by
  have hpoint (q : Slot) : (s.goto p k).point q = if q = p then k else s.point q :=
    Function.update_apply _ _ _ _
  have hone : ∀ q np, q ≠ p → (s.point q).creates = some np → k.creates ≠ some np := by
    intro q np hne hq hk
    rcases hcreates np hk with hold | ⟨-, hnone⟩
    · exact hne (hinv.createsOne q p np hq hold)
    · exact hnone q hq
  constructor
  case slot =>
    intro r
    obtain ⟨hnice, hrunning, hembryo, hold⟩ := hinv.slot r
    refine ⟨hnice, hrunning, fun q hq => ?_, fun q hq => ?_⟩
    · rw [hpoint] at hq
      by_cases hqp : q = p
      · rw [if_pos hqp] at hq
        rcases hcreates r hq with hp | ⟨hst, -⟩
        · exact hembryo p hp
        · exact hst
      · rw [if_neg hqp] at hq
        exact hembryo q hq
    · rw [hpoint] at hq
      by_cases hqp : q = p
      · rw [if_pos hqp] at hq
        exact hcopied r hq
      · rw [if_neg hqp] at hq
        exact hold q hq
  case runsOne => exact hinv.runsOne
  case createsOne =>
    intro q r np hq hr
    rw [hpoint] at hq hr
    by_cases hqp : q = p
    · by_cases hrp : r = p
      · rw [hqp, hrp]
      · rw [if_pos hqp] at hq
        rw [if_neg hrp] at hr
        exact absurd hq (hone r np hrp hr)
    · rw [if_neg hqp] at hq
      by_cases hrp : r = p
      · rw [if_pos hrp] at hr
        exact absurd hr (hone q np hqp hq)
      · rw [if_neg hrp] at hr
        exact hinv.createsOne q r np hq hr
  case lock => exact hinv.lock
  case sums => exact hinv.sums

/-- A process goes on where it makes no new one. -/
theorem Inv.leave (hinv : Inv s) {k : Point} (hk : k.creates = none) : Inv (s.goto p k) := by
  apply hinv.goto
  · intro np hnp
    rw [hk] at hnp
    exact absurd hnp (by simp)
  · rintro np rfl
    exact absurd hk (by simp [Point.creates])

/-- Slots that sleep or are done are neither run nor made. -/
theorem Inv.still (hinv : Inv s) (hne : (s.proc p).state ≠ .running)
    (hne' : (s.proc p).state ≠ .embryo) :
    (∀ c, ¬ (s.sched c).Runs p) ∧ ∀ q, (s.point q).creates ≠ some p :=
  ⟨fun c hc => hne ((hinv.slot p).running c hc), fun q hq => hne' ((hinv.slot p).embryo q hq)⟩

/-- A RUNNABLE slot is switched to. -/
theorem Inv.switchTo (hinv : Inv s) (hrun : (s.proc p).state = .runnable) :
    Inv (s.switchTo p) := by
  have hnice := (hinv.slot p).nice (by rw [hrun]; decide)
  obtain ⟨hruns, hcreates⟩ := hinv.still (p := p) (by rw [hrun]; decide) (by rw [hrun]; decide)
  have hstate : Inv (s.setState p .running) :=
    hinv.setState (fun _ => hnice) hruns hcreates (fun h => by cases h)
  refine hstate.same rfl rfl rfl fun q => ?_
  by_cases hq : q = p
  · simp [Kernel.switchTo, Kernel.setState, Kernel.setProc, Kernel.setIds, Kernel.proc, dispatch,
      hq]
  · simp [Kernel.switchTo, Kernel.setState, Kernel.setProc, Kernel.setIds, Kernel.proc, dispatch,
      hq]

theorem Inv.resumed (hinv : Inv s) : Inv { s with world := resumed p s.world } :=
  hinv.same rfl rfl rfl fun q => ⟨resumed_state p q s.world, resumed_niceValue p q s.world⟩

/-- A process leaves its slot to a process it cannot make or makes no more. -/
theorem Inv.drop (hinv : Inv s) {np : Slot} (hcreates : (s.point p).creates = some np)
    {st : ProcState} (hnice : Active st → InRange (s.proc np).niceValue)
    (hnew : st = .runnable → NoSum s) : Inv ((s.setState np st).goto p .user) := by
  have hpoint (q : Slot) : (s.goto p .user).point q = if q = p then .user else s.point q :=
    Function.update_apply _ _ _ _
  have hleft : Inv (s.goto p .user) := hinv.leave rfl
  have hstate := (hinv.slot np).embryo p hcreates
  refine hleft.setState hnice (fun c' hc' => ?_) (fun q hq => ?_) hnew
  · have hrun := (hinv.slot np).running c' hc'
    rw [hstate] at hrun
    exact absurd hrun (by decide)
  · rw [hpoint] at hq
    split at hq
    · exact absurd hq (by simp [Point.creates])
    · rename_i hne
      exact hne (hinv.createsOne q p np hq hcreates)

theorem Inv.allocate (hinv : Inv s) {np : Slot} (hfree : (s.proc np).state = .unused) :
    Inv ((s.allocate np).goto p (.newproc np)) := by
  have hnone : ∀ q, (s.point q).creates ≠ some np := by
    intro q hq
    have hemb := (hinv.slot np).embryo q hq
    rw [hfree] at hemb
    exact absurd hemb (by decide)
  have hstate : Inv (s.setState np .embryo) := by
    refine hinv.setState (fun hact => absurd rfl hact.2) (fun c' hc' => ?_) hnone
      (fun h => absurd h (by decide))
    have hrun := (hinv.slot np).running c' hc'
    rw [hfree] at hrun
    exact absurd hrun (by decide)
  have hnew : Inv (s.allocate np) := hstate.same rfl rfl rfl fun _ => ⟨rfl, rfl⟩
  refine hnew.goto (fun q hq => Or.inr ?_) (fun q hq => by cases hq)
  obtain rfl : np = q := Option.some.inj hq
  refine ⟨?_, hnone⟩
  show (Function.update s.world.ptable np _ np).state = _
  rw [Function.update_self]

theorem Inv.reap (hinv : Inv s) (hzombie : (s.proc q).state = .zombie) : Inv (s.reap q) := by
  obtain ⟨hruns, hcreates⟩ := hinv.still (p := q) (by rw [hzombie]; decide)
    (by rw [hzombie]; decide)
  have hstate : Inv (s.setState q .unused) :=
    hinv.setState (fun hact => absurd rfl hact.1) hruns hcreates (fun h => by cases h)
  exact hstate.setIds _

theorem Inv.killSlot (hinv : Inv s) (hno : NoSum s) : Inv (s.killSlot q) := by
  have hids : Inv (s.setIds q { s.ids q with killed := true }) := hinv.setIds _
  unfold Kernel.killSlot
  by_cases hsleep : (s.proc q).state = .sleeping
  · rw [if_pos hsleep]
    obtain ⟨hruns, hcreates⟩ := hinv.still (p := q) (by rw [hsleep]; decide)
      (by rw [hsleep]; decide)
    have hnice := (hinv.slot q).nice (by rw [hsleep]; decide)
    exact hids.setState (fun _ => hnice) hruns hcreates (fun _ => hno)
  · rw [if_neg hsleep]
    exact hids

theorem Inv.exitProc (hinv : Inv s) (hno : NoSum s) (hruns : ∀ c, ¬ (s.sched c).Runs p)
    (hcreates : ∀ q, (s.point q).creates ≠ some p) (hnice : InRange (s.proc p).niceValue) :
    Inv (s.exitProc p) := by
  have hwake (t : Kernel C) (ch : Chan) (ht : Inv t ∧ t.sched = s.sched ∧ t.point = s.point ∧
      (t.proc p).niceValue = (s.proc p).niceValue) :
      Inv (t.wakeup1 ch) ∧ (t.wakeup1 ch).sched = s.sched ∧ (t.wakeup1 ch).point = s.point ∧
        ((t.wakeup1 ch).proc p).niceValue = (s.proc p).niceValue := by
    obtain ⟨htinv, hsched, hpoint, hsame⟩ := ht
    have hnot : NoSum t := by
      unfold NoSum
      rw [hsched]
      exact hno
    refine ⟨htinv.wakeup1 hnot ch, hsched, hpoint, ?_⟩
    rw [← hsame]
    show (if _ then _ else _ : Proc).niceValue = _
    split
    · rfl
    · rfl
  have hfirst : Inv s ∧ s.sched = s.sched ∧ s.point = s.point ∧
      (s.proc p).niceValue = (s.proc p).niceValue := ⟨hinv, rfl, rfl, rfl⟩
  have hend (t : Kernel C) (ht : Inv t ∧ t.sched = s.sched ∧ t.point = s.point ∧
      (t.proc p).niceValue = (s.proc p).niceValue) : Inv ((t.reparent p).setState p .zombie) := by
    obtain ⟨htinv, hsched, hpoint, hsame⟩ := ht
    have hparent : Inv (t.reparent p) := htinv.same rfl rfl rfl fun _ => ⟨rfl, rfl⟩
    apply hparent.setState
    · intro _
      show InRange (t.proc p).niceValue
      rw [hsame]
      exact hnice
    · show ∀ c, ¬ (t.sched c).Runs p
      rw [hsched]
      exact hruns
    · show ∀ q, (t.point q).creates ≠ some p
      rw [hpoint]
      exact hcreates
    · exact fun h => absurd h (by decide)
  unfold Kernel.exitProc
  apply hend
  cases (s.ids p).parent with
  | none =>
      simp only
      split
      · exact hwake _ _ hfirst
      · exact hfirst
  | some q =>
      simp only
      split
      · exact hwake _ _ (hwake _ _ hfirst)
      · exact hwake _ _ hfirst

/-- `rand()` changes its own state only. -/
theorem rand_world (w : World) : ∃ next, (rand w).2 = { w with next := next } := by
  simp only [rand]
  exact ⟨_, rfl⟩

theorem Inv.nice_toNat (hinv : Inv s) (hrun : (s.proc p).state = .runnable) :
    1 ≤ (s.proc p).niceValue.toNat ∧ (s.proc p).niceValue.toNat ≤ 50 :=
  inRange_iff.mp ((hinv.slot p).nice (by rw [hrun]; decide))

/-- Adding one slot's tickets to a sum over the slots before it. -/
theorem Inv.add_toNat (hinv : Inv s) (hrun : (s.proc p).state = .runnable) {v : UInt32}
    (hv : v.toNat ≤ 50 * p.val) :
    v.toNat + (s.proc p).niceValue.toNat < 2 ^ 32 ∧
      (v + (s.proc p).niceValue).toNat = v.toNat + (s.proc p).niceValue.toNat := by
  have hnice := hinv.nice_toNat hrun
  have hp : p.val < 64 := p.isLt
  have hlt : v.toNat + (s.proc p).niceValue.toNat < 2 ^ 32 := by omega
  refine ⟨hlt, ?_⟩
  rw [UInt32.toNat_add]
  exact Nat.mod_eq_of_lt hlt

theorem inv_booted (hboot : Booted s) : Inv s where
  slot := by
    intro p
    have hruns : ∀ c, ¬ (s.sched c).Runs p := by
      intro c hc
      rw [hboot.sched c] at hc
      exact hc
    have hcreates : ∀ q, (s.point q).creates ≠ some p := by
      intro q hq
      rw [hboot.point q] at hq
      exact absurd hq (by simp [Point.creates])
    refine ⟨fun hact => ?_, fun c hc => absurd hc (hruns c), fun q hq => absurd hq (hcreates q),
      fun q hq => absurd (by rw [hq]; rfl) (hcreates q)⟩
    by_cases hp : p = firstSlot
    · rw [hp, hboot.first]
      exact inRange_default
    · exact absurd (hboot.others p hp) hact.1
  runsOne := by
    intro c c' p hc
    rw [hboot.sched c] at hc
    exact hc.elim
  createsOne := by
    intro p q np hp
    rw [hboot.point p] at hp
    exact absurd hp (by simp [Point.creates])
  lock := by
    intro c hc
    rw [hboot.sched c] at hc
    exact hc.elim
  sums := by
    intro c
    rw [hboot.sched c]
    trivial

theorem Inv.niceKept (hinv : Inv s) : NiceKept s where
  range := fun p => (hinv.slot p).nice
  total := by
    intro c i totalNice hk hi ⟨p, hrun⟩ hzero
    have hsum := hinv.sums c
    rw [hk] at hsum
    have hlt : p.val < nproc := p.isLt
    have hpos := hsum.2 p (by omega) hrun
    rw [hzero] at hpos
    exact absurd hpos (by decide)
  totalNoWrap := by
    rintro c i totalNice hk p rfl hrun
    have hsum := hinv.sums c
    rw [hk] at hsum
    exact (hinv.add_toNat hrun hsum.1).1
  countNoWrap := by
    rintro c i randVal count hk p rfl hrun
    have hsum := hinv.sums c
    rw [hk] at hsum
    exact (hinv.add_toNat hrun hsum).1

variable [DecidableEq C]

/-- A CPU goes on elsewhere. -/
theorem Inv.cpu (hinv : Inv s) {k : Sched} {l : Option C}
    (hruns : ∀ p, k.Runs p → (s.proc p).state = .running ∧ ∀ c', ¬ (s.sched c').Runs p)
    (hlock : k.Holds → l = some c) (hothers : ∀ c', c' ≠ c → (s.sched c').Holds → l = some c')
    (hsum : SumOk s k) : Inv (s.cpu c k l) := by
  have hsched (c' : C) : (s.cpu c k l).sched c' = if c' = c then k else s.sched c' :=
    Function.update_apply _ _ _ _
  constructor
  case slot =>
    intro r
    obtain ⟨hnice, hrunning, hembryo, hcopied⟩ := hinv.slot r
    refine ⟨hnice, fun c' hc' => ?_, hembryo, hcopied⟩
    rw [hsched] at hc'
    by_cases hcc : c' = c
    · rw [if_pos hcc] at hc'
      exact (hruns r hc').1
    · rw [if_neg hcc] at hc'
      exact hrunning c' hc'
  case runsOne =>
    intro c₁ c₂ r h₁ h₂
    rw [hsched] at h₁ h₂
    by_cases hc₁ : c₁ = c
    · by_cases hc₂ : c₂ = c
      · rw [hc₁, hc₂]
      · rw [if_pos hc₁] at h₁
        rw [if_neg hc₂] at h₂
        exact absurd h₂ ((hruns r h₁).2 c₂)
    · rw [if_neg hc₁] at h₁
      by_cases hc₂ : c₂ = c
      · rw [if_pos hc₂] at h₂
        exact absurd h₁ ((hruns r h₂).2 c₁)
      · rw [if_neg hc₂] at h₂
        exact hinv.runsOne c₁ c₂ r h₁ h₂
  case createsOne => exact hinv.createsOne
  case lock =>
    intro c' hc'
    rw [hsched] at hc'
    show l = some c'
    by_cases hcc : c' = c
    · rw [if_pos hcc] at hc'
      rw [hcc]
      exact hlock hc'
    · rw [if_neg hcc] at hc'
      exact hothers c' hcc hc'
  case sums =>
    intro c'
    rw [hsched]
    by_cases hcc : c' = c
    · rw [if_pos hcc]
      exact hsum
    · rw [if_neg hcc]
      exact hinv.sums c'

/-! ## One step -/

/-- `p` gives its CPU up: the scheduler of `c` has the lock and runs nothing. -/
theorem Inv.back (hinv : Inv s) {i : Nat} {randVal count : UInt32}
    (haway : s.sched c = .away i randVal count p) (hlock : s.lock = none) :
    Inv (s.cpu c (.select i randVal count) (some c)) ∧
      NoSum (s.cpu c (.select i randVal count) (some c)) ∧
        ∀ c', ¬ ((s.cpu c (.select i randVal count) (some c)).sched c').Runs p := by
  have hsched (c' : C) : (s.cpu c (.select i randVal count) (some c)).sched c' =
      if c' = c then .select i randVal count else s.sched c' := Function.update_apply _ _ _ _
  have hno := hinv.noSum hlock
  have hsum := hinv.sums c
  rw [haway] at hsum
  refine ⟨hinv.cpu (fun _ h => h.elim) (fun _ => rfl) (fun c' _ hc' => ?_) hsum, ?_, ?_⟩
  · have hheld := hinv.lock c' hc'
    rw [hlock] at hheld
    exact absurd hheld (by simp)
  · intro c' j totalNice
    rw [hsched]
    split
    · exact fun h => by cases h
    · exact hno c' j totalNice
  · intro c' hc'
    rw [hsched] at hc'
    split at hc'
    · exact hc'
    · rename_i hne
      exact hne (hinv.runsOne c' c p hc' (by rw [haway]; rfl))

theorem Inv.giveUp_of {k : Sched} (hinv : Inv (s.cpu c k (some c))) : Inv (s.giveUp c p k) :=
  hinv.resumed

/-- `p` leaves its CPU in state `st`. -/
theorem Inv.giveUp (hinv : Inv s) {i : Nat} {randVal count : UInt32}
    (haway : s.sched c = .away i randVal count p) (hlock : s.lock = none) (st : ProcState) :
    Inv ((s.setState p st).giveUp c p (.select i randVal count)) := by
  obtain ⟨hback, hno, hruns⟩ := hinv.back haway hlock
  have hrun : (s.proc p).state = .running := (hinv.slot p).running c (by rw [haway]; rfl)
  have hnice : InRange (s.proc p).niceValue := (hinv.slot p).nice (by rw [hrun]; decide)
  have hstate : Inv ((s.cpu c (.select i randVal count) (some c)).setState p st) := by
    refine hback.setState (fun _ => hnice) hruns (fun q hq => ?_) (fun _ => hno)
    have hemb := (hinv.slot p).embryo q hq
    rw [hrun] at hemb
    exact absurd hemb (by decide)
  exact Inv.giveUp_of (s := s.setState p st) hstate

/-- `p` goes to sleep. -/
theorem Inv.giveUp_sleep (hinv : Inv s) {i : Nat} {randVal count : UInt32}
    (haway : s.sched c = .away i randVal count p) (hlock : s.lock = none) (x : Ids) :
    Inv (((s.setState p .sleeping).setIds p x).giveUp c p (.select i randVal count)) := by
  have hids (t : Kernel C) (k : Sched) :
      (t.setIds p x).giveUp c p k = (t.giveUp c p k).setIds p x := rfl
  rw [hids]
  exact (hinv.giveUp haway hlock .sleeping).setIds x

theorem exitProc_cpu (s : Kernel C) (c : C) (p : Slot) (k : Sched) (l : Option C) :
    (s.cpu c k l).exitProc p = (s.exitProc p).cpu c k l := by
  have hwake (t : Kernel C) (r : Slot) : (if (t.cpu c k l).leavesZombie p then
      (t.cpu c k l).wakeup1 (.proc r) else t.cpu c k l) =
        (if t.leavesZombie p then t.wakeup1 (.proc r) else t).cpu c k l := by
    by_cases hz : t.leavesZombie p
    · rw [if_pos hz, if_pos (show (t.cpu c k l).leavesZombie p from hz)]
      rfl
    · rw [if_neg hz, if_neg (show ¬ (t.cpu c k l).leavesZombie p from hz)]
  have hinit (t : Kernel C) : (t.cpu c k l).initproc = t.initproc := rfl
  have hlast (t : Kernel C) : ((t.cpu c k l).reparent p).setState p .zombie =
      ((t.reparent p).setState p .zombie).cpu c k l := rfl
  unfold Kernel.exitProc
  cases hparent : (s.ids p).parent with
  | none =>
      rw [show ((s.cpu c k l).ids p).parent = none from hparent]
      simp only
      rw [hinit, hwake, hlast]
  | some q =>
      rw [show ((s.cpu c k l).ids p).parent = some q from hparent]
      have hwoken : (s.cpu c k l).wakeup1 (.proc q) = (s.wakeup1 (.proc q)).cpu c k l := rfl
      simp only
      rw [hwoken, hinit, hwake, hlast]

/-- `p` exits. -/
theorem Inv.giveUp_exit (hinv : Inv s) {i : Nat} {randVal count : UInt32}
    (haway : s.sched c = .away i randVal count p) (hlock : s.lock = none) :
    Inv ((s.exitProc p).giveUp c p (.select i randVal count)) := by
  obtain ⟨hback, hno, hruns⟩ := hinv.back haway hlock
  have hrun : (s.proc p).state = .running := (hinv.slot p).running c (by rw [haway]; rfl)
  have hnice : InRange (s.proc p).niceValue := (hinv.slot p).nice (by rw [hrun]; decide)
  have hexit : Inv ((s.cpu c (.select i randVal count) (some c)).exitProc p) := by
    refine hback.exitProc hno hruns (fun q hq => ?_) hnice
    have hemb := (hinv.slot p).embryo q hq
    rw [hrun] at hemb
    exact absurd hemb (by decide)
  rw [exitProc_cpu] at hexit
  exact hexit.giveUp_of

theorem Inv.procStep (hinv : Inv s) {i : Nat} {randVal count : UInt32} {m : Move}
    (haway : s.sched c = .away i randVal count p)
    (hok : ∀ q newValue pid, s.point p = .assign q newValue pid → m = .go →
      minNiceValue.toInt32 ≤ newValue ∧ newValue ≤ maxNiceValue.toInt32)
    (hstep : procStep s c (.select i randVal count) p (s.point p) m = some s') : Inv s' := by
  have hrun : (s.proc p).state = .running := (hinv.slot p).running c (by rw [haway]; rfl)
  have hnice : InRange (s.proc p).niceValue := (hinv.slot p).nice (by rw [hrun]; decide)
  unfold Processes.procStep at hstep
  split at hstep
  -- fork
  · split at hstep
    · split at hstep
      · obtain rfl := Option.some.inj hstep
        exact hinv
      · rename_i hfound
        obtain rfl := Option.some.inj hstep
        have hfree := List.find?_some hfound
        exact hinv.allocate (of_decide_eq_true hfree)
    · exact absurd hstep (by simp)
  · rename_i np hpoint
    obtain rfl := Option.some.inj hstep
    exact hinv.drop (by rw [hpoint]; rfl) (fun hact => absurd rfl hact.1) (fun h => by cases h)
  · rename_i np hpoint
    obtain rfl := Option.some.inj hstep
    refine hinv.initFields.goto (fun q hq => Or.inl ?_) (fun q hq => by cases hq)
    show (s.point p).creates = some q
    rw [hpoint, ← hq]
    rfl
  · rename_i np hpoint
    obtain rfl := Option.some.inj hstep
    exact hinv.drop (by rw [hpoint]; rfl) (fun hact => absurd rfl hact.1) (fun h => by cases h)
  · rename_i np hpoint
    obtain rfl := Option.some.inj hstep
    refine ((hinv.setNice hnice).setIds _).goto (fun q hq => Or.inl ?_) (fun q hq => ?_)
    · show (s.point p).creates = some q
      rw [hpoint, ← hq]
      rfl
    · obtain rfl : np = q := Point.copied.inj hq
      show InRange (Function.update s.world.ptable np _ np).niceValue
      rw [Function.update_self]
      exact hnice
  · rename_i np hpoint
    split at hstep
    · rename_i hlock
      obtain rfl := Option.some.inj hstep
      exact hinv.drop (by rw [hpoint]; rfl) (fun _ => (hinv.slot np).copied p hpoint)
        (fun _ => hinv.noSum hlock)
    · exact absurd hstep (by simp)
  -- exec
  · obtain rfl := Option.some.inj hstep
    exact hinv
  -- exit
  · split at hstep
    · rename_i hexit
      obtain rfl := Option.some.inj hstep
      exact hinv.giveUp_exit haway hexit.1
    · exact absurd hstep (by simp)
  -- wait
  · obtain rfl := Option.some.inj hstep
    exact hinv.leave rfl
  · split at hstep
    · rename_i hlock
      split at hstep
      · rename_i q hfound
        obtain rfl := Option.some.inj hstep
        have hzombie := List.find?_some hfound
        exact (hinv.reap (of_decide_eq_true hzombie).2).leave rfl
      · split at hstep
        · obtain rfl := Option.some.inj hstep
          exact hinv.leave rfl
        · obtain rfl := Option.some.inj hstep
          exact hinv.giveUp_sleep haway hlock _
    · exact absurd hstep (by simp)
  -- renice
  · obtain rfl := Option.some.inj hstep
    split
    · exact hinv
    · exact hinv.leave rfl
  · split at hstep
    · split at hstep
      · obtain rfl := Option.some.inj hstep
        exact hinv.leave rfl
      · obtain rfl := Option.some.inj hstep
        exact hinv.leave rfl
    · obtain rfl := Option.some.inj hstep
      exact hinv.leave rfl
  · rename_i q newValue pid hpoint
    obtain rfl := Option.some.inj hstep
    exact (hinv.setNice (inRange_toUInt32 (hok q newValue pid hpoint rfl))).leave rfl
  -- kill
  · split at hstep
    · rename_i hlock
      split at hstep
      · obtain rfl := Option.some.inj hstep
        exact hinv.killSlot (hinv.noSum hlock)
      · obtain rfl := Option.some.inj hstep
        exact hinv
    · exact absurd hstep (by simp)
  -- sleep
  · split at hstep
    · rename_i hlock
      obtain rfl := Option.some.inj hstep
      exact hinv.giveUp_sleep haway hlock _
    · exact absurd hstep (by simp)
  -- yield
  · split at hstep
    · rename_i hlock
      obtain rfl := Option.some.inj hstep
      exact hinv.giveUp haway hlock .runnable
    · exact absurd hstep (by simp)
  · exact absurd hstep (by simp)

/-- The scheduler that holds the lock goes on. -/
theorem Inv.cpu_of_holds (hinv : Inv s) (hheld : (s.sched c).Holds) {k : Sched}
    {l : Option C} (hruns : ∀ p, ¬ k.Runs p) (hlock : k.Holds → l = some c) (hsum : SumOk s k) :
    Inv (s.cpu c k l) := by
  refine hinv.cpu (fun p hp => absurd hp (hruns p)) hlock (fun c' hne hc' => ?_) hsum
  have hmine := hinv.lock c hheld
  rw [hinv.lock c' hc'] at hmine
  exact absurd (Option.some.inj hmine) hne

theorem Inv.schedStep (hinv : Inv s) (hstep : schedStep s c (s.sched c) = some s') : Inv s' := by
  have hsum := hinv.sums c
  cases hk : s.sched c with
  | idle =>
      rw [hk, Processes.schedStep] at hstep
      split at hstep
      · rename_i hlock
        obtain rfl := Option.some.inj hstep
        refine hinv.cpu (fun _ h => h.elim) (fun _ => rfl) (fun c' _ hc' => ?_)
          ⟨Nat.zero_le _, fun p hp => absurd hp (Nat.not_lt_zero _)⟩
        have hheld := hinv.lock c' hc'
        rw [hlock] at hheld
        exact absurd hheld (by simp)
      · exact absurd hstep (by simp)
  | sum i totalNice =>
      have hheld : (s.sched c).Holds := by rw [hk]; trivial
      have hlock := hinv.lock c hheld
      rw [hk] at hsum
      obtain ⟨hle, hpos⟩ := hsum
      rw [hk, Processes.schedStep] at hstep
      split at hstep
      · rename_i hi
        obtain rfl := Option.some.inj hstep
        refine hinv.cpu_of_holds hheld (fun _ h => h.elim) (fun _ => hlock) ?_
        by_cases hrun : (s.proc ⟨i, hi⟩).state = .runnable
        · have hadd := (hinv.add_toNat hrun hle).2
          have hnice := hinv.nice_toNat hrun
          simp only [if_pos hrun]
          refine ⟨by omega, fun p hp hrun' => by omega⟩
        · simp only [if_neg hrun]
          refine ⟨by omega, fun p hp hrun' => ?_⟩
          by_cases hpi : p.val = i
          · obtain rfl : p = ⟨i, hi⟩ := Fin.ext hpi
            exact absurd hrun' hrun
          · exact hpos p (by omega) hrun'
      · split at hstep
        · obtain rfl := Option.some.inj hstep
          exact hinv.cpu_of_holds hheld (fun _ h => h.elim) (fun h => h.elim) trivial
        · obtain rfl := Option.some.inj hstep
          obtain ⟨next, hnext⟩ := rand_world s.world
          rw [hnext]
          have hrand : Inv { s with world := { s.world with next := next } } := hinv.world rfl
          refine hrand.cpu_of_holds hheld (fun _ h => h.elim) (fun _ => hlock) ?_
          show (0 : UInt32).toNat ≤ 50 * 0
          decide
  | select i randVal count =>
      have hheld : (s.sched c).Holds := by rw [hk]; trivial
      have hlock := hinv.lock c hheld
      rw [hk] at hsum
      have hle : count.toNat ≤ 50 * i := hsum
      rw [hk, Processes.schedStep] at hstep
      split at hstep
      · rename_i hi
        simp only at hstep
        split at hstep
        · obtain rfl := Option.some.inj hstep
          refine hinv.cpu_of_holds hheld (fun _ h => h.elim) (fun _ => hlock) ?_
          show count.toNat ≤ 50 * (i + 1)
          omega
        · rename_i hrun
          have hrun : (s.proc ⟨i, hi⟩).state = .runnable := not_not.mp hrun
          have hadd := (hinv.add_toNat hrun hle).2
          have hnice := hinv.nice_toNat hrun
          split at hstep
          · obtain rfl := Option.some.inj hstep
            refine hinv.cpu_of_holds hheld (fun _ h => h.elim) (fun _ => hlock) ?_
            show (count + (s.proc ⟨i, hi⟩).niceValue).toNat ≤ 50 * (i + 1)
            omega
          · obtain rfl := Option.some.inj hstep
            have hne : ∀ c', ¬ (s.sched c').Runs ⟨i, hi⟩ := by
              intro c' hc'
              have hrun' := (hinv.slot ⟨i, hi⟩).running c' hc'
              rw [hrun] at hrun'
              exact absurd hrun' (by decide)
            have hswitch := hinv.switchTo hrun
            refine hswitch.cpu (fun p hp => ?_) (fun h => h.elim) (fun c' hcc hc' => ?_) ?_
            · obtain rfl : (⟨i, hi⟩ : Slot) = p := hp
              exact ⟨by simp [Kernel.switchTo, Kernel.setIds, Kernel.proc, dispatch], hne⟩
            · have hmine : s.lock = some c' := hinv.lock c' hc'
              rw [hlock] at hmine
              exact absurd (Option.some.inj hmine).symm hcc
            · show (count + (s.proc ⟨i, hi⟩).niceValue).toNat ≤ 50 * (i + 1)
              omega
      · obtain rfl := Option.some.inj hstep
        exact hinv.cpu_of_holds hheld (fun _ h => h.elim) (fun h => h.elim) trivial
  | away i randVal count p =>
      rw [hk, Processes.schedStep] at hstep
      exact absurd hstep (by simp)

theorem Inv.step (hinv : Inv s) {l : C × Move} (hok : AssignsInRange s l)
    (hstep : step s l.1 l.2 = some s') : Inv s' := by
  obtain ⟨c, m⟩ := l
  unfold Processes.step at hstep
  simp only at hstep
  split at hstep
  · exact absurd hstep (by simp)
  · exact absurd hstep (by simp)
  · exact absurd hstep (by simp)
  · exact absurd hstep (by simp)
  · split at hstep
    · rename_i hlock
      obtain rfl := Option.some.inj hstep
      exact hinv.wakeup1 (hinv.noSum hlock) _
    · exact absurd hstep (by simp)
  · split at hstep
    · rename_i hlock
      obtain rfl := Option.some.inj hstep
      have htick : Inv { s with world := { s.world with ticks := s.world.ticks + 1 } } :=
        hinv.world rfl
      exact htick.wakeup1 (hinv.noSum hlock) _
    · exact absurd hstep (by simp)
  · rename_i haway _ _
    refine hinv.procStep haway (fun q newValue pid hpoint hgo => hok newValue ?_) hstep
    simp only [assigned, haway, hpoint, hgo]
    rfl
  · exact hinv.schedStep hstep
  · exact absurd hstep (by simp)

/-! ## Runs -/

variable {tr : List (C × Move)}

theorem inv_of_run (hrun : Run (kernel C) AssignsInRange tr s) : Inv s := by
  apply hrun.invariant
  · exact fun _ hboot => inv_booted hboot
  · exact fun _ _ _ hinv hstep hok => hinv.step hok hstep

/-- While `renice` assigns values in range only, the nice values stay in range
and the scheduler's sums are what they are meant to be. -/
theorem nice_in_range (hrun : Run (kernel C) AssignsInRange tr s) : NiceKept s :=
  (inv_of_run hrun).niceKept

/-- `initproc` alone, on one CPU; `rand()` has not been called. -/
def booted : Kernel (Fin 1) where
  world := {
    ptable := fun p =>
      if p = firstSlot then { state := .runnable, niceValue := defaultNiceValue } else {}
    ticks := 0
    next := 1 }
  ids := fun p => if p = firstSlot then { pid := 1 } else {}
  nextpid := 2
  initproc := firstSlot
  lock := none
  sched := fun _ => .idle
  point := fun _ => .user

theorem booted_init : Booted booted where
  first := by decide
  others := by
    intro p hp
    show (if p = firstSlot then _ else _ : Proc).state = _
    rw [if_neg hp]
  pid := by decide
  nextpid := rfl
  initproc := rfl
  lock := rfl
  sched := fun _ => rfl
  point := fun _ => rfl

/-- The scheduler finds `initproc`, which calls `renice(1, newValue)`. -/
def reniceRun (newValue : Int32) : List (Fin 1 × Move) :=
  List.replicate 67 (0, .go) ++ [(0, .renice newValue 1), (0, .go), (0, .go)]

/-- A run in which `initproc` calls `renice(1, 7)`. -/
theorem nice_in_range_seven :
    ∃ s : Kernel (Fin 1), (s.proc firstSlot).niceValue = 7 ∧ NiceKept s := by
  have hrun : ((reniceRun 7).foldlM
      (fun s l => if AssignsInRange s l then step s l.1 l.2 else none) booted).map
        (fun s => (s.proc firstSlot).niceValue) = some 7 := by
    decide +kernel
  obtain ⟨s, hs, hnice⟩ := Option.map_eq_some_iff.mp hrun
  refine ⟨s, hnice, nice_in_range (Run.of_foldlM booted_init (fun s l s' h => ?_) hs)⟩
  split at h
  · rename_i hok
    exact ⟨h, hok⟩
  · exact absurd h (by simp)

/-- `renice(1, 0)` of the first process leaves it RUNNING with no ticket. -/
theorem renice_zero :
    ∃ tr s, Run (kernel (Fin 1)) anyStep tr s ∧ Active (s.proc firstSlot).state ∧
      ¬ InRange (s.proc firstSlot).niceValue := by
  have hrun : ((reniceRun 0).foldlM (fun s l => step s l.1 l.2) booted).map
      (fun s => ((s.proc firstSlot).state, (s.proc firstSlot).niceValue)) =
        some (.running, 0) := by
    decide +kernel
  obtain ⟨s, hs, heq⟩ := Option.map_eq_some_iff.mp hrun
  obtain ⟨hstate, hnice⟩ := Prod.mk.inj heq
  refine ⟨_, s, Run.of_foldlM booted_init (fun _ _ _ h => ⟨h, trivial⟩) hs, ?_, ?_⟩
  · rw [hstate]
    decide
  · rw [hnice, inRange_iff]
    decide

end Processes
end Lottery
end CS444
