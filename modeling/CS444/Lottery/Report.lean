/-
What `renice` reports.

A call of `renice` that no other CPU interferes with is one pass over the process
table.  Its range test turns nothing down and nothing behind the loop returns
early, so every call returns 2, the code for a process that was not found.
-/
import CS444.Lottery.Renice

namespace CS444
namespace Lottery
namespace Processes

variable {C : Type} [DecidableEq C] {newValue pid : Int32} {ids : Slot → Ids}
variable {t : Slot → Proc} {l : List Slot} {p : Slot}

/-! ## The call as one pass -/

/-- The test `renice` makes of a slot that holds `x` and `y`. -/
def reniceFinds (pid : Int32) (x : Proc) (y : Ids) : Prop := x.state ≠ .unused ∧ y.pid = pid

instance (x : Proc) (y : Ids) : Decidable (reniceFinds pid x y) :=
  inferInstanceAs (Decidable (_ ∧ _))

/-- What the loop of `renice` leaves in a slot that holds `x` and `y`. -/
def reniced (newValue pid : Int32) (x : Proc) (y : Ids) : Proc :=
  if reniceFinds pid x y then { x with niceValue := newValue.toUInt32 } else x

/-- The loop of `renice`. -/
def reniceLoop (newValue pid : Int32) (ids : Slot → Ids) :
    List Slot → (Slot → Proc) → Slot → Proc
  | [], t => t
  | i :: rest, t =>
    reniceLoop newValue pid ids rest
      (if reniceFinds pid (t i) (ids i) then
        Function.update t i { t i with niceValue := newValue.toUInt32 }
      else t)

/-- `renice(new_value, pid)`: what it returns and the process table it leaves. -/
def renice (newValue pid : Int32) (ids : Slot → Ids) (t : Slot → Proc) :
    Int32 × (Slot → Proc) :=
  if reniceRefuses newValue then (1, t)
  else (2, reniceLoop newValue pid ids slots t)

theorem reniceLoop_cons (i : Slot) :
    reniceLoop newValue pid ids (i :: l) t =
      reniceLoop newValue pid ids l (Function.update t i (reniced newValue pid (t i) (ids i))) := by
  show reniceLoop newValue pid ids l _ = _
  unfold reniced
  by_cases hfound : reniceFinds pid (t i) (ids i)
  · rw [if_pos hfound, if_pos hfound]
  · rw [if_neg hfound, if_neg hfound, Function.update_eq_self]

theorem reniceLoop_of_notMem (hp : p ∉ l) : reniceLoop newValue pid ids l t p = t p := by
  induction l generalizing t with
  | nil => rfl
  | cons i rest ih =>
      obtain ⟨hpi, hrest⟩ := not_or.mp (mt List.mem_cons.mpr hp)
      rw [reniceLoop_cons, ih hrest, Function.update_of_ne hpi]

theorem reniceLoop_of_mem (hl : l.Nodup) (hp : p ∈ l) :
    reniceLoop newValue pid ids l t p = reniced newValue pid (t p) (ids p) := by
  induction l generalizing t with
  | nil => exact absurd hp List.not_mem_nil
  | cons i rest ih =>
      obtain ⟨hi, hrest⟩ := List.nodup_cons.mp hl
      rw [reniceLoop_cons]
      by_cases hpi : p = i
      · rw [hpi, reniceLoop_of_notMem hi, Function.update_self]
      · rw [ih hrest ((List.mem_cons.mp hp).resolve_left hpi), Function.update_of_ne hpi]

theorem renice_eq :
    renice newValue pid ids t = (2, reniceLoop newValue pid ids slots t) :=
  if_neg (reniceRefuses_never newValue)

theorem renice_result : (renice newValue pid ids t).1 = 2 := by
  rw [renice_eq]

theorem renice_slot (p : Slot) :
    (renice newValue pid ids t).2 p = reniced newValue pid (t p) (ids p) := by
  rw [renice_eq]
  dsimp only
  rw [reniceLoop_of_mem slots_nodup (mem_slots p)]

theorem reniced_niceValue (x : Proc) (y : Ids) :
    (reniced newValue pid x y).niceValue = x.niceValue ↔
      (x.state ≠ .unused → y.pid = pid → x.niceValue = newValue.toUInt32) := by
  unfold reniced
  by_cases hfound : reniceFinds pid x y
  · rw [if_pos hfound]
    exact ⟨fun h _ _ => h.symm, fun h => (h hfound.1 hfound.2).symm⟩
  · rw [if_neg hfound]
    exact ⟨fun _ hstate hpid => absurd ⟨hstate, hpid⟩ hfound, fun _ => rfl⟩

/-! ## What it reports -/

/-- An error code stands for a table with no nice value changed; a change is that of
the one slot with the pid, to a value in range, and is told from the error codes. -/
structure Reports (newValue pid : Int32) (ids : Slot → Ids) (t : Slot → Proc)
    (r : Int32 × (Slot → Proc)) : Prop where
  error : r.1 = 1 ∨ r.1 = 2 → ∀ p, (r.2 p).niceValue = (t p).niceValue
  changed : ∀ p, (r.2 p).niceValue ≠ (t p).niceValue →
    (ids p).pid = pid ∧ (r.2 p).niceValue = newValue.toUInt32 ∧
      minNiceValue.toInt32 ≤ newValue ∧ newValue ≤ maxNiceValue.toInt32 ∧
      r.1 ≠ 1 ∧ r.1 ≠ 2 ∧ ∀ q, q ≠ p → (r.2 q).niceValue = (t q).niceValue

/-- `renice` tells what it did exactly where it has nothing to do: every slot in use
with that pid has the value already. -/
theorem renice_reports_iff (newValue pid : Int32) (ids : Slot → Ids) (t : Slot → Proc) :
    Reports newValue pid ids t (renice newValue pid ids t) ↔
      ∀ p, (t p).state ≠ .unused → (ids p).pid = pid →
        (t p).niceValue = newValue.toUInt32 := by
  have hsame : (∀ p, ((renice newValue pid ids t).2 p).niceValue = (t p).niceValue) ↔
      ∀ p, (t p).state ≠ .unused → (ids p).pid = pid →
        (t p).niceValue = newValue.toUInt32 := by
    refine forall_congr' fun p => ?_
    rw [renice_slot, reniced_niceValue]
  rw [← hsame]
  constructor
  · exact fun h => h.error (Or.inr renice_result)
  · exact fun h => ⟨fun _ => h, fun p hp => absurd (h p) hp⟩

/-- The first process runs with the nice value it was made with. -/
def oneRunning : Slot → Proc := fun p =>
  if p = firstSlot then { state := .running, niceValue := defaultNiceValue } else {}

def onePid : Slot → Ids := fun p => if p = firstSlot then { pid := 1 } else {}

/-- `renice(1, 30)` makes the change and returns the code for no such process. -/
theorem renice_thirty :
    ¬ Reports 30 1 onePid oneRunning (renice 30 1 onePid oneRunning) := by
  intro h
  have hsame := h.error (Or.inr renice_result) firstSlot
  rw [renice_slot] at hsame
  exact absurd hsame (by decide)

/-! ## The call as steps of a CPU -/

/-- `n` steps of `c` with nothing between them. -/
def alone (c : C) (n : Nat) (s : Kernel C) : Option (Kernel C) :=
  (List.replicate n Move.go).foldlM (fun s m => step s c m) s

theorem alone_succ {s s₁ : Kernel C} {c : C} (n : Nat) (hstep : step s c .go = some s₁) :
    alone c (n + 1) s = alone c n s₁ := by
  show (step s c .go).bind _ = _
  rw [hstep]
  rfl

/-- The kernel with `t` for its process table, `p` back from its call. -/
def returned (s : Kernel C) (t : Slot → Proc) (p : Slot) : Kernel C :=
  { s with world := { s.world with ptable := t } }.goto p .user

omit [DecidableEq C] in
theorem returned_goto (s : Kernel C) (k : Point) :
    returned (s.goto p k) t p = returned s t p := by
  unfold returned Kernel.goto
  congr 1
  exact Function.update_idem _ _ _

theorem drop_slots {j : Nat} (hj : j < nproc) :
    slots.drop j = ⟨j, hj⟩ :: slots.drop (j + 1) := by
  have hlength : slots.length = nproc := List.length_finRange
  rw [List.drop_eq_getElem_cons (by omega)]
  congr 1
  exact List.getElem_finRange _

theorem step_of_away {s : Kernel C} {c : C} {i : Nat} {randVal count : UInt32}
    (hsched : s.sched c = .away i randVal count p) :
    step s c .go = procStep s c (.select i randVal count) p (s.point p) .go := by
  unfold step
  rw [hsched]

/-- A process in the loop of `renice` that is left alone goes through the rest of it. -/
theorem check_alone {s : Kernel C} {c : C} {i j : Nat} {randVal count : UInt32}
    (hsched : s.sched c = .away i randVal count p) (hpoint : s.point p = .check j newValue pid) :
    ∃ n, alone c n s =
      some (returned s (reniceLoop newValue pid s.ids (slots.drop j) s.world.ptable) p) := by
  induction hk : nproc - j generalizing s j with
  | zero =>
      have hj : ¬ j < nproc := by omega
      refine ⟨1, ?_⟩
      rw [alone_succ 0 (by rw [step_of_away hsched, hpoint]; exact dif_neg hj)]
      have hdrop : slots.drop j = [] := by
        apply List.drop_eq_nil_of_le
        have hlength : slots.length = nproc := List.length_finRange
        omega
      rw [hdrop]
      rfl
  | succ k ih =>
      have hj : j < nproc := by omega
      rw [drop_slots hj, reniceLoop_cons]
      have hcheck : step s c .go =
          if reniceFinds pid (s.world.ptable ⟨j, hj⟩) (s.ids ⟨j, hj⟩) then
            some (s.goto p (.assign ⟨j, hj⟩ newValue pid))
          else some (s.goto p (.check (j + 1) newValue pid)) := by
        rw [step_of_away hsched, hpoint]
        exact dif_pos hj
      unfold reniced
      by_cases hfound : reniceFinds pid (s.world.ptable ⟨j, hj⟩) (s.ids ⟨j, hj⟩)
      · rw [if_pos hfound] at hcheck ⊢
        have hassign : step (s.goto p (.assign ⟨j, hj⟩ newValue pid)) c .go =
            some (((s.goto p (.assign ⟨j, hj⟩ newValue pid)).setNice ⟨j, hj⟩
              newValue.toUInt32).goto p (.check (j + 1) newValue pid)) := by
          have haway : (s.goto p (.assign ⟨j, hj⟩ newValue pid)).sched c =
              .away i randVal count p := hsched
          rw [step_of_away haway]
          show procStep _ _ _ _ (Function.update s.point p _ p) _ = _
          rw [Function.update_self]
          rfl
        obtain ⟨n, hn⟩ := ih (s := ((s.goto p (.assign ⟨j, hj⟩ newValue pid)).setNice ⟨j, hj⟩
          newValue.toUInt32).goto p (.check (j + 1) newValue pid)) hsched
          (Function.update_self ..) (by omega)
        refine ⟨n + 2, ?_⟩
        rw [alone_succ (n + 1) hcheck, alone_succ n hassign, hn, returned_goto]
        show some (returned (s.goto p _) _ p) = _
        rw [returned_goto]
        rfl
      · rw [if_neg hfound] at hcheck ⊢
        obtain ⟨n, hn⟩ := ih (s := s.goto p (.check (j + 1) newValue pid)) hsched
          (Function.update_self ..) (by omega)
        refine ⟨n + 1, ?_⟩
        rw [alone_succ n hcheck, hn, returned_goto, Function.update_eq_self]
        rfl

/-- The steps of a `renice` that is left alone come to what `renice` leaves. -/
theorem renice_alone {s : Kernel C} {c : C} {i : Nat} {randVal count : UInt32}
    (hsched : s.sched c = .away i randVal count p) (hpoint : s.point p = .user) :
    ∃ s₁ n, step s c (.renice newValue pid) = some s₁ ∧
      alone c n s₁ = some (returned s (renice newValue pid s.ids s.world.ptable).2 p) := by
  obtain ⟨n, hn⟩ := check_alone (s := s.goto p (.check 0 newValue pid)) hsched
    (Function.update_self ..)
  refine ⟨_, n, ?_, hn.trans ?_⟩
  · unfold step
    rw [hsched]
    show procStep _ _ _ _ (s.point p) _ = _
    rw [hpoint]
    show some (ite _ _ _) = _
    rw [if_neg (reniceRefuses_never newValue)]
  · rw [returned_goto, renice_eq]
    dsimp only
    rw [← List.drop_zero (l := slots)]
    rfl

end Processes
end Lottery
end CS444
