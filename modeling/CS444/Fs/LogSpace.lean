/-
The log has room for what is written to it.

`begin_op` sets `MAXOPBLOCKS` blocks aside for every operation under way, but gives up
what an operation did not use when it ends, and `log_write` panics when the log is full
even if the block is in it already.  `Spare` is kept by operations that change at most
`most` blocks, as long as `most` is less than `MAXOPBLOCKS` and the log has more than
`MAXOPBLOCKS + 2 * most + 1` blocks.  `mkfs` gives it `LOGSIZE`, which is enough for nine
blocks an operation and not for ten.
-/
import CS444.Fs.Log
import CS444.Lib.Ledger
import Mathlib.Algebra.BigOperators.Ring.Finset

namespace CS444
namespace Fs
namespace Logging

open Bytes Runs

/-! ## What the operations may still log -/

namespace Op

def active : Op → Nat
  | .out => 0
  | _ => 1

/-- The blocks that an operation may still add to the log. -/
def left (most : Nat) (o : Op) : Nat := o.active * (most - o.mine.length)

/-- The operation keeps to `most` blocks, the one it holds included. -/
structure Within (most : Nat) (o : Op) : Prop where
  mine : o.mine.length ≤ most
  buffer : ∀ b, o.buffer = some b → b ∈ o.mine ∨ o.mine.length < most

/-- The operation has logged nothing that is not in `lh`. -/
def Logged (lh : List Nat) (o : Op) : Prop := ∀ b ∈ o.mine, b ∈ lh

theorem within_out {most : Nat} : Within most .out :=
  ⟨Nat.zero_le most, fun _ hb => nomatch hb⟩

theorem within_inside {most : Nat} {mine : List Nat} (h : mine.length ≤ most) :
    Within most (.inside mine) := ⟨h, fun _ hb => nomatch hb⟩

end Op

section Totals

variable {κ : Type*} {op : κ → Op} {w : Op → Nat} {most : Nat}

theorem forall_op [DecidableEq κ] {k : κ} {o : Op} (P : Op → Prop) :
    (∀ j, P (Function.update op k o j)) ↔ P o ∧ ∀ j ≠ k, P (op j) :=
  Function.forall_update_iff op fun _ => P

variable [Fintype κ]

/-- The sum of `w` over the processes. -/
def total (w : Op → Nat) (op : κ → Op) : Nat := Ledger.holdings (fun o (_ : Unit) => w o) op ()

theorem total_update [DecidableEq κ] (w : Op → Nat) (op : κ → Op) (k : κ) (o : Op) :
    total w (Function.update op k o) + w (op k) = total w op + w o :=
  Ledger.holdings_update _ op k o ()

theorem le_total (w : Op → Nat) (op : κ → Op) (k : κ) : w (op k) ≤ total w op :=
  Ledger.le_holdings (fun o (_ : Unit) => w o) op k ()

theorem total_eq_zero (hout : ∀ k, op k = .out) (hw : w .out = 0) : total w op = 0 := by
  apply Finset.sum_eq_zero
  intro k _
  show w (op k) = 0
  rw [hout k, hw]

theorem total_left_le : total (Op.left most) op ≤ total Op.active op * most := by
  unfold total Ledger.holdings
  rw [Finset.sum_mul]
  apply Finset.sum_le_sum
  intro k _
  exact Nat.mul_le_mul_left _ (Nat.sub_le most _)

end Totals

/-! ## The invariant -/

/-- The system runs, so that a commit is all there is to come before it is idle. -/
def Phase.up : Phase → Bool
  | .boot => false
  | .replay _ => false
  | .reset => false
  | _ => true

/-- Nothing is in the log. -/
def Phase.cleared : Phase → Bool
  | .reset => true
  | .clear => true
  | .finish => true
  | _ => false

variable {κ : Type*} [DecidableEq κ] [Fintype κ] {L : Area} {most : Nat} {m m' : Machine κ}
  {k : κ} {b : Nat} {data : Mem}

/-- What holds between the log, the processes and what they may still do. -/
structure Spare (most : Nat) (m : Machine κ) : Prop where
  alive : m.phase ≠ .panicked
  idle : m.phase ≠ .running → ∀ k, m.op k = .out
  count : m.outstanding = total Op.active m.op
  room : m.phase.up = true →
    m.lh.length + total (Op.left most) m.op ≤ MAXOPBLOCKS + 2 * most
  empty : m.phase = .running → m.outstanding = 0 → m.lh = []
  cleared : m.phase.cleared = true → m.lh = []
  within : ∀ k, (m.op k).Within most
  logged : ∀ k, (m.op k).Logged m.lh

omit [DecidableEq κ] in
/-- A machine in which no process is in an operation. -/
theorem Spare.of_idle (halive : m.phase ≠ .panicked) (hout : ∀ k, m.op k = .out)
    (hcount : m.outstanding = 0)
    (hroom : m.phase.up = true → m.lh.length ≤ MAXOPBLOCKS + 2 * most)
    (hempty : m.phase = .running ∨ m.phase.cleared = true → m.lh = []) : Spare most m where
  alive := halive
  idle _ := hout
  count := by rw [hcount, total_eq_zero hout rfl]
  room hup := by
    have hleft : total (Op.left most) m.op = 0 := total_eq_zero hout (Nat.zero_mul _)
    have := hroom hup
    omega
  empty hphase _ := hempty (.inl hphase)
  cleared hphase := hempty (.inr hphase)
  within k := by
    rw [hout k]
    exact Op.within_out
  logged k c hc := by
    rw [hout k] at hc
    exact absurd hc List.not_mem_nil

omit [DecidableEq κ] in
/-- A machine with the same operations, the same log and the same phase. -/
theorem Spare.congr (hspare : Spare most m) (hop : m'.op = m.op) (hlh : m'.lh = m.lh)
    (hcount : m'.outstanding = m.outstanding) (hphase : m'.phase = m.phase) :
    Spare most m' where
  alive := hphase ▸ hspare.alive
  idle := by
    rw [hphase, hop]
    exact hspare.idle
  count := by
    rw [hcount, hop]
    exact hspare.count
  room := by
    rw [hphase, hop, hlh]
    exact hspare.room
  empty := by
    rw [hphase, hcount, hlh]
    exact hspare.empty
  cleared := by
    rw [hphase, hlh]
    exact hspare.cleared
  within := by
    rw [hop]
    exact hspare.within
  logged := by
    rw [hop, hlh]
    exact hspare.logged

omit [DecidableEq κ] in
/-- A process is in an operation only while the system runs and nobody commits. -/
theorem Spare.running (hspare : Spare most m) (hop : m.op k ≠ .out) : m.phase = .running := by
  by_contra hphase
  exact hop (hspare.idle hphase k)

omit [DecidableEq κ] in
theorem Spare.outstanding_pos (hspare : Spare most m) (hop : (m.op k).active = 1) :
    0 < m.outstanding := by
  have := le_total Op.active m.op k
  rw [hspare.count]
  omega

/-! ## Every step keeps it -/

theorem spare_begin_op (hspare : Spare most m) (hmost : most < MAXOPBLOCKS)
    (h : m.begin_op k = some m') : Spare most m' := by
  obtain ⟨hout, hphase, hroom, rfl⟩ := Machine.begin_op_cases h
  have hcount := total_update Op.active m.op k (.inside [])
  have hleft := total_update (Op.left most) m.op k (.inside [])
  have hall : total (Op.left most) m.op ≤ total Op.active m.op * most := total_left_le
  rw [hout] at hcount hleft
  rw [← hspare.count] at hcount hall
  refine ⟨hspare.alive, fun hne => absurd hphase hne, hcount.symm, fun _ => ?_,
    fun _ hzero => absurd hzero (Nat.succ_ne_zero _), hspare.cleared,
    (forall_op (Op.Within most)).mpr
      ⟨Op.within_inside (Nat.zero_le most), fun j _ => hspare.within j⟩,
    (forall_op (Op.Logged m.lh)).mpr
      ⟨fun c hc => absurd hc List.not_mem_nil, fun j _ => hspare.logged j⟩⟩
  · -- the first operation finds the log empty, and at most two others are under way
    show m.lh.length + total (Op.left most) (Function.update m.op k (.inside [])) ≤ _
    have hnew : Op.left most (.inside []) = most := Nat.one_mul most
    have hold : Op.left most .out = 0 := Nat.zero_mul _
    have hsize : LOGSIZE = 30 := rfl
    have hmax : MAXOPBLOCKS = 10 := rfl
    rw [hmax, hsize] at hroom
    rw [hmax] at hmost
    have hle : m.outstanding = 0 ∨ m.outstanding = 1 ∨ m.outstanding = 2 := by omega
    obtain hzero | hone | htwo := hle
    · rw [hspare.empty hphase hzero, List.length_nil]
      rw [hzero] at hall
      omega
    · rw [hone] at hall hroom
      omega
    · rw [htwo] at hall hroom
      omega

/-- A process goes on with its operation, with nothing new in the log. -/
theorem spare_setOp {o : Op} (hspare : Spare most m) (hphase : m.phase = .running)
    (hactive : o.active = (m.op k).active) (hmine : o.mine = (m.op k).mine)
    (hwithin : o.Within most) : Spare most (m.setOp k o) := by
  have hcount := total_update Op.active m.op k o
  have hleft := total_update (Op.left most) m.op k o
  have hsame : Op.left most o = Op.left most (m.op k) := by rw [Op.left, hactive, hmine, Op.left]
  refine ⟨hspare.alive, fun hne => absurd hphase hne, ?_, fun hup => ?_, hspare.empty,
    hspare.cleared, (forall_op (Op.Within most)).mpr ⟨hwithin, fun j _ => hspare.within j⟩,
    (forall_op (Op.Logged m.lh)).mpr
      ⟨fun c hc => hspare.logged k c (hmine ▸ hc), fun j _ => hspare.logged j⟩⟩
  · show m.outstanding = total Op.active (Function.update m.op k o)
    rw [hspare.count]
    omega
  · show m.lh.length + total (Op.left most) (Function.update m.op k o) ≤ _
    have := hspare.room hup
    omega

theorem spare_modify (hspare : Spare most m) (h : m.modify k b data = some m')
    (hok : b ∈ (m.op k).mine ∨ (m.op k).mine.length < most) : Spare most m' := by
  obtain ⟨mine, hop, -, rfl⟩ := Machine.modify_cases h
  have hphase := hspare.running (k := k) (by rw [hop]; exact Op.noConfusion)
  have hwithin := hspare.within k
  rw [hop] at hok hwithin
  have hbuf : Spare most (m.setBuf b ⟨data, (m.bread b).dirty⟩) :=
    hspare.congr rfl rfl rfl rfl
  apply spare_setOp hbuf hphase
  · show _ = (m.op k).active
    rw [hop]
    rfl
  · show _ = (m.op k).mine
    rw [hop]
    rfl
  · refine ⟨hwithin.mine, fun c hc => ?_⟩
    obtain rfl := Option.some.inj hc
    exact hok

omit [DecidableEq κ] in
/-- The tests of `log_write` never fail. -/
theorem check_passes (hspare : Spare most m) (hmost : most < MAXOPBLOCKS)
    (hsize : MAXOPBLOCKS + 2 * most + 1 < L.size) {mine : List Nat}
    (hop : m.op k = .modified mine b) :
    ¬(LOGSIZE ≤ m.lh.length ∨ (L.size : Int) - 1 ≤ m.lh.length ∨ m.outstanding < 1) := by
  have hphase := hspare.running (k := k) (by rw [hop]; exact Op.noConfusion)
  have hroom := hspare.room (by rw [hphase]; rfl)
  have hpos := hspare.outstanding_pos (k := k) (by rw [hop]; rfl)
  have hlog : LOGSIZE = 30 := rfl
  have hmax : MAXOPBLOCKS = 10 := rfl
  omega

theorem spare_check (hspare : Spare most m) (hmost : most < MAXOPBLOCKS)
    (hsize : MAXOPBLOCKS + 2 * most + 1 < L.size) (h : m.check L k = some m') :
    Spare most m' := by
  obtain ⟨mine, b, hop, ⟨hfull, -⟩ | ⟨-, -, rfl⟩⟩ := Machine.check_cases h
  · exact absurd hfull (check_passes hspare hmost hsize hop)
  · have hphase := hspare.running (k := k) (by rw [hop]; exact Op.noConfusion)
    have hwithin := hspare.within k
    rw [hop] at hwithin
    apply spare_setOp hspare hphase
    · rw [hop]
      rfl
    · rw [hop]
      rfl
    · exact ⟨hwithin.mine, hwithin.buffer⟩

theorem spare_log_write (hspare : Spare most m) (h : m.log_write k = some m') :
    Spare most m' := by
  obtain ⟨mine, b, hop, rfl⟩ := Machine.log_write_cases h
  have hphase := hspare.running (k := k) (by rw [hop]; exact Op.noConfusion)
  have hwithin := hspare.within k
  have hlogged := hspare.logged k
  rw [hop] at hwithin hlogged
  by_cases hb : b ∈ mine
  · -- absorbed: the block is in the log already
    rw [if_pos hb]
    have hbuf : Spare most ((m.enter b).setBuf b ⟨(m.bread b).data, true⟩) :=
      hspare.congr rfl (if_pos (hlogged b hb)) rfl rfl
    apply spare_setOp hbuf hphase
    · show _ = (m.op k).active
      rw [hop]
      rfl
    · show _ = (m.op k).mine
      rw [hop]
      rfl
    · exact Op.within_inside hwithin.mine
  · rw [if_neg hb]
    have hlt : mine.length < most := (hwithin.buffer b rfl).resolve_left hb
    have hcount := total_update Op.active m.op k (.inside (b :: mine))
    have hleft := total_update (Op.left most) m.op k (.inside (b :: mine))
    rw [hop] at hcount hleft
    have hold : Op.left most (.checked mine b) = most - mine.length := Nat.one_mul _
    have hnew : Op.left most (.inside (b :: mine)) = most - (mine.length + 1) := Nat.one_mul _
    have hlen : (if b ∈ m.lh then m.lh else m.lh ++ [b]).length ≤ m.lh.length + 1 := by
      split
      · exact Nat.le_succ _
      · rw [List.length_append, List.length_singleton]
    have hmem : ∀ c, c ∈ m.lh ∨ c = b → c ∈ if b ∈ m.lh then m.lh else m.lh ++ [b] := by
      intro c hc
      split
      next hin => exact hc.elim id fun heq => heq ▸ hin
      next =>
        rw [List.mem_append, List.mem_singleton]
        exact hc
    have hpos := hspare.outstanding_pos (k := k) (by rw [hop]; rfl)
    refine ⟨hspare.alive, fun hne => absurd hphase hne, ?_, fun hup => ?_,
      fun _ hzero => absurd hzero (Nat.pos_iff_ne_zero.mp hpos), fun hcl => ?_,
      (forall_op (Op.Within most)).mpr ⟨Op.within_inside hlt, fun j _ => hspare.within j⟩,
      (forall_op (Op.Logged _)).mpr ⟨fun c hc => hmem c ?_, fun j _ c hc => hmem c (.inl ?_)⟩⟩
    · show m.outstanding = total Op.active (Function.update m.op k _)
      rw [hspare.count]
      exact (Nat.add_right_cancel hcount).symm
    · show (if b ∈ m.lh then m.lh else m.lh ++ [b]).length +
        total (Op.left most) (Function.update m.op k _) ≤ _
      have := hspare.room hup
      omega
    · change m.phase.cleared = true at hcl
      rw [hphase] at hcl
      cases hcl
    · exact (List.mem_cons.mp hc).symm.imp (hlogged c) id
    · exact hspare.logged j c hc

theorem spare_end_op (hspare : Spare most m) (h : m.end_op k = some m') : Spare most m' := by
  obtain ⟨mine, hop, rfl⟩ := Machine.end_op_cases h
  have hphase := hspare.running (k := k) (by rw [hop]; exact Op.noConfusion)
  have hroom := hspare.room (by rw [hphase]; rfl)
  have hpos := hspare.outstanding_pos (k := k) (by rw [hop]; rfl)
  have hcount := total_update Op.active m.op k .out
  have hleft := total_update (Op.left most) m.op k .out
  rw [hop, ← hspare.count] at hcount
  rw [hop] at hleft
  have hone : Op.active (.inside mine) = 1 := rfl
  have hzero : Op.active .out = 0 := rfl
  have hnone : Op.left most .out = 0 := Nat.zero_mul _
  rw [if_pos hphase]
  by_cases hlast : m.outstanding - 1 = 0
  · -- the last one commits, and nobody else is in an operation
    have hall : total Op.active (Function.update m.op k .out) = 0 := by omega
    have hout : ∀ j, Function.update m.op k .out j = .out := by
      intro j
      have hj := le_total Op.active (Function.update m.op k .out) j
      cases hopj : Function.update m.op k .out j with
      | out => rfl
      | _ =>
          rw [hopj, hall] at hj
          exact absurd hj (Nat.not_succ_le_zero 0)
    rw [if_pos hlast]
    by_cases hlh : m.lh = []
    · rw [if_pos hlh]
      refine Spare.of_idle (fun hne => nomatch hne) hout hlast (fun _ => ?_) fun _ => hlh
      show m.lh.length ≤ _
      rw [hlh]
      exact Nat.zero_le _
    · rw [if_neg hlh]
      refine Spare.of_idle (fun hne => nomatch hne) hout hlast (fun _ => ?_) fun hne => ?_
      · show m.lh.length ≤ _
        omega
      · exact absurd hne (fun hne => hne.elim (fun h => nomatch h) fun h => nomatch h)
  · rw [if_neg hlast]
    refine ⟨Phase.noConfusion, fun hne => absurd rfl hne, ?_, fun _ => ?_,
      fun _ hzero => absurd hzero hlast, Bool.noConfusion,
      (forall_op (Op.Within most)).mpr ⟨Op.within_out, fun j _ => hspare.within j⟩,
      (forall_op (Op.Logged m.lh)).mpr
        ⟨fun c hc => absurd hc List.not_mem_nil, fun j _ => hspare.logged j⟩⟩
    · show m.outstanding - 1 = total Op.active (Function.update m.op k .out)
      omega
    · show m.lh.length + total (Op.left most) (Function.update m.op k .out) ≤ _
      omega

omit [DecidableEq κ] [Fintype κ] in
/-- What `recover_from_log` and `commit` do to all but the disk and the cache. -/
theorem io_cases (h : m.io L = some m') : m.phase ≠ .running ∧ m'.phase ≠ .panicked ∧
    m'.op = m.op ∧ m'.outstanding = m.outstanding ∧
    (m'.phase.up = true → m'.lh = [] ∨ m'.lh = m.lh ∧ (m.phase.up = true ∨ m.phase = .reset)) ∧
    (m'.phase = .running ∨ m'.phase.cleared = true →
      m'.lh = [] ∨ m'.lh = m.lh ∧ m.phase.cleared = true) := by
  unfold Machine.io at h
  cases hphase : m.phase with
  | boot =>
      rw [hphase] at h
      obtain rfl := Option.some.inj h
      exact ⟨Phase.noConfusion, Phase.noConfusion, rfl, rfl, Bool.noConfusion,
        fun h => h.elim Phase.noConfusion Bool.noConfusion⟩
  | replay tail =>
      rw [hphase] at h
      dsimp only at h
      split at h
      · obtain rfl := Option.some.inj h
        exact ⟨Phase.noConfusion, Phase.noConfusion, rfl, rfl, Bool.noConfusion,
          fun h => h.elim Phase.noConfusion Bool.noConfusion⟩
      · obtain rfl := Option.some.inj h
        exact ⟨Phase.noConfusion, Phase.noConfusion, rfl, rfl, fun _ => .inl rfl,
          fun _ => .inl rfl⟩
  | reset =>
      rw [hphase] at h
      obtain rfl := Option.some.inj h
      exact ⟨Phase.noConfusion, Phase.noConfusion, rfl, rfl, fun _ => .inr ⟨rfl, .inr rfl⟩,
        fun _ => .inr ⟨rfl, rfl⟩⟩
  | running =>
      rw [hphase] at h
      cases h
  | writeLog tail =>
      rw [hphase] at h
      dsimp only at h
      split at h
      · obtain rfl := Option.some.inj h
        exact ⟨Phase.noConfusion, Phase.noConfusion, rfl, rfl, fun _ => .inr ⟨rfl, .inl rfl⟩,
          fun h => h.elim Phase.noConfusion Bool.noConfusion⟩
      · obtain rfl := Option.some.inj h
        exact ⟨Phase.noConfusion, Phase.noConfusion, rfl, rfl, fun _ => .inr ⟨rfl, .inl rfl⟩,
          fun h => h.elim Phase.noConfusion Bool.noConfusion⟩
  | writeHead =>
      rw [hphase] at h
      obtain rfl := Option.some.inj h
      exact ⟨Phase.noConfusion, Phase.noConfusion, rfl, rfl, fun _ => .inr ⟨rfl, .inl rfl⟩,
        fun h => h.elim Phase.noConfusion Bool.noConfusion⟩
  | install tail =>
      rw [hphase] at h
      dsimp only at h
      split at h
      · obtain rfl := Option.some.inj h
        exact ⟨Phase.noConfusion, Phase.noConfusion, rfl, rfl, fun _ => .inr ⟨rfl, .inl rfl⟩,
          fun h => h.elim Phase.noConfusion Bool.noConfusion⟩
      · obtain rfl := Option.some.inj h
        exact ⟨Phase.noConfusion, Phase.noConfusion, rfl, rfl, fun _ => .inl rfl,
          fun _ => .inl rfl⟩
  | clear =>
      rw [hphase] at h
      obtain rfl := Option.some.inj h
      exact ⟨Phase.noConfusion, Phase.noConfusion, rfl, rfl, fun _ => .inr ⟨rfl, .inl rfl⟩,
        fun _ => .inr ⟨rfl, rfl⟩⟩
  | finish =>
      rw [hphase] at h
      obtain rfl := Option.some.inj h
      exact ⟨Phase.noConfusion, Phase.noConfusion, rfl, rfl, fun _ => .inr ⟨rfl, .inl rfl⟩,
        fun _ => .inr ⟨rfl, rfl⟩⟩
  | panicked =>
      rw [hphase] at h
      cases h

omit [DecidableEq κ] in
theorem spare_io (hspare : Spare most m) (h : m.io L = some m') : Spare most m' := by
  obtain ⟨hphase, halive, hop, hcount, hroom, hempty⟩ := io_cases h
  have hout := hspare.idle hphase
  have hzero : m.outstanding = 0 := hspare.count.trans (total_eq_zero hout rfl)
  refine Spare.of_idle halive (fun k => hop ▸ hout k) (hcount.trans hzero) (fun hup => ?_)
    fun hdone => ?_
  · obtain hnil | ⟨hlh, hup' | hreset⟩ := hroom hup
    · rw [hnil]
      exact Nat.zero_le _
    · have := hspare.room hup'
      rw [hlh]
      omega
    · rw [hlh, hspare.cleared (by rw [hreset]; rfl)]
      exact Nat.zero_le _
  · obtain hnil | ⟨hlh, hcl⟩ := hempty hdone
    · exact hnil
    · rw [hlh, hspare.cleared hcl]

omit [DecidableEq κ] in
theorem spare_boot (hboot : m.phase = .boot) (hop : ∀ k, m.op k = .out)
    (hcount : m.outstanding = 0) : Spare most m := by
  apply Spare.of_idle _ hop hcount
  · rw [hboot]
    exact Bool.noConfusion
  · rw [hboot]
    exact fun h => h.elim Phase.noConfusion Bool.noConfusion
  · rw [hboot]
    exact Phase.noConfusion

theorem spare_step {a : Move κ} (hspare : Spare most m) (hmost : most < MAXOPBLOCKS)
    (hsize : MAXOPBLOCKS + 2 * most + 1 < L.size) (h : m.step L a = some m')
    (hok : WellUsed L most m a) : Spare most m' := by
  replace h := Machine.step_cases h
  cases a with
  | begin_op k => exact spare_begin_op hspare hmost h
  | modify k b data => exact spare_modify hspare h hok.2
  | check k => exact spare_check hspare hmost hsize h
  | log_write k => exact spare_log_write hspare h
  | end_op k => exact spare_end_op hspare h
  | io => exact spare_io hspare h
  | load b =>
      obtain rfl := Option.some.inj h
      exact hspare.congr rfl rfl rfl rfl
  | evict b =>
      obtain ⟨-, -, rfl⟩ := Machine.evict_cases h
      exact hspare.congr rfl rfl rfl rfl
  | crash =>
      obtain rfl := Option.some.inj h
      exact spare_boot rfl (fun _ => rfl) rfl

theorem spare_run {tr : List (Move κ)} (hmost : most < MAXOPBLOCKS)
    (hsize : MAXOPBLOCKS + 2 * most + 1 < L.size)
    (hrun : Run (machine L κ) (WellUsed L most) tr m) : Spare most m :=
  hrun.invariant (fun _ hboot => spare_boot hboot.phase hboot.op hboot.outstanding)
    fun _ _ _ hspare h hok => spare_step hspare hmost hsize h hok

end Logging
end Fs
end CS444
