/-
`log.c`, over the buffer cache of `bio.c` and a disk that writes one block at a time.

A process is in an operation between its `begin_op` and its `end_op`.  There it
changes a buffer, which it holds, and calls `log_write`, which looks at the size of the
log before it takes the lock, so that the test and the entry are two steps.  The last
`end_op` commits.  `crash` loses everything but the disk, and `initlog` recovers.

The cache may load any block, and recycle any buffer that nobody holds changed and that
is not dirty; that it has only `NBUF` of them is left out, and so are its sleep locks but
for the rule that nobody else takes a buffer that has been changed and not yet logged.
-/
import CS444.Fs.State
import CS444.Lib.RedoLog
import CS444.Lib.Runs
import Mathlib.Data.Fintype.Basic

namespace CS444
namespace Fs
namespace Logging

open Bytes RedoLog Runs

def LOGSIZE : Nat := MAXOPBLOCKS * 3

/-! ## The header -/

/-- The loop of `write_head`, from the word `a` on. -/
def storeBlocks (data : Mem) (a : Nat) : List Nat → Mem
  | [] => data
  | b :: rest => storeBlocks (store data a 4 b) (a + 4) rest

/-- The header block with `lh` in it. -/
def putHead (data : Mem) (lh : List Nat) : Mem := storeBlocks (store data 0 4 lh.length) 4 lh

/-- What `read_head` takes from the header block. -/
@[irreducible] def getHead (data : Mem) : List Nat :=
  (List.range (int (load data 0 4)).toNat).map fun i => load data (4 + 4 * i) 4

theorem load_storeBlocks_below {lh : List Nat} {data : Mem} {a c : Nat} (h : c + 4 ≤ a) :
    load (storeBlocks data a lh) c 4 = load data c 4 := by
  induction lh generalizing data a with
  | nil => rfl
  | cons b rest ih => rw [storeBlocks, ih (by omega), load_store_of_disjoint (by omega)]

theorem load_storeBlocks {lh : List Nat} {data : Mem} {a i : Nat} (hi : i < lh.length)
    (hfit : ∀ b ∈ lh, b < 2 ^ 32) : load (storeBlocks data a lh) (a + 4 * i) 4 = lh[i] := by
  induction lh generalizing data a i with
  | nil => exact absurd hi (Nat.not_lt_zero i)
  | cons b rest ih =>
      have hb := hfit b List.mem_cons_self
      rw [storeBlocks]
      cases i with
      | zero => exact (load_storeBlocks_below (by omega)).trans (load_store_self (by omega))
      | succ i =>
          have hlt : i < rest.length := Nat.lt_of_succ_lt_succ hi
          have hrest : load (storeBlocks (store data a 4 b) (a + 4) rest) (a + 4 + 4 * i) 4 =
              rest[i] := ih hlt fun c hc => hfit c (List.mem_cons_of_mem b hc)
          have haddr : a + 4 + 4 * i = a + 4 * (i + 1) := by omega
          rwa [haddr] at hrest

/-- A header is read as it was written. -/
theorem getHead_putHead {data : Mem} {lh : List Nat} (hlen : lh.length ≤ LOGSIZE)
    (hfit : ∀ b ∈ lh, b < 2 ^ 32) : getHead (putHead data lh) = lh := by
  have hsmall : lh.length ≤ 30 := hlen
  have hn : load (putHead data lh) 0 4 = lh.length := by
    rw [putHead, load_storeBlocks_below (by omega)]
    exact load_store_self (by omega)
  have hint : int lh.length = lh.length := by
    unfold int
    exact Int.bmod_eq_of_le (by omega) (by omega)
  unfold getHead
  rw [hn, hint, Int.toNat_natCast]
  apply List.ext_getElem
  · rw [List.length_map, List.length_range]
  · intro i _ hi
    rw [List.getElem_map, List.getElem_range]
    exact load_storeBlocks hi hfit

/-! ## The machine -/

structure Buf where
  data : Mem
  dirty : Bool

/-- Where a process is in an operation; `mine` are the blocks it has logged in it. -/
inductive Op where
  | out
  | inside (mine : List Nat)
  | modified (mine : List Nat) (b : Nat)
  | checked (mine : List Nat) (b : Nat)

/-- Where `initlog` and `commit` are; nobody commits while `running`. -/
inductive Phase where
  | boot
  | replay (tail : Nat)
  | reset
  | running
  | writeLog (tail : Nat)
  | writeHead
  | install (tail : Nat)
  | clear
  | finish
  | panicked
deriving DecidableEq

/-- `log.start` and `log.size` -/
structure Area where
  start : Nat
  size : Nat

structure Machine (κ : Type*) where
  disk : Nat → Mem
  cache : Nat → Option Buf
  lh : List Nat
  outstanding : Nat
  phase : Phase
  op : κ → Op

/-- What happens next: a call of the process `k`, a step of the one that recovers or
commits, the cache at work, or a loss of power. -/
inductive Move (κ : Type*) where
  | begin_op (k : κ)
  | modify (k : κ) (b : Nat) (data : Mem)
  | check (k : κ)
  | log_write (k : κ)
  | end_op (k : κ)
  | io
  | load (b : Nat)
  | evict (b : Nat)
  | crash

namespace Op

/-- The buffer the process holds. -/
def buffer : Op → Option Nat
  | .modified _ b => some b
  | .checked _ b => some b
  | _ => none

def mine : Op → List Nat
  | .out => []
  | .inside mine => mine
  | .modified mine _ => mine
  | .checked mine _ => mine

end Op

/-- The block of the log for the entry `tail`. -/
def Area.slot (L : Area) (tail : Nat) : Nat := L.start + tail + 1

variable {κ : Type*}

namespace Machine

/-- `bread`, of a buffer that may have to be read first. -/
def bread (m : Machine κ) (b : Nat) : Buf := (m.cache b).getD ⟨m.disk b, false⟩

def setBuf (m : Machine κ) (b : Nat) (buf : Buf) : Machine κ :=
  { m with cache := Function.update m.cache b (some buf) }

/-- The buffer of `b` is in the cache. -/
def loaded (m : Machine κ) (b : Nat) : Machine κ := m.setBuf b (m.bread b)

/-- `bwrite`, once `data` is in the buffer. -/
def bwrite (m : Machine κ) (b : Nat) (data : Mem) : Machine κ :=
  { m.setBuf b ⟨data, false⟩ with disk := Function.update m.disk b data }

/-- `write_head` -/
def write_head (L : Area) (m : Machine κ) : Machine κ :=
  m.bwrite L.start (putHead (m.bread L.start).data m.lh)

/-- One turn of `install_trans`. -/
def install (L : Area) (m : Machine κ) (tail b : Nat) : Machine κ :=
  (m.loaded (L.slot tail)).bwrite b (m.bread (L.slot tail)).data

/-- One turn of `write_log`. -/
def write_log (L : Area) (m : Machine κ) (tail b : Nat) : Machine κ :=
  (m.loaded b).bwrite (L.slot tail) (m.bread b).data

def goto (m : Machine κ) (phase : Phase) : Machine κ := { m with phase := phase }

def setLh (m : Machine κ) (lh : List Nat) : Machine κ := { m with lh := lh }

/-- `read_head` -/
def read_head (L : Area) (m : Machine κ) : Machine κ :=
  (m.loaded L.start).setLh (getHead (m.bread L.start).data)

/-- The next step of `recover_from_log` or of `commit`. -/
def io (L : Area) (m : Machine κ) : Option (Machine κ) :=
  match m.phase with
  | .boot => some ((m.read_head L).goto (.replay 0))
  | .replay tail =>
    match m.lh[tail]? with
    | some b => some ((m.install L tail b).goto (.replay (tail + 1)))
    | none => some ((m.setLh []).goto .reset)
  | .reset => some ((m.write_head L).goto .running)
  | .running => none
  | .writeLog tail =>
    match m.lh[tail]? with
    | some b => some ((m.write_log L tail b).goto (.writeLog (tail + 1)))
    | none => some (m.goto .writeHead)
  | .writeHead => some ((m.write_head L).goto (.install 0))
  | .install tail =>
    match m.lh[tail]? with
    | some b => some ((m.install L tail b).goto (.install (tail + 1)))
    | none => some ((m.setLh []).goto .clear)
  | .clear => some ((m.write_head L).goto .finish)
  | .finish => some (m.goto .running)
  | .panicked => none

variable [DecidableEq κ]

def setOp (m : Machine κ) (k : κ) (o : Op) : Machine κ :=
  { m with op := Function.update m.op k o }

/-- The loop of `log_write`, which leaves a block alone that is in the log. -/
def enter (m : Machine κ) (b : Nat) : Machine κ :=
  { m with lh := if b ∈ m.lh then m.lh else m.lh ++ [b] }

/-- `begin_op` past its loop. -/
def begin_op (m : Machine κ) (k : κ) : Option (Machine κ) :=
  match m.op k with
  | .out =>
    if m.phase = .running ∧ m.lh.length + (m.outstanding + 1) * MAXOPBLOCKS ≤ LOGSIZE then
      some { m.setOp k (.inside []) with outstanding := m.outstanding + 1 }
    else none
  | _ => none

/-- The process takes the buffer of `b`, which nobody holds, and changes it. -/
def modify [Fintype κ] (m : Machine κ) (k : κ) (b : Nat) (data : Mem) : Option (Machine κ) :=
  match m.op k with
  | .inside mine =>
    if ∀ j, (m.op j).buffer ≠ some b then
      some ((m.setBuf b ⟨data, (m.bread b).dirty⟩).setOp k (.modified mine b))
    else none
  | _ => none

/-- The tests of `log_write`, before it takes the lock. -/
def check (L : Area) (m : Machine κ) (k : κ) : Option (Machine κ) :=
  match m.op k with
  | .modified mine b =>
    if LOGSIZE ≤ m.lh.length ∨ (L.size : Int) - 1 ≤ m.lh.length ∨ m.outstanding < 1 then
      some { m with phase := .panicked }
    else some (m.setOp k (.checked mine b))
  | _ => none

/-- The rest of `log_write`, and `brelse`. -/
def log_write (m : Machine κ) (k : κ) : Option (Machine κ) :=
  match m.op k with
  | .checked mine b =>
    some (((m.enter b).setBuf b ⟨(m.bread b).data, true⟩).setOp k
      (.inside (if b ∈ mine then mine else b :: mine)))
  | _ => none

/-- `end_op`, up to `commit`. -/
def end_op (m : Machine κ) (k : κ) : Option (Machine κ) :=
  match m.op k with
  | .inside _ =>
    some { m.setOp k .out with
      outstanding := m.outstanding - 1
      phase :=
        if m.phase = .running then
          if m.outstanding - 1 = 0 then
            if m.lh = [] then .finish else .writeLog 0
          else .running
        else .panicked }
  | _ => none

/-- The cache recycles the buffer of `b`. -/
def evict [Fintype κ] (m : Machine κ) (b : Nat) : Option (Machine κ) :=
  if (m.bread b).dirty = false ∧ ∀ j, (m.op j).buffer ≠ some b then
    some { m with cache := Function.update m.cache b none }
  else none

/-- The power fails. -/
def crash (m : Machine κ) : Machine κ where
  disk := m.disk
  cache _ := none
  lh := []
  outstanding := 0
  phase := .boot
  op _ := .out

def move [Fintype κ] (L : Area) (m : Machine κ) : Move κ → Option (Machine κ)
  | .begin_op k => m.begin_op k
  | .modify k b data => m.modify k b data
  | .check k => m.check L k
  | .log_write k => m.log_write k
  | .end_op k => m.end_op k
  | .io => m.io L
  | .load b => some (m.loaded b)
  | .evict b => m.evict b
  | .crash => some m.crash

/-- A machine that has panicked can only be switched off. -/
def step [Fintype κ] (L : Area) (m : Machine κ) : Move κ → Option (Machine κ)
  | .crash => some m.crash
  | a => if m.phase = .panicked then none else m.move L a

end Machine

/-- A block that is not in the log, and whose number fits an `uint`. -/
def Area.Home (L : Area) (b : Nat) : Prop :=
  (b < L.start ∨ L.start + L.size ≤ b) ∧ b < 2 ^ 32

/-- A header that a log may have: some blocks outside the log, and room for them. -/
structure HeadOk (L : Area) (targets : List Nat) : Prop where
  nodup : targets.Nodup
  home : ∀ b ∈ targets, L.Home b
  short : targets.length < L.size
  fits : targets.length ≤ LOGSIZE

/-- The header on the disk. -/
def Machine.head (L : Area) (m : Machine κ) : List Nat := getHead (m.disk L.start)

/-- A machine that is switched on, with a log on its disk. -/
structure Boot (L : Area) (m : Machine κ) : Prop where
  cache : ∀ b, m.cache b = none
  lh : m.lh = []
  outstanding : m.outstanding = 0
  phase : m.phase = .boot
  op : ∀ k, m.op k = .out
  head : HeadOk L (m.head L)

/-- What the file system promises: it changes no block of the log, and an operation
changes at most `most` blocks. -/
def WellUsed (L : Area) (most : Nat) (m : Machine κ) : Move κ → Prop
  | .modify k b _ => L.Home b ∧ (b ∈ (m.op k).mine ∨ (m.op k).mine.length < most)
  | _ => True

instance {L : Area} {b : Nat} : Decidable (L.Home b) :=
  inferInstanceAs (Decidable ((b < L.start ∨ L.start + L.size ≤ b) ∧ b < 2 ^ 32))

instance {L : Area} {most : Nat} (m : Machine κ) : ∀ a, Decidable (WellUsed L most m a)
  | .modify k b _ =>
    inferInstanceAs (Decidable (L.Home b ∧ (b ∈ (m.op k).mine ∨ (m.op k).mine.length < most)))
  | .begin_op _ | .check _ | .log_write _ | .end_op _ | .io | .load _ | .evict _ | .crash =>
    .isTrue trivial

/-! ## What the calls do -/

section Calls

namespace Machine

variable [DecidableEq κ] {L : Area} {m m' : Machine κ} {k : κ} {b : Nat} {data : Mem}

theorem begin_op_cases (h : m.begin_op k = some m') : m.op k = .out ∧ m.phase = .running ∧
    m.lh.length + (m.outstanding + 1) * MAXOPBLOCKS ≤ LOGSIZE ∧
    m' = { m.setOp k (.inside []) with outstanding := m.outstanding + 1 } := by
  unfold begin_op at h
  split at h
  next hop =>
    split at h
    next hroom => exact ⟨hop, hroom.1, hroom.2, (Option.some.inj h).symm⟩
    next => cases h
  next => cases h

theorem modify_cases [Fintype κ] (h : m.modify k b data = some m') : ∃ mine,
    m.op k = .inside mine ∧ (∀ j, (m.op j).buffer ≠ some b) ∧
    m' = (m.setBuf b ⟨data, (m.bread b).dirty⟩).setOp k (.modified mine b) := by
  unfold modify at h
  split at h
  next mine hop =>
    split at h
    next hfree => exact ⟨mine, hop, hfree, (Option.some.inj h).symm⟩
    next => cases h
  next => cases h

theorem check_cases (h : m.check L k = some m') : ∃ mine b, m.op k = .modified mine b ∧
    ((LOGSIZE ≤ m.lh.length ∨ (L.size : Int) - 1 ≤ m.lh.length ∨ m.outstanding < 1) ∧
        m' = { m with phase := .panicked } ∨
      m.lh.length < LOGSIZE ∧ m.lh.length + 1 < L.size ∧
        m' = m.setOp k (.checked mine b)) := by
  unfold check at h
  split at h
  next mine b hop =>
    refine ⟨mine, b, hop, ?_⟩
    split at h
    next hfull => exact .inl ⟨hfull, (Option.some.inj h).symm⟩
    next hfull => exact .inr ⟨by omega, by omega, (Option.some.inj h).symm⟩
  next => cases h

theorem log_write_cases (h : m.log_write k = some m') : ∃ mine b,
    m.op k = .checked mine b ∧
    m' = ((m.enter b).setBuf b ⟨(m.bread b).data, true⟩).setOp k
      (.inside (if b ∈ mine then mine else b :: mine)) := by
  unfold log_write at h
  split at h
  next mine b hop => exact ⟨mine, b, hop, (Option.some.inj h).symm⟩
  next => cases h

theorem end_op_cases (h : m.end_op k = some m') : ∃ mine, m.op k = .inside mine ∧
    m' = { m.setOp k .out with
      outstanding := m.outstanding - 1
      phase :=
        if m.phase = .running then
          if m.outstanding - 1 = 0 then
            if m.lh = [] then .finish else .writeLog 0
          else .running
        else .panicked } := by
  unfold end_op at h
  split at h
  next mine hop => exact ⟨mine, hop, (Option.some.inj h).symm⟩
  next => cases h

omit [DecidableEq κ] in
theorem evict_cases [Fintype κ] (h : m.evict b = some m') :
    (m.bread b).dirty = false ∧ (∀ j, (m.op j).buffer ≠ some b) ∧
    m' = { m with cache := Function.update m.cache b none } := by
  unfold evict at h
  split at h
  next hfree => exact ⟨hfree.1, hfree.2, (Option.some.inj h).symm⟩
  next => cases h

theorem step_cases [Fintype κ] {a : Move κ} (h : m.step L a = some m') :
    m.move L a = some m' := by
  cases a with
  | crash => exact h
  | _ =>
      simp only [step] at h
      split at h
      · cases h
      · exact h

end Machine

end Calls

/-- The log and any processes that use it. -/
def machine (L : Area) (κ : Type*) [DecidableEq κ] [Fintype κ] :
    System (Machine κ) (Move κ) where
  init := Boot L
  step m a m' := m.step L a = some m'

end Logging
end Fs
end CS444
