/-
A crash loses whole groups of operations, and the log never panics.

`atomic` says what the log is for: a store that processes write in operations, and a
durable copy of it that a commit, which waits until nobody is in an operation, brings up
to date at once and that a crash falls back to.  `crash_atomic`: the machine of `log.c`
does nothing that this store does not, in whatever order the processes and the disk take
their steps and wherever the power fails, also during a commit or a recovery.

`Sound` is what holds between the disk, the cache and the log in every phase; `Agree`
reads the store off them.  Only one step takes the store to its next durable copy, the
`write_head` of a commit.  With `Spare` they also give `log_never_panics`, the header that
a recovery reads included.
-/
import CS444.Fs.LogSpace

namespace CS444
namespace Fs
namespace Logging

open Bytes RedoLog Runs

/-! ## An atomic store -/

structure Store (κ : Type*) where
  durable : Nat → Mem
  current : Nat → Mem
  active : κ → Bool

inductive Event (κ : Type*) where
  | begin_op (k : κ)
  | write (k : κ) (b : Nat) (data : Mem)
  | end_op (k : κ)
  | crash

variable {κ : Type*}

/-- A step of the store; the one without an event is a commit. -/
inductive Store.Step [DecidableEq κ] (t : Store κ) : Option (Event κ) → Store κ → Prop
  | begin_op {k : κ} : t.active k = false →
      Step t (some (.begin_op k)) { t with active := Function.update t.active k true }
  | write {k : κ} {b : Nat} {data : Mem} : t.active k = true →
      Step t (some (.write k b data)) { t with current := Function.update t.current b data }
  | end_op {k : κ} : t.active k = true →
      Step t (some (.end_op k)) { t with active := Function.update t.active k false }
  | commit : (∀ k, t.active k = false) → Step t none { t with durable := t.current }
  | crash : Step t (some .crash) ⟨t.durable, t.durable, fun _ => false⟩

/-- The store that begins with its durable copy. -/
def atomic (κ : Type*) [DecidableEq κ] : System (Store κ) (Option (Event κ)) where
  init t := t.current = t.durable ∧ ∀ k, t.active k = false
  step t e t' := t.Step e t'

/-- What the store sees of a move. -/
def Move.event : Move κ → Option (Event κ)
  | .begin_op k => some (.begin_op k)
  | .modify k b data => some (.write k b data)
  | .end_op k => some (.end_op k)
  | .crash => some .crash
  | _ => none

/-! ## Blocks and buffers -/

variable {L : Area} {most : Nat} {m m' : Machine κ} {k : κ} {b c : Nat} {data : Mem}
  {targets : List Nat}

theorem Area.Home.ne_start (hb : L.Home b) (hsize : 0 < L.size) : b ≠ L.start := by
  have := hb.1
  omega

theorem Area.Home.ne_slot {i : Nat} (hb : L.Home b) (hi : i + 1 < L.size) : b ≠ L.slot i := by
  have := hb.1
  unfold Area.slot
  omega

theorem Area.slot_inj {i j : Nat} (h : L.slot i = L.slot j) : i = j := by
  unfold Area.slot at h
  omega

theorem Area.slot_ne_start {i : Nat} : L.slot i ≠ L.start := by
  unfold Area.slot
  omega

theorem HeadOk.apart (hok : HeadOk L targets) : Apart L.slot targets := by
  intro i hi hmem
  have := hok.short
  exact (hok.home _ hmem).ne_slot (by omega) rfl

theorem headOk_nil (hsize : 0 < L.size) : HeadOk L [] :=
  ⟨List.nodup_nil, fun _ hb => absurd hb List.not_mem_nil, hsize, Nat.zero_le _⟩

namespace Machine

theorem bread_of_cache {buf : Buf} (h : m.cache b = some buf) : m.bread b = buf := by
  rw [bread, h]
  rfl

theorem bread_of_uncached (h : m.cache b = none) : m.bread b = ⟨m.disk b, false⟩ := by
  rw [bread, h]
  rfl

theorem bread_congr (hcache : m'.cache b = m.cache b) (hdisk : m'.disk b = m.disk b) :
    m'.bread b = m.bread b := by
  rw [bread, bread, hcache, hdisk]

@[simp] theorem bread_setBuf_self {buf : Buf} : (m.setBuf b buf).bread b = buf :=
  bread_of_cache (Function.update_self _ _ _)

theorem bread_setBuf_of_ne {buf : Buf} (hc : c ≠ b) : (m.setBuf b buf).bread c = m.bread c :=
  bread_congr (Function.update_of_ne hc _ _) rfl

@[simp] theorem bread_setOp [DecidableEq κ] {o : Op} : (m.setOp k o).bread c = m.bread c := rfl

@[simp] theorem bread_setLh {lh : List Nat} : (m.setLh lh).bread c = m.bread c := rfl

@[simp] theorem bread_enter : (m.enter b).bread c = m.bread c := rfl

@[simp] theorem bread_loaded : (m.loaded b).bread c = m.bread c := by
  by_cases hc : c = b
  · subst hc
    exact bread_setBuf_self
  · exact bread_setBuf_of_ne hc

@[simp] theorem disk_loaded : (m.loaded b).disk = m.disk := rfl

theorem bread_bwrite_self : (m.bwrite b data).bread b = ⟨data, false⟩ :=
  bread_of_cache (Function.update_self _ _ _)

theorem bread_bwrite_of_ne (hc : c ≠ b) : (m.bwrite b data).bread c = m.bread c :=
  bread_congr (Function.update_of_ne hc _ _) (Function.update_of_ne hc _ _)

theorem disk_bwrite_self : (m.bwrite b data).disk b = data := Function.update_self _ _ _

theorem disk_bwrite_of_ne (hc : c ≠ b) : (m.bwrite b data).disk c = m.disk c :=
  Function.update_of_ne hc _ _

end Machine

/-! ## The invariant -/

namespace Machine

/-- The blocks whose buffers may differ from the disk. -/
def pending (m : Machine κ) : List Nat :=
  match m.phase with
  | .running => m.lh
  | .writeLog _ => m.lh
  | .writeHead => m.lh
  | .install tail => m.lh.drop tail
  | _ => []

/-- The first `n` blocks are in the log. -/
def Stored (L : Area) (m : Machine κ) (n : Nat) : Prop :=
  ∀ i (hi : i < m.lh.length), i < n → m.disk (L.slot i) = (m.bread m.lh[i]).data

/-- The first `n` blocks are where they belong. -/
def Copied (L : Area) (m : Machine κ) (n : Nat) : Prop :=
  ∀ i (hi : i < m.lh.length), i < n → m.disk m.lh[i] = m.disk (L.slot i)

/-- How far the recovery or the commit is. -/
def Progress (L : Area) (m : Machine κ) : Prop :=
  match m.phase with
  | .boot => m.lh = []
  | .replay tail => m.lh = m.head L ∧ m.Copied L tail
  | .reset => m.lh = [] ∧ redo L.slot (m.head L) m.disk = m.disk
  | .running => m.head L = []
  | .writeLog tail => m.head L = [] ∧ m.Stored L tail
  | .writeHead => m.head L = [] ∧ m.Stored L m.lh.length
  | .install tail => m.lh = m.head L ∧ m.Stored L m.lh.length ∧ m.Copied L tail
  | .clear => m.lh = [] ∧ redo L.slot (m.head L) m.disk = m.disk
  | .finish => m.lh = [] ∧ m.head L = []
  | .panicked => True

theorem mem_enter : c ∈ (m.enter b).lh ↔ c ∈ m.lh ∨ c = b := by
  unfold enter
  dsimp only
  split
  next hin => exact ⟨.inl, fun hc => hc.elim id fun heq => heq ▸ hin⟩
  next => rw [List.mem_append, List.mem_singleton]

theorem nodup_enter (hnodup : m.lh.Nodup) : (m.enter b).lh.Nodup := by
  unfold enter
  dsimp only
  split
  next => exact hnodup
  next hnew => exact List.nodup_append_comm.mp (List.nodup_cons.mpr ⟨hnew, hnodup⟩)

theorem pending_running (hphase : m.phase = .running) : m.pending = m.lh := by
  rw [pending, hphase]

theorem progress_running (hphase : m.phase = .running) : m.Progress L = (m.head L = []) := by
  rw [Progress, hphase]

end Machine

/-- What holds between the disk, the cache and the log. -/
structure Sound (L : Area) (m : Machine κ) : Prop where
  head : HeadOk L (m.head L)
  nodup : m.lh.Nodup
  home : ∀ b ∈ m.lh, L.Home b
  held : ∀ k b, (m.op k).buffer = some b → L.Home b
  clean : ∀ b, (m.bread b).dirty = false → (∀ k, (m.op k).buffer ≠ some b) →
    (m.bread b).data = m.disk b
  dirty : ∀ b, (m.bread b).dirty = true → b ∈ m.pending
  progress : m.Progress L

theorem Sound.congr (hsound : Sound L m) (hdisk : m'.disk = m.disk)
    (hbread : ∀ b, m'.bread b = m.bread b) (hlh : m'.lh = m.lh) (hphase : m'.phase = m.phase)
    (hop : m'.op = m.op) : Sound L m' where
  head := by
    unfold Machine.head
    rw [hdisk]
    exact hsound.head
  nodup := hlh ▸ hsound.nodup
  home := hlh ▸ hsound.home
  held := hop ▸ hsound.held
  clean b := by
    rw [hbread, hdisk, hop]
    exact hsound.clean b
  dirty b := by
    unfold Machine.pending
    rw [hbread, hlh, hphase]
    exact hsound.dirty b
  progress := by
    have hprogress := hsound.progress
    unfold Machine.Progress Machine.Stored Machine.Copied Machine.head at hprogress ⊢
    simp only [hphase, hlh, hdisk, hbread]
    exact hprogress

theorem Sound.of_running (hphase : m.phase = .running) (hsize : 0 < L.size)
    (hhead : m.head L = []) (hnodup : m.lh.Nodup) (hhome : ∀ b ∈ m.lh, L.Home b)
    (hheld : ∀ k b, (m.op k).buffer = some b → L.Home b)
    (hclean : ∀ b, (m.bread b).dirty = false → (∀ k, (m.op k).buffer ≠ some b) →
      (m.bread b).data = m.disk b)
    (hdirty : ∀ b, (m.bread b).dirty = true → b ∈ m.lh) : Sound L m where
  head := hhead ▸ headOk_nil hsize
  nodup := hnodup
  home := hhome
  held := hheld
  clean := hclean
  dirty := by rwa [Machine.pending_running hphase]
  progress := by rwa [Machine.progress_running hphase]

theorem Sound.running_dirty (hsound : Sound L m) (hphase : m.phase = .running)
    (hb : (m.bread b).dirty = true) : b ∈ m.lh := by
  rw [← Machine.pending_running hphase]
  exact hsound.dirty b hb

theorem Sound.running_head (hsound : Sound L m) (hphase : m.phase = .running) :
    m.head L = [] := by
  rw [← Machine.progress_running hphase]
  exact hsound.progress

theorem Sound.size_pos (hsound : Sound L m) : 0 < L.size :=
  Nat.zero_lt_of_lt hsound.head.short

/-- A buffer that nobody has changed since it was read or written. -/
theorem Sound.bread_data (hsound : Sound L m) (hb : b ∉ m.pending)
    (hfree : ∀ k, (m.op k).buffer ≠ some b) : (m.bread b).data = m.disk b := by
  apply hsound.clean b _ hfree
  by_contra hdirty
  exact hb (hsound.dirty b (Bool.of_not_eq_false hdirty))

theorem buffer_ne_of_out (hout : ∀ k, m.op k = .out) (b : Nat) (k : κ) :
    (m.op k).buffer ≠ some b := by
  rw [hout k]
  exact fun h => nomatch h

/-- The store that a machine stands for. -/
structure Agree (L : Area) (m : Machine κ) (t : Store κ) : Prop where
  durable : ∀ b, L.Home b → redo L.slot (m.head L) m.disk b = t.durable b
  current : m.phase.up = true → ∀ b, L.Home b → (m.bread b).data = t.current b
  down : m.phase.up = false → t.current = t.durable
  active : ∀ k, t.active k = true ↔ m.op k ≠ .out

/-! ## The processes -/

section Processes

variable [DecidableEq κ] {t : Store κ} {o : Op}

theorem buffer_setOp_none {j : κ} (ho : o.buffer = none)
    (h : ((m.setOp k o).op j).buffer = some b) : (m.op j).buffer = some b := by
  change (Function.update m.op k o j).buffer = some b at h
  by_cases hj : j = k
  · rw [hj, Function.update_self, ho] at h
    cases h
  · rwa [Function.update_of_ne hj] at h

theorem active_setOp {active : κ → Bool} {up : Bool}
    (hactive : ∀ k, active k = true ↔ m.op k ≠ .out) (hup : up = true ↔ o ≠ .out) (j : κ) :
    Function.update active k up j = true ↔ Function.update m.op k o j ≠ .out := by
  by_cases hj : j = k
  · rw [hj, Function.update_self, Function.update_self]
    exact hup
  · rw [Function.update_of_ne hj, Function.update_of_ne hj]
    exact hactive j

theorem active_setOp_same {active : κ → Bool} (hactive : ∀ k, active k = true ↔ m.op k ≠ .out)
    (hin : m.op k ≠ .out) (ho : o ≠ .out) (j : κ) :
    active j = true ↔ Function.update m.op k o j ≠ .out := by
  have hself : Function.update active k true = active :=
    Function.update_eq_iff.mpr ⟨((hactive k).mpr hin).symm, fun _ _ => rfl⟩
  have hup : true = true ↔ o ≠ .out := iff_of_true rfl ho
  rw [← active_setOp (k := k) hactive hup j, hself]

theorem sound_begin_op (hsound : Sound L m) (h : m.begin_op k = some m') : Sound L m' := by
  obtain ⟨hout, hphase, -, rfl⟩ := Machine.begin_op_cases h
  refine ⟨hsound.head, hsound.nodup, hsound.home,
    fun j c hj => hsound.held j c (buffer_setOp_none rfl hj),
    fun c hc hfree => hsound.clean c hc fun j hj => ?_, hsound.dirty, hsound.progress⟩
  · apply hfree j
    show (Function.update m.op k (.inside []) j).buffer = some c
    have hjk : j ≠ k := fun heq => by
      rw [heq, hout] at hj
      cases hj
    rwa [Function.update_of_ne hjk]

theorem agree_begin_op (hagree : Agree L m t) (h : m.begin_op k = some m') :
    ∃ t', t.Step (some (.begin_op k)) t' ∧ Agree L m' t' := by
  obtain ⟨hout, hphase, -, rfl⟩ := Machine.begin_op_cases h
  refine ⟨_, .begin_op ?_, hagree.durable, hagree.current, hagree.down,
    active_setOp hagree.active (iff_of_true rfl Op.noConfusion)⟩
  rw [← Bool.not_eq_true, hagree.active k]
  exact fun hne => hne hout

theorem sound_modify [Fintype κ] (hsound : Sound L m) (hphase : m.phase = .running)
    (h : m.modify k b data = some m') (hhome : L.Home b) : Sound L m' := by
  obtain ⟨mine, hop, -, rfl⟩ := Machine.modify_cases h
  refine .of_running hphase hsound.size_pos (hsound.running_head hphase) hsound.nodup hsound.home
    (fun j c hj => ?_) (fun c hc hfree => ?_) fun c hc => ?_
  · change (Function.update m.op k (.modified mine b) j).buffer = some c at hj
    by_cases hjk : j = k
    · rw [hjk, Function.update_self] at hj
      obtain rfl := Option.some.inj hj
      exact hhome
    · rw [Function.update_of_ne hjk] at hj
      exact hsound.held j c hj
  · have hcb : c ≠ b := by
      rintro rfl
      apply hfree k
      show (Function.update m.op k (.modified mine c) k).buffer = some c
      rw [Function.update_self]
      rfl
    rw [Machine.bread_setOp, Machine.bread_setBuf_of_ne hcb] at hc ⊢
    refine hsound.clean c hc fun j hj => hfree j ?_
    show (Function.update m.op k (.modified mine b) j).buffer = some c
    have hjk : j ≠ k := fun heq => by
      rw [heq, hop] at hj
      cases hj
    rwa [Function.update_of_ne hjk]
  · apply hsound.running_dirty hphase
    by_cases hcb : c = b
    · subst hcb
      rwa [Machine.bread_setOp, Machine.bread_setBuf_self] at hc
    · rwa [Machine.bread_setOp, Machine.bread_setBuf_of_ne hcb] at hc

theorem agree_modify [Fintype κ] (hagree : Agree L m t) (hphase : m.phase = .running)
    (h : m.modify k b data = some m') :
    ∃ t', t.Step (some (.write k b data)) t' ∧ Agree L m' t' := by
  obtain ⟨mine, hop, -, rfl⟩ := Machine.modify_cases h
  have hin : m.op k ≠ .out := by
    rw [hop]
    exact Op.noConfusion
  refine ⟨_, .write ((hagree.active k).mpr hin), hagree.durable, fun hup c hc => ?_,
    fun hdown => ?_, active_setOp_same hagree.active hin Op.noConfusion⟩
  · show _ = Function.update t.current b data c
    by_cases hcb : c = b
    · subst hcb
      rw [Function.update_self, Machine.bread_setOp, Machine.bread_setBuf_self]
    · rw [Function.update_of_ne hcb, ← hagree.current hup c hc, Machine.bread_setOp,
        Machine.bread_setBuf_of_ne hcb]
  · change m.phase.up = false at hdown
    rw [hphase] at hdown
    cases hdown

/-- A process goes on with the buffer it holds, if it holds one. -/
theorem sound_setOp (hsound : Sound L m) (hbuffer : o.buffer = (m.op k).buffer) :
    Sound L (m.setOp k o) := by
  have hsame : ∀ j, ((m.setOp k o).op j).buffer = (m.op j).buffer := by
    intro j
    show (Function.update m.op k o j).buffer = (m.op j).buffer
    by_cases hj : j = k
    · rw [hj, Function.update_self, hbuffer]
    · rw [Function.update_of_ne hj]
  refine ⟨hsound.head, hsound.nodup, hsound.home, fun j c hj => ?_, fun c hc hfree => ?_,
    hsound.dirty, hsound.progress⟩
  · exact hsound.held j c (hsame j ▸ hj)
  · exact hsound.clean c hc fun j => hsame j ▸ hfree j

theorem agree_setOp (hagree : Agree L m t) (hin : m.op k ≠ .out) (ho : o ≠ .out) :
    Agree L (m.setOp k o) t :=
  ⟨hagree.durable, hagree.current, hagree.down, active_setOp_same hagree.active hin ho⟩

/-- `log_write` marks the buffer and enters its block. -/
theorem sound_log_write (hsound : Sound L m) (hphase : m.phase = .running)
    (h : m.log_write k = some m') : Sound L m' := by
  obtain ⟨mine, b, hop, rfl⟩ := Machine.log_write_cases h
  have hhome : L.Home b := hsound.held k b (by rw [hop]; rfl)
  refine .of_running hphase hsound.size_pos (hsound.running_head hphase) ?_ (fun c hc => ?_)
    (fun j c hj => hsound.held j c (buffer_setOp_none rfl hj)) (fun c hc hfree => ?_) fun c hc => ?_
  · show (m.enter b).lh.Nodup
    exact Machine.nodup_enter hsound.nodup
  · obtain hin | rfl := Machine.mem_enter.mp hc
    · exact hsound.home c hin
    · exact hhome
  · have hcb : c ≠ b := by
      rintro rfl
      rw [Machine.bread_setOp, Machine.bread_setBuf_self] at hc
      cases hc
    rw [Machine.bread_setOp, Machine.bread_setBuf_of_ne hcb] at hc ⊢
    refine hsound.clean c hc fun j hj => hfree j ?_
    show (Function.update m.op k _ j).buffer = some c
    have hjk : j ≠ k := fun heq => by
      rw [heq, hop] at hj
      exact hcb (Option.some.inj hj).symm
    rwa [Function.update_of_ne hjk]
  · apply Machine.mem_enter.mpr
    by_cases hcb : c = b
    · exact .inr hcb
    · rw [Machine.bread_setOp, Machine.bread_setBuf_of_ne hcb] at hc
      exact .inl (hsound.running_dirty hphase hc)

theorem agree_log_write (hagree : Agree L m t) (h : m.log_write k = some m') :
    Agree L m' t := by
  obtain ⟨mine, b, hop, rfl⟩ := Machine.log_write_cases h
  have hin : m.op k ≠ .out := by
    rw [hop]
    exact Op.noConfusion
  refine ⟨hagree.durable, fun hup c hc => ?_, hagree.down,
    active_setOp_same hagree.active hin Op.noConfusion⟩
  rw [← hagree.current hup c hc, Machine.bread_setOp]
  by_cases hcb : c = b
  · subst hcb
    rw [Machine.bread_setBuf_self]
  · rw [Machine.bread_setBuf_of_ne hcb, Machine.bread_enter]

theorem sound_end_op (hsound : Sound L m) (hphase : m.phase = .running)
    (h : m.end_op k = some m') : Sound L m' := by
  obtain ⟨mine, hop, rfl⟩ := Machine.end_op_cases h
  have hset : Sound L (m.setOp k .out) := sound_setOp hsound (by rw [hop]; rfl)
  have hhead := hsound.running_head hphase
  rw [if_pos hphase]
  by_cases hlast : m.outstanding - 1 = 0
  · rw [if_pos hlast]
    by_cases hlh : m.lh = []
    · rw [if_pos hlh]
      refine ⟨hset.head, hset.nodup, hset.home, hset.held, hset.clean, fun c hc => ?_,
        hlh, hhead⟩
      have hmem := hsound.running_dirty hphase hc
      rw [hlh] at hmem
      exact absurd hmem List.not_mem_nil
    · rw [if_neg hlh]
      exact ⟨hset.head, hset.nodup, hset.home, hset.held, hset.clean,
        fun c hc => hsound.running_dirty hphase hc, hhead,
        fun _ _ hi => absurd hi (Nat.not_lt_zero _)⟩
  · rw [if_neg hlast]
    exact .of_running rfl hsound.size_pos hhead hset.nodup hset.home hset.held hset.clean
      fun c hc => hsound.running_dirty hphase hc

theorem agree_end_op (hagree : Agree L m t) (hphase : m.phase = .running)
    (h : m.end_op k = some m') : ∃ t', t.Step (some (.end_op k)) t' ∧ Agree L m' t' := by
  obtain ⟨mine, hop, rfl⟩ := Machine.end_op_cases h
  have hin : m.op k ≠ .out := by
    rw [hop]
    exact Op.noConfusion
  have hup : m.phase.up = true := by rw [hphase]; rfl
  refine ⟨_, .end_op ((hagree.active k).mpr hin), hagree.durable, fun _ => hagree.current hup,
    fun hdown => ?_, active_setOp hagree.active (iff_of_false Bool.noConfusion fun h => h rfl)⟩
  rw [if_pos hphase] at hdown
  split at hdown
  · split at hdown
    · cases hdown
    · cases hdown
  · cases hdown

end Processes

/-! ## The cache and the power -/

theorem sound_loaded (hsound : Sound L m) : Sound L (m.loaded b) :=
  hsound.congr rfl (fun _ => Machine.bread_loaded) rfl rfl rfl

theorem agree_congr {t : Store κ} (hagree : Agree L m t) (hdisk : m'.disk = m.disk)
    (hbread : ∀ b, m'.bread b = m.bread b) (hphase : m'.phase = m.phase)
    (hop : m'.op = m.op) : Agree L m' t where
  durable := by
    unfold Machine.head
    rw [hdisk]
    exact hagree.durable
  current := by
    simp only [hphase, hbread]
    exact hagree.current
  down := by
    rw [hphase]
    exact hagree.down
  active := hop ▸ hagree.active

/-- A buffer that may be recycled holds what is on the disk. -/
theorem bread_evicted (hsound : Sound L m) (hclean : (m.bread b).dirty = false)
    (hfree : ∀ k, (m.op k).buffer ≠ some b) (c : Nat) :
    Machine.bread { m with cache := Function.update m.cache b none } c = m.bread c := by
  by_cases hc : c = b
  · subst hc
    have hdata := hsound.clean c hclean hfree
    rw [Machine.bread_of_uncached (Function.update_self _ _ _)]
    show Buf.mk (m.disk c) false = m.bread c
    rw [← hdata, ← hclean]
  · exact Machine.bread_congr (Function.update_of_ne hc _ _) rfl

theorem sound_crash (hsound : Sound L m) : Sound L m.crash where
  head := hsound.head
  nodup := List.nodup_nil
  home _ hb := absurd hb List.not_mem_nil
  held _ _ hb := nomatch hb
  clean _ _ _ := rfl
  dirty _ hb := nomatch hb
  progress := rfl

theorem agree_crash [DecidableEq κ] {t : Store κ} (hagree : Agree L m t) :
    ∃ t', t.Step (some .crash) t' ∧ Agree L m.crash t' := by
  refine ⟨_, .crash, hagree.durable, Bool.noConfusion, fun _ => rfl, fun k => ?_⟩
  exact iff_of_false Bool.noConfusion fun h => h rfl

/-! ## The recovery and the commit -/

section Io

/-- A machine in which no process is in an operation. -/
theorem sound_goto {p : Phase} (hout : ∀ k, m.op k = .out) (hhead : HeadOk L (m.head L))
    (hnodup : m.lh.Nodup) (hhome : ∀ b ∈ m.lh, L.Home b)
    (hclean : ∀ b, (m.bread b).dirty = false → (m.bread b).data = m.disk b)
    (hdirty : ∀ b, (m.bread b).dirty = true → b ∈ (m.goto p).pending)
    (hprogress : (m.goto p).Progress L) : Sound L (m.goto p) where
  head := hhead
  nodup := hnodup
  home := hhome
  held k b hb := absurd hb (buffer_ne_of_out hout b k)
  clean b hb _ := hclean b hb
  dirty := hdirty
  progress := hprogress

theorem Sound.idle_clean (hsound : Sound L m) (hout : ∀ k, m.op k = .out) (b : Nat)
    (hb : (m.bread b).dirty = false) : (m.bread b).data = m.disk b :=
  hsound.clean b hb (buffer_ne_of_out hout b)

theorem mem_lh_of_pending (hb : b ∈ m.pending) : b ∈ m.lh := by
  unfold Machine.pending at hb
  split at hb
  · exact hb
  · exact hb
  · exact hb
  · exact List.mem_of_mem_drop hb
  · exact absurd hb List.not_mem_nil

theorem Sound.not_dirty (hsound : Sound L m) (hpending : m.pending = []) (b : Nat) :
    (m.bread b).dirty ≠ true := by
  intro hdirty
  have hmem := hsound.dirty b hdirty
  rw [hpending] at hmem
  exact List.not_mem_nil hmem

/-- A block of the log is as the disk has it. -/
theorem Sound.bread_log (hsound : Sound L m) (hout : ∀ k, m.op k = .out) (hb : ¬L.Home b) :
    (m.bread b).data = m.disk b :=
  hsound.bread_data (fun hmem => hb (hsound.home b (mem_lh_of_pending hmem)))
    (buffer_ne_of_out hout b)

theorem not_home_start (hsize : 0 < L.size) : ¬L.Home L.start :=
  fun h => h.ne_start hsize rfl

theorem not_home_slot {i : Nat} (hi : i + 1 < L.size) : ¬L.Home (L.slot i) :=
  fun h => h.ne_slot hi rfl

theorem clean_bwrite (hclean : ∀ c, (m.bread c).dirty = false → (m.bread c).data = m.disk c)
    (c : Nat) (hc : ((m.bwrite b data).bread c).dirty = false) :
    ((m.bwrite b data).bread c).data = (m.bwrite b data).disk c := by
  by_cases hcb : c = b
  · subst hcb
    rw [Machine.bread_bwrite_self, Machine.disk_bwrite_self]
  · rw [Machine.bread_bwrite_of_ne hcb] at hc ⊢
    rw [Machine.disk_bwrite_of_ne hcb]
    exact hclean c hc

theorem dirty_bwrite (hc : ((m.bwrite b data).bread c).dirty = true) :
    c ≠ b ∧ (m.bread c).dirty = true := by
  have hcb : c ≠ b := by
    rintro rfl
    rw [Machine.bread_bwrite_self] at hc
    cases hc
  rw [Machine.bread_bwrite_of_ne hcb] at hc
  exact ⟨hcb, hc⟩

theorem head_bwrite (hb : b ≠ L.start) : (m.bwrite b data).head L = m.head L := by
  unfold Machine.head
  rw [Machine.disk_bwrite_of_ne hb.symm]

theorem head_write_head (hlen : m.lh.length ≤ LOGSIZE) (hhome : ∀ b ∈ m.lh, L.Home b) :
    (m.write_head L).head L = m.lh := by
  unfold Machine.head Machine.write_head
  rw [Machine.disk_bwrite_self]
  exact getHead_putHead hlen fun b hb => (hhome b hb).2

/-! ### A turn of `install_trans` -/

section Install

variable {tail : Nat}

theorem install_eq (hslot : (m.bread (L.slot tail)).data = m.disk (L.slot tail)) :
    m.install L tail b = (m.loaded (L.slot tail)).bwrite b (m.disk (L.slot tail)) := by
  rw [Machine.install, hslot]

/-- What a turn does, the block number `tail` being the one whose turn it is. -/
structure Installed (L : Area) (m m' : Machine κ) (tail : Nat) (ht : tail < m.lh.length) :
    Prop where
  disk : m'.disk = Function.update m.disk m.lh[tail] (m.disk (L.slot tail))
  self : m'.bread m.lh[tail] = ⟨m.disk (L.slot tail), false⟩
  other : ∀ c, c ≠ m.lh[tail] → m'.bread c = m.bread c
  head : m'.head L = m.head L
  lh : m'.lh = m.lh
  op : m'.op = m.op

theorem installed (hsound : Sound L m) (hout : ∀ k, m.op k = .out) (hok : HeadOk L m.lh)
    (ht : tail < m.lh.length) : Installed L m (m.install L tail m.lh[tail]) tail ht := by
  have hshort := hok.short
  have hne := (hok.home _ (List.getElem_mem ht)).ne_start hsound.size_pos
  rw [install_eq (hsound.bread_log hout (not_home_slot (by omega)))]
  refine ⟨rfl, Machine.bread_bwrite_self, fun c hc => ?_, head_bwrite hne, rfl, rfl⟩
  rw [Machine.bread_bwrite_of_ne hc, Machine.bread_loaded]

variable {ht : tail < m.lh.length}

theorem Installed.clean (hinst : Installed L m m' tail ht) (hsound : Sound L m)
    (hout : ∀ k, m.op k = .out) (c : Nat) (hc : (m'.bread c).dirty = false) :
    (m'.bread c).data = m'.disk c := by
  rw [hinst.disk]
  by_cases hct : c = m.lh[tail]
  · subst hct
    rw [hinst.self, Function.update_self]
  · rw [hinst.other c hct] at hc ⊢
    rw [Function.update_of_ne hct]
    exact hsound.idle_clean hout c hc

theorem Installed.dirty (hinst : Installed L m m' tail ht) (hc : (m'.bread c).dirty = true) :
    c ≠ m.lh[tail] ∧ (m.bread c).dirty = true := by
  have hct : c ≠ m.lh[tail] := by
    rintro rfl
    rw [hinst.self] at hc
    cases hc
  rw [hinst.other c hct] at hc
  exact ⟨hct, hc⟩

theorem Installed.copied (hinst : Installed L m m' tail ht) (hok : HeadOk L m.lh)
    (hcopied : m.Copied L tail) : m'.Copied L (tail + 1) := by
  intro i hi hit
  simp only [hinst.lh] at hi ⊢
  rw [hinst.disk]
  exact copied_next hok.nodup hok.apart ht hcopied i hi hit

theorem Installed.stored (hinst : Installed L m m' tail ht) (hok : HeadOk L m.lh)
    (hstored : m.Stored L m.lh.length) : m'.Stored L m'.lh.length := by
  intro i hi _
  simp only [hinst.lh] at hi ⊢
  have hne : L.slot i ≠ m.lh[tail] := by
    have := hok.short
    exact ((hok.home _ (List.getElem_mem ht)).ne_slot (by omega)).symm
  rw [hinst.disk, Function.update_of_ne hne]
  by_cases hit : i = tail
  · subst hit
    rw [hinst.self]
  · rw [hinst.other _ fun h => hit (hok.nodup.getElem_inj_iff.mp h)]
    exact hstored i hi hi

end Install

/-! ### The recovery -/

theorem sound_read_head (hsound : Sound L m) (hphase : m.phase = .boot)
    (hout : ∀ k, m.op k = .out) : Sound L ((m.read_head L).goto (.replay 0)) := by
  have hhead : (m.read_head L).lh = m.head L := by
    show getHead (m.bread L.start).data = getHead (m.disk L.start)
    rw [hsound.bread_log hout (not_home_start hsound.size_pos)]
  have hbread : ∀ c, (m.read_head L).bread c = m.bread c := by
    intro c
    rw [Machine.read_head, Machine.bread_setLh, Machine.bread_loaded]
  have hpending : m.pending = [] := by rw [Machine.pending, hphase]
  refine sound_goto hout hsound.head ?_ ?_ ?_ ?_ ?_
  · rw [hhead]
    exact hsound.head.nodup
  · rw [hhead]
    exact hsound.head.home
  · intro c hc
    rw [hbread] at hc ⊢
    exact hsound.idle_clean hout c hc
  · intro c hc
    rw [hbread] at hc
    exact absurd hc (hsound.not_dirty hpending c)
  · exact ⟨hhead, fun _ _ hi => absurd hi (Nat.not_lt_zero _)⟩

theorem sound_replay {tail : Nat} (hsound : Sound L m) (hphase : m.phase = .replay tail)
    (hout : ∀ k, m.op k = .out) (ht : tail < m.lh.length) :
    Sound L ((m.install L tail m.lh[tail]).goto (.replay (tail + 1))) := by
  have hprogress := hsound.progress
  rw [Machine.Progress, hphase] at hprogress
  obtain ⟨hlh, hcopied⟩ := hprogress
  have hok : HeadOk L m.lh := hlh ▸ hsound.head
  have hinst := installed hsound hout hok ht
  have hpending : m.pending = [] := by rw [Machine.pending, hphase]
  refine sound_goto hout (hinst.head ▸ hsound.head) hsound.nodup hsound.home
    (hinst.clean hsound hout) ?_ ?_
  · intro c hc
    exact absurd (hinst.dirty hc).2 (hsound.not_dirty hpending c)
  · exact ⟨hlh.trans hinst.head.symm, hinst.copied hok hcopied⟩

theorem sound_replay_end {tail : Nat} (hsound : Sound L m) (hphase : m.phase = .replay tail)
    (hout : ∀ k, m.op k = .out) (ht : m.lh.length ≤ tail) : Sound L ((m.setLh []).goto .reset) := by
  have hprogress := hsound.progress
  rw [Machine.Progress, hphase] at hprogress
  obtain ⟨hlh, hcopied⟩ := hprogress
  have hpending : m.pending = [] := by rw [Machine.pending, hphase]
  refine sound_goto hout hsound.head List.nodup_nil (fun c hc => absurd hc List.not_mem_nil)
    (hsound.idle_clean hout) (fun c hc => absurd hc (hsound.not_dirty hpending c)) ⟨rfl, ?_⟩
  show redo L.slot (m.head L) m.disk = m.disk
  rw [← hlh]
  exact redo_done hsound.nodup fun i hi => hcopied i hi (by omega)

/-- The header is written with nothing in it. -/
theorem sound_erase {p : Phase} (hsound : Sound L m) (hpending : m.pending = [])
    (hout : ∀ k, m.op k = .out) (hlh : m.lh = []) (hp : p = .running ∨ p = .finish) :
    Sound L ((m.write_head L).goto p) := by
  have hfits : m.lh.length ≤ LOGSIZE := by
    rw [hlh]
    exact Nat.zero_le _
  have hhead : (m.write_head L).head L = [] := (head_write_head hfits hsound.home).trans hlh
  refine sound_goto hout (hhead ▸ headOk_nil hsound.size_pos) hsound.nodup hsound.home
    (clean_bwrite (hsound.idle_clean hout)) ?_ ?_
  · intro c hc
    exact absurd (dirty_bwrite hc).2 (hsound.not_dirty hpending c)
  · obtain rfl | rfl := hp
    · exact hhead
    · exact ⟨hlh, hhead⟩

/-! ### The commit -/

theorem sound_write_log {tail : Nat} (hsound : Sound L m) (hphase : m.phase = .writeLog tail)
    (hout : ∀ k, m.op k = .out) (hok : HeadOk L m.lh) (ht : tail < m.lh.length) :
    Sound L ((m.write_log L tail m.lh[tail]).goto (.writeLog (tail + 1))) := by
  have hprogress := hsound.progress
  rw [Machine.Progress, hphase] at hprogress
  obtain ⟨hnil, hstored⟩ := hprogress
  have hshort := hok.short
  have hload : Sound L (m.loaded m.lh[tail]) := sound_loaded hsound
  have hhead : (m.write_log L tail m.lh[tail]).head L = m.head L :=
    head_bwrite (m := m.loaded m.lh[tail]) Area.slot_ne_start
  refine sound_goto hout (hhead ▸ hsound.head) hsound.nodup hsound.home
    (clean_bwrite (hload.idle_clean hout)) ?_ ?_
  · intro c hc
    show c ∈ (m.loaded m.lh[tail]).lh
    exact mem_lh_of_pending (hload.dirty c (dirty_bwrite hc).2)
  · refine ⟨hhead.trans hnil, fun i hi hit => ?_⟩
    change i < m.lh.length at hi
    show (m.write_log L tail m.lh[tail]).disk (L.slot i) =
      ((m.write_log L tail m.lh[tail]).bread m.lh[i]).data
    have hne : m.lh[i] ≠ L.slot tail := (hok.home _ (List.getElem_mem hi)).ne_slot (by omega)
    unfold Machine.write_log
    rw [Machine.bread_bwrite_of_ne hne, Machine.bread_loaded]
    by_cases heq : i = tail
    · subst heq
      exact Machine.disk_bwrite_self
    · rw [Machine.disk_bwrite_of_ne fun h => heq (Area.slot_inj h)]
      exact hstored i hi (by omega)

theorem sound_write_log_end {tail : Nat} (hsound : Sound L m) (hphase : m.phase = .writeLog tail)
    (hout : ∀ k, m.op k = .out) (ht : m.lh.length ≤ tail) : Sound L (m.goto .writeHead) := by
  have hprogress := hsound.progress
  rw [Machine.Progress, hphase] at hprogress
  obtain ⟨hnil, hstored⟩ := hprogress
  refine sound_goto hout hsound.head hsound.nodup hsound.home (hsound.idle_clean hout) ?_ ?_
  · intro c hc
    show c ∈ m.lh
    exact mem_lh_of_pending (hsound.dirty c hc)
  · refine ⟨hnil, fun i hi _ => hstored i hi ?_⟩
    change i < m.lh.length at hi
    omega

/-- The real commit. -/
theorem sound_write_head (hsound : Sound L m) (hphase : m.phase = .writeHead)
    (hout : ∀ k, m.op k = .out) (hok : HeadOk L m.lh) :
    Sound L ((m.write_head L).goto (.install 0)) := by
  have hprogress := hsound.progress
  rw [Machine.Progress, hphase] at hprogress
  obtain ⟨-, hstored⟩ := hprogress
  have hhead : (m.write_head L).head L = m.lh := head_write_head hok.fits hsound.home
  refine sound_goto hout (hhead.symm ▸ hok) hsound.nodup hsound.home
    (clean_bwrite (hsound.idle_clean hout)) ?_ ?_
  · intro c hc
    show c ∈ m.lh
    exact mem_lh_of_pending (hsound.dirty c (dirty_bwrite hc).2)
  · refine ⟨hhead.symm, fun i hi hit => ?_, fun _ _ hi => absurd hi (Nat.not_lt_zero _)⟩
    change i < m.lh.length at hi
    show (m.write_head L).disk (L.slot i) = ((m.write_head L).bread m.lh[i]).data
    have hne := (hok.home _ (List.getElem_mem hi)).ne_start hsound.size_pos
    unfold Machine.write_head
    rw [Machine.disk_bwrite_of_ne Area.slot_ne_start, Machine.bread_bwrite_of_ne hne]
    exact hstored i hi hi

theorem sound_install {tail : Nat} (hsound : Sound L m) (hphase : m.phase = .install tail)
    (hout : ∀ k, m.op k = .out) (ht : tail < m.lh.length) :
    Sound L ((m.install L tail m.lh[tail]).goto (.install (tail + 1))) := by
  have hprogress := hsound.progress
  have hdirty := hsound.dirty
  rw [Machine.Progress, hphase] at hprogress
  rw [Machine.pending, hphase] at hdirty
  obtain ⟨hlh, hstored, hcopied⟩ := hprogress
  have hok : HeadOk L m.lh := hlh ▸ hsound.head
  have hinst := installed hsound hout hok ht
  refine sound_goto hout (hinst.head ▸ hsound.head) hsound.nodup hsound.home
    (hinst.clean hsound hout) ?_ ?_
  · intro c hc
    obtain ⟨hne, hc⟩ := hinst.dirty hc
    have hmem : c ∈ m.lh.drop tail := hdirty c hc
    rw [List.drop_eq_getElem_cons ht] at hmem
    exact (List.mem_cons.mp hmem).resolve_left hne
  · exact ⟨hlh.trans hinst.head.symm, hinst.stored hok hstored, hinst.copied hok hcopied⟩

theorem sound_install_end {tail : Nat} (hsound : Sound L m) (hphase : m.phase = .install tail)
    (hout : ∀ k, m.op k = .out) (ht : m.lh.length ≤ tail) : Sound L ((m.setLh []).goto .clear) := by
  have hprogress := hsound.progress
  rw [Machine.Progress, hphase] at hprogress
  obtain ⟨hlh, hstored, hcopied⟩ := hprogress
  have hpending : m.pending = [] := by
    rw [Machine.pending, hphase]
    exact List.drop_of_length_le ht
  refine sound_goto hout hsound.head List.nodup_nil (fun c hc => absurd hc List.not_mem_nil)
    (hsound.idle_clean hout) (fun c hc => absurd hc (hsound.not_dirty hpending c)) ⟨rfl, ?_⟩
  show redo L.slot (m.head L) m.disk = m.disk
  rw [← hlh]
  exact redo_done hsound.nodup fun i hi => hcopied i hi (by omega)

theorem sound_finish (hsound : Sound L m) (hphase : m.phase = .finish)
    (hout : ∀ k, m.op k = .out) : Sound L (m.goto .running) := by
  have hprogress := hsound.progress
  rw [Machine.Progress, hphase] at hprogress
  have hpending : m.pending = [] := by rw [Machine.pending, hphase]
  exact sound_goto hout hsound.head hsound.nodup hsound.home (hsound.idle_clean hout)
    (fun c hc => absurd hc (hsound.not_dirty hpending c)) hprogress.2

/-! ### What the store sees of it -/

variable {t : Store κ}

theorem Installed.redone {tail : Nat} {ht : tail < m.lh.length} (hinst : Installed L m m' tail ht)
    (hok : HeadOk L m.lh) (hlh : m.lh = m.head L) :
    redo L.slot (m'.head L) m'.disk = redo L.slot (m.head L) m.disk := by
  rw [hinst.head, hinst.disk, ← hlh]
  exact redo_update hok.apart (List.getElem_mem ht)

theorem agree_replay {tail : Nat} (hagree : Agree L m t) (hsound : Sound L m)
    (hphase : m.phase = .replay tail) (hout : ∀ k, m.op k = .out) (ht : tail < m.lh.length) :
    Agree L ((m.install L tail m.lh[tail]).goto (.replay (tail + 1))) t := by
  have hprogress := hsound.progress
  rw [Machine.Progress, hphase] at hprogress
  have hok : HeadOk L m.lh := hprogress.1 ▸ hsound.head
  have hinst := installed hsound hout hok ht
  refine ⟨fun b hb => ?_, Bool.noConfusion, fun _ => hagree.down (by rw [hphase]; rfl),
    hagree.active⟩
  show redo L.slot ((m.install L tail m.lh[tail]).head L) (m.install L tail m.lh[tail]).disk b = _
  rw [hinst.redone hok hprogress.1]
  exact hagree.durable b hb

theorem agree_install {tail : Nat} (hagree : Agree L m t) (hsound : Sound L m)
    (hphase : m.phase = .install tail) (hout : ∀ k, m.op k = .out) (ht : tail < m.lh.length) :
    Agree L ((m.install L tail m.lh[tail]).goto (.install (tail + 1))) t := by
  have hprogress := hsound.progress
  rw [Machine.Progress, hphase] at hprogress
  obtain ⟨hlh, hstored, -⟩ := hprogress
  have hok : HeadOk L m.lh := hlh ▸ hsound.head
  have hinst := installed hsound hout hok ht
  have hcurrent := hagree.current (by rw [hphase]; rfl)
  refine ⟨fun b hb => ?_, fun _ b hb => ?_, Bool.noConfusion, hagree.active⟩
  · show redo L.slot ((m.install L tail m.lh[tail]).head L)
      (m.install L tail m.lh[tail]).disk b = _
    rw [hinst.redone hok hlh]
    exact hagree.durable b hb
  · show ((m.install L tail m.lh[tail]).bread b).data = t.current b
    rw [← hcurrent b hb]
    by_cases hbt : b = m.lh[tail]
    · subst hbt
      rw [hinst.self]
      exact hstored tail ht ht
    · rw [hinst.other b hbt]

theorem agree_write_log {tail : Nat} (hagree : Agree L m t) (hsound : Sound L m)
    (hphase : m.phase = .writeLog tail) (hok : HeadOk L m.lh) (ht : tail < m.lh.length) :
    Agree L ((m.write_log L tail m.lh[tail]).goto (.writeLog (tail + 1))) t := by
  have hprogress := hsound.progress
  rw [Machine.Progress, hphase] at hprogress
  have hshort := hok.short
  have hhead : (m.write_log L tail m.lh[tail]).head L = m.head L :=
    head_bwrite (m := m.loaded m.lh[tail]) Area.slot_ne_start
  refine ⟨fun b hb => ?_, fun _ b hb => ?_, Bool.noConfusion, hagree.active⟩
  · show redo L.slot ((m.write_log L tail m.lh[tail]).head L)
      (m.write_log L tail m.lh[tail]).disk b = _
    rw [← hagree.durable b hb, hhead, hprogress.1, redo_nil, redo_nil]
    exact Machine.disk_bwrite_of_ne (hb.ne_slot (by omega))
  · show ((m.write_log L tail m.lh[tail]).bread b).data = t.current b
    rw [← hagree.current (by rw [hphase]; rfl) b hb, Machine.write_log,
      Machine.bread_bwrite_of_ne (hb.ne_slot (by omega)), Machine.bread_loaded]

/-- The step that commits. -/
theorem agree_write_head [DecidableEq κ] (hagree : Agree L m t) (hsound : Sound L m)
    (hphase : m.phase = .writeHead) (hout : ∀ k, m.op k = .out) (hok : HeadOk L m.lh) :
    ∃ t', t.Step none t' ∧ Agree L ((m.write_head L).goto (.install 0)) t' := by
  have hprogress := hsound.progress
  rw [Machine.Progress, hphase] at hprogress
  obtain ⟨-, hstored⟩ := hprogress
  have hcurrent := hagree.current (by rw [hphase]; rfl)
  have hhead : (m.write_head L).head L = m.lh := head_write_head hok.fits hsound.home
  have hidle : ∀ k, t.active k = false := by
    intro k
    rw [← Bool.not_eq_true, hagree.active k]
    exact fun hne => hne (hout k)
  refine ⟨_, .commit hidle, fun b hb => ?_, fun _ b hb => ?_, Bool.noConfusion, hagree.active⟩
  · show redo L.slot ((m.write_head L).head L) (m.write_head L).disk b = t.current b
    rw [hhead, ← hcurrent b hb]
    have hne := hb.ne_start hsound.size_pos
    by_cases hmem : b ∈ m.lh
    · obtain ⟨i, hi, rfl⟩ := List.mem_iff_getElem.mp hmem
      rw [redo_getElem hok.nodup hi]
      exact (Machine.disk_bwrite_of_ne Area.slot_ne_start).trans (hstored i hi hi)
    · rw [redo_of_notMem hmem]
      refine (Machine.disk_bwrite_of_ne hne).trans (hsound.bread_data ?_ ?_).symm
      · rwa [Machine.pending, hphase]
      · exact buffer_ne_of_out hout b
  · show ((m.write_head L).bread b).data = t.current b
    rw [← hcurrent b hb, Machine.write_head,
      Machine.bread_bwrite_of_ne (hb.ne_start hsound.size_pos)]

/-- With every block in its place the log may be forgotten. -/
theorem redo_erase (hsound : Sound L m) (hlh : m.lh = [])
    (hdone : redo L.slot (m.head L) m.disk = m.disk) (hb : L.Home b) :
    redo L.slot ((m.write_head L).head L) (m.write_head L).disk b =
      redo L.slot (m.head L) m.disk b := by
  have hfits : m.lh.length ≤ LOGSIZE := by
    rw [hlh]
    exact Nat.zero_le _
  rw [head_write_head hfits hsound.home, hlh, redo_nil, hdone]
  exact Machine.disk_bwrite_of_ne (hb.ne_start hsound.size_pos)

theorem agree_reset (hagree : Agree L m t) (hsound : Sound L m) (hphase : m.phase = .reset)
    (hout : ∀ k, m.op k = .out) : Agree L ((m.write_head L).goto .running) t := by
  have hprogress := hsound.progress
  rw [Machine.Progress, hphase] at hprogress
  obtain ⟨hlh, hdone⟩ := hprogress
  have hpending : m.pending = [] := by rw [Machine.pending, hphase]
  refine ⟨fun b hb => (redo_erase hsound hlh hdone hb).trans (hagree.durable b hb),
    fun _ b hb => ?_, Bool.noConfusion, hagree.active⟩
  show ((m.write_head L).bread b).data = t.current b
  rw [Machine.write_head, Machine.bread_bwrite_of_ne (hb.ne_start hsound.size_pos),
    hagree.down (by rw [hphase]; rfl), ← hagree.durable b hb, hdone]
  apply hsound.bread_data _ (buffer_ne_of_out hout b)
  rw [hpending]
  exact List.not_mem_nil

theorem agree_clear (hagree : Agree L m t) (hsound : Sound L m) (hphase : m.phase = .clear) :
    Agree L ((m.write_head L).goto .finish) t := by
  have hprogress := hsound.progress
  rw [Machine.Progress, hphase] at hprogress
  obtain ⟨hlh, hdone⟩ := hprogress
  refine ⟨fun b hb => (redo_erase hsound hlh hdone hb).trans (hagree.durable b hb),
    fun _ b hb => ?_, Bool.noConfusion, hagree.active⟩
  show ((m.write_head L).bread b).data = t.current b
  rw [Machine.write_head, Machine.bread_bwrite_of_ne (hb.ne_start hsound.size_pos)]
  exact hagree.current (by rw [hphase]; rfl) b hb

theorem agree_goto {p : Phase} (hagree : Agree L m t) (hup : m.phase.up = p.up) :
    Agree L (m.goto p) t :=
  ⟨hagree.durable, fun h => hagree.current (hup.trans h), fun h => hagree.down (hup.trans h),
    hagree.active⟩

/-- A step of the recovery or of the commit: the store does nothing, or commits. -/
theorem io_refines [DecidableEq κ] (hsound : Sound L m) (hagree : Agree L m t)
    (hout : ∀ k, m.op k = .out) (hok : m.phase.up = true → HeadOk L m.lh)
    (h : m.io L = some m') :
    Sound L m' ∧ (Agree L m' t ∨ ∃ t', t.Step none t' ∧ Agree L m' t') := by
  unfold Machine.io at h
  cases hphase : m.phase with
  | boot =>
      rw [hphase] at h
      obtain rfl := Option.some.inj h
      exact ⟨sound_read_head hsound hphase hout, .inl ⟨hagree.durable, Bool.noConfusion,
        fun _ => hagree.down (by rw [hphase]; rfl), hagree.active⟩⟩
  | replay tail =>
      rw [hphase] at h
      dsimp only at h
      split at h
      next b hb =>
        obtain ⟨ht, rfl⟩ := List.getElem?_eq_some_iff.mp hb
        obtain rfl := Option.some.inj h
        exact ⟨sound_replay hsound hphase hout ht,
          .inl (agree_replay hagree hsound hphase hout ht)⟩
      next hnone =>
        obtain rfl := Option.some.inj h
        exact ⟨sound_replay_end hsound hphase hout (List.getElem?_eq_none_iff.mp hnone),
          .inl ⟨hagree.durable, Bool.noConfusion,
            fun _ => hagree.down (by rw [hphase]; rfl), hagree.active⟩⟩
  | reset =>
      have hpending : m.pending = [] := by rw [Machine.pending, hphase]
      have hprogress := hsound.progress
      rw [Machine.Progress, hphase] at hprogress
      rw [hphase] at h
      obtain rfl := Option.some.inj h
      exact ⟨sound_erase hsound hpending hout hprogress.1 (.inl rfl),
        .inl (agree_reset hagree hsound hphase hout)⟩
  | running =>
      rw [hphase] at h
      cases h
  | writeLog tail =>
      have hok := hok (by rw [hphase]; rfl)
      rw [hphase] at h
      dsimp only at h
      split at h
      next b hb =>
        obtain ⟨ht, rfl⟩ := List.getElem?_eq_some_iff.mp hb
        obtain rfl := Option.some.inj h
        exact ⟨sound_write_log hsound hphase hout hok ht,
          .inl (agree_write_log hagree hsound hphase hok ht)⟩
      next hnone =>
        obtain rfl := Option.some.inj h
        exact ⟨sound_write_log_end hsound hphase hout (List.getElem?_eq_none_iff.mp hnone),
          .inl (agree_goto hagree (by rw [hphase]; rfl))⟩
  | writeHead =>
      have hok := hok (by rw [hphase]; rfl)
      rw [hphase] at h
      obtain rfl := Option.some.inj h
      exact ⟨sound_write_head hsound hphase hout hok,
        .inr (agree_write_head hagree hsound hphase hout hok)⟩
  | install tail =>
      rw [hphase] at h
      dsimp only at h
      split at h
      next b hb =>
        obtain ⟨ht, rfl⟩ := List.getElem?_eq_some_iff.mp hb
        obtain rfl := Option.some.inj h
        exact ⟨sound_install hsound hphase hout ht,
          .inl (agree_install hagree hsound hphase hout ht)⟩
      next hnone =>
        obtain rfl := Option.some.inj h
        exact ⟨sound_install_end hsound hphase hout (List.getElem?_eq_none_iff.mp hnone),
          .inl ⟨hagree.durable, fun _ => hagree.current (by rw [hphase]; rfl),
            Bool.noConfusion, hagree.active⟩⟩
  | clear =>
      have hpending : m.pending = [] := by rw [Machine.pending, hphase]
      have hprogress := hsound.progress
      rw [Machine.Progress, hphase] at hprogress
      rw [hphase] at h
      obtain rfl := Option.some.inj h
      exact ⟨sound_erase hsound hpending hout hprogress.1 (.inr rfl),
        .inl (agree_clear hagree hsound hphase)⟩
  | finish =>
      rw [hphase] at h
      obtain rfl := Option.some.inj h
      exact ⟨sound_finish hsound hphase hout, .inl (agree_goto hagree (by rw [hphase]; rfl))⟩
  | panicked =>
      rw [hphase] at h
      cases h

end Io

/-! ## The refinement -/

section Refinement

variable [DecidableEq κ] [Fintype κ] {t : Store κ}

/-- A step of the machine is a step of the store, or none. -/
theorem step_refines {a : Move κ} (hmost : most < MAXOPBLOCKS)
    (hsize : MAXOPBLOCKS + 2 * most + 1 < L.size) (hspare : Spare most m) (hsound : Sound L m)
    (hagree : Agree L m t) (h : m.step L a = some m') (hok : WellUsed L most m a) :
    Sound L m' ∧ (a.event = none ∧ Agree L m' t ∨ ∃ t', t.Step a.event t' ∧ Agree L m' t') := by
  replace h := Machine.step_cases h
  cases a with
  | begin_op k =>
      exact ⟨sound_begin_op hsound h, .inr (agree_begin_op hagree h)⟩
  | modify k b data =>
      obtain ⟨mine, hop, -⟩ := Machine.modify_cases h
      have hphase := hspare.running (k := k) (by rw [hop]; exact Op.noConfusion)
      exact ⟨sound_modify hsound hphase h hok.1, .inr (agree_modify hagree hphase h)⟩
  | check k =>
      obtain ⟨mine, b, hop, ⟨hfull, -⟩ | ⟨-, -, rfl⟩⟩ := Machine.check_cases h
      · exact absurd hfull (check_passes hspare hmost hsize hop)
      · have hin : m.op k ≠ .out := by
          rw [hop]
          exact Op.noConfusion
        exact ⟨sound_setOp hsound (by rw [hop]; rfl),
          .inl ⟨rfl, agree_setOp hagree hin Op.noConfusion⟩⟩
  | log_write k =>
      obtain ⟨mine, b, hop, -⟩ := Machine.log_write_cases h
      have hphase := hspare.running (k := k) (by rw [hop]; exact Op.noConfusion)
      exact ⟨sound_log_write hsound hphase h, .inl ⟨rfl, agree_log_write hagree h⟩⟩
  | end_op k =>
      obtain ⟨mine, hop, -⟩ := Machine.end_op_cases h
      have hphase := hspare.running (k := k) (by rw [hop]; exact Op.noConfusion)
      exact ⟨sound_end_op hsound hphase h, .inr (agree_end_op hagree hphase h)⟩
  | io =>
      have hout := hspare.idle (io_cases h).1
      have hhead : m.phase.up = true → HeadOk L m.lh := by
        intro hup
        have hroom := hspare.room hup
        have hlog : LOGSIZE = 30 := rfl
        have hmax : MAXOPBLOCKS = 10 := rfl
        exact ⟨hsound.nodup, hsound.home, by omega, by omega⟩
      obtain ⟨hsound', hagree' | hcommit⟩ := io_refines hsound hagree hout hhead h
      · exact ⟨hsound', .inl ⟨rfl, hagree'⟩⟩
      · exact ⟨hsound', .inr hcommit⟩
  | load b =>
      obtain rfl := Option.some.inj h
      exact ⟨sound_loaded hsound,
        .inl ⟨rfl, agree_congr hagree rfl (fun _ => Machine.bread_loaded) rfl rfl⟩⟩
  | evict b =>
      obtain ⟨hclean, hfree, rfl⟩ := Machine.evict_cases h
      have hbread := bread_evicted hsound hclean hfree
      exact ⟨hsound.congr rfl hbread rfl rfl rfl,
        .inl ⟨rfl, agree_congr hagree rfl hbread rfl rfl⟩⟩
  | crash =>
      obtain rfl := Option.some.inj h
      exact ⟨sound_crash hsound, .inr (agree_crash hagree)⟩

omit [DecidableEq κ] [Fintype κ] in
theorem sound_boot (hboot : Boot L m) : Sound L m where
  head := hboot.head
  nodup := hboot.lh ▸ List.nodup_nil
  home c hc := by
    rw [hboot.lh] at hc
    exact absurd hc List.not_mem_nil
  held k c hc := absurd hc (buffer_ne_of_out hboot.op c k)
  clean c _ _ := by rw [Machine.bread_of_uncached (hboot.cache c)]
  dirty c hc := by
    rw [Machine.bread_of_uncached (hboot.cache c)] at hc
    cases hc
  progress := by
    rw [Machine.Progress, hboot.phase]
    exact hboot.lh

omit [Fintype κ] in
theorem agree_boot (hboot : Boot L m) : ∃ t, (atomic κ).init t ∧ Agree L m t := by
  refine ⟨⟨redo L.slot (m.head L) m.disk, redo L.slot (m.head L) m.disk, fun _ => false⟩,
    ⟨rfl, fun _ => rfl⟩, fun _ _ => rfl, fun hup => ?_, fun _ => rfl, fun k => ?_⟩
  · rw [hboot.phase] at hup
    cases hup
  · exact iff_of_false Bool.noConfusion fun hne => hne (hboot.op k)

/-- The machine is in order and stands for the store. -/
structure Refines (L : Area) (most : Nat) (m : Machine κ) (t : Store κ) : Prop where
  spare : Spare most m
  sound : Sound L m
  agree : Agree L m t

/-- The store follows every run, and the machine stays in order. -/
theorem refines_run {tr : List (Move κ)} (hmost : most < MAXOPBLOCKS)
    (hsize : MAXOPBLOCKS + 2 * most + 1 < L.size)
    (hrun : Run (machine L κ) (WellUsed L most) tr m) :
    ∃ tr' t, Run (atomic κ) anyStep tr' t ∧ tr'.reduceOption = tr.filterMap Move.event ∧
      Refines L most m t := by
  refine hrun.refine (fun m hboot => ?_) fun m a m' t hrel h hok => ?_
  · obtain ⟨t, hinit, hagree⟩ := agree_boot hboot
    exact ⟨t, hinit, spare_boot hboot.phase hboot.op hboot.outstanding, sound_boot hboot,
      hagree⟩
  · have hspare := spare_step hrel.spare hmost hsize h hok
    obtain ⟨hsound, hstep⟩ := step_refines hmost hsize hrel.spare hrel.sound hrel.agree h hok
    obtain ⟨hsilent, hagree⟩ | ⟨t', hnext, hagree⟩ := hstep
    · exact .inl ⟨hsilent, hspare, hsound, hagree⟩
    · exact .inr ⟨t', hnext, hspare, hsound, hagree⟩

omit [DecidableEq κ] in
/-- While the system runs there is room for one more block. -/
theorem Spare.short (hspare : Spare most m) (hmost : most < MAXOPBLOCKS)
    (hsize : MAXOPBLOCKS + 2 * most + 1 < L.size) (hup : m.phase.up = true) :
    m.lh.length < LOGSIZE ∧ m.lh.length + 1 < L.size := by
  have hroom := hspare.room hup
  have hlog : LOGSIZE = 30 := rfl
  have hmax : MAXOPBLOCKS = 10 := rfl
  omega

omit [DecidableEq κ] [Fintype κ] in
/-- Before that the blocks in memory are those of a header that was on the disk. -/
theorem Sound.short (hsound : Sound L m) (hdown : m.phase.up = false)
    (halive : m.phase ≠ .panicked) : m.lh.length ≤ LOGSIZE ∧ m.lh.length < L.size := by
  have hnil : m.lh = [] → m.lh.length ≤ LOGSIZE ∧ m.lh.length < L.size := by
    intro hlh
    rw [hlh]
    exact ⟨Nat.zero_le _, hsound.size_pos⟩
  have hprogress := hsound.progress
  cases hphase : m.phase with
  | boot =>
      rw [Machine.Progress, hphase] at hprogress
      exact hnil hprogress
  | replay tail =>
      rw [Machine.Progress, hphase] at hprogress
      rw [hprogress.1]
      exact ⟨hsound.head.fits, hsound.head.short⟩
  | reset =>
      rw [Machine.Progress, hphase] at hprogress
      exact hnil hprogress.1
  | panicked => exact absurd hphase halive
  | _ =>
      rw [hphase] at hdown
      cases hdown

/-- `log_write` never finds the log full, nor itself outside an operation, and nobody
ends an operation during a commit; and the blocks of the header in memory, which a
recovery reads from the disk, fit its array and the area of the log. -/
theorem log_never_panics {tr : List (Move κ)} (hmost : most < MAXOPBLOCKS)
    (hsize : MAXOPBLOCKS + 2 * most + 1 < L.size)
    (hrun : Run (machine L κ) (WellUsed L most) tr m) :
    m.phase ≠ .panicked ∧ m.outstanding = total Op.active m.op ∧
      m.lh.length ≤ LOGSIZE ∧ m.lh.length < L.size ∧
      (m.phase.up = true → m.lh.length < LOGSIZE ∧ m.lh.length + 1 < L.size) := by
  obtain ⟨tr', t, -, -, hrel⟩ := refines_run hmost hsize hrun
  have hup := hrel.spare.short hmost hsize
  have hall : m.lh.length ≤ LOGSIZE ∧ m.lh.length < L.size := by
    by_cases hphase : m.phase.up = true
    · have := hup hphase
      omega
    · exact hrel.sound.short (Bool.of_not_eq_true hphase) hrel.spare.alive
  exact ⟨hrel.spare.alive, hrel.spare.count, hall.1, hall.2, hup⟩

/-- `logstart` and `nlog` as `mkfs` writes them. -/
def mkfsLog : Area := ⟨2, LOGSIZE⟩

/-- Two processes, on a disk of zeros. -/
def blank : Machine (Fin 2) where
  disk _ _ := 0
  cache _ := none
  lh := []
  outstanding := 0
  phase := .boot
  op _ := .out

theorem getHead_zero : getHead (fun _ => 0) = [] := by
  unfold getHead
  rfl

theorem blank_boot : Boot mkfsLog blank := by
  refine ⟨fun _ => rfl, rfl, rfl, rfl, fun _ => rfl, ?_⟩
  show HeadOk mkfsLog (getHead fun _ => 0)
  rw [getHead_zero]
  exact headOk_nil (Nat.succ_pos _)

/-- Two operations that overlap; the power fails when their commit has written the header
and put the first block in its place, and the recovery does that again. -/
def overlap : List (Move (Fin 2)) :=
  [.io, .io, .io, .begin_op 0, .begin_op 1, .modify 0 100 fun _ => 7, .modify 1 101 fun _ => 8,
    .check 0, .check 1, .log_write 0, .log_write 1, .end_op 0, .end_op 1, .io, .io, .io, .io, .io,
    .crash, .io, .io]

/-- The recovery with one block to go. -/
theorem log_never_panics_overlap : ∃ m : Machine (Fin 2),
    Run (machine mkfsLog (Fin 2)) (WellUsed mkfsLog 9) overlap.reverse m ∧
      m.phase = .replay 1 ∧ m.lh = [100, 101] ∧ m.outstanding = total Op.active m.op ∧
        m.lh.length ≤ LOGSIZE ∧ m.lh.length < mkfsLog.size := by
  have htr : ((overlap.foldlM (guarded (WellUsed mkfsLog 9) (Machine.step mkfsLog)) blank).map
      fun m => (m.phase, m.lh)) = some (.replay 1, [100, 101]) := by
    decide +kernel
  obtain ⟨m, hm, heq⟩ := Option.map_eq_some_iff.mp htr
  obtain ⟨hphase, hlh⟩ := Prod.mk.inj heq
  have hrun : Run (machine mkfsLog (Fin 2)) (WellUsed mkfsLog 9) overlap.reverse m :=
    Run.of_guarded blank_boot (fun _ _ _ h => h) hm
  obtain ⟨-, hcount, hfits, hshort, -⟩ := log_never_panics (by decide) (by decide) hrun
  exact ⟨m, hrun, hphase, hlh, hcount, hfits, hshort⟩

end Refinement

end Logging
end Fs
end CS444
