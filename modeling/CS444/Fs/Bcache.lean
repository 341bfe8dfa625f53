/-
The list of buffers of the block cache.

The buffers are on a ring through `bcache.head`, the one that was released last in front.
`bget` goes forth along it for a buffer of the block and back for one to recycle, and
`brelse` moves a buffer to the front when nobody has it any more.  `bcache_sound` is
about every run of processes that ask for blocks, give them back and write them: a block
is in one buffer at most, a buffer stays that of its block while a process has it, the
buffer that is recycled is the one that was released the longest time ago, and `bget`
panics only when there is none.

At boot all buffers are for block 0 of disk 0, and idle.  So two buffers can be for the
same block; what the sections keep is that all but the first of them in the list are idle,
`Primary`.  A step is one section under `bcache.lock`; fewer than `2 ^ 32` references are
out at a time.
-/
import CS444.Lib.Rings
import CS444.Lib.Runs
import Mathlib.Data.Fintype.Card
import Mathlib.Data.List.FinRange

namespace CS444
namespace Fs
namespace Bcache

open Runs Rings

def NBUF : Nat := 30

/-- `&bcache.head`, or the address of a buffer. -/
inductive Node
  | head
  | buf (b : Fin NBUF)
  deriving DecidableEq

/-- A buffer without its data and its sleep lock; `flags` are `B_VALID` and `B_DIRTY`. -/
structure Buf where
  dev : Nat
  blockno : Nat
  valid : Bool
  dirty : Bool
  refcnt : Nat
  deriving DecidableEq

structure Cache where
  links : Links Node
  buf : Fin NBUF → Buf

namespace Buf

def has (v : Buf) (dev blockno : Nat) : Bool := v.dev == dev && v.blockno == blockno

/-- `b->refcnt == 0 && (b->flags & B_DIRTY) == 0` -/
def unused (v : Buf) : Bool := v.refcnt == 0 && !v.dirty

/-- What `iderw` leaves of the flags. -/
def synced (v : Buf) : Buf := { v with valid := true, dirty := false }

/-- `b->flags |= B_DIRTY` -/
def marked (v : Buf) : Buf := { v with dirty := true }

def withRefcnt (v : Buf) (n : Nat) : Buf := { v with refcnt := n }

end Buf

namespace Cache

def setBuf (s : Cache) (b : Fin NBUF) (v : Buf) : Cache :=
  { s with buf := Function.update s.buf b v }

/-- Does the test of a loop hold at a node? -/
def test (s : Cache) (p : Buf → Bool) : Node → Bool
  | .head => false
  | .buf b => p (s.buf b)

/-- `binit()`; the array is zero before. -/
def binit : Cache where
  links := (List.finRange NBUF).foldl (fun r b => r.insert .head (.buf b))
    ⟨fun _ => .head, fun _ => .head⟩
  buf := fun _ => ⟨0, 0, false, false, 0⟩

/-- `bget(dev, blockno)` up to `release(&bcache.lock)`; nothing is the panic. -/
def bget (s : Cache) (dev blockno : Nat) : Option (Fin NBUF × Cache) :=
  match search s.links.next .head (s.test fun v => v.has dev blockno) (NBUF + 1)
      (s.links.next .head) with
  | some (some (.buf b)) =>
    some (b, s.setBuf b ((s.buf b).withRefcnt ((s.buf b).refcnt + 1)))
  | _ =>
    match search s.links.prev .head (s.test Buf.unused) (NBUF + 1) (s.links.prev .head) with
    | some (some (.buf b)) => some (b, s.setBuf b ⟨dev, blockno, false, false, 1⟩)
    | _ => none

/-- `brelse(b)` from `acquire(&bcache.lock)` on -/
def brelse (s : Cache) (b : Fin NBUF) : Cache :=
  let s := s.setBuf b ((s.buf b).withRefcnt ((s.buf b).refcnt - 1))
  if (s.buf b).refcnt = 0 then
    { s with links := (s.links.unlink (.buf b)).insert .head (.buf b) }
  else s

end Cache

/-! ## What the cache is for -/

/-- The buffer for a block, and what becomes of it, when the buffers were last released in
this order, the latest first. -/
def choose (order : List (Fin NBUF)) (buf : Fin NBUF → Buf) (dev blockno : Nat) :
    Option (Fin NBUF × Buf) :=
  match order.find? fun b => (buf b).has dev blockno with
  | some b => some (b, (buf b).withRefcnt ((buf b).refcnt + 1))
  | none =>
    (order.reverse.find? fun b => (buf b).unused).map fun b =>
      (b, ⟨dev, blockno, false, false, 1⟩)

/-- The order after a buffer was released for the last time. -/
def toFront (order : List (Fin NBUF)) (b : Fin NBUF) : List (Fin NBUF) := b :: order.erase b

/-! ## Processes that use the cache -/

/-- A process has a buffer, which it asked for with this block. -/
structure Ref (κ : Type*) where
  proc : κ
  slot : Fin NBUF
  dev : Nat
  blockno : Nat
  deriving DecidableEq

/-- The cache, with the buffers in the order of their release and the references out. -/
structure State (κ : Type*) where
  cache : Cache
  order : List (Fin NBUF)
  held : List (Ref κ)

inductive Move (κ : Type*)
  | bget (k : κ) (dev blockno : Nat)
  | brelse (r : Ref κ)
  /-- `iderw(b)` by a process that has the buffer -/
  | iderw (r : Ref κ)
  /-- `b->flags |= B_DIRTY`, as `bwrite` and `log_write` do -/
  | dirty (r : Ref κ)

variable {κ : Type*}

/-- One section under `bcache.lock`, or one access to a buffer that a process has. -/
inductive Step [DecidableEq κ] : State κ → Move κ → State κ → Prop
  | bget {s : State κ} {k : κ} {dev blockno : Nat} {b : Fin NBUF} {c : Cache}
      (got : s.cache.bget dev blockno = some (b, c)) :
      Step s (.bget k dev blockno) ⟨c, s.order, ⟨k, b, dev, blockno⟩ :: s.held⟩
  | brelse {s : State κ} {r : Ref κ} (has : r ∈ s.held) :
      Step s (.brelse r) ⟨s.cache.brelse r.slot,
        if (s.cache.buf r.slot).refcnt = 1 then toFront s.order r.slot else s.order,
        s.held.erase r⟩
  | iderw {s : State κ} {r : Ref κ} (has : r ∈ s.held) :
      Step s (.iderw r) { s with cache := s.cache.setBuf r.slot (s.cache.buf r.slot).synced }
  | dirty {s : State κ} {r : Ref κ} (has : r ∈ s.held) :
      Step s (.dirty r) { s with cache := s.cache.setBuf r.slot (s.cache.buf r.slot).marked }

def system (κ : Type*) [DecidableEq κ] : System (State κ) (Move κ) where
  init := fun s => s = ⟨Cache.binit, (List.finRange NBUF).reverse, []⟩
  step := Step

variable {s s' : State κ} {c : Cache} {b i j : Fin NBUF} {r : Ref κ} {v : Buf} {dev blockno : Nat}
  {order : List (Fin NBUF)} {tr : List (Move κ)}

/-- Nobody has the buffer, and nothing is in it. -/
def Idle (v : Buf) : Prop := v.refcnt = 0 ∧ v.valid = false ∧ v.dirty = false

def Same (v w : Buf) : Prop := v.dev = w.dev ∧ v.blockno = w.blockno

/-- Of two buffers for the same block, the later one in the list is idle. -/
def Primary (buf : Fin NBUF → Buf) (order : List (Fin NBUF)) : Prop :=
  order.Pairwise fun i j => Same (buf i) (buf j) → Idle (buf j)

structure Inv (s : State κ) : Prop where
  ring : s.cache.links.Ring .head (s.order.map Node.buf)
  all : ∀ b, b ∈ s.order
  count : ∀ b, (s.cache.buf b).refcnt = s.held.countP fun r => r.slot = b
  primary : Primary s.cache.buf s.order
  named : ∀ r ∈ s.held, (s.cache.buf r.slot).has r.dev r.blockno = true

/-! ## The list of buffers -/

theorem find_test (p : Buf → Bool) (order : List (Fin NBUF)) :
    (order.map Node.buf).find? (c.test p) = (order.find? fun b => p (c.buf b)).map Node.buf := by
  induction order with
  | nil => rfl
  | cons b order ih =>
      rw [List.map_cons]
      by_cases hb : p (c.buf b) = true
      · rw [List.find?_cons_of_pos (show c.test p (.buf b) = true from hb)]
        simp [hb]
      · rw [List.find?_cons_of_neg (show ¬ c.test p (.buf b) = true from hb), ih]
        simp [hb]

/-- `bget` goes by the list of buffers, from the front for the block and from the back for
a buffer that can be recycled. -/
theorem bget_choose (hr : c.links.Ring .head (order.map Node.buf)) (hlen : order.length ≤ NBUF)
    (dev blockno : Nat) : c.bget dev blockno =
      (choose order c.buf dev blockno).map fun q => (q.1, c.setBuf q.1 q.2) := by
  have hlen' : (order.map Node.buf).length < NBUF + 1 := by
    rw [List.length_map]
    omega
  unfold Cache.bget choose
  rw [hr.search_next hlen', hr.search_prev hlen', ← List.map_reverse, find_test, find_test]
  cases order.find? fun b => (c.buf b).has dev blockno with
  | some b => rfl
  | none =>
      simp only [Option.map_none, Option.map_map]
      cases order.reverse.find? fun b => (c.buf b).unused with
      | some b => rfl
      | none => rfl

/-! ## What the sections keep -/

@[simp] theorem setBuf_self : (c.setBuf b v).buf b = v := Function.update_self ..

theorem setBuf_other (h : i ≠ b) : (c.setBuf b v).buf i = c.buf i := Function.update_of_ne h ..

theorem Inv.nodup (hs : Inv s) : s.order.Nodup :=
  (List.nodup_cons.1 hs.ring.nodup).2.of_map

theorem Inv.length_le (hs : Inv s) : s.order.length ≤ NBUF := by
  have hcard := hs.nodup.length_le_card
  rwa [Fintype.card_fin] at hcard

theorem Inv.bget_eq (hs : Inv s) (dev blockno : Nat) : s.cache.bget dev blockno =
    (choose s.order s.cache.buf dev blockno).map fun q => (q.1, s.cache.setBuf q.1 q.2) :=
  bget_choose hs.ring hs.length_le dev blockno

/-- A buffer that is given out was found, and is the first one for its block, or recycled,
when there is none for the block. -/
theorem choose_cases {buf : Fin NBUF → Buf} (h : choose order buf dev blockno = some (b, v)) :
    (∃ l₁ l₂, order = l₁ ++ b :: l₂ ∧ (buf b).has dev blockno = true ∧
      (∀ i ∈ l₁, (buf i).has dev blockno = false) ∧ v = (buf b).withRefcnt ((buf b).refcnt + 1)) ∨
    ((∀ i ∈ order, (buf i).has dev blockno = false) ∧ (buf b).unused = true ∧
      v = ⟨dev, blockno, false, false, 1⟩) := by
  unfold choose at h
  cases hfind : order.find? fun b => (buf b).has dev blockno with
  | some i =>
      rw [hfind] at h
      obtain ⟨rfl, rfl⟩ := Prod.mk.inj (Option.some.inj h)
      obtain ⟨hhas, l₁, l₂, horder, hbefore⟩ := List.find?_eq_some_iff_append.1 hfind
      exact Or.inl ⟨l₁, l₂, horder, hhas, fun j hj => by simpa using hbefore j hj, rfl⟩
  | none =>
      rw [hfind] at h
      obtain ⟨i, hi, heq⟩ := Option.map_eq_some_iff.1 h
      obtain ⟨rfl, rfl⟩ := Prod.mk.inj heq
      refine Or.inr ⟨fun j hj => ?_, by simpa using List.find?_some hi, rfl⟩
      simpa using List.find?_eq_none.1 hfind j hj

theorem has_iff : v.has dev blockno = true ↔ v.dev = dev ∧ v.blockno = blockno := by
  simp [Buf.has]

/-- One buffer is changed: it is the first for its block, and what comes after it for the
same block is idle. -/
theorem Primary.update {buf : Fin NBUF → Buf} (hp : Primary buf order) (hnd : order.Nodup)
    (hbefore : order.Pairwise fun i j => j = b → ¬ Same (buf i) v)
    (hafter : order.Pairwise fun i j => i = b → Same v (buf j) → Idle (buf j)) :
    Primary (Function.update buf b v) order := by
  unfold Primary
  refine (((hp.and hnd).and hbefore).and hafter).imp ?_
  rintro i j ⟨⟨⟨hidle, hne⟩, hfirst⟩, hrest⟩ hsame
  by_cases hj : j = b
  · subst hj
    rw [Function.update_self, Function.update_of_ne hne] at hsame
    exact absurd hsame (hfirst rfl)
  · rw [Function.update_of_ne hj] at hsame ⊢
    by_cases hi : i = b
    · subst hi
      rw [Function.update_self] at hsame
      exact hrest rfl hsame
    · rw [Function.update_of_ne hi] at hsame
      exact hidle hsame

/-- A buffer that is not idle is the first for its block. -/
theorem Primary.before {buf : Fin NBUF → Buf} (hp : Primary buf order) (hidle : ¬ Idle (buf b))
    (hv : Same v (buf b)) : order.Pairwise fun i j => j = b → ¬ Same (buf i) v := by
  refine hp.imp ?_
  rintro i j hij rfl hsame
  exact hidle (hij ⟨hsame.1.trans hv.1, hsame.2.trans hv.2⟩)

theorem Primary.after {buf : Fin NBUF → Buf} (hp : Primary buf order) (hv : Same v (buf b)) :
    order.Pairwise fun i j => i = b → Same v (buf j) → Idle (buf j) := by
  refine hp.imp ?_
  rintro i j hij rfl hsame
  exact hij ⟨hv.1.symm.trans hsame.1, hv.2.symm.trans hsame.2⟩

/-- A property of everything before a member. -/
theorem pairwise_before {P : Fin NBUF → Prop} {l₁ l₂ : List (Fin NBUF)}
    (hnd : (l₁ ++ b :: l₂).Nodup) (h : ∀ i ∈ l₁, P i) :
    (l₁ ++ b :: l₂).Pairwise fun i j => j = b → P i := by
  induction l₁ with
  | nil =>
      obtain ⟨hb, -⟩ := List.nodup_cons.1 hnd
      refine List.pairwise_cons.2 ⟨fun j hj he => absurd (he ▸ hj) hb, ?_⟩
      refine List.Pairwise.imp_of_mem (fun _ hj _ he => absurd (he ▸ hj) hb)
        (List.nodup_cons.1 hnd).2
  | cons i l₁ ih =>
      refine List.pairwise_cons.2 ⟨fun j _ _ => h i (by simp), ?_⟩
      exact ih (List.nodup_cons.1 hnd).2 fun k hk => h k (List.mem_cons_of_mem i hk)

theorem Inv.held_pos (hs : Inv s) (hr : r ∈ s.held) : 0 < (s.cache.buf r.slot).refcnt := by
  rw [hs.count]
  exact List.countP_pos_iff.2 ⟨r, hr, by simp⟩

theorem Inv.held_not_idle (hs : Inv s) (hr : r ∈ s.held) : ¬ Idle (s.cache.buf r.slot) := by
  intro hidle
  have hpos := hs.held_pos hr
  rw [hidle.1] at hpos
  exact Nat.lt_irrefl 0 hpos

theorem named_update (hs : Inv s) (hv : Same v (s.cache.buf b)) (hr : r ∈ s.held) :
    ((s.cache.setBuf b v).buf r.slot).has r.dev r.blockno = true := by
  have hold := has_iff.1 (hs.named r hr)
  rw [has_iff]
  by_cases hb : r.slot = b
  · rw [hb, setBuf_self]
    rw [hb] at hold
    exact ⟨hv.1.trans hold.1, hv.2.trans hold.2⟩
  · rwa [setBuf_other hb]

/-- A buffer that is asked for gets one more reference. -/
theorem count_cons {k : κ} (hs : Inv s) (hv : v.refcnt = (s.cache.buf b).refcnt + 1)
    (i : Fin NBUF) : ((s.cache.setBuf b v).buf i).refcnt =
      (⟨k, b, dev, blockno⟩ :: s.held).countP fun r => r.slot = i := by
  rw [List.countP_cons, ← hs.count]
  by_cases hi : i = b
  · rw [hi, setBuf_self, hv]
    simp
  · rw [setBuf_other hi, if_neg (by simpa using Ne.symm hi), Nat.add_zero]

theorem bget_keeps {k : κ} (hs : Inv s) (got : s.cache.bget dev blockno = some (b, c)) :
    Inv ⟨c, s.order, ⟨k, b, dev, blockno⟩ :: s.held⟩ := by
  rw [hs.bget_eq] at got
  obtain ⟨⟨i, v⟩, hchoose, heq⟩ := Option.map_eq_some_iff.1 got
  obtain ⟨rfl, rfl⟩ := Prod.mk.inj heq
  obtain ⟨l₁, l₂, horder, hhas, hfirst, rfl⟩ | ⟨hnone, hunused, rfl⟩ := choose_cases hchoose
  · -- the block is cached
    have hsame : Same ((s.cache.buf i).withRefcnt ((s.cache.buf i).refcnt + 1)) (s.cache.buf i) :=
      ⟨rfl, rfl⟩
    constructor
    case ring => exact hs.ring
    case all => exact hs.all
    case count => exact count_cons hs rfl
    case primary =>
      refine hs.primary.update hs.nodup ?_ (hs.primary.after hsame)
      have hnd := hs.nodup
      rw [horder] at hnd ⊢
      refine pairwise_before hnd fun j hj hsame' => ?_
      have hblock := has_iff.1 hhas
      have hno := hfirst j hj
      rw [← Bool.not_eq_true, has_iff] at hno
      exact hno ⟨hsame'.1.trans hblock.1, hsame'.2.trans hblock.2⟩
    case named =>
      intro r hr
      obtain rfl | hr := List.mem_cons.1 hr
      · show ((s.cache.setBuf i _).buf i).has dev blockno = true
        rw [setBuf_self]
        exact hhas
      · exact named_update hs hsame hr
  · -- a buffer is recycled
    have hfree : (s.cache.buf i).refcnt = 0 := by
      simp only [Buf.unused, Bool.and_eq_true, beq_iff_eq] at hunused
      exact hunused.1
    have hother : ∀ j ∈ s.order, ¬ Same (s.cache.buf j) ⟨dev, blockno, false, false, 1⟩ := by
      intro j hj hsame
      have hno := hnone j hj
      rw [← Bool.not_eq_true, has_iff] at hno
      exact hno hsame
    constructor
    case ring => exact hs.ring
    case all => exact hs.all
    case count =>
      apply count_cons hs
      rw [hfree]
    case primary =>
      refine hs.primary.update hs.nodup ?_ ?_
      · exact hs.nodup.imp_of_mem fun hj _ _ _ => hother _ hj
      · refine hs.nodup.imp_of_mem fun _ hj _ _ hsame => ?_
        exact absurd ⟨hsame.1.symm, hsame.2.symm⟩ (hother _ hj)
    case named =>
      intro r hr
      obtain rfl | hheld := List.mem_cons.1 hr
      · show ((s.cache.setBuf i _).buf i).has dev blockno = true
        rw [setBuf_self, has_iff]
        exact ⟨rfl, rfl⟩
      · have hne : r.slot ≠ i := by
          intro he
          have hpos := hs.held_pos hheld
          rw [he] at hpos
          omega
        show ((s.cache.setBuf i _).buf r.slot).has r.dev r.blockno = true
        rw [setBuf_other hne]
        exact hs.named r hheld

/-- A process changes the flags of a buffer it has. -/
theorem flags_keeps (hs : Inv s) (hr : r ∈ s.held)
    (hv : Same v (s.cache.buf r.slot)) (hcount : v.refcnt = (s.cache.buf r.slot).refcnt) :
    Inv { s with cache := s.cache.setBuf r.slot v } := by
  constructor
  case ring => exact hs.ring
  case all => exact hs.all
  case count =>
    intro i
    show ((s.cache.setBuf r.slot v).buf i).refcnt = _
    by_cases hi : i = r.slot
    · rw [hi, setBuf_self, hcount, hs.count]
    · rw [setBuf_other hi, hs.count]
  case primary =>
    exact hs.primary.update hs.nodup (hs.primary.before (hs.held_not_idle hr) hv)
      (hs.primary.after hv)
  case named => exact fun q hq => named_update hs hv hq

theorem buf_not_mem (hb : b ∉ order) : Node.buf b ∉ Node.head :: order.map Node.buf := by
  rw [List.mem_cons, not_or]
  refine ⟨Node.noConfusion, fun hmem => ?_⟩
  obtain ⟨i, hi, heq⟩ := List.mem_map.1 hmem
  exact hb (Node.buf.inj heq ▸ hi)

/-- The last reference to a buffer is given back, and it moves to the front. -/
theorem moved_keeps {l₁ l₂ : List (Fin NBUF)} (hs : Inv s) (horder : s.order = l₁ ++ b :: l₂)
    (hbefore : s.order.Pairwise fun i j => j = b → ¬ Same (s.cache.buf i) (s.cache.buf b)) :
    Inv { s with
      cache := { s.cache with links := (s.cache.links.unlink (.buf b)).insert .head (.buf b) }
      order := toFront s.order b } := by
  have hnd := hs.nodup
  have hring := hs.ring
  have hprimary := hs.primary
  rw [horder] at hnd hring hbefore
  have hb₁ : b ∉ l₁ := fun hmem =>
    (List.nodup_append.1 hnd).2.2 b hmem b (List.mem_cons_self ..) rfl
  have hfront : toFront s.order b = b :: (l₁ ++ l₂) := by
    unfold toFront
    rw [horder, List.erase_append_right _ hb₁, List.erase_cons_head]
  have hout : b ∉ l₁ ++ l₂ := (List.nodup_cons.1 (List.perm_middle.nodup_iff.1 hnd)).1
  constructor
  case ring =>
    show Links.Ring _ _ ((toFront s.order b).map Node.buf)
    rw [hfront, List.map_cons, List.map_append]
    rw [List.map_append, List.map_cons] at hring
    refine hring.unlink.insert ?_
    rw [← List.map_append]
    exact buf_not_mem hout
  case all =>
    intro i
    show i ∈ toFront s.order b
    rw [hfront, ← List.perm_middle.mem_iff (a := i), ← horder]
    exact hs.all i
  case count => exact hs.count
  case named => exact hs.named
  case primary =>
    show Primary s.cache.buf (toFront s.order b)
    unfold Primary at hprimary ⊢
    rw [horder] at hprimary
    rw [hfront]
    refine List.pairwise_cons.2 ⟨fun j hj hsame => ?_, ?_⟩
    · obtain hj | hj := List.mem_append.1 hj
      · have hne := (List.pairwise_append.1 hbefore).2.2 j hj b (List.mem_cons_self ..) rfl
        exact absurd ⟨hsame.1.symm, hsame.2.symm⟩ hne
      · have hcons := (List.pairwise_append.1 hprimary).2.1
        exact (List.pairwise_cons.1 hcons).1 j hj hsame
    · exact hprimary.sublist (by simp)

theorem binit_ring (l : List (Fin NBUF)) (l₀ : List (Fin NBUF)) (r : Links Node)
    (hr : r.Ring .head (l₀.map Node.buf)) (hnd : (l.reverse ++ l₀).Nodup) :
    (l.foldl (fun r b => r.insert .head (.buf b)) r).Ring .head
      ((l.reverse ++ l₀).map Node.buf) := by
  induction l generalizing r l₀ with
  | nil => exact hr
  | cons b l ih =>
      rw [List.reverse_cons, List.append_assoc] at hnd ⊢
      have hb : b ∉ l₀ := (List.nodup_cons.1 (List.nodup_append.1 hnd).2.1).1
      exact ih (b :: l₀) _ (hr.insert (buf_not_mem hb)) hnd

theorem inv_binit : Inv (⟨Cache.binit, (List.finRange NBUF).reverse, []⟩ : State κ) := by
  constructor
  case ring =>
    have hring := binit_ring (List.finRange NBUF) [] ⟨fun _ => .head, fun _ => .head⟩
      (Links.ring_empty rfl rfl)
      (by rw [List.append_nil]; exact List.nodup_reverse.2 (List.nodup_finRange _))
    rwa [List.append_nil] at hring
  case all => exact fun b => List.mem_reverse.2 (List.mem_finRange b)
  case count => exact fun b => rfl
  case primary => exact List.pairwise_of_forall fun _ _ _ => ⟨rfl, rfl, rfl⟩
  case named => exact fun r hr => absurd hr (by simp)

/-- What is left when a reference is given back. -/
def Cache.dropped (c : Cache) (b : Fin NBUF) : Cache :=
  c.setBuf b ((c.buf b).withRefcnt ((c.buf b).refcnt - 1))

theorem Inv.one_copy (hs : Inv s) (hsame : Same (s.cache.buf i) (s.cache.buf j))
    (hi : ¬ Idle (s.cache.buf i)) (hj : ¬ Idle (s.cache.buf j)) : i = j := by
  have hforth : s.order.Pairwise fun i j => Same (s.cache.buf i) (s.cache.buf j) →
      ¬ Idle (s.cache.buf i) → ¬ Idle (s.cache.buf j) → i = j :=
    hs.primary.imp fun h hsame _ hj => absurd (h hsame) hj
  have hback : s.order.Pairwise fun i j => Same (s.cache.buf j) (s.cache.buf i) →
      ¬ Idle (s.cache.buf j) → ¬ Idle (s.cache.buf i) → j = i :=
    hforth.imp fun h hsame hj hi => (h ⟨hsame.1.symm, hsame.2.symm⟩ hi hj).symm
  exact hforth.forall_of_forall_of_flip (fun i _ _ _ _ => rfl) hback (hs.all i) (hs.all j)
    hsame hi hj

theorem Inv.panics (hs : Inv s) (dev blockno : Nat) : s.cache.bget dev blockno = none ↔
    ∀ b, (s.cache.buf b).has dev blockno = false ∧ (s.cache.buf b).unused = false := by
  rw [hs.bget_eq, Option.map_eq_none_iff]
  unfold choose
  cases hfind : s.order.find? fun b => (s.cache.buf b).has dev blockno with
  | some b =>
      refine iff_of_false (by simp) fun hall => ?_
      have hhas : (s.cache.buf b).has dev blockno = true := by simpa using List.find?_some hfind
      rw [(hall b).1] at hhas
      exact Bool.noConfusion hhas
  | none =>
      show Option.map _ _ = none ↔ _
      rw [Option.map_eq_none_iff, List.find?_eq_none]
      rw [List.find?_eq_none] at hfind
      constructor
      · intro hunused b
        have h₁ := hfind b (hs.all b)
        have h₂ := hunused b (List.mem_reverse.2 (hs.all b))
        simp only [Bool.not_eq_true] at h₁ h₂
        exact ⟨h₁, h₂⟩
      · intro hall b _
        simp [(hall b).2]

variable [DecidableEq κ]

theorem count_erase (hr : r ∈ s.held) (i : Fin NBUF) :
    s.held.countP (fun q => q.slot = i) =
      (s.held.erase r).countP (fun q => q.slot = i) + if r.slot = i then 1 else 0 := by
  rw [(List.perm_cons_erase hr).countP_eq, List.countP_cons]
  simp

theorem dropped_keeps (hs : Inv s) (hr : r ∈ s.held) :
    Inv ⟨s.cache.dropped r.slot, s.order, s.held.erase r⟩ := by
  have hsame : Same ((s.cache.buf r.slot).withRefcnt ((s.cache.buf r.slot).refcnt - 1))
      (s.cache.buf r.slot) := ⟨rfl, rfl⟩
  constructor
  case ring => exact hs.ring
  case all => exact hs.all
  case count =>
    intro i
    have hcount := count_erase hr i
    rw [← hs.count] at hcount
    show ((s.cache.setBuf r.slot _).buf i).refcnt = _
    by_cases hi : i = r.slot
    · subst hi
      rw [if_pos rfl] at hcount
      rw [setBuf_self]
      show (s.cache.buf r.slot).refcnt - 1 = (s.held.erase r).countP fun q => q.slot = r.slot
      omega
    · rw [if_neg (Ne.symm hi)] at hcount
      rw [setBuf_other hi]
      exact hcount
  case primary =>
    exact hs.primary.update hs.nodup (hs.primary.before (hs.held_not_idle hr) hsame)
      (hs.primary.after hsame)
  case named => exact fun q hq => named_update hs hsame (List.mem_of_mem_erase hq)

theorem brelse_keeps (hs : Inv s) (hr : r ∈ s.held) :
    Inv ⟨s.cache.brelse r.slot,
      if (s.cache.buf r.slot).refcnt = 1 then toFront s.order r.slot else s.order,
      s.held.erase r⟩ := by
  have hpos := hs.held_pos hr
  have hdropped := dropped_keeps hs hr
  by_cases hone : (s.cache.buf r.slot).refcnt = 1
  · have hcache : s.cache.brelse r.slot = { s.cache.dropped r.slot with
        links := (s.cache.links.unlink (.buf r.slot)).insert .head (.buf r.slot) } := by
      unfold Cache.brelse
      simp only [setBuf_self, Buf.withRefcnt]
      rw [if_pos (by omega)]
      rfl
    rw [if_pos hone, hcache]
    obtain ⟨l₁, l₂, horder⟩ := List.append_of_mem (hs.all r.slot)
    refine moved_keeps hdropped horder ?_
    have hsame : Same ((s.cache.dropped r.slot).buf r.slot) (s.cache.buf r.slot) := by
      unfold Cache.dropped
      rw [setBuf_self]
      exact ⟨rfl, rfl⟩
    refine ((hs.primary.before (hs.held_not_idle hr) hsame).and hs.nodup).imp ?_
    rintro i j ⟨hij, hne⟩ rfl
    have hi : (s.cache.dropped r.slot).buf i = s.cache.buf i := setBuf_other hne
    rw [hi]
    exact hij rfl
  · have hcache : s.cache.brelse r.slot = s.cache.dropped r.slot := by
      unfold Cache.brelse
      simp only [setBuf_self, Buf.withRefcnt]
      rw [if_neg (by omega)]
      rfl
    rw [if_neg hone, hcache]
    exact hdropped

theorem step_keeps {m : Move κ} (hs : Inv s) (h : Step s m s') : Inv s' := by
  cases h with
  | bget got => exact bget_keeps hs got
  | brelse has => exact brelse_keeps hs has
  | iderw has => exact flags_keeps hs has ⟨rfl, rfl⟩ rfl
  | dirty has => exact flags_keeps hs has ⟨rfl, rfl⟩ rfl

theorem reachable_inv (hrun : Run (system κ) anyStep tr s) : Inv s :=
  hrun.invariant (fun _ h => h ▸ inv_binit) fun _ _ _ hs h _ => step_keeps hs h

/-! ## What holds in every run -/

/-- What the users of the cache rely on. -/
structure Sound (s : State κ) : Prop where
  /-- a block is in one buffer at most -/
  one_copy : ∀ i j, Same (s.cache.buf i) (s.cache.buf j) → ¬ Idle (s.cache.buf i) →
    ¬ Idle (s.cache.buf j) → i = j
  /-- a buffer is not recycled while a process has it -/
  kept : ∀ r ∈ s.held, (s.cache.buf r.slot).has r.dev r.blockno = true
  /-- the buffer that is recycled is the one that was released the longest time ago -/
  lru : ∀ dev blockno, s.cache.bget dev blockno =
    (choose s.order s.cache.buf dev blockno).map fun q => (q.1, s.cache.setBuf q.1 q.2)
  /-- `bget` panics only when every buffer is in use -/
  panics : ∀ dev blockno, s.cache.bget dev blockno = none ↔
    ∀ b, (s.cache.buf b).has dev blockno = false ∧ (s.cache.buf b).unused = false

/-- In every run, whatever the processes ask for and give back, and whatever they write. -/
theorem bcache_sound (hrun : Run (system κ) anyStep tr s) : Sound s where
  one_copy := fun _ _ hsame hi hj => (reachable_inv hrun).one_copy hsame hi hj
  kept := (reachable_inv hrun).named
  lru := (reachable_inv hrun).bget_eq
  panics := (reachable_inv hrun).panics

/-! ## A run in which a buffer is recycled -/

/-- A block that is not cached is asked for and given back: it gets the last buffer of the
list, which is in front then. -/
theorem turn {s : State Unit} {tr : List (Move Unit)} (hrun : Run (system Unit) anyStep tr s)
    (horder : s.order = order ++ [b])
    (hnew : ∀ i ∈ s.order, (s.cache.buf i).has dev blockno = false)
    (hunused : (s.cache.buf b).unused = true) :
    ∃ s', Run (system Unit) anyStep
        (.brelse ⟨(), b, dev, blockno⟩ :: .bget () dev blockno :: tr) s' ∧
      s'.held = s.held ∧ s'.order = b :: order ∧
      s'.cache.buf = Function.update s.cache.buf b ⟨dev, blockno, false, false, 0⟩ := by
  have hs := reachable_inv hrun
  have hb : b ∉ order := by
    have hnd := hs.nodup
    rw [horder] at hnd
    exact fun hb => (List.disjoint_of_nodup_append hnd) hb (List.mem_singleton_self b)
  have hchoose : choose s.order s.cache.buf dev blockno =
      some (b, ⟨dev, blockno, false, false, 1⟩) := by
    unfold choose
    rw [List.find?_eq_none.2 fun i hi => by simp [hnew i hi], horder, List.reverse_append]
    rw [List.reverse_singleton, List.singleton_append, List.find?_cons_of_pos (by exact hunused)]
    rfl
  have hgot : s.cache.bget dev blockno =
      some (b, s.cache.setBuf b ⟨dev, blockno, false, false, 1⟩) := by
    rw [hs.bget_eq, hchoose]
    rfl
  refine ⟨_, .step (.step hrun (.bget hgot) trivial) (.brelse List.mem_cons_self) trivial,
    ?_, ?_, ?_⟩
  · exact List.erase_cons_head ..
  · show (if ((s.cache.setBuf b _).buf b).refcnt = 1 then toFront s.order b else s.order) = _
    rw [setBuf_self, if_pos rfl, toFront, horder, List.erase_append_right _ hb]
    simp
  · show ((s.cache.setBuf b _).brelse b).buf = _
    unfold Cache.brelse
    simp only [setBuf_self, Buf.withRefcnt, if_true]
    exact Function.update_idem ..

def nthBuf (n : Nat) : Fin NBUF := ⟨n % NBUF, Nat.mod_lt n (by decide)⟩

/-- The process asks for the blocks from 5 on, one after the other, and gives each back. -/
def turns : Nat → List (Move Unit)
  | 0 => []
  | n + 1 => .brelse ⟨(), nthBuf n, 1, 5 + n⟩ :: .bget () 1 (5 + n) :: turns n

/-- The first buffers hold the blocks, in the order of their release. -/
structure Filled (n : Nat) (s : State Unit) : Prop where
  run : Run (system Unit) anyStep (turns n) s
  order : s.order = ((List.finRange NBUF).take n).reverse ++ ((List.finRange NBUF).drop n).reverse
  buf : ∀ b, s.cache.buf b =
    if b.val < n then ⟨1, 5 + b.val, false, false, 0⟩ else ⟨0, 0, false, false, 0⟩

theorem filled (n : Nat) (hn : n ≤ NBUF) : ∃ s, Filled n s := by
  induction n with
  | zero => exact ⟨_, .init rfl, rfl, fun _ => rfl⟩
  | succ n ih =>
      obtain ⟨s, hs⟩ := ih (by omega)
      have hnth : nthBuf n = ⟨n, hn⟩ := Fin.ext (Nat.mod_eq_of_lt hn)
      have hlen : n < (List.finRange NBUF).length := by
        rw [List.length_finRange]
        exact hn
      have hget : (List.finRange NBUF)[n] = nthBuf n := by
        rw [List.getElem_finRange, hnth]
        rfl
      have horder : s.order = ((List.finRange NBUF).take n).reverse ++
          ((List.finRange NBUF).drop (n + 1)).reverse ++ [nthBuf n] := by
        rw [hs.order, List.drop_eq_getElem_cons hlen, hget, List.reverse_cons, List.append_assoc]
      obtain ⟨s', hrun, -, horder', hbuf⟩ := @turn _ 1 (5 + n) _ s _ hs.run horder
        (fun i _ => by
          rw [hs.buf]
          split
          · simp [Buf.has]
            omega
          · simp [Buf.has])
        (by rw [hs.buf, hnth, if_neg (Nat.lt_irrefl n)]; rfl)
      refine ⟨s', hrun, ?_, fun b => ?_⟩
      · rw [horder', List.take_add_one, List.getElem?_eq_getElem hlen, hget]
        simp
      · rw [hbuf]
        by_cases hb : b = nthBuf n
        · subst hb
          rw [Function.update_self, hnth, if_pos (Nat.lt_succ_self n)]
        · have hne : b.val ≠ n := fun he => hb (Fin.ext (he.trans (congrArg Fin.val hnth).symm))
          rw [Function.update_of_ne hb, hs.buf]
          by_cases hlt : b.val < n
          · rw [if_pos hlt, if_pos (by omega)]
          · rw [if_neg hlt, if_neg (by omega)]

/-- After thirty blocks every buffer has been used, and the next block gets the one that
was for the first of them. -/
theorem bcache_sound_turns :
    ∃ s s', Run (system Unit) anyStep (turns NBUF) s ∧
      (s.cache.buf (nthBuf 0)).has 1 5 = true ∧
      Run (system Unit) anyStep (turns (NBUF + 1)) s' ∧
      (s'.cache.buf (nthBuf 0)).has 1 35 = true ∧ Sound s' := by
  obtain ⟨s, hs⟩ := filled NBUF le_rfl
  have horder : s.order = (List.finRange NBUF).tail.reverse ++ [nthBuf 0] :=
    hs.order.trans (by decide)
  obtain ⟨s', hrun, -, -, hbuf⟩ := @turn _ 1 35 _ s _ hs.run horder
    (fun i _ => by
      have := i.isLt
      rw [hs.buf, if_pos this]
      simp [Buf.has, NBUF] at this ⊢
      omega)
    (by rw [hs.buf]; rfl)
  refine ⟨s, s', hs.run, ?_, hrun, ?_, bcache_sound hrun⟩
  · rw [hs.buf]
    rfl
  · rw [hbuf]
    rfl

end Bcache
end Fs
end CS444
