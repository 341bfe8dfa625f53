/-
The coalescing pass of `beavfree`.

The pass walks the list once and merges a free block into the one before it
and the one after it.  `Chain` says that a memory holds the headers of a list
of blocks linked both ways, wherever they lie; `joinRuns` is the list in which
every run of free blocks has become its first block.  The theorem of this file
is `coalesce_linked`: the pass comes back and leaves `joinRuns` of the list it
was given.
-/
import CS444.Beavalloc.WellFormed
import Mathlib.Data.List.Chain

namespace CS444
namespace Beavalloc

open Bytes

variable {m m' : Mem} {prev nxt : Nat} {bs pre post : List Block} {b x y : Block}

/-! ## Linked lists of headers -/

/-- The address a list starts at, `nxt` if it is empty. -/
def headOr (nxt : Nat) : List Block → Nat
  | [] => nxt
  | b :: _ => b.addr

/-- The headers of `bs` are in memory, from `prev` to `nxt`. -/
def Chain (m : Mem) : Nat → List Block → Nat → Prop
  | _, [], _ => True
  | prev, b :: rest, nxt => HeaderAt m prev (headOr nxt rest) b ∧ Chain m b.addr rest nxt

/-- Two headers do not overlap. -/
def Apart (b c : Block) : Prop :=
  b.addr + headerSize ≤ c.addr ∨ c.addr + headerSize ≤ b.addr

structure Linked (m : Mem) (bs : List Block) : Prop where
  chain : Chain m 0 bs 0
  apart : bs.Pairwise Apart
  bounds : ∀ b ∈ bs, 0 < b.addr ∧ b.addr < 2 ^ 64

theorem headOr_zero (bs : List Block) : headOr 0 bs = headAddr bs := by
  cases bs <;> rfl

theorem headOr_append (l : List Block) : headOr nxt (l ++ bs) = headOr (headOr nxt bs) l := by
  cases l <;> rfl

theorem chain_append {l : List Block} :
    Chain m prev (l ++ bs) nxt ↔
      Chain m prev l (headOr nxt bs) ∧ Chain m (lastAddr prev l) bs nxt := by
  induction l generalizing prev with
  | nil => simp [Chain, lastAddr]
  | cons a l ih =>
      rw [List.cons_append, Chain, Chain, headOr_append, ih]
      exact and_assoc.symm

/-- A chain depends only on the bytes of its headers. -/
theorem Chain.congr (h : Chain m prev bs nxt)
    (hagree : ∀ c ∈ bs, ∀ z, c.addr ≤ z → z < c.addr + headerSize → m' z = m z) :
    Chain m' prev bs nxt := by
  induction bs generalizing prev with
  | nil => trivial
  | cons a bs ih =>
      exact ⟨h.1.congr (hagree a List.mem_cons_self),
        ih h.2 fun c hc => hagree c (List.mem_cons_of_mem a hc)⟩

/-- A memory holds one list from a given address to a given end. -/
theorem Chain.unique {bs' : List Block} {prev' : Nat} (h : Chain m prev bs 0)
    (h' : Chain m prev' bs' 0) (hhead : headAddr bs = headAddr bs')
    (hpos : ∀ c ∈ bs, 0 < c.addr) (hpos' : ∀ c ∈ bs', 0 < c.addr) : bs = bs' := by
  induction bs generalizing prev prev' bs' with
  | nil =>
      cases bs' with
      | nil => rfl
      | cons c rest =>
          have := hpos' c List.mem_cons_self
          have hzero : (0 : Nat) = c.addr := hhead
          omega
  | cons a rest ih =>
      cases bs' with
      | nil =>
          have := hpos a List.mem_cons_self
          have hzero : a.addr = 0 := hhead
          omega
      | cons c rest' =>
          obtain ⟨hhdr, hrest⟩ := h
          obtain ⟨hhdr', hrest'⟩ := h'
          have haddr : a.addr = c.addr := hhead
          have hnext : headAddr rest = headAddr rest' := by
            rw [← headOr_zero, ← headOr_zero, ← hhdr.next, ← hhdr'.next, haddr]
          have htail := ih hrest hrest' hnext (fun d hd => hpos d (List.mem_cons_of_mem a hd))
            fun d hd => hpos' d (List.mem_cons_of_mem c hd)
          have hfree : a.free = c.free := by
            rw [Bool.eq_iff_iff, ← hhdr.free, ← hhdr'.free, haddr]
          have hcap : a.capacity = c.capacity := by rw [← hhdr.capacity, ← hhdr'.capacity, haddr]
          have hsize : a.size = c.size := by rw [← hhdr.size, ← hhdr'.size, haddr]
          rw [htail]
          cases a
          cases c
          simp_all

/-! ## Merging two neighbours -/

/-- `x` with the block behind it merged in. -/
def Block.join (x y : Block) : Block :=
  { x with capacity := (x.capacity + (y.capacity + headerSize)) % 2 ^ 64 }

@[simp] theorem join_addr : (x.join y).addr = x.addr := rfl

@[simp] theorem join_free : (x.join y).free = x.free := rfl

theorem join_assoc (z : Block) : (x.join y).join z = x.join (y.join z) := by
  simp only [Block.join, Block.mk.injEq, true_and, and_true]
  omega

theorem Chain.header {l : List Block} (h : Chain m prev (l ++ b :: post) nxt) :
    HeaderAt m (lastAddr prev l) (headOr nxt post) b := (chain_append.mp h).2.1

/-- What `merge_blocks` stores, for two neighbours. -/
theorem mergeBlocks_eq {p : Nat} (hx : HeaderAt m p y.addr x) (hy : HeaderAt m x.addr nxt y)
    (hpos : 0 < x.addr) (hxy : Apart x y)
    (hnext : nxt = 0 ∨ y.addr + headerSize ≤ nxt ∨ nxt + headerSize ≤ y.addr) :
    mergeBlocks m x.addr y.addr =
      setNext (if nxt ≠ 0 then setPrev (setCapacity m x.addr (x.join y).capacity) nxt x.addr
        else setCapacity m x.addr (x.join y).capacity) x.addr nxt := by
  have hcap : (blockCapacity m x.addr + (blockCapacity m y.addr + headerSize)) % 2 ^ 64 =
      (x.join y).capacity := by
    rw [hx.capacity, hy.capacity]
    rfl
  unfold Apart headerSize at hxy
  unfold headerSize at hnext
  generalize hm₁ : setCapacity m x.addr (x.join y).capacity = m₁
  have hnext₁ : blockNext m₁ y.addr = nxt := by
    refine Eq.trans ?_ hy.next
    rw [← hm₁]
    simp (disch := omega) only [blockNext, setCapacity, load_store_of_disjoint]
  have hprev₁ : blockPrev m₁ y.addr = x.addr := by
    refine Eq.trans ?_ hy.prev
    rw [← hm₁]
    simp (disch := omega) only [blockPrev, setCapacity, load_store_of_disjoint]
  simp only [mergeBlocks, hcap, hm₁, hnext₁, hprev₁]
  generalize hm₂ : (if nxt ≠ 0 then setPrev m₁ nxt x.addr else m₁) = m₂
  have hkept : blockNext m₂ y.addr = nxt ∧ blockPrev m₂ y.addr = x.addr := by
    rw [← hm₂]
    split
    · rename_i hne
      have hnext := hnext.resolve_left hne
      constructor
      · refine Eq.trans ?_ hnext₁
        simp (disch := omega) only [blockNext, setPrev, load_store_of_disjoint]
      · refine Eq.trans ?_ hprev₁
        simp (disch := omega) only [blockPrev, setPrev, load_store_of_disjoint]
    · exact ⟨hnext₁, hprev₁⟩
  rw [hkept.1, hkept.2, if_pos (by omega)]

/-- Merging two neighbours leaves their list with one block less. -/
theorem Linked.merge (h : Linked m (pre ++ x :: y :: post)) :
    Linked (mergeBlocks m x.addr y.addr) (pre ++ x.join y :: post) := by
  obtain ⟨hchain, hapart, hbounds⟩ := h
  obtain ⟨hpre, hx, hy, hpost⟩ := chain_append.mp hchain
  rw [List.pairwise_append] at hapart
  obtain ⟨hapre, hapost, hacross⟩ := hapart
  rw [List.pairwise_cons, List.pairwise_cons] at hapost
  obtain ⟨hax, hay, hapost⟩ := hapost
  obtain ⟨hxpos, hxlt⟩ := hbounds x (by simp)
  have hnext : headOr 0 post = 0 ∨ y.addr + headerSize ≤ headOr 0 post ∨
      headOr 0 post + headerSize ≤ y.addr := by
    cases post with
    | nil => exact Or.inl rfl
    | cons z rest => exact Or.inr (hay z List.mem_cons_self)
  have hmerge := mergeBlocks_eq hx hy hxpos (hax y List.mem_cons_self) hnext
  -- a block other than `x` and the one behind `y` keeps its header
  have hkeep : ∀ c : Block, Apart x c →
      (post ≠ [] → c.addr + headerSize ≤ headOr 0 post ∨ headOr 0 post + headerSize ≤ c.addr) →
      ∀ z, c.addr ≤ z → z < c.addr + headerSize →
        mergeBlocks m x.addr y.addr z = m z := by
    intro c hxc hpc z hz hz'
    rw [hmerge]
    unfold Apart headerSize at hxc
    unfold headerSize at hpc hz'
    cases post with
    | nil =>
        simp (disch := omega) only [headOr, ne_eq, not_true, if_false, setNext, setCapacity,
          store_apply_of_outside]
    | cons w rest =>
        have hpc := hpc (by simp)
        have hw : w.addr ≠ 0 := by
          have := (hbounds w (by simp)).1
          omega
        simp only [headOr] at hpc
        simp (disch := omega) only [headOr, ne_eq, hw, not_false_eq_true, if_true, setNext,
          setPrev, setCapacity, store_apply_of_outside]
  have hcapLt : (x.join y).capacity < 256 ^ 8 := Nat.mod_lt _ (by decide)
  -- the header of `x`, and of the block behind `y`
  have hxhdr : HeaderAt (mergeBlocks m x.addr y.addr) (lastAddr 0 pre) (headOr 0 post)
      (x.join y) := by
    rw [hmerge]
    cases post with
    | nil =>
        simp only [headOr, ne_eq, not_true, if_false]
        constructor <;> simp only [join_addr, join_free]
        · rw [← hx.free]
          simp (disch := omega) only [blockFree, setNext, setCapacity, load_store_of_disjoint]
        · simp (disch := omega) only [blockCapacity, setNext, setCapacity,
            load_store_of_disjoint, load_store_self]
        · refine Eq.trans ?_ hx.size
          simp (disch := omega) only [blockSize, setNext, setCapacity, load_store_of_disjoint]
        · refine Eq.trans ?_ hx.prev
          simp (disch := omega) only [blockPrev, setNext, setCapacity, load_store_of_disjoint]
        · simp (disch := omega) only [blockNext, setNext, load_store_self]
    | cons w rest =>
        have hxw := hax w (by simp)
        obtain ⟨hwpos, hwlt⟩ := hbounds w (by simp)
        unfold Apart headerSize at hxw
        have hw : w.addr ≠ 0 := by omega
        simp only [headOr, ne_eq, hw, not_false_eq_true, if_true]
        constructor <;> simp only [join_addr, join_free]
        · rw [← hx.free]
          simp (disch := omega) only [blockFree, setNext, setPrev, setCapacity,
            load_store_of_disjoint]
        · simp (disch := omega) only [blockCapacity, setNext, setPrev, setCapacity,
            load_store_of_disjoint, load_store_self]
        · refine Eq.trans ?_ hx.size
          simp (disch := omega) only [blockSize, setNext, setPrev, setCapacity,
            load_store_of_disjoint]
        · refine Eq.trans ?_ hx.prev
          simp (disch := omega) only [blockPrev, setNext, setPrev, setCapacity,
            load_store_of_disjoint]
        · simp (disch := omega) only [blockNext, setNext, load_store_self]
  have hposthdr : Chain (mergeBlocks m x.addr y.addr) x.addr post 0 := by
    cases post with
    | nil => trivial
    | cons w rest =>
        have hxw := hax w (by simp)
        obtain ⟨hwpos, hwlt⟩ := hbounds w (by simp)
        rw [List.pairwise_cons] at hapost
        refine ⟨?_, hpost.2.congr fun c hc => hkeep c (hax c (by simp [hc])) fun _ => ?_⟩
        · have hwhdr := hpost.1
          have hw : w.addr ≠ 0 := by omega
          rw [hmerge]
          simp only [headOr, ne_eq, hw, not_false_eq_true, if_true]
          unfold Apart headerSize at hxw
          constructor
          · rw [← hwhdr.free]
            simp (disch := omega) only [blockFree, setNext, setPrev, setCapacity,
              load_store_of_disjoint]
          · refine Eq.trans ?_ hwhdr.capacity
            simp (disch := omega) only [blockCapacity, setNext, setPrev, setCapacity,
              load_store_of_disjoint]
          · refine Eq.trans ?_ hwhdr.size
            simp (disch := omega) only [blockSize, setNext, setPrev, setCapacity,
              load_store_of_disjoint]
          · simp (disch := omega) only [blockPrev, setNext, setPrev, setCapacity,
              load_store_of_disjoint, load_store_self]
          · refine Eq.trans ?_ hwhdr.next
            simp (disch := omega) only [blockNext, setNext, setPrev, setCapacity,
              load_store_of_disjoint]
        · exact (hapost.1 c hc).symm
  have hprehdr : Chain (mergeBlocks m x.addr y.addr) 0 pre x.addr := by
    refine hpre.congr fun c hc => hkeep c (hacross c hc x (by simp)).symm fun hne => ?_
    cases post with
    | nil => exact absurd rfl hne
    | cons w rest => exact hacross c hc w (by simp)
  refine ⟨chain_append.mpr ⟨hprehdr, hxhdr, hposthdr⟩, ?_, fun c hc => ?_⟩
  · rw [List.pairwise_append, List.pairwise_cons]
    refine ⟨hapre, ⟨fun c hc => hax c (by simp [hc]), hapost⟩, fun c hc d hd => ?_⟩
    rcases List.mem_cons.mp hd with rfl | hd
    · exact hacross c hc x (by simp)
    · exact hacross c hc d (by simp [hd])
  · rcases List.mem_append.mp hc with hc | hc
    · exact hbounds c (by simp [hc])
    · rcases List.mem_cons.mp hc with rfl | hc
      · exact hbounds x (by simp)
      · exact hbounds c (by simp [hc])

/-! ## Runs of free blocks -/

/-- `b` in front of a list whose runs are joined. -/
def consRun (b : Block) : List Block → List Block
  | [] => [b]
  | c :: rest => if b.free = true ∧ c.free = true then b.join c :: rest else b :: c :: rest

/-- The list with every run of free blocks joined into its first block. -/
def joinRuns (bs : List Block) : List Block := bs.foldr consRun []

/-- No two neighbours are free. -/
def Settled (bs : List Block) : Prop :=
  bs.IsChain fun b c => ¬ (b.free = true ∧ c.free = true)

theorem joinRuns_append (l : List Block) : joinRuns (l ++ bs) = l.foldr consRun (joinRuns bs) :=
  List.foldr_append ..

theorem joinRuns_merge (hx : x.free = true) (hy : y.free = true) :
    joinRuns (pre ++ x.join y :: post) = joinRuns (pre ++ x :: y :: post) := by
  rw [joinRuns_append, joinRuns_append]
  congr 1
  show consRun (x.join y) (joinRuns post) = consRun x (consRun y (joinRuns post))
  cases joinRuns post with
  | nil => simp [consRun, hx, hy]
  | cons c rest =>
      by_cases hc : c.free = true
      · simp [consRun, hx, hy, hc, join_assoc]
      · simp [consRun, hx, hy, hc]

theorem joinRuns_of_settled (h : Settled bs) : joinRuns bs = bs := by
  induction bs with
  | nil => rfl
  | cons a bs ih =>
      have htail : joinRuns bs = bs := ih h.tail
      show consRun a (joinRuns bs) = a :: bs
      rw [htail]
      cases bs with
      | nil => rfl
      | cons c rest => exact if_neg (List.isChain_cons_cons.mp h).1

/-- Settledness of a list up to a block depends on whether that is free. -/
theorem settled_concat : Settled (pre ++ [b]) ↔
    Settled pre ∧ ∀ a, pre.getLast? = some a → ¬ (a.free = true ∧ b.free = true) := by
  unfold Settled
  rw [List.isChain_append]
  simp

/-! ## The pass -/

/-- The first `if` of the loop. -/
theorem mergePrev_linked (h : Linked m (pre ++ b :: post)) (hpre : Settled pre) :
    ∃ pre' b' m', mergePrev b.addr m = (b'.addr, m') ∧ Linked m' (pre' ++ b' :: post) ∧
      Settled (pre' ++ [b']) ∧
      joinRuns (pre' ++ b' :: post) = joinRuns (pre ++ b :: post) := by
  have hhdr := h.chain.header
  rcases List.eq_nil_or_concat pre with rfl | ⟨pre, a, rfl⟩
  · refine ⟨[], b, m, if_neg ?_, h, by simp [Settled], rfl⟩
    rw [hhdr.prev]
    simp [lastAddr]
  · rw [List.concat_eq_append] at h hpre hhdr ⊢
    rw [lastAddr_append] at hhdr
    rw [List.append_assoc, List.singleton_append] at h ⊢
    have hahdr := h.chain.header
    have hpos := (h.bounds a (by simp)).1
    by_cases hfree : b.free = true ∧ a.free = true
    · refine ⟨pre, a.join b, mergeBlocks m a.addr b.addr, ?_, h.merge, ?_,
        joinRuns_merge hfree.2 hfree.1⟩
      · unfold mergePrev
        rw [hhdr.prev, if_pos ⟨hhdr.free.mpr hfree.1, by omega, hahdr.free.mpr hfree.2⟩]
        rfl
      · rw [settled_concat] at hpre ⊢
        exact hpre
    · refine ⟨pre ++ [a], b, m, if_neg ?_, by simpa using h, ?_, by simp⟩
      · rw [hhdr.prev, hhdr.free, hahdr.free]
        exact fun hall => hfree ⟨hall.1, hall.2.2⟩
      · rw [settled_concat]
        refine ⟨hpre, fun c hc => ?_⟩
        obtain rfl : a = c := by simpa using hc
        exact fun hboth => hfree ⟨hboth.2, hboth.1⟩

/-- The second `if` of the loop. -/
theorem mergeNext_linked (h : Linked m (pre ++ b :: post)) (hpre : Settled (pre ++ [b])) :
    ∃ b' post', b'.addr = b.addr ∧ post'.length ≤ post.length ∧
      Linked (mergeNext b.addr m) (pre ++ b' :: post') ∧ Settled (pre ++ [b']) ∧
      joinRuns (pre ++ b' :: post') = joinRuns (pre ++ b :: post) := by
  have hhdr := h.chain.header
  have hkeep : blockNext m b.addr = 0 ∨
      ¬ (blockFree m b.addr ≠ 0 ∧ blockFree m (blockNext m b.addr) ≠ 0) →
      mergeNext b.addr m = m := by
    intro hor
    unfold mergeNext
    refine if_neg fun hall => ?_
    rcases hor with hzero | hnot
    · exact hall.2.1 hzero
    · exact hnot ⟨hall.1, hall.2.2⟩
  cases post with
  | nil =>
      refine ⟨b, [], rfl, Nat.le_refl _, ?_, hpre, rfl⟩
      rwa [hkeep (Or.inl hhdr.next)]
  | cons c post =>
      have hchdr : HeaderAt m b.addr (headOr 0 post) c := (chain_append.mp h.chain).2.2.1
      have hpos := (h.bounds c (by simp)).1
      have hnext : blockNext m b.addr = c.addr := hhdr.next
      by_cases hfree : b.free = true ∧ c.free = true
      · have hmerge : mergeNext b.addr m = mergeBlocks m b.addr c.addr := by
          unfold mergeNext
          rw [hnext, if_pos ⟨hhdr.free.mpr hfree.1, by omega, hchdr.free.mpr hfree.2⟩]
        refine ⟨b.join c, post, rfl, Nat.le_succ _, ?_, ?_, joinRuns_merge hfree.1 hfree.2⟩
        · rw [hmerge]
          exact h.merge
        · rw [settled_concat] at hpre ⊢
          exact hpre
      · refine ⟨b, c :: post, rfl, Nat.le_refl _, ?_, hpre, rfl⟩
        rwa [hkeep (Or.inr ?_)]
        rw [hnext, hhdr.free, hchdr.free]
        exact hfree

/-- One turn of the loop. -/
theorem coalesce_succ {fuel block block' : Nat} (hblock : block ≠ 0)
    (hprev : mergePrev block m = (block', m')) :
    coalesce (fuel + 1) block m =
      coalesce fuel (blockNext (mergeNext block' m') block') (mergeNext block' m') := by
  simp only [coalesce, hblock, if_false, hprev]

/-- The pass from block `b` on comes back with the runs of the whole list
joined. -/
theorem coalesce_linked {fuel : Nat} (pre : List Block) (b : Block) (post : List Block)
    (h : Linked m (pre ++ b :: post)) (hpre : Settled pre) (hfuel : post.length + 1 < fuel) :
    ∃ m', coalesce fuel b.addr m = some m' ∧ Linked m' (joinRuns (pre ++ b :: post)) := by
  induction fuel generalizing m pre b post with
  | zero => omega
  | succ fuel ih =>
      have hpos := (h.bounds b (by simp)).1
      obtain ⟨pre₁, b₁, m₁, hprev, hlinked₁, hsettled₁, hjoin₁⟩ := mergePrev_linked h hpre
      obtain ⟨b₂, post₂, haddr, hlen, hlinked₂, hsettled₂, hjoin₂⟩ :=
        mergeNext_linked hlinked₁ hsettled₁
      have hnext : blockNext (mergeNext b₁.addr m₁) b₁.addr = headOr 0 post₂ := by
        have hhdr := hlinked₂.chain.header.next
        rwa [haddr] at hhdr
      have hne : b.addr ≠ 0 := Nat.pos_iff_ne_zero.mp hpos
      have hstep : coalesce (fuel + 1) b.addr m =
          coalesce fuel (headOr 0 post₂) (mergeNext b₁.addr m₁) :=
        hnext ▸ coalesce_succ hne hprev
      rw [hstep, ← hjoin₁, ← hjoin₂]
      cases post₂ with
      | nil =>
          refine ⟨mergeNext b₁.addr m₁, ?_, ?_⟩
          · cases fuel with
            | zero => omega
            | succ fuel => simp only [headOr, coalesce, if_true]
          · rwa [joinRuns_of_settled hsettled₂]
      | cons d post₃ =>
          have hrest := ih (pre₁ ++ [b₂]) d post₃ (by simpa using hlinked₂) hsettled₂
            (by simp only [List.length_cons] at hlen; omega)
          simpa [headOr] using hrest

end Beavalloc
end CS444
