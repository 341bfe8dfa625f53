/-
What `beavfree` does to a well-formed heap when it finds the block.

`find_block` finds a block by the address of its header.  The block is marked
free, its capacity grows by its size, and the coalescing pass joins the runs
of free blocks.  The pass never touches `block_list_tail`.  So the heap stays
well formed exactly when the block's size is 0 and the last block of the list
is not joined to the one before it.
-/
import CS444.Beavalloc.Coalesce

namespace CS444
namespace Beavalloc

open Bytes

variable {h : Heap} {m m' : Mem} {brk prev a : Nat} {bs pre post : List Block} {b : Block}

/-! ## Tiled regions as linked lists -/

/-- The blocks lie one after another from `a` to `brk`. -/
def Stacked (brk : Nat) : Nat → List Block → Prop
  | a, [] => a = brk
  | a, b :: rest => b.addr = a ∧ Stacked brk b.stop rest

theorem tiles_iff (hpos : 0 < a) : Tiles m brk prev a bs ↔
    Chain m prev bs 0 ∧ Stacked brk a bs ∧ ∀ c ∈ bs, c.free = false → c.size ≤ c.capacity := by
  induction bs generalizing prev a with
  | nil => simp [Tiles, Chain, Stacked]
  | cons c rest ih =>
      have hstop : 0 < c.stop := by
        unfold Block.stop headerSize
        omega
      rw [Tiles, Chain, Stacked, ih hstop, headOr_zero, List.forall_mem_cons]
      constructor
      · rintro ⟨rfl, -, hhdr, hsize, hchain, hstack, hrest⟩
        exact ⟨⟨hhdr, hchain⟩, ⟨rfl, hstack⟩, hsize, hrest⟩
      · rintro ⟨⟨hhdr, hchain⟩, ⟨rfl, hstack⟩, hsize, hrest⟩
        exact ⟨rfl, hpos, hhdr, hsize, hchain, hstack, hrest⟩

theorem Stacked.bounds (h : Stacked brk a bs) : a ≤ brk ∧ ∀ c ∈ bs, a ≤ c.addr ∧ c.stop ≤ brk := by
  induction bs generalizing a with
  | nil => exact ⟨Nat.le_of_eq h, by simp⟩
  | cons c rest ih =>
      obtain ⟨rfl, hrest⟩ := h
      obtain ⟨hle, hin⟩ := ih hrest
      have hstop : c.addr + headerSize + c.capacity = c.stop := rfl
      refine ⟨by omega, fun d hd => ?_⟩
      rcases List.mem_cons.mp hd with rfl | hd
      · omega
      · have := hin d hd
        omega

theorem Stacked.apart (h : Stacked brk a bs) : bs.Pairwise Apart := by
  induction bs generalizing a with
  | nil => exact .nil
  | cons c rest ih =>
      obtain ⟨rfl, hrest⟩ := h
      have hstop : c.addr + headerSize + c.capacity = c.stop := rfl
      refine List.pairwise_cons.mpr ⟨fun d hd => ?_, ih hrest⟩
      have := (hrest.bounds.2 d hd).1
      exact Or.inl (by omega)

/-- The list of a well-formed heap. -/
theorem WellFormed.linked (hwf : WellFormed h bs) (hne : bs ≠ []) :
    Linked h.mem bs ∧ Stacked h.brk h.blockListHead bs ∧ 0 < h.blockListHead ∧
      ∀ c ∈ bs, c.free = false → c.size ≤ c.capacity := by
  have htiles := hwf.tiles hne
  have hpos : 0 < h.blockListHead := by
    cases bs with
    | nil => exact absurd rfl hne
    | cons c rest => exact htiles.2.1
  obtain ⟨hchain, hstack, hsize⟩ := (tiles_iff hpos).mp htiles
  refine ⟨⟨hchain, hstack.apart, fun c hc => ?_⟩, hstack, hpos, hsize⟩
  have hin := hstack.bounds.2 c hc
  have hstop : c.addr + headerSize + c.capacity = c.stop := rfl
  have hlt : h.brk < 2 ^ 47 := hwf.brk_lt
  omega

/-! ## Joining runs -/

/-- `capacity + header_size`, summed over a list. -/
def total (bs : List Block) : Nat := (bs.map fun b => b.capacity + headerSize).sum

theorem total_cons : total (b :: bs) = b.capacity + headerSize + total bs := by
  simp [total]

/-- Joining runs keeps the sum modulo `2 ^ 64`. -/
theorem total_joinRuns (bs : List Block) : total (joinRuns bs) % 2 ^ 64 = total bs % 2 ^ 64 := by
  induction bs with
  | nil => rfl
  | cons c bs ih =>
      show total (consRun c (joinRuns bs)) % 2 ^ 64 = _
      cases hrest : joinRuns bs with
      | nil =>
          rw [hrest] at ih
          simp only [consRun, total_cons] at ih ⊢
          omega
      | cons d rest =>
          rw [hrest] at ih
          by_cases hfree : c.free = true ∧ d.free = true
          · simp only [consRun, hfree, and_self, if_true, total_cons, Block.join] at ih ⊢
            omega
          · simp only [consRun, if_neg hfree, total_cons] at ih ⊢
            omega

theorem Stacked.total (h : Stacked brk a bs) : a + total bs = brk := by
  induction bs generalizing a with
  | nil => exact h
  | cons c rest ih =>
      obtain ⟨rfl, hrest⟩ := h
      have hstop : c.addr + headerSize + c.capacity = c.stop := rfl
      have := ih hrest
      rw [total_cons]
      omega

/-- Are the last two blocks free? -/
def lastTwoFree : List Block → Bool
  | [] | [_] => false
  | [x, y] => x.free && y.free
  | _ :: y :: z :: rest => lastTwoFree (y :: z :: rest)

theorem headAddr_joinRuns (bs : List Block) : headAddr (joinRuns bs) = headAddr bs := by
  cases bs with
  | nil => rfl
  | cons c bs =>
      show headAddr (consRun c (joinRuns bs)) = c.addr
      cases joinRuns bs with
      | nil => rfl
      | cons d rest =>
          simp only [consRun]
          split <;> rfl

/-- Blocks one after another stay so when their runs are joined. -/
theorem Stacked.joinRuns (h : Stacked brk a bs) (hbrk : brk < 2 ^ 64) :
    Stacked brk a (joinRuns bs) := by
  induction bs generalizing a with
  | nil => exact h
  | cons c bs ih =>
      obtain ⟨rfl, hrest⟩ := h
      have hjoin := ih hrest
      show Stacked brk c.addr (consRun c (Beavalloc.joinRuns bs))
      cases hbs : Beavalloc.joinRuns bs with
      | nil =>
          rw [hbs] at hjoin
          exact ⟨rfl, hjoin⟩
      | cons d rest =>
          rw [hbs] at hjoin
          simp only [consRun]
          split
          · obtain ⟨haddr, hd⟩ := hjoin
            have hle := hd.bounds.1
            have hstop : c.addr + headerSize + c.capacity = c.stop := rfl
            have hdstop : d.addr + headerSize + d.capacity = d.stop := rfl
            have heq : (c.join d).stop = d.stop := by
              simp only [Block.stop, Block.join]
              rw [Nat.mod_eq_of_lt (by omega)]
              omega
            exact ⟨rfl, by rwa [heq]⟩
          · exact ⟨rfl, hjoin⟩

theorem joinRuns_cons_ne (c : Block) (bs : List Block) : ∃ d rest, joinRuns (c :: bs) = d :: rest ∧
    d.addr = c.addr ∧ d.free = c.free := by
  show ∃ d rest, consRun c (joinRuns bs) = d :: rest ∧ d.addr = c.addr ∧ d.free = c.free
  cases joinRuns bs with
  | nil => exact ⟨c, [], rfl, rfl, rfl⟩
  | cons e rest =>
      by_cases hfree : c.free = true ∧ e.free = true
      · exact ⟨c.join e, rest, if_pos hfree, rfl, rfl⟩
      · exact ⟨c, e :: rest, if_neg hfree, rfl, rfl⟩

theorem Stacked.lt_lastAddr {x y : Block} (h : Stacked brk a (x :: y :: bs)) (d : Nat) :
    x.addr < lastAddr d (y :: bs) := by
  induction bs generalizing x y a d with
  | nil =>
      obtain ⟨rfl, hy, -⟩ := h
      have hstop : x.addr + headerSize + x.capacity = x.stop := rfl
      unfold headerSize at hstop
      show x.addr < y.addr
      omega
  | cons z bs ih =>
      obtain ⟨rfl, hrest⟩ := h
      have hy : y.addr = x.stop := hrest.1
      have hstop : x.addr + headerSize + x.capacity = x.stop := rfl
      have := ih hrest y.addr
      show x.addr < lastAddr y.addr (z :: bs)
      omega

/-- The last block keeps its place unless it and the one before it are free. -/
theorem lastAddr_joinRuns (h : Stacked brk a bs) (d : Nat) :
    lastAddr d (joinRuns bs) = lastAddr d bs ↔ lastTwoFree bs = false := by
  induction bs generalizing a d with
  | nil => simp [joinRuns, lastAddr, lastTwoFree]
  | cons x bs ih =>
      cases bs with
      | nil => simp [joinRuns, consRun, lastAddr, lastTwoFree]
      | cons y bs =>
          have hlt := h.lt_lastAddr x.addr
          have htail := ih h.2 x.addr
          obtain ⟨e, rest, hjoin, haddr, hfree⟩ := joinRuns_cons_ne y bs
          have hgoal : joinRuns (x :: y :: bs) = consRun x (e :: rest) := by
            rw [← hjoin]
            rfl
          rw [hgoal]
          rw [hjoin] at htail
          show lastAddr d (consRun x (e :: rest)) = lastAddr x.addr (y :: bs) ↔ _
          cases bs with
          | nil =>
              obtain ⟨rfl, rfl⟩ : y = e ∧ [] = rest := by simpa [joinRuns, consRun] using hjoin
              by_cases hboth : x.free = true ∧ y.free = true
              · have hne : x.addr ≠ lastAddr x.addr [y] := by omega
                simpa [consRun, hboth, lastAddr, lastTwoFree] using hne
              · simp only [consRun, if_neg hboth, lastAddr, lastTwoFree, true_iff]
                simpa using hboth
          | cons z bs =>
              rw [show lastTwoFree (x :: y :: z :: bs) = lastTwoFree (y :: z :: bs) from rfl]
              by_cases hboth : x.free = true ∧ e.free = true
              · rw [consRun, if_pos hboth, ← htail]
                cases rest with
                | nil =>
                    have hy := h.2.lt_lastAddr y.addr
                    have hlast : lastAddr x.addr (y :: z :: bs) = lastAddr y.addr (z :: bs) := rfl
                    simp only [lastAddr, join_addr]
                    simp only [lastAddr] at hlt hlast hy
                    constructor <;> intro heq <;> omega
                | cons f rest => exact Iff.rfl
              · rw [consRun, if_neg hboth, ← htail]
                exact Iff.rfl

/-- A free block lies inside a block of the joined list. -/
theorem Stacked.covered (h : Stacked brk a bs) (hbrk : brk < 2 ^ 64) {c : Block} (hc : c ∈ bs)
    (hfree : c.free = true) :
    ∃ d ∈ Beavalloc.joinRuns bs, d.free = true ∧ d.addr ≤ c.addr ∧ c.stop ≤ d.stop := by
  induction bs generalizing a with
  | nil => simp at hc
  | cons x bs ih =>
      obtain ⟨rfl, hrest⟩ := h
      have hxstop : x.addr + headerSize + x.capacity = x.stop := rfl
      have hjoin := hrest.joinRuns hbrk
      show ∃ d ∈ consRun x (Beavalloc.joinRuns bs), _
      cases hbs : Beavalloc.joinRuns bs with
      | nil =>
          have hnil : bs = [] := by
            cases bs with
            | nil => rfl
            | cons y bs =>
                obtain ⟨d, rest, hd, -⟩ := joinRuns_cons_ne y bs
                rw [hbs] at hd
                exact absurd hd (by simp)
          subst hnil
          obtain rfl : c = x := by simpa using hc
          exact ⟨c, by simp [consRun], hfree, Nat.le_refl _, Nat.le_refl _⟩
      | cons e rest =>
          rw [hbs] at hjoin
          obtain ⟨headdr, hin⟩ := hjoin
          have hestop : e.addr + headerSize + e.capacity = e.stop := rfl
          have hele := hin.bounds.1
          by_cases hboth : x.free = true ∧ e.free = true
          · have hstop : (x.join e).stop = e.stop := by
              simp only [Block.stop, Block.join]
              rw [Nat.mod_eq_of_lt (by omega)]
              omega
            rw [consRun, if_pos hboth]
            rcases List.mem_cons.mp hc with rfl | hc
            · exact ⟨c.join e, by simp, hfree, Nat.le_refl _, by omega⟩
            · obtain ⟨d, hd, hdfree, hle, hge⟩ := ih hrest hc
              rw [hbs] at hd
              rcases List.mem_cons.mp hd with rfl | hd
              · refine ⟨x.join d, by simp, hboth.1, ?_, by omega⟩
                rw [join_addr]
                omega
              · exact ⟨d, by simp [hd], hdfree, hle, hge⟩
          · rw [consRun, if_neg hboth]
            rcases List.mem_cons.mp hc with rfl | hc
            · exact ⟨c, by simp, hfree, Nat.le_refl _, Nat.le_refl _⟩
            · obtain ⟨d, hd, hrest'⟩ := ih hrest hc
              rw [hbs] at hd
              exact ⟨d, List.mem_cons_of_mem x hd, hrest'⟩

/-- A block in use stays as it is. -/
theorem mem_joinRuns {c : Block} (hc : c ∈ bs) (huse : c.free = false) : c ∈ joinRuns bs := by
  induction bs with
  | nil => simp at hc
  | cons x bs ih =>
      show c ∈ consRun x (joinRuns bs)
      cases hbs : joinRuns bs with
      | nil =>
          rcases List.mem_cons.mp hc with rfl | hc
          · simp [consRun]
          · have := ih hc
            simp [hbs] at this
      | cons e rest =>
          rcases List.mem_cons.mp hc with rfl | hc
          · rw [consRun, if_neg (by simp [huse])]
            simp
          · have hmem := ih hc
            rw [hbs] at hmem
            simp only [consRun]
            split
            · rename_i hboth
              rcases List.mem_cons.mp hmem with rfl | hmem
              · exact absurd (huse.symm.trans hboth.2) (by simp)
              · exact List.mem_cons_of_mem _ hmem
            · exact List.mem_cons_of_mem _ hmem

theorem mem_of_mem_joinRuns {c : Block} (hc : c ∈ joinRuns bs) (huse : c.free = false) :
    c ∈ bs := by
  induction bs with
  | nil => exact hc
  | cons x bs ih =>
      have hc' : c ∈ consRun x (joinRuns bs) := hc
      cases hbs : joinRuns bs with
      | nil =>
          rw [hbs] at hc'
          exact List.mem_cons.mpr (Or.inl (List.mem_singleton.mp hc'))
      | cons e rest =>
          rw [hbs] at hc' ih
          simp only [consRun] at hc'
          split at hc'
          · rename_i hboth
            rcases List.mem_cons.mp hc' with rfl | hc'
            · exact absurd (huse.symm.trans hboth.1) (by simp)
            · exact List.mem_cons_of_mem x (ih (List.mem_cons_of_mem e hc'))
          · rcases List.mem_cons.mp hc' with rfl | hc'
            · exact List.mem_cons_self
            · exact List.mem_cons_of_mem x (ih hc')

/-! ## Marking the block -/

/-- The block after the three stores of `beavfree`. -/
def Block.freed (b : Block) : Block :=
  ⟨b.addr, (b.capacity + b.size) % 2 ^ 64, 0, true⟩

/-- The stores of `beavfree` before the coalescing pass. -/
def markFree (m : Mem) (a : Nat) : Mem :=
  let m := setFree m a 1
  let m := setCapacity m a ((blockCapacity m a + blockSize m a) % 2 ^ 64)
  setSize m a 0

theorem Linked.markFree (h : Linked m (pre ++ b :: post)) :
    Linked (markFree m b.addr) (pre ++ b.freed :: post) := by
  obtain ⟨hchain, hapart, hbounds⟩ := h
  obtain ⟨hpre, hhdr, hpost⟩ := chain_append.mp hchain
  have hapart' := hapart
  rw [List.pairwise_append, List.pairwise_cons] at hapart
  obtain ⟨hapre, ⟨hab, hapost⟩, hacross⟩ := hapart
  have hcap : (blockCapacity (setFree m b.addr 1) b.addr +
      blockSize (setFree m b.addr 1) b.addr) % 2 ^ 64 = b.freed.capacity := by
    have hc : blockCapacity (setFree m b.addr 1) b.addr = b.capacity := by
      refine Eq.trans ?_ hhdr.capacity
      simp (disch := omega) only [blockCapacity, setFree, load_store_of_disjoint]
    have hs : blockSize (setFree m b.addr 1) b.addr = b.size := by
      refine Eq.trans ?_ hhdr.size
      simp (disch := omega) only [blockSize, setFree, load_store_of_disjoint]
    rw [hc, hs]
    rfl
  have hmark : Beavalloc.markFree m b.addr =
      setSize (setCapacity (setFree m b.addr 1) b.addr b.freed.capacity) b.addr 0 := by
    rw [← hcap]
    rfl
  have hlt : b.freed.capacity < 256 ^ 8 := Nat.mod_lt _ (by decide)
  have hkeep : ∀ c : Block, Apart b c → ∀ z, c.addr ≤ z → z < c.addr + headerSize →
      Beavalloc.markFree m b.addr z = m z := by
    intro c hbc z hz hz'
    unfold Apart headerSize at hbc
    unfold headerSize at hz'
    rw [hmark]
    simp (disch := omega) only [setSize, setCapacity, setFree, store_apply_of_outside]
  have hself : HeaderAt (Beavalloc.markFree m b.addr) (lastAddr 0 pre) (headOr 0 post)
      b.freed := by
    rw [hmark]
    constructor <;> simp only [Block.freed]
    · simp (disch := omega) only [blockFree, setSize, setCapacity, setFree,
        load_store_of_disjoint, load_store_self]
      simp
    · simp (disch := omega) only [blockCapacity, setSize, setCapacity, load_store_of_disjoint]
      exact load_store_self hlt
    · simp (disch := omega) only [blockSize, setSize, load_store_self]
    · refine Eq.trans ?_ hhdr.prev
      simp (disch := omega) only [blockPrev, setSize, setCapacity, setFree,
        load_store_of_disjoint]
    · refine Eq.trans ?_ hhdr.next
      simp (disch := omega) only [blockNext, setSize, setCapacity, setFree,
        load_store_of_disjoint]
  refine ⟨chain_append.mpr ⟨hpre.congr fun c hc => hkeep c (hacross c hc b (by simp)).symm,
    hself, hpost.congr fun c hc => hkeep c (hab c hc)⟩, ?_, fun c hc => ?_⟩
  · rw [List.pairwise_append, List.pairwise_cons]
    refine ⟨hapre, ⟨hab, hapost⟩, fun c hc d hd => ?_⟩
    rcases List.mem_cons.mp hd with rfl | hd
    · exact hacross c hc b (by simp)
    · exact hacross c hc d (by simp [hd])
  · rcases List.mem_append.mp hc with hc | hc
    · exact hbounds c (by simp [hc])
    · rcases List.mem_cons.mp hc with rfl | hc
      · exact hbounds b (by simp)
      · exact hbounds c (by simp [hc])

/-! ## `beavfree` -/

/-- `find_block` finds the block whose header is at the argument. -/
theorem findBlock_linked {fuel : Nat} (h : Chain m prev bs 0) (hpos : ∀ c ∈ bs, 0 < c.addr)
    {ptr r : Nat} (hr : findBlock m ptr fuel (headAddr bs) = some r) (hne : r ≠ 0) :
    r = ptr ∧ ∃ b ∈ bs, b.addr = ptr := by
  induction fuel generalizing bs prev with
  | zero => exact absurd hr (by simp [findBlock])
  | succ fuel ih =>
      cases bs with
      | nil =>
          simp only [headAddr, findBlock, if_true] at hr
          exact absurd (Option.some.inj hr).symm hne
      | cons c rest =>
          have hc := hpos c List.mem_cons_self
          have hc' : c.addr ≠ 0 := by omega
          have hr : findBlock m ptr (fuel + 1) c.addr = some r := hr
          rw [findBlock, if_neg hc'] at hr
          by_cases heq : c.addr = ptr
          · rw [if_pos heq] at hr
            exact ⟨(Option.some.inj hr).symm.trans heq, c, List.mem_cons_self, heq⟩
          · rw [if_neg heq, h.1.next, headOr_zero] at hr
            obtain ⟨hptr, b, hb, haddr⟩ := ih h.2 (fun d hd => hpos d (by simp [hd])) hr
            exact ⟨hptr, b, List.mem_cons_of_mem c hb, haddr⟩

/-- What freeing block `b` has to achieve: a well-formed heap with the same
sum, the bytes of `b` in a free block and the other blocks in use as they
were. -/
def Freed (bs : List Block) (b : Block) (h' : Heap) : Prop :=
  ∃ bs', WellFormed h' bs' ∧ total bs' = total bs ∧
    (∃ c ∈ bs', c.free = true ∧ c.addr ≤ b.addr ∧ b.stop ≤ c.stop) ∧
    ∀ c ∈ bs, c.addr ≠ b.addr → c.free = false → c ∈ bs'

/-- The list with the block at `ptr` marked free. -/
def marked (ptr : Nat) (bs : List Block) : List Block :=
  bs.map fun c => if c.addr = ptr then { c with free := true } else c

theorem marked_append (hapart : (pre ++ b :: post).Pairwise Apart) :
    marked b.addr (pre ++ b :: post) = pre ++ { b with free := true } :: post := by
  have hne : ∀ c : Block, Apart b c → c.addr ≠ b.addr := by
    intro c hbc
    unfold Apart headerSize at hbc
    omega
  rw [List.pairwise_append, List.pairwise_cons] at hapart
  obtain ⟨-, ⟨hab, -⟩, hacross⟩ := hapart
  have hkeep : ∀ l : List Block, (∀ c ∈ l, c.addr ≠ b.addr) →
      l.map (fun c => if c.addr = b.addr then { c with free := true } else c) = l := by
    intro l hl
    refine (List.map_congr_left fun c hc => ?_).trans (List.map_id l)
    rw [if_neg (hl c hc)]
    rfl
  rw [marked, List.map_append, List.map_cons, if_pos rfl,
    hkeep pre fun c hc => hne c (hacross c hc b (by simp)).symm,
    hkeep post fun c hc => hne c (hab c hc)]

theorem Stacked.marked (h : Stacked brk a bs) (ptr : Nat) :
    Stacked brk a (Beavalloc.marked ptr bs) := by
  induction bs generalizing a with
  | nil => exact h
  | cons c rest ih =>
      obtain ⟨rfl, hrest⟩ := h
      have htail := ih hrest
      by_cases hc : c.addr = ptr
      · simp only [Beavalloc.marked, List.map_cons, if_pos hc] at htail ⊢
        exact ⟨rfl, htail⟩
      · simp only [Beavalloc.marked, List.map_cons, if_neg hc] at htail ⊢
        exact ⟨rfl, htail⟩

theorem lastAddr_marked (ptr d : Nat) : lastAddr d (marked ptr bs) = lastAddr d bs := by
  induction bs generalizing d with
  | nil => rfl
  | cons c rest ih =>
      have haddr : (if c.addr = ptr then { c with free := true } else c).addr = c.addr := by
        split <;> rfl
      show lastAddr (if c.addr = ptr then { c with free := true } else c).addr
        (marked ptr rest) = lastAddr c.addr rest
      rw [haddr, ih]

theorem beavfree_run (pre post : List Block) (hwf : WellFormed h (pre ++ b :: post))
    (huse : b.free = false) {fuel : Nat}
    (hfind : findBlock h.mem b.addr fuel h.blockListHead = some b.addr)
    (hfuel : (pre ++ b :: post).length < fuel) :
    ∃ m', beavfree fuel b.addr h = some { h with mem := m' } ∧
      Linked m' (joinRuns (pre ++ b.freed :: post)) := by
  obtain ⟨hlinked, -, -, -⟩ := hwf.linked (by simp)
  have hhdr := hlinked.chain.header
  have hpos := (hlinked.bounds b (by simp)).1
  have hinuse : blockFree h.mem b.addr = 0 := by
    by_contra hne
    exact absurd (huse.symm.trans (hhdr.free.mp hne)) (by simp)
  have hmark := hlinked.markFree
  have hcoal : ∃ m', coalesce fuel h.blockListHead (markFree h.mem b.addr) = some m' ∧
      Linked m' (joinRuns (pre ++ b.freed :: post)) := by
    rw [hwf.head]
    cases pre with
    | nil =>
        exact coalesce_linked [] b.freed post hmark List.isChain_nil
          (by simp only [List.nil_append, List.length_cons] at hfuel; omega)
    | cons c rest =>
        refine coalesce_linked [] c (rest ++ b.freed :: post) hmark List.isChain_nil ?_
        simp only [List.cons_append, List.length_cons, List.length_append] at hfuel ⊢
        omega
  obtain ⟨m', hm', hresult⟩ := hcoal
  refine ⟨m', ?_, hresult⟩
  have hguard : ¬ (b.addr = 0 ∨ b.addr = 0 ∨ blockFree h.mem b.addr ≠ 0) := by
    rw [hinuse]
    omega
  unfold markFree at hm'
  simp only [beavfree, hfind, if_neg hguard, hm']

theorem total_freed : total (pre ++ b.freed :: post) % 2 ^ 64 =
    (total (pre ++ b :: post) + b.size) % 2 ^ 64 := by
  simp only [total, List.map_append, List.map_cons, List.sum_append, List.sum_cons, Block.freed]
  omega

theorem freed_of_size_zero (hcap : b.capacity < 2 ^ 64) (hsize : b.size = 0) :
    b.freed = { b with free := true } := by
  simp only [Block.freed, hsize, Nat.add_zero, Nat.mod_eq_of_lt hcap]

/-- The joined list is what `beavfree` should leave exactly when the block's
size is 0 and the last block is not joined to the one before it. -/
theorem freed_iff (pre post : List Block) (hwf : WellFormed h (pre ++ b :: post))
    (hfree : b.free = false) (hjoined : Linked m' (joinRuns (pre ++ b.freed :: post))) :
    Freed (pre ++ b :: post) b { h with mem := m' } ↔
      b.size = 0 ∧ lastTwoFree (marked b.addr (pre ++ b :: post)) = false := by
  obtain ⟨hlinked, hstack, hheadpos, hsizes⟩ := hwf.linked (by simp)
  have hbrk : h.brk < 2 ^ 47 := hwf.brk_lt
  have hin := hstack.bounds.2 b (by simp)
  have hstop : b.addr + headerSize + b.capacity = b.stop := rfl
  have hle := hsizes b (by simp) hfree
  have hmarked := marked_append hlinked.apart
  constructor
  · rintro ⟨bs', hwf', htotal, ⟨c, hc, -⟩, -⟩
    have hne' : bs' ≠ [] := List.ne_nil_of_mem hc
    obtain ⟨hlinked', -, -, -⟩ := hwf'.linked hne'
    have hhead : headAddr bs' = headAddr (joinRuns (pre ++ b.freed :: post)) := by
      have hsame : headAddr (pre ++ b.freed :: post) = headAddr (pre ++ b :: post) := by
        cases pre <;> rfl
      rw [headAddr_joinRuns, hsame, ← hwf.head, ← hwf'.head]
    have heq : bs' = joinRuns (pre ++ b.freed :: post) :=
      hlinked'.chain.unique hjoined.chain hhead (fun d hd => (hlinked'.bounds d hd).1)
        fun d hd => (hjoined.bounds d hd).1
    have hsize : b.size = 0 := by
      have hsum := total_joinRuns (pre ++ b.freed :: post)
      rw [← heq, htotal, total_freed] at hsum
      have := hstack.total
      omega
    refine ⟨hsize, ?_⟩
    have hfreed := freed_of_size_zero (by omega) hsize
    rw [← lastAddr_joinRuns (hstack.marked b.addr) 0, lastAddr_marked, hmarked, ← hfreed, ← heq,
      ← hwf'.tail, ← hwf.tail]
  · rintro ⟨hsize, hlast⟩
    have hfreed := freed_of_size_zero (by omega) hsize
    rw [hfreed, ← hmarked] at hjoined
    have hstack' := hstack.marked b.addr
    have hjoinStack := hstack'.joinRuns (by omega)
    have hmem : b.freed ∈ marked b.addr (pre ++ b :: post) := by
      rw [hmarked, hfreed]
      simp
    have hfreedStop : b.freed.stop = b.stop := by
      rw [hfreed]
      rfl
    refine ⟨joinRuns (marked b.addr (pre ++ b :: post)), ⟨?_, ?_, fun _ => ?_, hwf.brk_pos,
      hwf.brk_lt⟩, ?_, ?_, ?_⟩
    · show h.blockListHead = _
      rw [headAddr_joinRuns, hmarked, hwf.head]
      cases pre <;> rfl
    · show h.blockListTail = _
      rw [(lastAddr_joinRuns hstack' 0).mpr hlast, lastAddr_marked, hwf.tail]
    · refine (tiles_iff hheadpos).mpr ⟨hjoined.chain, hjoinStack, fun c hc huse' => ?_⟩
      have hc := mem_of_mem_joinRuns hc huse'
      rw [hmarked] at hc
      refine hsizes c ?_ huse'
      rcases List.mem_append.mp hc with hc | hc
      · simp [hc]
      · rcases List.mem_cons.mp hc with rfl | hc
        · exact absurd huse' (by simp)
        · simp [hc]
    · have hnew := hjoinStack.total
      have hold := hstack.total
      omega
    · obtain ⟨c, hc, hcfree, hle', hge⟩ := hstack'.covered (by omega) hmem rfl
      exact ⟨c, hc, hcfree, hle', by omega⟩
    · intro c hc hcb hcuse
      refine mem_joinRuns ?_ hcuse
      rw [hmarked]
      rcases List.mem_append.mp hc with hc | hc
      · simp [hc]
      · rcases List.mem_cons.mp hc with rfl | hc
        · exact absurd rfl hcb
        · simp [hc]

/-- `beavfree` of a block in use keeps the heap well formed exactly when the
block's size is 0 and the last block is not joined to the one before it. -/
theorem beavfree_freed_iff (hwf : WellFormed h bs) {fuel ptr r : Nat}
    (hfind : findBlock h.mem ptr fuel h.blockListHead = some r) (hne : r ≠ 0)
    (huse : blockFree h.mem r = 0) (hfuel : bs.length < fuel) :
    ∃ b ∈ bs, b.addr = ptr ∧ ∃ h', beavfree fuel ptr h = some h' ∧
      (Freed bs b h' ↔ b.size = 0 ∧ lastTwoFree (marked ptr bs) = false) := by
  have hbs : bs ≠ [] := by
    rintro rfl
    have hzero : h.blockListHead = 0 := hwf.head
    rw [hzero] at hfind
    cases fuel with
    | zero => exact absurd hfind (by simp [findBlock])
    | succ fuel =>
        rw [findBlock, if_pos rfl] at hfind
        exact hne (Option.some.inj hfind).symm
  obtain ⟨hlinked, -⟩ := hwf.linked hbs
  obtain ⟨rfl, b, hb, rfl⟩ := findBlock_linked hlinked.chain
    (fun c hc => (hlinked.bounds c hc).1) (hwf.head ▸ hfind) hne
  obtain ⟨pre, post, rfl⟩ := List.append_of_mem hb
  have hfree : b.free = false := by
    by_contra hfree
    exact hlinked.chain.header.free.mpr (by simpa using hfree) huse
  obtain ⟨m', hrun, hjoined⟩ := beavfree_run pre post hwf hfree hfind hfuel
  exact ⟨b, hb, rfl, { h with mem := m' }, hrun, freed_iff pre post hwf hfree hjoined⟩

/-- A free block, a block in use of size 0 and one in use with 100 bytes. -/
def freeUsedUsed : List Block :=
  [⟨4096, 984, 0, true⟩, ⟨5120, 984, 0, false⟩, ⟨6144, 984, 100, false⟩]

theorem freeUsedUsed_wellFormed : WellFormed (heapOf freeUsedUsed 7168) freeUsedUsed := by
  refine ⟨rfl, rfl, fun _ => ⟨rfl, by decide, ?_, by decide, rfl, by decide, ?_, by decide, rfl,
    by decide, ?_, by decide, rfl⟩, by decide, by decide⟩
  all_goals constructor <;> decide +kernel

/-- Freeing the middle block joins it to the free one before it. -/
theorem beavfree_freed_iff_joins :
    ∃ h', beavfree 4 5120 (heapOf freeUsedUsed 7168) = some h' ∧
      Freed freeUsedUsed ⟨5120, 984, 0, false⟩ h' ∧ blockCapacity h'.mem 4096 = 2008 := by
  have hfind : findBlock (heapOf freeUsedUsed 7168).mem 5120 4
      (heapOf freeUsedUsed 7168).blockListHead = some 5120 := by decide +kernel
  have huse : blockFree (heapOf freeUsedUsed 7168).mem 5120 = 0 := by decide +kernel
  have hjoined : (beavfree 4 5120 (heapOf freeUsedUsed 7168)).map
      (fun h' => blockCapacity h'.mem 4096) = some 2008 := by decide +kernel
  obtain ⟨b, hb, haddr, h', hrun, hiff⟩ :=
    beavfree_freed_iff freeUsedUsed_wellFormed hfind (by decide) huse (by decide)
  obtain rfl : b = ⟨5120, 984, 0, false⟩ := by
    rcases List.mem_cons.mp hb with rfl | hb
    · exact absurd haddr (by decide)
    · rcases List.mem_cons.mp hb with rfl | hb
      · rfl
      · obtain rfl := List.mem_singleton.mp hb
        exact absurd haddr (by decide)
  rw [hrun] at hjoined
  exact ⟨h', hrun, hiff.mpr ⟨rfl, by decide⟩, Option.some.inj hjoined⟩

/-- A heap of one block in use, as `beavalloc(size)` makes it. -/
def oneUsed (size : Nat) : Heap where
  mem := setSize (setCapacity (fun _ => 0) 4096 984) 4096 size
  blockListHead := 4096
  blockListTail := 4096
  lowerMemBound := 4096
  upperMemBound := 5120
  brk := 5120
  errno := 0

theorem oneUsed_wellFormed (size : Nat) (hsize : size ≤ 984) :
    WellFormed (oneUsed size) [⟨4096, 984, size, false⟩] := by
  refine ⟨rfl, rfl, fun _ => ⟨rfl, ?_, ?_, fun _ => hsize, rfl⟩, ?_, ?_⟩
  · show 0 < 4096
    decide
  rotate_left
  · show 0 < 5120
    decide
  · show 5120 < addrLimit
    decide
  constructor <;> simp only [oneUsed, headAddr]
  · simp (disch := omega) only [blockFree, setSize, setCapacity, load_store_of_disjoint]
    decide
  · simp (disch := omega) only [blockCapacity, setSize, setCapacity, load_store_of_disjoint,
      load_store_self]
  · simp (disch := omega) only [blockSize, setSize, load_store_self]
  · simp (disch := omega) only [blockPrev, setSize, setCapacity, load_store_of_disjoint]
    decide
  · simp (disch := omega) only [blockNext, setSize, setCapacity, load_store_of_disjoint]
    decide

theorem oneUsed_found (size : Nat) (hsize : size ≤ 984) :
    findBlock (oneUsed size).mem 4096 2 4096 = some 4096 ∧
      blockFree (oneUsed size).mem 4096 = 0 := by
  refine ⟨by simp [findBlock], ?_⟩
  by_contra hne
  exact absurd ((oneUsed_wellFormed size hsize).tiles (by simp)).2.2.1.free (by simp [hne])

/-- `beavfree` of the one block, of 100 bytes, leaves a capacity of 1084 in a
heap of 1024 bytes. -/
theorem oneUsed_broken :
    WellFormed (oneUsed 100) [⟨4096, 984, 100, false⟩] ∧
      findBlock (oneUsed 100).mem 4096 2 (oneUsed 100).blockListHead = some 4096 ∧
      ∃ h', beavfree 2 4096 (oneUsed 100) = some h' ∧
        ¬ Freed [⟨4096, 984, 100, false⟩] ⟨4096, 984, 100, false⟩ h' := by
  have hwf := oneUsed_wellFormed 100 (by decide)
  have hfind := (oneUsed_found 100 (by decide)).1
  obtain ⟨m', hrun, hjoined⟩ := beavfree_run [] [] hwf rfl hfind (by decide)
  refine ⟨hwf, hfind, _, hrun, fun hfreed => ?_⟩
  have hsize := ((freed_iff [] [] hwf rfl hjoined).mp hfreed).1
  exact absurd hsize (by decide)

end Beavalloc
end CS444
