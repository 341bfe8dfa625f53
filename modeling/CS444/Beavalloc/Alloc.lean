/-
What `beavalloc` does to a well-formed heap.

`check_free_block` and `get_block` accept a free block as soon as
`curr->capacity - size > 0` in `size_t`, which every block of a different
capacity satisfies, a smaller one included.  `FitsCleanly` is the condition on
the block they stop at under which the heap stays well formed: it is larger
than the request, and if it is split, the rest has room for a header and the
block is the last of the list, since the split does not mend the `prev` link of
a following block.  `beavalloc_preserves_iff` proves the condition exact.
-/
import CS444.Beavalloc.WellFormed

namespace CS444
namespace Beavalloc

open Bytes

/-! ## `size_t` arithmetic -/

theorem subSize_lt (x y : Nat) : subSize x y < 2 ^ 64 := Nat.mod_lt _ (by decide)

theorem subSize_pos_iff {x y : Nat} (hx : x < 2 ^ 64) (hy : y < 2 ^ 64) :
    subSize x y > 0 ↔ x ≠ y := by
  unfold subSize
  omega

theorem subSize_of_le {x y : Nat} (hx : x < 2 ^ 64) (h : y ≤ x) : subSize x y = x - y := by
  unfold subSize
  omega

/-! ## The first block the search accepts -/

/-- The blocks `check_free_block` and `get_block` stop at. -/
def candidate (size : Nat) (b : Block) : Bool := b.free && decide (b.capacity ≠ size)

variable {m : Mem} {brk : Nat}

theorem HeaderAt.capacity_lt {prev next : Nat} {b : Block} (h : HeaderAt m prev next b) :
    b.capacity < 2 ^ 64 := by
  rw [← h.capacity]
  exact load_lt m (b.addr + 8) 8

/-- The test of both loops, on a block of the list. -/
theorem candidate_iff {prev next size : Nat} {b : Block} (h : HeaderAt m prev next b)
    (hsize : size < 2 ^ 64) :
    blockFree m b.addr ≠ 0 ∧ subSize (blockCapacity m b.addr) size > 0 ↔
      candidate size b = true := by
  rw [h.free, h.capacity, subSize_pos_iff h.capacity_lt hsize]
  simp [candidate]

theorem Tiles.capacity_lt {prev a : Nat} {bs : List Block} (h : Tiles m brk prev a bs)
    (hbrk : brk < addrLimit) : ∀ b ∈ bs, b.capacity < 2 ^ 64 := by
  intro b hb
  have hin := h.mem_bounds b hb
  unfold Block.stop at hin
  unfold addrLimit at hbrk
  omega

/-! ## Searching a list -/

/-- The list that starts at `a` in memory has the blocks `bs`, wherever in the
address space their headers lie and whatever the fields say. -/
def Listed (m : Mem) : Nat → List Block → Prop
  | a, [] => a = 0
  | a, b :: rest =>
    b.addr = a ∧ 0 < a ∧ a + headerSize ≤ addrLimit ∧
      HeaderAt m (blockPrev m a) (blockNext m a) b ∧ Listed m (blockNext m a) rest

theorem Listed.mem {a : Nat} {bs : List Block} (h : Listed m a bs) : ∀ b ∈ bs,
    b.addr + headerSize ≤ addrLimit ∧
      HeaderAt m (blockPrev m b.addr) (blockNext m b.addr) b := by
  induction bs generalizing a with
  | nil => simp
  | cons c rest ih =>
      obtain ⟨rfl, -, hin, hhdr, hrest⟩ := h
      intro b hb
      rcases List.mem_cons.mp hb with rfl | hb
      · exact ⟨hin, hhdr⟩
      · exact ih hrest b hb

/-- Two blocks of the list with one header are one. -/
theorem Listed.capacity_eq {a : Nat} {bs : List Block} (h : Listed m a bs) {b c : Block}
    (hb : b ∈ bs) (hc : c ∈ bs) (haddr : b.addr = c.addr) : b.capacity = c.capacity := by
  rw [← (h.mem b hb).2.capacity, ← (h.mem c hc).2.capacity, haddr]

theorem Tiles.listed {prev a : Nat} {bs : List Block} (h : Tiles m brk prev a bs)
    (hbrk : brk < addrLimit) : Listed m (headAddr bs) bs := by
  induction bs generalizing prev a with
  | nil => rfl
  | cons b rest ih =>
      have hin := (h.mem_bounds b List.mem_cons_self).2
      obtain ⟨rfl, hpos, hhdr, -, hrest⟩ := h
      unfold Block.stop at hin
      refine ⟨rfl, hpos, ?_, ?_, ?_⟩
      · show b.addr + headerSize ≤ addrLimit
        omega
      · show HeaderAt m (blockPrev m b.addr) (blockNext m b.addr) b
        rw [hhdr.prev, hhdr.next]
        exact hhdr
      · show Listed m (blockNext m b.addr) rest
        rw [hhdr.next]
        exact ih hrest

theorem checkFreeBlock_listed {size : Nat} (hsize : size < 2 ^ 64) {bs : List Block} :
    ∀ {a fuel : Nat}, Listed m a bs → bs.length < fuel →
      checkFreeBlock m size fuel a = some (bs.any (candidate size)) := by
  induction bs with
  | nil =>
      intro a fuel h hfuel
      have hend : a = 0 := h
      cases fuel with
      | zero => omega
      | succ fuel => rw [checkFreeBlock, if_pos hend, List.any_nil]
  | cons b rest ih =>
      intro a fuel h hfuel
      obtain ⟨rfl, hpos, -, hhdr, hrest⟩ := h
      cases fuel with
      | zero => omega
      | succ fuel =>
          have hiff := candidate_iff hhdr hsize
          rw [checkFreeBlock, if_neg (by omega), List.any_cons]
          by_cases hc : candidate size b = true
          · rw [if_pos (hiff.mpr hc), hc, Bool.true_or]
          · rw [if_neg (fun h => hc (hiff.mp h)), ih hrest (by simpa using hfuel),
              Bool.eq_false_iff.mpr hc, Bool.false_or]

theorem getBlock_listed {size : Nat} {h : Heap} (hsize : size < 2 ^ 64) {bs : List Block} :
    ∀ {a fuel : Nat}, Listed h.mem a bs → bs.length < fuel →
      getBlock size h fuel a =
        some (match bs.find? (candidate size) with
          | none => (0, h)
          | some b => takeBlock size b.addr h) := by
  induction bs with
  | nil =>
      intro a fuel hlist hfuel
      have hend : a = 0 := hlist
      cases fuel with
      | zero => omega
      | succ fuel => rw [getBlock, if_pos hend, List.find?_nil]
  | cons b rest ih =>
      intro a fuel hlist hfuel
      obtain ⟨rfl, hpos, -, hhdr, hrest⟩ := hlist
      cases fuel with
      | zero => omega
      | succ fuel =>
          have hiff := candidate_iff hhdr hsize
          rw [getBlock, if_neg (by omega)]
          by_cases hc : candidate size b = true
          · rw [if_pos (hiff.mpr hc), List.find?_cons_of_pos hc]
          · rw [if_neg (fun h => hc (hiff.mp h)), ih hrest (by simpa using hfuel),
              List.find?_cons_of_neg hc]

theorem checkFreeBlock_eq {size : Nat} (hsize : size < 2 ^ 64) (hbrk : brk < addrLimit)
    {bs : List Block} {prev a fuel : Nat} (h : Tiles m brk prev a bs) (hfuel : bs.length < fuel) :
    checkFreeBlock m size fuel (headAddr bs) = some (bs.any (candidate size)) :=
  checkFreeBlock_listed hsize (h.listed hbrk) hfuel

theorem getBlock_eq {size : Nat} {h : Heap} (hsize : size < 2 ^ 64) (hbrk : brk < addrLimit)
    {bs : List Block} {prev a fuel : Nat} (htiles : Tiles h.mem brk prev a bs)
    (hfuel : bs.length < fuel) :
    getBlock size h fuel (headAddr bs) =
      some (match bs.find? (candidate size) with
        | none => (0, h)
        | some b => takeBlock size b.addr h) :=
  getBlock_listed hsize (htiles.listed hbrk) hfuel

@[simp] theorem setLowerBound_mem (h : Heap) : (setLowerBound h).mem = h.mem := by
  unfold setLowerBound
  split <;> rfl

@[simp] theorem setLowerBound_head (h : Heap) :
    (setLowerBound h).blockListHead = h.blockListHead := by
  unfold setLowerBound
  split <;> rfl

@[simp] theorem setLowerBound_tail (h : Heap) :
    (setLowerBound h).blockListTail = h.blockListTail := by
  unfold setLowerBound
  split <;> rfl

@[simp] theorem setLowerBound_brk (h : Heap) : (setLowerBound h).brk = h.brk := by
  unfold setLowerBound
  split <;> rfl

/-- On a well-formed heap `beavalloc` takes the first candidate of the list, or
grows the heap when there is none. -/
theorem beavalloc_eq {h : Heap} {bs : List Block} (hwf : WellFormed h bs) {size fuel : Nat}
    (hpos : 0 < size) (hsize : size < 2 ^ 64) (hfuel : bs.length < fuel) (grant : Bool) :
    beavalloc fuel grant size h =
      match bs.find? (candidate size) with
      | none => growHeap grant size (setLowerBound h)
      | some b => some (takeBlock size b.addr (setLowerBound h)) := by
  unfold beavalloc
  rw [if_neg (by omega)]
  simp only [setLowerBound_mem, setLowerBound_head, hwf.head]
  have hcheck : checkFreeBlock h.mem size fuel (headAddr bs) =
      some (bs.any (candidate size)) := by
    cases bs with
    | nil =>
        cases fuel with
        | zero => omega
        | succ fuel => rfl
    | cons b rest => exact checkFreeBlock_eq hsize hwf.brk_lt (hwf.tiles (by simp)) hfuel
  rw [hcheck]
  cases hfind : bs.find? (candidate size) with
  | none =>
      have hany : bs.any (candidate size) = false := by
        rw [List.any_eq_false]
        intro b hb
        simpa using List.find?_eq_none.mp hfind b hb
      rw [hany]
  | some b =>
      have hmem := List.mem_of_find?_eq_some hfind
      have hany : bs.any (candidate size) = true :=
        List.any_eq_true.mpr ⟨b, hmem, List.find?_some hfind⟩
      have htiles := hwf.tiles (List.ne_nil_of_mem hmem)
      rw [← setLowerBound_mem] at htiles
      have hget := getBlock_eq (h := setLowerBound h) hsize hwf.brk_lt htiles hfuel
      rw [hany, hget, hfind]

/-! ## Taking a free block -/

/-- The memory after `a` was cut to `size` bytes and the rest made a block of
its own. -/
structure SplitAt (m m' : Mem) (a size : Nat) : Prop where
  taken : HeaderAt m' (blockPrev m a) (a + headerSize + size) ⟨a, size, size, false⟩
  rest : HeaderAt m' a (blockNext m a)
    ⟨a + headerSize + size, subSize (subSize (blockCapacity m a) size) headerSize, 0, true⟩
  frame : ∀ x, x < a ∨ a + headerSize ≤ x ∧ x < a + headerSize + size ∨
    a + headerSize + size + headerSize ≤ x → m' x = m x

theorem splitBlock_spec {a size : Nat} {m : Mem} (ha : a + headerSize + size < 2 ^ 64) :
    SplitAt m (splitBlock size a (a + headerSize + size) (setSize (setFree m a 0) a size))
      a size := by
  have hcap := subSize_lt (subSize (blockCapacity m a) size) headerSize
  have hnext : blockNext m a < 256 ^ 8 := load_lt m (a + 32) 8
  unfold headerSize blockCapacity at *
  unfold blockNext at hnext
  refine ⟨⟨?_, ?_, ?_, ?_, ?_⟩, ⟨?_, ?_, ?_, ?_, ?_⟩, fun x hx => ?_⟩
  case refine_11 =>
    unfold headerSize at hx
    simp (disch := omega) only [splitBlock, setSize, setFree, setPrev, setNext, setCapacity,
      store_apply_of_outside]
  all_goals
    simp (disch := omega) only [splitBlock, blockFree, blockCapacity, blockSize, blockPrev,
      blockNext, setSize, setFree, setPrev, setNext, setCapacity, load_store_of_disjoint,
      load_store_self, headerSize]
  case refine_1 => simp
  case refine_6 => simp

theorem takeBlock_fst {a size : Nat} {h : Heap} : (takeBlock size a h).1 = a + headerSize := by
  simp only [takeBlock, apply_ite Prod.fst, ite_self]

theorem takeBlock_of_split {a size : Nat} {h : Heap} (ha : a + headerSize + size < 2 ^ 64)
    (hsplit : subSize (blockCapacity h.mem a) size > size) :
    ∃ m', SplitAt h.mem m' a size ∧ takeBlock size a h = (a + headerSize,
      { h with
        mem := m'
        blockListTail := if blockNext h.mem a = 0 then a + headerSize + size
          else h.blockListTail }) := by
  have hblock : (a + headerSize + size) % 2 ^ 64 = a + headerSize + size :=
    Nat.mod_eq_of_lt ha
  have hcap : blockCapacity (setSize (setFree h.mem a 0) a size) a = blockCapacity h.mem a := by
    simp (disch := omega) only [blockCapacity, setSize, setFree, load_store_of_disjoint]
  have hspec := splitBlock_spec (m := h.mem) ha
  refine ⟨_, hspec, ?_⟩
  simp only [takeBlock, hcap, hblock]
  rw [if_pos hsplit, hspec.rest.next]

theorem takeBlock_of_whole {a size : Nat} {h : Heap}
    (hwhole : ¬ subSize (blockCapacity h.mem a) size > size) :
    takeBlock size a h =
      (a + headerSize, { h with mem := setSize (setFree h.mem a 0) a size }) := by
  have hcap : blockCapacity (setSize (setFree h.mem a 0) a size) a = blockCapacity h.mem a := by
    simp (disch := omega) only [blockCapacity, setSize, setFree, load_store_of_disjoint]
  simp only [takeBlock, hcap]
  rw [if_neg hwhole]

/-- Taking a block whole rewrites its `free` and `size` and nothing else. -/
theorem headerAt_whole {prev next size : Nat} {b : Block} (h : HeaderAt m prev next b)
    (hsize : size < 2 ^ 64) :
    HeaderAt (setSize (setFree m b.addr 0) b.addr size) prev next
      ⟨b.addr, b.capacity, size, false⟩ := by
  have hpow : (256 : Nat) ^ 8 = 2 ^ 64 := by decide
  constructor
  · simp (disch := omega) only [blockFree, setSize, setFree, load_store_of_disjoint,
      load_store_self]
    simp
  · rw [← h.capacity]
    simp (disch := omega) only [blockCapacity, setSize, setFree, load_store_of_disjoint]
  · simp (disch := omega) only [blockSize, setSize, load_store_self]
  · rw [← h.prev]
    simp (disch := omega) only [blockPrev, setSize, setFree, load_store_of_disjoint]
  · rw [← h.next]
    simp (disch := omega) only [blockNext, setSize, setFree, load_store_of_disjoint]

/-! ## What a call has to preserve -/

/-- The heap a failing call leaves. -/
structure Unchanged (h h' : Heap) : Prop where
  mem : h'.mem = h.mem
  head : h'.blockListHead = h.blockListHead
  tail : h'.blockListTail = h.blockListTail
  brk : h'.brk = h.brk

/-- A successful call: the heap is well formed again, `ptr` is the data of an
in-use block with room for `size` bytes, which was free or lies at the old
break, and no byte of a block in use was written. -/
structure Allocated (h : Heap) (bs : List Block) (size ptr : Nat) (h' : Heap)
    (bs' : List Block) : Prop where
  wellFormed : WellFormed h' bs'
  block : ∃ b ∈ bs', b.free = false ∧ b.data = ptr ∧ size ≤ b.capacity ∧
    ((∃ c ∈ bs, c.free = true ∧ c.addr = b.addr) ∨ b.addr = h.brk)
  frame : ∀ c ∈ bs, c.free = false → ∀ x, c.data ≤ x ∧ x < c.stop → h'.mem x = h.mem x

/-- The call returns, and either fails with the heap unchanged or allocates. -/
def Preserves (h : Heap) (bs : List Block) (size : Nat) (r : Option (Nat × Heap)) : Prop :=
  ∃ ptr h', r = some (ptr, h') ∧
    (ptr = 0 ∧ Unchanged h h' ∨ ∃ bs', Allocated h bs size ptr h' bs')

/-- The first block the search accepts is larger than the request; if it is to
be split, the rest holds a header and the block is the last one. -/
def FitsCleanly (size : Nat) : List Block → Prop
  | [] => True
  | b :: post =>
    if candidate size b = true then
      size < b.capacity ∧
        (size < b.capacity - size → headerSize ≤ b.capacity - size ∧ post = [])
    else FitsCleanly size post

theorem fitsCleanly_of_none {size : Nat} {bs : List Block}
    (hnone : ∀ b ∈ bs, candidate size b = false) : FitsCleanly size bs := by
  induction bs with
  | nil => trivial
  | cons b rest ih =>
      rw [FitsCleanly, if_neg (by simp [hnone b])]
      exact ih fun c hc => hnone c (List.mem_cons_of_mem b hc)

theorem fitsCleanly_append {size : Nat} {pre post : List Block}
    (hpre : ∀ b ∈ pre, candidate size b = false) :
    FitsCleanly size (pre ++ post) ↔ FitsCleanly size post := by
  induction pre with
  | nil => rfl
  | cons b rest ih =>
      rw [List.cons_append, FitsCleanly, if_neg (by simp [hpre b])]
      exact ih fun c hc => hpre c (List.mem_cons_of_mem b hc)

end Beavalloc
end CS444
