/-
Well-formed heaps.

`Tiles m brk prev a bs` says that the blocks `bs` lie one after another in
memory from address `a` up to the break: each header is where the previous
block ends, its fields are the block's, its `prev` is the address of the block
before and its `next` the address of the block after.  A list of blocks is
determined by the memory and the address it starts at, which is how a
corrupted header shows: no list at all tiles the heap any more.
-/
import CS444.Beavalloc.Heap

namespace CS444
namespace Beavalloc

open Bytes

/-- A block of the list, as its header describes it. -/
structure Block where
  addr : Nat
  capacity : Nat
  size : Nat
  free : Bool

namespace Block

/-- `BLOCK_DATA`. -/
def data (b : Block) : Nat := b.addr + headerSize

/-- The address right after the block. -/
def stop (b : Block) : Nat := b.addr + headerSize + b.capacity

end Block

/-- The header in memory at `b.addr` describes `b`. -/
structure HeaderAt (m : Mem) (prev next : Nat) (b : Block) : Prop where
  free : blockFree m b.addr ≠ 0 ↔ b.free = true
  capacity : blockCapacity m b.addr = b.capacity
  size : blockSize m b.addr = b.size
  prev : blockPrev m b.addr = prev
  next : blockNext m b.addr = next

/-- Address of the first block of a list, `NULL` for no block. -/
def headAddr : List Block → Nat
  | [] => 0
  | b :: _ => b.addr

/-- Address of the last block of a list, `dflt` for no block. -/
def lastAddr (dflt : Nat) : List Block → Nat
  | [] => dflt
  | b :: rest => lastAddr b.addr rest

/-- The blocks `bs` tile the memory from `a` to the break `brk`. -/
def Tiles (m : Mem) (brk : Nat) : Nat → Nat → List Block → Prop
  | _, a, [] => a = brk
  | prev, a, b :: rest =>
    b.addr = a ∧ 0 < a ∧ HeaderAt m prev (headAddr rest) b ∧
      (b.free = false → b.size ≤ b.capacity) ∧ Tiles m brk a b.stop rest

/-- The heap is well formed with block list `bs`. -/
structure WellFormed (h : Heap) (bs : List Block) : Prop where
  head : h.blockListHead = headAddr bs
  tail : h.blockListTail = lastAddr 0 bs
  tiles : bs ≠ [] → Tiles h.mem h.brk 0 h.blockListHead bs
  brk_pos : 0 < h.brk
  brk_lt : h.brk < addrLimit

/-! ## A heap made of a list of blocks -/

def writeHeader (prev next : Nat) (b : Block) (m : Mem) : Mem :=
  let m := setFree m b.addr b.free.toNat
  let m := setCapacity m b.addr b.capacity
  let m := setSize m b.addr b.size
  let m := setPrev m b.addr prev
  setNext m b.addr next

def writeHeaders : Nat → List Block → Mem → Mem
  | _, [], m => m
  | prev, b :: rest, m => writeHeaders b.addr rest (writeHeader prev (headAddr rest) b m)

/-- The headers of `bs`, with zeros between them and the break at `brk`. -/
def heapOf (bs : List Block) (brk : Nat) : Heap where
  mem := writeHeaders 0 bs fun _ => 0
  blockListHead := headAddr bs
  blockListTail := lastAddr 0 bs
  lowerMemBound := headAddr bs
  upperMemBound := brk
  brk := brk
  errno := 0

/-! ## Reading a heap -/

variable {m m' : Mem} {brk brk' : Nat}

/-- Two memories that agree on a header's bytes agree on its fields. -/
theorem HeaderAt.congr {prev next : Nat} {b : Block} (h : HeaderAt m prev next b)
    (hagree : ∀ x, b.addr ≤ x → x < b.addr + headerSize → m' x = m x) :
    HeaderAt m' prev next b := by
  have hload : ∀ o n, o + n ≤ headerSize → load m' (b.addr + o) n = load m (b.addr + o) n :=
    fun o n ho => load_congr (fun x h₁ h₂ => hagree x (by omega) (by omega))
  constructor
  · rw [← h.free]
    unfold blockFree
    rw [← Nat.add_zero b.addr, hload 0 1 (by decide)]
  · rw [← h.capacity]
    exact hload 8 8 (by decide)
  · rw [← h.size]
    exact hload 16 8 (by decide)
  · rw [← h.prev]
    exact hload 24 8 (by decide)
  · rw [← h.next]
    exact hload 32 8 (by decide)

/-! ## Lists of blocks -/

theorem lastAddr_append (d : Nat) (bs : List Block) (b : Block) :
    lastAddr d (bs ++ [b]) = b.addr := by
  induction bs generalizing d with
  | nil => rfl
  | cons c rest ih => exact ih c.addr

/-- A tiled region ends at or above every address it starts from. -/
theorem Tiles.le_brk {bs : List Block} : ∀ {prev a : Nat}, Tiles m brk prev a bs → a ≤ brk := by
  induction bs with
  | nil => intro prev a h; exact Nat.le_of_eq h
  | cons b rest ih =>
      rintro prev a ⟨rfl, -, -, -, hrest⟩
      have := ih hrest
      unfold Block.stop at this
      omega

/-- A block of a tiled region lies inside it. -/
theorem Tiles.mem_bounds {bs : List Block} : ∀ {prev a : Nat}, Tiles m brk prev a bs →
    ∀ b ∈ bs, a ≤ b.addr ∧ b.stop ≤ brk := by
  induction bs with
  | nil => intro _ _ _ b hb; simp at hb
  | cons c rest ih =>
      rintro prev a ⟨rfl, -, -, -, hrest⟩ b hb
      rcases List.mem_cons.mp hb with rfl | hb
      · exact ⟨Nat.le_refl _, hrest.le_brk⟩
      · have hin := ih hrest b hb
        unfold Block.stop at hin ⊢
        omega

theorem Tiles.headAddr_eq {bs : List Block} {prev a : Nat} (h : Tiles m brk prev a bs)
    (hne : bs ≠ []) : headAddr bs = a := by
  cases bs with
  | nil => exact absurd rfl hne
  | cons b rest => exact h.1

/-- The region splits at any block: the blocks before it, the block and the
blocks after it. -/
theorem Tiles.split {pre : List Block} {b : Block} {post : List Block} :
    ∀ {prev a : Nat}, Tiles m brk prev a (pre ++ b :: post) →
      a ≤ b.addr ∧ (∀ c ∈ pre, c.stop ≤ b.addr) ∧
        Tiles m brk (lastAddr prev pre) b.addr (b :: post) := by
  induction pre with
  | nil =>
      rintro prev a h
      obtain ⟨rfl, hrest⟩ := h
      exact ⟨Nat.le_refl _, by simp, rfl, hrest⟩
  | cons c rest ih =>
      intro prev a h
      rw [List.cons_append] at h
      obtain ⟨rfl, -, -, -, hrest⟩ := h
      obtain ⟨hle, hpre, htail⟩ := ih hrest
      unfold Block.stop at hle
      refine ⟨by omega, fun d hd => ?_, htail⟩
      rcases List.mem_cons.mp hd with rfl | hd
      · unfold Block.stop
        omega
      · exact hpre d hd

/-- Blocks before `b` survive any change of the memory at or above `b`, when
what follows them is tiled again from the same address. -/
theorem Tiles.replace_tail {pre : List Block} {b : Block} {post bs' : List Block} :
    ∀ {prev a : Nat}, Tiles m brk prev a (pre ++ b :: post) →
      (∀ x, x < b.addr → m' x = m x) →
      Tiles m' brk' (lastAddr prev pre) b.addr bs' → bs' ≠ [] →
      Tiles m' brk' prev a (pre ++ bs') := by
  induction pre with
  | nil =>
      rintro prev a ⟨rfl, -⟩ _ h' _
      exact h'
  | cons c rest ih =>
      intro prev a h hagree h' hne
      rw [List.cons_append] at h ⊢
      obtain ⟨rfl, hpos, hhdr, hsize, hrest⟩ := h
      have hle := (hrest.split).1
      have htail := ih hrest hagree h' hne
      refine ⟨rfl, hpos, ?_, hsize, htail⟩
      have hnext : headAddr (rest ++ bs') = headAddr (rest ++ b :: post) := by
        rw [htail.headAddr_eq (by simp [hne]), hrest.headAddr_eq (by simp)]
      rw [hnext]
      refine hhdr.congr fun x _ hx => hagree x ?_
      unfold Block.stop at hle
      omega

/-- The list that tiles a region is read off the memory: two lists over
memories that agree below `b` go through the same blocks up to `b`. -/
theorem Tiles.follow {pre : List Block} {b : Block} {post : List Block} :
    ∀ {prev a : Nat} {bs' : List Block}, Tiles m brk prev a (pre ++ b :: post) →
      (∀ x, x < b.addr → m' x = m x) → Tiles m' brk' prev a bs' → bs' ≠ [] →
      ∃ prev' bs'', bs'' ≠ [] ∧ Tiles m' brk' prev' b.addr bs'' := by
  induction pre with
  | nil =>
      rintro prev a bs' ⟨rfl, -⟩ _ h' hne
      exact ⟨prev, bs', hne, h'⟩
  | cons c rest ih =>
      intro prev a bs' h hagree h' hne
      rw [List.cons_append] at h
      obtain ⟨rfl, hpos, hhdr, hsize, hrest⟩ := h
      cases bs' with
      | nil => exact absurd rfl hne
      | cons c' rest' =>
          obtain ⟨haddr, hpos', hhdr', hsize', hrest'⟩ := h'
          have hle := (hrest.split).1
          unfold Block.stop at hle
          -- the header of `c` is below `b`, so both lists read the same one
          have hsame : HeaderAt m' prev (headAddr (rest ++ b :: post)) c :=
            hhdr.congr fun x _ hx => hagree x (by omega)
          have hcap : c'.capacity = c.capacity := by
            rw [← hhdr'.capacity, haddr, hsame.capacity]
          have hnext : headAddr rest' = headAddr (rest ++ b :: post) := by
            rw [← hhdr'.next, haddr, hsame.next]
          have hstop : c'.stop = c.stop := by
            unfold Block.stop
            rw [haddr, hcap]
          rw [hstop] at hrest'
          have hne' : rest' ≠ [] := by
            rintro rfl
            rw [hrest.headAddr_eq (by simp)] at hnext
            simp only [headAddr, Block.stop] at hnext
            omega
          exact ih hrest hagree hrest' hne'

/-- A tiled region depends only on the memory at and above its start. -/
theorem Tiles.congr {bs : List Block} : ∀ {prev a : Nat}, Tiles m brk prev a bs →
    (∀ x, a ≤ x → m' x = m x) → Tiles m' brk prev a bs := by
  induction bs with
  | nil => intro _ _ h _; exact h
  | cons b rest ih =>
      rintro prev a ⟨rfl, hpos, hhdr, hsize, hrest⟩ hagree
      refine ⟨rfl, hpos, hhdr.congr fun x hx _ => hagree x hx, hsize, ?_⟩
      refine ih hrest fun x hx => hagree x ?_
      unfold Block.stop at hx
      omega

/-- No byte of a block's data belongs to a header. -/
theorem Tiles.data_not_header {bs : List Block} {prev a : Nat} (h : Tiles m brk prev a bs)
    {b c : Block} (hb : b ∈ bs) (hc : c ∈ bs) {x : Nat} (hx : c.data ≤ x ∧ x < c.stop) :
    x < b.addr ∨ b.addr + headerSize ≤ x := by
  obtain ⟨pre, post, rfl⟩ := List.append_of_mem hb
  obtain ⟨-, hpre, hpost⟩ := h.split
  have hdata : c.addr + headerSize ≤ x := hx.1
  rcases List.mem_append.mp hc with hc | hc
  · have := hpre c hc
    exact Or.inl (by omega)
  · rcases List.mem_cons.mp hc with rfl | hc
    · exact Or.inr hdata
    · have := (hpost.2.2.2.2.mem_bounds c hc).1
      unfold Block.stop at this
      exact Or.inr (by omega)

end Beavalloc
end CS444
