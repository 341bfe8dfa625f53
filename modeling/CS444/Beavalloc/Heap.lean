/-
The allocator of `lab2/Lab2/beavalloc.c`.

A block header is a `mem_block_t` stored in the managed memory itself, so the
model is a byte memory and the header fields are loads and stores at the
struct's offsets on a 64-bit machine: `free` at 0, `capacity` at 8, `size` at
16, `prev` at 24, `next` at 32, and `sizeof(mem_block_t)` is 40.  `NULL` is 0.
`size_t` arithmetic is modulo `2 ^ 64` and `int` arithmetic modulo `2 ^ 32`.

The list walks carry fuel, because a corrupted list can be cyclic; `none` is a
call that does not come back, out of fuel or through a `NULL` pointer.
-/
import CS444.Lib.Bytes

namespace CS444
namespace Beavalloc

open Bytes

/-- `sizeof(mem_block_t)`. -/
def headerSize : Nat := 40

/-! ## Block headers -/

def blockFree (m : Mem) (b : Nat) : Nat := load m b 1

def blockCapacity (m : Mem) (b : Nat) : Nat := load m (b + 8) 8

def blockSize (m : Mem) (b : Nat) : Nat := load m (b + 16) 8

def blockPrev (m : Mem) (b : Nat) : Nat := load m (b + 24) 8

def blockNext (m : Mem) (b : Nat) : Nat := load m (b + 32) 8

def setFree (m : Mem) (b v : Nat) : Mem := store m b 1 v

def setCapacity (m : Mem) (b v : Nat) : Mem := store m (b + 8) 8 v

def setSize (m : Mem) (b v : Nat) : Mem := store m (b + 16) 8 v

def setPrev (m : Mem) (b v : Nat) : Mem := store m (b + 24) 8 v

def setNext (m : Mem) (b v : Nat) : Mem := store m (b + 32) 8 v

/-- `x - y` on `size_t`. -/
def subSize (x y : Nat) : Nat := (x + 2 ^ 64 - y) % 2 ^ 64

/-- The allocator's static variables, the memory, the program break and
`errno`. -/
structure Heap where
  mem : Mem
  blockListHead : Nat
  blockListTail : Nat
  lowerMemBound : Nat
  upperMemBound : Nat
  brk : Nat
  errno : Nat

/-- `ENOMEM`. -/
def enomem : Nat := 12

/-- End of the user half of a 64-bit address space. -/
def addrLimit : Nat := 2 ^ 47

/-- `sbrk(incr)`: the old break, or a failure.  `grant` says whether the system
has the memory; the break stays inside the user's address space and off
`NULL`. -/
def sbrk (grant : Bool) (incr : Nat) (h : Heap) : Option (Nat × Heap) :=
  let target : Int := (h.brk : Int) + Int.bmod (incr : Int) (2 ^ 64)
  if grant = true ∧ 0 < target ∧ target < addrLimit then
    some (h.brk, { h with brk := target.toNat })
  else none

/-! ## Searching the list -/

/-- The loop of `check_free_block`. -/
def checkFreeBlock (m : Mem) (size : Nat) : Nat → Nat → Option Bool
  | 0, _ => none
  | fuel + 1, curr =>
    if curr = 0 then some false
    else if blockFree m curr ≠ 0 ∧ subSize (blockCapacity m curr) size > 0 then some true
    else checkFreeBlock m size fuel (blockNext m curr)

/-- The inner `if` of `get_block`: cut `block` off the end of `curr`, in the
order of the source's assignments. -/
def splitBlock (size curr block : Nat) (m : Mem) : Mem :=
  let m := setSize m block 0
  let m := setCapacity m block (subSize (subSize (blockCapacity m curr) size) headerSize)
  let m := setFree m block 1
  let m := setPrev m block curr
  let m := setNext m block (blockNext m curr)
  let m := setNext m curr block
  let m := setSize m curr size
  setCapacity m curr size

/-- The body of `get_block`'s `if`: mark `curr` as taken, and split it when the
rest is larger than the request. -/
def takeBlock (size curr : Nat) (h : Heap) : Nat × Heap :=
  let m := setSize (setFree h.mem curr 0) curr size
  if subSize (blockCapacity m curr) size > size then
    let block := (curr + headerSize + size) % 2 ^ 64
    let m := splitBlock size curr block m
    (curr + headerSize,
      { h with
        mem := m
        blockListTail := if blockNext m block = 0 then block else h.blockListTail })
  else (curr + headerSize, { h with mem := m })

/-- The loop of `get_block`. -/
def getBlock (size : Nat) (h : Heap) : Nat → Nat → Option (Nat × Heap)
  | 0, _ => none
  | fuel + 1, curr =>
    if curr = 0 then some (0, h)
    else if blockFree h.mem curr ≠ 0 ∧ subSize (blockCapacity h.mem curr) size > 0 then
      some (takeBlock size curr h)
    else getBlock size h fuel (blockNext h.mem curr)

/-! ## `beavalloc` -/

/-- The number of bytes asked from `sbrk`: `1024 * multiplier` computed in
`int` and converted to `size_t`. -/
def sbrkBytes (size : Nat) : Nat :=
  let total := (size + headerSize) % 2 ^ 64
  let remainder := total % 1024
  let multiplier : Int := Int.bmod (total / 1024 : Nat) (2 ^ 32)
  let multiplier := if remainder ≠ 0 then Int.bmod (multiplier + 1) (2 ^ 32) else multiplier
  (Int.bmod (1024 * multiplier) (2 ^ 32) % 2 ^ 64).toNat

/-- The `else` branch of `beavalloc`: a new block at the old break. -/
def growHeap (grant : Bool) (size : Nat) (h : Heap) : Option (Nat × Heap) :=
  let bytes := sbrkBytes size
  match sbrk grant bytes h with
  | none => some (0, { h with errno := enomem })
  | some (block, h) =>
    let h := { h with upperMemBound := h.brk }
    let m := setNext h.mem block 0
    let m := setFree m block 0
    let m := setSize m block size
    let m := setCapacity m block (subSize bytes headerSize)
    if h.blockListHead = 0 then
      let m := setPrev m block 0
      some (block + headerSize,
        { h with mem := m, blockListHead := block, blockListTail := block })
    else if h.blockListTail = 0 then none
    else
      let m := setPrev m block h.blockListTail
      let m := setNext m h.blockListTail block
      some (block + headerSize, { h with mem := m, blockListTail := block })

/-- `if(lower_mem_bound == NULL) lower_mem_bound = sbrk(0)`. -/
def setLowerBound (h : Heap) : Heap :=
  if h.lowerMemBound = 0 then { h with lowerMemBound := h.brk } else h

/-- `beavalloc(size)`: the returned pointer and the heap it leaves. -/
def beavalloc (fuel : Nat) (grant : Bool) (size : Nat) (h : Heap) : Option (Nat × Heap) :=
  if size = 0 then some (0, h)
  else
    let h := setLowerBound h
    match checkFreeBlock h.mem size fuel h.blockListHead with
    | none => none
    | some true => getBlock size h fuel h.blockListHead
    | some false => growHeap grant size h

/-! ## `beavfree` and `beavalloc_reset` -/

/-- The loop of `find_block`: the block whose header is at `ptr`, or `NULL`. -/
def findBlock (m : Mem) (ptr : Nat) : Nat → Nat → Option Nat
  | 0, _ => none
  | fuel + 1, block =>
    if block = 0 then some 0
    else if block = ptr then some block
    else findBlock m ptr fuel (blockNext m block)

/-- `merge_blocks(b1, b2)`, which returns `b1`. -/
def mergeBlocks (m : Mem) (b1 b2 : Nat) : Mem :=
  let m := setCapacity m b1
    ((blockCapacity m b1 + (blockCapacity m b2 + headerSize)) % 2 ^ 64)
  let m := if blockNext m b2 ≠ 0 then setPrev m (blockNext m b2) (blockPrev m b2) else m
  if blockPrev m b2 ≠ 0 then setNext m (blockPrev m b2) (blockNext m b2) else m

/-- The first `if` of the coalescing loop: the block the turn goes on with and
the memory. -/
def mergePrev (block : Nat) (m : Mem) : Nat × Mem :=
  if blockFree m block ≠ 0 ∧ blockPrev m block ≠ 0 ∧ blockFree m (blockPrev m block) ≠ 0 then
    (blockPrev m block, mergeBlocks m (blockPrev m block) block)
  else (block, m)

/-- The second `if` of the coalescing loop. -/
def mergeNext (block : Nat) (m : Mem) : Mem :=
  if blockFree m block ≠ 0 ∧ blockNext m block ≠ 0 ∧ blockFree m (blockNext m block) ≠ 0 then
    mergeBlocks m block (blockNext m block)
  else m

/-- The coalescing loop of `beavfree`. -/
def coalesce : Nat → Nat → Mem → Option Mem
  | 0, _, _ => none
  | fuel + 1, block, m =>
    if block = 0 then some m
    else
      let (block, m) := mergePrev block m
      let m := mergeNext block m
      coalesce fuel (blockNext m block) m

/-- `beavfree(ptr)`: the heap it leaves. -/
def beavfree (fuel ptr : Nat) (h : Heap) : Option Heap :=
  match findBlock h.mem ptr fuel h.blockListHead with
  | none => none
  | some block =>
    if ptr = 0 ∨ block = 0 ∨ blockFree h.mem block ≠ 0 then some h
    else
      let m := setFree h.mem block 1
      let m := setCapacity m block ((blockCapacity m block + blockSize m block) % 2 ^ 64)
      let m := setSize m block 0
      match coalesce fuel h.blockListHead m with
      | none => none
      | some m => some { h with mem := m }

/-- `beavalloc_reset()`. -/
def beavallocReset (h : Heap) : Heap :=
  if h.blockListHead ≠ 0 then
    { h with brk := h.blockListHead, blockListHead := 0, blockListTail := 0 }
  else h

/-! ## The calls on top of `beavalloc` -/

/-- `n` bytes written through the pointer `beavalloc` returned; a byte written
through `NULL` faults. -/
def fillNew (n : Nat) (f : Nat → UInt8) (r : Nat × Heap) : Option (Nat × Heap) :=
  if n = 0 then some r
  else if r.1 = 0 then none
  else some (r.1, { r.2 with mem := blit r.2.mem r.1 n f })

/-- `beavcalloc(nmemb, size)`. -/
def beavcalloc (fuel : Nat) (grant : Bool) (nmemb size : Nat) (h : Heap) : Option (Nat × Heap) :=
  if nmemb = 0 ∨ size = 0 then some (0, h)
  else
    let n := nmemb * size % 2 ^ 64
    match beavalloc fuel grant n h with
    | none => none
    | some r => fillNew n (fun _ => 0) r

/-- `memmove(nptr, src, n)` for the pointer `nptr` of `r`, with the addresses it
reads. -/
def memmove (src n : Nat) (r : Nat × Heap) : Option ((Nat × Heap) × List Nat) :=
  let reads := (List.range n).map (src + ·)
  match fillNew n (fun i => r.2.mem (reads.getD i 0)) r with
  | none => none
  | some r => some (r, reads)

/-- `beavrealloc(ptr, size)`: `size` bytes are moved, however many `ptr` had.  The
addresses are those the bytes are read from. -/
def beavrealloc (fuel : Nat) (grant : Bool) (ptr size : Nat) (h : Heap) :
    Option ((Nat × Heap) × List Nat) :=
  if size = 0 then some ((0, h), [])
  else if ptr = 0 then (beavalloc fuel grant size h).map fun r => (r, [])
  else
    match beavalloc fuel grant size h with
    | none => none
    | some r =>
      match memmove ptr size r with
      | none => none
      | some ((nptr, h), reads) =>
        match beavfree fuel ptr h with
        | none => none
        | some h => some ((nptr, h), reads)

/-- `beavstrdup(s)`; `s` are the bytes before the terminating zero. -/
def beavstrdup (fuel : Nat) (grant : Bool) (s : List UInt8) (h : Heap) : Option (Nat × Heap) :=
  let size := (s.length + 1) % 2 ^ 64
  if size > 0 then
    match beavalloc fuel grant size h with
    | none => none
    | some r => fillNew size (fun i => s.getD i 0) r
  else some (0, h)

/-! ## `beavrealloc` as its steps -/

variable {h : Heap} {fuel ptr size n : Nat} {grant : Bool}

/-- Copying from `src`, byte by byte. -/
theorem memmove_eq {src : Nat} {r : Nat × Heap} : memmove src n r =
    (fillNew n (fun i => r.2.mem (src + i)) r).map fun r => (r, (List.range n).map (src + ·)) := by
  have hread : ∀ i, i < n → ((List.range n).map (src + ·)).getD i 0 = src + i := by
    intro i hi
    rw [List.getD_eq_getElem?_getD, List.getElem?_map, List.getElem?_range hi]
    rfl
  have hfill : fillNew n (fun i => r.2.mem (((List.range n).map (src + ·)).getD i 0)) r =
      fillNew n (fun i => r.2.mem (src + i)) r := by
    unfold fillNew
    rw [blit_congr fun i hi => congrArg r.2.mem (hread i hi)]
  unfold memmove
  dsimp only
  rw [hfill]
  cases fillNew n (fun i => r.2.mem (src + i)) r with
  | none => rfl
  | some r' => rfl

/-- `beavrealloc` without the addresses. -/
theorem beavrealloc_fst (hsize : size ≠ 0) (hptr : ptr ≠ 0) :
    (beavrealloc fuel grant ptr size h).map Prod.fst =
      (beavalloc fuel grant size h).bind fun r =>
        (fillNew size (fun i => r.2.mem (ptr + i)) r).bind fun r' =>
          (beavfree fuel ptr r'.2).map fun h' => (r'.1, h') := by
  unfold beavrealloc
  rw [if_neg hsize, if_neg hptr]
  cases beavalloc fuel grant size h with
  | none => rfl
  | some r =>
      dsimp only
      rw [memmove_eq, Option.bind_some]
      cases fillNew size (fun i => r.2.mem (ptr + i)) r with
      | none => rfl
      | some r' =>
          show Option.map Prod.fst (match beavfree fuel ptr r'.2 with
            | none => none
            | some h => some ((r'.1, h), (List.range size).map (ptr + ·))) = _
          rw [Option.bind_some]
          cases beavfree fuel ptr r'.2 with
          | none => rfl
          | some h' => rfl

/-- The bytes are read from the `size` addresses at the old pointer. -/
theorem beavrealloc_reads {r : (Nat × Heap) × List Nat} (hsize : size ≠ 0) (hptr : ptr ≠ 0)
    (hr : beavrealloc fuel grant ptr size h = some r) : r.2 = (List.range size).map (ptr + ·) := by
  unfold beavrealloc at hr
  rw [if_neg hsize, if_neg hptr] at hr
  cases halloc : beavalloc fuel grant size h with
  | none =>
      rw [halloc] at hr
      exact absurd hr (by simp)
  | some r₁ =>
      rw [halloc] at hr
      dsimp only at hr
      rw [memmove_eq] at hr
      cases hfill : fillNew size (fun i => r₁.2.mem (ptr + i)) r₁ with
      | none =>
          rw [hfill] at hr
          exact absurd hr (by simp)
      | some r₂ =>
          rw [hfill, Option.map_some] at hr
          dsimp only at hr
          cases hfree : beavfree fuel ptr r₂.2 with
          | none =>
              rw [hfree] at hr
              exact absurd hr (by simp)
          | some h' =>
              rw [hfree] at hr
              obtain rfl := Option.some.inj hr
              rfl

end Beavalloc
end CS444
