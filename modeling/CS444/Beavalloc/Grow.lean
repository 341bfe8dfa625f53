/-
`beavalloc` on every well-formed heap.

When no block of the list is a candidate the heap grows by a block at the
break, asked for in multiples of 1024 bytes; that always preserves a
well-formed heap.  With the two ways of taking a free block this gives
`beavalloc_preserves_iff`: the call preserves the heap exactly when the block
the search stops at `FitsCleanly`.
-/
import CS444.Beavalloc.Invariant

namespace CS444
namespace Beavalloc

open Bytes

variable {h h' : Heap} {bs pre post : List Block} {b : Block} {size : Nat}

/-! ## The request to `sbrk` -/

theorem sbrkBytes_eq (hsize : size < 2 ^ 30) :
    sbrkBytes size = 1024 * ((size + headerSize + 1023) / 1024) := by
  have hbmod : ∀ z : Int, 0 ≤ z → z < 2 ^ 31 → Int.bmod z (2 ^ 32) = z := fun z h₁ h₂ =>
    Int.bmod_eq_of_le (by omega) (by omega)
  have htotal : (size + headerSize) % 2 ^ 64 = size + headerSize :=
    Nat.mod_eq_of_lt (by unfold headerSize; omega)
  have hquot : (size + headerSize) / 1024 < 2 ^ 20 + 1 := by
    unfold headerSize
    omega
  unfold sbrkBytes
  simp only [htotal]
  rw [hbmod ((size + headerSize) / 1024 : Nat) (by omega) (by omega)]
  split
  · rw [hbmod (((size + headerSize) / 1024 : Nat) + 1) (by omega) (by omega),
      hbmod (1024 * (((size + headerSize) / 1024 : Nat) + 1)) (by omega) (by omega)]
    omega
  · rw [hbmod (1024 * ((size + headerSize) / 1024 : Nat)) (by omega) (by omega)]
    omega

theorem sbrkBytes_bounds (hsize : size < 2 ^ 30) :
    size + headerSize ≤ sbrkBytes size ∧ sbrkBytes size < 2 ^ 31 := by
  rw [sbrkBytes_eq hsize]
  unfold headerSize
  omega

theorem sbrk_eq {grant : Bool} {incr : Nat} {h : Heap} (hincr : incr < 2 ^ 31)
    (hpos : 0 < h.brk) :
    sbrk grant incr h =
      if grant = true ∧ h.brk + incr < addrLimit then
        some (h.brk, { h with brk := h.brk + incr })
      else none := by
  have hbmod : Int.bmod (incr : Int) (2 ^ 64) = incr :=
    Int.bmod_eq_of_le (by omega) (by omega)
  have hnat : ((h.brk : Int) + incr).toNat = h.brk + incr := by omega
  simp only [sbrk, hbmod, hnat]
  refine if_congr ?_ rfl rfl
  constructor
  · rintro ⟨hg, -, hlt⟩
    exact ⟨hg, by omega⟩
  · rintro ⟨hg, hlt⟩
    exact ⟨hg, by omega, by omega⟩

/-! ## The new block -/

/-- The header `beavalloc` writes at the old break, before it is linked. -/
def freshHeader (m : Mem) (a size capacity : Nat) : Mem :=
  setCapacity (setSize (setFree (setNext m a 0) a 0) a size) a capacity

/-- The new block with its `prev` link. -/
theorem freshHeader_spec {m : Mem} {a capacity prev : Nat} (hsize : size < 2 ^ 64)
    (hcap : capacity < 2 ^ 64) (hprev : prev < 2 ^ 64) :
    HeaderAt (setPrev (freshHeader m a size capacity) a prev) prev 0
      ⟨a, capacity, size, false⟩ := by
  constructor
  all_goals
    simp (disch := omega) only [freshHeader, blockFree, blockCapacity, blockSize, blockPrev,
      blockNext, setSize, setFree, setPrev, setNext, setCapacity, load_store_of_disjoint,
      load_store_self]
  case free => simp

theorem freshHeader_frame {m : Mem} {a capacity prev x : Nat}
    (hx : x < a ∨ a + headerSize ≤ x) :
    setPrev (freshHeader m a size capacity) a prev x = m x := by
  unfold headerSize at hx
  simp (disch := omega) only [freshHeader, setSize, setFree, setPrev, setNext, setCapacity,
    store_apply_of_outside]

/-- Linking a block to a new successor changes its `next` only. -/
theorem headerAt_setNext {m : Mem} {prev next next' : Nat} {b : Block}
    (hhdr : HeaderAt m prev next b) (hnext : next' < 2 ^ 64) :
    HeaderAt (setNext m b.addr next') prev next' b := by
  constructor
  · rw [← hhdr.free]
    simp (disch := omega) only [blockFree, setNext, load_store_of_disjoint]
  · rw [← hhdr.capacity]
    simp (disch := omega) only [blockCapacity, setNext, load_store_of_disjoint]
  · rw [← hhdr.size]
    simp (disch := omega) only [blockSize, setNext, load_store_of_disjoint]
  · rw [← hhdr.prev]
    simp (disch := omega) only [blockPrev, setNext, load_store_of_disjoint]
  · simp (disch := omega) only [blockNext, setNext, load_store_self]

/-- The first block of an empty heap. -/
theorem growFirst_allocated (hwf : WellFormed h []) {bytes : Nat}
    (hbytes : size + headerSize ≤ bytes ∧ bytes < 2 ^ 31) (hbrk : h.brk + bytes < addrLimit)
    (hmem : h'.mem = setPrev (freshHeader h.mem h.brk size (bytes - headerSize)) h.brk 0)
    (hhead : h'.blockListHead = h.brk) (htail : h'.blockListTail = h.brk)
    (hbrk' : h'.brk = h.brk + bytes) :
    Allocated h [] size (h.brk + headerSize) h'
      [⟨h.brk, bytes - headerSize, size, false⟩] := by
  have hpos := hwf.brk_pos
  refine ⟨⟨hhead, htail, fun _ => ?_, by omega, by omega⟩, ?_, by simp⟩
  · rw [hhead]
    refine ⟨rfl, hpos, ?_, fun _ => Nat.le_sub_of_add_le hbytes.1, ?_⟩
    · rw [hmem]
      exact freshHeader_spec (by omega) (by omega) (by omega)
    · simp only [Tiles, Block.stop]
      omega
  · exact ⟨⟨h.brk, bytes - headerSize, size, false⟩, by simp, rfl, rfl,
      Nat.le_sub_of_add_le hbytes.1, Or.inr rfl⟩

/-- A block appended after the last one. -/
theorem growLast_allocated (hwf : WellFormed h (pre ++ [b])) {bytes : Nat}
    (hbytes : size + headerSize ≤ bytes ∧ bytes < 2 ^ 31)
    (hbrk : h.brk + bytes < addrLimit)
    (hmem : h'.mem = setNext
      (setPrev (freshHeader h.mem h.brk size (bytes - headerSize)) h.brk b.addr) b.addr h.brk)
    (hhead : h'.blockListHead = h.blockListHead) (htail : h'.blockListTail = h.brk)
    (hbrk' : h'.brk = h.brk + bytes) :
    Allocated h (pre ++ [b]) size (h.brk + headerSize) h'
      (pre ++ [b, ⟨h.brk, bytes - headerSize, size, false⟩]) := by
  obtain ⟨-, htiles⟩ := hwf.split
  obtain ⟨-, hpos, hhdr, hfit, hend⟩ := htiles
  have hstop : b.stop = h.brk := hend
  have hlimit : addrLimit = 2 ^ 47 := rfl
  have habove : b.addr + headerSize ≤ h.brk := by
    unfold Block.stop at hstop
    omega
  have hframe : ∀ x, x < b.addr + 32 ∨ b.addr + headerSize ≤ x → x < h.brk →
      h'.mem x = h.mem x := by
    intro x hx hlt
    unfold headerSize at hx
    rw [hmem, setNext, store_apply_of_outside (by omega), freshHeader_frame (Or.inl hlt)]
  constructor
  · refine hwf.replace hhead (by omega) (fun x hx => hframe x (by omega) (by omega)) (by simp)
      rfl ?_ ?_
    · rw [htail, lastAddr_append_cons]
      rfl
    · refine ⟨rfl, hpos, ?_, hfit, hstop.symm, by omega, ?_,
        fun _ => Nat.le_sub_of_add_le hbytes.1, ?_⟩
      · rw [hmem]
        have hbrk64 : h.brk < 2 ^ 64 := by omega
        refine headerAt_setNext (hhdr.congr fun x _ hx => ?_) hbrk64
        exact freshHeader_frame (Or.inl (by omega))
      · have hfresh : HeaderAt (setPrev (freshHeader h.mem h.brk size (bytes - headerSize))
            h.brk b.addr) b.addr 0 ⟨h.brk, bytes - headerSize, size, false⟩ :=
          freshHeader_spec (by omega) (by omega) (by omega)
        refine hfresh.congr fun x hx _ => ?_
        unfold headerSize at habove
        rw [hmem, setNext, store_apply_of_outside]
        simp only at hx
        omega
      · simp only [Tiles, Block.stop]
        omega
  · exact ⟨⟨h.brk, bytes - headerSize, size, false⟩, by simp, rfl, rfl,
      Nat.le_sub_of_add_le hbytes.1, Or.inr rfl⟩
  · intro c hc _ x hx
    have hheader := (hwf.tiles (by simp)).data_not_header (b := b) (by simp) hc hx
    have hin := ((hwf.tiles (by simp)).mem_bounds c hc).2
    exact hframe x (by omega) (by omega)

/-! ## The whole call -/

theorem WellFormed.setLowerBound (hwf : WellFormed h bs) :
    WellFormed (setLowerBound h) bs := by
  refine ⟨?_, ?_, ?_, ?_, ?_⟩
  · rw [setLowerBound_head, hwf.head]
  · rw [setLowerBound_tail, hwf.tail]
  · rw [setLowerBound_mem, setLowerBound_brk, setLowerBound_head]
    exact hwf.tiles
  · rw [setLowerBound_brk]
    exact hwf.brk_pos
  · rw [setLowerBound_brk]
    exact hwf.brk_lt

theorem unchanged_setLowerBound : Unchanged (setLowerBound h) h' ↔ Unchanged h h' := by
  constructor
  · rintro ⟨hmem, hhead, htail, hbrk⟩
    exact ⟨by simpa using hmem, by simpa using hhead, by simpa using htail, by simpa using hbrk⟩
  · rintro ⟨hmem, hhead, htail, hbrk⟩
    exact ⟨by simpa using hmem, by simpa using hhead, by simpa using htail, by simpa using hbrk⟩

theorem preserves_setLowerBound {r : Option (Nat × Heap)} :
    Preserves (setLowerBound h) bs size r ↔ Preserves h bs size r := by
  have halloc : ∀ ptr h' bs', Allocated (setLowerBound h) bs size ptr h' bs' ↔
      Allocated h bs size ptr h' bs' := fun ptr h' bs' => by
    constructor
    · rintro ⟨hwf, hblock, hframe⟩
      exact ⟨hwf, by simpa using hblock, by simpa using hframe⟩
    · rintro ⟨hwf, hblock, hframe⟩
      exact ⟨hwf, by simpa using hblock, by simpa using hframe⟩
  simp only [Preserves, unchanged_setLowerBound, halloc]

/-- The heap grows by one block at its end. -/
theorem growHeap_allocated (hwf : WellFormed h bs)
    (hbytes : size + headerSize ≤ sbrkBytes size ∧ sbrkBytes size < 2 ^ 31) {grant : Bool}
    (hgrant : grant = true ∧ h.brk + sbrkBytes size < addrLimit) :
    ∃ h', growHeap grant size h = some (h.brk + headerSize, h') ∧
      Allocated h bs size (h.brk + headerSize) h'
        (bs ++ [⟨h.brk, sbrkBytes size - headerSize, size, false⟩]) ∧
      h'.brk = h.brk + sbrkBytes size := by
  have hsub : subSize (sbrkBytes size) headerSize = sbrkBytes size - headerSize :=
    subSize_of_le (by omega) (by omega)
  simp only [growHeap, sbrk_eq hbytes.2 hwf.brk_pos, hsub]
  rw [if_pos hgrant]
  simp only
  rcases List.eq_nil_or_concat bs with rfl | ⟨pre, b, rfl⟩
  · have hhead : h.blockListHead = 0 := hwf.head
    rw [if_pos hhead]
    exact ⟨_, rfl, growFirst_allocated hwf hbytes hgrant.2 rfl rfl rfl rfl, rfl⟩
  · rw [List.concat_eq_append] at hwf ⊢
    have htail : h.blockListTail = b.addr := by rw [hwf.tail, lastAddr_append]
    have hhead := headAddr_pos hwf (by simp)
    rw [← hwf.head] at hhead
    have hb := hwf.split.2.2.1
    rw [if_neg (by omega), if_neg (by omega), List.append_assoc]
    refine ⟨_, rfl, growLast_allocated hwf hbytes hgrant.2 ?_ rfl rfl rfl, rfl⟩
    simp only [htail]
    rfl

theorem growHeap_refused {grant : Bool} (hsbrk : sbrk grant (sbrkBytes size) h = none) :
    growHeap grant size h = some (0, { h with errno := enomem }) := by
  simp only [growHeap, hsbrk]

theorem growHeap_preserves (hwf : WellFormed h bs)
    (hbytes : size + headerSize ≤ sbrkBytes size ∧ sbrkBytes size < 2 ^ 31) (grant : Bool) :
    Preserves h bs size (growHeap grant size h) := by
  by_cases hgrant : grant = true ∧ h.brk + sbrkBytes size < addrLimit
  · obtain ⟨h', hgrow, halloc, -⟩ := growHeap_allocated hwf hbytes hgrant
    exact ⟨_, h', hgrow, Or.inr ⟨_, halloc⟩⟩
  · rw [growHeap_refused (by rw [sbrk_eq hbytes.2 hwf.brk_pos, if_neg hgrant])]
    exact ⟨_, _, rfl, Or.inl ⟨rfl, rfl, rfl, rfl, rfl⟩⟩

/-- Taking the candidate the search stops at preserves the heap exactly when it
is large enough and any split is clean. -/
theorem takeBlock_preserves_iff (hwf : WellFormed h (pre ++ b :: post)) (hsize : size < 2 ^ 30)
    (hcand : candidate size b = true) :
    Preserves h (pre ++ b :: post) size (some (takeBlock size b.addr h)) ↔
      FitsCleanly size (b :: post) := by
  rw [FitsCleanly, if_pos hcand]
  obtain ⟨hfree, hne⟩ : b.free = true ∧ b.capacity ≠ size := by
    simpa [candidate] using hcand
  have htiles := hwf.split.2
  have hcap64 := htiles.capacity_lt hwf.brk_lt b (by simp)
  have hlimit := hwf.brk_lt
  obtain ⟨-, hpos, hhdr, -, hrest⟩ := htiles
  have hle := hrest.le_brk
  unfold Block.stop at hle
  have hroom64 : b.addr + headerSize + size < 2 ^ 64 := by
    unfold addrLimit headerSize at *
    omega
  by_cases hsplit : subSize (blockCapacity h.mem b.addr) size > size
  · obtain ⟨m', hspec, heq⟩ := takeBlock_of_split hroom64 hsplit
    rw [heq]
    rw [hhdr.capacity] at hsplit
    constructor
    · rintro ⟨ptr, h', hr, ⟨hnull, -⟩ | ⟨bs', halloc⟩⟩
      · have hptr := congrArg Prod.fst (Option.some.inj hr)
        simp only at hptr
        omega
      · have hmem := congrArg Prod.snd (Option.some.inj hr)
        simp only at hmem
        have hgood : ¬ (b.capacity < size + headerSize ∨ post ≠ []) := fun hbad =>
          takeSplit_broken hwf hsize hbad (by rw [← hmem]; exact hspec) (by rw [← hmem])
            halloc.wellFormed
        rw [not_or, not_not] at hgood
        have hhs : headerSize = 40 := rfl
        exact ⟨by omega, fun _ => ⟨by omega, hgood.2⟩⟩
    · rintro ⟨hlt, hclean⟩
      rw [subSize_of_le hcap64 (by omega)] at hsplit
      obtain ⟨hroom, rfl⟩ := hclean hsplit
      have hlast : blockNext h.mem b.addr = 0 := hhdr.next
      rw [if_pos hlast]
      exact ⟨_, _, rfl, Or.inr ⟨_, takeSplit_allocated hwf hfree (by omega) hspec rfl rfl rfl⟩⟩
  · rw [takeBlock_of_whole hsplit]
    rw [hhdr.capacity] at hsplit
    have hlt : size < b.capacity := by
      unfold subSize at hsplit
      omega
    rw [subSize_of_le hcap64 (by omega)] at hsplit
    refine ⟨fun _ => ⟨hlt, fun hcut => absurd hcut hsplit⟩, fun _ => ?_⟩
    exact ⟨_, _, rfl, Or.inr ⟨_, takeWhole_allocated hwf hfree (by omega) (by omega)
      rfl rfl rfl rfl⟩⟩

/-- A heap of one free block of 984 bytes. -/
def oneFree : Heap where
  mem := setCapacity (setFree (fun _ => 0) 4096 1) 4096 984
  blockListHead := 4096
  blockListTail := 4096
  lowerMemBound := 4096
  upperMemBound := 5120
  brk := 5120
  errno := 0

theorem oneFree_wellFormed : WellFormed oneFree [⟨4096, 984, 0, true⟩] := by
  refine ⟨rfl, rfl, fun _ => ⟨rfl, by decide, ?_, by simp, rfl⟩, by decide, by decide⟩
  constructor <;> decide

/-- A request for more than the free block holds takes the block all the same,
and the header cut off behind it claims a capacity close to `2 ^ 64`. -/
theorem oneFree_broken :
    WellFormed oneFree [⟨4096, 984, 0, true⟩] ∧
      ¬ Preserves oneFree [⟨4096, 984, 0, true⟩] 2000 (beavalloc 2 true 2000 oneFree) := by
  refine ⟨oneFree_wellFormed, fun hpres => ?_⟩
  rw [beavalloc_eq oneFree_wellFormed (by decide) (by decide) (by decide)] at hpres
  have hcand : candidate 2000 ⟨4096, 984, 0, true⟩ = true := by decide
  rw [List.find?_cons_of_pos hcand] at hpres
  have hwf : WellFormed (setLowerBound oneFree) ([] ++ [⟨4096, 984, 0, true⟩]) :=
    oneFree_wellFormed.setLowerBound
  have hfits := (takeBlock_preserves_iff hwf (by decide) hcand).mp
    (preserves_setLowerBound.mpr hpres)
  rw [FitsCleanly, if_pos hcand] at hfits
  exact absurd hfits.1 (by decide)

/-- `beavalloc` preserves a well-formed heap exactly when the first free block
of another capacity is larger than the request and any split of it is clean. -/
theorem beavalloc_preserves_iff (hwf : WellFormed h bs) (hpos : 0 < size)
    (hsize : size < 2 ^ 30) {fuel : Nat} (hfuel : bs.length < fuel) (grant : Bool) :
    Preserves h bs size (beavalloc fuel grant size h) ↔ FitsCleanly size bs := by
  rw [beavalloc_eq hwf hpos (by omega) hfuel grant]
  cases hfind : bs.find? (candidate size) with
  | none =>
      have hgrow := growHeap_preserves hwf.setLowerBound (sbrkBytes_bounds hsize) grant
      refine iff_of_true (preserves_setLowerBound.mp hgrow) (fitsCleanly_of_none ?_)
      simpa using hfind
  | some b =>
      obtain ⟨hcand, pre, post, rfl, hpre⟩ := List.find?_eq_some_iff_append.mp hfind
      rw [← preserves_setLowerBound, takeBlock_preserves_iff hwf.setLowerBound hsize hcand,
        fitsCleanly_append (by simpa using hpre)]

/-- A small request splits the free block of `oneFree` cleanly. -/
theorem beavalloc_preserves_iff_oneFree :
    Preserves oneFree [⟨4096, 984, 0, true⟩] 100 (beavalloc 2 true 100 oneFree) := by
  refine (beavalloc_preserves_iff oneFree_wellFormed (by decide) (by decide) (by decide)
    true).mpr ?_
  rw [FitsCleanly, if_pos (by decide)]
  exact ⟨by decide, fun _ => ⟨by decide, rfl⟩⟩

end Beavalloc
end CS444
