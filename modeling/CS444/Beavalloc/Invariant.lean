/-
When `beavalloc` keeps the heap well formed.

The three outcomes of a call on a well-formed heap are a block taken whole, a
block taken and split, and a new block at the break.  The first and the last
always leave a well-formed heap once the block is large enough; a split does so
only at the end of the list and when the rest holds a header.
-/
import CS444.Beavalloc.Alloc

namespace CS444
namespace Beavalloc

open Bytes

variable {h h' : Heap} {bs pre post : List Block} {b : Block} {size : Nat}

/-! ## Putting a changed block back into its heap -/

theorem headAddr_pos (hwf : WellFormed h bs) (hne : bs ≠ []) : 0 < headAddr bs := by
  have htiles := hwf.tiles hne
  cases bs with
  | nil => exact absurd rfl hne
  | cons b rest =>
      have := htiles.2.1
      rw [hwf.head] at this
      exact this

/-- The part of a well-formed heap from block `b` on. -/
theorem WellFormed.split (hwf : WellFormed h (pre ++ b :: post)) :
    (∀ c ∈ pre, c.stop ≤ b.addr) ∧ Tiles h.mem h.brk (lastAddr 0 pre) b.addr (b :: post) :=
  ((hwf.tiles (by simp)).split).2

/-- A heap whose blocks from `b` on were replaced is well formed when the
replacement tiles the same region. -/
theorem WellFormed.replace {bs' : List Block} (hwf : WellFormed h (pre ++ b :: post))
    (hhead : h'.blockListHead = h.blockListHead) (hbrk : h'.brk < addrLimit)
    (hagree : ∀ x, x < b.addr → h'.mem x = h.mem x) (hne : bs' ≠ [])
    (haddr : headAddr bs' = b.addr)
    (htail : h'.blockListTail = lastAddr 0 (pre ++ bs'))
    (htiles : Tiles h'.mem h'.brk (lastAddr 0 pre) b.addr bs') :
    WellFormed h' (pre ++ bs') := by
  have hold := hwf.tiles (by simp)
  have hnew := hold.replace_tail hagree htiles hne
  refine ⟨?_, htail, fun _ => ?_, ?_, hbrk⟩
  · rw [hhead, hwf.head]
    cases pre with
    | nil => exact haddr.symm
    | cons c rest => rfl
  · rw [hhead]
    exact hnew
  · have hpos := headAddr_pos hwf (by simp)
    have hle := hnew.le_brk
    rw [hwf.head] at hle
    omega

/-- Bytes of blocks in use lie outside the region a taken block is rewritten
in. -/
theorem WellFormed.data_outside (hwf : WellFormed h (pre ++ b :: post)) (hfree : b.free = true)
    {c : Block} (hc : c ∈ pre ++ b :: post) (huse : c.free = false) {x : Nat}
    (hx : c.data ≤ x ∧ x < c.stop) : x < b.addr ∨ b.stop ≤ x := by
  obtain ⟨hpre, hpost⟩ := hwf.split
  have hdata : c.addr + headerSize ≤ x := hx.1
  rcases List.mem_append.mp hc with hc | hc
  · have := hpre c hc
    exact Or.inl (by omega)
  · rcases List.mem_cons.mp hc with rfl | hc
    · rw [hfree] at huse
      exact absurd huse (by simp)
    · have := (hpost.2.2.2.2.mem_bounds c hc).1
      exact Or.inr (by omega)

theorem lastAddr_append_cons (d : Nat) (l : List Block) (c : Block) (rest : List Block) :
    lastAddr d (l ++ c :: rest) = lastAddr c.addr rest := by
  induction l generalizing d with
  | nil => rfl
  | cons a l ih => exact ih a.addr

/-! ## A block taken whole -/

theorem takeWhole_allocated (hwf : WellFormed h (pre ++ b :: post)) (hfree : b.free = true)
    (hsize : size < 2 ^ 64) (hcap : size ≤ b.capacity)
    (hmem : h'.mem = setSize (setFree h.mem b.addr 0) b.addr size)
    (hhead : h'.blockListHead = h.blockListHead) (htail : h'.blockListTail = h.blockListTail)
    (hbrk : h'.brk = h.brk) :
    Allocated h (pre ++ b :: post) size b.data h'
      (pre ++ ⟨b.addr, b.capacity, size, false⟩ :: post) := by
  obtain ⟨-, -, hpos, hhdr, -, hrest⟩ := hwf.split
  have houtside : ∀ x, x < b.addr ∨ b.addr + headerSize ≤ x → h'.mem x = h.mem x := by
    intro x hx
    unfold headerSize at hx
    rw [hmem]
    simp (disch := omega) only [setSize, setFree, store_apply_of_outside]
  constructor
  · refine hwf.replace hhead (by rw [hbrk]; exact hwf.brk_lt)
      (fun x hx => houtside x (Or.inl hx)) (by simp) rfl ?_ ?_
    · rw [htail, hwf.tail, lastAddr_append_cons, lastAddr_append_cons]
    · rw [hbrk]
      refine ⟨rfl, hpos, ?_, fun _ => hcap, ?_⟩
      · rw [hmem]
        exact headerAt_whole hhdr hsize
      · refine hrest.congr fun x hx => houtside x (Or.inr ?_)
        unfold Block.stop at hx
        omega
  · exact ⟨⟨b.addr, b.capacity, size, false⟩, by simp, rfl, rfl, hcap,
      Or.inl ⟨b, by simp, hfree, rfl⟩⟩
  · intro c hc huse x hx
    have hout := hwf.data_outside hfree hc huse hx
    refine houtside x ?_
    unfold Block.stop at hout
    omega

/-! ## A block split at the end of the list -/

theorem takeSplit_allocated (hwf : WellFormed h (pre ++ [b])) (hfree : b.free = true)
    (hroom : size + headerSize ≤ b.capacity) (hsplit : SplitAt h.mem h'.mem b.addr size)
    (hhead : h'.blockListHead = h.blockListHead)
    (htail : h'.blockListTail = b.addr + headerSize + size) (hbrk : h'.brk = h.brk) :
    Allocated h (pre ++ [b]) size b.data h'
      (pre ++ [⟨b.addr, size, size, false⟩,
        ⟨b.addr + headerSize + size, b.capacity - size - headerSize, 0, true⟩]) := by
  obtain ⟨-, htiles⟩ := hwf.split
  have hcap64 := htiles.capacity_lt hwf.brk_lt b (by simp)
  obtain ⟨-, hpos, hhdr, -, hend⟩ := htiles
  have hstop : b.stop = h.brk := hend
  have hrestCap : subSize (subSize (blockCapacity h.mem b.addr) size) headerSize =
      b.capacity - size - headerSize := by
    rw [hhdr.capacity, subSize_of_le hcap64 (by omega), subSize_of_le (by omega) (by omega)]
  have htaken := hsplit.taken
  have hrest := hsplit.rest
  rw [hhdr.prev] at htaken
  rw [hhdr.next, hrestCap] at hrest
  constructor
  · refine hwf.replace hhead (by rw [hbrk]; exact hwf.brk_lt)
      (fun x hx => hsplit.frame x (Or.inl hx)) (by simp) rfl ?_ ?_
    · rw [htail, lastAddr_append_cons]
      rfl
    · rw [hbrk]
      refine ⟨rfl, hpos, htaken, fun _ => Nat.le_refl size, rfl,
        by simp only [Block.stop]; omega, hrest, by simp, ?_⟩
      unfold Block.stop at hstop
      simp only [Tiles, Block.stop]
      omega
  · exact ⟨⟨b.addr, size, size, false⟩, by simp, rfl, rfl, Nat.le_refl size,
      Or.inl ⟨b, by simp, hfree, rfl⟩⟩
  · intro c hc huse x hx
    have hout := hwf.data_outside hfree hc huse hx
    unfold Block.stop at hout
    exact hsplit.frame x (by omega)

/-! ## A split that breaks the heap -/

/-- After a split of a block that is too small, or of a block with a successor,
no list of blocks tiles the heap. -/
theorem takeSplit_broken (hwf : WellFormed h (pre ++ b :: post)) (hsize : size < 2 ^ 30)
    (hbad : b.capacity < size + headerSize ∨ post ≠ [])
    (hsplit : SplitAt h.mem h'.mem b.addr size)
    (hhead : h'.blockListHead = h.blockListHead) {bs' : List Block} :
    ¬ WellFormed h' bs' := by
  intro hwf'
  have hold := hwf.tiles (by simp)
  obtain ⟨-, htiles⟩ := hwf.split
  have hcap64 := htiles.capacity_lt hwf.brk_lt b (by simp)
  obtain ⟨-, hpos, hhdr, -, hpost⟩ := htiles
  have hbound := hpost.le_brk
  have hlimit := hwf.brk_lt
  have hlimit' := hwf'.brk_lt
  unfold addrLimit at hlimit hlimit'
  unfold Block.stop at hbound
  -- the list in the new memory reaches `b` and goes on with the cut-off block
  have hne' : bs' ≠ [] := by
    rintro rfl
    have hzero := hwf'.head
    rw [hhead, hwf.head] at hzero
    have hnil : headAddr [] = 0 := rfl
    have := headAddr_pos hwf (by simp)
    omega
  have hnew := hwf'.tiles hne'
  rw [hhead] at hnew
  obtain ⟨prev', bs'', hne'', hfollow⟩ :=
    hold.follow (fun x hx => hsplit.frame x (Or.inl hx)) hnew hne'
  cases bs'' with
  | nil => exact hne'' rfl
  | cons c rest =>
      obtain ⟨hcaddr, -, hchdr, -, hcrest⟩ := hfollow
      have hccap : c.capacity = size := by
        rw [← hchdr.capacity, hcaddr, hsplit.taken.capacity]
      have hcnext : headAddr rest = b.addr + headerSize + size := by
        rw [← hchdr.next, hcaddr, hsplit.taken.next]
      cases rest with
      | nil =>
          simp only [headAddr] at hcnext
          omega
      | cons d rest =>
          have hdaddr : d.addr = b.addr + headerSize + size := hcnext
          obtain ⟨hdstart, -, hdhdr, -, hdrest⟩ := hcrest
          have hdcap : d.capacity = subSize (subSize b.capacity size) headerSize := by
            rw [← hdhdr.capacity, hdaddr, hsplit.rest.capacity, hhdr.capacity]
          have hdstop := hdrest.le_brk
          unfold Block.stop at hdstop
          by_cases hroom : b.capacity < size + headerSize
          · -- the capacity of the cut-off block has wrapped around
            unfold headerSize subSize at *
            omega
          · have hcut : d.capacity = b.capacity - size - headerSize := by
              rw [hdcap, subSize_of_le hcap64 (by omega),
                subSize_of_le (by omega) (by omega)]
            have hpne : post ≠ [] := hbad.resolve_left hroom
            cases post with
            | nil => exact hpne rfl
            | cons e post =>
                obtain ⟨headdr, hepos, hehdr, -, -⟩ := hpost
                have hdnext : headAddr rest = e.addr := by
                  rw [← hdhdr.next, hdaddr, hsplit.rest.next, hhdr.next]
                  rfl
                cases rest with
                | nil =>
                    simp only [headAddr] at hdnext
                    omega
                | cons f rest =>
                    have hfaddr : f.addr = e.addr := hdnext
                    obtain ⟨hfstart, -, hfhdr, -, -⟩ := hdrest
                    -- `e` still points back at `b`
                    have hkeep : HeaderAt h'.mem b.addr (headAddr post) e := by
                      refine hehdr.congr fun x hx _ => hsplit.frame x ?_
                      unfold Block.stop at headdr
                      omega
                    have hback : c.stop = b.addr := by
                      have hd := hfhdr.prev
                      rw [hfaddr, hkeep.prev] at hd
                      exact hd.symm ▸ rfl
                    unfold Block.stop headerSize at hback
                    omega

end Beavalloc
end CS444
