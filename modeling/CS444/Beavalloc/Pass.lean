/-
What the coalescing pass leaves, for any list of blocks linked both ways.

The blocks may lie anywhere and their `capacity` fields may hold any numbers.  The
pass comes back, the blocks in use are the old ones in the old order, and no two
neighbours are free.  `merge_blocks` adds capacities in `size_t`, so the sum over
the list is kept modulo `2 ^ 64`, and as a number when it is below `2 ^ 64`.
-/
import CS444.Beavalloc.FreeBlock

namespace CS444
namespace Beavalloc

open Bytes

variable {m : Mem} {bs : List Block} {b : Block}

/-! ## Joined runs -/

theorem settled_consRun (h : Settled bs) : Settled (consRun b bs) := by
  cases bs with
  | nil => exact List.isChain_singleton b
  | cons c rest =>
      by_cases hfree : b.free = true ∧ c.free = true
      · rw [consRun, if_pos hfree]
        cases rest with
        | nil => exact List.isChain_singleton _
        | cons d rest =>
            obtain ⟨hcd, hrest⟩ := List.isChain_cons_cons.mp h
            refine List.isChain_cons_cons.mpr ⟨?_, hrest⟩
            rw [join_free, hfree.1]
            rwa [hfree.2] at hcd
      · rw [consRun, if_neg hfree]
        exact List.isChain_cons_cons.mpr ⟨hfree, h⟩

theorem settled_joinRuns (bs : List Block) : Settled (joinRuns bs) := by
  induction bs with
  | nil => exact List.isChain_nil
  | cons b bs ih => exact settled_consRun ih

/-- The blocks in use. -/
def inUse (bs : List Block) : List Block := bs.filter fun b => b.free = false

theorem inUse_cons_of_free (hfree : b.free = true) : inUse (b :: bs) = inUse bs :=
  List.filter_cons_of_neg (by simp [hfree])

theorem inUse_consRun : inUse (consRun b bs) = inUse (b :: bs) := by
  cases bs with
  | nil => rfl
  | cons c rest =>
      by_cases hfree : b.free = true ∧ c.free = true
      · have hjoin : (b.join c).free = true := hfree.1
        rw [consRun, if_pos hfree, inUse_cons_of_free hjoin, inUse_cons_of_free hfree.1,
          inUse_cons_of_free hfree.2]
      · rw [consRun, if_neg hfree]

theorem inUse_joinRuns (bs : List Block) : inUse (joinRuns bs) = inUse bs := by
  induction bs with
  | nil => rfl
  | cons b bs ih =>
      show inUse (consRun b (joinRuns bs)) = _
      rw [inUse_consRun]
      unfold inUse at ih ⊢
      rw [List.filter_cons, List.filter_cons, ih]

theorem total_consRun_le : total (consRun b bs) ≤ total (b :: bs) := by
  cases bs with
  | nil => exact Nat.le_refl _
  | cons c rest =>
      by_cases hfree : b.free = true ∧ c.free = true
      · have hmod := Nat.mod_le (b.capacity + (c.capacity + headerSize)) (2 ^ 64)
        rw [consRun, if_pos hfree, total_cons, total_cons, total_cons]
        show _ % 2 ^ 64 + _ + _ ≤ _
        omega
      · rw [consRun, if_neg hfree]

theorem total_joinRuns_le (bs : List Block) : total (joinRuns bs) ≤ total bs := by
  induction bs with
  | nil => exact Nat.le_refl _
  | cons b bs ih =>
      have hcons : total (joinRuns (b :: bs)) ≤ total (b :: joinRuns bs) := total_consRun_le
      rw [total_cons] at hcons ⊢
      omega

/-! ## The pass -/

/-- What the pass makes of the list `bs`. -/
structure Coalesced (bs bs' : List Block) : Prop where
  head : headAddr bs' = headAddr bs
  settled : Settled bs'
  inUse : inUse bs' = inUse bs
  total : total bs' % 2 ^ 64 = total bs % 2 ^ 64
  totalSmall : Beavalloc.total bs < 2 ^ 64 → Beavalloc.total bs' = Beavalloc.total bs

theorem coalesced_joinRuns (bs : List Block) : Coalesced bs (joinRuns bs) where
  head := headAddr_joinRuns bs
  settled := settled_joinRuns bs
  inUse := inUse_joinRuns bs
  total := total_joinRuns bs
  totalSmall := by
    intro hlt
    have hle := total_joinRuns_le bs
    have hmod := total_joinRuns bs
    rwa [Nat.mod_eq_of_lt (by omega), Nat.mod_eq_of_lt hlt] at hmod

theorem coalesce_head (h : Linked m bs) {fuel : Nat} (hfuel : bs.length < fuel) :
    ∃ m', coalesce fuel (headAddr bs) m = some m' ∧ Linked m' (joinRuns bs) := by
  cases bs with
  | nil =>
      cases fuel with
      | zero => exact absurd hfuel (Nat.not_lt_zero _)
      | succ fuel => exact ⟨m, rfl, h⟩
  | cons b post => exact coalesce_linked [] b post h List.isChain_nil hfuel

/-- The pass over a list linked both ways comes back after at most one turn a block
and leaves a list linked both ways with its runs of free blocks joined. -/
theorem coalesce_complete (h : Linked m bs) {fuel : Nat} (hfuel : bs.length < fuel) :
    ∃ m' bs', coalesce fuel (headAddr bs) m = some m' ∧ Linked m' bs' ∧
      Coalesced bs bs' := by
  obtain ⟨m', hrun, hlinked⟩ := coalesce_head h hfuel
  exact ⟨m', joinRuns bs, hrun, hlinked, coalesced_joinRuns bs⟩

/-- The headers of two free neighbours of one capacity, at 4096 and 8192. -/
def twoFree (capacity : Nat) : Mem :=
  setNext (setCapacity (setFree
    (setPrev (setCapacity (setFree (fun _ => 0) 8192 1) 8192 capacity) 8192 4096)
      4096 1) 4096 capacity) 4096 8192

def twoFreeBlocks (capacity : Nat) : List Block :=
  [⟨4096, capacity, 0, true⟩, ⟨8192, capacity, 0, true⟩]

theorem twoFree_linked {capacity : Nat} (hcap : capacity < 2 ^ 64) :
    Linked (twoFree capacity) (twoFreeBlocks capacity) := by
  refine ⟨⟨?_, ?_, trivial⟩, ?_, ?_⟩
  · constructor <;>
      simp (disch := omega) only [twoFree, blockFree, blockCapacity, blockSize, blockPrev,
        blockNext, setFree, setCapacity, setPrev, setNext, load_store_of_disjoint,
        load_store_self, load_zero, headOr]
    case free => simp
  · constructor <;>
      simp (disch := omega) only [twoFree, blockFree, blockCapacity, blockSize, blockPrev,
        blockNext, setFree, setCapacity, setPrev, setNext, load_store_of_disjoint,
        load_store_self, load_zero, headOr]
    case free => simp
  · simp [twoFreeBlocks, Apart, headerSize]
  · simp [twoFreeBlocks]

/-- Two free blocks of 984 bytes become one. -/
theorem coalesce_complete_twoFree :
    ∃ m' bs', coalesce 3 4096 (twoFree 984) = some m' ∧ Linked m' bs' ∧
      Coalesced (twoFreeBlocks 984) bs' :=
  coalesce_complete (twoFree_linked (by decide)) (Nat.lt_succ_self 2)

/-- Two capacities of `2 ^ 63` wrap around to one of 40: the sum is not kept. -/
theorem coalesce_wraps :
    Linked (twoFree (2 ^ 63)) (twoFreeBlocks (2 ^ 63)) ∧
      ¬ ∃ m' bs', coalesce 3 4096 (twoFree (2 ^ 63)) = some m' ∧ Linked m' bs' ∧
        headAddr bs' = 4096 ∧ total bs' = total (twoFreeBlocks (2 ^ 63)) := by
  have hlinked : Linked (twoFree (2 ^ 63)) (twoFreeBlocks (2 ^ 63)) :=
    twoFree_linked (by decide)
  refine ⟨hlinked, ?_⟩
  rintro ⟨m', bs', hrun, hlinked', hhead, htotal⟩
  obtain ⟨m₁, hrun₁, hlinked₁⟩ := coalesce_head hlinked (Nat.lt_succ_self 2)
  obtain rfl : m₁ = m' := Option.some.inj (hrun₁.symm.trans hrun)
  have hsame : bs' = joinRuns (twoFreeBlocks (2 ^ 63)) :=
    hlinked'.chain.unique hlinked₁.chain hhead (fun c hc => (hlinked'.bounds c hc).1)
      fun c hc => (hlinked₁.bounds c hc).1
  rw [hsame] at htotal
  exact absurd htotal (by decide)

end Beavalloc
end CS444
