/-
The request to `sbrk`, for every size.

`beavalloc` rounds the size and the header up to a multiple of 1024, counts the
multiples in an `int` and converts the product back to `size_t`.  The request is
exact as long as the rounded number is below `2 ^ 31`; from there on `int` wraps
around, and the heap grows by too little or shrinks.
-/
import CS444.Beavalloc.Grow
import Mathlib.Order.Bounds.Basic

namespace CS444
namespace Beavalloc

open Bytes

variable {h h₁ : Heap} {bs : List Block} {size fuel a : Nat} {grant : Bool}

/-! ## The increment -/

/-- What `sbrk`, which takes an `intptr_t`, is asked for. -/
def increment (size : Nat) : Int := Int.bmod (sbrkBytes size) (2 ^ 64)

/-- The least multiple of 1024 that holds the header and `size` bytes. -/
def leastRequest (size : Nat) : Nat := 1024 * ((size + headerSize + 1023) / 1024)

theorem leastRequest_isLeast (size : Nat) :
    IsLeast {k : Int | 1024 ∣ k ∧ ((size + headerSize : Nat) : Int) ≤ k} (leastRequest size) := by
  unfold leastRequest
  refine ⟨⟨⟨((size + headerSize + 1023) / 1024 : Nat), by push_cast; rfl⟩, by omega⟩,
    fun k hk => ?_⟩
  obtain ⟨⟨q, rfl⟩, hle⟩ := hk
  omega

/-- The remainder, the multiplier and their product in `int` come to one conversion
of the rounded sum. -/
theorem sbrkBytes_eq_bmod (size : Nat) :
    sbrkBytes size = (Int.bmod
      (1024 * (((size + headerSize) % 2 ^ 64 + 1023) / 1024 : Nat)) (2 ^ 32) % 2 ^ 64).toNat := by
  unfold sbrkBytes
  dsimp only
  generalize (size + headerSize) % 2 ^ 64 = total
  have hproduct : Int.bmod (1024 * if total % 1024 ≠ 0 then
      Int.bmod (Int.bmod (total / 1024 : Nat) (2 ^ 32) + 1) (2 ^ 32)
        else Int.bmod (total / 1024 : Nat) (2 ^ 32)) (2 ^ 32) =
      Int.bmod (1024 * ((total + 1023) / 1024 : Nat)) (2 ^ 32) := by
    by_cases hrem : total % 1024 = 0
    · rw [if_neg (by simp [hrem]), Int.mul_bmod_bmod]
      congr 2
      omega
    · rw [if_pos hrem, Int.bmod_add_bmod, Int.mul_bmod_bmod]
      congr 2
      omega
  rw [hproduct]

theorem increment_eq (size : Nat) :
    increment size = Int.bmod
      (1024 * (((size + headerSize) % 2 ^ 64 + 1023) / 1024 : Nat)) (2 ^ 32) := by
  unfold increment
  rw [sbrkBytes_eq_bmod]
  generalize (1024 * (((size + headerSize) % 2 ^ 64 + 1023) / 1024 : Nat) : Int) = x
  have hlow := Int.le_bmod (x := x) (m := 2 ^ 32) (by decide)
  have hhigh := Int.bmod_lt (x := x) (m := 2 ^ 32) (by decide)
  rw [Int.toNat_of_nonneg (Int.emod_nonneg _ (by decide))]
  have hmod : (2 ^ 64 : Int) = ((2 ^ 64 : Nat) : Int) := rfl
  rw [hmod, Int.emod_bmod]
  exact Int.bmod_eq_of_le (by omega) (by omega)

theorem sbrkBytes_eq_emod (size : Nat) : sbrkBytes size = (increment size % 2 ^ 64).toNat := by
  rw [increment_eq, sbrkBytes_eq_bmod]

theorem increment_bounds (size : Nat) : -2 ^ 31 ≤ increment size ∧ increment size < 2 ^ 31 := by
  rw [increment_eq]
  generalize (1024 * (((size + headerSize) % 2 ^ 64 + 1023) / 1024 : Nat) : Int) = x
  have hlow := Int.le_bmod (x := x) (m := 2 ^ 32) (by decide)
  have hhigh := Int.bmod_lt (x := x) (m := 2 ^ 32) (by decide)
  omega

theorem increment_dvd (size : Nat) : (1024 : Int) ∣ increment size := by
  rw [increment_eq]
  have hsub := Int.dvd_bmod_sub_self
    (x := 1024 * (((size + headerSize) % 2 ^ 64 + 1023) / 1024 : Nat)) (m := 2 ^ 32)
  omega

/-- The request is exact exactly where the rounded number is an `int`. -/
theorem increment_eq_iff :
    increment size = leastRequest size ↔ leastRequest size < 2 ^ 31 := by
  constructor
  · intro heq
    have hlt := (increment_bounds size).2
    omega
  · intro hlt
    have htotal : (size + headerSize) % 2 ^ 64 = size + headerSize := by
      apply Nat.mod_eq_of_lt
      unfold leastRequest at hlt
      omega
    rw [increment_eq, htotal]
    unfold leastRequest at hlt ⊢
    rw [Int.bmod_eq_of_le (by omega) (by omega)]
    push_cast
    rfl

theorem sbrkBytes_eq_least (hlt : leastRequest size < 2 ^ 31) :
    sbrkBytes size = leastRequest size := by
  rw [sbrkBytes_eq_emod, increment_eq_iff.mpr hlt]
  omega

/-! ## The new block -/

theorem sbrk_granted (hsbrk : sbrk grant (sbrkBytes size) h = some (a, h₁)) :
    a = h.brk ∧ ∃ brk' : Nat, h₁ = { h with brk := brk' } ∧
      (brk' : Int) = h.brk + increment size ∧ brk' < addrLimit := by
  unfold sbrk at hsbrk
  simp only at hsbrk
  split at hsbrk
  · rename_i hgrant
    obtain ⟨rfl, rfl⟩ := Prod.mk.inj (Option.some.inj hsbrk)
    refine ⟨rfl, _, rfl, ?_⟩
    unfold increment
    omega
  · exact absurd hsbrk (by simp)

/-- The last block of the list is not where the new header goes. -/
def TailClear (h : Heap) : Prop :=
  h.blockListHead ≠ 0 → h.blockListTail ≠ 0 ∧
    (h.blockListTail + headerSize ≤ h.brk ∨ h.brk ≤ h.blockListTail)

/-- The block `beavalloc` makes of the memory `sbrk` gave it. -/
theorem growHeap_of_sbrk (htail : TailClear h)
    (hsbrk : sbrk grant (sbrkBytes size) h = some (a, h₁)) :
    ∃ h', growHeap grant size h = some (h.brk + headerSize, h') ∧ h'.brk = h₁.brk ∧
      blockCapacity h'.mem h.brk = subSize (sbrkBytes size) headerSize := by
  obtain ⟨rfl, brk', rfl, -, -⟩ := sbrk_granted hsbrk
  have hcap : subSize (sbrkBytes size) headerSize < 256 ^ 8 := subSize_lt _ _
  simp only [growHeap, hsbrk]
  by_cases hhead : h.blockListHead = 0
  · rw [if_pos hhead]
    refine ⟨_, rfl, rfl, ?_⟩
    simp (disch := omega) only [blockCapacity, setPrev, setCapacity, load_store_of_disjoint,
      load_store_self]
  · obtain ⟨hne, happart⟩ := htail hhead
    unfold headerSize at happart
    rw [if_neg hhead, if_neg hne]
    refine ⟨_, rfl, rfl, ?_⟩
    simp (disch := omega) only [blockCapacity, setNext, setPrev, setCapacity,
      load_store_of_disjoint, load_store_self]

/-! ## The whole call -/

/-- The call fails and leaves the list as it is, or it asked `sbrk` for the least
multiple of 1024 that holds the header and `size` bytes and was granted it, and the
new block has room for them. -/
def RequestExact (h : Heap) (size : Nat) (r : Option (Nat × Heap)) : Prop :=
  ∃ ptr h', r = some (ptr, h') ∧ (ptr = 0 ∧ Unchanged h h' ∨
    IsLeast {k : Int | 1024 ∣ k ∧ ((size + headerSize : Nat) : Int) ≤ k} (increment size) ∧
      (h'.brk : Int) = h.brk + increment size ∧
        ptr = h.brk + headerSize ∧ size ≤ blockCapacity h'.mem h.brk)

theorem requestExact_setLowerBound {r : Option (Nat × Heap)} :
    RequestExact (setLowerBound h) size r ↔ RequestExact h size r := by
  simp only [RequestExact, unchanged_setLowerBound, setLowerBound_brk]

theorem growHeap_exact_iff (htail : TailClear h) :
    RequestExact h size (growHeap grant size h) ↔
      sbrk grant (sbrkBytes size) h = none ∨ leastRequest size < 2 ^ 31 := by
  cases hsbrk : sbrk grant (sbrkBytes size) h with
  | none =>
      have hfailed : Unchanged h { h with errno := enomem } := ⟨rfl, rfl, rfl, rfl⟩
      exact iff_of_true ⟨0, _, growHeap_refused hsbrk, Or.inl ⟨rfl, hfailed⟩⟩ (Or.inl rfl)
  | some r =>
      obtain ⟨h', hgrow, hbrk, hcap⟩ := growHeap_of_sbrk htail hsbrk
      obtain ⟨-, brk', hr, hgranted, -⟩ := sbrk_granted hsbrk
      rw [hr] at hbrk
      rw [hgrow]
      constructor
      · rintro ⟨ptr, h'', heq, ⟨rfl, -⟩ | ⟨hleast, -⟩⟩
        · have hptr := congrArg Prod.fst (Option.some.inj heq)
          simp only [headerSize] at hptr
          omega
        · exact Or.inr (increment_eq_iff.mp (hleast.unique (leastRequest_isLeast size)))
      · intro hor
        have hlt := hor.resolve_left (by simp)
        have heq := increment_eq_iff.mpr hlt
        refine ⟨_, h', rfl, Or.inr ⟨?_, ?_, rfl, ?_⟩⟩
        · rw [heq]
          exact leastRequest_isLeast size
        · rw [hbrk]
          exact hgranted
        · have hheader : headerSize ≤ leastRequest size := by
            unfold leastRequest
            omega
          rw [hcap, sbrkBytes_eq_least hlt, subSize_of_le (by omega) hheader]
          unfold leastRequest
          omega

theorem beavalloc_grow (hpos : 0 < size)
    (hsearch : checkFreeBlock h.mem size fuel h.blockListHead = some false) :
    beavalloc fuel grant size h = growHeap grant size (setLowerBound h) := by
  unfold beavalloc
  rw [if_neg (Nat.ne_of_gt hpos)]
  dsimp only
  rw [setLowerBound_mem, setLowerBound_head, hsearch]

theorem TailClear.setLowerBound (htail : TailClear h) : TailClear (setLowerBound h) := by
  unfold TailClear
  rwa [setLowerBound_head, setLowerBound_tail, setLowerBound_brk]

theorem sbrk_setLowerBound {n : Nat} :
    sbrk grant n (setLowerBound h) = none ↔ sbrk grant n h = none := by
  simp only [sbrk, setLowerBound_brk]
  split <;> simp

/-- Where the search finds no block, the request is exact if and only if `sbrk`
refuses or the rounded size is an `int`. -/
theorem request_exact_iff (hpos : 0 < size) (htail : TailClear h)
    (hsearch : checkFreeBlock h.mem size fuel h.blockListHead = some false) :
    RequestExact h size (beavalloc fuel grant size h) ↔
      sbrk grant (sbrkBytes size) h = none ∨ leastRequest size < 2 ^ 31 := by
  rw [beavalloc_grow hpos hsearch, ← requestExact_setLowerBound,
    growHeap_exact_iff htail.setLowerBound, sbrk_setLowerBound]

/-- A heap that has not been used, with its break at 4096. -/
def noBlocks : Heap where
  mem := fun _ => 0
  blockListHead := 0
  blockListTail := 0
  lowerMemBound := 0
  upperMemBound := 0
  brk := 4096
  errno := 0

theorem noBlocks_tailClear : TailClear noBlocks := fun hne => absurd rfl hne

/-- 1000 bytes and a header take 2048. -/
theorem request_exact_noBlocks : RequestExact noBlocks 1000 (beavalloc 1 true 1000 noBlocks) :=
  (request_exact_iff (by decide) noBlocks_tailClear rfl).mpr (Or.inr (by decide))

/-- For 4 GiB `sbrk` is asked for 1024 bytes. -/
theorem request_four_gib :
    sbrkBytes (2 ^ 32) = 1024 ∧
      ¬ RequestExact noBlocks (2 ^ 32) (beavalloc 1 true (2 ^ 32) noBlocks) := by
  refine ⟨by decide, ?_⟩
  rw [beavalloc_grow (by decide) rfl, ← requestExact_setLowerBound,
    growHeap_exact_iff noBlocks_tailClear.setLowerBound, sbrk_setLowerBound]
  decide

end Beavalloc
end CS444
