/-
First-fit search.

`check_free_block` and `get_block` are meant to look for the first free block
with room for the request.  Both test `curr->capacity - size > 0` in `size_t`,
so they stop at the first free block whose capacity differs from the request,
on whatever side.  `first_fit_iff` gives the lists on which that is the block
first fit asks for.
-/
import CS444.Beavalloc.Grow

namespace CS444
namespace Beavalloc

open Bytes

variable {h : Heap} {m : Mem} {bs : List Block} {b : Block} {a size : Nat}

/-- A free block with room for the request. -/
def fits (size : Nat) (b : Block) : Bool := b.free && decide (size ≤ b.capacity)

/-- `get_block` answers with the data of `b`, in use with `size` bytes. -/
def Hands (size : Nat) (h : Heap) (fuel : Nat) (b : Block) : Prop :=
  ∃ h', getBlock size h fuel h.blockListHead = some (b.data, h') ∧
    blockFree h'.mem b.addr = 0 ∧ blockSize h'.mem b.addr = size

/-- The search on the list `bs` is first fit: `check` and `first` are soundness
and completeness, and `room` says that no block too small is handed out. -/
structure FirstFit (h : Heap) (bs : List Block) (size : Nat) : Prop where
  check : ∀ fuel, bs.length < fuel →
    ∃ found, checkFreeBlock h.mem size fuel h.blockListHead = some found ∧
      (found = true ↔ ∃ b ∈ bs, b.free = true ∧ size ≤ b.capacity)
  first : ∀ fuel, bs.length < fuel → ∀ b, bs.find? (fits size) = some b → Hands size h fuel b
  room : ∀ fuel, bs.length < fuel →
    ∀ p h', getBlock size h fuel h.blockListHead = some (p, h') →
      ∀ b ∈ bs, b.data = p → size ≤ b.capacity

/-! ## Searches that stop at the first free block -/

theorem find?_of_free {p : Block → Bool} (hfree : ∀ c, p c = true → c.free = true)
    (hfind : bs.find? Block.free = some b) (hp : p b = true) : bs.find? p = some b := by
  induction bs with
  | nil => simp at hfind
  | cons c rest ih =>
      by_cases hc : c.free = true
      · rw [List.find?_cons_of_pos hc] at hfind
        have heq : c = b := Option.some.inj hfind
        rw [← heq] at hp ⊢
        exact List.find?_cons_of_pos hp
      · rw [List.find?_cons_of_neg hc] at hfind
        rw [List.find?_cons_of_neg fun h => hc (hfree c h)]
        exact ih hfind

theorem find?_of_no_free {p : Block → Bool} (hfree : ∀ c, p c = true → c.free = true)
    (hnone : bs.find? Block.free = none) : bs.find? p = none := by
  rw [List.find?_eq_none] at hnone ⊢
  exact fun c hc hp => hnone c hc (hfree c hp)

theorem free_of_candidate : ∀ c, candidate size c = true → c.free = true := by
  intro c hc
  simp only [candidate, Bool.and_eq_true] at hc
  exact hc.1

theorem free_of_fits : ∀ c, fits size c = true → c.free = true := by
  intro c hc
  simp only [fits, Bool.and_eq_true] at hc
  exact hc.1

theorem candidate_of_ne (hfree : b.free = true) (hne : b.capacity ≠ size) :
    candidate size b = true := by
  rw [candidate, hfree, Bool.true_and, decide_eq_true_iff]
  exact hne

theorem fits_of_le (hfree : b.free = true) (hle : size ≤ b.capacity) : fits size b = true := by
  rw [fits, hfree, Bool.true_and, decide_eq_true_iff]
  exact hle

/-! ## The block handed out -/

theorem takeBlock_eq : takeBlock size a h = (a + headerSize, (takeBlock size a h).2) := by
  -- Over a variable: the kernel would unfold `takeBlock` to compare the projections.
  have hpair : ∀ r : Nat × Heap, r.1 = a + headerSize → r = (a + headerSize, r.2) :=
    fun r hr => Prod.ext hr rfl
  exact hpair _ takeBlock_fst

theorem getBlock_none (hsize : size < 2 ^ 64) (hlist : Listed h.mem a bs) {fuel : Nat}
    (hfuel : bs.length < fuel) (hfind : bs.find? (candidate size) = none) :
    getBlock size h fuel a = some (0, h) := by
  rw [getBlock_listed hsize hlist hfuel, hfind]

theorem getBlock_some (hsize : size < 2 ^ 64) (hlist : Listed h.mem a bs) {fuel : Nat}
    (hfuel : bs.length < fuel) (hfind : bs.find? (candidate size) = some b) :
    getBlock size h fuel a = some (b.data, (takeBlock size b.addr h).2) := by
  rw [getBlock_listed hsize hlist hfuel, hfind]
  exact congrArg some takeBlock_eq

/-- A block larger than the request is in use with that size once it is
taken, cut in two or not. -/
theorem takeBlock_inUse {prev next : Nat} (hhdr : HeaderAt h.mem prev next b)
    (hin : b.addr + headerSize ≤ addrLimit) (hroom : size < b.capacity) :
    blockFree (takeBlock size b.addr h).2.mem b.addr = 0 ∧
      blockSize (takeBlock size b.addr h).2.mem b.addr = size := by
  have hcap := hhdr.capacity_lt
  have huse : ∀ {m : Mem} {c : Block} {prev next : Nat}, HeaderAt m prev next c →
      c.addr = b.addr → c.free = false → c.size = size →
      blockFree m b.addr = 0 ∧ blockSize m b.addr = size := by
    intro m c prev next hc haddr hfree hsize
    have hnot : ¬ blockFree m b.addr ≠ 0 := by
      rw [← haddr, hc.free, hfree]
      exact Bool.false_ne_true
    refine ⟨by omega, ?_⟩
    rw [← haddr, hc.size, hsize]
  by_cases hsplit : subSize (blockCapacity h.mem b.addr) size > size
  · have hfit : b.addr + headerSize + size < 2 ^ 64 := by
      rw [hhdr.capacity, subSize_of_le hcap (by omega)] at hsplit
      unfold addrLimit at hin
      omega
    obtain ⟨m', hcut, heq⟩ := takeBlock_of_split hfit hsplit
    rw [heq]
    exact huse hcut.taken rfl rfl rfl
  · rw [takeBlock_of_whole hsplit]
    exact huse (headerAt_whole hhdr (by omega)) rfl rfl rfl

/-! ## When the search is first fit -/

/-- Where the first free block is larger than the request, both loops stop at
it and it is the first fit. -/
theorem firstFit_of_large (hsize : size < 2 ^ 64) (hlist : Listed h.mem h.blockListHead bs)
    (hlarge : ∀ b, bs.find? Block.free = some b → size < b.capacity) : FirstFit h bs size := by
  cases hfirst : bs.find? Block.free with
  | none =>
      have hcand := find?_of_no_free (p := candidate size) free_of_candidate hfirst
      have hfits := find?_of_no_free (p := fits size) free_of_fits hfirst
      refine ⟨fun fuel hfuel => ?_, fun fuel hfuel b hb => ?_,
        fun fuel hfuel p h' hget b hb hp => ?_⟩
      · refine ⟨_, checkFreeBlock_listed hsize hlist hfuel, ?_⟩
        rw [List.any_eq_true]
        rw [List.find?_eq_none] at hcand hfirst
        constructor
        · rintro ⟨c, hc, hcc⟩
          exact absurd hcc (hcand c hc)
        · rintro ⟨c, hc, hfree, -⟩
          exact absurd hfree (hfirst c hc)
      · rw [hfits] at hb
        cases hb
      · rw [getBlock_none hsize hlist hfuel hcand] at hget
        obtain ⟨hzero, -⟩ := Prod.mk.inj (Option.some.inj hget)
        unfold Block.data headerSize at hp
        omega
  | some f =>
      have hroom := hlarge f hfirst
      have hmem := List.mem_of_find?_eq_some hfirst
      have hfree : f.free = true := List.find?_some hfirst
      have hcandf : candidate size f = true := candidate_of_ne hfree (by omega)
      have hcand := find?_of_free free_of_candidate hfirst hcandf
      have hfits := find?_of_free free_of_fits hfirst (fits_of_le hfree (Nat.le_of_lt hroom))
      refine ⟨fun fuel hfuel => ?_, fun fuel hfuel b hb => ?_,
        fun fuel hfuel p h' hget b hb hp => ?_⟩
      · refine ⟨_, checkFreeBlock_listed hsize hlist hfuel, ?_⟩
        exact iff_of_true (List.any_eq_true.mpr ⟨f, hmem, hcandf⟩) ⟨f, hmem, hfree, by omega⟩
      · rw [hfits] at hb
        obtain rfl := Option.some.inj hb
        obtain ⟨hin, hhdr⟩ := hlist.mem f hmem
        exact ⟨_, getBlock_some hsize hlist hfuel hcand, takeBlock_inUse hhdr hin hroom⟩
      · rw [getBlock_some hsize hlist hfuel hcand] at hget
        obtain ⟨hfst, -⟩ := Prod.mk.inj (Option.some.inj hget)
        have haddr : b.addr = f.addr := by
          unfold Block.data at hp hfst
          omega
        have hcap := hlist.capacity_eq hb hmem haddr
        omega

/-- Where the first free block is no larger than the request, the search hands
out a block too small or passes over the exact fit. -/
theorem large_of_firstFit (hsize : size < 2 ^ 64) (hlist : Listed h.mem h.blockListHead bs)
    (hfit : FirstFit h bs size) (hfirst : bs.find? Block.free = some b) : size < b.capacity := by
  have hmem := List.mem_of_find?_eq_some hfirst
  have hfree : b.free = true := List.find?_some hfirst
  have hfuel : bs.length < bs.length + 1 := Nat.lt_succ_self _
  rcases Nat.lt_trichotomy b.capacity size with hsmall | hexact | hlarge
  · have hcand : candidate size b = true := candidate_of_ne hfree (by omega)
    have hget := getBlock_some hsize hlist hfuel (find?_of_free free_of_candidate hfirst hcand)
    have hroom := hfit.room _ hfuel _ _ hget b hmem rfl
    omega
  · have hfits : fits size b = true := fits_of_le hfree (by omega)
    obtain ⟨h', hget, -⟩ := hfit.first _ hfuel b (find?_of_free free_of_fits hfirst hfits)
    cases hcand : bs.find? (candidate size) with
    | none =>
        rw [getBlock_none hsize hlist hfuel hcand] at hget
        obtain ⟨hzero, -⟩ := Prod.mk.inj (Option.some.inj hget)
        unfold Block.data headerSize at hzero
        omega
    | some c =>
        rw [getBlock_some hsize hlist hfuel hcand] at hget
        obtain ⟨hfst, -⟩ := Prod.mk.inj (Option.some.inj hget)
        have haddr : c.addr = b.addr := by
          unfold Block.data at hfst
          omega
        have hcap := hlist.capacity_eq (List.mem_of_find?_eq_some hcand) hmem haddr
        have hc : candidate size c = true := List.find?_some hcand
        simp only [candidate, Bool.and_eq_true, decide_eq_true_iff] at hc
        omega
  · exact hlarge

/-- The search is first fit exactly on the lists whose first free block is
larger than the request, and on those without a free block. -/
theorem first_fit_iff (hsize : size < 2 ^ 64) (hlist : Listed h.mem h.blockListHead bs) :
    FirstFit h bs size ↔ ∀ b, bs.find? Block.free = some b → size < b.capacity := by
  refine ⟨fun hfit b hfirst => ?_, fun hlarge => ?_⟩
  · exact large_of_firstFit hsize hlist hfit hfirst
  · exact firstFit_of_large hsize hlist hlarge

/-- A block in use and two free ones. -/
def usedFreeFree : List Block :=
  [⟨4096, 984, 100, false⟩, ⟨5120, 200, 0, true⟩, ⟨5360, 744, 0, true⟩]

theorem usedFreeFree_listed : Listed (heapOf usedFreeFree 6144).mem
    (heapOf usedFreeFree 6144).blockListHead usedFreeFree := by
  have hend : blockNext (heapOf usedFreeFree 6144).mem (blockNext (heapOf usedFreeFree 6144).mem
      (blockNext (heapOf usedFreeFree 6144).mem 4096)) = 0 := by decide +kernel
  refine ⟨rfl, by decide, by decide, ?_, ?_, by decide +kernel, by decide, ?_, ?_,
    by decide +kernel, by decide, ?_, hend⟩
  all_goals first | decide +kernel | (constructor <;> decide +kernel)

/-- The first free block is the first fit of 100 bytes. -/
theorem first_fit_usedFreeFree : FirstFit (heapOf usedFreeFree 6144) usedFreeFree 100 := by
  refine (first_fit_iff (by decide) usedFreeFree_listed).mpr fun b hb => ?_
  obtain rfl := Option.some.inj hb
  decide

theorem oneFree_listed : Listed oneFree.mem oneFree.blockListHead [⟨4096, 984, 0, true⟩] := by
  have hend : blockNext oneFree.mem oneFree.blockListHead = 0 := by decide
  refine ⟨rfl, by decide, by decide, ?_, hend⟩
  constructor <;> decide

/-- The free block of `oneFree` is handed out to 2000 bytes, and 984 bytes do
not find it. -/
theorem oneFree_not_first_fit :
    ¬ FirstFit oneFree [⟨4096, 984, 0, true⟩] 2000 ∧
      ¬ FirstFit oneFree [⟨4096, 984, 0, true⟩] 984 ∧
        checkFreeBlock oneFree.mem 2000 2 oneFree.blockListHead = some true ∧
          checkFreeBlock oneFree.mem 984 2 oneFree.blockListHead = some false := by
  refine ⟨fun hfit => ?_, fun hfit => ?_, by decide, by decide⟩
  · have hlarge := large_of_firstFit (by decide) oneFree_listed hfit rfl
    revert hlarge
    decide
  · have hlarge := large_of_firstFit (by decide) oneFree_listed hfit rfl
    revert hlarge
    decide

end Beavalloc
end CS444
