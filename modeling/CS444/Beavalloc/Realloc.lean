/-
`beavrealloc` and `beavcalloc` on a well-formed heap.

`beavrealloc` carries the contents over and leaves the other blocks alone exactly
when the new size is at most the capacity of the old block and the request `Fit`s;
for a larger one `memmove` reads what lies behind the old block.  The old block is
not freed, because `find_block` looks for a header at the pointer.  `beavcalloc`
gives the whole array, zeroed, exactly when the product does not wrap around, it
`Fit`s and `sbrk` grants what it is asked for.
-/
import CS444.Beavalloc.Placed

namespace CS444
namespace Beavalloc

open Bytes

variable {h h₁ : Heap} {bs bs₁ : List Block} {b c old : Block}
variable {m : Mem} {brk a n nmemb size fuel ptr : Nat} {grant : Bool}

/-! ## Filling the new block -/

theorem Stacked.apart_of_ne (h : Stacked brk a bs) (hb : b ∈ bs) (hc : c ∈ bs)
    (hne : c.addr ≠ b.addr) : c.stop ≤ b.addr ∨ b.stop ≤ c.addr := by
  induction bs generalizing a with
  | nil => exact absurd hb List.not_mem_nil
  | cons d rest ih =>
      obtain ⟨-, hrest⟩ := h
      rcases List.mem_cons.mp hb with rfl | hbrest
      · rcases List.mem_cons.mp hc with rfl | hcrest
        · exact absurd rfl hne
        · exact Or.inr (hrest.bounds.2 c hcrest).1
      · rcases List.mem_cons.mp hc with rfl | hcrest
        · exact Or.inl (hrest.bounds.2 b hbrest).1
        · exact ih hrest hbrest hcrest

/-- Bytes written into the block leave the heap paved. -/
theorem Handed.fill {head : Nat} (hhand : Handed m brk head bs n ptr) (f : Nat → UInt8) :
    Handed (blit m ptr n f) brk head bs n ptr := by
  obtain ⟨hpaved, b, hb, huse, hdata, hroom⟩ := hhand
  refine ⟨hpaved.congr fun d hd x hlow hhigh => ?_, b, hb, huse, hdata, hroom⟩
  apply blit_apply_of_outside
  by_contra hinside
  have hstop : b.stop = b.data + b.capacity := rfl
  have hheader := hpaved.stacked.data_not_header hd hb (x := x) (by omega) (by omega)
  omega

/-- Bytes written into the new block leave the blocks in use as they were. -/
theorem Placed.fill_bytes (hplaced : Placed h bs n ptr h₁ bs₁) (f : Nat → UInt8) (hc : c ∈ bs)
    (huse : c.free = false) {x : Nat} (hlow : c.data ≤ x) (hhigh : x < c.stop) :
    blit h₁.mem ptr n f x = h.mem x := by
  obtain ⟨hpaved, b, hb, -, hdata, hroom⟩ := hplaced.handed
  obtain ⟨hmem, hne⟩ := hplaced.kept c hc huse
  have haddr : c.addr ≠ b.addr := by
    unfold Block.data at hdata hne
    omega
  have happart := hpaved.stacked.apart_of_ne hb hmem haddr
  rw [blit_apply_of_outside, hplaced.bytes c hc huse x hlow hhigh]
  unfold Block.stop at happart hhigh
  unfold Block.data at hdata hlow
  omega

/-! ## `beavrealloc` -/

/-- `beavrealloc` of the block `old` to `n` bytes, with `alloc` for what the inner
`beavalloc` returned and `r` for the pointer, the final heap and the addresses read:
the pointer is a block of its own, handed out by the inner call and with room for `n`
bytes in the final heap, every address read is inside the old block, the bytes both
have are carried over, and the other blocks in use keep theirs. -/
structure Realloced (h : Heap) (bs : List Block) (old : Block) (n : Nat) (alloc : Nat × Heap)
    (r : (Nat × Heap) × List Nat) : Prop where
  placed : ∃ bs₁, Placed h bs n alloc.1 alloc.2 bs₁
  handed : ∃ bs', Handed r.1.2.mem r.1.2.brk r.1.2.blockListHead bs' n r.1.1
  reads : ∀ x ∈ r.2, old.data ≤ x ∧ x < old.stop
  carried : ∀ i, i < min old.capacity n → r.1.2.mem (r.1.1 + i) = h.mem (old.data + i)
  others : ∀ c ∈ bs, c.free = false → c ≠ old → ∀ x, c.data ≤ x → x < c.stop →
    r.1.2.mem x = h.mem x

/-- A pointer to data is no header, so nothing is freed. -/
theorem beavfree_data (hhand : Handed h.mem h.brk h.blockListHead bs n ptr) (hold : old ∈ bs)
    (hcap : 0 < old.capacity) (hfuel : bs.length < fuel) :
    beavfree fuel old.data h = some h := by
  have hpaved := hhand.paved
  have hmiss : ∀ d ∈ bs, d.addr ≠ old.data := by
    intro d hd
    have hstop : old.stop = old.data + old.capacity := rfl
    have hheader := hpaved.stacked.data_not_header hd hold (x := old.data) (Nat.le_refl _)
      (by omega)
    unfold headerSize at hheader
    omega
  have hfind := findBlock_paved hpaved hmiss hfuel
  rw [hpaved.headAddr_eq (List.ne_nil_of_mem hold)] at hfind
  unfold beavfree
  rw [hfind]
  exact if_pos (Or.inr (Or.inl rfl))

theorem realloced_of_fit (hwf : WellFormed h bs) (hold : old ∈ bs) (huse : old.free = false)
    (hpos : 0 < n) (hn : n < 2 ^ 64) (hfuel : bs.length + 1 < fuel)
    (hcall : beavalloc fuel grant n h = some (ptr, h₁)) (hptr : ptr ≠ 0)
    (hle : n ≤ old.capacity) (hfit : Fit n bs) :
    ∃ r, beavrealloc fuel grant old.data n h = some r ∧
      Realloced h bs old n (ptr, h₁) r := by
  obtain ⟨bs₁, hplaced⟩ := placed_of_fit hwf hpos hn (by omega) hcall hptr hfit
  have hlength := hplaced.length
  have hstop : old.stop = old.data + old.capacity := rfl
  have hdata : old.data ≠ 0 := by
    unfold Block.data headerSize
    omega
  have hhand := hplaced.handed.fill fun i => h₁.mem (old.data + i)
  have hfree := beavfree_data (h := { h₁ with
      mem := blit h₁.mem ptr n fun i => h₁.mem (old.data + i) })
    hhand (hplaced.kept old hold huse).1 (by omega) (Nat.lt_of_le_of_lt hlength hfuel)
  have hcopy : fillNew n (fun i => h₁.mem (old.data + i)) (ptr, h₁) =
      some (ptr, { h₁ with mem := blit h₁.mem ptr n fun i => h₁.mem (old.data + i) }) := by
    unfold fillNew
    rw [if_neg (Nat.ne_of_gt hpos), if_neg hptr]
  have hfst : (beavrealloc fuel grant old.data n h).map Prod.fst =
      some (ptr, { h₁ with mem := blit h₁.mem ptr n fun i => h₁.mem (old.data + i) }) := by
    rw [beavrealloc_fst (Nat.ne_of_gt hpos) hdata, hcall, Option.bind_some, hcopy,
      Option.bind_some, hfree]
    rfl
  obtain ⟨⟨r, reads⟩, hr, rfl⟩ := Option.map_eq_some_iff.mp hfst
  have hreads := beavrealloc_reads (Nat.ne_of_gt hpos) hdata hr
  refine ⟨_, hr, ⟨bs₁, hplaced⟩, ⟨bs₁, hhand⟩, fun x hx => ?_, fun i hi => ?_,
    fun c hc hcuse _ x hlow hhigh => ?_⟩
  · rw [hreads] at hx
    obtain ⟨i, hi, rfl⟩ := List.mem_map.mp hx
    have hin := List.mem_range.mp hi
    omega
  · have hinside : ptr ≤ ptr + i ∧ ptr + i < ptr + n := by omega
    show (if ptr ≤ ptr + i ∧ ptr + i < ptr + n then _ else _) = _
    rw [if_pos hinside, Nat.add_sub_cancel_left]
    exact hplaced.bytes old hold huse _ (Nat.le_add_right _ _) (by omega)
  · exact hplaced.fill_bytes (fun i => h₁.mem (old.data + i)) hc hcuse hlow hhigh

/-- The last address read is `n - 1` bytes behind the old pointer. -/
theorem last_read {r : (Nat × Heap) × List Nat} (hpos : 0 < n) (hptr : ptr ≠ 0)
    (hr : beavrealloc fuel grant ptr n h = some r) : ptr + (n - 1) ∈ r.2 := by
  rw [beavrealloc_reads (Nat.ne_of_gt hpos) hptr hr]
  exact List.mem_map_of_mem (List.mem_range.mpr (by omega))

/-- `beavrealloc` carries the block over exactly when it does not grow past the old
capacity and the request fits. -/
theorem realloc_iff (hwf : WellFormed h bs) (hold : old ∈ bs) (huse : old.free = false)
    (hpos : 0 < n) (hn : n < 2 ^ 64) (hfuel : bs.length + 1 < fuel)
    (hcall : beavalloc fuel grant n h = some (ptr, h₁)) (hptr : ptr ≠ 0) :
    (∃ r, beavrealloc fuel grant old.data n h = some r ∧ Realloced h bs old n (ptr, h₁) r) ↔
      n ≤ old.capacity ∧ Fit n bs := by
  constructor
  · rintro ⟨r, hr, hrealloced⟩
    obtain ⟨bs₁, hplaced⟩ := hrealloced.placed
    refine ⟨?_, fit_of_handed hwf hpos hn (by omega) hcall hptr (fun _ _ => rfl) (Nat.le_refl n)
      hplaced.handed⟩
    have hdata : old.data ≠ 0 := by
      unfold Block.data headerSize
      omega
    have hlast := (hrealloced.reads _ (last_read hpos hdata hr)).2
    have hstop : old.stop = old.data + old.capacity := rfl
    omega
  · rintro ⟨hle, hfit⟩
    exact realloced_of_fit hwf hold huse hpos hn hfuel hcall hptr hle hfit

theorem oneUsed_find : [(⟨4096, 984, 100, false⟩ : Block)].find? (candidate n) = none := by
  rw [List.find?_eq_none]
  simp [candidate]

theorem oneUsed_grow (hpos : 0 < n) (hleast : leastRequest n < 2 ^ 31) :
    ∃ h₁, beavalloc 3 true n (oneUsed 100) = some (5160, h₁) := by
  have hwf := oneUsed_wellFormed 100 (by decide)
  have hn : n < 2 ^ 64 := by
    unfold leastRequest at hleast
    omega
  have hbytes : n + headerSize ≤ sbrkBytes n ∧ sbrkBytes n < 2 ^ 31 := by
    rw [sbrkBytes_eq_least hleast]
    unfold leastRequest at hleast ⊢
    omega
  have hgrant : true = true ∧ (setLowerBound (oneUsed 100)).brk + sbrkBytes n < addrLimit := by
    rw [setLowerBound_brk]
    refine ⟨rfl, ?_⟩
    show 5120 + sbrkBytes n < 2 ^ 47
    omega
  rw [beavalloc_eq hwf hpos hn (by decide), oneUsed_find]
  obtain ⟨h₁, hgrow, -⟩ := growHeap_allocated hwf.setLowerBound hbytes hgrant
  exact ⟨h₁, hgrow⟩

/-- A block of 984 bytes, reallocated to 50. -/
theorem realloc_iff_shrink :
    ∃ h₁ r, beavrealloc 3 true 4136 50 (oneUsed 100) = some r ∧
      Realloced (oneUsed 100) [⟨4096, 984, 100, false⟩] ⟨4096, 984, 100, false⟩ 50
        (5160, h₁) r := by
  obtain ⟨h₁, hcall⟩ := oneUsed_grow (n := 50) (by decide) (by decide)
  have hfit : Fit 50 [⟨4096, 984, 100, false⟩] :=
    ⟨fun b hb => absurd (oneUsed_find.symm.trans hb) (by simp), fun _ => by decide⟩
  exact ⟨h₁, (realloc_iff (oneUsed_wellFormed 100 (by decide)) List.mem_cons_self rfl (by decide)
    (by decide) (by decide) hcall (by decide)).mpr ⟨by decide, hfit⟩⟩

/-- To 2000 bytes, `memmove` reads on behind the old block. -/
theorem realloc_grow :
    ∃ h₁, beavalloc 3 true 2000 (oneUsed 100) = some (5160, h₁) ∧
      ¬ ∃ r, beavrealloc 3 true 4136 2000 (oneUsed 100) = some r ∧
        Realloced (oneUsed 100) [⟨4096, 984, 100, false⟩] ⟨4096, 984, 100, false⟩ 2000
          (5160, h₁) r := by
  obtain ⟨h₁, hcall⟩ := oneUsed_grow (n := 2000) (by decide) (by decide)
  refine ⟨h₁, hcall, ?_⟩
  rintro ⟨r, hr, hrealloced⟩
  have hread := (hrealloced.reads _ (last_read (by decide) (by decide) hr)).2
  exact absurd hread (by decide)

/-! ## `beavcalloc` -/

/-- The call returns `NULL` or a block in use with room for `total` bytes, all zero. -/
def ZeroedOrNull (total : Nat) (r : Option (Nat × Heap)) : Prop :=
  ∃ ptr h', r = some (ptr, h') ∧ (ptr = 0 ∨
    (∃ bs', Handed h'.mem h'.brk h'.blockListHead bs' total ptr) ∧
      ∀ i, i < total → h'.mem (ptr + i) = 0)

theorem beavalloc_served (hwf : WellFormed h bs) (hpos : 0 < n) (hn : n < 2 ^ 64)
    (hfuel : bs.length < fuel) :
    (∃ ptr h₁, beavalloc fuel grant n h = some (ptr, h₁) ∧ ptr ≠ 0) ↔
      (bs.find? (candidate n) = none → sbrk grant (sbrkBytes n) h ≠ none) := by
  rw [beavalloc_eq hwf hpos hn hfuel]
  cases hfind : bs.find? (candidate n) with
  | some b =>
      have htaken : (takeBlock n b.addr (setLowerBound h)).1 = b.addr + headerSize :=
        takeBlock_fst
      dsimp only
      cases htake : takeBlock n b.addr (setLowerBound h) with
      | mk p h₁ =>
          rw [htake] at htaken
          unfold headerSize at htaken
          exact iff_of_true ⟨p, h₁, rfl, by omega⟩ fun hnone => absurd hnone (by simp)
  | none =>
      dsimp only
      rw [ne_eq, ← sbrk_setLowerBound]
      cases hsbrk : sbrk grant (sbrkBytes n) (setLowerBound h) with
      | none =>
          rw [growHeap_refused hsbrk]
          refine iff_of_false ?_ (by simp)
          rintro ⟨ptr, h₁, heq, hptr⟩
          exact hptr (Prod.mk.inj (Option.some.inj heq)).1.symm
      | some r =>
          obtain ⟨h', hgrow, -⟩ := growHeap_of_sbrk hwf.setLowerBound.tailClear hsbrk
          rw [hgrow]
          refine iff_of_true ⟨_, _, rfl, ?_⟩ (by simp)
          unfold headerSize
          omega

/-- `beavcalloc` gives the whole array or nothing exactly when the product is a
multiple of `2 ^ 64`, or does not wrap around, fits and is granted. -/
theorem calloc_iff (hwf : WellFormed h bs) (hfuel : bs.length < fuel) :
    ZeroedOrNull (nmemb * size) (beavcalloc fuel grant nmemb size h) ↔
      2 ^ 64 ∣ nmemb * size ∨ nmemb * size < 2 ^ 64 ∧ Fit (nmemb * size) bs ∧
        (bs.find? (candidate (nmemb * size)) = none →
          sbrk grant (sbrkBytes (nmemb * size)) h ≠ none) := by
  by_cases hdvd : 2 ^ 64 ∣ nmemb * size
  · refine iff_of_true ?_ (Or.inl hdvd)
    refine ⟨0, h, ?_, Or.inl rfl⟩
    unfold beavcalloc
    rw [Nat.mod_eq_zero_of_dvd hdvd]
    by_cases hzero : nmemb = 0 ∨ size = 0
    · rw [if_pos hzero]
    · rw [if_neg hzero]
      rfl
  · have hfills : (Wrapper.calloc nmemb size).Fills := by
      refine ⟨fun h0 => hdvd ?_, fun h0 => hdvd ?_⟩
      · rw [h0, Nat.zero_mul]
        exact Nat.dvd_zero _
      · rw [h0, Nat.mul_zero]
        exact Nat.dvd_zero _
    have hrun : beavcalloc fuel grant nmemb size h = _ := run_calloc hfills
    rw [hrun]
    generalize htotal : nmemb * size = total at hdvd ⊢
    have hpos : 0 < total % 2 ^ 64 :=
      Nat.pos_of_ne_zero fun h0 => hdvd (Nat.dvd_of_mod_eq_zero h0)
    have hn : total % 2 ^ 64 < 2 ^ 64 := Nat.mod_lt _ (by decide)
    constructor
    · rintro ⟨ptr, h', hcall, hresult⟩
      obtain ⟨⟨p, h₁⟩, halloc, hfill⟩ := Option.bind_eq_some_iff.mp hcall
      unfold fillNew at hfill
      rw [if_neg (Nat.ne_of_gt hpos)] at hfill
      dsimp only at hfill
      by_cases hp : p = 0
      · rw [if_pos hp] at hfill
        exact absurd hfill (by simp)
      · rw [if_neg hp] at hfill
        obtain ⟨rfl, rfl⟩ := Prod.mk.inj (Option.some.inj hfill)
        obtain ⟨⟨bs', hhand⟩, -⟩ := hresult.resolve_left hp
        have hsmall : total < 2 ^ 64 := by
          obtain ⟨hpaved, b, hb, -, -, hroom⟩ := hhand
          obtain ⟨next, hhdr⟩ := hpaved.header hb
          exact Nat.lt_of_le_of_lt hroom hhdr.capacity_lt
        have hmod : total % 2 ^ 64 = total := Nat.mod_eq_of_lt hsmall
        rw [hmod] at halloc hpos hn hhand
        refine Or.inr ⟨hsmall, ?_, ?_⟩
        · have hsame : ∀ x, x < p ∨ p + total ≤ x →
              blit h₁.mem p total (fun _ => 0) x = h₁.mem x :=
            fun _ hx => blit_apply_of_outside hx
          exact fit_of_handed hwf hpos hn hfuel halloc hp hsame (Nat.le_refl total) hhand
        · exact (beavalloc_served hwf hpos hn hfuel).mp ⟨p, h₁, halloc, hp⟩
    · intro hor
      obtain ⟨hsmall, hfit, hgrant⟩ := hor.resolve_left hdvd
      have hmod : total % 2 ^ 64 = total := Nat.mod_eq_of_lt hsmall
      rw [hmod] at hpos hn ⊢
      obtain ⟨p, h₁, halloc, hp⟩ := (beavalloc_served hwf hpos hn hfuel).mpr hgrant
      obtain ⟨bs₁, hplaced⟩ := placed_of_fit hwf hpos hn hfuel halloc hp hfit
      refine ⟨p, { h₁ with mem := blit h₁.mem p total fun _ => 0 }, ?_,
        Or.inr ⟨⟨bs₁, hplaced.handed.fill fun _ => 0⟩, fun i hi => ?_⟩⟩
      · rw [halloc]
        show fillNew total _ (p, h₁) = _
        unfold fillNew
        rw [if_neg (Nat.ne_of_gt hpos), if_neg hp]
      · have hinside : p ≤ p + i ∧ p + i < p + total := by omega
        exact if_pos hinside

theorem noBlocks_wellFormed : WellFormed noBlocks [] :=
  ⟨rfl, rfl, fun hne => absurd rfl hne, by decide, by decide⟩

/-- Ten members of ten bytes in a heap that has not been used. -/
theorem calloc_iff_ten : ZeroedOrNull 100 (beavcalloc 1 true 10 10 noBlocks) :=
  (calloc_iff noBlocks_wellFormed (by decide)).mpr
    (Or.inr ⟨by decide, ⟨fun b hb => absurd hb (by simp), fun _ => by decide⟩,
      fun _ => by decide⟩)

/-- A product of `2 ^ 64 + 8` bytes is served by a block of 984. -/
theorem calloc_wraps :
    ¬ ZeroedOrNull ((2 ^ 61 + 1) * 8) (beavcalloc 1 true (2 ^ 61 + 1) 8 noBlocks) := by
  rintro ⟨ptr, h', hrun, hresult⟩
  have hptr : (beavcalloc 1 true (2 ^ 61 + 1) 8 noBlocks).map Prod.fst = some 4136 := by decide
  rw [hrun] at hptr
  obtain rfl := Option.some.inj hptr
  obtain ⟨⟨bs', hpaved, b, hb, -, -, hroom⟩, -⟩ := hresult.resolve_left (by decide)
  obtain ⟨next, hhdr⟩ := hpaved.header hb
  have hcap := hhdr.capacity_lt
  omega

end Beavalloc
end CS444
