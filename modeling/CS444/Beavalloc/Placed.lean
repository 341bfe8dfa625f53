/-
Which calls of `beavalloc` give out a block of their own.

`Paved` is a heap as its `next` links and capacities show it: the blocks lie one
after another up to the break.  That is less than `WellFormed`, which the split of
a block with a successor breaks at the `prev` link only.  On a well-formed heap a
call that does not fail leaves a paved heap with a block of the requested size in
it exactly when the request `Fit`s: the block the search stops at is larger, with
room for a header if it is split, or `sbrk` is asked for enough.
-/
import CS444.Beavalloc.FreeBlock
import CS444.Beavalloc.Wrappers

namespace CS444
namespace Beavalloc

open Bytes

variable {h h' h₁ : Heap} {bs bs' pre post : List Block} {b c : Block}
variable {m m' m₁ : Mem} {brk brk' prev a n N fuel ptr : Nat} {grant : Bool}

/-! ## Paved heaps -/

def Paved (m : Mem) (brk : Nat) : Nat → List Block → Prop
  | a, [] => a = brk
  | a, b :: rest =>
    b.addr = a ∧ 0 < a ∧ HeaderAt m (blockPrev m a) (headAddr rest) b ∧ Paved m brk b.stop rest

theorem HeaderAt.anyPrev {next : Nat} (hhdr : HeaderAt m prev next b) :
    HeaderAt m (blockPrev m b.addr) next b := by
  rw [hhdr.prev]
  exact hhdr

theorem Tiles.paved (h : Tiles m brk prev a bs) : Paved m brk a bs := by
  induction bs generalizing prev a with
  | nil => exact h
  | cons b rest ih =>
      obtain ⟨rfl, hpos, hhdr, -, hrest⟩ := h
      exact ⟨rfl, hpos, hhdr.anyPrev, ih hrest⟩

theorem Paved.stacked (h : Paved m brk a bs) : Stacked brk a bs := by
  induction bs generalizing a with
  | nil => exact h
  | cons b rest ih => exact ⟨h.1, ih h.2.2.2⟩

theorem Paved.headAddr_eq (h : Paved m brk a bs) (hne : bs ≠ []) : headAddr bs = a := by
  cases bs with
  | nil => exact absurd rfl hne
  | cons b rest => exact h.1

/-- The header of a block of the list. -/
theorem Paved.header (h : Paved m brk a bs) (hb : b ∈ bs) :
    ∃ next, HeaderAt m (blockPrev m b.addr) next b := by
  induction bs generalizing a with
  | nil => exact absurd hb List.not_mem_nil
  | cons d rest ih =>
      obtain ⟨rfl, -, hhdr, hrest⟩ := h
      rcases List.mem_cons.mp hb with rfl | hb
      · exact ⟨_, hhdr⟩
      · exact ih hrest hb

theorem Paved.congr (h : Paved m brk a bs)
    (hagree : ∀ d ∈ bs, ∀ x, d.addr ≤ x → x < d.addr + headerSize → m' x = m x) :
    Paved m' brk a bs := by
  induction bs generalizing a with
  | nil => exact h
  | cons d rest ih =>
      obtain ⟨rfl, hpos, hhdr, hrest⟩ := h
      exact ⟨rfl, hpos, (hhdr.congr (hagree d List.mem_cons_self)).anyPrev,
        ih hrest fun e he => hagree e (List.mem_cons_of_mem d he)⟩

/-- No byte of a block's data belongs to a header. -/
theorem Stacked.data_not_header (h : Stacked brk a bs) (hb : b ∈ bs) (hc : c ∈ bs) {x : Nat}
    (hlow : c.data ≤ x) (hhigh : x < c.stop) : x < b.addr ∨ b.addr + headerSize ≤ x := by
  induction bs generalizing a with
  | nil => exact absurd hb List.not_mem_nil
  | cons d rest ih =>
      obtain ⟨-, hrest⟩ := h
      have hbounds := hrest.bounds.2
      unfold Block.data at hlow
      rcases List.mem_cons.mp hb with rfl | hbrest
      · rcases List.mem_cons.mp hc with rfl | hcrest
        · exact Or.inr hlow
        · have hafter := (hbounds c hcrest).1
          unfold Block.stop at hafter
          exact Or.inr (by omega)
      · rcases List.mem_cons.mp hc with rfl | hcrest
        · exact Or.inl (Nat.lt_of_lt_of_le hhigh (hbounds b hbrest).1)
        · exact ih hrest hbrest hcrest

/-- Blocks before `b` stay where they are when what follows is paved again. -/
theorem Paved.replace_tail (h : Tiles m brk prev a (pre ++ b :: post))
    (hagree : ∀ x, x < b.addr → m' x = m x) (hnew : Paved m' brk' b.addr bs') (hne : bs' ≠ []) :
    Paved m' brk' a (pre ++ bs') := by
  induction pre generalizing prev a with
  | nil =>
      obtain ⟨rfl, -⟩ := h
      exact hnew
  | cons d rest ih =>
      rw [List.cons_append] at h ⊢
      obtain ⟨rfl, hpos, hhdr, -, hrest⟩ := h
      have hle := (hrest.split).1
      have htail := ih hrest
      have hnext : headAddr (rest ++ bs') = headAddr (rest ++ b :: post) := by
        rw [htail.headAddr_eq (by simp [hne]), hrest.headAddr_eq (by simp)]
      refine ⟨rfl, hpos, ?_, htail⟩
      rw [hnext]
      refine (hhdr.congr fun x _ hx => hagree x ?_).anyPrev
      unfold Block.stop at hle
      omega

/-- A paved heap that agrees with a well-formed one below `b` reaches `b`. -/
theorem Paved.follow (hnew : Paved m' brk' a bs') (h : Tiles m brk prev a (pre ++ b :: post))
    (hagree : ∀ x, x < b.addr → m' x = m x) (hne : bs' ≠ []) :
    ∃ bs'', bs'' ≠ [] ∧ Paved m' brk' b.addr bs'' ∧ ∀ d ∈ bs'', d ∈ bs' := by
  induction pre generalizing prev a bs' with
  | nil =>
      obtain ⟨rfl, -⟩ := h
      exact ⟨bs', hne, hnew, fun _ hd => hd⟩
  | cons d rest ih =>
      rw [List.cons_append] at h
      obtain ⟨rfl, hpos, hhdr, -, hrest⟩ := h
      cases bs' with
      | nil => exact absurd rfl hne
      | cons d' rest' =>
          obtain ⟨haddr, -, hhdr', hrest'⟩ := hnew
          have hle := (hrest.split).1
          unfold Block.stop at hle
          -- the header of `d` is below `b`, so both lists read the same one
          have hsame : HeaderAt m' prev (headAddr (rest ++ b :: post)) d :=
            hhdr.congr fun x _ hx => hagree x (by omega)
          have hcap : d'.capacity = d.capacity := by
            rw [← hhdr'.capacity, haddr, hsame.capacity]
          have hnext : headAddr rest' = headAddr (rest ++ b :: post) := by
            rw [← hhdr'.next, haddr, hsame.next]
          have hstop : d'.stop = d.stop := by
            unfold Block.stop
            rw [haddr, hcap]
          rw [hstop] at hrest'
          have hne' : rest' ≠ [] := by
            rintro rfl
            rw [hrest.headAddr_eq (by simp)] at hnext
            simp only [headAddr, Block.stop] at hnext
            omega
          obtain ⟨bs'', hne'', hpaved, hsub⟩ := ih hrest' hrest hne'
          exact ⟨bs'', hne'', hpaved, fun e he => List.mem_cons_of_mem d' (hsub e he)⟩

/-- `find_block` looks for a header. -/
theorem findBlock_paved (h : Paved m brk a bs) (hmiss : ∀ d ∈ bs, d.addr ≠ ptr)
    (hfuel : bs.length < fuel) : findBlock m ptr fuel (headAddr bs) = some 0 := by
  induction bs generalizing a fuel with
  | nil =>
      cases fuel with
      | zero => exact absurd hfuel (Nat.not_lt_zero _)
      | succ fuel => rfl
  | cons d rest ih =>
      obtain ⟨rfl, hpos, hhdr, hrest⟩ := h
      cases fuel with
      | zero => exact absurd hfuel (Nat.not_lt_zero _)
      | succ fuel =>
          show findBlock m ptr (fuel + 1) d.addr = _
          rw [findBlock, if_neg (by omega), if_neg (hmiss d List.mem_cons_self), hhdr.next]
          exact ih hrest (fun e he => hmiss e (List.mem_cons_of_mem d he))
            (Nat.lt_of_succ_lt_succ hfuel)

/-! ## The block given out -/

/-- `ptr` is the data of a block in use with room for `n` bytes, in a paved heap. -/
structure Handed (m : Mem) (brk head : Nat) (bs : List Block) (n ptr : Nat) : Prop where
  paved : Paved m brk head bs
  block : ∃ b ∈ bs, b.free = false ∧ b.data = ptr ∧ n ≤ b.capacity

/-- The block is given out, and the blocks in use are as they were. -/
structure Placed (h : Heap) (bs : List Block) (n ptr : Nat) (h₁ : Heap) (bs₁ : List Block) :
    Prop where
  handed : Handed h₁.mem h₁.brk h₁.blockListHead bs₁ n ptr
  length : bs₁.length ≤ bs.length + 1
  kept : ∀ c ∈ bs, c.free = false → c ∈ bs₁ ∧ c.data ≠ ptr
  bytes : ∀ c ∈ bs, c.free = false → ∀ x, c.data ≤ x → x < c.stop → h₁.mem x = h.mem x

/-- The block the search stops at is larger than the request, with room for a header
if it is split; if there is none, the rounded request is an `int`. -/
structure Fit (n : Nat) (bs : List Block) : Prop where
  found : ∀ b, bs.find? (candidate n) = some b →
    n < b.capacity ∧ (n < b.capacity - n → headerSize ≤ b.capacity - n)
  grown : bs.find? (candidate n) = none → leastRequest n < 2 ^ 31

/-- The capacity a paved heap reads in the header in front of `ptr`. -/
theorem Handed.room {head : Nat} (hhand : Handed m brk head bs n ptr)
    (haddr : a + headerSize = ptr) :
    n ≤ blockCapacity m a ∧ ptr + blockCapacity m a ≤ brk := by
  obtain ⟨hpaved, b, hb, -, hdata, hroom⟩ := hhand
  obtain ⟨next, hhdr⟩ := hpaved.header hb
  have hin := (hpaved.stacked.bounds.2 b hb).2
  have hba : b.addr = a := by
    unfold Block.data at hdata
    omega
  have hcap : blockCapacity m a = b.capacity := by
    rw [← hba, hhdr.capacity]
  unfold Block.stop at hin
  omega

/-! ## Calls that do not fit -/

/-- A split that leaves no room for the second header leaves no paved heap, whatever
is written into the block. -/
theorem SplitAt.not_paved (hsplit : SplitAt m m₁ b.addr n)
    (htiles : Tiles m brk prev a (pre ++ b :: post)) (hbrk : brk < addrLimit)
    (hn : n < 2 ^ 64) (hbad : b.capacity < n + headerSize)
    (hsame : ∀ x, x < b.addr + headerSize ∨ b.addr + headerSize + n ≤ x → m' x = m₁ x)
    (hne : bs' ≠ []) : ¬ Paved m' brk a bs' := by
  intro hpaved
  have hcap64 := htiles.capacity_lt hbrk b (by simp)
  obtain ⟨-, -, -, -, hhdr, -⟩ := htiles.split
  have hbelow : ∀ x, x < b.addr → m' x = m x := by
    intro x hx
    rw [hsame x (Or.inl (by omega)), hsplit.frame x (Or.inl hx)]
  obtain ⟨bs'', hne'', hfrom, hsub⟩ := hpaved.follow htiles hbelow hne
  cases bs'' with
  | nil => exact hne'' rfl
  | cons d rest =>
      obtain ⟨hd, -, hdhdr, hrest⟩ := hfrom
      have htaken := hsplit.taken.congr fun x _ hx => hsame x (Or.inl hx)
      have hnext : headAddr rest = b.addr + headerSize + n := by
        rw [← hdhdr.next, hd]
        exact htaken.next
      cases rest with
      | nil =>
          have hzero : (0 : Nat) = b.addr + headerSize + n := hnext
          unfold headerSize at hzero
          omega
      | cons e rest =>
          have he : e.addr = b.addr + headerSize + n := hnext
          obtain ⟨next, hehdr⟩ := hrest.header List.mem_cons_self
          have hrestHdr := hsplit.rest.congr fun x hx _ => hsame x (Or.inr hx)
          have hecap : e.capacity = subSize (subSize b.capacity n) headerSize := by
            rw [← hehdr.capacity, he, ← hhdr.capacity]
            exact hrestHdr.capacity
          have hestop := (hrest.stacked.bounds.2 e List.mem_cons_self).2
          unfold addrLimit at hbrk
          unfold Block.stop at hestop
          unfold subSize headerSize at *
          omega

theorem WellFormed.tailClear (hwf : WellFormed h bs) : TailClear h := by
  intro hhead
  rcases List.eq_nil_or_concat bs with rfl | ⟨pre, b, rfl⟩
  · exact absurd hwf.head hhead
  · rw [List.concat_eq_append] at hwf
    have htail : h.blockListTail = b.addr := by rw [hwf.tail, lastAddr_append]
    have hpos := hwf.split.2.2.1
    have hin := (hwf.split.2.mem_bounds b (by simp)).2
    unfold Block.stop at hin
    rw [htail]
    omega

/-- A block no larger than the request is not handed out whole. -/
theorem room_of_taken (hwf : WellFormed h (pre ++ b :: post)) (hn : n < 2 ^ 64)
    (hcand : candidate n b = true) (htake : takeBlock n b.addr h = (ptr, h₁))
    (hsame : ∀ x, x < ptr ∨ ptr + n ≤ x → m' x = h₁.mem x) (hN : n ≤ N)
    (hhand : Handed m' h₁.brk h₁.blockListHead bs' N ptr) :
    n < b.capacity ∧ (n < b.capacity - n → headerSize ≤ b.capacity - n) := by
  obtain ⟨hfree, hne⟩ : b.free = true ∧ b.capacity ≠ n := by
    simpa [candidate] using hcand
  have htiles := hwf.tiles (by simp)
  have hlimit := hwf.brk_lt
  have hin := (htiles.mem_bounds b (by simp)).2
  have hhdr := hwf.split.2.2.2.1
  have hptr : ptr = b.addr + headerSize := by rw [← takeBlock_fst, htake]
  unfold Block.stop at hin
  unfold addrLimit at hlimit
  by_cases hcut : subSize (blockCapacity h.mem b.addr) n > n
  · have hcapacity := hcut
    rw [hhdr.capacity] at hcapacity
    by_contra hbad
    have hsmall : b.capacity < n + headerSize := by
      by_contra hlarge
      unfold headerSize at hlarge hbad
      omega
    have hroom64 : b.addr + headerSize + n < 2 ^ 64 := by
      unfold subSize at hcapacity
      omega
    obtain ⟨m₁, hsplit, heq⟩ := takeBlock_of_split hroom64 hcut
    rw [heq] at htake
    obtain ⟨-, rfl⟩ := Prod.mk.inj htake
    rw [hptr] at hsame
    obtain ⟨hpaved, d, hd, -⟩ := hhand
    exact hsplit.not_paved htiles hwf.brk_lt hn hsmall hsame (List.ne_nil_of_mem hd) hpaved
  · rw [takeBlock_of_whole hcut] at htake
    obtain ⟨-, rfl⟩ := Prod.mk.inj htake
    have hroom := (hhand.room hptr.symm).1
    have hcap : blockCapacity m' b.addr = b.capacity := by
      rw [← (headerAt_whole hhdr hn).capacity]
      refine load_congr fun x _ hx => hsame x (Or.inl ?_)
      unfold headerSize at hptr
      omega
    rw [hhdr.capacity] at hcut
    unfold subSize at hcut
    omega

/-- A request that `int` cannot hold does not give the block its room. -/
theorem least_of_grown (hwf : WellFormed h bs) (hn : n < 2 ^ 64)
    (hgrow : growHeap grant n h = some (ptr, h₁)) (hptr : ptr ≠ 0)
    (hsame : ∀ x, x < ptr ∨ ptr + n ≤ x → m' x = h₁.mem x) (hN : n ≤ N)
    (hhand : Handed m' h₁.brk h₁.blockListHead bs' N ptr) : leastRequest n < 2 ^ 31 := by
  cases hsbrk : sbrk grant (sbrkBytes n) h with
  | none =>
      rw [growHeap_refused hsbrk] at hgrow
      exact absurd (Prod.mk.inj (Option.some.inj hgrow)).1.symm hptr
  | some r =>
      obtain ⟨h₂, hgrown, hbrk₂, hcap⟩ := growHeap_of_sbrk hwf.tailClear hsbrk
      obtain ⟨-, brk', hr, hbrk', hlimit⟩ := sbrk_granted hsbrk
      rw [hgrown] at hgrow
      obtain ⟨rfl, rfl⟩ := Prod.mk.inj (Option.some.inj hgrow)
      obtain ⟨hroom, hinside⟩ := hhand.room rfl
      have hcap' : blockCapacity m' h.brk = subSize (sbrkBytes n) headerSize := by
        rw [← hcap]
        refine load_congr fun x _ hx => hsame x (Or.inl ?_)
        unfold headerSize
        omega
      rw [hr] at hbrk₂
      rw [hcap', hbrk₂] at hinside
      rw [hcap', sbrkBytes_eq_emod] at hroom
      rw [sbrkBytes_eq_emod] at hinside
      have hbounds := increment_bounds n
      obtain ⟨q, hq⟩ := increment_dvd n
      have hlimit₂ := hwf.brk_lt
      unfold subSize headerSize at hroom hinside
      unfold leastRequest headerSize
      unfold addrLimit at hlimit hlimit₂
      dsimp only at hinside
      omega

/-- A block of its own with room for the request is given out only for a request
that fits. -/
theorem fit_of_handed (hwf : WellFormed h bs) (hpos : 0 < n) (hn : n < 2 ^ 64)
    (hfuel : bs.length < fuel) (hcall : beavalloc fuel grant n h = some (ptr, h₁))
    (hptr : ptr ≠ 0) (hsame : ∀ x, x < ptr ∨ ptr + n ≤ x → m' x = h₁.mem x) (hN : n ≤ N)
    (hhand : Handed m' h₁.brk h₁.blockListHead bs' N ptr) : Fit n bs := by
  rw [beavalloc_eq hwf hpos hn hfuel] at hcall
  constructor
  · intro b hfind
    rw [hfind] at hcall
    obtain ⟨hcand, pre, post, rfl, -⟩ := List.find?_eq_some_iff_append.mp hfind
    exact room_of_taken hwf.setLowerBound hn hcand (Option.some.inj hcall) hsame hN hhand
  · intro hfind
    rw [hfind] at hcall
    exact least_of_grown hwf.setLowerBound hn hcall hptr hsame hN hhand

/-! ## Calls that fit -/

/-- Another block of the list lies before the taken one or behind it. -/
theorem Stacked.ne_of_mem (h : Stacked brk a (pre ++ b :: post)) (hc : c ∈ pre ++ post) :
    c.addr ≠ b.addr := by
  induction pre generalizing a with
  | nil =>
      have hafter := (h.2.bounds.2 c hc).1
      unfold Block.stop headerSize at hafter
      omega
  | cons d rest ih =>
      obtain ⟨rfl, hrest⟩ := h
      rcases List.mem_cons.mp hc with rfl | hmem
      · have hafter := (hrest.bounds.2 b (by simp)).1
        unfold Block.stop headerSize at hafter
        omega
      · exact ih hrest hmem

/-- A block in use is not the taken one. -/
theorem mem_of_inUse (hc : c ∈ pre ++ b :: post) (hfree : b.free = true) (huse : c.free = false) :
    c ∈ pre ++ post := by
  rcases List.mem_append.mp hc with hmem | hmem
  · exact List.mem_append_left _ hmem
  · rcases List.mem_cons.mp hmem with rfl | hmem
    · exact absurd (hfree.symm.trans huse) (by simp)
    · exact List.mem_append_right _ hmem

/-- What a taken block is replaced by leaves the blocks in use alone. -/
theorem placed_of_taken (new : List Block) (hwf : WellFormed h (pre ++ b :: post))
    (hfree : b.free = true)
    (hpaved : Paved h₁.mem h₁.brk h₁.blockListHead (pre ++ new ++ post))
    (hnew : ∃ d ∈ new, d.free = false ∧ d.addr = b.addr ∧ n ≤ d.capacity)
    (hlength : new.length ≤ 2)
    (hframe : ∀ x, x < b.addr ∨ b.stop ≤ x → h₁.mem x = h.mem x) :
    Placed h (pre ++ b :: post) n b.data h₁ (pre ++ new ++ post) := by
  have hstacked := (hwf.tiles (by simp)).paved.stacked
  obtain ⟨d, hd, huse, haddr, hroom⟩ := hnew
  constructor
  · refine ⟨hpaved, d, by simp [hd], huse, ?_, hroom⟩
    unfold Block.data
    rw [haddr]
  · simp only [List.length_append, List.length_cons]
    omega
  · intro c hc hcuse
    have hmem := mem_of_inUse hc hfree hcuse
    have hne := hstacked.ne_of_mem hmem
    refine ⟨?_, fun heq => hne ?_⟩
    · rcases List.mem_append.mp hmem with hpre | hpost
      · simp [hpre]
      · simp [hpost]
    · unfold Block.data at heq
      omega
  · intro c hc hcuse x hlow hhigh
    exact hframe x (hwf.data_outside hfree hc hcuse ⟨hlow, hhigh⟩)

theorem placed_of_takeBlock (hwf : WellFormed h (pre ++ b :: post)) (hn : n < 2 ^ 64)
    (hfree : b.free = true) (htake : takeBlock n b.addr h = (ptr, h₁)) (hroom : n < b.capacity)
    (hclean : n < b.capacity - n → headerSize ≤ b.capacity - n) :
    ∃ bs₁, Placed h (pre ++ b :: post) n ptr h₁ bs₁ := by
  have htiles := hwf.tiles (by simp)
  have hlimit := hwf.brk_lt
  have hin := (htiles.mem_bounds b (by simp)).2
  have hcap64 := htiles.capacity_lt hwf.brk_lt b (by simp)
  obtain ⟨-, hpos, hhdr, -, hrest⟩ := hwf.split.2
  have hptr : ptr = b.data := by rw [Block.data, ← takeBlock_fst, htake]
  unfold Block.stop at hin
  unfold addrLimit at hlimit
  rw [hptr]
  by_cases hcut : subSize (blockCapacity h.mem b.addr) n > n
  · have hroom64 : b.addr + headerSize + n < 2 ^ 64 := by omega
    obtain ⟨m₁, hsplit, heq⟩ := takeBlock_of_split hroom64 hcut
    rw [heq] at htake
    obtain ⟨-, rfl⟩ := Prod.mk.inj htake
    rw [hhdr.capacity, subSize_of_le hcap64 (Nat.le_of_lt hroom)] at hcut
    have hspace := hclean hcut
    have htaken := hsplit.taken
    have hcutoff := hsplit.rest
    have hcutcap : subSize (subSize (blockCapacity h.mem b.addr) n) headerSize =
        b.capacity - n - headerSize := by
      rw [hhdr.capacity, subSize_of_le hcap64 (Nat.le_of_lt hroom),
        subSize_of_le (by omega) hspace]
    rw [hhdr.next, hcutcap] at hcutoff
    refine ⟨_, placed_of_taken [⟨b.addr, n, n, false⟩,
      ⟨b.addr + headerSize + n, b.capacity - n - headerSize, 0, true⟩] hwf hfree ?_
      ⟨_, List.mem_cons_self, rfl, rfl, Nat.le_refl n⟩ (by simp) fun x hx => ?_⟩
    · rw [List.append_assoc]
      refine Paved.replace_tail htiles (fun x hx => hsplit.frame x (Or.inl hx)) ?_ (by simp)
      refine ⟨rfl, hpos, htaken.anyPrev, rfl, ?_, hcutoff.anyPrev, ?_⟩
      · simp only [Block.stop]
        omega
      · have hstop : (⟨b.addr + headerSize + n, b.capacity - n - headerSize, 0, true⟩ :
            Block).stop = b.stop := by
          simp only [Block.stop]
          omega
        rw [hstop]
        refine hrest.paved.congr fun d hd x hx _ => hsplit.frame x ?_
        have hafter := (hrest.mem_bounds d hd).1
        unfold Block.stop at hafter
        omega
    · refine hsplit.frame x ?_
      unfold Block.stop at hx
      omega
  · rw [takeBlock_of_whole hcut] at htake
    obtain ⟨-, rfl⟩ := Prod.mk.inj htake
    have halloc : Allocated h (pre ++ b :: post) n b.data
        { h with mem := setSize (setFree h.mem b.addr 0) b.addr n }
        (pre ++ ⟨b.addr, b.capacity, n, false⟩ :: post) :=
      takeWhole_allocated hwf hfree hn (Nat.le_of_lt hroom) rfl rfl rfl rfl
    have hpaved := (halloc.wellFormed.tiles (by simp)).paved
    refine ⟨_, placed_of_taken [⟨b.addr, b.capacity, n, false⟩] hwf hfree
      (by simpa using hpaved) ⟨_, List.mem_cons_self, rfl, rfl, Nat.le_of_lt hroom⟩ (by simp)
      fun x hx => ?_⟩
    unfold Block.stop headerSize at hx
    simp (disch := omega) only [setSize, setFree, store_apply_of_outside]

theorem placed_of_growHeap (hwf : WellFormed h bs)
    (hgrow : growHeap grant n h = some (ptr, h₁)) (hptr : ptr ≠ 0)
    (hleast : leastRequest n < 2 ^ 31) : ∃ bs₁, Placed h bs n ptr h₁ bs₁ := by
  have hbytes : n + headerSize ≤ sbrkBytes n ∧ sbrkBytes n < 2 ^ 31 := by
    rw [sbrkBytes_eq_least hleast]
    unfold leastRequest at hleast ⊢
    omega
  by_cases hgrant : grant = true ∧ h.brk + sbrkBytes n < addrLimit
  · obtain ⟨h', hgrown, halloc, -⟩ := growHeap_allocated hwf hbytes hgrant
    rw [hgrown] at hgrow
    obtain ⟨rfl, rfl⟩ := Prod.mk.inj (Option.some.inj hgrow)
    have hpaved := (halloc.wellFormed.tiles (by simp)).paved
    refine ⟨_, ⟨hpaved, _, List.mem_append_right _ List.mem_cons_self, rfl, rfl, ?_⟩, ?_,
      fun c hc huse => ⟨List.mem_append_left _ hc, ?_⟩, fun c hc huse x hlow hhigh => ?_⟩
    · exact Nat.le_sub_of_add_le hbytes.1
    · rw [List.length_append]
      exact Nat.le_refl _
    · have hin := ((hwf.tiles (List.ne_nil_of_mem hc)).mem_bounds c hc).2
      unfold Block.stop headerSize at hin
      unfold Block.data headerSize
      omega
    · exact halloc.frame c hc huse x ⟨hlow, hhigh⟩
  · have hrefused : sbrk grant (sbrkBytes n) h = none := by
      rw [sbrk_eq hbytes.2 hwf.brk_pos, if_neg hgrant]
    rw [growHeap_refused hrefused] at hgrow
    exact absurd (Prod.mk.inj (Option.some.inj hgrow)).1.symm hptr

/-- A request that fits is given a block of its own. -/
theorem placed_of_fit (hwf : WellFormed h bs) (hpos : 0 < n) (hn : n < 2 ^ 64)
    (hfuel : bs.length < fuel) (hcall : beavalloc fuel grant n h = some (ptr, h₁))
    (hptr : ptr ≠ 0) (hfit : Fit n bs) : ∃ bs₁, Placed h bs n ptr h₁ bs₁ := by
  rw [beavalloc_eq hwf hpos hn hfuel] at hcall
  have hplaced : ∃ bs₁, Placed (setLowerBound h) bs n ptr h₁ bs₁ := by
    cases hfind : bs.find? (candidate n) with
    | none =>
        rw [hfind] at hcall
        exact placed_of_growHeap hwf.setLowerBound hcall hptr (hfit.grown hfind)
    | some b =>
        rw [hfind] at hcall
        obtain ⟨hroom, hclean⟩ := hfit.found b hfind
        obtain ⟨hcand, pre, post, rfl, -⟩ := List.find?_eq_some_iff_append.mp hfind
        have hfree : b.free = true := by
          have hboth : b.free = true ∧ b.capacity ≠ n := by simpa [candidate] using hcand
          exact hboth.1
        exact placed_of_takeBlock hwf.setLowerBound hn hfree (Option.some.inj hcall) hroom hclean
  obtain ⟨bs₁, hhanded, hlength, hkept, hbytes⟩ := hplaced
  rw [setLowerBound_mem] at hbytes
  exact ⟨bs₁, hhanded, hlength, hkept, hbytes⟩

end Beavalloc
end CS444
