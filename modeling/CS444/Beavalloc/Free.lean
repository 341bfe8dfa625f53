/-
`beavfree` over whole histories of an allocator.

`find_block` looks for the block whose header is at the pointer it is given,
but the pointers `beavalloc` hands out are `BLOCK_DATA`, 40 bytes behind the
header.  Every header lies at the first break plus a multiple of 1024, so no
pointer a program holds is ever a header, and `beavfree` changes nothing: no
block of any reachable heap is free, and every later request goes to `sbrk`.
-/
import CS444.Beavalloc.Grow
import CS444.Lib.Runs

namespace CS444
namespace Beavalloc

open Bytes Runs

/-! ## Histories -/

/-- A heap with its history: the headers made since the last reset, the
pointers ever returned, and the live ones with their sizes. -/
structure History where
  heap : Heap
  headers : List Nat
  returned : List Nat
  live : List (Nat × Nat)

/-- What a program does with the allocator: its three calls, and writes of its
own. -/
inductive Op where
  | alloc (size : Nat)
  | free (ptr : Nat)
  | reset
  | write

/-- A program writes wherever it likes except over the headers, and frees only
pointers it was given. -/
inductive Step : History → Op → History → Prop
  | alloc {s : History} {fuel size ptr : Nat} {grant : Bool} {h : Heap} :
      beavalloc fuel grant size s.heap = some (ptr, h) →
      Step s (.alloc size)
        { heap := h
          headers := if ptr = 0 then s.headers else (ptr - headerSize) :: s.headers
          returned := ptr :: s.returned
          live := if ptr = 0 then s.live else (ptr, size) :: s.live }
  | free {s : History} {fuel ptr : Nat} {h : Heap} :
      ptr ∈ s.returned → beavfree fuel ptr s.heap = some h →
      Step s (.free ptr)
        { s with heap := h, live := s.live.filter fun p => p.1 ≠ ptr }
  | reset {s : History} :
      Step s .reset
        { s with heap := beavallocReset s.heap, headers := [], live := [] }
  | write {s : History} {m : Mem} :
      (∀ a ∈ s.headers, ∀ x, a ≤ x → x < a + headerSize → m x = s.heap.mem x) →
      Step s .write { s with heap := { s.heap with mem := m } }

/-- A process that has not called the allocator yet. -/
structure Fresh (s : History) : Prop where
  head : s.heap.blockListHead = 0
  tail : s.heap.blockListTail = 0
  brk_pos : 0 < s.heap.brk
  brk_lt : s.heap.brk < addrLimit
  headers : s.headers = []
  returned : s.returned = []
  live : s.live = []

/-- All histories of the allocator. -/
def allocator : System History Op where
  init := Fresh
  step := Step

/-! ## What freeing a live pointer has to achieve -/

/-- The nodes of the block list. -/
inductive OnList (m : Mem) : Nat → Nat → Prop
  | here {a : Nat} : a ≠ 0 → OnList m a a
  | next {a b : Nat} : a ≠ 0 → OnList m (blockNext m a) b → OnList m a b

/-- The block that owns `p` is marked free; it may have been merged. -/
def OwnerFree (h : Heap) (p : Nat) : Prop :=
  ∃ b, OnList h.mem h.blockListHead b ∧ b + headerSize ≤ p ∧
    p < b + headerSize + blockCapacity h.mem b ∧ blockFree h.mem b ≠ 0

/-- The block with data at `q` has the same header fields and contents. -/
def SameBlock (h h' : Heap) (q : Nat) : Prop :=
  let b := q - headerSize
  blockFree h'.mem b = blockFree h.mem b ∧ blockCapacity h'.mem b = blockCapacity h.mem b ∧
    blockSize h'.mem b = blockSize h.mem b ∧
    ∀ x, q ≤ x → x < q + blockCapacity h.mem b → h'.mem x = h.mem x

/-- `beavfree(p)` comes back with the owner of `p` free and every other live
block unchanged, and then each `beavalloc(m)` with `0 < m ≤ n` succeeds even if
`sbrk` grants nothing. -/
def Reusable (s : History) (p n : Nat) : Prop :=
  ∃ fuel h', beavfree fuel p s.heap = some h' ∧ OwnerFree h' p ∧
    (∀ q k, (q, k) ∈ s.live → q ≠ p → SameBlock s.heap h' q) ∧
    ∀ m, 0 < m → m ≤ n → ∃ fuel q h'', beavalloc fuel false m h' = some (q, h'') ∧ q ≠ 0

/-! ## The invariant -/

/-- Headers lie at one residue modulo 1024, none is free, and the list stays
among them. -/
structure AllInUse (h : Heap) (headers : List Nat) : Prop where
  brk_pos : 0 < h.brk
  brk_lt : h.brk < addrLimit
  head : h.blockListHead = 0 ∨ h.blockListHead ∈ headers
  tail : h.blockListTail = 0 ∨ h.blockListTail ∈ headers
  empty : h.blockListHead = 0 → h.blockListTail = 0
  bounds : ∀ a ∈ headers, 0 < a ∧ a < addrLimit
  aligned : ∀ a ∈ headers, a % 1024 = h.brk % 1024
  inUse : ∀ a ∈ headers, blockFree h.mem a = 0
  closed : ∀ a ∈ headers, blockNext h.mem a = 0 ∨ blockNext h.mem a ∈ headers

/-- The pointers handed out lie 40 bytes off that residue. -/
structure NeverFree (s : History) : Prop where
  heap : AllInUse s.heap s.headers
  returned : ∀ p ∈ s.returned, p = 0 ∨ p % 1024 = (s.heap.brk + headerSize) % 1024
  live : ∀ p n, (p, n) ∈ s.live → p ≠ 0 ∧ p ∈ s.returned

/-! ## The loops on a heap with no free block -/

section Loops

variable {m : Mem} {H : List Nat}

theorem onList_mem (hclosed : ∀ a ∈ H, blockNext m a = 0 ∨ blockNext m a ∈ H) {a b : Nat}
    (h : OnList m a b) (ha : a = 0 ∨ a ∈ H) : b ∈ H := by
  induction h with
  | here hne => exact ha.resolve_left hne
  | next hne _ ih => exact ih (hclosed _ (ha.resolve_left hne))

theorem checkFreeBlock_of_inUse (hclosed : ∀ a ∈ H, blockNext m a = 0 ∨ blockNext m a ∈ H)
    (huse : ∀ a ∈ H, blockFree m a = 0) {size fuel a : Nat} (ha : a = 0 ∨ a ∈ H) {r : Bool}
    (hr : checkFreeBlock m size fuel a = some r) : r = false := by
  induction fuel generalizing a with
  | zero => exact absurd hr (by simp [checkFreeBlock])
  | succ fuel ih =>
      rw [checkFreeBlock] at hr
      by_cases hzero : a = 0
      · rw [if_pos hzero] at hr
        exact (Option.some.inj hr).symm
      · have hmem := ha.resolve_left hzero
        rw [if_neg hzero, if_neg (by simp [huse a hmem])] at hr
        exact ih (hclosed a hmem) hr

/-- A pointer that is no header is not found. -/
theorem findBlock_of_not_mem (hclosed : ∀ a ∈ H, blockNext m a = 0 ∨ blockNext m a ∈ H)
    {p fuel a b : Nat} (hp : p ∉ H) (ha : a = 0 ∨ a ∈ H)
    (hb : findBlock m p fuel a = some b) : b = 0 := by
  induction fuel generalizing a with
  | zero => exact absurd hb (by simp [findBlock])
  | succ fuel ih =>
      rw [findBlock] at hb
      by_cases hzero : a = 0
      · rw [if_pos hzero] at hb
        exact (Option.some.inj hb).symm
      · have hmem := ha.resolve_left hzero
        have hne : a ≠ p := fun heq => hp (heq ▸ hmem)
        rw [if_neg hzero, if_neg hne] at hb
        exact ih (hclosed a hmem) hb

end Loops

/-! ## Growing by multiples of 1024 -/

theorem bmod_emod_1024 (x : Int) {n : Nat} (hn : 1024 ∣ n) :
    Int.bmod x n % 1024 = x % 1024 := by
  have hdvd : (1024 : Int) ∣ Int.bmod x n - x :=
    (Int.natCast_dvd_natCast.mpr hn).trans Int.dvd_bmod_sub_self
  omega

/-- `sbrk` is asked for multiples of 1024, also when `int` overflows. -/
theorem sbrkBytes_mod (size : Nat) : (sbrkBytes size : Int) % 1024 = 0 := by
  have hmul : ∀ k : Int, ((Int.bmod (1024 * k) (2 ^ 32) % 2 ^ 64).toNat : Int) % 1024 = 0 := by
    intro k
    have h := bmod_emod_1024 (1024 * k) (n := 2 ^ 32) (by decide)
    omega
  exact hmul _

theorem sbrk_some {grant : Bool} {size a : Nat} {h h' : Heap}
    (hsbrk : sbrk grant (sbrkBytes size) h = some (a, h')) :
    a = h.brk ∧ ∃ brk', h' = { h with brk := brk' } ∧ 0 < brk' ∧ brk' < addrLimit ∧
      brk' % 1024 = h.brk % 1024 := by
  have hmod := bmod_emod_1024 (sbrkBytes size) (n := 2 ^ 64) (by decide)
  rw [sbrkBytes_mod] at hmod
  unfold sbrk at hsbrk
  simp only at hsbrk
  split at hsbrk
  · rename_i hgrant
    obtain ⟨rfl, rfl⟩ := Prod.mk.inj (Option.some.inj hsbrk)
    refine ⟨rfl, _, rfl, ?_⟩
    omega
  · exact absurd hsbrk (by simp)

/-! ## One step -/

/-- Reading a header after `next` of another one was set. -/
theorem setNext_read {m : Mem} {a b v : Nat} (hmod : a % 1024 = b % 1024) (hv : v < 2 ^ 64) :
    blockFree (setNext m a v) b = blockFree m b ∧
      blockNext (setNext m a v) b = if b = a then v else blockNext m b := by
  constructor
  · simp (disch := omega) only [blockFree, setNext, load_store_of_disjoint]
  · split
    · rename_i heq
      subst heq
      simp (disch := omega) only [blockNext, setNext, load_store_self]
    · simp (disch := omega) only [blockNext, setNext, load_store_of_disjoint]

/-- Reading a header after a fresh one was written. -/
theorem freshHeader_read {m : Mem} {a b size capacity prev : Nat}
    (hmod : a % 1024 = b % 1024) :
    blockFree (setPrev (freshHeader m a size capacity) a prev) b =
        (if b = a then 0 else blockFree m b) ∧
      blockNext (setPrev (freshHeader m a size capacity) a prev) b =
        if b = a then 0 else blockNext m b := by
  by_cases heq : b = a
  · subst heq
    rw [if_pos rfl, if_pos rfl]
    constructor
    · simp (disch := omega) only [freshHeader, blockFree, setSize, setFree, setPrev, setNext,
        setCapacity, load_store_of_disjoint, load_store_self]
    · simp (disch := omega) only [freshHeader, blockNext, setSize, setFree, setPrev, setNext,
        setCapacity, load_store_of_disjoint, load_store_self]
  · rw [if_neg heq, if_neg heq]
    constructor
    · simp (disch := omega) only [freshHeader, blockFree, setSize, setFree, setPrev, setNext,
        setCapacity, load_store_of_disjoint]
    · simp (disch := omega) only [freshHeader, blockNext, setSize, setFree, setPrev, setNext,
        setCapacity, load_store_of_disjoint]

/-- The memory with a fresh header at the break, linked behind `tail` or first. -/
theorem AllInUse.grow {h h' : Heap} {H : List Nat} (hinv : AllInUse h H) {size capacity : Nat}
    (hbrk : 0 < h'.brk ∧ h'.brk < addrLimit ∧ h'.brk % 1024 = h.brk % 1024)
    (hhead : h'.blockListHead = h.brk ∨
      h'.blockListHead = h.blockListHead ∧ h.blockListHead ≠ 0)
    (htail : h'.blockListTail = h.brk) {prev : Nat}
    (hmem : h'.mem = setPrev (freshHeader h.mem h.brk size capacity) h.brk prev ∨
      ∃ t ∈ H, h'.mem =
        setNext (setPrev (freshHeader h.mem h.brk size capacity) h.brk prev) t h.brk) :
    AllInUse h' (h.brk :: H) := by
  have hlimit : addrLimit = 2 ^ 47 := rfl
  have hmod : ∀ a ∈ h.brk :: H, a % 1024 = h.brk % 1024 := by
    intro a ha
    rcases List.mem_cons.mp ha with rfl | ha
    · rfl
    · exact hinv.aligned a ha
  -- what a header of the new list reads
  have hread : ∀ a ∈ h.brk :: H, blockFree h'.mem a = 0 ∧
      (blockNext h'.mem a = 0 ∨ blockNext h'.mem a ∈ h.brk :: H) := by
    intro a ha
    have hfresh := @freshHeader_read h.mem h.brk a size capacity prev (hmod a ha).symm
    have hold : blockFree (setPrev (freshHeader h.mem h.brk size capacity) h.brk prev) a = 0 ∧
        (blockNext (setPrev (freshHeader h.mem h.brk size capacity) h.brk prev) a = 0 ∨
          blockNext (setPrev (freshHeader h.mem h.brk size capacity) h.brk prev) a ∈
            h.brk :: H) := by
      rw [hfresh.1, hfresh.2]
      split
      · exact ⟨rfl, Or.inl rfl⟩
      · rename_i hne
        have hmem' := (List.mem_cons.mp ha).resolve_left hne
        exact ⟨hinv.inUse a hmem', (hinv.closed a hmem').imp id (List.mem_cons_of_mem _)⟩
    rcases hmem with hmem | ⟨t, ht, hmem⟩
    · rw [hmem]
      exact hold
    · have hlink := setNext_read
        (m := setPrev (freshHeader h.mem h.brk size capacity) h.brk prev) (a := t) (b := a)
        (v := h.brk) ((hinv.aligned t ht).trans (hmod a ha).symm)
        (by have := hinv.brk_lt; omega)
      rw [hmem, hlink.1, hlink.2]
      split
      · exact ⟨hold.1, Or.inr List.mem_cons_self⟩
      · exact hold
  refine ⟨hbrk.1, hbrk.2.1, ?_, ?_, ?_, ?_, ?_, fun a ha => (hread a ha).1,
    fun a ha => (hread a ha).2⟩
  · rcases hhead with hhead | ⟨hhead, -⟩
    · exact Or.inr (hhead ▸ List.mem_cons_self)
    · rw [hhead]
      exact hinv.head.imp id (List.mem_cons_of_mem _)
  · exact Or.inr (htail ▸ List.mem_cons_self)
  · intro hzero
    have := hinv.brk_pos
    rcases hhead with hhead | ⟨hhead, hne⟩
    · omega
    · exact absurd (hhead.symm.trans hzero) hne
  · intro a ha
    rcases List.mem_cons.mp ha with rfl | ha
    · exact ⟨hinv.brk_pos, hinv.brk_lt⟩
    · exact hinv.bounds a ha
  · intro a ha
    rw [hbrk.2.2]
    exact hmod a ha

theorem growHeap_allInUse {grant : Bool} {size p : Nat} {h h' : Heap} {H : List Nat}
    (hinv : AllInUse h H) (hr : growHeap grant size h = some (p, h')) :
    h'.brk % 1024 = h.brk % 1024 ∧
      (p = 0 ∧ AllInUse h' H ∨ p = h.brk + headerSize ∧ AllInUse h' (h.brk :: H)) := by
  simp only [growHeap] at hr
  cases hsbrk : sbrk grant (sbrkBytes size) h with
  | none =>
      rw [hsbrk] at hr
      obtain ⟨rfl, rfl⟩ := Prod.mk.inj (Option.some.inj hr)
      obtain ⟨h₁, h₂, h₃, h₄, h₅, h₆, h₇, h₈, h₉⟩ := hinv
      exact ⟨rfl, Or.inl ⟨rfl, h₁, h₂, h₃, h₄, h₅, h₆, h₇, h₈, h₉⟩⟩
  | some r =>
      obtain ⟨a, h₁⟩ := r
      obtain ⟨rfl, brk', rfl, hbrk⟩ := sbrk_some hsbrk
      rw [hsbrk] at hr
      simp only at hr
      by_cases hzero : h.blockListHead = 0
      · rw [if_pos hzero] at hr
        obtain ⟨rfl, rfl⟩ := Prod.mk.inj (Option.some.inj hr)
        exact ⟨hbrk.2.2, Or.inr ⟨rfl,
          hinv.grow hbrk (Or.inl rfl) rfl (Or.inl rfl)⟩⟩
      · rw [if_neg hzero] at hr
        split at hr
        · exact absurd hr (by simp)
        · rename_i htail
          obtain ⟨rfl, rfl⟩ := Prod.mk.inj (Option.some.inj hr)
          exact ⟨hbrk.2.2, Or.inr ⟨rfl, hinv.grow hbrk (Or.inr ⟨rfl, hzero⟩) rfl
            (Or.inr ⟨h.blockListTail, hinv.tail.resolve_left htail, rfl⟩)⟩⟩

theorem AllInUse.setLowerBound {h : Heap} {H : List Nat} (hinv : AllInUse h H) :
    AllInUse (setLowerBound h) H := by
  obtain ⟨h₁, h₂, h₃, h₄, h₅, h₆, h₇, h₈, h₉⟩ := hinv
  constructor
  all_goals simpa

/-- With no block free, `beavalloc` goes straight to `sbrk`. -/
theorem beavalloc_grows {fuel size p : Nat} {grant : Bool} {h h' : Heap} {H : List Nat}
    (hinv : AllInUse h H) (hsize : 0 < size)
    (hr : beavalloc fuel grant size h = some (p, h')) :
    growHeap grant size (setLowerBound h) = some (p, h') := by
  rw [beavalloc, if_neg (by omega)] at hr
  simp only [setLowerBound_mem, setLowerBound_head] at hr
  cases hcheck : checkFreeBlock h.mem size fuel h.blockListHead with
  | none =>
      rw [hcheck] at hr
      exact absurd hr (by simp)
  | some found =>
      obtain rfl := checkFreeBlock_of_inUse hinv.closed hinv.inUse hinv.head hcheck
      rw [hcheck] at hr
      exact hr

/-- `beavfree` of a pointer off the headers' residue changes nothing. -/
theorem beavfree_noop {fuel p : Nat} {h h' : Heap} {H : List Nat} (hinv : AllInUse h H)
    (hp : p = 0 ∨ p % 1024 = (h.brk + headerSize) % 1024)
    (hr : beavfree fuel p h = some h') : h' = h := by
  have hout : p ∉ H := by
    intro hmem
    have hmod := hinv.aligned p hmem
    have hpos := (hinv.bounds p hmem).1
    unfold headerSize at hp
    omega
  rw [beavfree] at hr
  cases hfind : findBlock h.mem p fuel h.blockListHead with
  | none =>
      rw [hfind] at hr
      exact absurd hr (by simp)
  | some b =>
      obtain rfl := findBlock_of_not_mem hinv.closed hout hinv.head hfind
      rw [hfind] at hr
      simpa using hr.symm

/-! ## Whole histories -/

variable {s s' : History} {op : Op} {ok : History → Op → Prop} {tr : List Op}

theorem NeverFree.init (hfresh : Fresh s) : NeverFree s := by
  obtain ⟨hhead, htail, hpos, hlt, hheaders, hreturned, hlive⟩ := hfresh
  refine ⟨⟨hpos, hlt, Or.inl hhead, Or.inl htail, fun _ => htail, ?_, ?_, ?_, ?_⟩, ?_, ?_⟩ <;>
    simp [hheaders, hreturned, hlive]

/-- The part of the invariant about returned pointers, one call later. -/
theorem NeverFree.of_heap {h' : Heap} {H : List Nat} {p n : Nat} (hinv : NeverFree s)
    (hheap : AllInUse h' H) (hbrk : h'.brk % 1024 = s.heap.brk % 1024)
    (hp : p = 0 ∨ p % 1024 = (h'.brk + headerSize) % 1024) :
    NeverFree ⟨h', H, p :: s.returned, if p = 0 then s.live else (p, n) :: s.live⟩ := by
  refine ⟨hheap, fun q hq => ?_, fun q k hq => ?_⟩
  · rcases List.mem_cons.mp hq with rfl | hq
    · exact hp
    · have := hinv.returned q hq
      simp only
      omega
  · by_cases hzero : p = 0
    · simp only [if_pos hzero] at hq
      exact ⟨(hinv.live q k hq).1, List.mem_cons_of_mem _ (hinv.live q k hq).2⟩
    · simp only [if_neg hzero, List.mem_cons, Prod.mk.injEq] at hq
      rcases hq with ⟨rfl, -⟩ | hq
      · exact ⟨hzero, List.mem_cons_self⟩
      · exact ⟨(hinv.live q k hq).1, List.mem_cons_of_mem _ (hinv.live q k hq).2⟩

theorem NeverFree.step (hinv : NeverFree s) (hstep : Step s op s') : NeverFree s' := by
  cases hstep with
  | @alloc fuel size p grant h hr =>
      by_cases hsize : size = 0
      · rw [beavalloc, if_pos hsize] at hr
        obtain ⟨rfl, rfl⟩ := Prod.mk.inj (Option.some.inj hr)
        exact hinv.of_heap hinv.heap rfl (Or.inl rfl)
      · have hgrow := beavalloc_grows hinv.heap (by omega) hr
        have hcase := growHeap_allInUse hinv.heap.setLowerBound hgrow
        rw [setLowerBound_brk] at hcase
        obtain ⟨hbrk, ⟨rfl, hheap⟩ | ⟨rfl, hheap⟩⟩ := hcase
        · exact hinv.of_heap hheap hbrk (Or.inl rfl)
        · have hne : s.heap.brk + headerSize ≠ 0 := by
            unfold headerSize
            omega
          have hnew := hinv.of_heap (n := size) hheap hbrk (p := s.heap.brk + headerSize)
            (Or.inr (by omega))
          rwa [if_neg hne, Nat.add_sub_cancel]
  | @free fuel p h hret hr =>
      obtain rfl := beavfree_noop hinv.heap (hinv.returned p hret) hr
      exact ⟨hinv.heap, hinv.returned, fun q k hq => hinv.live q k (List.mem_of_mem_filter hq)⟩
  | reset =>
      have hheap := hinv.heap
      have hreset : AllInUse (beavallocReset s.heap) [] ∧
          (beavallocReset s.heap).brk % 1024 = s.heap.brk % 1024 := by
        unfold beavallocReset
        by_cases hhead : s.heap.blockListHead = 0
        · rw [if_neg (by simpa using hhead)]
          refine ⟨⟨hheap.brk_pos, hheap.brk_lt, Or.inl hhead, Or.inl (hheap.empty hhead),
            hheap.empty, ?_, ?_, ?_, ?_⟩, rfl⟩ <;> simp
        · have hmem := hheap.head.resolve_left hhead
          rw [if_pos hhead]
          refine ⟨⟨(hheap.bounds _ hmem).1, (hheap.bounds _ hmem).2, Or.inl rfl, Or.inl rfl,
            fun _ => rfl, ?_, ?_, ?_, ?_⟩, hheap.aligned _ hmem⟩ <;> simp
      refine ⟨hreset.1, fun p hp => ?_, by simp⟩
      have := hinv.returned p hp
      have := hreset.2
      simp only
      omega
  | @write m hkeep =>
      have hheap := hinv.heap
      have hread : ∀ a ∈ s.headers, ∀ o n, o + n ≤ headerSize →
          load m (a + o) n = load s.heap.mem (a + o) n := fun a ha o n hle =>
        load_congr fun x h₁ h₂ => hkeep a ha x (by omega) (by omega)
      refine ⟨⟨hheap.brk_pos, hheap.brk_lt, hheap.head, hheap.tail, hheap.empty, hheap.bounds,
        hheap.aligned, fun a ha => ?_, fun a ha => ?_⟩, hinv.returned, hinv.live⟩
      · have := hread a ha 0 1 (by decide)
        rw [Nat.add_zero] at this
        exact this.trans (hheap.inUse a ha)
      · have hnext : blockNext m a = blockNext s.heap.mem a := hread a ha 32 8 (by decide)
        simp only [hnext]
        exact hheap.closed a ha

theorem neverFree_of_run (hrun : Run allocator ok tr s) : NeverFree s :=
  hrun.invariant (fun _ => NeverFree.init) fun _ _ _ hinv hstep _ => hinv.step hstep

/-- No block of a heap with every block in use is free. -/
theorem AllInUse.not_ownerFree {h : Heap} {H : List Nat} (hinv : AllInUse h H) (p : Nat) :
    ¬ OwnerFree h p := by
  rintro ⟨b, hon, -, -, hfree⟩
  exact hfree (hinv.inUse b (onList_mem hinv.closed hon hinv.head))

theorem NeverFree.not_reusable (hinv : NeverFree s) {p n : Nat} (hlive : (p, n) ∈ s.live) :
    ¬ Reusable s p n := by
  rintro ⟨fuel, h', hfree, howner, -⟩
  obtain rfl := beavfree_noop hinv.heap (hinv.returned p (hinv.live p n hlive).2) hfree
  exact hinv.heap.not_ownerFree p howner

/-- Nothing a program frees becomes reusable, whatever calls it made before. -/
theorem freed_never_reusable (hrun : Run allocator anyStep tr s) {p n : Nat}
    (hlive : (p, n) ∈ s.live) : ¬ Reusable s p n :=
  (neverFree_of_run hrun).not_reusable hlive

/-- A process with its break at 4096. -/
def start : History where
  heap := ⟨fun _ => 0, 0, 0, 0, 0, 4096, 0⟩
  headers := []
  returned := []
  live := []

/-- The heap after `beavalloc(100)` from `start`. -/
def firstBlock : History where
  heap := ((beavalloc 1 true 100 start.heap).getD (0, start.heap)).2
  headers := [4096]
  returned := [4136]
  live := [(4136, 100)]

theorem firstBlock_run : Run allocator anyStep [.alloc 100] firstBlock := by
  have hptr : (beavalloc 1 true 100 start.heap).map Prod.fst = some 4136 := by decide
  obtain ⟨⟨p, h⟩, hr, rfl⟩ := Option.map_eq_some_iff.mp hptr
  have hcall : beavalloc 1 true 100 start.heap = some (4136, firstBlock.heap) := by
    rw [firstBlock, hr]
    rfl
  have hfresh : Fresh start := ⟨rfl, rfl, by decide, by decide, rfl, rfl, rfl⟩
  exact .step (.init hfresh) (.alloc hcall) trivial

theorem freed_never_reusable_firstBlock : ¬ Reusable firstBlock 4136 100 :=
  freed_never_reusable firstBlock_run List.mem_cons_self

/-- After one allocation and its `beavfree` no block is free. -/
theorem firstBlock_lost :
    Run allocator anyStep [.alloc 100] firstBlock ∧ (4136, 100) ∈ firstBlock.live ∧
      ¬ Reusable firstBlock 4136 100 :=
  ⟨firstBlock_run, List.mem_cons_self,
    (neverFree_of_run firstBlock_run).not_reusable List.mem_cons_self⟩

/-- In every reachable heap `beavfree` of a returned pointer changes nothing,
and every request that succeeds moves the break. -/
theorem freed_memory_lost (hrun : Run allocator ok tr s) {p : Nat} (hp : p ∈ s.returned) :
    (∀ fuel h', beavfree fuel p s.heap = some h' → h' = s.heap) ∧
      ∀ fuel grant size q h', 0 < size → beavalloc fuel grant size s.heap = some (q, h') →
        growHeap grant size (setLowerBound s.heap) = some (q, h') := by
  have hinv := neverFree_of_run hrun
  exact ⟨fun _ _ hr => beavfree_noop hinv.heap (hinv.returned p hp) hr,
    fun _ _ _ _ _ hsize hr => beavalloc_grows hinv.heap hsize hr⟩

end Beavalloc
end CS444
