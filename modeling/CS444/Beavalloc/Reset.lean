/-
`beavalloc_reset` and the heap it leaves.

No pointer a program was given is a header, so `beavfree` frees nothing, no block
is ever taken again, split or merged, and the heap is the blocks of all requests
since the last reset, one after the other.  `Rep` says so: from the first break
`base` on the heap is `blocksAt base sizes`.  What every call returns is then a
function of `base` and the sizes, `respond`, and after a reset there are none:
`reset_restores`.
-/
import CS444.Beavalloc.Free

namespace CS444
namespace Beavalloc

open Bytes Runs

/-! ## Sessions -/

inductive Call where
  | alloc (size : Nat)
  | free (ptr : Nat)
  | calloc (nmemb size : Nat)
  | realloc (ptr size : Nat)
  | strdup (s : List UInt8)
  | reset

/-- A call with `sbrk` succeeding; a call that returns nothing returns 0. -/
def exec (fuel : Nat) (h : Heap) : Call → Option (Nat × Heap)
  | .alloc size => beavalloc fuel true size h
  | .free ptr => (beavfree fuel ptr h).map fun h => (0, h)
  | .calloc nmemb size => beavcalloc fuel true nmemb size h
  | .realloc ptr size => (beavrealloc fuel true ptr size h).map Prod.fst
  | .strdup s => beavstrdup fuel true s h
  | .reset => some (0, beavallocReset h)

/-- A heap and the pointers returned so far. -/
structure Session where
  heap : Heap
  returned : List Nat

/-- The bytes a call asks for. -/
def Call.request : Call → Nat
  | .alloc size => size
  | .calloc nmemb size => nmemb * size
  | .realloc _ size => size
  | .strdup s => s.length + 1
  | .free _ | .reset => 0

/-- Requests are below 2^30, and a program frees and reallocates only what it was
given. -/
def Valid (s : Session) (c : Call) : Prop :=
  c.request < 2 ^ 30 ∧
    match c with
    | .free ptr | .realloc ptr _ => ptr = 0 ∨ ptr ∈ s.returned
    | _ => True

/-- The pointer, the size and the capacity in its header, and the break. -/
structure Result where
  ptr : Nat
  size : Nat
  capacity : Nat
  brk : Nat
deriving DecidableEq, Repr

def resultOf (ptr : Nat) (h : Heap) : Result where
  ptr := ptr
  size := if ptr = 0 then 0 else blockSize h.mem (ptr - headerSize)
  capacity := if ptr = 0 then 0 else blockCapacity h.mem (ptr - headerSize)
  brk := h.brk

/-- Calls with what they return, and writes of the program, which spare the
headers on the list. -/
inductive SessionStep (s : Session) : Option (Call × Result) → Session → Prop
  | call {fuel : Nat} {c : Call} {ptr : Nat} {h : Heap} (hvalid : Valid s c)
      (hexec : exec fuel s.heap c = some (ptr, h)) :
      SessionStep s (some (c, resultOf ptr h)) { heap := h, returned := ptr :: s.returned }
  | write {m : Mem} (hkeep : ∀ a, OnList s.heap.mem s.heap.blockListHead a →
      ∀ x, a ≤ x → x < a + headerSize → m x = s.heap.mem x) :
      SessionStep s none { s with heap := { s.heap with mem := m } }

/-- The program has started, with the break at `base`. -/
structure Started (base : Nat) (s : Session) : Prop where
  head : s.heap.blockListHead = 0
  tail : s.heap.blockListTail = 0
  lower : s.heap.lowerMemBound = 0
  upper : s.heap.upperMemBound = 0
  brk : s.heap.brk = base
  brk_pos : 0 < base
  brk_lt : base < addrLimit
  returned : s.returned = []

def sessions (base : Nat) : System Session (Option (Call × Result)) where
  init := Started base
  step := SessionStep

/-- All that may follow `s`. -/
def following (s : Session) : System Session (Option (Call × Result)) where
  init s₀ := s₀ = s
  step := SessionStep

/-! ## The heap of a list of requests -/

/-- The end of the blocks of `sizes`, begun at `a`. -/
def topAt (a : Nat) : List Nat → Nat
  | [] => a
  | n :: ns => topAt (a + sbrkBytes n) ns

def blocksAt (a : Nat) : List Nat → List Block
  | [] => []
  | n :: ns => ⟨a, sbrkBytes n - headerSize, n, false⟩ :: blocksAt (a + sbrkBytes n) ns

/-- The requests since the last reset were `sizes`. -/
structure Rep (base : Nat) (sizes : List Nat) (h : Heap) : Prop where
  wellFormed : WellFormed h (blocksAt base sizes)
  brk : h.brk = topAt base sizes
  bound : ∀ n ∈ sizes, n < 2 ^ 30

/-- What a request for `n` bytes returns, and the sizes after it. -/
def extend (base : Nat) (sizes : List Nat) (n : Nat) : Nat × List Nat :=
  if n ≠ 0 ∧ topAt base sizes + sbrkBytes n < addrLimit then
    (topAt base sizes + headerSize, sizes ++ [n])
  else (0, sizes)

/-- What a call returns, and the sizes after it. -/
def respond (base : Nat) (sizes : List Nat) : Call → Nat × List Nat
  | .free _ => (0, sizes)
  | .reset => (0, [])
  | c => extend base sizes c.request

variable {base n a fuel : Nat} {sizes : List Nat} {h h' : Heap}

theorem topAt_append (a : Nat) (sizes : List Nat) (n : Nat) :
    topAt a (sizes ++ [n]) = topAt a sizes + sbrkBytes n := by
  induction sizes generalizing a with
  | nil => rfl
  | cons k ks ih => exact ih (a + sbrkBytes k)

theorem blocksAt_append (a : Nat) (sizes : List Nat) (n : Nat) :
    blocksAt a (sizes ++ [n]) =
      blocksAt a sizes ++ [⟨topAt a sizes, sbrkBytes n - headerSize, n, false⟩] := by
  induction sizes generalizing a with
  | nil => rfl
  | cons k ks ih =>
      have hrest := ih (a + sbrkBytes k)
      show _ :: blocksAt (a + sbrkBytes k) (ks ++ [n]) = _
      rw [hrest]
      rfl

theorem length_blocksAt (a : Nat) (sizes : List Nat) :
    (blocksAt a sizes).length = sizes.length := by
  induction sizes generalizing a with
  | nil => rfl
  | cons k ks ih => exact congrArg (· + 1) (ih (a + sbrkBytes k))

theorem blocksAt_used {b : Block} (hb : b ∈ blocksAt a sizes) : b.free = false := by
  induction sizes generalizing a with
  | nil => exact absurd hb (by simp [blocksAt])
  | cons k ks ih =>
      rcases List.mem_cons.mp hb with rfl | hb
      · rfl
      · exact ih hb

theorem sbrkBytes_mod_nat (n : Nat) : sbrkBytes n % 1024 = 0 := by
  have := sbrkBytes_mod n
  omega

theorem blocksAt_mod {b : Block} (hb : b ∈ blocksAt a sizes) : b.addr % 1024 = a % 1024 := by
  induction sizes generalizing a with
  | nil => exact absurd hb (by simp [blocksAt])
  | cons k ks ih =>
      rcases List.mem_cons.mp hb with rfl | hb
      · rfl
      · have := ih hb
        have := sbrkBytes_mod_nat k
        omega

theorem topAt_mod (a : Nat) (sizes : List Nat) : topAt a sizes % 1024 = a % 1024 := by
  induction sizes generalizing a with
  | nil => rfl
  | cons k ks ih =>
      have := ih (a + sbrkBytes k)
      have := sbrkBytes_mod_nat k
      show topAt (a + sbrkBytes k) ks % 1024 = _
      omega

theorem headAddr_blocksAt (hne : sizes ≠ []) : headAddr (blocksAt a sizes) = a := by
  cases sizes with
  | nil => exact absurd rfl hne
  | cons k ks => rfl

/-! ## Memory that keeps the headers -/

theorem Tiles.keeps {m m' : Mem} {brk : Nat} {bs : List Block} : ∀ {prev a : Nat},
    Tiles m brk prev a bs →
    (∀ b ∈ bs, ∀ x, b.addr ≤ x → x < b.addr + headerSize → m' x = m x) →
      Tiles m' brk prev a bs := by
  induction bs with
  | nil => exact fun h _ => h
  | cons b rest ih =>
      rintro prev a ⟨rfl, hpos, hhdr, hsize, hrest⟩ hkeep
      exact ⟨rfl, hpos, hhdr.congr (hkeep b List.mem_cons_self), hsize,
        ih hrest fun c hc => hkeep c (List.mem_cons_of_mem b hc)⟩

theorem Rep.keeps (hrep : Rep base sizes h) {m : Mem}
    (hkeep : ∀ b ∈ blocksAt base sizes, ∀ x, b.addr ≤ x → x < b.addr + headerSize →
      m x = h.mem x) : Rep base sizes { h with mem := m } where
  wellFormed := {
    head := hrep.wellFormed.head
    tail := hrep.wellFormed.tail
    tiles := fun hne => (hrep.wellFormed.tiles hne).keeps hkeep
    brk_pos := hrep.wellFormed.brk_pos
    brk_lt := hrep.wellFormed.brk_lt }
  brk := hrep.brk
  bound := hrep.bound

/-- Every block of a tiled heap is on the list. -/
theorem Tiles.onList {m : Mem} {brk : Nat} {bs : List Block} : ∀ {prev a : Nat},
    Tiles m brk prev a bs → ∀ b ∈ bs, OnList m a b.addr := by
  induction bs with
  | nil => exact fun _ b hb => absurd hb List.not_mem_nil
  | cons c rest ih =>
      rintro prev a ⟨rfl, hpos, hhdr, -, hrest⟩ b hb
      have hc : c.addr ≠ 0 := by omega
      rcases List.mem_cons.mp hb with rfl | hb
      · exact .here hc
      · refine .next hc ?_
        rw [hhdr.next, hrest.headAddr_eq (List.ne_nil_of_mem hb)]
        exact ih hrest b hb

/-! ## One call -/

theorem lastAddr_mem {bs : List Block} (hne : bs ≠ []) (d : Nat) :
    lastAddr d bs ∈ bs.map Block.addr := by
  obtain ⟨pre, b, rfl⟩ := List.eq_nil_or_concat bs |>.resolve_left hne
  rw [List.concat_eq_append, lastAddr_append]
  simp

/-- What the header of a block of a tiled heap says. -/
theorem Tiles.header {m : Mem} {brk prev a : Nat} {bs : List Block} (h : Tiles m brk prev a bs)
    {b : Block} (hb : b ∈ bs) : ∃ prev next, HeaderAt m prev next b ∧
      (next = 0 ∨ next ∈ bs.map Block.addr) := by
  obtain ⟨pre, post, rfl⟩ := List.append_of_mem hb
  obtain ⟨-, -, hrest⟩ := h.split
  refine ⟨_, _, hrest.2.2.1, ?_⟩
  cases post with
  | nil => exact Or.inl rfl
  | cons c rest =>
      refine Or.inr (List.mem_map.mpr ⟨c, ?_, rfl⟩)
      simp

theorem Rep.header (hrep : Rep base sizes h) {b : Block} (hb : b ∈ blocksAt base sizes) :
    ∃ prev next, HeaderAt h.mem prev next b ∧
      (next = 0 ∨ next ∈ (blocksAt base sizes).map Block.addr) :=
  (hrep.wellFormed.tiles (List.ne_nil_of_mem hb)).header hb

/-- Every block is in use. -/
theorem Rep.allInUse (hrep : Rep base sizes h) :
    AllInUse h ((blocksAt base sizes).map Block.addr) := by
  have hwf := hrep.wellFormed
  have hmem : ∀ a ∈ (blocksAt base sizes).map Block.addr,
      ∃ b ∈ blocksAt base sizes, b.addr = a := fun a ha => List.mem_map.mp ha
  constructor
  case brk_pos => exact hwf.brk_pos
  case brk_lt => exact hwf.brk_lt
  case head =>
    rw [hwf.head]
    cases hbs : blocksAt base sizes with
    | nil => exact Or.inl rfl
    | cons b rest => exact Or.inr List.mem_cons_self
  case tail =>
    rw [hwf.tail]
    by_cases hne : blocksAt base sizes = []
    · rw [hne]
      exact Or.inl rfl
    · exact Or.inr (lastAddr_mem hne 0)
  case empty =>
    intro hzero
    have hnil : blocksAt base sizes = [] := by
      by_contra hne
      have hpos := headAddr_pos hwf hne
      rw [← hwf.head] at hpos
      omega
    rw [hwf.tail, hnil]
    rfl
  case bounds =>
    rintro a ha
    obtain ⟨b, hb, rfl⟩ := hmem a ha
    have hne := List.ne_nil_of_mem hb
    have hin := (hwf.tiles hne).mem_bounds b hb
    have hpos := headAddr_pos hwf hne
    have hlt := hwf.brk_lt
    rw [hwf.head] at hin
    unfold Block.stop at hin
    omega
  case aligned =>
    intro a ha
    obtain ⟨b, hb, rfl⟩ := hmem a ha
    rw [hrep.brk, topAt_mod]
    exact blocksAt_mod hb
  case inUse =>
    intro a ha
    obtain ⟨b, hb, rfl⟩ := hmem a ha
    obtain ⟨prev, next, hhdr, -⟩ := hrep.header hb
    have hiff := hhdr.free
    rw [blocksAt_used hb] at hiff
    by_contra hne
    exact absurd (hiff.mp hne) (by simp)
  case closed =>
    intro a ha
    obtain ⟨b, hb, rfl⟩ := hmem a ha
    obtain ⟨prev, next, hhdr, hnext⟩ := hrep.header hb
    rw [hhdr.next]
    exact hnext

/-- `NULL`, or a pointer 40 bytes behind a place for a header. -/
def Known (base p : Nat) : Prop := p = 0 ∨ p % 1024 = (base + headerSize) % 1024

theorem Rep.known_free (hrep : Rep base sizes h) {p : Nat} (hp : Known base p)
    (hr : beavfree fuel p h = some h') : h' = h := by
  refine beavfree_noop hrep.allInUse (hp.imp_right fun hmod => ?_) hr
  have hbrk := hrep.brk
  have := topAt_mod base sizes
  omega

theorem findBlock_returns {m : Mem} {brk p : Nat} {bs : List Block} : ∀ {prev a fuel : Nat},
    Tiles m brk prev a bs → bs.length < fuel →
      ∃ r, findBlock m p fuel (headAddr bs) = some r := by
  induction bs with
  | nil =>
      intro prev a fuel _ hfuel
      obtain ⟨fuel, rfl⟩ := Nat.exists_eq_add_of_lt hfuel
      exact ⟨0, rfl⟩
  | cons b rest ih =>
      rintro prev a fuel ⟨rfl, hpos, hhdr, -, hrest⟩ hfuel
      cases fuel with
      | zero => omega
      | succ fuel =>
          obtain ⟨r, hr⟩ := ih hrest (by simpa using hfuel)
          have hne : b.addr ≠ 0 := by omega
          rw [headAddr, findBlock, if_neg hne, hhdr.next, hr]
          split
          · exact ⟨_, rfl⟩
          · exact ⟨_, rfl⟩

theorem Rep.free_returns (hrep : Rep base sizes h) {p : Nat} (hp : Known base p)
    (hfuel : sizes.length < fuel) : beavfree fuel p h = some h := by
  have hlength := length_blocksAt base sizes
  have hfind : ∃ r, findBlock h.mem p fuel h.blockListHead = some r := by
    rw [hrep.wellFormed.head]
    cases hbs : blocksAt base sizes with
    | nil =>
        obtain ⟨fuel, rfl⟩ := Nat.exists_eq_add_of_lt hfuel
        exact ⟨0, rfl⟩
    | cons b rest =>
        rw [← hbs]
        exact findBlock_returns (hrep.wellFormed.tiles (by simp [hbs])) (by omega)
  obtain ⟨r, hr⟩ := hfind
  have hinv := hrep.allInUse
  have hout : p ∉ (blocksAt base sizes).map Block.addr := by
    intro hmem
    have hmod := hinv.aligned p hmem
    have hpos := (hinv.bounds p hmem).1
    have hbrk := hrep.brk
    have := topAt_mod base sizes
    unfold Known headerSize at hp
    omega
  obtain rfl := findBlock_of_not_mem hinv.closed hout hinv.head hr
  simp [beavfree, hr]

/-- The heap grows by one block, if there is room for it. -/
theorem growHeap_rep (hrep : Rep base sizes h) (hpos : n ≠ 0) (hn : n < 2 ^ 30) :
    ∃ h', growHeap true n (setLowerBound h) = some ((extend base sizes n).1, h') ∧
      Rep base (extend base sizes n).2 h' := by
  have hwf := hrep.wellFormed.setLowerBound
  have hbrk : (setLowerBound h).brk = topAt base sizes := by rw [setLowerBound_brk, hrep.brk]
  unfold extend
  by_cases hroom : topAt base sizes + sbrkBytes n < addrLimit
  · rw [if_pos ⟨hpos, hroom⟩]
    obtain ⟨h', hgrow, halloc, hbrk'⟩ :=
      growHeap_allocated hwf (sbrkBytes_bounds hn) ⟨rfl, by rw [hbrk]; exact hroom⟩
    have hwf' := halloc.wellFormed
    rw [hbrk] at hgrow hwf' hbrk'
    refine ⟨h', hgrow, ?_, ?_, ?_⟩
    · rw [blocksAt_append]
      exact hwf'
    · rw [topAt_append]
      exact hbrk'
    · intro k hk
      rcases List.mem_append.mp hk with hk | hk
      · exact hrep.bound k hk
      · rw [List.mem_singleton.mp hk]
        exact hn
  · rw [if_neg fun h => hroom h.2]
    have hrefused : ¬(true = true ∧ (setLowerBound h).brk + sbrkBytes n < addrLimit) := by
      rw [hbrk]
      exact fun h => hroom h.2
    refine ⟨_, growHeap_refused ?_, ?_, ?_, hrep.bound⟩
    · rw [sbrk_eq (sbrkBytes_bounds hn).2 hwf.brk_pos, if_neg hrefused]
    · exact ⟨hwf.head, hwf.tail, hwf.tiles, hwf.brk_pos, hwf.brk_lt⟩
    · exact hbrk

/-- What `r` is after a request for `n` bytes. -/
def Extended (base : Nat) (sizes : List Nat) (n : Nat) (r : Nat × Heap) : Prop :=
  r.1 = (extend base sizes n).1 ∧ Rep base (extend base sizes n).2 r.2

theorem extend_zero (base : Nat) (sizes : List Nat) : extend base sizes 0 = (0, sizes) :=
  if_neg fun h => h.1 rfl

theorem Rep.alloc (hrep : Rep base sizes h) (hn : n < 2 ^ 30) {r : Nat × Heap}
    (hr : beavalloc fuel true n h = some r) : Extended base sizes n r := by
  by_cases hpos : n = 0
  · subst hpos
    rw [beavalloc, if_pos rfl] at hr
    obtain rfl := Option.some.inj hr
    unfold Extended
    rw [extend_zero]
    exact ⟨rfl, hrep⟩
  · obtain ⟨p, h₁⟩ := r
    have hgrow := beavalloc_grows hrep.allInUse (Nat.pos_of_ne_zero hpos) hr
    obtain ⟨h', hgrow', hrep'⟩ := growHeap_rep hrep hpos hn
    obtain ⟨rfl, rfl⟩ := Prod.mk.inj (Option.some.inj (hgrow.symm.trans hgrow'))
    exact ⟨rfl, hrep'⟩

theorem Rep.alloc_returns (hrep : Rep base sizes h) (hn : n < 2 ^ 30)
    (hfuel : sizes.length < fuel) : ∃ r, beavalloc fuel true n h = some r := by
  by_cases hpos : n = 0
  · subst hpos
    exact ⟨_, if_pos rfl⟩
  · have hfind : (blocksAt base sizes).find? (candidate n) = none := by
      apply List.find?_eq_none.mpr
      intro b hb
      simp [candidate, blocksAt_used hb]
    have hlength := length_blocksAt base sizes
    rw [beavalloc_eq hrep.wellFormed (Nat.pos_of_ne_zero hpos) (by omega) (by omega), hfind]
    obtain ⟨h', hgrow, -⟩ := growHeap_rep hrep hpos hn
    exact ⟨_, hgrow⟩

/-- Filling a new block touches no header. -/
theorem Extended.fill {r r' : Nat × Heap} (hext : Extended base sizes n r) {f : Nat → UInt8}
    (hn : n < 2 ^ 30) (hpos : n ≠ 0) (hr : fillNew n f r = some r') :
    r.1 ≠ 0 ∧ Extended base sizes n r' := by
  unfold fillNew at hr
  rw [if_neg hpos] at hr
  split at hr
  · exact absurd hr (by simp)
  · rename_i hne
    obtain rfl := Option.some.inj hr
    obtain ⟨hptr, hrep⟩ := hext
    refine ⟨hne, hptr, hrep.keeps fun b hb x hx hlt => blit_apply_of_outside ?_⟩
    rw [hptr] at hne ⊢
    unfold extend at hne hb hrep ⊢
    by_cases hroom : n ≠ 0 ∧ topAt base sizes + sbrkBytes n < addrLimit
    · rw [if_pos hroom] at hb hrep ⊢
      simp only at hb hrep ⊢
      have hbytes := sbrkBytes_bounds hn
      by_contra hinside
      have hlast : (⟨topAt base sizes, sbrkBytes n - headerSize, n, false⟩ : Block) ∈
          blocksAt base (sizes ++ [n]) := by
        rw [blocksAt_append]
        simp
      have hdata := (hrep.wellFormed.tiles (List.ne_nil_of_mem hb)).data_not_header hb hlast
        (x := x) (by
          show topAt base sizes + headerSize ≤ x ∧
            x < topAt base sizes + headerSize + (sbrkBytes n - headerSize)
          omega)
      omega
    · rw [if_neg hroom] at hne
      exact absurd rfl hne

/-- Does `c` write through the pointer it gets from `beavalloc`? -/
def Call.Fills : Call → Prop
  | .calloc nmemb size => nmemb ≠ 0 ∧ size ≠ 0
  | .realloc ptr size => ptr ≠ 0 ∧ size ≠ 0
  | .strdup _ => True
  | .alloc _ | .free _ | .reset => False

/-- `c` writes through `NULL`. -/
def Faults (base : Nat) (sizes : List Nat) (c : Call) : Prop :=
  c.Fills ∧ (extend base sizes c.request).1 = 0

/-- `c` is called with a pointer the heap gave out. -/
def Call.GivenKnown (base : Nat) : Call → Prop
  | .free ptr | .realloc ptr _ => Known base ptr
  | _ => True

theorem le_topAt (a : Nat) (sizes : List Nat) : a ≤ topAt a sizes := by
  induction sizes generalizing a with
  | nil => exact Nat.le_refl a
  | cons k ks ih =>
      have := ih (a + sbrkBytes k)
      show a ≤ topAt (a + sbrkBytes k) ks
      omega

theorem Rep.bounds (hrep : Rep base sizes h) (hpos : 0 < base) :
    0 < base ∧ base < addrLimit := by
  have hlt := hrep.wellFormed.brk_lt
  rw [hrep.brk] at hlt
  exact ⟨hpos, Nat.lt_of_le_of_lt (le_topAt base sizes) hlt⟩

theorem rep_nil (hhead : h.blockListHead = 0) (htail : h.blockListTail = 0) (hbrk : h.brk = base)
    (hpos : 0 < base) (hlt : base < addrLimit) : Rep base [] h where
  wellFormed := {
    head := hhead
    tail := htail
    tiles := fun hne => absurd rfl hne
    brk_pos := by rw [hbrk]; exact hpos
    brk_lt := by rw [hbrk]; exact hlt }
  brk := hbrk
  bound := fun _ hn => absurd hn List.not_mem_nil

theorem Rep.eq_nil (hrep : Rep base sizes h) (hhead : h.blockListHead = 0) : sizes = [] := by
  cases sizes with
  | nil => rfl
  | cons k ks =>
      have hpos := headAddr_pos hrep.wellFormed (by simp [blocksAt])
      rw [← hrep.wellFormed.head] at hpos
      omega

theorem Rep.reset (hrep : Rep base sizes h) (hpos : 0 < base) :
    Rep base [] (beavallocReset h) := by
  have hbase := (hrep.bounds hpos).2
  unfold beavallocReset
  by_cases hhead : h.blockListHead = 0
  · rw [if_neg (fun hne => hne hhead)]
    have hnil := hrep.eq_nil hhead
    have hwf := hrep.wellFormed
    subst hnil
    exact rep_nil hhead hwf.tail hrep.brk hpos hbase
  · rw [if_pos hhead]
    have hne : sizes ≠ [] := by
      intro hnil
      rw [hrep.wellFormed.head, hnil] at hhead
      exact hhead rfl
    have hbrk : h.blockListHead = base := by
      rw [hrep.wellFormed.head]
      exact headAddr_blocksAt hne
    exact rep_nil rfl rfl hbrk hpos hbase

/-- What a call that returns has done. -/
theorem exec_rep (hrep : Rep base sizes h) (hpos : 0 < base) {c : Call}
    (hsize : c.request < 2 ^ 30) (hknown : c.GivenKnown base) {r : Nat × Heap}
    (hr : exec fuel h c = some r) :
    ¬ Faults base sizes c ∧ r.1 = (respond base sizes c).1 ∧
      Rep base (respond base sizes c).2 r.2 := by
  cases c with
  | alloc size => exact ⟨fun hf => hf.1, hrep.alloc hsize hr⟩
  | free ptr =>
      obtain ⟨h', hfree, rfl⟩ := Option.map_eq_some_iff.mp hr
      obtain rfl := hrep.known_free hknown hfree
      exact ⟨fun hf => hf.1, rfl, hrep⟩
  | calloc nmemb size =>
      simp only [exec, beavcalloc] at hr
      by_cases hzero : nmemb = 0 ∨ size = 0
      · rw [if_pos hzero] at hr
        obtain rfl := Option.some.inj hr
        have hnone : nmemb * size = 0 := Nat.mul_eq_zero.mpr hzero
        have hrespond : respond base sizes (.calloc nmemb size) = (0, sizes) := by
          show extend base sizes (nmemb * size) = _
          rw [hnone, extend_zero]
        rw [hrespond]
        refine ⟨fun hf => ?_, rfl, hrep⟩
        rcases hzero with h0 | h0
        · exact hf.1.1 h0
        · exact hf.1.2 h0
      · have hne₀ : nmemb * size ≠ 0 :=
          Nat.mul_ne_zero (not_or.mp hzero).1 (not_or.mp hzero).2
        have hlt : nmemb * size < 2 ^ 30 := hsize
        have hmod : nmemb * size % 2 ^ 64 = nmemb * size := Nat.mod_eq_of_lt (by omega)
        rw [if_neg hzero, hmod] at hr
        cases hgot : beavalloc fuel true (nmemb * size) h with
        | none =>
            rw [hgot] at hr
            exact absurd hr (by simp)
        | some r₀ =>
            rw [hgot] at hr
            have hext := hrep.alloc hsize hgot
            obtain ⟨hne, hext'⟩ := hext.fill hsize hne₀ hr
            exact ⟨fun hf => hne (hext.1.trans hf.2), hext'⟩
  | realloc ptr size =>
      simp only [exec] at hr
      by_cases hzero : size = 0
      · subst hzero
        rw [beavrealloc, if_pos rfl] at hr
        obtain rfl := Option.some.inj hr
        have hrespond : respond base sizes (.realloc ptr 0) = (0, sizes) := extend_zero base sizes
        rw [hrespond]
        exact ⟨fun hf => hf.1.2 rfl, rfl, hrep⟩
      · by_cases hptr : ptr = 0
        · rw [beavrealloc, if_neg hzero, if_pos hptr, Option.map_map] at hr
          have hcall : beavalloc fuel true size h = some r := by
            rwa [show Prod.fst ∘ (fun r : Nat × Heap => (r, ([] : List Nat))) = id from rfl,
              Option.map_id] at hr
          exact ⟨fun hf => hf.1.1 hptr, hrep.alloc hsize hcall⟩
        · rw [beavrealloc_fst hzero hptr] at hr
          obtain ⟨r₀, hgot, hr⟩ := Option.bind_eq_some_iff.mp hr
          obtain ⟨⟨nptr, h₁⟩, hfill, hr⟩ := Option.bind_eq_some_iff.mp hr
          obtain ⟨h₂, hfree, rfl⟩ := Option.map_eq_some_iff.mp hr
          have hext := hrep.alloc hsize hgot
          obtain ⟨hne, hptr₁, hrep₁⟩ := hext.fill hsize hzero hfill
          obtain rfl := hrep₁.known_free hknown hfree
          exact ⟨fun hf => hne (hext.1.trans hf.2), hptr₁, hrep₁⟩
  | strdup str =>
      have hlt : str.length + 1 < 2 ^ 30 := hsize
      have hmod : (str.length + 1) % 2 ^ 64 = str.length + 1 := Nat.mod_eq_of_lt (by omega)
      simp only [exec, beavstrdup, hmod] at hr
      rw [if_pos (Nat.succ_pos _)] at hr
      cases hgot : beavalloc fuel true (str.length + 1) h with
      | none =>
          rw [hgot] at hr
          exact absurd hr (by simp)
      | some r₀ =>
          rw [hgot] at hr
          have hext := hrep.alloc hsize hgot
          obtain ⟨hne, hext'⟩ := hext.fill hsize (Nat.succ_ne_zero _) hr
          exact ⟨fun hf => hne (hext.1.trans hf.2), hext'⟩
  | reset =>
      obtain rfl := Option.some.inj hr
      exact ⟨fun hf => hf.1, rfl, hrep.reset hpos⟩

/-- A call that does not write through `NULL` returns. -/
theorem exec_returns (hrep : Rep base sizes h) {c : Call} (hsize : c.request < 2 ^ 30)
    (hknown : c.GivenKnown base) (hfaults : ¬ Faults base sizes c)
    (hfuel : sizes.length + 1 < fuel) : ∃ r, exec fuel h c = some r := by
  have halloc {n : Nat} (hn : n < 2 ^ 30) : ∃ r, beavalloc fuel true n h = some r :=
    hrep.alloc_returns hn (by omega)
  have hfill {n : Nat} (hn : n < 2 ^ 30) (hpos : n ≠ 0) (f : Nat → UInt8) {r : Nat × Heap}
      (hne : (extend base sizes n).1 ≠ 0) (hgot : beavalloc fuel true n h = some r) :
      fillNew n f r = some (r.1, { r.2 with mem := blit r.2.mem r.1 n f }) := by
    rw [← (hrep.alloc hn hgot).1] at hne
    unfold fillNew
    rw [if_neg hpos, if_neg hne]
  cases c with
  | alloc size => exact halloc hsize
  | free ptr =>
      refine ⟨(0, h), ?_⟩
      rw [exec, hrep.free_returns hknown (by omega)]
      rfl
  | calloc nmemb size =>
      simp only [exec, beavcalloc]
      by_cases hzero : nmemb = 0 ∨ size = 0
      · rw [if_pos hzero]
        exact ⟨_, rfl⟩
      · have hne₀ : nmemb * size ≠ 0 :=
          Nat.mul_ne_zero (not_or.mp hzero).1 (not_or.mp hzero).2
        have hlt : nmemb * size < 2 ^ 30 := hsize
        have hmod : nmemb * size % 2 ^ 64 = nmemb * size := Nat.mod_eq_of_lt (by omega)
        have hne : (extend base sizes (nmemb * size)).1 ≠ 0 :=
          fun h0 => hfaults ⟨not_or.mp hzero, h0⟩
        obtain ⟨r, hgot⟩ := halloc hlt
        rw [if_neg hzero, hmod, hgot]
        exact ⟨_, hfill hlt hne₀ _ hne hgot⟩
  | realloc ptr size =>
      simp only [exec]
      obtain ⟨r, hgot⟩ := halloc hsize
      by_cases hzero : size = 0
      · rw [beavrealloc, if_pos hzero]
        exact ⟨_, rfl⟩
      · by_cases hptr : ptr = 0
        · rw [beavrealloc, if_neg hzero, if_pos hptr,
            show beavalloc fuel true size h = some r from hgot]
          exact ⟨_, rfl⟩
        · have hne : (extend base sizes size).1 ≠ 0 := fun h0 => hfaults ⟨⟨hptr, hzero⟩, h0⟩
          have hgot' := hfill hsize hzero (fun i => r.2.mem (ptr + i)) hne hgot
          have hext := (hrep.alloc hsize hgot).fill hsize hzero hgot'
          have hlength : (extend base sizes size).2.length ≤ sizes.length + 1 := by
            unfold extend
            split
            · simp
            · simp
          rw [beavrealloc_fst hzero hptr, show beavalloc fuel true size h = some r from hgot,
            Option.bind_some,
            show fillNew size (fun i => r.2.mem (ptr + i)) r = _ from hgot', Option.bind_some,
            hext.2.2.free_returns hknown (Nat.lt_of_le_of_lt hlength hfuel)]
          exact ⟨_, rfl⟩
  | strdup str =>
      have hlt : str.length + 1 < 2 ^ 30 := hsize
      have hmod : (str.length + 1) % 2 ^ 64 = str.length + 1 := Nat.mod_eq_of_lt (by omega)
      have hne : (extend base sizes (str.length + 1)).1 ≠ 0 := fun h0 => hfaults ⟨trivial, h0⟩
      obtain ⟨r, hgot⟩ := halloc hlt
      simp only [exec, beavstrdup, hmod]
      rw [if_pos (Nat.succ_pos _), hgot]
      exact ⟨_, hfill hlt (Nat.succ_ne_zero _) _ hne hgot⟩
  | reset => exact ⟨_, rfl⟩

/-! ## What a session sees -/

/-- The result of a call as a function of the requests before it. -/
def answer (base : Nat) (sizes : List Nat) (c : Call) : Result where
  ptr := (respond base sizes c).1
  size := if (respond base sizes c).1 = 0 then 0 else c.request
  capacity := if (respond base sizes c).1 = 0 then 0 else sbrkBytes c.request - headerSize
  brk := topAt base (respond base sizes c).2

theorem respond_cases (base : Nat) (sizes : List Nat) (c : Call) :
    (respond base sizes c).1 = 0 ∨
      (respond base sizes c) = (topAt base sizes + headerSize, sizes ++ [c.request]) := by
  have hextend (n : Nat) : (extend base sizes n).1 = 0 ∨
      extend base sizes n = (topAt base sizes + headerSize, sizes ++ [n]) := by
    unfold extend
    split
    · exact Or.inr rfl
    · exact Or.inl rfl
  cases c with
  | free ptr => exact Or.inl rfl
  | reset => exact Or.inl rfl
  | _ => exact hextend _

theorem Rep.resultOf_eq {c : Call} (hrep : Rep base (respond base sizes c).2 h) :
    resultOf (respond base sizes c).1 h = answer base sizes c := by
  unfold resultOf answer
  rw [hrep.brk]
  rcases respond_cases base sizes c with hzero | heq
  · rw [if_pos hzero, if_pos hzero, if_pos hzero, if_pos hzero]
  · rw [heq] at hrep ⊢
    have hne : topAt base sizes + headerSize ≠ 0 := Nat.succ_ne_zero _
    obtain ⟨prev, next, hhdr, -⟩ := hrep.header
      (b := ⟨topAt base sizes, sbrkBytes c.request - headerSize, c.request, false⟩)
      (by rw [blocksAt_append]; simp)
    simp only [if_neg hne, Nat.add_sub_cancel]
    rw [hhdr.size, hhdr.capacity]

theorem respond_known (base : Nat) (sizes : List Nat) (c : Call) :
    Known base (respond base sizes c).1 := by
  rcases respond_cases base sizes c with hzero | heq
  · exact Or.inl hzero
  · have := topAt_mod base sizes
    rw [heq]
    refine Or.inr ?_
    show (topAt base sizes + headerSize) % 1024 = _
    omega

/-- The session holds the blocks of `sizes` and pointers the heap gave out. -/
structure Holds (base : Nat) (sizes : List Nat) (s : Session) : Prop where
  base_pos : 0 < base
  rep : Rep base sizes s.heap
  returned : ∀ p ∈ s.returned, Known base p

variable {s s' f : Session} {c : Call}

theorem Holds.given (hholds : Holds base sizes s) (hvalid : Valid s c) : c.GivenKnown base := by
  obtain ⟨-, hgiven⟩ := hvalid
  cases c with
  | free ptr => exact hgiven.elim Or.inl (hholds.returned ptr)
  | realloc ptr size => exact hgiven.elim Or.inl (hholds.returned ptr)
  | _ => trivial

/-- A step takes the blocks to those of the sizes `respond` says, and a call
returns the `answer`. -/
theorem Holds.step (hholds : Holds base sizes s) {l : Option (Call × Result)}
    (hstep : SessionStep s l s') :
    ∃ sizes', Holds base sizes' s' ∧
      match l with
      | none => sizes' = sizes ∧ s'.returned = s.returned
      | some (c, r) => Valid s c ∧ ¬ Faults base sizes c ∧ r = answer base sizes c ∧
          sizes' = (respond base sizes c).2 ∧ s'.returned = r.ptr :: s.returned := by
  cases hstep with
  | call hvalid hexec =>
      obtain ⟨hfaults, hptr, hrep⟩ :=
        exec_rep hholds.rep hholds.base_pos hvalid.1 (hholds.given hvalid) hexec
      simp only at hptr hrep
      subst hptr
      refine ⟨_, ⟨hholds.base_pos, hrep, fun p hp => ?_⟩, hvalid, hfaults, hrep.resultOf_eq, rfl,
        rfl⟩
      rcases List.mem_cons.mp hp with rfl | hp
      · exact respond_known base sizes _
      · exact hholds.returned p hp
  | write hkeep =>
      refine ⟨sizes, ⟨hholds.base_pos, hholds.rep.keeps fun b hb => hkeep b.addr ?_,
        hholds.returned⟩, rfl, rfl⟩
      exact (hholds.rep.wellFormed.tiles (List.ne_nil_of_mem hb)).onList b hb

/-- The same requests are behind two sessions, which may free the same pointers. -/
def Alike (base : Nat) (s f : Session) : Prop :=
  ∃ sizes, Holds base sizes s ∧ Holds base sizes f ∧ f.returned = s.returned

theorem Alike.symm (halike : Alike base s f) : Alike base f s := by
  obtain ⟨sizes, hs, hf, hreturned⟩ := halike
  exact ⟨sizes, hf, hs, hreturned.symm⟩

theorem Alike.step (halike : Alike base s f) {l : Option (Call × Result)}
    (hstep : SessionStep s l s') : ∃ f', SessionStep f l f' ∧ Alike base s' f' := by
  obtain ⟨sizes, hs, hf, hreturned⟩ := halike
  obtain ⟨sizes', hs', hl⟩ := hs.step hstep
  cases l with
  | none =>
      obtain ⟨rfl, hkept⟩ := hl
      exact ⟨f, .write fun _ _ _ _ _ => rfl, _, hs', hf, hreturned.trans hkept.symm⟩
  | some call =>
      obtain ⟨c, r⟩ := call
      obtain ⟨hvalid, hfaults, rfl, rfl, hgave⟩ := hl
      have hvalid' : Valid f c := by
        unfold Valid
        rw [hreturned]
        exact hvalid
      have hgiven := hf.given hvalid'
      obtain ⟨⟨ptr, h⟩, hexec⟩ :=
        exec_returns hf.rep hvalid.1 hgiven hfaults (Nat.lt_succ_self (sizes.length + 1))
      obtain ⟨-, hptr, hrep⟩ := exec_rep hf.rep hf.base_pos hvalid.1 hgiven hexec
      simp only at hptr hrep
      subst hptr
      have hnext : SessionStep f (some (c, answer base sizes c))
          { heap := h, returned := (respond base sizes c).1 :: f.returned } := by
        rw [← hrep.resultOf_eq]
        exact .call hvalid' hexec
      obtain ⟨sizes'', hf', -, -, -, rfl, -⟩ := hf.step hnext
      refine ⟨_, hnext, _, hs', hf', ?_⟩
      rw [hgave, hreturned]
      rfl

theorem Alike.run (halike : Alike base s f) {tr : List (Option (Call × Result))}
    (hrun : Run (following s) anyStep tr s') : ∃ f', Run (following f) anyStep tr f' := by
  have hsim : ∃ f', Run (following f) anyStep tr f' ∧ Alike base s' f' := by
    apply hrun.simulate
    · intro s₀ hs₀
      exact ⟨f, rfl, by rw [hs₀]; exact halike⟩
    · intro s l s' f halike hstep _
      obtain ⟨f', hnext, halike'⟩ := halike.step hstep
      exact ⟨f', hnext, trivial, halike'⟩
  obtain ⟨f', hrun', -⟩ := hsim
  exact ⟨f', hrun'⟩

theorem holds_started (hstart : Started base s) : Holds base [] s where
  base_pos := hstart.brk_pos
  rep := rep_nil hstart.head hstart.tail hstart.brk hstart.brk_pos hstart.brk_lt
  returned := by
    rw [hstart.returned]
    exact fun _ hp => absurd hp List.not_mem_nil

theorem holds_of_run {ok : Session → Option (Call × Result) → Prop}
    {tr : List (Option (Call × Result))} (hrun : Run (sessions base) ok tr s) :
    ∃ sizes, Holds base sizes s := by
  apply hrun.invariant
  · exact fun s hstart => ⟨[], holds_started hstart⟩
  · rintro s l s' ⟨sizes, hholds⟩ hstep -
    obtain ⟨sizes', hholds', -⟩ := hholds.step hstep
    exact ⟨sizes', hholds'⟩

/-- After a reset the session is a fresh one, whichever of the earlier pointers the
program still uses. -/
theorem Holds.reset (hholds : Holds base sizes s) {given : List Nat}
    (hgiven : ∀ p ∈ given, p ∈ s.returned) :
    Holds base [] { heap := beavallocReset s.heap, returned := given } where
  base_pos := hholds.base_pos
  rep := hholds.rep.reset hholds.base_pos
  returned := fun p hp => hholds.returned p (hgiven p hp)

/-- In every session `beavalloc_reset` puts the break back where the first
allocation found it and leaves no list, and whatever may follow then is what may
follow a fresh start.  Every call returns while there is room. -/
theorem reset_restores {tr : List (Option (Call × Result))}
    (hrun : Run (sessions base) anyStep tr s) :
    ((beavallocReset s.heap).brk = base ∧ (beavallocReset s.heap).blockListHead = 0 ∧
      (beavallocReset s.heap).blockListTail = 0) ∧
    (s.heap.blockListHead = 0 → s.heap.brk = base) ∧
    (∀ f given, Started base f → (∀ p ∈ given, p ∈ s.returned) → ∀ after,
      (∃ s', Run (following ⟨beavallocReset s.heap, given⟩) anyStep after s') ↔
        ∃ f', Run (following ⟨f.heap, given⟩) anyStep after f') ∧
    ∀ c, Valid s c → s.heap.brk + sbrkBytes c.request < addrLimit →
      ∃ fuel r, exec fuel s.heap c = some r := by
  obtain ⟨sizes, hholds⟩ := holds_of_run hrun
  have hreset := hholds.rep.reset hholds.base_pos
  refine ⟨⟨hreset.brk, hreset.wellFormed.head, hreset.wellFormed.tail⟩, ?_, ?_, ?_⟩
  · intro hhead
    have hbrk := hholds.rep.brk
    rw [hholds.rep.eq_nil hhead] at hbrk
    exact hbrk
  · intro f given hstart hgiven after
    have hfresh : Holds base [] { heap := f.heap, returned := given } :=
      ⟨hstart.brk_pos, (holds_started hstart).rep, fun p hp => hholds.returned p (hgiven p hp)⟩
    have halike : Alike base ⟨beavallocReset s.heap, given⟩ ⟨f.heap, given⟩ :=
      ⟨[], hholds.reset hgiven, hfresh, rfl⟩
    constructor
    · rintro ⟨s', hafter⟩
      exact halike.run hafter
    · rintro ⟨f', hafter⟩
      exact halike.symm.run hafter
  · intro c hvalid hroom
    refine ⟨sizes.length + 2, exec_returns hholds.rep hvalid.1 (hholds.given hvalid) ?_
      (Nat.lt_succ_self _)⟩
    rintro ⟨hfills, hzero⟩
    rw [hholds.rep.brk] at hroom
    have hne : c.request ≠ 0 := by
      cases c with
      | calloc nmemb size => exact Nat.mul_ne_zero hfills.1 hfills.2
      | realloc ptr size => exact hfills.2
      | strdup str => exact Nat.succ_ne_zero _
      | _ => exact hfills.elim
    unfold extend at hzero
    rw [if_pos ⟨hne, hroom⟩] at hzero
    exact absurd hzero (Nat.succ_ne_zero _)

/-- The session of `firstBlock`. -/
def firstSession : Session where
  heap := firstBlock.heap
  returned := [4136]

theorem firstSession_run : Run (sessions 4096) anyStep
    [some (.alloc 100, resultOf 4136 firstBlock.heap)] firstSession := by
  have hptr : (beavalloc 1 true 100 start.heap).map Prod.fst = some 4136 := by decide
  obtain ⟨⟨p, h⟩, hr, rfl⟩ := Option.map_eq_some_iff.mp hptr
  have hcall : exec 1 start.heap (.alloc 100) = some (4136, firstBlock.heap) := by
    rw [exec, firstBlock, hr]
    rfl
  have hstart : Started 4096 ⟨start.heap, []⟩ :=
    ⟨rfl, rfl, rfl, rfl, rfl, by decide, by decide, rfl⟩
  exact .step (.init hstart) (.call ⟨by decide, trivial⟩ hcall) trivial

theorem reset_restores_firstSession :
    firstSession.heap.brk = 5120 ∧ (beavallocReset firstSession.heap).brk = 4096 ∧
      (beavallocReset firstSession.heap).blockListHead = 0 ∧
        (beavallocReset firstSession.heap).blockListTail = 0 :=
  ⟨by decide, (reset_restores firstSession_run).1⟩

end Beavalloc
end CS444
