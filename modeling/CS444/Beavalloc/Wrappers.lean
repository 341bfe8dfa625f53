/-
The calls on top of `beavalloc`.

`beavcalloc`, `beavrealloc` and `beavstrdup` fill the block `beavalloc` returns
without looking at the pointer, so a failing allocation ends in a write through
`NULL`.  `beavrealloc` moves as many bytes as the new block is to have, however
many the old one has.  `beavcalloc` multiplies in `size_t`.
-/
import CS444.Beavalloc.Request

namespace CS444
namespace Beavalloc

open Bytes

variable {h h' h₁ : Heap} {bs bs' pre post : List Block} {b : Block}
variable {m m' : Mem} {brk a n size fuel ptr : Nat} {grant : Bool}

/-! ## A failing allocation -/

inductive Wrapper where
  | calloc (nmemb size : Nat)
  | realloc (ptr size : Nat)
  | strdup (s : List UInt8)

namespace Wrapper

/-- The size the wrapper passes to `beavalloc`. -/
def request : Wrapper → Nat
  | calloc nmemb size => nmemb * size % 2 ^ 64
  | realloc _ size => size
  | strdup s => (s.length + 1) % 2 ^ 64

def run (fuel : Nat) (grant : Bool) (h : Heap) : Wrapper → Option (Nat × Heap)
  | calloc nmemb size => beavcalloc fuel grant nmemb size h
  | realloc ptr size => (beavrealloc fuel grant ptr size h).map Prod.fst
  | strdup s => beavstrdup fuel grant s h

/-- The arguments with which the wrapper fills what `beavalloc` returned. -/
def Fills : Wrapper → Prop
  | calloc nmemb size => nmemb ≠ 0 ∧ size ≠ 0
  | realloc ptr size => ptr ≠ 0 ∧ size ≠ 0
  | strdup s => (s.length + 1) % 2 ^ 64 ≠ 0

end Wrapper

/-- The call returns `NULL` and leaves the heap as it was. -/
def Contained (h : Heap) (r : Option (Nat × Heap)) : Prop :=
  ∃ h', r = some (0, h') ∧ Unchanged h h'

theorem Unchanged.refl (h : Heap) : Unchanged h h := ⟨rfl, rfl, rfl, rfl⟩

theorem getBlock_null (hget : getBlock size h fuel a = some (0, h₁)) : h₁ = h := by
  induction fuel generalizing a with
  | zero => exact absurd hget (by simp [getBlock])
  | succ fuel ih =>
      unfold getBlock at hget
      split at hget
      · exact (Prod.mk.inj (Option.some.inj hget)).2.symm
      · split at hget
        · have hptr := congrArg Prod.fst (Option.some.inj hget)
          rw [takeBlock_fst] at hptr
          simp only [headerSize] at hptr
          omega
        · exact ih hget

theorem growHeap_null (hgrow : growHeap grant size h = some (0, h₁)) : Unchanged h h₁ := by
  unfold growHeap at hgrow
  dsimp only at hgrow
  split at hgrow
  · obtain rfl := (Prod.mk.inj (Option.some.inj hgrow)).2
    exact ⟨rfl, rfl, rfl, rfl⟩
  · split at hgrow
    · have hptr := congrArg Prod.fst (Option.some.inj hgrow)
      simp only [headerSize] at hptr
      omega
    · split at hgrow
      · exact absurd hgrow (by simp)
      · have hptr := congrArg Prod.fst (Option.some.inj hgrow)
        simp only [headerSize] at hptr
        omega

/-- A `NULL` from `beavalloc` leaves the heap as it was. -/
theorem beavalloc_null (hnull : beavalloc fuel grant size h = some (0, h₁)) :
    Unchanged h h₁ := by
  unfold beavalloc at hnull
  dsimp only at hnull
  split at hnull
  · obtain rfl := (Prod.mk.inj (Option.some.inj hnull)).2
    exact Unchanged.refl _
  · rw [← unchanged_setLowerBound]
    split at hnull
    · exact absurd hnull (by simp)
    · obtain rfl := getBlock_null hnull
      exact Unchanged.refl _
    · exact growHeap_null hnull

theorem fillNew_null {f : Nat → UInt8} (hn : n ≠ 0) : fillNew n f (0, h) = none := by
  unfold fillNew
  rw [if_neg hn, if_pos rfl]

theorem run_calloc {nmemb : Nat} (hw : (Wrapper.calloc nmemb size).Fills) :
    (Wrapper.calloc nmemb size).run fuel grant h =
      (beavalloc fuel grant (nmemb * size % 2 ^ 64) h).bind
        (fillNew (nmemb * size % 2 ^ 64) fun _ => 0) := by
  show beavcalloc fuel grant nmemb size h = _
  unfold beavcalloc
  rw [if_neg (not_or.mpr hw)]
  dsimp only
  cases beavalloc fuel grant (nmemb * size % 2 ^ 64) h with
  | none => rfl
  | some r => rfl

/-- A wrapper whose allocation fails writes through `NULL`, if it writes at all. -/
theorem run_null {w : Wrapper} (hw : w.Fills) (hrequest : w.request ≠ 0)
    (hnull : beavalloc fuel grant w.request h = some (0, h₁)) : w.run fuel grant h = none := by
  cases w with
  | calloc nmemb size =>
      rw [run_calloc hw, show beavalloc fuel grant (nmemb * size % 2 ^ 64) h = _ from hnull]
      exact fillNew_null hrequest
  | realloc ptr size =>
      show (beavrealloc fuel grant ptr size h).map Prod.fst = none
      rw [beavrealloc_fst hw.2 hw.1, show beavalloc fuel grant size h = _ from hnull,
        Option.bind_some, fillNew_null hw.2]
      rfl
  | strdup s =>
      show beavstrdup fuel grant s h = none
      unfold beavstrdup
      dsimp only
      rw [if_pos (Nat.pos_of_ne_zero hw),
        show beavalloc fuel grant ((s.length + 1) % 2 ^ 64) h = _ from hnull]
      exact fillNew_null hw

/-- A failing allocation is contained in the one call that asks for 0 bytes after
all, a `beavcalloc` whose product is a multiple of `2 ^ 64`. -/
theorem contained_iff {w : Wrapper} (hw : w.Fills)
    (hnull : beavalloc fuel grant w.request h = some (0, h₁)) :
    Contained h (w.run fuel grant h) ↔
      ∃ nmemb size, w = .calloc nmemb size ∧ 2 ^ 64 ∣ nmemb * size := by
  constructor
  · rintro ⟨h', hrun, -⟩
    have hzero : w.request = 0 := by
      by_contra hne
      rw [run_null hw hne hnull] at hrun
      exact absurd hrun (by simp)
    cases w with
    | calloc nmemb size => exact ⟨nmemb, size, rfl, Nat.dvd_of_mod_eq_zero hzero⟩
    | realloc ptr size => exact absurd hzero hw.2
    | strdup s => exact absurd hzero hw
  · rintro ⟨nmemb, size, rfl, hdvd⟩
    have hzero : nmemb * size % 2 ^ 64 = 0 := Nat.mod_eq_zero_of_dvd hdvd
    refine ⟨h₁, ?_, beavalloc_null hnull⟩
    rw [run_calloc hw, show beavalloc fuel grant (nmemb * size % 2 ^ 64) h = _ from hnull, hzero]
    rfl

/-- `2 ^ 32` members of `2 ^ 32` bytes. -/
theorem contained_wrapped :
    Contained noBlocks ((Wrapper.calloc (2 ^ 32) (2 ^ 32)).run 1 false noBlocks) := by
  have hw : (Wrapper.calloc (2 ^ 32) (2 ^ 32)).Fills := ⟨by decide, by decide⟩
  exact (contained_iff hw rfl).mpr ⟨_, _, rfl, by decide⟩

/-- When `sbrk` fails, the copy of a string of one byte is written through `NULL`. -/
theorem strdup_not_contained :
    (beavalloc 1 false 2 noBlocks).map Prod.fst = some 0 ∧
      ¬ Contained noBlocks ((Wrapper.strdup [97]).run 1 false noBlocks) := by
  refine ⟨rfl, ?_⟩
  rintro ⟨h', hrun, -⟩
  have hnone : (Wrapper.strdup [97]).run 1 false noBlocks = none := rfl
  rw [hnone] at hrun
  exact absurd hrun (by simp)

end Beavalloc
end CS444
