/-
The system call `va2pa`.

`uva2ka` walks the two levels of the page table and returns where the kernel has
the page mapped.  It looks through the pointer `walkpgdir` returns without a test,
and `sys_va2pa` hands its result on, which is no physical address and names the
page, not the byte.  `va2pa_iff` says for which directories and addresses the
result is right all the same.
-/
import CS444.Lib.Numerals

namespace CS444
namespace Kthreads
namespace Va2pa

/-! ## The walk -/

def KERNBASE : UInt32 := 0x80000000

def PTE_P : UInt32 := 0x001

def PTE_U : UInt32 := 0x004

/-- `PDX(va)` -/
def pdx (va : UInt32) : UInt32 := (va >>> 22) &&& 0x3FF

/-- `PTX(va)` -/
def ptx (va : UInt32) : UInt32 := (va >>> 12) &&& 0x3FF

/-- `PTE_ADDR(pte)` -/
def pteAddr (pte : UInt32) : UInt32 := pte &&& ~~~0xFFF

/-- `P2V(a)` -/
def p2v (a : UInt32) : UInt32 := a + KERNBASE

/-- The 32-bit words of kernel memory, by kernel address. -/
abbrev Words : Type := UInt32 → UInt32

variable {mem : Words} {pgdir va : UInt32}

/-- The directory entry of `va`. -/
def dirEntry (mem : Words) (pgdir va : UInt32) : UInt32 := mem (pgdir + 4 * pdx va)

/-- `walkpgdir(pgdir, va, 0)`; `none` is `NULL`. -/
def walkpgdir (mem : Words) (pgdir va : UInt32) : Option UInt32 :=
  let pde := dirEntry mem pgdir va
  if pde &&& PTE_P ≠ 0 then some (p2v (pteAddr pde) + 4 * ptx va) else none

/-- `uva2ka(pgdir, uva)`; `none` is a read through `NULL`. -/
def uva2ka (mem : Words) (pgdir uva : UInt32) : Option UInt32 :=
  match walkpgdir mem pgdir uva with
  | none => none
  | some pte =>
    if mem pte &&& PTE_P = 0 then some 0
    else if mem pte &&& PTE_U = 0 then some 0
    else some (p2v (pteAddr (mem pte)))

/-- `sys_va2pa()` with the argument `va`. -/
def sysVa2pa (mem : Words) (pgdir va : UInt32) : Option Int32 :=
  (uva2ka mem pgdir va).map UInt32.toInt32

/-! ## What it is to return -/

/-- The page-table entry of `va`, if there is a page table for it. -/
def tableEntry (mem : Words) (pgdir va : UInt32) : UInt32 :=
  mem (p2v (pteAddr (dirEntry mem pgdir va)) + 4 * ptx va)

/-- Both levels map `va`. -/
def Mapped (mem : Words) (pgdir va : UInt32) : Prop :=
  dirEntry mem pgdir va &&& PTE_P ≠ 0 ∧ tableEntry mem pgdir va &&& PTE_P ≠ 0

/-- Both levels allow user accesses. -/
def UserAccessible (mem : Words) (pgdir va : UInt32) : Prop :=
  dirEntry mem pgdir va &&& PTE_U ≠ 0 ∧ tableEntry mem pgdir va &&& PTE_U ≠ 0

instance : Decidable (Mapped mem pgdir va) := inferInstanceAs (Decidable (_ ∧ _))

instance : Decidable (UserAccessible mem pgdir va) := inferInstanceAs (Decidable (_ ∧ _))

/-- The physical address of the byte at `va`, 0 where a user has none. -/
def physAddr (mem : Words) (pgdir va : UInt32) : UInt32 :=
  if Mapped mem pgdir va ∧ UserAccessible mem pgdir va then
    pteAddr (tableEntry mem pgdir va) + (va &&& 0xFFF)
  else 0

theorem uva2ka_absent (habsent : dirEntry mem pgdir va &&& PTE_P = 0) :
    uva2ka mem pgdir va = none := by
  have hwalk : walkpgdir mem pgdir va = none := if_neg (not_not.mpr habsent)
  unfold uva2ka
  rw [hwalk]

theorem uva2ka_present (hpresent : dirEntry mem pgdir va &&& PTE_P ≠ 0) :
    uva2ka mem pgdir va = some
      (if tableEntry mem pgdir va &&& PTE_P = 0 ∨ tableEntry mem pgdir va &&& PTE_U = 0 then 0
      else p2v (pteAddr (tableEntry mem pgdir va))) := by
  have hwalk : walkpgdir mem pgdir va =
      some (p2v (pteAddr (dirEntry mem pgdir va)) + 4 * ptx va) := if_pos hpresent
  unfold uva2ka
  rw [hwalk]
  show (if tableEntry mem pgdir va &&& PTE_P = 0 then some 0
    else if tableEntry mem pgdir va &&& PTE_U = 0 then some 0
    else some (p2v (pteAddr (tableEntry mem pgdir va)))) = _
  by_cases hp : tableEntry mem pgdir va &&& PTE_P = 0
  · rw [if_pos hp, if_pos (Or.inl hp)]
  · rw [if_neg hp]
    by_cases hu : tableEntry mem pgdir va &&& PTE_U = 0
    · rw [if_pos hu, if_pos (Or.inr hu)]
    · rw [if_neg hu, if_neg (not_or.mpr ⟨hp, hu⟩)]

/-- An offset within a page is not the distance to the kernel's mapping. -/
theorem p2v_ne_byte (frame va : UInt32) : p2v frame ≠ frame + (va &&& 0xFFF) := by
  intro heq
  have hoff : KERNBASE = va &&& 0xFFF := (UInt32.add_right_inj frame).mp heq
  have hle : (va &&& 0xFFF).toNat ≤ 0xFFF := by
    rw [UInt32.toNat_and]
    exact Nat.and_le_right
  rw [← hoff] at hle
  exact absurd hle (by decide)

theorem toInt32_inj {x y : UInt32} : x.toInt32 = y.toInt32 ↔ x = y := by
  constructor
  · intro heq
    have hback := congrArg Int32.toUInt32 heq
    simpa using hback
  · exact congrArg UInt32.toInt32

/-- `va2pa` is right exactly where the table is there and the page is not mapped for
the user, or where an entry of the table gives out the page at 2 GiB and the
directory forbids it. -/
theorem va2pa_iff (mem : Words) (pgdir va : UInt32) :
    sysVa2pa mem pgdir va = some (physAddr mem pgdir va).toInt32 ↔
      dirEntry mem pgdir va &&& PTE_P ≠ 0 ∧
        (tableEntry mem pgdir va &&& PTE_P = 0 ∨ tableEntry mem pgdir va &&& PTE_U = 0 ∨
          dirEntry mem pgdir va &&& PTE_U = 0 ∧ pteAddr (tableEntry mem pgdir va) = KERNBASE) := by
  unfold sysVa2pa
  by_cases hpresent : dirEntry mem pgdir va &&& PTE_P = 0
  · rw [uva2ka_absent hpresent]
    exact iff_of_false (by simp) fun h => h.1 hpresent
  · rw [uva2ka_present hpresent, Option.map_some, Option.some.injEq, toInt32_inj]
    unfold physAddr Mapped UserAccessible
    by_cases hno : tableEntry mem pgdir va &&& PTE_P = 0 ∨ tableEntry mem pgdir va &&& PTE_U = 0
    · have hunmapped : ¬ ((dirEntry mem pgdir va &&& PTE_P ≠ 0 ∧
          tableEntry mem pgdir va &&& PTE_P ≠ 0) ∧ dirEntry mem pgdir va &&& PTE_U ≠ 0 ∧
          tableEntry mem pgdir va &&& PTE_U ≠ 0) := by
        rintro ⟨⟨-, hp⟩, -, hu⟩
        exact hno.elim hp hu
      rw [if_pos hno, if_neg hunmapped]
      refine iff_of_true rfl ⟨hpresent, ?_⟩
      rcases hno with hp | hu
      · exact Or.inl hp
      · exact Or.inr (Or.inl hu)
    · obtain ⟨hp, hu⟩ := not_or.mp hno
      rw [if_neg hno]
      by_cases hdir : dirEntry mem pgdir va &&& PTE_U = 0
      · rw [if_neg fun h => h.2.1 hdir]
        constructor
        · intro hzero
          refine ⟨hpresent, Or.inr (Or.inr ⟨hdir, ?_⟩)⟩
          have hsum : pteAddr (tableEntry mem pgdir va) + KERNBASE = KERNBASE + KERNBASE := hzero
          exact (UInt32.add_left_inj KERNBASE).mp hsum
        · rintro ⟨-, hp' | hu' | ⟨-, hframe⟩⟩
          · exact absurd hp' hp
          · exact absurd hu' hu
          · rw [hframe]
            rfl
      · rw [if_pos ⟨⟨hpresent, hp⟩, hdir, hu⟩]
        refine iff_of_false (p2v_ne_byte _ va) ?_
        rintro ⟨-, hp' | hu' | ⟨hdir', -⟩⟩
        · exact hp hp'
        · exact hu hu'
        · exact hdir hdir'

/-- A directory at 0x80100000 with one table, at 0x101000, whose entry 4 maps the
page at 0x4000 to the frame 0x7000. -/
def onePage : Words := fun a =>
  if a = 0x80100000 then 0x101007
  else if a = 0x80101010 then 0x7007
  else 0

/-- A byte of the page gets the kernel address of the page, and an address without a
page table a read through `NULL`. -/
theorem va2pa_onePage :
    sysVa2pa onePage 0x80100000 0x4020 ≠ some (physAddr onePage 0x80100000 0x4020).toInt32 ∧
      sysVa2pa onePage 0x80100000 0x4020 = some (0x80007000 : UInt32).toInt32 ∧
      physAddr onePage 0x80100000 0x4020 = 0x7020 ∧
      sysVa2pa onePage 0x80100000 0x40000000 = none := by
  decide

end Va2pa
end Kthreads
end CS444
