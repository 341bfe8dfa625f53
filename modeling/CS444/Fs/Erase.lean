/-
Emptying a file.

`itrunc` gives back the blocks of one file.  `Erased` says what that comes to:
the file has no block left, and the mark of every block that was not one of its
own is what it was.  Blocks of other files are among those, as no block serves
two purposes, so the disk stays laid out, with the file empty, `Laid.empty`.
-/
import CS444.Fs.Layout

namespace CS444
namespace Fs

open Bytes Program

variable {bitmap bitmap' : Nat → Bool} {block : Nat → Mem} {D : Nat → Dinode}
  {s s₁ s' : Kernel} {ip : Slot} {b i j n N : Nat} {list : List Nat} {u : Unit}

/-! ## Blocks given back -/

theorem bfree_ok (hrun : (bfree b).run s = .ok (u, s')) :
    s.bitmap b = true ∧ s' = { s with bitmap := Function.update s.bitmap b false } := by
  rw [bfree, Prog.get_bind_run] at hrun
  split at hrun
  · exact absurd hrun (by simp)
  · rename_i hused
    exact ⟨Bool.eq_true_of_not_eq_false hused, (Prog.modify_ok.mp hrun).symm⟩

/-- The marks of blocks that `own` does not have are as they were, and of the rest only
the block map of `ip` may differ. -/
structure GivesBack (s : Kernel) (ip : Slot) (own : Nat → Prop) (s' : Kernel) : Prop where
  bitmap : ∀ b, ¬ own b → s'.bitmap b = s.bitmap b
  entry : s'.inode ip = { s.inode ip with addrs := (s'.inode ip).addrs }
  others : ∀ k, k ≠ ip → s'.inode k = s.inode k
  sb : s'.sb = s.sb
  block : s'.block = s.block
  dinode : s'.dinode = s.dinode
  tables : SameTables s s'
  pages : s'.freePages = s.freePages

variable {own : Nat → Prop}

theorem GivesBack.refl (s : Kernel) (ip : Slot) (own : Nat → Prop) : GivesBack s ip own s := by
  constructor
  case tables => exact .refl s
  all_goals intros; rfl

theorem GivesBack.trans (hab : GivesBack s ip own s₁) (hbc : GivesBack s₁ ip own s') :
    GivesBack s ip own s' := by
  constructor
  case bitmap => exact fun b hb => (hbc.bitmap b hb).trans (hab.bitmap b hb)
  case entry => rw [hbc.entry, hab.entry]
  case others => exact fun k hk => (hbc.others k hk).trans (hab.others k hk)
  case sb => exact hbc.sb.trans hab.sb
  case block => exact hbc.block.trans hab.block
  case dinode => exact hbc.dinode.trans hab.dinode
  case tables => exact hab.tables.trans hbc.tables
  case pages => exact hbc.pages.trans hab.pages

theorem bfree_givesBack (ip : Slot) (hown : own b) (hrun : (bfree b).run s = .ok (u, s')) :
    GivesBack s ip own s' := by
  obtain ⟨-, rfl⟩ := bfree_ok hrun
  constructor
  case bitmap =>
    intro c hc
    apply Function.update_of_ne
    rintro rfl
    exact hc hown
  case tables => exact ⟨rfl, rfl, rfl, rfl, rfl, rfl⟩
  all_goals intros; rfl

theorem givesBack_addrs (addrs : Nat → Nat) :
    GivesBack s ip own (withInode s ip { s.inode ip with addrs := addrs }) := by
  constructor
  case entry => rw [withInode_self]
  case others => exact fun k hk => withInode_of_ne hk
  case tables => exact withInode_tables _
  all_goals intros; rfl

/-- The first loop gives back the direct blocks of `list` and clears their entries. -/
theorem truncDirect_givesBack
    (hown : ∀ i, i ∈ list → (s.inode ip).addrs i ≠ 0 → own ((s.inode ip).addrs i))
    (hrun : (truncDirect ip list).run s = .ok (u, s')) :
    GivesBack s ip own s' ∧ (∀ i, i ∈ list → (s'.inode ip).addrs i = 0) ∧
      ∀ i, i ∉ list → (s'.inode ip).addrs i = (s.inode ip).addrs i := by
  induction list generalizing s with
  | nil =>
      obtain ⟨-, rfl⟩ := Prog.pure_ok.mp hrun
      exact ⟨.refl .., by simp, fun _ _ => rfl⟩
  | cons a rest ih =>
      rw [truncDirect, inodeAt_bind_run] at hrun
      by_cases hzero : (s.inode ip).addrs a = 0
      · rw [if_pos hzero] at hrun
        obtain ⟨hgives, hall, hother⟩ := ih (fun i hi => hown i (List.mem_cons_of_mem a hi)) hrun
        refine ⟨hgives, fun i hi => ?_, fun i hi => hother i fun h => hi (List.mem_cons_of_mem a h)⟩
        by_cases hmem : i ∈ rest
        · exact hall i hmem
        · rw [hother i hmem, (List.mem_cons.mp hi).resolve_right hmem]
          exact hzero
      · rw [if_neg hzero, Prog.bind_ok] at hrun
        obtain ⟨_, s₁, hfree, hrun⟩ := hrun
        have hone := bfree_givesBack ip (hown a List.mem_cons_self hzero) hfree
        have hentry : s₁.inode = s.inode := by
          obtain ⟨-, rfl⟩ := bfree_ok hfree
          rfl
        rw [setInode_bind_run] at hrun
        have haddrs : ∀ i, ((withInode s₁ ip { s₁.inode ip with
            addrs := Function.update (s₁.inode ip).addrs a 0 }).inode ip).addrs i =
            if i = a then 0 else (s.inode ip).addrs i := by
          intro i
          rw [withInode_self, hentry]
          exact Function.update_apply ..
        have hown' : ∀ i, i ∈ rest → ((withInode s₁ ip { s₁.inode ip with
            addrs := Function.update (s₁.inode ip).addrs a 0 }).inode ip).addrs i ≠ 0 →
            own (((withInode s₁ ip { s₁.inode ip with
              addrs := Function.update (s₁.inode ip).addrs a 0 }).inode ip).addrs i) := by
          intro i hi
          rw [haddrs]
          by_cases hia : i = a
          · rw [if_pos hia]
            exact fun h => absurd rfl h
          · rw [if_neg hia]
            exact hown i (List.mem_cons_of_mem a hi)
        obtain ⟨hgives, hall, hother⟩ := ih hown' hrun
        refine ⟨(hone.trans (givesBack_addrs _)).trans hgives, fun i hi => ?_, fun i hi => ?_⟩
        · by_cases hmem : i ∈ rest
          · exact hall i hmem
          · rw [hother i hmem, haddrs, if_pos ((List.mem_cons.mp hi).resolve_right hmem)]
        · rw [List.mem_cons, not_or] at hi
          rw [hother i hi.2, haddrs, if_neg hi.1]

/-- The second loop gives back the blocks of `list`. -/
theorem truncIndirect_givesBack (ip : Slot) (hown : ∀ a, a ∈ list → a ≠ 0 → own a)
    (hrun : (truncIndirect list).run s = .ok (u, s')) :
    GivesBack s ip own s' ∧ s'.inode = s.inode := by
  induction list generalizing s with
  | nil =>
      obtain ⟨-, rfl⟩ := Prog.pure_ok.mp hrun
      exact ⟨.refl .., rfl⟩
  | cons a rest ih =>
      have hrest : ∀ c, c ∈ rest → c ≠ 0 → own c := fun c hc => hown c (List.mem_cons_of_mem a hc)
      rw [truncIndirect] at hrun
      by_cases hzero : a = 0
      · rw [if_pos hzero] at hrun
        exact ih hrest hrun
      · rw [if_neg hzero, Prog.bind_ok] at hrun
        obtain ⟨_, s₁, hfree, hrun⟩ := hrun
        obtain ⟨hgives, hsame⟩ := ih hrest hrun
        refine ⟨(bfree_givesBack ip (hown a List.mem_cons_self hzero) hfree).trans hgives, ?_⟩
        obtain ⟨-, rfl⟩ := bfree_ok hfree
        exact hsame

/-- A block of the file `ip`. -/
def OwnBlock (s : Kernel) (ip : Slot) (b : Nat) : Prop :=
  b ≠ 0 ∧ ∃ i, i ≤ MAXFILE ∧ place s.block (s.inode ip).addrs i = b

/-- The file was emptied: its blocks are given back, and the inode was written. -/
structure Erased (s : Kernel) (ip : Slot) (s' : Kernel) : Prop where
  bitmap : ∀ b, ¬ OwnBlock s ip b → s'.bitmap b = s.bitmap b
  entry : s'.inode ip = { s.inode ip with size := 0, addrs := (s'.inode ip).addrs }
  empty : ∀ i, i ≤ NDIRECT → (s'.inode ip).addrs i = 0
  others : ∀ k, k ≠ ip → s'.inode k = s.inode k
  sb : s'.sb = s.sb
  block : s'.block = s.block
  disk : s'.dinode (s.inode ip).inum = (s'.inode ip).disk
  dinode : ∀ n, n ≠ (s.inode ip).inum → s'.dinode n = s.dinode n
  tables : SameTables s s'
  pages : s'.freePages = s.freePages

theorem itrunc_erased (hrun : (itrunc ip).run s = .ok (u, s')) : Erased s ip s' := by
  rw [itrunc, Prog.bind_ok] at hrun
  obtain ⟨_, s₁, hdirect, hrun⟩ := hrun
  rw [inodeAt_bind_run, Prog.bind_ok] at hrun
  obtain ⟨_, s₂, hindirect, hrun⟩ := hrun
  rw [setInode_bind_run] at hrun
  obtain rfl := iupdate_ok.mp hrun
  have hown₁ : ∀ i, i ∈ List.range NDIRECT → (s.inode ip).addrs i ≠ 0 →
      OwnBlock s ip ((s.inode ip).addrs i) := by
    intro i hi hne
    have hlt := List.mem_range.mp hi
    refine ⟨hne, i, ?_, place_direct hlt⟩
    simp only [MAXFILE]
    omega
  obtain ⟨hgives₁, hzero₁, hkept₁⟩ := truncDirect_givesBack hown₁ hdirect
  have hind : (s₁.inode ip).addrs NDIRECT = (s.inode ip).addrs NDIRECT :=
    hkept₁ NDIRECT (by simp)
  have hgives₂ : GivesBack s₁ ip (OwnBlock s ip) s₂ ∧ (s₂.inode ip).addrs NDIRECT = 0 ∧
      ∀ i, i < NDIRECT → (s₂.inode ip).addrs i = (s₁.inode ip).addrs i := by
    rw [Prog.when_ok] at hindirect
    rcases hindirect with ⟨hne, hindirect⟩ | ⟨hzero, rfl⟩
    · rw [Prog.get_bind_run, Prog.bind_ok] at hindirect
      obtain ⟨_, s₃, hloop, hindirect⟩ := hindirect
      rw [Prog.bind_ok] at hindirect
      obtain ⟨_, s₄, hfree, hindirect⟩ := hindirect
      obtain rfl := setInode_ok.mp hindirect
      rw [hind, hgives₁.block] at hloop
      rw [hind] at hne hfree
      have hown₂ : ∀ a, a ∈ (List.range NINDIRECT).map (fun j =>
          load (s.block ((s.inode ip).addrs NDIRECT)) (4 * j) 4) → a ≠ 0 →
          OwnBlock s ip a := by
        intro a ha ha0
        obtain ⟨j, hj, rfl⟩ := List.mem_map.mp ha
        have hj := List.mem_range.mp hj
        refine ⟨ha0, NDIRECT + j, by simp only [MAXFILE]; omega, ?_⟩
        rw [place_through (by omega) (by simp only [MAXFILE]; omega), if_neg hne,
          Nat.add_sub_cancel_left]
      obtain ⟨hgives₃, hsame₃⟩ := truncIndirect_givesBack ip hown₂ hloop
      have hgives₄ : GivesBack s₃ ip (OwnBlock s ip) s₄ :=
        bfree_givesBack ip ⟨hne, MAXFILE, Nat.le_refl _, place_indirect⟩ hfree
      have hsame₄ : s₄.inode = s₁.inode := by
        obtain ⟨-, rfl⟩ := bfree_ok hfree
        exact hsame₃
      refine ⟨(hgives₃.trans hgives₄).trans (givesBack_addrs _), ?_, fun i hi => ?_⟩
      · rw [withInode_self]
        show Function.update (s₄.inode ip).addrs NDIRECT 0 NDIRECT = 0
        rw [Function.update_self]
      · rw [withInode_self, hsame₄]
        show Function.update (s₁.inode ip).addrs NDIRECT 0 i = (s₁.inode ip).addrs i
        rw [Function.update_of_ne (Nat.ne_of_lt hi)]
    · exact ⟨.refl .., not_not.mp hzero, fun _ _ => rfl⟩
  obtain ⟨hgives₂, hzero₂, hkept₂⟩ := hgives₂
  have hgives := hgives₁.trans hgives₂
  have hinum : (s₂.inode ip).inum = (s.inode ip).inum := by rw [hgives.entry]
  constructor
  case bitmap => exact hgives.bitmap
  case entry =>
    simp only [updated, withInode_self]
    rw [hgives.entry]
  case empty =>
    intro i hi
    simp only [updated, withInode_self]
    by_cases hlt : i < NDIRECT
    · rw [hkept₂ i hlt, hzero₁ i (List.mem_range.mpr hlt)]
    · obtain rfl : i = NDIRECT := by omega
      exact hzero₂
  case others =>
    intro k hk
    simp only [updated, withInode_of_ne hk]
    exact hgives.others k hk
  case sb => exact hgives.sb
  case block => exact hgives.block
  case disk =>
    simp only [updated, withInode_self, hinum, Function.update_self]
    rfl
  case dinode =>
    intro n hn
    simp only [updated, withInode_self, hinum, Function.update_of_ne hn, withInode_dinode]
    rw [hgives.dinode]
  case tables => exact hgives.tables.trans ⟨rfl, rfl, rfl, rfl, rfl, rfl⟩
  case pages => exact hgives.pages

/-! ## The disk afterwards -/

/-- A file without blocks. -/
theorem place_empty {addrs : Nat → Nat} (h : ∀ i, i ≤ NDIRECT → addrs i = 0) (hi : i ≤ MAXFILE) :
    place block addrs i = 0 := by
  by_cases hdirect : i < NDIRECT
  · rw [place_direct hdirect, h i hdirect.le]
  · by_cases hmax : i = MAXFILE
    · rw [hmax, place_indirect, h NDIRECT (Nat.le_refl _)]
    · rw [place_through (by omega) (by omega), if_pos (h NDIRECT (Nat.le_refl _))]

/-- The blocks of one file became free, and it has none left. -/
theorem Laid.empty {d : Dinode} (hl : Laid bitmap block D) (hN : (D N).type ≠ 0)
    (hkept : ∀ b, ¬(b ≠ 0 ∧ ∃ i, i ≤ MAXFILE ∧ place block (D N).addrs i = b) →
      bitmap' b = bitmap b) (hempty : ∀ i, i ≤ NDIRECT → d.addrs i = 0) :
    Laid bitmap' block (Function.update D N d) := by
  have hzero : bitmap' 0 = true := by
    rw [hkept 0 fun h => h.1 rfl]
    exact hl.boot
  have hself : ∀ i, i ≤ MAXFILE → place block (Function.update D N d N).addrs i = 0 := by
    intro i hi
    rw [Function.update_self]
    exact place_empty hempty hi
  constructor
  case boot => exact hzero
  case used =>
    intro n i htype hi
    by_cases hn : n = N
    · rw [hn, hself i hi]
      exact hzero
    · rw [Function.update_of_ne hn] at htype ⊢
      rw [hkept]
      · exact hl.used n i htype hi
      · intro hown
        obtain ⟨hne, j, hj, heq⟩ := hown
        exact hn (hl.apart n N i j htype hN hi hj hne heq.symm).1
  case apart =>
    intro n m i j hn hm hi hj hne heq
    by_cases hnN : n = N
    · rw [hnN, hself i hi] at hne
      exact absurd rfl hne
    · by_cases hmN : m = N
      · rw [hmN, hself j hj] at heq
        exact absurd heq hne
      · rw [Function.update_of_ne hnN] at hn hne heq
        rw [Function.update_of_ne hmN] at hm heq
        exact hl.apart n m i j hn hm hi hj hne heq

end Fs
end CS444
