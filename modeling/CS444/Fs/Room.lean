/-
Blocks enough to write a file.

A file of `MAXFILE` blocks needs `MAXFILE + 1` of them, the indirect block
included.  With as many free blocks on the disk as the file does not have yet,
`Room`, no write to it runs out, and there is still room after it: each block
that is taken is one that is no longer missing.
-/
import CS444.Fs.Writes
import Mathlib.Data.Nat.Count

namespace CS444
namespace Fs

open Bytes Program

variable {s s₁ s' : Kernel} {ip : Slot} {off i j bn b : Nat} {src : Str}
  {block : Nat → Mem} {addrs : Nat → Nat}

/-! ## Counting -/

/-- The blocks marked free. -/
def freeBlocks (s : Kernel) : Nat := Nat.count (fun b => s.bitmap b = false) s.sb.size

/-- The blocks a file does not have. -/
def missing (block : Nat → Mem) (addrs : Nat → Nat) : Nat :=
  Nat.count (fun i => place block addrs i = 0) (MAXFILE + 1)

/-- The disk has as many free blocks as the file may still need. -/
def Room (s : Kernel) (ip : Slot) : Prop := missing s.block (s.inode ip).addrs ≤ freeBlocks s

theorem count_remove {p q : Nat → Prop} [DecidablePred p] [DecidablePred q] {n : Nat} (hb : b < n)
    (hp : p b) (h : ∀ i, i < n → (q i ↔ p i ∧ i ≠ b)) : Nat.count q n + 1 = Nat.count p n := by
  rw [Nat.count_eq_card_filter_range, Nat.count_eq_card_filter_range]
  have hmem : b ∈ (Finset.range n).filter p := by
    rw [Finset.mem_filter, Finset.mem_range]
    exact ⟨hb, hp⟩
  have herase : (Finset.range n).filter q = ((Finset.range n).filter p).erase b := by
    ext i
    rw [Finset.mem_erase, Finset.mem_filter, Finset.mem_filter, Finset.mem_range]
    constructor
    · intro hi
      obtain ⟨hp, hne⟩ := (h i hi.1).mp hi.2
      exact ⟨hne, hi.1, hp⟩
    · intro hi
      exact ⟨hi.2.1, (h i hi.2.1).mpr ⟨hi.2.2, hi.1⟩⟩
  rw [herase, Finset.card_erase_add_one hmem]

theorem exists_of_count_pos {p : Nat → Prop} [DecidablePred p] {n : Nat}
    (h : 0 < Nat.count p n) : ∃ i, i < n ∧ p i := by
  rw [Nat.count_eq_card_filter_range, Finset.card_pos] at h
  obtain ⟨i, hi⟩ := h
  rw [Finset.mem_filter, Finset.mem_range] at hi
  exact ⟨i, hi⟩

/-- A file that lacks a block has room for it. -/
theorem Room.free (hr : Room s ip) (hj : j ≤ MAXFILE)
    (hzero : place s.block (s.inode ip).addrs j = 0) : ∃ b, b < s.sb.size ∧ s.bitmap b = false := by
  have hmissing : 0 < missing s.block (s.inode ip).addrs := by
    apply Nat.pos_of_ne_zero
    intro h0
    have hcount := count_remove (q := fun i => place s.block (s.inode ip).addrs i = 0 ∧ i ≠ j)
      (Nat.lt_succ_of_le hj) hzero fun i _ => Iff.rfl
    have hpos : 0 < missing s.block (s.inode ip).addrs := by
      unfold missing
      rw [← hcount]
      exact Nat.succ_pos _
    omega
  apply exists_of_count_pos
  unfold Room freeBlocks at hr
  omega

theorem Room.alloc (hr : Room s ip) (hfree : s.bitmap b = false) (hlow : b < s.sb.size)
    (hne : b ≠ 0) (hbitmap : s'.bitmap = Function.update s.bitmap b true) (hsb : s'.sb = s.sb)
    (hj : j ≤ MAXFILE) (hzero : place s.block (s.inode ip).addrs j = 0)
    (hplace : ∀ i, i ≤ MAXFILE → place s'.block (s'.inode ip).addrs i =
      if i = j then b else place s.block (s.inode ip).addrs i) : Room s' ip := by
  have hblocks : freeBlocks s' + 1 = freeBlocks s := by
    unfold freeBlocks
    rw [hsb]
    refine count_remove hlow hfree fun i _ => ?_
    rw [hbitmap]
    by_cases hib : i = b
    · rw [hib, Function.update_self]
      simp
    · rw [Function.update_of_ne hib]
      exact (and_iff_left hib).symm
  have hplaces : missing s'.block (s'.inode ip).addrs + 1 =
      missing s.block (s.inode ip).addrs := by
    refine count_remove (Nat.lt_succ_of_le hj) hzero fun i hi => ?_
    rw [hplace i (by omega)]
    by_cases hij : i = j
    · rw [if_pos hij]
      exact iff_of_false hne fun h => h.2 hij
    · rw [if_neg hij]
      exact (and_iff_left hij).symm
  unfold Room at hr ⊢
  omega

theorem Room.congr (hr : Room s ip) (hsb : s'.sb = s.sb) (hbitmap : s'.bitmap = s.bitmap)
    (hplace : place s'.block (s'.inode ip).addrs = place s.block (s.inode ip).addrs) :
    Room s' ip := by
  unfold Room missing freeBlocks at hr ⊢
  rw [hsb, hbitmap, hplace]
  exact hr

/-! ## Taking blocks -/

theorem balloc_returns (h : ∃ b, b < s.sb.size ∧ s.bitmap b = false) :
    ∃ b s', balloc.run s = .ok (b, s') := by
  obtain ⟨c, hlow, hfree⟩ := h
  rw [balloc, Prog.get_bind_run]
  cases hfind : (List.range s.sb.size).find? fun b => !s.bitmap b with
  | none =>
      have := List.find?_eq_none.mp hfind c (List.mem_range.mpr hlow)
      simp [hfree] at this
  | some b => exact ⟨b, _, rfl⟩

/-- What a run leaves for the next: room for the file, and as many pages. -/
structure Roomy (s : Kernel) (ip : Slot) (s' : Kernel) : Prop where
  room : Room s' ip
  pages : s'.freePages = s.freePages

theorem Roomy.trans (hab : Roomy s ip s₁) (hbc : Roomy s₁ ip s') : Roomy s ip s' :=
  ⟨hbc.room, hbc.pages.trans hab.pages⟩

theorem indirectBlock_returns (hl : Laid s.bitmap s.block (view s ip))
    (hr : Room s ip) :
    ∃ b s', (indirectBlock ip).run s = .ok (b, s') ∧ Roomy s ip s' := by
  rw [indirectBlock, inodeAt_bind_run]
  by_cases hzero : (s.inode ip).addrs NDIRECT = 0
  · have hnone : place s.block (s.inode ip).addrs MAXFILE = 0 := by
      rw [place_indirect]
      exact hzero
    obtain ⟨b, s₁, halloc⟩ := balloc_returns (hr.free (Nat.le_refl _) hnone)
    rw [if_pos hzero, Prog.bind_eq halloc, setInode_bind_run, Prog.pure_run]
    refine ⟨b, _, rfl, ?_, ?_⟩
    · obtain ⟨hfree, hlow, rfl⟩ := balloc_ok halloc
      refine hr.alloc (j := MAXFILE) hfree hlow (hl.fresh_ne_zero hfree) rfl rfl (Nat.le_refl _)
        hnone fun i hi => ?_
      rw [withInode_self]
      have hind : (s.inode ip).addrs NDIRECT ≠ b := by
        rw [hzero]
        exact (hl.fresh_ne_zero hfree).symm
      refine (place_update hind hzero (Nat.le_refl NDIRECT) hi).trans ?_
      rw [if_pos rfl]
    · obtain ⟨-, -, rfl⟩ := balloc_ok halloc
      rfl
  · rw [if_neg hzero]
    exact ⟨_, _, rfl, hr, rfl⟩

/-- `bmap` finds room for a block that is not there. -/
theorem bmap_returns (hl : Laid s.bitmap s.block (view s ip)) (htype : (s.inode ip).type ≠ 0)
    (hsize : s.sb.size ≤ 2 ^ 32) (hlt : bn < MAXFILE) (hr : Room s ip) :
    ∃ b s', (bmap ip bn).run s = .ok (b, s') ∧ Roomy s ip s' := by
  rw [bmap, inodeAt_bind_run]
  by_cases hdirect : bn < NDIRECT
  · rw [if_pos hdirect]
    by_cases hzero : (s.inode ip).addrs bn = 0
    · have hnone : place s.block (s.inode ip).addrs bn = 0 := by
        rw [place_direct hdirect]
        exact hzero
      obtain ⟨b, s₁, halloc⟩ := balloc_returns (hr.free hlt.le hnone)
      rw [if_pos hzero, Prog.bind_eq halloc, setInode_bind_run, Prog.pure_run]
      obtain ⟨hfree, hlow, rfl⟩ := balloc_ok halloc
      refine ⟨b, _, rfl, ?_, rfl⟩
      have hN : (view s ip (s.inode ip).inum).type ≠ 0 := by
        rw [view_self]
        exact htype
      have hind : (s.inode ip).addrs NDIRECT ≠ b := by
        have := hl.fresh hfree hN (Nat.le_refl MAXFILE)
        rwa [view_self, place_indirect] at this
      refine hr.alloc hfree hlow (hl.fresh_ne_zero hfree) rfl rfl hlt.le hnone fun i hi => ?_
      rw [withInode_self]
      refine (place_update hind hzero hdirect.le hi).trans ?_
      rw [if_neg (show bn ≠ NDIRECT by omega)]
    · rw [if_neg hzero]
      exact ⟨_, _, rfl, hr, rfl⟩
  · have hin : bn - NDIRECT < NINDIRECT := by
      simp only [MAXFILE] at hlt
      omega
    rw [if_neg hdirect, if_pos hin]
    simp only
    obtain ⟨ind, s₁, hblock, hr₁⟩ := indirectBlock_returns hl hr
    obtain ⟨hremapped, rfl, hind⟩ := indirectBlock_spec bn hl htype hblock
    have htype₁ : (s₁.inode ip).type ≠ 0 := by
      rw [hremapped.entry]
      exact htype
    have hplace : place s₁.block (s₁.inode ip).addrs bn =
        load (s₁.block ((s₁.inode ip).addrs NDIRECT)) (4 * (bn - NDIRECT)) 4 := by
      rw [place_through (by omega) hlt, if_neg hind]
    rw [Prog.bind_eq hblock, indirectAt, Prog.gets_bind_run, ← hplace]
    by_cases hzero : place s₁.block (s₁.inode ip).addrs bn = 0
    · obtain ⟨b, s₂, halloc⟩ := balloc_returns (hr₁.room.free hlt.le hzero)
      rw [if_pos hzero, Prog.bind_eq halloc, Prog.modify_bind_run, Prog.pure_run]
      obtain ⟨hfree, hlow, rfl⟩ := balloc_ok halloc
      refine ⟨b, _, rfl, hr₁.trans ⟨?_, rfl⟩⟩
      have hN : (view s₁ ip (s₁.inode ip).inum).type ≠ 0 := by
        rw [view_self]
        exact htype₁
      have hne : (s₁.inode ip).addrs NDIRECT ≠ b := by
        have := hremapped.laid.fresh hfree hN (Nat.le_refl MAXFILE)
        rwa [view_self, place_indirect] at this
      have hsize₁ : s₁.sb.size ≤ 2 ^ 32 := by
        rw [hremapped.sb]
        exact hsize
      refine hr₁.room.alloc hfree hlow (hremapped.laid.fresh_ne_zero hfree) rfl rfl hlt.le hzero
        fun i hi => ?_
      exact place_store hne hind (by omega) (by omega) hlt hi
    · rw [if_neg hzero]
      exact ⟨_, _, rfl, hr₁⟩

theorem writeLoop_returns {fuel : Nat} (hl : Laid s.bitmap s.block (view s ip))
    (htype : (s.inode ip).type ≠ 0) (hsize : s.sb.size ≤ 2 ^ 32)
    (hend : off + src.length ≤ MAXFILE * BSIZE) (hr : Room s ip) :
    ∃ r s', (writeLoop ip fuel off src).run s = .ok (r, s') ∧ Roomy s ip s' := by
  induction fuel generalizing s off src with
  | zero => exact ⟨_, _, rfl, hr, rfl⟩
  | succ fuel ih =>
      rw [writeLoop]
      by_cases hnil : src = []
      · rw [if_pos hnil]
        exact ⟨_, _, rfl, hr, rfl⟩
      · have hpos := List.length_pos_iff.mpr hnil
        have hmod := Nat.mod_lt off (show 0 < BSIZE by decide)
        have hlt : off / BSIZE < MAXFILE := by
          simp only [BSIZE] at *
          omega
        obtain ⟨b, s₁, hmap, hr₁⟩ := bmap_returns hl htype hsize hlt hr
        obtain ⟨hremapped, hne, hb⟩ := bmap_spec hl htype hsize hlt hmap
        rw [if_neg hnil, Prog.bind_eq hmap, Prog.modify_bind_run]
        generalize hm : min src.length (BSIZE - off % BSIZE) = m
        have hlen : (src.take m).length = m := by
          rw [List.length_take]
          omega
        have hone : Written s ip off (src.take m) _ :=
          hremapped.written htype hb hne rfl hlt (by omega)
        have hdrop : (src.drop m).length = src.length - m := List.length_drop
        have hroom : Room { s₁ with
            block := Function.update s₁.block b
              (patch (s₁.block b) (off % BSIZE) (src.take m)) } ip :=
          hr₁.room.congr rfl rfl (hremapped.place_data htype hb hne hlt _)
        have hend' : off + m + (src.drop m).length ≤ MAXFILE * BSIZE := by omega
        obtain ⟨r, s', hrun, hr'⟩ := ih hone.laid (by rw [hone.entry]; exact htype)
          (by rw [hone.sb]; exact hsize) hend' hroom
        exact ⟨r, s', hrun, hr'.room, hr'.pages.trans hr₁.pages⟩

/-- `writei` returns, for a file that is not the console. -/
theorem writei_returns (hs : Sound s) (hu : InUse s ip) (hdev : (s.inode ip).type ≠ T_DEV)
    (hend : off + src.length ≤ MAXFILE * BSIZE) (hr : Room s ip) :
    ∃ r s', (writei ip src off).run s = .ok (r, s') ∧ Roomy s ip s' := by
  obtain ⟨hclean, htype⟩ := hs.toCoherent.typed hu
  have hlaid : Laid s.bitmap s.block (view s ip) := by
    rw [view_of_clean hclean]
    exact hs.laid
  rw [writei, inodeAt_bind_run, if_neg hdev]
  by_cases hoff : off > (s.inode ip).size ∨ uint (off + src.length) < off
  · rw [if_pos hoff]
    exact ⟨_, _, rfl, hr, rfl⟩
  · rw [if_neg hoff]
    by_cases hmax : uint (off + src.length) > MAXFILE * BSIZE
    · rw [if_pos hmax]
      exact ⟨_, _, rfl, hr, rfl⟩
    · obtain ⟨r, s₁, hloop, hr₁⟩ : ∃ r s₁, (writeLoop ip src.length off src).run s =
          .ok (r, s₁) ∧ Roomy s ip s₁ := writeLoop_returns hlaid htype hs.small hend hr
      rw [if_neg hmax, Prog.bind_eq hloop, inodeAt_bind_run]
      by_cases hgrow : 0 < src.length ∧ r > (s₁.inode ip).size
      · rw [Prog.when, if_pos hgrow]
        refine ⟨_, _, rfl, hr₁.room.congr rfl rfl ?_, hr₁.pages⟩
        show place s₁.block _ = _
        simp
      · rw [Prog.when, if_neg hgrow]
        exact ⟨_, _, rfl, hr₁⟩

end Fs
end CS444
