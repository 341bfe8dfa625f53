/-
Where files keep their blocks.

`place` is the block map of a file, the indirect block included as number
`MAXFILE`.  In a disk that is `Laid` out no block serves two purposes and every
block in use is marked, so a block that `balloc` finds free is nobody's, and
giving it to a file changes the place of one block of that file, `Laid.alloc`.
`bmap_spec` says that this is what `bmap` does.
-/
import CS444.Fs.Walks

namespace CS444
namespace Fs

open Bytes Program

variable {bitmap : Nat → Bool} {block block' : Nat → Mem} {addrs addrs' : Nat → Nat}
  {D : Nat → Dinode} {s s₁ s' : Kernel} {ip : Slot} {b i j n N bn : Nat}

/-- The block in which a file keeps its block `i`; the indirect block is number
`MAXFILE`. -/
def place (block : Nat → Mem) (addrs : Nat → Nat) (i : Nat) : Nat :=
  if i = MAXFILE then addrs NDIRECT else blockOf block addrs i

/-- No block serves two purposes, and the blocks in use are marked. -/
structure Laid (bitmap : Nat → Bool) (block : Nat → Mem) (D : Nat → Dinode) : Prop where
  boot : bitmap 0 = true
  used : ∀ n i, (D n).type ≠ 0 → i ≤ MAXFILE → bitmap (place block (D n).addrs i) = true
  apart : ∀ n m i j, (D n).type ≠ 0 → (D m).type ≠ 0 → i ≤ MAXFILE → j ≤ MAXFILE →
    place block (D n).addrs i ≠ 0 → place block (D n).addrs i = place block (D m).addrs j →
      n = m ∧ i = j

theorem place_of_lt (hbn : bn < MAXFILE) : place block addrs bn = blockOf block addrs bn :=
  if_neg (Nat.ne_of_lt hbn)

@[simp] theorem place_indirect : place block addrs MAXFILE = addrs NDIRECT := if_pos rfl

theorem place_direct (hi : i < NDIRECT) : place block addrs i = addrs i := by
  rw [place_of_lt (by simp only [MAXFILE, NDIRECT, NINDIRECT] at *; omega), blockOf, if_pos hi]

theorem place_through (hi : NDIRECT ≤ i) (hlt : i < MAXFILE) : place block addrs i =
    if addrs NDIRECT = 0 then 0 else load (block (addrs NDIRECT)) (4 * (i - NDIRECT)) 4 := by
  rw [place_of_lt hlt, blockOf, if_neg (by omega)]

/-- Block maps depend on the indirect block only. -/
theorem place_congr (h : addrs NDIRECT ≠ 0 → block' (addrs NDIRECT) = block (addrs NDIRECT)) :
    place block' addrs = place block addrs := by
  funext i
  unfold place blockOf
  by_cases hzero : addrs NDIRECT = 0
  · simp only [hzero, if_true]
  · rw [h hzero]

/-- A free block is nobody's. -/
theorem Laid.fresh (hl : Laid bitmap block D) (hfree : bitmap b = false) (hn : (D n).type ≠ 0)
    (hi : i ≤ MAXFILE) : place block (D n).addrs i ≠ b := by
  rintro rfl
  exact absurd ((hl.used n i hn hi).symm.trans hfree) (by simp)

theorem Laid.fresh_ne_zero (hl : Laid bitmap block D) (hfree : bitmap b = false) : b ≠ 0 := by
  rintro rfl
  exact absurd (hl.boot.symm.trans hfree) (by simp)

/-- A free block becomes block `j` of the file `N`. -/
theorem Laid.alloc {d : Dinode} (hl : Laid bitmap block D) (hfree : bitmap b = false)
    (hN : (D N).type ≠ 0)
    (hplace : ∀ i, i ≤ MAXFILE →
      place block' d.addrs i = if i = j then b else place block (D N).addrs i)
    (hother : ∀ n, n ≠ N → (D n).type ≠ 0 →
      place block' (D n).addrs = place block (D n).addrs) :
    Laid (Function.update bitmap b true) block' (Function.update D N d) := by
  have hb := hl.fresh_ne_zero hfree
  -- the place of a block of any file, old or new
  have hold : ∀ n i, (Function.update D N d n).type ≠ 0 → i ≤ MAXFILE →
      ((n = N ∧ i = j) ∧ place block' (Function.update D N d n).addrs i = b) ∨
      (D n).type ≠ 0 ∧ ¬(n = N ∧ i = j) ∧
        place block' (Function.update D N d n).addrs i = place block (D n).addrs i := by
    intro n i htype hi
    by_cases hn : n = N
    · subst hn
      rw [Function.update_self, hplace i hi]
      by_cases hij : i = j
      · exact Or.inl ⟨⟨rfl, hij⟩, if_pos hij⟩
      · exact Or.inr ⟨hN, fun h => hij h.2, if_neg hij⟩
    · rw [Function.update_of_ne hn] at htype ⊢
      exact Or.inr ⟨htype, fun h => hn h.1, by rw [hother n hn htype]⟩
  constructor
  case boot =>
    rw [Function.update_of_ne hb.symm]
    exact hl.boot
  case used =>
    intro n i htype hi
    rcases hold n i htype hi with ⟨-, heq⟩ | ⟨hn, -, heq⟩
    · rw [heq, Function.update_self]
    · rw [heq, Function.update_of_ne (hl.fresh hfree hn hi)]
      exact hl.used n i hn hi
  case apart =>
    intro n m i k hn hm hi hk hne heq
    rcases hold n i hn hi with ⟨hnew, hpn⟩ | ⟨hn', -, hpn⟩ <;>
      rcases hold m k hm hk with ⟨hnew', hpm⟩ | ⟨hm', -, hpm⟩
    · exact ⟨hnew.1.trans hnew'.1.symm, hnew.2.trans hnew'.2.symm⟩
    · rw [hpn, hpm] at heq
      exact absurd heq.symm (hl.fresh hfree hm' hk)
    · rw [hpn, hpm] at heq
      exact absurd heq (hl.fresh hfree hn' hi)
    · rw [hpn, hpm] at heq
      rw [hpn] at hne
      exact hl.apart n m i k hn' hm' hi hk hne heq

/-- Only types and block maps matter. -/
theorem Laid.congr {D' : Nat → Dinode} (hl : Laid bitmap block D)
    (h : ∀ n, (D' n).type = (D n).type ∧ (D' n).addrs = (D n).addrs) : Laid bitmap block D' := by
  constructor
  case boot => exact hl.boot
  case used =>
    intro n i hn hi
    rw [(h n).1] at hn
    rw [(h n).2]
    exact hl.used n i hn hi
  case apart =>
    intro n m i j hn hm
    rw [(h n).1] at hn
    rw [(h m).1] at hm
    rw [(h n).2, (h m).2]
    exact hl.apart n m i j hn hm

/-- Writing into blocks that hold no block map. -/
theorem Laid.write (hl : Laid bitmap block D)
    (hsame : ∀ n, (D n).type ≠ 0 → (D n).addrs NDIRECT ≠ 0 →
      block' ((D n).addrs NDIRECT) = block ((D n).addrs NDIRECT)) : Laid bitmap block' D := by
  have hplace : ∀ n, (D n).type ≠ 0 → place block' (D n).addrs = place block (D n).addrs :=
    fun n hn => place_congr (hsame n hn)
  constructor
  case boot => exact hl.boot
  case used =>
    intro n i hn hi
    rw [hplace n hn]
    exact hl.used n i hn hi
  case apart =>
    intro n m i j hn hm
    rw [hplace n hn, hplace m hm]
    exact hl.apart n m i j hn hm

/-! ## Allocation -/

theorem balloc_ok (hrun : balloc.run s = .ok (b, s')) : s.bitmap b = false ∧ b < s.sb.size ∧
    s' = { s with
      bitmap := Function.update s.bitmap b true
      block := Function.update s.block b fun _ => 0 } := by
  rw [balloc, Prog.get_bind_run] at hrun
  split at hrun
  · exact absurd hrun (by simp)
  · rename_i c hfind
    simp only [bzero, Prog.modify_bind_run] at hrun
    obtain ⟨rfl, rfl⟩ := Prog.pure_ok.mp hrun
    refine ⟨by simpa using List.find?_some hfind, ?_, rfl⟩
    exact List.mem_range.mp (List.mem_of_find?_eq_some hfind)

/-- The inodes on the disk, with the one `ip` caches as it is in the cache. -/
def view (s : Kernel) (ip : Slot) : Nat → Dinode :=
  Function.update s.dinode (s.inode ip).inum (s.inode ip).disk

@[simp] theorem view_self : view s ip (s.inode ip).inum = (s.inode ip).disk :=
  Function.update_self ..

theorem view_of_ne (hn : n ≠ (s.inode ip).inum) : view s ip n = s.dinode n :=
  Function.update_of_ne hn ..

theorem view_of_clean (h : (s.inode ip).disk = s.dinode (s.inode ip).inum) :
    view s ip = s.dinode := by
  rw [view, h, Function.update_eq_self]

/-- The block map of `ip` went from that of `s` to that of `s'`, which may have a
place for block `bn` that the other had not; what blocks in use hold is the same,
apart from the indirect block. -/
structure Remapped (s : Kernel) (ip : Slot) (bn : Nat) (s' : Kernel) : Prop where
  laid : Laid s'.bitmap s'.block (view s' ip)
  entry : s'.inode ip = { s.inode ip with addrs := (s'.inode ip).addrs }
  others : ∀ k, k ≠ ip → s'.inode k = s.inode k
  dinode : s'.dinode = s.dinode
  sb : s'.sb = s.sb
  tables : SameTables s s'
  same : ∀ i, i < MAXFILE → i ≠ bn ∨ place s.block (s.inode ip).addrs i ≠ 0 →
    place s'.block (s'.inode ip).addrs i = place s.block (s.inode ip).addrs i
  data : ∀ i, i < MAXFILE → place s.block (s.inode ip).addrs i ≠ 0 →
    s'.block (place s.block (s.inode ip).addrs i) = s.block (place s.block (s.inode ip).addrs i)
  apart : ∀ n i, n ≠ (s.inode ip).inum → (s.dinode n).type ≠ 0 → i ≤ MAXFILE →
    place s.block (s.dinode n).addrs i ≠ 0 →
      s'.block (place s.block (s.dinode n).addrs i) = s.block (place s.block (s.dinode n).addrs i)

theorem Remapped.refl (hl : Laid s.bitmap s.block (view s ip)) (bn : Nat) : Remapped s ip bn s := by
  refine ⟨hl, rfl, fun _ _ => rfl, rfl, rfl, .refl s, ?_, ?_, ?_⟩ <;> intros <;> rfl

theorem Remapped.inum (hg : Remapped s ip bn s') : (s'.inode ip).inum = (s.inode ip).inum := by
  rw [hg.entry]

/-- The places of the other files. -/
theorem Remapped.place_other (hg : Remapped s ip bn s') (hn : n ≠ (s.inode ip).inum)
    (htype : (s.dinode n).type ≠ 0) :
    place s'.block (s.dinode n).addrs = place s.block (s.dinode n).addrs := by
  apply place_congr
  intro hzero
  have hkeep := hg.apart n MAXFILE hn htype (Nat.le_refl _)
  rw [place_indirect] at hkeep
  exact hkeep hzero

theorem Remapped.trans (hab : Remapped s ip bn s₁) (hbc : Remapped s₁ ip bn s') :
    Remapped s ip bn s' := by
  constructor
  case laid => exact hbc.laid
  case entry =>
    rw [hbc.entry, hab.entry]
  case others => exact fun k hk => (hbc.others k hk).trans (hab.others k hk)
  case dinode => exact hbc.dinode.trans hab.dinode
  case sb => exact hbc.sb.trans hab.sb
  case tables => exact hab.tables.trans hbc.tables
  case same =>
    intro i hi hor
    have hfirst := hab.same i hi hor
    rw [← hfirst] at hor ⊢
    exact hbc.same i hi hor
  case data =>
    intro i hi hne
    have hfirst := hab.same i hi (Or.inr hne)
    have hsecond := hbc.data i hi (by rw [hfirst]; exact hne)
    rw [hfirst] at hsecond
    exact hsecond.trans (hab.data i hi hne)
  case apart =>
    intro n i hn htype hi hne
    have hplace := hab.place_other hn htype
    have hsecond := hbc.apart n i (by rw [hab.inum]; exact hn) (by rw [hab.dinode]; exact htype) hi
    rw [hab.dinode, hplace] at hsecond
    exact (hsecond hne).trans (hab.apart n i hn htype hi hne)

/-- A free block `b` that became block `j` of the file. -/
theorem remapped_alloc (hl : Laid s.bitmap s.block (view s ip)) (htype : (s.inode ip).type ≠ 0)
    (hfree : s.bitmap b = false) (hbitmap : s'.bitmap = Function.update s.bitmap b true)
    (hentry : s'.inode ip = { s.inode ip with addrs := (s'.inode ip).addrs })
    (hothers : ∀ k, k ≠ ip → s'.inode k = s.inode k) (hdinode : s'.dinode = s.dinode)
    (hsb : s'.sb = s.sb) (htables : SameTables s s')
    (hblock : ∀ c, c ≠ b → c ≠ 0 → c ≠ (s.inode ip).addrs NDIRECT → s'.block c = s.block c)
    (hplace : ∀ i, i ≤ MAXFILE → place s'.block (s'.inode ip).addrs i =
      if i = j then b else place s.block (s.inode ip).addrs i)
    (hzero : place s.block (s.inode ip).addrs j = 0) (hj : j = bn ∨ j = MAXFILE) :
    Remapped s ip bn s' := by
  have hself : (view s ip (s.inode ip).inum) = (s.inode ip).disk := view_self
  have hN : (view s ip (s.inode ip).inum).type ≠ 0 := by
    rw [hself]
    exact htype
  have hfresh : ∀ i, i ≤ MAXFILE → place s.block (s.inode ip).addrs i ≠ b := by
    intro i hi
    have := hl.fresh hfree hN hi
    rwa [hself] at this
  have hkeep : ∀ n i, n ≠ (s.inode ip).inum → (s.dinode n).type ≠ 0 → i ≤ MAXFILE →
      place s.block (s.dinode n).addrs i ≠ 0 →
        s'.block (place s.block (s.dinode n).addrs i) =
          s.block (place s.block (s.dinode n).addrs i) := by
    intro n i hn hn' hi hne
    have hview : view s ip n = s.dinode n := view_of_ne hn
    rw [← hview] at hn' hne ⊢
    refine hblock _ (hl.fresh hfree hn' hi) hne fun heq => hn ?_
    refine (hl.apart n _ i MAXFILE hn' hN hi (Nat.le_refl _) hne ?_).1
    rw [heq, place_indirect, hself]
    rfl
  have hother : ∀ n, n ≠ (s.inode ip).inum → (view s ip n).type ≠ 0 →
      place s'.block (view s ip n).addrs = place s.block (view s ip n).addrs := by
    intro n hn hn'
    rw [view_of_ne hn] at hn' ⊢
    apply place_congr
    intro hne
    have := hkeep n MAXFILE hn hn' (Nat.le_refl _)
    rw [place_indirect] at this
    exact this hne
  constructor
  case laid =>
    have hview : view s' ip = Function.update (view s ip) (s.inode ip).inum (s'.inode ip).disk := by
      rw [view, hdinode, hentry, view, Function.update_idem]
    rw [hview, hbitmap]
    refine hl.alloc (j := j) hfree hN (fun i hi => ?_) hother
    rw [hself]
    exact hplace i hi
  case entry => exact hentry
  case others => exact hothers
  case dinode => exact hdinode
  case sb => exact hsb
  case tables => exact htables
  case same =>
    intro i hi hor
    rw [hplace i hi.le, if_neg]
    rintro rfl
    rcases hj with rfl | rfl
    · exact hor.elim (fun h => h rfl) fun h => h hzero
    · exact absurd hi (Nat.lt_irrefl _)
  case data =>
    intro i hi hne
    refine hblock _ (hfresh i hi.le) hne fun heq => ?_
    have hsame := hl.apart _ _ i MAXFILE hN hN hi.le (Nat.le_refl _)
    rw [hself, place_indirect] at hsame
    exact absurd (hsame hne heq).2 (Nat.ne_of_lt hi)
  case apart => exact hkeep

/-- A file with block `b`, which is empty, as entry `e` of its map. -/
theorem place_update (hne : addrs NDIRECT ≠ b) (hzero : addrs j = 0) (he : j ≤ NDIRECT)
    (hi : i ≤ MAXFILE) :
    place (Function.update block b fun _ => 0) (Function.update addrs j b) i =
      if i = (if j = NDIRECT then MAXFILE else j) then b else place block addrs i := by
  by_cases hi' : i < NDIRECT
  · rw [place_direct hi', place_direct hi']
    by_cases hij : i = j
    · rw [hij, Function.update_self, if_pos]
      rw [if_neg (by omega)]
    · rw [Function.update_of_ne hij, if_neg]
      split
      · simp only [MAXFILE, NDIRECT, NINDIRECT] at *
        omega
      · exact hij
  · by_cases hmax : i = MAXFILE
    · rw [hmax, place_indirect, place_indirect]
      by_cases hj : j = NDIRECT
      · rw [hj, Function.update_self, if_pos rfl, if_pos rfl]
      · rw [Function.update_of_ne (Ne.symm hj), if_neg hj, if_neg]
        simp only [MAXFILE, NDIRECT, NINDIRECT] at *
        omega
    · rw [place_through (by omega) (by omega), place_through (by omega) (by omega)]
      by_cases hj : j = NDIRECT
      · subst hj
        rw [Function.update_self, if_pos rfl, if_neg hmax, if_pos hzero]
        split
        · rfl
        · rw [Function.update_self]
          exact load_zero
      · have hij : i ≠ j := by omega
        rw [Function.update_of_ne (Ne.symm hj), if_neg hj, if_neg hij, Function.update_of_ne hne]

/-- `balloc` for an entry of the block map of `ip`. -/
theorem remapped_entry (hl : Laid s.bitmap s.block (view s ip)) (htype : (s.inode ip).type ≠ 0)
    (he : j ≤ NDIRECT) (hzero : (s.inode ip).addrs j = 0) (hj : j = bn ∨ j = NDIRECT)
    (hrun : balloc.run s = .ok (b, s₁)) :
    b ≠ 0 ∧ Remapped s ip bn (withInode s₁ ip
      { s₁.inode ip with addrs := Function.update (s₁.inode ip).addrs j b }) := by
  obtain ⟨hfree, -, rfl⟩ := balloc_ok hrun
  have hN : (view s ip (s.inode ip).inum).type ≠ 0 := by
    rw [view_self]
    exact htype
  have hind : (s.inode ip).addrs NDIRECT ≠ b := by
    have := hl.fresh hfree hN (Nat.le_refl MAXFILE)
    rwa [view_self, place_indirect] at this
  refine ⟨hl.fresh_ne_zero hfree, ?_⟩
  refine remapped_alloc (j := if j = NDIRECT then MAXFILE else j) hl htype hfree rfl ?_
    (fun k hk => withInode_of_ne hk) rfl rfl ⟨rfl, rfl, rfl, rfl, rfl, rfl⟩
    (fun c hc _ _ => Function.update_of_ne hc ..) (fun i hi => ?_) ?_ ?_
  · rw [withInode_self]
  · rw [withInode_self]
    exact place_update hind hzero he hi
  · split
    · rename_i hj
      rw [place_indirect, ← hj]
      exact hzero
    · rw [place_direct (by omega)]
      exact hzero
  · split
    · exact Or.inr rfl
    · rename_i hne
      exact Or.inl (hj.resolve_right hne)

theorem indirectBlock_spec (bn : Nat) (hl : Laid s.bitmap s.block (view s ip))
    (htype : (s.inode ip).type ≠ 0) (hrun : (indirectBlock ip).run s = .ok (b, s')) :
    Remapped s ip bn s' ∧ b = (s'.inode ip).addrs NDIRECT ∧ b ≠ 0 := by
  rw [indirectBlock, inodeAt_bind_run] at hrun
  by_cases hzero : (s.inode ip).addrs NDIRECT = 0
  · rw [if_pos hzero, Prog.bind_ok] at hrun
    obtain ⟨c, s₁, halloc, hrun⟩ := hrun
    rw [setInode_bind_run] at hrun
    obtain ⟨rfl, rfl⟩ := Prog.pure_ok.mp hrun
    obtain ⟨hne, hr⟩ := remapped_entry hl htype (Nat.le_refl _) hzero (Or.inr rfl) halloc
    refine ⟨hr, ?_, hne⟩
    rw [withInode_self]
    show c = Function.update (s₁.inode ip).addrs NDIRECT c NDIRECT
    rw [Function.update_self]
  · rw [if_neg hzero] at hrun
    obtain ⟨rfl, rfl⟩ := Prog.pure_ok.mp hrun
    exact ⟨.refl hl bn, rfl, hzero⟩

/-- A file with block `b`, which is empty, as entry of its indirect block. -/
theorem place_store (hne : addrs NDIRECT ≠ b) (hind : addrs NDIRECT ≠ 0) (hb : b < 256 ^ 4)
    (hbn : NDIRECT ≤ bn) (hlt : bn < MAXFILE) (hi : i ≤ MAXFILE) :
    place (Function.update (Function.update block b fun _ => 0) (addrs NDIRECT)
      (store ((Function.update block b fun _ => 0) (addrs NDIRECT)) (4 * (bn - NDIRECT)) 4 b))
      addrs i = if i = bn then b else place block addrs i := by
  by_cases hdirect : i < NDIRECT
  · rw [place_direct hdirect, place_direct hdirect, if_neg (by omega)]
  · by_cases hmax : i = MAXFILE
    · rw [hmax, place_indirect, place_indirect, if_neg (by omega)]
    · rw [place_through (by omega) (by omega), place_through (by omega) (by omega),
        if_neg hind, if_neg hind, Function.update_self, Function.update_of_ne hne]
      by_cases hib : i = bn
      · rw [hib, if_pos rfl]
        exact load_store_self hb
      · rw [if_neg hib]
        exact load_store_of_disjoint (by omega)

/-- `balloc` for an entry of the indirect block. -/
theorem remapped_through (hl : Laid s.bitmap s.block (view s ip)) (htype : (s.inode ip).type ≠ 0)
    (hsize : s.sb.size ≤ 2 ^ 32) (hind : (s.inode ip).addrs NDIRECT ≠ 0) (hbn : NDIRECT ≤ bn)
    (hlt : bn < MAXFILE) (hzero : place s.block (s.inode ip).addrs bn = 0)
    (hrun : balloc.run s = .ok (b, s₁)) :
    b ≠ 0 ∧ Remapped s ip bn { s₁ with
      block := Function.update s₁.block ((s.inode ip).addrs NDIRECT)
        (store (s₁.block ((s.inode ip).addrs NDIRECT)) (4 * (bn - NDIRECT)) 4 b) } ∧
      place (Function.update s₁.block ((s.inode ip).addrs NDIRECT)
        (store (s₁.block ((s.inode ip).addrs NDIRECT)) (4 * (bn - NDIRECT)) 4 b))
          (s.inode ip).addrs bn = b := by
  obtain ⟨hfree, hlow, rfl⟩ := balloc_ok hrun
  have hN : (view s ip (s.inode ip).inum).type ≠ 0 := by
    rw [view_self]
    exact htype
  have hne : (s.inode ip).addrs NDIRECT ≠ b := by
    have := hl.fresh hfree hN (Nat.le_refl MAXFILE)
    rwa [view_self, place_indirect] at this
  have hplace : ∀ i, i ≤ MAXFILE → place (Function.update
      (Function.update s.block b fun _ => 0) ((s.inode ip).addrs NDIRECT)
      (store ((Function.update s.block b fun _ => 0) ((s.inode ip).addrs NDIRECT))
        (4 * (bn - NDIRECT)) 4 b)) (s.inode ip).addrs i =
      if i = bn then b else place s.block (s.inode ip).addrs i := by
    intro i hi
    exact place_store hne hind (by omega) hbn hlt hi
  refine ⟨hl.fresh_ne_zero hfree, ?_, ?_⟩
  · refine remapped_alloc (j := bn) hl htype hfree rfl rfl (fun _ _ => rfl) rfl rfl
      ⟨rfl, rfl, rfl, rfl, rfl, rfl⟩ (fun c hc _ hci => ?_) hplace hzero (Or.inl rfl)
    show Function.update (Function.update s.block b fun _ => 0) _ _ c = s.block c
    rw [Function.update_of_ne hci, Function.update_of_ne hc]
  · have := hplace bn hlt.le
    rwa [if_pos rfl] at this

/-- `bmap` gives block `bn` a place if it has none. -/
theorem bmap_spec (hl : Laid s.bitmap s.block (view s ip)) (htype : (s.inode ip).type ≠ 0)
    (hsize : s.sb.size ≤ 2 ^ 32) (hlt : bn < MAXFILE) (hrun : (bmap ip bn).run s = .ok (b, s')) :
    Remapped s ip bn s' ∧ b ≠ 0 ∧ place s'.block (s'.inode ip).addrs bn = b := by
  rw [bmap, inodeAt_bind_run] at hrun
  by_cases hdirect : bn < NDIRECT
  · rw [if_pos hdirect] at hrun
    by_cases hzero : (s.inode ip).addrs bn = 0
    · rw [if_pos hzero, Prog.bind_ok] at hrun
      obtain ⟨c, s₁, halloc, hrun⟩ := hrun
      rw [setInode_bind_run] at hrun
      obtain ⟨rfl, rfl⟩ := Prog.pure_ok.mp hrun
      obtain ⟨hne, hr⟩ := remapped_entry hl htype hdirect.le hzero (Or.inl rfl) halloc
      refine ⟨hr, hne, ?_⟩
      rw [place_direct hdirect, withInode_self]
      show Function.update (s₁.inode ip).addrs bn c bn = c
      rw [Function.update_self]
    · rw [if_neg hzero] at hrun
      obtain ⟨rfl, rfl⟩ := Prog.pure_ok.mp hrun
      exact ⟨.refl hl bn, hzero, place_direct hdirect⟩
  · have hin : bn - NDIRECT < NINDIRECT := by
      simp only [MAXFILE] at hlt
      omega
    rw [if_neg hdirect, if_pos hin] at hrun
    simp only at hrun
    rw [Prog.bind_ok] at hrun
    obtain ⟨ind, s₁, hblock, hrun⟩ := hrun
    obtain ⟨hr, rfl, hind⟩ := indirectBlock_spec bn hl htype hblock
    have htype₁ : (s₁.inode ip).type ≠ 0 := by
      rw [hr.entry]
      exact htype
    have hplace : place s₁.block (s₁.inode ip).addrs bn =
        load (s₁.block ((s₁.inode ip).addrs NDIRECT)) (4 * (bn - NDIRECT)) 4 := by
      rw [place_through (by omega) hlt, if_neg hind]
    rw [indirectAt, Prog.gets_bind_run, ← hplace] at hrun
    by_cases hzero : place s₁.block (s₁.inode ip).addrs bn = 0
    · rw [if_pos hzero, Prog.bind_ok] at hrun
      obtain ⟨c, s₂, halloc, hrun⟩ := hrun
      rw [Prog.modify_bind_run] at hrun
      obtain ⟨rfl, rfl⟩ := Prog.pure_ok.mp hrun
      obtain ⟨hne, hr', hc⟩ := remapped_through hr.laid htype₁ (by rw [hr.sb]; exact hsize) hind
        (by omega) hlt hzero halloc
      have hsame : s₂.inode = s₁.inode := by
        obtain ⟨-, -, rfl⟩ := balloc_ok halloc
        rfl
      refine ⟨hr.trans hr', hne, ?_⟩
      rw [← hsame] at hc
      rw [← hsame]
      exact hc
    · rw [if_neg hzero] at hrun
      obtain ⟨rfl, rfl⟩ := Prog.pure_ok.mp hrun
      exact ⟨hr, hzero, rfl⟩

end Fs
end CS444
