/-
File sizes and the inode layer.

`Sized` is `InodeMoves` with what happens to sizes: a regular file that somebody
else refers to keeps its size, and no size leaves the bound of the format.  Most
of `fs.c` changes no size at all, `SameSizes`; directories grow, and `iput`
truncates what nobody else refers to.
-/
import CS444.Fs.InodeSteps

namespace CS444
namespace Fs

open Program Ledger

/-- Every size, in the cache and on the disk, is one a block map can hold. -/
structure SizesOk (s : Kernel) : Prop where
  inode : ∀ k, (s.inode k).size ≤ MAXFILE * BSIZE
  dinode : ∀ i, (s.dinode i).size ≤ MAXFILE * BSIZE

/-- From `s` holding `h` to `s'` holding `h'`, as far as sizes go. -/
structure Sized (s : Kernel) (h : Slot → Nat) (s' : Kernel) (h' : Slot → Nat) : Prop
    extends InodeMoves s h s' h' where
  size : ∀ k, (h k : Int) < (s.inode k).ref → (s.inode k).valid = true →
    (s.inode k).type = T_FILE → (s'.inode k).size = (s.inode k).size
  bounded : SizesOk s → SizesOk s'

/-- No size changed. -/
structure SameSizes (s s' : Kernel) : Prop where
  inode : ∀ k, (s'.inode k).size = (s.inode k).size
  dinode : ∀ i, (s'.dinode i).size = (s.dinode i).size

variable {s s₁ s' : Kernel} {h h₁ h' : Slot → Nat} {ip dp k : Slot}

theorem Sized.refl (s : Kernel) (h : Slot → Nat) : Sized s h s h :=
  ⟨.of_eq rfl rfl h, fun _ _ _ _ => rfl, id⟩

theorem Sized.trans (hab : Sized s h s₁ h₁) (hbc : Sized s₁ h₁ s' h') : Sized s h s' h' := by
  refine ⟨hab.toInodeMoves.trans hbc.toInodeMoves, fun k hk hv htype => ?_,
    fun hs => hbc.bounded (hab.bounded hs)⟩
  have href := hab.ref_eq k
  obtain ⟨hv₁, htype₁⟩ := (hab.pinned k hk).valid hv
  rw [hbc.size k (by omega) hv₁ (htype₁.trans htype), hab.size k hk hv htype]

theorem Sized.frame (hm : Sized s h s' h') (r : Slot → Nat) : Sized s (r + h) s' (r + h') := by
  refine ⟨hm.toInodeMoves.frame r, fun k hk => hm.size k ?_, hm.bounded⟩
  simp only [Pi.add_apply] at hk
  omega

theorem SameSizes.refl (s : Kernel) : SameSizes s s := ⟨fun _ => rfl, fun _ => rfl⟩

theorem SameSizes.trans (hab : SameSizes s s₁) (hbc : SameSizes s₁ s') : SameSizes s s' :=
  ⟨fun k => (hbc.inode k).trans (hab.inode k), fun i => (hbc.dinode i).trans (hab.dinode i)⟩

theorem SameSizes.of_eq (hi : s'.inode = s.inode) (hd : s'.dinode = s.dinode) :
    SameSizes s s' :=
  ⟨fun k => by rw [hi], fun i => by rw [hd]⟩

theorem SameSizes.bounded (hs : SameSizes s s') (hok : SizesOk s) : SizesOk s' := by
  constructor
  · intro k
    rw [hs.inode k]
    exact hok.inode k
  · intro i
    rw [hs.dinode i]
    exact hok.dinode i

theorem SameSizes.sized (hs : SameSizes s s') (hm : InodeMoves s h s' h') : Sized s h s' h' :=
  ⟨hm, fun k _ _ _ => hs.inode k, hs.bounded⟩

/-- A change of one cache entry outside its size. -/
theorem sameSizes_withInode {i : Inode} (hsize : i.size = (s.inode ip).size) :
    SameSizes s (withInode s ip i) := by
  refine ⟨fun k => ?_, fun _ => rfl⟩
  by_cases hk : k = ip
  · subst hk
    rw [withInode_self, hsize]
  · rw [withInode_of_ne hk]

/-- A change of one cache entry to a size in bounds. -/
theorem SizesOk.withInode {i : Inode} (hok : SizesOk s) (hsize : i.size ≤ MAXFILE * BSIZE) :
    SizesOk (withInode s ip i) := by
  refine ⟨fun k => ?_, hok.dinode⟩
  by_cases hk : k = ip
  · subst hk
    rw [withInode_self]
    exact hsize
  · rw [withInode_of_ne hk]
    exact hok.inode k

theorem SizesOk.updated (hok : SizesOk s) (ip : Slot) : SizesOk (updated s ip) := by
  refine ⟨hok.inode, fun i => ?_⟩
  by_cases hi : i = (s.inode ip).inum
  · subst hi
    simp only [Fs.updated, Function.update_self]
    exact hok.inode ip
  · simp only [Fs.updated, Function.update_of_ne hi]
    exact hok.dinode i

/-! ## Blocks -/

theorem balloc_sizes {b : Nat} (hrun : balloc.run s = .ok (b, s')) : SameSizes s s' := by
  simp only [balloc, Prog.get_bind_run] at hrun
  split at hrun
  · simp at hrun
  · simp only [bzero, Prog.modify_bind_run] at hrun
    obtain ⟨-, rfl⟩ := Prog.pure_ok.mp hrun
    exact .of_eq rfl rfl

theorem bfree_sizes {b : Nat} {u : Unit} (hrun : (bfree b).run s = .ok (u, s')) :
    SameSizes s s' := by
  simp only [bfree, Prog.get_bind_run] at hrun
  split at hrun
  · simp at hrun
  · obtain rfl := Prog.modify_ok.mp hrun
    exact .of_eq rfl rfl

theorem indirectBlock_sizes {b : Nat} (hrun : (indirectBlock ip).run s = .ok (b, s')) :
    SameSizes s s' := by
  simp only [indirectBlock, inodeAt_bind_run] at hrun
  split at hrun
  · rw [Prog.bind_ok] at hrun
    obtain ⟨addr, s₁, halloc, hrun⟩ := hrun
    rw [setInode_bind_run] at hrun
    obtain ⟨-, rfl⟩ := Prog.pure_ok.mp hrun
    exact (balloc_sizes halloc).trans (sameSizes_withInode rfl)
  · obtain ⟨-, rfl⟩ := Prog.pure_ok.mp hrun
    exact .refl _

theorem bmap_sizes {bn b : Nat} (hrun : (bmap ip bn).run s = .ok (b, s')) : SameSizes s s' := by
  simp only [bmap, inodeAt_bind_run] at hrun
  split at hrun
  · split at hrun
    · rw [Prog.bind_ok] at hrun
      obtain ⟨addr, s₁, halloc, hrun⟩ := hrun
      rw [setInode_bind_run] at hrun
      obtain ⟨-, rfl⟩ := Prog.pure_ok.mp hrun
      exact (balloc_sizes halloc).trans (sameSizes_withInode rfl)
    · obtain ⟨-, rfl⟩ := Prog.pure_ok.mp hrun
      exact .refl _
  · split at hrun
    · rw [Prog.bind_ok] at hrun
      obtain ⟨ind, s₁, hind, hrun⟩ := hrun
      refine (indirectBlock_sizes hind).trans ?_
      simp only [indirectAt, Prog.gets_bind_run] at hrun
      split at hrun
      · rw [Prog.bind_ok] at hrun
        obtain ⟨addr, s₂, halloc, hrun⟩ := hrun
        rw [Prog.modify_bind_run] at hrun
        obtain ⟨-, rfl⟩ := Prog.pure_ok.mp hrun
        exact (balloc_sizes halloc).trans (.of_eq rfl rfl)
      · obtain ⟨-, rfl⟩ := Prog.pure_ok.mp hrun
        exact .refl _
    · simp at hrun

theorem truncDirect_sizes {l : List Nat} {u : Unit}
    (hrun : (truncDirect ip l).run s = .ok (u, s')) : SameSizes s s' := by
  induction l generalizing s with
  | nil =>
      obtain ⟨-, rfl⟩ := Prog.pure_ok.mp hrun
      exact .refl _
  | cons i rest ih =>
      simp only [truncDirect, inodeAt_bind_run] at hrun
      split at hrun
      · exact ih hrun
      · rw [Prog.bind_ok] at hrun
        obtain ⟨_, s₁, hfree, hrun⟩ := hrun
        rw [setInode_bind_run] at hrun
        refine (bfree_sizes hfree).trans (.trans ?_ (ih hrun))
        exact sameSizes_withInode rfl

theorem truncIndirect_sizes {l : List Nat} {u : Unit}
    (hrun : (truncIndirect l).run s = .ok (u, s')) : SameSizes s s' := by
  induction l generalizing s with
  | nil =>
      obtain ⟨-, rfl⟩ := Prog.pure_ok.mp hrun
      exact .refl _
  | cons a rest ih =>
      simp only [truncIndirect] at hrun
      split at hrun
      · exact ih hrun
      · rw [Prog.bind_ok] at hrun
        obtain ⟨_, s₁, hfree, hrun⟩ := hrun
        exact (bfree_sizes hfree).trans (ih hrun)

/-- The size `ip` has after `itrunc`; the other entries keep theirs. -/
structure Truncated (s : Kernel) (ip : Slot) (s' : Kernel) : Prop where
  zero : (s'.inode ip).size = 0
  others : ∀ k, k ≠ ip → (s'.inode k).size = (s.inode k).size
  bounded : SizesOk s → SizesOk s'

theorem itrunc_truncated {u : Unit} (hrun : (itrunc ip).run s = .ok (u, s')) :
    Truncated s ip s' := by
  simp only [itrunc] at hrun
  rw [Prog.bind_ok] at hrun
  obtain ⟨_, s₁, hdirect, hrun⟩ := hrun
  rw [inodeAt_bind_run, Prog.bind_ok] at hrun
  obtain ⟨_, s₂, hindirect, hrun⟩ := hrun
  rw [setInode_bind_run] at hrun
  obtain rfl := iupdate_ok.mp hrun
  have hsame : SameSizes s s₂ := by
    refine (truncDirect_sizes hdirect).trans ?_
    rcases Prog.when_ok.mp hindirect with ⟨-, hindirect⟩ | ⟨-, rfl⟩
    · rw [Prog.get_bind_run, Prog.bind_ok] at hindirect
      obtain ⟨_, s₃, hloop, hindirect⟩ := hindirect
      rw [Prog.bind_ok] at hindirect
      obtain ⟨_, s₄, hfree, hindirect⟩ := hindirect
      obtain rfl := setInode_ok.mp hindirect
      exact ((truncIndirect_sizes hloop).trans (bfree_sizes hfree)).trans (sameSizes_withInode rfl)
    · exact .refl _
  refine ⟨?_, fun k hk => ?_, fun hok => ?_⟩
  · show ((withInode s₂ ip { s₂.inode ip with size := 0 }).inode ip).size = 0
    rw [withInode_self]
  · show ((withInode s₂ ip { s₂.inode ip with size := 0 }).inode k).size = _
    rw [withInode_of_ne hk]
    exact hsame.inode k
  · exact ((hsame.bounded hok).withInode (Nat.zero_le _)).updated ip

/-! ## The inode cache -/

theorem iget_sized {dev inum : Nat} (hrun : (iget dev inum).run s = .ok (ip, s'))
    (hdev : KnownDev s dev) : Sized s 0 s' (one ip) := by
  refine SameSizes.sized ?_ (iget_moves hrun hdev).toInodeMoves
  rcases iget_cases hrun with ⟨-, -, -, rfl⟩ | ⟨-, -, rfl⟩
  · exact sameSizes_withInode rfl
  · exact sameSizes_withInode rfl

theorem idup_sized {k : Slot} (hrun : (idup ip).run s = .ok (k, s'))
    (hpos : 0 < (s.inode ip).ref) : Sized s 0 s' (one ip) := by
  obtain ⟨rfl, hm⟩ := idup_moves hrun hpos
  rw [idup, setInode_bind_run] at hrun
  obtain ⟨-, rfl⟩ := Prog.pure_ok.mp hrun
  exact SameSizes.sized (sameSizes_withInode rfl) hm.toInodeMoves

theorem iunlock_sizes {u : Unit} (hrun : (iunlock ip).run s = .ok (u, s')) : SameSizes s s' := by
  simp only [iunlock, releasesleep, inodeAt_bind_run] at hrun
  split at hrun
  · simp at hrun
  · obtain rfl := setInode_ok.mp hrun
    exact sameSizes_withInode rfl

/-- An inode in the cache is locked as it is, another one is read in. -/
theorem ilock_cases {u : Unit} (hrun : (ilock ip).run s = .ok (u, s')) :
    (s.inode ip).valid = true ∧ s' = withInode s ip { s.inode ip with locked := true } ∨
      (s.inode ip).valid = false ∧ ∃ i, i.size = (s.dinode (s.inode ip).inum).size ∧
        s' = withInode s ip i := by
  simp only [ilock, acquiresleep, inodeAt_bind_run] at hrun
  split at hrun
  · simp at hrun
  rw [Prog.bind_ok] at hrun
  obtain ⟨_, s₁, hlock, hrun⟩ := hrun
  rw [inodeAt_bind_run] at hlock
  split at hlock
  · simp at hlock
  obtain rfl := setInode_ok.mp hlock
  split at hrun
  · rename_i hvalid
    exact Or.inl ⟨hvalid, (Prog.pure_ok.mp hrun).2.symm⟩
  · rename_i hinvalid
    simp only [Prog.get_bind_run, setInode_bind_run, withInode_withInode] at hrun
    split at hrun
    · simp at hrun
    · obtain ⟨-, rfl⟩ := Prog.pure_ok.mp hrun
      refine Or.inr ⟨by simpa using hinvalid, _, ?_, rfl⟩
      rw [withInode_dinode]

theorem ilock_sized {u : Unit} (hrun : (ilock ip).run s = .ok (u, s')) : Sized s 0 s' 0 := by
  have hm := (ilock_spec hrun).moves.toInodeMoves
  rcases ilock_cases hrun with ⟨-, rfl⟩ | ⟨hinvalid, i, hsize, rfl⟩
  · exact SameSizes.sized (sameSizes_withInode rfl) hm
  · refine ⟨hm, fun k _ hv _ => ?_, fun hok => hok.withInode ?_⟩
    · have hk : k ≠ ip := by
        rintro rfl
        rw [hinvalid] at hv
        exact absurd hv (by simp)
      rw [withInode_of_ne hk]
    · rw [hsize]
      exact hok.dinode _

theorem iput_sized {u : Unit} (hrun : (iput ip).run s = .ok (u, s')) :
    Sized s (one ip) s' 0 := by
  have hm := (iput_moves hrun).toInodeMoves
  simp only [iput] at hrun
  rw [Prog.bind_ok] at hrun
  obtain ⟨_, s₁, hlock, hrun⟩ := hrun
  obtain ⟨hsame, href⟩ : SameSizes s s₁ ∧ (s₁.inode ip).ref = (s.inode ip).ref := by
    rw [acquiresleep, inodeAt_bind_run] at hlock
    split at hlock
    · simp at hlock
    · obtain rfl := setInode_ok.mp hlock
      exact ⟨sameSizes_withInode rfl, by rw [withInode_self]⟩
  rw [inodeAt_bind_run, Prog.bind_ok] at hrun
  obtain ⟨_, s₂, hfree, hrun⟩ := hrun
  rw [releasesleep, setInode_bind_run] at hrun
  obtain rfl := setInode_ok.mp hrun
  rw [withInode_self, withInode_withInode] at hm ⊢
  rcases Prog.when_ok.mp hfree with ⟨⟨-, -, hlast⟩, hfree⟩ | ⟨-, rfl⟩
  · -- nobody else refers to it
    rw [Prog.bind_ok] at hfree
    obtain ⟨_, s₃, htrunc, hfree⟩ := hfree
    rw [setInode_bind_run, iupdate_bind_run] at hfree
    obtain rfl := setInode_ok.mp hfree
    have ht := itrunc_truncated htrunc
    refine ⟨hm, fun k hk _ _ => ?_, fun hok => ?_⟩
    · have hkip : k ≠ ip := by
        rintro rfl
        rw [one_self] at hk
        omega
      rw [withInode_of_ne hkip, withInode_of_ne hkip]
      show ((withInode s₃ ip { s₃.inode ip with type := 0 }).inode k).size = _
      rw [withInode_of_ne hkip, ht.others k hkip, hsame.inode k]
    · have hok₃ := ht.bounded (hsame.bounded hok)
      have htyped : SameSizes s₃ (withInode s₃ ip { s₃.inode ip with type := 0 }) :=
        sameSizes_withInode rfl
      have hok₄ := (htyped.bounded hok₃).updated ip
      refine SameSizes.bounded ?_ hok₄
      refine .trans (sameSizes_withInode ?_) (sameSizes_withInode ?_)
      · rfl
      · rfl
  · exact SameSizes.sized (hsame.trans (sameSizes_withInode rfl)) hm

/-! ## Contents and on-disk inodes -/

theorem readLoop_sizes {fuel off n : Nat} {r : Str}
    (hrun : (readLoop ip fuel off n).run s = .ok (r, s')) : SameSizes s s' := by
  induction fuel generalizing s off n r with
  | zero =>
      obtain ⟨-, rfl⟩ := Prog.pure_ok.mp hrun
      exact .refl _
  | succ fuel ih =>
      rw [readLoop] at hrun
      split at hrun
      · obtain ⟨-, rfl⟩ := Prog.pure_ok.mp hrun
        exact .refl _
      · rw [Prog.bind_ok] at hrun
        obtain ⟨b, s₁, hmap, hrun⟩ := hrun
        rw [Prog.get_bind_run, Prog.bind_ok] at hrun
        obtain ⟨rest, s₂, hrest, hrun⟩ := hrun
        obtain ⟨-, rfl⟩ := Prog.pure_ok.mp hrun
        exact (bmap_sizes hmap).trans (ih hrest)

/-- What `readi` returns on an inode that is no device. -/
theorem readi_cases {off n : Nat} {r : Int × Str} (hrun : (readi ip off n).run s = .ok (r, s'))
    (htype : (s.inode ip).type ≠ T_DEV) :
    ((off > (s.inode ip).size ∨ uint (off + n) < off) ∧ r = (-1, []) ∧ s' = s) ∨
      (off ≤ (s.inode ip).size ∧ off ≤ uint (off + n) ∧
        r.1 = int ((if uint (off + n) > (s.inode ip).size then (s.inode ip).size - off else n) :
          Nat) ∧
        SameSizes s s' ∧ SameKeys s s') := by
  rw [readi, inodeAt_bind_run, if_neg htype] at hrun
  split at hrun
  · rename_i hrange
    obtain ⟨rfl, rfl⟩ := Prog.pure_ok.mp hrun
    exact Or.inl ⟨hrange, rfl, rfl⟩
  · rename_i hrange
    rw [Prog.bind_ok] at hrun
    obtain ⟨bytes, s₁, hloop, hrun⟩ := hrun
    obtain ⟨rfl, rfl⟩ := Prog.pure_ok.mp hrun
    exact Or.inr ⟨by omega, by omega, by simp only [gt_iff_lt], readLoop_sizes hloop,
      readLoop_keys hloop⟩

theorem writeLoop_sizes {fuel off r : Nat} {src : Str}
    (hrun : (writeLoop ip fuel off src).run s = .ok (r, s')) : SameSizes s s' := by
  induction fuel generalizing s off src with
  | zero =>
      obtain ⟨-, rfl⟩ := Prog.pure_ok.mp hrun
      exact .refl _
  | succ fuel ih =>
      rw [writeLoop] at hrun
      split at hrun
      · obtain ⟨-, rfl⟩ := Prog.pure_ok.mp hrun
        exact .refl _
      · rw [Prog.bind_ok] at hrun
        obtain ⟨b, s₁, hmap, hrun⟩ := hrun
        rw [Prog.modify_bind_run] at hrun
        refine .trans (.trans (bmap_sizes hmap) ?_) (ih hrun)
        exact .of_eq rfl rfl

/-- The loop of `writei` gets to the end of `src`. -/
theorem writeLoop_off {fuel off r : Nat} {src : Str} (hfuel : src.length ≤ fuel)
    (hrun : (writeLoop ip fuel off src).run s = .ok (r, s')) : r = off + src.length := by
  induction fuel generalizing s off src with
  | zero =>
      obtain ⟨rfl, -⟩ := Prog.pure_ok.mp hrun
      omega
  | succ fuel ih =>
      rw [writeLoop] at hrun
      split at hrun
      · rename_i hnil
        obtain ⟨rfl, -⟩ := Prog.pure_ok.mp hrun
        rw [hnil]
        rfl
      · rename_i hne
        have hpos : 0 < src.length := List.length_pos_iff.mpr hne
        rw [Prog.bind_ok] at hrun
        obtain ⟨b, s₁, hmap, hrun⟩ := hrun
        rw [Prog.modify_bind_run] at hrun
        have hmod : off % BSIZE < BSIZE := Nat.mod_lt _ (by decide)
        have hr := ih (by rw [List.length_drop]; omega) hrun
        rw [List.length_drop] at hr
        omega

/-- `writei` wrote `n` bytes at `off`: the size is now at least their end. -/
structure Grown (s : Kernel) (ip : Slot) (stop : Nat) (s' : Kernel) : Prop where
  size : (s'.inode ip).size = max (s.inode ip).size stop
  others : ∀ k, k ≠ ip → (s'.inode k).size = (s.inode k).size
  bounded : stop ≤ MAXFILE * BSIZE → SizesOk s → SizesOk s'

/-- What `writei` returns on an inode that is no device. -/
theorem writei_cases {src : Str} {off : Nat} {r : Int}
    (hrun : (writei ip src off).run s = .ok (r, s')) (htype : (s.inode ip).type ≠ T_DEV) :
    ((off > (s.inode ip).size ∨ uint (off + src.length) < off ∨
        uint (off + src.length) > MAXFILE * BSIZE) ∧ r = -1 ∧ s' = s) ∨
      (off ≤ (s.inode ip).size ∧ uint (off + src.length) ≤ MAXFILE * BSIZE ∧
        r = int src.length ∧ Grown s ip (off + src.length) s') := by
  simp only [writei, inodeAt_bind_run, if_neg htype] at hrun
  split at hrun
  · rename_i hrange
    obtain ⟨rfl, rfl⟩ := Prog.pure_ok.mp hrun
    exact Or.inl ⟨hrange.imp_right Or.inl, rfl, rfl⟩
  · rename_i hrange
    split at hrun
    · rename_i hlong
      obtain ⟨rfl, rfl⟩ := Prog.pure_ok.mp hrun
      exact Or.inl ⟨Or.inr (Or.inr hlong), rfl, rfl⟩
    · rename_i hfits
      rw [Prog.bind_ok] at hrun
      obtain ⟨stop, s₁, hloop, hrun⟩ := hrun
      rw [inodeAt_bind_run, Prog.bind_ok] at hrun
      obtain ⟨_, s₂, hgrow, hrun⟩ := hrun
      obtain ⟨rfl, rfl⟩ := Prog.pure_ok.mp hrun
      refine Or.inr ⟨by omega, by omega, rfl, ?_⟩
      obtain rfl := writeLoop_off le_rfl hloop
      have hsame := writeLoop_sizes hloop
      rcases Prog.when_ok.mp hgrow with ⟨hgrows, hgrow⟩ | ⟨hkeeps, rfl⟩
      · rw [setInode_bind_run] at hgrow
        obtain rfl := iupdate_ok.mp hgrow
        rw [hsame.inode ip] at hgrows
        refine ⟨?_, fun k hk => ?_, fun hstop hok => ?_⟩
        · show ((withInode s₁ ip { s₁.inode ip with size := off + src.length }).inode ip).size = _
          rw [withInode_self]
          simp only
          omega
        · show ((withInode s₁ ip { s₁.inode ip with size := off + src.length }).inode k).size = _
          rw [withInode_of_ne hk]
          exact hsame.inode k
        · exact ((hsame.bounded hok).withInode hstop).updated ip
      · rw [hsame.inode ip] at hkeeps
        refine ⟨?_, fun k _ => hsame.inode k, fun _ => hsame.bounded⟩
        rw [hsame.inode ip]
        omega

theorem ialloc_sized {dev : Nat} {type : Int} (hrun : (ialloc dev type).run s = .ok (ip, s'))
    (hdev : KnownDev s dev) : Sized s 0 s' (one ip) := by
  have hm := (ialloc_moves hrun hdev).1.toInodeMoves
  simp only [ialloc, Prog.get_bind_run] at hrun
  split at hrun
  · simp at hrun
  · rename_i inum hfind
    rw [Prog.modify_bind_run] at hrun
    have hget := iget_sized hrun hdev
    refine ⟨hm, hget.size, fun hok => hget.bounded ⟨hok.inode, fun i => ?_⟩⟩
    by_cases hi : i = inum
    · subst hi
      simp only [Function.update_self]
      exact Nat.zero_le _
    · simp only [Function.update_of_ne hi]
      exact hok.dinode i

theorem writei_sized {src : Str} {off : Nat} {r : Int}
    (hrun : (writei ip src off).run s = .ok (r, s')) (hu : InUse s ip)
    (hdir : (s.inode ip).type = T_DIR) (hlen : src.length = direntSize) : Sized s 0 s' 0 := by
  have hm := (writei_moves hrun hu.valid hu.pos).toInodeMoves
  rcases writei_cases hrun (by rw [hdir]; decide) with ⟨-, -, rfl⟩ | ⟨hoff, hfits, -, hg⟩
  · exact .refl _ _
  · refine ⟨hm, fun k _ _ htype => hg.others k ?_, fun hok => hg.bounded ?_ hok⟩
    · rintro rfl
      rw [hdir] at htype
      exact absurd htype (by decide)
    · have hsize := hok.inode ip
      have hmax : MAXFILE * BSIZE = 71680 := by decide
      have hsmall : off + src.length < 2 ^ 32 := by
        rw [hlen, direntSize]
        omega
      have huint : uint (off + src.length) = off + src.length := by
        exact_mod_cast uint_of_lt hsmall
      omega

theorem readi_sized {off n : Nat} {r : Int × Str} (hrun : (readi ip off n).run s = .ok (r, s'))
    (hdir : (s.inode ip).type = T_DIR) : Sized s 0 s' 0 := by
  rcases readi_cases hrun (by rw [hdir]; decide) with ⟨-, -, rfl⟩ | ⟨-, -, -, hsame, hkeys⟩
  · exact .refl _ _
  · exact hsame.sized (hkeys.moves 0).toInodeMoves

theorem inodeSteps_sized : InodeSteps Sized where
  refl := Sized.refl
  trans := Sized.trans
  frame := Sized.frame
  iget := iget_sized
  idup := idup_sized
  ilock := ilock_sized
  iunlock hrun := (iunlock_sizes hrun).sized ((iunlock_keys hrun).moves 0).toInodeMoves
  iput := iput_sized
  readi hrun _ hdir := readi_sized hrun hdir
  writei := writei_sized
  ialloc := ialloc_sized
  relabel {s ip} major minor nlink hu := by
    have hm := rewritten_moves hu (i := { s.inode ip with
      major := major, minor := minor, nlink := nlink }) rfl rfl rfl rfl rfl
    have hsame : SameSizes s (withInode s ip { s.inode ip with
        major := major, minor := minor, nlink := nlink }) := sameSizes_withInode rfl
    exact ⟨hm.toInodeMoves, fun k _ _ _ => hsame.inode k, fun hok => (hsame.bounded hok).updated ip⟩

end Fs
end CS444
