/-
The inode layer of `fs.c` and the reference counts.
-/
import CS444.Fs.Refs

namespace CS444
namespace Fs

open Program Ledger

variable {s s' : Kernel} {ip dp : Slot}

/-! ## Blocks -/

theorem balloc_keys {b : Nat} (hrun : balloc.run s = .ok (b, s')) : SameKeys s s' := by
  simp only [balloc, Prog.get_bind_run] at hrun
  split at hrun
  · simp at hrun
  · simp [bzero] at hrun
    obtain ⟨-, rfl⟩ := hrun
    exact .of_eq rfl rfl ⟨rfl, rfl, rfl, rfl, rfl, rfl⟩

theorem bfree_keys {b : Nat} {r : Unit} (hrun : (bfree b).run s = .ok (r, s')) :
    SameKeys s s' := by
  simp only [bfree, Prog.get_bind_run] at hrun
  split at hrun
  · simp at hrun
  · simp at hrun
    subst hrun
    exact .of_eq rfl rfl ⟨rfl, rfl, rfl, rfl, rfl, rfl⟩

/-! ## Taking a cache entry -/

/-- What `iget` does: a hit counts one more reference, a miss recycles an entry
nobody refers to. -/
theorem iget_cases {dev inum : Nat} (hrun : (iget dev inum).run s = .ok (ip, s')) :
    (0 < (s.inode ip).ref ∧ (s.inode ip).dev = dev ∧ (s.inode ip).inum = inum ∧
      s' = withInode s ip { s.inode ip with ref := (s.inode ip).ref + 1 }) ∨
    ((∀ k, 0 < (s.inode k).ref → (s.inode k).dev = dev → (s.inode k).inum ≠ inum) ∧
      (s.inode ip).ref = 0 ∧
      s' = withInode s ip
        { s.inode ip with dev := dev, inum := inum, ref := 1, valid := false }) := by
  simp only [iget, Prog.get_bind_run] at hrun
  split at hrun
  · rename_i k hfind
    have hhit := List.find?_some hfind
    simp only [decide_eq_true_eq] at hhit
    rw [setInode_bind_run] at hrun
    obtain ⟨rfl, rfl⟩ := Prog.pure_ok.mp hrun
    exact Or.inl ⟨hhit.1, hhit.2.1, hhit.2.2, rfl⟩
  · rename_i hnone
    split at hrun
    · simp at hrun
    · rename_i k hfind
      have hzero := List.find?_some hfind
      simp only [decide_eq_true_eq] at hzero
      rw [setInode_bind_run] at hrun
      obtain ⟨rfl, rfl⟩ := Prog.pure_ok.mp hrun
      refine Or.inr ⟨fun j hpos hdev hinum => ?_, hzero, rfl⟩
      have := List.find?_eq_none.mp hnone j (List.mem_finRange j)
      simp only [decide_eq_true_eq] at this
      exact this ⟨hpos, hdev, hinum⟩

/-- One more reference to an entry in use. -/
theorem moves_hit (hpos : 0 < (s.inode ip).ref) :
    Moves s 0 (withInode s ip { s.inode ip with ref := (s.inode ip).ref + 1 }) (one ip) := by
  refine moves_withInode (by simp) (fun k hk => (one_of_ne hk).symm)
    (fun _ => ⟨rfl, rfl, fun hv => ⟨hv, rfl⟩⟩) fun hc _ => ?_
  obtain ⟨hnonneg, hdev, hunique, hcoherent⟩ := hc.entry hpos
  exact ⟨by simp only; omega, fun _ => hdev hpos, fun _ => hunique hpos,
    fun _ => hcoherent hpos⟩

theorem iget_moves {dev inum : Nat} (hrun : (iget dev inum).run s = .ok (ip, s'))
    (hdev : KnownDev s dev) : Moves s 0 s' (one ip) := by
  rcases iget_cases hrun with ⟨hpos, -, -, rfl⟩ | ⟨hnone, hzero, rfl⟩
  · exact moves_hit hpos
  · refine moves_withInode (by simp [hzero]) (fun k hk => (one_of_ne hk).symm)
      (fun hpos => ?_) fun hc _ => ⟨by simp, fun _ => hc.knownDev hdev, fun _ k _ hk heq => ?_,
        by simp⟩
    · simp only [Pi.zero_apply] at hpos
      omega
    · exact hnone k hk ((hc.dev k hk).trans (hc.knownDev hdev).symm) heq

theorem idup_moves {k : Slot} (hrun : (idup ip).run s = .ok (k, s'))
    (hpos : 0 < (s.inode ip).ref) : k = ip ∧ Moves s 0 s' (one ip) := by
  simp only [idup, setInode_bind_run, Prog.pure_run, Except.ok.injEq, Prod.mk.injEq] at hrun
  obtain ⟨rfl, rfl⟩ := hrun
  exact ⟨rfl, moves_hit hpos⟩

/-! ## Locking -/

/-- `ilock` came back: the entry is in use and valid, loaded from the disk if it
was not. -/
structure Ilocked (s : Kernel) (ip : Slot) (s' : Kernel) : Prop where
  pos : 0 < (s.inode ip).ref
  locked : (s'.inode ip).locked = true
  moves : Moves s 0 s' 0
  valid : (s'.inode ip).valid = true
  ref : (s'.inode ip).ref = (s.inode ip).ref
  type : (s'.inode ip).type =
    if (s.inode ip).valid then (s.inode ip).type else (s.dinode (s.inode ip).inum).type

theorem Ilocked.pos' (hl : Ilocked s ip s') : 0 < (s'.inode ip).ref := by
  rw [hl.ref]
  exact hl.pos

theorem ilock_spec {r : Unit} (hrun : (ilock ip).run s = .ok (r, s')) : Ilocked s ip s' := by
  simp only [ilock, acquiresleep, inodeAt_bind_run] at hrun
  split at hrun
  · simp at hrun
  · rename_i href
    rw [Prog.bind_ok] at hrun
    obtain ⟨_, s₁, hlock, hrun⟩ := hrun
    rw [inodeAt_bind_run] at hlock
    split at hlock
    · simp at hlock
    · obtain rfl := setInode_ok.mp hlock
      split at hrun
      · rename_i hvalid
        obtain ⟨-, rfl⟩ := Prog.pure_ok.mp hrun
        refine ⟨by omega, by simp, ?_, by simpa using hvalid, by simp, by simp [hvalid]⟩
        apply SameKeys.moves
        exact sameKeys_withInode rfl rfl rfl rfl rfl
      · rename_i hinvalid
        simp only [Prog.get_bind_run, setInode_bind_run, withInode_self, withInode_withInode,
          withInode_dinode] at hrun
        by_cases htype : (s.dinode (s.inode ip).inum).type = 0
        · simp [htype] at hrun
        · simp only [htype, if_false, Prog.pure_run, Except.ok.injEq, Prod.mk.injEq,
            true_and] at hrun
          subst hrun
          refine ⟨by omega, by simp, ?_, by simp, by simp, by simp [hinvalid]⟩
          refine moves_withInode rfl (fun _ _ => rfl)
            (fun _ => ⟨rfl, rfl, fun hv => absurd hv hinvalid⟩) fun hc _ => ?_
          have hpos : 0 < (s.inode ip).ref := by omega
          have hentry := hc.entry hpos
          exact ⟨hentry.nonneg, hentry.dev, hentry.unique, fun _ _ => ⟨rfl, htype⟩⟩

theorem iunlock_keys {r : Unit} (hrun : (iunlock ip).run s = .ok (r, s')) : SameKeys s s' := by
  simp only [iunlock, releasesleep, inodeAt_bind_run] at hrun
  split at hrun
  · simp at hrun
  · obtain rfl := setInode_ok.mp hrun
    exact sameKeys_withInode rfl rfl rfl rfl rfl

/-! ## On-disk inodes -/

/-- The inode `ip` written to the disk. -/
def updated (s : Kernel) (ip : Slot) : Kernel :=
  { s with
    dinode := Function.update s.dinode (s.inode ip).inum
      ⟨(s.inode ip).type, (s.inode ip).major, (s.inode ip).minor, (s.inode ip).nlink,
        (s.inode ip).size, (s.inode ip).addrs⟩ }

theorem iupdate_ok {u : Unit} :
    (iupdate ip).run s = .ok (u, s') ↔ updated s ip = s' := by
  show Except.ok ((), updated s ip) = _ ↔ _
  simp

@[simp] theorem iupdate_bind_run {α : Type} (g : Unit → K α) :
    (iupdate ip >>= g).run s = (g ()).run (updated s ip) := rfl

/-- Writing a valid entry in use to the disk keeps the cache coherent. -/
theorem updated_moves (hv : (s.inode ip).valid = true) (hpos : 0 < (s.inode ip).ref)
    (h : Slot → Nat) : Moves s h (updated s ip) h := by
  refine ⟨⟨.refl _ _, fun _ _ => .refl _,
    fun hc _ => ⟨hc.nonneg, hc.dev, hc.unique, fun k hk hkv => ?_⟩⟩, ⟨rfl, rfl, rfl, rfl, rfl, rfl⟩⟩
  have hold := hc.coherent k hk hkv
  by_cases hinum : (s.inode k).inum = (s.inode ip).inum
  · obtain rfl := hc.unique k ip hk hpos hinum
    exact ⟨by simp [updated], hold.2⟩
  · have hkeep : (updated s ip).dinode (s.inode k).inum = s.dinode (s.inode k).inum :=
      Function.update_of_ne hinum ..
    exact ⟨(congrArg Dinode.type hkeep).trans hold.1, hold.2⟩

/-- `ialloc` returns an entry that, in a coherent cache, was not read from the
disk before the type was written there. -/
theorem ialloc_moves {dev : Nat} {type : Int} (hrun : (ialloc dev type).run s = .ok (ip, s'))
    (hdev : KnownDev s dev) :
    Moves s 0 s' (one ip) ∧ (CacheOk s → (s'.inode ip).valid = false ∧
      (s'.dinode (s'.inode ip).inum).type = type) := by
  simp only [ialloc, Prog.get_bind_run] at hrun
  split at hrun
  · simp at hrun
  · rename_i inum hfind
    have hfree := List.find?_some hfind
    simp only [decide_eq_true_eq] at hfree
    simp only [Prog.modify_bind_run] at hrun
    -- the state with the on-disk inode taken
    have hmoves : Moves s 0
        { s with dinode := Function.update s.dinode inum ⟨type, 0, 0, 0, 0, fun _ => 0⟩ } 0 := by
      refine ⟨⟨.refl _ _, fun _ _ => .refl _,
        fun hc _ => ⟨hc.nonneg, hc.dev, hc.unique, fun k hk hkv => ?_⟩⟩,
        ⟨rfl, rfl, rfl, rfl, rfl, rfl⟩⟩
      have hold := hc.coherent k hk hkv
      have hne : (s.inode k).inum ≠ inum := by
        rintro heq
        rw [heq, hfree.2] at hold
        exact hold.2 hold.1.symm
      exact ⟨by simpa [Function.update_of_ne hne] using hold.1, hold.2⟩
    refine ⟨hmoves.trans (iget_moves hrun hdev), fun hc => ?_⟩
    rcases iget_cases hrun with ⟨hpos, -, hinum, rfl⟩ | ⟨-, -, rfl⟩
    · have hinvalid : (s.inode ip).valid = false := by
        rw [Bool.eq_false_iff]
        intro hv
        have hold := hc.coherent ip hpos hv
        rw [show (s.inode ip).inum = inum from hinum, hfree.2] at hold
        exact hold.2 hold.1.symm
      rw [withInode_self, withInode_dinode]
      exact ⟨hinvalid, by simp [show (s.inode ip).inum = inum from hinum]⟩
    · rw [withInode_self, withInode_dinode]
      exact ⟨rfl, by simp⟩

/-! ## Block maps and contents -/

theorem indirectBlock_keys {b : Nat} (hrun : (indirectBlock ip).run s = .ok (b, s')) :
    SameKeys s s' := by
  simp only [indirectBlock, inodeAt_bind_run] at hrun
  split at hrun
  · rw [Prog.bind_ok] at hrun
    obtain ⟨addr, s₁, halloc, hrun⟩ := hrun
    rw [setInode_bind_run] at hrun
    obtain ⟨-, rfl⟩ := Prog.pure_ok.mp hrun
    exact (balloc_keys halloc).trans (sameKeys_withInode rfl rfl rfl rfl rfl)
  · obtain ⟨-, rfl⟩ := Prog.pure_ok.mp hrun
    exact .refl _

theorem bmap_keys {bn b : Nat} (hrun : (bmap ip bn).run s = .ok (b, s')) : SameKeys s s' := by
  simp only [bmap, inodeAt_bind_run] at hrun
  split at hrun
  · split at hrun
    · rw [Prog.bind_ok] at hrun
      obtain ⟨addr, s₁, halloc, hrun⟩ := hrun
      rw [setInode_bind_run] at hrun
      obtain ⟨-, rfl⟩ := Prog.pure_ok.mp hrun
      exact (balloc_keys halloc).trans (sameKeys_withInode rfl rfl rfl rfl rfl)
    · obtain ⟨-, rfl⟩ := Prog.pure_ok.mp hrun
      exact .refl _
  · split at hrun
    · rw [Prog.bind_ok] at hrun
      obtain ⟨ind, s₁, hind, hrun⟩ := hrun
      refine (indirectBlock_keys hind).trans ?_
      simp only [indirectAt, Prog.gets_bind_run] at hrun
      split at hrun
      · rw [Prog.bind_ok] at hrun
        obtain ⟨addr, s₂, halloc, hrun⟩ := hrun
        rw [Prog.modify_bind_run] at hrun
        obtain ⟨-, rfl⟩ := Prog.pure_ok.mp hrun
        exact (balloc_keys halloc).trans (.of_eq rfl rfl ⟨rfl, rfl, rfl, rfl, rfl, rfl⟩)
      · obtain ⟨-, rfl⟩ := Prog.pure_ok.mp hrun
        exact .refl _
    · simp at hrun

theorem truncDirect_keys {l : List Nat} {r : Unit}
    (hrun : (truncDirect ip l).run s = .ok (r, s')) : SameKeys s s' := by
  induction l generalizing s with
  | nil =>
      simp only [truncDirect, Prog.pure_run, Except.ok.injEq, Prod.mk.injEq] at hrun
      obtain ⟨-, rfl⟩ := hrun
      exact .refl _
  | cons i rest ih =>
      simp only [truncDirect, inodeAt_bind_run] at hrun
      split at hrun
      · exact ih hrun
      · rw [Prog.bind_ok] at hrun
        obtain ⟨_, s₁, hfree, hrun⟩ := hrun
        rw [setInode_bind_run] at hrun
        refine (bfree_keys hfree).trans (.trans ?_ (ih hrun))
        exact sameKeys_withInode rfl rfl rfl rfl rfl

theorem truncIndirect_keys {l : List Nat} {r : Unit}
    (hrun : (truncIndirect l).run s = .ok (r, s')) : SameKeys s s' := by
  induction l generalizing s with
  | nil =>
      simp only [truncIndirect, Prog.pure_run, Except.ok.injEq, Prod.mk.injEq] at hrun
      obtain ⟨-, rfl⟩ := hrun
      exact .refl _
  | cons a rest ih =>
      simp only [truncIndirect] at hrun
      split at hrun
      · exact ih hrun
      · rw [Prog.bind_ok] at hrun
        obtain ⟨_, s₁, hfree, hrun⟩ := hrun
        exact (bfree_keys hfree).trans (ih hrun)

/-- `itrunc` frees blocks and writes the inode to the disk. -/
theorem itrunc_updated {r : Unit} (hrun : (itrunc ip).run s = .ok (r, s')) :
    ∃ s₁, SameKeys s s₁ ∧ s' = updated s₁ ip := by
  simp only [itrunc] at hrun
  rw [Prog.bind_ok] at hrun
  obtain ⟨_, s₁, hdirect, hrun⟩ := hrun
  rw [inodeAt_bind_run, Prog.bind_ok] at hrun
  obtain ⟨_, s₂, hindirect, hrun⟩ := hrun
  rw [setInode_bind_run] at hrun
  refine ⟨_, ?_, (iupdate_ok.mp hrun).symm⟩
  refine (truncDirect_keys hdirect).trans (.trans ?_ (sameKeys_withInode rfl rfl rfl rfl rfl))
  rw [Prog.when_ok] at hindirect
  rcases hindirect with ⟨-, hindirect⟩ | ⟨-, rfl⟩
  · rw [Prog.get_bind_run, Prog.bind_ok] at hindirect
    obtain ⟨_, s₃, hloop, hindirect⟩ := hindirect
    rw [Prog.bind_ok] at hindirect
    obtain ⟨_, s₄, hfree, hindirect⟩ := hindirect
    obtain rfl := setInode_ok.mp hindirect
    exact ((truncIndirect_keys hloop).trans (bfree_keys hfree)).trans
      (sameKeys_withInode rfl rfl rfl rfl rfl)
  · exact .refl _

theorem itrunc_moves {r : Unit} (hrun : (itrunc ip).run s = .ok (r, s'))
    (hv : (s.inode ip).valid = true) (hpos : 0 < (s.inode ip).ref) (h : Slot → Nat) :
    Moves s h s' h := by
  obtain ⟨s₁, hkeys, rfl⟩ := itrunc_updated hrun
  exact (hkeys.moves h).trans
    (updated_moves ((hkeys.valid ip).trans hv) (by rw [hkeys.ref]; exact hpos) h)

/-! ## Dropping a reference -/

/-- Dropping the last reference to an inode that was freed on the disk. -/
theorem freed_moves (hother : ∀ k, k ≠ ip → (s'.inode k).ref = (s.inode k).ref ∧
      Pinned (s.inode k) (s'.inode k) ∧ (s'.inode k).valid = (s.inode k).valid)
    (hlast : (s.inode ip).ref = 1) (hzero : (s'.inode ip).ref = 0)
    (hdinode : ∀ i, i ≠ (s.inode ip).inum → (s'.dinode i).type = (s.dinode i).type)
    (ht : SameTables s s') : Moves s (one ip) s' 0 := by
  have hne : ∀ k, 0 < (s'.inode k).ref → k ≠ ip := by
    rintro k hpos rfl
    omega
  refine ⟨⟨.drop (by simp [refs, hzero, hlast]) fun k hk => (hother k hk).1, fun k hk => ?_,
    fun hc _ => ⟨fun k => ?_, fun k hk => ?_, fun j k hj hk heq => ?_, fun k hk hv => ?_⟩⟩, ht⟩
  · by_cases hkip : k = ip
    · subst hkip
      rw [one_self] at hk
      omega
    · exact (hother k hkip).2.1
  · by_cases hkip : k = ip
    · rw [hkip, hzero]
    · rw [(hother k hkip).1]
      exact hc.nonneg k
  · obtain ⟨href, hpin, -⟩ := hother k (hne k hk)
    rw [hpin.dev]
    exact hc.dev k (by omega)
  · obtain ⟨hrefj, hpinj, -⟩ := hother j (hne j hj)
    obtain ⟨hrefk, hpink, -⟩ := hother k (hne k hk)
    rw [hpinj.inum, hpink.inum] at heq
    exact hc.unique j k (by omega) (by omega) heq
  · obtain ⟨href, hpin, hvalid⟩ := hother k (hne k hk)
    have hv' : (s.inode k).valid = true := hvalid.symm.trans hv
    have hinum : (s.inode k).inum ≠ (s.inode ip).inum := fun heq =>
      hne k hk (hc.unique k ip (by omega) (by omega) heq)
    rw [hpin.inum, (hpin.valid hv').2, hdinode _ hinum]
    exact hc.coherent k (by omega) hv'

theorem iput_moves {r : Unit} (hrun : (iput ip).run s = .ok (r, s')) :
    Moves s (one ip) s' 0 := by
  simp only [iput] at hrun
  rw [Prog.bind_ok] at hrun
  obtain ⟨_, s₁, hlock, hrun⟩ := hrun
  have hkeys : SameKeys s s₁ := by
    rw [acquiresleep, inodeAt_bind_run] at hlock
    split at hlock
    · simp at hlock
    · obtain rfl := setInode_ok.mp hlock
      exact sameKeys_withInode rfl rfl rfl rfl rfl
  rw [inodeAt_bind_run, Prog.bind_ok] at hrun
  obtain ⟨_, s₂, hfree, hrun⟩ := hrun
  rw [releasesleep, setInode_bind_run] at hrun
  obtain rfl := setInode_ok.mp hrun
  rw [withInode_self, withInode_withInode]
  rw [Prog.when_ok] at hfree
  rcases hfree with ⟨⟨-, -, hlast⟩, hfree⟩ | ⟨hkeep, rfl⟩
  · -- the inode is freed on the disk
    rw [Prog.bind_ok] at hfree
    obtain ⟨_, s₃, htrunc, hfree⟩ := hfree
    obtain ⟨s₄, hkeys₄, rfl⟩ := itrunc_updated htrunc
    rw [setInode_bind_run, iupdate_bind_run] at hfree
    obtain rfl := setInode_ok.mp hfree
    have hall := hkeys.trans hkeys₄
    refine freed_moves (fun k hk => ?_) (by rw [← hkeys.ref, hlast]) ?_ (fun i hi => ?_) ?_
    · simp only [withInode_of_ne hk, updated]
      exact ⟨hall.ref k, ⟨hall.dev k, hall.inum k, fun hv => ⟨(hall.valid k).trans hv,
        hall.type k⟩⟩, hall.valid k⟩
    · simp only [withInode_self, updated]
      rw [hkeys₄.ref, hlast]
      rfl
    · rw [← hall.inum ip] at hi
      simp only [withInode_dinode, withInode_self, updated]
      rw [Function.update_of_ne hi, Function.update_of_ne hi, hall.dinode]
    · exact hall.tables.trans ⟨rfl, rfl, rfl, rfl, rfl, rfl⟩
  · -- somebody else still refers to it, or it has links
    refine (hkeys.moves _).trans (moves_withInode ?_ (fun k hk => one_of_ne hk) (fun _ =>
      ⟨rfl, rfl, fun hv => ⟨hv, rfl⟩⟩) fun hc hh => ?_)
    · simp
    · have hone := hh ip
      rw [one_self] at hone
      have hpos : 0 < (s₂.inode ip).ref := by omega
      obtain ⟨hnonneg, hdev, hunique, hcoherent⟩ := hc.entry hpos
      exact ⟨by simp only; omega, fun _ => hdev hpos, fun _ => hunique hpos,
        fun _ => hcoherent hpos⟩

theorem iunlockput_moves {r : Unit} (hrun : (iunlockput ip).run s = .ok (r, s')) :
    Moves s (one ip) s' 0 := by
  rw [iunlockput, Prog.bind_ok] at hrun
  obtain ⟨_, s₁, hunlock, hput⟩ := hrun
  exact ((iunlock_keys hunlock).moves _).trans (iput_moves hput)

/-! ## The console -/

theorem consolereadLoop_keys {target n : Nat} {got : Str} {r : Option Str}
    (hrun : (consolereadLoop target n got).run s = .ok (r, s')) : SameKeys s s' := by
  induction n generalizing s got with
  | zero =>
      obtain ⟨-, rfl⟩ := Prog.pure_ok.mp hrun
      exact .refl _
  | succ n ih =>
      rw [consolereadLoop, Prog.get_bind_run] at hrun
      split at hrun
      · split at hrun
        · obtain ⟨-, rfl⟩ := Prog.pure_ok.mp hrun
          exact .refl _
        · simp at hrun
      · split at hrun
        · split at hrun
          · obtain ⟨-, rfl⟩ := Prog.pure_ok.mp hrun
            exact .refl _
          · rw [Prog.modify_bind_run] at hrun
            obtain ⟨-, rfl⟩ := Prog.pure_ok.mp hrun
            exact .of_eq rfl rfl ⟨rfl, rfl, rfl, rfl, rfl, rfl⟩
        · rw [Prog.modify_bind_run] at hrun
          split at hrun
          · obtain ⟨-, rfl⟩ := Prog.pure_ok.mp hrun
            exact .of_eq rfl rfl ⟨rfl, rfl, rfl, rfl, rfl, rfl⟩
          · refine .trans ?_ (ih hrun)
            exact .of_eq rfl rfl ⟨rfl, rfl, rfl, rfl, rfl, rfl⟩

theorem consoleread_moves {n : Int} {r : Int × Str}
    (hrun : (consoleread ip n).run s = .ok (r, s')) : Moves s 0 s' 0 := by
  rw [consoleread, Prog.bind_ok] at hrun
  obtain ⟨_, s₁, hunlock, hrun⟩ := hrun
  rw [Prog.bind_ok] at hrun
  obtain ⟨got, s₂, hloop, hrun⟩ := hrun
  rw [Prog.bind_ok] at hrun
  obtain ⟨_, s₃, hlock, hrun⟩ := hrun
  have hmoves := (((iunlock_keys hunlock).trans (consolereadLoop_keys hloop)).moves 0).trans
    (ilock_spec hlock).moves
  cases got with
  | none =>
      obtain ⟨-, rfl⟩ := Prog.pure_ok.mp hrun
      exact hmoves
  | some got =>
      obtain ⟨-, rfl⟩ := Prog.pure_ok.mp hrun
      exact hmoves

theorem consolewrite_moves {src : Str} {n r : Int}
    (hrun : (consolewrite ip src n).run s = .ok (r, s')) : Moves s 0 s' 0 := by
  rw [consolewrite, Prog.bind_ok] at hrun
  obtain ⟨_, s₁, hunlock, hrun⟩ := hrun
  rw [Prog.modify_bind_run, Prog.bind_ok] at hrun
  obtain ⟨_, s₂, hlock, hrun⟩ := hrun
  obtain ⟨-, rfl⟩ := Prog.pure_ok.mp hrun
  refine .trans (SameKeys.moves (.trans (iunlock_keys hunlock) ?_) 0) (ilock_spec hlock).moves
  exact .of_eq rfl rfl ⟨rfl, rfl, rfl, rfl, rfl, rfl⟩

/-! ## Reading and writing an inode -/

theorem readLoop_keys {fuel off n : Nat} {r : Str}
    (hrun : (readLoop ip fuel off n).run s = .ok (r, s')) : SameKeys s s' := by
  induction fuel generalizing s off n r with
  | zero =>
      obtain ⟨-, rfl⟩ := Prog.pure_ok.mp hrun
      exact .refl _
  | succ fuel ih =>
      rw [readLoop] at hrun
      split at hrun
      · obtain ⟨-, rfl⟩ := Prog.pure_ok.mp hrun
        exact .refl _
      · rw [Prog.bind_ok] at hrun
        obtain ⟨b, s₁, hmap, hrun⟩ := hrun
        rw [Prog.get_bind_run, Prog.bind_ok] at hrun
        obtain ⟨rest, s₂, hrest, hrun⟩ := hrun
        obtain ⟨-, rfl⟩ := Prog.pure_ok.mp hrun
        exact (bmap_keys hmap).trans (ih hrest)

theorem readi_moves {off n : Nat} {r : Int × Str} (hrun : (readi ip off n).run s = .ok (r, s')) :
    Moves s 0 s' 0 := by
  rw [readi, inodeAt_bind_run] at hrun
  split at hrun
  · split at hrun
    · obtain ⟨-, rfl⟩ := Prog.pure_ok.mp hrun
      exact .refl _ _
    · exact consoleread_moves hrun
  · split at hrun
    · obtain ⟨-, rfl⟩ := Prog.pure_ok.mp hrun
      exact .refl _ _
    · rw [Prog.bind_ok] at hrun
      obtain ⟨bytes, s₁, hloop, hrun⟩ := hrun
      obtain ⟨-, rfl⟩ := Prog.pure_ok.mp hrun
      exact (readLoop_keys hloop).moves 0

theorem writeLoop_keys {fuel off r : Nat} {src : Str}
    (hrun : (writeLoop ip fuel off src).run s = .ok (r, s')) : SameKeys s s' := by
  induction fuel generalizing s off src with
  | zero =>
      obtain ⟨-, rfl⟩ := Prog.pure_ok.mp hrun
      exact .refl _
  | succ fuel ih =>
      rw [writeLoop] at hrun
      split at hrun
      · obtain ⟨-, rfl⟩ := Prog.pure_ok.mp hrun
        exact .refl _
      · rw [Prog.bind_ok] at hrun
        obtain ⟨b, s₁, hmap, hrun⟩ := hrun
        rw [Prog.modify_bind_run] at hrun
        refine .trans (.trans (bmap_keys hmap) ?_) (ih hrun)
        exact .of_eq rfl rfl ⟨rfl, rfl, rfl, rfl, rfl, rfl⟩

theorem writei_moves {src : Str} {off : Nat} {r : Int}
    (hrun : (writei ip src off).run s = .ok (r, s')) (hv : (s.inode ip).valid = true)
    (hpos : 0 < (s.inode ip).ref) : Moves s 0 s' 0 := by
  simp only [writei, inodeAt_bind_run] at hrun
  split at hrun
  · split at hrun
    · obtain ⟨-, rfl⟩ := Prog.pure_ok.mp hrun
      exact .refl _ _
    · exact consolewrite_moves hrun
  · split at hrun
    · obtain ⟨-, rfl⟩ := Prog.pure_ok.mp hrun
      exact .refl _ _
    · split at hrun
      · obtain ⟨-, rfl⟩ := Prog.pure_ok.mp hrun
        exact .refl _ _
      · rw [Prog.bind_ok] at hrun
        obtain ⟨off', s₁, hloop, hrun⟩ := hrun
        rw [inodeAt_bind_run, Prog.bind_ok] at hrun
        obtain ⟨_, s₂, hgrow, hrun⟩ := hrun
        obtain ⟨-, rfl⟩ := Prog.pure_ok.mp hrun
        have hkeys := writeLoop_keys hloop
        rw [Prog.when_ok] at hgrow
        rcases hgrow with ⟨-, hgrow⟩ | ⟨-, rfl⟩
        · rw [setInode_bind_run] at hgrow
          obtain rfl := iupdate_ok.mp hgrow
          have hsize : SameKeys s₁ (withInode s₁ ip { s₁.inode ip with size := off' }) :=
            sameKeys_withInode rfl rfl rfl rfl rfl
          have hkeys₂ := hkeys.trans hsize
          exact (hkeys₂.moves 0).trans (updated_moves ((hkeys₂.valid ip).trans hv)
            (by rw [hkeys₂.ref]; exact hpos) 0)
        · exact hkeys.moves 0

end Fs
end CS444
