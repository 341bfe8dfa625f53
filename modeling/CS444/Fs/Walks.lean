/-
Walking the tree on the disk.

`Since s₀ s h l` says how far code that only looks names up has come: from `s₀`
to `s`, where it holds the references `h` and the lock `l`.  It reads the disk and
does not write it, so what it finds is what the tree of `s₀` says, `namei_since`,
in whatever state the inode cache is.
-/
import CS444.Fs.Tree

namespace CS444
namespace Fs

open Bytes Program Ledger

variable {s s₀ s₁ s' : Kernel} {ip dp k : Slot} {n : Nat} {h : Slot → Nat} {l : Option Slot}
  {name path : Str}

/-! ## Locks and references, exactly -/

/-- The on-disk inode `iupdate` writes. -/
def Inode.disk (i : Inode) : Dinode := ⟨i.type, i.major, i.minor, i.nlink, i.size, i.addrs⟩

/-- The entry as `ilock` leaves it. -/
def lockedIn (s : Kernel) (ip : Slot) : Inode :=
  if (s.inode ip).valid then { s.inode ip with locked := true }
  else
    let d := s.dinode (s.inode ip).inum
    { s.inode ip with
      locked := true, valid := true, type := d.type, major := d.major, minor := d.minor
      nlink := d.nlink, size := d.size, addrs := d.addrs }

/-- `ilock` does not stop. -/
structure Lockable (s : Kernel) (ip : Slot) : Prop where
  pos : 0 < (s.inode ip).ref
  free : (s.inode ip).locked = false
  typed : (s.inode ip).valid = true ∨ (s.dinode (s.inode ip).inum).type ≠ 0

theorem ilock_run (hl : Lockable s ip) :
    (ilock ip).run s = .ok ((), withInode s ip (lockedIn s ip)) := by
  obtain ⟨hpos, hfree, htyped⟩ := hl
  have hacquire : (acquiresleep ip).run s =
      .ok ((), withInode s ip { s.inode ip with locked := true }) := by
    rw [acquiresleep, inodeAt_bind_run, if_neg (by rw [hfree]; exact Bool.false_ne_true),
      setInode_run]
  rw [ilock, inodeAt_bind_run, if_neg (by omega), Prog.bind_eq hacquire]
  unfold lockedIn
  by_cases hvalid : (s.inode ip).valid = true
  · rw [if_pos hvalid, if_pos hvalid, Prog.pure_run]
  · have htype := htyped.resolve_left hvalid
    rw [if_neg hvalid, if_neg hvalid, Prog.get_bind_run, setInode_bind_run, withInode_self,
      withInode_withInode]
    exact if_neg htype ▸ rfl

theorem lockable_of_ilock {u : Unit} (hrun : (ilock ip).run s = .ok (u, s')) : Lockable s ip := by
  have hl := ilock_spec hrun
  rw [ilock, inodeAt_bind_run, if_neg (by have := hl.pos; omega), Prog.bind_ok] at hrun
  obtain ⟨_, s₁, hacquire, hrun⟩ := hrun
  rw [acquiresleep, inodeAt_bind_run] at hacquire
  split at hacquire
  · exact absurd hacquire (by simp)
  · rename_i hfree
    obtain rfl := setInode_ok.mp hacquire
    refine ⟨hl.pos, Bool.eq_false_iff.mpr hfree, ?_⟩
    by_cases hvalid : (s.inode ip).valid = true
    · exact Or.inl hvalid
    · rw [if_neg hvalid, Prog.get_bind_run, setInode_bind_run] at hrun
      refine Or.inr fun htype => ?_
      simp only [withInode_self, withInode_dinode, htype, if_true, panic_run] at hrun
      exact absurd hrun (by simp)

theorem ilock_iff {u : Unit} : (ilock ip).run s = .ok (u, s') ↔
    Lockable s ip ∧ withInode s ip (lockedIn s ip) = s' := by
  constructor
  · intro hrun
    have hl := lockable_of_ilock hrun
    exact ⟨hl, (Prod.mk.inj (Except.ok.inj ((ilock_run hl).symm.trans hrun))).2⟩
  · rintro ⟨hl, rfl⟩
    exact ilock_run hl

theorem iunlock_iff {u : Unit} : (iunlock ip).run s = .ok (u, s') ↔
    ((s.inode ip).locked = true ∧ 0 < (s.inode ip).ref) ∧
      withInode s ip { s.inode ip with locked := false } = s' := by
  rw [iunlock, inodeAt_bind_run]
  by_cases hc : (s.inode ip).locked = false ∨ (s.inode ip).ref < 1
  · rw [if_pos hc, panic_run]
    refine iff_of_false (by simp) fun hgood => ?_
    obtain ⟨⟨hlocked, hpos⟩, -⟩ := hgood
    rcases hc with hc | hc
    · exact absurd (hc.symm.trans hlocked) (by simp)
    · omega
  · rw [if_neg hc, releasesleep, setInode_ok]
    rw [not_or] at hc
    exact (and_iff_right ⟨Bool.eq_true_of_not_eq_false hc.1, by omega⟩).symm

/-- `iput` frees the inode on the disk. -/
def Frees (s : Kernel) (ip : Slot) : Prop :=
  (s.inode ip).valid = true ∧ (s.inode ip).nlink = 0 ∧ (s.inode ip).ref = 1

theorem iput_run (hkeep : ¬ Frees s ip) (hfree : (s.inode ip).locked = false) :
    (iput ip).run s = .ok ((), withInode s ip
      { s.inode ip with ref := (s.inode ip).ref - 1, locked := false }) := by
  have hacquire : (acquiresleep ip).run s =
      .ok ((), withInode s ip { s.inode ip with locked := true }) := by
    rw [acquiresleep, inodeAt_bind_run, if_neg (by rw [hfree]; exact Bool.false_ne_true),
      setInode_run]
  rw [iput, Prog.bind_eq hacquire, inodeAt_bind_run, withInode_self]
  simp only
  have hkeep : ¬ ((s.inode ip).valid = true ∧ (s.inode ip).nlink = 0 ∧ (s.inode ip).ref = 1) :=
    hkeep
  rw [Prog.when, if_neg hkeep, Prog.pure_bind_run, releasesleep, setInode_bind_run, setInode_run]
  simp only [withInode_self, withInode_withInode]

/-! ## How far a lookup has come -/

/-- Between calls: what the cache has read agrees with the disk, no file has
holes, and an inode that is allocated has a link or somebody refers to it. -/
structure Coherent (s : Kernel) : Prop where
  cache : CacheOk s
  clean : ∀ k, 0 < (s.inode k).ref → (s.inode k).valid = true →
    (s.inode k).disk = s.dinode (s.inode k).inum
  filled : ∀ n, (s.dinode n).type ≠ 0 → Filled s.block (s.dinode n).size (s.dinode n).addrs
  live : ∀ n, (s.dinode n).type ≠ 0 → (s.dinode n).nlink = 0 →
    ∃ k, 0 < (s.inode k).ref ∧ (s.inode k).inum = n

/-- The disk and its super block. -/
structure SameDisk (s s' : Kernel) : Prop where
  sb : s'.sb = s.sb
  bitmap : s'.bitmap = s.bitmap
  block : s'.block = s.block
  dinode : s'.dinode = s.dinode

/-- Code that started in `s₀` has come to `s` by looking names up, and holds the
references `h` and the lock `l`. -/
structure Since (s₀ s : Kernel) (h : Slot → Nat) (l : Option Slot) : Prop where
  moves : Moves s₀ 0 s h
  disk : SameDisk s₀ s
  clean : ∀ k, 0 < (s.inode k).ref → (s.inode k).valid = true →
    (s.inode k).disk = s₀.dinode (s.inode k).inum
  locks : ∀ k, (s.inode k).locked = true → (s₀.inode k).locked = true ∨ l = some k

theorem SameDisk.same (hd : SameDisk s s₁) (hsb : s'.sb = s₁.sb) (hbitmap : s'.bitmap = s₁.bitmap)
    (hblock : s'.block = s₁.block) (hdinode : s'.dinode = s₁.dinode) : SameDisk s s' :=
  ⟨hsb.trans hd.sb, hbitmap.trans hd.bitmap, hblock.trans hd.block, hdinode.trans hd.dinode⟩

theorem Coherent.since (hs : Coherent s) : Since s s 0 none :=
  ⟨.refl s 0, ⟨rfl, rfl, rfl, rfl⟩, hs.clean, fun _ hk => Or.inl hk⟩

theorem Since.cacheOk (hsince : Since s₀ s h l) (hs : Coherent s₀) : CacheOk s :=
  hsince.moves.cacheOk hs.cache

theorem Since.ref_eq (hsince : Since s₀ s h l) (k : Slot) :
    (s.inode k).ref = (s₀.inode k).ref + h k := by
  have := hsince.moves.ref_eq k
  simpa using this

/-- The number of an entry that is held does not change. -/
theorem Since.cwd {cwd : Slot} (hsince : Since s₀ s h l) (hpos : 0 < (s₀.inode cwd).ref) :
    (s.inode cwd).inum = (s₀.inode cwd).inum :=
  (hsince.moves.pinned cwd (by simpa using hpos)).inum

/-- A change of one entry that holds what it held. -/
theorem Since.withInode {i : Inode} {l' : Option Slot} (hsince : Since s₀ s h l)
    (hm : Moves s 0 (withInode s ip i) 0)
    (hclean : 0 < i.ref → i.valid = true → i.disk = s₀.dinode i.inum)
    (hlocks : ∀ k, ((Fs.withInode s ip i).inode k).locked = true →
      (s₀.inode k).locked = true ∨ l' = some k) : Since s₀ (Fs.withInode s ip i) h l' := by
  refine ⟨hsince.moves.andThen hm, hsince.disk.same rfl rfl rfl rfl, fun k => ?_, hlocks⟩
  by_cases hk : k = ip
  · rw [hk, withInode_self]
    exact hclean
  · rw [withInode_of_ne hk]
    exact hsince.clean k

/-- A found or fresh entry in the cache. -/
theorem Since.iget {dev : Nat} (hsince : Since s₀ s h l) (hdev : KnownDev s dev)
    (hrun : (iget dev n).run s = .ok (ip, s')) :
    Since s₀ s' (h + one ip) l ∧ (s'.inode ip).inum = n ∧ 0 < (s'.inode ip).ref := by
  have hm := iget_moves hrun hdev
  have hmoves := hsince.moves.trans (hm.beside h)
  rcases iget_cases hrun with ⟨hpos, -, hinum, rfl⟩ | ⟨-, hzero, rfl⟩
  · refine ⟨⟨hmoves, hsince.disk.same rfl rfl rfl rfl, fun k => ?_, fun k => ?_⟩, ?_, ?_⟩
    · by_cases hk : k = ip
      · rw [hk, withInode_self]
        exact fun _ => hsince.clean ip hpos
      · rw [withInode_of_ne hk]
        exact hsince.clean k
    · by_cases hk : k = ip
      · rw [hk, withInode_self]
        exact hsince.locks ip
      · rw [withInode_of_ne hk]
        exact hsince.locks k
    · rw [withInode_self]
      exact hinum
    · rw [withInode_self]
      show 0 < (s.inode ip).ref + 1
      omega
  · refine ⟨⟨hmoves, hsince.disk.same rfl rfl rfl rfl, fun k => ?_, fun k => ?_⟩, ?_, ?_⟩
    · by_cases hk : k = ip
      · rw [hk, withInode_self]
        exact fun _ hv => absurd hv (by simp)
      · rw [withInode_of_ne hk]
        exact hsince.clean k
    · by_cases hk : k = ip
      · rw [hk, withInode_self]
        exact hsince.locks ip
      · rw [withInode_of_ne hk]
        exact hsince.locks k
    · rw [withInode_self]
    · rw [withInode_self]
      exact Int.one_pos

theorem Since.idup {k : Slot} (hsince : Since s₀ s h l) (hpos : 0 < (s.inode ip).ref)
    (hrun : (idup ip).run s = .ok (k, s')) : k = ip ∧ Since s₀ s' (h + one ip) l ∧
      (s'.inode ip).inum = (s.inode ip).inum ∧ 0 < (s'.inode ip).ref := by
  obtain ⟨rfl, hm⟩ := idup_moves hrun hpos
  simp only [Fs.idup, setInode_bind_run, Prog.pure_run, Except.ok.injEq, Prod.mk.injEq,
    true_and] at hrun
  subst hrun
  refine ⟨rfl, ⟨hsince.moves.trans (hm.beside h), hsince.disk.same rfl rfl rfl rfl,
    fun j => ?_, fun j => ?_⟩, ?_, ?_⟩
  · by_cases hj : j = k
    · rw [hj, withInode_self]
      exact fun _ => hsince.clean k hpos
    · rw [withInode_of_ne hj]
      exact hsince.clean j
  · by_cases hj : j = k
    · rw [hj, withInode_self]
      exact hsince.locks k
    · rw [withInode_of_ne hj]
      exact hsince.locks j
  · rw [withInode_self]
  · rw [withInode_self]
    show 0 < (s.inode k).ref + 1
    omega

/-- What `ilock` leaves: the entry agrees with the disk it started from. -/
structure Loaded (s₀ s : Kernel) (ip : Slot) (n : Nat) : Prop where
  inum : (s.inode ip).inum = n
  inUse : InUse s ip
  locked : (s.inode ip).locked = true
  disk : (s.inode ip).disk = s₀.dinode n
  typed : (s.inode ip).type ≠ 0

theorem Loaded.type (hl : Loaded s₀ s ip n) : (s.inode ip).type = (s₀.dinode n).type :=
  congrArg Dinode.type hl.disk

theorem Since.ilock {u : Unit} (hsince : Since s₀ s h none) (hs : Coherent s₀)
    (hrun : (ilock ip).run s = .ok (u, s')) :
    Since s₀ s' h (some ip) ∧ Loaded s₀ s' ip (s.inode ip).inum := by
  have hl := ilock_spec hrun
  obtain ⟨hlockable, rfl⟩ := ilock_iff.mp hrun
  have hdisk : (lockedIn s ip).disk = s₀.dinode (s.inode ip).inum ∧
      (lockedIn s ip).inum = (s.inode ip).inum ∧ (lockedIn s ip).locked = true ∧
      (lockedIn s ip).type ≠ 0 := by
    unfold lockedIn
    by_cases hvalid : (s.inode ip).valid = true
    · rw [if_pos hvalid]
      exact ⟨hsince.clean ip hl.pos hvalid, rfl, rfl,
        ((hsince.cacheOk hs).coherent ip hl.pos hvalid).2⟩
    · rw [if_neg hvalid, ← hsince.disk.dinode]
      exact ⟨rfl, rfl, rfl, hlockable.typed.resolve_left hvalid⟩
  obtain ⟨hdisk, hinum, hlocked, htype⟩ := hdisk
  refine ⟨hsince.withInode hl.moves (fun _ _ => by rw [hdisk, hinum]) fun k => ?_, ?_⟩
  · by_cases hk : k = ip
    · exact fun _ => Or.inr (congrArg some hk.symm)
    · rw [withInode_of_ne hk]
      exact fun hlock => (hsince.locks k hlock).imp_right fun h => absurd h (by simp)
  · refine ⟨?_, hl.inUse, ?_, ?_, ?_⟩
    · rw [withInode_self, hinum]
    · rw [withInode_self, hlocked]
    · rw [withInode_self, hdisk]
    · rw [withInode_self]
      exact htype

theorem Since.iunlock {u : Unit} (hsince : Since s₀ s h (some ip))
    (hrun : (iunlock ip).run s = .ok (u, s')) :
    Since s₀ s' h none ∧ (s'.inode ip).inum = (s.inode ip).inum := by
  have hm := (iunlock_keys hrun).moves 0
  obtain ⟨⟨-, hpos⟩, rfl⟩ := iunlock_iff.mp hrun
  refine ⟨hsince.withInode hm (fun _ hv => hsince.clean ip hpos hv) fun k => ?_, ?_⟩
  · by_cases hk : k = ip
    · rw [hk, withInode_self]
      exact fun h => absurd h (by simp)
    · rw [withInode_of_ne hk]
      exact fun hlock => (hsince.locks k hlock).imp_right fun h =>
        absurd (Option.some.inj h).symm hk
  · rw [withInode_self]

/-- Code that only looks names up holds no last reference to an inode without links. -/
theorem Since.not_frees (hsince : Since s₀ s (h + one ip) l) (hs : Coherent s₀) : ¬ Frees s ip := by
  rintro ⟨hvalid, hnlink, hone⟩
  have hc := hsince.cacheOk hs
  have hpos : 0 < (s.inode ip).ref := by omega
  have hdisk := hsince.clean ip hpos hvalid
  have htype := (hc.coherent ip hpos hvalid).2
  obtain ⟨k, hk, hinum⟩ := hs.live (s.inode ip).inum
    (by rw [← hdisk]; exact htype) (by rw [← hdisk]; exact hnlink)
  have hk' := hsince.ref_eq k
  obtain rfl : k = ip := hc.unique k ip (by omega) hpos ((hsince.cwd hk).trans hinum)
  simp only [Pi.add_apply, one_self] at hk'
  omega

theorem iput_unlocked {u : Unit} (hrun : (iput ip).run s = .ok (u, s')) :
    (s.inode ip).locked = false := by
  by_contra hlocked
  rw [iput, Prog.bind_ok] at hrun
  obtain ⟨_, s₁, hacquire, -⟩ := hrun
  rw [acquiresleep, inodeAt_bind_run, if_pos (Bool.eq_true_of_not_eq_false hlocked)] at hacquire
  exact absurd hacquire (by simp)

theorem Since.iput {u : Unit} (hsince : Since s₀ s (h + one ip) none) (hs : Coherent s₀)
    (hrun : (iput ip).run s = .ok (u, s')) : Since s₀ s' h none := by
  have hm := (iput_moves hrun).leaving h
  have hput := iput_run (hsince.not_frees hs) (iput_unlocked hrun)
  obtain ⟨-, rfl⟩ := Prod.mk.inj (Except.ok.inj (hput.symm.trans hrun))
  refine ⟨hsince.moves.trans hm, hsince.disk.same rfl rfl rfl rfl, fun k => ?_, fun k => ?_⟩
  · by_cases hk : k = ip
    · rw [hk, withInode_self]
      intro hpos hv
      exact hsince.clean ip (by simp only at hpos; omega) hv
    · rw [withInode_of_ne hk]
      exact hsince.clean k
  · by_cases hk : k = ip
    · rw [hk, withInode_self]
      exact fun h => absurd h (by simp)
    · rw [withInode_of_ne hk]
      exact hsince.locks k

theorem Since.iunlockput {u : Unit} (hsince : Since s₀ s (h + one ip) (some ip)) (hs : Coherent s₀)
    (hrun : (iunlockput ip).run s = .ok (u, s')) : Since s₀ s' h none := by
  rw [Fs.iunlockput, Prog.bind_ok] at hrun
  obtain ⟨_, s₁, hunlock, hput⟩ := hrun
  exact (hsince.iunlock hunlock).1.iput hs hput

/-! ## Walks -/

/-- The files of a settled state, as the cache of a later one has them. -/
theorem Loaded.filled (hl : Loaded s₀ s ip n) (hsince : Since s₀ s h l) (hs : Coherent s₀) :
    Filled s.block (s.inode ip).size (s.inode ip).addrs := by
  have hf := hs.filled n (by rw [← hl.type]; exact hl.typed)
  rw [← hl.disk, ← hsince.disk.block] at hf
  exact hf

theorem Loaded.cached (hl : Loaded s₀ s ip n) (hsince : Since s₀ s h l) :
    cached s ip = (tree s₀ n).contents := by
  show contents s.block (s.inode ip).disk = contents s₀.block (s₀.dinode n)
  rw [hl.disk, hsince.disk.block]

/-- What a walk of the tree finds and what the code comes back with. -/
inductive Finds (s₀ : Kernel) (h : Slot → Nat) :
    Option (Nat × Str) → Option (Slot × Str) → Kernel → Prop
  | missing {s' : Kernel} : Since s₀ s' h none → Finds s₀ h none none s'
  | found {s' : Kernel} {ip : Slot} {n : Nat} {name : Str} : Since s₀ s' (h + one ip) none →
      (s'.inode ip).inum = n → Finds s₀ h (some (n, name)) (some (ip, name)) s'

/-- `dirlookup` of a locked directory finds what the tree has there. -/
theorem Since.dirlookup {r : Option (Slot × Nat)} (hsince : Since s₀ s h l) (hs : Coherent s₀)
    (hl : Loaded s₀ s dp n) (htype : (s.inode dp).type = T_DIR)
    (hrun : (dirlookup dp name).run s = .ok (r, s')) :
    (r = none ∧ s' = s ∧ lookup (tree s₀ n).contents name = none) ∨
      ∃ ip off m, r = some (ip, off) ∧ lookup (tree s₀ n).contents name = some m ∧
        (s'.inode ip).inum = m ∧ Since s₀ s' (h + one ip) l := by
  rw [dirlookup_eq (hl.filled hsince hs) htype, hl.cached hsince] at hrun
  unfold lookup
  cases hentry : entryOff (tree s₀ n).contents name with
  | none =>
      rw [hentry, fetched] at hrun
      split at hrun
      · obtain ⟨rfl, rfl⟩ := Prod.mk.inj (Except.ok.inj hrun)
        exact Or.inl ⟨rfl, rfl, rfl⟩
      · exact absurd hrun (by simp)
  | some off =>
      rw [hentry, fetched, hl.cached hsince, Prog.bind_ok] at hrun
      obtain ⟨ip, s₁, hget, hrun⟩ := hrun
      obtain ⟨rfl, rfl⟩ := Prog.pure_ok.mp hrun
      obtain ⟨hnext, hinum, -⟩ := hsince.iget (Or.inr ⟨dp, hl.inUse.pos, rfl⟩) hget
      exact Or.inr ⟨ip, off, _, rfl, rfl, hinum, hnext⟩

/-- An entry that is held and locked stays the one it is. -/
theorem Loaded.mono {h' : Slot → Nat} (hl : Loaded s₀ s ip n) (hm : Moves s 0 s' h') :
    (s'.inode ip).inum = n :=
  (hm.pinned ip (by simpa using hl.inUse.pos)).inum.trans hl.inum

theorem namexLoop_finds {parent : Bool} {fuel : Nat} {r : Option (Slot × Str)} (hs : Coherent s₀)
    (hsince : Since s₀ s (h + one ip) none)
    (hrun : (namexLoop parent fuel path ip name).run s = .ok (r, s')) :
    Finds s₀ h (walk (tree s₀) parent fuel path (s.inode ip).inum name) r s' := by
  induction fuel generalizing s path ip name with
  | zero => simp [namexLoop] at hrun
  | succ fuel ih =>
      rw [namexLoop] at hrun
      rw [walk]
      cases hskip : skipelem path with
      | none =>
          rw [hskip] at hrun
          simp only at hrun ⊢
          by_cases hparent : parent = true
          · rw [if_pos hparent, Prog.bind_ok] at hrun
            obtain ⟨_, s₁, hput, hrun⟩ := hrun
            obtain ⟨rfl, rfl⟩ := Prog.pure_ok.mp hrun
            rw [if_pos hparent]
            exact .missing (hsince.iput hs hput)
          · rw [if_neg hparent] at hrun
            obtain ⟨rfl, rfl⟩ := Prog.pure_ok.mp hrun
            rw [if_neg hparent]
            exact .found hsince rfl
      | some e =>
          obtain ⟨elem, rest⟩ := e
          rw [hskip] at hrun
          simp only at hrun ⊢
          rw [Prog.bind_ok] at hrun
          obtain ⟨_, s₁, hlock, hrun⟩ := hrun
          obtain ⟨hsince₁, hl⟩ := hsince.ilock hs hlock
          rw [inodeAt_bind_run] at hrun
          rw [show (tree s₀ (s.inode ip).inum).type = (s₁.inode ip).type from hl.type.symm]
          by_cases hdir : (s₁.inode ip).type ≠ T_DIR
          · rw [if_pos hdir, Prog.bind_ok] at hrun
            obtain ⟨_, s₂, hput, hrun⟩ := hrun
            obtain ⟨rfl, rfl⟩ := Prog.pure_ok.mp hrun
            rw [if_pos hdir]
            exact .missing (hsince₁.iunlockput hs hput)
          · rw [if_neg hdir] at hrun ⊢
            by_cases hlast : parent = true ∧ rest = []
            · rw [if_pos hlast, Prog.bind_ok] at hrun
              obtain ⟨_, s₂, hunlock, hrun⟩ := hrun
              obtain ⟨rfl, rfl⟩ := Prog.pure_ok.mp hrun
              obtain ⟨hsince₂, hinum⟩ := hsince₁.iunlock hunlock
              rw [if_pos hlast]
              exact .found hsince₂ (hinum.trans hl.inum)
            · rw [if_neg hlast, Prog.bind_ok] at hrun
              obtain ⟨e, s₂, hlookup, hrun⟩ := hrun
              rw [if_neg hlast]
              rcases hsince₁.dirlookup hs hl (not_not.mp hdir) hlookup with
                ⟨rfl, rfl, hnone⟩ | ⟨next, off, m, rfl, hsome, hinum, hsince₂⟩
              · simp only at hrun
                rw [Prog.bind_ok] at hrun
                obtain ⟨_, s₃, hput, hrun⟩ := hrun
                obtain ⟨rfl, rfl⟩ := Prog.pure_ok.mp hrun
                rw [hnone]
                exact .missing (hsince₁.iunlockput hs hput)
              · simp only at hrun
                rw [Prog.bind_ok] at hrun
                obtain ⟨_, s₃, hput, hrun⟩ := hrun
                rw [add_right_comm] at hsince₂
                have hsince₃ := hsince₂.iunlockput hs hput
                have hheld := hsince₂.ref_eq next
                simp only [Pi.add_apply, one_self] at hheld
                have hnonneg := hs.cache.nonneg next
                have hkept := ((iunlockput_moves hput).pinned next (by omega)).inum
                rw [hsome, show m = (s₃.inode next).inum from (hkept.trans hinum).symm]
                exact ih hsince₃ hrun

/-- The process in `s` has the directory `cwd`. -/
def CwdIs (s : Kernel) (cwd : Slot) : Prop :=
  (s.proc s.cur).cwd = some cwd ∧ 0 < (s.inode cwd).ref

theorem Since.start {cwd : Slot} (hsince : Since s₀ s h none) (hcwd : CwdIs s₀ cwd)
    (hrun : (namexStart path).run s = .ok (ip, s')) :
    Since s₀ s' (h + one ip) none ∧
      (s'.inode ip).inum = startOf path (s₀.inode cwd).inum := by
  rw [namexStart] at hrun
  unfold startOf
  split at hrun
  · rename_i habs
    obtain ⟨hnext, hinum, -⟩ := hsince.iget (Or.inl rfl) hrun
    rw [if_pos habs]
    exact ⟨hnext, hinum⟩
  · rename_i hrel
    have hproc : (s.proc s.cur).cwd = some cwd := by
      rw [hsince.moves.tables.proc, hsince.moves.tables.cur]
      exact hcwd.1
    have href := hsince.ref_eq cwd
    have hpos := hcwd.2
    rw [myproc_bind_run, hproc] at hrun
    obtain ⟨rfl, hnext, hinum, -⟩ := hsince.idup (by omega) hrun
    rw [if_neg hrel]
    exact ⟨hnext, hinum.trans (hsince.cwd hpos)⟩

theorem namex_finds {parent : Bool} {cwd : Slot} {r : Option (Slot × Str)} (hs : Coherent s₀)
    (hcwd : CwdIs s₀ cwd) (hsince : Since s₀ s h none)
    (hrun : (namex path parent).run s = .ok (r, s')) :
    Finds s₀ h (walk (tree s₀) parent (path.length + 1) path
      (startOf path (s₀.inode cwd).inum) []) r s' := by
  rw [namex, Prog.bind_ok] at hrun
  obtain ⟨ip, s₁, hstart, hrun⟩ := hrun
  obtain ⟨hnext, hinum⟩ := hsince.start hcwd hstart
  rw [← hinum]
  exact namexLoop_finds hs hnext hrun

/-- `namei` finds the inode the tree has for the path. -/
theorem namei_since {cwd : Slot} {r : Option Slot} (hs : Coherent s₀) (hcwd : CwdIs s₀ cwd)
    (hsince : Since s₀ s h none) (hrun : (namei path).run s = .ok (r, s')) :
    (r = none ∧ resolve (tree s₀) (s₀.inode cwd).inum path = none ∧ Since s₀ s' h none) ∨
      ∃ ip, r = some ip ∧ resolve (tree s₀) (s₀.inode cwd).inum path = some (s'.inode ip).inum ∧
        Since s₀ s' (h + one ip) none := by
  rw [namei, Prog.bind_ok] at hrun
  obtain ⟨w, s₁, hwalk, hrun⟩ := hrun
  obtain ⟨rfl, rfl⟩ := Prog.pure_ok.mp hrun
  have hfinds := namex_finds hs hcwd hsince hwalk
  unfold resolve
  generalize walk (tree s₀) false (path.length + 1) path
    (startOf path (s₀.inode cwd).inum) [] = found at hfinds
  cases hfinds with
  | missing hnext => exact Or.inl ⟨rfl, rfl, hnext⟩
  | found hnext hinum => exact Or.inr ⟨_, rfl, congrArg some hinum.symm, hnext⟩

/-- `nameiparent` finds the directory the tree has for the path without its last name. -/
theorem nameiparent_since {cwd : Slot} {r : Option (Slot × Str)} (hs : Coherent s₀)
    (hcwd : CwdIs s₀ cwd) (hsince : Since s₀ s h none)
    (hrun : (nameiparent path).run s = .ok (r, s')) :
    (r = none ∧ resolveParent (tree s₀) (s₀.inode cwd).inum path = none ∧ Since s₀ s' h none) ∨
      ∃ dp nm, r = some (dp, nm) ∧ Since s₀ s' (h + one dp) none ∧
        resolveParent (tree s₀) (s₀.inode cwd).inum path = some ((s'.inode dp).inum, nm) := by
  have hfinds := namex_finds hs hcwd hsince hrun
  unfold resolveParent
  generalize walk (tree s₀) true (path.length + 1) path
    (startOf path (s₀.inode cwd).inum) [] = found at hfinds
  cases hfinds with
  | missing hnext => exact Or.inl ⟨rfl, rfl, hnext⟩
  | found hnext hinum => exact Or.inr ⟨_, _, rfl, hnext, by rw [hinum]⟩

end Fs
end CS444
