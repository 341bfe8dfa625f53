/-
`stat` of the user library.

The call opens the path for reading, asks for the type of the file and closes it
again.  It succeeds if the path names something and the kernel has a file table entry
and a descriptor left, `stat_result`, and in no case does it change the disk.
-/
import CS444.Fs.Opening
import CS444.Fs.Ulib

namespace CS444
namespace Fs

open Bytes Program Ledger

variable {s s₁ s' : Kernel} {ip cwd : Slot} {m n st : Nat} {h : Slot → Nat} {path : Str}
  {fd : Fin NOFILE} {f : FileSlot} {r : Int} {u : User}

/-! ## Descriptors -/

/-- The descriptor `fd` of the process is the file `f`, the only one, on `ip`. -/
structure SoleFile (s : Kernel) (fd : Fin NOFILE) (f : FileSlot) (ip : Slot) : Prop where
  fd : (s.proc s.cur).ofile fd = some f
  type : (s.file f).type = .inode
  ip : (s.file f).ip = some ip
  ref : (s.file f).ref = 1

theorem argfd_open (harg : u.argint 0 = some fd.val) (hfd : (s.proc s.cur).ofile fd = some f) :
    (argfd u 0).run s = .ok (some (fd, f), s) := by
  rw [argfd, myproc_bind_run, harg]
  simp only
  rw [dif_pos fd.isLt, hfd]
  rfl

theorem Opened.sole {omode : Nat} (ho : Opened s omode ip fd f s') : SoleFile s' fd f ip := by
  constructor
  case fd =>
    rw [ho.cur, ho.proc, Function.update_self]
    exact Function.update_self fd (some f) (s.proc s.cur).ofile
  all_goals
    rw [ho.file, Function.update_self]
    rfl

/-- `fstat` of an open file tells its type. -/
theorem sys_fstat_type {res : Int × Option Stat} (hm : Midway s h none)
    (hf : SoleFile s fd f ip) (hinum : (s.inode ip).inum = m) (harg : u.argint 0 = some fd.val)
    (hptr : u.argptr 1 20 = some st) (hrun : (sys_fstat u).run s = .ok (res, s')) :
    (∃ stat, res = (0, some stat) ∧ stat.type = (tree s m).type) ∧ Since s s' 0 none := by
  have hc := hm.sound.toCoherent
  rw [sys_fstat, Prog.bind_eq (argfd_open harg hf.fd), hptr] at hrun
  simp only at hrun
  rw [filestat, fileAt_bind_run, if_pos hf.type, hf.ip] at hrun
  simp only at hrun
  rw [Prog.bind_ok] at hrun
  obtain ⟨_, s₁, hlock, hrun⟩ := hrun
  obtain ⟨hsince, hl⟩ := (hc.sinceHere none).ilock hc hlock
  rw [inodeAt_bind_run, Prog.bind_ok] at hrun
  obtain ⟨_, s₂, hunlock, hrun⟩ := hrun
  obtain ⟨rfl, rfl⟩ := Prog.pure_ok.mp hrun
  rw [hinum] at hl
  exact ⟨⟨_, rfl, hl.type⟩, (hsince.iunlock hunlock).1⟩

/-- The file `f` and its descriptor were closed, and the reference to `ip` dropped. -/
structure ClosedFile (s : Kernel) (h : Slot → Nat) (fd : Fin NOFILE) (f : FileSlot) (ip : Slot)
    (s' : Kernel) : Prop where
  midway : Midway s' h none
  disk : SameDisk s s'
  moves : InodeMoves s (one ip) s' 0
  cwd : (s'.proc s'.cur).cwd = (s.proc s.cur).cwd
  others : ∀ {fd' g k}, fd' ≠ fd → g ≠ f → SoleFile s fd' g k → SoleFile s' fd' g k

/-- Closing the only file table entry drops its reference. -/
theorem fileclose_sole {res : Unit} (hm : Midway s (h + one ip) none) (href : (s.file f).ref = 1)
    (htype : (s.file f).type = .inode) (hip : (s.file f).ip = some ip)
    (hrun : (fileclose f).run s = .ok (res, s')) : Midway s' h none ∧ SameDisk s s' ∧
      InodeMoves s (one ip) s' 0 ∧ s'.proc = s.proc ∧ s'.cur = s.cur ∧
      ∀ g, g ≠ f → s'.file g = s.file g := by
  rw [fileclose, fileAt_bind_run, if_neg (by omega), if_neg (by omega), setFile_bind_run,
    htype] at hrun
  simp only at hrun
  have hsame : SameInodes s (withFile s f { s.file f with ref := 0, type := .none }) :=
    ⟨⟨rfl, rfl, rfl, rfl⟩, rfl⟩
  split at hrun
  · rename_i hnone
    exact absurd (hip.symm.trans hnone) (by simp)
  rename_i k hk
  obtain rfl := Option.some.inj (hip.symm.trans hk)
  obtain ⟨hm', hd⟩ := (hsame.midway hm).iput (by simp) hrun
  have hmoves := iput_moves hrun
  refine ⟨hm', hsame.toSameDisk.trans hd,
    (InodeMoves.of_eq hsame.inode hsame.dinode _).trans hmoves.toInodeMoves,
    hmoves.tables.proc, hmoves.tables.cur, fun g hg => ?_⟩
  rw [hmoves.tables.file, withFile_of_ne hg]

/-- `close` of the only descriptor drops the reference. -/
theorem sys_close_sole (hm : Midway s (h + one ip) none) (hf : SoleFile s fd f ip)
    (harg : u.argint 0 = some fd.val) (hrun : (sys_close u).run s = .ok (r, s')) :
    ClosedFile s h fd f ip s' := by
  rw [sys_close, Prog.bind_eq (argfd_open harg hf.fd)] at hrun
  simp only at hrun
  rw [clearFd, setProc_bind_run, Prog.bind_ok] at hrun
  obtain ⟨_, s₁, hclose, hrun⟩ := hrun
  obtain ⟨rfl, rfl⟩ := Prog.pure_ok.mp hrun
  have hsame : SameInodes s (withProc s { s.proc s.cur with
      ofile := Function.update (s.proc s.cur).ofile fd none }) := ⟨⟨rfl, rfl, rfl, rfl⟩, rfl⟩
  obtain ⟨hm', hd, hmoves, hproc, hcur, hfiles⟩ := fileclose_sole (hsame.midway hm) hf.ref
    hf.type hf.ip hclose
  refine ⟨hm', hsame.toSameDisk.trans hd,
    (InodeMoves.of_eq hsame.inode hsame.dinode _).trans hmoves, ?_, ?_⟩
  · rw [hproc, hcur]
    simp [withProc]
  · intro fd' g k hfd hg hother
    have hfile : s₁.file g = s.file g := hfiles g hg
    obtain ⟨h₁, h₂, h₃, h₄⟩ := hother
    constructor
    · rw [hproc, hcur]
      simp only [withProc, Function.update_self, Function.update_of_ne hfd]
      exact h₁
    all_goals
      rw [hfile]
      assumption

/-! ## `stat` -/

/-- `sys_open` finds what is to be read. -/
theorem openInode_read {res : Option Slot} (hs : Coherent s) (hcwd : CwdIs s cwd)
    (hrun : (Plain.openInode path O_RDONLY).run s = .ok (res, s')) :
    (res = none ∧ resolve (tree s) (s.inode cwd).inum path = none ∧ Since s s' 0 none) ∨
      ∃ ip m, res = some ip ∧ resolve (tree s) (s.inode cwd).inum path = some m ∧
        Since s s' (one ip) (some ip) ∧ Loaded s s' ip m := by
  rw [Plain.openInode, if_neg (by decide), Prog.bind_ok] at hrun
  obtain ⟨found, s₁, hwalk, hrun⟩ := hrun
  rcases namei_since hs hcwd (hs.sinceHere none) hwalk with
    ⟨rfl, hnone, hsince⟩ | ⟨ip, rfl, hfound, hsince⟩
  · obtain ⟨rfl, rfl⟩ := Prog.pure_ok.mp hrun
    exact Or.inl ⟨rfl, hnone, hsince⟩
  · simp only at hrun
    rw [Prog.bind_ok] at hrun
    obtain ⟨_, s₂, hlock, hrun⟩ := hrun
    obtain ⟨hsince₂, hl⟩ := hsince.ilock hs hlock
    rw [inodeAt_bind_run, if_neg (fun h => h.2 rfl)] at hrun
    obtain ⟨rfl, rfl⟩ := Prog.pure_ok.mp hrun
    rw [zero_add] at hsince₂
    exact Or.inr ⟨ip, _, rfl, hfound, hsince₂, hl⟩

/-- What opening a file for reading leaves. -/
structure OpenedRead (s : Kernel) (path : Str) (cwd : Nat) (fd : Fin NOFILE) (f : FileSlot)
    (ip : Slot) (m : Nat) (s' : Kernel) : Prop where
  found : resolve (tree s) cwd path = some m
  room : ¬Full s
  midway : Midway s' (one ip) none
  disk : SameDisk s s'
  inum : (s'.inode ip).inum = m
  sole : SoleFile s' fd f ip
  moves : InodeMoves s 0 s' (one ip)
  cwd : (s'.proc s'.cur).cwd = (s.proc s.cur).cwd
  opened : s'.file f = openedFile O_RDONLY ip (s.file f)
  closed : FilesClosed s'

/-- A file was opened, and the free entries of the table are still of no type. -/
theorem Opened.filesClosed {omode : Nat} (ho : Opened s omode ip fd f s')
    (hclosed : FilesClosed s) : FilesClosed s' := by
  intro g hg
  rw [ho.file] at hg ⊢
  by_cases hgf : g = f
  · rw [hgf, Function.update_self] at hg
    exact absurd hg (by simp [openedFile])
  · rw [Function.update_of_ne hgf] at hg ⊢
    exact hclosed g hg

theorem sys_open_read (hs : Sound s) (hcwd : CwdIs s cwd) (hclosed : FilesClosed s)
    (hpath : u.argstr 0 = some path) (hmode : u.argint 1 = some O_RDONLY)
    (hrun : (Plain.sys_open u).run s = .ok (r, s')) :
    (r = -1 ∧ (resolve (tree s) (s.inode cwd).inum path = none ∨ Full s) ∧ Sound s' ∧
        SameDisk s s' ∧ Moves s 0 s' 0) ∨
      ∃ fd f ip m, r = (fd : Fin NOFILE).val ∧
        OpenedRead s path (s.inode cwd).inum fd f ip m s' := by
  have hc := hs.toCoherent
  rw [Plain.sys_open, hpath, hmode] at hrun
  simp only at hrun
  rw [Prog.bind_ok] at hrun
  obtain ⟨found, s₁, hinode, hrun⟩ := hrun
  rcases openInode_read hc hcwd hinode with ⟨rfl, hnone, hsince⟩ | ⟨ip, m, rfl, hfound, hsince, hl⟩
  · obtain ⟨rfl, rfl⟩ := Prog.pure_ok.mp hrun
    exact Or.inl ⟨rfl, Or.inl hnone, hsince.sound hs, hsince.disk, hsince.moves⟩
  · have hm := hs.midway.since hsince
    have hclosed₁ : FilesClosed s₁ := by
      unfold FilesClosed
      rw [hsince.moves.tables.file]
      exact hclosed
    have hno : ¬Truncates O_RDONLY ip s₁ := fun h => h.2.2 (by decide)
    have hfull : Full s₁ ↔ Full s := by
      unfold Full
      rw [hsince.moves.tables.file, hsince.moves.tables.proc, hsince.moves.tables.cur]
    obtain ⟨hprepared, hcases⟩ := openFile_files hm hl.inUse hl.inum hclosed₁ hrun
    have hd := hsince.disk.trans (hprepared.same hno)
    rcases hcases with ⟨rfl, hfull₁, hm'⟩ | ⟨fd, f, rfl, hopened, hm'⟩
    · rcases openFile_cases hrun hl.inUse hclosed₁ with ⟨-, hmoves⟩ | ⟨fd, f, hres, -⟩
      · exact Or.inl ⟨rfl, Or.inr (hfull.mp hfull₁), hm'.sound, hd, hsince.moves.trans hmoves⟩
      · exact absurd hres (by omega)
    · rw [zero_add] at hm'
      refine Or.inr ⟨fd, f, ip, m, rfl, hfound, fun h => hopened.not_full (hfull.mpr h), hm', hd,
        ?_, hopened.sole, ?_, ?_, ?_, hopened.filesClosed hclosed₁⟩
      · exact (hopened.inodes.pinned ip (by simpa using hl.inUse.pos)).inum.trans hl.inum
      · have := hsince.moves.toInodeMoves.trans (hopened.inodes.frame (one ip))
        exact this
      · rw [hopened.cur, hopened.proc, Function.update_self]
        show (s₁.proc s₁.cur).cwd = _
        rw [hsince.moves.tables.proc, hsince.moves.tables.cur]
      · rw [hopened.file, Function.update_self, hsince.moves.tables.file]

/-- What `stat` tells of the path, and what it leaves. -/
structure Told (s : Kernel) (path : Str) (cwd : Slot) (res : Int × Option Stat) (s' : Kernel) :
    Prop where
  sound : Sound s'
  disk : SameDisk s s'
  cwdIs : CwdIs s' cwd
  inum : (s'.inode cwd).inum = (s.inode cwd).inum
  told : res.1 < 0 ∧ (resolve (tree s) (s.inode cwd).inum path = none ∨ Full s) ∨
    ∃ m stat, res = (0, some stat) ∧ resolve (tree s) (s.inode cwd).inum path = some m ∧
      stat.type = (tree s m).type ∧ ¬Full s

theorem fd_lt (fd : Fin NOFILE) : fd.val < 2 ^ 32 := fd.isLt.trans (by decide)

theorem uint_fd (fd : Fin NOFILE) : uint (fd.val : Int) = fd.val := uint_of_lt (fd_lt fd)

theorem stat_told {res : Int × Option Stat} (hs : Sound s) (hcwd : CwdIs s cwd)
    (hclosed : FilesClosed s) (hu : Stacked u) (hpath : StringAt u n path) (hst : st + 20 ≤ u.sz)
    (hrun : (Ulib.stat u n st).run s = .ok (res, s')) : Told s path cwd res s' := by
  rw [Ulib.stat, Prog.bind_ok] at hrun
  obtain ⟨fd, s₁, hopen, hrun⟩ := hrun
  have hargs : (u.calling [n, O_RDONLY]).argstr 0 = some path ∧
      (u.calling [n, O_RDONLY]).argint 1 = some O_RDONLY :=
    ⟨hpath.argstr hu (by simp) rfl, argint_calling hu (by simp) rfl (by decide)⟩
  rcases sys_open_read hs hcwd hclosed hargs.1 hargs.2 hopen with
    ⟨rfl, hwhy, hs₁, hd, hmoves⟩ | ⟨fd, f, ip, m, rfl, ho⟩
  · rw [if_pos (by decide)] at hrun
    obtain ⟨rfl, rfl⟩ := Prog.pure_ok.mp hrun
    obtain ⟨hcwd', hinum⟩ := hmoves.cwdIs hcwd
    exact ⟨hs₁, hd, hcwd', hinum, Or.inl ⟨by decide, hwhy⟩⟩
  · rw [if_neg (by omega), Prog.bind_ok] at hrun
    obtain ⟨r, s₂, hfstat, hrun⟩ := hrun
    rw [Prog.bind_ok] at hrun
    obtain ⟨_, s₃, hclose, hrun⟩ := hrun
    obtain ⟨rfl, rfl⟩ := Prog.pure_ok.mp hrun
    rw [Ulib.fstat, uint_fd] at hfstat
    rw [Ulib.close, uint_fd] at hclose
    obtain ⟨⟨stat, rfl, htype⟩, hsince⟩ := sys_fstat_type ho.midway ho.sole ho.inum
      (argint_calling hu (by simp) rfl (fd_lt fd))
      (argptr_calling hu (by simp) rfl (by decide : 0 < 20) hst) hfstat
    have htables := hsince.moves.tables
    have hsole : SoleFile s₂ fd f ip := by
      obtain ⟨h₁, h₂, h₃, h₄⟩ := ho.sole
      constructor
      · rw [htables.proc, htables.cur]
        exact h₁
      all_goals
        rw [htables.file]
        assumption
    have hm₂ := ho.midway.since hsince
    rw [add_zero, ← zero_add (one ip)] at hm₂
    have hclosed := sys_close_sole hm₂ hsole (argint_calling hu (by simp) rfl (fd_lt fd)) hclose
    have hmoves : InodeMoves s 0 s₃ 0 := by
      have hmid := hsince.moves.toInodeMoves.frame (one ip)
      rw [add_zero] at hmid
      exact (ho.moves.trans hmid).trans hclosed.moves
    obtain ⟨hcwd', hinum⟩ := hmoves.cwdIs
      (by rw [hclosed.cwd, htables.proc, htables.cur, ho.cwd]) hcwd
    refine ⟨hclosed.midway.sound, (ho.disk.trans hsince.disk).trans hclosed.disk, hcwd', hinum,
      Or.inr ⟨m, stat, rfl, ho.found, ?_, ho.room⟩⟩
    rw [htype, ho.disk.tree]

end Fs
end CS444
