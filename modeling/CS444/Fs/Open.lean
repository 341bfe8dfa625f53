/-
What `sys_open` does to the tables.

`openPath` and the link loop end with one inode, locked, and one reference to
it for the caller; the loop also keeps a reference to every link it followed.
`openFile` hands the caller's reference to a new open file or drops it.
-/
import CS444.Fs.SyscallRefs

namespace CS444
namespace Fs

open Program Ledger

variable {s s₁ s' : Kernel} {ip : Slot} {name path : Str} {omode : Nat}

/-! ## The file table -/

/-- Write `file` over the file table entry `f`. -/
def withFile (s : Kernel) (f : FileSlot) (file : File) : Kernel :=
  { s with file := Function.update s.file f file }

/-- Write `p` over the entry of the running process. -/
def withProc (s : Kernel) (p : Proc) : Kernel :=
  { s with proc := Function.update s.proc s.cur p }

@[simp] theorem setFile_bind_run {α : Type} (f : FileSlot) (g : File → File) (k : Unit → K α) :
    (setFile f g >>= k).run s = (k ()).run (withFile s f (g (s.file f))) := rfl

theorem setFile_ok {f : FileSlot} {g : File → File} {u : Unit} :
    (setFile f g).run s = .ok (u, s') ↔ withFile s f (g (s.file f)) = s' := Prog.modify_ok

@[simp] theorem setProc_bind_run {α : Type} (g : Proc → Proc) (k : Unit → K α) :
    (setProc g >>= k).run s = (k ()).run (withProc s (g (s.proc s.cur))) := rfl

theorem setProc_ok {g : Proc → Proc} {u : Unit} :
    (setProc g).run s = .ok (u, s') ↔ withProc s (g (s.proc s.cur)) = s' := Prog.modify_ok

@[simp] theorem withFile_self (f : FileSlot) (file : File) : (withFile s f file).file f = file :=
  Function.update_self ..

theorem withFile_of_ne {f f' : FileSlot} (hf : f' ≠ f) (file : File) :
    (withFile s f file).file f' = s.file f' := Function.update_of_ne hf ..

@[simp] theorem withFile_withFile (f : FileSlot) (file file' : File) :
    withFile (withFile s f file) f file' = withFile s f file' := by
  simp [withFile]

theorem withFile_eq_self (f : FileSlot) : withFile s f (s.file f) = s := by
  simp [withFile]

theorem inodeMoves_withFile (f : FileSlot) (file : File) (h : Slot → Nat) :
    InodeMoves s h (withFile s f file) h := by
  apply InodeMoves.of_eq <;> rfl

theorem inodeMoves_withProc (p : Proc) (h : Slot → Nat) :
    InodeMoves s h (withProc s p) h := by
  apply InodeMoves.of_eq <;> rfl

/-- A free file table entry is of no type. -/
def FilesClosed (s : Kernel) : Prop := ∀ f, (s.file f).ref = 0 → (s.file f).type = .none

theorem filealloc_cases {r : Option FileSlot} (hrun : filealloc.run s = .ok (r, s')) :
    (r = none ∧ s' = s) ∨ ∃ f, r = some f ∧ (s.file f).ref = 0 ∧
      s' = withFile s f { s.file f with ref := 1 } := by
  rw [filealloc, Prog.get_bind_run] at hrun
  split at hrun
  · obtain ⟨rfl, rfl⟩ := Prog.pure_ok.mp hrun
    exact Or.inl ⟨rfl, rfl⟩
  · rename_i f hfind
    rw [setFile_bind_run] at hrun
    obtain ⟨rfl, rfl⟩ := Prog.pure_ok.mp hrun
    exact Or.inr ⟨f, rfl, by simpa using List.find?_some hfind, rfl⟩

theorem fdalloc_cases {f : FileSlot} {r : Option (Fin NOFILE)}
    (hrun : (fdalloc f).run s = .ok (r, s')) :
    (r = none ∧ s' = s) ∨ ∃ fd, r = some fd ∧ (s.proc s.cur).ofile fd = none ∧
      s' = withProc s { s.proc s.cur with
        ofile := Function.update (s.proc s.cur).ofile fd (some f) } := by
  rw [fdalloc, myproc_bind_run] at hrun
  split at hrun
  · obtain ⟨rfl, rfl⟩ := Prog.pure_ok.mp hrun
    exact Or.inl ⟨rfl, rfl⟩
  · rename_i fd hfind
    rw [setProc_bind_run] at hrun
    obtain ⟨rfl, rfl⟩ := Prog.pure_ok.mp hrun
    exact Or.inr ⟨fd, rfl, by simpa using List.find?_some hfind, rfl⟩

theorem filealloc_none (hrun : filealloc.run s = .ok (none, s')) (f : FileSlot) :
    (s.file f).ref ≠ 0 := by
  rw [filealloc, Prog.get_bind_run] at hrun
  split at hrun
  · rename_i hfind
    simpa using List.find?_eq_none.mp hfind f (List.mem_finRange f)
  · rw [setFile_bind_run] at hrun
    exact absurd (Prog.pure_ok.mp hrun).1 (by simp)

theorem fdalloc_none {f : FileSlot} (hrun : (fdalloc f).run s = .ok (none, s'))
    (fd : Fin NOFILE) : (s.proc s.cur).ofile fd ≠ none := by
  rw [fdalloc, myproc_bind_run] at hrun
  split at hrun
  · rename_i hfind
    simpa using List.find?_eq_none.mp hfind fd (List.mem_finRange fd)
  · rw [setProc_bind_run] at hrun
    exact absurd (Prog.pure_ok.mp hrun).1 (by simp)

/-- Closing the only reference to a file of no type. -/
theorem fileclose_none {f : FileSlot} {u : Unit} (hrun : (fileclose f).run s = .ok (u, s'))
    (href : (s.file f).ref = 1) (htype : (s.file f).type = .none) :
    s' = withFile s f { s.file f with ref := 0, type := .none } := by
  rw [fileclose, fileAt_bind_run, if_neg (by omega), if_neg (by omega), setFile_bind_run,
    htype] at hrun
  exact (Prog.pure_ok.mp hrun).2.symm

/-! ## `openFile` -/

/-- `sys_open` truncates the inode it opens. -/
def Truncates (omode : Nat) (ip : Slot) (s : Kernel) : Prop :=
  (s.inode ip).type = T_FILE ∧ (omode &&& O_WRONLY ≠ 0 ∨ omode &&& O_RDWR ≠ 0) ∧
    omode &&& O_TRUNC ≠ 0

/-- There is no file or no descriptor left for `sys_open`. -/
def Full (s : Kernel) : Prop :=
  (∀ f, (s.file f).ref ≠ 0) ∨ ∀ fd, (s.proc s.cur).ofile fd ≠ none

/-- The file `sys_open` makes. -/
def openedFile (omode : Nat) (ip : Slot) (file : File) : File :=
  { file with
    type := .inode, ref := 1, ip := some ip, off := 0
    readable := omode &&& O_WRONLY = 0, writable := writableOf omode }

/-- `sys_open` succeeded: the reference to `ip` now belongs to the new file. -/
structure Opened (s : Kernel) (omode : Nat) (ip : Slot) (fd : Fin NOFILE) (f : FileSlot)
    (s' : Kernel) : Prop where
  inodes : InodeMoves s 0 s' 0
  inUse : InUse s' ip
  type : (s'.inode ip).type = (s.inode ip).type
  free : (s.file f).ref = 0
  closed : (s.proc s.cur).ofile fd = none
  file : s'.file = Function.update s.file f (openedFile omode ip (s.file f))
  proc : s'.proc = Function.update s.proc s.cur { s.proc s.cur with
    ofile := Function.update (s.proc s.cur).ofile fd (some f) }
  cur : s'.cur = s.cur
  pipes : SamePipes s s'

theorem openFile_cases {r : Int} (hrun : (openFile omode ip).run s = .ok (r, s'))
    (hu : InUse s ip) (hclosed : FilesClosed s) :
    (r = -1 ∧ Moves s (one ip) s' 0) ∨ ∃ fd f, r = (fd : Fin NOFILE).val ∧
      Opened s omode ip fd f s' := by
  rw [openFile, inodeAt_bind_run, Prog.bind_ok] at hrun
  obtain ⟨_, s₁, htrunc, hrun⟩ := hrun
  have hm : Moves s 0 s₁ 0 := by
    rw [Prog.when_ok] at htrunc
    rcases htrunc with ⟨-, htrunc⟩ | ⟨-, rfl⟩
    · exact itrunc_moves htrunc hu.valid hu.pos 0
    · exact .refl _ _
  have hbeside : Moves s (one ip) s₁ (one ip) := by
    have := hm.beside (one ip)
    rwa [add_zero] at this
  rw [Prog.bind_ok] at hrun
  obtain ⟨rf, s₂, halloc, hrun⟩ := hrun
  rcases filealloc_cases halloc with ⟨rfl, rfl⟩ | ⟨f, rfl, hfree, rfl⟩
  · -- the file table is full
    simp only at hrun
    rw [Prog.bind_ok] at hrun
    obtain ⟨_, s₃, hput, hrun⟩ := hrun
    obtain ⟨rfl, rfl⟩ := Prog.pure_ok.mp hrun
    exact Or.inl ⟨rfl, hbeside.trans (iunlockput_moves hput)⟩
  · simp only at hrun
    rw [Prog.bind_ok] at hrun
    obtain ⟨rfd, s₃, hfd, hrun⟩ := hrun
    rcases fdalloc_cases hfd with ⟨rfl, rfl⟩ | ⟨fd, rfl, hfdfree, rfl⟩
    · -- no descriptor is free: the new file is closed again
      simp only at hrun
      rw [Prog.bind_ok] at hrun
      obtain ⟨_, s₄, hclose, hrun⟩ := hrun
      rw [Prog.bind_ok] at hrun
      obtain ⟨_, s₅, hput, hrun⟩ := hrun
      obtain ⟨rfl, rfl⟩ := Prog.pure_ok.mp hrun
      have hnone : (s₁.file f).type = .none := by
        rw [hm.tables.file] at hfree ⊢
        exact hclosed f hfree
      have hback := fileclose_none hclose (by simp) (by simpa using hnone)
      have hsame : ({ s₁.file f with ref := 0, type := .none } : File) = s₁.file f := by
        rw [← hfree, ← hnone]
      simp only [withFile_self, withFile_withFile, hsame, withFile_eq_self] at hback
      subst hback
      exact Or.inl ⟨rfl, hbeside.trans (iunlockput_moves hput)⟩
    · simp only at hrun
      rw [Prog.bind_ok] at hrun
      obtain ⟨_, s₄, hunlock, hrun⟩ := hrun
      rw [setFile_bind_run] at hrun
      obtain ⟨rfl, rfl⟩ := Prog.pure_ok.mp hrun
      have hkeys := iunlock_keys hunlock
      have hu₁ := hm.inUse' hu
      refine Or.inr ⟨fd, f, rfl, ?_⟩
      have hinodes : InodeMoves s₁ 0 s₄ 0 :=
        ((inodeMoves_withFile f _ 0).trans (inodeMoves_withProc _ 0)).trans
          (hkeys.moves 0).toInodeMoves
      have hfile : s₄.file = Function.update s₁.file f { s₁.file f with ref := 1 } :=
        hkeys.tables.file
      have hproc : s₄.proc = Function.update s₁.proc s₁.cur { s₁.proc s₁.cur with
          ofile := Function.update (s₁.proc s₁.cur).ofile fd (some f) } := hkeys.tables.proc
      have hcur : s₄.cur = s₁.cur := hkeys.tables.cur
      constructor
      · exact (hm.toInodeMoves.trans hinodes).trans (inodeMoves_withFile f _ 0)
      · exact ⟨(hkeys.valid ip).trans hu₁.1.valid, by
          show 0 < (s₄.inode ip).ref
          rw [hkeys.ref]
          exact hu₁.1.pos⟩
      · exact (hkeys.type ip).trans hu₁.2
      · rw [← hm.tables.file]
        exact hfree
      · rw [← hm.tables.proc, ← hm.tables.cur]
        exact hfdfree
      · simp only [withFile, hfile, hm.tables.file, Function.update_idem, Function.update_self]
        rfl
      · show s₄.proc = _
        rw [hproc, hm.tables.proc, hm.tables.cur]
      · exact hcur.trans hm.tables.cur
      · have hpipes := hkeys.tables.pipes
        exact hm.tables.pipes.trans ⟨hpipes.pipe, hpipes.next, hpipes.killed⟩

/-! ## Resolving the path -/

theorem linkName_moves {above r : Str} (hrun : (linkName above ip).run s = .ok (r, s')) :
    Moves s 0 s' 0 := by
  rw [linkName, Prog.bind_ok] at hrun
  obtain ⟨⟨n, bytes⟩, s₁, hread, hrun⟩ := hrun
  obtain ⟨-, rfl⟩ := Prog.pure_ok.mp hrun
  exact readi_moves hread

/-- How the link loop ends: no link was followed and nothing changed, or a
reference to the link is still held. -/
structure Followed (s : Kernel) (left : Nat) (ip : Slot) (name : Str)
    (r : Option (Slot × Str)) (s' : Kernel) (leaked : Slot → Nat) : Prop where
  moves : Moves s (one ip) s' (leaked + walked r)
  inUse : ∀ k name', r = some (k, name') → InUse s' k
  links : (left = 0 ∨ (s.inode ip).type ≠ T_SYMLINK) ∧ leaked = 0 ∧ r = some (ip, name) ∧
      s' = s ∨
    (s.inode ip).type = T_SYMLINK ∧ 1 ≤ leaked ip

theorem Followed.of_not_link {left : Nat} (hu : InUse s ip)
    (hend : left = 0 ∨ (s.inode ip).type ≠ T_SYMLINK) :
    Followed s left ip name (some (ip, name)) s 0 := by
  refine ⟨?_, ?_, Or.inl ⟨hend, rfl, rfl, rfl⟩⟩
  · rw [zero_add]
    exact .refl _ _
  · rintro k name' ⟨⟩
    exact hu

theorem followLinks_followed {above : Nat → Str} {left : Nat} {r : Option (Slot × Str)}
    (hrun : (followLinks above left ip name).run s = .ok (r, s')) (hu : InUse s ip)
    (hcwd : CwdOk s) : ∃ leaked, Followed s left ip name r s' leaked := by
  induction left generalizing s ip name with
  | zero =>
      obtain ⟨rfl, rfl⟩ := Prog.pure_ok.mp hrun
      exact ⟨0, .of_not_link hu (Or.inl rfl)⟩
  | succ left ih =>
      rw [followLinks, inodeAt_bind_run] at hrun
      split at hrun
      · rename_i hend
        obtain ⟨rfl, rfl⟩ := Prog.pure_ok.mp hrun
        exact ⟨0, .of_not_link hu (Or.inr hend)⟩
      · rename_i hlink
        have hlink : (s.inode ip).type = T_SYMLINK := not_not.mp hlink
        rw [Prog.bind_ok] at hrun
        obtain ⟨name', s₁, hname, hrun⟩ := hrun
        rw [Prog.bind_ok] at hrun
        obtain ⟨_, s₂, hunlock, hrun⟩ := hrun
        rw [Prog.bind_ok] at hrun
        obtain ⟨target, s₃, hwalk, hrun⟩ := hrun
        have hm₂ := (linkName_moves hname).trans ((iunlock_keys hunlock).moves 0)
        have hm₃ := hm₂.trans (namei_moves hwalk (hm₂.cwdOk hcwd))
        cases target with
        | none =>
            obtain ⟨rfl, rfl⟩ := Prog.pure_ok.mp hrun
            refine ⟨one ip, hm₃.beside (one ip), by simp, Or.inr ⟨hlink, ?_⟩⟩
            rw [one_self]
        | some next =>
            simp only at hrun
            rw [Prog.bind_ok] at hrun
            obtain ⟨_, s₄, hlock, hrun⟩ := hrun
            have hl := ilock_spec hlock
            have hm₄ : Moves s 0 s₄ (one next) := by
              have := hm₃.trans (hl.moves.beside (one next))
              rwa [add_zero] at this
            split at hrun
            · -- too many levels
              rw [Prog.bind_ok] at hrun
              obtain ⟨_, s₅, hunlock₅, hrun⟩ := hrun
              obtain ⟨rfl, rfl⟩ := Prog.pure_ok.mp hrun
              have hm₅ := hm₄.trans ((iunlock_keys hunlock₅).moves _)
              refine ⟨one ip + one next, ?_, by simp, Or.inr ⟨hlink, ?_⟩⟩
              · rw [show walked none = 0 from rfl, add_zero]
                exact hm₅.beside (one ip)
              · rw [Pi.add_apply, one_self]
                omega
            · obtain ⟨leaked, hrest⟩ := ih hrun hl.inUse (hm₄.cwdOk hcwd)
              refine ⟨one ip + leaked, ?_, hrest.inUse, Or.inr ⟨hlink, ?_⟩⟩
              · rw [add_assoc]
                exact (hm₄.beside (one ip)).trans (hrest.moves.frame (one ip))
              · rw [Pi.add_apply, one_self]
                omega

theorem openPath_spec {r : Option Slot} (hrun : (openPath path omode).run s = .ok (r, s'))
    (hc : CacheOk s) (hcwd : CwdOk s) : Moves s 0 s' (ofOption r) ∧
      ∀ ip, r = some ip → InUse s' ip ∧ (omode &&& O_CREATE ≠ 0 → (s'.inode ip).type = T_FILE) := by
  rw [openPath] at hrun
  split at hrun
  · have hcreated := create_created hc hcwd hrun
    exact ⟨hcreated.moves, fun ip hip => ⟨hcreated.inUse ip hip, fun _ => hcreated.file rfl ip hip⟩⟩
  · rename_i hcreate
    rw [Prog.bind_ok] at hrun
    obtain ⟨found, s₁, hwalk, hrun⟩ := hrun
    have hm₁ := namei_moves hwalk hcwd
    cases found with
    | none =>
        obtain ⟨rfl, rfl⟩ := Prog.pure_ok.mp hrun
        exact ⟨hm₁, by simp⟩
    | some ip =>
        simp only at hrun
        rw [Prog.bind_ok] at hrun
        obtain ⟨_, s₂, hlock, hrun⟩ := hrun
        have hl := ilock_spec hlock
        have hm₂ : Moves s 0 s₂ (one ip) := by
          have := hm₁.trans (hl.moves.beside (one ip))
          rwa [add_zero] at this
        rw [inodeAt_bind_run] at hrun
        split at hrun
        · rw [Prog.bind_ok] at hrun
          obtain ⟨_, s₃, hput, hrun⟩ := hrun
          obtain ⟨rfl, rfl⟩ := Prog.pure_ok.mp hrun
          exact ⟨hm₂.trans (iunlockput_moves hput), by simp⟩
        · obtain ⟨rfl, rfl⟩ := Prog.pure_ok.mp hrun
          refine ⟨hm₂, ?_⟩
          rintro k ⟨⟩
          exact ⟨hl.inUse, fun h => absurd h hcreate⟩

/-- The type `ilock` will find in the entry `ip`. -/
def loadedType (s : Kernel) (ip : Slot) : Int :=
  if (s.inode ip).valid then (s.inode ip).type else (s.dinode (s.inode ip).inum).type

/-- `path` names an inode of type `type`. -/
def Names (s : Kernel) (path : Str) (type : Int) : Prop :=
  ∃ ip s₁, (namei path).run s = .ok (some ip, s₁) ∧ loadedType s₁ ip = type

/-- Without `O_CREATE` the inode is the one the path names; no directory is
refused, since `omode & O_RDONLY` is zero. -/
theorem openPath_names {r : Option Slot} (hcreate : omode &&& O_CREATE = 0)
    (hrun : (openPath path omode).run s = .ok (r, s')) :
    (∃ s₁, (namei path).run s = .ok (none, s₁)) ∧ r = none ∨
      ∃ ip s₁, (namei path).run s = .ok (some ip, s₁) ∧ r = some ip ∧
        (s'.inode ip).type = loadedType s₁ ip := by
  rw [openPath, if_neg (not_not.mpr hcreate), Prog.bind_ok] at hrun
  obtain ⟨found, s₁, hwalk, hrun⟩ := hrun
  cases found with
  | none =>
      obtain ⟨rfl, rfl⟩ := Prog.pure_ok.mp hrun
      exact Or.inl ⟨⟨s₁, hwalk⟩, rfl⟩
  | some ip =>
      simp only at hrun
      rw [Prog.bind_ok] at hrun
      obtain ⟨_, s₂, hlock, hrun⟩ := hrun
      rw [inodeAt_bind_run, if_neg (fun hdir => hdir.2 (Nat.and_zero omode))] at hrun
      obtain ⟨rfl, rfl⟩ := Prog.pure_ok.mp hrun
      exact Or.inr ⟨ip, s₁, hwalk, rfl, (ilock_spec hlock).type⟩

/-- What `openPath` finds has the type the path names. -/
theorem openPath_type_iff {r : Option Slot} {type : Int} (hcreate : omode &&& O_CREATE = 0)
    (hrun : (openPath path omode).run s = .ok (r, s')) :
    Names s path type ↔ ∃ ip, r = some ip ∧ (s'.inode ip).type = type := by
  rcases openPath_names hcreate hrun with ⟨⟨s₁, hwalk⟩, rfl⟩ | ⟨ip, s₁, hwalk, rfl, htype⟩
  · refine iff_of_false ?_ (by simp)
    rintro ⟨ip, s₂, hwalk', -⟩
    exact absurd (hwalk.symm.trans hwalk') (by simp)
  · constructor
    · rintro ⟨ip', s₂, hwalk', htype'⟩
      obtain ⟨heq, rfl⟩ := Prod.mk.inj (Except.ok.inj (hwalk.symm.trans hwalk'))
      obtain rfl := Option.some.inj heq
      exact ⟨ip, rfl, htype.trans htype'⟩
    · rintro ⟨ip', hip, htype'⟩
      obtain rfl := Option.some.inj hip
      exact ⟨ip, s₁, hwalk, htype.symm.trans htype'⟩

/-- How the path of `sys_open` resolves: the inode to be opened, and the links
that stay referred to.  Links are followed, if at all, from the inode
`openPath` finds. -/
structure Resolved (s : Kernel) (path : Str) (omode : Nat) (r : Option Slot) (s' : Kernel)
    (leaked : Slot → Nat) : Prop where
  moves : Moves s 0 s' (leaked + ofOption r)
  inUse : ∀ k, r = some k → InUse s' k
  links : leaked = 0 ∧ (openPath path omode).run s = .ok (r, s') ∧
      (omode &&& O_NODEREF = 0 → ∀ k, r = some k → (s'.inode k).type ≠ T_SYMLINK) ∨
    omode &&& O_NODEREF = 0 ∧ ∃ ip s₁, (openPath path omode).run s = .ok (some ip, s₁) ∧
      (s₁.inode ip).type = T_SYMLINK ∧ 1 ≤ leaked ip

theorem openInode_resolved {above : Nat → Str} {r : Option Slot}
    (hrun : (openInode above path omode).run s = .ok (r, s')) (hc : CacheOk s)
    (hcwd : CwdOk s) : ∃ leaked, Resolved s path omode r s' leaked := by
  rw [openInode, Prog.bind_ok] at hrun
  obtain ⟨found, s₁, hpath, hrun⟩ := hrun
  obtain ⟨hm, hfound⟩ := openPath_spec hpath hc hcwd
  cases found with
  | none =>
      obtain ⟨rfl, rfl⟩ := Prog.pure_ok.mp hrun
      exact ⟨0, by rwa [zero_add], by simp, Or.inl ⟨rfl, hpath, by simp⟩⟩
  | some ip =>
      have hip := hfound ip rfl
      simp only at hrun
      split at hrun
      · rename_i hfollow
        rw [Prog.bind_ok] at hrun
        obtain ⟨last, s₂, hloop, hrun⟩ := hrun
        obtain ⟨rfl, rfl⟩ := Prog.pure_ok.mp hrun
        obtain ⟨leaked, hl⟩ := followLinks_followed hloop hip.1 (hm.cwdOk hcwd)
        rcases hl.links with ⟨hend, rfl, rfl, rfl⟩ | ⟨hlink, hleak⟩
        · refine ⟨0, by rwa [zero_add], ?_, Or.inl ⟨rfl, hpath, ?_⟩⟩
          · rintro k ⟨⟩
            exact hip.1
          · rintro - k ⟨⟩
            exact hend.resolve_left (by decide)
        · refine ⟨leaked, ?_, ?_, Or.inr ⟨hfollow, ip, s₁, hpath, hlink, hleak⟩⟩
          · cases last with
            | none => exact hm.trans hl.moves
            | some e => exact hm.trans hl.moves
          · intro k hk
            obtain ⟨⟨k', name'⟩, rfl, rfl⟩ := Option.map_eq_some_iff.mp hk
            exact hl.inUse k' name' rfl
      · rename_i hnofollow
        obtain ⟨rfl, rfl⟩ := Prog.pure_ok.mp hrun
        refine ⟨0, by rwa [zero_add], ?_, Or.inl ⟨rfl, hpath, fun h => absurd h hnofollow⟩⟩
        rintro k ⟨⟩
        exact hip.1

end Fs
end CS444
