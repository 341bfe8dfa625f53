/-
Writable descriptors on directories.

`sys_open` refuses a directory when `omode & O_RDONLY` is set, but `O_RDONLY`
is zero, so it never does.  `noDirWrite_iff` says what is left: a descriptor
`sys_open` returns is no writable descriptor on a directory exactly when
`omode` asks for no writing, creates, or the path leads to no directory; and in
every run in which `sys_open` is called in this way only, no open inode file
that may be written refers to a directory, so that `filewrite` refuses every
open directory and leaves the kernel as it is.
-/
import CS444.Fs.Calls

namespace CS444
namespace Fs

open Program Ledger Runs

variable {s s₁ s' : Kernel} {omode null : Nat} {path : Str}

/-- A file that may be written is of no directory. -/
def NoDirWrite (writable : Nat) (type : Int) : Prop := writable ≠ 0 → type ≠ T_DIR

/-- `omode` asks for writing. -/
def Writes (omode : Nat) : Prop := omode &&& O_WRONLY ≠ 0 ∨ omode &&& O_RDWR ≠ 0

/-- `path`, resolved as `omode` says, leads to an inode of type `type`. -/
def LeadsTo (s : Kernel) (above : Nat → Str) (path : Str) (omode : Nat) (type : Int) : Prop :=
  ∃ ip s₁, (openInode above path omode).run s = .ok (some ip, s₁) ∧ (s₁.inode ip).type = type

/-- `sys_open` is asked to write, without creating, only where the path leads to
no directory. -/
def OpensNoDir (s : Kernel) (above : Nat → Str) (u : User) : Prop :=
  ∀ path omode, u.argstr 0 = some path → u.argint 1 = some omode → Writes omode →
    omode &&& O_CREATE = 0 → ¬ LeadsTo s above path omode T_DIR

/-- The step is no `sys_open`, or one that asks to write to no directory. -/
def CallsNoDir (s : Kernel) : Call → Prop
  | .open above u => OpensNoDir s above u
  | _ => True

/-- The descriptor `fd` of the running process is no writable descriptor on a
directory. -/
def DescriptorSafe (s : Kernel) (fd : Fin NOFILE) : Prop :=
  ∀ f ip, (s.proc s.cur).ofile fd = some f → (s.file f).type = .inode →
    (s.file f).ip = some ip → (s.inode ip).type = T_DIR → (s.file f).writable = 0

/-- No open inode file that may be written refers to a directory. -/
def DirsSafe (s : Kernel) : Prop :=
  ∀ f ip, (s.file f).type = .inode → (s.file f).writable ≠ 0 → (s.file f).ip = some ip →
    (s.inode ip).type ≠ T_DIR

/-- `filewrite` on an open directory fails and changes nothing. -/
def RefusesDirs (null : Nat) (s : Kernel) : Prop :=
  ∀ f ip, (s.file f).type = .inode → (s.file f).ip = some ip → (s.inode ip).type = T_DIR →
    ∀ depth src, (filewrite null (depth + 1) f src).run s = .ok (-1, s)

theorem writableOf_ne_zero : writableOf omode ≠ 0 ↔ Writes omode := by
  unfold writableOf Writes
  split
  · rename_i hwrites
    refine iff_of_true ?_ hwrites
    split <;> decide
  · rename_i hwrites
    exact iff_of_false (by decide) hwrites

/-- With `O_CREATE` the inode opened is a regular file. -/
theorem openInode_create {above : Nat → Str} {ip : Slot} (hc : CacheOk s) (hcwd : CwdOk s)
    (hcreate : omode &&& O_CREATE ≠ 0)
    (hrun : (openInode above path omode).run s = .ok (some ip, s')) :
    (s'.inode ip).type = T_FILE := by
  obtain ⟨leaked, hr⟩ := openInode_resolved hrun hc hcwd
  rcases hr.links with ⟨-, hopen, -⟩ | ⟨-, ip', s₁, hopen, hlink, -⟩
  · exact ((openPath_spec hopen hc hcwd).2 ip rfl).2 hcreate
  · have hfile := ((openPath_spec hopen hc hcwd).2 ip' rfl).2 hcreate
    exact absurd (hfile.symm.trans hlink) (by decide)

theorem OpensNoDir.opensOnly {above : Nat → Str} {u : User} (hno : OpensNoDir s above u)
    (hc : CacheOk s) (hcwd : CwdOk s) : OpensOnly NoDirWrite s above u := by
  intro path omode ip s₁ hpath homode hinode hwritable hdir
  by_cases hcreate : omode &&& O_CREATE = 0
  · exact hno path omode hpath homode (writableOf_ne_zero.mp hwritable) hcreate
      ⟨ip, s₁, hinode, hdir⟩
  · have hfile := openInode_create hc hcwd hcreate hinode
    exact absurd (hfile.symm.trans hdir) (by decide)

/-- What a `sys_open` that succeeds makes of the inode it resolved. -/
theorem sys_open_success {P : Nat → Int → Prop} {above : Nat → Str} {u : User} {fd : Fin NOFILE}
    (hk : Kept P s 0) (hrun : (sys_open above u).run s = .ok ((fd.val : Int), s')) :
    ∃ path omode ip s₁ f, u.argstr 0 = some path ∧ u.argint 1 = some omode ∧
      (openInode above path omode).run s = .ok (some ip, s₁) ∧ Opened s₁ omode ip fd f s' := by
  rw [sys_open] at hrun
  split at hrun
  · rename_i path omode hpath homode
    rw [Prog.bind_ok] at hrun
    obtain ⟨found, s₁, hinode, hrun⟩ := hrun
    obtain ⟨leaked, hr⟩ := openInode_resolved hinode hk.cache hk.cwdOk
    cases found with
    | none =>
        have := (Prog.pure_ok.mp hrun).1
        omega
    | some ip =>
        rcases openFile_cases hrun (hr.inUse ip rfl) (hk.moves hr.moves).closed with
          ⟨hfail, -⟩ | ⟨fd', f, heq, hopened⟩
        · omega
        · obtain rfl : fd = fd' := Fin.ext (by omega)
          exact ⟨path, omode, ip, s₁, f, hpath, homode, hinode, hopened⟩
  · have := (Prog.pure_ok.mp hrun).1
    omega

theorem descriptorSafe_iff {P : Nat → Int → Prop} {above : Nat → Str} {u : User}
    {fd : Fin NOFILE} (hk : Kept P s 0)
    (hrun : (sys_open above u).run s = .ok ((fd.val : Int), s')) :
    DescriptorSafe s' fd ↔ OpensNoDir s above u := by
  obtain ⟨path, omode, ip, s₁, f, hpath, homode, hinode, hopened⟩ := sys_open_success hk hrun
  have hfd : (s'.proc s'.cur).ofile fd = some f := by
    rw [hopened.proc, hopened.cur, Function.update_self]
    exact Function.update_self ..
  have hfile : s'.file f = openedFile omode ip (s₁.file f) := by
    rw [hopened.file, Function.update_self]
  constructor
  · intro hsafe path' omode' hpath' homode' hwrites hcreate hleads
    obtain rfl : path = path' := Option.some.inj (hpath.symm.trans hpath')
    obtain rfl : omode = omode' := Option.some.inj (homode.symm.trans homode')
    obtain ⟨ip', s₂, hinode', hdir⟩ := hleads
    obtain ⟨heq, rfl⟩ := Prod.mk.inj (Except.ok.inj (hinode.symm.trans hinode'))
    obtain rfl := Option.some.inj heq
    have hzero := hsafe f ip hfd (by rw [hfile]; rfl) (by rw [hfile]; rfl)
      (hopened.type.trans hdir)
    rw [hfile] at hzero
    exact writableOf_ne_zero.mpr hwrites hzero
  · intro hno f' ip' hfd' _ hip' hdir
    obtain rfl : f = f' := Option.some.inj (hfd.symm.trans hfd')
    rw [hfile] at hip' ⊢
    obtain rfl : ip = ip' := Option.some.inj hip'
    by_contra hwritable
    exact hno.opensOnly hk.cache hk.cwdOk path omode ip s₁ hpath homode hinode hwritable
      (hopened.type.symm.trans hdir)

theorem Kept.dirsSafe (hk : Kept NoDirWrite s 0) : DirsSafe s := by
  intro f ip htype hwritable hip
  obtain ⟨ip', hip', -, hgood⟩ := hk.good f htype
  obtain rfl : ip = ip' := Option.some.inj (hip.symm.trans hip')
  exact hgood hwritable

theorem DirsSafe.refusesDirs (hs : DirsSafe s) : RefusesDirs null s := by
  intro f ip htype hip hdir depth src
  have hwritable : (s.file f).writable = 0 := by
    by_contra hwritable
    exact hs f ip htype hwritable hip hdir
  rw [filewrite, fileAt_bind_run, if_pos hwritable]
  rfl

/-- Opening keeps directories safe exactly when it asks to write to none, and
runs that open in this way only keep them safe for good. -/
theorem noDirWrite_iff {P : Nat → Int → Prop} {above : Nat → Str} {u : User} {fd : Fin NOFILE}
    (hk : Kept P s 0) (hrun : (sys_open above u).run s = .ok ((fd.val : Int), s')) :
    (DescriptorSafe s' fd ↔ OpensNoDir s above u) ∧
      ∀ (tr : List Call) (s : Kernel), Run calls CallsNoDir tr s →
        DirsSafe s ∧ ∀ null, RefusesDirs null s := by
  refine ⟨descriptorSafe_iff hk hrun, fun tr s hrun => ?_⟩
  have hkept : Kept NoDirWrite s 0 := by
    refine hrun.invariant (fun _ hb => hb.kept) fun s₁ call s' hk hstep hok => ?_
    refine call_kept hk hstep.1 ?_ hstep.2
    cases call with
    | «open» above u => exact OpensNoDir.opensOnly hok hk.cache hk.cwdOk
    | _ => trivial
  exact ⟨hkept.dirsSafe, fun _ => hkept.dirsSafe.refusesDirs⟩

theorem booted_boot : Boot booted where
  cache := booted_sane.cache
  files _ := ⟨rfl, rfl⟩
  cwd := ⟨0, rfl, by decide⟩
  alone p hp := if_neg hp

theorem rootRead_opensNoDir : OpensNoDir booted (fun _ => []) (rootCall 0) := by
  intro path omode hpath homode hwrites
  obtain rfl : 0 = omode := Option.some.inj homode
  exact absurd hwrites (by unfold Writes; decide)

/-- `open("/", O_RDONLY)` after boot. -/
theorem noDirWrite_iff_rootRead :
    ∃ s', Run calls CallsNoDir [.open (fun _ => []) (rootCall 0)] s' ∧ DescriptorSafe s' 0 ∧
      DirsSafe s' ∧ ∀ null, RefusesDirs null s' := by
  have hsafe {s' : Kernel} (hrun : (sys_open (fun _ => []) (rootCall 0)).run booted = .ok (0, s')) :
      (DescriptorSafe s' 0 ↔ OpensNoDir booted (fun _ => []) (rootCall 0)) ∧ _ :=
    noDirWrite_iff (P := fun _ _ => True) booted_boot.kept hrun
  refine ⟨_, ?hrun, (hsafe rfl).1.mpr rootRead_opensNoDir, (hsafe rfl).2 _ _ ?hrun⟩
  exact .step (.init booted_boot) ⟨by simp [Call.Enabled, booted], rfl⟩ rootRead_opensNoDir

/-- `open("/", O_RDWR)` after boot gives a writable descriptor on the root. -/
theorem rootWrite_opened :
    ∃ s', Run calls anyStep [.open (fun _ => []) (rootCall 2)] s' ∧
      (sys_open (fun _ => []) (rootCall 2)).run booted = .ok (0, s') ∧
      ¬ DescriptorSafe s' 0 ∧ ¬ DirsSafe s' := by
  refine ⟨_, .step (.init booted_boot) ⟨by simp [Call.Enabled, booted], rfl⟩ trivial, rfl,
    fun hsafe => ?_, fun hsafe => ?_⟩
  · exact absurd (hsafe 0 0 rfl rfl rfl rfl) (by decide)
  · exact absurd rfl (hsafe 0 0 rfl (by decide) rfl)

end Fs
end CS444
