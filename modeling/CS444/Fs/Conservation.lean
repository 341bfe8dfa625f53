/-
Which calls of the symlink kernel conserve inode references.

`sys_open` releases a link's lock when it follows it, `iunlock(ip)`, but never
drops its reference, so each link followed stays referred to for good, and the
depth and lookup errors leave more behind; `sys_exec` ends its resolution with
`iunlock(ip)` and keeps the last inode as well.  `conserves_iff` says that
these are the only leaks: `sys_open` conserves references exactly when it
follows no link, `sys_exec` exactly when it finds no inode, and `sys_symlink`
always.
-/
import CS444.Fs.NameRefs
import CS444.Fs.Open

namespace CS444
namespace Fs

open Bytes Program Ledger

variable {s s₁ s' : Kernel} {ip : Slot} {h' : Slot → Nat}

/-! ## The property -/

/-- Every reference count moved by `δ`, and inodes in use kept their slot. -/
def RefsChange (s s' : Kernel) (δ : Slot → Nat) : Prop :=
  ∀ k, (s'.inode k).ref = (s.inode k).ref + δ k ∧
    (0 < (s.inode k).ref → (s'.inode k).dev = (s.inode k).dev ∧
      (s'.inode k).inum = (s.inode k).inum)

/-- `sys_open` returned -1 and no count moved, or a descriptor and its inode has
one more reference. -/
def OpenConserves (s : Kernel) (r : Int) (s' : Kernel) : Prop :=
  r = -1 ∧ RefsChange s s' 0 ∨
    ∃ (fd : Fin NOFILE) (f : FileSlot) (k : Slot), r = fd.val ∧
      (s'.proc s'.cur).ofile fd = some f ∧ (s'.file f).type = .inode ∧
      (s'.file f).ip = some k ∧ RefsChange s s' (one k)

/-- The calls that resolve or make symbolic links; `above` is what lies behind
their buffer on the kernel stack. -/
inductive LinkCall where
  | open (above : Nat → Str) (u : User)
  | exec (above : Nat → Str) (u : User)
  | symlink (u : User)

namespace LinkCall

/-- The call comes back. -/
def Returns (s : Kernel) : LinkCall → Prop
  | .open above u => ∃ r s', (sys_open above u).run s = .ok (r, s')
  | .exec above u => ∃ r s', (sys_exec above u).run s = .ok (r, s')
  | .symlink u => ∃ r s', (sys_symlink u).run s = .ok (r, s')

/-- Whatever the call returns, the reference counts are right. -/
def Conserves (s : Kernel) : LinkCall → Prop
  | .open above u => ∀ r s', (sys_open above u).run s = .ok (r, s') → OpenConserves s r s'
  | .exec above u => ∀ r s', (sys_exec above u).run s = .ok (r, s') → RefsChange s s' 0
  | .symlink u => ∀ r s', (sys_symlink u).run s = .ok (r, s') → RefsChange s s' 0

/-- The path of `sys_open` names no link it is to follow; `sys_exec` does not get
past its arguments, or its path names nothing. -/
def LeavesNothing (s : Kernel) : LinkCall → Prop
  | .open _ u => ∀ path omode, u.argstr 0 = some path → u.argint 1 = some omode →
      omode &&& O_CREATE = 0 → omode &&& O_NODEREF = 0 → ¬ Names s path T_SYMLINK
  | .exec _ u => ∀ path uargv argv, u.argstr 0 = some path → u.argint 1 = some uargv →
      fetchArgv u uargv MAXARG 0 = some argv → ∀ type, ¬ Names s path type
  | .symlink _ => True

end LinkCall

/-- A state between two calls: the cache is coherent, the running process's
directory is referred to and free files are of no type. -/
structure Sane (s : Kernel) : Prop where
  cache : CacheOk s
  cwd : CwdOk s
  files : FilesClosed s

/-! ## Conservation and leaks -/

theorem InodeMoves.refsChange (hm : InodeMoves s 0 s' h') : RefsChange s s' h' := by
  intro k
  have href := hm.ref_eq k
  refine ⟨by simpa using href, fun hpos => ?_⟩
  have hpin := hm.pinned k (by simpa using hpos)
  exact ⟨hpin.dev, hpin.inum⟩

/-- The counts moved by one amount only. -/
theorem RefsChange.unique {δ : Slot → Nat} (hδ : RefsChange s s' δ)
    (hm : InodeMoves s 0 s' h') (k : Slot) : δ k = h' k := by
  have := (hδ k).1
  have := (hm.refsChange k).1
  omega

theorem Moves.filesClosed (hm : Moves s 0 s' h') (hf : FilesClosed s) : FilesClosed s' := by
  unfold FilesClosed
  rw [hm.tables.file]
  exact hf

/-- `sys_open` leaves with the links it followed and the opened inode. -/
theorem openFile_moves {omode : Nat} {r : Int} {leaked : Slot → Nat}
    (hm : Moves s 0 s₁ (leaked + one ip)) (hu : InUse s₁ ip) (hf : FilesClosed s)
    (hrun : (openFile omode ip).run s₁ = .ok (r, s')) :
    r = -1 ∧ InodeMoves s 0 s' leaked ∨
      ∃ (fd : Fin NOFILE) (f : FileSlot), r = fd.val ∧ (s'.proc s'.cur).ofile fd = some f ∧
        (s'.file f).type = .inode ∧ (s'.file f).ip = some ip ∧
        InodeMoves s 0 s' (leaked + one ip) := by
  rcases openFile_cases hrun hu (hm.filesClosed hf) with ⟨rfl, hfail⟩ | ⟨fd, f, rfl, hopened⟩
  · exact Or.inl ⟨rfl, (hm.trans (hfail.leaving leaked)).toInodeMoves⟩
  · refine Or.inr ⟨fd, f, rfl, ?_, ?_, ?_, hm.toInodeMoves.trans ?_⟩
    · rw [hopened.proc, hopened.cur, Function.update_self]
      exact Function.update_self ..
    · rw [hopened.file, Function.update_self]
      rfl
    · rw [hopened.file, Function.update_self]
      rfl
    · have := hopened.inodes.frame (leaked + one ip)
      rwa [add_zero] at this

/-- A successful `sys_open` refers to the inode of its own descriptor. -/
theorem OpenConserves.slot {fd : Fin NOFILE} {f : FileSlot}
    (hcons : OpenConserves s fd.val s') (hfd : (s'.proc s'.cur).ofile fd = some f)
    (hip : (s'.file f).ip = some ip) : RefsChange s s' (one ip) := by
  rcases hcons with ⟨hneg, -⟩ | ⟨fd', f', k, heq, hfd', -, hip', hchange⟩
  · omega
  · obtain rfl : fd = fd' := Fin.ext (by omega)
    obtain rfl : f = f' := Option.some.inj (hfd.symm.trans hfd')
    obtain rfl : ip = k := Option.some.inj (hip.symm.trans hip')
    exact hchange

/-- Links that stay referred to break conservation. -/
theorem not_openConserves {omode : Nat} {r : Int} {leaked : Slot → Nat} {k : Slot}
    {found : Option Slot} (hm : Moves s 0 s₁ (leaked + ofOption found))
    (hu : ∀ ip, found = some ip → InUse s₁ ip) (hf : FilesClosed s) (hleak : 1 ≤ leaked k)
    (hrun : (openResult omode found).run s₁ = .ok (r, s')) :
    ¬ OpenConserves s r s' := by
  intro hcons
  cases found with
  | none =>
      obtain ⟨rfl, rfl⟩ := Prog.pure_ok.mp hrun
      rcases hcons with ⟨-, hchange⟩ | ⟨fd, _, _, heq, -⟩
      · have := hchange.unique hm.toInodeMoves k
        simp only [Pi.add_apply, Pi.zero_apply] at this
        omega
      · omega
  | some ip =>
      rcases openFile_moves hm (hu ip rfl) hf hrun with
        ⟨rfl, hfail⟩ | ⟨fd, f, rfl, hfd, -, hip, hok⟩
      · rcases hcons with ⟨-, hchange⟩ | ⟨fd, _, _, heq, -⟩
        · have := hchange.unique hfail k
          simp only [Pi.zero_apply] at this
          omega
        · omega
      · have := (hcons.slot hfd hip).unique hok k
        simp only [Pi.add_apply] at this
        omega

/-- Without links the reference of the opened inode is the only one. -/
theorem openConserves_of_noLeak {omode : Nat} {r : Int} {found : Option Slot}
    (hm : Moves s 0 s₁ (ofOption found)) (hu : ∀ ip, found = some ip → InUse s₁ ip)
    (hf : FilesClosed s) (hrun : (openResult omode found).run s₁ = .ok (r, s')) :
    OpenConserves s r s' := by
  cases found with
  | none =>
      obtain ⟨rfl, rfl⟩ := Prog.pure_ok.mp hrun
      exact Or.inl ⟨rfl, hm.refsChange⟩
  | some ip =>
      have hm₀ : Moves s 0 s₁ (0 + one ip) := by
        rw [zero_add]
        exact hm
      rcases openFile_moves hm₀ (hu ip rfl) hf hrun with
        ⟨rfl, hfail⟩ | ⟨fd, f, rfl, hfd, htype, hip, hok⟩
      · exact Or.inl ⟨rfl, hfail.refsChange⟩
      · rw [zero_add] at hok
        exact Or.inr ⟨fd, f, ip, rfl, hfd, htype, hip, hok.refsChange⟩

theorem open_conserves_iff {above : Nat → Str} {u : User} (hs : Sane s)
    (hret : (LinkCall.open above u).Returns s) :
    (LinkCall.open above u).Conserves s ↔ (LinkCall.open above u).LeavesNothing s := by
  obtain ⟨r, s', hrun⟩ := hret
  have hunique : (LinkCall.open above u).Conserves s ↔ OpenConserves s r s' := by
    refine ⟨fun h => h r s' hrun, fun h r' s'' hrun' => ?_⟩
    obtain ⟨rfl, rfl⟩ := Prod.mk.inj (Except.ok.inj (hrun.symm.trans hrun'))
    exact h
  rw [hunique]
  simp only [sys_open] at hrun
  split at hrun
  · rename_i path omode hpath homode
    rw [Prog.bind_ok] at hrun
    obtain ⟨found, s₁, hinode, hrun⟩ := hrun
    obtain ⟨leaked, hr⟩ := openInode_resolved hinode hs.cache hs.cwd
    rcases hr.links with ⟨rfl, hopen, hend⟩ | ⟨hfollow, ip, s₂, hopen, hlink, hleak⟩
    · have hm := hr.moves
      rw [zero_add] at hm
      refine iff_of_true (openConserves_of_noLeak hm hr.inUse hs.files hrun) ?_
      intro path' omode' hpath' homode' hcreate hfollow hnames
      obtain rfl : path = path' := Option.some.inj (hpath.symm.trans hpath')
      obtain rfl : omode = omode' := Option.some.inj (homode.symm.trans homode')
      obtain ⟨ip, rfl, hlink⟩ := (openPath_type_iff hcreate hopen).mp hnames
      exact hend hfollow ip rfl hlink
    · refine iff_of_false (not_openConserves hr.moves hr.inUse hs.files hleak hrun) ?_
      have hcreate : omode &&& O_CREATE = 0 := by
        by_contra hcreate
        have hfile := ((openPath_spec hopen hs.cache hs.cwd).2 ip rfl).2 hcreate
        exact absurd (hfile.symm.trans hlink) (by decide)
      exact fun hnothing => hnothing path omode hpath homode hcreate hfollow
        ((openPath_type_iff hcreate hopen).mpr ⟨ip, rfl, hlink⟩)
  · rename_i hargs
    obtain ⟨rfl, rfl⟩ := Prog.pure_ok.mp hrun
    refine iff_of_true (Or.inl ⟨rfl, (Moves.refl s 0).refsChange⟩) ?_
    intro path omode hpath homode
    exact absurd homode (by simpa using hargs path omode hpath)

/-- `sys_exec` keeps a reference to the first inode it finds. -/
theorem sys_exec_leaks {above : Nat → Str} {u : User} {path : Str} {uargv : Nat}
    {argv : List Str} {r : Option (Str × List Str)} (hs : Sane s)
    (hrun : (sys_exec above u).run s = .ok (r, s')) (hpath : u.argstr 0 = some path)
    (huargv : u.argint 1 = some uargv) (hargv : fetchArgv u uargv MAXARG 0 = some argv) :
    (∃ s₁, (namei path).run s = .ok (none, s₁) ∧ s' = s₁) ∨
      ∃ ip s₁ leaked, (namei path).run s = .ok (some ip, s₁) ∧ 1 ≤ leaked ip ∧
        Moves s 0 s' leaked := by
  simp only [sys_exec, hpath, huargv, hargv] at hrun
  rw [Prog.bind_ok] at hrun
  obtain ⟨found, s₁, hwalk, hrun⟩ := hrun
  have hm₁ := namei_moves hwalk hs.cwd
  cases found with
  | none =>
      obtain ⟨rfl, rfl⟩ := Prog.pure_ok.mp hrun
      exact Or.inl ⟨s₁, hwalk, rfl⟩
  | some ip =>
      refine Or.inr ⟨ip, s₁, ?_⟩
      simp only at hrun
      rw [Prog.bind_ok] at hrun
      obtain ⟨_, s₂, hlock, hrun⟩ := hrun
      have hl := ilock_spec hlock
      have hm₂ : Moves s 0 s₂ (one ip) := by
        have := hm₁.trans (hl.moves.beside (one ip))
        rwa [add_zero] at this
      rw [inodeAt_bind_run] at hrun
      split at hrun
      · rename_i hlink
        rw [Prog.bind_ok] at hrun
        obtain ⟨last, s₃, hloop, hrun⟩ := hrun
        obtain ⟨leaked, hf⟩ := followLinks_followed hloop hl.inUse (hm₂.cwdOk hs.cwd)
        have hleak : 1 ≤ leaked ip := by
          rcases hf.links with ⟨hend, -⟩ | ⟨-, hleak⟩
          · exact absurd hlink (hend.resolve_left (by decide))
          · exact hleak
        cases last with
        | none =>
            obtain ⟨rfl, rfl⟩ := Prog.pure_ok.mp hrun
            exact ⟨_, hwalk, hleak, hm₂.trans hf.moves⟩
        | some e =>
            simp only at hrun
            rw [Prog.bind_ok] at hrun
            obtain ⟨_, s₄, hunlock, hrun⟩ := hrun
            obtain ⟨rfl, rfl⟩ := Prog.pure_ok.mp hrun
            refine ⟨leaked + walked (some e), hwalk, ?_,
              (hm₂.trans hf.moves).trans ((iunlock_keys hunlock).moves _)⟩
            rw [Pi.add_apply]
            omega
      · rw [Prog.bind_ok] at hrun
        obtain ⟨_, s₃, hunlock, hrun⟩ := hrun
        obtain ⟨rfl, rfl⟩ := Prog.pure_ok.mp hrun
        exact ⟨one ip, hwalk, by rw [one_self], hm₂.trans ((iunlock_keys hunlock).moves _)⟩

theorem exec_conserves_iff {above : Nat → Str} {u : User} (hs : Sane s)
    (hret : (LinkCall.exec above u).Returns s) :
    (LinkCall.exec above u).Conserves s ↔ (LinkCall.exec above u).LeavesNothing s := by
  obtain ⟨r, s', hrun⟩ := hret
  have hunique : (LinkCall.exec above u).Conserves s ↔ RefsChange s s' 0 := by
    refine ⟨fun h => h r s' hrun, fun h r' s'' hrun' => ?_⟩
    obtain ⟨rfl, rfl⟩ := Prod.mk.inj (Except.ok.inj (hrun.symm.trans hrun'))
    exact h
  rw [hunique]
  by_cases hargs : ∃ path uargv argv, u.argstr 0 = some path ∧ u.argint 1 = some uargv ∧
      fetchArgv u uargv MAXARG 0 = some argv
  · obtain ⟨path, uargv, argv, hpath, huargv, hargv⟩ := hargs
    rcases sys_exec_leaks hs hrun hpath huargv hargv with
      ⟨s₁, hwalk, rfl⟩ | ⟨ip, s₁, leaked, hwalk, hleak, hm⟩
    · refine iff_of_true (namei_moves hwalk hs.cwd).refsChange ?_
      intro path' _ _ hpath' _ _ type hnames
      obtain ⟨ip, s₂, hwalk', -⟩ := hnames
      obtain rfl : path = path' := Option.some.inj (hpath.symm.trans hpath')
      exact absurd (hwalk.symm.trans hwalk') (by simp)
    · refine iff_of_false (fun hchange => ?_) fun hnothing =>
        hnothing path uargv argv hpath huargv hargv _ ⟨ip, s₁, hwalk, rfl⟩
      have := hchange.unique hm.toInodeMoves ip
      simp only [Pi.zero_apply] at this
      omega
  · have hnone : s' = s := by
      simp only [sys_exec] at hrun
      split at hrun
      · rename_i path uargv hpath huargv
        split at hrun
        · exact (Prog.pure_ok.mp hrun).2.symm
        · rename_i argv hargv
          exact absurd ⟨path, uargv, argv, hpath, huargv, hargv⟩ hargs
      · exact (Prog.pure_ok.mp hrun).2.symm
    rw [hnone]
    refine iff_of_true (Moves.refl s 0).refsChange ?_
    intro path uargv argv hpath huargv hargv
    exact absurd ⟨path, uargv, argv, hpath, huargv, hargv⟩ hargs

/-- A call that returns conserves the inode references exactly when it follows
no symbolic link (`sys_open`) or finds no inode (`sys_exec`). -/
theorem conserves_iff (call : LinkCall) (hs : Sane s) (hret : call.Returns s) :
    call.Conserves s ↔ call.LeavesNothing s := by
  cases call with
  | «open» above u => exact open_conserves_iff hs hret
  | exec above u => exact exec_conserves_iff hs hret
  | symlink u =>
      exact iff_of_true (fun _ _ hrun => (sys_symlink_moves hs.cache hs.cwd hrun).refsChange)
        trivial

/-! ## A kernel after boot -/

/-- The cache entry 0 is the root directory, still empty and not yet read, the
current directory of the one process. -/
def booted : Kernel where
  sb := ⟨1000, 200⟩
  bitmap b := b < 59
  block _ _ := 0
  dinode i := ⟨if i = ROOTINO then T_DIR else 0, 0, 0, if i = ROOTINO then 1 else 0, 0, fun _ => 0⟩
  inode k := ⟨ROOTDEV, ROOTINO, if k = 0 then 1 else 0, false, false, 0, 0, 0, 0, 0, fun _ => 0⟩
  file _ := ⟨.none, 0, false, 0, none, none, 0⟩
  proc p := ⟨fun _ => none, if p = 0 then some 0 else none⟩
  cur := 0
  pipe _ := ⟨fun _ => 0, 0, 0, false, false⟩
  nextpipe := 0
  freePages := 100
  killed := false
  consoleIn := []
  consoleOut := []

/-- The first entry of the cache. -/
def firstSlot : Slot := 0

theorem booted_sane : Sane booted where
  cache := by
    have hslot : ∀ k, 0 < (booted.inode k).ref → k = 0 := by
      intro k hpos
      by_contra hk
      exact absurd hpos (by simp [booted, hk])
    refine ⟨fun k => ?_, fun k _ => rfl, fun j k hj hk _ => ?_,
      fun k _ hv => absurd hv (by simp [booted])⟩
    · simp only [booted]
      split <;> omega
    · rw [hslot j hj, hslot k hk]
  cwd := by
    intro k hk
    obtain rfl : (0 : Slot) = k := Option.some.inj hk
    decide
  files _ _ := rfl

/-- The arguments `("/", arg)`. -/
def rootCall (arg : UInt8) : User where
  mem a := if a = 4 then 16 else if a = 8 then arg else if a = 16 then slash else 0
  sz := 64
  esp := 0

/-- Opening the root for reading is balanced. -/
theorem conserves_iff_root :
    (LinkCall.open (fun _ => []) (rootCall 0)).Conserves booted :=
  (conserves_iff (.open (fun _ => []) (rootCall 0)) booted_sane ⟨0, _, rfl⟩).mpr (by
    intro path omode hpath homode hcreate hfollow hnames
    obtain rfl : [slash] = path := Option.some.inj hpath
    obtain ⟨ip, s₁, hwalk, hlink⟩ := hnames
    obtain ⟨hip, rfl⟩ := Prod.mk.inj (Except.ok.inj hwalk)
    obtain rfl : (0 : Slot) = ip := Option.some.inj hip
    exact absurd hlink (by decide))

/-- `exec("/", [])` leaves the root directory with a reference nobody holds. -/
theorem exec_root_leaks :
    Sane booted ∧ (LinkCall.exec (fun _ => []) (rootCall 24)).Returns booted ∧
      ¬ (LinkCall.exec (fun _ => []) (rootCall 24)).Conserves booted := by
  refine ⟨booted_sane, ⟨_, _, rfl⟩, fun hconserves => ?_⟩
  have hroot := (hconserves _ _ rfl 0).1
  exact absurd hroot (by decide)

end Fs
end CS444
