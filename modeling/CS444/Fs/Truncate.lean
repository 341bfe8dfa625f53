/-
Truncation and the offsets of other descriptors in `xv6-fs`.

`sys_open` with `O_TRUNC` sets the size of a file to 0 and looks at no open file,
so a descriptor that stands further on is left beyond the end; from there `readi`
and `writei` return -1.  `offsets_in_range` says that nothing else does this: as
long as no file is truncated on which an open file stands at another offset
than 0, every open file is inside its file, so reads and writes within the bound
of the format do not fail.
-/
import CS444.Fs.Descriptors
import CS444.Fs.Offsets
import CS444.Fs.Plain
import CS444.Fs.SeekFrame

namespace CS444
namespace Fs

open Program Ledger Runs

/-- The open file `f` is a regular file's. -/
def Regular : Nat → Int → Prop := fun _ type => type = T_FILE

/-- Every open file on an inode is inside its file. -/
def InRange (s : Kernel) : Prop := ∀ f ip, (s.file f).type = .inode → (s.file f).ip = some ip →
  (s.file f).off ≤ (s.inode ip).size

/-- The invariant, beside the references `h`. -/
structure Ranged (s : Kernel) (h : Slot → Nat) : Prop where
  kept : Kept Regular s h
  sizes : SizesOk s
  range : InRange s

variable {s s₁ s' : Kernel} {h h' : Slot → Nat} {f : FileSlot} {ip k : Slot} {u : User}

/-- Somebody else than the code at hand refers to the inode of an open file. -/
theorem Kept.spare {P : Nat → Int → Prop} (hk : Kept P s h) (htype : (s.file f).type = .inode)
    (hip : (s.file f).ip = some k) : (h k : Int) < (s.inode k).ref := by
  have hcounted := hk.counted k
  have := inodeOf_le_file htype hip
  rw [held, Pi.add_apply] at hcounted
  omega

theorem Ranged.regular (hr : Ranged s h) (htype : (s.file f).type = .inode)
    (hip : (s.file f).ip = some ip) : InUse s ip ∧ (s.inode ip).type = T_FILE := by
  refine ⟨hr.kept.inUse htype hip, ?_⟩
  obtain ⟨ip', hip', -, hregular⟩ := hr.kept.good f htype
  obtain rfl := Option.some.inj (hip.symm.trans hip')
  exact hregular

theorem Ranged.positioned (hr : Ranged s h) (htype : (s.file f).type = .inode)
    (hip : (s.file f).ip = some ip) : Positioned s f ip := by
  obtain ⟨hu, hregular⟩ := hr.regular htype hip
  exact ⟨htype, hip, hu, hregular, hr.sizes, hr.range f ip htype hip⟩

/-! ## Keeping the invariant -/

/-- Code of the inode layer leaves the sizes of open files alone. -/
theorem Ranged.sized (hr : Ranged s h) (hk' : Kept Regular s' h') (hs : Sized s h s' h')
    (hfile : ∀ f, (s'.file f).type = .inode → (s.file f).type = .inode ∧
      (s'.file f).ip = (s.file f).ip ∧ (s'.file f).off = (s.file f).off) : Ranged s' h' := by
  refine ⟨hk', hs.bounded hr.sizes, fun f ip htype hip => ?_⟩
  obtain ⟨htype₀, hip₀, hoff⟩ := hfile f htype
  rw [hip₀] at hip
  obtain ⟨hu, hregular⟩ := hr.regular htype₀ hip
  rw [hoff, hs.size ip (hr.kept.spare htype₀ hip) hu.valid hregular]
  exact hr.range f ip htype₀ hip

/-- Code that touches no inode but its count. -/
theorem Ranged.same (hr : Ranged s h) (hk' : Kept Regular s' h') (hs : SameSizes s s')
    (hfile : ∀ f, (s'.file f).type = .inode → (s.file f).type = .inode ∧
      (s'.file f).ip = (s.file f).ip ∧ (s'.file f).off = (s.file f).off) : Ranged s' h' := by
  refine ⟨hk', hs.bounded hr.sizes, fun f ip htype hip => ?_⟩
  obtain ⟨htype₀, hip₀, hoff⟩ := hfile f htype
  rw [hip₀] at hip
  rw [hoff, hs.inode ip]
  exact hr.range f ip htype₀ hip

/-- Reading and writing through `f`. -/
theorem Ranged.advanced (hr : Ranged s h) (hp : Positioned s f ip) (ha : Advanced s f ip s') :
    Ranged s' h := by
  refine ⟨hr.kept.quiet ha.quiet, ha.bounded hr.sizes, fun f' ip' htype hip => ?_⟩
  by_cases hf : f' = f
  · subst hf
    have hopens := (hp.advanced ha).opens
    obtain rfl := Option.some.inj (hip.symm.trans hopens)
    exact ha.off
  · rw [ha.files f' hf] at htype hip ⊢
    have hin := hr.range f' ip' htype hip
    by_cases hip' : ip' = ip
    · subst hip'
      exact hin.trans ha.grows
    · rw [ha.sizes ip' hip']
      exact hin

/-! ## Calls on descriptors -/

theorem filedup_ok {r : FileSlot} (hrun : (filedup f).run s = .ok (r, s')) :
    s' = withFile s f { s.file f with ref := (s.file f).ref + 1 } := by
  rw [filedup, fileAt_bind_run] at hrun
  split at hrun
  · simp at hrun
  · rw [setFile_bind_run] at hrun
    exact (Prog.pure_ok.mp hrun).2.symm

/-- Counting a file leaves type, inode and offset of every file. -/
theorem withRef_files (n : Int) (f' : FileSlot)
    (htype : ((withFile s f { s.file f with ref := n }).file f').type = .inode) :
    (s.file f').type = .inode ∧
      ((withFile s f { s.file f with ref := n }).file f').ip = (s.file f').ip ∧
      ((withFile s f { s.file f with ref := n }).file f').off = (s.file f').off := by
  by_cases hf : f' = f
  · subst hf
    rw [withFile_self] at htype ⊢
    exact ⟨htype, rfl, rfl⟩
  · rw [withFile_of_ne hf] at htype ⊢
    exact ⟨htype, rfl, rfl⟩

theorem Ranged.withRef (hr : Ranged s h) {n : Int}
    (hk' : Kept Regular (withFile s f { s.file f with ref := n }) h) :
    Ranged (withFile s f { s.file f with ref := n }) h :=
  hr.same hk' (.of_eq rfl rfl) (withRef_files n)

theorem filedup_ranged {r : FileSlot} (hr : Ranged s h) (hrun : (filedup f).run s = .ok (r, s')) :
    Ranged s' h := by
  have hk' := (filedup_kept hr.kept hrun).1
  obtain rfl := filedup_ok hrun
  exact hr.withRef hk'

/-- A change of processes only. -/
theorem Ranged.procs (hr : Ranged s h) (hk' : Kept Regular s' h) (hi : s'.inode = s.inode)
    (hd : s'.dinode = s.dinode) (hfile : s'.file = s.file) : Ranged s' h := by
  refine hr.same hk' (.of_eq hi hd) fun f htype => ?_
  rw [hfile] at htype ⊢
  exact ⟨htype, rfl, rfl⟩

theorem fdalloc_ranged {r : Option (Fin NOFILE)} (hr : Ranged s h)
    (hrun : (fdalloc f).run s = .ok (r, s')) : Ranged s' h := by
  have hk' := fdalloc_kept hr.kept hrun
  rcases fdalloc_cases hrun with ⟨-, rfl⟩ | ⟨fd, -, -, rfl⟩
  · exact hr
  · exact hr.procs hk' rfl rfl rfl

theorem clearFd_ranged {fd : Fin NOFILE} {r : Unit} (hr : Ranged s h)
    (hrun : (clearFd fd).run s = .ok (r, s')) : Ranged s' h := by
  have hk' := clearFd_kept hr.kept hrun
  obtain rfl := setProc_ok.mp hrun
  exact hr.procs hk' rfl rfl rfl

theorem sys_dup_ranged {r : Int} (hr : Ranged s h) (hrun : (sys_dup u).run s = .ok (r, s')) :
    Ranged s' h := by
  rw [sys_dup, Prog.bind_ok] at hrun
  obtain ⟨e, s₁, hfd, hrun⟩ := hrun
  obtain rfl := argfd_same hfd
  cases e with
  | none =>
      obtain ⟨-, rfl⟩ := Prog.pure_ok.mp hrun
      exact hr
  | some e =>
      simp only at hrun
      rw [Prog.bind_ok] at hrun
      obtain ⟨fd, s₂, halloc, hrun⟩ := hrun
      have hr₂ := fdalloc_ranged hr halloc
      cases fd with
      | none =>
          obtain ⟨-, rfl⟩ := Prog.pure_ok.mp hrun
          exact hr₂
      | some fd =>
          simp only at hrun
          rw [Prog.bind_ok] at hrun
          obtain ⟨_, s₃, hdup, hrun⟩ := hrun
          obtain ⟨-, rfl⟩ := Prog.pure_ok.mp hrun
          exact filedup_ranged hr₂ hdup

/-- Closing a file truncates no file that is still open. -/
theorem fileclose_ranged {r : Unit} (hr : Ranged s h)
    (hrun : (fileclose f).run s = .ok (r, s')) : Ranged s' h := by
  have hk' := (fileclose_kept hr.kept hrun).1
  rw [fileclose, fileAt_bind_run] at hrun
  split at hrun
  · simp at hrun
  split at hrun
  · obtain rfl := setFile_ok.mp hrun
    exact hr.withRef hk'
  rw [setFile_bind_run] at hrun
  -- the state with the file closed, and its reference in the code's hands
  have hclosed : ∀ f', ((withFile s f { s.file f with ref := 0, type := .none }).file f').type =
      .inode → (s.file f').type = .inode ∧
        ((withFile s f { s.file f with ref := 0, type := .none }).file f').ip = (s.file f').ip ∧
        ((withFile s f { s.file f with ref := 0, type := .none }).file f').off =
          (s.file f').off := by
    intro f' htype
    by_cases hf : f' = f
    · subst hf
      rw [withFile_self] at htype
      exact absurd htype (by simp)
    · rw [withFile_of_ne hf] at htype ⊢
      exact ⟨htype, rfl, rfl⟩
  have hr₁ : Ranged (withFile s f { s.file f with ref := 0, type := .none })
      (h + inodeOf (s.file f)) := hr.same (hr.kept.closeFile f) (.of_eq rfl rfl) hclosed
  split at hrun
  · obtain ⟨-, rfl⟩ := Prog.pure_ok.mp hrun
    exact ⟨hk', hr₁.sizes, hr₁.range⟩
  · split at hrun
    · simp at hrun
    · obtain ⟨pages, rfl⟩ := pipeclose_ok hrun
      exact ⟨hk', ⟨hr₁.sizes.inode, hr₁.sizes.dinode⟩, hr₁.range⟩
  · rename_i htype
    split at hrun
    · simp at hrun
    · rename_i ip hip
      have hm := iput_moves hrun
      have hs := (iput_sized hrun).frame h
      rw [add_zero] at hs
      rw [inodeOf_of_inode htype, hip] at hr₁
      refine hr₁.sized hk' hs fun f' htype' => ?_
      rw [hm.tables.file] at htype' ⊢
      exact ⟨htype', rfl, rfl⟩

theorem sys_close_ranged {r : Int} (hr : Ranged s h) (hrun : (sys_close u).run s = .ok (r, s')) :
    Ranged s' h := by
  rw [sys_close, Prog.bind_ok] at hrun
  obtain ⟨e, s₁, hfd, hrun⟩ := hrun
  obtain rfl := argfd_same hfd
  cases e with
  | none =>
      obtain ⟨-, rfl⟩ := Prog.pure_ok.mp hrun
      exact hr
  | some e =>
      simp only at hrun
      rw [Prog.bind_ok] at hrun
      obtain ⟨_, s₂, hclear, hrun⟩ := hrun
      rw [Prog.bind_ok] at hrun
      obtain ⟨_, s₃, hclose, hrun⟩ := hrun
      obtain ⟨-, rfl⟩ := Prog.pure_ok.mp hrun
      exact fileclose_ranged (clearFd_ranged hr hclear) hclose

theorem fileread_ranged {n : Int} {r : Int × Str} (hr : Ranged s h)
    (hrun : (fileread f n).run s = .ok (r, s')) : Ranged s' h := by
  by_cases htype : (s.file f).type = .inode
  · obtain ⟨ip, hip, -⟩ := hr.kept.good f htype
    have hp := hr.positioned htype hip
    exact hr.advanced hp (fileread_spec hp hrun).1
  · have hk' := hr.kept.quiet (fileread_quietOn hrun).toQuiet
    rw [fileread, fileAt_bind_run] at hrun
    split at hrun
    · obtain ⟨-, rfl⟩ := Prog.pure_ok.mp hrun
      exact hr
    · split at hrun
      · split at hrun
        · simp at hrun
        · obtain ⟨q', rfl, -⟩ := piperead_ok hrun
          exact hr.procs hk' rfl rfl rfl
      · rename_i hinode
        exact absurd hinode htype
      · simp at hrun

theorem filewrite_ranged {null : Nat} {src : Str} {r : Int} (hr : Ranged s h)
    (hrun : (filewrite null 2 f src).run s = .ok (r, s')) : Ranged s' h := by
  by_cases htype : (s.file f).type = .inode
  · obtain ⟨ip, hip, -⟩ := hr.kept.good f htype
    have hp := hr.positioned htype hip
    exact hr.advanced hp (filewrite_spec hp hrun).1
  · have hk' := hr.kept.quiet ((write_seek_quietOn _ 2).1 hrun).toQuiet
    rw [filewrite, fileAt_bind_run] at hrun
    split at hrun
    · obtain ⟨-, rfl⟩ := Prog.pure_ok.mp hrun
      exact hr
    · split at hrun
      · split at hrun
        · simp at hrun
        · obtain ⟨q', rfl, -⟩ := pipewriteLoop_ok hrun
          exact hr.procs hk' rfl rfl rfl
      · rename_i hinode
        exact absurd hinode htype
      · simp at hrun

theorem forkFiles_ranged {np : ProcSlot} {fds : List (Fin NOFILE)} {r : Unit} (hr : Ranged s h)
    (hrun : (forkFiles np fds).run s = .ok (r, s')) : Ranged s' h := by
  induction fds generalizing s with
  | nil =>
      obtain ⟨-, rfl⟩ := Prog.pure_ok.mp hrun
      exact hr
  | cons fd rest ih =>
      rw [forkFiles, myproc_bind_run] at hrun
      split at hrun
      · exact ih hr hrun
      · rw [Prog.bind_ok] at hrun
        obtain ⟨f, s₁, hdup, hrun⟩ := hrun
        have hr₁ := filedup_ranged hr hdup
        rw [Prog.modify_bind_run] at hrun
        have hk₂ : Kept Regular (withProcAt s₁ np { s₁.proc np with
            ofile := Function.update (s₁.proc np).ofile fd (some f) }) h :=
          hr₁.kept.withSameProc rfl
        exact ih (hr₁.procs hk₂ rfl rfl rfl) hrun

theorem fork_ranged {np : ProcSlot} {r : Unit} (hr : Ranged s 0) (hfree : (s.proc np).cwd = none)
    (hrun : (fork np).run s = .ok (r, s')) : Ranged s' 0 := by
  have hk' := fork_kept hr.kept hfree hrun
  rw [fork, Prog.bind_ok] at hrun
  obtain ⟨_, s₁, hfiles, hrun⟩ := hrun
  have hr₁ := forkFiles_ranged hr hfiles
  rw [myproc_bind_run] at hrun
  split at hrun
  · simp at hrun
  · rename_i cwd hcwd
    rw [idup] at hrun
    rw [Prog.bind_bind_run, setInode_bind_run] at hrun
    simp only [Prog.pure_bind_run] at hrun
    obtain rfl := Prog.modify_ok.mp hrun
    have hsame : SameSizes s₁ (withInode s₁ cwd
      { s₁.inode cwd with ref := (s₁.inode cwd).ref + 1 }) := sameSizes_withInode rfl
    exact hr₁.same hk' ⟨hsame.inode, hsame.dinode⟩ fun f htype => ⟨htype, rfl, rfl⟩

/-! ## `sys_open` -/

/-- Every open file on `ip` stands at its start. -/
def AtStart (ip : Slot) (s : Kernel) : Prop := ∀ f, (s.file f).type = .inode →
  (s.file f).ip = some ip → (s.file f).off = 0

/-- Code of the inode layer that touches no other table. -/
theorem Ranged.moves (hr : Ranged s h) (hm : Moves s h s' h') (hs : Sized s h s' h') :
    Ranged s' h' := by
  refine hr.sized (hr.kept.moves hm) hs fun f htype => ?_
  rw [hm.tables.file] at htype ⊢
  exact ⟨htype, rfl, rfl⟩

theorem itrunc_ranged {r : Unit} (hr : Ranged s h) (hu : InUse s ip) (hstart : AtStart ip s)
    (hrun : (itrunc ip).run s = .ok (r, s')) : Ranged s' h := by
  have hm := itrunc_moves hrun hu.valid hu.pos h
  have ht := itrunc_truncated hrun
  refine ⟨hr.kept.moves hm, ht.bounded hr.sizes, fun f k htype hip => ?_⟩
  rw [hm.tables.file] at htype hip ⊢
  by_cases hk : k = ip
  · subst hk
    rw [hstart f htype hip]
    exact Nat.zero_le _
  · rw [ht.others k hk]
    exact hr.range f k htype hip

theorem openFile_ranged {omode : Nat} {r : Int} (hr : Ranged s (one ip)) (hu : InUse s ip)
    (hregular : (s.inode ip).type = T_FILE) (hsafe : Truncates omode ip s → AtStart ip s)
    (hrun : (openFile omode ip).run s = .ok (r, s')) : Ranged s' 0 := by
  have hcases := openFile_cases hrun hu hr.kept.closed
  rw [openFile, inodeAt_bind_run, Prog.bind_ok] at hrun
  obtain ⟨_, s₁, htrunc, hrun⟩ := hrun
  have hr₁ : Ranged s₁ (one ip) := by
    rcases Prog.when_ok.mp htrunc with ⟨htruncates, htrunc⟩ | ⟨-, rfl⟩
    · exact itrunc_ranged hr hu (hsafe htruncates) htrunc
    · exact hr
  have hput {s₂ s₃ : Kernel} {u : Unit} (hr₂ : Ranged s₂ (one ip))
      (hrun : (iunlockput ip).run s₂ = .ok (u, s₃)) : Ranged s₃ 0 :=
    hr₂.moves (iunlockput_moves hrun) (inodeSteps_sized.iunlockput hrun)
  rw [Prog.bind_ok] at hrun
  obtain ⟨rf, s₂, halloc, hrun⟩ := hrun
  have hk₂ := (filealloc_kept hr₁.kept halloc).1
  rcases filealloc_cases halloc with ⟨rfl, rfl⟩ | ⟨f, rfl, hfree, rfl⟩
  · -- the file table is full
    simp only at hrun
    rw [Prog.bind_ok] at hrun
    obtain ⟨_, s₃, hlast, hrun⟩ := hrun
    obtain ⟨-, rfl⟩ := Prog.pure_ok.mp hrun
    exact hput hr₁ hlast
  have hr₂ := hr₁.withRef hk₂
  simp only at hrun
  rw [Prog.bind_ok] at hrun
  obtain ⟨rfd, s₃, hfd, hrun⟩ := hrun
  have hr₃ := fdalloc_ranged hr₂ hfd
  cases rfd with
  | none =>
      simp only at hrun
      rw [Prog.bind_ok] at hrun
      obtain ⟨_, s₄, hclose, hrun⟩ := hrun
      rw [Prog.bind_ok] at hrun
      obtain ⟨_, s₅, hlast, hrun⟩ := hrun
      obtain ⟨-, rfl⟩ := Prog.pure_ok.mp hrun
      exact hput (fileclose_ranged hr₃ hclose) hlast
  | some fd =>
      simp only at hrun
      rw [Prog.bind_ok] at hrun
      obtain ⟨_, s₄, hunlock, hrun⟩ := hrun
      rw [setFile_bind_run] at hrun
      obtain ⟨rfl, hs'⟩ := Prog.pure_ok.mp hrun
      have hr₄ := hr₃.moves ((iunlock_keys hunlock).moves _)
        ((iunlock_sizes hunlock).sized ((iunlock_keys hunlock).moves _).toInodeMoves)
      have hk' : Kept Regular s' 0 := by
        rcases hcases with ⟨hneg, -⟩ | ⟨fd', f', -, hopened⟩
        · omega
        · refine Kept.opened ?_ hopened hregular
          rw [zero_add]
          exact hr.kept
      subst hs'
      refine ⟨hk', ⟨hr₄.sizes.inode, hr₄.sizes.dinode⟩, fun f' k htype hip => ?_⟩
      by_cases hf : f' = f
      · subst hf
        rw [withFile_self]
        exact Nat.zero_le _
      · rw [withFile_of_ne hf] at htype hip ⊢
        exact hr₄.range f' k htype hip

/-! ## Runs -/

namespace Plain

/-- The calls on descriptors, one at a time, where only regular files are
opened; no size on the disk is out of bounds. -/
def descriptors : System Kernel Call where
  init s := Boot s ∧ SizesOk s
  step s call s' := call.Enabled s ∧
    OpenMeets (fun _ ip s₁ => (s₁.inode ip).type = T_FILE) s call ∧
    call.code.run s = .ok ((), s')

/-- No file is truncated on which an open file stands further on. -/
def TruncatesAtStart : Kernel → Call → Prop :=
  OpenMeets fun omode ip s₁ => Truncates omode ip s₁ → AtStart ip s₁

theorem sys_open_ranged {r : Int} (hr : Ranged s 0)
    (hregular : Opens (fun _ ip s₁ => (s₁.inode ip).type = T_FILE) s u)
    (hsafe : Opens (fun omode ip s₁ => Truncates omode ip s₁ → AtStart ip s₁) s u)
    (hrun : (sys_open u).run s = .ok (r, s')) : Ranged s' 0 := by
  have hresolved {path : Str} {omode : Nat} {found : Option Slot} {s₁ : Kernel}
      (hinode : (openInode path omode).run s = .ok (found, s₁)) : Ranged s₁ (ofOption found) :=
    hr.moves (openInode_step inodeSteps_moves hinode hr.kept.cwdOk)
      (openInode_step inodeSteps_sized hinode hr.kept.cwdOk)
  rcases sys_open_cases hr.kept hrun with rfl | ⟨path, omode, hinode⟩ |
    ⟨path, omode, ip, s₁, hpath, homode, hinode, hu, -, hfile⟩
  · exact hr
  · exact hresolved hinode
  · exact openFile_ranged (hresolved hinode) hu (hregular path omode ip s₁ hpath homode hinode)
      (hsafe path omode ip s₁ hpath homode hinode) hfile

theorem call_ranged {call : Call} (hr : Ranged s 0) (hstep : descriptors.step s call s')
    (hsafe : TruncatesAtStart s call) : Ranged s' 0 := by
  obtain ⟨hen, hregular, hrun⟩ := hstep
  cases call with
  | «open» u =>
      obtain ⟨a, hrun⟩ := ignore_ok.mp hrun
      exact sys_open_ranged hr hregular hsafe hrun
  | close u =>
      obtain ⟨a, hrun⟩ := ignore_ok.mp hrun
      exact sys_close_ranged hr hrun
  | dup u =>
      obtain ⟨a, hrun⟩ := ignore_ok.mp hrun
      exact sys_dup_ranged hr hrun
  | read u =>
      obtain ⟨a, hrun⟩ := ignore_ok.mp hrun
      rcases sys_read_cases hrun with ⟨-, -, rfl⟩ | ⟨f, n, -, hread⟩
      · exact hr
      · exact fileread_ranged hr hread
  | write u =>
      obtain ⟨a, hrun⟩ := ignore_ok.mp hrun
      rcases sys_write_cases hrun with ⟨-, -, rfl⟩ | ⟨f, src, -, hwrite⟩
      · exact hr
      · exact filewrite_ranged hr hwrite
  | fork np => exact fork_ranged hr hen.2 hrun
  | switch p =>
      have hk' : Kept Regular s' 0 := call_kept hr.kept hen trivial hrun
      obtain rfl := Prog.modify_ok.mp hrun
      exact hr.procs hk' rfl rfl rfl

theorem run_ranged {tr : List Call} (hrun : Run descriptors TruncatesAtStart tr s) :
    Ranged s 0 := by
  refine hrun.invariant (fun s hinit => ?_) fun _ _ _ hr hstep hok => call_ranged hr hstep hok
  obtain ⟨hb, hsizes⟩ := hinit
  refine ⟨hb.kept, hsizes, fun f ip htype _ => ?_⟩
  rw [(hb.files f).2] at htype
  exact absurd htype (by simp)

/-- In a run that truncates files only where every open file stands at the start,
every open inode file is inside its file; a read returns what is left of the
file, up to what was asked for, and a write within the bound of the format
returns its length. -/
theorem offsets_in_range {tr : List Call} (hrun : Run descriptors TruncatesAtStart tr s) :
    ∀ f ip, (s.file f).type = .inode → (s.file f).ip = some ip →
      (s.file f).off ≤ (s.inode ip).size ∧
      (∀ n r bytes s', (s.file f).readable = true → 0 ≤ n → n < 2 ^ 31 →
        (fileread f n).run s = .ok ((r, bytes), s') →
        r = min n ((s.inode ip).size - (s.file f).off)) ∧
      ∀ null src r s', (s.file f).writable ≠ 0 →
        writeStart s f ip + src.length ≤ MAXFILE * BSIZE →
        (filewrite null 2 f src).run s = .ok (r, s') → r = src.length := by
  intro f ip htype hip
  have hr := run_ranged hrun
  have hp := hr.positioned htype hip
  refine ⟨hp.off, fun n r bytes s' hreadable h₀ h₁ hread => ?_,
    fun null src r s' hwritable hfits hwrite => ?_⟩
  · exact (fileread_spec hp hread).2 hreadable h₀ h₁
  · exact (filewrite_spec hp hwrite).2 hwritable hfits

/-! ## Two runs -/

/-- The root directory holds one file, `a`, of five bytes. -/
def oneFile : Kernel :=
  { booted with
    bitmap b := b < 61
    block b j := if b = 59 then (if j = 0 then 2 else if j = 2 then 97 else 0) else 7
    dinode i :=
      if i = ROOTINO then
        ⟨T_DIR, 0, 0, 1, direntSize, fun n => if n = 0 then 59 else 0⟩
      else if i = 2 then ⟨T_FILE, 0, 0, 1, 5, fun n => if n = 0 then 60 else 0⟩
      else ⟨0, 0, 0, 0, 0, fun _ => 0⟩ }

theorem oneFile_init : descriptors.init oneFile := by
  refine ⟨⟨⟨booted_boot.cache.nonneg, booted_boot.cache.dev, booted_boot.cache.unique, ?_⟩,
    booted_boot.files, booted_boot.cwd, booted_boot.alone⟩, fun k => Nat.zero_le _, fun i => ?_⟩
  · intro k _ hv
    exact absurd hv (by simp [oneFile, booted])
  · simp only [oneFile]
    split_ifs <;> decide

/-- The arguments `("a", omode)`, with the low bytes of `omode`. -/
def openCall (low high : UInt8) : User where
  mem a := if a = 4 then 16 else if a = 8 then low else if a = 9 then high
    else if a = 16 then 97 else 0
  sz := 64
  esp := 0

/-- Whatever `sys_open` opens passes the test `q`. -/
def opensOnly (q : Nat → Slot → Kernel → Bool) (s : Kernel) (u : User) : Bool :=
  match u.argstr 0, u.argint 1 with
  | some path, some omode =>
    match (openInode path omode).run s with
    | .ok (some ip, s₁) => q omode ip s₁
    | _ => true
  | _, _ => true

theorem opens_of_opensOnly {q : Nat → Slot → Kernel → Bool} (h : opensOnly q s u = true) :
    Opens (fun omode ip s₁ => q omode ip s₁ = true) s u := by
  intro path omode ip s₁ hpath homode hrun
  simpa only [opensOnly, hpath, homode, hrun] using h

/-- `O_TRUNC` meets no open file that stands further on. -/
def atStart (omode : Nat) (ip : Slot) (s : Kernel) : Bool :=
  omode &&& O_TRUNC = 0 ||
    fileSlots.all fun f => (s.file f).type ≠ .inode || (s.file f).ip ≠ some ip || (s.file f).off = 0

theorem atStart_of {omode : Nat} (h : atStart omode ip s = true) :
    Truncates omode ip s → AtStart ip s := by
  rintro ⟨-, -, htrunc⟩ f htype hip
  simp only [atStart, Bool.or_eq_true, decide_eq_true_eq, List.all_eq_true] at h
  rcases h with h | h
  · exact absurd h htrunc
  · simpa [htype, hip] using h f (List.mem_finRange f)

/-- Neither `fork` nor a switch, and what is opened is a regular file that passes
the test `q`. -/
def passes (q : Nat → Slot → Kernel → Bool) (s : Kernel) : Call → Bool
  | .open u => opensOnly (fun omode ip s₁ => (s₁.inode ip).type = T_FILE && q omode ip s₁) s u
  | .fork _ | .switch _ => false
  | _ => true

/-- A call of the running process. -/
def tryCall (q : Nat → Slot → Kernel → Bool) (s : Kernel) (call : Call) : Option Kernel :=
  if passes q s call = true ∧ (s.proc s.cur).cwd ≠ none then
    match call.code.run s with
    | .ok (_, s') => some s'
    | .error _ => none
  else none

theorem step_of_tryCall {q : Nat → Slot → Kernel → Bool} {call : Call}
    (htry : tryCall q s call = some s') :
    descriptors.step s call s' ∧ OpenMeets (fun omode ip s₁ => q omode ip s₁ = true) s call := by
  unfold tryCall at htry
  split at htry
  · rename_i hpasses
    obtain ⟨hpass, hcwd⟩ := hpasses
    split at htry
    · rename_i hrun
      obtain rfl := Option.some.inj htry
      cases call with
      | «open» u =>
          have hopens := opens_of_opensOnly hpass
          refine ⟨⟨hcwd, fun path omode ip s₁ hpath homode hinode => ?_, hrun⟩,
            fun path omode ip s₁ hpath homode hinode => ?_⟩
          · exact of_decide_eq_true
              (Bool.and_eq_true_iff.mp (hopens path omode ip s₁ hpath homode hinode)).1
          · exact (Bool.and_eq_true_iff.mp (hopens path omode ip s₁ hpath homode hinode)).2
      | fork np => simp [passes] at hpass
      | switch p => simp [passes] at hpass
      | close u => exact ⟨⟨hcwd, trivial, hrun⟩, trivial⟩
      | dup u => exact ⟨⟨hcwd, trivial, hrun⟩, trivial⟩
      | read u => exact ⟨⟨hcwd, trivial, hrun⟩, trivial⟩
      | write u => exact ⟨⟨hcwd, trivial, hrun⟩, trivial⟩
    · simp at htry
  · simp at htry

/-- `a` is opened twice, the second time with `O_TRUNC`, and written through one
descriptor and read through the other. -/
def sharedCalls : List Call :=
  [.open (openCall 2 0), .open (openCall 1 16), .write (fdCall 1 16 2), .read (fdCall 0 32 5)]

theorem offsets_in_range_shared : ∃ s, Run descriptors TruncatesAtStart sharedCalls.reverse s ∧
    (s.file 0).off = 2 ∧ (s.file 0).off ≤ (s.inode 1).size ∧
    ∀ r bytes s', (fileread 0 5).run s = .ok ((r, bytes), s') → r = 0 := by
  have htr : ((sharedCalls.foldlM (tryCall atStart) oneFile).map fun s =>
      decide ((s.file 0).type = .inode ∧ (s.file 0).ip = some 1 ∧ (s.file 0).off = 2 ∧
        (s.file 0).readable = true ∧ (s.inode 1).size = 2)) = some true := by
    decide +kernel
  obtain ⟨s, hs, hend⟩ := Option.map_eq_some_iff.mp htr
  obtain ⟨htype, hip, hoff, hreadable, hsize⟩ := of_decide_eq_true hend
  have hrun : Run descriptors TruncatesAtStart sharedCalls.reverse s := by
    refine Run.of_foldlM oneFile_init (fun s call s' hnext => ?_) hs
    obtain ⟨hstep, hmeets⟩ := step_of_tryCall hnext
    refine ⟨hstep, ?_⟩
    cases call with
    | «open» u => exact fun path omode ip s₁ hpath homode hinode =>
        atStart_of (hmeets path omode ip s₁ hpath homode hinode)
    | _ => trivial
  obtain ⟨hrange, hread, -⟩ := offsets_in_range hrun 0 1 htype hip
  refine ⟨s, hrun, hoff, hrange, fun r bytes s' hcall => ?_⟩
  rw [hread 5 r bytes s' hreadable (by decide) (by decide) hcall, hsize, hoff]
  decide

/-- `a` is opened and read to its end, then opened with `O_TRUNC`. -/
def truncatedCalls : List Call :=
  [.open (openCall 2 0), .read (fdCall 0 32 5), .open (openCall 1 16)]

/-- The first descriptor is left at 5 in an empty file; reading a byte and writing
one through it fail. -/
theorem truncation_strands : ∃ s, Run descriptors anyStep truncatedCalls.reverse s ∧
    (s.file 0).type = .inode ∧ (s.file 0).ip = some 1 ∧ (s.file 0).readable = true ∧
    (s.file 0).writable ≠ 0 ∧ ¬ (s.file 0).off ≤ (s.inode 1).size ∧
    writeStart s 0 1 + 1 ≤ MAXFILE * BSIZE ∧
    (∃ s', (fileread 0 1).run s = .ok ((-1, []), s')) ∧
    ∃ s', (filewrite 0 2 0 [7]).run s = .ok (-1, s') := by
  have htr : ((truncatedCalls.foldlM (tryCall fun _ _ _ => true) oneFile).map fun s =>
      decide ((s.file 0).type = .inode ∧ (s.file 0).ip = some 1 ∧ (s.file 0).readable = true ∧
        (s.file 0).writable ≠ 0 ∧ ¬ (s.file 0).off ≤ (s.inode 1).size ∧
        writeStart s 0 1 + 1 ≤ MAXFILE * BSIZE) &&
      Prog.returns ((fileread 0 1).run s) (fun r _ => r = (-1, [])) &&
      Prog.returns ((filewrite 0 2 0 [7]).run s) (fun r _ => r = -1)) = some true := by
    decide +kernel
  obtain ⟨s, hs, hend⟩ := Option.map_eq_some_iff.mp htr
  simp only [Bool.and_eq_true] at hend
  obtain ⟨⟨hstate, hread⟩, hwrite⟩ := hend
  obtain ⟨htype, hip, hreadable, hwritable, hoff, hfits⟩ := of_decide_eq_true hstate
  refine ⟨s, Run.of_foldlM oneFile_init (fun _ _ _ h => ⟨(step_of_tryCall h).1, trivial⟩) hs,
    htype, hip, hreadable, hwritable, hoff, hfits, ?_, ?_⟩
  · obtain ⟨r, s', hcall, hr⟩ := Prog.returns_iff.mp hread
    obtain rfl := of_decide_eq_true hr
    exact ⟨s', hcall⟩
  · obtain ⟨r, s', hcall, hr⟩ := Prog.returns_iff.mp hwrite
    obtain rfl := of_decide_eq_true hr
    exact ⟨s', hcall⟩

end Plain

end Fs
end CS444
