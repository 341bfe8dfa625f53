/-
`xv6-fs`: the kernel without symbolic links.

Its `fs.c`, `file.c` and the other calls of `sysfile.c` are those of the symlink
kernel; `sys_open` differs.  It follows nothing, and opens a directory for
reading only.
-/
import CS444.Fs.Calls
import CS444.Fs.InodeSteps

namespace CS444
namespace Fs

open Program Ledger Runs

namespace Plain

/-- `sys_open` up to `O_TRUNC`: the inode to be opened, locked. -/
def openInode (path : Str) (omode : Nat) : K (Option Slot) := do
  if omode &&& O_CREATE ≠ 0 then create path T_FILE 0 0
  else
    match ← namei path with
    | none => return none
    | some ip =>
      ilock ip
      let i ← inodeAt ip
      if i.type = T_DIR ∧ omode ≠ O_RDONLY then
        iunlockput ip
        return none
      else return some ip

def sys_open (u : User) : K Int := do
  match u.argstr 0, u.argint 1 with
  | some path, some omode =>
    let r ← openInode path omode
    openResult omode r
  | _, _ => return -1

/-- A call on descriptors, or a switch to the process `p`. -/
inductive Call where
  | open (u : User)
  | close (u : User)
  | dup (u : User)
  | read (u : User)
  | write (u : User)
  | fork (np : ProcSlot)
  | switch (p : ProcSlot)

namespace Call

def code : Call → K Unit
  | .open u => ignore (sys_open u)
  | .close u => ignore (sys_close u)
  | .dup u => ignore (sys_dup u)
  | .read u => ignore (sys_read u)
  | .write u => ignore (sys_write u)
  | .fork np => Fs.fork np
  | .switch p => Prog.modify fun s => { s with cur := p }

/-- Only processes make calls, `fork` takes a free slot and only a process is
switched to. -/
def Enabled (s : Kernel) : Call → Prop
  | .fork np => (s.proc s.cur).cwd ≠ none ∧ (s.proc np).cwd = none
  | .switch p => (s.proc p).cwd ≠ none
  | _ => (s.proc s.cur).cwd ≠ none

end Call

variable {P : Nat → Int → Prop} {s s₁ s' : Kernel} {h : Slot → Nat} {ip : Slot} {path : Str}
  {omode : Nat} {u : User}

/-! ## `sys_open` -/

theorem openInode_step {R : Kernel → (Slot → Nat) → Kernel → (Slot → Nat) → Prop}
    (hR : InodeSteps R) {r : Option Slot} (hrun : (openInode path omode).run s = .ok (r, s'))
    (hcwd : CwdOk s) : R s 0 s' (ofOption r) := by
  rw [openInode] at hrun
  split at hrun
  · exact hR.create hcwd hrun
  · rw [Prog.bind_ok] at hrun
    obtain ⟨found, s₁, hwalk, hrun⟩ := hrun
    have hstep₁ := hR.namei hwalk hcwd
    cases found with
    | none =>
        obtain ⟨rfl, rfl⟩ := Prog.pure_ok.mp hrun
        exact hstep₁
    | some ip =>
        simp only at hrun
        rw [Prog.bind_ok] at hrun
        obtain ⟨_, s₂, hlock, hrun⟩ := hrun
        have hstep₂ : R s 0 s₂ (one ip) := hR.andThen hstep₁ (hR.ilock hlock)
        rw [inodeAt_bind_run] at hrun
        split at hrun
        · rw [Prog.bind_ok] at hrun
          obtain ⟨_, s₃, hput, hrun⟩ := hrun
          obtain ⟨rfl, rfl⟩ := Prog.pure_ok.mp hrun
          exact hR.trans hstep₂ (hR.iunlockput hput)
        · obtain ⟨rfl, rfl⟩ := Prog.pure_ok.mp hrun
          exact hstep₂

/-- The inode to be opened is in use. -/
theorem openInode_inUse (hrun : (openInode path omode).run s = .ok (some ip, s'))
    (hc : CacheOk s) (hcwd : CwdOk s) : InUse s' ip := by
  rw [openInode] at hrun
  split at hrun
  · exact (create_created hc hcwd hrun).inUse ip rfl
  · rw [Prog.bind_ok] at hrun
    obtain ⟨found, s₁, hwalk, hrun⟩ := hrun
    cases found with
    | none => simp at hrun
    | some k =>
        simp only at hrun
        rw [Prog.bind_ok] at hrun
        obtain ⟨_, s₂, hlock, hrun⟩ := hrun
        rw [inodeAt_bind_run] at hrun
        split at hrun
        · rw [Prog.bind_ok] at hrun
          obtain ⟨_, s₃, hput, hrun⟩ := hrun
          simp at hrun
        · obtain ⟨heq, rfl⟩ := Prog.pure_ok.mp hrun
          obtain rfl := Option.some.inj heq
          exact (ilock_spec hlock).inUse

theorem inodeSteps_moves : InodeSteps Moves where
  refl := Moves.refl
  trans := Moves.trans
  frame := Moves.frame
  iget := iget_moves
  idup hrun hpos := by
    obtain ⟨rfl, hm⟩ := idup_moves hrun hpos
    exact hm
  ilock hrun := (ilock_spec hrun).moves
  iunlock hrun := (iunlock_keys hrun).moves 0
  iput := iput_moves
  readi hrun _ _ := readi_moves hrun
  writei hrun hu _ _ := writei_moves hrun hu.valid hu.pos
  ialloc hrun hdev := (ialloc_moves hrun hdev).1
  relabel _ _ _ hu := rewritten_moves hu rfl rfl rfl rfl rfl

/-- Whatever `sys_open` opens, with `omode` and as the kernel is then, meets `Q`. -/
def Opens (Q : Nat → Slot → Kernel → Prop) (s : Kernel) (u : User) : Prop :=
  ∀ path omode ip s₁, u.argstr 0 = some path → u.argint 1 = some omode →
    (openInode path omode).run s = .ok (some ip, s₁) → Q omode ip s₁

/-- `sys_open` resolved its path: to nothing, or to an inode that `openFile` is
called with. -/
theorem sys_open_cases {r : Int} (hk : Kept P s 0) (hrun : (sys_open u).run s = .ok (r, s')) :
    s' = s ∨ (∃ path omode, (openInode path omode).run s = .ok (none, s')) ∨
      ∃ path omode ip s₁, u.argstr 0 = some path ∧ u.argint 1 = some omode ∧
        (openInode path omode).run s = .ok (some ip, s₁) ∧ InUse s₁ ip ∧ Kept P s₁ (one ip) ∧
        (openFile omode ip).run s₁ = .ok (r, s') := by
  rw [sys_open] at hrun
  split at hrun
  · rename_i path omode hpath homode
    rw [Prog.bind_ok] at hrun
    obtain ⟨found, s₁, hinode, hrun⟩ := hrun
    cases found with
    | none =>
        obtain ⟨-, rfl⟩ := Prog.pure_ok.mp hrun
        exact Or.inr (Or.inl ⟨path, omode, hinode⟩)
    | some ip =>
        exact Or.inr (Or.inr ⟨path, omode, ip, s₁, hpath, homode, hinode,
          openInode_inUse hinode hk.cache hk.cwdOk,
          hk.moves (openInode_step inodeSteps_moves hinode hk.cwdOk), hrun⟩)
  · exact Or.inl (Prog.pure_ok.mp hrun).2.symm

theorem sys_open_kept {r : Int} (hk : Kept P s 0)
    (hP : Opens (fun omode ip s₁ => P (writableOf omode) (s₁.inode ip).type) s u)
    (hrun : (sys_open u).run s = .ok (r, s')) : Kept P s' 0 := by
  rcases sys_open_cases hk hrun with rfl | ⟨path, omode, hinode⟩ |
    ⟨path, omode, ip, s₁, hpath, homode, hinode, hu, hk₁, hfile⟩
  · exact hk
  · exact hk.moves (openInode_step inodeSteps_moves hinode hk.cwdOk)
  · rcases openFile_cases hfile hu hk₁.closed with ⟨-, hfail⟩ | ⟨fd, f, -, hopened⟩
    · exact hk₁.moves hfail
    · refine Kept.opened ?_ hopened (hP path omode ip s₁ hpath homode hinode)
      rw [zero_add]
      exact hk₁

/-! ## Calls -/

/-- A condition on what `sys_open` opens. -/
def OpenMeets (Q : Nat → Slot → Kernel → Prop) (s : Kernel) : Call → Prop
  | .open u => Opens Q s u
  | _ => True

theorem call_kept {call : Call} {r : Unit} (hk : Kept P s 0) (hen : call.Enabled s)
    (hmeets : OpenMeets (fun omode ip s₁ => P (writableOf omode) (s₁.inode ip).type) s call)
    (hrun : call.code.run s = .ok (r, s')) : Kept P s' 0 := by
  cases call with
  | «open» u =>
      obtain ⟨a, hrun⟩ := ignore_ok.mp hrun
      exact sys_open_kept hk hmeets hrun
  | close u =>
      obtain ⟨a, hrun⟩ := ignore_ok.mp hrun
      exact sys_close_kept hk hrun
  | dup u =>
      obtain ⟨a, hrun⟩ := ignore_ok.mp hrun
      exact sys_dup_kept hk hrun
  | read u =>
      obtain ⟨a, hrun⟩ := ignore_ok.mp hrun
      exact hk.quiet (sys_read_quiet hrun)
  | write u =>
      obtain ⟨a, hrun⟩ := ignore_ok.mp hrun
      exact hk.quiet (sys_write_quiet hrun)
  | fork np => exact fork_kept hk hen.2 hrun
  | switch p =>
      obtain rfl := Prog.modify_ok.mp hrun
      have hm : InodeMoves s 0 { s with cur := p } 0 := by apply InodeMoves.of_eq <;> rfl
      exact hk.step hm (fun _ => Nat.zero_le _) hk.closed (fun _ => le_rfl)
        fun f htype => Or.inl ⟨htype, rfl, rfl⟩

end Plain

end Fs
end CS444
