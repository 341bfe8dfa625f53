/-
The file system calls as one system.

A step is a call that returns: the running process makes one of the calls, the
running process changes, or `fork` and `exit` do their part of the work on
files.  `call_kept` says that every step keeps the invariant `Kept P`; only
`sys_open` makes an open inode file, so it is the only one that has to meet
`P`.  `LinkCalls.refsChange` counts the references after any number of calls
that conserve them.
-/
import CS444.Lib.Runs
import CS444.Fs.Conservation
import CS444.Fs.FileRefs

namespace CS444
namespace Fs

open Program Ledger Runs

variable {P : Nat → Int → Prop} {s s₁ s' : Kernel} {h : Slot → Nat} {f : FileSlot} {u : User}

/-! ## Descriptors -/

theorem argfd_same {n : Nat} {r : Option (Fin NOFILE × FileSlot)}
    (hrun : (argfd u n).run s = .ok (r, s')) : s' = s := by
  rw [argfd, myproc_bind_run] at hrun
  split at hrun
  · exact (Prog.pure_ok.mp hrun).2.symm
  · split at hrun <;> exact (Prog.pure_ok.mp hrun).2.symm

theorem fdalloc_kept (hk : Kept P s h) {r : Option (Fin NOFILE)}
    (hrun : (fdalloc f).run s = .ok (r, s')) : Kept P s' h := by
  rcases fdalloc_cases hrun with ⟨-, rfl⟩ | ⟨fd, -, -, rfl⟩
  · exact hk
  · rw [withProc_eq]
    exact hk.withSameProc rfl

theorem clearFd_kept (hk : Kept P s h) {fd : Fin NOFILE} {r : Unit}
    (hrun : (clearFd fd).run s = .ok (r, s')) : Kept P s' h := by
  obtain rfl := setProc_ok.mp hrun
  rw [withProc_eq]
  exact hk.withSameProc rfl

theorem sys_dup_kept (hk : Kept P s h) {r : Int} (hrun : (sys_dup u).run s = .ok (r, s')) :
    Kept P s' h := by
  rw [sys_dup, Prog.bind_ok] at hrun
  obtain ⟨e, s₁, hfd, hrun⟩ := hrun
  obtain rfl := argfd_same hfd
  cases e with
  | none =>
      obtain ⟨-, rfl⟩ := Prog.pure_ok.mp hrun
      exact hk
  | some e =>
      simp only at hrun
      rw [Prog.bind_ok] at hrun
      obtain ⟨fd, s₂, halloc, hrun⟩ := hrun
      have hk₂ := fdalloc_kept hk halloc
      cases fd with
      | none =>
          obtain ⟨-, rfl⟩ := Prog.pure_ok.mp hrun
          exact hk₂
      | some fd =>
          simp only at hrun
          rw [Prog.bind_ok] at hrun
          obtain ⟨_, s₃, hdup, hrun⟩ := hrun
          obtain ⟨-, rfl⟩ := Prog.pure_ok.mp hrun
          exact (filedup_kept hk₂ hdup).1

theorem sys_close_kept (hk : Kept P s h) {r : Int} (hrun : (sys_close u).run s = .ok (r, s')) :
    Kept P s' h := by
  rw [sys_close, Prog.bind_ok] at hrun
  obtain ⟨e, s₁, hfd, hrun⟩ := hrun
  obtain rfl := argfd_same hfd
  cases e with
  | none =>
      obtain ⟨-, rfl⟩ := Prog.pure_ok.mp hrun
      exact hk
  | some e =>
      simp only at hrun
      rw [Prog.bind_ok] at hrun
      obtain ⟨_, s₂, hclear, hrun⟩ := hrun
      rw [Prog.bind_ok] at hrun
      obtain ⟨_, s₃, hclose, hrun⟩ := hrun
      obtain ⟨-, rfl⟩ := Prog.pure_ok.mp hrun
      exact (fileclose_kept (clearFd_kept hk hclear) hclose).1

theorem sys_read_quiet {r : Int × Str} (hrun : (sys_read u).run s = .ok (r, s')) :
    Quiet s s' := by
  rw [sys_read, Prog.bind_ok] at hrun
  obtain ⟨e, s₁, hfd, hrun⟩ := hrun
  obtain rfl := argfd_same hfd
  split at hrun
  · split at hrun
    · obtain ⟨-, rfl⟩ := Prog.pure_ok.mp hrun
      exact .refl _
    · exact (fileread_quietOn hrun).toQuiet
  · obtain ⟨-, rfl⟩ := Prog.pure_ok.mp hrun
    exact .refl _

theorem sys_write_quiet {r : Int} (hrun : (sys_write u).run s = .ok (r, s')) : Quiet s s' := by
  rw [sys_write, Prog.bind_ok] at hrun
  obtain ⟨e, s₁, hfd, hrun⟩ := hrun
  obtain rfl := argfd_same hfd
  split at hrun
  · split at hrun
    · obtain ⟨-, rfl⟩ := Prog.pure_ok.mp hrun
      exact .refl _
    · exact ((write_seek_quietOn _ 2).1 hrun).toQuiet
  · obtain ⟨-, rfl⟩ := Prog.pure_ok.mp hrun
    exact .refl _

theorem sys_fstat_quiet {r : Int × Option Stat} (hrun : (sys_fstat u).run s = .ok (r, s')) :
    Quiet s s' := by
  rw [sys_fstat, Prog.bind_ok] at hrun
  obtain ⟨e, s₁, hfd, hrun⟩ := hrun
  obtain rfl := argfd_same hfd
  split at hrun
  · exact (filestat_quietOn hrun).toQuiet
  · obtain ⟨-, rfl⟩ := Prog.pure_ok.mp hrun
    exact .refl _

theorem sys_lseek_quiet {r : Int} (hrun : (sys_lseek u).run s = .ok (r, s')) : Quiet s s' := by
  rw [sys_lseek, Prog.bind_ok] at hrun
  obtain ⟨e, s₁, hfd, hrun⟩ := hrun
  obtain rfl := argfd_same hfd
  split at hrun
  · exact ((write_seek_quietOn _ 3).2 hrun).toQuiet
  · obtain ⟨-, rfl⟩ := Prog.pure_ok.mp hrun
    exact .refl _

theorem sys_pipe_kept (hk : Kept P s h) {r : Option (Fin NOFILE × Fin NOFILE)}
    (hrun : (sys_pipe u).run s = .ok (r, s')) : Kept P s' h := by
  rw [sys_pipe] at hrun
  split at hrun
  · obtain ⟨-, rfl⟩ := Prog.pure_ok.mp hrun
    exact hk
  rw [Prog.bind_ok] at hrun
  obtain ⟨ends, s₁, halloc, hrun⟩ := hrun
  have hk₁ := pipealloc_kept hk halloc
  cases ends with
  | none =>
      obtain ⟨-, rfl⟩ := Prog.pure_ok.mp hrun
      exact hk₁
  | some ends =>
      obtain ⟨rf, wf⟩ := ends
      simp only at hrun
      rw [Prog.bind_ok] at hrun
      obtain ⟨fd0, s₂, halloc₂, hrun⟩ := hrun
      have hk₂ := fdalloc_kept hk₁ halloc₂
      cases fd0 with
      | none =>
          simp only at hrun
          rw [Prog.bind_ok] at hrun
          obtain ⟨_, s₃, hclose, hrun⟩ := hrun
          rw [Prog.bind_ok] at hrun
          obtain ⟨_, s₄, hclose₄, hrun⟩ := hrun
          obtain ⟨-, rfl⟩ := Prog.pure_ok.mp hrun
          exact (fileclose_kept (fileclose_kept hk₂ hclose).1 hclose₄).1
      | some fd0 =>
          simp only at hrun
          rw [Prog.bind_ok] at hrun
          obtain ⟨fd1, s₃, halloc₃, hrun⟩ := hrun
          have hk₃ := fdalloc_kept hk₂ halloc₃
          cases fd1 with
          | none =>
              simp only at hrun
              rw [Prog.bind_ok] at hrun
              obtain ⟨_, s₄, hclear, hrun⟩ := hrun
              rw [Prog.bind_ok] at hrun
              obtain ⟨_, s₅, hclose, hrun⟩ := hrun
              rw [Prog.bind_ok] at hrun
              obtain ⟨_, s₆, hclose₆, hrun⟩ := hrun
              obtain ⟨-, rfl⟩ := Prog.pure_ok.mp hrun
              have hk₄ := clearFd_kept hk₃ hclear
              exact (fileclose_kept (fileclose_kept hk₄ hclose).1 hclose₆).1
          | some fd1 =>
              obtain ⟨-, rfl⟩ := Prog.pure_ok.mp hrun
              exact hk₃

/-! ## `sys_open` -/

/-- The kernel between calls is `Sane`. -/
theorem Kept.sane (hk : Kept P s h) : Sane s := ⟨hk.cache, hk.cwdOk, hk.closed⟩

/-- What `sys_open` opens, with `writable` of the file and the type of the
inode, is what `Q` admits. -/
def OpensOnly (Q : Nat → Int → Prop) (s : Kernel) (above : Nat → Str) (u : User) : Prop :=
  ∀ path omode ip s₁, u.argstr 0 = some path → u.argint 1 = some omode →
    (openInode above path omode).run s = .ok (some ip, s₁) →
    Q (writableOf omode) (s₁.inode ip).type

/-- A new open file refers to an inode `P` admits. -/
theorem Kept.opened {omode : Nat} {ip : Slot} {fd : Fin NOFILE} (hk : Kept P s (h + one ip))
    (ho : Opened s omode ip fd f s') (hP : P (writableOf omode) (s.inode ip).type) :
    Kept P s' h := by
  have hnew : s'.file f = openedFile omode ip (s.file f) := by
    rw [ho.file, Function.update_self]
  have hother : ∀ f', f' ≠ f → s'.file f' = s.file f' := by
    intro f' hf
    rw [ho.file, Function.update_of_ne hf]
  have hcwds : holdings cwdOf s'.proc = holdings cwdOf s.proc := by
    rw [ho.proc]
    exact holdings_update_same rfl
  have hfiles : ∀ k, holdings inodeOf s'.file k = holdings inodeOf s.file k + one ip k := by
    intro k
    have hupdate := holdings_update inodeOf s.file f (openedFile omode ip (s.file f)) k
    have hnone : inodeOf (s.file f) = 0 := inodeOf_of_ne (by simp [hk.closed f ho.free])
    have hone : inodeOf (openedFile omode ip (s.file f)) = one ip := inodeOf_of_inode rfl
    rw [hnone, hone, Pi.zero_apply, add_zero] at hupdate
    rw [ho.file, hupdate]
  refine hk.step ho.inodes (fun _ => Nat.zero_le _) (fun f' href => ?_) (fun k => ?_)
    fun f' htype => ?_
  · by_cases hf : f' = f
    · subst hf
      rw [hnew] at href
      exact absurd href (by simp [openedFile])
    · rw [hother f' hf] at href ⊢
      exact hk.closed f' href
  · simp only [held, Pi.add_apply, hcwds, hfiles, Pi.zero_apply]
    omega
  · by_cases hf : f' = f
    · subst hf
      refine Or.inr ⟨ip, by rw [hnew]; rfl, ho.inUse.valid, ?_⟩
      rw [hnew, ho.type]
      exact hP
    · rw [hother f' hf] at htype ⊢
      exact Or.inl ⟨htype, rfl, rfl⟩

theorem sys_open_kept {above : Nat → Str} {r : Int} (hk : Kept P s 0)
    (hP : OpensOnly P s above u) (hrun : (sys_open above u).run s = .ok (r, s')) :
    Kept P s' 0 := by
  rw [sys_open] at hrun
  split at hrun
  · rename_i path omode hpath homode
    rw [Prog.bind_ok] at hrun
    obtain ⟨found, s₁, hinode, hrun⟩ := hrun
    obtain ⟨leaked, hr⟩ := openInode_resolved hinode hk.cache hk.cwdOk
    have hk₁ := hk.moves hr.moves
    cases found with
    | none =>
        obtain ⟨-, rfl⟩ := Prog.pure_ok.mp hrun
        exact hk₁.forget fun _ => Nat.zero_le _
    | some ip =>
        rcases openFile_cases hrun (hr.inUse ip rfl) hk₁.closed with
          ⟨-, hfail⟩ | ⟨fd, f, -, hopened⟩
        · exact (hk₁.moves (hfail.leaving leaked)).forget fun _ => Nat.zero_le _
        · exact (hk₁.opened hopened (hP path omode ip s₁ hpath homode hinode)).forget
            fun _ => Nat.zero_le _
  · obtain ⟨-, rfl⟩ := Prog.pure_ok.mp hrun
    exact hk

/-! ## Processes -/

/-- The running process gives up its current directory for `cwd`. -/
theorem Kept.newCwd {old : Slot} {cwd : Option Slot} {r : Unit}
    (hk : Kept P s (h + ofOption cwd)) (hold : (s.proc s.cur).cwd = some old)
    (hput : (iput old).run s = .ok (r, s')) :
    Kept P (withProc s' { s'.proc s'.cur with cwd := cwd }) h := by
  have hm := iput_moves hput
  have hproc : s'.proc s'.cur = s.proc s.cur := by rw [hm.tables.proc, hm.tables.cur]
  have hheld : ∀ k, held (withProc s' { s'.proc s'.cur with cwd := cwd }) k + one old k =
      held s k + ofOption cwd k := by
    intro k
    have hupdate := held_withProcAt (s := s') s'.cur { s'.proc s'.cur with cwd := cwd } k
    have hsame : held s' = held s := by
      unfold held
      rw [hm.tables.file, hm.tables.proc]
    simp only [cwdOf, hproc, hold, ofOption, hsame, ← withProc_eq] at hupdate ⊢
    exact hupdate
  refine hk.step (hm.toInodeMoves.trans (inodeMoves_withProc _ 0)) (fun k => ?_) (fun f' => ?_)
    (fun k => ?_) fun f' htype => ?_
  · have := le_holdings cwdOf s.proc s.cur k
    rw [cwdOf, hold] at this
    exact Nat.le_add_right_of_le this
  · show (s'.file f').ref = 0 → (s'.file f').type = .none
    rw [hm.tables.file]
    exact hk.closed f'
  · have := hheld k
    simp only [Pi.add_apply, Pi.zero_apply] at this ⊢
    omega
  · have hfile : (withProc s' { s'.proc s'.cur with cwd := cwd }).file f' = s.file f' := by
      show s'.file f' = s.file f'
      rw [hm.tables.file]
    rw [hfile] at htype ⊢
    exact Or.inl ⟨htype, rfl, rfl⟩

theorem sys_chdir_kept {r : Int} (hk : Kept P s 0) (hrun : (sys_chdir u).run s = .ok (r, s')) :
    Kept P s' 0 := by
  rw [sys_chdir] at hrun
  split at hrun
  · obtain ⟨-, rfl⟩ := Prog.pure_ok.mp hrun
    exact hk
  rw [Prog.bind_ok] at hrun
  obtain ⟨found, s₁, hwalk, hrun⟩ := hrun
  have hk₁ := hk.moves (namei_moves hwalk hk.cwdOk)
  cases found with
  | none =>
      obtain ⟨-, rfl⟩ := Prog.pure_ok.mp hrun
      exact hk₁
  | some ip =>
      simp only at hrun
      rw [Prog.bind_ok] at hrun
      obtain ⟨_, s₂, hlock, hrun⟩ := hrun
      have hk₂ : Kept P s₂ (one ip) :=
        hk₁.moves ((Moves.refl s₁ _).andThen (ilock_spec hlock).moves)
      rw [inodeAt_bind_run] at hrun
      split at hrun
      · rw [Prog.bind_ok] at hrun
        obtain ⟨_, s₃, hput, hrun⟩ := hrun
        obtain ⟨-, rfl⟩ := Prog.pure_ok.mp hrun
        exact hk₂.moves (iunlockput_moves hput)
      · rw [Prog.bind_ok] at hrun
        obtain ⟨_, s₃, hunlock, hrun⟩ := hrun
        have hk₃ := hk₂.keys (iunlock_keys hunlock)
        rw [myproc_bind_run] at hrun
        split at hrun
        · simp at hrun
        · rename_i old hold
          rw [Prog.bind_ok] at hrun
          obtain ⟨_, s₄, hput, hrun⟩ := hrun
          rw [setProc_bind_run] at hrun
          obtain ⟨-, rfl⟩ := Prog.pure_ok.mp hrun
          refine @Kept.newCwd _ _ _ _ _ (some ip) _ ?_ hold hput
          rw [zero_add]
          exact hk₃

/-- Copying descriptors gives the child no current directory yet. -/
theorem forkFiles_kept {np : ProcSlot} {fds : List (Fin NOFILE)} {r : Unit} (hk : Kept P s h)
    (hrun : (forkFiles np fds).run s = .ok (r, s')) :
    Kept P s' h ∧ (s'.proc np).cwd = (s.proc np).cwd := by
  induction fds generalizing s with
  | nil =>
      obtain ⟨-, rfl⟩ := Prog.pure_ok.mp hrun
      exact ⟨hk, rfl⟩
  | cons fd rest ih =>
      rw [forkFiles, myproc_bind_run] at hrun
      split at hrun
      · exact ih hk hrun
      · rw [Prog.bind_ok] at hrun
        obtain ⟨f, s₁, hdup, hrun⟩ := hrun
        obtain ⟨hk₁, hproc, -⟩ := filedup_kept hk hdup
        rw [Prog.modify_bind_run] at hrun
        have hk₂ : Kept P (withProcAt s₁ np { s₁.proc np with
            ofile := Function.update (s₁.proc np).ofile fd (some f) }) h := hk₁.withSameProc rfl
        obtain ⟨hk', hnp⟩ := ih hk₂ hrun
        refine ⟨hk', hnp.trans ?_⟩
        simp [withProcAt, hproc]

theorem fork_kept {np : ProcSlot} {r : Unit} (hk : Kept P s 0) (hfree : (s.proc np).cwd = none)
    (hrun : (fork np).run s = .ok (r, s')) : Kept P s' 0 := by
  rw [fork, Prog.bind_ok] at hrun
  obtain ⟨_, s₁, hfiles, hrun⟩ := hrun
  obtain ⟨hk₁, hnp⟩ := forkFiles_kept hk hfiles
  rw [myproc_bind_run] at hrun
  split at hrun
  · simp at hrun
  · rename_i cwd hcwd
    rw [Prog.bind_ok] at hrun
    obtain ⟨k, s₂, hdup, hrun⟩ := hrun
    obtain ⟨rfl, hm⟩ := idup_moves hdup (hk₁.cwdOk cwd hcwd)
    obtain rfl := Prog.modify_ok.mp hrun
    have hk₂ := hk₁.moves hm
    refine hk₂.withProcAt (q := np) fun k' => ?_
    rw [hm.tables.proc, cwdOf, cwdOf, hnp, hfree]
    simp [ofOption]

theorem exitFiles_kept {fds : List (Fin NOFILE)} {r : Unit} (hk : Kept P s h)
    (hrun : (exitFiles fds).run s = .ok (r, s')) : Kept P s' h := by
  induction fds generalizing s with
  | nil =>
      obtain ⟨-, rfl⟩ := Prog.pure_ok.mp hrun
      exact hk
  | cons fd rest ih =>
      rw [exitFiles, myproc_bind_run] at hrun
      split at hrun
      · exact ih hk hrun
      · rw [Prog.bind_ok] at hrun
        obtain ⟨_, s₁, hclose, hrun⟩ := hrun
        rw [Prog.bind_ok] at hrun
        obtain ⟨_, s₂, hclear, hrun⟩ := hrun
        exact ih (clearFd_kept (fileclose_kept hk hclose).1 hclear) hrun

theorem exit_kept {r : Unit} (hk : Kept P s 0) (hrun : exit.run s = .ok (r, s')) :
    Kept P s' 0 := by
  rw [exit, Prog.bind_ok] at hrun
  obtain ⟨_, s₁, hfiles, hrun⟩ := hrun
  have hk₁ := exitFiles_kept hk hfiles
  rw [myproc_bind_run] at hrun
  split at hrun
  · simp at hrun
  · rename_i old hold
    rw [Prog.bind_ok] at hrun
    obtain ⟨_, s₂, hput, hrun⟩ := hrun
    obtain rfl := setProc_ok.mp hrun
    exact @Kept.newCwd _ _ _ _ _ none _ hk₁ hold hput

theorem sys_exec_kept {above : Nat → Str} {r : Option (Str × List Str)} (hk : Kept P s 0)
    (hrun : (sys_exec above u).run s = .ok (r, s')) : Kept P s' 0 := by
  have hcall := hrun
  rw [sys_exec] at hrun
  split at hrun
  · rename_i path uargv hpath huargv
    split at hrun
    · obtain ⟨-, rfl⟩ := Prog.pure_ok.mp hrun
      exact hk
    · rename_i argv hargv
      rcases sys_exec_leaks hk.sane hcall hpath huargv hargv with
        ⟨s₁, hwalk, rfl⟩ | ⟨ip, s₁, leaked, -, -, hm⟩
      · exact hk.moves (namei_moves hwalk hk.cwdOk)
      · exact (hk.moves hm).forget fun _ => Nat.zero_le _
  · obtain ⟨-, rfl⟩ := Prog.pure_ok.mp hrun
    exact hk

/-! ## Sequences of link calls -/

/-- The counts moved by two amounts, one after the other. -/
theorem RefsChange.trans {δ₁ δ₂ : Slot → Nat} (h₁ : RefsChange s s₁ δ₁)
    (h₂ : RefsChange s₁ s' δ₂) : RefsChange s s' (δ₁ + δ₂) := by
  intro k
  obtain ⟨href₁, hpin₁⟩ := h₁ k
  obtain ⟨href₂, hpin₂⟩ := h₂ k
  refine ⟨by rw [href₂, href₁, Pi.add_apply]; omega, fun hpos => ?_⟩
  obtain ⟨hdev₁, hinum₁⟩ := hpin₁ hpos
  obtain ⟨hdev₂, hinum₂⟩ := hpin₂ (by omega)
  exact ⟨hdev₂.trans hdev₁, hinum₂.trans hinum₁⟩

/-- The call comes back in `s'`; `got` is the inode its descriptor refers to. -/
def LinkCall.Ends (s : Kernel) (got : Option Slot) (s' : Kernel) : LinkCall → Prop
  | .open above u => ∃ r, (sys_open above u).run s = .ok (r, s') ∧
      (r = -1 ∧ got = none ∨ ∃ (fd : Fin NOFILE) (f : FileSlot) (k : Slot), r = fd.val ∧
        (s'.proc s'.cur).ofile fd = some f ∧ (s'.file f).ip = some k ∧ got = some k)
  | .exec above u => got = none ∧ ∃ r, (sys_exec above u).run s = .ok (r, s')
  | .symlink u => got = none ∧ ∃ r, (sys_symlink u).run s = .ok (r, s')

/-- Calls one after the other, none of which leaves anything; `opened` are the
inodes of the descriptors they returned. -/
inductive LinkCalls : Kernel → List Slot → Kernel → Prop
  | nil (s : Kernel) : LinkCalls s [] s
  | cons {s s₁ s' : Kernel} {got : Option Slot} {opened : List Slot} (call : LinkCall) :
      call.LeavesNothing s → call.Ends s got s₁ → LinkCalls s₁ opened s' →
      LinkCalls s (got.toList ++ opened) s'

theorem LinkCall.Ends.refsChange {call : LinkCall} {got : Option Slot} (hk : Kept P s 0)
    (hnothing : call.LeavesNothing s) (hends : call.Ends s got s') :
    RefsChange s s' (ofOption got) := by
  cases call with
  | «open» above u =>
      obtain ⟨r, hrun, hgot⟩ := hends
      have hcons := (open_conserves_iff hk.sane ⟨r, s', hrun⟩).mpr hnothing r s' hrun
      rcases hgot with ⟨rfl, rfl⟩ | ⟨fd, f, k, rfl, hfd, hip, rfl⟩
      · rcases hcons with ⟨-, hchange⟩ | ⟨fd, _, _, heq, -⟩
        · exact hchange
        · omega
      · exact hcons.slot hfd hip
  | exec above u =>
      obtain ⟨rfl, r, hrun⟩ := hends
      exact (exec_conserves_iff hk.sane ⟨r, s', hrun⟩).mpr hnothing r s' hrun
  | symlink u =>
      obtain ⟨rfl, r, hrun⟩ := hends
      exact (sys_symlink_moves hk.cache hk.cwdOk hrun).refsChange

theorem LinkCall.Ends.kept {call : LinkCall} {got : Option Slot}
    (hk : Kept (fun _ _ => True) s 0) (hends : call.Ends s got s') :
    Kept (fun _ _ => True) s' 0 := by
  cases call with
  | «open» above u =>
      obtain ⟨r, hrun, -⟩ := hends
      exact sys_open_kept hk (fun _ _ _ _ _ _ _ => trivial) hrun
  | exec above u =>
      obtain ⟨-, r, hrun⟩ := hends
      exact sys_exec_kept hk hrun
  | symlink u =>
      obtain ⟨-, r, hrun⟩ := hends
      exact hk.moves (sys_symlink_moves hk.cache hk.cwdOk hrun)

/-- However many such calls are made, each inode is referred to once more for
each descriptor they opened on it, and every other as often as before. -/
theorem LinkCalls.refsChange {opened : List Slot} (hcalls : LinkCalls s opened s')
    (hk : Kept (fun _ _ => True) s 0) : RefsChange s s' fun k => opened.count k := by
  induction hcalls with
  | nil s => exact (Moves.refl s 0).refsChange
  | @cons s s₁ s' got opened call hnothing hends _ ih =>
      have hsum : (fun k => (got.toList ++ opened).count k) =
          ofOption got + fun k => opened.count k := by
        funext k
        rw [List.count_append, Pi.add_apply]
        cases got with
        | none => rfl
        | some ip =>
            show [ip].count k + _ = one ip k + _
            by_cases hk : ip = k
            · rw [hk, List.count_singleton_self, one_self]
            · rw [List.count_singleton, if_neg (by simpa using hk), one_of_ne (Ne.symm hk)]
      rw [hsum]
      exact (hends.refsChange hk hnothing).trans (ih (hends.kept hk))

/-! ## The system -/

/-- A call of the running process, or a switch to the process `p`. -/
inductive Call where
  | open (above : Nat → Str) (u : User)
  | close (u : User)
  | dup (u : User)
  | read (u : User)
  | write (u : User)
  | fstat (u : User)
  | lseek (u : User)
  | pipe (u : User)
  | link (u : User)
  | unlink (u : User)
  | mkdir (u : User)
  | mknod (u : User)
  | symlink (u : User)
  | chdir (u : User)
  | exec (above : Nat → Str) (u : User) (reads : List (Nat × Nat))
  | fork (np : ProcSlot)
  | exit
  | switch (p : ProcSlot)

/-- A call whose result nobody looks at. -/
def ignore {α : Type} (x : K α) : K Unit := do
  let _ ← x
  pure ()

theorem ignore_ok {α : Type} {x : K α} {r : Unit} :
    (ignore x).run s = .ok (r, s') ↔ ∃ a, x.run s = .ok (a, s') := by
  rw [ignore, Prog.bind_ok]
  constructor
  · rintro ⟨a, s₁, hx, hrun⟩
    obtain ⟨-, rfl⟩ := Prog.pure_ok.mp hrun
    exact ⟨a, hx⟩
  · rintro ⟨a, hx⟩
    exact ⟨a, s', hx, rfl⟩

namespace Call

/-- `sys_exec` and, when it gets that far, `exec`. -/
def execAll (above : Nat → Str) (u : User) (reads : List (Nat × Nat)) : K Unit := do
  match ← sys_exec above u with
  | none => pure ()
  | some (path, _) => Fs.exec path reads

def code : Call → K Unit
  | .open above u => ignore (sys_open above u)
  | .close u => ignore (sys_close u)
  | .dup u => ignore (sys_dup u)
  | .read u => ignore (sys_read u)
  | .write u => ignore (sys_write u)
  | .fstat u => ignore (sys_fstat u)
  | .lseek u => ignore (sys_lseek u)
  | .pipe u => ignore (sys_pipe u)
  | .link u => ignore (sys_link u)
  | .unlink u => ignore (sys_unlink u)
  | .mkdir u => ignore (sys_mkdir u)
  | .mknod u => ignore (sys_mknod u)
  | .symlink u => ignore (sys_symlink u)
  | .chdir u => ignore (sys_chdir u)
  | .exec above u reads => execAll above u reads
  | .fork np => Fs.fork np
  | .exit => Fs.exit
  | .switch p => Prog.modify fun s => { s with cur := p }

/-- Only processes make calls, `fork` takes a free slot and only a process is
switched to. -/
def Enabled (s : Kernel) : Call → Prop
  | .fork np => (s.proc s.cur).cwd ≠ none ∧ (s.proc np).cwd = none
  | .switch p => (s.proc p).cwd ≠ none
  | _ => (s.proc s.cur).cwd ≠ none

end Call

/-- After boot: nothing is open and one process runs, with a directory that is
referred to. -/
structure Boot (s : Kernel) : Prop where
  cache : CacheOk s
  files : ∀ f, (s.file f).ref = 0 ∧ (s.file f).type = .none
  cwd : ∃ k, (s.proc s.cur).cwd = some k ∧ 0 < (s.inode k).ref
  alone : ∀ p, p ≠ s.cur → (s.proc p).cwd = none

/-- The kernel, one call at a time. -/
def calls : System Kernel Call where
  init := Boot
  step s call s' := call.Enabled s ∧ call.code.run s = .ok ((), s')

theorem Boot.kept (hb : Boot s) : Kept P s 0 := by
  obtain ⟨cwd, hcwd, hpos⟩ := hb.cwd
  have hcwds : holdings cwdOf s.proc = one cwd := by
    funext k
    rw [holdings, Finset.sum_eq_single s.cur]
    · rw [cwdOf, hcwd, ofOption]
    · intro p _ hp
      rw [cwdOf, hb.alone p hp]
      rfl
    · simp
  have hfiles : holdings inodeOf s.file = 0 := by
    funext k
    rw [holdings, Finset.sum_eq_zero]
    · rfl
    · intro f _
      rw [inodeOf_of_ne (by simp [(hb.files f).2])]
      rfl
  refine ⟨hb.cache, fun f _ => (hb.files f).2, fun k => ?_, fun f htype => ?_⟩
  · rw [held, hcwds, hfiles]
    have := hb.cache.nonneg k
    by_cases hk : k = cwd
    · subst hk
      simp
      omega
    · simp only [add_zero, one_of_ne hk]
      exact_mod_cast this
  · exact absurd htype (by simp [(hb.files f).2])

/-- A condition on the files `sys_open` makes. -/
def OpenMeets (Q : Nat → Int → Prop) (s : Kernel) : Call → Prop
  | .open above u => OpensOnly Q s above u
  | _ => True

theorem execAll_kept {above : Nat → Str} {reads : List (Nat × Nat)} {r : Unit}
    (hk : Kept P s 0) (hrun : (Call.execAll above u reads).run s = .ok (r, s')) :
    Kept P s' 0 := by
  rw [Call.execAll, Prog.bind_ok] at hrun
  obtain ⟨e, s₁, hexec, hrun⟩ := hrun
  have hk₁ : Kept P s₁ 0 := sys_exec_kept hk hexec
  cases e with
  | none =>
      obtain ⟨-, rfl⟩ := Prog.pure_ok.mp hrun
      exact hk₁
  | some e => exact hk₁.moves (exec_moves hk₁.cwdOk hrun)

/-- A call keeps the invariant if what it opens meets `P`. -/
theorem call_kept {call : Call} {r : Unit} (hk : Kept P s 0) (hen : call.Enabled s)
    (hmeets : OpenMeets P s call) (hrun : call.code.run s = .ok (r, s')) : Kept P s' 0 := by
  cases call with
  | «open» above u =>
      obtain ⟨a, hrun⟩ := ignore_ok.mp hrun
      exact sys_open_kept hk hmeets hrun
  | close u =>
      obtain ⟨a, hrun⟩ := ignore_ok.mp hrun
      exact sys_close_kept hk hrun
  | dup u =>
      obtain ⟨a, hrun⟩ := ignore_ok.mp hrun
      exact sys_dup_kept hk hrun
  | read u =>
      obtain ⟨a, hrun⟩ := ignore_ok.mp hrun
      exact hk.quiet (sys_read_quiet hrun)
  | write u =>
      obtain ⟨a, hrun⟩ := ignore_ok.mp hrun
      exact hk.quiet (sys_write_quiet hrun)
  | fstat u =>
      obtain ⟨a, hrun⟩ := ignore_ok.mp hrun
      exact hk.quiet (sys_fstat_quiet hrun)
  | lseek u =>
      obtain ⟨a, hrun⟩ := ignore_ok.mp hrun
      exact hk.quiet (sys_lseek_quiet hrun)
  | pipe u =>
      obtain ⟨a, hrun⟩ := ignore_ok.mp hrun
      exact sys_pipe_kept hk hrun
  | link u =>
      obtain ⟨a, hrun⟩ := ignore_ok.mp hrun
      exact hk.moves (sys_link_moves hk.cwdOk hrun)
  | unlink u =>
      obtain ⟨a, hrun⟩ := ignore_ok.mp hrun
      exact hk.moves (sys_unlink_moves hk.cache hk.cwdOk hrun)
  | mkdir u =>
      obtain ⟨a, hrun⟩ := ignore_ok.mp hrun
      exact hk.moves (sys_mkdir_moves hk.cache hk.cwdOk hrun)
  | mknod u =>
      obtain ⟨a, hrun⟩ := ignore_ok.mp hrun
      exact hk.moves (sys_mknod_moves hk.cache hk.cwdOk hrun)
  | symlink u =>
      obtain ⟨a, hrun⟩ := ignore_ok.mp hrun
      exact hk.moves (sys_symlink_moves hk.cache hk.cwdOk hrun)
  | chdir u =>
      obtain ⟨a, hrun⟩ := ignore_ok.mp hrun
      exact sys_chdir_kept hk hrun
  | exec above u reads => exact execAll_kept hk hrun
  | fork np => exact fork_kept hk hen.2 hrun
  | exit => exact exit_kept hk hrun
  | switch p =>
      obtain rfl := Prog.modify_ok.mp hrun
      have hm : InodeMoves s 0 { s with cur := p } 0 := by apply InodeMoves.of_eq <;> rfl
      exact hk.step hm (fun _ => Nat.zero_le _) hk.closed (fun _ => le_rfl)
        fun f htype => Or.inl ⟨htype, rfl, rfl⟩

end Fs
end CS444
