/-
`sys_link`, `sys_unlink`, `sys_mkdir`, `sys_mknod`, `sys_symlink`, `exec` and the
reference counts: they leave with what they came with.
-/
import CS444.Fs.SyscallRefs

namespace CS444
namespace Fs

open Program Ledger

variable {s s₁ s' : Kernel} {ip dp : Slot} {name path : Str} {u : User} {r : Int}

/-! ## `sys_link` -/

theorem linkBad_moves (hrun : (linkBad ip).run s = .ok (r, s')) : Moves s (one ip) s' 0 := by
  rw [linkBad, Prog.bind_ok] at hrun
  obtain ⟨_, s₁, hlock, hrun⟩ := hrun
  rw [setInode_bind_run, iupdate_bind_run, Prog.bind_ok] at hrun
  obtain ⟨_, s₂, hput, hrun⟩ := hrun
  obtain ⟨-, rfl⟩ := Prog.pure_ok.mp hrun
  have hl := ilock_spec hlock
  have hm := hl.moves.trans (rewritten_moves hl.inUse
    (i := { s₁.inode ip with nlink := short ((s₁.inode ip).nlink - 1) }) rfl rfl rfl rfl rfl)
  exact ((Moves.refl s (one ip)).andThen hm).trans (iunlockput_moves hput)

/-- `sys_link` with the inode `ip` of the old path. -/
theorem linkTo_moves {u' : Unit} {s₂ s₃ : Kernel} (hm : Moves s 0 s₁ (one ip))
    (hu : InUse s₁ ip) (hcwd : CwdOk s)
    (hunlock : (iunlock ip).run (updated (withInode s₁ ip
      { s₁.inode ip with nlink := short ((s₁.inode ip).nlink + 1) }) ip) = .ok (u', s₂))
    {w : Option (Slot × Str)} (hparent : (nameiparent path).run s₂ = .ok (w, s₃)) :
    Moves s 0 s₃ (one ip + walked w) := by
  have hm₂ : Moves s 0 s₂ (one ip) := (hm.andThen (rewritten_moves hu
    (i := { s₁.inode ip with nlink := short ((s₁.inode ip).nlink + 1) })
    rfl rfl rfl rfl rfl)).andThen ((iunlock_keys hunlock).moves 0)
  exact hm₂.trans ((namex_moves hparent (hm₂.cwdOk hcwd)).beside (one ip))

theorem sys_link_moves (hcwd : CwdOk s) (hrun : (sys_link u).run s = .ok (r, s')) :
    Moves s 0 s' 0 := by
  simp only [sys_link] at hrun
  split at hrun
  · rw [Prog.bind_ok] at hrun
    obtain ⟨found, s₁, hold, hrun⟩ := hrun
    have hm₁ := namei_moves hold hcwd
    cases found with
    | none =>
        obtain ⟨-, rfl⟩ := Prog.pure_ok.mp hrun
        exact hm₁
    | some ip =>
        simp only at hrun
        rw [Prog.bind_ok] at hrun
        obtain ⟨_, s₂, hlock, hrun⟩ := hrun
        have hl := ilock_spec hlock
        have hm₂ : Moves s 0 s₂ (one ip) := hm₁.andThen hl.moves
        rw [inodeAt_bind_run] at hrun
        split at hrun
        · rw [Prog.bind_ok] at hrun
          obtain ⟨_, s₃, hput, hrun⟩ := hrun
          obtain ⟨-, rfl⟩ := Prog.pure_ok.mp hrun
          exact hm₂.trans (iunlockput_moves hput)
        · rw [setInode_bind_run, iupdate_bind_run, Prog.bind_ok] at hrun
          obtain ⟨_, s₃, hunlock, hrun⟩ := hrun
          rw [Prog.bind_ok] at hrun
          obtain ⟨w, s₄, hparent, hrun⟩ := hrun
          have hm₄ := linkTo_moves hm₂ hl.inUse hcwd hunlock hparent
          cases w with
          | none => exact hm₄.trans (linkBad_moves hrun)
          | some w =>
              obtain ⟨dp, name⟩ := w
              simp only at hrun
              rw [Prog.bind_ok] at hrun
              obtain ⟨_, s₅, hlock₅, hrun⟩ := hrun
              have hl₅ := ilock_spec hlock₅
              have hm₅ : Moves s 0 s₅ (one ip + one dp) := hm₄.andThen hl₅.moves
              simp only [inodeAt_bind_run] at hrun
              split at hrun
              · rw [Prog.bind_ok] at hrun
                obtain ⟨_, s₆, hput, hrun⟩ := hrun
                exact (hm₅.trans ((iunlockput_moves hput).leaving (one ip))).trans
                  (linkBad_moves hrun)
              · rw [Prog.bind_ok] at hrun
                obtain ⟨n, s₆, hlink, hrun⟩ := hrun
                have hm₆ := hm₅.andThen (dirlink_moves hlink hl₅.pos' hl₅.valid)
                split at hrun <;> rw [Prog.bind_ok] at hrun <;>
                  obtain ⟨_, s₇, hput, hrun⟩ := hrun
                · exact (hm₆.trans ((iunlockput_moves hput).leaving (one ip))).trans
                    (linkBad_moves hrun)
                · rw [Prog.bind_ok] at hrun
                  obtain ⟨_, s₈, hput₈, hrun⟩ := hrun
                  obtain ⟨-, rfl⟩ := Prog.pure_ok.mp hrun
                  exact (hm₆.trans ((iunlockput_moves hput).leaving (one ip))).trans
                    (iput_moves hput₈)
  · obtain ⟨-, rfl⟩ := Prog.pure_ok.mp hrun
    exact .refl _ _

/-! ## `sys_unlink` -/

theorem isdiremptyLoop_moves {fuel off : Nat} {b : Bool}
    (hrun : (isdiremptyLoop dp fuel off).run s = .ok (b, s')) : Moves s 0 s' 0 := by
  induction fuel generalizing s off with
  | zero => simp [isdiremptyLoop] at hrun
  | succ fuel ih =>
      rw [isdiremptyLoop, inodeAt_bind_run] at hrun
      split at hrun
      · rw [Prog.bind_ok] at hrun
        obtain ⟨de, s₁, hread, hrun⟩ := hrun
        split at hrun
        · obtain ⟨-, rfl⟩ := Prog.pure_ok.mp hrun
          exact readDirent_moves hread
        · exact (readDirent_moves hread).trans (ih hrun)
      · obtain ⟨-, rfl⟩ := Prog.pure_ok.mp hrun
        exact .refl _ _

theorem whenUnlinkDir_moves {c : Prop} [Decidable c] {u : Unit} (hdp : InUse s dp)
    (hrun : (Prog.when c (do
      setInode dp fun d => { d with nlink := short (d.nlink - 1) }
      iupdate dp)).run s = .ok (u, s')) : Moves s 0 s' 0 := by
  rw [Prog.when_ok] at hrun
  rcases hrun with ⟨-, hrun⟩ | ⟨-, rfl⟩
  · rw [setInode_bind_run] at hrun
    obtain rfl := iupdate_ok.mp hrun
    exact rewritten_moves hdp rfl rfl rfl rfl rfl
  · exact .refl _ _

theorem unlinkEntry_moves {off : Nat} (hc : CacheOk s) (hm : Moves s 0 s₁ (one dp + one ip))
    (hdp : InUse s₁ dp) (hip : InUse s₁ ip)
    (hrun : (unlinkEntry dp ip off).run s₁ = .ok (r, s')) : Moves s 0 s' 0 := by
  rw [unlinkEntry, Prog.bind_ok] at hrun
  obtain ⟨n, s₂, hwrite, hrun⟩ := hrun
  have hmw := writei_moves hwrite hdp.valid hdp.pos
  split at hrun
  · simp at hrun
  rw [inodeAt_bind_run, Prog.bind_ok] at hrun
  obtain ⟨_, s₃, hdir, hrun⟩ := hrun
  have hdp₂ := (hmw.inUse' hdp).1
  have hmdir := whenUnlinkDir_moves hdp₂ hdir
  rw [Prog.bind_ok] at hrun
  obtain ⟨_, s₄, hput, hrun⟩ := hrun
  rw [setInode_bind_run, iupdate_bind_run, Prog.bind_ok] at hrun
  obtain ⟨_, s₅, hput₅, hrun⟩ := hrun
  obtain ⟨-, rfl⟩ := Prog.pure_ok.mp hrun
  have hip₃ := (hmdir.inUse' (hmw.inUse' hip).1).1
  have hm₃ := (hm.andThen hmw).andThen hmdir
  -- the reference to `ip` keeps it in use while `dp` is released
  have hpos : ((one dp ip : Nat) : Int) < (s₃.inode ip).ref := by
    have := hm₃.holds hc ip
    simp only [Pi.add_apply, one_self] at this
    omega
  have hmput := iunlockput_moves hput
  have hip₄ := (hmput.inUse hip₃ hpos).1
  have hdrop := hmput.leaving (one ip)
  rw [add_comm] at hdrop
  exact ((hm₃.trans hdrop).andThen
    (rewritten_moves hip₄ (i := { s₄.inode ip with nlink := short ((s₄.inode ip).nlink - 1) })
      rfl rfl rfl rfl rfl)).trans (iunlockput_moves hput₅)

theorem sys_unlink_moves (hc : CacheOk s) (hcwd : CwdOk s)
    (hrun : (sys_unlink u).run s = .ok (r, s')) : Moves s 0 s' 0 := by
  simp only [sys_unlink] at hrun
  split at hrun
  · obtain ⟨-, rfl⟩ := Prog.pure_ok.mp hrun
    exact .refl _ _
  · rw [Prog.bind_ok] at hrun
    obtain ⟨w, s₁, hparent, hrun⟩ := hrun
    have hm₁ := namex_moves hparent hcwd
    cases w with
    | none =>
        obtain ⟨-, rfl⟩ := Prog.pure_ok.mp hrun
        exact hm₁
    | some w =>
        obtain ⟨dp, name⟩ := w
        simp only at hrun
        rw [Prog.bind_ok] at hrun
        obtain ⟨_, s₂, hlock, hrun⟩ := hrun
        have hl := ilock_spec hlock
        have hm₂ : Moves s 0 s₂ (one dp) := hm₁.andThen hl.moves
        split at hrun
        · rw [Prog.bind_ok] at hrun
          obtain ⟨_, s₃, hput, hrun⟩ := hrun
          obtain ⟨-, rfl⟩ := Prog.pure_ok.mp hrun
          exact hm₂.trans (iunlockput_moves hput)
        · rw [Prog.bind_ok] at hrun
          obtain ⟨e, s₃, hlookup, hrun⟩ := hrun
          have hlook := dirlookup_moves hlookup hl.pos'
          have hdp₃ := (hlook.inUse' hl.inUse).1
          have hm₃ := hm₂.trans (hlook.beside (one dp))
          cases e with
          | none =>
              simp only at hrun
              rw [Prog.bind_ok] at hrun
              obtain ⟨_, s₄, hput, hrun⟩ := hrun
              obtain ⟨-, rfl⟩ := Prog.pure_ok.mp hrun
              exact hm₃.trans (iunlockput_moves hput)
          | some e =>
              obtain ⟨ip, off⟩ := e
              simp only at hrun
              rw [Prog.bind_ok] at hrun
              obtain ⟨_, s₄, hlock₄, hrun⟩ := hrun
              have hl₄ := ilock_spec hlock₄
              have hm₄ : Moves s 0 s₄ (one dp + one ip) := hm₃.andThen hl₄.moves
              have hdp₄ := (hl₄.moves.inUse' hdp₃).1
              rw [inodeAt_bind_run] at hrun
              split at hrun
              · simp at hrun
              split at hrun
              · rw [Prog.bind_ok] at hrun
                obtain ⟨empty, s₅, hempty, hrun⟩ := hrun
                rw [isdirempty, inodeAt_bind_run] at hempty
                have hme := isdiremptyLoop_moves hempty
                have hm₅ := hm₄.andThen hme
                split at hrun
                · exact unlinkEntry_moves hc hm₅ (hme.inUse' hdp₄).1
                    (hme.inUse' hl₄.inUse).1 hrun
                · rw [Prog.bind_ok] at hrun
                  obtain ⟨_, s₆, hput, hrun⟩ := hrun
                  rw [Prog.bind_ok] at hrun
                  obtain ⟨_, s₇, hput₇, hrun⟩ := hrun
                  obtain ⟨-, rfl⟩ := Prog.pure_ok.mp hrun
                  exact (hm₅.trans ((iunlockput_moves hput).leaving (one dp))).trans
                    (iunlockput_moves hput₇)
              · exact unlinkEntry_moves hc hm₄ hdp₄ hl₄.inUse hrun

/-! ## New inodes and `exec` -/

/-- A call that makes an inode and lets go of it. -/
theorem createPut_moves {type major minor : Int} (hc : CacheOk s) (hcwd : CwdOk s)
    {made : Option Slot}
    (hput : (match made with
      | none => pure (-1)
      | some ip => do
        iunlockput ip
        return 0 : K Int).run s₁ = .ok (r, s'))
    (hcreate : (create path type major minor).run s = .ok (made, s₁)) : Moves s 0 s' 0 := by
  have hm := (create_created hc hcwd hcreate).moves
  cases made with
  | none =>
      obtain ⟨-, rfl⟩ := Prog.pure_ok.mp hput
      exact hm
  | some ip =>
      simp only at hput
      rw [Prog.bind_ok] at hput
      obtain ⟨_, s₂, hput, hrun⟩ := hput
      obtain ⟨-, rfl⟩ := Prog.pure_ok.mp hrun
      exact hm.trans (iunlockput_moves hput)

theorem sys_mkdir_moves (hc : CacheOk s) (hcwd : CwdOk s)
    (hrun : (sys_mkdir u).run s = .ok (r, s')) : Moves s 0 s' 0 := by
  simp only [sys_mkdir] at hrun
  split at hrun
  · obtain ⟨-, rfl⟩ := Prog.pure_ok.mp hrun
    exact .refl _ _
  · rw [Prog.bind_ok] at hrun
    obtain ⟨made, s₁, hcreate, hrun⟩ := hrun
    exact createPut_moves hc hcwd hrun hcreate

theorem sys_mknod_moves (hc : CacheOk s) (hcwd : CwdOk s)
    (hrun : (sys_mknod u).run s = .ok (r, s')) : Moves s 0 s' 0 := by
  simp only [sys_mknod] at hrun
  split at hrun
  · rw [Prog.bind_ok] at hrun
    obtain ⟨made, s₁, hcreate, hrun⟩ := hrun
    exact createPut_moves hc hcwd hrun hcreate
  · obtain ⟨-, rfl⟩ := Prog.pure_ok.mp hrun
    exact .refl _ _

theorem sys_symlink_moves (hc : CacheOk s) (hcwd : CwdOk s)
    (hrun : (sys_symlink u).run s = .ok (r, s')) : Moves s 0 s' 0 := by
  simp only [sys_symlink] at hrun
  split at hrun
  · rw [Prog.bind_ok] at hrun
    obtain ⟨made, s₁, hcreate, hrun⟩ := hrun
    have hcreated := create_created hc hcwd hcreate
    cases made with
    | none =>
        obtain ⟨rfl, rfl⟩ := Prog.pure_ok.mp hrun
        exact hcreated.moves
    | some ino =>
        simp only at hrun
        rw [Prog.bind_ok] at hrun
        obtain ⟨n, s₂, hwrite, hrun⟩ := hrun
        rw [Prog.bind_ok] at hrun
        obtain ⟨_, s₃, hput, hrun⟩ := hrun
        obtain ⟨rfl, rfl⟩ := Prog.pure_ok.mp hrun
        have hu := hcreated.inUse ino rfl
        have hm := (writei_moves hwrite hu.valid hu.pos).beside (one ino)
        rw [add_zero] at hm
        exact (hcreated.moves.trans hm).trans (iunlockput_moves hput)
  · obtain ⟨rfl, rfl⟩ := Prog.pure_ok.mp hrun
    exact .refl _ _

theorem execReads_moves {reads : List (Nat × Nat)} {u : Unit}
    (hrun : (execReads ip reads).run s = .ok (u, s')) : Moves s 0 s' 0 := by
  induction reads generalizing s with
  | nil =>
      obtain ⟨-, rfl⟩ := Prog.pure_ok.mp hrun
      exact .refl _ _
  | cons read rest ih =>
      rw [execReads, Prog.bind_ok] at hrun
      obtain ⟨_, s₁, hread, hrun⟩ := hrun
      exact (readi_moves hread).trans (ih hrun)

theorem exec_moves {reads : List (Nat × Nat)} {u : Unit} (hcwd : CwdOk s)
    (hrun : (exec path reads).run s = .ok (u, s')) : Moves s 0 s' 0 := by
  rw [exec, Prog.bind_ok] at hrun
  obtain ⟨found, s₁, hwalk, hrun⟩ := hrun
  have hm := namei_moves hwalk hcwd
  cases found with
  | none =>
      obtain ⟨-, rfl⟩ := Prog.pure_ok.mp hrun
      exact hm
  | some ip =>
      simp only at hrun
      rw [Prog.bind_ok] at hrun
      obtain ⟨_, s₂, hlock, hrun⟩ := hrun
      rw [Prog.bind_ok] at hrun
      obtain ⟨_, s₃, hreads, hrun⟩ := hrun
      have hm₃ := (hm.andThen (ilock_spec hlock).moves).andThen (execReads_moves hreads)
      exact hm₃.trans (iunlockput_moves hrun)

end Fs
end CS444
