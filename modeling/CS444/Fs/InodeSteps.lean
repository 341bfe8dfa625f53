/-
Relations that the inode layer respects.

A relation between the state and the references held before a piece of code and
those after it, such as `Moves`, is proved of directories, path walks and
`create` by taking them apart into calls of `fs.c`.  `InodeSteps R` lists what
`R` has to satisfy for that: it composes, it does not see other references, and
the calls themselves are steps of it.  The theorems are the walks.
-/
import CS444.Fs.Open

namespace CS444
namespace Fs

open Program Ledger

/-- `R` composes and contains the calls of the inode layer.  Contents are read
and written through directories only, and what is made is a regular file. -/
structure InodeSteps (R : Kernel → (Slot → Nat) → Kernel → (Slot → Nat) → Prop) : Prop where
  refl : ∀ s h, R s h s h
  trans : ∀ {s h s₁ h₁ s' h'}, R s h s₁ h₁ → R s₁ h₁ s' h' → R s h s' h'
  frame : ∀ {s h s' h'}, R s h s' h' → ∀ r, R s (r + h) s' (r + h')
  iget : ∀ {s s' dev inum ip}, (iget dev inum).run s = .ok (ip, s') → KnownDev s dev →
    R s 0 s' (one ip)
  idup : ∀ {s s' ip k}, (idup ip).run s = .ok (k, s') → 0 < (s.inode ip).ref → R s 0 s' (one ip)
  ilock : ∀ {s s' ip u}, (ilock ip).run s = .ok (u, s') → R s 0 s' 0
  iunlock : ∀ {s s' ip u}, (iunlock ip).run s = .ok (u, s') → R s 0 s' 0
  iput : ∀ {s s' ip u}, (iput ip).run s = .ok (u, s') → R s (one ip) s' 0
  readi : ∀ {s s' ip off n r}, (readi ip off n).run s = .ok (r, s') → InUse s ip →
    (s.inode ip).type = T_DIR → R s 0 s' 0
  writei : ∀ {s s' ip src off r}, (writei ip src off).run s = .ok (r, s') → InUse s ip →
    (s.inode ip).type = T_DIR → src.length = direntSize → R s 0 s' 0
  ialloc : ∀ {s s' dev ip}, (ialloc dev T_FILE).run s = .ok (ip, s') → KnownDev s dev →
    R s 0 s' (one ip)
  relabel : ∀ {s ip} (major minor nlink : Int), InUse s ip →
    R s 0 (updated (withInode s ip
      { s.inode ip with major := major, minor := minor, nlink := nlink }) ip) 0

namespace InodeSteps

variable {R : Kernel → (Slot → Nat) → Kernel → (Slot → Nat) → Prop} {s s₁ s' : Kernel}
  {h h₁ h' : Slot → Nat} {ip dp : Slot} {name path : Str}

/-! ## Composition -/

/-- Code that takes nothing over, beside references `r`. -/
theorem beside (hR : InodeSteps R) (hstep : R s 0 s' h') (r : Slot → Nat) : R s r s' (r + h') := by
  have := hR.frame hstep r
  rwa [add_zero] at this

/-- Code that gives away what it holds, beside references `r`. -/
theorem leaving (hR : InodeSteps R) (hstep : R s h s' 0) (r : Slot → Nat) : R s (r + h) s' r := by
  have := hR.frame hstep r
  rwa [add_zero] at this

/-- Code that holds nothing of its own, after code that left with `h'`. -/
theorem andThen (hR : InodeSteps R) (hab : R s h s₁ h') (hbc : R s₁ 0 s' 0) : R s h s' h' := by
  have := hR.trans hab (hR.beside hbc h')
  rwa [add_zero] at this

theorem iunlockput (hR : InodeSteps R) {u : Unit}
    (hrun : (Fs.iunlockput ip).run s = .ok (u, s')) : R s (one ip) s' 0 := by
  rw [Fs.iunlockput, Prog.bind_ok] at hrun
  obtain ⟨_, s₁, hunlock, hput⟩ := hrun
  exact hR.trans (hR.andThen (hR.refl s _) (hR.iunlock hunlock)) (hR.iput hput)

/-! ## Directories -/

theorem readDirent (hR : InodeSteps R) {off : Nat} {msg : String} {de : Dirent}
    (hrun : (Fs.readDirent dp off msg).run s = .ok (de, s')) (hu : InUse s dp)
    (hdir : (s.inode dp).type = T_DIR) : R s 0 s' 0 := by
  rw [Fs.readDirent, Prog.bind_ok] at hrun
  obtain ⟨⟨r, bytes⟩, s₁, hread, hrun⟩ := hrun
  simp only at hrun
  split at hrun
  · simp at hrun
  · obtain ⟨-, rfl⟩ := Prog.pure_ok.mp hrun
    exact hR.readi hread hu hdir

theorem dirlookupLoop (hR : InodeSteps R) {fuel off : Nat} {r : Option (Slot × Nat)}
    (hrun : (Fs.dirlookupLoop dp name fuel off).run s = .ok (r, s')) (hu : InUse s dp)
    (hdir : (s.inode dp).type = T_DIR) : R s 0 s' (found r) := by
  induction fuel generalizing s off with
  | zero => simp [Fs.dirlookupLoop] at hrun
  | succ fuel ih =>
      rw [Fs.dirlookupLoop, inodeAt_bind_run] at hrun
      split at hrun
      · rw [Prog.bind_ok] at hrun
        obtain ⟨de, s₁, hread, hrun⟩ := hrun
        obtain ⟨hu₁, hdir₁⟩ := (readDirent_moves hread).inUse' hu
        have hstep := hR.readDirent hread hu hdir
        split at hrun
        · rw [inodeAt_bind_run, Prog.bind_ok] at hrun
          obtain ⟨ip, s₂, hget, hrun⟩ := hrun
          obtain ⟨rfl, rfl⟩ := Prog.pure_ok.mp hrun
          exact hR.trans hstep (hR.iget hget (Or.inr ⟨dp, hu₁.pos, rfl⟩))
        · exact hR.trans hstep (ih hrun hu₁ (hdir₁.trans hdir))
      · obtain ⟨rfl, rfl⟩ := Prog.pure_ok.mp hrun
        exact hR.refl _ _

/-- A name is looked up in directories only. -/
theorem dirlookup_dir {r : Option (Slot × Nat)} (hrun : (dirlookup dp name).run s = .ok (r, s')) :
    (s.inode dp).type = T_DIR := by
  rw [dirlookup, inodeAt_bind_run] at hrun
  split at hrun
  · simp at hrun
  · rename_i hdir
    exact not_not.mp hdir

theorem dirlookup (hR : InodeSteps R) {r : Option (Slot × Nat)}
    (hrun : (Fs.dirlookup dp name).run s = .ok (r, s')) (hu : InUse s dp) : R s 0 s' (found r) := by
  have hdir := dirlookup_dir hrun
  rw [Fs.dirlookup, inodeAt_bind_run, if_neg (not_not.mpr hdir)] at hrun
  exact hR.dirlookupLoop hrun hu hdir

theorem emptyDirent (hR : InodeSteps R) {fuel off r : Nat}
    (hrun : (Fs.emptyDirent dp fuel off).run s = .ok (r, s')) (hu : InUse s dp)
    (hdir : (s.inode dp).type = T_DIR) : R s 0 s' 0 := by
  induction fuel generalizing s off with
  | zero => simp [Fs.emptyDirent] at hrun
  | succ fuel ih =>
      rw [Fs.emptyDirent, inodeAt_bind_run] at hrun
      split at hrun
      · rw [Prog.bind_ok] at hrun
        obtain ⟨de, s₁, hread, hrun⟩ := hrun
        obtain ⟨hu₁, hdir₁⟩ := (readDirent_moves hread).inUse' hu
        have hstep := hR.readDirent hread hu hdir
        split at hrun
        · obtain ⟨-, rfl⟩ := Prog.pure_ok.mp hrun
          exact hstep
        · exact hR.trans hstep (ih hrun hu₁ (hdir₁.trans hdir))
      · obtain ⟨-, rfl⟩ := Prog.pure_ok.mp hrun
        exact hR.refl _ _

theorem length_toBytes (de : Dirent) : de.toBytes.length = direntSize := by
  simp only [Dirent.toBytes, List.length_append, List.length_cons, List.length_nil,
    List.length_take, List.length_replicate, DIRSIZ, direntSize]
  omega

theorem dirlink (hR : InodeSteps R) {inum : Nat} {r : Int}
    (hrun : (Fs.dirlink dp name inum).run s = .ok (r, s')) (hu : InUse s dp) : R s 0 s' 0 := by
  rw [Fs.dirlink, Prog.bind_ok] at hrun
  obtain ⟨e, s₁, hlookup, hrun⟩ := hrun
  have hdir := dirlookup_dir hlookup
  have hstep := hR.dirlookup hlookup hu
  obtain ⟨hu₁, hdir₁⟩ := (dirlookup_moves hlookup hu.pos).inUse' hu
  cases e with
  | some e =>
      obtain ⟨ip, off⟩ := e
      simp only at hrun
      rw [Prog.bind_ok] at hrun
      obtain ⟨_, s₂, hput, hrun⟩ := hrun
      obtain ⟨-, rfl⟩ := Prog.pure_ok.mp hrun
      exact hR.trans hstep (hR.iput hput)
  | none =>
      simp only [inodeAt_bind_run] at hrun
      rw [Prog.bind_ok] at hrun
      obtain ⟨off, s₂, hempty, hrun⟩ := hrun
      rw [Prog.bind_ok] at hrun
      obtain ⟨n, s₃, hwrite, hrun⟩ := hrun
      have hstep₂ := hR.emptyDirent hempty hu₁ (hdir₁.trans hdir)
      obtain ⟨hu₂, hdir₂⟩ := (emptyDirent_moves hempty).inUse' hu₁
      have hstep₃ := hR.writei hwrite hu₂ (hdir₂.trans (hdir₁.trans hdir)) (length_toBytes _)
      split at hrun
      · simp at hrun
      · obtain ⟨-, rfl⟩ := Prog.pure_ok.mp hrun
        exact hR.trans (hR.trans hstep hstep₂) hstep₃

/-! ## Paths -/

theorem namexLoop (hR : InodeSteps R) {parent : Bool} {fuel : Nat} {r : Option (Slot × Str)}
    (hrun : (Fs.namexLoop parent fuel path ip name).run s = .ok (r, s')) :
    R s (one ip) s' (walked r) := by
  induction fuel generalizing s path ip name with
  | zero => simp [Fs.namexLoop] at hrun
  | succ fuel ih =>
      rw [Fs.namexLoop] at hrun
      split at hrun
      · split at hrun
        · rw [Prog.bind_ok] at hrun
          obtain ⟨_, s₁, hput, hrun⟩ := hrun
          obtain ⟨rfl, rfl⟩ := Prog.pure_ok.mp hrun
          exact hR.iput hput
        · obtain ⟨rfl, rfl⟩ := Prog.pure_ok.mp hrun
          exact hR.refl _ _
      · rw [Prog.bind_ok] at hrun
        obtain ⟨_, s₁, hlock, hrun⟩ := hrun
        have hu := (ilock_spec hlock).inUse
        refine hR.trans (hR.andThen (hR.refl s _) (hR.ilock hlock)) ?_
        rw [inodeAt_bind_run] at hrun
        split at hrun
        · rw [Prog.bind_ok] at hrun
          obtain ⟨_, s₂, hput, hrun⟩ := hrun
          obtain ⟨rfl, rfl⟩ := Prog.pure_ok.mp hrun
          exact hR.iunlockput hput
        · split at hrun
          · rw [Prog.bind_ok] at hrun
            obtain ⟨_, s₂, hunlock, hrun⟩ := hrun
            obtain ⟨rfl, rfl⟩ := Prog.pure_ok.mp hrun
            exact hR.andThen (hR.refl s₁ _) (hR.iunlock hunlock)
          · rw [Prog.bind_ok] at hrun
            obtain ⟨e, s₂, hlookup, hrun⟩ := hrun
            have hfound := hR.beside (hR.dirlookup hlookup hu) (one ip)
            cases e with
            | none =>
                simp only at hrun
                rw [Prog.bind_ok] at hrun
                obtain ⟨_, s₃, hput, hrun⟩ := hrun
                obtain ⟨rfl, rfl⟩ := Prog.pure_ok.mp hrun
                exact hR.trans hfound (hR.iunlockput hput)
            | some e =>
                obtain ⟨next, off⟩ := e
                simp only at hrun
                rw [Prog.bind_ok] at hrun
                obtain ⟨_, s₃, hput, hrun⟩ := hrun
                have hdrop := hR.leaving (hR.iunlockput hput) (one next)
                rw [add_comm] at hdrop
                exact hR.trans (hR.trans hfound hdrop) (ih hrun)

theorem namexStart (hR : InodeSteps R) (hrun : (Fs.namexStart path).run s = .ok (ip, s'))
    (hcwd : CwdOk s) : R s 0 s' (one ip) := by
  rw [Fs.namexStart] at hrun
  split at hrun
  · exact hR.iget hrun (Or.inl rfl)
  · rw [myproc_bind_run] at hrun
    split at hrun
    · simp at hrun
    · rename_i cwd heq
      obtain ⟨rfl, -⟩ := idup_moves hrun (hcwd cwd heq)
      exact hR.idup hrun (hcwd ip heq)

theorem namex (hR : InodeSteps R) {parent : Bool} {r : Option (Slot × Str)}
    (hrun : (Fs.namex path parent).run s = .ok (r, s')) (hcwd : CwdOk s) :
    R s 0 s' (walked r) := by
  rw [Fs.namex, Prog.bind_ok] at hrun
  obtain ⟨ip, s₁, hstart, hrun⟩ := hrun
  exact hR.trans (hR.namexStart hstart hcwd) (hR.namexLoop hrun)

theorem namei (hR : InodeSteps R) {r : Option Slot} (hrun : (Fs.namei path).run s = .ok (r, s'))
    (hcwd : CwdOk s) : R s 0 s' (ofOption r) := by
  rw [Fs.namei, Prog.bind_ok] at hrun
  obtain ⟨w, s₁, hwalk, hrun⟩ := hrun
  obtain ⟨rfl, rfl⟩ := Prog.pure_ok.mp hrun
  have hstep := hR.namex hwalk hcwd
  cases w with
  | none => exact hstep
  | some w => exact hstep

/-! ## `create` of a regular file -/

theorem createNew (hR : InodeSteps R) {major minor : Int} (hdp : InUse s dp)
    (hrun : (Fs.createNew dp name T_FILE major minor).run s = .ok (ip, s')) :
    R s (one dp) s' (one ip) := by
  rw [Fs.createNew, inodeAt_bind_run, Prog.bind_ok] at hrun
  obtain ⟨new, s₂, halloc, hrun⟩ := hrun
  rw [Prog.bind_ok] at hrun
  obtain ⟨_, s₃, hlock, hrun⟩ := hrun
  rw [setInode_bind_run, iupdate_bind_run, Prog.bind_ok] at hrun
  obtain ⟨_, s₄, hdots, hrun⟩ := hrun
  -- no entries for `.` and `..`
  obtain ⟨hfile, -⟩ | ⟨-, rfl⟩ := Prog.when_ok.mp hdots
  · exact absurd hfile (by decide)
  rw [inodeAt_bind_run, Prog.bind_ok] at hrun
  obtain ⟨r, s₅, hlink, hrun⟩ := hrun
  split at hrun
  · simp at hrun
  rw [Prog.bind_ok] at hrun
  obtain ⟨_, s₆, hput, hrun⟩ := hrun
  obtain ⟨rfl, rfl⟩ := Prog.pure_ok.mp hrun
  have hdev : KnownDev s (s.inode dp).dev := Or.inr ⟨dp, hdp.pos, rfl⟩
  have hl := ilock_spec hlock
  have hmup := rewritten_moves hl.inUse
    (i := { s₃.inode new with major := short major, minor := short minor, nlink := 1 })
    rfl rfl rfl rfl rfl
  have hdp₂ := ((ialloc_moves halloc hdev).1.inUse' hdp).1
  have hdp₄ := (hmup.inUse' (hl.moves.inUse' hdp₂).1).1
  have hnew := hR.andThen (hR.andThen (hR.andThen (hR.ialloc halloc hdev) (hR.ilock hlock))
    (hR.relabel (short major) (short minor) 1 hl.inUse)) (hR.dirlink hlink hdp₄)
  have hdrop := hR.leaving (hR.iunlockput hput) (one new)
  rw [add_comm] at hdrop
  exact hR.trans (hR.beside hnew (one dp)) hdrop

theorem create (hR : InodeSteps R) {major minor : Int} {r : Option Slot}
    (hcwd : CwdOk s) (hrun : (Fs.create path T_FILE major minor).run s = .ok (r, s')) :
    R s 0 s' (ofOption r) := by
  rw [Fs.create, Prog.bind_ok] at hrun
  obtain ⟨w, s₁, hparent, hrun⟩ := hrun
  have hstep₁ := hR.namex hparent hcwd
  cases w with
  | none =>
      obtain ⟨rfl, rfl⟩ := Prog.pure_ok.mp hrun
      exact hstep₁
  | some w =>
      obtain ⟨dp, name⟩ := w
      simp only at hrun
      rw [Prog.bind_ok] at hrun
      obtain ⟨_, s₂, hlock, hrun⟩ := hrun
      have hl := ilock_spec hlock
      have hstep₂ : R s 0 s₂ (one dp) := hR.andThen hstep₁ (hR.ilock hlock)
      rw [Prog.bind_ok] at hrun
      obtain ⟨e, s₃, hlookup, hrun⟩ := hrun
      have hstep₃ := hR.trans hstep₂ (hR.beside (hR.dirlookup hlookup hl.inUse) (one dp))
      cases e with
      | some e =>
          obtain ⟨ip, off⟩ := e
          simp only at hrun
          rw [Prog.bind_ok] at hrun
          obtain ⟨_, s₄, hput, hrun⟩ := hrun
          rw [Prog.bind_ok] at hrun
          obtain ⟨_, s₅, hlock₅, hrun⟩ := hrun
          have hdrop := hR.leaving (hR.iunlockput hput) (one ip)
          rw [add_comm] at hdrop
          have hstep₅ : R s 0 s₅ (one ip) := hR.andThen (hR.trans hstep₃ hdrop) (hR.ilock hlock₅)
          rw [inodeAt_bind_run] at hrun
          split at hrun
          · obtain ⟨rfl, rfl⟩ := Prog.pure_ok.mp hrun
            exact hstep₅
          · rw [Prog.bind_ok] at hrun
            obtain ⟨_, s₆, hput₆, hrun⟩ := hrun
            obtain ⟨rfl, rfl⟩ := Prog.pure_ok.mp hrun
            exact hR.trans hstep₅ (hR.iunlockput hput₆)
      | none =>
          simp only at hrun
          rw [Prog.bind_ok] at hrun
          obtain ⟨ip, s₄, hnew, hrun⟩ := hrun
          obtain ⟨rfl, rfl⟩ := Prog.pure_ok.mp hrun
          have hdp := ((dirlookup_moves hlookup hl.pos').inUse' hl.inUse).1
          rw [show found none = 0 from rfl, add_zero] at hstep₃
          exact hR.trans hstep₃ (hR.createNew hdp hnew)

end InodeSteps

end Fs
end CS444
