/-
Directories, path names and the reference counts.

Looking a name up leaves with a reference to the inode found; a path walk gives
up the directory it came from at every step, so it leaves with a reference to
its result and nothing else.
-/
import CS444.Fs.InodeRefs

namespace CS444
namespace Fs

open Program Ledger

variable {s s₁ s' : Kernel} {ip dp : Slot} {name path : Str}

/-- An entry in use stays in use and valid beside code that does not hold it. -/
theorem InodeMoves.keeps {h h' : Slot → Nat} (hm : InodeMoves s h s' h')
    (hpos : (h ip : Int) < (s.inode ip).ref) :
    (h' ip : Int) < (s'.inode ip).ref ∧
      ((s.inode ip).valid = true → (s'.inode ip).valid = true ∧
        (s'.inode ip).type = (s.inode ip).type) := by
  have := hm.ref_eq ip
  exact ⟨by omega, (hm.pinned ip hpos).valid⟩

theorem InodeMoves.keeps_pos {h' : Slot → Nat} (hm : InodeMoves s 0 s' h')
    (hpos : 0 < (s.inode ip).ref) : 0 < (s'.inode ip).ref := by
  have := hm.ref_eq ip
  simp only [Pi.zero_apply] at this
  omega

/-! ## Directories -/

theorem readDirent_moves {off : Nat} {msg : String} {de : Dirent}
    (hrun : (readDirent dp off msg).run s = .ok (de, s')) : Moves s 0 s' 0 := by
  rw [readDirent, Prog.bind_ok] at hrun
  obtain ⟨⟨r, bytes⟩, s₁, hread, hrun⟩ := hrun
  simp only at hrun
  split at hrun
  · simp at hrun
  · obtain ⟨-, rfl⟩ := Prog.pure_ok.mp hrun
    exact readi_moves hread

/-- The references a lookup leaves with. -/
def found : Option (Slot × Nat) → Slot → Nat
  | none => 0
  | some (ip, _) => one ip

theorem dirlookupLoop_moves {fuel off : Nat} {r : Option (Slot × Nat)}
    (hrun : (dirlookupLoop dp name fuel off).run s = .ok (r, s'))
    (hpos : 0 < (s.inode dp).ref) : Moves s 0 s' (found r) := by
  induction fuel generalizing s off with
  | zero => simp [dirlookupLoop] at hrun
  | succ fuel ih =>
      rw [dirlookupLoop, inodeAt_bind_run] at hrun
      split at hrun
      · rw [Prog.bind_ok] at hrun
        obtain ⟨de, s₁, hread, hrun⟩ := hrun
        have hmoves := readDirent_moves hread
        have hpos₁ := hmoves.keeps_pos hpos
        split at hrun
        · rw [inodeAt_bind_run, Prog.bind_ok] at hrun
          obtain ⟨ip, s₂, hget, hrun⟩ := hrun
          obtain ⟨rfl, rfl⟩ := Prog.pure_ok.mp hrun
          exact hmoves.trans (iget_moves hget (Or.inr ⟨dp, hpos₁, rfl⟩))
        · exact hmoves.trans (ih hrun hpos₁)
      · obtain ⟨rfl, rfl⟩ := Prog.pure_ok.mp hrun
        exact .refl _ _

theorem dirlookup_moves {r : Option (Slot × Nat)}
    (hrun : (dirlookup dp name).run s = .ok (r, s')) (hpos : 0 < (s.inode dp).ref) :
    Moves s 0 s' (found r) := by
  rw [dirlookup, inodeAt_bind_run] at hrun
  split at hrun
  · simp at hrun
  · exact dirlookupLoop_moves hrun hpos

theorem emptyDirent_moves {fuel off r : Nat}
    (hrun : (emptyDirent dp fuel off).run s = .ok (r, s')) : Moves s 0 s' 0 := by
  induction fuel generalizing s off with
  | zero => simp [emptyDirent] at hrun
  | succ fuel ih =>
      rw [emptyDirent, inodeAt_bind_run] at hrun
      split at hrun
      · rw [Prog.bind_ok] at hrun
        obtain ⟨de, s₁, hread, hrun⟩ := hrun
        split at hrun
        · obtain ⟨-, rfl⟩ := Prog.pure_ok.mp hrun
          exact readDirent_moves hread
        · exact (readDirent_moves hread).trans (ih hrun)
      · obtain ⟨-, rfl⟩ := Prog.pure_ok.mp hrun
        exact .refl _ _

theorem dirlink_moves {inum : Nat} {r : Int}
    (hrun : (dirlink dp name inum).run s = .ok (r, s')) (hpos : 0 < (s.inode dp).ref)
    (hv : (s.inode dp).valid = true) : Moves s 0 s' 0 := by
  rw [dirlink, Prog.bind_ok] at hrun
  obtain ⟨found, s₁, hlookup, hrun⟩ := hrun
  have hmoves := dirlookup_moves hlookup hpos
  cases found with
  | some e =>
      obtain ⟨ip, off⟩ := e
      simp only at hrun
      rw [Prog.bind_ok] at hrun
      obtain ⟨_, s₂, hput, hrun⟩ := hrun
      obtain ⟨-, rfl⟩ := Prog.pure_ok.mp hrun
      exact hmoves.trans (iput_moves hput)
  | none =>
      simp only [inodeAt_bind_run] at hrun
      rw [Prog.bind_ok] at hrun
      obtain ⟨off, s₂, hempty, hrun⟩ := hrun
      rw [Prog.bind_ok] at hrun
      obtain ⟨n, s₃, hwrite, hrun⟩ := hrun
      have hmoves₂ : Moves s 0 s₂ 0 := hmoves.trans (emptyDirent_moves hempty)
      have hkeep := hmoves₂.keeps (by simpa using hpos)
      split at hrun
      · simp at hrun
      · obtain ⟨-, rfl⟩ := Prog.pure_ok.mp hrun
        exact hmoves₂.trans (writei_moves hwrite (hkeep.2 hv).1 (by simpa using hkeep.1))

/-! ## Paths -/

/-- The references a path walk leaves with. -/
def walked : Option (Slot × Str) → Slot → Nat
  | none => 0
  | some (ip, _) => one ip

theorem namexLoop_moves {parent : Bool} {fuel : Nat} {r : Option (Slot × Str)}
    (hrun : (namexLoop parent fuel path ip name).run s = .ok (r, s')) :
    Moves s (one ip) s' (walked r) := by
  induction fuel generalizing s path ip name with
  | zero => simp [namexLoop] at hrun
  | succ fuel ih =>
      rw [namexLoop] at hrun
      split at hrun
      · split at hrun
        · rw [Prog.bind_ok] at hrun
          obtain ⟨_, s₁, hput, hrun⟩ := hrun
          obtain ⟨rfl, rfl⟩ := Prog.pure_ok.mp hrun
          exact iput_moves hput
        · obtain ⟨rfl, rfl⟩ := Prog.pure_ok.mp hrun
          exact .refl _ _
      · rw [Prog.bind_ok] at hrun
        obtain ⟨_, s₁, hlock, hrun⟩ := hrun
        have hl := ilock_spec hlock
        have hmoves := hl.moves.beside (one ip)
        rw [add_zero] at hmoves
        refine hmoves.trans ?_
        rw [inodeAt_bind_run] at hrun
        split at hrun
        · rw [Prog.bind_ok] at hrun
          obtain ⟨_, s₂, hput, hrun⟩ := hrun
          obtain ⟨rfl, rfl⟩ := Prog.pure_ok.mp hrun
          exact iunlockput_moves hput
        · split at hrun
          · rw [Prog.bind_ok] at hrun
            obtain ⟨_, s₂, hunlock, hrun⟩ := hrun
            obtain ⟨rfl, rfl⟩ := Prog.pure_ok.mp hrun
            exact (iunlock_keys hunlock).moves _
          · rw [Prog.bind_ok] at hrun
            obtain ⟨e, s₂, hlookup, hrun⟩ := hrun
            have hfound := (dirlookup_moves hlookup hl.pos').beside (one ip)
            cases e with
            | none =>
                simp only at hrun
                rw [Prog.bind_ok] at hrun
                obtain ⟨_, s₃, hput, hrun⟩ := hrun
                obtain ⟨rfl, rfl⟩ := Prog.pure_ok.mp hrun
                exact hfound.trans (iunlockput_moves hput)
            | some e =>
                obtain ⟨next, off⟩ := e
                simp only at hrun
                rw [Prog.bind_ok] at hrun
                obtain ⟨_, s₃, hput, hrun⟩ := hrun
                have hdrop := (iunlockput_moves hput).leaving (one next)
                rw [add_comm] at hdrop
                exact (hfound.trans hdrop).trans (ih hrun)

/-- The current directory of a process is referred to. -/
def CwdOk (s : Kernel) : Prop := ∀ k, (s.proc s.cur).cwd = some k → 0 < (s.inode k).ref

theorem Moves.cwdOk {h' : Slot → Nat} (hm : Moves s 0 s' h') (hcwd : CwdOk s) : CwdOk s' := by
  intro k hk
  rw [hm.tables.proc, hm.tables.cur] at hk
  exact hm.keeps_pos (hcwd k hk)

theorem namexStart_moves (hrun : (namexStart path).run s = .ok (ip, s')) (hcwd : CwdOk s) :
    Moves s 0 s' (one ip) := by
  rw [namexStart] at hrun
  split at hrun
  · exact iget_moves hrun (Or.inl rfl)
  · rw [myproc_bind_run] at hrun
    split at hrun
    · simp at hrun
    · rename_i cwd heq
      obtain ⟨rfl, hmoves⟩ := idup_moves hrun (hcwd cwd heq)
      exact hmoves

theorem namex_moves {parent : Bool} {r : Option (Slot × Str)}
    (hrun : (namex path parent).run s = .ok (r, s')) (hcwd : CwdOk s) :
    Moves s 0 s' (walked r) := by
  rw [namex, Prog.bind_ok] at hrun
  obtain ⟨ip, s₁, hstart, hrun⟩ := hrun
  exact (namexStart_moves hstart hcwd).trans (namexLoop_moves hrun)

theorem namei_moves {r : Option Slot} (hrun : (namei path).run s = .ok (r, s'))
    (hcwd : CwdOk s) : Moves s 0 s' (ofOption r) := by
  rw [namei, Prog.bind_ok] at hrun
  obtain ⟨w, s₁, hwalk, hrun⟩ := hrun
  obtain ⟨rfl, rfl⟩ := Prog.pure_ok.mp hrun
  have hmoves := namex_moves hwalk hcwd
  cases w with
  | none => exact hmoves
  | some w => exact hmoves

end Fs
end CS444
