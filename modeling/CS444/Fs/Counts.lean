/-
Exact reference counts.

`Exact s d e raw` says of a state that the count of every file is that of the
descriptors on it and `d`, and the count of every inode that of the current
directories and open files on it and `e`: `d` and `e` are what the code at hand
holds, or owes when negative.  `raw` are the files it has allocated and not yet
given a type.  Between calls all three are empty.
-/
import CS444.Fs.Plain
import Mathlib.Data.Fintype.Prod

namespace CS444
namespace Fs

open Program Ledger

/-- The descriptors of all slots. -/
def fds (s : Kernel) : ProcSlot × Fin NOFILE → Option FileSlot := fun x => (s.proc x.1).ofile x.2

/-- How many descriptors are on a file. -/
def descriptors (s : Kernel) : FileSlot → Nat := holdings ofOption (fds s)

structure Exact (s : Kernel) (d : FileSlot → Int) (e : Slot → Int) (raw : FileSlot → Prop) :
    Prop where
  cache : CacheOk s
  closed : FilesClosed s
  typed : ∀ f, (s.file f).type = .none → (s.file f).ref = 0 ∨ raw f
  files : ∀ f, (s.file f).ref = descriptors s f + d f
  inodes : ∀ k, (s.inode k).ref = held s k + e k

/-- Nothing is in the hands of the code. -/
def Settled (s : Kernel) : Prop := Exact s 0 0 fun _ => False

variable {s s₁ s' : Kernel} {d d' : FileSlot → Int} {e e' : Slot → Int} {raw raw' : FileSlot → Prop}
  {f : FileSlot} {ip : Slot} {h h' : Slot → Nat} {p q : ProcSlot} {fd : Fin NOFILE}

theorem Exact.of_eq (hx : Exact s d e raw) (hd : ∀ f, d' f = d f) (he : ∀ k, e' k = e k)
    (hraw : ∀ f, raw f → raw' f) : Exact s d' e' raw' := by
  refine ⟨hx.cache, hx.closed, fun f htype => (hx.typed f htype).imp_right (hraw f), fun f => ?_,
    fun k => ?_⟩
  · rw [hd]
    exact hx.files f
  · rw [he]
    exact hx.inodes k

/-! ## Counting descriptors -/

theorem ofOption_eq {ι : Type} [DecidableEq ι] (o : Option ι) (k : ι) :
    ofOption o k = if o = some k then 1 else 0 := by
  cases o with
  | none => rfl
  | some j =>
      by_cases hj : k = j
      · subst hj
        rw [if_pos rfl]
        exact one_self k
      · rw [if_neg fun h => hj (Option.some.inj h).symm]
        exact one_of_ne hj

/-- A change of one descriptor. -/
theorem descriptors_update (p : ProcSlot) (fd : Fin NOFILE) (o : Option FileSlot)
    (f : FileSlot) (r : Proc) (hr : r.ofile = Function.update (s.proc p).ofile fd o) :
    descriptors (withProcAt s p r) f + ofOption ((s.proc p).ofile fd) f =
      descriptors s f + ofOption o f := by
  have hfds : fds (withProcAt s p r) = Function.update (fds s) (p, fd) o := by
    funext x
    obtain ⟨p', fd'⟩ := x
    simp only [fds, withProcAt]
    by_cases hp : p' = p
    · subst hp
      rw [Function.update_self, hr]
      by_cases hfd : fd' = fd
      · subst hfd
        rw [Function.update_self, Function.update_self]
      · rw [Function.update_of_ne hfd, Function.update_of_ne (by simp [hfd])]
        rfl
    · rw [Function.update_of_ne hp, Function.update_of_ne (by simp [hp])]
      rfl
  have := holdings_update ofOption (fds s) (p, fd) o f
  rw [descriptors, hfds]
  exact this

theorem descriptors_congr (hfds : ∀ p, (s'.proc p).ofile = (s.proc p).ofile) :
    descriptors s' = descriptors s := by
  have : fds s' = fds s := by
    funext x
    simp only [fds, hfds]
  rw [descriptors, this, descriptors]

theorem one_le_descriptors (hfd : (s.proc p).ofile fd = some f) : 1 ≤ descriptors s f := by
  have hone : ofOption (fds s (p, fd)) f = 1 := by
    rw [fds, hfd]
    exact one_self f
  have := le_holdings ofOption (fds s) (p, fd) f
  rw [descriptors]
  omega

/-! ## Steps -/

/-- Code of the inode layer. -/
theorem Exact.moves (hx : Exact s d e raw) (hm : Moves s h s' h')
    (hle : ∀ k, (h k : Int) ≤ (s.inode k).ref) :
    Exact s' d (fun k => e k + h' k - h k) raw := by
  have hheld : held s' = held s := by
    unfold held
    rw [hm.tables.file, hm.tables.proc]
  refine ⟨hm.cache hx.cache hle, fun f => ?_, fun f => ?_, fun f => ?_, fun k => ?_⟩
  · rw [hm.tables.file]
    exact hx.closed f
  · rw [hm.tables.file]
    exact hx.typed f
  · have hsame : descriptors s' = descriptors s :=
      descriptors_congr fun p => by rw [hm.tables.proc]
    rw [hm.tables.file, hsame]
    exact hx.files f
  · have := hx.inodes k
    have := hm.ref_eq k
    rw [hheld]
    omega

/-- Code of the inode layer that takes nothing over. -/
theorem Exact.takes (hx : Exact s d e raw) (hm : Moves s 0 s' h') :
    Exact s' d (fun k => e k + h' k) raw :=
  (hx.moves hm fun k => hx.cache.nonneg k).of_eq (fun _ => rfl) (fun k => by simp) fun _ => id

theorem Exact.cwdOk (hx : Exact s d e raw) (he : ∀ k, 0 ≤ e k) : CwdOk s := by
  intro k hcwd
  have := hx.inodes k
  have := he k
  have := cwdOf_le_proc hcwd
  rw [held, Pi.add_apply] at *
  omega

/-- A file changed and its count with it. -/
theorem Exact.withFile (hx : Exact s d e raw) (f : FileSlot) (file : File)
    (raw' : FileSlot → Prop) (hclosed : file.ref = 0 → file.type = .none)
    (htyped : file.type = .none → file.ref = 0 ∨ raw' f) (hraw : ∀ f', f' ≠ f → raw f' → raw' f') :
    Exact (withFile s f file) (fun f' => d f' + if f' = f then file.ref - (s.file f).ref else 0)
      (fun k => e k + inodeOf (s.file f) k - inodeOf file k) raw' := by
  refine ⟨?_, fun f' => ?_, fun f' htype => ?_, fun f' => ?_, fun k => ?_⟩
  · exact (inodeMoves_withFile f file 0).cache hx.cache hx.cache.nonneg
  · by_cases hf : f' = f
    · subst hf
      rw [withFile_self]
      exact hclosed
    · rw [withFile_of_ne hf]
      exact hx.closed f'
  · by_cases hf : f' = f
    · subst hf
      rw [withFile_self] at htype ⊢
      exact htyped htype
    · rw [withFile_of_ne hf] at htype ⊢
      exact (hx.typed f' htype).imp_right (hraw f' hf)
  · have hfiles := hx.files f'
    have hsame : descriptors (Fs.withFile s f file) = descriptors s :=
      descriptors_congr fun _ => rfl
    rw [hsame]
    by_cases hf : f' = f
    · subst hf
      rw [withFile_self, if_pos rfl]
      omega
    · rw [withFile_of_ne hf, if_neg hf]
      omega
  · have := held_withFile (s := s) (f := f) file k
    have := hx.inodes k
    show (s.inode k).ref = _
    omega

/-- A descriptor changed. -/
theorem Exact.withFd (hx : Exact s d e raw) (o : Option FileSlot) (fd : Fin NOFILE) :
    Exact (withProcAt s p { s.proc p with ofile := Function.update (s.proc p).ofile fd o })
      (fun f => d f + ofOption ((s.proc p).ofile fd) f - ofOption o f) e raw := by
  refine ⟨?_, hx.closed, hx.typed, fun f => ?_, fun k => ?_⟩
  · have hm : InodeMoves s 0 (withProcAt s p { s.proc p with
        ofile := Function.update (s.proc p).ofile fd o }) 0 := by
      apply InodeMoves.of_eq <;> rfl
    exact hm.cache hx.cache hx.cache.nonneg
  · have := descriptors_update (s := s) p fd o f
      { s.proc p with ofile := Function.update (s.proc p).ofile fd o } rfl
    have := hx.files f
    show (s.file f).ref = _
    omega
  · have := held_withProcAt (s := s) p
      { s.proc p with ofile := Function.update (s.proc p).ofile fd o } k
    have := hx.inodes k
    have hcwd : cwdOf { s.proc p with ofile := Function.update (s.proc p).ofile fd o } k =
        cwdOf (s.proc p) k := rfl
    show (s.inode k).ref = _
    omega

/-- A current directory changed. -/
theorem Exact.withCwd (hx : Exact s d e raw) (cwd : Option Slot) :
    Exact (withProcAt s p { s.proc p with cwd := cwd }) d
      (fun k => e k + cwdOf (s.proc p) k - ofOption cwd k) raw := by
  refine ⟨?_, hx.closed, hx.typed, fun f => ?_, fun k => ?_⟩
  · have hm : InodeMoves s 0 (withProcAt s p { s.proc p with cwd := cwd }) 0 := by
      apply InodeMoves.of_eq <;> rfl
    exact hm.cache hx.cache hx.cache.nonneg
  · have hsame : descriptors (withProcAt s p { s.proc p with cwd := cwd }) = descriptors s := by
      refine descriptors_congr fun p' => ?_
      simp only [withProcAt]
      by_cases hp : p' = p
      · subst hp
        rw [Function.update_self]
      · rw [Function.update_of_ne hp]
    rw [hsame]
    exact hx.files f
  · have := held_withProcAt (s := s) p { s.proc p with cwd := cwd } k
    have := hx.inodes k
    have hcwd : cwdOf { s.proc p with cwd := cwd } k = ofOption cwd k := rfl
    show (s.inode k).ref = _
    omega

/-- Tables the counts are not about. -/
theorem Exact.quiet (hx : Exact s d e raw) (hi : s'.inode = s.inode) (hd : s'.dinode = s.dinode)
    (hfile : s'.file = s.file) (hproc : s'.proc = s.proc) : Exact s' d e raw := by
  have hm : InodeMoves s 0 s' 0 := .of_eq hi hd 0
  have hheld : held s' = held s := by
    unfold held
    rw [hfile, hproc]
  refine ⟨hm.cache hx.cache hx.cache.nonneg, fun f => ?_, fun f => ?_, fun f => ?_, fun k => ?_⟩
  · rw [hfile]
    exact hx.closed f
  · rw [hfile]
    exact hx.typed f
  · have hsame : descriptors s' = descriptors s := descriptors_congr fun p => by rw [hproc]
    rw [hfile, hsame]
    exact hx.files f
  · rw [hi, hheld]
    exact hx.inodes k

/-! ## The file table -/

/-- The calls on files leave the slots other than the running one alone. -/
structure OwnSlot (s s' : Kernel) : Prop where
  cur : s'.cur = s.cur
  others : ∀ p, p ≠ s.cur → s'.proc p = s.proc p

theorem OwnSlot.refl (s : Kernel) : OwnSlot s s := ⟨rfl, fun _ _ => rfl⟩

theorem OwnSlot.trans (hab : OwnSlot s s₁) (hbc : OwnSlot s₁ s') : OwnSlot s s' := by
  refine ⟨hbc.cur.trans hab.cur, fun p hp => ?_⟩
  rw [hbc.others p (by rwa [hab.cur]), hab.others p hp]

theorem OwnSlot.of_eq (hproc : s'.proc = s.proc) (hcur : s'.cur = s.cur) : OwnSlot s s' :=
  ⟨hcur, fun p _ => by rw [hproc]⟩

theorem Moves.ownSlot (hm : Moves s h s' h') : OwnSlot s s' :=
  .of_eq hm.tables.proc hm.tables.cur

theorem ownSlot_withProc (r : Proc) : OwnSlot s (withProc s r) :=
  ⟨rfl, fun _ hp => Function.update_of_ne hp ..⟩

/-- The count of a file changed. -/
theorem Exact.withRef {n : Int} (hx : Exact s d e raw) (raw' : FileSlot → Prop)
    (hclosed : n = 0 → (s.file f).type = .none) (htyped : (s.file f).type = .none → n = 0 ∨ raw' f)
    (hraw : ∀ f', raw f' → raw' f') :
    Exact (Fs.withFile s f { s.file f with ref := n })
      (fun f' => d f' + if f' = f then n - (s.file f).ref else 0) e raw' := by
  refine (hx.withFile f { s.file f with ref := n } raw' hclosed htyped
    fun f' _ => hraw f').of_eq (fun _ => rfl) (fun k => ?_) fun _ => id
  have hsame : inodeOf { s.file f with ref := n } k = inodeOf (s.file f) k := rfl
  omega

/-- A new file has one reference, which is the code's, and no type yet. -/
theorem filealloc_exact (hx : Exact s d e raw) (hrun : filealloc.run s = .ok (some f, s')) :
    Exact s' (fun f' => d f' + one f f') e (fun f' => f' = f ∨ raw f') ∧ OwnSlot s s' ∧
      (s'.file f).ref = 1 ∧ (s'.file f).type = .none := by
  rcases filealloc_cases hrun with ⟨hnone, -⟩ | ⟨f', heq, hfree, rfl⟩
  · exact absurd hnone (by simp)
  obtain rfl := Option.some.inj heq
  refine ⟨?_, .of_eq rfl rfl, by rw [withFile_self], ?_⟩
  · refine (hx.withRef (fun f' => f' = f ∨ raw f') (fun h => absurd h (by decide))
      (fun _ => Or.inr (Or.inl rfl)) fun _ => Or.inr).of_eq (fun f' => ?_) (fun _ => rfl)
      fun _ => id
    rw [hfree]
    by_cases hf : f' = f
    · subst hf
      rw [one_self, if_pos rfl]
      rfl
    · rw [one_of_ne hf, if_neg hf]
      rfl
  · rw [withFile_self]
    exact hx.closed f hfree

theorem filedup_exact {r : FileSlot} (hx : Exact s d e raw)
    (hrun : (filedup f).run s = .ok (r, s')) :
    r = f ∧ Exact s' (fun f' => d f' + one f f') e raw ∧ OwnSlot s s' ∧ s'.proc = s.proc := by
  rw [filedup, fileAt_bind_run] at hrun
  split at hrun
  · simp at hrun
  rename_i href
  rw [setFile_bind_run] at hrun
  obtain ⟨rfl, rfl⟩ := Prog.pure_ok.mp hrun
  refine ⟨rfl, ?_, .of_eq rfl rfl, rfl⟩
  refine (hx.withRef raw (fun h => ?_) (fun htype => ?_) fun _ => id).of_eq
    (fun f' => ?_) (fun _ => rfl) fun _ => id
  · omega
  · refine Or.inr ((hx.typed f htype).resolve_left ?_)
    omega
  · by_cases hf : f' = f
    · subst hf
      rw [one_self, if_pos rfl]
      simp
    · rw [one_of_ne hf, if_neg hf]
      rfl

/-- A new descriptor takes over a reference of the code's. -/
theorem fdalloc_exact (hx : Exact s d e raw) (hrun : (fdalloc f).run s = .ok (some fd, s')) :
    Exact s' (fun f' => d f' - one f f') e raw ∧ OwnSlot s s' ∧ s'.file = s.file ∧
      (s'.proc s'.cur).ofile fd = some f := by
  rcases fdalloc_cases hrun with ⟨hnone, -⟩ | ⟨fd', heq, hfree, rfl⟩
  · exact absurd hnone (by simp)
  obtain rfl := Option.some.inj heq
  refine ⟨?_, ownSlot_withProc _, rfl, ?_⟩
  · refine (hx.withFd (some f) fd).of_eq (fun f' => ?_) (fun _ => rfl) fun _ => id
    rw [hfree]
    show d f' - (one f f' : Nat) = d f' + ((0 : Nat) : Int) - (one f f' : Nat)
    omega
  · show (Function.update s.proc s.cur _ s.cur).ofile fd = some f
    rw [Function.update_self]
    exact Function.update_self ..

theorem fdalloc_full (hrun : (fdalloc f).run s = .ok (none, s')) : s' = s := by
  rcases fdalloc_cases hrun with ⟨-, rfl⟩ | ⟨fd, heq, -⟩
  · rfl
  · exact absurd heq (by simp)

/-- The reference of a cleared descriptor is the code's. -/
theorem clearFd_exact {u : Unit} (hx : Exact s d e raw) (hfd : (s.proc s.cur).ofile fd = some f)
    (hrun : (clearFd fd).run s = .ok (u, s')) :
    Exact s' (fun f' => d f' + one f f') e raw ∧ OwnSlot s s' ∧
      s' = withProc s { s.proc s.cur with
        ofile := Function.update (s.proc s.cur).ofile fd none } := by
  obtain rfl := setProc_ok.mp hrun
  refine ⟨?_, ownSlot_withProc _, rfl⟩
  refine (hx.withFd none fd).of_eq (fun f' => ?_) (fun _ => rfl) fun _ => id
  rw [hfd]
  show d f' + (one f f' : Nat) = d f' + (one f f' : Nat) - ((0 : Nat) : Int)
  omega

/-- Closing gives up one reference of the code's; the last one also closes the
file. -/
theorem fileclose_exact {u : Unit} (hx : Exact s d e raw) (he : ∀ k, 0 ≤ e k)
    (hrun : (fileclose f).run s = .ok (u, s')) :
    Exact s' (fun f' => d f' - one f f') e (fun f' => raw f' ∧ ((s.file f).ref = 1 → f' ≠ f)) ∧
      OwnSlot s s' ∧ s'.proc = s.proc ∧ ∀ f', f' ≠ f → s'.file f' = s.file f' := by
  rw [fileclose, fileAt_bind_run] at hrun
  split at hrun
  · simp at hrun
  split at hrun
  · rename_i hmore
    obtain rfl := setFile_ok.mp hrun
    refine ⟨?_, .of_eq rfl rfl, rfl, fun f' hf => withFile_of_ne hf _⟩
    refine (hx.withRef raw (fun h => ?_) (fun htype => ?_) fun _ => id).of_eq
      (fun f' => ?_) (fun _ => rfl) fun f' hf => ⟨hf, fun h => by omega⟩
    · omega
    · refine Or.inr ((hx.typed f htype).resolve_left ?_)
      omega
    · by_cases hf : f' = f
      · subst hf
        rw [one_self, if_pos rfl]
        push_cast
        omega
      · rw [one_of_ne hf, if_neg hf]
        rfl
  rename_i hfew hmany
  rw [setFile_bind_run] at hrun
  have hlast : (s.file f).ref = 1 := by omega
  have hx₁ : Exact (withFile s f { s.file f with ref := 0, type := .none })
      (fun f' => d f' - one f f') (fun k => e k + inodeOf (s.file f) k)
      (fun f' => raw f' ∧ ((s.file f).ref = 1 → f' ≠ f)) := by
    refine (hx.withFile f _ (fun f' => raw f' ∧ ((s.file f).ref = 1 → f' ≠ f))
      (fun _ => rfl) (fun _ => Or.inl rfl) fun f' hf hraw => ⟨hraw, fun _ => hf⟩).of_eq
      (fun f' => ?_) (fun k => ?_) fun _ => id
    · by_cases hf : f' = f
      · subst hf
        rw [one_self, if_pos rfl, hlast]
        rfl
      · rw [one_of_ne hf, if_neg hf]
        simp
    · have hnone : inodeOf { s.file f with ref := 0, type := .none } = 0 :=
        inodeOf_of_ne (by simp)
      rw [hnone]
      simp
  have hkeep {fs : Kernel} (hproc : fs.proc = s.proc) (hcur : fs.cur = s.cur)
      (hfile : fs.file = (withFile s f { s.file f with ref := 0, type := .none }).file) :
      OwnSlot s fs ∧ fs.proc = s.proc ∧ ∀ f', f' ≠ f → fs.file f' = s.file f' := by
    refine ⟨.of_eq hproc hcur, hproc, fun f' hf => ?_⟩
    rw [hfile, withFile_of_ne hf]
  split at hrun
  · rename_i htype
    obtain ⟨-, rfl⟩ := Prog.pure_ok.mp hrun
    rw [inodeOf_of_ne (by simp [htype])] at hx₁
    exact ⟨hx₁.of_eq (fun _ => rfl) (fun k => by simp) fun _ => id, hkeep rfl rfl rfl⟩
  · rename_i htype
    split at hrun
    · simp at hrun
    · obtain ⟨pages, rfl⟩ := pipeclose_ok hrun
      rw [inodeOf_of_ne (by simp [htype])] at hx₁
      have hx₂ : Exact (withFile s f { s.file f with ref := 0, type := .none })
          (fun f' => d f' - one f f') e _ :=
        hx₁.of_eq (fun _ => rfl) (fun k => by simp) fun _ => id
      refine ⟨hx₂.quiet ?_ ?_ ?_ ?_, hkeep ?_ ?_ ?_⟩ <;> rfl
  · rename_i htype
    split at hrun
    · simp at hrun
    · rename_i ip hip
      have hm := iput_moves hrun
      rw [inodeOf_of_inode htype, hip] at hx₁
      refine ⟨(hx₁.moves hm fun k => ?_).of_eq (fun _ => rfl) (fun k => ?_) fun _ => id,
        hkeep hm.tables.proc hm.tables.cur hm.tables.file⟩
      · have := hx₁.inodes k
        have := he k
        simp only [ofOption] at *
        omega
      · simp [ofOption]

end Fs
end CS444
