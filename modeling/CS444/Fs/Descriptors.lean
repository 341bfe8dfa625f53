/-
Calls on a descriptor, as functions of their arguments.

`argfd` finds the open file and changes nothing, so `read`, `write` and `lseek`
are `fileread`, `filewrite` and `fileseek` of the arguments they fetch, or fail
at once.
-/
import CS444.Fs.Syscall

namespace CS444
namespace Fs

open Program

/-- The open file the first argument names. -/
def fdFile (s : Kernel) (u : User) : Option FileSlot :=
  match u.argint 0 with
  | none => none
  | some fd => if h : fd < NOFILE then (s.proc s.cur).ofile ⟨fd, h⟩ else none

/-- The arguments of `read`. -/
def readArgs (s : Kernel) (u : User) : Option (FileSlot × Int) :=
  match fdFile s u, u.argint 2 with
  | some f, some n => (u.argptr 1 (int n)).map fun _ => (f, int n)
  | _, _ => none

/-- The arguments of `write`, with the buffer's contents. -/
def writeArgs (s : Kernel) (u : User) : Option (FileSlot × Str) :=
  match fdFile s u, u.argint 2 with
  | some f, some n => (u.argptr 1 (int n)).map fun a => (f, u.bytes a n)
  | _, _ => none

/-- The arguments of `lseek`. -/
def seekArgs (s : Kernel) (u : User) : Option (FileSlot × Int × Int) :=
  match fdFile s u, u.argint 1, u.argint 2 with
  | some f, some offset, some whence => some (f, int offset, int whence)
  | _, _, _ => none

variable {s s' : Kernel} {u : User}

theorem argfd_run : ∃ r, (argfd u 0).run s = .ok (r, s) ∧ r.map Prod.snd = fdFile s u := by
  rw [argfd, myproc_bind_run]
  unfold fdFile
  cases u.argint 0 with
  | none => exact ⟨none, rfl, rfl⟩
  | some fd =>
      simp only
      by_cases h : fd < NOFILE
      · rw [dif_pos h, dif_pos h]
        refine ⟨_, rfl, ?_⟩
        cases (s.proc s.cur).ofile ⟨fd, h⟩ <;> rfl
      · rw [dif_neg h, dif_neg h]
        exact ⟨none, rfl, rfl⟩

theorem sys_read_cases {r : Int × Str} (hrun : (sys_read u).run s = .ok (r, s')) :
    (readArgs s u = none ∧ r = (-1, []) ∧ s' = s) ∨
      ∃ f n, readArgs s u = some (f, n) ∧ (fileread f n).run s = .ok (r, s') := by
  obtain ⟨e, hfd, he⟩ := argfd_run (s := s) (u := u)
  rw [sys_read, Prog.bind_eq hfd] at hrun
  split at hrun
  · rename_i hn
    split at hrun
    · rename_i hbuf
      obtain ⟨rfl, rfl⟩ := Prog.pure_ok.mp hrun
      exact Or.inl ⟨by rw [readArgs, ← he, hn]; simp [hbuf], rfl, rfl⟩
    · rename_i hbuf
      exact Or.inr ⟨_, _, by rw [readArgs, ← he, hn]; simp [hbuf], hrun⟩
  · rename_i hnone
    obtain ⟨rfl, rfl⟩ := Prog.pure_ok.mp hrun
    refine Or.inl ⟨?_, rfl, rfl⟩
    rw [readArgs, ← he]
    split
    · rename_i hf hn
      obtain ⟨⟨fd, f⟩, rfl, -⟩ := Option.map_eq_some_iff.mp hf
      exact absurd hn (hnone fd f _ rfl)
    · rfl

theorem sys_write_cases {r : Int} (hrun : (sys_write u).run s = .ok (r, s')) :
    (writeArgs s u = none ∧ r = -1 ∧ s' = s) ∨
      ∃ f src, writeArgs s u = some (f, src) ∧
        (filewrite u.nullSize 2 f src).run s = .ok (r, s') := by
  obtain ⟨e, hfd, he⟩ := argfd_run (s := s) (u := u)
  rw [sys_write, Prog.bind_eq hfd] at hrun
  split at hrun
  · rename_i hn
    split at hrun
    · rename_i hbuf
      obtain ⟨rfl, rfl⟩ := Prog.pure_ok.mp hrun
      exact Or.inl ⟨by rw [writeArgs, ← he, hn]; simp [hbuf], rfl, rfl⟩
    · rename_i hbuf
      exact Or.inr ⟨_, _, by rw [writeArgs, ← he, hn]; simp [hbuf], hrun⟩
  · rename_i hnone
    obtain ⟨rfl, rfl⟩ := Prog.pure_ok.mp hrun
    refine Or.inl ⟨?_, rfl, rfl⟩
    rw [writeArgs, ← he]
    split
    · rename_i hf hn
      obtain ⟨⟨fd, f⟩, rfl, -⟩ := Option.map_eq_some_iff.mp hf
      exact absurd hn (hnone fd f _ rfl)
    · rfl

theorem sys_lseek_cases {r : Int} (hrun : (sys_lseek u).run s = .ok (r, s')) :
    (seekArgs s u = none ∧ r = -1 ∧ s' = s) ∨
      ∃ f offset whence, seekArgs s u = some (f, offset, whence) ∧
        (fileseek u.nullSize 3 f offset whence).run s = .ok (r, s') := by
  obtain ⟨e, hfd, he⟩ := argfd_run (s := s) (u := u)
  rw [sys_lseek, Prog.bind_eq hfd] at hrun
  split at hrun
  · rename_i hoffset hwhence
    exact Or.inr ⟨_, _, _, by rw [seekArgs, ← he, hoffset, hwhence]; rfl, hrun⟩
  · rename_i hnone
    obtain ⟨rfl, rfl⟩ := Prog.pure_ok.mp hrun
    refine Or.inl ⟨?_, rfl, rfl⟩
    rw [seekArgs, ← he]
    split
    · rename_i hf hoffset hwhence
      obtain ⟨⟨fd, f⟩, rfl, -⟩ := Option.map_eq_some_iff.mp hf
      exact absurd hwhence (hnone fd f _ _ rfl hoffset)
    · rfl

end Fs
end CS444
