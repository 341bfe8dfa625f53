/-
What each call does to pipes.

`call_pipesOk` has one case for each call but `lseek`: most of them leave pipes
alone, `read` and `write` move bytes and note them in the log, and closing the
last descriptor of an end closes the end.
-/
import CS444.Fs.PipeEnds

namespace CS444
namespace Fs

open Program

variable {P : Nat → Int → Prop} {s s₁ s' : Kernel} {log : Log} {f : FileSlot} {u : User}
  {h : Slot → Nat}

/-! ## Descriptors -/

theorem sys_dup_keepsPipes {r : Int} (hrun : (sys_dup u).run s = .ok (r, s')) :
    KeepsPipes s s' := by
  rw [sys_dup, Prog.bind_ok] at hrun
  obtain ⟨e, s₁, hfd, hrun⟩ := hrun
  obtain rfl := argfd_same hfd
  cases e with
  | none =>
      obtain ⟨-, rfl⟩ := Prog.pure_ok.mp hrun
      exact .refl _
  | some e =>
      simp only at hrun
      rw [Prog.bind_ok] at hrun
      obtain ⟨fd, s₂, halloc, hrun⟩ := hrun
      have hk := fdalloc_keepsPipes halloc
      cases fd with
      | none =>
          obtain ⟨-, rfl⟩ := Prog.pure_ok.mp hrun
          exact hk
      | some fd =>
          simp only at hrun
          rw [Prog.bind_ok] at hrun
          obtain ⟨_, s₃, hdup, hrun⟩ := hrun
          obtain ⟨-, rfl⟩ := Prog.pure_ok.mp hrun
          exact hk.trans (filedup_keepsPipes hdup)

theorem sys_close_pipesOk (hp : PipesOk s log) {r : Int}
    (hrun : (sys_close u).run s = .ok (r, s')) : PipesOk s' log := by
  rw [sys_close, Prog.bind_ok] at hrun
  obtain ⟨e, s₁, hfd, hrun⟩ := hrun
  obtain rfl := argfd_same hfd
  cases e with
  | none =>
      obtain ⟨-, rfl⟩ := Prog.pure_ok.mp hrun
      exact hp
  | some e =>
      simp only at hrun
      rw [Prog.bind_ok] at hrun
      obtain ⟨_, s₂, hclear, hrun⟩ := hrun
      rw [Prog.bind_ok] at hrun
      obtain ⟨_, s₃, hclose, hrun⟩ := hrun
      obtain ⟨-, rfl⟩ := Prog.pure_ok.mp hrun
      exact fileclose_pipesOk (hp.keep (clearFd_keepsPipes hclear)) hclose

theorem sys_fstat_keepsPipes {r : Int × Option Stat}
    (hrun : (sys_fstat u).run s = .ok (r, s')) : KeepsPipes s s' := by
  rw [sys_fstat, Prog.bind_ok] at hrun
  obtain ⟨e, s₁, hfd, hrun⟩ := hrun
  obtain rfl := argfd_same hfd
  split at hrun
  · rename_i fd f a hargs
    by_cases htype : (s₁.file f).type = .pipe
    · rw [filestat, fileAt_bind_run, if_neg (by simp [htype])] at hrun
      obtain ⟨-, rfl⟩ := Prog.pure_ok.mp hrun
      exact .refl _
    · exact (filestat_quietOn hrun).keepsPipes htype
  · obtain ⟨-, rfl⟩ := Prog.pure_ok.mp hrun
    exact .refl _

theorem sys_pipe_pipesOk (hp : PipesOk s log) {r : Option (Fin NOFILE × Fin NOFILE)}
    (hrun : (sys_pipe u).run s = .ok (r, s')) : PipesOk s' log := by
  rw [sys_pipe] at hrun
  split at hrun
  · obtain ⟨-, rfl⟩ := Prog.pure_ok.mp hrun
    exact hp
  rw [Prog.bind_ok] at hrun
  obtain ⟨ends, s₁, halloc, hrun⟩ := hrun
  have hp₁ := pipealloc_pipesOk hp halloc
  cases ends with
  | none =>
      obtain ⟨-, rfl⟩ := Prog.pure_ok.mp hrun
      exact hp₁
  | some ends =>
      obtain ⟨rf, wf⟩ := ends
      simp only at hrun
      rw [Prog.bind_ok] at hrun
      obtain ⟨fd0, s₂, hfd0, hrun⟩ := hrun
      have hp₂ := hp₁.keep (fdalloc_keepsPipes hfd0)
      cases fd0 with
      | none =>
          simp only at hrun
          rw [Prog.bind_ok] at hrun
          obtain ⟨_, s₃, hclose, hrun⟩ := hrun
          rw [Prog.bind_ok] at hrun
          obtain ⟨_, s₄, hclose₄, hrun⟩ := hrun
          obtain ⟨-, rfl⟩ := Prog.pure_ok.mp hrun
          exact fileclose_pipesOk (fileclose_pipesOk hp₂ hclose) hclose₄
      | some fd0 =>
          simp only at hrun
          rw [Prog.bind_ok] at hrun
          obtain ⟨fd1, s₃, hfd1, hrun⟩ := hrun
          have hp₃ := hp₂.keep (fdalloc_keepsPipes hfd1)
          cases fd1 with
          | none =>
              simp only at hrun
              rw [Prog.bind_ok] at hrun
              obtain ⟨_, s₄, hclear, hrun⟩ := hrun
              rw [Prog.bind_ok] at hrun
              obtain ⟨_, s₅, hclose, hrun⟩ := hrun
              rw [Prog.bind_ok] at hrun
              obtain ⟨_, s₆, hclose₆, hrun⟩ := hrun
              obtain ⟨-, rfl⟩ := Prog.pure_ok.mp hrun
              have hp₄ := hp₃.keep (clearFd_keepsPipes hclear)
              exact fileclose_pipesOk (fileclose_pipesOk hp₄ hclose) hclose₆
          | some fd1 =>
              obtain ⟨-, rfl⟩ := Prog.pure_ok.mp hrun
              exact hp₃

/-! ## Names and processes -/

theorem sys_open_keepsPipes {above : Nat → Str} {r : Int} (hk : Kept P s 0)
    (hrun : (sys_open above u).run s = .ok (r, s')) : KeepsPipes s s' := by
  rw [sys_open] at hrun
  split at hrun
  · rw [Prog.bind_ok] at hrun
    obtain ⟨found, s₁, hinode, hrun⟩ := hrun
    obtain ⟨leaked, hr⟩ := openInode_resolved hinode hk.cache hk.cwdOk
    have hk₁ := hk.moves hr.moves
    refine hr.moves.tables.keepsPipes.trans ?_
    cases found with
    | none =>
        obtain ⟨-, rfl⟩ := Prog.pure_ok.mp hrun
        exact .refl _
    | some ip =>
        rcases openFile_cases hrun (hr.inUse ip rfl) hk₁.closed with
          ⟨-, hfail⟩ | ⟨fd, f, -, hopened⟩
        · exact hfail.tables.keepsPipes
        · refine ⟨hopened.pipes, fun f' htype => ?_⟩
          rw [hopened.file] at htype ⊢
          by_cases hf : f' = f
          · subst hf
            rw [Function.update_self] at htype
            simp [openedFile] at htype
          · rw [Function.update_of_ne hf] at htype ⊢
            exact ⟨htype, rfl, rfl, rfl⟩
  · obtain ⟨-, rfl⟩ := Prog.pure_ok.mp hrun
    exact .refl _

theorem sys_chdir_keepsPipes {r : Int} (hk : Kept P s 0)
    (hrun : (sys_chdir u).run s = .ok (r, s')) : KeepsPipes s s' := by
  rw [sys_chdir] at hrun
  split at hrun
  · obtain ⟨-, rfl⟩ := Prog.pure_ok.mp hrun
    exact .refl _
  rw [Prog.bind_ok] at hrun
  obtain ⟨found, s₁, hwalk, hrun⟩ := hrun
  refine (namei_moves hwalk hk.cwdOk).tables.keepsPipes.trans ?_
  cases found with
  | none =>
      obtain ⟨-, rfl⟩ := Prog.pure_ok.mp hrun
      exact .refl _
  | some ip =>
      simp only at hrun
      rw [Prog.bind_ok] at hrun
      obtain ⟨_, s₂, hlock, hrun⟩ := hrun
      refine (ilock_spec hlock).moves.tables.keepsPipes.trans ?_
      rw [inodeAt_bind_run] at hrun
      split at hrun
      · rw [Prog.bind_ok] at hrun
        obtain ⟨_, s₃, hput, hrun⟩ := hrun
        obtain ⟨-, rfl⟩ := Prog.pure_ok.mp hrun
        exact (iunlockput_moves hput).tables.keepsPipes
      · rw [Prog.bind_ok] at hrun
        obtain ⟨_, s₃, hunlock, hrun⟩ := hrun
        refine (iunlock_keys hunlock).tables.keepsPipes.trans ?_
        rw [myproc_bind_run] at hrun
        split at hrun
        · simp at hrun
        · rw [Prog.bind_ok] at hrun
          obtain ⟨_, s₄, hput, hrun⟩ := hrun
          rw [setProc_bind_run] at hrun
          obtain ⟨-, rfl⟩ := Prog.pure_ok.mp hrun
          exact (iput_moves hput).tables.keepsPipes.trans (.of_file ⟨rfl, rfl, rfl⟩ rfl)

theorem execAll_keepsPipes {above : Nat → Str} {reads : List (Nat × Nat)} {r : Unit}
    (hk : Kept P s 0) (hrun : (Call.execAll above u reads).run s = .ok (r, s')) :
    KeepsPipes s s' := by
  rw [Call.execAll, Prog.bind_ok] at hrun
  obtain ⟨e, s₁, hexec, hrun⟩ := hrun
  have hk₁ : Kept P s₁ 0 := sys_exec_kept hk hexec
  have hfirst : KeepsPipes s s₁ := by
    have hcall := hexec
    rw [sys_exec] at hexec
    split at hexec
    · rename_i path uargv hpath huargv
      split at hexec
      · obtain ⟨-, rfl⟩ := Prog.pure_ok.mp hexec
        exact .refl _
      · rename_i argv hargv
        rcases sys_exec_leaks hk.sane hcall hpath huargv hargv with
          ⟨s₁, hwalk, rfl⟩ | ⟨ip, s₁, leaked, -, -, hm⟩
        · exact (namei_moves hwalk hk.cwdOk).tables.keepsPipes
        · exact hm.tables.keepsPipes
    · obtain ⟨-, rfl⟩ := Prog.pure_ok.mp hexec
      exact .refl _
  cases e with
  | none =>
      obtain ⟨-, rfl⟩ := Prog.pure_ok.mp hrun
      exact hfirst
  | some e => exact hfirst.trans (exec_moves hk₁.cwdOk hrun).tables.keepsPipes

theorem forkFiles_keepsPipes {np : ProcSlot} {fds : List (Fin NOFILE)} {r : Unit}
    (hrun : (forkFiles np fds).run s = .ok (r, s')) : KeepsPipes s s' := by
  induction fds generalizing s with
  | nil =>
      obtain ⟨-, rfl⟩ := Prog.pure_ok.mp hrun
      exact .refl _
  | cons fd rest ih =>
      rw [forkFiles, myproc_bind_run] at hrun
      split at hrun
      · exact ih hrun
      · rw [Prog.bind_ok] at hrun
        obtain ⟨f, s₁, hdup, hrun⟩ := hrun
        rw [Prog.modify_bind_run] at hrun
        refine (filedup_keepsPipes hdup).trans (KeepsPipes.trans ?_ (ih hrun))
        exact .of_file ⟨rfl, rfl, rfl⟩ rfl

theorem fork_keepsPipes {np : ProcSlot} {r : Unit} (hk : Kept P s 0)
    (hrun : (fork np).run s = .ok (r, s')) : KeepsPipes s s' := by
  rw [fork, Prog.bind_ok] at hrun
  obtain ⟨_, s₁, hfiles, hrun⟩ := hrun
  refine (forkFiles_keepsPipes hfiles).trans ?_
  have hk₁ := (forkFiles_kept hk hfiles).1
  rw [myproc_bind_run] at hrun
  split at hrun
  · simp at hrun
  · rename_i cwd hcwd
    rw [Prog.bind_ok] at hrun
    obtain ⟨k, s₂, hdup, hrun⟩ := hrun
    obtain rfl := Prog.modify_ok.mp hrun
    exact (idup_moves hdup (hk₁.cwdOk cwd hcwd)).2.tables.keepsPipes.trans
      (.of_file ⟨rfl, rfl, rfl⟩ rfl)

theorem exitFiles_pipesOk {fds : List (Fin NOFILE)} {r : Unit} (hp : PipesOk s log)
    (hrun : (exitFiles fds).run s = .ok (r, s')) : PipesOk s' log := by
  induction fds generalizing s with
  | nil =>
      obtain ⟨-, rfl⟩ := Prog.pure_ok.mp hrun
      exact hp
  | cons fd rest ih =>
      rw [exitFiles, myproc_bind_run] at hrun
      split at hrun
      · exact ih hp hrun
      · rw [Prog.bind_ok] at hrun
        obtain ⟨_, s₁, hclose, hrun⟩ := hrun
        rw [Prog.bind_ok] at hrun
        obtain ⟨_, s₂, hclear, hrun⟩ := hrun
        exact ih ((fileclose_pipesOk hp hclose).keep (clearFd_keepsPipes hclear)) hrun

theorem exit_pipesOk {r : Unit} (hp : PipesOk s log) (hrun : exit.run s = .ok (r, s')) :
    PipesOk s' log := by
  rw [exit, Prog.bind_ok] at hrun
  obtain ⟨_, s₁, hfiles, hrun⟩ := hrun
  have hp₁ := exitFiles_pipesOk hp hfiles
  rw [myproc_bind_run] at hrun
  split at hrun
  · simp at hrun
  · rw [Prog.bind_ok] at hrun
    obtain ⟨_, s₂, hput, hrun⟩ := hrun
    obtain rfl := setProc_ok.mp hrun
    exact (hp₁.keep (iput_moves hput).tables.keepsPipes).keep (.of_file ⟨rfl, rfl, rfl⟩ rfl)

/-! ## Reading and writing -/

/-- The pipe and the buffer a call passes to `write`, if it writes to the write
end of a pipe. -/
def passed (s : Kernel) : Call → Option (Nat × Str)
  | .write u =>
    match writeArgs s u with
    | none => none
    | some (f, src) =>
      if (s.file f).type = .pipe ∧ (s.file f).writable ≠ 0 then
        (s.file f).pipe.map fun p => (p, src)
      else none
  | _ => none

/-- The pipe a call reads from and the bytes it gets. -/
def received (s : Kernel) : Call → Option (Nat × Str)
  | .read u =>
    match readArgs s u with
    | none => none
    | some (f, n) =>
      match (s.file f).type, (s.file f).pipe, (fileread f n).run s with
      | .pipe, some p, .ok ((_, bytes), _) => some (p, bytes)
      | _, _, _ => none
  | _ => none

/-- More bytes for a pipe. -/
def note (m : Nat → Str) : Option (Nat × Str) → Nat → Str
  | none => m
  | some (p, bytes) => Function.update m p (m p ++ bytes)

/-- The log after a call made in the state `s`. -/
def Log.after (log : Log) (s : Kernel) (call : Call) : Log :=
  ⟨note log.put (passed s call), note log.got (received s call)⟩

theorem note_self (m : Nat → Str) (p : Nat) (bytes : Str) :
    note m (some (p, bytes)) p = m p ++ bytes := Function.update_self ..

theorem note_of_ne {m : Nat → Str} {p p' : Nat} {bytes : Str} (hne : p' ≠ p) :
    note m (some (p, bytes)) p' = m p' := Function.update_of_ne hne ..

theorem note_nil (m : Nat → Str) (p : Nat) : note m (some (p, [])) = m := by
  simp [note]

/-- Bytes were taken off the front of a pipe. -/
theorem PipesOk.took {p : Nat} {q : Pipe} {got : Str} (hp : PipesOk s log)
    (hend : IsReadEnd s f p) (hends : SameEnds (s.pipe p) q)
    (htake : ∀ bytes, Holds (s.pipe p) bytes → ∃ rest, bytes = got ++ rest ∧ Holds q rest) :
    PipesOk (Fs.withPipe s p q) ⟨log.put, note log.got (some (p, got))⟩ := by
  have hlt := hp.known f p hend.1
  obtain ⟨bytes, hput, hholds⟩ := (hp.flows p hlt).held (hp.reading f p hend)
  obtain ⟨rest, rfl, hrest⟩ := htake bytes hholds
  rw [← List.append_assoc] at hput
  have hflows : Flows q (log.put p) (note log.got (some (p, got)) p) := by
    rw [note_self]
    exact ⟨⟨rest, hput.symm⟩, fun _ => ⟨rest, hput, hrest⟩⟩
  refine hp.withPipe hlt (fun g hg => ?_) hflows fun p' hne => ⟨rfl, note_of_ne hne⟩
  rw [hends.readopen]
  exact hp.reading g p hg

/-- Bytes were put behind those in a pipe, if somebody may read them. -/
theorem PipesOk.gave {p : Nat} {q : Pipe} {src : Str} (hp : PipesOk s log) (hend : IsEnd s f p)
    (hends : SameEnds (s.pipe p) q)
    (hgive : ∀ bytes, Holds (s.pipe p) bytes → (s.pipe p).readopen = true → s.killed = false →
      Holds q (bytes ++ src)) :
    PipesOk (Fs.withPipe s p q) ⟨note log.put (some (p, src)), log.got⟩ := by
  have hlt := hp.known f p hend
  obtain ⟨hread, hheld⟩ := hp.flows p hlt
  have hflows : Flows q (note log.put (some (p, src)) p) (log.got p) := by
    rw [note_self]
    refine ⟨hread.trans (List.prefix_append ..), fun hopen => ?_⟩
    rw [hends.readopen] at hopen
    obtain ⟨bytes, hput, hholds⟩ := hheld hopen
    refine ⟨bytes ++ src, ?_, hgive bytes hholds hopen hp.living⟩
    rw [hput, List.append_assoc]
  refine hp.withPipe hlt (fun g hg => ?_) hflows fun p' hne => ⟨note_of_ne hne, rfl⟩
  rw [hends.readopen]
  exact hp.reading g p hg

theorem sys_read_pipesOk (hp : PipesOk s log) {r : Int × Str}
    (hrun : (sys_read u).run s = .ok (r, s')) : PipesOk s' (log.after s (.read u)) := by
  show PipesOk s' ⟨log.put, note log.got (received s (.read u))⟩
  rcases sys_read_cases hrun with ⟨hargs, -, rfl⟩ | ⟨f, n, hargs, hread⟩
  · have hnone : received s' (.read u) = none := by simp only [received, hargs]
    rw [hnone]
    exact hp
  by_cases htype : (s.file f).type = .pipe
  · cases hpipe : (s.file f).pipe with
    | none =>
        rw [fileread, fileAt_bind_run, htype, hpipe] at hread
        have hnone : received s (.read u) = none := by simp only [received, hargs, htype, hpipe]
        rw [hnone]
        split at hread
        · obtain ⟨-, rfl⟩ := Prog.pure_ok.mp hread
          exact hp
        · simp at hread
    | some p =>
        have hsome : received s (.read u) = some (p, r.2) := by
          simp only [received, hargs, htype, hpipe, hread]
        rw [hsome]
        rw [fileread, fileAt_bind_run, htype, hpipe] at hread
        split at hread
        · obtain ⟨rfl, rfl⟩ := Prog.pure_ok.mp hread
          rw [note_nil]
          exact hp
        · rename_i hreadable
          obtain ⟨q', rfl, hends, htake⟩ := piperead_ok hread
          exact hp.took ⟨⟨htype, hpipe⟩, hp.sides f htype (by simpa using hreadable)⟩ hends htake
  · have hnone : received s (.read u) = none := by
      simp only [received, hargs]
      split
      · rename_i heq _ _
        exact absurd heq htype
      · rfl
    rw [hnone]
    exact hp.keep ((fileread_quietOn hread).keepsPipes htype)

theorem sys_write_pipesOk (hp : PipesOk s log) {r : Int}
    (hrun : (sys_write u).run s = .ok (r, s')) : PipesOk s' (log.after s (.write u)) := by
  show PipesOk s' ⟨note log.put (passed s (.write u)), log.got⟩
  rcases sys_write_cases hrun with ⟨hargs, -, rfl⟩ | ⟨f, src, hargs, hwrite⟩
  · have hnone : passed s' (.write u) = none := by simp only [passed, hargs]
    rw [hnone]
    exact hp
  have hpassed : passed s (.write u) =
      if (s.file f).type = .pipe ∧ (s.file f).writable ≠ 0 then
        (s.file f).pipe.map fun p => (p, src)
      else none := by
    simp only [passed, hargs]
  rw [hpassed]
  by_cases htype : (s.file f).type = .pipe
  · rw [filewrite, fileAt_bind_run] at hwrite
    split at hwrite
    · rename_i hwritable
      obtain ⟨-, rfl⟩ := Prog.pure_ok.mp hwrite
      rw [if_neg (fun h => h.2 hwritable)]
      exact hp
    · rename_i hwritable
      rw [if_pos ⟨htype, hwritable⟩]
      rw [htype] at hwrite
      simp only at hwrite
      split at hwrite
      · simp at hwrite
      · rename_i p hpipe
        obtain ⟨q', rfl, hends, hgive⟩ := pipewriteLoop_ok hwrite
        rw [hpipe]
        exact hp.gave ⟨htype, hpipe⟩ hends hgive
  · rw [if_neg fun h => htype h.1]
    exact hp.keep (((write_seek_quietOn _ 2).1 hwrite).keepsPipes htype)

/-! ## All calls but one -/

theorem call_pipesOk {call : Call} {r : Unit} (hk : Kept P s 0) (hp : PipesOk s log)
    (hseek : ∀ u, call ≠ .lseek u) (hrun : call.code.run s = .ok (r, s')) :
    PipesOk s' (log.after s call) := by
  cases call with
  | «open» above u =>
      obtain ⟨a, hrun⟩ := ignore_ok.mp hrun
      exact hp.keep (sys_open_keepsPipes hk hrun)
  | close u =>
      obtain ⟨a, hrun⟩ := ignore_ok.mp hrun
      exact sys_close_pipesOk hp hrun
  | dup u =>
      obtain ⟨a, hrun⟩ := ignore_ok.mp hrun
      exact hp.keep (sys_dup_keepsPipes hrun)
  | read u =>
      obtain ⟨a, hrun⟩ := ignore_ok.mp hrun
      exact sys_read_pipesOk hp hrun
  | write u =>
      obtain ⟨a, hrun⟩ := ignore_ok.mp hrun
      exact sys_write_pipesOk hp hrun
  | fstat u =>
      obtain ⟨a, hrun⟩ := ignore_ok.mp hrun
      exact hp.keep (sys_fstat_keepsPipes hrun)
  | lseek u => exact absurd rfl (hseek u)
  | pipe u =>
      obtain ⟨a, hrun⟩ := ignore_ok.mp hrun
      exact sys_pipe_pipesOk hp hrun
  | link u =>
      obtain ⟨a, hrun⟩ := ignore_ok.mp hrun
      exact hp.keep (sys_link_moves hk.cwdOk hrun).tables.keepsPipes
  | unlink u =>
      obtain ⟨a, hrun⟩ := ignore_ok.mp hrun
      exact hp.keep (sys_unlink_moves hk.cache hk.cwdOk hrun).tables.keepsPipes
  | mkdir u =>
      obtain ⟨a, hrun⟩ := ignore_ok.mp hrun
      exact hp.keep (sys_mkdir_moves hk.cache hk.cwdOk hrun).tables.keepsPipes
  | mknod u =>
      obtain ⟨a, hrun⟩ := ignore_ok.mp hrun
      exact hp.keep (sys_mknod_moves hk.cache hk.cwdOk hrun).tables.keepsPipes
  | symlink u =>
      obtain ⟨a, hrun⟩ := ignore_ok.mp hrun
      exact hp.keep (sys_symlink_moves hk.cache hk.cwdOk hrun).tables.keepsPipes
  | chdir u =>
      obtain ⟨a, hrun⟩ := ignore_ok.mp hrun
      exact hp.keep (sys_chdir_keepsPipes hk hrun)
  | exec above u reads => exact hp.keep (execAll_keepsPipes hk hrun)
  | fork np => exact hp.keep (fork_keepsPipes hk hrun)
  | exit => exact exit_pipesOk hp hrun
  | switch p =>
      obtain rfl := Prog.modify_ok.mp hrun
      exact hp.keep (.of_file ⟨rfl, rfl, rfl⟩ rfl)

end Fs
end CS444
