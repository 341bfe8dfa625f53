/-
Reference counts with threads: every call of `xv6-kthreads` leaves them exact.

`fork` and `kthread_create` copy all descriptors and the directory of the caller
into an empty slot, `exit` and `kthread_exit` give up all of theirs, and the
reapers `wait` and `kthread_join` find empty slots only, so they may leave the
descriptors alone.  `counts_exact` is the result.
-/
import CS444.Fs.Counts
import CS444.Fs.ThreadFiles

namespace CS444
namespace Fs

open Program Ledger

variable {s s₁ s' : Kernel} {d : FileSlot → Int} {e : Slot → Int} {raw : FileSlot → Prop}
  {f : FileSlot} {ip : Slot} {p np : ProcSlot} {fd : Fin NOFILE} {u : User}

/-! ## Descriptors -/

theorem argfd_ofile {n : Nat} (hrun : (argfd u n).run s = .ok (some (fd, f), s')) :
    (s.proc s.cur).ofile fd = some f := by
  rw [argfd, myproc_bind_run] at hrun
  split at hrun
  · simp at hrun
  · split at hrun
    · obtain ⟨heq, -⟩ := Prog.pure_ok.mp hrun
      obtain ⟨f', hf, heq⟩ := Option.map_eq_some_iff.mp heq
      obtain ⟨rfl, rfl⟩ := Prod.mk.inj heq
      exact hf
    · simp at hrun

theorem Settled.of_exact (hx : Exact s d e raw) (hd : ∀ f, d f = 0) (he : ∀ k, e k = 0)
    (hraw : ∀ f, ¬ raw f) : Settled s :=
  hx.of_eq (fun f => (hd f).symm) (fun k => (he k).symm) fun f h => hraw f h

theorem sys_dup_settled {r : Int} (hx : Settled s) (hrun : (sys_dup u).run s = .ok (r, s')) :
    Settled s' ∧ OwnSlot s s' := by
  rw [sys_dup, Prog.bind_ok] at hrun
  obtain ⟨x, s₁, hfd, hrun⟩ := hrun
  obtain rfl := argfd_same hfd
  cases x with
  | none =>
      obtain ⟨-, rfl⟩ := Prog.pure_ok.mp hrun
      exact ⟨hx, .refl _⟩
  | some x =>
      simp only at hrun
      rw [Prog.bind_ok] at hrun
      obtain ⟨fd, s₂, halloc, hrun⟩ := hrun
      cases fd with
      | none =>
          obtain ⟨-, rfl⟩ := Prog.pure_ok.mp hrun
          obtain rfl := fdalloc_full halloc
          exact ⟨hx, .refl _⟩
      | some fd =>
          simp only at hrun
          rw [Prog.bind_ok] at hrun
          obtain ⟨_, s₃, hdup, hrun⟩ := hrun
          obtain ⟨-, rfl⟩ := Prog.pure_ok.mp hrun
          obtain ⟨hx₂, hown₂, -, -⟩ := fdalloc_exact hx halloc
          obtain ⟨-, hx₃, hown₃, -⟩ := filedup_exact hx₂ hdup
          exact ⟨.of_exact hx₃ (fun f => by simp) (fun _ => rfl) fun _ => id, hown₂.trans hown₃⟩

theorem sys_close_settled {r : Int} (hx : Settled s) (hrun : (sys_close u).run s = .ok (r, s')) :
    Settled s' ∧ OwnSlot s s' := by
  rw [sys_close, Prog.bind_ok] at hrun
  obtain ⟨x, s₁, hfd, hrun⟩ := hrun
  obtain rfl := argfd_same hfd
  cases x with
  | none =>
      obtain ⟨-, rfl⟩ := Prog.pure_ok.mp hrun
      exact ⟨hx, .refl _⟩
  | some x =>
      obtain ⟨fd, f⟩ := x
      simp only at hrun
      rw [Prog.bind_ok] at hrun
      obtain ⟨_, s₂, hclear, hrun⟩ := hrun
      rw [Prog.bind_ok] at hrun
      obtain ⟨_, s₃, hclose, hrun⟩ := hrun
      obtain ⟨-, rfl⟩ := Prog.pure_ok.mp hrun
      obtain ⟨hx₂, hown₂, -⟩ := clearFd_exact hx (argfd_ofile hfd) hclear
      obtain ⟨hx₃, hown₃, -⟩ := fileclose_exact hx₂ (fun _ => le_rfl) hclose
      exact ⟨.of_exact hx₃ (fun f => by simp) (fun _ => rfl) fun _ h => h.1, hown₂.trans hown₃⟩

/-! ## `sys_open` -/

theorem iunlockput_exact {u : Unit} (hx : Exact s d (fun k => e k + one ip k) raw)
    (he : ∀ k, 0 ≤ e k) (hrun : (iunlockput ip).run s = .ok (u, s')) : Exact s' d e raw := by
  have hm := iunlockput_moves hrun
  refine (hx.moves hm fun k => ?_).of_eq (fun _ => rfl) (fun k => ?_) fun _ => id
  · have := hx.inodes k
    have := he k
    omega
  · simp

/-- An open file on `ip` takes over the code's reference to it. -/
theorem Exact.opened {file : File} (hx : Exact s d (fun k => e k + one ip k) fun f' => f' = f)
    (hnone : (s.file f).type = .none) (href : (s.file f).ref = 1) (htype : file.type = .inode)
    (hip : file.ip = some ip) (hcount : file.ref = 1) :
    Exact (Fs.withFile s f file) d e fun _ => False := by
  refine (hx.withFile f _ (fun _ => False) (fun h => ?_) (fun h => ?_)
    fun f' hf heq => hf heq).of_eq (fun f' => ?_) (fun k => ?_) fun _ => id
  · omega
  · rw [htype] at h
    exact absurd h (by simp)
  · rw [href, hcount]
    simp
  · rw [inodeOf_of_ne (by simp [hnone]), inodeOf_of_inode htype, hip]
    simp [ofOption]

theorem Threads.openFile_settled {omode : Nat} {r : Int}
    (hx : Exact s 0 (fun k => (one ip k : Int)) fun _ => False)
    (hrun : (Threads.openFile omode ip).run s = .ok (r, s')) : Settled s' ∧ OwnSlot s s' := by
  have hone : Exact s 0 (fun k => (0 : Slot → Int) k + one ip k) fun _ => False :=
    hx.of_eq (fun _ => rfl) (fun k => by simp) fun _ => id
  rw [Threads.openFile, Prog.bind_ok] at hrun
  obtain ⟨rf, s₁, halloc, hrun⟩ := hrun
  cases rf with
  | none =>
      have hsame : s₁ = s := by
        rcases filealloc_cases halloc with ⟨-, rfl⟩ | ⟨f, heq, -⟩
        · rfl
        · exact absurd heq (by simp)
      subst hsame
      simp only at hrun
      rw [Prog.bind_ok] at hrun
      obtain ⟨_, s₂, hput, hrun⟩ := hrun
      obtain ⟨-, rfl⟩ := Prog.pure_ok.mp hrun
      exact ⟨iunlockput_exact hone (fun _ => le_rfl) hput, (iunlockput_moves hput).ownSlot⟩
  | some f =>
      obtain ⟨hx₁, hown₁, href₁, hnone₁⟩ := filealloc_exact hone halloc
      simp only at hrun
      rw [Prog.bind_ok] at hrun
      obtain ⟨rfd, s₂, hfd, hrun⟩ := hrun
      cases rfd with
      | none =>
          obtain rfl := fdalloc_full hfd
          simp only at hrun
          rw [Prog.bind_ok] at hrun
          obtain ⟨_, s₃, hclose, hrun⟩ := hrun
          rw [Prog.bind_ok] at hrun
          obtain ⟨_, s₄, hput, hrun⟩ := hrun
          obtain ⟨-, rfl⟩ := Prog.pure_ok.mp hrun
          obtain ⟨hx₃, hown₃, -⟩ := fileclose_exact hx₁ (fun k => by simp) hclose
          have hx₄ := iunlockput_exact hx₃ (fun _ => le_rfl) hput
          refine ⟨.of_exact hx₄ (fun f' => by simp) (fun _ => rfl) ?_,
            (hown₁.trans hown₃).trans (iunlockput_moves hput).ownSlot⟩
          rintro f' ⟨hraw, hne⟩
          exact hne href₁ (hraw.resolve_right id)
      | some fd =>
          obtain ⟨hx₂, hown₂, hfile₂, -⟩ := fdalloc_exact hx₁ hfd
          simp only at hrun
          rw [Prog.bind_ok] at hrun
          obtain ⟨_, s₃, hunlock, hrun⟩ := hrun
          rw [setFile_bind_run] at hrun
          obtain ⟨rfl, rfl⟩ := Prog.pure_ok.mp hrun
          have hm := (iunlock_keys hunlock).moves 0
          have hx₃ : Exact s₃ 0 (fun k => (0 : Slot → Int) k + one ip k) fun f' => f' = f :=
            (hx₂.takes hm).of_eq (fun f' => by simp) (fun k => by simp)
              fun f' h => h.resolve_right id
          have hfile₃ : s₃.file = s₁.file := hm.tables.file.trans hfile₂
          refine ⟨hx₃.opened ?_ ?_ rfl rfl ?_, ?_⟩
          · rw [hfile₃, hnone₁]
          · rw [hfile₃, href₁]
          · show (s₃.file f).ref = 1
            rw [hfile₃, href₁]
          · exact ((hown₁.trans hown₂).trans hm.ownSlot).trans (.of_eq rfl rfl)

theorem Threads.sys_open_settled {r : Int} (hx : Settled s)
    (hrun : (Threads.sys_open u).run s = .ok (r, s')) : Settled s' ∧ OwnSlot s s' := by
  rw [Threads.sys_open] at hrun
  split at hrun
  · rename_i path omode hpath homode
    rw [Prog.bind_ok] at hrun
    obtain ⟨found, s₁, hinode, hrun⟩ := hrun
    have hm := Plain.openInode_step Plain.inodeSteps_moves hinode (hx.cwdOk fun _ => le_rfl)
    have hx₁ := hx.takes hm
    cases found with
    | none =>
        obtain ⟨-, rfl⟩ := Prog.pure_ok.mp hrun
        exact ⟨.of_exact hx₁ (fun _ => rfl) (fun k => by simp [ofOption]) fun _ => id, hm.ownSlot⟩
    | some ip =>
        simp only at hrun
        obtain ⟨hx', hown⟩ := openFile_settled
          (hx₁.of_eq (fun _ => rfl) (fun k => by simp [ofOption]) fun _ => id) hrun
        exact ⟨hx', hm.ownSlot.trans hown⟩
  · obtain ⟨-, rfl⟩ := Prog.pure_ok.mp hrun
    exact ⟨hx, .refl _⟩

/-! ## `sys_pipe` -/

/-- A new file becomes one end of a pipe. -/
theorem Exact.piped (hx : Exact s d e raw) (file : File) (hnone : (s.file f).type = .none)
    (hpos : (s.file f).ref = 1) (htype : file.type = .pipe) (href : file.ref = (s.file f).ref) :
    Exact (Fs.withFile s f file) d e fun f' => raw f' ∧ f' ≠ f := by
  refine (hx.withFile f _ (fun f' => raw f' ∧ f' ≠ f) (fun h => ?_) (fun h => ?_)
    fun f' hf hraw => ⟨hraw, hf⟩).of_eq (fun f' => ?_) (fun k => ?_) fun _ => id
  · omega
  · rw [htype] at h
    exact absurd h (by simp)
  · rw [href]
    simp
  · rw [inodeOf_of_ne (by simp [hnone]), inodeOf_of_ne (by simp [htype])]
    simp

/-- Two new files are the ends of the pipe; they are in the hands of the code. -/
theorem pipealloc_exact {r : Option (FileSlot × FileSlot)} (hx : Settled s)
    (hrun : pipealloc.run s = .ok (r, s')) : OwnSlot s s' ∧ (r = none → Settled s') ∧
      ∀ f0 f1, r = some (f0, f1) →
        Exact s' (fun f => one f0 f + one f1 f) 0 fun _ => False := by
  rw [pipealloc, Prog.bind_ok] at hrun
  obtain ⟨r0, s₁, halloc, hrun⟩ := hrun
  cases r0 with
  | none =>
      obtain ⟨rfl, rfl⟩ := Prog.pure_ok.mp hrun
      rcases filealloc_cases halloc with ⟨-, rfl⟩ | ⟨f, heq, -⟩
      · exact ⟨.refl _, fun _ => hx, by simp⟩
      · exact absurd heq (by simp)
  | some f0 =>
      obtain ⟨hx₁, hown₁, href₁, hnone₁⟩ := filealloc_exact hx halloc
      simp only at hrun
      rw [Prog.bind_ok] at hrun
      obtain ⟨r1, s₂, halloc₁, hrun⟩ := hrun
      cases r1 with
      | none =>
          have hsame : s₂ = s₁ := by
            rcases filealloc_cases halloc₁ with ⟨-, rfl⟩ | ⟨f, heq, -⟩
            · rfl
            · exact absurd heq (by simp)
          subst hsame
          simp only at hrun
          rw [Prog.bind_ok] at hrun
          obtain ⟨_, s₃, hclose, hrun⟩ := hrun
          obtain ⟨rfl, rfl⟩ := Prog.pure_ok.mp hrun
          obtain ⟨hx₃, hown₃, -⟩ := fileclose_exact hx₁ (fun _ => le_rfl) hclose
          refine ⟨hown₁.trans hown₃, fun _ => .of_exact hx₃ (fun f => by simp) (fun _ => rfl) ?_,
            by simp⟩
          rintro f ⟨hraw, hne⟩
          exact hne href₁ (hraw.resolve_right id)
      | some f1 =>
          obtain ⟨hx₂, hown₂, href₂, hnone₂⟩ := filealloc_exact hx₁ halloc₁
          have hne : f0 ≠ f1 := by
            rintro rfl
            rcases filealloc_cases halloc₁ with ⟨heq, -⟩ | ⟨f, heq, hfree, -⟩
            · exact absurd heq (by simp)
            · obtain rfl := Option.some.inj heq
              omega
          have hfile₂ : s₂.file f0 = s₁.file f0 := by
            rcases filealloc_cases halloc₁ with ⟨heq, -⟩ | ⟨f, heq, -, rfl⟩
            · exact absurd heq (by simp)
            · obtain rfl := Option.some.inj heq
              exact withFile_of_ne hne _
          simp only at hrun
          rw [Prog.bind_ok] at hrun
          obtain ⟨page, s₃, hpage, hrun⟩ := hrun
          have hm := (kalloc_keys hpage).moves 0
          have hx₃ : Exact s₃ (fun f => one f0 f + one f1 f) 0 fun f => f = f1 ∨ f = f0 :=
            (hx₂.takes hm).of_eq (fun f => by simp) (fun k => by simp)
              fun f h => h.imp_right fun h => h.resolve_right id
          have hown₃ := (hown₁.trans hown₂).trans hm.ownSlot
          have hf0 : s₃.file f0 = s₁.file f0 := by rw [hm.tables.file, hfile₂]
          have hf1 : s₃.file f1 = s₂.file f1 := by rw [hm.tables.file]
          split at hrun
          · rw [Prog.get_bind_run] at hrun
            simp only [Prog.modify_bind_run, setPipe_bind_run, setFile_bind_run] at hrun
            obtain ⟨rfl, rfl⟩ := Prog.pure_ok.mp hrun
            refine ⟨hown₃.trans (.of_eq rfl rfl), by simp, ?_⟩
            rintro _ _ ⟨⟩
            have hx₄ : Exact (withPipe { s₃ with nextpipe := s₃.nextpipe + 1 } s₃.nextpipe
                { s₃.pipe s₃.nextpipe with
                  nread := 0, nwrite := 0, readopen := true, writeopen := true }) _ _ _ :=
              hx₃.quiet rfl rfl rfl rfl
            have hx₅ := hx₄.piped (f := f0)
              { s₃.file f0 with
                type := .pipe, readable := true, writable := 0, pipe := some s₃.nextpipe }
              (by show (s₃.file f0).type = _; rw [hf0, hnone₁])
              (by show (s₃.file f0).ref = _; rw [hf0, href₁]) rfl rfl
            refine (hx₅.piped (f := f1) _ ?_ ?_ ?_ ?_).of_eq (fun _ => rfl) (fun _ => rfl) ?_
            · rw [withFile_of_ne hne.symm]
              show (s₃.file f1).type = _
              rw [hf1, hnone₂]
            · rw [withFile_of_ne hne.symm]
              show (s₃.file f1).ref = _
              rw [hf1, href₂]
            · rfl
            · rfl
            · rintro f ⟨⟨hraw, hf0'⟩, hf1'⟩
              exact hraw.elim hf1' hf0'
          · rw [Prog.bind_ok] at hrun
            obtain ⟨_, s₄, hclose, hrun⟩ := hrun
            rw [Prog.bind_ok] at hrun
            obtain ⟨_, s₅, hclose₅, hrun⟩ := hrun
            obtain ⟨rfl, rfl⟩ := Prog.pure_ok.mp hrun
            obtain ⟨hx₄, hown₄, -, hfile₄⟩ := fileclose_exact hx₃ (fun _ => le_rfl) hclose
            obtain ⟨hx₅, hown₅, -⟩ := fileclose_exact hx₄ (fun _ => le_rfl) hclose₅
            refine ⟨(hown₃.trans hown₄).trans hown₅, fun _ => .of_exact hx₅ (fun f => by simp)
              (fun _ => rfl) ?_, by simp⟩
            rintro f ⟨⟨hraw, hne₀⟩, hne₁⟩
            rw [hfile₄ f1 hne.symm, hf1, href₂] at hne₁
            rw [hf0, href₁] at hne₀
            exact hraw.elim (hne₁ rfl) (hne₀ rfl)

theorem sys_pipe_settled {r : Option (Fin NOFILE × Fin NOFILE)} (hx : Settled s)
    (hrun : (sys_pipe u).run s = .ok (r, s')) : Settled s' ∧ OwnSlot s s' := by
  rw [sys_pipe] at hrun
  split at hrun
  · obtain ⟨-, rfl⟩ := Prog.pure_ok.mp hrun
    exact ⟨hx, .refl _⟩
  rw [Prog.bind_ok] at hrun
  obtain ⟨ends, s₁, halloc, hrun⟩ := hrun
  obtain ⟨hown₁, hfail, hends⟩ := pipealloc_exact hx halloc
  cases ends with
  | none =>
      obtain ⟨-, rfl⟩ := Prog.pure_ok.mp hrun
      exact ⟨hfail rfl, hown₁⟩
  | some ends =>
      obtain ⟨rf, wf⟩ := ends
      have hx₁ := hends rf wf rfl
      -- both ends in the hands of the code are closed again
      have hboth {s₂ s₃ s₄ : Kernel} {u₁ u₂ : Unit}
          (hx₂ : Exact s₂ (fun f => one rf f + one wf f) 0 fun _ => False)
          (hclose : (fileclose rf).run s₂ = .ok (u₁, s₃))
          (hclose' : (fileclose wf).run s₃ = .ok (u₂, s₄)) : Settled s₄ ∧ OwnSlot s₂ s₄ := by
        obtain ⟨hx₃, hown₃, -⟩ := fileclose_exact hx₂ (fun _ => le_rfl) hclose
        obtain ⟨hx₄, hown₄, -⟩ := fileclose_exact hx₃ (fun _ => le_rfl) hclose'
        exact ⟨.of_exact hx₄ (fun f => by simp) (fun _ => rfl) fun _ h => h.1.1,
          hown₃.trans hown₄⟩
      simp only at hrun
      rw [Prog.bind_ok] at hrun
      obtain ⟨fd0, s₂, halloc₂, hrun⟩ := hrun
      cases fd0 with
      | none =>
          obtain rfl := fdalloc_full halloc₂
          simp only at hrun
          rw [Prog.bind_ok] at hrun
          obtain ⟨_, s₃, hclose, hrun⟩ := hrun
          rw [Prog.bind_ok] at hrun
          obtain ⟨_, s₄, hclose₄, hrun⟩ := hrun
          obtain ⟨-, rfl⟩ := Prog.pure_ok.mp hrun
          obtain ⟨hx', hown⟩ := hboth hx₁ hclose hclose₄
          exact ⟨hx', hown₁.trans hown⟩
      | some fd0 =>
          obtain ⟨hx₂, hown₂, -, hfd0⟩ := fdalloc_exact hx₁ halloc₂
          simp only at hrun
          rw [Prog.bind_ok] at hrun
          obtain ⟨fd1, s₃, halloc₃, hrun⟩ := hrun
          cases fd1 with
          | none =>
              obtain rfl := fdalloc_full halloc₃
              simp only at hrun
              rw [Prog.bind_ok] at hrun
              obtain ⟨_, s₄, hclear, hrun⟩ := hrun
              rw [Prog.bind_ok] at hrun
              obtain ⟨_, s₅, hclose, hrun⟩ := hrun
              rw [Prog.bind_ok] at hrun
              obtain ⟨_, s₆, hclose₆, hrun⟩ := hrun
              obtain ⟨-, rfl⟩ := Prog.pure_ok.mp hrun
              obtain ⟨hx₄, hown₄, -⟩ := clearFd_exact hx₂ hfd0 hclear
              obtain ⟨hx', hown⟩ := hboth (hx₄.of_eq (fun f => by omega) (fun _ => rfl) fun _ => id)
                hclose hclose₆
              exact ⟨hx', ((hown₁.trans hown₂).trans hown₄).trans hown⟩
          | some fd1 =>
              obtain ⟨-, rfl⟩ := Prog.pure_ok.mp hrun
              obtain ⟨hx₃, hown₃, -⟩ := fdalloc_exact hx₂ halloc₃
              exact ⟨.of_exact hx₃ (fun f => by simp) (fun _ => rfl) fun _ => id,
                (hown₁.trans hown₂).trans hown₃⟩

/-! ## `fork` and `exit` -/

/-- Only the slot `np` changed. -/
structure OnlySlot (np : ProcSlot) (s s' : Kernel) : Prop where
  cur : s'.cur = s.cur
  others : ∀ p, p ≠ np → s'.proc p = s.proc p

theorem OnlySlot.refl (np : ProcSlot) (s : Kernel) : OnlySlot np s s := ⟨rfl, fun _ _ => rfl⟩

theorem OnlySlot.trans (hab : OnlySlot np s s₁) (hbc : OnlySlot np s₁ s') : OnlySlot np s s' :=
  ⟨hbc.cur.trans hab.cur, fun p hp => (hbc.others p hp).trans (hab.others p hp)⟩

theorem onlySlot_withProcAt (r : Proc) : OnlySlot np s (withProcAt s np r) :=
  ⟨rfl, fun _ hp => Function.update_of_ne hp ..⟩

/-- Copying the descriptors `fds` into a slot that has none of them. -/
theorem forkFiles_exact {fds : List (Fin NOFILE)} {r : Unit} (hx : Settled s) (hnp : np ≠ s.cur)
    (hnodup : fds.Nodup) (hempty : ∀ fd ∈ fds, (s.proc np).ofile fd = none)
    (hrun : (forkFiles np fds).run s = .ok (r, s')) :
    Settled s' ∧ OnlySlot np s s' ∧ (s'.proc np).cwd = (s.proc np).cwd := by
  induction fds generalizing s with
  | nil =>
      obtain ⟨-, rfl⟩ := Prog.pure_ok.mp hrun
      exact ⟨hx, .refl _ _, rfl⟩
  | cons fd rest ih =>
      obtain ⟨hnot, hrest⟩ := List.nodup_cons.mp hnodup
      rw [forkFiles, myproc_bind_run] at hrun
      split at hrun
      · exact ih hx hnp hrest (fun fd' h => hempty fd' (List.mem_cons_of_mem _ h)) hrun
      · rename_i f hfd
        rw [Prog.bind_ok] at hrun
        obtain ⟨f', s₁, hdup, hrun⟩ := hrun
        obtain ⟨rfl, hx₁, hown₁, hproc₁⟩ := filedup_exact hx hdup
        rw [Prog.modify_bind_run] at hrun
        have hx₂ : Settled (withProcAt s₁ np { s₁.proc np with
            ofile := Function.update (s₁.proc np).ofile fd (some f') }) := by
          refine .of_exact (hx₁.withFd (p := np) (some f') fd) (fun g => ?_) (fun _ => rfl)
            fun _ => id
          rw [hproc₁, hempty fd (List.mem_cons_self ..)]
          simp [ofOption]
        have hcur : np ≠ (withProcAt s₁ np { s₁.proc np with
            ofile := Function.update (s₁.proc np).ofile fd (some f') }).cur := by
          show np ≠ s₁.cur
          rwa [hown₁.cur]
        have hempty' : ∀ fd' ∈ rest, ((withProcAt s₁ np { s₁.proc np with
            ofile := Function.update (s₁.proc np).ofile fd (some f') }).proc np).ofile fd' =
              none := by
          intro fd' h
          have hne : fd' ≠ fd := fun heq => hnot (heq ▸ h)
          show (Function.update s₁.proc np _ np).ofile fd' = none
          rw [Function.update_self]
          show Function.update (s₁.proc np).ofile fd _ fd' = none
          rw [Function.update_of_ne hne, hproc₁]
          exact hempty fd' (List.mem_cons_of_mem _ h)
        obtain ⟨hx', honly, hcwd⟩ := ih hx₂ hcur hrest hempty' hrun
        refine ⟨hx', ⟨honly.cur.trans hown₁.cur, fun p hp => ?_⟩, hcwd.trans ?_⟩
        · rw [honly.others p hp]
          show Function.update s₁.proc np _ p = s.proc p
          rw [Function.update_of_ne hp, hproc₁]
        · show (Function.update s₁.proc np _ np).cwd = _
          rw [Function.update_self, hproc₁]

theorem fork_settled {r : Unit} (hx : Settled s) (hnp : np ≠ s.cur)
    (hempty : ∀ fd, (s.proc np).ofile fd = none) (hcwd : (s.proc np).cwd = none)
    (hrun : (fork np).run s = .ok (r, s')) : Settled s' ∧ OnlySlot np s s' := by
  rw [fork, Prog.bind_ok] at hrun
  obtain ⟨_, s₁, hfiles, hrun⟩ := hrun
  obtain ⟨hx₁, honly₁, hcwd₁⟩ := forkFiles_exact hx hnp (List.nodup_finRange _)
    (fun fd _ => hempty fd) hfiles
  rw [myproc_bind_run] at hrun
  split at hrun
  · simp at hrun
  · rename_i cwd hparent
    rw [Prog.bind_ok] at hrun
    obtain ⟨k, s₂, hdup, hrun⟩ := hrun
    obtain ⟨rfl, hm⟩ := idup_moves hdup (hx₁.cwdOk (fun _ => le_rfl) cwd hparent)
    obtain rfl := Prog.modify_ok.mp hrun
    have hx₂ := hx₁.takes hm
    refine ⟨.of_exact (hx₂.withCwd (p := np) (some k)) (fun _ => rfl) (fun j => ?_) fun _ => id,
      honly₁.trans (.trans ⟨hm.tables.cur, fun p _ => by rw [hm.tables.proc]⟩
        (onlySlot_withProcAt _))⟩
    rw [hm.tables.proc, cwdOf, hcwd₁, hcwd]
    simp [ofOption]

/-- `exit` leaves none of the descriptors `fds` open. -/
theorem exitFiles_exact {fds : List (Fin NOFILE)} {r : Unit} (hx : Settled s)
    (hrun : (exitFiles fds).run s = .ok (r, s')) : Settled s' ∧ OwnSlot s s' ∧
      (s'.proc s'.cur).cwd = (s.proc s.cur).cwd ∧
      ∀ fd, (fd ∈ fds ∨ (s.proc s.cur).ofile fd = none) → (s'.proc s'.cur).ofile fd = none := by
  induction fds generalizing s with
  | nil =>
      obtain ⟨-, rfl⟩ := Prog.pure_ok.mp hrun
      exact ⟨hx, .refl _, rfl, fun fd h => h.resolve_left (by simp)⟩
  | cons fd rest ih =>
      rw [exitFiles, myproc_bind_run] at hrun
      split at hrun
      · rename_i hnone
        obtain ⟨hx', hown, hcwd, hclosed⟩ := ih hx hrun
        refine ⟨hx', hown, hcwd, fun fd' h => hclosed fd' ?_⟩
        rcases h with h | h
        · rcases List.mem_cons.mp h with rfl | h
          · exact Or.inr hnone
          · exact Or.inl h
        · exact Or.inr h
      · rename_i f hfd
        rw [Prog.bind_ok] at hrun
        obtain ⟨_, s₁, hclose, hrun⟩ := hrun
        rw [Prog.bind_ok] at hrun
        obtain ⟨_, s₂, hclear, hrun⟩ := hrun
        obtain ⟨hx₁, hown₁, hproc₁, -⟩ := fileclose_exact hx (fun _ => le_rfl) hclose
        have hfd₁ : (s₁.proc s₁.cur).ofile fd = some f := by
          rw [hproc₁, hown₁.cur]
          exact hfd
        obtain ⟨hx₂, hown₂, hs₂⟩ := clearFd_exact hx₁ hfd₁ hclear
        have hproc₂ : s₂.proc s₂.cur = { s.proc s.cur with
            ofile := Function.update (s.proc s.cur).ofile fd none } := by
          rw [hs₂, ← hproc₁, ← hown₁.cur]
          exact Function.update_self ..
        have hset : Settled s₂ :=
          .of_exact hx₂ (fun g => by simp) (fun _ => rfl) fun _ h => h.1
        obtain ⟨hx', hown', hcwd, hclosed⟩ := ih hset hrun
        refine ⟨hx', (hown₁.trans hown₂).trans hown', hcwd.trans (by rw [hproc₂]),
          fun fd' h => hclosed fd' ?_⟩
        rw [hproc₂]
        by_cases hne : fd' = fd
        · subst hne
          exact Or.inr (Function.update_self ..)
        · rcases h with h | h
          · exact Or.inl ((List.mem_cons.mp h).resolve_left hne)
          · refine Or.inr ?_
            show Function.update (s.proc s.cur).ofile fd none fd' = none
            rw [Function.update_of_ne hne]
            exact h

theorem exit_settled {r : Unit} (hx : Settled s) (hrun : exit.run s = .ok (r, s')) :
    Settled s' ∧ OwnSlot s s' ∧ (∀ fd, (s'.proc s'.cur).ofile fd = none) ∧
      (s'.proc s'.cur).cwd = none := by
  rw [exit, Prog.bind_ok] at hrun
  obtain ⟨_, s₁, hfiles, hrun⟩ := hrun
  obtain ⟨hx₁, hown₁, hcwd₁, hclosed₁⟩ := exitFiles_exact hx hfiles
  rw [myproc_bind_run] at hrun
  split at hrun
  · simp at hrun
  · rename_i old hold
    rw [Prog.bind_ok] at hrun
    obtain ⟨_, s₂, hput, hrun⟩ := hrun
    obtain rfl := setProc_ok.mp hrun
    have hm := iput_moves hput
    have hx₂ := hx₁.moves hm fun k => by
      have := hx₁.inodes k
      have := le_holdings cwdOf s₁.proc s₁.cur k
      rw [cwdOf, hold] at this
      simp only [held, Pi.add_apply, Pi.zero_apply, ofOption] at *
      omega
    refine ⟨.of_exact (hx₂.withCwd (p := s₂.cur) none) (fun _ => rfl) (fun k => ?_) fun _ => id,
      (hown₁.trans hm.ownSlot).trans (ownSlot_withProc _), fun fd => ?_, ?_⟩
    · rw [hm.tables.proc, hm.tables.cur, cwdOf, hold]
      simp [ofOption]
    · show (Function.update s₂.proc s₂.cur _ s₂.cur).ofile fd = none
      rw [Function.update_self, hm.tables.proc, hm.tables.cur]
      exact hclosed₁ fd (Or.inl (List.mem_finRange fd))
    · show (Function.update s₂.proc s₂.cur _ s₂.cur).cwd = none
      rw [Function.update_self]

end Fs
end CS444
