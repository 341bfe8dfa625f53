/-
What pipes hold, over whole runs.

`PipesOk s log` is the invariant.  A pipe has at most one open read end; while
that end is open, the bytes written to the pipe are those read from it followed
by those it holds.  A call that neither reads, writes nor closes leaves pipes
and their ends alone, which is `KeepsPipes`; it follows from the frame lemmas of
the tables.  What is read from or written to a pipe is kept in a `Log`.
-/
import CS444.Fs.Calls
import CS444.Fs.Descriptors

namespace CS444
namespace Fs

open Program Ledger RingQueue

/-! ## The invariant -/

/-- `f` is an end of the pipe `p`. -/
def IsEnd (s : Kernel) (f : FileSlot) (p : Nat) : Prop :=
  (s.file f).type = .pipe ∧ (s.file f).pipe = some p

/-- `f` is the end of `p` that `pipeclose` takes for the read end. -/
def IsReadEnd (s : Kernel) (f : FileSlot) (p : Nat) : Prop :=
  IsEnd s f p ∧ (s.file f).writable = 0

/-- The bytes passed to `write` on each pipe, and those `read` returned. -/
structure Log where
  put : Nat → Str
  got : Nat → Str

/-- What was read is a prefix of what was written; as long as somebody may read
the pipe `q`, the rest is in it. -/
structure Flows (q : Pipe) (put got : Str) : Prop where
  read : got <+: put
  held : q.readopen = true → ∃ bytes, put = got ++ bytes ∧ Holds q bytes

structure PipesOk (s : Kernel) (log : Log) : Prop where
  known : ∀ f p, IsEnd s f p → p < s.nextpipe
  sides : ∀ f, (s.file f).type = .pipe → (s.file f).readable = true → (s.file f).writable = 0
  reader : ∀ f g p, IsReadEnd s f p → IsReadEnd s g p → f = g
  reading : ∀ f p, IsReadEnd s f p → (s.pipe p).readopen = true
  living : s.killed = false
  fresh : ∀ p, s.nextpipe ≤ p → log.put p = [] ∧ log.got p = []
  flows : ∀ p, p < s.nextpipe → Flows (s.pipe p) (log.put p) (log.got p)

variable {P : Nat → Int → Prop} {s s₁ s' : Kernel} {log : Log} {f : FileSlot} {p : Nat} {u : User}
  {h : Slot → Nat}

theorem PipesOk.got_prefix (hp : PipesOk s log) (p : Nat) : log.got p <+: log.put p := by
  by_cases hlt : p < s.nextpipe
  · exact (hp.flows p hlt).read
  · rw [(hp.fresh p (by omega)).1, (hp.fresh p (by omega)).2]

/-! ## Code that leaves pipes alone -/

/-- The end of a pipe is still the same end. -/
structure SameEnd (old new : File) : Prop where
  type : old.type = .pipe
  pipe : new.pipe = old.pipe
  readable : new.readable = old.readable
  writable : new.writable = old.writable

/-- Pipes are as they were, and there are no new ends. -/
structure KeepsPipes (s s' : Kernel) : Prop where
  pipes : SamePipes s s'
  ends : ∀ f, (s'.file f).type = .pipe → SameEnd (s.file f) (s'.file f)

theorem KeepsPipes.refl (s : Kernel) : KeepsPipes s s :=
  ⟨.refl s, fun _ htype => ⟨htype, rfl, rfl, rfl⟩⟩

theorem KeepsPipes.trans (hab : KeepsPipes s s₁) (hbc : KeepsPipes s₁ s') : KeepsPipes s s' := by
  refine ⟨hab.pipes.trans hbc.pipes, fun f htype => ?_⟩
  have hlast := hbc.ends f htype
  have hfirst := hab.ends f hlast.type
  exact ⟨hfirst.type, hlast.pipe.trans hfirst.pipe, hlast.readable.trans hfirst.readable,
    hlast.writable.trans hfirst.writable⟩

theorem KeepsPipes.of_file (hp : SamePipes s s') (hfile : s'.file = s.file) :
    KeepsPipes s s' := by
  refine ⟨hp, fun f htype => ?_⟩
  rw [hfile] at htype ⊢
  exact ⟨htype, rfl, rfl, rfl⟩

theorem SameTables.keepsPipes (ht : SameTables s s') : KeepsPipes s s' :=
  .of_file ht.pipes ht.file

theorem QuietOn.keepsPipes (hq : QuietOn f s s') (htype : (s.file f).type ≠ .pipe) :
    KeepsPipes s s' := by
  refine ⟨hq.pipes htype, fun f' htype' => ?_⟩
  rw [hq.file f'] at htype' ⊢
  exact ⟨htype', rfl, rfl, rfl⟩

/-- A change of a file that makes no new end of a pipe. -/
theorem keepsPipes_withFile {file : File}
    (hend : file.type = .pipe → SameEnd (s.file f) file) : KeepsPipes s (withFile s f file) := by
  refine ⟨⟨rfl, rfl, rfl⟩, fun f' htype => ?_⟩
  by_cases hf : f' = f
  · subst hf
    rw [withFile_self] at htype ⊢
    exact hend htype
  · rw [withFile_of_ne hf] at htype ⊢
    exact ⟨htype, rfl, rfl, rfl⟩

theorem KeepsPipes.isEnd (hk : KeepsPipes s s') (hend : IsEnd s' f p) : IsEnd s f p := by
  have hsame := hk.ends f hend.1
  exact ⟨hsame.type, hsame.pipe.symm.trans hend.2⟩

theorem KeepsPipes.isReadEnd (hk : KeepsPipes s s') (hend : IsReadEnd s' f p) :
    IsReadEnd s f p :=
  ⟨hk.isEnd hend.1, (hk.ends f hend.1.1).writable.symm.trans hend.2⟩

theorem PipesOk.keep (hp : PipesOk s log) (hk : KeepsPipes s s') : PipesOk s' log := by
  refine ⟨fun f p hend => ?_, fun f htype hreadable => ?_, fun f g p hf hg => ?_,
    fun f p hend => ?_, ?_, fun p hle => ?_, fun p hlt => ?_⟩
  · rw [hk.pipes.next]
    exact hp.known f p (hk.isEnd hend)
  · have hsame := hk.ends f htype
    rw [hsame.writable]
    exact hp.sides f hsame.type (hsame.readable.symm.trans hreadable)
  · exact hp.reader f g p (hk.isReadEnd hf) (hk.isReadEnd hg)
  · rw [hk.pipes.pipe]
    exact hp.reading f p (hk.isReadEnd hend)
  · rw [hk.pipes.killed]
    exact hp.living
  · exact hp.fresh p (by rwa [hk.pipes.next] at hle)
  · rw [hk.pipes.pipe]
    exact hp.flows p (by rwa [hk.pipes.next] at hlt)

/-- A change of the pipe `p`, and of what is known to go through it. -/
theorem PipesOk.withPipe {q : Pipe} {log' : Log} (hp : PipesOk s log) (hlt : p < s.nextpipe)
    (hread : ∀ f, IsReadEnd s f p → q.readopen = true)
    (hflows : Flows q (log'.put p) (log'.got p))
    (hlog : ∀ p', p' ≠ p → log'.put p' = log.put p' ∧ log'.got p' = log.got p') :
    PipesOk (Fs.withPipe s p q) log' := by
  refine ⟨hp.known, hp.sides, hp.reader, fun f p' hend => ?_, hp.living, fun p' hle => ?_,
    fun p' hlt' => ?_⟩
  · by_cases hne : p' = p
    · subst hne
      rw [withPipe_self]
      exact hread f hend
    · rw [withPipe_of_ne hne]
      exact hp.reading f p' hend
  · have hle : s.nextpipe ≤ p' := hle
    obtain ⟨hput, hgot⟩ := hlog p' (by omega)
    rw [hput, hgot]
    exact hp.fresh p' hle
  · by_cases hne : p' = p
    · subst hne
      rw [withPipe_self]
      exact hflows
    · obtain ⟨hput, hgot⟩ := hlog p' hne
      rw [withPipe_of_ne hne, hput, hgot]
      exact hp.flows p' hlt'

/-! ## The file table -/

theorem filealloc_keepsPipes {r : Option FileSlot} (hrun : filealloc.run s = .ok (r, s')) :
    KeepsPipes s s' := by
  rcases filealloc_cases hrun with ⟨-, rfl⟩ | ⟨f, -, -, rfl⟩
  · exact .refl s'
  · exact keepsPipes_withFile fun htype => ⟨htype, rfl, rfl, rfl⟩

theorem filedup_keepsPipes {r : FileSlot} (hrun : (filedup f).run s = .ok (r, s')) :
    KeepsPipes s s' := by
  rw [filedup, fileAt_bind_run] at hrun
  split at hrun
  · simp at hrun
  · rw [setFile_bind_run] at hrun
    obtain ⟨-, rfl⟩ := Prog.pure_ok.mp hrun
    exact keepsPipes_withFile fun htype => ⟨htype, rfl, rfl, rfl⟩

theorem fdalloc_keepsPipes {r : Option (Fin NOFILE)} (hrun : (fdalloc f).run s = .ok (r, s')) :
    KeepsPipes s s' := by
  rcases fdalloc_cases hrun with ⟨-, rfl⟩ | ⟨fd, -, -, rfl⟩
  · exact .refl s'
  · exact .of_file ⟨rfl, rfl, rfl⟩ rfl

theorem clearFd_keepsPipes {fd : Fin NOFILE} {r : Unit}
    (hrun : (clearFd fd).run s = .ok (r, s')) : KeepsPipes s s' := by
  obtain rfl := setProc_ok.mp hrun
  exact .of_file ⟨rfl, rfl, rfl⟩ rfl

/-- One end of a pipe is closed for good: a read end still open would be the one
that was closed. -/
theorem PipesOk.closeEnd {file : File} (hp : PipesOk s log) (hend : IsEnd s f p)
    (htype : file.type = .none) :
    PipesOk (Fs.withPipe (withFile s f file) p (closedEnd (s.file f).writable (s.pipe p))) log := by
  have hkeeps : KeepsPipes s (withFile s f file) :=
    keepsPipes_withFile fun h => absurd (htype.symm.trans h) (by simp)
  have hlt := hp.known f p hend
  have hflows := hp.flows p hlt
  refine (hp.keep hkeeps).withPipe hlt (fun g hread => ?_) ⟨hflows.read, fun hopen => ?_⟩
    fun _ _ => ⟨rfl, rfl⟩
  · have hread' := hkeeps.isReadEnd hread
    rw [closedEnd_readopen, hp.reading g p hread', Bool.and_true, decide_eq_true_iff]
    intro hzero
    obtain rfl := hp.reader g f p hread' ⟨hend, hzero⟩
    have := hread.1.1
    rw [withFile_self, htype] at this
    simp at this
  · rw [closedEnd_readopen, Bool.and_eq_true] at hopen
    obtain ⟨bytes, hput, hholds⟩ := hflows.held hopen.2
    exact ⟨bytes, hput, closedEnd_holds.mpr hholds⟩

theorem fileclose_pipesOk (hp : PipesOk s log) {r : Unit}
    (hrun : (fileclose f).run s = .ok (r, s')) : PipesOk s' log := by
  rw [fileclose, fileAt_bind_run] at hrun
  split at hrun
  · simp at hrun
  split at hrun
  · obtain rfl := setFile_ok.mp hrun
    exact hp.keep (keepsPipes_withFile fun htype => ⟨htype, rfl, rfl, rfl⟩)
  · rw [setFile_bind_run] at hrun
    have hclosed : KeepsPipes s (withFile s f { s.file f with ref := 0, type := .none }) :=
      keepsPipes_withFile (by simp)
    split at hrun
    · obtain ⟨-, rfl⟩ := Prog.pure_ok.mp hrun
      exact hp.keep hclosed
    · rename_i htype
      split at hrun
      · simp at hrun
      · rename_i p hpipe
        obtain ⟨pages, rfl⟩ := pipeclose_ok hrun
        exact (hp.closeEnd ⟨htype, hpipe⟩ rfl).keep (.of_file ⟨rfl, rfl, rfl⟩ rfl)
    · split at hrun
      · simp at hrun
      · exact hp.keep (hclosed.trans (iput_moves hrun).tables.keepsPipes)

/-- Both ends of a pipe that was never used. -/
structure NewEnds (n : Nat) (q : Pipe) (read write : File) : Prop where
  holds : Holds q []
  readopen : q.readopen = true
  readPipe : read.pipe = some n
  readWritable : read.writable = 0
  writePipe : write.pipe = some n
  writeReadable : write.readable = false
  writeWritable : write.writable ≠ 0

/-- The kernel with a new pipe between the files `f` and `g`. -/
def withNewPipe (s : Kernel) (q : Pipe) (f g : FileSlot) (read write : File) : Kernel :=
  withFile (withFile (withPipe { s with nextpipe := s.nextpipe + 1 } s.nextpipe q) f read) g write

theorem withNewPipe_file {q : Pipe} {g : FileSlot} {read write : File} (f' : FileSlot) :
    (withNewPipe s q f g read write).file f' =
      if f' = g then write else if f' = f then read else s.file f' := by
  unfold withNewPipe
  by_cases hg : f' = g
  · rw [if_pos hg, hg, withFile_self]
  · rw [if_neg hg, withFile_of_ne hg]
    by_cases hf : f' = f
    · rw [if_pos hf, hf, withFile_self]
    · rw [if_neg hf, withFile_of_ne hf]
      rfl

theorem PipesOk.newPipe {q : Pipe} {g : FileSlot} {read write : File} (hp : PipesOk s log)
    (hnew : NewEnds s.nextpipe q read write) :
    PipesOk (withNewPipe s q f g read write) log := by
  have hends : ∀ f' p, IsEnd (withNewPipe s q f g read write) f' p →
      p = s.nextpipe ∨ IsEnd s f' p ∧ p < s.nextpipe := by
    intro f' p hend
    rw [IsEnd, withNewPipe_file] at hend
    split at hend
    · exact Or.inl (Option.some.inj (hend.2.symm.trans hnew.writePipe))
    · split at hend
      · exact Or.inl (Option.some.inj (hend.2.symm.trans hnew.readPipe))
      · exact Or.inr ⟨hend, hp.known f' p hend⟩
  have hreads : ∀ f' p, IsReadEnd (withNewPipe s q f g read write) f' p →
      f' = f ∧ p = s.nextpipe ∨ IsReadEnd s f' p ∧ p < s.nextpipe := by
    intro f' p hend
    rw [IsReadEnd, IsEnd, withNewPipe_file] at hend
    split at hend
    · exact absurd hend.2 hnew.writeWritable
    · split at hend
      · rename_i hf
        exact Or.inl ⟨hf, Option.some.inj (hend.1.2.symm.trans hnew.readPipe)⟩
      · exact Or.inr ⟨hend, hp.known f' p hend.1⟩
  have hpipe : ∀ p, (withNewPipe s q f g read write).pipe p =
      if p = s.nextpipe then q else s.pipe p := by
    intro p
    exact Function.update_apply ..
  refine ⟨fun f' p hend => ?_, fun f' htype hreadable => ?_, fun f₁ f₂ p h₁ h₂ => ?_,
    fun f' p hend => ?_, hp.living, fun p hle => ?_, fun p hlt => ?_⟩
  · show p < s.nextpipe + 1
    rcases hends f' p hend with rfl | ⟨-, hlt⟩ <;> omega
  · rw [withNewPipe_file] at htype hreadable ⊢
    split at hreadable
    · rw [hnew.writeReadable] at hreadable
      simp at hreadable
    · split at hreadable
      · rename_i hg hf
        rw [if_neg hg, if_pos hf]
        exact hnew.readWritable
      · rename_i hg hf
        rw [if_neg hg, if_neg hf] at htype ⊢
        exact hp.sides f' htype hreadable
  · rcases hreads f₁ p h₁ with ⟨hf₁, hn₁⟩ | ⟨h₁, hlt₁⟩ <;>
      rcases hreads f₂ p h₂ with ⟨hf₂, hn₂⟩ | ⟨h₂, hlt₂⟩
    · exact hf₁.trans hf₂.symm
    · omega
    · omega
    · exact hp.reader f₁ f₂ p h₁ h₂
  · rw [hpipe]
    rcases hreads f' p hend with ⟨-, rfl⟩ | ⟨hread, hlt⟩
    · rw [if_pos rfl]
      exact hnew.readopen
    · rw [if_neg (by omega)]
      exact hp.reading f' p hread
  · have hle : s.nextpipe + 1 ≤ p := hle
    exact hp.fresh p (by omega)
  · have hlt : p < s.nextpipe + 1 := hlt
    rw [hpipe]
    by_cases hp' : p = s.nextpipe
    · rw [if_pos hp']
      obtain ⟨hput, hgot⟩ := hp.fresh p (by omega)
      rw [hput, hgot]
      exact ⟨List.prefix_rfl, fun _ => ⟨[], rfl, hnew.holds⟩⟩
    · rw [if_neg hp']
      exact hp.flows p (by omega)

theorem pipealloc_pipesOk (hp : PipesOk s log) {r : Option (FileSlot × FileSlot)}
    (hrun : pipealloc.run s = .ok (r, s')) : PipesOk s' log := by
  rw [pipealloc, Prog.bind_ok] at hrun
  obtain ⟨r0, s₁, halloc, hrun⟩ := hrun
  have hp₁ := hp.keep (filealloc_keepsPipes halloc)
  cases r0 with
  | none =>
      obtain ⟨-, rfl⟩ := Prog.pure_ok.mp hrun
      exact hp₁
  | some f0 =>
      simp only at hrun
      rw [Prog.bind_ok] at hrun
      obtain ⟨r1, s₂, halloc₁, hrun⟩ := hrun
      have hp₂ := hp₁.keep (filealloc_keepsPipes halloc₁)
      cases r1 with
      | none =>
          simp only at hrun
          rw [Prog.bind_ok] at hrun
          obtain ⟨_, s₃, hclose, hrun⟩ := hrun
          obtain ⟨-, rfl⟩ := Prog.pure_ok.mp hrun
          exact fileclose_pipesOk hp₂ hclose
      | some f1 =>
          simp only at hrun
          rw [Prog.bind_ok] at hrun
          obtain ⟨page, s₃, hpage, hrun⟩ := hrun
          have hp₃ := hp₂.keep (kalloc_keys hpage).tables.keepsPipes
          split at hrun
          · rw [Prog.get_bind_run] at hrun
            simp only [Prog.modify_bind_run, setPipe_bind_run, setFile_bind_run] at hrun
            obtain ⟨-, rfl⟩ := Prog.pure_ok.mp hrun
            exact hp₃.newPipe ⟨.empty (by decide), rfl, rfl, rfl, rfl, rfl, Nat.one_ne_zero⟩
          · rw [Prog.bind_ok] at hrun
            obtain ⟨_, s₄, hclose, hrun⟩ := hrun
            rw [Prog.bind_ok] at hrun
            obtain ⟨_, s₅, hclose₅, hrun⟩ := hrun
            obtain ⟨-, rfl⟩ := Prog.pure_ok.mp hrun
            exact fileclose_pipesOk (fileclose_pipesOk hp₃ hclose) hclose₅

end Fs
end CS444
