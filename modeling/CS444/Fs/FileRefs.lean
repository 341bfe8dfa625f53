/-
`file.c` and `pipe.c` keep the invariant.

Reading, writing and seeking change no reference and nothing of an open file
but its offset; that is `Quiet`.  Only on a pipe do they change pipes, which is
what `QuietOn` adds.  `filewrite` and `fileseek` call each other, so they are
quiet together, by induction on how deep they may go.  Opening a pipe and
closing a file do change the file table.
-/
import CS444.Fs.Holders
import CS444.Fs.Pipe

namespace CS444
namespace Fs

open Program Ledger

variable {P : Nat → Int → Prop} {s s₁ s' : Kernel} {h : Slot → Nat} {ip : Slot} {f : FileSlot}
  {p : Nat}

/-- Nothing but contents, offsets, pipes and the console changed. -/
structure Quiet (s s' : Kernel) : Prop where
  inodes : InodeMoves s 0 s' 0
  proc : s'.proc = s.proc
  cur : s'.cur = s.cur
  file : ∀ f, s'.file f = { s.file f with off := (s'.file f).off }

theorem Quiet.refl (s : Kernel) : Quiet s s := ⟨.of_eq rfl rfl 0, rfl, rfl, fun _ => rfl⟩

theorem Quiet.trans (hab : Quiet s s₁) (hbc : Quiet s₁ s') : Quiet s s' := by
  refine ⟨hab.inodes.trans hbc.inodes, hbc.proc.trans hab.proc, hbc.cur.trans hab.cur,
    fun f => ?_⟩
  conv_lhs => rw [hbc.file f, hab.file f]

/-- Code that changes neither inodes nor files. -/
theorem Quiet.of_eq (hi : s'.inode = s.inode) (hd : s'.dinode = s.dinode)
    (hfile : s'.file = s.file) (hproc : s'.proc = s.proc) (hcur : s'.cur = s.cur) :
    Quiet s s' :=
  ⟨.of_eq hi hd 0, hproc, hcur, fun f => by rw [hfile]⟩

theorem Moves.quiet (hm : Moves s 0 s' 0) : Quiet s s' :=
  ⟨hm.toInodeMoves, hm.tables.proc, hm.tables.cur, fun f => by rw [hm.tables.file]⟩

theorem SameKeys.quiet (hk : SameKeys s s') : Quiet s s' := (hk.moves 0).quiet

/-- `Quiet`, and pipes are as they were unless `f` is the end of one. -/
structure QuietOn (f : FileSlot) (s s' : Kernel) : Prop extends Quiet s s' where
  pipes : (s.file f).type ≠ .pipe → SamePipes s s'

theorem QuietOn.refl (f : FileSlot) (s : Kernel) : QuietOn f s s := ⟨.refl s, fun _ => .refl s⟩

theorem QuietOn.trans (hab : QuietOn f s s₁) (hbc : QuietOn f s₁ s') : QuietOn f s s' := by
  refine ⟨hab.toQuiet.trans hbc.toQuiet, fun htype => (hab.pipes htype).trans (hbc.pipes ?_)⟩
  rw [hab.file f]
  exact htype

theorem Moves.quietOn (hm : Moves s 0 s' 0) : QuietOn f s s' :=
  ⟨hm.quiet, fun _ => hm.tables.pipes⟩

theorem SameKeys.quietOn (hk : SameKeys s s') : QuietOn f s s' := (hk.moves 0).quietOn

/-- `f->off = n` -/
theorem quietOn_off (n : Nat) : QuietOn f s (withFile s f { s.file f with off := n }) := by
  refine ⟨⟨inodeMoves_withFile f _ 0, rfl, rfl, fun f' => ?_⟩, fun _ => ⟨rfl, rfl, rfl⟩⟩
  by_cases hf : f' = f
  · subst hf
    rw [withFile_self]
  · rw [withFile_of_ne hf]

theorem Kept.quiet (hk : Kept P s h) (hq : Quiet s s') : Kept P s' h := by
  have hinodeOf : ∀ f, inodeOf (s'.file f) = inodeOf (s.file f) := by
    intro f
    rw [hq.file f]
    rfl
  have hheld : held s' = held s := by
    unfold held holdings
    simp only [hq.proc, hinodeOf]
  refine hk.step hq.inodes (fun _ => Nat.zero_le _) (fun f => ?_) (fun k => ?_) fun f => ?_
  · rw [hq.file f]
    exact hk.closed f
  · rw [hheld]
  · rw [hq.file f]
    exact fun htype => Or.inl ⟨htype, rfl, rfl⟩

/-! ## Pipes -/

theorem quietOn_withPipe (htype : (s.file f).type = .pipe) (q : Pipe) :
    QuietOn f s (withPipe s p q) := by
  refine ⟨?_, fun hne => absurd htype hne⟩
  apply Quiet.of_eq <;> rfl

theorem piperead_quietOn {n : Int} {r : Int × Str} (htype : (s.file f).type = .pipe)
    (hrun : (piperead p n).run s = .ok (r, s')) : QuietOn f s s' := by
  obtain ⟨q', rfl, -⟩ := piperead_ok hrun
  exact quietOn_withPipe htype q'

theorem pipewrite_quietOn {src : Str} {r : Int} (htype : (s.file f).type = .pipe)
    (hrun : (pipewrite p src).run s = .ok (r, s')) : QuietOn f s s' := by
  obtain ⟨q', rfl, -⟩ := pipewriteLoop_ok hrun
  exact quietOn_withPipe htype q'

/-! ## Reading -/

theorem quietOn_pages (n : Nat) : QuietOn f s { s with freePages := n } :=
  SameKeys.quietOn (.of_eq rfl rfl ⟨rfl, rfl, rfl, rfl, rfl, rfl⟩)

theorem filestat_quietOn {r : Int × Option Stat} (hrun : (filestat f).run s = .ok (r, s')) :
    QuietOn f s s' := by
  rw [filestat, fileAt_bind_run] at hrun
  split at hrun
  · split at hrun
    · simp at hrun
    · rw [Prog.bind_ok] at hrun
      obtain ⟨_, s₁, hlock, hrun⟩ := hrun
      rw [inodeAt_bind_run, Prog.bind_ok] at hrun
      obtain ⟨_, s₂, hunlock, hrun⟩ := hrun
      obtain ⟨-, rfl⟩ := Prog.pure_ok.mp hrun
      exact (ilock_spec hlock).moves.quietOn.trans (iunlock_keys hunlock).quietOn
  · obtain ⟨-, rfl⟩ := Prog.pure_ok.mp hrun
    exact .refl _ _

/-- `if(c) f->off = g(f);` -/
theorem whenOff_quietOn {c : Prop} [Decidable c] {g : File → Nat} {u : Unit}
    (hrun : (Prog.when c (setFile f fun file => { file with off := g file })).run s =
      .ok (u, s')) : QuietOn f s s' := by
  rw [Prog.when_ok] at hrun
  rcases hrun with ⟨-, hrun⟩ | ⟨-, rfl⟩
  · obtain rfl := setFile_ok.mp hrun
    exact quietOn_off _
  · exact .refl _ _

theorem fileread_quietOn {n : Int} {r : Int × Str} (hrun : (fileread f n).run s = .ok (r, s')) :
    QuietOn f s s' := by
  rw [fileread, fileAt_bind_run] at hrun
  split at hrun
  · obtain ⟨-, rfl⟩ := Prog.pure_ok.mp hrun
    exact .refl _ _
  · split at hrun
    · rename_i htype
      split at hrun
      · simp at hrun
      · exact piperead_quietOn htype hrun
    · split at hrun
      · simp at hrun
      · rw [Prog.bind_ok] at hrun
        obtain ⟨_, s₁, hlock, hrun⟩ := hrun
        rw [Prog.bind_ok] at hrun
        obtain ⟨⟨n, bytes⟩, s₂, hread, hrun⟩ := hrun
        simp only at hrun
        rw [Prog.bind_ok] at hrun
        obtain ⟨_, s₃, hoff, hrun⟩ := hrun
        rw [Prog.bind_ok] at hrun
        obtain ⟨_, s₄, hunlock, hrun⟩ := hrun
        obtain ⟨-, rfl⟩ := Prog.pure_ok.mp hrun
        exact ((ilock_spec hlock).moves.trans (readi_moves hread)).quietOn.trans
          ((whenOff_quietOn hoff).trans (iunlock_keys hunlock).quietOn)
    · simp at hrun

/-! ## Writing and seeking -/

theorem writeChunk_quietOn {seekEnd : K Int} {chunk : Str} {r : Int}
    (hseek : ∀ {s r s'}, seekEnd.run s = .ok (r, s') → QuietOn f s s')
    (hrun : (writeChunk seekEnd f ip chunk).run s = .ok (r, s')) : QuietOn f s s' := by
  rw [writeChunk, Prog.bind_ok] at hrun
  obtain ⟨_, s₁, hlock, hrun⟩ := hrun
  rw [fileAt_bind_run, Prog.bind_ok] at hrun
  obtain ⟨_, s₂, happend, hrun⟩ := hrun
  rw [fileAt_bind_run, Prog.bind_ok] at hrun
  obtain ⟨n, s₃, hwrite, hrun⟩ := hrun
  rw [Prog.bind_ok] at hrun
  obtain ⟨_, s₄, hoff, hrun⟩ := hrun
  rw [Prog.bind_ok] at hrun
  obtain ⟨_, s₅, hunlock, hrun⟩ := hrun
  obtain ⟨-, rfl⟩ := Prog.pure_ok.mp hrun
  have hl := ilock_spec hlock
  have hq : QuietOn f s₁ s₂ := by
    rw [Prog.when_ok] at happend
    rcases happend with ⟨-, happend⟩ | ⟨-, rfl⟩
    · rw [Prog.bind_ok] at happend
      obtain ⟨_, s₀, hend, happend⟩ := happend
      obtain ⟨-, rfl⟩ := Prog.pure_ok.mp happend
      exact hseek hend
    · exact .refl _ _
  have hu := (hq.inodes.inUse' hl.inUse).1
  exact (hl.moves.quietOn.trans hq).trans ((writei_moves hwrite hu.valid hu.pos).quietOn.trans
    ((whenOff_quietOn hoff).trans (iunlock_keys hunlock).quietOn))

theorem writeChunks_quietOn {chunk : Str → K Int} {fuel : Nat} {src : Str} {r : Bool}
    (hchunk : ∀ {s src r s'}, (chunk src).run s = .ok (r, s') → QuietOn f s s')
    (hrun : (writeChunks chunk fuel src).run s = .ok (r, s')) : QuietOn f s s' := by
  induction fuel generalizing s src with
  | zero =>
      obtain ⟨-, rfl⟩ := Prog.pure_ok.mp hrun
      exact .refl _ _
  | succ fuel ih =>
      rw [writeChunks] at hrun
      split at hrun
      · obtain ⟨-, rfl⟩ := Prog.pure_ok.mp hrun
        exact .refl _ _
      · simp only at hrun
        rw [Prog.bind_ok] at hrun
        obtain ⟨n, s₁, hone, hrun⟩ := hrun
        have hq := hchunk hone
        split at hrun
        · obtain ⟨-, rfl⟩ := Prog.pure_ok.mp hrun
          exact hq
        · split at hrun
          · simp at hrun
          · exact hq.trans (ih hrun)

theorem fillHole_quietOn {write : Str → K Int} {fuel n : Nat} {u : Unit}
    (hwrite : ∀ {s src r s'}, (write src).run s = .ok (r, s') → QuietOn f s s')
    (hrun : (fillHole write fuel n).run s = .ok (u, s')) : QuietOn f s s' := by
  induction fuel generalizing s n with
  | zero =>
      obtain ⟨-, rfl⟩ := Prog.pure_ok.mp hrun
      exact .refl _ _
  | succ fuel ih =>
      rw [fillHole] at hrun
      split at hrun
      · obtain ⟨-, rfl⟩ := Prog.pure_ok.mp hrun
        exact .refl _ _
      · rw [Prog.bind_ok] at hrun
        obtain ⟨_, s₁, hone, hrun⟩ := hrun
        exact (hwrite hone).trans (ih hrun)

theorem kalloc_keys {r : Bool} (hrun : kalloc.run s = .ok (r, s')) : SameKeys s s' := by
  rw [kalloc, Prog.get_bind_run] at hrun
  split at hrun
  · obtain ⟨-, rfl⟩ := Prog.pure_ok.mp hrun
    exact .refl _
  · rw [Prog.modify_bind_run] at hrun
    obtain ⟨-, rfl⟩ := Prog.pure_ok.mp hrun
    exact .of_eq rfl rfl ⟨rfl, rfl, rfl, rfl, rfl, rfl⟩

theorem kalloc_ok (hrun : kalloc.run s = .ok (true, s')) :
    s.freePages ≠ 0 ∧ { s with freePages := s.freePages - 1 } = s' := by
  rw [kalloc, Prog.get_bind_run] at hrun
  split at hrun
  · simp at hrun
  · rename_i hpages
    exact ⟨hpages, (Prog.pure_ok.mp hrun).2⟩

/-- The kernel while `fileseek` holds its page, at the end of the file. -/
def seekStart (s : Kernel) (f : FileSlot) (size : Nat) : Kernel :=
  withFile { s with freePages := s.freePages - 1 } f { s.file f with off := size }

/-- The kernel after `fileseek` gave its page back and set the offset to `t`. -/
def seekEnd (s : Kernel) (f : FileSlot) (t : Nat) : Kernel :=
  withFile { s with freePages := s.freePages + 1 } f { s.file f with off := t }

/-- How `fileseek` returns: the position is refused, or it is reached after the
hole up to it was filled. -/
inductive Seeks (s : Kernel) (null depth : Nat) (f : FileSlot) (target : Option Int) :
    Int → Kernel → Prop
  | refused : (∀ t, target = some t → t < 0) → Seeks s null depth f target (-1) s
  | inside {t : Int} : target = some t → 0 ≤ t → t ≤ sizeThrough s null (s.file f) →
      Seeks s null depth f target t (withFile s f { s.file f with off := t.toNat })
  | grown {t : Int} {s₁ : Kernel} : target = some t → (sizeThrough s null (s.file f) : Int) < t →
      s.freePages ≠ 0 →
      (fillHole (filewrite null depth f) (t.toNat - sizeThrough s null (s.file f))
        (t.toNat - sizeThrough s null (s.file f))).run
        (seekStart s f (sizeThrough s null (s.file f))) = .ok ((), s₁) →
      Seeks s null depth f target t (seekEnd s₁ f t.toNat)

theorem fileseek_cases {null depth : Nat} {offset whence r : Int}
    (hrun : (fileseek null (depth + 1) f offset whence).run s = .ok (r, s')) :
    Seeks s null depth f
      (seekTarget (s.file f).off (sizeThrough s null (s.file f)) offset whence) r s' := by
  rw [fileseek, fileAt_bind_run, fileSize_bind_run] at hrun
  split at hrun
  · rename_i hnone
    obtain ⟨rfl, rfl⟩ := Prog.pure_ok.mp hrun
    exact .refused fun t hsome => absurd (hnone.symm.trans hsome) (by simp)
  · rename_i t htarget
    split at hrun
    · rename_i hneg
      obtain ⟨rfl, rfl⟩ := Prog.pure_ok.mp hrun
      refine .refused fun t' hsome => ?_
      obtain rfl := Option.some.inj (htarget.symm.trans hsome)
      exact hneg
    · rename_i hneg
      rw [Prog.bind_ok] at hrun
      obtain ⟨_, s₁, hhole, hrun⟩ := hrun
      rw [setFile_bind_run] at hrun
      obtain ⟨rfl, rfl⟩ := Prog.pure_ok.mp hrun
      rw [Prog.when_ok] at hhole
      rcases hhole with ⟨hgrows, hhole⟩ | ⟨hinside, rfl⟩
      · rw [Prog.bind_ok] at hhole
        obtain ⟨page, s₂, halloc, hhole⟩ := hhole
        rw [setFile_bind_run] at hhole
        simp only at hhole
        rw [Prog.bind_ok] at hhole
        obtain ⟨_, s₃, hfill, hhole⟩ := hhole
        cases page with
        | false => simp at hhole
        | true =>
            obtain ⟨hpages, rfl⟩ := kalloc_ok halloc
            obtain rfl := Prog.modify_ok.mp hhole
            exact .grown htarget hgrows hpages hfill
      · exact .inside htarget (not_lt.mp hneg) (not_lt.mp hinside)

/-- `filewrite` is quiet if the `fileseek` it calls is. -/
theorem filewrite_quietOn_of {null depth : Nat} {src : Str} {r : Int}
    (hseek : ∀ {s r s'}, (fileseek null depth f 0 SEEK_END).run s = .ok (r, s') → QuietOn f s s')
    (hrun : (filewrite null (depth + 1) f src).run s = .ok (r, s')) : QuietOn f s s' := by
  rw [filewrite, fileAt_bind_run] at hrun
  split at hrun
  · obtain ⟨-, rfl⟩ := Prog.pure_ok.mp hrun
    exact .refl _ _
  · split at hrun
    · rename_i htype
      split at hrun
      · simp at hrun
      · exact pipewrite_quietOn htype hrun
    · split at hrun
      · split at hrun
        · obtain ⟨-, rfl⟩ := Prog.pure_ok.mp hrun
          exact .refl _ _
        · simp at hrun
      · rw [Prog.bind_ok] at hrun
        obtain ⟨all, s₁, hchunks, hrun⟩ := hrun
        obtain ⟨-, rfl⟩ := Prog.pure_ok.mp hrun
        exact writeChunks_quietOn (fun h => writeChunk_quietOn hseek h) hchunks
    · simp at hrun

/-- `fileseek` is quiet if the `filewrite` it calls is. -/
theorem fileseek_quietOn_of {null depth : Nat} {offset whence r : Int}
    (hwrite : ∀ {s src r s'}, (filewrite null depth f src).run s = .ok (r, s') → QuietOn f s s')
    (hrun : (fileseek null (depth + 1) f offset whence).run s = .ok (r, s')) : QuietOn f s s' := by
  cases fileseek_cases hrun with
  | refused => exact .refl _ _
  | inside => exact quietOn_off _
  | @grown t s₁ htarget hgrows hpages hfill =>
      have hstart : QuietOn f s (seekStart s f (sizeThrough s null (s.file f))) :=
        (quietOn_pages _).trans (quietOn_off _)
      have hend : QuietOn f s₁ (seekEnd s₁ f r.toNat) := (quietOn_pages _).trans (quietOn_off _)
      exact hstart.trans ((fillHole_quietOn (fun h => hwrite h) hfill).trans hend)

theorem write_seek_quietOn (null depth : Nat) :
    (∀ {s src r s'}, (filewrite null depth f src).run s = .ok (r, s') → QuietOn f s s') ∧
      ∀ {s offset whence r s'},
        (fileseek null depth f offset whence).run s = .ok (r, s') → QuietOn f s s' := by
  induction depth with
  | zero => exact ⟨fun h => by simp [filewrite] at h, fun h => by simp [fileseek] at h⟩
  | succ depth ih => exact ⟨filewrite_quietOn_of ih.2, fileseek_quietOn_of ih.1⟩

/-! ## The file table -/

theorem filealloc_kept (hk : Kept P s h) {r : Option FileSlot}
    (hrun : filealloc.run s = .ok (r, s')) :
    Kept P s' h ∧ ∀ f, r = some f → (s'.file f).type = .none ∧ (s'.file f).ref = 1 := by
  rcases filealloc_cases hrun with ⟨rfl, rfl⟩ | ⟨f, rfl, hfree, rfl⟩
  · exact ⟨hk, by simp⟩
  · refine ⟨hk.withSameFile (fun _ => hk.closed f hfree) rfl rfl rfl, ?_⟩
    rintro _ ⟨⟩
    rw [withFile_self]
    exact ⟨hk.closed f hfree, rfl⟩

theorem filedup_kept (hk : Kept P s h) {r : FileSlot} (hrun : (filedup f).run s = .ok (r, s')) :
    Kept P s' h ∧ s'.proc = s.proc ∧ s'.cur = s.cur := by
  rw [filedup, fileAt_bind_run] at hrun
  split at hrun
  · simp at hrun
  · rename_i href
    rw [setFile_bind_run] at hrun
    obtain ⟨-, rfl⟩ := Prog.pure_ok.mp hrun
    refine ⟨hk.withSameFile (fun hzero => ?_) rfl rfl rfl, rfl, rfl⟩
    simp only at hzero
    omega

/-- A closed file leaves its reference in the code's hands. -/
theorem Kept.closeFile (hk : Kept P s h) (f : FileSlot) :
    Kept P (Fs.withFile s f { s.file f with ref := 0, type := .none })
      (h + inodeOf (s.file f)) := by
  have hnone : inodeOf { s.file f with ref := 0, type := .none } = 0 :=
    inodeOf_of_ne (by simp)
  refine hk.withFile (fun k => ?_) (fun _ => rfl) (by simp)
  rw [hnone]
  simp

/-- Closing drops the file's reference to its inode with the last reference to
the file. -/
theorem fileclose_kept (hk : Kept P s h) {u : Unit} (hrun : (fileclose f).run s = .ok (u, s')) :
    Kept P s' h ∧ s'.proc = s.proc ∧ s'.cur = s.cur ∧
      ∀ f', f' ≠ f → s'.file f' = s.file f' := by
  rw [fileclose, fileAt_bind_run] at hrun
  split at hrun
  · simp at hrun
  split at hrun
  · rename_i hmore
    obtain rfl := setFile_ok.mp hrun
    refine ⟨hk.withSameFile (fun hzero => ?_) rfl rfl rfl, rfl, rfl,
      fun f' hf => withFile_of_ne hf _⟩
    simp only at hzero
    omega
  · rw [setFile_bind_run] at hrun
    have hk₁ := hk.closeFile f
    have hother : ∀ f', f' ≠ f →
        (withFile s f { s.file f with ref := 0, type := .none }).file f' = s.file f' :=
      fun f' hf => withFile_of_ne hf _
    split at hrun
    · rename_i htype
      obtain ⟨-, rfl⟩ := Prog.pure_ok.mp hrun
      rw [inodeOf_of_ne (by simp [htype]), add_zero] at hk₁
      exact ⟨hk₁, rfl, rfl, hother⟩
    · rename_i htype
      rw [inodeOf_of_ne (by simp [htype]), add_zero] at hk₁
      split at hrun
      · simp at hrun
      · obtain ⟨pages, rfl⟩ := pipeclose_ok hrun
        exact ⟨hk₁.quiet (by apply Quiet.of_eq <;> rfl), rfl, rfl, hother⟩
    · rename_i htype
      split at hrun
      · simp at hrun
      · rename_i ip hip
        have hm := iput_moves hrun
        rw [inodeOf_of_inode htype, hip] at hk₁
        refine ⟨hk₁.moves (hm.leaving h), hm.tables.proc, hm.tables.cur, fun f' hf => ?_⟩
        rw [hm.tables.file]
        exact hother f' hf

/-- A file that was free becomes one end of a pipe. -/
theorem Kept.withPipe (hk : Kept P s h) {file : File} (htype : file.type = .pipe)
    (href : file.ref = (s.file f).ref) (hold : (s.file f).ref = 1) :
    Kept P (Fs.withFile s f file) h := by
  refine hk.withFile (fun k => ?_) (fun hzero => ?_) (by simp [htype])
  · rw [inodeOf_of_ne (by simp [htype])]
    simp
  · omega

theorem pipealloc_kept (hk : Kept P s h) {r : Option (FileSlot × FileSlot)}
    (hrun : pipealloc.run s = .ok (r, s')) : Kept P s' h := by
  rw [pipealloc, Prog.bind_ok] at hrun
  obtain ⟨r0, s₁, halloc, hrun⟩ := hrun
  obtain ⟨hk₁, hf0⟩ := filealloc_kept hk halloc
  cases r0 with
  | none =>
      obtain ⟨-, rfl⟩ := Prog.pure_ok.mp hrun
      exact hk₁
  | some f0 =>
      simp only at hrun
      rw [Prog.bind_ok] at hrun
      obtain ⟨r1, s₂, halloc₁, hrun⟩ := hrun
      obtain ⟨hk₂, hf1⟩ := filealloc_kept hk₁ halloc₁
      cases r1 with
      | none =>
          simp only at hrun
          rw [Prog.bind_ok] at hrun
          obtain ⟨_, s₃, hclose, hrun⟩ := hrun
          obtain ⟨-, rfl⟩ := Prog.pure_ok.mp hrun
          exact (fileclose_kept hk₂ hclose).1
      | some f1 =>
          have hne : f0 ≠ f1 := by
            rintro rfl
            rcases filealloc_cases halloc₁ with ⟨hnone, -⟩ | ⟨f, heq, hfree, -⟩
            · simp at hnone
            · obtain rfl := Option.some.inj heq
              have := (hf0 f0 rfl).2
              omega
          have href0 : (s₂.file f0).ref = 1 := by
            rcases filealloc_cases halloc₁ with ⟨hnone, -⟩ | ⟨f, heq, -, rfl⟩
            · simp at hnone
            · obtain rfl := Option.some.inj heq
              rw [withFile_of_ne hne]
              exact (hf0 f0 rfl).2
          simp only at hrun
          rw [Prog.bind_ok] at hrun
          obtain ⟨page, s₃, hpage, hrun⟩ := hrun
          have hkeys := kalloc_keys hpage
          have hk₃ := hk₂.keys hkeys
          split at hrun
          · rw [Prog.get_bind_run] at hrun
            simp only [Prog.modify_bind_run, setPipe_bind_run, setFile_bind_run] at hrun
            obtain ⟨-, rfl⟩ := Prog.pure_ok.mp hrun
            have hnew : ∀ q, Kept P (withPipe { s₃ with nextpipe := s₃.nextpipe + 1 }
                s₃.nextpipe q) h :=
              fun q => hk₃.quiet (by apply Quiet.of_eq <;> rfl)
            have hfile : s₃.file = s₂.file := hkeys.tables.file
            have hhalf : ∀ s₄, Kept P s₄ h → s₄.file = s₃.file →
                Kept P (withFile s₄ f0 { s₄.file f0 with
                  type := .pipe, readable := true, writable := 0,
                  pipe := some s₃.nextpipe }) h := by
              intro s₄ hk₄ hfile₄
              refine hk₄.withPipe rfl rfl ?_
              rw [hfile₄, hfile]
              exact href0
            refine (hhalf _ (hnew _) rfl).withPipe rfl rfl ?_
            rw [withFile_of_ne hne.symm]
            show (s₃.file f1).ref = 1
            rw [hfile]
            exact (hf1 f1 rfl).2
          · rw [Prog.bind_ok] at hrun
            obtain ⟨_, s₄, hclose, hrun⟩ := hrun
            rw [Prog.bind_ok] at hrun
            obtain ⟨_, s₅, hclose₅, hrun⟩ := hrun
            obtain ⟨-, rfl⟩ := Prog.pure_ok.mp hrun
            exact (fileclose_kept (fileclose_kept hk₃ hclose).1 hclose₅).1

end Fs
end CS444
