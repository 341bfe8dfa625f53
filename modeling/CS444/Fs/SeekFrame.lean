/-
Seeking on a pipe or a device.

`fileseek` looks through `file->ip` and fills holes with `filewrite`, whatever
the file is; a pipe keeps the `ip` its slot of the file table had before.
`SeeksStill` is the condition under which no page of NULs gets written, and
`lseek_still` the consequence over runs: such a seek changes an offset and
nothing else, and what is read from a pipe is what was written to it.
-/
import CS444.Fs.DirWrite
import CS444.Fs.PipeCalls

namespace CS444
namespace Fs

open Program Runs

variable {P : Nat → Int → Prop} {s s₁ s' : Kernel} {log : Log} {ip : Slot} {f : FileSlot}
  {u : User} {src : Str} {null depth n : Nat}

/-! ## Writes that are refused -/

/-- A write of `n` bytes at the end of the inode is refused; sizes are `uint`. -/
def RefusesAtEnd (i : Inode) (n : Nat) : Prop :=
  i.size < 2 ^ 32 ∧ (if i.type = T_DEV then i.major ≠ CONSOLE else MAXFILE * BSIZE < i.size + n)

/-- A write of `n` bytes at the end of what `f` refers to is refused. -/
def Refuses (s : Kernel) (f : FileSlot) (n : Nat) : Prop :=
  match (s.file f).type with
  | .none => False
  | .pipe => ∃ p, (s.file f).pipe = some p ∧ PipeFull (s.pipe p) ∧
      ((s.pipe p).readopen = false ∨ s.killed = true)
  | .inode => ∃ ip, (s.file f).ip = some ip ∧ RefusesAtEnd (s.inode ip) n

theorem ilock_valid {r : Unit} (hvalid : (s.inode ip).valid = true)
    (hrun : (ilock ip).run s = .ok (r, s')) : (s.inode ip).locked = false ∧
      s' = withInode s ip { s.inode ip with locked := true } := by
  simp only [ilock, acquiresleep, inodeAt_bind_run] at hrun
  split at hrun
  · simp at hrun
  · rw [Prog.bind_ok] at hrun
    obtain ⟨_, s₁, hlock, hrun⟩ := hrun
    rw [inodeAt_bind_run] at hlock
    split at hlock
    · simp at hlock
    · rename_i hfree
      obtain rfl := setInode_ok.mp hlock
      obtain ⟨-, rfl⟩ := Prog.pure_ok.mp hrun
      exact ⟨by simpa using hfree, rfl⟩

theorem iunlock_ok {r : Unit} (hrun : (iunlock ip).run s = .ok (r, s')) :
    s' = withInode s ip { s.inode ip with locked := false } := by
  rw [iunlock, inodeAt_bind_run] at hrun
  split at hrun
  · simp at hrun
  · exact (setInode_ok.mp hrun).symm

theorem writei_refused {r : Int} (href : RefusesAtEnd (s.inode ip) src.length)
    (hlen : src.length < 2 ^ 31)
    (hrun : (writei ip src (s.inode ip).size).run s = .ok (r, s')) : r = -1 ∧ s' = s := by
  obtain ⟨hsize, hkind⟩ := href
  rw [writei, inodeAt_bind_run] at hrun
  simp only at hrun
  split at hrun
  · rename_i hdev
    rw [if_pos hdev] at hkind
    rw [if_pos (Or.inr (Or.inr hkind))] at hrun
    obtain ⟨rfl, rfl⟩ := Prog.pure_ok.mp hrun
    exact ⟨rfl, rfl⟩
  · rename_i hdev
    rw [if_neg hdev] at hkind
    split at hrun
    · obtain ⟨rfl, rfl⟩ := Prog.pure_ok.mp hrun
      exact ⟨rfl, rfl⟩
    · rename_i hfits
      have huint : uint ((s.inode ip).size + src.length) > MAXFILE * BSIZE := by
        unfold uint at hfits ⊢
        omega
      rw [if_pos huint] at hrun
      obtain ⟨rfl, rfl⟩ := Prog.pure_ok.mp hrun
      exact ⟨rfl, rfl⟩

/-- A `uint` that is not negative as an `int`. -/
theorem int_of_nonneg (hn : n < 2 ^ 32) (hnonneg : 0 ≤ int n) : int n = n := by
  unfold int at hnonneg ⊢
  rw [Int.bmod_def] at hnonneg ⊢
  split at hnonneg
  · rename_i hsmall
    rw [if_pos hsmall]
    omega
  · omega

/-- Seeking to the end when one is there. -/
theorem fileseek_atEnd {r : Int} (hip : (s.file f).ip = some ip)
    (hoff : (s.file f).off = (s.inode ip).size) (hsize : (s.inode ip).size < 2 ^ 32)
    (hrun : (fileseek null depth f 0 SEEK_END).run s = .ok (r, s')) : s' = s := by
  cases depth with
  | zero => simp [fileseek] at hrun
  | succ depth =>
      have hsizes : sizeThrough s null (s.file f) = (s.inode ip).size := by
        rw [sizeThrough, hip]
      have htarget : ∀ t, seekTarget (s.file f).off (sizeThrough s null (s.file f)) 0 SEEK_END =
          some t → 0 ≤ t → t = (s.inode ip).size := by
        intro t hsome hnonneg
        have ht : int (s.inode ip).size = t := by
          simpa [seekTarget, hsizes, SEEK_END, SEEK_SET, SEEK_CUR] using hsome
        rw [← ht] at hnonneg ⊢
        exact int_of_nonneg hsize hnonneg
      cases fileseek_cases hrun with
      | refused => rfl
      | inside hsome hnonneg =>
          rw [htarget r hsome hnonneg, Int.toNat_natCast, ← hoff]
          exact withFile_eq_self f
      | grown hsome hgrows =>
          have := htarget r hsome (by omega)
          omega

theorem writeChunk_refused {r : Int} (hip : (s.file f).ip = some ip)
    (hvalid : (s.inode ip).valid = true) (hoff : (s.file f).off = (s.inode ip).size)
    (href : RefusesAtEnd (s.inode ip) src.length) (hlen : src.length < 2 ^ 31)
    (hrun : (writeChunk (fileseek null depth f 0 SEEK_END) f ip src).run s = .ok (r, s')) :
    r = -1 ∧ s' = s := by
  rw [writeChunk, Prog.bind_ok] at hrun
  obtain ⟨_, s₁, hlock, hrun⟩ := hrun
  obtain ⟨hfree, hs₁⟩ := ilock_valid hvalid hlock
  have hi : s₁.inode ip = { s.inode ip with locked := true } := by
    rw [hs₁, withInode_self]
  have hfile : s₁.file = s.file := by
    rw [hs₁]
    rfl
  have hsize : (s₁.inode ip).size = (s.inode ip).size := by rw [hi]
  rw [fileAt_bind_run, Prog.bind_ok] at hrun
  obtain ⟨_, s₂, happend, hrun⟩ := hrun
  obtain rfl : s₂ = s₁ := by
    rw [Prog.when_ok] at happend
    rcases happend with ⟨-, happend⟩ | ⟨-, rfl⟩
    · rw [Prog.bind_ok] at happend
      obtain ⟨_, s₀, hend, happend⟩ := happend
      obtain ⟨-, rfl⟩ := Prog.pure_ok.mp happend
      exact fileseek_atEnd (by rw [hfile, hip]) (by rw [hfile, hsize, hoff])
        (by rw [hsize]; exact href.1) hend
    · rfl
  rw [fileAt_bind_run, Prog.bind_ok, hfile, hoff, ← hsize] at hrun
  obtain ⟨n, s₃, hwrite, hrun⟩ := hrun
  obtain ⟨rfl, rfl⟩ := writei_refused (by rw [hi]; exact href) hlen hwrite
  rw [Prog.when, if_neg (by decide), Prog.pure_bind_run, Prog.bind_ok] at hrun
  obtain ⟨_, s₄, hunlock, hrun⟩ := hrun
  obtain ⟨rfl, rfl⟩ := Prog.pure_ok.mp hrun
  refine ⟨rfl, ?_⟩
  rw [iunlock_ok hunlock, hi, hs₁, withInode_withInode]
  have hsame : ({ s.inode ip with locked := false } : Inode) = s.inode ip :=
    congrArg (fun b => ({ s.inode ip with locked := b } : Inode)) hfree.symm
  rw [show ({ ({ s.inode ip with locked := true } : Inode) with locked := false } : Inode) =
    s.inode ip from hsame]
  simp [withInode]

/-- The first piece of a write that reaches an inode. -/
def firstPiece (n : Nat) : Nat := min n maxChunk

theorem filewrite_refused {r : Int}
    (hvalid : ∀ ip, (s.file f).type = .inode → (s.file f).ip = some ip →
      (s.inode ip).valid = true ∧ (s.file f).off = (s.inode ip).size)
    (href : (s.file f).writable = 0 ∨ Refuses s f (firstPiece src.length))
    (hrun : (filewrite null depth f src).run s = .ok (r, s')) : s' = s := by
  cases depth with
  | zero => simp [filewrite] at hrun
  | succ depth =>
      rw [filewrite, fileAt_bind_run] at hrun
      split at hrun
      · exact (Prog.pure_ok.mp hrun).2.symm
      · rename_i hwritable
        have href := href.resolve_left hwritable
        unfold Refuses at href
        split at hrun
        · rename_i htype
          rw [htype] at href
          obtain ⟨p, hp, hfull, hgone⟩ := href
          rw [hp] at hrun
          exact pipewrite_refused hfull hgone hrun
        · rename_i htype
          rw [htype] at href
          obtain ⟨ip, hip, href⟩ := href
          obtain ⟨hv, hoff⟩ := hvalid ip htype hip
          rw [hip] at hrun
          simp only at hrun
          rw [Prog.bind_ok] at hrun
          obtain ⟨all, s₁, hchunks, hrun⟩ := hrun
          obtain ⟨-, rfl⟩ := Prog.pure_ok.mp hrun
          cases src with
          | nil => exact (Prog.pure_ok.mp hchunks).2.symm
          | cons c rest =>
              rw [List.length_cons, writeChunks, if_neg (by simp)] at hchunks
              simp only at hchunks
              rw [Prog.bind_ok] at hchunks
              obtain ⟨n, s₂, hchunk, hchunks⟩ := hchunks
              have hlen : ((c :: rest).take (min (c :: rest).length maxChunk)).length =
                  firstPiece (c :: rest).length := by
                rw [List.length_take, firstPiece]
                exact min_eq_left (min_le_left ..)
              have hsmall : firstPiece (c :: rest).length < 2 ^ 31 :=
                lt_of_le_of_lt (min_le_right ..) (by decide)
              obtain ⟨rfl, rfl⟩ := writeChunk_refused hip hv hoff (by rw [hlen]; exact href)
                (by rw [hlen]; exact hsmall) hchunk
              rw [if_pos (by decide)] at hchunks
              exact (Prog.pure_ok.mp hchunks).2.symm
        · simp at hrun

theorem fillHole_refused {write : Str → K Int} {fuel : Nat} {r : Unit}
    (hwrite : ∀ k r s', PGSIZE * k < n →
      (write (List.replicate (min (n - PGSIZE * k) PGSIZE) 0)).run s = .ok (r, s') → s' = s)
    (hrun : (fillHole write fuel n).run s = .ok (r, s')) : s' = s := by
  induction fuel generalizing n with
  | zero => exact (Prog.pure_ok.mp hrun).2.symm
  | succ fuel ih =>
      rw [fillHole] at hrun
      split at hrun
      · exact (Prog.pure_ok.mp hrun).2.symm
      · rename_i hn
        rw [Prog.bind_ok] at hrun
        obtain ⟨_, s₁, hone, hrun⟩ := hrun
        obtain rfl := hwrite 0 _ _ (by omega) (by rw [Nat.mul_zero, Nat.sub_zero]; exact hone)
        refine ih (fun k r s' hk hpage => ?_) hrun
        refine hwrite (k + 1) r s' (by rw [Nat.mul_succ]; omega) ?_
        rw [Nat.mul_succ, Nat.add_comm, ← Nat.sub_sub]
        exact hpage

/-! ## Seeks that write nothing -/

/-- `f` is the end of a pipe, or its inode is not a regular file. -/
def Special (s : Kernel) (f : FileSlot) : Prop :=
  (s.file f).type = .pipe ∨
    (s.file f).type = .inode ∧ ∃ ip, (s.file f).ip = some ip ∧ (s.inode ip).type ≠ T_FILE

/-- The seek goes back, or no further than the size it sees; or the file is not
writable; or of every page of NULs that would fill the hole the first piece is
refused. -/
def SeeksStill (s : Kernel) (null : Nat) (f : FileSlot) (offset whence : Int) : Prop :=
  ∀ t, seekTarget (s.file f).off (sizeThrough s null (s.file f)) offset whence = some t →
    (sizeThrough s null (s.file f) : Int) < t →
    (s.file f).writable = 0 ∨
    ∀ k, PGSIZE * k < t.toNat - sizeThrough s null (s.file f) →
      Refuses s f (firstPiece (t.toNat - sizeThrough s null (s.file f) - PGSIZE * k))

/-- Only the offset of `f` differs. -/
def OnlyOff (f : FileSlot) (s s' : Kernel) : Prop :=
  ∃ off, s' = withFile s f { s.file f with off := off }

theorem fileseek_still {offset whence r : Int} (hk : Kept P s 0)
    (hstill : SeeksStill s null f offset whence)
    (hrun : (fileseek null (depth + 1) f offset whence).run s = .ok (r, s')) :
    OnlyOff f s s' := by
  cases fileseek_cases hrun with
  | refused => exact ⟨(s.file f).off, (withFile_eq_self f).symm⟩
  | inside => exact ⟨_, rfl⟩
  | @grown t s₁ htarget hgrows hpages hfill =>
      have href := hstill r htarget hgrows
      obtain rfl : s₁ = seekStart s f (sizeThrough s null (s.file f)) := by
        refine fillHole_refused (fun k r' s'' hk' hpage => ?_) hfill
        have hfile : (seekStart s f (sizeThrough s null (s.file f))).file f =
            { s.file f with off := sizeThrough s null (s.file f) } := withFile_self f _
        refine filewrite_refused (fun ip htype hip => ?_) ?_ hpage
        · rw [hfile] at htype hip ⊢
          refine ⟨(hk.inUse htype hip).valid, ?_⟩
          have hip : (s.file f).ip = some ip := hip
          show sizeThrough s null (s.file f) = (s.inode ip).size
          rw [sizeThrough, hip]
        · rw [List.length_replicate, hfile]
          refine href.imp id fun href => ?_
          have hpiece := href k hk'
          have heq : firstPiece (min (r.toNat - sizeThrough s null (s.file f) - PGSIZE * k)
              PGSIZE) =
              firstPiece (r.toNat - sizeThrough s null (s.file f) - PGSIZE * k) := by
            rw [firstPiece, firstPiece, min_assoc, min_eq_right (a := PGSIZE) (by decide)]
          rw [heq]
          unfold Refuses at hpiece ⊢
          rw [hfile]
          exact hpiece
      refine ⟨r.toNat, ?_⟩
      have hpages' : s.freePages - 1 + 1 = s.freePages := Nat.succ_pred hpages
      simp only [seekEnd, seekStart, withFile, Function.update_self, Function.update_idem, hpages']

/-! ## Runs -/

/-- No inode, no contents, no device output and no pipe differ. -/
structure SameWorld (s s' : Kernel) : Prop where
  inode : s'.inode = s.inode
  dinode : s'.dinode = s.dinode
  bitmap : s'.bitmap = s.bitmap
  block : s'.block = s.block
  output : s'.consoleOut = s.consoleOut
  pipe : s'.pipe = s.pipe

theorem OnlyOff.sameWorld (ho : OnlyOff f s s') : SameWorld s s' := by
  obtain ⟨off, rfl⟩ := ho
  constructor <;> rfl

theorem OnlyOff.keepsPipes (ho : OnlyOff f s s') : KeepsPipes s s' := by
  obtain ⟨off, rfl⟩ := ho
  exact keepsPipes_withFile fun htype => ⟨htype, rfl, rfl, rfl⟩

/-- A seek on a pipe or on anything but a regular file writes nothing. -/
def LseekStill (s : Kernel) : Call → Prop
  | .lseek u => ∀ f offset whence, seekArgs s u = some (f, offset, whence) → Special s f →
      SeeksStill s u.nullSize f offset whence
  | _ => True

/-- After boot there is no pipe, and nobody was killed. -/
structure PipeBoot (s : Kernel) : Prop extends Boot s where
  noPipe : s.nextpipe = 0
  living : s.killed = false

/-- The kernel, one call at a time, with a log of what went through pipes. -/
def piped : System (Kernel × Log) Call where
  init x := PipeBoot x.1 ∧ x.2 = ⟨fun _ => [], fun _ => []⟩
  step x call x' := calls.step x.1 call x'.1 ∧ x'.2 = x.2.after x.1 call

theorem PipeBoot.pipesOk (hb : PipeBoot s) : PipesOk s ⟨fun _ => [], fun _ => []⟩ := by
  have hnone : ∀ f, (s.file f).type ≠ .pipe := fun f => by simp [(hb.files f).2]
  refine ⟨fun f p hend => absurd hend.1 (hnone f), fun f htype => absurd htype (hnone f),
    fun f g p hf => absurd hf.1.1 (hnone f), fun f p hend => absurd hend.1.1 (hnone f), hb.living,
    fun p _ => ⟨rfl, rfl⟩, fun p hlt => ?_⟩
  rw [hb.noPipe] at hlt
  omega

theorem sys_lseek_pipesOk {r : Int} (hk : Kept P s 0) (hp : PipesOk s log)
    (hstill : LseekStill s (.lseek u)) (hrun : (sys_lseek u).run s = .ok (r, s')) :
    PipesOk s' log := by
  rcases sys_lseek_cases hrun with ⟨-, -, rfl⟩ | ⟨f, offset, whence, hargs, hseek⟩
  · exact hp
  · by_cases htype : (s.file f).type = .pipe
    · exact hp.keep
        (fileseek_still hk (hstill f offset whence hargs (Or.inl htype)) hseek).keepsPipes
    · exact hp.keep (((write_seek_quietOn _ 3).2 hseek).keepsPipes htype)

/-- The invariant of runs. -/
def PipesKept (x : Kernel × Log) : Prop := Kept (fun _ _ => True) x.1 0 ∧ PipesOk x.1 x.2

theorem run_pipesKept {tr : List Call} {x : Kernel × Log}
    (hrun : Run piped (fun x => LseekStill x.1) tr x) : PipesKept x := by
  refine hrun.invariant (fun x hx => ?_) fun x call x' hx hstep hok => ?_
  · obtain ⟨hb, hlog⟩ := hx
    rw [PipesKept, hlog]
    exact ⟨hb.toBoot.kept, hb.pipesOk⟩
  · obtain ⟨hk, hp⟩ := hx
    obtain ⟨⟨hen, hcall⟩, hlog⟩ := hstep
    have hmeets : OpenMeets (fun _ _ => True) x.1 call := by
      cases call with
      | «open» above u => exact fun _ _ _ _ _ _ _ => trivial
      | _ => trivial
    refine ⟨call_kept hk hen hmeets hcall, ?_⟩
    rw [hlog]
    by_cases hseek : ∃ u, call = .lseek u
    · obtain ⟨u, rfl⟩ := hseek
      obtain ⟨a, hcall⟩ := ignore_ok.mp hcall
      exact sys_lseek_pipesOk hk hp hok hcall
    · exact call_pipesOk hk hp (fun u hu => hseek ⟨u, hu⟩) hcall

/-- In a run whose seeks on pipes and on what is no regular file write nothing,
such seeks leave everything as it was, and what was read from a pipe is a prefix
of what was passed to `write` on it. -/
theorem lseek_still {tr : List Call} {s : Kernel} {log : Log}
    (hrun : Run piped (fun x => LseekStill x.1) tr (s, log)) :
    (∀ p, log.got p <+: log.put p) ∧
    ∀ u f offset whence r s', seekArgs s u = some (f, offset, whence) → Special s f →
      SeeksStill s u.nullSize f offset whence → (sys_lseek u).run s = .ok (r, s') →
      SameWorld s s' := by
  obtain ⟨hk, hp⟩ := run_pipesKept hrun
  refine ⟨hp.got_prefix, fun u f offset whence r s' hargs hspecial hstill hseek => ?_⟩
  rcases sys_lseek_cases hseek with ⟨hnone, -⟩ | ⟨f', offset', whence', hargs', hseek⟩
  · exact absurd (hnone.symm.trans hargs) (by simp)
  · obtain ⟨rfl, rfl, rfl⟩ : f = f' ∧ offset = offset' ∧ whence = whence' := by
      simpa using hargs.symm.trans hargs'
    exact (fileseek_still hk hstill hseek).sameWorld

/-! ## Two runs -/

/-- Three small arguments; a null `struct inode *` would show the size 0. -/
def fdCall (first second third : UInt8) : User where
  mem a := if a = 4 then first else if a = 8 then second else if a = 12 then third else 0
  sz := 64
  esp := 0

/-- Neither `fork` nor a switch. -/
def Call.own : Call → Bool
  | .fork _ | .switch _ => false
  | _ => true

/-- A call by a process, with its effect on the log. -/
def tryCall (x : Kernel × Log) (call : Call) : Option (Kernel × Log) :=
  if call.own = true ∧ (x.1.proc x.1.cur).cwd ≠ none then
    match call.code.run x.1 with
    | .ok (_, s') => some (s', x.2.after x.1 call)
    | .error _ => none
  else none

theorem step_of_tryCall {x x' : Kernel × Log} {call : Call} (htry : tryCall x call = some x') :
    piped.step x call x' := by
  unfold tryCall at htry
  split at htry
  · rename_i howns
    obtain ⟨hown, hcwd⟩ := howns
    have hen : call.Enabled x.1 := by
      cases call <;> first
        | exact hcwd
        | simp [Call.own] at hown
    split at htry
    · rename_i s' hrun
      obtain rfl := Option.some.inj htry
      exact ⟨⟨hen, hrun⟩, rfl⟩
    · simp at htry
  · simp at htry

theorem piped_init : piped.init (booted, ⟨fun _ => [], fun _ => []⟩) :=
  ⟨⟨booted_boot, rfl, rfl⟩, rfl⟩

/-- A seek that goes no further than the size it sees. -/
def seeksBack (s : Kernel) : Call → Bool
  | .lseek u =>
    match seekArgs s u with
    | none => true
    | some (f, offset, whence) =>
      match seekTarget (s.file f).off (sizeThrough s u.nullSize (s.file f)) offset whence with
      | none => true
      | some t => t ≤ sizeThrough s u.nullSize (s.file f)
  | _ => true

theorem lseekStill_of_seeksBack {call : Call} (hback : seeksBack s call = true) :
    LseekStill s call := by
  cases call with
  | lseek u =>
      intro f offset whence hargs _ t htarget hgrows
      simp only [seeksBack, hargs, htarget, decide_eq_true_eq] at hback
      omega
  | _ => trivial

/-- `pipe`, a seek to the start of the write end, `write` of one byte, `read`. -/
def pipeCalls : List Call :=
  [.pipe (fdCall 16 0 0), .lseek (fdCall 1 0 1), .write (fdCall 1 8 1), .read (fdCall 0 32 5)]

theorem lseek_still_pipe : ∃ s log, Run piped (fun x => LseekStill x.1) pipeCalls.reverse (s, log) ∧
    log.got 0 = [8] ∧ log.got 0 <+: log.put 0 := by
  have htr : ((pipeCalls.foldlM (fun x call => if seeksBack x.1 call then tryCall x call else none)
      (booted, ⟨fun _ => [], fun _ => []⟩)).map fun x => decide (x.2.got 0 = [8])) = some true := by
    decide +kernel
  obtain ⟨⟨s, log⟩, hs, hgot⟩ := Option.map_eq_some_iff.mp htr
  have hrun : Run piped (fun x => LseekStill x.1) pipeCalls.reverse (s, log) := by
    refine Run.of_foldlM piped_init (fun x call x' hnext => ?_) hs
    split at hnext
    · rename_i hback
      exact ⟨step_of_tryCall hnext, lseekStill_of_seeksBack hback⟩
    · simp at hnext
  exact ⟨s, log, hrun, of_decide_eq_true hgot, (lseek_still hrun).1 0⟩

/-- Two descriptors on the root directory are closed, and their slots of the file
table become the two ends of a pipe; the write end is sought to position 5. -/
def staleCalls : List Call :=
  [.open (fun _ => []) (rootCall 0), .open (fun _ => []) (rootCall 0), .close (fdCall 0 0 0),
    .close (fdCall 1 0 0), .pipe (fdCall 16 0 0), .lseek (fdCall 1 5 1), .read (fdCall 0 32 5)]

/-- Five NULs were read from a pipe nobody wrote to. -/
theorem lseek_fills_pipe : ∃ s log, Run piped anyStep staleCalls.reverse (s, log) ∧
    (s.file 1).type = .pipe ∧ (s.file 1).ip = some 0 ∧ log.put 0 = [] ∧
    log.got 0 = [0, 0, 0, 0, 0] ∧ ¬ log.got 0 <+: log.put 0 := by
  have htr : ((staleCalls.foldlM tryCall (booted, ⟨fun _ => [], fun _ => []⟩)).map fun x =>
      decide ((x.1.file 1).type = .pipe ∧ (x.1.file 1).ip = some 0 ∧ x.2.put 0 = [] ∧
        x.2.got 0 = [0, 0, 0, 0, 0])) = some true := by
    decide +kernel
  obtain ⟨⟨s, log⟩, hs, hend⟩ := Option.map_eq_some_iff.mp htr
  obtain ⟨htype, hip, hput, hgot⟩ := of_decide_eq_true hend
  refine ⟨s, log, Run.of_foldlM piped_init
    (fun _ _ _ h => ⟨step_of_tryCall h, trivial⟩) hs, htype, hip, hput, hgot, ?_⟩
  have hput : log.put 0 = [] := hput
  have hgot : log.got 0 = [0, 0, 0, 0, 0] := hgot
  rw [hput, hgot]
  simp

end Fs
end CS444
