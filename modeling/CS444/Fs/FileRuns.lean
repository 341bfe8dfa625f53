/-
Reading, writing and seeking in a regular file, as runs that return.

`RegularFile s ip old` says that the entry `ip` is a regular file that holds `old`
and for which there is `Room`.  Under it every call inside the bound of the
format returns, with a result and a state that are told exactly: `fileread_run`,
`filewrite_run`, `fileseek_run`.
-/
import CS444.Fs.Room
import CS444.Fs.Seek

namespace CS444
namespace Fs

open Bytes Program

variable {s s₁ s' : Kernel} {ip : Slot} {f : FileSlot} {null depth n : Nat}
  {old src rest : Str} {offset whence : Int}

/-! ## The file -/

/-- The entry `ip` is a regular file that holds `old`. -/
structure RegularFile (s : Kernel) (ip : Slot) (old : Str) : Prop where
  sound : Sound s
  inUse : InUse s ip
  type : (s.inode ip).type = T_FILE
  room : Room s ip
  holds : cached s ip = old

theorem RegularFile.size (hr : RegularFile s ip old) : (s.inode ip).size = old.length := by
  rw [← hr.holds, length_cached]

theorem RegularFile.bounded (hr : RegularFile s ip old) : old.length ≤ 71680 := by
  rw [← hr.size, ← maxSize]
  exact (hr.sound.toCoherent.filled_entry hr.inUse).bounded

/-- Whatever is no inode, and no part of the disk, may change. -/
theorem RegularFile.same (hr : RegularFile s ip old) (hd : SameFiles s s') :
    RegularFile s' ip old := by
  have hi := hd.inode ip
  refine ⟨hd.sound hr.sound, ⟨?_, ?_⟩, ?_, ?_, ?_⟩
  · rw [hi]
    exact hr.inUse.valid
  · rw [hi]
    exact hr.inUse.pos
  · rw [hi]
    exact hr.type
  · refine hr.room.congr hd.disk.sb hd.disk.bitmap ?_
    rw [hd.disk.block, hi]
  · rw [← hr.holds]
    unfold cached
    rw [hd.disk.block, hi]

/-- The state with the entry `ip` locked. -/
def lockIn (s : Kernel) (ip : Slot) : Kernel := withInode s ip { s.inode ip with locked := true }

@[simp] theorem lockIn_self :
    (lockIn s ip).inode ip = { s.inode ip with locked := true } := withInode_self ..

@[simp] theorem lockIn_file : (lockIn s ip).file = s.file := rfl

theorem lock_run (hu : InUse s ip) (hfree : (s.inode ip).locked = false) :
    (ilock ip).run s = .ok ((), lockIn s ip) := by
  rw [ilock_run ⟨hu.pos, hfree, Or.inl hu.valid⟩, lockedIn, if_pos hu.valid]
  rfl

theorem unlock_run (hlocked : (s.inode ip).locked = true) (hpos : 0 < (s.inode ip).ref) :
    (iunlock ip).run s = .ok ((), withInode s ip { s.inode ip with locked := false }) :=
  iunlock_iff.mpr ⟨⟨hlocked, hpos⟩, rfl⟩

theorem unlock_lockIn (hfree : (s.inode ip).locked = false) :
    withInode (lockIn s ip) ip { (lockIn s ip).inode ip with locked := false } = s := by
  rw [lockIn, withInode_withInode, withInode_self]
  show withInode s ip { s.inode ip with locked := false } = s
  rw [← hfree]
  show { s with inode := Function.update s.inode ip (s.inode ip) } = s
  rw [Function.update_eq_self]

/-- The file record `file` is open on `ip`. -/
structure FdOn (file : File) (ip : Slot) : Prop where
  type : file.type = .inode
  opens : file.ip = some ip

/-- `f->writable` of a file opened with `O_RDWR`. -/
def fileMode (append : Bool) : Nat :=
  FILE_WRITEABLE ||| (if append then FILE_APPENDABLE else FILE_NOWRITE)

theorem fileMode_append {append : Bool} :
    fileMode append &&& FILE_APPENDABLE ≠ 0 ↔ append = true := by
  cases append <;> decide

/-! ## Reading -/

/-- `readi` of a part of the file. -/
theorem RegularFile.readi_run {off : Nat} (hr : RegularFile s ip old) (hoff : off ≤ old.length)
    (hn : n < 2 ^ 31) : (readi ip off n).run s =
      .ok ((((old.drop off).take n).length, (old.drop off).take n), s) := by
  have hsize := hr.size
  have hdev : (s.inode ip).type ≠ T_DEV := by
    rw [hr.type]
    decide
  rw [readi_eq (hr.sound.toCoherent.filled_entry hr.inUse) hdev (by omega) hn]
  have hbytes : (old.drop off).take n =
      span (fileMem s.block (s.inode ip).addrs) off (min n ((s.inode ip).size - off)) := by
    rw [← hr.holds, cached, drop_span (by omega), take_span_min, Nat.zero_add]
  rw [hbytes, length_span]

/-- `fileread` returns the bytes from the offset on. -/
theorem fileread_run (hr : RegularFile s ip old) (hfree : (s.inode ip).locked = false)
    (ho : FdOn (s.file f) ip) (hreadable : (s.file f).readable = true)
    (hoff : (s.file f).off ≤ old.length) (hn : n < 2 ^ 31) : (fileread f n).run s =
      .ok ((((old.drop (s.file f).off).take n).length, (old.drop (s.file f).off).take n),
        withFile s f
          { s.file f with off := (s.file f).off + ((old.drop (s.file f).off).take n).length }) := by
  have hbound := hr.bounded
  have hlocked : RegularFile (lockIn s ip) ip old := hr.same (sameFiles_locked true)
  have huint : uint n = n := uint_of_lt (by omega)
  have hlen : ((old.drop (s.file f).off).take n).length ≤ old.length - (s.file f).off := by
    rw [List.length_take, List.length_drop]
    omega
  rw [fileread, fileAt_bind_run, if_neg (by rw [hreadable]; decide), ho.type]
  simp only [ho.opens]
  rw [Prog.bind_eq (lock_run hr.inUse hfree), huint, Prog.bind_eq (hlocked.readi_run hoff hn)]
  generalize (old.drop (s.file f).off).take n = bytes at hlen ⊢
  simp only
  have hmove : (Prog.when ((bytes.length : Int) > 0)
      (setFile f fun file => { file with off := uint (file.off + bytes.length) })).run
        (lockIn s ip) = .ok ((), withFile (lockIn s ip) f
          { s.file f with off := (s.file f).off + bytes.length }) := by
    by_cases hpos : (bytes.length : Int) > 0
    · have hmove : uint ((s.file f).off + bytes.length) = (s.file f).off + bytes.length := by
        rw [← uint_of_lt (n := (s.file f).off + bytes.length) (by omega), Nat.cast_add]
      rw [Prog.when, if_pos hpos]
      show Except.ok ((), withFile (lockIn s ip) f
        { s.file f with off := uint ((s.file f).off + bytes.length) }) = _
      rw [hmove]
    · have hzero : bytes.length = 0 := by omega
      rw [Prog.when, if_neg hpos, Prog.pure_run, hzero, Nat.add_zero]
      exact congrArg (fun s => Except.ok ((), s)) (withFile_eq_self f).symm
  rw [Prog.bind_eq hmove, Prog.bind_eq (unlock_run (by simp [withFile]) (by
    simpa [withFile] using hr.inUse.pos)), Prog.pure_run]
  congr 2
  show withFile (withInode (lockIn s ip) ip { (lockIn s ip).inode ip with locked := false }) f _ =
    withFile s f _
  rw [unlock_lockIn hfree, ← ho.opens]

/-! ## Writing -/

/-- Where a write through a file with offset `off` goes. -/
def startAt (append : Bool) (off size : Nat) : Nat := if append then size else off

/-- `fileseek` inside the file. -/
theorem fileseek_inside {t : Int}
    (htarget : seekTarget (s.file f).off (sizeThrough s null (s.file f)) offset whence = some t)
    (h0 : 0 ≤ t) (hin : t ≤ sizeThrough s null (s.file f)) :
    (fileseek null (depth + 1) f offset whence).run s =
      .ok (t, withFile s f { s.file f with off := t.toNat }) := by
  rw [fileseek, fileAt_bind_run, fileSize_bind_run, htarget]
  simp only
  rw [if_neg (by omega), Prog.when, if_neg (by omega)]
  rfl

/-- What a chunk does: `src` is over what was at the start, and the offset behind it. -/
structure Stored (s : Kernel) (f : FileSlot) (ip : Slot) (old : Str) (start : Nat) (src : Str)
    (s' : Kernel) : Prop where
  regular : RegularFile s' ip (splice old start src)
  entry : s'.inode ip = { s.inode ip with
    size := (s'.inode ip).size, addrs := (s'.inode ip).addrs }
  others : ∀ k, k ≠ ip → s'.inode k = s.inode k
  file : s'.file = Function.update s.file f { s.file f with off := start + src.length }
  proc : s'.proc = s.proc
  cur : s'.cur = s.cur
  pages : s'.freePages = s.freePages

/-- `writei` inside the bound of the format. -/
theorem RegularFile.writei_run {off : Nat} (hr : RegularFile s ip old) (hoff : off ≤ old.length)
    (hend : off + src.length ≤ MAXFILE * BSIZE) : ∃ s',
      (writei ip src off).run s = .ok (src.length, s') ∧ Wrote s ip off src s' ∧
        RegularFile s' ip (splice old off src) ∧ s'.freePages = s.freePages := by
  have hsize := hr.size
  have hdev : (s.inode ip).type ≠ T_DEV := by
    rw [hr.type]
    decide
  have hlen : src.length < 2 ^ 31 := by
    rw [maxSize] at hend
    omega
  obtain ⟨r, s', hrun, hroom⟩ := writei_returns hr.sound hr.inUse hdev hend hr.room
  rcases writei_wrote hr.sound hr.inUse hdev hlen hrun with ⟨-, -, hout⟩ | ⟨rfl, -, -, hw⟩
  · omega
  refine ⟨s', hrun, hw, ?_, hroom.pages⟩
  have hu : InUse s' ip := by
    constructor
    · rw [hw.entry]
      exact hr.inUse.valid
    · rw [hw.entry]
      exact hr.inUse.pos
  refine ⟨hw.sound, hu, ?_, hroom.room, ?_⟩
  · rw [hw.entry]
    exact hr.type
  · have hinum : (s'.inode ip).inum = (s.inode ip).inum := by rw [hw.entry]
    rw [hw.sound.toCoherent.cached hu, hinum, hw.written, ← hr.sound.toCoherent.cached hr.inUse,
      hr.holds]

/-- Moving the offset to where the chunk goes. -/
theorem append_run {append : Bool} (hr : RegularFile s ip old) (ho : FdOn (s.file f) ip)
    (hmode : (s.file f).writable = fileMode append) :
    (Prog.when ((s.file f).writable &&& FILE_APPENDABLE ≠ 0) (do
      let _ ← fileseek null (depth + 1) f 0 SEEK_END)).run s = .ok ((), withFile s f
        { s.file f with off := startAt append (s.file f).off old.length }) := by
  have hbound := hr.bounded
  unfold startAt
  rw [hmode, Prog.when]
  by_cases happend : append = true
  · have hsize : sizeThrough s null (s.file f) = old.length := by
      rw [sizeThrough, ho.opens]
      exact hr.size
    have htarget : seekTarget (s.file f).off (sizeThrough s null (s.file f)) 0 SEEK_END =
        some (old.length : Int) := by
      rw [hsize, seekTarget, if_neg (by decide), if_neg (by decide), if_pos rfl, add_zero,
        int_of_lt (by omega) (by omega)]
    rw [if_pos (fileMode_append.mpr happend), if_pos happend,
      Prog.bind_eq (fileseek_inside htarget (by omega) (by omega)), Prog.pure_run]
    rfl
  · rw [if_neg fun h => happend (fileMode_append.mp h), if_neg happend, Prog.pure_run]
    exact congrArg (fun s => Except.ok ((), s)) (withFile_eq_self f).symm

theorem writeChunk_run {append : Bool} (hr : RegularFile s ip old)
    (hfree : (s.inode ip).locked = false) (ho : FdOn (s.file f) ip)
    (hmode : (s.file f).writable = fileMode append) (hoff : (s.file f).off ≤ old.length)
    (hend : startAt append (s.file f).off old.length + src.length ≤ MAXFILE * BSIZE) :
    ∃ s', (writeChunk (fileseek null (depth + 1) f 0 SEEK_END) f ip src).run s =
      .ok (src.length, s') ∧
        Stored s f ip old (startAt append (s.file f).off old.length) src s' := by
  have hlocked : RegularFile (lockIn s ip) ip old := hr.same (sameFiles_locked true)
  have hseek : (Prog.when ((s.file f).writable &&& FILE_APPENDABLE ≠ 0) (do
      let _ ← fileseek null (depth + 1) f 0 SEEK_END)).run (lockIn s ip) =
        .ok ((), withFile (lockIn s ip) f
          { s.file f with off := startAt append (s.file f).off old.length }) :=
    append_run hlocked ho hmode
  have hstart : startAt append (s.file f).off old.length ≤ old.length := by
    unfold startAt
    split
    · exact le_rfl
    · exact hoff
  generalize startAt append (s.file f).off old.length = start at *
  obtain ⟨s₃, hwrite, hw, hr₃, hpages⟩ := (hlocked.same (sameFiles_withFile (f := f)
    { s.file f with off := start })).writei_run hstart hend
  rw [maxSize] at hend
  have hfile₃ : s₃.file f = { s.file f with off := start } := by
    rw [hw.tables.file, withFile_self]
  have hentry₃ : s₃.inode ip = { s.inode ip with
      locked := true, size := (s₃.inode ip).size, addrs := (s₃.inode ip).addrs } := by
    rw [hw.entry]
    simp [withFile]
  have hmove : (Prog.when ((src.length : Int) > 0)
      (setFile f fun file => { file with off := uint (file.off + (src.length : Int)) })).run s₃ =
        .ok ((), withFile s₃ f { s.file f with off := start + src.length }) := by
    by_cases hpos : (src.length : Int) > 0
    · have huint : uint (start + src.length) = start + src.length := by
        rw [← uint_of_lt (n := start + src.length) (by omega), Nat.cast_add]
      rw [Prog.when, if_pos hpos]
      show Except.ok ((), withFile s₃ f
        { s₃.file f with off := uint ((s₃.file f).off + src.length) }) = _
      rw [hfile₃, huint]
    · have hzero : src.length = 0 := by omega
      rw [Prog.when, if_neg hpos, Prog.pure_run, hzero, Nat.add_zero, ← hfile₃, withFile_eq_self]
  have hunlock : (iunlock ip).run (withFile s₃ f { s.file f with off := start + src.length }) =
      .ok ((), withInode (withFile s₃ f { s.file f with off := start + src.length }) ip
        { s₃.inode ip with locked := false }) := by
    refine unlock_run ?_ ?_
    · show (s₃.inode ip).locked = true
      rw [hentry₃]
    · show 0 < (s₃.inode ip).ref
      rw [hentry₃]
      exact hr.inUse.pos
  refine ⟨withInode (withFile s₃ f { s.file f with off := start + src.length }) ip
    { s₃.inode ip with locked := false }, ?_, ?_⟩
  · rw [writeChunk, Prog.bind_eq (lock_run hr.inUse hfree), fileAt_bind_run, lockIn_file,
      Prog.bind_eq hseek, fileAt_bind_run, withFile_self, Prog.bind_eq hwrite, Prog.bind_eq hmove,
      Prog.bind_eq hunlock, Prog.pure_run]
  · constructor
    case regular =>
      exact (hr₃.same (sameFiles_withFile _)).same (sameFiles_locked false)
    case entry =>
      rw [withInode_self]
      simp only
      rw [hentry₃, hfree]
    case others =>
      intro k hk
      rw [withInode_of_ne hk]
      show s₃.inode k = s.inode k
      rw [hw.others k hk]
      exact withInode_of_ne hk
    case file =>
      show Function.update s₃.file f _ = _
      rw [hw.tables.file]
      exact Function.update_idem ..
    case proc => exact hw.tables.proc
    case cur => exact hw.tables.cur
    case pages => exact hpages

theorem splice_splice {off : Nat} (hoff : off ≤ old.length) :
    splice (splice old off src) (off + src.length) rest = splice old off (src ++ rest) := by
  have hlen : (old.take off ++ src).length = off + src.length := by
    rw [List.length_append, List.length_take]
    omega
  unfold splice
  rw [List.take_left' hlen, List.drop_append, List.drop_of_length_le (by omega), hlen,
    List.drop_drop, List.nil_append, List.append_assoc, List.append_assoc, List.length_append]
  have hend : off + src.length + (off + src.length + rest.length - (off + src.length)) =
      off + (src.length + rest.length) := by omega
  rw [hend, List.append_assoc, List.append_assoc]

theorem Stored.trans {start : Nat} (hstart : start ≤ old.length)
    (hab : Stored s f ip old start src s₁)
    (hbc : Stored s₁ f ip (splice old start src) (start + src.length) rest s') :
    Stored s f ip old start (src ++ rest) s' := by
  constructor
  case regular =>
    rw [← splice_splice hstart]
    exact hbc.regular
  case entry =>
    rw [hbc.entry, hab.entry]
  case others => exact fun k hk => (hbc.others k hk).trans (hab.others k hk)
  case file =>
    rw [hbc.file, hab.file, Function.update_idem, Function.update_self, List.length_append,
      Nat.add_assoc]
  case proc => exact hbc.proc.trans hab.proc
  case cur => exact hbc.cur.trans hab.cur
  case pages => exact hbc.pages.trans hab.pages

theorem Stored.fdOn {start : Nat} (hst : Stored s f ip old start src s')
    (ho : FdOn (s.file f) ip) : FdOn (s'.file f) ip := by
  rw [hst.file, Function.update_self]
  exact ⟨ho.type, ho.opens⟩

/-- All of `src`, chunk by chunk: one chunk starts where the last one ended. -/
theorem writeChunks_run {append : Bool} {fuel : Nat} (hr : RegularFile s ip old)
    (hfree : (s.inode ip).locked = false) (ho : FdOn (s.file f) ip)
    (hmode : (s.file f).writable = fileMode append) (hoff : (s.file f).off ≤ old.length)
    (hend : startAt append (s.file f).off old.length + src.length ≤ MAXFILE * BSIZE)
    (hfuel : src.length ≤ fuel) :
    ∃ s', (writeChunks (writeChunk (fileseek null (depth + 1) f 0 SEEK_END) f ip) fuel src).run s =
      .ok (true, s') ∧ (src = [] → s' = s) ∧ (src ≠ [] →
        Stored s f ip old (startAt append (s.file f).off old.length) src s') := by
  induction fuel generalizing s old src with
  | zero =>
      obtain rfl : src = [] := List.eq_nil_of_length_eq_zero (by omega)
      exact ⟨s, rfl, fun _ => rfl, fun h => absurd rfl h⟩
  | succ fuel ih =>
      rw [writeChunks]
      by_cases hnil : src = []
      · rw [if_pos hnil]
        exact ⟨s, rfl, fun _ => rfl, fun h => absurd hnil h⟩
      · have hpos := List.length_pos_iff.mpr hnil
        have hmax : maxChunk = 1536 := rfl
        rw [if_neg hnil]
        simp only
        generalize hm : min src.length maxChunk = m
        have hlen : (src.take m).length = m := by
          rw [List.length_take]
          omega
        have hdrop : (src.drop m).length = src.length - m := List.length_drop
        have hstart : startAt append (s.file f).off old.length ≤ old.length := by
          unfold startAt
          split
          · exact le_rfl
          · exact hoff
        obtain ⟨s₁, hchunk, hst⟩ : ∃ s₁,
            (writeChunk (fileseek null (depth + 1) f 0 SEEK_END) f ip (src.take m)).run s =
              .ok ((src.take m).length, s₁) ∧
            Stored s f ip old (startAt append (s.file f).off old.length) (src.take m) s₁ :=
          writeChunk_run hr hfree ho hmode hoff (by omega)
        rw [Prog.bind_eq hchunk, hlen, if_neg (by omega), if_neg (by omega)]
        have hfile : s₁.file f = { s.file f with
            off := startAt append (s.file f).off old.length + m } := by
          rw [hst.file, Function.update_self, hlen]
        have hoff₁ : (s₁.file f).off = startAt append (s.file f).off old.length + m := by
          rw [hfile]
        have hlong := length_splice (src.take m) hstart
        rw [hlen] at hlong
        have hnext : startAt append (s₁.file f).off
            (splice old (startAt append (s.file f).off old.length) (src.take m)).length =
              startAt append (s.file f).off old.length + m := by
          rw [hoff₁, hlong]
          unfold startAt
          by_cases happend : append = true
          · rw [if_pos happend, if_pos happend]
            omega
          · rw [if_neg happend, if_neg happend]
        have hend₁ : startAt append (s₁.file f).off
            (splice old (startAt append (s.file f).off old.length) (src.take m)).length +
              (src.drop m).length ≤ MAXFILE * BSIZE := by
          rw [hnext]
          omega
        obtain ⟨s', hrest, hsame, hst'⟩ := ih hst.regular (by rw [hst.entry]; exact hfree)
          (hst.fdOn ho) (by rw [hfile]; exact hmode)
          (by omega) hend₁ (by omega)
        refine ⟨s', hrest, fun h => absurd h hnil, fun _ => ?_⟩
        by_cases hdone : src.drop m = []
        · rw [hsame hdone, ← List.take_append_drop m src, hdone, List.append_nil]
          exact hst
        · have hst' := hst' hdone
          rw [hnext] at hst'
          have hall := hst.trans hstart (by rw [hlen]; exact hst')
          rwa [List.take_append_drop] at hall

theorem fileMode_ne_zero (append : Bool) : fileMode append ≠ 0 := by
  cases append <;> decide

/-- `filewrite` inside the bound of the format. -/
theorem filewrite_run {append : Bool} (hr : RegularFile s ip old)
    (hfree : (s.inode ip).locked = false) (ho : FdOn (s.file f) ip)
    (hmode : (s.file f).writable = fileMode append) (hoff : (s.file f).off ≤ old.length)
    (hend : startAt append (s.file f).off old.length + src.length ≤ MAXFILE * BSIZE) :
    ∃ s', (filewrite null (depth + 2) f src).run s = .ok (src.length, s') ∧
      (src = [] → s' = s) ∧ (src ≠ [] →
        Stored s f ip old (startAt append (s.file f).off old.length) src s') := by
  obtain ⟨s', hrun, hstored⟩ : ∃ s', (writeChunks
      (writeChunk (fileseek null (depth + 1) f 0 SEEK_END) f ip) src.length src).run s =
        .ok (true, s') ∧ _ := writeChunks_run hr hfree ho hmode hoff hend le_rfl
  refine ⟨s', ?_, hstored⟩
  rw [filewrite, fileAt_bind_run, if_neg (by rw [hmode]; exact fileMode_ne_zero append), ho.type]
  simp only
  rw [ho.opens]
  simp only
  rw [Prog.bind_eq hrun, Prog.pure_run, if_pos rfl]

/-! ## Seeking -/

theorem Stored.free {start : Nat} (hst : Stored s f ip old start src s')
    (hfree : (s.inode ip).locked = false) : (s'.inode ip).locked = false := by
  rw [hst.entry]
  exact hfree

/-- The hole up to the new position is filled, page by page. -/
theorem fillHole_run {append : Bool} {fuel : Nat} (hr : RegularFile s ip old)
    (hfree : (s.inode ip).locked = false) (ho : FdOn (s.file f) ip)
    (hmode : (s.file f).writable = fileMode append) (hoff : (s.file f).off = old.length)
    (hend : old.length + n ≤ MAXFILE * BSIZE) (hfuel : n ≤ fuel) :
    ∃ s', (fillHole (filewrite null (depth + 2) f) fuel n).run s = .ok ((), s') ∧
      (n = 0 → s' = s) ∧ (n ≠ 0 →
        Stored s f ip old old.length (List.replicate n 0) s') := by
  induction fuel generalizing s old n with
  | zero => exact ⟨s, rfl, fun _ => rfl, fun h => absurd (Nat.le_zero.mp hfuel) h⟩
  | succ fuel ih =>
      rw [fillHole]
      by_cases hzero : n = 0
      · rw [if_pos hzero]
        exact ⟨s, rfl, fun _ => rfl, fun h => absurd hzero h⟩
      · have hpage : PGSIZE = 4096 := rfl
        have hstart : startAt append (s.file f).off old.length = old.length := by
          rw [hoff, startAt, ite_self]
        have hlen : (List.replicate (min n PGSIZE) (0 : UInt8)).length = min n PGSIZE :=
          List.length_replicate
        have hend₁ : startAt append (s.file f).off old.length +
            (List.replicate (min n PGSIZE) (0 : UInt8)).length ≤ MAXFILE * BSIZE := by
          rw [hstart, hlen]
          omega
        obtain ⟨s₁, hwrite, -, hst⟩ : ∃ s₁, (filewrite null (depth + 2) f
            (List.replicate (min n PGSIZE) 0)).run s = .ok (_, s₁) ∧ _ :=
          filewrite_run hr hfree ho hmode hoff.le hend₁
        have hne : List.replicate (min n PGSIZE) (0 : UInt8) ≠ [] := by
          apply List.ne_nil_of_length_pos
          rw [hlen]
          omega
        have hst := hst hne
        rw [hstart] at hst
        have hlong := length_splice (List.replicate (min n PGSIZE) 0) (le_refl old.length)
        have hoff₁ : (s₁.file f).off = old.length + min n PGSIZE := by
          rw [hst.file, Function.update_self, hlen]
        have hmode₁ : (s₁.file f).writable = fileMode append := by
          rw [hst.file, Function.update_self]
          exact hmode
        rw [if_neg hzero, Prog.bind_eq hwrite]
        obtain ⟨s', hrest, hsame, hst'⟩ := ih hst.regular (hst.free hfree) (hst.fdOn ho) hmode₁
          (n := n - PGSIZE) (by omega) (by omega) (by omega)
        refine ⟨s', hrest, fun h => absurd h hzero, fun _ => ?_⟩
        by_cases hdone : n - PGSIZE = 0
        · rw [hsame hdone]
          rwa [Nat.min_eq_left (by omega)] at hst
        · have hnext : (splice old old.length (List.replicate (min n PGSIZE) 0)).length =
              old.length + (List.replicate (min n PGSIZE) (0 : UInt8)).length := by omega
          have hst' := hst' hdone
          rw [hnext] at hst'
          have hall := hst.trans le_rfl hst'
          rw [List.replicate_append_replicate] at hall
          rwa [show min n PGSIZE + (n - PGSIZE) = n by omega] at hall

/-- A seek that stays inside the bound of the format: NULs are written up to the
position, if it is past the end. -/
theorem fileseek_run {append : Bool} {t : Int} (hr : RegularFile s ip old)
    (hfree : (s.inode ip).locked = false) (ho : FdOn (s.file f) ip)
    (hmode : (s.file f).writable = fileMode append) (hpages : 0 < s.freePages)
    (htarget : seekTarget (s.file f).off old.length offset whence = some t) (h0 : 0 ≤ t)
    (hmax : t ≤ MAXFILE * BSIZE) :
    ∃ s', (fileseek null (depth + 3) f offset whence).run s = .ok (t, s') ∧
      Stored s f ip old (min t.toNat old.length)
        (List.replicate (t.toNat - old.length) 0) s' := by
  have hsize : sizeThrough s null (s.file f) = old.length := by
    rw [sizeThrough, ho.opens]
    exact hr.size
  rw [← hsize] at htarget
  by_cases hin : t ≤ old.length
  · refine ⟨_, fileseek_inside htarget h0 (by omega), ?_⟩
    rw [Nat.min_eq_left (by omega), Nat.sub_eq_zero_of_le (by omega), List.replicate_zero]
    have hsame : splice old t.toNat [] = old := by
      rw [splice, List.length_nil, Nat.add_zero, List.append_nil, List.take_append_drop]
    constructor
    case regular =>
      rw [hsame]
      exact hr.same (sameFiles_withFile _)
    all_goals intros; rfl
  · have hstart : RegularFile (seekStart s f old.length) ip old := hr.same sameFiles_seekStart
    have hfile : (seekStart s f old.length).file f = { s.file f with off := old.length } :=
      withFile_self f _
    obtain ⟨s₁, hfill, -, hst⟩ : ∃ s₁, (fillHole (filewrite null (depth + 2) f)
        (t.toNat - old.length) (t.toNat - old.length)).run (seekStart s f old.length) =
          .ok ((), s₁) ∧ _ :=
      fillHole_run hstart hfree (by rw [hfile]; exact ⟨ho.type, ho.opens⟩)
        (by rw [hfile]; exact hmode) (by rw [hfile]) (by omega) le_rfl
    have hst := hst (by omega)
    have hfile₁ : s₁.file f = { s.file f with
        off := old.length + (List.replicate (t.toNat - old.length) (0 : UInt8)).length } := by
      rw [hst.file, Function.update_self, hfile]
    have hkalloc : kalloc.run s = .ok (true, { s with freePages := s.freePages - 1 }) := by
      rw [kalloc, Prog.get_bind_run, if_neg (by omega)]
      rfl
    refine ⟨seekEnd s₁ f t.toNat, ?_, ?_⟩
    · rw [fileseek, fileAt_bind_run, fileSize_bind_run, htarget]
      simp only
      rw [if_neg (by omega), Prog.when, if_pos (by omega), Prog.bind_bind_run,
        Prog.bind_eq hkalloc, hsize, Prog.bind_bind_run, setFile_bind_run, Prog.bind_bind_run]
      exact Prog.bind_eq hfill
    · rw [Nat.min_eq_right (by omega)]
      constructor
      case regular => exact hst.regular.same ⟨⟨rfl, rfl, rfl, rfl⟩, fun _ => rfl⟩
      case entry => exact hst.entry
      case others => exact hst.others
      case file =>
        show Function.update s₁.file f { s₁.file f with off := t.toNat } = _
        rw [hfile₁, hst.file, Function.update_idem, List.length_replicate,
          show old.length + (t.toNat - old.length) = t.toNat by omega]
        exact Function.update_idem ..
      case proc => exact hst.proc
      case cur => exact hst.cur
      case pages =>
        show s₁.freePages + 1 = s.freePages
        rw [hst.pages]
        show s.freePages - 1 + 1 = s.freePages
        omega

end Fs
end CS444
