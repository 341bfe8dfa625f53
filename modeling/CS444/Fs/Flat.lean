/-
A regular file as a flat array of bytes.

`Flat` is what a reader of the manual has in mind: the bytes of the file and an
offset.  Chunks of a transaction, blocks, indirect blocks and pages of NULs do
not show: `flat_refined` says that any calls of `fileread`, `filewrite` and
`fileseek` that stay inside the bound of the format return what the flat file
says and leave what it says.
-/
import CS444.Fs.FileRuns

namespace CS444
namespace Fs

open Bytes Program

/-! ## The flat file -/

/-- The bytes of a file, and an offset into them. -/
structure Flat where
  contents : Str
  off : Nat
deriving DecidableEq

/-- A call on an open file: `n` is what is asked for, `src` what is written. -/
inductive FileOp where
  | read (n : Nat)
  | write (src : Str)
  | seek (offset whence : Int)

namespace Flat

/-- Where the next byte is written. -/
def start (append : Bool) (m : Flat) : Nat := startAt append m.off m.contents.length

/-- The position a seek asks for. -/
def target (m : Flat) (offset whence : Int) : Option Int :=
  seekPosition m.off m.contents.length offset whence

def read (m : Flat) (n : Nat) : (Int × Str) × Flat :=
  let bytes := (m.contents.drop m.off).take n
  ((bytes.length, bytes), { m with off := m.off + bytes.length })

def write (append : Bool) (m : Flat) (src : Str) : Flat :=
  if src = [] then m
  else ⟨splice m.contents (m.start append) src, m.start append + src.length⟩

/-- NULs are appended up to a position past the end. -/
def moveTo (m : Flat) (p : Nat) : Flat :=
  ⟨m.contents ++ List.replicate (p - m.contents.length) 0, p⟩

def seek (m : Flat) (offset whence : Int) : Int × Flat :=
  match m.target offset whence with
  | none => (-1, m)
  | some p => if p < 0 then (-1, m) else (p, m.moveTo p.toNat)

/-- What a call returns, with the bytes read, and what it leaves. -/
def step (append : Bool) (m : Flat) : FileOp → (Int × Str) × Flat
  | .read n => m.read n
  | .write src => ((src.length, []), m.write append src)
  | .seek offset whence => (((m.seek offset whence).1, []), (m.seek offset whence).2)

def run (append : Bool) : Flat → List FileOp → List (Int × Str) × Flat
  | m, [] => ([], m)
  | m, op :: ops =>
    let rest := run append (m.step append op).2 ops
    ((m.step append op).1 :: rest.1, rest.2)

/-- The call stays inside the bound of the format, and its arguments are `int`s. -/
def InBounds (append : Bool) (m : Flat) : FileOp → Prop
  | .read n => n < 2 ^ 31
  | .write src => m.start append + src.length ≤ MAXFILE * BSIZE
  | .seek offset whence => -2 ^ 31 ≤ offset ∧ offset < 2 ^ 31 ∧
    ∀ p, m.target offset whence = some p → p ≤ MAXFILE * BSIZE

/-- All calls do, each from where the ones before it lead. -/
def AllInBounds (append : Bool) : Flat → List FileOp → Prop
  | _, [] => True
  | m, op :: ops => m.InBounds append op ∧ AllInBounds append (m.step append op).2 ops

end Flat

/-! ## The open file -/

/-- The call as the kernel runs it on `f`, for `sys_read`, `sys_write` and `sys_lseek`. -/
def FileOp.call (null : Nat) (f : FileSlot) : FileOp → K (Int × Str)
  | .read n => fileread f n
  | .write src => do
    let r ← filewrite null 2 f src
    return (r, [])
  | .seek offset whence => do
    let r ← fileseek null 3 f offset whence
    return (r, [])

def callAll (null : Nat) (f : FileSlot) : List FileOp → K (List (Int × Str))
  | [] => pure []
  | op :: ops => do
    let r ← op.call null f
    let rest ← callAll null f ops
    return r :: rest

/-- `f` is open with `O_RDWR` on the regular file `ip`, which holds what `m` says. -/
structure OpenFlat (append : Bool) (s : Kernel) (f : FileSlot) (ip : Slot) (m : Flat) : Prop where
  regular : RegularFile s ip m.contents
  free : (s.inode ip).locked = false
  fdOn : FdOn (s.file f) ip
  readable : (s.file f).readable = true
  writable : (s.file f).writable = fileMode append
  off : (s.file f).off = m.off
  within : m.off ≤ m.contents.length
  pages : 0 < s.freePages

variable {append : Bool} {s s' : Kernel} {f : FileSlot} {ip : Slot} {m : Flat} {null : Nat}
  {offset whence p : Int} {src : Str}

theorem Flat.start_le (h : m.off ≤ m.contents.length) : m.start append ≤ m.contents.length := by
  unfold Flat.start startAt
  split
  · exact le_rfl
  · exact h

/-- A stored piece is what the flat file has. -/
theorem OpenFlat.stored {start : Nat} (hh : OpenFlat append s f ip m)
    (hstart : start ≤ m.contents.length)
    (hst : Stored s f ip m.contents start src s') :
    OpenFlat append s' f ip ⟨splice m.contents start src, start + src.length⟩ := by
  have hfile : s'.file f = { s.file f with off := start + src.length } := by
    rw [hst.file, Function.update_self]
  constructor
  case regular => exact hst.regular
  case free => exact hst.free hh.free
  case fdOn => exact hst.fdOn hh.fdOn
  case readable =>
    rw [hfile]
    exact hh.readable
  case writable =>
    rw [hfile]
    exact hh.writable
  case off => rw [hfile]
  case within =>
    rw [length_splice src hstart]
    exact le_max_right ..
  case pages =>
    rw [hst.pages]
    exact hh.pages

/-- The 32-bit sum is the position, as long as that is in bounds. -/
theorem seekTarget_eq {off size : Nat} (hoff : off ≤ 71680) (hsize : size ≤ 71680)
    (hlow : -2 ^ 31 ≤ offset) (hin : ∀ p, seekPosition off size offset whence = some p →
      p ≤ MAXFILE * BSIZE) :
    seekTarget off size offset whence = seekPosition off size offset whence := by
  have hmax : (MAXFILE : Int) * BSIZE = 71680 := by decide
  rw [hmax] at hin
  unfold seekTarget
  unfold seekPosition at hin ⊢
  by_cases hset : whence = SEEK_SET
  · rw [if_pos hset, if_pos hset]
  · rw [if_neg hset] at hin ⊢
    rw [if_neg hset]
    by_cases hcur : whence = SEEK_CUR
    · rw [if_pos hcur] at hin ⊢
      have := hin _ rfl
      rw [if_pos hcur, int, Int.bmod_eq_of_le (by omega) (by omega)]
    · rw [if_neg hcur] at hin ⊢
      rw [if_neg hcur]
      by_cases hend : whence = SEEK_END
      · rw [if_pos hend] at hin ⊢
        have := hin _ rfl
        rw [if_pos hend, int, Int.bmod_eq_of_le (by omega) (by omega)]
      · rw [if_neg hend, if_neg hend]

/-- A seek that is refused. -/
theorem fileseek_refused {depth size : Nat} (hsize : sizeThrough s null (s.file f) = size)
    (hneg : ∀ t, seekTarget (s.file f).off size offset whence = some t → t < 0) :
    (fileseek null (depth + 1) f offset whence).run s = .ok (-1, s) := by
  rw [fileseek, fileAt_bind_run, fileSize_bind_run, hsize]
  cases htarget : seekTarget (s.file f).off size offset whence with
  | none => rfl
  | some t =>
      simp only
      rw [if_pos (hneg t htarget), Prog.pure_run]

/-- Moving the offset of the file. -/
theorem OpenFlat.moved {off : Nat} (hh : OpenFlat append s f ip m)
    (hoff : off ≤ m.contents.length) :
    OpenFlat append (withFile s f { s.file f with off := off }) f ip { m with off := off } := by
  have hfile := withFile_self (s := s) f { s.file f with off := off }
  constructor
  case regular => exact hh.regular.same (sameFiles_withFile _)
  case free => exact hh.free
  case fdOn =>
    rw [hfile]
    exact ⟨hh.fdOn.type, hh.fdOn.opens⟩
  case readable =>
    rw [hfile]
    exact hh.readable
  case writable =>
    rw [hfile]
    exact hh.writable
  case off => rw [hfile]
  case within => exact hoff
  case pages => exact hh.pages

theorem read_refined {n : Nat} (hh : OpenFlat append s f ip m) (hn : n < 2 ^ 31) :
    ∃ s', (fileread f n).run s = .ok ((m.read n).1, s') ∧
      OpenFlat append s' f ip (m.read n).2 := by
  have hwithin := hh.within
  have hread := fileread_run hh.regular hh.free hh.fdOn hh.readable (by rw [hh.off]; exact hwithin)
    hn
  rw [hh.off] at hread
  refine ⟨_, hread, hh.moved ?_⟩
  rw [List.length_take, List.length_drop]
  omega

theorem write_refined (null : Nat) (hh : OpenFlat append s f ip m)
    (hin : m.start append + src.length ≤ MAXFILE * BSIZE) :
    ∃ s', (filewrite null 2 f src).run s = .ok (src.length, s') ∧
      OpenFlat append s' f ip (m.write append src) := by
  obtain ⟨s', hrun, hsame, hstored⟩ : ∃ s', (filewrite null 2 f src).run s = .ok (_, s') ∧ _ :=
    filewrite_run hh.regular hh.free hh.fdOn hh.writable (by rw [hh.off]; exact hh.within)
      (by rw [hh.off]; exact hin)
  refine ⟨s', hrun, ?_⟩
  unfold Flat.write
  by_cases hnil : src = []
  · rw [if_pos hnil, hsame hnil]
    exact hh
  · rw [if_neg hnil]
    have hst := hstored hnil
    rw [hh.off] at hst
    exact hh.stored (Flat.start_le hh.within) hst

/-- The bytes of a seek: NULs at the end, if any. -/
theorem splice_zeros {old : Str} {p : Nat} :
    splice old (min p old.length) (List.replicate (p - old.length) 0) =
      old ++ List.replicate (p - old.length) 0 := by
  by_cases hin : p ≤ old.length
  · rw [Nat.sub_eq_zero_of_le hin, splice, List.replicate_zero, List.append_nil, List.append_nil,
      List.length_nil, Nat.add_zero, List.take_append_drop]
  · rw [Nat.min_eq_right (by omega), splice_end]

theorem seek_refined (null : Nat) (hh : OpenFlat append s f ip m)
    (hin : m.InBounds append (.seek offset whence)) :
    ∃ s', (fileseek null 3 f offset whence).run s = .ok ((m.seek offset whence).1, s') ∧
      OpenFlat append s' f ip (m.seek offset whence).2 := by
  have hbound := hh.regular.bounded
  have hwithin := hh.within
  obtain ⟨hlow, -, hmax⟩ := hin
  unfold Flat.target at hmax
  have htarget := seekTarget_eq (by omega) (by omega) hlow hmax
  have hsize : sizeThrough s null (s.file f) = m.contents.length := by
    rw [sizeThrough, hh.fdOn.opens]
    exact hh.regular.size
  unfold Flat.seek Flat.target
  rw [← hh.off] at hmax htarget ⊢
  cases hpos : seekPosition (s.file f).off m.contents.length offset whence with
  | none =>
      refine ⟨s, fileseek_refused hsize fun t ht => ?_, hh⟩
      rw [htarget, hpos] at ht
      exact absurd ht (by simp)
  | some p =>
      rw [hpos] at htarget
      simp only
      by_cases hneg : p < 0
      · rw [if_pos hneg]
        refine ⟨s, fileseek_refused hsize fun t ht => ?_, hh⟩
        rw [htarget] at ht
        exact Option.some.inj ht ▸ hneg
      · rw [if_neg hneg]
        obtain ⟨s', hrun, hst⟩ : ∃ s', (fileseek null 3 f offset whence).run s = .ok (_, s') ∧ _ :=
          fileseek_run hh.regular hh.free hh.fdOn hh.writable hh.pages htarget (by omega)
            (hmax p hpos)
        refine ⟨s', hrun, ?_⟩
        have hnext := hh.stored (Nat.min_le_right ..) hst
        rw [splice_zeros, List.length_replicate,
          show min p.toNat m.contents.length + (p.toNat - m.contents.length) = p.toNat by omega]
          at hnext
        exact hnext

/-- One call does what the flat file does. -/
theorem step_refined (null : Nat) {op : FileOp} (hh : OpenFlat append s f ip m)
    (hin : m.InBounds append op) :
    ∃ s', (op.call null f).run s = .ok ((m.step append op).1, s') ∧
      OpenFlat append s' f ip (m.step append op).2 := by
  cases op with
  | read n => exact read_refined hh hin
  | write src =>
      obtain ⟨s', hrun, hnext⟩ := write_refined null hh hin
      refine ⟨s', ?_, hnext⟩
      rw [FileOp.call, Prog.bind_eq hrun]
      rfl
  | seek offset whence =>
      obtain ⟨s', hrun, hnext⟩ := seek_refined null hh hin
      refine ⟨s', ?_, hnext⟩
      rw [FileOp.call, Prog.bind_eq hrun]
      rfl

/-- Any calls inside the bound of the format return what the flat file returns, and leave
its bytes and its offset. -/
theorem flat_refined {ops : List FileOp} (hh : OpenFlat append s f ip m)
    (hin : m.AllInBounds append ops) :
    ∃ s', (callAll null f ops).run s = .ok ((m.run append ops).1, s') ∧
      OpenFlat append s' f ip (m.run append ops).2 := by
  induction ops generalizing s m with
  | nil => exact ⟨s, rfl, hh⟩
  | cons op ops ih =>
      obtain ⟨s₁, hcall, hh₁⟩ := step_refined null hh hin.1
      obtain ⟨s', hrest, hh'⟩ := ih hh₁ hin.2
      refine ⟨s', ?_, hh'⟩
      rw [callAll, Prog.bind_eq hcall, Prog.bind_eq hrest, Prog.pure_run]
      rfl

theorem oneFile_room (writable : Nat) : Room (oneFile writable) 0 := by
  have hmissing : missing (oneFile writable).block ((oneFile writable).inode 0).addrs ≤
      MAXFILE + 1 := Nat.count_le _
  have hfree : MAXFILE + 1 ≤ freeBlocks (oneFile writable) := by
    show MAXFILE + 1 ≤ Nat.count (fun b => decide (b < 59) = false) 1000
    decide +kernel
  exact hmissing.trans hfree

theorem oneFile_flat : OpenFlat false (oneFile 1) 0 0 ⟨[], 0⟩ where
  regular := ⟨oneFile_sound 1, (oneFile_opened 1).inUse, rfl, oneFile_room 1, rfl⟩
  free := rfl
  fdOn := ⟨rfl, rfl⟩
  readable := rfl
  writable := rfl
  off := rfl
  within := Nat.le_refl 0
  pages := by
    show 0 < 100
    decide

/-- Three bytes are written, the file grows to five, and the end of it is read. -/
theorem flat_refined_three : ∃ s', (callAll 0 0
    [.write [1, 2, 3], .seek 5 SEEK_SET, .seek (-4) SEEK_END, .read 9]).run (oneFile 1) =
      .ok ([(3, []), (5, []), (1, []), (4, [2, 3, 0, 0])], s') ∧
    OpenFlat false s' 0 0 ⟨[1, 2, 3, 0, 0], 5⟩ := by
  refine flat_refined oneFile_flat ⟨?_, ?_, ?_, ?_, trivial⟩
  · show 0 + 3 ≤ MAXFILE * BSIZE
    decide
  · refine ⟨by decide, by decide, fun p hp => ?_⟩
    obtain rfl : 5 = p := Option.some.inj hp
    decide
  · refine ⟨by decide, by decide, fun p hp => ?_⟩
    obtain rfl : 1 = p := Option.some.inj hp
    decide
  · show 9 < 2 ^ 31
    decide

end Fs
end CS444
