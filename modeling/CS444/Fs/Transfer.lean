/-
Reading and writing through a descriptor, by code that has others.

What is read is the piece of the file at the offset, `fileread_next`, and what is
written goes over that piece, `filewrite_next`.  Either way the offset is behind it
afterwards, and `Through` says that nothing else of the tables has changed.
-/
import CS444.Fs.Stat

namespace CS444
namespace Fs

open Bytes Program Ledger

variable {s s₁ s' : Kernel} {ip k : Slot} {fd : Fin NOFILE} {f g : FileSlot} {m n off null : Nat}
  {depth : Nat} {h : Slot → Nat} {r : Int} {bytes src : Str}

/-- Of the tables of files and processes only the offset of `f` is different. -/
structure Through (s : Kernel) (f : FileSlot) (off : Nat) (s' : Kernel) : Prop where
  moves : InodeMoves s 0 s' 0
  file : s'.file = Function.update s.file f { s.file f with off := off }
  proc : s'.proc = s.proc
  cur : s'.cur = s.cur

theorem Through.file_of_ne (ht : Through s f off s') (hg : g ≠ f) : s'.file g = s.file g := by
  rw [ht.file, Function.update_of_ne hg]

theorem Through.file_self (ht : Through s f off s') :
    s'.file f = { s.file f with off := off } := by
  rw [ht.file, Function.update_self]

/-- Descriptors are what they were. -/
theorem Through.sole (ht : Through s f off s') (hf : SoleFile s fd g k) :
    SoleFile s' fd g k := by
  obtain ⟨hfd, htype, hip, href⟩ := hf
  by_cases hg : g = f
  · subst hg
    constructor
    case fd =>
      rw [ht.proc, ht.cur]
      exact hfd
    all_goals
      rw [ht.file_self]
      assumption
  · constructor
    case fd =>
      rw [ht.proc, ht.cur]
      exact hfd
    all_goals
      rw [ht.file_of_ne hg]
      assumption

/-- The offset moves if something was transferred. -/
theorem moved_off (hpos : 0 ≤ r) (hlt : (s.file f).off + r < 2 ^ 32) {u : Unit}
    (hrun : (Prog.when (r > 0) (setFile f fun file =>
      { file with off := uint (file.off + r) })).run s = .ok (u, s')) :
    s' = withFile s f { s.file f with off := (s.file f).off + r.toNat } := by
  rw [Prog.when_ok] at hrun
  rcases hrun with ⟨-, hrun⟩ | ⟨hzero, rfl⟩
  · obtain rfl := setFile_ok.mp hrun
    have huint : uint ((s.file f).off + r) = (s.file f).off + r.toNat := by
      unfold uint
      omega
    rw [huint]
  · have hr : r.toNat = 0 := by omega
    rw [hr, Nat.add_zero]
    exact (withFile_eq_self f).symm

/-! ## Reading -/

theorem fileread_next (hm : Midway s h none) (hf : SoleFile s fd f ip)
    (hinum : (s.inode ip).inum = m) (htype : (tree s m).type = T_FILE)
    (hreadable : (s.file f).readable = true)
    (hoff : (s.file f).off ≤ (tree s m).contents.length) (hn : n < 2 ^ 31)
    (hrun : (fileread f n).run s = .ok ((r, bytes), s')) :
    bytes = ((tree s m).contents.drop (s.file f).off).take n ∧ r = bytes.length ∧
      Midway s' h none ∧ SameDisk s s' ∧ Through s f ((s.file f).off + bytes.length) s' := by
  have hc := hm.sound.toCoherent
  rw [fileread, fileAt_bind_run, if_neg (by rw [hreadable]; decide), hf.type] at hrun
  simp only [hf.ip] at hrun
  rw [Prog.bind_ok] at hrun
  obtain ⟨_, s₁, hlock, hrun⟩ := hrun
  obtain ⟨hsince, hl⟩ := (hc.sinceHere none).ilock hc hlock
  rw [hinum] at hl
  have huint : uint n = n := uint_of_lt (by omega)
  have hdev : (s₁.inode ip).type ≠ T_DEV := by
    rw [hl.type]
    exact fun h => absurd (h.symm.trans htype) (by decide)
  have hcached := hl.cached hsince
  have hsize : (s₁.inode ip).size = (tree s m).contents.length := by
    rw [← hcached, length_cached]
  have hfilled := hl.filled hsince hc
  have hbounded := hfilled.bounded
  rw [maxSize] at hbounded
  have hbytes : span (fileMem s₁.block (s₁.inode ip).addrs) (s.file f).off
      (min n ((s₁.inode ip).size - (s.file f).off)) =
        ((tree s m).contents.drop (s.file f).off).take n := by
    rw [← hcached, cached, drop_span (by omega), take_span_min, Nat.zero_add]
  have hlen : (((tree s m).contents.drop (s.file f).off).take n).length =
      min n ((s₁.inode ip).size - (s.file f).off) := by
    rw [← hbytes, length_span]
  rw [huint, Prog.bind_eq (readi_eq hfilled hdev (by omega) hn), hbytes, ← hlen] at hrun
  generalize ((tree s m).contents.drop (s.file f).off).take n = piece at hrun hlen
  simp only at hrun
  rw [Prog.bind_ok] at hrun
  obtain ⟨_, s₂, hmove, hrun⟩ := hrun
  rw [Prog.bind_ok] at hrun
  obtain ⟨_, s₃, hunlock, hrun⟩ := hrun
  obtain ⟨hres, rfl⟩ := Prog.pure_ok.mp hrun
  obtain ⟨rfl, rfl⟩ := Prod.mk.inj hres
  have htables := hsince.moves.tables
  have hfile : s₁.file f = s.file f := congrFun htables.file f
  obtain rfl := moved_off (by omega) (by rw [hfile]; omega) hmove
  have hsame : SameInodes s₁ (withFile s₁ f { s₁.file f with
      off := (s₁.file f).off + (piece.length : Int).toNat }) := ⟨⟨rfl, rfl, rfl, rfl⟩, rfl⟩
  have hm₂ := hsame.midway (hm.since hsince)
  obtain ⟨hsince₃, -⟩ := (hm₂.sound.toCoherent.sinceHere (some ip)).iunlock hunlock
  have hm₃ := hm₂.since hsince₃
  rw [add_zero, add_zero] at hm₃
  refine ⟨rfl, rfl, hm₃, (hsince.disk.trans hsame.toSameDisk).trans hsince₃.disk, ?_⟩
  constructor
  case moves =>
    exact (hsince.moves.toInodeMoves.trans (.of_eq hsame.inode hsame.dinode 0)).trans
      hsince₃.moves.toInodeMoves
  case file =>
    rw [hsince₃.moves.tables.file, hfile, Int.toNat_natCast]
    show Function.update s₁.file f _ = _
    rw [htables.file]
  case proc => exact hsince₃.moves.tables.proc.trans htables.proc
  case cur => exact hsince₃.moves.tables.cur.trans htables.cur

/-! ## Writing -/

/-- `src` went over the file `m` from `off` on. -/
structure Overwritten (s : Kernel) (m off : Nat) (src : Str) (s' : Kernel) : Prop where
  self : tree s' m = ⟨(tree s m).type, splice (tree s m).contents off src⟩
  others : ∀ n, (s.dinode n).type ≠ 0 → n ≠ m → tree s' n = tree s n
  types : ∀ n, (s'.dinode n).type = (s.dinode n).type

theorem Wrote.overwritten (hw : Wrote s ip off src s') (hs : Sound s) (hu : InUse s ip)
    (hinum : (s.inode ip).inum = m) : Overwritten s m off src s' := by
  have htypes : ∀ n, (s'.dinode n).type = (s.dinode n).type :=
    fun n => (hw.dinode_keys hs hu n).1
  refine ⟨?_, fun n hn hnm => hw.tree_other hinum hnm hn, htypes⟩
  rw [← hw.tree_self hinum]
  show (⟨(s'.dinode m).type, _⟩ : Node) = ⟨(s.dinode m).type, _⟩
  rw [htypes m]
  rfl

/-- A chunk through a file that is not for appending. -/
theorem writeChunk_next {seek : K Int} (hm : Midway s h none)
    (hinum : (s.inode ip).inum = m) (htype : (tree s m).type = T_FILE)
    (hmode : (s.file f).writable = FILE_WRITEABLE)
    (hoff : (s.file f).off ≤ (tree s m).contents.length)
    (hend : (s.file f).off + src.length ≤ MAXFILE * BSIZE)
    (hrun : (writeChunk seek f ip src).run s = .ok (r, s')) :
    r = src.length ∧ Midway s' h none ∧ Overwritten s m (s.file f).off src s' ∧
      Through s f ((s.file f).off + src.length) s' := by
  have hc := hm.sound.toCoherent
  rw [writeChunk, Prog.bind_ok] at hrun
  obtain ⟨_, s₁, hlock, hrun⟩ := hrun
  obtain ⟨hsince, hl⟩ := (hc.sinceHere none).ilock hc hlock
  rw [hinum] at hl
  have htables := hsince.moves.tables
  have hfile : s₁.file f = s.file f := congrFun htables.file f
  rw [fileAt_bind_run, hfile, hmode, Prog.when, if_neg (by decide), Prog.pure_bind_run,
    fileAt_bind_run, hfile, Prog.bind_ok] at hrun
  obtain ⟨r', s₂, hwrite, hrun⟩ := hrun
  have hm₁ := hm.since hsince
  rw [add_zero] at hm₁
  have hdev : (s₁.inode ip).type ≠ T_DEV := by
    rw [hl.type]
    exact fun h => absurd (h.symm.trans htype) (by decide)
  have hsize : (s₁.inode ip).size = (tree s m).contents.length := by
    rw [← hl.cached hsince, length_cached]
  rw [maxSize] at hend
  rcases writei_wrote hm₁.sound hl.inUse hdev (by omega) hwrite with
    ⟨-, -, hout⟩ | ⟨rfl, -, -, hw⟩
  · rw [maxSize] at hout
    omega
  · rw [Prog.bind_ok] at hrun
    obtain ⟨_, s₃, hmove, hrun⟩ := hrun
    rw [Prog.bind_ok] at hrun
    obtain ⟨_, s₄, hunlock, hrun⟩ := hrun
    obtain ⟨rfl, rfl⟩ := Prog.pure_ok.mp hrun
    have hfile₂ : s₂.file f = s.file f := (congrFun hw.tables.file f).trans hfile
    obtain rfl := moved_off (by omega) (by rw [hfile₂]; omega) hmove
    have hsame : SameInodes s₂ (withFile s₂ f { s₂.file f with
        off := (s₂.file f).off + (src.length : Int).toNat }) := ⟨⟨rfl, rfl, rfl, rfl⟩, rfl⟩
    have hm₃ := hsame.midway (hm₁.wrote hl.inUse hw)
    obtain ⟨hsince₄, -⟩ := (hm₃.sound.toCoherent.sinceHere (some ip)).iunlock hunlock
    have hm₄ := hm₃.since hsince₄
    rw [add_zero] at hm₄
    refine ⟨rfl, hm₄, ?_, ?_⟩
    · obtain ⟨hself, hothers, htypes⟩ := hw.overwritten hm₁.sound hl.inUse hl.inum
      have hd := hsame.toSameDisk.trans hsince₄.disk
      rw [hsince.disk.tree] at hself hothers
      rw [hsince.disk.dinode] at hothers htypes
      constructor
      · rw [hd.tree]
        exact hself
      · rw [hd.tree]
        exact hothers
      · rw [hd.dinode]
        exact htypes
    · have hmoves := writei_moves hwrite hl.inUse.valid hl.inUse.pos
      constructor
      case moves =>
        exact ((hsince.moves.toInodeMoves.trans hmoves.toInodeMoves).trans
          (.of_eq hsame.inode hsame.dinode 0)).trans hsince₄.moves.toInodeMoves
      case file =>
        rw [hsince₄.moves.tables.file, hfile₂, Int.toNat_natCast]
        show Function.update s₂.file f _ = _
        rw [hw.tables.file, htables.file]
      case proc =>
        rw [hsince₄.moves.tables.proc, ← htables.proc, ← hw.tables.proc]
        rfl
      case cur =>
        rw [hsince₄.moves.tables.cur, ← htables.cur, ← hw.tables.cur]
        rfl

/-- The loop of `filewrite` for what fits in one chunk. -/
theorem writeChunks_one {chunk : Str → K Int} {all : Bool} (hpos : src ≠ [])
    (hlen : src.length ≤ maxChunk)
    (hrun : (writeChunks chunk src.length src).run s = .ok (all, s')) :
    ∃ r, (chunk src).run s = .ok (r, s') ∧ (0 ≤ r → all = true ∧ r = src.length) := by
  obtain ⟨fuel, hfuel⟩ : ∃ fuel, src.length = fuel + 1 :=
    ⟨src.length - 1, by have := List.length_pos_iff.mpr hpos; omega⟩
  rw [hfuel, writeChunks, if_neg hpos] at hrun
  simp only [Nat.min_eq_left hlen, List.take_length, List.drop_length] at hrun
  rw [Prog.bind_ok] at hrun
  obtain ⟨r, s₁, hchunk, hrun⟩ := hrun
  split at hrun
  · obtain ⟨rfl, rfl⟩ := Prog.pure_ok.mp hrun
    exact ⟨r, hchunk, fun h => absurd h (by omega)⟩
  · split at hrun
    · exact absurd hrun (by simp)
    · rename_i hr
      have hdone : all = true ∧ s' = s₁ := by
        cases fuel with
        | zero =>
            obtain ⟨rfl, rfl⟩ := Prog.pure_ok.mp hrun
            exact ⟨rfl, rfl⟩
        | succ fuel =>
            rw [writeChunks, if_pos rfl] at hrun
            obtain ⟨rfl, rfl⟩ := Prog.pure_ok.mp hrun
            exact ⟨rfl, rfl⟩
      obtain ⟨rfl, rfl⟩ := hdone
      exact ⟨r, hchunk, fun _ => ⟨rfl, not_not.mp hr⟩⟩

/-- A write of one chunk inside the bound of the format. -/
theorem filewrite_next (hm : Midway s h none) (hf : SoleFile s fd f ip)
    (hinum : (s.inode ip).inum = m) (htype : (tree s m).type = T_FILE)
    (hmode : (s.file f).writable = FILE_WRITEABLE)
    (hoff : (s.file f).off ≤ (tree s m).contents.length) (hpos : src ≠ [])
    (hlen : src.length ≤ maxChunk) (hend : (s.file f).off + src.length ≤ MAXFILE * BSIZE)
    (hrun : (filewrite null (depth + 1) f src).run s = .ok (r, s')) :
    r = src.length ∧ Midway s' h none ∧ Overwritten s m (s.file f).off src s' ∧
      Through s f ((s.file f).off + src.length) s' := by
  rw [filewrite, fileAt_bind_run, if_neg (by rw [hmode]; decide), hf.type] at hrun
  simp only [hf.ip] at hrun
  rw [Prog.bind_ok] at hrun
  obtain ⟨all, s₁, hchunks, hrun⟩ := hrun
  obtain ⟨rfl, rfl⟩ := Prog.pure_ok.mp hrun
  obtain ⟨r, hchunk, hall⟩ := writeChunks_one hpos hlen hchunks
  obtain ⟨rfl, hrest⟩ := writeChunk_next hm hinum htype hmode hoff hend hchunk
  obtain ⟨rfl, -⟩ := hall (by omega)
  exact ⟨rfl, hrest⟩

end Fs
end CS444
