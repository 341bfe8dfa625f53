/-
What `fileseek` says and what it does.

A position past the end is reached by writing NULs with `filewrite`, whose
result `fileseek` does not look at.  `seek_truthful_iff` says when the position
it returns is the one asked for and the file has grown to it: the 32-bit sum did
not wrap around, and if the file has to grow then it is open for writing and the
position is one a block map can hold.
-/
import CS444.Fs.SeekFrame
import CS444.Fs.Writes

namespace CS444
namespace Fs

open Bytes Program

variable {s s₀ s₁ s' : Kernel} {ip : Slot} {f : FileSlot} {null depth n : Nat}
  {offset whence v : Int}

/-! ## States that differ in locks -/

/-- Only locks, offsets and what is no inode differ. -/
structure SameFiles (s s' : Kernel) : Prop where
  disk : SameDisk s s'
  inode : ∀ k, s'.inode k = { s.inode k with locked := (s'.inode k).locked }

theorem SameFiles.sound (hd : SameFiles s s') (hs : Sound s) : Sound s' := by
  have href : ∀ k, (s'.inode k).ref = (s.inode k).ref := fun k => by rw [hd.inode k]
  have hinum : ∀ k, (s'.inode k).inum = (s.inode k).inum := fun k => by rw [hd.inode k]
  have hvalid : ∀ k, (s'.inode k).valid = (s.inode k).valid := fun k => by rw [hd.inode k]
  have htype : ∀ k, (s'.inode k).type = (s.inode k).type := fun k => by rw [hd.inode k]
  have hdisk : ∀ k, (s'.inode k).disk = (s.inode k).disk := fun k => by
    rw [hd.inode k]
    rfl
  constructor
  case small =>
    rw [hd.disk.sb]
    exact hs.small
  case laid =>
    rw [hd.disk.bitmap, hd.disk.block, hd.disk.dinode]
    exact hs.laid
  case toCoherent =>
    constructor
    case cache =>
      constructor
      case nonneg =>
        intro k
        rw [href k]
        exact hs.cache.nonneg k
      case dev =>
        intro k
        rw [href k, hd.inode k]
        exact hs.cache.dev k
      case unique =>
        intro j k
        rw [href j, href k, hinum j, hinum k]
        exact hs.cache.unique j k
      case coherent =>
        intro k
        rw [href k, hvalid k, hinum k, htype k, hd.disk.dinode]
        exact hs.cache.coherent k
    case clean =>
      intro k
      rw [href k, hvalid k, hinum k, hdisk k, hd.disk.dinode]
      exact hs.clean k
    case filled =>
      rw [hd.disk.block, hd.disk.dinode]
      exact hs.filled
    case live =>
      intro n hn hlink
      rw [hd.disk.dinode] at hn hlink
      obtain ⟨k, hk, hki⟩ := hs.live n hn hlink
      exact ⟨k, by rw [href k]; exact hk, by rw [hinum k]; exact hki⟩

theorem sameFiles_locked (b : Bool) :
    SameFiles s (withInode s ip { s.inode ip with locked := b }) := by
  refine ⟨⟨rfl, rfl, rfl, rfl⟩, fun k => ?_⟩
  by_cases hk : k = ip
  · rw [hk, withInode_self]
  · rw [withInode_of_ne hk]

theorem sameFiles_withFile (file : File) : SameFiles s (withFile s f file) :=
  ⟨⟨rfl, rfl, rfl, rfl⟩, fun _ => rfl⟩

/-- What a valid entry holds is what the disk has. -/
theorem Coherent.cached (hs : Coherent s) (hu : InUse s ip) :
    cached s ip = contents s.block (s.dinode (s.inode ip).inum) := by
  rw [← (hs.typed hu).1]
  rfl

theorem splice_end {old src : Str} : splice old old.length src = old ++ src := by
  rw [splice, List.take_length, List.drop_of_length_le (by omega), List.append_nil]

/-! ## Growing a file by NULs -/

/-- The file `f` is open on the regular file `ip`. -/
structure OpenRegular (s : Kernel) (f : FileSlot) (ip : Slot) : Prop where
  type : (s.file f).type = .inode
  opens : (s.file f).ip = some ip
  inUse : InUse s ip
  regular : (s.inode ip).type = T_FILE

/-- From `s` on, `n` NULs were written at the end of the file, where the offset is. -/
structure Padded (s : Kernel) (f : FileSlot) (ip : Slot) (n : Nat) (s' : Kernel) : Prop where
  sound : Sound s'
  opened : OpenRegular s' f ip
  writable : (s'.file f).writable = (s.file f).writable
  inum : (s'.inode ip).inum = (s.inode ip).inum
  size : (s'.inode ip).size = (s.inode ip).size + n
  off : (s'.file f).off = (s'.inode ip).size
  zeros : cached s' ip = cached s ip ++ List.replicate n 0

theorem Padded.refl (hs : Sound s) (ho : OpenRegular s f ip)
    (hoff : (s.file f).off = (s.inode ip).size) : Padded s f ip 0 s :=
  ⟨hs, ho, rfl, rfl, rfl, hoff, (List.append_nil _).symm⟩

theorem Padded.trans {m : Nat} (hab : Padded s f ip n s₁) (hbc : Padded s₁ f ip m s') :
    Padded s f ip (n + m) s' := by
  refine ⟨hbc.sound, hbc.opened, hbc.writable.trans hab.writable, hbc.inum.trans hab.inum, ?_,
    hbc.off, ?_⟩
  · rw [hbc.size, hab.size, Nat.add_assoc]
  · rw [hbc.zeros, hab.zeros, List.append_assoc, List.replicate_append_replicate]

/-- Taking or dropping a lock. -/
theorem SameFiles.padded (hd : SameFiles s s') (hs : Sound s) (ho : OpenRegular s f ip)
    (hfile : s'.file = s.file) (hoff : (s.file f).off = (s.inode ip).size) :
    Padded s f ip 0 s' := by
  have hi := hd.inode ip
  refine ⟨hd.sound hs, ⟨?_, ?_, ⟨?_, ?_⟩, ?_⟩, ?_, ?_, ?_, ?_, ?_⟩
  · rw [hfile]
    exact ho.type
  · rw [hfile]
    exact ho.opens
  · rw [hi]
    exact ho.inUse.valid
  · rw [hi]
    exact ho.inUse.pos
  · rw [hi]
    exact ho.regular
  · rw [hfile]
  · rw [hi]
  · rw [hi, Nat.add_zero]
  · rw [hfile, hi]
    exact hoff
  · rw [List.replicate_zero, List.append_nil]
    unfold cached
    rw [hd.disk.block, hi]

/-- Writing at the end and moving the offset there. -/
theorem Wrote.padded (hw : Wrote s ip (s.inode ip).size (List.replicate n 0) s') (hs : Sound s)
    (ho : OpenRegular s f ip) :
    Padded s f ip n
      (withFile s' f { s'.file f with off := (s.inode ip).size + n }) := by
  have hlen : (List.replicate n (0 : UInt8)).length = n := List.length_replicate
  have hentry := hw.entry
  have hclean := hw.disk
  rw [hlen, Nat.max_eq_right (by omega)] at hentry
  have hfile : s'.file f = s.file f := congrFun hw.tables.file f
  have hu : InUse s' ip := by
    constructor
    · rw [hentry]
      exact ho.inUse.valid
    · rw [hentry]
      exact ho.inUse.pos
  have hinum : (s'.inode ip).inum = (s.inode ip).inum := by rw [hentry]
  refine ⟨(sameFiles_withFile _).sound hw.sound, ⟨?_, ?_, ⟨hu.valid, hu.pos⟩, ?_⟩,
    ?_, ?_, ?_, ?_, ?_⟩
  · rw [withFile_self, hfile]
    exact ho.type
  · rw [withFile_self, hfile]
    exact ho.opens
  · show (s'.inode ip).type = T_FILE
    rw [hentry]
    exact ho.regular
  · rw [withFile_self, hfile]
  · exact hinum
  · show (s'.inode ip).size = _
    rw [hentry]
  · rw [withFile_self]
    show _ = (s'.inode ip).size
    rw [hentry]
  · show Fs.cached s' ip = _
    have hsize : (Fs.cached s ip).length = (s.inode ip).size := length_cached
    have hwritten := hw.written
    rw [← hinum, ← hw.sound.toCoherent.cached hu, hinum, ← hs.toCoherent.cached ho.inUse,
      ← hsize, splice_end] at hwritten
    exact hwritten

/-- One chunk of NULs. -/
theorem writeChunk_pads {r : Int} (hs : Sound s) (ho : OpenRegular s f ip)
    (hoff : (s.file f).off = (s.inode ip).size) (hn : n < 2 ^ 31)
    (hrun : (writeChunk (fileseek null depth f 0 SEEK_END) f ip (List.replicate n 0)).run s =
      .ok (r, s')) :
    (r = -1 ∧ Padded s f ip 0 s' ∧ MAXFILE * BSIZE < (s.inode ip).size + n) ∨
      r = n ∧ Padded s f ip n s' := by
  have hsize := (hs.toCoherent.filled_entry ho.inUse).bounded
  rw [maxSize] at hsize
  rw [writeChunk, Prog.bind_ok] at hrun
  obtain ⟨_, s₁, hlock, hrun⟩ := hrun
  obtain ⟨-, hs₁⟩ := ilock_valid ho.inUse.valid hlock
  have hlocked : Padded s f ip 0 s₁ := by
    rw [hs₁]
    exact (sameFiles_locked true).padded hs ho rfl hoff
  rw [fileAt_bind_run, Prog.bind_ok] at hrun
  obtain ⟨_, s₂, happend, hrun⟩ := hrun
  obtain rfl : s₂ = s₁ := by
    rw [Prog.when_ok] at happend
    rcases happend with ⟨-, happend⟩ | ⟨-, rfl⟩
    · rw [Prog.bind_ok] at happend
      obtain ⟨_, s₀, hend, happend⟩ := happend
      obtain ⟨-, rfl⟩ := Prog.pure_ok.mp happend
      exact fileseek_atEnd hlocked.opened.opens hlocked.off (by rw [hlocked.size]; omega) hend
    · rfl
  rw [fileAt_bind_run, Prog.bind_ok, hlocked.off] at hrun
  obtain ⟨r', s₃, hwrite, hrun⟩ := hrun
  rw [Prog.bind_ok] at hrun
  obtain ⟨_, s₄, hmove, hrun⟩ := hrun
  rw [Prog.bind_ok] at hrun
  obtain ⟨_, s₅, hunlock, hrun⟩ := hrun
  obtain ⟨rfl, rfl⟩ := Prog.pure_ok.mp hrun
  have hunlocked : ∀ {k : Nat}, Padded s f ip k s₄ → Padded s f ip k s₅ := by
    intro k hk
    rw [iunlock_ok hunlock]
    exact hk.trans ((sameFiles_locked false).padded hk.sound hk.opened rfl hk.off)
  have hlen : (List.replicate n (0 : UInt8)).length = n := List.length_replicate
  have hdev : (s₂.inode ip).type ≠ T_DEV := by
    rw [hlocked.opened.regular]
    decide
  rcases writei_wrote hlocked.sound hlocked.opened.inUse hdev (by omega) hwrite with
    ⟨rfl, rfl, hout⟩ | ⟨rfl, -, hin, hw⟩
  · rw [Prog.when_ok] at hmove
    rcases hmove with ⟨hpos, -⟩ | ⟨-, rfl⟩
    · exact absurd hpos (by decide)
    · rw [hlen, hlocked.size] at hout
      exact Or.inl ⟨rfl, hunlocked hlocked, by omega⟩
  · rw [hlen] at hin hmove ⊢
    rw [maxSize] at hin
    have hfile : s₃.file f = s₂.file f := congrFun hw.tables.file f
    have hmoved : s₄ = withFile s₃ f { s₃.file f with off := (s₂.inode ip).size + n } := by
      rw [Prog.when_ok] at hmove
      rcases hmove with ⟨-, hmove⟩ | ⟨hzero, hstill⟩
      · obtain rfl := setFile_ok.mp hmove
        have huint : (uint ((s₃.file f).off + n) : Int) = (s₃.file f).off + n :=
          uint_eq (by omega) (by rw [hfile, hlocked.off]; omega)
        have hoff' : uint ((s₃.file f).off + n) = (s₂.inode ip).size + n := by
          rw [hfile, hlocked.off] at huint ⊢
          omega
        rw [hoff']
      · have hn : n = 0 := by omega
        have hsame : ({ s₃.file f with off := (s₂.inode ip).size + n } : File) = s₃.file f := by
          rw [hn, Nat.add_zero, ← hlocked.off, ← hfile]
        rw [hstill, hsame, withFile_eq_self]
    refine Or.inr ⟨rfl, hunlocked ?_⟩
    rw [hmoved]
    have hpad := hlocked.trans (hw.padded hlocked.sound hlocked.opened)
    rwa [Nat.zero_add] at hpad

/-- At most `n` NULs are written, and all of them where the file may grow so far. -/
theorem writeChunks_pads {fuel : Nat} {all : Bool} (hs : Sound s) (ho : OpenRegular s f ip)
    (hoff : (s.file f).off = (s.inode ip).size) (hn : n < 2 ^ 31)
    (hrun : (writeChunks (writeChunk (fileseek null depth f 0 SEEK_END) f ip) fuel
      (List.replicate n 0)).run s = .ok (all, s')) :
    ∃ k, Padded s f ip k s' ∧
      (n ≤ fuel → (s.inode ip).size + n ≤ MAXFILE * BSIZE → k = n) := by
  induction fuel generalizing s n with
  | zero =>
      obtain ⟨-, rfl⟩ := Prog.pure_ok.mp hrun
      exact ⟨0, .refl hs ho hoff, fun hfuel _ => by omega⟩
  | succ fuel ih =>
      rw [writeChunks] at hrun
      split at hrun
      · rename_i hempty
        obtain ⟨-, rfl⟩ := Prog.pure_ok.mp hrun
        have hzero : n = 0 := by simpa using hempty
        exact ⟨0, .refl hs ho hoff, fun _ _ => hzero.symm⟩
      · rename_i hne
        have hpos : 0 < n := Nat.pos_of_ne_zero fun h0 => hne (by rw [h0]; rfl)
        simp only [List.length_replicate, List.take_replicate, List.drop_replicate] at hrun
        have hmin : min (min n maxChunk) n = min n maxChunk := by omega
        have hmax : maxChunk = 1536 := rfl
        rw [hmin, Prog.bind_ok] at hrun
        obtain ⟨r, s₁, hchunk, hrun⟩ := hrun
        rcases writeChunk_pads hs ho hoff (by omega) hchunk with
          ⟨rfl, hpad, hout⟩ | ⟨rfl, hpad⟩
        · rw [if_pos (by decide)] at hrun
          obtain ⟨-, rfl⟩ := Prog.pure_ok.mp hrun
          exact ⟨0, hpad, fun _ hin => by omega⟩
        · rw [if_neg (by omega), if_neg (by simp)] at hrun
          obtain ⟨k, hrest, hall⟩ := ih hpad.sound hpad.opened hpad.off (by omega) hrun
          refine ⟨min n maxChunk + k, hpad.trans hrest, fun hfuel hin => ?_⟩
          have hk := hall (by omega) (by rw [hpad.size]; omega)
          omega

/-- What a write of NULs at the end comes to: nothing if the file is not writable. -/
def PadsUpTo (s : Kernel) (f : FileSlot) (ip : Slot) (n : Nat) (s' : Kernel) : Prop :=
  ∃ k, Padded s f ip k s' ∧ ((s.file f).writable = 0 → k = 0) ∧
    ((s.file f).writable ≠ 0 → (s.inode ip).size + n ≤ MAXFILE * BSIZE → k = n)

theorem filewrite_pads {r : Int} (hs : Sound s) (ho : OpenRegular s f ip)
    (hoff : (s.file f).off = (s.inode ip).size) (hn : n < 2 ^ 31)
    (hrun : (filewrite null depth f (List.replicate n 0)).run s = .ok (r, s')) :
    PadsUpTo s f ip n s' := by
  cases depth with
  | zero => simp [filewrite] at hrun
  | succ depth =>
      rw [filewrite, fileAt_bind_run] at hrun
      split at hrun
      · rename_i hreadOnly
        obtain ⟨-, rfl⟩ := Prog.pure_ok.mp hrun
        exact ⟨0, .refl hs ho hoff, fun _ => rfl, fun hw => absurd hreadOnly hw⟩
      · rename_i hwritable
        rw [ho.type, ho.opens] at hrun
        simp only at hrun
        rw [Prog.bind_ok] at hrun
        obtain ⟨all, s₁, hchunks, hrun⟩ := hrun
        obtain ⟨-, rfl⟩ := Prog.pure_ok.mp hrun
        rw [List.length_replicate] at hchunks
        obtain ⟨k, hpad, hall⟩ := writeChunks_pads hs ho hoff hn hchunks
        exact ⟨k, hpad, fun h0 => absurd h0 hwritable, fun _ hin => hall le_rfl hin⟩

theorem fillHole_pads {fuel : Nat} {u : Unit} (hs : Sound s) (ho : OpenRegular s f ip)
    (hoff : (s.file f).off = (s.inode ip).size) (hfuel : n ≤ fuel)
    (hrun : (fillHole (filewrite null depth f) fuel n).run s = .ok (u, s')) :
    PadsUpTo s f ip n s' := by
  induction fuel generalizing s n with
  | zero =>
      obtain ⟨-, rfl⟩ := Prog.pure_ok.mp hrun
      exact ⟨0, .refl hs ho hoff, fun _ => rfl, fun _ _ => by omega⟩
  | succ fuel ih =>
      rw [fillHole] at hrun
      split at hrun
      · rename_i hzero
        obtain ⟨-, rfl⟩ := Prog.pure_ok.mp hrun
        exact ⟨0, .refl hs ho hoff, fun _ => rfl, fun _ _ => hzero.symm⟩
      · rename_i hne
        have hpage : PGSIZE = 4096 := rfl
        rw [Prog.bind_ok] at hrun
        obtain ⟨_, s₁, hwrite, hrun⟩ := hrun
        obtain ⟨k, hpad, hnone, hall⟩ := filewrite_pads hs ho hoff (by omega) hwrite
        obtain ⟨k', hrest, hnone', hall'⟩ := ih hpad.sound hpad.opened hpad.off (by omega) hrun
        refine ⟨k + k', hpad.trans hrest, fun h0 => ?_, fun hw hin => ?_⟩
        · rw [hnone h0, hnone' (hpad.writable.trans h0)]
        · have hk := hall hw (by omega)
          have hk' := hall' (by rw [hpad.writable]; exact hw) (by rw [hpad.size]; omega)
          omega

/-! ## What the result says -/

/-- The position computed without wrap-around. -/
def seekPosition (off size : Nat) (offset whence : Int) : Option Int :=
  if whence = SEEK_SET then some offset
  else if whence = SEEK_CUR then some (off + offset)
  else if whence = SEEK_END then some (size + offset)
  else none

/-- A result that is not negative is the position asked for, the offset is there and
the file reaches so far, with NULs behind its old end; after -1 nothing has changed. -/
structure SeekTruth (s : Kernel) (f : FileSlot) (ip : Slot) (offset whence v : Int)
    (s' : Kernel) : Prop where
  position : 0 ≤ v →
    seekPosition (s.file f).off (s.inode ip).size offset whence = some v
  off : 0 ≤ v → ((s'.file f).off : Int) = v
  size : 0 ≤ v → ((s'.inode ip).size : Int) = max ((s.inode ip).size : Int) v
  zeros : 0 ≤ v → ∀ j, (s.inode ip).size ≤ j → (j : Int) < v → (cached s' ip)[j]? = some 0
  failed : v = -1 → (s'.file f).off = (s.file f).off ∧
    (s'.inode ip).size = (s.inode ip).size ∧ cached s' ip = cached s ip

/-- The position the code computes has not wrapped around, and if it lies past the
end, the file is open for writing and the block map reaches so far. -/
def SeekFits (s : Kernel) (f : FileSlot) (ip : Slot) (offset whence : Int) : Prop :=
  ∀ t, seekTarget (s.file f).off (s.inode ip).size offset whence = some t → 0 ≤ t →
    seekPosition (s.file f).off (s.inode ip).size offset whence = some t ∧
      (((s.inode ip).size : Int) < t → (s.file f).writable ≠ 0 ∧ t ≤ MAXFILE * BSIZE)

theorem sameFiles_seekStart {size : Nat} : SameFiles s (seekStart s f size) :=
  ⟨⟨rfl, rfl, rfl, rfl⟩, fun _ => rfl⟩

theorem openRegular_seekStart {size : Nat} (ho : OpenRegular s f ip) :
    OpenRegular (seekStart s f size) f ip := by
  have hfile : (seekStart s f size).file f = { s.file f with off := size } := withFile_self f _
  constructor
  · rw [hfile]
    exact ho.type
  · rw [hfile]
    exact ho.opens
  · exact ⟨ho.inUse.valid, ho.inUse.pos⟩
  · exact ho.regular

/-- A seek past the end leaves the offset where it was asked to be, and as many NULs
behind the file as could be written. -/
theorem seekPast_pads {t : Int} {u : Unit} (hs : Sound s) (ho : OpenRegular s f ip)
    (hgrows : ((s.inode ip).size : Int) < t)
    (hfill : (fillHole (filewrite null depth f) (t.toNat - (s.inode ip).size)
      (t.toNat - (s.inode ip).size)).run (seekStart s f (s.inode ip).size) = .ok (u, s₁)) :
    ∃ k, (s.inode ip).size + k ≤ MAXFILE * BSIZE ∧
      ((seekEnd s₁ f t.toNat).inode ip).size = (s.inode ip).size + k ∧
      cached (seekEnd s₁ f t.toNat) ip = cached s ip ++ List.replicate k 0 ∧
      ((s.file f).writable = 0 → k = 0) ∧
      ((s.file f).writable ≠ 0 → t ≤ MAXFILE * BSIZE → (k : Int) = t - (s.inode ip).size) := by
  have hfile : (seekStart s f (s.inode ip).size).file f =
      { s.file f with off := (s.inode ip).size } := withFile_self f _
  have hoff : ((seekStart s f (s.inode ip).size).file f).off =
      ((seekStart s f (s.inode ip).size).inode ip).size := by
    rw [hfile]
    rfl
  obtain ⟨k, hpad, hnone, hall⟩ := fillHole_pads (sameFiles_seekStart.sound hs)
    (openRegular_seekStart ho) hoff le_rfl hfill
  rw [hfile] at hnone hall
  have hbound := (hpad.sound.toCoherent.filled_entry hpad.opened.inUse).bounded
  have hsize : (s₁.inode ip).size = (s.inode ip).size + k := hpad.size
  rw [hsize] at hbound
  refine ⟨k, hbound, hsize, hpad.zeros, hnone, fun hw hin => ?_⟩
  have hk := hall hw (by
    show (s.inode ip).size + _ ≤ _
    omega)
  omega

/-- `fileseek` tells the truth exactly where its sum does not wrap around and, for a
position past the end, the file is writable and can grow that far. -/
theorem seek_truthful_iff (hs : Sound s) (ho : OpenRegular s f ip)
    (hrun : (fileseek null depth f offset whence).run s = .ok (v, s')) :
    SeekTruth s f ip offset whence v s' ↔ SeekFits s f ip offset whence := by
  cases depth with
  | zero => simp [fileseek] at hrun
  | succ depth =>
      have hsizes : sizeThrough s null (s.file f) = (s.inode ip).size := by
        rw [sizeThrough, ho.opens]
      have hcases := fileseek_cases hrun
      rw [hsizes] at hcases
      unfold SeekFits
      generalize htarget : seekTarget (s.file f).off (s.inode ip).size offset whence = target
        at hcases ⊢
      cases hcases with
      | refused hneg =>
          refine iff_of_true ?_ fun t ht h0 => absurd (hneg t ht) (by omega)
          constructor
          case failed => exact fun _ => ⟨rfl, rfl, rfl⟩
          all_goals exact fun h0 => absurd h0 (by decide)
      | inside ht h0 hin =>
          subst ht
          rw [hsizes] at hin
          constructor
          · intro htruth t' ht' h0'
            obtain rfl := Option.some.inj ht'
            exact ⟨htruth.position h0, fun hgrows => absurd hgrows (by omega)⟩
          · intro hfits
            obtain ⟨hposition, -⟩ := hfits v rfl h0
            refine ⟨fun _ => hposition, fun _ => ?_, fun _ => ?_, fun _ j hj hlt => by omega,
              fun hfail => by omega⟩
            · rw [withFile_self]
              show ((v.toNat : Nat) : Int) = v
              omega
            · show ((s.inode ip).size : Int) = _
              omega
      | grown ht hgrows hpages hfill =>
          subst ht
          rw [hsizes] at hgrows hfill
          obtain ⟨k, hbound, hsize, hzeros, hnone, hall⟩ := seekPast_pads hs ho hgrows hfill
          constructor
          · intro htruth t' ht' h0
            obtain rfl := Option.some.inj ht'
            have hreached := htruth.size h0
            rw [hsize] at hreached
            have hk : (k : Int) = v - (s.inode ip).size := by omega
            refine ⟨htruth.position h0, fun _ => ⟨fun hreadOnly => ?_, by omega⟩⟩
            rw [hnone hreadOnly] at hk
            omega
          · intro hfits
            obtain ⟨hposition, hroom⟩ := hfits v rfl (by omega)
            obtain ⟨hwritable, hmax⟩ := hroom hgrows
            have hk := hall hwritable hmax
            refine ⟨fun _ => hposition, fun _ => ?_, fun _ => ?_, fun _ j hj hlt => ?_,
              fun hfail => by omega⟩
            · rw [seekEnd, withFile_self]
              show ((v.toNat : Nat) : Int) = v
              omega
            · rw [hsize]
              omega
            · rw [hzeros, List.getElem?_append_right (by rw [length_cached]; omega), length_cached,
                List.getElem?_replicate, if_pos (by omega)]

/-- One empty regular file, open in the first slot of the file table. -/
def oneFile (writable : Nat) : Kernel :=
  { booted with
    dinode := fun n => if n = 2 then ⟨T_FILE, 0, 0, 1, 0, fun _ => 0⟩ else booted.dinode n
    inode := fun k => if k = firstSlot then
      ⟨ROOTDEV, 2, 1, false, true, T_FILE, 0, 0, 1, 0, fun _ => 0⟩
      else ⟨ROOTDEV, 1, 0, false, false, 0, 0, 0, 0, 0, fun _ => 0⟩
    file := fun f => if f = 0 then ⟨.inode, 1, true, writable, none, some firstSlot, 0⟩
      else booted.file f }

theorem place_zero {block : Nat → Mem} (i : Nat) : place block (fun _ => 0) i = 0 := by
  unfold place blockOf
  simp only [if_true, ite_self]

theorem oneFile_empty {writable m : Nat} : ((oneFile writable).dinode m).size = 0 ∧
    ((oneFile writable).dinode m).addrs = fun _ => 0 := by
  simp only [oneFile, booted]
  split
  · exact ⟨rfl, rfl⟩
  · exact ⟨rfl, rfl⟩

theorem oneFile_slot {writable : Nat} {k : Slot} (hk : 0 < ((oneFile writable).inode k).ref) :
    k = firstSlot := by
  by_contra hne
  simp [oneFile, hne] at hk

theorem oneFile_sound (writable : Nat) : Sound (oneFile writable) where
  small := by
    show 1000 ≤ 2 ^ 32
    decide
  laid := by
    constructor
    · rfl
    · intro m i _ _
      rw [oneFile_empty.2, place_zero]
      rfl
    · intro m m' i j _ _ _ _ hne
      rw [oneFile_empty.2, place_zero] at hne
      exact absurd rfl hne
  cache := by
    constructor
    · intro k
      simp only [oneFile]
      split
      · show (0 : Int) ≤ 1
        decide
      · exact le_rfl
    · intro k hk
      rw [oneFile_slot hk]
      rfl
    · intro j k hj hk _
      rw [oneFile_slot hj, oneFile_slot hk]
    · intro k hk _
      rw [oneFile_slot hk]
      refine ⟨rfl, ?_⟩
      show T_FILE ≠ 0
      decide
  clean := by
    intro k hk _
    rw [oneFile_slot hk]
    rfl
  filled := by
    intro m _
    rw [oneFile_empty.1]
    exact ⟨Nat.zero_le _, fun bn hbn => absurd hbn (Nat.not_lt_zero _)⟩
  live := by
    intro m htype hlink
    by_cases hfile : m = 2
    · rw [hfile] at hlink
      exact absurd hlink (by show (1 : Int) ≠ 0; decide)
    · simp only [oneFile, hfile, if_false, booted] at htype hlink
      by_cases hroot : m = ROOTINO
      · rw [if_pos hroot] at hlink
        exact absurd hlink (by decide)
      · rw [if_neg hroot] at htype
        exact absurd rfl htype

theorem oneFile_opened (writable : Nat) : OpenRegular (oneFile writable) 0 0 := by
  refine ⟨rfl, rfl, ⟨rfl, ?_⟩, rfl⟩
  show (0 : Int) < 1
  decide

/-- The result of a seek and the size it leaves. -/
def seekOutcome (writable : Nat) (offset : Int) : Option (Int × Nat) :=
  match (fileseek 0 3 0 offset SEEK_SET).run (oneFile writable) with
  | .ok (v, s') => some (v, (s'.inode firstSlot).size)
  | .error _ => none

theorem exists_of_seekOutcome {writable size : Nat}
    (h : seekOutcome writable offset = some (v, size)) :
    ∃ s', (fileseek 0 3 0 offset SEEK_SET).run (oneFile writable) = .ok (v, s') ∧
      (s'.inode 0).size = size := by
  unfold seekOutcome at h
  split at h
  · rename_i s' hrun
    obtain ⟨rfl, rfl⟩ := Prod.mk.inj (Option.some.inj h)
    exact ⟨s', hrun, rfl⟩
  · exact absurd h (by simp)

/-- A file open for writing grows to position 5. -/
theorem seek_truthful_five : ∃ s', (fileseek 0 3 0 5 SEEK_SET).run (oneFile 1) = .ok (5, s') ∧
    SeekTruth (oneFile 1) 0 0 5 SEEK_SET 5 s' := by
  have hout : seekOutcome 1 5 = some (5, 5) := by decide +kernel
  obtain ⟨s', hrun, -⟩ := exists_of_seekOutcome hout
  refine ⟨s', hrun, (seek_truthful_iff (oneFile_sound 1) (oneFile_opened 1) hrun).mpr ?_⟩
  intro t ht _
  obtain rfl : 5 = t := Option.some.inj ht
  exact ⟨rfl, fun _ => ⟨by show 1 ≠ 0; decide, by decide⟩⟩

/-- A file open for reading does not, and the result is 5 all the same. -/
theorem seek_readOnly : ∃ s', (fileseek 0 3 0 5 SEEK_SET).run (oneFile 0) = .ok (5, s') ∧
    ¬ SeekTruth (oneFile 0) 0 0 5 SEEK_SET 5 s' := by
  have hout : seekOutcome 0 5 = some (5, 0) := by decide +kernel
  obtain ⟨s', hrun, hsize⟩ := exists_of_seekOutcome hout
  refine ⟨s', hrun, fun htruth => ?_⟩
  have hreached := htruth.size (by decide)
  rw [hsize] at hreached
  exact absurd hreached (by decide)

end Fs
end CS444
