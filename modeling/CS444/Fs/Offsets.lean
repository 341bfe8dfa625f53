/-
Offsets and file sizes.

The offset belongs to an open file and the size to the inode, which other open
files share.  Reading and writing through `f` leave its offset inside the file
and no file shorter, `Advanced`, so what is in range stays in range.  Only
`O_TRUNC` shortens a file, and it looks at no open file.
-/
import CS444.Fs.FileRefs
import CS444.Fs.Sizes

namespace CS444
namespace Fs

open Program Ledger

/-- `f` is open on the regular file `ip`, at a position inside it. -/
structure Positioned (s : Kernel) (f : FileSlot) (ip : Slot) : Prop where
  type : (s.file f).type = .inode
  opens : (s.file f).ip = some ip
  inUse : InUse s ip
  regular : (s.inode ip).type = T_FILE
  sizes : SizesOk s
  off : (s.file f).off ≤ (s.inode ip).size

/-- What reading and writing through `f` leave: a file at least as long, and `f`
inside it. -/
structure Advanced (s : Kernel) (f : FileSlot) (ip : Slot) (s' : Kernel) : Prop where
  quiet : Quiet s s'
  files : ∀ f', f' ≠ f → s'.file f' = s.file f'
  sizes : ∀ k, k ≠ ip → (s'.inode k).size = (s.inode k).size
  grows : (s.inode ip).size ≤ (s'.inode ip).size
  off : (s'.file f).off ≤ (s'.inode ip).size
  bounded : SizesOk s → SizesOk s'

variable {s s₁ s' : Kernel} {f : FileSlot} {ip : Slot} {null : Nat}

theorem Positioned.advanced (hp : Positioned s f ip) (ha : Advanced s f ip s') :
    Positioned s' f ip := by
  obtain ⟨hu, hregular⟩ := ha.quiet.inodes.inUse' hp.inUse
  refine ⟨?_, ?_, hu, hregular.trans hp.regular, ha.bounded hp.sizes, ha.off⟩
  · rw [ha.quiet.file f]
    exact hp.type
  · rw [ha.quiet.file f]
    exact hp.opens

theorem Advanced.refl (hp : Positioned s f ip) : Advanced s f ip s :=
  ⟨.refl s, fun _ _ => rfl, fun _ _ => rfl, le_rfl, hp.off, id⟩

theorem Advanced.trans (hab : Advanced s f ip s₁) (hbc : Advanced s₁ f ip s') :
    Advanced s f ip s' :=
  ⟨hab.quiet.trans hbc.quiet, fun f' hf => (hbc.files f' hf).trans (hab.files f' hf),
    fun k hk => (hbc.sizes k hk).trans (hab.sizes k hk), hab.grows.trans hbc.grows, hbc.off,
    fun hok => hbc.bounded (hab.bounded hok)⟩

theorem SameSizes.advanced (hs : SameSizes s s') (hm : Moves s 0 s' 0) (hp : Positioned s f ip) :
    Advanced s f ip s' := by
  refine ⟨hm.quiet, fun f' _ => by rw [hm.tables.file], fun k _ => hs.inode k,
    (hs.inode ip).ge, ?_, hs.bounded⟩
  rw [hm.tables.file, hs.inode ip]
  exact hp.off

/-- Moving `f` to a position inside the file. -/
theorem advanced_off {n : Nat} (hn : n ≤ (s.inode ip).size) :
    Advanced s f ip (withFile s f { s.file f with off := n }) := by
  refine ⟨(quietOn_off n).toQuiet, fun f' hf => withFile_of_ne hf _, fun _ _ => rfl, le_rfl, ?_,
    fun hok => ⟨hok.inode, hok.dinode⟩⟩
  rw [withFile_self]
  exact hn

theorem ilock_advanced {u : Unit} (hp : Positioned s f ip)
    (hrun : (ilock ip).run s = .ok (u, s')) : Advanced s f ip s' ∧
      (s'.file = s.file ∧ (s'.inode ip).size = (s.inode ip).size) := by
  have hm := (ilock_spec hrun).moves
  rcases ilock_cases hrun with ⟨-, rfl⟩ | ⟨hinvalid, -⟩
  · refine ⟨SameSizes.advanced (sameSizes_withInode rfl) hm hp, rfl, ?_⟩
    rw [withInode_self]
  · rw [hp.inUse.valid] at hinvalid
    exact absurd hinvalid (by simp)

theorem iunlock_advanced {u : Unit} (hp : Positioned s f ip)
    (hrun : (iunlock ip).run s = .ok (u, s')) : Advanced s f ip s' ∧
      (s'.file = s.file ∧ (s'.inode ip).size = (s.inode ip).size) :=
  ⟨(iunlock_sizes hrun).advanced ((iunlock_keys hrun).moves 0) hp,
    (iunlock_keys hrun).tables.file, (iunlock_sizes hrun).inode ip⟩

theorem int_of_lt {n : Int} (h₀ : 0 ≤ n) (h₁ : n < 2 ^ 31) : int n = n :=
  Int.bmod_eq_of_le (by omega) (by omega)

theorem maxSize : MAXFILE * BSIZE = 71680 := by decide

theorem uint_lt (n : Int) : uint n < 2 ^ 32 := by
  have := Int.emod_nonneg n (b := 2 ^ 32) (by decide)
  have := Int.emod_lt_of_pos n (b := 2 ^ 32) (by decide)
  unfold uint
  omega

theorem uint_eq {n : Int} (h₀ : 0 ≤ n) (h₁ : n < 2 ^ 32) : (uint n : Int) = n := by
  unfold uint
  omega

/-- `if(r > 0) f->off += r;` with `r` bytes of the file ahead. -/
theorem advance_spec {r : Int} {u : Unit} (hp : Positioned s f ip)
    (hr : (s.file f).off + r ≤ (s.inode ip).size)
    (hrun : (Prog.when (r > 0) (setFile f fun file =>
      { file with off := uint (file.off + r) })).run s = .ok (u, s')) :
    Advanced s f ip s' ∧ s'.inode = s.inode ∧ (s'.file f).off = (s.file f).off + r.toNat := by
  have hmax := hp.sizes.inode ip
  rw [maxSize] at hmax
  rcases Prog.when_ok.mp hrun with ⟨hpos, hset⟩ | ⟨hpos, rfl⟩
  · obtain rfl := setFile_ok.mp hset
    have hoff : uint ((s.file f).off + r) = (s.file f).off + r.toNat := by
      unfold uint
      omega
    refine ⟨advanced_off (by omega), rfl, ?_⟩
    rw [withFile_self, hoff]
  · exact ⟨.refl hp, rfl, by omega⟩

/-! ## `fileread` -/

/-- How many bytes `readi` reads of `n` asked for. -/
def readCount (off size n : Nat) : Nat := if uint (off + n) > size then size - off else n

theorem readCount_le {off size n : Nat} (hoff : off ≤ size) (hsize : size ≤ 71680)
    (hn : n < 2 ^ 32) (hwrap : off ≤ uint (off + n)) : readCount off size n ≤ size - off := by
  unfold readCount
  split
  · exact le_rfl
  · rename_i hinside
    unfold uint at *
    omega

theorem readCount_eq {off size n : Nat} (hoff : off ≤ size) (hsize : size ≤ 71680)
    (hn : n < 2 ^ 31) : readCount off size n = min n (size - off) := by
  have huint := uint_eq (n := off + n) (by omega) (by omega)
  unfold readCount
  split <;> omega

/-- Reading inside the file. -/
theorem fileread_spec {n r : Int} {bytes : Str} (hp : Positioned s f ip)
    (hrun : (fileread f n).run s = .ok ((r, bytes), s')) : Advanced s f ip s' ∧
      ((s.file f).readable = true → 0 ≤ n → n < 2 ^ 31 →
        r = min n ((s.inode ip).size - (s.file f).off)) := by
  rw [fileread, fileAt_bind_run] at hrun
  split at hrun
  · rename_i hclosed
    obtain ⟨heq, rfl⟩ := Prog.pure_ok.mp hrun
    refine ⟨.refl hp, fun hopen => ?_⟩
    rw [hopen] at hclosed
    exact absurd hclosed (by simp)
  rw [hp.type] at hrun
  simp only [hp.opens] at hrun
  rw [Prog.bind_ok] at hrun
  obtain ⟨_, s₁, hlock, hrun⟩ := hrun
  rw [Prog.bind_ok] at hrun
  obtain ⟨⟨r', bytes'⟩, s₂, hread, hrun⟩ := hrun
  simp only at hrun
  rw [Prog.bind_ok] at hrun
  obtain ⟨_, s₃, hoff, hrun⟩ := hrun
  rw [Prog.bind_ok] at hrun
  obtain ⟨_, s₄, hunlock, hrun⟩ := hrun
  obtain ⟨heq, rfl⟩ := Prog.pure_ok.mp hrun
  obtain ⟨rfl, rfl⟩ := Prod.mk.inj heq
  obtain ⟨ha₁, hfile₁, hsize₁⟩ := ilock_advanced hp hlock
  have hp₁ := hp.advanced ha₁
  have hin := hp₁.off
  have hmax := hp₁.sizes.inode ip
  rw [hfile₁] at hin
  rw [maxSize] at hmax
  have hregular : (s₁.inode ip).type ≠ T_DEV := by
    rw [hp₁.regular]
    decide
  -- the bytes read are bytes of the file
  obtain ⟨ha₂, hfile₂, hcount, hexact⟩ : Advanced s₁ f ip s₂ ∧ s₂.file = s₁.file ∧
      (0 < r' → (s.file f).off + r' ≤ (s₂.inode ip).size) ∧
      (0 ≤ n → n < 2 ^ 31 → r' = min n ((s.inode ip).size - (s.file f).off)) := by
    rcases readi_cases hread hregular with ⟨hrange, heq, rfl⟩ | ⟨-, hwrap, hr, hsame, hkeys⟩
    · obtain ⟨rfl, -⟩ := Prod.mk.inj heq
      refine ⟨.refl hp₁, rfl, by omega, fun h₀ h₁ => ?_⟩
      unfold uint at hrange
      omega
    · have hcount : r' = readCount (s.file f).off (s₁.inode ip).size (uint n) := by
        have hle := readCount_le hin (by omega) (uint_lt n) hwrap
        exact hr.trans (int_of_lt (by omega) (by unfold readCount at hle; omega))
      refine ⟨hsame.advanced (hkeys.moves 0) hp₁, hkeys.tables.file, ?_, fun h₀ h₁ => ?_⟩
      · have hle := readCount_le hin (by omega) (uint_lt n) hwrap
        rw [hsame.inode ip]
        intro _
        rw [hcount]
        omega
      · have heq := readCount_eq hin (by omega) (n := uint n) (by unfold uint; omega)
        have := uint_eq h₀ (by omega)
        rw [hcount]
        omega
  have hp₂ := hp₁.advanced ha₂
  have hahead : (s₂.file f).off + r' ≤ (s₂.inode ip).size := by
    have := hp₂.off
    by_cases hpos : 0 < r'
    · rw [hfile₂, hfile₁]
      exact hcount hpos
    · omega
  obtain ⟨ha₃, -, -⟩ := advance_spec hp₂ hahead hoff
  obtain ⟨ha₄, -⟩ := iunlock_advanced (hp₂.advanced ha₃) hunlock
  exact ⟨((ha₁.trans ha₂).trans ha₃).trans ha₄, fun _ => hexact⟩

/-! ## `filewrite` -/

/-- Where `filewrite` writes through `f`: for `O_APPEND`, at the end of the file. -/
def writeStart (s : Kernel) (f : FileSlot) (ip : Slot) : Nat :=
  if (s.file f).writable &&& FILE_APPENDABLE ≠ 0 then (s.inode ip).size else (s.file f).off

/-- `fileseek(f, 0, SEEK_END)` moves to the end of the file, and fills no hole. -/
theorem seekEnd_spec {r : Int} (hp : Positioned s f ip)
    (hrun : (fileseek null 1 f 0 SEEK_END).run s = .ok (r, s')) :
    s' = withFile s f { s.file f with off := (s.inode ip).size } := by
  have hsize : sizeThrough s null (s.file f) = (s.inode ip).size := by
    rw [sizeThrough, hp.opens]
  have hmax := hp.sizes.inode ip
  rw [maxSize] at hmax
  have htarget : seekTarget (s.file f).off (sizeThrough s null (s.file f)) 0 SEEK_END =
      some ((s.inode ip).size : Int) := by
    rw [hsize, seekTarget, if_neg (by decide), if_neg (by decide), if_pos rfl, add_zero,
      int_of_lt (by omega) (by omega)]
  have hseek := fileseek_cases hrun
  rw [htarget] at hseek
  cases hseek with
  | refused hneg =>
      have := hneg _ rfl
      omega
  | inside hsome =>
      obtain rfl := Option.some.inj hsome
      rw [Int.toNat_natCast]
  | grown hsome hgrows =>
      obtain rfl := Option.some.inj hsome
      rw [hsize] at hgrows
      omega

/-- `f` was moved to where the next byte is written. -/
theorem append_spec {u : Unit} (hp : Positioned s f ip)
    (hrun : (Prog.when ((s.file f).writable &&& FILE_APPENDABLE ≠ 0) (do
      let _ ← fileseek null 1 f 0 SEEK_END)).run s = .ok (u, s')) :
    Advanced s f ip s' ∧ (s'.file f).off = writeStart s f ip ∧
      (s'.inode ip).size = (s.inode ip).size := by
  rcases Prog.when_ok.mp hrun with ⟨happend, hrun⟩ | ⟨hplain, rfl⟩
  · rw [Prog.bind_ok] at hrun
    obtain ⟨_, s₁, hseek, hrun⟩ := hrun
    obtain ⟨-, rfl⟩ := Prog.pure_ok.mp hrun
    obtain rfl := seekEnd_spec hp hseek
    refine ⟨advanced_off le_rfl, ?_, rfl⟩
    rw [withFile_self, writeStart, if_pos happend]
  · refine ⟨.refl hp, ?_, rfl⟩
    rw [writeStart, if_neg hplain]

/-- Writing a chunk at the offset of `f`. -/
theorem writei_spec {chunk : Str} {r : Int} (hp : Positioned s f ip)
    (hlen : chunk.length ≤ maxChunk)
    (hrun : (writei ip chunk (s.file f).off).run s = .ok (r, s')) :
    Advanced s f ip s' ∧ s'.file = s.file ∧
      (MAXFILE * BSIZE < (s.file f).off + chunk.length ∧ r = -1 ∧
          (s'.inode ip).size = (s.inode ip).size ∨
        (s.file f).off + chunk.length ≤ MAXFILE * BSIZE ∧ r = chunk.length ∧
          (s'.inode ip).size = max (s.inode ip).size ((s.file f).off + chunk.length)) := by
  have hoff := hp.off
  have hmax := hp.sizes.inode ip
  have hchunk : maxChunk = 1536 := by decide
  have huint := uint_eq (n := (s.file f).off + chunk.length) (by omega)
    (by rw [maxSize] at hmax; omega)
  have hm := writei_moves hrun hp.inUse.valid hp.inUse.pos
  have hregular : (s.inode ip).type ≠ T_DEV := by
    rw [hp.regular]
    decide
  rcases writei_cases hrun hregular with ⟨hrange, rfl, rfl⟩ | ⟨-, hfits, hr, hg⟩
  · exact ⟨.refl hp, rfl, Or.inl ⟨by omega, rfl, rfl⟩⟩
  · have hfits : (s.file f).off + chunk.length ≤ MAXFILE * BSIZE := by omega
    have hint : int chunk.length = chunk.length := int_of_lt (by omega) (by omega)
    refine ⟨⟨hm.quiet, fun f' _ => by rw [hm.tables.file], hg.others, ?_, ?_, hg.bounded hfits⟩,
      hm.tables.file, Or.inr ⟨hfits, hr.trans hint, hg.size⟩⟩
    · rw [hg.size]
      exact le_max_left ..
    · rw [hm.tables.file, hg.size]
      exact hoff.trans (le_max_left ..)

/-- Writing one chunk. -/
theorem writeChunk_spec {chunk : Str} {r : Int} (hp : Positioned s f ip)
    (hlen : chunk.length ≤ maxChunk)
    (hrun : (writeChunk (fileseek null 1 f 0 SEEK_END) f ip chunk).run s = .ok (r, s')) :
    Advanced s f ip s' ∧ (writeStart s f ip + chunk.length ≤ MAXFILE * BSIZE →
      r = chunk.length ∧ writeStart s' f ip = writeStart s f ip + chunk.length) := by
  rw [writeChunk, Prog.bind_ok] at hrun
  obtain ⟨_, s₁, hlock, hrun⟩ := hrun
  rw [fileAt_bind_run, Prog.bind_ok] at hrun
  obtain ⟨_, s₂, happend, hrun⟩ := hrun
  rw [fileAt_bind_run, Prog.bind_ok] at hrun
  obtain ⟨n, s₃, hwrite, hrun⟩ := hrun
  rw [Prog.bind_ok] at hrun
  obtain ⟨_, s₄, hoff, hrun⟩ := hrun
  rw [Prog.bind_ok] at hrun
  obtain ⟨_, s₅, hunlock, hrun⟩ := hrun
  obtain ⟨rfl, rfl⟩ := Prog.pure_ok.mp hrun
  obtain ⟨ha₁, hfile₁, hsize₁⟩ := ilock_advanced hp hlock
  have hp₁ := hp.advanced ha₁
  obtain ⟨ha₂, hoff₂, hsize₂⟩ := append_spec hp₁ happend
  have hp₂ := hp₁.advanced ha₂
  have hstart : (s₂.file f).off = writeStart s f ip := by
    rw [hoff₂, writeStart, writeStart, hfile₁, hsize₁]
  obtain ⟨ha₃, hfile₃, hwritten⟩ := writei_spec hp₂ hlen hwrite
  have hp₃ := hp₂.advanced ha₃
  have hahead : (s₃.file f).off + n ≤ (s₃.inode ip).size := by
    have := hp₂.off
    rw [hfile₃]
    rcases hwritten with ⟨-, rfl, hsize₃⟩ | ⟨-, rfl, hsize₃⟩ <;> omega
  obtain ⟨ha₄, hinode₄, hoff₄⟩ := advance_spec hp₃ hahead hoff
  obtain ⟨ha₅, hfile₅, hsize₅⟩ := iunlock_advanced (hp₃.advanced ha₄) hunlock
  have ha := (((ha₁.trans ha₂).trans ha₃).trans ha₄).trans ha₅
  refine ⟨ha, fun hfits => ?_⟩
  rw [hstart] at hwritten
  rcases hwritten with ⟨hlong, -⟩ | ⟨-, rfl, hsize₃⟩
  · omega
  refine ⟨rfl, ?_⟩
  have hwritable : (s₅.file f).writable = (s.file f).writable := by
    rw [ha.quiet.file f]
  rw [writeStart, hwritable, hfile₅, hoff₄, hfile₃, hstart, hsize₅, hinode₄, hsize₃, hsize₂, hsize₁]
  unfold writeStart
  split <;> omega

/-- Writing chunk by chunk. -/
theorem writeChunks_spec {fuel : Nat} {src : Str} {all : Bool} (hp : Positioned s f ip)
    (hfuel : src.length ≤ fuel)
    (hrun : (writeChunks (writeChunk (fileseek null 1 f 0 SEEK_END) f ip) fuel src).run s =
      .ok (all, s')) :
    Advanced s f ip s' ∧ (writeStart s f ip + src.length ≤ MAXFILE * BSIZE → all = true) := by
  induction fuel generalizing s src with
  | zero =>
      obtain ⟨rfl, rfl⟩ := Prog.pure_ok.mp hrun
      refine ⟨.refl hp, fun _ => ?_⟩
      rw [List.length_eq_zero_iff.mp (Nat.le_zero.mp hfuel)]
      rfl
  | succ fuel ih =>
      rw [writeChunks] at hrun
      split at hrun
      · obtain ⟨rfl, rfl⟩ := Prog.pure_ok.mp hrun
        exact ⟨.refl hp, fun _ => rfl⟩
      · rename_i hne
        have hpos : 0 < src.length := List.length_pos_iff.mpr hne
        have hmax : 0 < maxChunk := by decide
        simp only at hrun
        rw [Prog.bind_ok] at hrun
        obtain ⟨n, s₁, hone, hrun⟩ := hrun
        have hlen : (src.take (min src.length maxChunk)).length = min src.length maxChunk := by
          rw [List.length_take]
          omega
        obtain ⟨ha, hwritten⟩ := writeChunk_spec hp (by omega) hone
        rw [hlen] at hwritten
        split at hrun
        · rename_i hneg
          obtain ⟨rfl, rfl⟩ := Prog.pure_ok.mp hrun
          refine ⟨ha, fun hfits => ?_⟩
          have := (hwritten (by omega)).1
          omega
        · split at hrun
          · simp at hrun
          · have hdrop := List.length_drop (i := min src.length maxChunk) (l := src)
            obtain ⟨ha', hall⟩ := ih (hp.advanced ha) (by omega) hrun
            refine ⟨ha.trans ha', fun hfits => hall ?_⟩
            have := (hwritten (by omega)).2
            omega

/-- Writing inside the bound of the format. -/
theorem filewrite_spec {src : Str} {r : Int} (hp : Positioned s f ip)
    (hrun : (filewrite null 2 f src).run s = .ok (r, s')) : Advanced s f ip s' ∧
      ((s.file f).writable ≠ 0 → writeStart s f ip + src.length ≤ MAXFILE * BSIZE →
        r = src.length) := by
  rw [filewrite, fileAt_bind_run] at hrun
  split at hrun
  · rename_i hclosed
    obtain ⟨rfl, rfl⟩ := Prog.pure_ok.mp hrun
    exact ⟨.refl hp, fun hopen => absurd hclosed hopen⟩
  rw [hp.type] at hrun
  simp only [hp.opens] at hrun
  rw [Prog.bind_ok] at hrun
  obtain ⟨all, s₁, hchunks, hrun⟩ := hrun
  obtain ⟨rfl, rfl⟩ := Prog.pure_ok.mp hrun
  obtain ⟨ha, hall⟩ := writeChunks_spec hp le_rfl hchunks
  exact ⟨ha, fun _ hfits => if_pos (hall hfits)⟩

end Fs
end CS444
