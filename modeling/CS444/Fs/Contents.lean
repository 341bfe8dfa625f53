/-
What the blocks of an inode hold.

`fileMem` is a file as memory: the byte at a position is in the block the block
map has for it.  A file without holes is read without a change to the disk, so
`readi` is a function of the state, `readi_eq`, and `contents` is what it reads
of the whole file.
-/
import CS444.Fs.Offsets

namespace CS444
namespace Fs

open Bytes Program

variable {s : Kernel} {ip : Slot} {block : Nat → Mem} {addrs : Nat → Nat} {size off n bn : Nat}

/-- The block that holds block number `bn` of the file; 0 if there is none. -/
def blockOf (block : Nat → Mem) (addrs : Nat → Nat) (bn : Nat) : Nat :=
  if bn < NDIRECT then addrs bn
  else if addrs NDIRECT = 0 then 0
  else load (block (addrs NDIRECT)) (4 * (bn - NDIRECT)) 4

/-- The bytes of the file, by position. -/
def fileMem (block : Nat → Mem) (addrs : Nat → Nat) : Mem :=
  fun pos => block (blockOf block addrs (pos / BSIZE)) (pos % BSIZE)

/-- What the file of the on-disk inode holds. -/
def contents (block : Nat → Mem) (d : Dinode) : Str := span (fileMem block d.addrs) 0 d.size

/-- The file is no longer than a block map reaches and has no holes. -/
structure Filled (block : Nat → Mem) (size : Nat) (addrs : Nat → Nat) : Prop where
  bounded : size ≤ MAXFILE * BSIZE
  mapped : ∀ bn, bn * BSIZE < size → blockOf block addrs bn ≠ 0

theorem Filled.lt (hf : Filled block size addrs) (hbn : bn * BSIZE < size) : bn < MAXFILE := by
  have := hf.bounded
  simp only [BSIZE, MAXFILE, NDIRECT, NINDIRECT] at *
  omega

/-- `bmap` of a block that is there. -/
theorem bmap_mapped (hlt : bn < MAXFILE) (hb : blockOf s.block (s.inode ip).addrs bn ≠ 0) :
    (bmap ip bn).run s = .ok (blockOf s.block (s.inode ip).addrs bn, s) := by
  rw [bmap, inodeAt_bind_run]
  unfold blockOf at hb ⊢
  by_cases hdirect : bn < NDIRECT
  · rw [if_pos hdirect] at hb ⊢
    rw [if_pos hdirect, if_neg hb, Prog.pure_run]
  · rw [if_neg hdirect] at hb ⊢
    have hind : (s.inode ip).addrs NDIRECT ≠ 0 := fun h => hb (if_pos h)
    rw [if_neg hind] at hb ⊢
    have hin : bn - NDIRECT < NINDIRECT := by
      simp only [MAXFILE] at hlt
      omega
    have hblock : (indirectBlock ip).run s = .ok ((s.inode ip).addrs NDIRECT, s) := by
      rw [indirectBlock, inodeAt_bind_run, if_neg hind, Prog.pure_run]
    rw [if_neg hdirect, if_pos hin]
    simp only
    rw [Prog.bind_eq hblock, indirectAt, Prog.gets_bind_run, if_neg hb, Prog.pure_run]

theorem readLoop_eq {fuel : Nat} (hf : Filled s.block size (s.inode ip).addrs)
    (hend : off + n ≤ size) (hfuel : n ≤ fuel) :
    (readLoop ip fuel off n).run s = .ok (span (fileMem s.block (s.inode ip).addrs) off n, s) := by
  induction fuel generalizing off n with
  | zero =>
      obtain rfl : n = 0 := by omega
      rfl
  | succ fuel ih =>
      rw [readLoop]
      by_cases hn : n = 0
      · rw [if_pos hn, hn]
        rfl
      · have hbn : off / BSIZE * BSIZE < size := by
          have := Nat.div_mul_le_self off BSIZE
          omega
        have hpos : 0 < BSIZE - off % BSIZE := by
          have := Nat.mod_lt off (show 0 < BSIZE by decide)
          omega
        rw [if_neg hn, Prog.bind_eq (bmap_mapped (hf.lt hbn) (hf.mapped _ hbn)),
          Prog.get_bind_run]
        simp only
        rw [Prog.bind_eq (ih (by omega) (by omega)), Prog.pure_run]
        obtain ⟨k, hk⟩ := Nat.le.dest (Nat.min_le_left n (BSIZE - off % BSIZE))
        have hrest : n - min n (BSIZE - off % BSIZE) = k := by omega
        rw [hrest]
        conv_rhs => rw [← hk, span_add]
        congr 3
        apply List.map_congr_left
        intro j hj
        have hj := List.mem_range.mp hj
        have hjn : j < BSIZE - off % BSIZE := by omega
        have hdiv : (off + j) / BSIZE = off / BSIZE := by
          simp only [BSIZE] at *
          omega
        have hmod : (off + j) % BSIZE = off % BSIZE + j := by
          simp only [BSIZE] at *
          omega
        show s.block _ (off % BSIZE + j) = fileMem s.block (s.inode ip).addrs (off + j)
        rw [fileMem, hdiv, hmod]

/-- `readi` of a file without holes leaves the state as it is. -/
theorem readi_eq (hf : Filled s.block (s.inode ip).size (s.inode ip).addrs)
    (htype : (s.inode ip).type ≠ T_DEV) (hoff : off ≤ (s.inode ip).size) (hn : n < 2 ^ 31) :
    (readi ip off n).run s = .ok (((min n ((s.inode ip).size - off) : Nat),
      span (fileMem s.block (s.inode ip).addrs) off (min n ((s.inode ip).size - off))), s) := by
  have hsize := hf.bounded
  rw [maxSize] at hsize
  have huint : (uint (off + n) : Int) = off + n := uint_eq (by omega) (by omega)
  have hcount := readCount_eq hoff hsize hn
  unfold readCount at hcount
  rw [readi, inodeAt_bind_run, if_neg htype, if_neg (by omega)]
  simp only
  rw [hcount, Prog.bind_eq (readLoop_eq hf (by omega) (Nat.le_refl _)), Prog.pure_run,
    int_of_lt (by omega) (by omega)]

end Fs
end CS444
