/-
The directory tree: what names mean, without the inode cache.

A `FileTree` is a type and contents for each inode number, and looking a name
up, walking a path and following a link are functions on it.  `tree` is the tree
a state of the kernel has on its disk.  `dirlookup_eq` says that `dirlookup`
looks up there; how `namex` walks is in `Walks`.
-/
import CS444.Fs.Contents

namespace CS444
namespace Fs

open Bytes Program

/-! ## Names in a tree -/

/-- A file, directory, device or link. -/
structure Node where
  type : Int
  contents : Str

abbrev FileTree : Type := Nat → Node

/-- The entry at offset `off` of a directory. -/
def direntAt (contents : Str) (off : Nat) : Dirent :=
  Dirent.ofBytes ((contents.drop off).take direntSize)

/-- The entry at `off` is for `name`. -/
def EntryFor (contents : Str) (name : Str) (off : Nat) : Prop :=
  (direntAt contents off).inum ≠ 0 ∧ namecmp name (direntAt contents off).name = true

instance (contents name : Str) (off : Nat) : Decidable (EntryFor contents name off) :=
  inferInstanceAs (Decidable (_ ∧ _))

/-- The offset of the entry for `name`. -/
def entryOff (contents name : Str) : Option Nat :=
  (List.range' 0 (contents.length / direntSize) direntSize).find? fun off =>
    EntryFor contents name off

/-- The inode number a directory has for `name`. -/
def lookup (contents name : Str) : Option Nat :=
  (entryOff contents name).map fun off => (direntAt contents off).inum

/-- Where `path` leads from the inode `n`, and the last name on the way; with
`parent`, where it leads when its last name is left. -/
def walk (t : FileTree) (parent : Bool) : Nat → Str → Nat → Str → Option (Nat × Str)
  | 0, _, _, _ => none
  | fuel + 1, path, n, name =>
    match skipelem path with
    | none => if parent then none else some (n, name)
    | some (name, rest) =>
      if (t n).type ≠ T_DIR then none
      else if parent ∧ rest = [] then some (n, name)
      else
        match lookup (t n).contents name with
        | none => none
        | some m => walk t parent fuel rest m name

/-- The inode a path starts from. -/
def startOf (path : Str) (cwd : Nat) : Nat := if path.head? = some slash then ROOTINO else cwd

/-- The inode `path` names, for a process in the directory `cwd`. -/
def resolve (t : FileTree) (cwd : Nat) (path : Str) : Option Nat :=
  (walk t false (path.length + 1) path (startOf path cwd) []).map Prod.fst

/-- The directory and the last name of `path`. -/
def resolveParent (t : FileTree) (cwd : Nat) (path : Str) : Option (Nat × Str) :=
  walk t true (path.length + 1) path (startOf path cwd) []

/-- The path `sys_open` takes a link for: the array its first bytes are read
into, with `above` behind it, up to the first NUL. -/
def linkTarget (above contents : Str) : Str :=
  cstr (contents.take MAX_FILE_NAME ++
    List.replicate (MAX_FILE_NAME - (contents.take MAX_FILE_NAME).length) 0 ++ above)

/-- Where the link loop ends that starts at `n` with `left` turns left. -/
def follow (t : FileTree) (cwd : Nat) (above : Nat → Str) : Nat → Nat → Option Nat
  | 0, n => some n
  | left + 1, n =>
    if (t n).type ≠ T_SYMLINK then some n
    else
      match resolve t cwd (linkTarget (above left) (t n).contents) with
      | none => none
      | some m => if left = 0 then none else follow t cwd above left m

/-! ## The tree on the disk -/

/-- The tree on the disk. -/
def tree (s : Kernel) : FileTree := fun n => ⟨(s.dinode n).type, contents s.block (s.dinode n)⟩

variable {s : Kernel} {dp : Slot} {name : Str}

/-- What the inode `ip`, as the cache has it, holds. -/
def cached (s : Kernel) (ip : Slot) : Str :=
  span (fileMem s.block (s.inode ip).addrs) 0 (s.inode ip).size

theorem length_cached : (cached s dp).length = (s.inode dp).size := length_span

theorem readDirent_eq {off : Nat} (msg : String)
    (hf : Filled s.block (s.inode dp).size (s.inode dp).addrs) (htype : (s.inode dp).type ≠ T_DEV)
    (hoff : off ≤ (s.inode dp).size) : (readDirent dp off msg).run s =
      if off + direntSize ≤ (s.inode dp).size then .ok (direntAt (cached s dp) off, s)
      else .error (.panic msg) := by
  rw [readDirent, Prog.bind_eq (readi_eq hf htype hoff (by decide))]
  simp only
  by_cases hin : off + direntSize ≤ (s.inode dp).size
  · have hmin : min direntSize ((s.inode dp).size - off) = direntSize := by omega
    have hbytes : ((cached s dp).drop off).take direntSize =
        span (fileMem s.block (s.inode dp).addrs) off direntSize := by
      rw [cached, drop_span hoff, Nat.zero_add, take_span (by omega)]
    rw [if_pos hin, hmin, if_neg (by simp), Prog.pure_run, direntAt, hbytes]
  · have hne : ((min direntSize ((s.inode dp).size - off) : Nat) : Int) ≠ (direntSize : Nat) := by
      omega
    rw [if_neg hin, if_pos hne, panic_run]

/-- What `dirlookup` does in `s` with the offset of the entry it finds in `dp`.  A
directory that is looked through to its end must have whole entries only. -/
def fetched (s : Kernel) (dp : Slot) : Option Nat → Except Halt (Option (Slot × Nat) × Kernel)
  | some off =>
    (iget (s.inode dp).dev (direntAt (cached s dp) off).inum >>= fun ip =>
      pure (some (ip, off))).run s
  | none =>
    if (s.inode dp).size % direntSize = 0 then .ok (none, s)
    else .error (.panic "dirlookup read")

theorem dirlookupLoop_eq (name : Str) (fuel : Nat) {i : Nat}
    (hf : Filled s.block (s.inode dp).size (s.inode dp).addrs) (htype : (s.inode dp).type ≠ T_DEV)
    (hfuel : (s.inode dp).size / direntSize + 1 < fuel + i)
    (hi : i * direntSize ≤ (s.inode dp).size) :
    (dirlookupLoop dp name fuel (i * direntSize)).run s =
      fetched s dp
        ((List.range' (i * direntSize) ((s.inode dp).size / direntSize - i) direntSize).find?
          fun off => EntryFor (cached s dp) name off) := by
  induction fuel generalizing i with
  | zero =>
      simp only [direntSize] at *
      omega
  | succ fuel ih =>
      rw [dirlookupLoop, inodeAt_bind_run]
      by_cases hmore : i * direntSize < (s.inode dp).size
      · rw [if_pos hmore]
        by_cases hin : i * direntSize + direntSize ≤ (s.inode dp).size
        · obtain ⟨k, hk⟩ : ∃ k, (s.inode dp).size / direntSize - i = k + 1 := by
            refine ⟨(s.inode dp).size / direntSize - i - 1, ?_⟩
            simp only [direntSize] at *
            omega
          have hread := readDirent_eq "dirlookup read" hf htype hmore.le
          rw [if_pos hin] at hread
          rw [Prog.bind_eq hread, hk, List.range'_succ, List.find?_cons]
          by_cases hentry : EntryFor (cached s dp) name (i * direntSize)
          · have hcond : (direntAt (cached s dp) (i * direntSize)).inum ≠ 0 ∧
              namecmp name (direntAt (cached s dp) (i * direntSize)).name = true := hentry
            rw [if_pos hcond, decide_eq_true hentry, inodeAt_bind_run]
            rfl
          · have hcond : ¬((direntAt (cached s dp) (i * direntSize)).inum ≠ 0 ∧
              namecmp name (direntAt (cached s dp) (i * direntSize)).name = true) := hentry
            have hnext : i * direntSize + direntSize = (i + 1) * direntSize := by ring
            have hrest : (s.inode dp).size / direntSize - (i + 1) = k := by omega
            rw [if_neg hcond, decide_eq_false hentry, hnext, ih (by omega) (by omega), hrest]
        · -- a part of an entry is left
          have hread := readDirent_eq "dirlookup read" hf htype hmore.le
          rw [if_neg hin] at hread
          have hzero : (s.inode dp).size / direntSize - i = 0 := by
            simp only [direntSize] at *
            omega
          have hmod : (s.inode dp).size % direntSize ≠ 0 := by
            simp only [direntSize] at *
            omega
          rw [Prog.run_bind, hread, hzero, List.range'_zero, List.find?_nil]
          exact (if_neg hmod).symm
      · have hzero : (s.inode dp).size / direntSize - i = 0 := by
          simp only [direntSize] at *
          omega
        have hmod : (s.inode dp).size % direntSize = 0 := by
          simp only [direntSize] at *
          omega
        rw [if_neg hmore, Prog.pure_run, hzero, List.range'_zero, List.find?_nil]
        exact (if_pos hmod).symm

/-- `dirlookup` looks up what the directory holds. -/
theorem dirlookup_eq (hf : Filled s.block (s.inode dp).size (s.inode dp).addrs)
    (htype : (s.inode dp).type = T_DIR) : (dirlookup dp name).run s =
      fetched s dp (entryOff (cached s dp) name) := by
  have hdir : (s.inode dp).type ≠ T_DEV := by
    rw [htype]
    decide
  have hloop := dirlookupLoop_eq name ((s.inode dp).size / direntSize + 2) (i := 0) hf hdir
    (by omega) (by omega)
  rw [Nat.zero_mul, Nat.sub_zero] at hloop
  rw [dirlookup, inodeAt_bind_run, if_neg (not_not.mpr htype), hloop, entryOff, length_cached]

end Fs
end CS444
