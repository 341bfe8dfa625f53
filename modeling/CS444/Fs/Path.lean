/-
`fs.c` from `namecmp` on: directories and path names.
-/
import CS444.Fs.Inode
import Mathlib.Data.List.DropRight

namespace CS444
namespace Fs

open Program

/-! ## Directories -/

/-- `sizeof(struct dirent)` -/
def direntSize : Nat := 16

/-- `struct dirent` -/
structure Dirent where
  inum : Nat
  name : Str

def Dirent.ofBytes (bytes : Str) : Dirent where
  inum := (bytes.getD 0 0).toNat + 256 * (bytes.getD 1 0).toNat
  name := bytes.drop 2

/-- `strncpy(de.name, name, DIRSIZ); de.inum = inum;` -/
def Dirent.toBytes (de : Dirent) : Str :=
  let name := de.name.take DIRSIZ
  [UInt8.ofNat de.inum, UInt8.ofNat (de.inum / 256)] ++ name ++
    List.replicate (DIRSIZ - name.length) 0

/-- The bytes of a `char` array up to its first NUL. -/
def cstr (s : Str) : Str := s.takeWhile (· ≠ 0)

/-- `namecmp(s, t) == 0` -/
def namecmp (s t : Str) : Bool := (cstr s).take DIRSIZ = (cstr t).take DIRSIZ

/-- One turn's `readi(dp, &de, off, sizeof(de))` and its panic. -/
def readDirent (dp : Slot) (off : Nat) (msg : String) : K Dirent := do
  let (r, bytes) ← readi dp off direntSize
  if r ≠ direntSize then panic msg else return Dirent.ofBytes bytes

/-- The loop of `dirlookup`. -/
def dirlookupLoop (dp : Slot) (name : Str) : Nat → Nat → K (Option (Slot × Nat))
  | 0, _ => hang
  | fuel + 1, off => do
    let d ← inodeAt dp
    if off < d.size then
      let de ← readDirent dp off "dirlookup read"
      if de.inum ≠ 0 ∧ namecmp name de.name then
        let d ← inodeAt dp
        let ip ← iget d.dev de.inum
        return some (ip, off)
      else dirlookupLoop dp name fuel (off + direntSize)
    else return none

/-- `dirlookup(dp, name, poff)`: the inode and the offset of its entry. -/
def dirlookup (dp : Slot) (name : Str) : K (Option (Slot × Nat)) := do
  let d ← inodeAt dp
  if d.type ≠ T_DIR then panic "dirlookup not DIR"
  else dirlookupLoop dp name (d.size / direntSize + 2) 0

/-- The loop of `dirlink`: the offset of an empty entry. -/
def emptyDirent (dp : Slot) : Nat → Nat → K Nat
  | 0, _ => hang
  | fuel + 1, off => do
    let d ← inodeAt dp
    if off < d.size then
      let de ← readDirent dp off "dirlink read"
      if de.inum = 0 then return off else emptyDirent dp fuel (off + direntSize)
    else return off

/-- `dirlink(dp, name, inum)` -/
def dirlink (dp : Slot) (name : Str) (inum : Nat) : K Int := do
  match ← dirlookup dp name with
  | some (ip, _) =>
    iput ip
    return -1
  | none =>
    let d ← inodeAt dp
    let off ← emptyDirent dp (d.size / direntSize + 2) 0
    let r ← writei dp (Dirent.toBytes ⟨inum, name⟩) off
    if r ≠ direntSize then panic "dirlink" else return 0

/-! ## Paths -/

/-- The character '/'. -/
def slash : UInt8 := 47

/-- `skipelem(path, name)`: the name and the rest of the path. -/
def skipelem (path : Str) : Option (Str × Str) :=
  let path := path.dropWhile (· = slash)
  if path = [] then none
  else
    some ((path.takeWhile (· ≠ slash)).take DIRSIZ,
      (path.dropWhile (· ≠ slash)).dropWhile (· = slash))

/-- The loop of `namex`; every turn shortens the path. -/
def namexLoop (parent : Bool) : Nat → Str → Slot → Str → K (Option (Slot × Str))
  | 0, _, _, _ => hang
  | fuel + 1, path, ip, name =>
    match skipelem path with
    | none => do
      if parent then
        iput ip
        return none
      else return some (ip, name)
    | some (name, path) => do
      ilock ip
      let i ← inodeAt ip
      if i.type ≠ T_DIR then
        iunlockput ip
        return none
      else if parent ∧ path = [] then
        -- stop one level early
        iunlock ip
        return some (ip, name)
      else
        match ← dirlookup ip name with
        | none =>
          iunlockput ip
          return none
        | some (next, _) =>
          iunlockput ip
          namexLoop parent fuel path next name

/-- The inode `namex` starts from. -/
def namexStart (path : Str) : K Slot := do
  if path.head? = some slash then iget ROOTDEV ROOTINO
  else
    let p ← myproc
    match p.cwd with
    | none => panic "trap"
    | some cwd => idup cwd

/-- `namex(path, nameiparent, name)` -/
def namex (path : Str) (parent : Bool) : K (Option (Slot × Str)) := do
  let ip ← namexStart path
  namexLoop parent (path.length + 1) path ip []

/-- `namei(path)` -/
def namei (path : Str) : K (Option Slot) := do
  let r ← namex path false
  return r.map Prod.fst

/-- `nameiparent(path, name)`: the inode of the parent and the last name. -/
def nameiparent (path : Str) : K (Option (Slot × Str)) := namex path true

theorem length_dropWhile_le {α : Type} (p : α → Bool) (l : List α) :
    (l.dropWhile p).length ≤ l.length :=
  (List.dropWhile_sublist p).length_le

/-- `skipelem` leaves less of the path, so `namexLoop` has fuel enough. -/
theorem skipelem_length {path name rest : Str} (h : skipelem path = some (name, rest)) :
    rest.length < path.length := by
  unfold skipelem at h
  simp only at h
  split at h
  · exact absurd h (by simp)
  · rename_i hne
    obtain ⟨-, rfl⟩ := Prod.mk.inj (Option.some.inj h)
    obtain ⟨c, tail, hcons⟩ := List.exists_cons_of_ne_nil hne
    have hslash : c ≠ slash := by
      have hhead := List.head_dropWhile_not (fun x => decide (x = slash)) hne
      simp only [hcons, List.head_cons] at hhead
      simpa using hhead
    have hdrop : (c :: tail).dropWhile (· ≠ slash) = tail.dropWhile (· ≠ slash) := by
      rw [List.dropWhile_cons_of_pos (by simpa using hslash)]
    have h₁ := length_dropWhile_le (· = slash) (tail.dropWhile (· ≠ slash))
    have h₂ := length_dropWhile_le (· ≠ slash) tail
    have h₃ := length_dropWhile_le (· = slash) path
    rw [hcons, List.length_cons] at h₃
    rw [hcons, hdrop]
    omega

/-- What `skipelem` leaves is empty or starts with a name. -/
theorem skipelem_rest {path name rest : Str} (h : skipelem path = some (name, rest))
    (hne : rest ≠ []) : skipelem rest ≠ none := by
  unfold skipelem at h ⊢
  simp only at h ⊢
  split at h
  · exact absurd h (by simp)
  · obtain ⟨-, rfl⟩ := Prod.mk.inj (Option.some.inj h)
    rw [List.dropWhile_idempotent, if_neg hne]
    simp

end Fs
end CS444
