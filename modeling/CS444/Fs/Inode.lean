/-
`fs.c` up to `writei`: blocks, the inode cache and inode contents.
-/
import CS444.Fs.State

namespace CS444
namespace Fs

open Bytes Program

/-! ## Blocks -/

/-- `bzero(dev, bno)` -/
def bzero (bno : Nat) : K Unit :=
  Prog.modify fun s => { s with block := Function.update s.block bno fun _ => 0 }

/-- `balloc(dev)`: mark the first free block used and zero it. -/
def balloc : K Nat := do
  let s ← Prog.get
  match (List.range s.sb.size).find? fun b => !s.bitmap b with
  | none => panic "balloc: out of blocks"
  | some b =>
    Prog.modify fun s => { s with bitmap := Function.update s.bitmap b true }
    bzero b
    return b

/-- `bfree(dev, b)` -/
def bfree (b : Nat) : K Unit := do
  let s ← Prog.get
  if s.bitmap b = false then panic "freeing free block"
  else Prog.modify fun s => { s with bitmap := Function.update s.bitmap b false }

/-! ## The inode cache -/

/-- All cache entries, in the order the loops visit them. -/
def slots : List Slot := List.finRange NINODE

/-- `iget(dev, inum)` -/
def iget (dev inum : Nat) : K Slot := do
  let s ← Prog.get
  match slots.find? fun k =>
      0 < (s.inode k).ref ∧ (s.inode k).dev = dev ∧ (s.inode k).inum = inum with
  | some ip =>
    setInode ip fun i => { i with ref := i.ref + 1 }
    return ip
  | none =>
    match slots.find? fun k => (s.inode k).ref = 0 with
    | none => panic "iget: no inodes"
    | some ip =>
      setInode ip fun i => { i with dev := dev, inum := inum, ref := 1, valid := false }
      return ip

/-- `ialloc(dev, type)` -/
def ialloc (dev : Nat) (type : Int) : K Slot := do
  let s ← Prog.get
  match (List.range s.sb.ninodes).find? fun inum => 1 ≤ inum ∧ (s.dinode inum).type = 0 with
  | none => panic "ialloc: no inodes"
  | some inum =>
    Prog.modify fun s =>
      { s with dinode := Function.update s.dinode inum ⟨type, 0, 0, 0, 0, fun _ => 0⟩ }
    iget dev inum

/-- `iupdate(ip)` -/
def iupdate (ip : Slot) : K Unit := do
  let i ← inodeAt ip
  Prog.modify fun s =>
    { s with
      dinode := Function.update s.dinode i.inum
        ⟨i.type, i.major, i.minor, i.nlink, i.size, i.addrs⟩ }

/-- `idup(ip)` -/
def idup (ip : Slot) : K Slot := do
  setInode ip fun i => { i with ref := i.ref + 1 }
  return ip

/-- `acquiresleep(&ip->lock)` -/
def acquiresleep (ip : Slot) : K Unit := do
  let i ← inodeAt ip
  if i.locked then hang else setInode ip fun i => { i with locked := true }

/-- `releasesleep(&ip->lock)` -/
def releasesleep (ip : Slot) : K Unit := setInode ip fun i => { i with locked := false }

/-- `ilock(ip)` -/
def ilock (ip : Slot) : K Unit := do
  let i ← inodeAt ip
  if i.ref < 1 then panic "ilock"
  else
    acquiresleep ip
    if i.valid then pure ()
    else
      let s ← Prog.get
      let dip := s.dinode i.inum
      setInode ip fun i =>
        { i with
          type := dip.type, major := dip.major, minor := dip.minor, nlink := dip.nlink,
          size := dip.size, addrs := dip.addrs, valid := true }
      if dip.type = 0 then panic "ilock: no type" else pure ()

/-- `iunlock(ip)` -/
def iunlock (ip : Slot) : K Unit := do
  let i ← inodeAt ip
  if i.locked = false ∨ i.ref < 1 then panic "iunlock" else releasesleep ip

/-! ## Block maps -/

/-- `a[bn]` of the indirect block `addr`. -/
def indirectAt (addr bn : Nat) : K Nat := Prog.gets fun s => load (s.block addr) (4 * bn) 4

/-- The address of the indirect block, allocated if necessary. -/
def indirectBlock (ip : Slot) : K Nat := do
  let i ← inodeAt ip
  if i.addrs NDIRECT = 0 then
    let addr ← balloc
    setInode ip fun i => { i with addrs := Function.update i.addrs NDIRECT addr }
    return addr
  else return i.addrs NDIRECT

/-- `bmap(ip, bn)` -/
def bmap (ip : Slot) (bn : Nat) : K Nat := do
  let i ← inodeAt ip
  if bn < NDIRECT then
    if i.addrs bn = 0 then
      let addr ← balloc
      setInode ip fun i => { i with addrs := Function.update i.addrs bn addr }
      return addr
    else return i.addrs bn
  else if bn - NDIRECT < NINDIRECT then
    let bn := bn - NDIRECT
    let ind ← indirectBlock ip
    let addr ← indirectAt ind bn
    if addr = 0 then
      let addr ← balloc
      Prog.modify fun s =>
        { s with block := Function.update s.block ind (store (s.block ind) (4 * bn) 4 addr) }
      return addr
    else return addr
  else panic "bmap: out of range"

/-- The first loop of `itrunc`. -/
def truncDirect (ip : Slot) : List Nat → K Unit
  | [] => pure ()
  | i :: rest => do
    let inode ← inodeAt ip
    if inode.addrs i = 0 then truncDirect ip rest
    else
      bfree (inode.addrs i)
      setInode ip fun inode => { inode with addrs := Function.update inode.addrs i 0 }
      truncDirect ip rest

/-- The second loop of `itrunc`, over the entries of the indirect block. -/
def truncIndirect : List Nat → K Unit
  | [] => pure ()
  | a :: rest => do
    if a = 0 then truncIndirect rest
    else
      bfree a
      truncIndirect rest

/-- `itrunc(ip)` -/
def itrunc (ip : Slot) : K Unit := do
  truncDirect ip (List.range NDIRECT)
  let i ← inodeAt ip
  Prog.when (i.addrs NDIRECT ≠ 0) do
    let s ← Prog.get
    truncIndirect
      ((List.range NINDIRECT).map fun j => load (s.block (i.addrs NDIRECT)) (4 * j) 4)
    bfree (i.addrs NDIRECT)
    setInode ip fun i => { i with addrs := Function.update i.addrs NDIRECT 0 }
  setInode ip fun i => { i with size := 0 }
  iupdate ip

/-- `iput(ip)` -/
def iput (ip : Slot) : K Unit := do
  acquiresleep ip
  let i ← inodeAt ip
  Prog.when (i.valid ∧ i.nlink = 0 ∧ i.ref = 1) do
    itrunc ip
    setInode ip fun i => { i with type := 0 }
    iupdate ip
    setInode ip fun i => { i with valid := false }
  releasesleep ip
  setInode ip fun i => { i with ref := i.ref - 1 }

/-- `iunlockput(ip)` -/
def iunlockput (ip : Slot) : K Unit := do
  iunlock ip
  iput ip

/-! ## The console device -/

/-- The loop of `consoleread`, with `n` bytes still to read of `target`. -/
def consolereadLoop (target : Nat) : Nat → Str → K (Option Str)
  | 0, got => pure (some got)
  | n + 1, got => do
    let s ← Prog.get
    match s.consoleIn with
    | [] => if s.killed then pure none else hang
    | c :: rest =>
      -- `c` is control-D
      if c = 4 then
        if n + 1 < target then pure (some got)
        else
          Prog.modify fun s => { s with consoleIn := rest }
          pure (some got)
      else
        Prog.modify fun s => { s with consoleIn := rest }
        if c = 10 then pure (some (got ++ [c])) else consolereadLoop target n (got ++ [c])

/-- `consoleread(ip, dst, n)`: the result and the bytes stored. -/
def consoleread (ip : Slot) (n : Int) : K (Int × Str) := do
  iunlock ip
  let r ← consolereadLoop n.toNat n.toNat []
  ilock ip
  match r with
  | none => return (-1, [])
  | some got => return (got.length, got)

/-- `consolewrite(ip, buf, n)` -/
def consolewrite (ip : Slot) (src : Str) (n : Int) : K Int := do
  iunlock ip
  Prog.modify fun s => { s with consoleOut := s.consoleOut ++ src.take n.toNat }
  ilock ip
  return n

/-! ## Inode contents -/

/-- The loop of `readi`: the bytes copied out. -/
def readLoop (ip : Slot) : Nat → Nat → Nat → K Str
  | 0, _, _ => pure []
  | fuel + 1, off, n =>
    if n = 0 then pure []
    else do
      let b ← bmap ip (off / BSIZE)
      let s ← Prog.get
      let m := min n (BSIZE - off % BSIZE)
      let bytes := (List.range m).map fun j => s.block b (off % BSIZE + j)
      let rest ← readLoop ip fuel (off + m) (n - m)
      return bytes ++ rest

/-- `readi(ip, dst, off, n)`: the result and the bytes stored at `dst`. -/
def readi (ip : Slot) (off n : Nat) : K (Int × Str) := do
  let i ← inodeAt ip
  if i.type = T_DEV then
    if i.major < 0 ∨ i.major ≥ NDEV ∨ i.major ≠ CONSOLE then return (-1, [])
    else consoleread ip (int n)
  else if off > i.size ∨ uint (off + n) < off then return (-1, [])
  else
    let n := if uint (off + n) > i.size then i.size - off else n
    let bytes ← readLoop ip n off n
    return (int n, bytes)

/-- The block `m` with `bytes` copied over it from position `at`. -/
def patch (m : Mem) (start : Nat) (bytes : Str) : Mem :=
  fun j => if start ≤ j ∧ j < start + bytes.length then bytes.getD (j - start) 0 else m j

/-- The loop of `writei`; it returns the final `off`. -/
def writeLoop (ip : Slot) : Nat → Nat → Str → K Nat
  | 0, off, _ => pure off
  | fuel + 1, off, src =>
    if src = [] then pure off
    else do
      let b ← bmap ip (off / BSIZE)
      let m := min src.length (BSIZE - off % BSIZE)
      Prog.modify fun s =>
        { s with
          block :=
            Function.update s.block b (patch (s.block b) (off % BSIZE) (src.take m)) }
      writeLoop ip fuel (off + m) (src.drop m)

/-- `writei(ip, src, off, n)`, with `n` the length of `src`. -/
def writei (ip : Slot) (src : Str) (off : Nat) : K Int := do
  let i ← inodeAt ip
  let n := src.length
  if i.type = T_DEV then
    if i.major < 0 ∨ i.major ≥ NDEV ∨ i.major ≠ CONSOLE then return -1
    else consolewrite ip src (int n)
  else if off > i.size ∨ uint (off + n) < off then return -1
  else if uint (off + n) > MAXFILE * BSIZE then return -1
  else
    let off ← writeLoop ip n off src
    let i ← inodeAt ip
    Prog.when (0 < n ∧ off > i.size) do
      setInode ip fun i => { i with size := off }
      iupdate ip
    return int n

end Fs
end CS444
