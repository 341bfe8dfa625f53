/-
`file.c` and `pipe.c`: open files, pipes, `fileread`, `filewrite`, `fileseek`.
-/
import CS444.Fs.Path

namespace CS444
namespace Fs

open Program

/-! ## Pipes -/

/-- Change `*p`. -/
def setPipe (p : Nat) (g : Pipe → Pipe) : K Unit :=
  Prog.modify fun s => { s with pipe := Function.update s.pipe p (g (s.pipe p)) }

/-- `pipeclose(p, writable)` -/
def pipeclose (p writable : Nat) : K Unit := do
  setPipe p fun q =>
    if writable ≠ 0 then { q with writeopen := false } else { q with readopen := false }
  let s ← Prog.get
  Prog.when ((s.pipe p).readopen = false ∧ (s.pipe p).writeopen = false) kfree

/-- The loop of `pipewrite`. -/
def pipewriteLoop (p : Nat) (n : Int) : Str → K Int
  | [] => pure n
  | c :: rest => do
    let s ← Prog.get
    let q := s.pipe p
    if q.nwrite = (q.nread + PIPESIZE) % 2 ^ 32 then
      if q.readopen = false ∨ s.killed = true then return -1 else hang
    else
      setPipe p fun q =>
        { q with
          data := Function.update q.data (q.nwrite % PIPESIZE) c
          nwrite := (q.nwrite + 1) % 2 ^ 32 }
      pipewriteLoop p n rest

/-- `pipewrite(p, addr, n)` -/
def pipewrite (p : Nat) (src : Str) : K Int := pipewriteLoop p src.length src

/-- The copying loop of `piperead`. -/
def pipereadLoop (p : Nat) : Nat → K Str
  | 0 => pure []
  | n + 1 => do
    let s ← Prog.get
    let q := s.pipe p
    if q.nread = q.nwrite then return []
    else
      setPipe p fun q => { q with nread := (q.nread + 1) % 2 ^ 32 }
      let rest ← pipereadLoop p n
      return q.data (q.nread % PIPESIZE) :: rest

/-- `piperead(p, addr, n)`: the result and the bytes stored. -/
def piperead (p : Nat) (n : Int) : K (Int × Str) := do
  let s ← Prog.get
  if (s.pipe p).nread = (s.pipe p).nwrite ∧ (s.pipe p).writeopen = true then
    if s.killed then return (-1, []) else hang
  else
    let bytes ← pipereadLoop p n.toNat
    return (bytes.length, bytes)

/-! ## The file table -/

/-- All file table entries, in the order the loops visit them. -/
def fileSlots : List FileSlot := List.finRange NFILE

/-- `filealloc()` -/
def filealloc : K (Option FileSlot) := do
  let s ← Prog.get
  match fileSlots.find? fun f => (s.file f).ref = 0 with
  | none => return none
  | some f =>
    setFile f fun file => { file with ref := 1 }
    return some f

/-- `filedup(f)` -/
def filedup (f : FileSlot) : K FileSlot := do
  let file ← fileAt f
  if file.ref < 1 then panic "filedup"
  else
    setFile f fun file => { file with ref := file.ref + 1 }
    return f

/-- `fileclose(f)` -/
def fileclose (f : FileSlot) : K Unit := do
  let ff ← fileAt f
  if ff.ref < 1 then panic "fileclose"
  else if ff.ref - 1 > 0 then setFile f fun file => { file with ref := file.ref - 1 }
  else
    setFile f fun file => { file with ref := 0, type := .none }
    match ff.type with
    | .none => pure ()
    | .pipe =>
      match ff.pipe with
      | none => panic "trap"
      | some p => pipeclose p ff.writable
    | .inode =>
      match ff.ip with
      | none => panic "trap"
      | some ip => iput ip

/-- `pipealloc(f0, f1)` -/
def pipealloc : K (Option (FileSlot × FileSlot)) := do
  match ← filealloc with
  | none => return none
  | some f0 =>
    match ← filealloc with
    | none =>
      fileclose f0
      return none
    | some f1 =>
      if ← kalloc then
        let s ← Prog.get
        let p := s.nextpipe
        Prog.modify fun s => { s with nextpipe := p + 1 }
        setPipe p fun q => { q with nread := 0, nwrite := 0, readopen := true, writeopen := true }
        setFile f0 fun file =>
          { file with type := .pipe, readable := true, writable := 0, pipe := some p }
        setFile f1 fun file =>
          { file with type := .pipe, readable := false, writable := 1, pipe := some p }
        return some (f0, f1)
      else
        fileclose f0
        fileclose f1
        return none

/-- `struct stat` -/
structure Stat where
  type : Int
  dev : Nat
  ino : Nat
  nlink : Int
  size : Nat

/-- `filestat(f, st)` -/
def filestat (f : FileSlot) : K (Int × Option Stat) := do
  let file ← fileAt f
  if file.type = .inode then
    match file.ip with
    | none => panic "ilock"
    | some ip =>
      ilock ip
      let i ← inodeAt ip
      iunlock ip
      return (0, some ⟨i.type, i.dev, i.inum, i.nlink, i.size⟩)
  else return (-1, none)

/-! ## Reading, writing and seeking -/

/-- `fileread(f, addr, n)`: the result and the bytes stored. -/
def fileread (f : FileSlot) (n : Int) : K (Int × Str) := do
  let file ← fileAt f
  if file.readable = false then return (-1, [])
  else
    match file.type with
    | .pipe =>
      match file.pipe with
      | none => panic "trap"
      | some p => piperead p n
    | .inode =>
      match file.ip with
      | none => panic "ilock"
      | some ip =>
        ilock ip
        let (r, bytes) ← readi ip file.off (uint n)
        Prog.when (r > 0) (setFile f fun file => { file with off := uint (file.off + r) })
        iunlock ip
        return (r, bytes)
    | .none => panic "fileread"

/-- `((MAXOPBLOCKS-1-1-2) / 2) * 512` -/
def maxChunk : Nat := (MAXOPBLOCKS - 1 - 1 - 2) / 2 * 512

/-- The loop of `filewrite`, with `chunk` its body; whether all was written. -/
def writeChunks (chunk : Str → K Int) : Nat → Str → K Bool
  | 0, rest => pure (rest = [])
  | fuel + 1, rest =>
    if rest = [] then pure true
    else do
      let n1 := min rest.length maxChunk
      let r ← chunk (rest.take n1)
      if r < 0 then return false
      else if r ≠ n1 then panic "short filewrite"
      else writeChunks chunk fuel (rest.drop n1)

/-- The body of `filewrite`'s loop; `seekEnd` is its `fileseek(f, 0, SEEK_END)`. -/
def writeChunk (seekEnd : K Int) (f : FileSlot) (ip : Slot) (chunk : Str) : K Int := do
  ilock ip
  let file ← fileAt f
  Prog.when (file.writable &&& FILE_APPENDABLE ≠ 0) do
    let _ ← seekEnd
  let file ← fileAt f
  let r ← writei ip chunk file.off
  Prog.when (r > 0) (setFile f fun file => { file with off := uint (file.off + r) })
  iunlock ip
  return r

/-- The loop of `fileseek` that writes NULs into the hole. -/
def fillHole (write : Str → K Int) : Nat → Nat → K Unit
  | 0, _ => pure ()
  | fuel + 1, new_fbytes =>
    if new_fbytes = 0 then pure ()
    else do
      let _ ← write (List.replicate (min new_fbytes PGSIZE) 0)
      fillHole write fuel (new_fbytes - PGSIZE)

/-- The position `fileseek` computes, with `size` that of the file. -/
def seekTarget (off size : Nat) (offset whence : Int) : Option Int :=
  if whence = SEEK_SET then some offset
  else if whence = SEEK_CUR then some (int (off + offset))
  else if whence = SEEK_END then some (int (size + offset))
  else none

/-- `file->ip->size`.  A null `ip` reads the word `null` at that offset in page 0
of the calling process. -/
def sizeThrough (s : Kernel) (null : Nat) (file : File) : Nat :=
  match file.ip with
  | none => null
  | some ip => (s.inode ip).size

def fileSize (null : Nat) (file : File) : K Nat := Prog.gets fun s => sizeThrough s null file

@[simp] theorem fileSize_bind_run {α : Type} (null : Nat) (file : File) (g : Nat → K α)
    (s : Kernel) : (fileSize null file >>= g).run s = (g (sizeThrough s null file)).run s := rfl

mutual

/-- `filewrite(f, addr, n)`, with `n` the length of `src`.  `filewrite` and
`fileseek` call each other; the second argument bounds how deep. -/
def filewrite (null : Nat) : Nat → FileSlot → Str → K Int
  | 0, _, _ => hang
  | depth + 1, f, src => do
    let file ← fileAt f
    if file.writable = 0 then return -1
    else
      match file.type with
      | .pipe =>
        match file.pipe with
        | none => panic "trap"
        | some p => pipewrite p src
      | .inode =>
        match file.ip with
        | none => if src = [] then return 0 else panic "ilock"
        | some ip =>
          let all ← writeChunks (writeChunk (fileseek null depth f 0 SEEK_END) f ip) src.length src
          return if all then src.length else -1
      | .none => panic "filewrite"

/-- `fileseek(file, offset, whence)` -/
def fileseek (null : Nat) : Nat → FileSlot → Int → Int → K Int
  | 0, _, _, _ => hang
  | depth + 1, f, offset, whence => do
    let file ← fileAt f
    let size ← fileSize null file
    match seekTarget file.off size offset whence with
    | none => return -1
    | some tot_offset =>
      if tot_offset < 0 then return -1
      else
        Prog.when (tot_offset > size) do
          let page ← kalloc
          setFile f fun file => { file with off := size }
          let new_fbytes := tot_offset.toNat - size
          fillHole (filewrite null depth f) new_fbytes new_fbytes
          if page then kfree else panic "kfree"
        setFile f fun file => { file with off := tot_offset.toNat }
        return tot_offset

end

end Fs
end CS444
