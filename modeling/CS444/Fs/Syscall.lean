/-
`sysfile.c`: the file system calls, and what `fork` and `exit` of `proc.c` do
to files.

A call reads its arguments from the memory of the calling process, `User`.
`SYMLINK`, `APPEND_FILE`, `TRUNC_FILE` and `LSEEK` are defined; `SYMLIKE`, which
guards the link code of `sys_chdir`, is not.
-/
import CS444.Fs.File

namespace CS444
namespace Fs

open Bytes Program

/-! ## Arguments (`syscall.c`) -/

/-- The calling process's memory, its size and its stack pointer. -/
structure User where
  mem : Mem
  sz : Nat
  esp : Nat

namespace User

/-- `fetchint(addr, ip)` -/
def fetchint (u : User) (addr : Nat) : Option Nat :=
  if addr ≥ u.sz ∨ uint (addr + 4) > u.sz then none else some (load u.mem addr 4)

/-- The scan of `fetchstr`. -/
def scanStr (m : Mem) : Nat → Nat → Option Str
  | 0, _ => none
  | n + 1, a => if m a = 0 then some [] else (scanStr m n (a + 1)).map fun s => m a :: s

/-- `fetchstr(addr, pp)`: the string without its NUL. -/
def fetchstr (u : User) (addr : Nat) : Option Str :=
  if addr ≥ u.sz then none else scanStr u.mem (u.sz - addr) addr

/-- `argint(n, ip)`, as the 32 bits fetched. -/
def argint (u : User) (n : Nat) : Option Nat := u.fetchint (uint (u.esp + 4 + 4 * n))

/-- `argptr(n, pp, size)` -/
def argptr (u : User) (n : Nat) (size : Int) : Option Nat :=
  match u.argint n with
  | none => none
  | some i => if size < 0 ∨ i ≥ u.sz ∨ uint (i + size) > u.sz then none else some i

/-- `argstr(n, pp)` -/
def argstr (u : User) (n : Nat) : Option Str :=
  match u.argint n with
  | none => none
  | some addr => u.fetchstr addr

/-- What `size` of a null `struct inode *` reads: page 0 of the process is
mapped as long as the process has memory. -/
def nullSize (u : User) : Nat := load u.mem 88 4

/-- `n` bytes at `addr`. -/
def bytes (u : User) (addr n : Nat) : Str := (List.range n).map fun j => u.mem (addr + j)

end User

/-- `argfd(n, pfd, pf)` -/
def argfd (u : User) (n : Nat) : K (Option (Fin NOFILE × FileSlot)) := do
  let p ← myproc
  match u.argint n with
  | none => return none
  | some fd =>
    if h : fd < NOFILE then return (p.ofile ⟨fd, h⟩).map fun f => (⟨fd, h⟩, f)
    else return none

/-- `fdalloc(f)` -/
def fdalloc (f : FileSlot) : K (Option (Fin NOFILE)) := do
  let p ← myproc
  match (List.finRange NOFILE).find? fun fd => (p.ofile fd).isNone with
  | none => return none
  | some fd =>
    setProc fun p => { p with ofile := Function.update p.ofile fd (some f) }
    return some fd

/-- `curproc->ofile[fd] = 0` -/
def clearFd (fd : Fin NOFILE) : K Unit :=
  setProc fun p => { p with ofile := Function.update p.ofile fd none }

/-! ## Descriptors -/

def sys_dup (u : User) : K Int := do
  match ← argfd u 0 with
  | none => return -1
  | some (_, f) =>
    match ← fdalloc f with
    | none => return -1
    | some fd =>
      let _ ← filedup f
      return fd

def sys_read (u : User) : K (Int × Str) := do
  match ← argfd u 0, u.argint 2 with
  | some (_, f), some n =>
    match u.argptr 1 (int n) with
    | none => return (-1, [])
    | some _ => fileread f (int n)
  | _, _ => return (-1, [])

def sys_write (u : User) : K Int := do
  match ← argfd u 0, u.argint 2 with
  | some (_, f), some n =>
    match u.argptr 1 (int n) with
    | none => return -1
    | some p => filewrite u.nullSize 2 f (u.bytes p n)
  | _, _ => return -1

def sys_close (u : User) : K Int := do
  match ← argfd u 0 with
  | none => return -1
  | some (fd, f) =>
    clearFd fd
    fileclose f
    return 0

def sys_fstat (u : User) : K (Int × Option Stat) := do
  match ← argfd u 0, u.argptr 1 20 with
  | some (_, f), some _ => filestat f
  | _, _ => return (-1, none)

def sys_lseek (u : User) : K Int := do
  match ← argfd u 0, u.argint 1, u.argint 2 with
  | some (_, f), some offset, some whence => fileseek u.nullSize 3 f (int offset) (int whence)
  | _, _, _ => return -1

def sys_pipe (u : User) : K (Option (Fin NOFILE × Fin NOFILE)) := do
  match u.argptr 0 8 with
  | none => return none
  | some _ =>
    match ← pipealloc with
    | none => return none
    | some (rf, wf) =>
      match ← fdalloc rf with
      | none =>
        fileclose rf
        fileclose wf
        return none
      | some fd0 =>
        match ← fdalloc wf with
        | none =>
          clearFd fd0
          fileclose rf
          fileclose wf
          return none
        | some fd1 => return some (fd0, fd1)

/-! ## Names -/

/-- `create` making the `.` and `..` entries of a new directory. -/
def createDots (dp ip : Slot) : K Unit := do
  setInode dp fun d => { d with nlink := short (d.nlink + 1) }
  iupdate dp
  let i ← inodeAt ip
  let d ← inodeAt dp
  let r ← dirlink ip [46] i.inum
  if r < 0 then panic "create dots"
  else
    let r ← dirlink ip [46, 46] d.inum
    if r < 0 then panic "create dots" else pure ()

/-- `create` once `name` was not found in `dp`. -/
def createNew (dp : Slot) (name : Str) (type major minor : Int) : K Slot := do
  let d ← inodeAt dp
  let ip ← ialloc d.dev type
  ilock ip
  setInode ip fun i => { i with major := short major, minor := short minor, nlink := 1 }
  iupdate ip
  Prog.when (type = T_DIR) (createDots dp ip)
  let i ← inodeAt ip
  let r ← dirlink dp name i.inum
  if r < 0 then panic "create: dirlink"
  else
    iunlockput dp
    return ip

/-- `create(path, type, major, minor)`: the inode, locked. -/
def create (path : Str) (type major minor : Int) : K (Option Slot) := do
  match ← nameiparent path with
  | none => return none
  | some (dp, name) =>
    ilock dp
    match ← dirlookup dp name with
    | some (ip, _) =>
      iunlockput dp
      ilock ip
      let i ← inodeAt ip
      if type = T_FILE ∧ i.type = T_FILE then return some ip
      else
        iunlockput ip
        return none
    | none =>
      let ip ← createNew dp name type major minor
      return some ip

/-- The `bad` exit of `sys_link`. -/
def linkBad (ip : Slot) : K Int := do
  ilock ip
  setInode ip fun i => { i with nlink := short (i.nlink - 1) }
  iupdate ip
  iunlockput ip
  return -1

def sys_link (u : User) : K Int := do
  match u.argstr 0, u.argstr 1 with
  | some old, some new =>
    match ← namei old with
    | none => return -1
    | some ip =>
      ilock ip
      let i ← inodeAt ip
      if i.type = T_DIR then
        iunlockput ip
        return -1
      else
        setInode ip fun i => { i with nlink := short (i.nlink + 1) }
        iupdate ip
        iunlock ip
        match ← nameiparent new with
        | none => linkBad ip
        | some (dp, name) =>
          ilock dp
          let d ← inodeAt dp
          let i ← inodeAt ip
          if d.dev ≠ i.dev then
            iunlockput dp
            linkBad ip
          else
            let r ← dirlink dp name i.inum
            if r < 0 then
              iunlockput dp
              linkBad ip
            else
              iunlockput dp
              iput ip
              return 0
  | _, _ => return -1

/-- The loop of `isdirempty`. -/
def isdiremptyLoop (dp : Slot) : Nat → Nat → K Bool
  | 0, _ => hang
  | fuel + 1, off => do
    let d ← inodeAt dp
    if off < d.size then
      let de ← readDirent dp off "isdirempty: readi"
      if de.inum ≠ 0 then return false else isdiremptyLoop dp fuel (off + direntSize)
    else return true

/-- `isdirempty(dp)` -/
def isdirempty (dp : Slot) : K Bool := do
  let d ← inodeAt dp
  isdiremptyLoop dp (d.size / direntSize + 2) (2 * direntSize)

/-- The rest of `sys_unlink` once the entry of `ip` was found in `dp`. -/
def unlinkEntry (dp ip : Slot) (off : Nat) : K Int := do
  let r ← writei dp (List.replicate direntSize 0) off
  if r ≠ direntSize then panic "unlink: writei"
  else
    let i ← inodeAt ip
    Prog.when (i.type = T_DIR) do
      setInode dp fun d => { d with nlink := short (d.nlink - 1) }
      iupdate dp
    iunlockput dp
    setInode ip fun i => { i with nlink := short (i.nlink - 1) }
    iupdate ip
    iunlockput ip
    return 0

def sys_unlink (u : User) : K Int := do
  match u.argstr 0 with
  | none => return -1
  | some path =>
    match ← nameiparent path with
    | none => return -1
    | some (dp, name) =>
      ilock dp
      if namecmp name [46] ∨ namecmp name [46, 46] then
        iunlockput dp
        return -1
      else
        match ← dirlookup dp name with
        | none =>
          iunlockput dp
          return -1
        | some (ip, off) =>
          ilock ip
          let i ← inodeAt ip
          if i.nlink < 1 then panic "unlink: nlink < 1"
          else if i.type = T_DIR then
            if ← isdirempty ip then unlinkEntry dp ip off
            else
              iunlockput ip
              iunlockput dp
              return -1
          else unlinkEntry dp ip off

def sys_mkdir (u : User) : K Int := do
  match u.argstr 0 with
  | none => return -1
  | some path =>
    match ← create path T_DIR 0 0 with
    | none => return -1
    | some ip =>
      iunlockput ip
      return 0

def sys_mknod (u : User) : K Int := do
  match u.argstr 0, u.argint 1, u.argint 2 with
  | some path, some major, some minor =>
    match ← create path T_DEV major minor with
    | none => return -1
    | some ip =>
      iunlockput ip
      return 0
  | _, _, _ => return -1

def sys_symlink (u : User) : K Int := do
  match u.argstr 0, u.argstr 1 with
  | some old, some new =>
    match ← create new T_SYMLINK 0 0 with
    | none => return -1
    | some ino =>
      let _ ← writei ino old 0
      iunlockput ino
      return 0
  | _, _ => return -1

def sys_chdir (u : User) : K Int := do
  match u.argstr 0 with
  | none => return -1
  | some path =>
    match ← namei path with
    | none => return -1
    | some ip =>
      ilock ip
      let i ← inodeAt ip
      if i.type ≠ T_DIR then
        iunlockput ip
        return -1
      else
        iunlock ip
        let p ← myproc
        match p.cwd with
        | none => panic "trap"
        | some cwd =>
          iput cwd
          setProc fun p => { p with cwd := some ip }
          return 0

/-! ## Symbolic links -/

/-- What the local `name[MAX_FILE_NAME]` holds after `memset` and `readi`, read
as a string: `above` is what lies behind the array on the kernel stack, which a
link of `MAX_FILE_NAME` bytes or more runs into. -/
def linkName (above : Str) (ip : Slot) : K Str := do
  let (_, bytes) ← readi ip 0 MAX_FILE_NAME
  return cstr (bytes ++ List.replicate (MAX_FILE_NAME - bytes.length) 0 ++ above)

/-- The link loop of `sys_open` and `sys_exec`, with `left = MAX_DEPTH - depth`
turns left: the inode it ends with, locked, and the last `name`; `none` for the
three exits that return -1. -/
def followLinks (above : Nat → Str) : Nat → Slot → Str → K (Option (Slot × Str))
  | 0, ip, name => pure (some (ip, name))
  | left + 1, ip, name => do
    let i ← inodeAt ip
    if i.type ≠ T_SYMLINK then return some (ip, name)
    else
      let name ← linkName (above left) ip
      iunlock ip
      match ← namei name with
      | none => return none
      | some ip =>
        ilock ip
        if left = 0 then
          iunlock ip
          return none
        else followLinks above left ip name

/-- `sys_open` up to the link loop: the inode of the path, locked. -/
def openPath (path : Str) (omode : Nat) : K (Option Slot) := do
  if omode &&& O_CREATE ≠ 0 then create path T_FILE 0 0
  else
    match ← namei path with
    | none => return none
    | some ip =>
      ilock ip
      let i ← inodeAt ip
      if i.type = T_DIR ∧ omode &&& O_RDONLY ≠ 0 then
        iunlockput ip
        return none
      else return some ip

/-- `sys_open` up to `O_TRUNC`: the inode to be opened, locked. -/
def openInode (above : Nat → Str) (path : Str) (omode : Nat) : K (Option Slot) := do
  match ← openPath path omode with
  | none => return none
  | some ip =>
    if omode &&& O_NODEREF = 0 then
      let r ← followLinks above (MAX_DEPTH - 1) ip []
      return r.map Prod.fst
    else return some ip

/-- `f->writable` of a file opened with `omode`. -/
def writableOf (omode : Nat) : Nat :=
  if omode &&& O_WRONLY ≠ 0 ∨ omode &&& O_RDWR ≠ 0 then
    FILE_WRITEABLE ||| (if omode &&& O_APPEND ≠ 0 then FILE_APPENDABLE else FILE_NOWRITE)
  else FILE_NOWRITE

/-- The rest of `sys_open`. -/
def openFile (omode : Nat) (ip : Slot) : K Int := do
  let i ← inodeAt ip
  Prog.when (i.type = T_FILE ∧ (omode &&& O_WRONLY ≠ 0 ∨ omode &&& O_RDWR ≠ 0) ∧
    omode &&& O_TRUNC ≠ 0) (itrunc ip)
  match ← filealloc with
  | none =>
    iunlockput ip
    return -1
  | some f =>
    match ← fdalloc f with
    | none =>
      fileclose f
      iunlockput ip
      return -1
    | some fd =>
      iunlock ip
      setFile f fun file =>
        { file with
          type := .inode, ip := some ip, off := 0
          readable := omode &&& O_WRONLY = 0
          writable := writableOf omode }
      return fd

/-- `sys_open` once the path is resolved. -/
def openResult (omode : Nat) : Option Slot → K Int
  | none => pure (-1)
  | some ip => openFile omode ip

def sys_open (above : Nat → Str) (u : User) : K Int := do
  match u.argstr 0, u.argint 1 with
  | some path, some omode =>
    let r ← openInode above path omode
    openResult omode r
  | _, _ => return -1

/-- The loop of `sys_exec` that fetches `argv`. -/
def fetchArgv (u : User) (uargv : Nat) : Nat → Nat → Option (List Str)
  | 0, _ => none
  | left + 1, i =>
    match u.fetchint (uint (uargv + 4 * i)) with
    | none => none
    | some uarg =>
      if uarg = 0 then some []
      else
        match u.fetchstr uarg with
        | none => none
        | some arg => (fetchArgv u uargv left (i + 1)).map fun rest => arg :: rest

/-- `sys_exec` up to its call of `exec`: the arguments of that call, or `none`
when it returns -1. -/
def sys_exec (above : Nat → Str) (u : User) : K (Option (Str × List Str)) := do
  match u.argstr 0, u.argint 1 with
  | some path, some uargv =>
    match fetchArgv u uargv MAXARG 0 with
    | none => return none
    | some argv =>
      match ← namei path with
      | none => return none
      | some ip =>
        ilock ip
        let i ← inodeAt ip
        if i.type = T_SYMLINK then
          match ← followLinks above (MAX_DEPTH - 1) ip [] with
          | none => return none
          | some (ip, name) =>
            iunlock ip
            return some (name, argv)
        else
          iunlock ip
          return some (path.take (MAX_FILE_NAME - 1), argv)
  | _, _ => return none

/-- The calls of `readi` that `exec` makes. -/
def execReads (ip : Slot) : List (Nat × Nat) → K Unit
  | [] => pure ()
  | (off, n) :: rest => do
    let _ ← readi ip off n
    execReads ip rest

/-- What `exec(path, argv)` does to inodes; `reads` are the parts of the file it
reads, which depend on the ELF headers and on how far it gets. -/
def exec (path : Str) (reads : List (Nat × Nat)) : K Unit := do
  match ← namei path with
  | none => pure ()
  | some ip =>
    ilock ip
    execReads ip reads
    iunlockput ip

/-! ## Processes -/

/-- `fork` copying the open files of the parent, `np->ofile[i] = filedup(..)`. -/
def forkFiles (np : ProcSlot) : List (Fin NOFILE) → K Unit
  | [] => pure ()
  | fd :: rest => do
    let p ← myproc
    match p.ofile fd with
    | none => forkFiles np rest
    | some f =>
      let f ← filedup f
      Prog.modify fun s =>
        { s with
          proc := Function.update s.proc np
            { s.proc np with ofile := Function.update (s.proc np).ofile fd (some f) } }
      forkFiles np rest

/-- What `fork` does to files, for a child in slot `np`. -/
def fork (np : ProcSlot) : K Unit := do
  forkFiles np (List.finRange NOFILE)
  let p ← myproc
  match p.cwd with
  | none => panic "trap"
  | some cwd =>
    let cwd ← idup cwd
    Prog.modify fun s =>
      { s with proc := Function.update s.proc np { s.proc np with cwd := some cwd } }

/-- `exit` closing all open files. -/
def exitFiles : List (Fin NOFILE) → K Unit
  | [] => pure ()
  | fd :: rest => do
    let p ← myproc
    match p.ofile fd with
    | none => exitFiles rest
    | some f =>
      fileclose f
      clearFd fd
      exitFiles rest

/-- What `exit` does to files. -/
def exit : K Unit := do
  exitFiles (List.finRange NOFILE)
  let p ← myproc
  match p.cwd with
  | none => panic "trap"
  | some cwd =>
    iput cwd
    setProc fun p => { p with cwd := none }

end Fs
end CS444
