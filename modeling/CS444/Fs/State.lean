/-
The file system of the symlink kernel (`assignment5/xv6-symlink`): its state.

The disk is modelled by its four areas, which the super block keeps apart: the
inode blocks are `dinode`, one on-disk inode for each number, the free bit map
is `bitmap`, and `block` holds the bytes of the data blocks.  The log and the
buffer cache are left out: a call is one transaction, `begin_op` and `end_op`
do nothing, and a block that is written is written.  There is one disk, so
`dev` names it in every inode but selects nothing.

The in-core tables are the source's: `icache` is `inode`, `ftable` is `file`,
and a process is its open files and current directory.  A pointer to an entry
of a table is its index.  Calls run to their end one at a time, so a sleep that
nobody ends, and a second acquisition of a held sleep lock, is `Halt.hang`.

`xv6-fs` has the same `fs.c` and `file.c` up to white space and comments.
-/
import CS444.Lib.Bytes
import CS444.Lib.Program

namespace CS444
namespace Fs

open Bytes Program

/-! ## Constants of `fs.h`, `param.h`, `stat.h`, `fcntl.h` -/

def ROOTINO : Nat := 1
def ROOTDEV : Nat := 1
def BSIZE : Nat := 512
def NDIRECT : Nat := 12
def NINDIRECT : Nat := 128
def MAXFILE : Nat := NDIRECT + NINDIRECT
def DIRSIZ : Nat := 14
def PGSIZE : Nat := 4096
def PIPESIZE : Nat := 512
def NDEV : Int := 10
def CONSOLE : Int := 1
def MAXARG : Nat := 32
def MAXOPBLOCKS : Nat := 10
def MAX_DEPTH : Nat := 5
def MAX_FILE_NAME : Nat := 64

abbrev NINODE : Nat := 50
abbrev NFILE : Nat := 100
abbrev NOFILE : Nat := 16
abbrev NPROC : Nat := 64

def T_DIR : Int := 1
def T_FILE : Int := 2
def T_DEV : Int := 3
def T_SYMLINK : Int := 4

def O_WRONLY : Nat := 0x001
def O_RDWR : Nat := 0x002
def O_RDONLY : Nat := 0x000
def O_CREATE : Nat := 0x200
def O_TRUNC : Nat := 0x1000
def O_APPEND : Nat := 0x2000
def O_NODEREF : Nat := 0x4000

def SEEK_SET : Int := 1
def SEEK_CUR : Int := 2
def SEEK_END : Int := 4

def FILE_NOWRITE : Nat := 0
def FILE_WRITEABLE : Nat := 1
def FILE_APPENDABLE : Nat := 2

/-! ## The state -/

/-- Bytes of a file, and a C string without its final NUL. -/
abbrev Str : Type := List UInt8

/-- A pointer into `icache.inode`. -/
abbrev Slot : Type := Fin NINODE

/-- A pointer into `ftable.file`. -/
abbrev FileSlot : Type := Fin NFILE

/-- A pointer into the process table. -/
abbrev ProcSlot : Type := Fin NPROC

/-- `struct dinode`; `addrs` has the entries 0 to `NDIRECT`. -/
structure Dinode where
  type : Int
  major : Int
  minor : Int
  nlink : Int
  size : Nat
  addrs : Nat → Nat

/-- `struct inode`; `locked` is the sleep lock. -/
structure Inode where
  dev : Nat
  inum : Nat
  ref : Int
  locked : Bool
  valid : Bool
  type : Int
  major : Int
  minor : Int
  nlink : Int
  size : Nat
  addrs : Nat → Nat

inductive FdType where
  | none
  | pipe
  | inode
deriving DecidableEq, Repr

/-- `struct file`; a pipe is named by its number. -/
structure File where
  type : FdType
  ref : Int
  readable : Bool
  writable : Nat
  pipe : Option Nat
  ip : Option Slot
  off : Nat

/-- `struct pipe`. -/
structure Pipe where
  data : Mem
  nread : Nat
  nwrite : Nat
  readopen : Bool
  writeopen : Bool

/-- What the file system keeps of `struct proc`; no `cwd` means no process. -/
structure Proc where
  ofile : Fin NOFILE → Option FileSlot
  cwd : Option Slot

/-- The fields of `struct superblock` the code reads. -/
structure Superblock where
  size : Nat
  ninodes : Nat

/-- The kernel's state.  `nextpipe` numbers the pipes, `freePages` counts the
pages `kalloc` has, `killed` is `myproc()->killed` and the console is what was
typed and not read yet, and what was printed. -/
structure Kernel where
  sb : Superblock
  bitmap : Nat → Bool
  block : Nat → Mem
  dinode : Nat → Dinode
  inode : Slot → Inode
  file : FileSlot → File
  proc : ProcSlot → Proc
  cur : ProcSlot
  pipe : Nat → Pipe
  nextpipe : Nat
  freePages : Nat
  killed : Bool
  consoleIn : Str
  consoleOut : Str

/-- How a call can fail to return. -/
inductive Halt where
  | panic (msg : String)
  | hang
deriving DecidableEq, Repr

/-- Kernel code. -/
abbrev K (α : Type) : Type := Prog Kernel Halt α

def panic {α : Type} (msg : String) : K α := Prog.halt (.panic msg)

def hang {α : Type} : K α := Prog.halt .hang

@[simp] theorem panic_run {α : Type} (msg : String) (s : Kernel) :
    (panic msg : K α).run s = .error (.panic msg) := rfl

@[simp] theorem hang_run {α : Type} (s : Kernel) : (hang : K α).run s = .error .hang := rfl

/-- `*ip` -/
def inodeAt (ip : Slot) : K Inode := Prog.gets fun s => s.inode ip

/-- Change `*ip`. -/
def setInode (ip : Slot) (f : Inode → Inode) : K Unit :=
  Prog.modify fun s => { s with inode := Function.update s.inode ip (f (s.inode ip)) }

/-- `*f` -/
def fileAt (f : FileSlot) : K File := Prog.gets fun s => s.file f

/-- Change `*f`. -/
def setFile (f : FileSlot) (g : File → File) : K Unit :=
  Prog.modify fun s => { s with file := Function.update s.file f (g (s.file f)) }

@[simp] theorem inodeAt_bind_run {α : Type} (ip : Slot) (g : Inode → K α) (s : Kernel) :
    (inodeAt ip >>= g).run s = (g (s.inode ip)).run s := rfl

@[simp] theorem fileAt_bind_run {α : Type} (f : FileSlot) (g : File → K α) (s : Kernel) :
    (fileAt f >>= g).run s = (g (s.file f)).run s := rfl

/-- The running process. -/
def myproc : K Proc := Prog.gets fun s => s.proc s.cur

def setProc (g : Proc → Proc) : K Unit :=
  Prog.modify fun s => { s with proc := Function.update s.proc s.cur (g (s.proc s.cur)) }

@[simp] theorem myproc_bind_run {α : Type} (g : Proc → K α) (s : Kernel) :
    (myproc >>= g).run s = (g (s.proc s.cur)).run s := rfl

/-- `kalloc`, as far as it can fail. -/
def kalloc : K Bool := do
  let s ← Prog.get
  if s.freePages = 0 then return false
  else
    Prog.modify fun s => { s with freePages := s.freePages - 1 }
    return true

def kfree : K Unit := Prog.modify fun s => { s with freePages := s.freePages + 1 }

/-- `uint` arithmetic. -/
def uint (x : Int) : Nat := (x % 2 ^ 32).toNat

theorem uint_of_lt {n : Nat} (h : n < 2 ^ 32) : uint n = n := by
  unfold uint
  omega

/-- Conversion to `int`. -/
def int (x : Int) : Int := Int.bmod x (2 ^ 32)

/-- Conversion to `short`. -/
def short (x : Int) : Int := Int.bmod x (2 ^ 16)

end Fs
end CS444
