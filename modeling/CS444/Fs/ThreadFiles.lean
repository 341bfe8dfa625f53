/-
Files and kernel threads of `lab4/wei/xv6-kthreads`.

Every slot of the process table, a thread's as well as a process's, has its own
open files and current directory; they are `fs.proc`, and `task` is what else the
calls read and write of `struct proc`.  The file system is that of `xv6-fs`
without `O_TRUNC`, `O_APPEND` and `lseek`.  A call runs to its end, except that
`kthread_join` first picks the slot it will reap and waits for it, so that other
slots run in between; `SLEEPING`, `RUNNABLE` and `RUNNING` are all `live`.

Whether `kalloc` and `copyuvm` succeed is an argument of the call, and `pages`
is the rest of the kernel using memory.  The two words `kthread_create` stores on
the new stack go to the memory of the caller.
-/
import CS444.Fs.Plain

namespace CS444
namespace Fs
namespace Threads

open Program Runs

/-- `enum procstate` -/
inductive State where
  | unused | embryo | live | zombie
deriving DecidableEq, Repr

/-- What the calls need of `struct proc`; `joining` is the process and the slot
that `kthread_join` waits for. -/
structure Task where
  state : State
  pid : Int
  parent : Option ProcSlot
  is_thread : Bool
  tid : Nat
  next_tid : Nat
  thread_exit_value : Int
  thread_count : Nat
  joining : Option (Option ProcSlot × ProcSlot)

structure Machine where
  fs : Kernel
  task : ProcSlot → Task
  nextpid : Int

abbrev M (α : Type) : Type := Prog Machine Halt α

/-- Code of the file system. -/
def lift {α : Type} (x : K α) : M α where
  run m :=
    match x.run m.fs with
    | .ok (a, fs) => .ok (a, { m with fs := fs })
    | .error e => .error e

def curproc : M ProcSlot := Prog.gets fun m => m.fs.cur

def taskAt (p : ProcSlot) : M Task := Prog.gets fun m => m.task p

def setTask (p : ProcSlot) (g : Task → Task) : M Unit :=
  Prog.modify fun m => { m with task := Function.update m.task p (g (m.task p)) }

/-- The process `userinit` makes. -/
def initproc : ProcSlot := 0

/-- All slots, in the order the loops visit them. -/
def procSlots : List ProcSlot := List.finRange NPROC

def ushort (x : Nat) : Nat := x % 2 ^ 16

/-! ## `proc.c` -/

/-- `allocproc()`; `page` is whether there is one for the kernel stack. -/
def allocproc (page : Bool) : M (Option ProcSlot) := do
  let m ← Prog.get
  match procSlots.find? fun p => (m.task p).state = .unused with
  | none => return none
  | some np =>
    setTask np fun t => { t with state := .embryo, pid := m.nextpid }
    Prog.modify fun m => { m with nextpid := m.nextpid + 1 }
    if page then
      setTask np fun t =>
        { t with
          is_thread := false, tid := 0, next_tid := 1, thread_exit_value := 0,
          thread_count := 0 }
      return some np
    else
      setTask np fun t => { t with state := .unused }
      return none

/-- `fork()`; `copy` is whether `copyuvm` succeeds. -/
def fork (page copy : Bool) : M Int := do
  match ← allocproc page with
  | none => return -1
  | some np =>
    if copy then
      let p ← curproc
      setTask np fun t => { t with parent := some p }
      lift (Fs.fork np)
      let t ← taskAt np
      setTask np fun t => { t with state := .live }
      return t.pid
    else
      setTask np fun t => { t with state := .unused }
      return -1

/-- `kthread_create(func, arg_ptr, tstack)` -/
def kthread_create (page : Bool) (tstack : Nat) : M Int := do
  if tstack % PGSIZE ≠ 0 then return -1
  else
    match ← allocproc page with
    | none => return -1
    | some np =>
      let p ← curproc
      let t ← taskAt p
      match if t.is_thread then t.parent else some p with
      | none => Prog.halt (.panic "trap")
      | some owner =>
        let o ← taskAt owner
        setTask np fun t =>
          { t with is_thread := true, parent := some owner, tid := o.next_tid }
        setTask owner fun t =>
          { t with
            next_tid := ushort (t.next_tid + 1), thread_count := ushort (t.thread_count + 1) }
        lift (Fs.fork np)
        let t ← taskAt np
        setTask np fun t => { t with state := .live }
        return t.tid

/-- `kthread_join(tid)` up to its loop; no result means that it waits. -/
def kthread_join (tid : Int) : M (Option Int) := do
  if tid = 0 then return some (-1)
  else
    let p ← curproc
    let t ← taskAt p
    let owner := if t.is_thread then t.parent else some p
    let m ← Prog.get
    match procSlots.find? fun q => (m.task q).parent = owner ∧ ((m.task q).tid : Int) = tid with
    | none => return some (-1)
    | some q =>
      setTask p fun t => { t with joining := some (owner, q) }
      return none

/-- `kthread_join` once the slot it waits for is a zombie. -/
def joined : M Int := do
  let p ← curproc
  let t ← taskAt p
  match t.joining with
  | none | some (none, _) => Prog.halt .hang
  | some (some owner, q) =>
    let z ← taskAt q
    if z.state = .zombie then
      setTask p fun t => { t with joining := none }
      setTask owner fun t => { t with thread_count := ushort (t.thread_count + 2 ^ 16 - 1) }
      setTask q fun t => { t with pid := -1, parent := none, state := .unused }
      return z.thread_exit_value
    else Prog.halt .hang

/-- `kthread_exit(exitValue)`; only a thread does anything. -/
def kthread_exit (exitValue : Int) : M Unit := do
  let p ← curproc
  let t ← taskAt p
  Prog.when (t.is_thread = true) do
    lift Fs.exit
    setTask p fun t => { t with thread_exit_value := exitValue, state := .zombie }

/-- `exit` passing its children to init. -/
def reparent (p : ProcSlot) (m : Machine) : Machine :=
  { m with
    task := fun q =>
      if (m.task q).parent = some p then { m.task q with parent := some initproc } else m.task q }

def exit : M Unit := do
  let p ← curproc
  let t ← taskAt p
  if t.is_thread then Prog.halt (.panic "called exit on thread")
  else if t.thread_count > 0 then Prog.halt (.panic "called exit on thread0 with children")
  else if p = initproc then Prog.halt (.panic "init exiting")
  else
    lift Fs.exit
    Prog.modify (reparent p)
    setTask p fun t => { t with state := .zombie }

/-- `wait()`, when it does not go to sleep. -/
def wait : M Int := do
  let p ← curproc
  let t ← taskAt p
  if t.is_thread then Prog.halt (.panic "called wait on thread")
  else if t.thread_count > 0 then Prog.halt (.panic "called wait on thread0 with children")
  else
    let m ← Prog.get
    match procSlots.find? fun q => (m.task q).parent = some p ∧ (m.task q).state = .zombie with
    | some q =>
      setTask q fun t => { t with pid := 0, parent := none, state := .unused }
      return (m.task q).pid
    | none =>
      if procSlots.any fun q => (m.task q).parent = some p then Prog.halt .hang else return -1

/-! ## `sysfile.c` -/

/-- The rest of `sys_open`, with the inode `ip` locked. -/
def openFile (omode : Nat) (ip : Slot) : K Int := do
  match ← filealloc with
  | none =>
    iunlockput ip
    return -1
  | some f =>
    match ← fdalloc f with
    | none =>
      fileclose f
      iunlockput ip
      return -1
    | some fd =>
      iunlock ip
      setFile f fun file =>
        { file with
          type := .inode, ip := some ip, off := 0
          readable := omode &&& O_WRONLY = 0
          writable := if omode &&& O_WRONLY ≠ 0 ∨ omode &&& O_RDWR ≠ 0 then 1 else 0 }
      return fd

def sys_open (u : User) : K Int := do
  match u.argstr 0, u.argint 1 with
  | some path, some omode =>
    match ← Plain.openInode path omode with
    | none => return -1
    | some ip => openFile omode ip
  | _, _ => return -1

/-! ## The system -/

/-- A call of the running slot, a switch to the slot `p`, or memory used by others. -/
inductive Call where
  | open (u : User)
  | close (u : User)
  | dup (u : User)
  | pipe (u : User)
  | fork (page copy : Bool)
  | exit
  | wait
  | kthread_create (page : Bool) (tstack : Nat)
  | kthread_join (tid : Int)
  | joined
  | kthread_exit (exitValue : Int)
  | switch (p : ProcSlot)
  | pages (n : Nat)

/-- A call whose result nobody looks at. -/
def void {α : Type} (x : M α) : M Unit := do
  let _ ← x
  pure ()

namespace Call

def code : Call → M Unit
  | .open u => lift (ignore (sys_open u))
  | .close u => lift (ignore (sys_close u))
  | .dup u => lift (ignore (sys_dup u))
  | .pipe u => lift (ignore (sys_pipe u))
  | .fork page copy => void (Threads.fork page copy)
  | .exit => Threads.exit
  | .wait => void Threads.wait
  | .kthread_create page tstack => void (Threads.kthread_create page tstack)
  | .kthread_join tid => void (Threads.kthread_join tid)
  | .joined => void Threads.joined
  | .kthread_exit v => Threads.kthread_exit v
  | .switch p => Prog.modify fun m => { m with fs := { m.fs with cur := p } }
  | .pages n => Prog.modify fun m => { m with fs := { m.fs with freePages := n } }

/-- Only a live slot runs, and one that waits in `kthread_join` does nothing
else. -/
def Enabled (m : Machine) : Call → Prop
  | .switch p => (m.task p).state = .live
  | .pages _ => True
  | .joined => (m.task m.fs.cur).state = .live
  | _ => (m.task m.fs.cur).state = .live ∧ (m.task m.fs.cur).joining = none

end Call

/-- After boot: nothing is open, and init runs, with the one directory that is
referred to. -/
structure Boot (m : Machine) : Prop where
  cache : CacheOk m.fs
  files : ∀ f, (m.fs.file f).ref = 0 ∧ (m.fs.file f).type = .none
  fds : ∀ p fd, (m.fs.proc p).ofile fd = none
  cwd : ∃ k, (m.fs.proc initproc).cwd = some k ∧ (m.fs.inode k).ref = 1 ∧
    ∀ j, j ≠ k → (m.fs.inode j).ref = 0
  others : ∀ p, p ≠ initproc → (m.fs.proc p).cwd = none ∧ (m.task p).state = .unused
  init : (m.task initproc).state = .live
  cur : m.fs.cur = initproc

/-- The kernel, one call at a time. -/
def machine : System Machine Call where
  init := Boot
  step m call m' := call.Enabled m ∧ call.code.run m = .ok ((), m')

end Threads
end Fs
end CS444
