/-
The processes and kernel threads of `lab4/wei/xv6-kthreads` (`proc.c`).

The process table is `proc`; any number of CPUs run it, each in `scheduler()`
or on the kernel stack of a slot.  What a slot's kernel thread does next is its
control point, `Ctl`, which is part of its saved context.  `ptable.lock` is
modelled with the CPU that holds it, and between two acquisitions every load
and store that other CPUs can see is a step: the writes of `kthread_exit`
before it takes the lock, each slot the scans of `kthread_join` and `wait` look
at, and in `kthread_create` the load of `curproc->parent`, the store of
`np->parent`, its loads before `next_tid` and before `thread_count`, and the
load and the store of each of these two.

`kstack` holds a number that is new for each page `kalloc` hands out, so that
a stack that was freed and allocated again is another stack.  `pgdir` is an
address: `live` says which directories are allocated and `mapped` which user
pages each of them maps; a slot keeps the address of the directory it last had.
Stores to a slot under construction are grouped up to the one that makes them
visible, and `copyuvm` and `exec` build the user pages of a new directory in one
step.  Open files, the current directory, names, times, `oncpu` and `is_parent`
are left out, since nothing here reads them, and so are calls that return at
once because of their arguments.  `exits` and `joins` record what the threads
passed to `kthread_exit` and what the joins returned, and `tids` the thread ids
given out, by the kernel stack of the thread or of its process; no step reads
them.
-/
import CS444.Lib.Runs
import Mathlib.Logic.Function.Basic
import Mathlib.Data.Fintype.Basic

namespace CS444
namespace Kthreads

open Runs

abbrev NPROC : Nat := 64

/-- A pointer into `ptable.proc`. -/
abbrev Slot : Type := Fin NPROC

/-- The process `userinit` makes in the first slot. -/
def initproc : Slot := 0

/-- `enum procstate` -/
inductive ProcState where
  | unused | embryo | sleeping | runnable | running | zombie
deriving DecidableEq, Repr

/-- What a process sleeps on: another process or anything else. -/
inductive Chan where
  | proc (p : Slot)
  | other (n : Nat)
deriving DecidableEq, Repr

/-- Where a kernel thread is.  `acquire k` and `release k` are about to take or
drop `ptable.lock` and go on with `k`; `yieldSched k` and `sleepSched n k` hold
the lock and are about to give up the CPU in `yield()` or `sleep()`. -/
inductive Ctl where
  /-- In user mode, or in kernel code that does not touch the process table. -/
  | user
  /-- About to return from a system call. -/
  | ret (v : Int)
  | acquire (k : Ctl)
  | release (k : Ctl)
  | yieldSched (k : Ctl)
  | sleepSched (n : Nat) (k : Ctl)
  /-- `allocproc` scanning, for `kthread_create` or `fork`. -/
  | alloc (thread : Bool)
  /-- `allocproc` with an `EMBRYO` slot, before it allocates the stack. -/
  | newborn (thread : Bool) (np : Slot)
  | forkSetup (np : Slot)
  | forkCopy (np : Slot) (d : Nat)
  | forkUndo (np : Slot)
  | threadLink (np : Slot)
  | storeParent (np : Slot) (owner : Option Slot)
  /-- About to load `np->parent` for `next_tid`, and below for `thread_count`. -/
  | tidParent (np : Slot)
  | loadTid (np owner : Slot)
  | storeTid (np owner : Slot) (v : Nat)
  | countParent (np : Slot)
  | loadCount (np owner : Slot)
  | storeCount (np owner : Slot) (v : Nat)
  /-- `np->state = RUNNABLE`, of a thread of `owner` or of a process. -/
  | publish (np : Slot) (owner : Option Slot)
  | joinScan (owner : Option Slot) (tid : Int) (i : Nat)
  | joinPoll (owner : Option Slot) (tid : Int) (q : Slot)
  | joinLoad (owner : Option Slot) (tid : Int) (q : Slot)
  | joinTake (owner : Slot) (tid : Int) (q : Slot) (v : Nat)
  | threadExit (v : Int)
  | threadExit1 (v : Int)
  | threadExit2 (v : Int)
  /-- `sched()` of `kthread_exit`. -/
  | threadSched
  | exitSched
  | waitScan (i : Nat) (kids : Bool)
  | killScan (pid : Int)
  | execSetup
  | execBuilt (d : Nat)
  | freevm (d : Nat)
  /-- The loop of `allocuvm` at page `a`, and that of `deallocuvm`; `r` is what
  `growproc` goes on with, 0 for a failure. -/
  | growAlloc (newsz a : Nat)
  | growFree (a stop r : Nat)
  | growStore (sz : Nat)
  | dead
deriving DecidableEq, Repr

/-- `struct proc`; `ctl` is where its kernel thread is. -/
structure Proc where
  state : ProcState
  sz : Nat
  pid : Int
  parent : Option Slot
  kstack : Option Nat
  ctl : Ctl
  chan : Chan
  killed : Bool
  pgdir : Nat
  is_thread : Bool
  tid : Nat
  next_tid : Nat
  thread_exit_value : Int
  thread_count : Nat

/-- What scheduling looks at. -/
def Proc.key (r : Proc) : ProcState × Ctl × Option Nat := (r.state, r.ctl, r.kstack)

/-- The process table and the allocators. -/
structure Table where
  proc : Slot → Proc
  nextpid : Int
  nextstack : Nat
  live : Nat → Bool
  mapped : Nat → Nat → Bool
  exits : List (Nat × Int)
  joins : List (Nat × Int)
  tids : List (Nat × Nat)

/-- The machine: what each CPU runs and who holds `ptable.lock`.  A CPU with no
slot is in `scheduler()`; one with a slot is on the given kernel stack. -/
structure Kernel (C : Type) where
  table : Table
  cpu : C → Option (Slot × Nat)
  lock : Option C

/-- System calls, with their arguments. -/
inductive Syscall where
  | fork
  | exec
  | exit
  | wait
  | kill (pid : Int)
  | kthread_create
  | kthread_join (tid : Int)
  | kthread_exit (v : Int)
  | sbrk (n : Int)
deriving DecidableEq, Repr

/-- What decides a step that its control point leaves open: a system call, a
timer interrupt, a sleep, the slot `allocproc` finds, a page `kalloc` hands out
or not, whether `copyuvm` or `exec` succeeds, and the size of the new image. -/
inductive Pick where
  | next
  | call (sc : Syscall)
  | preempt
  | block (n : Nat)
  | slot (np : Option Slot)
  | page (d : Option Nat)
  | done (success : Bool)
  | image (sz : Nat)
deriving DecidableEq, Repr

/-- After a step the thread goes on, or has left the CPU and goes on when it is
scheduled again. -/
inductive Next where
  | go (k : Ctl)
  | swtch (k : Ctl)

/-- Does the thread hold `ptable.lock` here? -/
def Ctl.locked : Ctl → Bool
  | .release _ | .yieldSched _ | .sleepSched _ _ | .alloc _ | .publish _ _ | .joinScan _ _ _
  | .joinPoll _ _ _ | .joinLoad _ _ _ | .joinTake _ _ _ _ | .threadSched | .exitSched
  | .waitScan _ _ | .killScan _ => true
  | _ => false

namespace Table

/-- Change `ptable.proc[p]`. -/
def set (t : Table) (p : Slot) (f : Proc → Proc) : Table :=
  { t with proc := Function.update t.proc p (f (t.proc p)) }

variable {t : Table} {p q : Slot} {f : Proc → Proc}

@[simp] theorem set_self : (t.set p f).proc p = f (t.proc p) := Function.update_self ..

theorem set_of_ne (hq : q ≠ p) : (t.set p f).proc q = t.proc q := Function.update_of_ne hq ..

theorem set_apply : (t.set p f).proc q = if q = p then f (t.proc p) else t.proc q :=
  Function.update_apply ..

/-- A change outside `g`. -/
theorem set_keeps {α : Type} (g : Proc → α) (hg : ∀ r, g (f r) = g r) :
    g ((t.set p f).proc q) = g (t.proc q) := by
  rw [set_apply]
  split
  · rename_i hq
    rw [hg, hq]
  · rfl

/-- `wakeup1(chan)` -/
def wakeup1 (t : Table) (chan : Chan) : Table :=
  { t with
    proc := fun q =>
      if (t.proc q).state = .sleeping ∧ (t.proc q).chan = chan then
        { t.proc q with state := .runnable }
      else t.proc q }

/-- `exit` passing its children to init. -/
def reparent (t : Table) (p : Slot) : Table :=
  { t with
    proc := fun q =>
      if (t.proc q).parent = some p then { t.proc q with parent := some initproc }
      else t.proc q }

/-- Whether `exit` of `p` wakes init: it passes on a zombie. -/
def leavesZombie (t : Table) (p : Slot) : Bool :=
  (List.finRange NPROC).any fun q =>
    (t.proc q).parent = some p ∧ (t.proc q).state = .zombie

/-- The body of `exit` under the lock. -/
def exitBody (t : Table) (p : Slot) : Table :=
  let t := match (t.proc p).parent with
    | none => t
    | some q => t.wakeup1 (.proc q)
  let t := if t.leavesZombie p then (t.reparent p).wakeup1 (.proc initproc) else t.reparent p
  t.set p fun r => { r with state := .zombie }

/-- What `kthread_join` resets in the slot it reaps. -/
def joinReset (t : Table) (q : Slot) : Table :=
  t.set q fun r =>
    { r with
      kstack := none, pid := -1, parent := none, sz := 0, killed := false, state := .unused }

/-- What `wait` resets in the slot it reaps. -/
def waitReset (t : Table) (q : Slot) : Table :=
  t.set q fun r =>
    { r with kstack := none, pid := 0, parent := none, killed := false, state := .unused }

/-- `freevm(d)` -/
def free (t : Table) (d : Nat) : Table := { t with live := Function.update t.live d false }

/-- A page directory at `d`. -/
def setupkvm (t : Table) (d : Nat) : Table :=
  { t with
    live := Function.update t.live d true, mapped := Function.update t.mapped d fun _ => false }

/-- The user pages of directory `d`. -/
def setPages (t : Table) (d : Nat) (pages : Nat → Bool) : Table :=
  { t with mapped := Function.update t.mapped d pages }

end Table

abbrev PGSIZE : Nat := 4096

abbrev KERNBASE : Nat := 2 ^ 31

/-- `PGROUNDUP` -/
def pgRoundUp (a : Nat) : Nat := (a + PGSIZE - 1) / PGSIZE * PGSIZE

/-- The pages below `sz`. -/
def below (sz : Nat) : Nat → Bool := fun a => a * PGSIZE < sz

/-- `ushort` arithmetic. -/
def ushort (x : Nat) : Nat := x % 2 ^ 16

/-- A system call of `p` up to its first step on the process table; `none` is
a panic. -/
def start (t : Table) (p : Slot) : Syscall → Option Ctl
  | .fork => some (.acquire (.alloc false))
  | .exec => some .execSetup
  | .exit =>
    if (t.proc p).is_thread ∨ (t.proc p).thread_count > 0 ∨ p = initproc then none
    else some (.acquire .exitSched)
  | .wait =>
    if (t.proc p).is_thread ∨ (t.proc p).thread_count > 0 then none
    else some (.acquire (.waitScan 0 false))
  | .kill pid =>
    if (t.proc p).is_thread ∨ (t.proc p).thread_count > 0 then none
    else some (.acquire (.killScan pid))
  | .kthread_create => some (.acquire (.alloc true))
  | .kthread_join tid =>
    if tid = 0 then some (.ret (-1))
    else
      some (.acquire (.joinScan
        (if (t.proc p).is_thread then (t.proc p).parent else some p) tid 0))
  | .kthread_exit v =>
    if (t.proc p).is_thread then some (.threadExit v) else some .user
  | .sbrk n =>
    let oldsz := (t.proc p).sz
    let newsz := (((oldsz : Int) + n) % 2 ^ 32).toNat
    if n > 0 then
      if newsz ≥ KERNBASE then some (.ret (-1))
      else if newsz < oldsz then some (.growStore oldsz)
      else some (.growAlloc newsz (pgRoundUp oldsz))
    else if n < 0 then
      if newsz ≥ oldsz then some (if oldsz = 0 then .ret (-1) else .growStore oldsz)
      else some (.growFree (pgRoundUp newsz) oldsz newsz)
    else some (.growStore oldsz)

/-- `allocproc` once it found `np`. -/
def takeSlot (t : Table) (np : Slot) : Table :=
  let t := t.set np fun r => { r with state := .embryo, pid := t.nextpid }
  { t with nextpid := t.nextpid + 1 }

/-- The rest of `allocproc`: a stack whose context starts at `forkret`, which
releases the lock, and the thread fields. -/
def initSlot (t : Table) (np : Slot) : Table :=
  let t := t.set np fun r =>
    { r with
      kstack := some t.nextstack, ctl := .release .user, is_thread := false, tid := 0,
      next_tid := 1, thread_exit_value := 0, thread_count := 0 }
  { t with nextstack := t.nextstack + 1 }

/-- `kthread_create` linking the thread `np` to its process. -/
def linkThread (t : Table) (p np : Slot) (owner : Option Slot) : Table :=
  t.set np fun r =>
    { r with
      pgdir := (t.proc p).pgdir, sz := (t.proc p).sz, is_thread := true, parent := owner }

/-- `kthread_create` taking the thread id `v` from `owner`. -/
def takeTid (t : Table) (np owner : Slot) (v : Nat) : Table :=
  let t := { t with tids := ((t.proc owner).kstack.map fun i => (i, v)).toList ++ t.tids }
  (t.set owner fun r => { r with next_tid := ushort (v + 1) }).set np fun r =>
    { r with tid := v }

/-- `fork` giving `np` a copy of the address space, at `d`. -/
def copyImage (t : Table) (p np : Slot) (d : Nat) : Table :=
  (t.setPages d (below (t.proc p).sz)).set np fun r =>
    { r with pgdir := d, sz := (t.proc p).sz, parent := some p }

/-- Are all pages below the size of `p` mapped?  `copyuvm` panics if not. -/
def imagePresent (t : Table) (p : Slot) : Bool :=
  (List.range (pgRoundUp (t.proc p).sz / PGSIZE)).all (t.mapped (t.proc p).pgdir)

/-- `exec` committing to the image of `sz` bytes at `d`. -/
def commitImage (t : Table) (p : Slot) (d sz : Nat) : Table :=
  (t.setPages d (below sz)).set p fun r => { r with pgdir := d, sz }

/-- Map or unmap the page of `p` at address `a`. -/
def setPage (t : Table) (p : Slot) (a : Nat) (present : Bool) : Table :=
  let d := (t.proc p).pgdir
  t.setPages d (Function.update (t.mapped d) (a / PGSIZE) present)

/-- The thread table fields a join takes over: the count without the thread,
the slot reset and what was returned recorded. -/
def takeThread (t : Table) (owner q : Slot) (v : Nat) : Table :=
  let value := (t.proc q).thread_exit_value
  let t := { t with
    joins := ((t.proc q).kstack.map fun i => (i, value)).toList ++ t.joins }
  (t.set owner fun r => { r with thread_count := ushort (v + 2 ^ 16 - 1) }).joinReset q

/-- The store `state = ZOMBIE` of `kthread_exit(v)`. -/
def threadZombie (t : Table) (p : Slot) (v : Int) : Table :=
  let t := { t with exits := ((t.proc p).kstack.map fun i => (i, v)).toList ++ t.exits }
  t.set p fun r => { r with state := .zombie }

/-- One step of the kernel thread of `p` at a control point, the lock apart. -/
def body (t : Table) (p : Slot) : Ctl → Pick → Option (Table × Next)
  | k, .preempt =>
    if (t.proc p).state = .running ∧ k.locked = false then
      some (t, .go (.acquire (.yieldSched k)))
    else none
  | k, .block n =>
    if (t.proc p).state = .running ∧ k.locked = false then
      some (t, .go (.acquire (.sleepSched n k)))
    else none
  | .yieldSched k, .next =>
    some (t.set p fun r => { r with state := .runnable }, .swtch (.release k))
  | .sleepSched n k, .next =>
    some (t.set p fun r => { r with state := .sleeping, chan := .other n }, .swtch (.release k))
  | .user, .call sc => (start t p sc).map fun k => (t, .go k)
  | .ret _, .next => some (t, .go .user)
  -- allocproc
  | .alloc _, .slot none => some (t, .go (.release (.ret (-1))))
  | .alloc thread, .slot (some np) =>
    if (t.proc np).state = .unused then
      some (takeSlot t np, .go (.release (.newborn thread np)))
    else none
  | .newborn _ np, .page none =>
    some (t.set np fun r => { r with kstack := none, state := .unused }, .go (.ret (-1)))
  | .newborn thread np, .page (some _) =>
    some (initSlot t np, .go (if thread then .threadLink np else .forkSetup np))
  -- fork
  | .forkSetup np, .page none => some (t, .go (.forkUndo np))
  | .forkSetup np, .page (some d) =>
    if t.live d then none else some (t.setupkvm d, .go (.forkCopy np d))
  | .forkCopy np d, .done true =>
    if imagePresent t p then some (copyImage t p np d, .go (.acquire (.publish np none)))
    else none
  | .forkCopy np d, .done false => some (t.free d, .go (.forkUndo np))
  | .forkUndo np, .next =>
    some (t.set np fun r => { r with kstack := none, state := .unused }, .go (.ret (-1)))
  -- kthread_create
  | .threadLink np, .next =>
    some (t, .go (.storeParent np
      (if (t.proc p).is_thread then (t.proc p).parent else some p)))
  | .storeParent np owner, .next => some (linkThread t p np owner, .go (.tidParent np))
  -- a thread without a parent goes on through a null pointer, which is not followed
  | .tidParent np, .next => (t.proc np).parent.map fun owner => (t, .go (.loadTid np owner))
  | .loadTid np owner, .next => some (t, .go (.storeTid np owner (t.proc owner).next_tid))
  | .storeTid np owner v, .next => some (takeTid t np owner v, .go (.countParent np))
  | .countParent np, .next => (t.proc np).parent.map fun owner => (t, .go (.loadCount np owner))
  | .loadCount np owner, .next =>
    some (t, .go (.storeCount np owner (t.proc owner).thread_count))
  | .storeCount np owner v, .next =>
    some (t.set owner fun r => { r with thread_count := ushort (v + 1) },
      .go (.acquire (.publish np (some owner))))
  | .publish np owner, .next =>
    some (t.set np fun r => { r with state := .runnable },
      .go (.release (.ret (if owner.isSome then (t.proc np).tid else (t.proc np).pid))))
  -- kthread_join
  | .joinScan owner tid i, .next =>
    if h : i < NPROC then
      if (t.proc ⟨i, h⟩).parent = owner ∧ ((t.proc ⟨i, h⟩).tid : Int) = tid then
        some (t, .go (.joinPoll owner tid ⟨i, h⟩))
      else some (t, .go (.joinScan owner tid (i + 1)))
    else some (t, .go (.release (.ret (-1))))
  | .joinPoll owner tid q, .next =>
    if (t.proc q).state = .zombie then some (t, .go (.joinLoad owner tid q))
    else
      some (t, .go (.release (.acquire (.yieldSched (.acquire (.joinPoll owner tid q))))))
  | .joinLoad (some owner) tid q, .next =>
    some (t, .go (.joinTake owner tid q (t.proc owner).thread_count))
  | .joinTake owner _ q v, .next =>
    some (takeThread t owner q v, .go (.release (.ret (t.proc q).thread_exit_value)))
  -- kthread_exit
  | .threadExit v, .next =>
    some (t.set p fun r => { r with killed := false }, .go (.threadExit1 v))
  | .threadExit1 v, .next =>
    some (t.set p fun r => { r with thread_exit_value := v }, .go (.threadExit2 v))
  | .threadExit2 v, .next => some (threadZombie t p v, .go (.acquire .threadSched))
  | .threadSched, .next =>
    if (t.proc p).state = .running then none else some (t, .swtch .dead)
  -- exit, wait, kill
  | .exitSched, .next => some (t.exitBody p, .swtch .dead)
  | .waitScan i kids, .next =>
    if h : i < NPROC then
      if (t.proc ⟨i, h⟩).parent = some p then
        if (t.proc ⟨i, h⟩).state = .zombie then
          some ((t.free (t.proc ⟨i, h⟩).pgdir).waitReset ⟨i, h⟩,
            .go (.release (.ret (t.proc ⟨i, h⟩).pid)))
        else some (t, .go (.waitScan (i + 1) true))
      else some (t, .go (.waitScan (i + 1) kids))
    else if kids = false ∨ (t.proc p).killed = true then
      some (t, .go (.release (.ret (-1))))
    else
      some (t.set p fun r => { r with state := .sleeping, chan := .proc p },
        .swtch (.waitScan 0 false))
  | .killScan pid, .next =>
    match (List.finRange NPROC).find? fun q => (t.proc q).pid = pid with
    | none => some (t, .go (.release (.ret (-1))))
    | some q =>
      some (t.set q fun r =>
        { r with
          killed := true, state := if r.state = .sleeping then .runnable else r.state },
        .go (.release (.ret 0)))
  -- exec
  | .execSetup, .page none => some (t, .go (.ret (-1)))
  | .execSetup, .page (some d) =>
    if t.live d then none else some (t.setupkvm d, .go (.execBuilt d))
  | .execBuilt d, .image sz =>
    some (commitImage t p d sz, .go (.freevm (t.proc p).pgdir))
  | .execBuilt d, .done false => some (t, .go (.freevm d))
  | .freevm d, .next => some (t.free d, .go .user)
  -- sbrk
  | .growAlloc newsz a, .page (some _) =>
    if a < newsz then
      if t.mapped (t.proc p).pgdir (a / PGSIZE) then none
      else some (setPage t p a true, .go (.growAlloc newsz (a + PGSIZE)))
    else none
  | .growAlloc newsz a, .page none =>
    if a < newsz then some (t, .go (.growFree (pgRoundUp (t.proc p).sz) newsz 0)) else none
  | .growAlloc newsz a, .next =>
    if a < newsz then none else some (t, .go (.growStore newsz))
  | .growFree a stop r, .next =>
    if a < stop then some (setPage t p a false, .go (.growFree (a + PGSIZE) stop r))
    else some (t, .go (if r = 0 then .ret (-1) else .growStore r))
  | .growStore sz, .next =>
    some (t.set p fun r => { r with sz }, .go (.ret (t.proc p).sz))
  | _, _ => none

/-- What a CPU does: its scheduler takes the lock, drops it or switches to a
process; an interrupt wakes sleepers; the running thread takes a step. -/
inductive Act where
  | enter
  | rest
  | dispatch (p : Slot)
  | wakeup (n : Nat)
  | run (pick : Pick)
deriving DecidableEq, Repr

variable {C : Type} [DecidableEq C]

/-- The control point of `p` becomes `k`. -/
def Table.goto (t : Table) (p : Slot) (k : Ctl) : Table := t.set p fun r => { r with ctl := k }

/-- A step of the thread of `p` on CPU `c`. -/
def threadStep (s : Kernel C) (c : C) (p : Slot) (pick : Pick) : Option (Kernel C) :=
  match (s.table.proc p).ctl, pick with
  | .acquire k, .next =>
    if s.lock = none then some { s with table := s.table.goto p k, lock := some c } else none
  | .release k, .next =>
    if s.lock = some c then some { s with table := s.table.goto p k, lock := none } else none
  | k, pick =>
    match body s.table p k pick with
    | none => none
    | some (t, .go k) => some { s with table := t.goto p k }
    | some (t, .swtch k) =>
      if s.lock = some c then
        some { s with table := t.goto p k, cpu := Function.update s.cpu c none }
      else none

/-- A step of CPU `c`.  What a CPU does on a stack page that was handed out
again is not modelled. -/
def step (s : Kernel C) (c : C) : Act → Option (Kernel C)
  | .enter =>
    if s.cpu c = none ∧ s.lock = none then some { s with lock := some c } else none
  | .rest =>
    if s.cpu c = none ∧ s.lock = some c then some { s with lock := none } else none
  | .dispatch p =>
    if s.cpu c = none ∧ s.lock = some c ∧ (s.table.proc p).state = .runnable then
      match (s.table.proc p).kstack with
      | none => none
      | some i =>
        some { s with
          table := s.table.set p fun r => { r with state := .running }
          cpu := Function.update s.cpu c (some (p, i)) }
    else none
  | .wakeup n =>
    if s.lock = none then some { s with table := s.table.wakeup1 (.other n) } else none
  | .run pick =>
    match s.cpu c with
    | none => none
    | some (p, i) =>
      if (s.table.proc p).kstack = none ∨ (s.table.proc p).kstack = some i then
        threadStep s c p pick
      else none

/-- After boot: init is about to be scheduled for the first time, every other
slot was never used. -/
structure Boot (s : Kernel C) : Prop where
  cpu : ∀ c, s.cpu c = none
  lock : s.lock = none
  init : s.table.proc initproc =
    ⟨.runnable, PGSIZE, 1, none, some 0, .release .user, .other 0, false, 1, false, 0, 1, 0, 0⟩
  unused : ∀ q, q ≠ initproc → s.table.proc q =
    ⟨.unused, 0, 0, none, none, .dead, .other 0, false, 0, false, 0, 0, 0, 0⟩
  nextpid : s.table.nextpid = 2
  nextstack : s.table.nextstack = 1
  live : ∀ d, s.table.live d = (d == 1)
  mapped : ∀ d a, s.table.mapped d a = (d == 1 && a == 0)
  exits : s.table.exits = []
  joins : s.table.joins = []
  tids : s.table.tids = []

/-- The state after boot. -/
def boot : Kernel C where
  table := {
    proc := fun q =>
      if q = initproc then
        ⟨.runnable, PGSIZE, 1, none, some 0, .release .user, .other 0, false, 1, false, 0, 1, 0, 0⟩
      else ⟨.unused, 0, 0, none, none, .dead, .other 0, false, 0, false, 0, 0, 0, 0⟩
    nextpid := 2
    nextstack := 1
    live := fun d => d == 1
    mapped := fun d a => d == 1 && a == 0
    exits := []
    joins := []
    tids := [] }
  cpu := fun _ => none
  lock := none

omit [DecidableEq C] in
theorem boot_boot : Boot (boot : Kernel C) where
  cpu _ := rfl
  lock := rfl
  init := rfl
  unused _ hq := if_neg hq
  nextpid := rfl
  nextstack := rfl
  live _ := rfl
  mapped _ _ := rfl
  exits := rfl
  joins := rfl
  tids := rfl

/-- The kernel, any number of CPUs taking steps in any order. -/
def kthreads (C : Type) [DecidableEq C] : System (Kernel C) (C × Act) where
  init := Boot
  step s l s' := step s l.1 l.2 = some s'

end Kthreads
end CS444
