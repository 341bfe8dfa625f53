/-
The thread library (`benny_thread.c`) on top of the kernel threads.

`benny_thread_create` allocates a descriptor and a stack, has the kernel make a thread
and hands the descriptor out; `benny_thread_join` reaps the thread and frees both.  The
library tells success from failure by integers that mean something else: a thread id other
than 0 is success, -1 included, and only a thread that exited with 0 is freed.

The kernel takes the steps of `Proc`, with any number of CPUs, and the threads of one
process call the library while others do: a call is `bt_new`, the steps of the system call
and what follows its return, and between any two of these the other threads run.  The
process is named by its kernel stack, `home`.  `malloc` is its result, an argument of the
call.  The process makes the three system calls of threads through the library, and does
not run another program while it has threads; the two words that `kthread_create` stores
at the top of the thread's stack are in `UserStack`.
-/
import CS444.Kthreads.Denotes

namespace CS444
namespace Kthreads

open Runs

/-! ## The library -/

/-- `struct benny_thread_s` -/
structure Bt where
  bid : Int
  bt_stack : Nat
  mem_stack : Nat

/-- Where a thread is in the library.  `new` and `taken` record the kernel stack of the
thread that `kthread_create` has made runnable and of the one that `kthread_join` has
reaped. -/
inductive Call where
  | idle
  /-- `bt_new` has returned. -/
  | made (bt : Nat)
  | creating (bt : Nat) (new : Option Nat)
  /-- `kthread_create` has returned `bid`. -/
  | created (bt : Nat) (new : Option Nat) (bid : Int)
  | joining (abt : Nat) (taken : Option Nat)
  /-- `kthread_join` has returned `retVal`. -/
  | joined (abt : Nat) (taken : Option Nat) (retVal : Int)
deriving DecidableEq, Repr

/-- The memory of the process.  `bt` are the descriptors by address, and at 0 what a null
pointer shows; `descBlocks` and `stackBlocks` are what `malloc` gave out for descriptors
and stacks and nobody freed, and `handles` the descriptors that were stored to `*abt`.
`thread` records the kernel stack of the thread that was made for a handle. -/
structure Memory where
  bt : Nat → Bt
  descBlocks : Nat → Bool
  stackBlocks : Nat → Bool
  handles : Nat → Bool
  thread : Nat → Option Nat

/-- The kernel, the memory of the process and where its threads are in the library, by
kernel stack. -/
structure Library (C : Type) where
  kernel : Kernel C
  memory : Memory
  call : Nat → Call

/-- The start of the first page in the stack block. -/
def alignStack (mem_stack : Nat) : Nat :=
  if mem_stack % PGSIZE ≠ 0 then (mem_stack + (PGSIZE - mem_stack % PGSIZE)) % 2 ^ 32
  else mem_stack

/-- What happens next: a step of the kernel, or one of the thread that CPU `c` runs. -/
inductive LibAct (C : Type) where
  | kernel (c : C) (a : Act)
  /-- `benny_thread_create` calls `bt_new`, whose calls of `malloc` return `m1` and `m2`. -/
  | bt_new (c : C) (m1 m2 : Nat)
  | kthread_create (c : C)
  /-- The rest of `benny_thread_create`. -/
  | create (c : C)
  | kthread_join (c : C) (abt : Nat)
  /-- The rest of `benny_thread_join`. -/
  | join (c : C)
  /-- `benny_thread_exit` -/
  | exit (c : C) (exit_value : Int)

/-- The system calls that the process makes through the library. -/
def Syscall.ofThreads : Syscall → Bool
  | .kthread_create | .kthread_join _ | .kthread_exit _ => true
  | _ => false

/-- Where a thread in the library is when it has taken the step at `k`. -/
def Call.after (t : Table) : Ctl → Call → Call
  | .ret v, .creating bt new => .created bt new v
  | .ret v, .joining abt taken => .joined abt taken v
  | .publish np _, .creating bt _ => .creating bt (t.proc np).kstack
  | .joinTake _ _ q _, .joining abt _ => .joining abt (t.proc q).kstack
  | _, call => call

namespace Memory

/-- `bt_new()`, whose calls of `malloc` return `m1` and `m2`. -/
def bt_new (m1 m2 : Nat) (m : Memory) : Nat × Memory :=
  if m1 = 0 then (0, m)
  else
    let m := { m with descBlocks := Function.update m.descBlocks m1 true }
    if m2 = 0 then
      (0, { m with
        bt := Function.update m.bt m1 { m.bt m1 with bt_stack := 0, mem_stack := 0 }
        descBlocks := Function.update m.descBlocks m1 false })
    else
      (m1, { m with
        stackBlocks := Function.update m.stackBlocks m2 true
        bt := Function.update m.bt m1 ⟨-1, alignStack m2, m2⟩ })

/-- The rest of `benny_thread_create`, once `kthread_create` has returned `bid`: the
result, what it stores to `*abt`, and what it leaves. -/
def create (bt : Nat) (new : Option Nat) (bid : Int) (m : Memory) : Int × Option Nat × Memory :=
  let m := { m with bt := Function.update m.bt bt { m.bt bt with bid := bid } }
  if bid ≠ 0 then
    (0, some bt, { m with
      handles := Function.update m.handles bt true
      thread := Function.update m.thread bt new })
  else (-1, none, m)

/-- The rest of `benny_thread_join`, once `kthread_join` has returned `retVal`. -/
def join (abt : Nat) (retVal : Int) (m : Memory) : Int × Memory :=
  if retVal = 0 then
    (retVal, { m with
      stackBlocks := Function.update m.stackBlocks (m.bt abt).mem_stack false
      bt := Function.update m.bt abt { m.bt abt with bt_stack := 0, mem_stack := 0 }
      descBlocks := Function.update m.descBlocks abt false
      handles := Function.update m.handles abt false })
  else (retVal, m)

/-- `exec` gives the process a new memory. -/
def forget (m : Memory) : Memory :=
  { m with descBlocks := fun _ => false, stackBlocks := fun _ => false, handles := fun _ => false }

end Memory

namespace Library

variable {C : Type}

def table (s : Library C) : Table := s.kernel.table

def setCall (s : Library C) (i : Nat) (call : Call) : Library C :=
  { s with call := Function.update s.call i call }

/-- A new program has made no call yet. -/
def forget (s : Library C) : Library C :=
  { s with memory := s.memory.forget, call := fun _ => .idle }

/-- What the library makes of the step `a` of the kernel on CPU `c`. -/
def follow (home : Nat) (c : C) (a : Act) (s : Library C) : Library C :=
  match s.kernel.cpu c, a with
  | some (p, i), .run .next => s.setCall i ((s.call i).after s.table (s.table.proc p).ctl)
  | some (p, _), .run (.image _) => if homeOf s.table p = some home then s.forget else s
  | _, _ => s

/-- A system call that the process makes itself, or a new program it runs, is none that the
library has to know of. -/
def outside (home : Nat) (c : C) (a : Act) (s : Library C) : Bool :=
  match s.kernel.cpu c, a with
  | some (p, i), .run (.call sc) =>
    homeOf s.table p ≠ some home ∨ sc = .exit ∨ s.call i = .idle ∧ sc.ofThreads = false
  | some (p, _), .run (.image _) =>
    homeOf s.table p ≠ some home ∨ ∀ q, ¬OwnThread home s.table q
  | _, _ => true

/-- The kernel stack of the thread of the process that CPU `c` runs in user mode. -/
def running (home : Nat) (c : C) (s : Library C) : Option Nat :=
  match s.kernel.cpu c with
  | some (p, i) =>
    if (s.table.proc p).state = .running ∧ (s.table.proc p).ctl = .user ∧
      homeOf s.table p = some home then some i else none
  | none => none

variable [DecidableEq C]

/-- The thread of CPU `c` makes the system call `sc`, in the library at `call`. -/
def enter (c : C) (i : Nat) (sc : Syscall) (call : Call) (s : Library C) : Option (Library C) :=
  (Kthreads.step s.kernel c (.run (.call sc))).map fun kernel => { s.setCall i call with kernel }

/-- One step.  `malloc` returns blocks that are not in use, and joins are made on handles. -/
def step (home : Nat) (s : Library C) : LibAct C → Option (Library C)
  | .kernel c a =>
    if s.outside home c a then
      (Kthreads.step s.kernel c a).map fun kernel => { s.follow home c a with kernel }
    else none
  | .bt_new c m1 m2 =>
    match s.running home c with
    | none => none
    | some i =>
      let (bt, memory) := s.memory.bt_new m1 m2
      if s.call i = .idle ∧ (m1 ≠ 0 → s.memory.descBlocks m1 = false) ∧
          (m2 ≠ 0 → s.memory.stackBlocks m2 = false) then
        some { s.setCall i (.made bt) with memory }
      else none
  | .kthread_create c =>
    match s.running home c with
    | none => none
    | some i =>
      match s.call i with
      | .made bt =>
        if (s.memory.bt bt).bt_stack % PGSIZE ≠ 0 then some (s.setCall i (.created bt none (-1)))
        else s.enter c i .kthread_create (.creating bt none)
      | _ => none
  | .create c =>
    match s.running home c with
    | none => none
    | some i =>
      match s.call i with
      | .created bt new bid =>
        some { s.setCall i .idle with memory := (s.memory.create bt new bid).2.2 }
      | _ => none
  | .kthread_join c abt =>
    match s.running home c with
    | none => none
    | some i =>
      if s.call i = .idle ∧ s.memory.handles abt = true then
        s.enter c i (.kthread_join (s.memory.bt abt).bid) (.joining abt none)
      else none
  | .join c =>
    match s.running home c with
    | none => none
    | some i =>
      match s.call i with
      | .joined abt _ retVal =>
        some { s.setCall i .idle with memory := (s.memory.join abt retVal).2 }
      | _ => none
  | .exit c exit_value =>
    match s.running home c with
    | none => none
    | some i =>
      if s.call i = .idle then s.enter c i (.kthread_exit exit_value) .idle else none

end Library

variable {C : Type}

/-- After boot, before any call. -/
structure Unused (s : Library C) : Prop where
  boot : Boot s.kernel
  descBlocks : ∀ a, s.memory.descBlocks a = false
  handles : ∀ a, s.memory.handles a = false
  call : ∀ i, s.call i = .idle

/-- At `k` the process table has a slot and `kalloc` a page for a thread, and a thread that
is joined exited with 0. -/
def Ctl.served (t : Table) : Ctl → Act → Bool
  | .alloc true, .run (.slot none) => false
  | .newborn true _, .run (.page none) => false
  | .joinTake _ _ q _, .run .next => (t.proc q).thread_exit_value = 0
  | _, _ => true

/-- The kernel serves a thread that is in the library. -/
def Library.served (c : C) (a : Act) (s : Library C) : Bool :=
  match s.kernel.cpu c with
  | some (p, i) => s.call i = .idle ∨ (s.table.proc p).ctl.served s.table a
  | none => true

/-- Both calls of `malloc` succeed, the kernel serves the library, and the ids of the
threads are distinct. -/
def Succeeds (s : Library C) : LibAct C → Prop
  | .kernel c a => Distinct s.kernel (c, a) ∧ s.served c a = true
  | .bt_new _ m1 m2 => m1 ≠ 0 ∧ m2 ≠ 0
  | _ => True

instance (s : Library C) : (l : LibAct C) → Decidable (Succeeds s l)
  | .kernel _ _ => inferInstanceAs (Decidable (_ ∧ _))
  | .bt_new _ _ _ => inferInstanceAs (Decidable (_ ∧ _))
  | .kthread_create _ | .create _ | .kthread_join _ _ | .join _ | .exit _ _ => .isTrue trivial

end Kthreads
end CS444
