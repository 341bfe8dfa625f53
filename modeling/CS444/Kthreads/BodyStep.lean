/-
What one step of a kernel thread can do.

`BodyStep t p k t' n` lists the steps of `body`, one constructor for each, with
what they check and what they leave behind; every invariant of the kernel
threads is a case analysis on it.
-/
import CS444.Kthreads.Proc

namespace CS444
namespace Kthreads

/-- The thread of `p` at `k` takes the table from `t` to `t'` and goes on as `n`
says. -/
inductive BodyStep (t : Table) (p : Slot) : Ctl → Table → Next → Prop
  | preempt (k : Ctl) : (t.proc p).state = .running → k.locked = false →
      BodyStep t p k t (.go (.acquire (.yieldSched k)))
  | block (n : Nat) (k : Ctl) : (t.proc p).state = .running → k.locked = false →
      BodyStep t p k t (.go (.acquire (.sleepSched n k)))
  | yieldSched (k : Ctl) :
      BodyStep t p (.yieldSched k) (t.set p fun r => { r with state := .runnable })
        (.swtch (.release k))
  | sleepSched (n : Nat) (k : Ctl) :
      BodyStep t p (.sleepSched n k)
        (t.set p fun r => { r with state := .sleeping, chan := .other n }) (.swtch (.release k))
  | call (sc : Syscall) (k : Ctl) : start t p sc = some k → BodyStep t p .user t (.go k)
  | ret (v : Int) : BodyStep t p (.ret v) t (.go .user)
  | allocNone (thread : Bool) : BodyStep t p (.alloc thread) t (.go (.release (.ret (-1))))
  | alloc (thread : Bool) (np : Slot) : (t.proc np).state = .unused →
      BodyStep t p (.alloc thread) (takeSlot t np) (.go (.release (.newborn thread np)))
  | newbornFail (thread : Bool) (np : Slot) :
      BodyStep t p (.newborn thread np)
        (t.set np fun r => { r with kstack := none, state := .unused }) (.go (.ret (-1)))
  | newborn (thread : Bool) (np : Slot) :
      BodyStep t p (.newborn thread np) (initSlot t np)
        (.go (if thread then .threadLink np else .forkSetup np))
  | forkSetupFail (np : Slot) : BodyStep t p (.forkSetup np) t (.go (.forkUndo np))
  | forkSetup (np : Slot) (d : Nat) : t.live d = false →
      BodyStep t p (.forkSetup np) (t.setupkvm d) (.go (.forkCopy np d))
  | forkCopy (np : Slot) (d : Nat) : imagePresent t p = true →
      BodyStep t p (.forkCopy np d) (copyImage t p np d) (.go (.acquire (.publish np none)))
  | forkCopyFail (np : Slot) (d : Nat) :
      BodyStep t p (.forkCopy np d) (t.free d) (.go (.forkUndo np))
  | forkUndo (np : Slot) :
      BodyStep t p (.forkUndo np) (t.set np fun r => { r with kstack := none, state := .unused })
        (.go (.ret (-1)))
  | threadLink (np : Slot) (owner : Option Slot) :
      (if (t.proc p).is_thread then (t.proc p).parent else some p) = owner →
      BodyStep t p (.threadLink np) t (.go (.storeParent np owner))
  | storeParent (np : Slot) (owner : Option Slot) :
      BodyStep t p (.storeParent np owner) (linkThread t p np owner) (.go (.tidParent np))
  | tidParent (np owner : Slot) : (t.proc np).parent = some owner →
      BodyStep t p (.tidParent np) t (.go (.loadTid np owner))
  | loadTid (np owner : Slot) :
      BodyStep t p (.loadTid np owner) t (.go (.storeTid np owner (t.proc owner).next_tid))
  | storeTid (np owner : Slot) (v : Nat) :
      BodyStep t p (.storeTid np owner v) (takeTid t np owner v) (.go (.countParent np))
  | countParent (np owner : Slot) : (t.proc np).parent = some owner →
      BodyStep t p (.countParent np) t (.go (.loadCount np owner))
  | loadCount (np owner : Slot) :
      BodyStep t p (.loadCount np owner) t
        (.go (.storeCount np owner (t.proc owner).thread_count))
  | storeCount (np owner : Slot) (v : Nat) :
      BodyStep t p (.storeCount np owner v)
        (t.set owner fun r => { r with thread_count := ushort (v + 1) })
        (.go (.acquire (.publish np (some owner))))
  | publish (np : Slot) (owner : Option Slot) (v : Int) :
      BodyStep t p (.publish np owner) (t.set np fun r => { r with state := .runnable })
        (.go (.release (.ret v)))
  | joinMatch (owner : Option Slot) (tid : Int) (q : Slot) : (t.proc q).parent = owner →
      ((t.proc q).tid : Int) = tid →
      BodyStep t p (.joinScan owner tid q) t (.go (.joinPoll owner tid q))
  | joinSkip (owner : Option Slot) (tid : Int) (i : Nat) :
      BodyStep t p (.joinScan owner tid i) t (.go (.joinScan owner tid (i + 1)))
  | joinNone (owner : Option Slot) (tid : Int) (i : Nat) :
      BodyStep t p (.joinScan owner tid i) t (.go (.release (.ret (-1))))
  | joinZombie (owner : Option Slot) (tid : Int) (q : Slot) : (t.proc q).state = .zombie →
      BodyStep t p (.joinPoll owner tid q) t (.go (.joinLoad owner tid q))
  | joinWait (owner : Option Slot) (tid : Int) (q : Slot) : (t.proc q).state ≠ .zombie →
      BodyStep t p (.joinPoll owner tid q) t
        (.go (.release (.acquire (.yieldSched (.acquire (.joinPoll owner tid q))))))
  | joinLoad (owner : Slot) (tid : Int) (q : Slot) :
      BodyStep t p (.joinLoad (some owner) tid q) t
        (.go (.joinTake owner tid q (t.proc owner).thread_count))
  | joinTake (owner : Slot) (tid : Int) (q : Slot) (v : Nat) :
      BodyStep t p (.joinTake owner tid q v) (takeThread t owner q v)
        (.go (.release (.ret (t.proc q).thread_exit_value)))
  | threadExit (v : Int) :
      BodyStep t p (.threadExit v) (t.set p fun r => { r with killed := false })
        (.go (.threadExit1 v))
  | threadExit1 (v : Int) :
      BodyStep t p (.threadExit1 v) (t.set p fun r => { r with thread_exit_value := v })
        (.go (.threadExit2 v))
  | threadExit2 (v : Int) :
      BodyStep t p (.threadExit2 v) (threadZombie t p v) (.go (.acquire .threadSched))
  | threadSched : (t.proc p).state ≠ .running →
      BodyStep t p .threadSched t (.swtch .dead)
  | exitSched : BodyStep t p .exitSched (t.exitBody p) (.swtch .dead)
  | waitTake (q : Slot) (kids : Bool) : (t.proc q).parent = some p →
      (t.proc q).state = .zombie →
      BodyStep t p (.waitScan q kids) ((t.free (t.proc q).pgdir).waitReset q)
        (.go (.release (.ret (t.proc q).pid)))
  | waitNext (i : Nat) (kids kids' : Bool) :
      BodyStep t p (.waitScan i kids) t (.go (.waitScan (i + 1) kids'))
  | waitNone (i : Nat) (kids : Bool) :
      BodyStep t p (.waitScan i kids) t (.go (.release (.ret (-1))))
  | waitSleep (i : Nat) (kids : Bool) :
      BodyStep t p (.waitScan i kids)
        (t.set p fun r => { r with state := .sleeping, chan := .proc p })
        (.swtch (.waitScan 0 false))
  | killNone (pid : Int) : BodyStep t p (.killScan pid) t (.go (.release (.ret (-1))))
  | kill (pid : Int) (q : Slot) :
      BodyStep t p (.killScan pid)
        (t.set q fun r =>
          { r with
            killed := true, state := if r.state = .sleeping then .runnable else r.state })
        (.go (.release (.ret 0)))
  | execFail : BodyStep t p .execSetup t (.go (.ret (-1)))
  | execSetup (d : Nat) : t.live d = false →
      BodyStep t p .execSetup (t.setupkvm d) (.go (.execBuilt d))
  | execCommit (d sz : Nat) :
      BodyStep t p (.execBuilt d) (commitImage t p d sz) (.go (.freevm (t.proc p).pgdir))
  | execBad (d : Nat) : BodyStep t p (.execBuilt d) t (.go (.freevm d))
  | freevm (d : Nat) : BodyStep t p (.freevm d) (t.free d) (.go .user)
  | growMap (newsz a : Nat) : a < newsz → t.mapped (t.proc p).pgdir (a / PGSIZE) = false →
      BodyStep t p (.growAlloc newsz a) (setPage t p a true) (.go (.growAlloc newsz (a + PGSIZE)))
  | growFail (newsz a : Nat) : a < newsz →
      BodyStep t p (.growAlloc newsz a) t (.go (.growFree (pgRoundUp (t.proc p).sz) newsz 0))
  | growMapped (newsz a : Nat) : newsz ≤ a →
      BodyStep t p (.growAlloc newsz a) t (.go (.growStore newsz))
  | growUnmap (a stop r : Nat) : a < stop →
      BodyStep t p (.growFree a stop r) (setPage t p a false) (.go (.growFree (a + PGSIZE) stop r))
  | growFailed (a stop : Nat) : stop ≤ a → BodyStep t p (.growFree a stop 0) t (.go (.ret (-1)))
  | growFreed (a stop r : Nat) : stop ≤ a → r ≠ 0 →
      BodyStep t p (.growFree a stop r) t (.go (.growStore r))
  | growStore (sz : Nat) :
      BodyStep t p (.growStore sz) (t.set p fun r => { r with sz }) (.go (.ret (t.proc p).sz))

theorem body_step {t t' : Table} {p : Slot} {k : Ctl} {pick : Pick} {n : Next}
    (h : body t p k pick = some (t', n)) : BodyStep t p k t' n := by
  unfold body at h
  split at h
  case h_5 =>
    obtain ⟨k, hk, heq⟩ := Option.map_eq_some_iff.mp h
    obtain ⟨rfl, rfl⟩ := Prod.mk.inj heq
    exact .call _ k hk
  case h_10 thread np i =>
    obtain ⟨rfl, rfl⟩ := Prod.mk.inj (Option.some.inj h)
    exact .newborn thread np
  case h_12 np d =>
    split at h
    · exact absurd h (by simp)
    · rename_i hfree
      obtain ⟨rfl, rfl⟩ := Prod.mk.inj (Option.some.inj h)
      exact .forkSetup np d (by simpa using hfree)
  case h_16 np =>
    obtain ⟨rfl, rfl⟩ := Prod.mk.inj (Option.some.inj h)
    exact .threadLink np _ rfl
  case h_18 np =>
    obtain ⟨owner, howner, heq⟩ := Option.map_eq_some_iff.mp h
    obtain ⟨rfl, rfl⟩ := Prod.mk.inj heq
    exact .tidParent np owner howner
  case h_21 np =>
    obtain ⟨owner, howner, heq⟩ := Option.map_eq_some_iff.mp h
    obtain ⟨rfl, rfl⟩ := Prod.mk.inj heq
    exact .countParent np owner howner
  case h_25 owner tid i =>
    repeat' split at h
    · rename_i hi hmatch
      obtain ⟨rfl, rfl⟩ := Prod.mk.inj (Option.some.inj h)
      exact .joinMatch owner tid ⟨i, hi⟩ hmatch.1 hmatch.2
    all_goals
      obtain ⟨rfl, rfl⟩ := Prod.mk.inj (Option.some.inj h)
      constructor
  case h_34 i kids =>
    repeat' split at h
    · rename_i hi hparent hzombie
      obtain ⟨rfl, rfl⟩ := Prod.mk.inj (Option.some.inj h)
      exact .waitTake ⟨i, hi⟩ kids hparent hzombie
    all_goals
      obtain ⟨rfl, rfl⟩ := Prod.mk.inj (Option.some.inj h)
      constructor
  case h_37 d =>
    split at h
    · exact absurd h (by simp)
    · rename_i hfree
      obtain ⟨rfl, rfl⟩ := Prod.mk.inj (Option.some.inj h)
      exact .execSetup d (by simpa using hfree)
  case h_41 newsz a i =>
    repeat' split at h
    · exact absurd h (by simp)
    · rename_i hlt hfree
      obtain ⟨rfl, rfl⟩ := Prod.mk.inj (Option.some.inj h)
      exact .growMap newsz a hlt (by simpa using hfree)
    · exact absurd h (by simp)
  case h_43 newsz a =>
    split at h
    · exact absurd h (by simp)
    · rename_i hge
      obtain ⟨rfl, rfl⟩ := Prod.mk.inj (Option.some.inj h)
      exact .growMapped newsz a (by omega)
  case h_44 a stop r =>
    split at h
    · rename_i hlt
      obtain ⟨rfl, rfl⟩ := Prod.mk.inj (Option.some.inj h)
      exact .growUnmap a stop r hlt
    · rename_i hge
      obtain ⟨rfl, rfl⟩ := Prod.mk.inj (Option.some.inj h)
      split
      · rename_i hr
        subst hr
        exact .growFailed a stop (by omega)
      · rename_i hr
        exact .growFreed a stop r (by omega) hr
  all_goals
    repeat' split at h
    all_goals
      simp only [Option.some.injEq, Prod.mk.injEq, reduceCtorEq] at h
      try
        obtain ⟨rfl, rfl⟩ := h
        constructor <;> first | assumption | tauto

end Kthreads
end CS444
