/-
The user stack that `kthread_create` writes to.

`sys_kthread_create` takes three words from the caller's stack and stores two of
them below the end of the page `tstack` points to, through the caller's page
table.  Of `tstack` it checks the alignment alone.  `confined_iff` says when the
call is safe all the same: it gives up before the stores, or the page happens to
be the caller's own.

The call runs from its arguments to its result in one piece; what it does to the
process table are the steps of `body`, `kthread_create_bodies`.
-/
import CS444.Lib.Bytes
import CS444.Lib.Program
import CS444.Kthreads.Kin

namespace CS444
namespace Kthreads

open Bytes Program

/-! ## The machine a system call runs on -/

/-- The fields of `struct trapframe` the call touches. -/
structure Trapframe where
  eax : Nat
  eip : Nat
  esp : Nat

/-- A page table entry: `PTE_P`, `PTE_W` and `PTE_U`. -/
structure Pte where
  present : Bool
  writable : Bool
  user : Bool

/-- The process `cur` in a system call.  `mem` and `page` are the memory and the
page table under its directory, by address and by page; `stores` records the
words the kernel stores to on the new stack. -/
structure Machine where
  table : Table
  cur : Slot
  tf : Slot → Trapframe
  mem : Mem
  page : Nat → Pte
  stores : List Nat

/-- A page fault in the kernel, which panics, with the machine it leaves. -/
structure Fault where
  machine : Machine

/-- Kernel code. -/
abbrev M (α : Type) : Type := Prog Machine Fault α

/-- `*(int *) a = v` in the kernel. -/
def storeWord (a v : Nat) : M Unit where
  run s :=
    let s := { s with stores := s.stores ++ [a] }
    if (s.page (a / PGSIZE)).present ∧ (s.page (a / PGSIZE)).writable then
      .ok ((), { s with mem := store s.mem a 4 v })
    else .error ⟨s⟩

/-- `fetchint(addr, ip)` -/
def Machine.fetchint (s : Machine) (addr : Nat) : Option Nat :=
  let sz := (s.table.proc s.cur).sz
  if addr ≥ sz ∨ (addr + 4) % 2 ^ 32 > sz then none else some (load s.mem addr 4)

/-- `argint(n, ip)` -/
def Machine.argint (s : Machine) (n : Nat) : Option Nat :=
  s.fetchint (((s.tf s.cur).esp + 4 + 4 * n) % 2 ^ 32)

/-- `allocproc()`; `page` says whether `kalloc` has a page for the stack. -/
def allocproc (page : Bool) : M (Option Slot) := do
  let s ← Prog.get
  match (List.finRange NPROC).find? fun q => (s.table.proc q).state = .unused with
  | none => return none
  | some np =>
    Prog.modify fun s => { s with table := takeSlot s.table np }
    if page then
      Prog.modify fun s => { s with table := initSlot s.table np }
      return some np
    else
      Prog.modify fun s =>
        { s with table := s.table.set np fun r => { r with kstack := none, state := .unused } }
      return none

/-- Change `*np->tf`. -/
def setTf (np : Slot) (f : Trapframe → Trapframe) : M Unit :=
  Prog.modify fun s => { s with tf := Function.update s.tf np (f (s.tf np)) }

/-- The stack pointer after one push. -/
def pushed (esp : Nat) : Nat := (esp + 2 ^ 32 - 4) % 2 ^ 32

/-- `kthread_create` from the slot `np` on. -/
def makeThread (np owner : Slot) (func arg_ptr tstack : Nat) : M Int := do
  let s ← Prog.get
  Prog.modify fun s => { s with table := linkThread s.table s.cur np owner }
  setTf np fun _ => { s.tf s.cur with eax := 0, eip := func }
  let s ← Prog.get
  let tid := (s.table.proc owner).next_tid
  Prog.modify fun s => { s with table := takeTid s.table np owner tid }
  Prog.modify fun s =>
    { s with
      table := s.table.set owner fun r => { r with thread_count := ushort (r.thread_count + 1) } }
  let esp := pushed ((tstack + PGSIZE) % 2 ^ 32)
  storeWord esp arg_ptr
  let esp := pushed esp
  storeWord esp tid
  setTf np fun tf => { tf with esp := esp }
  Prog.modify fun s => { s with table := s.table.set np fun r => { r with state := .runnable } }
  return tid

/-- `kthread_create(func, arg_ptr, tstack)`.  A thread without a process does not
run. -/
def kthread_create (page : Bool) (func arg_ptr tstack : Nat) : M Int := do
  if tstack % PGSIZE ≠ 0 then return -1
  else
    match ← allocproc page with
    | none => return -1
    | some np =>
      let s ← Prog.get
      match process s.table s.cur with
      | none => Prog.halt ⟨s⟩
      | some owner => makeThread np owner func arg_ptr tstack

def sys_kthread_create (page : Bool) : M Int := do
  let s ← Prog.get
  match s.argint 0, s.argint 1, s.argint 2 with
  | some func, some arg_ptr, some tstack => kthread_create page func arg_ptr tstack
  | _, _, _ => return -1

/-! ## What the call must not do -/

/-- The page at `tstack` is the caller's, to write to. -/
structure UserPage (s : Machine) (tstack : Nat) : Prop where
  inside : tstack + PGSIZE ≤ (s.table.proc s.cur).sz
  below : tstack + PGSIZE ≤ KERNBASE
  present : (s.page (tstack / PGSIZE)).present = true
  writable : (s.page (tstack / PGSIZE)).writable = true
  user : (s.page (tstack / PGSIZE)).user = true

/-- No thread was made and nothing was written. -/
structure NothingDone (s s' : Machine) : Prop where
  state : ∀ q, (s'.table.proc q).state = (s.table.proc q).state
  stores : s'.stores = s.stores
  mem : s'.mem = s.mem

/-- What the kernel stored to from `s` to `s'` lies on the page at `tstack`, and
that page is the caller's. -/
def OnUserPage (s : Machine) (tstack : Nat) (s' : Machine) : Prop :=
  (∃ stores, s'.stores = s.stores ++ stores ∧
    ∀ a ∈ stores, tstack ≤ a ∧ a + 4 ≤ tstack + PGSIZE) ∧ UserPage s tstack

/-- The call gave up and did nothing, or it stored to the page its third argument
names and the page is the caller's. -/
def Confined (s : Machine) : Except Fault (Int × Machine) → Prop
  | .ok (v, s') =>
    v = -1 ∧ NothingDone s s' ∨ ∃ tstack, s.argint 2 = some tstack ∧ OnUserPage s tstack s'
  | .error fault => ∃ tstack, s.argint 2 = some tstack ∧ OnUserPage s tstack fault.machine

/-- The call gives up: an argument cannot be fetched, the stack is not aligned, or
there is no slot or no page for the kernel stack. -/
def GivesUp (s : Machine) (page : Bool) : Prop :=
  s.argint 0 = none ∨ s.argint 1 = none ∨ s.argint 2 = none ∨
    (∃ tstack, s.argint 2 = some tstack ∧ tstack % PGSIZE ≠ 0) ∨
      (∀ q, (s.table.proc q).state ≠ .unused) ∨ page = false

variable {s s' : Machine} {page : Bool} {np owner : Slot} {func arg_ptr tstack a v : Nat} {r : Int}

/-! ## Stores -/

theorem storeWord_ok {u : Unit} (hrun : (storeWord a v).run s = .ok (u, s')) :
    s' = { s with stores := s.stores ++ [a], mem := store s.mem a 4 v } := by
  unfold storeWord at hrun
  dsimp only at hrun
  split at hrun
  · exact (Prod.mk.inj (Except.ok.inj hrun)).2.symm
  · cases hrun

theorem storeWord_bind_run {α : Type} {k : Unit → M α}
    (hp : (s.page (a / PGSIZE)).present = true) (hw : (s.page (a / PGSIZE)).writable = true) :
    (storeWord a v >>= k).run s =
      (k ()).run { s with stores := s.stores ++ [a], mem := store s.mem a 4 v } := by
  rw [Prog.run_bind, storeWord]
  dsimp only
  rw [if_pos ⟨hp, hw⟩]

/-- Both words lie on the page, whose end may be the end of the address space. -/
theorem stack_words (haligned : tstack % PGSIZE = 0) (hlt : tstack < 2 ^ 32) :
    pushed ((tstack + PGSIZE) % 2 ^ 32) = tstack + 4092 ∧
      pushed (tstack + 4092) = tstack + 4088 := by
  unfold pushed
  simp only [PGSIZE] at *
  omega

theorem argint_lt {n : Nat} (harg : s.argint n = some a) : a < 2 ^ 32 := by
  unfold Machine.argint Machine.fetchint at harg
  dsimp only at harg
  split at harg
  · cases harg
  · rw [← Option.some.inj harg]
    exact load_lt s.mem _ 4

/-! ## The two ends of the call -/

/-- A thread that is made has a thread id. -/
theorem makeThread_nonneg (hrun : (makeThread np owner func arg_ptr tstack).run s = .ok (r, s')) :
    0 ≤ r := by
  unfold makeThread at hrun
  simp only [Prog.get_bind_run, Prog.modify_bind_run, setTf] at hrun
  rw [Prog.bind_ok] at hrun
  obtain ⟨_, s₁, -, hrun⟩ := hrun
  rw [Prog.bind_ok] at hrun
  obtain ⟨_, s₂, -, hrun⟩ := hrun
  simp only [Prog.modify_bind_run] at hrun
  obtain ⟨rfl, -⟩ := Prog.pure_ok.mp hrun
  omega

/-- On a page that may be written to, the thread is made with two stores. -/
theorem makeThread_stores (haligned : tstack % PGSIZE = 0) (hlt : tstack < 2 ^ 32)
    (hp : (s.page (tstack / PGSIZE)).present = true)
    (hw : (s.page (tstack / PGSIZE)).writable = true) :
    ∃ r s', (makeThread np owner func arg_ptr tstack).run s = .ok (r, s') ∧
      s'.stores = s.stores ++ [tstack + 4092, tstack + 4088] := by
  obtain ⟨hfirst, hsecond⟩ := stack_words haligned hlt
  have hpage₁ : (tstack + 4092) / PGSIZE = tstack / PGSIZE := by
    simp only [PGSIZE] at *
    omega
  have hpage₂ : (tstack + 4088) / PGSIZE = tstack / PGSIZE := by
    simp only [PGSIZE] at *
    omega
  unfold makeThread
  simp only [Prog.get_bind_run, Prog.modify_bind_run, setTf, hfirst, hsecond]
  rw [storeWord_bind_run (by rw [hpage₁]; exact hp) (by rw [hpage₁]; exact hw),
    storeWord_bind_run (by rw [hpage₂]; exact hp) (by rw [hpage₂]; exact hw)]
  simp only [Prog.modify_bind_run, Prog.pure_run]
  refine ⟨_, _, rfl, ?_⟩
  rw [List.append_assoc]
  rfl

/-- `allocproc` without a slot or a stack leaves no trace in the states. -/
theorem allocproc_none (hno : (∀ q, (s.table.proc q).state ≠ .unused) ∨ page = false) :
    ∃ s', (allocproc page).run s = .ok (none, s') ∧ NothingDone s s' := by
  unfold allocproc
  rw [Prog.get_bind_run]
  split
  · exact ⟨s, rfl, fun _ => rfl, rfl, rfl⟩
  · rename_i np hfind
    have hunused : (s.table.proc np).state = .unused := by
      simpa using List.find?_some hfind
    have hpage := hno.resolve_left fun hall => hall np hunused
    rw [hpage]
    refine ⟨_, rfl, fun q => ?_, rfl, rfl⟩
    show (((takeSlot s.table np).set np fun r =>
      { r with kstack := none, state := .unused }).proc q).state = (s.table.proc q).state
    by_cases hq : q = np
    · rw [hq, Table.set_self, hunused]
    · rw [Table.set_of_ne hq]
      simp only [takeSlot]
      rw [Table.set_of_ne hq]

/-- `allocproc` with a slot and a stack. -/
theorem allocproc_some (hslot : ∃ q, (s.table.proc q).state = .unused) :
    ∃ np s', (allocproc true).run s = .ok (some np, s') ∧ (s.table.proc np).state = .unused ∧
      s' = { s with table := initSlot (takeSlot s.table np) np } := by
  unfold allocproc
  rw [Prog.get_bind_run]
  split
  · rename_i hfind
    obtain ⟨q, hq⟩ := hslot
    have := List.find?_eq_none.mp hfind q (List.mem_finRange q)
    exact absurd hq (by simpa using this)
  · rename_i np hfind
    exact ⟨np, _, rfl, by simpa using List.find?_some hfind, rfl⟩

/-! ## The steps of the call -/

/-- The thread of `p` goes from `k` to `k'` by steps of `body`, taking and dropping
the lock as its control point says. -/
inductive Bodies (p : Slot) : Table → Ctl → Table → Ctl → Prop
  | refl (t : Table) (k : Ctl) : Bodies p t k t k
  | body {t t₁ t' : Table} {k k₁ k' : Ctl} (pick : Pick) :
      body t p k pick = some (t₁, .go k₁) → Bodies p t₁ k₁ t' k' → Bodies p t k t' k'
  | acquire {t t' : Table} {k k' : Ctl} : Bodies p t k t' k' → Bodies p t (.acquire k) t' k'
  | release {t t' : Table} {k k' : Ctl} : Bodies p t k t' k' → Bodies p t (.release k) t' k'

theorem makeThread_bodies
    (howner : process s.table s.cur = some owner)
    (hrun : (makeThread np owner func arg_ptr tstack).run s = .ok (r, s')) :
    Bodies s.cur s.table (.threadLink np) s'.table (.ret r) := by
  unfold makeThread at hrun
  simp only [Prog.get_bind_run, Prog.modify_bind_run, setTf] at hrun
  rw [Prog.bind_ok] at hrun
  obtain ⟨_, s₁, hfirst, hrun⟩ := hrun
  rw [Prog.bind_ok] at hrun
  obtain ⟨_, s₂, hsecond, hrun⟩ := hrun
  simp only [Prog.modify_bind_run] at hrun
  obtain ⟨rfl, rfl⟩ := Prog.pure_ok.mp hrun
  obtain rfl := storeWord_ok hsecond
  obtain rfl := storeWord_ok hfirst
  have hlink : body s.table s.cur (.threadLink np) .next =
      some (s.table, .go (.storeParent np (some owner))) := by
    rw [process] at howner
    simp only [body, howner]
  have hparent : ((linkThread s.table s.cur np (some owner)).proc np).parent = some owner := by
    simp [linkThread]
  have htidParent : ∀ t : Table, (t.proc np).parent = some owner →
      body t s.cur (.tidParent np) .next = some (t, .go (.loadTid np owner)) ∧
        body t s.cur (.countParent np) .next = some (t, .go (.loadCount np owner)) := by
    intro t ht
    simp only [body, ht, Option.map_some, and_self]
  have hkeep : ∀ v,
      ((takeTid (linkThread s.table s.cur np (some owner)) np owner v).proc np).parent =
        some owner := fun v =>
    (takeTid_keeps Proc.parent (fun _ _ => rfl) fun _ _ => rfl).trans hparent
  have htid : ∀ (t : Table) (v n : Nat),
      (((takeTid t np owner v).set owner fun r => { r with thread_count := n }).proc np).tid =
        v := by
    intro t v n
    have hkeep : (((takeTid t np owner v).set owner fun r =>
        { r with thread_count := n }).proc np).tid = ((takeTid t np owner v).proc np).tid :=
      Table.set_keeps Proc.tid fun _ => rfl
    rw [hkeep, takeTid, Table.set_self]
  refine .body .next hlink (.body .next rfl (.body .next (htidParent _ hparent).1
    (.body .next rfl (.body .next rfl (.body .next (htidParent _ (hkeep _)).2
      (.body .next rfl (.body .next rfl (.acquire (.body .next rfl (.release ?_))))))))))
  simp only [Option.isSome_some, if_true, htid]
  exact .refl _ _

/-- What `kthread_create` does to the process table are steps of its thread. -/
theorem kthread_create_bodies (haligned : tstack % PGSIZE = 0)
    (hrun : (kthread_create page func arg_ptr tstack).run s = .ok (r, s')) :
    Bodies s.cur s.table (.acquire (.alloc true)) s'.table (.ret r) := by
  rw [kthread_create, if_neg (not_not.mpr haligned), allocproc, Prog.bind_bind_run,
    Prog.get_bind_run] at hrun
  split at hrun
  · obtain ⟨rfl, rfl⟩ := Prog.pure_ok.mp hrun
    exact .acquire (.body (.slot none) rfl (.release (.refl _ _)))
  · rename_i np hfind
    have hunused : (s.table.proc np).state = .unused := by
      simpa using List.find?_some hfind
    have hslot : body s.table s.cur (.alloc true) (.slot (some np)) =
        some (takeSlot s.table np, .go (.release (.newborn true np))) := by
      simp only [body, hunused, if_true]
    refine .acquire (.body (.slot (some np)) hslot (.release ?_))
    simp only [Prog.modify_bind_run, Prog.bind_bind_run] at hrun
    cases page with
    | false =>
        obtain ⟨rfl, rfl⟩ := Prog.pure_ok.mp hrun
        exact .body (.page none) rfl (.refl _ _)
    | true =>
        refine .body (.page (some 0)) rfl ?_
        simp only [if_true, Prog.modify_bind_run, Prog.bind_bind_run, Prog.pure_bind_run,
          Prog.get_bind_run] at hrun
        split at hrun
        · simp at hrun
        · rename_i owner howner
          exact makeThread_bodies howner hrun

/-- A call that does not give up reaches `makeThread`, with the caller's memory and
page table as they were. -/
theorem reaches_makeThread (hgoes : ¬ GivesUp s page)
    (hparent : (s.table.proc s.cur).is_thread = true → (s.table.proc s.cur).parent ≠ none) :
    ∃ func arg_ptr tstack np owner s₁, s.argint 2 = some tstack ∧ tstack % PGSIZE = 0 ∧
      s₁.page = s.page ∧ s₁.stores = s.stores ∧
      (sys_kthread_create page).run s = (makeThread np owner func arg_ptr tstack).run s₁ := by
  simp only [GivesUp, not_or] at hgoes
  obtain ⟨hfunc, harg, hstack, haligned, hslot, hpage⟩ := hgoes
  obtain ⟨func, hfunc⟩ := Option.ne_none_iff_exists'.mp hfunc
  obtain ⟨arg_ptr, harg⟩ := Option.ne_none_iff_exists'.mp harg
  obtain ⟨tstack, hstack⟩ := Option.ne_none_iff_exists'.mp hstack
  have haligned : tstack % PGSIZE = 0 := by
    by_contra hne
    exact haligned ⟨tstack, hstack, hne⟩
  have hpage : page = true := by simpa using hpage
  have hslot : ∃ q, (s.table.proc q).state = .unused := by
    by_contra hnone
    exact hslot fun q hq => hnone ⟨q, hq⟩
  obtain ⟨np, s₁, halloc, hunused, rfl⟩ := allocproc_some hslot
  -- the thread's process, looked up after the new slot was set up
  obtain ⟨owner, howner⟩ : ∃ owner,
      process (initSlot (takeSlot s.table np) np) s.cur = some owner := by
    unfold process
    by_cases hcur : s.cur = np
    · refine ⟨s.cur, ?_⟩
      rw [hcur]
      simp [initSlot]
    · have hsame : (initSlot (takeSlot s.table np) np).proc s.cur = s.table.proc s.cur := by
        simp only [initSlot, takeSlot]
        rw [Table.set_of_ne hcur, Table.set_of_ne hcur]
      rw [hsame]
      by_cases hthread : (s.table.proc s.cur).is_thread = true
      · obtain ⟨owner, howner⟩ := Option.ne_none_iff_exists'.mp (hparent hthread)
        exact ⟨owner, by rw [if_pos hthread, howner]⟩
      · exact ⟨s.cur, by rw [if_neg hthread]⟩
  refine ⟨func, arg_ptr, tstack, np, owner,
    { s with table := initSlot (takeSlot s.table np) np }, hstack, haligned, rfl, rfl, ?_⟩
  simp only [sys_kthread_create, Prog.get_bind_run, hfunc, harg, hstack]
  rw [kthread_create, if_neg (not_not.mpr haligned), hpage, Prog.bind_eq halloc]
  simp only [Prog.get_bind_run, howner]

/-- A call that gives up returns -1 and has done nothing. -/
theorem givesUp_spec (hgives : GivesUp s page) :
    ∃ s', (sys_kthread_create page).run s = .ok (-1, s') ∧ NothingDone s s' := by
  have hnothing : NothingDone s s := ⟨fun _ => rfl, rfl, rfl⟩
  simp only [sys_kthread_create, Prog.get_bind_run]
  split
  · rename_i func arg_ptr tstack hfunc harg hstack
    rw [kthread_create]
    split
    · exact ⟨s, rfl, hnothing⟩
    · rename_i haligned
      have hno : (∀ q, (s.table.proc q).state ≠ .unused) ∨ page = false := by
        rcases hgives with hnone | hnone | hnone | ⟨t, ht, hne⟩ | hno
        · exact absurd (hfunc.symm.trans hnone) (by simp)
        · exact absurd (harg.symm.trans hnone) (by simp)
        · exact absurd (hstack.symm.trans hnone) (by simp)
        · obtain rfl := Option.some.inj (hstack.symm.trans ht)
          exact absurd hne haligned
        · exact hno
      obtain ⟨s', halloc, hnothing'⟩ := allocproc_none hno
      refine ⟨s', ?_, hnothing'⟩
      rw [Prog.bind_eq halloc]
      rfl
  · exact ⟨s, rfl, hnothing⟩

/-- The call is confined exactly when it gives up or the page at `tstack` is the
caller's to write to. -/
theorem kthread_create_confined_iff
    (hparent : (s.table.proc s.cur).is_thread = true → (s.table.proc s.cur).parent ≠ none) :
    Confined s ((sys_kthread_create page).run s) ↔
      GivesUp s page ∨ ∃ tstack, s.argint 2 = some tstack ∧ UserPage s tstack := by
  by_cases hgives : GivesUp s page
  · obtain ⟨s', hrun, hnothing⟩ := givesUp_spec hgives
    rw [hrun]
    exact iff_of_true (Or.inl ⟨rfl, hnothing⟩) (Or.inl hgives)
  obtain ⟨func, arg_ptr, tstack, np, owner, s₁, hstack, haligned, hpage, hstores, hrun⟩ :=
    reaches_makeThread hgives hparent
  rw [hrun]
  constructor
  · intro hconfined
    have hpage : ∃ tstack, s.argint 2 = some tstack ∧ UserPage s tstack := by
      cases hmake : (makeThread np owner func arg_ptr tstack).run s₁ with
      | error fault =>
          rw [hmake] at hconfined
          obtain ⟨t, ht, -, huser⟩ := hconfined
          exact ⟨t, ht, huser⟩
      | ok e =>
          obtain ⟨r, s'⟩ := e
          have hpos := makeThread_nonneg hmake
          rw [hmake] at hconfined
          rcases hconfined with ⟨hneg, -⟩ | ⟨t, ht, -, huser⟩
          · omega
          · exact ⟨t, ht, huser⟩
    exact Or.inr hpage
  · rintro (hgives' | ⟨t, ht, huser⟩)
    · exact absurd hgives' hgives
    obtain rfl := Option.some.inj (hstack.symm.trans ht)
    obtain ⟨r, s', hmake, hstores'⟩ : ∃ r s',
        (makeThread np owner func arg_ptr tstack).run s₁ = .ok (r, s') ∧
          s'.stores = s₁.stores ++ [tstack + 4092, tstack + 4088] := by
      refine makeThread_stores haligned (argint_lt hstack) ?_ ?_ <;> rw [hpage]
      · exact huser.present
      · exact huser.writable
    rw [hmake]
    refine Or.inr ⟨tstack, hstack, ⟨[tstack + 4092, tstack + 4088], ?_, ?_⟩, huser⟩
    · rw [hstores', hstores]
    · intro a ha
      simp only [List.mem_cons, List.not_mem_nil, or_false] at ha
      simp only [PGSIZE]
      omega

/-- The process made at boot, with one page of its own and the kernel's memory
from `KERNBASE` on, about to call `kthread_create(0, 0, tstack)`; `high` is the
top byte of `tstack`. -/
def callerOf (high : UInt8) : Machine where
  table := (boot : Kernel Unit).table
  cur := initproc
  tf _ := ⟨0, 0, 64⟩
  mem a := if a = 79 then high else 0
  page n := ⟨n = 0 ∨ KERNBASE / PGSIZE ≤ n, true, n = 0⟩
  stores := []

/-- A stack on the caller's only page. -/
theorem kthread_create_confined_callerOf :
    Confined (callerOf 0) ((sys_kthread_create true).run (callerOf 0)) := by
  refine (kthread_create_confined_iff (fun h => absurd h (by decide))).mpr (Or.inr ⟨0, ?_, ?_⟩)
  · decide
  · constructor <;> decide

/-- A stack at `KERNBASE`: two words of kernel memory are overwritten. -/
theorem kthread_create_kernel_write :
    (∃ s', (sys_kthread_create true).run (callerOf 128) = .ok (1, s') ∧
      s'.stores = [KERNBASE + 4092, KERNBASE + 4088]) ∧
    ¬ Confined (callerOf 128) ((sys_kthread_create true).run (callerOf 128)) := by
  have hrun : Prog.returns ((sys_kthread_create true).run (callerOf 128)) (fun r s' =>
      decide (r = 1 ∧ s'.stores = [KERNBASE + 4092, KERNBASE + 4088])) = true := by
    decide
  obtain ⟨r, s', hrun, htest⟩ := Prog.returns_iff.mp hrun
  obtain ⟨rfl, hstores⟩ := of_decide_eq_true htest
  refine ⟨⟨s', hrun, hstores⟩, fun hconfined => ?_⟩
  rw [hrun] at hconfined
  rcases hconfined with ⟨hneg, -⟩ | ⟨tstack, hstack, -, huser⟩
  · exact absurd hneg (by decide)
  · have harg : (callerOf 128).argint 2 = some KERNBASE := by decide
    obtain rfl := Option.some.inj (harg.symm.trans hstack)
    exact absurd huser.below (by decide)

end Kthreads
end CS444
