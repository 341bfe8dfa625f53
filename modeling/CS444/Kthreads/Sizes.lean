/-
The sizes of address spaces.

`sz` is copied to each thread when it is made, while the page directory is
shared; `growproc` changes the directory and the `sz` of one slot.  `Sizes` says
that the threads of a process have its size and that this is how far its pages
reach.  It is an invariant of the runs in which a size is only changed by a
process whose threads have all exited (`SoleSbrk`).
-/
import CS444.Kthreads.Images

namespace CS444
namespace Kthreads

open Runs

variable {C : Type} {s s' : Kernel C} {c : C} {a : Act} {t t' : Table} {p q m np : Slot} {i d : Nat}
  {pick : Pick} {k k' : Ctl} {n : Next}

/-! ## Pages -/

theorem pgRoundUp_mod (x : Nat) : pgRoundUp x % PGSIZE = 0 := by
  rw [pgRoundUp, Nat.mul_mod_left]

theorem le_pgRoundUp (x : Nat) : x ≤ pgRoundUp x := by
  simp only [pgRoundUp, PGSIZE]
  omega

theorem pgRoundUp_lt (x : Nat) : pgRoundUp x < x + PGSIZE := by
  simp only [pgRoundUp, PGSIZE]
  omega

/-- A page that starts below the next page boundary starts below the address. -/
theorem page_lt_pgRoundUp {x b : Nat} : b * PGSIZE < pgRoundUp x ↔ b * PGSIZE < x := by
  simp only [pgRoundUp, PGSIZE]
  omega

theorem pgRoundUp_le_page {x b : Nat} : pgRoundUp x ≤ b * PGSIZE ↔ x ≤ b * PGSIZE := by
  have h := page_lt_pgRoundUp (x := x) (b := b)
  omega

section Aligned

variable {x newsz b : Nat} (hx : x % PGSIZE = 0)

include hx

theorem page_of_aligned : x / PGSIZE * PGSIZE = x :=
  Nat.div_mul_cancel (Nat.dvd_of_mod_eq_zero hx)

theorem aligned_next : (x + PGSIZE) % PGSIZE = 0 := by
  rw [Nat.add_mod_right, hx]

/-- The pages below the next boundary are those below and the one at it. -/
theorem page_lt_next : b * PGSIZE < x + PGSIZE ↔ b * PGSIZE < x ∨ b = x / PGSIZE := by
  simp only [PGSIZE] at *
  omega

theorem next_le_page : x + PGSIZE ≤ b * PGSIZE ↔ x ≤ b * PGSIZE ∧ b ≠ x / PGSIZE := by
  simp only [PGSIZE] at *
  omega

/-- Pages below the first boundary from `newsz` on. -/
theorem page_lt_of_lt (hlt : x < newsz + PGSIZE) (hb : b * PGSIZE < x) : b * PGSIZE < newsz := by
  simp only [PGSIZE] at *
  omega

end Aligned

/-! ## The invariant -/

/-- What `growproc(n)` makes of the size `sz`, as an `int` sum. -/
def newSize (sz : Nat) (n : Int) : Nat := (((sz : Int) + n) % 2 ^ 32).toNat

/-- Does `sbrk(n)` go on to the page table? -/
def resizes (sz : Nat) (n : Int) : Prop :=
  0 < n ∧ sz ≤ newSize sz n ∧ newSize sz n < KERNBASE ∨ n < 0 ∧ newSize sz n < sz

/-- `sbrk` changes the size of processes whose threads have all exited, and not
to zero. -/
structure SoleSbrk (s : Kernel C) (l : C × Act) : Prop extends SoleExec s l where
  sbrk : ∀ p i n, s.cpu l.1 = some (p, i) → (s.table.proc p).ctl = .user →
    l.2 = .run (.call (.sbrk n)) → resizes (s.table.proc p).sz n →
      Sole s.table p ∧ (n < 0 → newSize (s.table.proc p).sz n ≠ 0)

instance (sz : Nat) (n : Int) : Decidable (resizes sz n) := inferInstanceAs (Decidable (_ ∨ _))

/-- The argument of `sbrk`. -/
def Act.sbrk : Act → Option Int
  | .run (.call (.sbrk n)) => some n
  | _ => none

theorem sbrk_eq_some {a : Act} {n : Int} : a.sbrk = some n ↔ a = .run (.call (.sbrk n)) := by
  unfold Act.sbrk
  split
  · simp
  · rename_i hno
    refine ⟨fun h => absurd h (by simp), ?_⟩
    rintro rfl
    exact absurd rfl (hno n)

instance (s : Kernel C) (l : C × Act) : Decidable (SoleSbrk s l) :=
  decidable_of_iff (SoleExec s l ∧ ∀ p i, s.cpu l.1 = some (p, i) → (s.table.proc p).ctl = .user →
    ∀ n ∈ l.2.sbrk, resizes (s.table.proc p).sz n →
      Sole s.table p ∧ (n < 0 → newSize (s.table.proc p).sz n ≠ 0))
    ⟨fun h => ⟨h.1, fun p i n hcpu hk ha => h.2 p i hcpu hk n (sbrk_eq_some.mpr ha)⟩,
      fun h => ⟨h.toSoleExec, fun p i hcpu hk n ha =>
        h.sbrk p i n hcpu hk (sbrk_eq_some.mp ha)⟩⟩

/-- The user pages of `p` are those below `sz`. -/
def Reaches (t : Table) (p : Slot) (sz : Nat) : Prop :=
  ∀ b, t.mapped (t.proc p).pgdir b = true ↔ b * PGSIZE < sz

/-- How far the pages of `p` reach when it is at `k`. -/
def Extent (t : Table) (p : Slot) (k : Ctl) : Prop :=
  match k.core with
  | .growAlloc newsz a => Sole t p ∧ a % PGSIZE = 0 ∧ pgRoundUp (t.proc p).sz ≤ a ∧
      a < newsz + PGSIZE ∧ Reaches t p a
  | .growFree a stop r => Sole t p ∧ a % PGSIZE = 0 ∧
      pgRoundUp (if r = 0 then (t.proc p).sz else r) ≤ a ∧ ∀ b,
        (b * PGSIZE < (if r = 0 then (t.proc p).sz else r) →
          t.mapped (t.proc p).pgdir b = true) ∧
        (t.mapped (t.proc p).pgdir b = true →
          b * PGSIZE < (if r = 0 then (t.proc p).sz else r) ∨ a ≤ b * PGSIZE ∧ b * PGSIZE < stop)
  | .growStore sz => (sz = (t.proc p).sz ∨ Sole t p) ∧
      ((t.proc p).is_thread = false → Reaches t p sz)
  | _ => (t.proc p).is_thread = false → Reaches t p (t.proc p).sz

/-- A forked process that is about to be published. -/
def Built (t : Table) (k : Ctl) : Prop :=
  ∀ np, k.core = .publish np none → Reaches t np (t.proc np).sz

structure Sizes (t : Table) : Prop where
  extent : ∀ p, (t.proc p).Active → Extent t p (t.proc p).ctl
  built : ∀ p, (t.proc p).Active → Built t (t.proc p).ctl
  shared : ∀ q m, ThreadOf t q m → (t.proc q).state ≠ .zombie → (t.proc q).sz = (t.proc m).sz

/-! ## One step -/

/-- What a step from `k` does to the user pages. -/
inductive Mapping (t t' : Table) (p : Slot) (k : Ctl) : Prop
  | same : t'.mapped = t.mapped → Mapping t t' p k
  | built (d : Nat) (pages : Nat → Bool) : t.live d = false →
      t'.mapped = Function.update t.mapped d pages → Mapping t t' p k
  | held (d : Nat) (pages : Nat → Bool) : k.directory t = some d →
      t'.mapped = Function.update t.mapped d pages → Mapping t t' p k
  | page (pages : Nat → Bool) :
      (∃ newsz a, k = .growAlloc newsz a) ∨ (∃ a stop r, k = .growFree a stop r) →
      t'.mapped = Function.update t.mapped (t.proc p).pgdir pages → Mapping t t' p k

theorem body_mapping (h : BodyStep t p k t' n) : Mapping t t' p k := by
  cases h with
  | forkSetup np d hfree | execSetup d hfree => exact .built d _ hfree rfl
  | forkCopy np d => exact .held d _ rfl rfl
  | execCommit d sz => exact .held d _ rfl rfl
  | growMap newsz a => exact .page _ (Or.inl ⟨newsz, a, rfl⟩) rfl
  | growUnmap a stop r => exact .page _ (Or.inr ⟨a, stop, r, rfl⟩) rfl
  | exitSched => exact .same (by rw [exitBody_rest])
  | _ => exact .same rfl

/-- The slots whose size a step leaves alone. -/
theorem body_sz (h : BodyStep t p k t' n) (hfork : ∀ d, k ≠ .forkCopy q d)
    (hlink : ∀ owner, k ≠ .storeParent q owner) (hjoin : ∀ owner tid v, k ≠ .joinTake owner tid q v)
    (hexec : q = p → ∀ d, k ≠ .execBuilt d) (hgrow : q = p → ∀ sz, k ≠ .growStore sz) :
    (t'.proc q).sz = (t.proc q).sz := by
  cases h with
  | alloc => exact takeSlot_keeps Proc.sz fun _ _ _ => rfl
  | newborn => exact initSlot_keeps Proc.sz fun _ _ => rfl
  | forkCopy np d =>
      have hne : q ≠ np := by
        rintro rfl
        exact hfork d rfl
      rw [copyImage, Table.set_of_ne hne]
      rfl
  | storeParent np owner =>
      have hne : q ≠ np := by
        rintro rfl
        exact hlink owner rfl
      rw [linkThread, Table.set_of_ne hne]
  | storeTid => exact takeTid_keeps Proc.sz (fun _ _ => rfl) fun _ _ => rfl
  | joinTake owner tid q' v =>
      have hne : q ≠ q' := by
        rintro rfl
        exact hjoin owner tid v rfl
      rw [takeThread, Table.joinReset, Table.set_of_ne hne]
      exact Table.set_keeps Proc.sz fun _ => rfl
  | threadExit2 => exact threadZombie_keeps Proc.sz fun _ _ => rfl
  | exitSched => exact exitBody_keeps Proc.sz (fun _ _ => rfl) fun _ _ => rfl
  | waitTake => exact waitReset_keeps Proc.sz fun _ => rfl
  | execCommit d sz =>
      have hne : q ≠ p := fun hqp => hexec hqp d rfl
      rw [commitImage, Table.set_of_ne hne]
      rfl
  | growStore sz =>
      have hne : q ≠ p := fun hqp => hgrow hqp sz rfl
      rw [Table.set_of_ne hne]
  | _ => first | rfl | exact Table.set_keeps Proc.sz fun _ => rfl

theorem reaches_congr {sz : Nat} (hpgdir : (t'.proc p).pgdir = (t.proc p).pgdir)
    (hmapped : t'.mapped (t.proc p).pgdir = t.mapped (t.proc p).pgdir) :
    Reaches t' p sz ↔ Reaches t p sz := by
  rw [Reaches, Reaches, hpgdir, hmapped]

theorem Built.congr (hbuilt : Built t k) (hcore : k'.core = k.core)
    (hsame : ∀ np, k.core = .publish np none → (t'.proc np).sz = (t.proc np).sz ∧
      (t'.proc np).pgdir = (t.proc np).pgdir ∧
      t'.mapped (t.proc np).pgdir = t.mapped (t.proc np).pgdir) : Built t' k' := by
  intro np hnp
  rw [hcore] at hnp
  obtain ⟨hsz, hpgdir, hmapped⟩ := hsame np hnp
  rw [hsz]
  exact (reaches_congr hpgdir hmapped).mpr (hbuilt np hnp)

theorem body_built (h : BodyStep t p k t' n) (hbuilt : Built t k) : Built t' n.ctl := by
  cases h with
  | preempt k | block m k => exact hbuilt
  | yieldSched k | sleepSched m k =>
      refine hbuilt.congr rfl fun q _ => ⟨?_, ?_, rfl⟩
      · exact Table.set_keeps Proc.sz fun _ => rfl
      · exact Table.set_keeps Proc.pgdir fun _ => rfl
  | call sc k hstart =>
      intro np hnp
      have hnone := start_directory hstart t
      rw [Ctl.directory, show k.core = .publish np none from hnp] at hnone
      exact absurd hnone (by simp)
  | newborn thread np' =>
      intro np hnp
      cases thread <;> exact absurd hnp (by simp [Next.ctl, Ctl.core])
  | forkCopy np' d =>
      intro np hnp b
      obtain rfl : np' = np := by simpa [Next.ctl, Ctl.core] using hnp
      have hpages : (copyImage t p np' d).mapped d = below (t.proc p).sz := Function.update_self ..
      simp only [copyImage, Table.set_self] at hpages ⊢
      rw [hpages]
      exact decide_eq_true_iff
  | _ =>
      intro np hnp
      exact absurd hnp (by simp [Next.ctl, Ctl.core])

/-- What `Extent` looks at. -/
theorem Extent.congr (h : Extent t p k) (hcore : k'.core = k.core)
    (hsz : (t'.proc p).sz = (t.proc p).sz)
    (hthread : (t'.proc p).is_thread = (t.proc p).is_thread)
    (hpgdir : (t'.proc p).pgdir = (t.proc p).pgdir)
    (hmapped : (t.proc p).is_thread = false →
      t'.mapped (t.proc p).pgdir = t.mapped (t.proc p).pgdir)
    (hsole : Sole t p → Sole t' p) : Extent t' p k' := by
  have hreach : ∀ sz, ((t.proc p).is_thread = false → Reaches t p sz) →
      (t'.proc p).is_thread = false → Reaches t' p sz := by
    intro sz hsz hself
    rw [hthread] at hself
    exact (reaches_congr hpgdir (hmapped hself)).mpr (hsz hself)
  unfold Extent at h ⊢
  rw [hcore]
  generalize k.core = k at h ⊢
  cases k with
  | growAlloc newsz a =>
      obtain ⟨hs, halign, hlow, hhigh, hr⟩ := h
      rw [hsz]
      exact ⟨hsole hs, halign, hlow, hhigh, (reaches_congr hpgdir (hmapped hs.1)).mpr hr⟩
  | growFree a stop r =>
      obtain ⟨hs, halign, hlow, hr⟩ := h
      rw [hsz, hpgdir, hmapped hs.1]
      exact ⟨hsole hs, halign, hlow, hr⟩
  | growStore sz =>
      rw [hsz]
      exact ⟨h.1.imp_right hsole, hreach _ h.2⟩
  | _ =>
      show _ → _
      rw [hsz]
      exact hreach _ h

/-- `exec` commits to pages that reach as far as its size says. -/
theorem commitImage_reaches (t : Table) (p : Slot) (d sz : Nat) :
    Reaches (commitImage t p d sz) p ((commitImage t p d sz).proc p).sz := by
  intro b
  have hpages : (commitImage t p d sz).mapped d = below sz := Function.update_self ..
  simp only [commitImage, Table.set_self] at hpages ⊢
  rw [hpages]
  exact decide_eq_true_iff

theorem setPage_mapped (t : Table) (p : Slot) (a : Nat) (present : Bool) :
    (setPage t p a present).mapped (t.proc p).pgdir =
      Function.update (t.mapped (t.proc p).pgdir) (a / PGSIZE) present :=
  Function.update_self ..

/-- What a system call is about to do with the pages. -/
theorem start_extent {sc : Syscall}
    (hsbrk : ∀ n, sc = .sbrk n → resizes (t.proc p).sz n →
      Sole t p ∧ (n < 0 → newSize (t.proc p).sz n ≠ 0))
    (hold : (t.proc p).is_thread = false → Reaches t p (t.proc p).sz)
    (hstart : start t p sc = some k) : Extent t p k := by
  have hkeep : Extent t p (.growStore (t.proc p).sz) := ⟨Or.inl rfl, hold⟩
  cases sc with
  | sbrk n =>
      have hsole := hsbrk n rfl
      have hnew : newSize (t.proc p).sz n = (((t.proc p).sz + n) % 2 ^ 32).toNat := rfl
      simp only [start, ← hnew] at hstart
      unfold resizes at hsole
      generalize newSize (t.proc p).sz n = newsz at hstart hsole
      split at hstart
      · rename_i hn
        repeat' split at hstart
        · obtain rfl := Option.some.inj hstart
          exact hold
        · obtain rfl := Option.some.inj hstart
          exact hkeep
        · rename_i hlow hge
          obtain rfl := Option.some.inj hstart
          have hone := (hsole (Or.inl ⟨hn, by omega, by omega⟩)).1
          have hnext := pgRoundUp_lt (t.proc p).sz
          refine ⟨hone, pgRoundUp_mod _, le_refl _, by omega, fun b => ?_⟩
          rw [page_lt_pgRoundUp]
          exact hold hone.1 b
      · rename_i hn
        repeat' split at hstart
        · obtain rfl := Option.some.inj hstart
          exact hold
        · obtain rfl := Option.some.inj hstart
          exact hkeep
        · rename_i hneg hlt
          obtain rfl := Option.some.inj hstart
          obtain ⟨hone, hne⟩ := hsole (Or.inr ⟨hneg, by omega⟩)
          have hzero := hne hneg
          refine ⟨hone, pgRoundUp_mod _, ?_, fun b => ?_⟩
          · rw [if_neg hzero]
          · rw [if_neg hzero, hold hone.1 b, pgRoundUp_le_page]
            exact ⟨fun hb => by omega, fun hb => by omega⟩
        · obtain rfl := Option.some.inj hstart
          exact hkeep
  | _ =>
      simp only [start] at hstart
      repeat' split at hstart
      all_goals cases hstart <;> exact hold

namespace Takes

variable (h : Takes s c p i pick t n) (hfam : Family s.table)

include h

/-- The pages of a directory that neither the step's thread nor its code holds. -/
theorem mapped_same (hi : Images s.table) (hs : Sizes s.table) {x : Holder}
    (hx : Holds s.table x d) (hne : x ≠ .working p)
    (hgrow : x = .image p → (∀ newsz a, (s.table.proc p).ctl ≠ .growAlloc newsz a) ∧
      ∀ a stop r, (s.table.proc p).ctl ≠ .growFree a stop r) :
    t.mapped d = s.table.mapped d := by
  cases body_mapping h.body with
  | same hmapped => rw [hmapped]
  | built d' pages hfree hmapped =>
      have hd : d ≠ d' := by
        rintro rfl
        exact absurd ((hi.live x d hx).symm.trans hfree) (by simp)
      rw [hmapped, Function.update_of_ne hd]
  | held d' pages hdir hmapped =>
      have hd : d ≠ d' := by
        rintro rfl
        exact hne (hi.sole x _ d hx ⟨h.active, hdir⟩)
      rw [hmapped, Function.update_of_ne hd]
  | page pages hk hmapped =>
      have hextent := hs.extent p h.active
      have hself : (s.table.proc p).is_thread = false := by
        rcases hk with ⟨newsz, a, hk⟩ | ⟨a, stop, r, hk⟩
        · rw [hk] at hextent
          exact hextent.1.1
        · rw [hk] at hextent
          exact hextent.1.1
      have hd : d ≠ (s.table.proc p).pgdir := by
        rintro rfl
        have hp := hi.sole x (.image p) _ hx ⟨h.active.used, hself, rfl⟩
        rcases hk with ⟨newsz, a, hk⟩ | ⟨a, stop, r, hk⟩
        · exact (hgrow hp).1 newsz a hk
        · exact (hgrow hp).2 a stop r hk
      rw [hmapped, Function.update_of_ne hd]

/-- What a step does to sizes: only `exec` and `growproc` change that of a slot
in use. -/
theorem sz_cases (hs : Sizes s.table) (hfork : ∀ d, (s.table.proc p).ctl ≠ .forkCopy q d)
    (hlink : ∀ owner, (s.table.proc p).ctl ≠ .storeParent q owner)
    (hjoin : ∀ owner tid v, (s.table.proc p).ctl ≠ .joinTake owner tid q v) :
    (t.proc q).sz = (s.table.proc q).sz ∨ q = p ∧
      ((∃ d sz, (s.table.proc p).ctl = .execBuilt d ∧ pick = .image sz) ∨ Sole s.table p) := by
  by_cases hqp : q = p
  · subst hqp
    by_cases hexec : ∃ d, (s.table.proc q).ctl = .execBuilt d
    · obtain ⟨d, hk⟩ := hexec
      have hstep := h.step
      rw [hk] at hstep
      rcases body_exec hstep with ⟨sz, hpick⟩ | ⟨rfl, -⟩
      · exact Or.inr ⟨rfl, Or.inl ⟨d, sz, hk, hpick⟩⟩
      · exact Or.inl rfl
    by_cases hgrow : ∃ sz, (s.table.proc q).ctl = .growStore sz
    · obtain ⟨sz, hk⟩ := hgrow
      have hextent := hs.extent q h.active
      rw [hk] at hextent
      rcases hextent.1 with hsame | hsole
      · have hbody := h.body
        rw [hk] at hbody
        cases hbody with
        | preempt | block => exact Or.inl rfl
        | growStore => exact Or.inl (by rw [Table.set_self]; exact hsame)
      · exact Or.inr ⟨rfl, Or.inr hsole⟩
    exact Or.inl (body_sz h.body hfork hlink hjoin (fun _ d hk => hexec ⟨d, hk⟩)
      fun _ sz hk => hgrow ⟨sz, hk⟩)
  · exact Or.inl (body_sz h.body hfork hlink hjoin (fun hp => absurd hp hqp)
      fun hp => absurd hp hqp)

include hfam

/-- A process whose threads have exited stays so while it makes none. -/
theorem sole_step (hq : (s.table.proc q).Active) (hsole : Sole s.table q)
    (hlink : q = p → ∀ np owner, (s.table.proc p).ctl ≠ .storeParent np owner) : Sole t q := by
  obtain ⟨hself, hzombie⟩ := hsole
  refine ⟨(h.process_same hfam hq).1.trans hself, fun r hr => ?_⟩
  rcases h.thread_new hfam hr with hold | ⟨hk, -, howner⟩
  · rcases h.exited_step hfam ⟨hzombie r hold, hold.1⟩ with ⟨hkeep, -⟩ | ⟨hnone, -⟩
    · exact hkeep.1
    · exact absurd (hnone.symm.trans hr.2) (by simp)
  · rw [process] at howner
    split at howner
    · rename_i hthread
      exact absurd ((hzombie p ⟨hthread, howner⟩).symm.trans h.run) (by decide)
    · exact absurd hk (hlink (Option.some.inj howner).symm r _)

/-- The pages of another process. -/
theorem extent_other (hi : Images s.table) (hs : Sizes s.table) (hqp : q ≠ p)
    (hq : (s.table.proc q).Active) : Extent t q (s.table.proc q).ctl := by
  have hmake : (s.table.proc p).ctl.creating ≠ some q := fun hk =>
    absurd rfl (hq.not (h.embryo hk)).2.1
  refine (hs.extent q hq).congr rfl ?_ (h.process_same hfam hq).1 (h.pgdir_same hmake hqp)
    (fun hself => ?_) fun hsole => h.sole_step hfam hq hsole fun hp => absurd hp hqp
  · have hmaking : ∀ k : Ctl, k.creating = some q → (s.table.proc p).ctl ≠ k := by
      rintro k hk rfl
      exact hmake hk
    refine body_sz h.body (fun d => hmaking _ rfl) (fun _ => hmaking _ rfl)
      (fun owner tid v hk => ?_) (fun hp => absurd hp hqp) fun hp => absurd hp hqp
    exact absurd rfl (hq.not (h.inv.reaps h.cpu h.run (Or.inl ⟨owner, tid, v, hk⟩)).1).2.2
  · refine h.mapped_same hi hs (x := .image q) ⟨hq.used, hself, rfl⟩ (by simp) fun heq => ?_
    exact absurd (Holder.image.inj heq) hqp

/-- The pages of a process that is not in the middle of `exec` or `sbrk`. -/
theorem settled (hi : Images s.table) (hs : Sizes s.table) (hk : (s.table.proc p).ctl = k)
    (hexec : ∀ d, k ≠ .execBuilt d) (halloc : ∀ newsz a, k ≠ .growAlloc newsz a)
    (hfree : ∀ a stop r, k ≠ .growFree a stop r) (hstore : ∀ sz, k ≠ .growStore sz)
    (hold : (s.table.proc p).is_thread = false → Reaches s.table p (s.table.proc p).sz) :
    (t.proc p).is_thread = false → Reaches t p (t.proc p).sz := by
  subst hk
  intro hself
  rw [(h.process_same hfam h.active).1] at hself
  have hmaking : ∀ k : Ctl, k.creating = some p → (s.table.proc p).ctl ≠ k := by
    rintro k hk rfl
    exact absurd (h.run.symm.trans (h.embryo hk)) (by decide)
  have hjoin : ∀ owner tid v, (s.table.proc p).ctl ≠ .joinTake owner tid p v :=
    fun owner tid v hk =>
      absurd (h.run.symm.trans (h.inv.reaps h.cpu h.run (Or.inl ⟨owner, tid, v, hk⟩)).1)
        (by decide)
  have hsz := body_sz h.body (fun d => hmaking _ rfl) (fun _ => hmaking _ rfl) hjoin
    (fun _ => hexec) fun _ => hstore
  have hpgdir : (t.proc p).pgdir = (s.table.proc p).pgdir := by
    rcases h.pgdir_cases (fun _ => hmaking _ rfl) (fun d => hmaking _ rfl) with
      hsame | ⟨-, d, -, hk, -⟩
    · exact hsame
    · exact absurd hk (hexec d)
  have hmapped := h.mapped_same hi hs (x := .image p) ⟨h.active.used, hself, rfl⟩ (by simp)
    fun _ => ⟨halloc, hfree⟩
  rw [hsz]
  exact (reaches_congr hpgdir hmapped).mpr (hold hself)

/-- The pages of the step's own process. -/
theorem extent_self (hi : Images s.table) (hs : Sizes s.table)
    (hok : SoleSbrk s (c, .run pick)) : Extent t p n.ctl := by
  have hact := h.active
  have hextent := hs.extent p hact
  have hsettled := fun k => h.settled hfam (k := k) hi hs
  have hsole : ∀ k, (s.table.proc p).ctl = k → (∀ np owner, k ≠ .storeParent np owner) →
      Sole s.table p → Sole t p := by
    rintro k rfl hlink hone
    exact h.sole_step hfam hact hone fun _ => hlink
  have hbody := h.body
  generalize hk : (s.table.proc p).ctl = k at hbody hextent hsettled hsole
  cases hbody with
  | preempt k _ hopen | block m k _ hopen => exact hextent
  | yieldSched k | sleepSched m k =>
      refine hextent.congr rfl ?_ ?_ ?_ (fun _ => rfl) (hsole _ rfl (by simp))
      · exact Table.set_keeps Proc.sz fun _ => rfl
      · exact Table.set_keeps Proc.is_thread fun _ => rfl
      · exact Table.set_keeps Proc.pgdir fun _ => rfl
  | call sc k hstart =>
      have hstep := h.step
      rw [hk] at hstep
      rcases body_call hstep with ⟨sc', rfl, hstart'⟩ | rfl | ⟨m, rfl⟩
      · refine start_extent (fun n hsc => ?_) hextent hstart'
        exact hok.sbrk p i n h.cpu hk (by rw [hsc])
      · exact hextent
      · exact hextent
  | newborn thread np =>
      cases thread <;>
        exact hsettled _ rfl (by simp) (by simp) (by simp) (by simp) hextent
  | execCommit d sz => exact fun _ => commitImage_reaches _ p d sz
  | execBad d => exact hextent
  | growMap newsz a hlt hfree =>
      obtain ⟨hone, halign, hlow, hhigh, hr⟩ : _ ∧ _ := hextent
      have hlow' : pgRoundUp (s.table.proc p).sz ≤ a + PGSIZE := by omega
      refine ⟨hsole _ rfl (by simp) hone, aligned_next halign, hlow', by omega, fun b => ?_⟩
      show (setPage s.table p a true).mapped (s.table.proc p).pgdir b = true ↔ _
      rw [setPage_mapped, Function.update_apply, page_lt_next halign, ← hr b]
      split <;> simp [*]
  | growFail newsz a hlt =>
      obtain ⟨hone, halign, hlow, hhigh, hr⟩ : _ ∧ _ := hextent
      refine ⟨hone, pgRoundUp_mod _, le_refl _, fun b => ?_⟩
      have hsz := le_pgRoundUp (s.table.proc p).sz
      rw [if_pos rfl, hr b, pgRoundUp_le_page]
      refine ⟨fun hb => by omega, fun hb => ?_⟩
      have hstop := page_lt_of_lt halign hhigh hb
      omega
  | growMapped newsz a hge =>
      obtain ⟨hone, halign, -, hhigh, hr⟩ : _ ∧ _ := hextent
      refine ⟨Or.inr hone, fun _ b => ?_⟩
      rw [hr b]
      exact ⟨page_lt_of_lt halign hhigh, fun hb => by omega⟩
  | growUnmap a stop r hlt =>
      obtain ⟨hone, halign, hlow, hr⟩ : _ ∧ _ := hextent
      have hlow' : pgRoundUp (if r = 0 then (s.table.proc p).sz else r) ≤ a + PGSIZE := by omega
      refine ⟨hsole _ rfl (by simp) hone, aligned_next halign, hlow', fun b => ?_⟩
      show (_ → (setPage s.table p a false).mapped (s.table.proc p).pgdir b = true) ∧
        ((setPage s.table p a false).mapped (s.table.proc p).pgdir b = true → _)
      have hkeep := le_pgRoundUp (if r = 0 then (s.table.proc p).sz else r)
      have hpage := page_of_aligned halign
      rw [setPage_mapped, Function.update_apply, next_le_page halign]
      refine ⟨fun hb => ?_, fun hb => ?_⟩
      · have hne : b ≠ a / PGSIZE := by
          rintro rfl
          exact absurd hb (by show ¬_ < if r = 0 then (s.table.proc p).sz else r; omega)
        rw [if_neg hne]
        exact (hr b).1 hb
      · split at hb
        · exact absurd hb (by simp)
        · rename_i hne
          exact ((hr b).2 hb).imp_right fun hhigh => ⟨⟨hhigh.1, hne⟩, hhigh.2⟩
  | growFailed a stop hge =>
      obtain ⟨-, -, -, hr⟩ : _ ∧ _ := hextent
      refine fun _ b => ⟨fun hb => ?_, (hr b).1⟩
      rcases (hr b).2 hb with hlow | hhigh
      · exact hlow
      · omega
  | growFreed a stop r hge hne =>
      obtain ⟨hone, -, -, hr⟩ : _ ∧ _ := hextent
      rw [if_neg hne] at hr
      refine ⟨Or.inr hone, fun _ b => ⟨fun hb => ?_, (hr b).1⟩⟩
      rcases (hr b).2 hb with hlow | hhigh
      · exact hlow
      · omega
  | growStore sz =>
      obtain ⟨-, hr⟩ : _ ∧ _ := hextent
      intro hself
      rw [Table.set_self] at hself
      simp only [Reaches, Table.set_self]
      exact hr hself
  | _ => exact hsettled _ rfl (by simp) (by simp) (by simp) (by simp) hextent

omit hfam in
/-- A process about to be published by another thread. -/
theorem built_other (hi : Images s.table) (hs : Sizes s.table) (hqp : q ≠ p)
    (hq : (s.table.proc q).Active) : Built t (s.table.proc q).ctl := by
  refine (hs.built q hq).congr rfl fun np hnp => ?_
  have hmaking : (s.table.proc q).ctl.creating = some np := by
    rw [← Ctl.creating_core, hnp]
    rfl
  have hembryo := h.inv.embryo q np hq hmaking
  have hmake : (s.table.proc p).ctl.creating ≠ some np := fun hk => h.not_maker hqp hq hk hmaking
  have hnpp : np ≠ p := by
    rintro rfl
    exact absurd (hembryo.symm.trans h.run) (by decide)
  have hk : ∀ k : Ctl, k.creating = some np → (s.table.proc p).ctl ≠ k := by
    rintro k hk rfl
    exact hmake hk
  refine ⟨?_, h.pgdir_same hmake hnpp, ?_⟩
  · refine body_sz h.body (fun d => hk _ rfl) (fun _ => hk _ rfl) (fun owner tid v hjoin => ?_)
      (fun heq => absurd heq hnpp) fun heq => absurd heq hnpp
    have hzombie := (h.inv.reaps h.cpu h.run (Or.inl ⟨owner, tid, v, hjoin⟩)).1
    exact absurd (hzombie.symm.trans hembryo) (by decide)
  · refine h.mapped_same hi hs (x := .working q) ⟨hq, ?_⟩ (by simpa using hqp) (by simp)
    rw [Ctl.directory, hnp]

/-- A slot that was just published. -/
theorem extent_new {owner : Option Slot} (hs : Sizes s.table)
    (hk : (s.table.proc p).ctl = .publish q owner) : Extent t q (.release .user) := by
  show _ → _
  have hbody := h.body
  have hstage := h.stage hfam hk
  have hbuilt := hs.built p h.active
  rw [hk] at hbody hbuilt
  intro hself
  cases hbody with
  | preempt _ _ hopen | block _ _ _ hopen => exact absurd hopen (by simp [Ctl.locked])
  | publish =>
      cases owner with
      | some owner =>
          have hlinked : Linked s.table p q owner := hstage
          rw [Table.set_self] at hself
          exact absurd (hself.symm.trans hlinked.1.1) (by simp)
      | none =>
          have hreach := hbuilt q rfl
          simp only [Reaches, Table.set_self]
          exact hreach

/-- Threads that have not exited have the size of their process. -/
theorem sz_shared (hs : Sizes s.table) (hok : SoleSbrk s (c, .run pick))
    (hq : ThreadOf t q m) (hlive : (t.proc q).state ≠ .zombie) :
    (t.proc q).sz = (t.proc m).sz := by
  have hreap : ∀ r owner tid v, (s.table.proc p).ctl = .joinTake owner tid r v →
      (s.table.proc r).state = .zombie := fun r owner tid v hk =>
    (h.inv.reaps h.cpu h.run (Or.inl ⟨owner, tid, v, hk⟩)).1
  have hhost : (s.table.proc m).Active →
      (t.proc m).sz = (s.table.proc m).sz ∨ m = p ∧ Sole s.table p := by
    intro hact
    have hmaking : ∀ k : Ctl, k.creating = some m → (s.table.proc p).ctl ≠ k := by
      rintro k hk rfl
      exact absurd rfl (hact.not (h.embryo hk)).2.1
    have hjoin : ∀ owner tid v, (s.table.proc p).ctl ≠ .joinTake owner tid m v :=
      fun owner tid v hk => absurd rfl (hact.not (hreap m owner tid v hk)).2.2
    rcases h.sz_cases hs (fun d => hmaking _ rfl) (fun _ => hmaking _ rfl) hjoin with
      hsame | ⟨rfl, ⟨d, sz, hk, rfl⟩ | hsole⟩
    · exact Or.inl hsame
    · exact Or.inr ⟨rfl, hok.exec m i d sz h.cpu hk rfl⟩
    · exact Or.inr ⟨rfl, hsole⟩
  rcases h.thread_new hfam hq with hold | ⟨hk, hgo, howner⟩
  · have hzombie : (s.table.proc q).state ≠ .zombie := by
      intro hzombie
      rcases h.exited_step hfam ⟨hzombie, hold.1⟩ with ⟨hkeep, -⟩ | ⟨hnone, -⟩
      · exact hlive hkeep.1
      · exact absurd (hnone.symm.trans hq.2) (by simp)
    have hfork : ∀ d, (s.table.proc p).ctl ≠ .forkCopy q d := by
      intro d hk
      have hstage : _ ∧ _ := h.stage hfam hk
      exact absurd (hstage.1.symm.trans hold.2) (by simp)
    have hlink : ∀ owner, (s.table.proc p).ctl ≠ .storeParent q owner := by
      intro owner hk
      have hstage : _ ∧ _ := h.stage hfam hk
      exact absurd (hstage.1.1.symm.trans hold.2) (by simp)
    have hthread : (t.proc q).sz = (s.table.proc q).sz := by
      rcases h.sz_cases hs hfork hlink (fun owner tid v hk => hzombie (hreap q owner tid v hk)) with
        hsame | ⟨rfl, ⟨d, sz, hk, rfl⟩ | hsole⟩
      · exact hsame
      · exact absurd ((hok.exec q i d sz h.cpu hk rfl).1.symm.trans hold.1) (by simp)
      · exact absurd (hsole.1.symm.trans hold.1) (by simp)
    rcases hhost (hfam.host q m hold).1 with hsame | ⟨rfl, hsole⟩
    · rw [hthread, hsame]
      exact hs.shared q m hold hzombie
    · exact absurd (hsole.2 q hold) hzombie
  · have hmine : (s.table.proc p).sz = (s.table.proc m).sz := by
      rw [process] at howner
      split at howner
      · rename_i hself
        exact hs.shared p m ⟨hself, howner⟩ (by simp [h.run])
      · rw [Option.some.inj howner]
    have hmq : m ≠ q := by
      rintro rfl
      exact absurd ((h.host_step hfam hq).2.symm.trans hq.1) (by simp)
    have hbody := h.body
    rw [hk] at hbody
    cases hbody with
    | preempt | block => exact absurd hgo (by simp [Next.ctl])
    | storeParent np owner =>
        rw [linkThread, Table.set_self, Table.set_of_ne hmq]
        exact hmine

theorem sizes (hi : Images s.table) (hs : Sizes s.table) (hok : SoleSbrk s (c, .run pick)) :
    Sizes (t.goto p n.ctl) := by
  have hgoto : ∀ {α : Type} (g : Proc → α) q, (∀ r k, g { r with ctl := k } = g r) →
      g ((t.goto p n.ctl).proc q) = g (t.proc q) := fun g q hg => goto_keeps g hg
  have hsole : ∀ q, Sole t q → Sole (t.goto p n.ctl) q := by
    intro q hq
    refine ⟨(hgoto Proc.is_thread q fun _ _ => rfl).trans hq.1, fun r hr => ?_⟩
    rw [goto_state]
    exact hq.2 r (threadOf_goto.mp hr)
  constructor
  case extent =>
    intro q hq
    rw [goto_active] at hq
    have hextent : Extent t q ((t.goto p n.ctl).proc q).ctl := by
      by_cases hqp : q = p
      · subst hqp
        rw [goto_ctl_self]
        exact h.extent_self hfam hi hs hok
      · rw [goto_of_ne hqp]
        rcases h.was_active hqp hq with ⟨hold, hctl⟩ | ⟨hctl, owner, hk⟩
        · rw [hctl]
          exact h.extent_other hfam hi hs hqp hold
        · rw [hctl]
          exact h.extent_new hfam hs hk
    exact hextent.congr rfl (hgoto Proc.sz q fun _ _ => rfl) (hgoto Proc.is_thread q fun _ _ => rfl)
      (hgoto Proc.pgdir q fun _ _ => rfl) (fun _ => rfl) (hsole q)
  case built =>
    intro q hq
    rw [goto_active] at hq
    have hbuilt : Built t ((t.goto p n.ctl).proc q).ctl := by
      by_cases hqp : q = p
      · subst hqp
        rw [goto_ctl_self]
        exact body_built h.body (hs.built q h.active)
      · rw [goto_of_ne hqp]
        rcases h.was_active hqp hq with ⟨hold, hctl⟩ | ⟨hctl, -⟩
        · rw [hctl]
          exact h.built_other hi hs hqp hold
        · rw [hctl]
          intro np hnp
          exact absurd hnp (by simp [Ctl.core])
    exact hbuilt.congr rfl fun np _ =>
      ⟨hgoto Proc.sz np fun _ _ => rfl, hgoto Proc.pgdir np fun _ _ => rfl, rfl⟩
  case shared =>
    intro q m hq hlive
    rw [hgoto Proc.sz q fun _ _ => rfl, hgoto Proc.sz m fun _ _ => rfl]
    exact h.sz_shared hfam hs hok (threadOf_goto.mp hq) (goto_state.symm.trans_ne hlive)

end Takes

theorem Sizes.alike (hs : Sizes t) (h : Alike t t') : Sizes t' := by
  have hsz := h.keeps Proc.sz fun _ _ _ => rfl
  have hpgdir := h.keeps Proc.pgdir fun _ _ _ => rfl
  have hself := h.keeps Proc.is_thread fun _ _ _ => rfl
  have hmapped : t'.mapped = t.mapped := by rw [h.rest]
  have hthread : ∀ q m, ThreadOf t' q m ↔ ThreadOf t q m := fun q m =>
    threadOf_congr (h.keeps Proc.kin (fun _ _ _ => rfl) q)
  have hzombie : ∀ q, (t'.proc q).state = .zombie ↔ (t.proc q).state = .zombie := fun q =>
    h.state_iff (by decide)
  constructor
  case extent =>
    intro p hp
    have hold := (h.active p).mp hp
    refine (hs.extent p hold).congr (h.core p hold) (hsz p) (hself p) (hpgdir p)
      (fun _ => by rw [hmapped]) fun hsole => ⟨(hself p).trans hsole.1, fun q hq => ?_⟩
    exact (hzombie q).mpr (hsole.2 q ((hthread q p).mp hq))
  case built =>
    intro p hp
    have hold := (h.active p).mp hp
    exact (hs.built p hold).congr (h.core p hold) fun np _ => ⟨hsz np, hpgdir np, by rw [hmapped]⟩
  case shared =>
    intro q m hq hstate
    rw [hsz, hsz]
    exact hs.shared q m ((hthread q m).mp hq) fun hz => hstate ((hzombie q).mpr hz)

/-! ## Over a run -/

theorem boot_sizes (h : Boot s) : Sizes s.table := by
  have hthread : ∀ q, (s.table.proc q).is_thread = false := by
    intro q
    by_cases hq : q = initproc
    · rw [hq, h.init]
    · rw [h.unused q hq]
  have hactive : ∀ p, (s.table.proc p).Active → p = initproc := by
    intro p hp
    by_contra hne
    rw [h.unused p hne] at hp
    exact absurd rfl (hp.not rfl).1
  constructor
  case extent =>
    intro p hp
    rw [hactive p hp, h.init]
    intro _ b
    rw [h.init, h.mapped]
    simp only [beq_self_eq_true, Bool.true_and, beq_iff_eq, PGSIZE]
    omega
  case built =>
    intro p hp np hnp
    rw [hactive p hp, h.init] at hnp
    exact absurd hnp (by simp [Ctl.core])
  case shared => exact fun q m hq => absurd hq (not_threadOf (hthread q))

variable [DecidableEq C]

theorem run_sizes {tr : List (C × Act)} (h : Run (kthreads C) SoleSbrk tr s) :
    Running s ∧ Family s.table ∧ Images s.table ∧ Sizes s.table := by
  have hinit : ∀ s, (kthreads C).init s →
      Running s ∧ Family s.table ∧ Images s.table ∧ Sizes s.table := fun _ hboot =>
    ⟨boot_running hboot, boot_family hboot, (boot_images hboot).2, boot_sizes hboot⟩
  refine h.invariant hinit ?_
  rintro s ⟨c, a⟩ s' ⟨hinv, hfam, hi, hs⟩ hstep hok
  have hstep := step_cases hstep
  refine ⟨hinv.step hstep hok.spaced, hfam.step hinv hstep hok.toOrderly, ?_⟩
  rcases hinv.split hstep with halike | ⟨p, i, pick, t, n, rfl, htakes, ht⟩
  · exact ⟨hi.alike halike, hs.alike halike⟩
  · rw [ht]
    exact ⟨htakes.images hfam hi hok.toSoleExec, htakes.sizes hfam hi hs hok⟩

/-- Is the thread in the middle of `growproc`? -/
def Ctl.growing (k : Ctl) : Bool :=
  match k.core with
  | .growAlloc _ _ | .growFree _ _ _ | .growStore _ => true
  | _ => false

/-- Slots with one directory have one size, which is how far the mapped pages
reach when their process is not in `sbrk`; `allocuvm` finds no page mapped, and
only a process whose threads have exited is given a region. -/
theorem sizes_agree {tr : List (C × Act)} (h : Run (kthreads C) SoleSbrk tr s) :
    (∀ q r, (s.table.proc q).Active → (s.table.proc r).Active →
      (s.table.proc q).pgdir = (s.table.proc r).pgdir →
        (s.table.proc q).sz = (s.table.proc r).sz) ∧
    (∀ q m, (s.table.proc q).Active → process s.table q = some m →
      (s.table.proc m).ctl.growing = false → Reaches s.table q (s.table.proc q).sz) ∧
    (∀ p newsz a, (s.table.proc p).Active → (s.table.proc p).ctl = .growAlloc newsz a →
      s.table.mapped (s.table.proc p).pgdir (a / PGSIZE) = false) ∧
    (∀ p sz, (s.table.proc p).Active → (s.table.proc p).ctl = .growStore sz →
      sz ≠ (s.table.proc p).sz → Sole s.table p) := by
  obtain ⟨hinv, hfam, hi, hs⟩ := run_sizes h
  have hhost : ∀ q m, (s.table.proc q).Active → process s.table q = some m →
      (s.table.proc m).Active ∧ (s.table.proc m).is_thread = false ∧
        (s.table.proc q).pgdir = (s.table.proc m).pgdir ∧
        (s.table.proc q).sz = (s.table.proc m).sz := by
    intro q m hq hm
    rw [process] at hm
    split at hm
    · rename_i hself
      have hthread : ThreadOf s.table q m := ⟨hself, hm⟩
      have hzombie : (s.table.proc q).state ≠ .zombie := fun hz => absurd rfl (hq.not hz).2.2
      exact ⟨(hfam.host q m hthread).1, (hfam.host q m hthread).2, hi.shared q m hthread hzombie,
        hs.shared q m hthread hzombie⟩
    · rename_i hself
      obtain rfl := Option.some.inj hm
      exact ⟨hq, by simpa using hself, rfl, rfl⟩
  refine ⟨fun q r hq hr heq => ?_, fun q m hq hm hgrow => ?_, fun p newsz a hp hk => ?_,
    fun p sz hp hk hne => ?_⟩
  · obtain ⟨m, hm⟩ := hfam.has_process hq
    obtain ⟨m', hm'⟩ := hfam.has_process hr
    obtain ⟨hact, hself, hdir, hsz⟩ := hhost q m hq hm
    obtain ⟨hact', hself', hdir', hsz'⟩ := hhost r m' hr hm'
    have hone := hi.sole (.image m) (.image m') (s.table.proc m).pgdir ⟨hact.used, hself, rfl⟩
      ⟨hact'.used, hself', (hdir.symm.trans (heq.trans hdir')).symm⟩
    obtain rfl := Holder.image.inj hone
    exact hsz.trans hsz'.symm
  · obtain ⟨hact, hself, hdir, hsz⟩ := hhost q m hq hm
    have hextent := hs.extent m hact
    rw [hsz, Reaches, hdir]
    unfold Ctl.growing at hgrow
    unfold Extent at hextent
    generalize (s.table.proc m).ctl.core = k at hgrow hextent
    cases k with
    | growAlloc | growFree | growStore => exact absurd hgrow (by simp)
    | _ => exact hextent hself
  · have hextent := hs.extent p hp
    rw [hk] at hextent
    obtain ⟨-, halign, -, -, hr⟩ : _ ∧ _ := hextent
    have hpage := page_of_aligned halign
    by_contra htrue
    have hlt := (hr (a / PGSIZE)).mp (by simpa using htrue)
    omega
  · have hextent := hs.extent p hp
    rw [hk] at hextent
    exact hextent.1.resolve_left hne

/-- The thread of init exits, init calls `sbrk(4096)` and makes another thread. -/
def growsBetween : List (Fin 2 × Act) :=
  threadRuns ++ exits 1 7 ++ [(0, .run (.call (.sbrk 4096))), (0, .run (.page (some 0))),
    onward 0, onward 0, onward 0] ++ creates 0 2 ++ starts 1 2

theorem sizes_agree_between : ∃ s : Kernel (Fin 2),
    Run (kthreads (Fin 2)) SoleSbrk growsBetween.reverse s ∧ (s.table.proc 0).sz = 8192 ∧
      Reaches s.table 0 8192 ∧ (s.table.proc 2).is_thread = true ∧
      (s.table.proc 2).pgdir = (s.table.proc 0).pgdir ∧ (s.table.proc 2).sz = 8192 := by
  have htr : ((growsBetween.foldlM (guarded SoleSbrk fun s l => step s l.1 l.2) boot).map fun s =>
      decide ((s.table.proc 0).sz = 8192 ∧ (s.table.proc 0).state = .running ∧
        (s.table.proc 0).ctl.growing = false ∧ process s.table 0 = some 0 ∧
        (s.table.proc 2).is_thread = true ∧ (s.table.proc 2).state = .running ∧
        (s.table.proc 2).pgdir = (s.table.proc 0).pgdir)) = some true := by
    decide +kernel
  obtain ⟨s, hs, hend⟩ := Option.map_eq_some_iff.mp htr
  obtain ⟨hsz, hrun, hgrow, hself, hthread, hrun', hshared⟩ := of_decide_eq_true hend
  have htr := run_checked hs
  obtain ⟨hsame, hreach, -⟩ := sizes_agree htr
  refine ⟨s, htr, hsz, hsz ▸ hreach 0 0 (Or.inl hrun) hself hgrow, hthread, hshared, ?_⟩
  rw [hsame 2 0 (Or.inl hrun') (Or.inl hrun) hshared, hsz]

/-- Init grows its memory while its thread runs on the other CPU, which then
calls `sbrk` as well. -/
def growShared : List (Fin 2 × Act) :=
  threadRuns ++ [(0, .run (.call (.sbrk 4096))), (0, .run (.page (some 0))), onward 0, onward 0,
    (1, .run (.call (.sbrk 4096)))]

/-- The two sizes differ, and `mappages` is about to panic. -/
theorem growShared_disagrees : ∃ (tr : List (Fin 2 × Act)) (s : Kernel (Fin 2)),
    Run (kthreads (Fin 2)) anyStep tr s ∧ (s.table.proc 0).state = .running ∧
      (s.table.proc 1).state = .running ∧ (s.table.proc 0).pgdir = (s.table.proc 1).pgdir ∧
      (s.table.proc 0).sz = 8192 ∧ (s.table.proc 1).sz = 4096 ∧
      (s.table.proc 1).ctl = .growAlloc 8192 4096 ∧
      s.table.mapped (s.table.proc 1).pgdir 1 = true := by
  have htr : ((growShared.foldlM (fun s l => step s l.1 l.2) boot).map fun s =>
      decide ((s.table.proc 0).state = .running ∧ (s.table.proc 1).state = .running ∧
        (s.table.proc 0).pgdir = (s.table.proc 1).pgdir ∧ (s.table.proc 0).sz = 8192 ∧
        (s.table.proc 1).sz = 4096 ∧ (s.table.proc 1).ctl = .growAlloc 8192 4096 ∧
        s.table.mapped (s.table.proc 1).pgdir 1 = true)) = some true := by
    decide +kernel
  obtain ⟨s, hs, hend⟩ := Option.map_eq_some_iff.mp htr
  exact ⟨_, s, Run.of_foldlM boot_boot (fun _ _ _ h => ⟨h, trivial⟩) hs, of_decide_eq_true hend⟩

end Kthreads
end CS444
