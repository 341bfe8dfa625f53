/-
The descriptors, the handles and the calls of the library.

`Books` says that every handle has its blocks and an id that denotes the thread it was made
for, that no two handles are for one thread, and that no two calls are about one descriptor
or one thread.  The steps of the library keep it, and as long as it holds the calls do what
they are for.
-/
import CS444.Kthreads.Benny

namespace CS444
namespace Kthreads

open Runs

variable {C : Type} {home i j a v : Nat} {c : C} {t t' : Table} {p q np : Slot} {pick : Pick}
  {k k' : Ctl} {n : Next} {call call' : Call} {m m' : Memory} {s s' : Library C}

/-! ## The calls that are under way -/

namespace Call

/-- The descriptor that is no handle yet. -/
def building : Call → Option Nat
  | .made bt | .creating bt _ | .created bt _ _ => some bt
  | _ => none

/-- The thread that was made and has no handle yet. -/
def new : Call → Option Nat
  | .creating _ new | .created _ new _ => new
  | _ => none

/-- The handle and the thread of a join that has taken the thread. -/
def taken : Call → Option (Nat × Nat)
  | .joining abt taken | .joined abt taken _ => taken.map fun i => (abt, i)
  | _ => none

/-- In a system call. -/
def underway : Call → Bool
  | .creating _ _ | .joining _ _ => true
  | _ => false

/-- The system call is right to return `v`. -/
def Returns (home : Nat) (t : Table) (v : Int) : Call → Prop
  | .creating _ new => ∃ j w : Nat, new = some j ∧ v = w ∧ Denotes home t w j
  | .joining _ none => v = -1
  | .joining _ (some i) => v = 0 ∧ (i, 0) ∈ t.exits
  | _ => True

theorem after_of_not_underway (h : call.underway = false) : call.after t k = call := by
  unfold after
  split <;> first | rfl | exact absurd h (by simp [underway])

theorem returns_of_not_underway {w : Int} (h : call.underway = false) :
    call.Returns home t w := by
  unfold Returns
  split <;> trivial

theorem Returns.carries {w : Int} (h : call.Returns home t w) (hc : Carries home t t') :
    call.Returns home t' w := by
  unfold Returns at h ⊢
  split at h
  · obtain ⟨j, w, hnew, hw, hd⟩ := h
    exact ⟨j, w, hnew, hw, hc.denotes w j hd⟩
  · exact h
  · exact ⟨h.1, hc.exits _ h.2⟩
  · trivial

end Call

/-! ## The memory and the calls -/

/-- What is known of a call. -/
structure Fine (home : Nat) (t : Table) (m : Memory) (call : Call) : Prop where
  building : ∀ a, call.building = some a →
    m.descBlocks a = true ∧ m.handles a = false ∧ (m.bt a).bt_stack % PGSIZE = 0
  new : ∀ j, call.new = some j → (∃ v, Denotes home t v j) ∧ (∃ q, (t.proc q).kstack = some j) ∧
    ∀ a, m.handles a = true → m.thread a ≠ some j
  taken : ∀ a j, call.taken = some (a, j) →
    m.handles a = true ∧ m.thread a = some j ∧ ∀ q, (t.proc q).kstack ≠ some j
  created : ∀ bt new bid, call = .created bt new bid → (Call.creating bt new).Returns home t bid
  joined : ∀ abt taken r, call = .joined abt taken r → (Call.joining abt taken).Returns home t r

/-- Two calls are about different descriptors and threads. -/
structure Differ (call call' : Call) : Prop where
  building : ∀ a, call.building = some a → call'.building ≠ some a
  new : ∀ j, call.new = some j → call'.new ≠ some j
  taken : ∀ e, call.taken = some e → call'.taken ≠ some e

structure Books (home : Nat) (t : Table) (m : Memory) (calls : Nat → Call) : Prop where
  stack : ∀ a, m.descBlocks a = true → m.stackBlocks (m.bt a).mem_stack = true
  alone : ∀ a b, m.descBlocks a = true → m.descBlocks b = true →
    (m.bt a).mem_stack = (m.bt b).mem_stack → a = b
  handle : ∀ a, m.handles a = true → m.descBlocks a = true ∧
    ∃ v j : Nat, (m.bt a).bid = v ∧ m.thread a = some j ∧ Denotes home t v j
  apart : ∀ a b, m.handles a = true → m.handles b = true → m.thread a = m.thread b → a = b
  fine : ∀ i, Fine home t m (calls i)
  differ : ∀ i i', i' ≠ i → Differ (calls i) (calls i')
  fresh : ∀ i, t.nextstack ≤ i → calls i = .idle
  used : ∀ q i, (t.proc q).kstack = some i → calls i ≠ .idle → (t.proc q).Used

theorem Fine.idle : Fine home t m .idle where
  building _ h := absurd h (by simp [Call.building])
  new _ h := absurd h (by simp [Call.new])
  taken _ _ h := absurd h (by simp [Call.taken])
  created _ _ _ h := absurd h (by simp)
  joined _ _ _ h := absurd h (by simp)

/-- A join that has not taken its thread yet. -/
theorem Fine.joining {abt : Nat} : Fine home t m (.joining abt none) where
  building _ h := absurd h (by simp [Call.building])
  new _ h := absurd h (by simp [Call.new])
  taken _ _ h := absurd h (by simp [Call.taken])
  created _ _ _ h := absurd h (by simp)
  joined _ _ _ h := absurd h (by simp)

/-- `kthread_create` begins with the descriptor that `bt_new` has made. -/
theorem Fine.creating {bt : Nat} (h : Fine home t m (.made bt)) :
    Fine home t m (.creating bt none) where
  building a ha := h.building a ha
  new _ hj := absurd hj (by simp [Call.new])
  taken _ _ he := absurd he (by simp [Call.taken])
  created _ _ _ heq := absurd heq (by simp)
  joined _ _ _ heq := absurd heq (by simp)

theorem Differ.symm (h : Differ call call') : Differ call' call where
  building a ha ha' := h.building a ha' ha
  new j hj hj' := h.new j hj' hj
  taken e he he' := h.taken e he' he

theorem Differ.idle : Differ .idle call where
  building _ h := absurd h (by simp [Call.building])
  new _ h := absurd h (by simp [Call.new])
  taken _ h := absurd h (by simp [Call.taken])

theorem Differ.joining {abt : Nat} : Differ (.joining abt none) call where
  building _ h := absurd h (by simp [Call.building])
  new _ h := absurd h (by simp [Call.new])
  taken _ h := absurd h (by simp [Call.taken])

theorem Differ.creating {bt : Nat} (h : Differ (.made bt) call) :
    Differ (.creating bt none) call where
  building a ha := h.building a ha
  new _ hj := absurd hj (by simp [Call.new])
  taken _ he := absurd he (by simp [Call.taken])

theorem Books.carries {calls : Nat → Call} (h : Books home t m calls) (hc : Carries home t t')
    (hlive : ∀ i j, (calls i).new = some j → ∃ q, (t'.proc q).kstack = some j) :
    Books home t' m calls where
  stack := h.stack
  alone := h.alone
  handle a ha := by
    obtain ⟨hdesc, v, j, hbid, hthread, hd⟩ := h.handle a ha
    exact ⟨hdesc, v, j, hbid, hthread, hc.denotes v j hd⟩
  apart := h.apart
  fine i := by
    refine ⟨(h.fine i).building, fun j hj => ?_, fun a j ha => ?_, fun bt new bid hcall => ?_,
      fun abt taken r hcall => ?_⟩
    · obtain ⟨⟨v, hd⟩, -, hhandle⟩ := (h.fine i).new j hj
      exact ⟨⟨v, hc.denotes v j hd⟩, hlive i j hj, hhandle⟩
    · obtain ⟨ha, hthread, hgone⟩ := (h.fine i).taken a j ha
      obtain ⟨-, v, j', -, hthread', hd⟩ := h.handle a ha
      obtain rfl := Option.some.inj (hthread.symm.trans hthread')
      exact ⟨ha, hthread, hc.gone j hd.old hgone⟩
    · exact ((h.fine i).created bt new bid hcall).carries hc
    · exact ((h.fine i).joined abt taken r hcall).carries hc
  differ := h.differ
  fresh i hi := h.fresh i (Nat.le_trans hc.next hi)
  used q i hq hi := by
    have hold : i < t.nextstack := by
      by_contra hge
      exact hi (h.fresh i (Nat.not_lt.mp hge))
    obtain ⟨hstack, hused⟩ := hc.used q i hold hq
    exact hused (h.used q i hstack hi)

/-- A thread comes to another place in the library. -/
theorem Books.setCall {calls : Nat → Call} (h : Books home t m calls) (hfine : Fine home t m call)
    (hdiffer : ∀ i', i' ≠ i → Differ call (calls i')) (hold : call ≠ .idle → i < t.nextstack)
    (hused : call ≠ .idle → ∀ q, (t.proc q).kstack = some i → (t.proc q).Used) :
    Books home t m (Function.update calls i call) where
  stack := h.stack
  alone := h.alone
  handle := h.handle
  apart := h.apart
  fine i' := by
    by_cases hi : i' = i
    · rw [hi, Function.update_self]
      exact hfine
    · rw [Function.update_of_ne hi]
      exact h.fine i'
  differ i₁ i₂ hne := by
    by_cases hi₁ : i₁ = i
    · rw [hi₁, Function.update_self, Function.update_of_ne (hi₁ ▸ hne)]
      exact hdiffer i₂ (hi₁ ▸ hne)
    · rw [Function.update_of_ne hi₁]
      by_cases hi₂ : i₂ = i
      · rw [hi₂, Function.update_self]
        exact (hdiffer i₁ hi₁).symm
      · rw [Function.update_of_ne hi₂]
        exact h.differ i₁ i₂ hne
  fresh i' hi' := by
    by_cases hi : i' = i
    · rw [hi, Function.update_self]
      by_contra hne
      exact absurd (hold hne) (by omega)
    · rw [Function.update_of_ne hi]
      exact h.fresh i' hi'
  used q i' hq hi' := by
    by_cases hi : i' = i
    · rw [hi, Function.update_self] at hi'
      exact hused hi' q (hi ▸ hq)
    · rw [Function.update_of_ne hi] at hi'
      exact h.used q i' hq hi'

theorem Books.leave {calls : Nat → Call} (h : Books home t m calls) :
    Books home t m (Function.update calls i .idle) :=
  h.setCall .idle (fun _ _ => .idle) (absurd rfl) (absurd rfl)

/-! ## The steps of the library -/

theorem alignStack_mod {m2 : Nat} : alignStack m2 % PGSIZE = 0 := by
  unfold alignStack
  simp only [PGSIZE]
  split <;> omega

theorem bt_new_eq {m1 m2 : Nat} (h1 : m1 ≠ 0) (h2 : m2 ≠ 0) : m.bt_new m1 m2 = (m1, { m with
    descBlocks := Function.update m.descBlocks m1 true
    stackBlocks := Function.update m.stackBlocks m2 true
    bt := Function.update m.bt m1 ⟨-1, alignStack m2, m2⟩ }) := by
  simp [Memory.bt_new, h1, h2]

/-- What the rest of `benny_thread_create` changes. -/
structure HandedOut (m m' : Memory) (bt : Nat) (new : Option Nat) (bid : Int) : Prop where
  blocks : m'.descBlocks = m.descBlocks ∧ m'.stackBlocks = m.stackBlocks
  self : m'.handles bt = true ∧ m'.thread bt = new ∧ (m'.bt bt).bid = bid
  others : ∀ a, a ≠ bt →
    m'.handles a = m.handles a ∧ m'.thread a = m.thread a ∧ (m'.bt a).bid = (m.bt a).bid
  mem_stack : ∀ a, (m'.bt a).mem_stack = (m.bt a).mem_stack
  bt_stack : ∀ a, (m'.bt a).bt_stack = (m.bt a).bt_stack

theorem create_spec (m : Memory) (bt : Nat) (new : Option Nat) {bid : Int} (h : bid ≠ 0) :
    (m.create bt new bid).1 = 0 ∧ (m.create bt new bid).2.1 = some bt ∧
      HandedOut m (m.create bt new bid).2.2 bt new bid := by
  have hsame : ∀ {α : Type} (g : Bt → α), (∀ r, g { r with bid := bid } = g r) → ∀ a,
      g (Function.update m.bt bt { m.bt bt with bid := bid } a) = g (m.bt a) := by
    intro α g hg a
    by_cases ha : a = bt
    · rw [ha, Function.update_self]
      exact hg _
    · rw [Function.update_of_ne ha]
  rw [Memory.create, if_pos h]
  refine ⟨rfl, rfl, ⟨rfl, rfl⟩, by simp, fun a ha => ?_, hsame Bt.mem_stack fun _ => rfl,
    hsame Bt.bt_stack fun _ => rfl⟩
  simp [Function.update_of_ne ha]

theorem join_kept {abt : Nat} {r : Int} (h : r ≠ 0) : m.join abt r = (r, m) := by
  simp [Memory.join, h]

/-- `bt_new` makes a descriptor that no handle and no other call is about. -/
theorem Books.bt_new {calls : Nat → Call} {m1 m2 : Nat} (h : Books home t m calls) (h1 : m1 ≠ 0)
    (h2 : m2 ≠ 0) (hdesc : m.descBlocks m1 = false) (hstack : m.stackBlocks m2 = false) :
    Books home t (m.bt_new m1 m2).2 calls ∧ Fine home t (m.bt_new m1 m2).2 (.made m1) ∧
      ∀ i, Differ (.made m1) (calls i) := by
  rw [bt_new_eq h1 h2]
  have hne : ∀ a, m.descBlocks a = true → a ≠ m1 := by
    rintro a ha rfl
    exact absurd (hdesc.symm.trans ha) (by simp)
  have hhandle : ∀ a, m.handles a = true → a ≠ m1 := fun a ha => hne a (h.handle a ha).1
  have hmem : ∀ a, m.descBlocks a = true → (m.bt a).mem_stack ≠ m2 := by
    rintro a ha rfl
    exact absurd (hstack.symm.trans (h.stack a ha)) (by simp)
  refine ⟨?books, ?fine, fun i => ?differ⟩
  case books =>
    constructor
    case stack =>
      intro a ha
      by_cases ham : a = m1
      · simp [ham]
      · simp only [Function.update_of_ne ham] at ha ⊢
        rw [Function.update_of_ne (hmem a ha)]
        exact h.stack a ha
    case alone =>
      intro a b ha hb heq
      by_cases ham : a = m1 <;> by_cases hbm : b = m1
      · rw [ham, hbm]
      · simp only [ham, Function.update_self, Function.update_of_ne hbm] at hb heq
        exact absurd heq.symm (hmem b hb)
      · simp only [hbm, Function.update_self, Function.update_of_ne ham] at ha heq
        exact absurd heq (hmem a ha)
      · simp only [Function.update_of_ne ham, Function.update_of_ne hbm] at ha hb heq
        exact h.alone a b ha hb heq
    case handle =>
      intro a ha
      simp only [Function.update_of_ne (hhandle a ha)]
      exact h.handle a ha
    case apart => exact h.apart
    case fine =>
      intro i
      obtain ⟨hbuild, hnew, htaken, hcreated, hjoined⟩ := h.fine i
      refine ⟨fun a ha => ?_, hnew, htaken, hcreated, hjoined⟩
      obtain ⟨hold, hrest⟩ := hbuild a ha
      simp only [Function.update_of_ne (hne a hold)]
      exact ⟨hold, hrest⟩
    case differ => exact h.differ
    case fresh => exact h.fresh
    case used => exact h.used
  case fine =>
    constructor
    case building =>
      intro a ha
      obtain rfl := Option.some.inj ha
      refine ⟨Function.update_self .., ?_, by simpa using alignStack_mod⟩
      by_contra hhas
      exact hhandle m1 (by simpa using hhas) rfl
    case new => exact fun _ hj => absurd hj (by simp [Call.new])
    case taken => exact fun _ _ he => absurd he (by simp [Call.taken])
    case created => exact fun _ _ _ hcall => absurd hcall (by simp)
    case joined => exact fun _ _ _ hcall => absurd hcall (by simp)
  case differ =>
    constructor
    case building =>
      intro a ha ha'
      obtain rfl := Option.some.inj ha
      exact hne m1 ((h.fine i).building m1 ha').1 rfl
    case new => exact fun _ hj => absurd hj (by simp [Call.new])
    case taken => exact fun _ he => absurd he (by simp [Call.taken])

/-- The rest of `benny_thread_create` makes the descriptor a handle. -/
theorem Books.create {calls : Nat → Call} {bt : Nat} {new : Option Nat} {bid : Int}
    (h : Books home t m calls) (hi : calls i = .created bt new bid) :
    Books home t (m.create bt new bid).2.2 (Function.update calls i .idle) := by
  have hfine := hi ▸ h.fine i
  obtain ⟨hdesc, hno, -⟩ := hfine.building bt rfl
  obtain ⟨j, w, rfl, rfl, hd⟩ := hfine.created bt new bid rfl
  obtain ⟨-, -, hapart⟩ := hfine.new j rfl
  obtain ⟨-, -, hhanded⟩ := create_spec m bt (some j)
    (show (w : Int) ≠ 0 by exact_mod_cast hd.nonzero)
  generalize (m.create bt (some j) w).2.2 = m' at hhanded ⊢
  obtain ⟨⟨hblocks, hstacks⟩, ⟨hself, hthread, hbid⟩, hothers, hmem, hpage⟩ := hhanded
  have hcase : ∀ a, m'.handles a = true → a = bt ∨ a ≠ bt ∧ m.handles a = true := by
    intro a ha
    by_cases hab : a = bt
    · exact Or.inl hab
    · exact Or.inr ⟨hab, (hothers a hab).1.symm.trans ha⟩
  have hdiffer : ∀ i', i' ≠ i → Differ (.created bt (some j) w) (calls i') := fun i' hne =>
    hi ▸ h.differ i i' hne
  have hleft : Books home t m (Function.update calls i .idle) := h.leave
  constructor
  case stack =>
    intro a ha
    rw [hmem, hstacks]
    exact h.stack a (hblocks ▸ ha)
  case alone =>
    intro a b ha hb heq
    rw [hmem, hmem] at heq
    exact h.alone a b (hblocks ▸ ha) (hblocks ▸ hb) heq
  case handle =>
    intro a ha
    rw [hblocks]
    rcases hcase a ha with rfl | ⟨hab, ha⟩
    · exact ⟨hdesc, w, j, hbid, hthread, hd⟩
    · rw [(hothers a hab).2.1, (hothers a hab).2.2]
      exact h.handle a ha
  case apart =>
    intro a b ha hb heq
    rcases hcase a ha with rfl | ⟨hab, ha⟩ <;> rcases hcase b hb with rfl | ⟨hbb, hb⟩
    · rfl
    · rw [hthread, (hothers b hbb).2.1] at heq
      exact absurd heq.symm (hapart b hb)
    · rw [hthread, (hothers a hab).2.1] at heq
      exact absurd heq (hapart a ha)
    · rw [(hothers a hab).2.1, (hothers b hbb).2.1] at heq
      exact h.apart a b ha hb heq
  case fine =>
    intro i'
    by_cases hii : i' = i
    · rw [hii, Function.update_self]
      exact .idle
    rw [Function.update_of_ne hii]
    obtain ⟨hbuild, hnew, htaken, hcreated, hjoined⟩ := h.fine i'
    refine ⟨fun a ha => ?_, fun j' hj' => ?_, fun a j' he => ?_, hcreated, hjoined⟩
    · have hab : a ≠ bt := by
        rintro rfl
        exact (hdiffer i' hii).building a rfl ha
      rw [hblocks, (hothers a hab).1, hpage]
      exact hbuild a ha
    · obtain ⟨hdenotes, hlive, hhas⟩ := hnew j' hj'
      refine ⟨hdenotes, hlive, fun a ha => ?_⟩
      rcases hcase a ha with rfl | ⟨hab, ha⟩
      · rw [hthread]
        exact fun heq => (hdiffer i' hii).new j rfl (heq ▸ hj')
      · rw [(hothers a hab).2.1]
        exact hhas a ha
    · obtain ⟨ha, hrest⟩ := htaken a j' he
      have hab : a ≠ bt := by
        rintro rfl
        exact absurd (hno.symm.trans ha) (by simp)
      rw [(hothers a hab).1, (hothers a hab).2.1]
      exact ⟨ha, hrest⟩
  case differ => exact hleft.differ
  case fresh => exact hleft.fresh
  case used => exact hleft.used

/-- The rest of `benny_thread_join` frees the blocks of a thread that was taken. -/
theorem Books.join {calls : Nat → Call} {abt : Nat} {taken : Option Nat} {r : Int}
    (h : Books home t m calls) (hi : calls i = .joined abt taken r) :
    Books home t (m.join abt r).2 (Function.update calls i .idle) := by
  have hfine := hi ▸ h.fine i
  have hreturn := hfine.joined abt taken r rfl
  cases taken with
  | none =>
      obtain rfl : r = -1 := hreturn
      rw [join_kept (by decide)]
      exact h.leave
  | some j =>
      obtain ⟨rfl, -⟩ : r = 0 ∧ _ := hreturn
      obtain ⟨hhas, hthread, -⟩ := hfine.taken abt j rfl
      have hdesc := (h.handle abt hhas).1
      have hkeep : ∀ {f : Nat → Bool} {a : Nat}, Function.update f abt false a = true →
          a ≠ abt ∧ f a = true := by
        intro f a ha
        by_cases hab : a = abt
        · rw [hab, Function.update_self] at ha
          exact absurd ha (by simp)
        · rw [Function.update_of_ne hab] at ha
          exact ⟨hab, ha⟩
      have hleft : Books home t m (Function.update calls i .idle) := h.leave
      constructor
      case stack =>
        intro a ha
        obtain ⟨hab, ha⟩ := hkeep ha
        show Function.update m.stackBlocks _ _ (Function.update m.bt abt _ a).mem_stack = true
        rw [Function.update_of_ne hab, Function.update_of_ne]
        · exact h.stack a ha
        · exact fun heq => hab (h.alone a abt ha hdesc heq)
      case alone =>
        intro a b ha hb heq
        obtain ⟨hab, ha⟩ := hkeep ha
        obtain ⟨hbb, hb⟩ := hkeep hb
        refine h.alone a b ha hb ?_
        simpa [Memory.join, Function.update_of_ne hab, Function.update_of_ne hbb] using heq
      case handle =>
        intro a ha
        obtain ⟨hab, ha⟩ := hkeep ha
        obtain ⟨hd, v, j', hbid, hrest⟩ := h.handle a ha
        refine ⟨?_, v, j', ?_, hrest⟩
        · simpa [Memory.join, Function.update_of_ne hab] using hd
        · simpa [Memory.join, Function.update_of_ne hab] using hbid
      case apart => exact fun a b ha hb heq => h.apart a b (hkeep ha).2 (hkeep hb).2 heq
      case fine =>
        intro i'
        by_cases hii : i' = i
        · rw [hii, Function.update_self]
          exact .idle
        rw [Function.update_of_ne hii]
        obtain ⟨hbuild, hnew, htaken, hcreated, hjoined⟩ := h.fine i'
        refine ⟨fun a ha => ?_, fun j' hj' => ?_, fun a j' he => ?_, hcreated, hjoined⟩
        · obtain ⟨hd, hno, hpage⟩ := hbuild a ha
          have hab : a ≠ abt := by
            rintro rfl
            exact absurd (hno.symm.trans hhas) (by simp)
          simpa [Memory.join, Function.update_of_ne hab] using ⟨hd, hno, hpage⟩
        · obtain ⟨hdenotes, hlive, hnone⟩ := hnew j' hj'
          exact ⟨hdenotes, hlive, fun a ha => hnone a (hkeep ha).2⟩
        · obtain ⟨ha, hthread', hgone⟩ := htaken a j' he
          have hab : a ≠ abt := by
            rintro rfl
            obtain rfl := Option.some.inj (hthread.symm.trans hthread')
            have hdiffer := h.differ i i' hii
            rw [hi] at hdiffer
            exact hdiffer.taken (a, j) rfl he
          refine ⟨?_, hthread', hgone⟩
          simpa [Memory.join, Function.update_of_ne hab] using ha
      case differ => exact hleft.differ
      case fresh => exact hleft.fresh
      case used => exact hleft.used

/-- A handle whose thread is still there stays one. -/
def Keeps (t : Table) (m m' : Memory) : Prop :=
  ∀ a q j, m.handles a = true → m.thread a = some j → (t.proc q).kstack = some j →
    m'.handles a = true ∧ m'.thread a = some j

theorem Keeps.refl : Keeps t m m := fun _ _ _ hhas hthread _ => ⟨hhas, hthread⟩

theorem Books.create_keeps {calls : Nat → Call} {bt : Nat} {new : Option Nat} {bid : Int}
    (h : Books home t m calls) (hi : calls i = .created bt new bid) :
    Keeps t m (m.create bt new bid).2.2 := by
  have hfine := hi ▸ h.fine i
  obtain ⟨-, hno, -⟩ := hfine.building bt rfl
  obtain ⟨j, w, rfl, rfl, hd⟩ := hfine.created bt new bid rfl
  obtain ⟨-, -, hhanded⟩ := create_spec m bt (some j)
    (show (w : Int) ≠ 0 by exact_mod_cast hd.nonzero)
  intro a q j' ha hthread _
  have hab : a ≠ bt := by
    rintro rfl
    exact absurd (hno.symm.trans ha) (by simp)
  obtain ⟨hsame, hsame', -⟩ := hhanded.others a hab
  exact ⟨hsame.trans ha, hsame'.trans hthread⟩

theorem Books.join_keeps {calls : Nat → Call} {abt : Nat} {taken : Option Nat} {r : Int}
    (h : Books home t m calls) (hi : calls i = .joined abt taken r) :
    Keeps t m (m.join abt r).2 := by
  have hfine := hi ▸ h.fine i
  have hreturn := hfine.joined abt taken r rfl
  cases taken with
  | none =>
      obtain rfl : r = -1 := hreturn
      rw [join_kept (by decide)]
      exact .refl
  | some j =>
      obtain ⟨rfl, -⟩ : r = 0 ∧ _ := hreturn
      obtain ⟨-, hthread, hgone⟩ := hfine.taken abt j rfl
      intro a q j' ha hthread' hq
      have hab : a ≠ abt := by
        rintro rfl
        obtain rfl := Option.some.inj (hthread.symm.trans hthread')
        exact hgone q hq
      refine ⟨?_, hthread'⟩
      simpa [Memory.join, Function.update_of_ne hab] using ha

/-! ## What the calls do -/

end Kthreads
end CS444
