/-
What the code does to the inode cache.

`Moves s h s' h'` describes a piece of code that starts in `s` holding the
references `h` and ends in `s'` holding `h'`: the reference counts moved by the
difference, and an inode somebody else refers to keeps its identity and, once
read from disk, its type.  `CacheOk`, the coherence of the cache with the disk,
is kept as well.  Most code does not touch what these mention at all; that is
`SameKeys`.
-/
import CS444.Lib.Ledger
import CS444.Fs.Syscall

namespace CS444
namespace Fs

open Program Ledger

/-- The reference counts. -/
def refs (s : Kernel) : Slot → Int := fun k => (s.inode k).ref

/-- The inode cache agrees with itself and with the disk. -/
structure CacheOk (s : Kernel) : Prop where
  nonneg : ∀ k, 0 ≤ (s.inode k).ref
  dev : ∀ k, 0 < (s.inode k).ref → (s.inode k).dev = ROOTDEV
  unique : ∀ j k, 0 < (s.inode j).ref → 0 < (s.inode k).ref →
    (s.inode j).inum = (s.inode k).inum → j = k
  coherent : ∀ k, 0 < (s.inode k).ref → (s.inode k).valid = true →
    (s.dinode (s.inode k).inum).type = (s.inode k).type ∧ (s.inode k).type ≠ 0

/-- A cache entry that went from `i` to `i'` while it was referred to. -/
structure Pinned (i i' : Inode) : Prop where
  dev : i'.dev = i.dev
  inum : i'.inum = i.inum
  valid : i.valid = true → i'.valid = true ∧ i'.type = i.type

/-- Pipes are as they were, and nobody was killed. -/
structure SamePipes (s s' : Kernel) : Prop where
  pipe : s'.pipe = s.pipe
  next : s'.nextpipe = s.nextpipe
  killed : s'.killed = s.killed

/-- The tables other than the inode cache are as they were. -/
structure SameTables (s s' : Kernel) : Prop where
  file : s'.file = s.file
  proc : s'.proc = s.proc
  cur : s'.cur = s.cur
  pipes : SamePipes s s'

/-- From `s` holding `h` to `s'` holding `h'`, as far as the inode cache goes. -/
structure InodeMoves (s : Kernel) (h : Slot → Nat) (s' : Kernel) (h' : Slot → Nat) : Prop where
  refs : Balanced (refs s) h (refs s') h'
  pinned : ∀ k, (h k : Int) < (s.inode k).ref → Pinned (s.inode k) (s'.inode k)
  cache : CacheOk s → (∀ k, (h k : Int) ≤ (s.inode k).ref) → CacheOk s'

/-- From `s` holding `h` to `s'` holding `h'`, with no other table touched. -/
structure Moves (s : Kernel) (h : Slot → Nat) (s' : Kernel) (h' : Slot → Nat) : Prop
    extends InodeMoves s h s' h' where
  tables : SameTables s s'

variable {s s₁ s' : Kernel} {h h₁ h' : Slot → Nat} {ip dp k : Slot}

/-- The device of the root, or of an entry in use. -/
def KnownDev (s : Kernel) (dev : Nat) : Prop :=
  dev = ROOTDEV ∨ ∃ k, 0 < (s.inode k).ref ∧ (s.inode k).dev = dev

theorem CacheOk.knownDev (hc : CacheOk s) {dev : Nat} (hdev : KnownDev s dev) :
    dev = ROOTDEV := by
  rcases hdev with hdev | ⟨k, hpos, rfl⟩
  · exact hdev
  · exact hc.dev k hpos

theorem Pinned.refl (i : Inode) : Pinned i i := ⟨rfl, rfl, fun hv => ⟨hv, rfl⟩⟩

theorem Pinned.trans {i i₁ i' : Inode} (hab : Pinned i i₁) (hbc : Pinned i₁ i') :
    Pinned i i' := by
  refine ⟨hbc.dev.trans hab.dev, hbc.inum.trans hab.inum, fun hv => ?_⟩
  obtain ⟨hv₁, ht₁⟩ := hab.valid hv
  obtain ⟨hv', ht'⟩ := hbc.valid hv₁
  exact ⟨hv', ht'.trans ht₁⟩

theorem SamePipes.refl (s : Kernel) : SamePipes s s := ⟨rfl, rfl, rfl⟩

theorem SamePipes.trans (hab : SamePipes s s₁) (hbc : SamePipes s₁ s') : SamePipes s s' :=
  ⟨hbc.pipe.trans hab.pipe, hbc.next.trans hab.next, hbc.killed.trans hab.killed⟩

theorem SameTables.refl (s : Kernel) : SameTables s s := ⟨rfl, rfl, rfl, .refl s⟩

theorem SameTables.trans (hab : SameTables s s₁) (hbc : SameTables s₁ s') :
    SameTables s s' :=
  ⟨hbc.file.trans hab.file, hbc.proc.trans hab.proc, hbc.cur.trans hab.cur,
    hab.pipes.trans hbc.pipes⟩

theorem InodeMoves.ref_eq (hm : InodeMoves s h s' h') (k : Slot) :
    (s'.inode k).ref + h k = (s.inode k).ref + h' k := hm.refs k

theorem InodeMoves.trans (hab : InodeMoves s h s₁ h₁) (hbc : InodeMoves s₁ h₁ s' h') :
    InodeMoves s h s' h' := by
  refine ⟨hab.refs.trans hbc.refs, fun k hk => ?_, fun hc hh => ?_⟩
  · have := hab.ref_eq k
    exact (hab.pinned k hk).trans (hbc.pinned k (by omega))
  · refine hbc.cache (hab.cache hc hh) fun k => ?_
    have := hab.ref_eq k
    have := hh k
    omega

/-- Code that holds `h` runs the same beside other references `r`. -/
theorem InodeMoves.frame (hm : InodeMoves s h s' h') (r : Slot → Nat) :
    InodeMoves s (r + h) s' (r + h') := by
  refine ⟨hm.refs.frame r, fun k hk => hm.pinned k ?_, fun hc hh => hm.cache hc fun k => ?_⟩
  · simp only [Pi.add_apply] at hk
    omega
  · have := hh k
    simp only [Pi.add_apply] at this
    omega

/-- Code that changes other tables only. -/
theorem InodeMoves.of_eq (hi : s'.inode = s.inode) (hd : s'.dinode = s.dinode)
    (h : Slot → Nat) : InodeMoves s h s' h := by
  refine ⟨fun k => by simp only [Fs.refs, hi], fun k _ => ?_, fun hc _ => ?_⟩
  · rw [hi]
    exact .refl _
  · obtain ⟨h₁, h₂, h₃, h₄⟩ := hc
    constructor <;> rw [hi]
    · exact h₁
    · exact h₂
    · exact h₃
    · rw [hd]
      exact h₄

theorem Moves.refl (s : Kernel) (h : Slot → Nat) : Moves s h s h :=
  ⟨.of_eq rfl rfl h, .refl s⟩

theorem Moves.trans (hab : Moves s h s₁ h₁) (hbc : Moves s₁ h₁ s' h') : Moves s h s' h' :=
  ⟨hab.toInodeMoves.trans hbc.toInodeMoves, hab.tables.trans hbc.tables⟩

theorem Moves.frame (hm : Moves s h s' h') (r : Slot → Nat) : Moves s (r + h) s' (r + h') :=
  ⟨hm.toInodeMoves.frame r, hm.tables⟩

/-- Code that takes nothing over, beside references `r`. -/
theorem Moves.beside (hm : Moves s 0 s' h') (r : Slot → Nat) : Moves s r s' (r + h') := by
  have := hm.frame r
  rwa [add_zero] at this

/-- Code that holds nothing of its own, after code that left with `h'`. -/
theorem Moves.andThen (hab : Moves s h s₁ h') (hbc : Moves s₁ 0 s' 0) : Moves s h s' h' := by
  have := hab.trans (hbc.beside h')
  rwa [add_zero] at this

/-- Code that gives away what it holds, beside references `r`. -/
theorem Moves.leaving (hm : Moves s h s' 0) (r : Slot → Nat) : Moves s (r + h) s' r := by
  have := hm.frame r
  rwa [add_zero] at this

/-! ## Code that leaves the cache's keys alone -/

/-- Reference counts, identities, validity and types are as they were. -/
structure SameKeys (s s' : Kernel) : Prop where
  ref : ∀ k, (s'.inode k).ref = (s.inode k).ref
  dev : ∀ k, (s'.inode k).dev = (s.inode k).dev
  inum : ∀ k, (s'.inode k).inum = (s.inode k).inum
  valid : ∀ k, (s'.inode k).valid = (s.inode k).valid
  type : ∀ k, (s'.inode k).type = (s.inode k).type
  dinode : ∀ i, (s'.dinode i).type = (s.dinode i).type
  tables : SameTables s s'

theorem SameKeys.refl (s : Kernel) : SameKeys s s :=
  ⟨fun _ => rfl, fun _ => rfl, fun _ => rfl, fun _ => rfl, fun _ => rfl, fun _ => rfl, .refl s⟩

theorem SameKeys.trans (hab : SameKeys s s₁) (hbc : SameKeys s₁ s') : SameKeys s s' :=
  ⟨fun k => (hbc.ref k).trans (hab.ref k), fun k => (hbc.dev k).trans (hab.dev k),
    fun k => (hbc.inum k).trans (hab.inum k), fun k => (hbc.valid k).trans (hab.valid k),
    fun k => (hbc.type k).trans (hab.type k), fun i => (hbc.dinode i).trans (hab.dinode i),
    hab.tables.trans hbc.tables⟩

theorem SameKeys.moves (hk : SameKeys s s') (h : Slot → Nat) : Moves s h s' h := by
  refine ⟨⟨fun k => ?_, fun k _ => ⟨hk.dev k, hk.inum k, fun hv => ⟨?_, hk.type k⟩⟩,
    fun hc _ => ⟨?_, ?_, ?_, ?_⟩⟩, hk.tables⟩
  · simp only [Fs.refs, hk.ref]
  · rw [hk.valid, hv]
  · intro k
    rw [hk.ref]
    exact hc.nonneg k
  · intro k
    rw [hk.ref, hk.dev]
    exact hc.dev k
  · intro j k
    rw [hk.ref, hk.ref, hk.inum, hk.inum]
    exact hc.unique j k
  · intro k
    rw [hk.ref, hk.valid, hk.inum, hk.type, hk.dinode]
    exact hc.coherent k

/-- Changes that touch neither the inode tables nor the files. -/
theorem SameKeys.of_eq (hi : s'.inode = s.inode) (hd : s'.dinode = s.dinode)
    (ht : SameTables s s') : SameKeys s s' := by
  constructor
  case tables => exact ht
  all_goals intros; simp [hi, hd]

/-- Write `i` over the cache entry `ip`. -/
def withInode (s : Kernel) (ip : Slot) (i : Inode) : Kernel :=
  { s with inode := Function.update s.inode ip i }

@[simp] theorem setInode_bind_run {α : Type} (ip : Slot) (f : Inode → Inode) (g : Unit → K α) :
    (setInode ip f >>= g).run s = (g ()).run (withInode s ip (f (s.inode ip))) := rfl

@[simp] theorem setInode_run (ip : Slot) (f : Inode → Inode) :
    (setInode ip f).run s = .ok ((), withInode s ip (f (s.inode ip))) := rfl

theorem setInode_ok {f : Inode → Inode} {u : Unit} :
    (setInode ip f).run s = .ok (u, s') ↔ withInode s ip (f (s.inode ip)) = s' :=
  Prog.modify_ok

@[simp] theorem withInode_self (i : Inode) : (withInode s ip i).inode ip = i :=
  Function.update_self ..

theorem withInode_of_ne {i : Inode} (hk : k ≠ ip) : (withInode s ip i).inode k = s.inode k :=
  Function.update_of_ne hk ..

@[simp] theorem withInode_withInode (i i' : Inode) :
    withInode (withInode s ip i) ip i' = withInode s ip i' := by
  simp [withInode]

@[simp] theorem withInode_dinode (i : Inode) : (withInode s ip i).dinode = s.dinode := rfl

theorem withInode_tables (i : Inode) : SameTables s (withInode s ip i) :=
  ⟨rfl, rfl, rfl, rfl, rfl, rfl⟩

/-- A change of one cache entry outside its keys. -/
theorem sameKeys_withInode {i : Inode} (href : i.ref = (s.inode ip).ref)
    (hdev : i.dev = (s.inode ip).dev) (hinum : i.inum = (s.inode ip).inum)
    (hvalid : i.valid = (s.inode ip).valid) (htype : i.type = (s.inode ip).type) :
    SameKeys s (withInode s ip i) := by
  refine ⟨fun k => ?_, fun k => ?_, fun k => ?_, fun k => ?_, fun k => ?_, fun _ => rfl,
    withInode_tables i⟩ <;>
  · by_cases hk : k = ip
    · subst hk
      simpa
    · rw [withInode_of_ne hk]

/-! ## Code that changes one entry's keys -/

/-- What a changed entry `i'` of slot `ip` has to satisfy for the cache to stay
coherent: it is checked against the other entries and the disk. -/
structure EntryOk (s : Kernel) (ip : Slot) (i' : Inode) : Prop where
  nonneg : 0 ≤ i'.ref
  dev : 0 < i'.ref → i'.dev = ROOTDEV
  unique : 0 < i'.ref → ∀ k, k ≠ ip → 0 < (s.inode k).ref → (s.inode k).inum ≠ i'.inum
  coherent : 0 < i'.ref → i'.valid = true → (s.dinode i'.inum).type = i'.type ∧ i'.type ≠ 0

/-- A change of one entry. -/
theorem moves_withInode {i' : Inode} (href : i'.ref + h ip = (s.inode ip).ref + h' ip)
    (hheld : ∀ k, k ≠ ip → h k = h' k)
    (hpinned : (h ip : Int) < (s.inode ip).ref → Pinned (s.inode ip) i')
    (hcache : CacheOk s → (∀ k, (h k : Int) ≤ (s.inode k).ref) → EntryOk s ip i') :
    Moves s h (withInode s ip i') h' := by
  refine ⟨⟨fun k => ?_, fun k hk => ?_, fun hc hh => ⟨fun k => ?_, fun k => ?_, fun j k => ?_,
    fun k => ?_⟩⟩, withInode_tables i'⟩
  · by_cases hkip : k = ip
    · subst hkip
      simpa [refs] using href
    · simp only [refs, withInode_of_ne hkip, hheld k hkip]
  · by_cases hkip : k = ip
    · subst hkip
      rw [withInode_self]
      exact hpinned hk
    · rw [withInode_of_ne hkip]
      exact .refl _
  all_goals have hentry := hcache hc hh
  · by_cases hkip : k = ip
    · subst hkip
      rw [withInode_self]
      exact hentry.nonneg
    · rw [withInode_of_ne hkip]
      exact hc.nonneg k
  · by_cases hkip : k = ip
    · subst hkip
      rw [withInode_self]
      exact hentry.dev
    · rw [withInode_of_ne hkip]
      exact hc.dev k
  · by_cases hjip : j = ip <;> by_cases hkip : k = ip
    · exact fun _ _ _ => hjip.trans hkip.symm
    · subst hjip
      rw [withInode_self, withInode_of_ne hkip]
      exact fun hj hk heq => absurd heq.symm (hentry.unique hj k hkip hk)
    · subst hkip
      rw [withInode_self, withInode_of_ne hjip]
      exact fun hj hk heq => absurd heq (hentry.unique hk j hjip hj)
    · rw [withInode_of_ne hjip, withInode_of_ne hkip]
      exact hc.unique j k
  · by_cases hkip : k = ip
    · subst hkip
      rw [withInode_self]
      exact hentry.coherent
    · rw [withInode_of_ne hkip]
      exact hc.coherent k

/-- An entry in use satisfies its own conditions. -/
theorem CacheOk.entry (hc : CacheOk s) (hpos : 0 < (s.inode ip).ref) :
    EntryOk s ip (s.inode ip) :=
  ⟨hc.nonneg ip, hc.dev ip, fun _ k hk hkpos heq => hk (hc.unique k ip hkpos hpos heq),
    hc.coherent ip⟩

end Fs
end CS444
