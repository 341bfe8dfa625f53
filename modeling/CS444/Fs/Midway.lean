/-
In the middle of a call.

A call that writes to the disk holds references while it does.  `Midway s h lost`
says that the file system is `Sound`, that the code holds `h`, and that every inode
without a link is one that somebody else refers to, but for `lost`.  Looking names
up, writing an inode or a piece of a file and dropping references keep this, and
dropping the last reference to `lost` frees it, `Midway.iput_lost`.
-/
import CS444.Fs.Erase
import CS444.Fs.Writes

namespace CS444
namespace Fs

open Bytes Program Ledger

variable {s s₀ s₁ s' : Kernel} {ip k : Slot} {h h' : Slot → Nat} {l : Option Slot}
  {lost : Option Nat} {n off : Nat} {src : Str} {i' : Inode} {u : Unit}

/-! ## The invariant -/

theorem SameDisk.tree (hd : SameDisk s s') : tree s' = tree s := by
  unfold Fs.tree
  rw [hd.dinode, hd.block]

/-- Looking names up leaves the file system sound. -/
theorem Since.sound (hsince : Since s₀ s h l) (hs : Sound s₀) : Sound s where
  small := by
    rw [hsince.disk.sb]
    exact hs.small
  laid := by
    rw [hsince.disk.bitmap, hsince.disk.block, hsince.disk.dinode]
    exact hs.laid
  cache := hsince.cacheOk hs.toCoherent
  clean := by
    rw [hsince.disk.dinode]
    exact hsince.clean
  filled := by
    rw [hsince.disk.dinode, hsince.disk.block]
    exact hs.filled
  live := by
    intro n hn hlink
    rw [hsince.disk.dinode] at hn hlink
    obtain ⟨k, hk, hki⟩ := hs.live n hn hlink
    have href := hsince.ref_eq k
    exact ⟨k, by omega, (hsince.cwd hk).trans hki⟩

/-- The code holds `h`, and an inode without links, other than `lost`, is held by
somebody else as well. -/
structure Midway (s : Kernel) (h : Slot → Nat) (lost : Option Nat) : Prop where
  sound : Sound s
  held : ∀ k, (h k : Int) ≤ (s.inode k).ref
  beside : ∀ n, lost ≠ some n → (s.dinode n).type ≠ 0 → (s.dinode n).nlink = 0 →
    ∃ k, (h k : Int) < (s.inode k).ref ∧ (s.inode k).inum = n

theorem Sound.midway (hs : Sound s) : Midway s 0 none where
  sound := hs
  held k := by simpa using hs.cache.nonneg k
  beside n _ hn hlink := by simpa using hs.live n hn hlink

theorem Midway.since (hm : Midway s h lost) (hsince : Since s s' h' l) :
    Midway s' (h + h') lost where
  sound := hsince.sound hm.sound
  held := by
    intro k
    have href := hsince.ref_eq k
    have hheld := hm.held k
    simp only [Pi.add_apply]
    omega
  beside := by
    intro n hlost hn hlink
    rw [hsince.disk.dinode] at hn hlink
    obtain ⟨k, hk, hki⟩ := hm.beside n hlost hn hlink
    have href := hsince.ref_eq k
    refine ⟨k, ?_, (hsince.cwd (by omega)).trans hki⟩
    simp only [Pi.add_apply]
    omega

/-- `lost` has links after all. -/
theorem Midway.settle (hm : Midway s h (some n))
    (hlink : (s.dinode n).type ≠ 0 → (s.dinode n).nlink ≠ 0) : Midway s h none := by
  refine ⟨hm.sound, hm.held, fun m _ hm' hzero => ?_⟩
  by_cases hmn : m = n
  · rw [hmn] at hm' hzero
    exact absurd hzero (hlink hm')
  · exact hm.beside m (fun heq => hmn (Option.some.inj heq).symm) hm' hzero

/-- Code that looks names up and has written nothing. -/
theorem Coherent.sinceHere (hs : Coherent s) (l : Option Slot) : Since s s 0 l :=
  ⟨.refl s 0, ⟨rfl, rfl, rfl, rfl⟩, hs.clean, fun _ hk => Or.inl hk⟩

/-! ## Writing an inode -/

/-- The entry `i'` may be written over `i`: links, numbers and the lock may differ. -/
structure Rewrites (i i' : Inode) : Prop where
  ref : i'.ref = i.ref
  dev : i'.dev = i.dev
  inum : i'.inum = i.inum
  valid : i'.valid = i.valid
  type : i'.type = i.type
  size : i'.size = i.size
  addrs : i'.addrs = i.addrs

/-- The entry `ip` rewritten, in the cache and on the disk. -/
def rewritten (s : Kernel) (ip : Slot) (i' : Inode) : Kernel := updated (withInode s ip i') ip

theorem rewritten_dinode : (rewritten s ip i').dinode =
    Function.update s.dinode i'.inum i'.disk := by
  unfold rewritten updated
  simp only [withInode_self, withInode_dinode]
  rfl

theorem rewritten_self : (rewritten s ip i').inode ip = i' := withInode_self i'

theorem rewritten_of_ne (hk : k ≠ ip) : (rewritten s ip i').inode k = s.inode k :=
  withInode_of_ne hk

theorem Rewrites.moves (hr : Rewrites (s.inode ip) i') (hu : InUse s ip) :
    Moves s 0 (rewritten s ip i') 0 :=
  rewritten_moves hu hr.ref hr.dev hr.inum hr.valid hr.type

/-- The tree does not show links. -/
theorem rewritten_tree (hs : Sound s) (hu : InUse s ip) (hr : Rewrites (s.inode ip) i') :
    tree (rewritten s ip i') = tree s := by
  funext m
  unfold tree
  rw [rewritten_dinode]
  by_cases hm : m = i'.inum
  · have hdisk := (hs.toCoherent.typed hu).1
    rw [hm, Function.update_self, hr.inum, ← hdisk]
    unfold Inode.disk contents
    simp only [hr.type, hr.size, hr.addrs]
    rfl
  · rw [Function.update_of_ne hm]
    rfl

theorem Midway.rewrite (hm : Midway s h lost) (hu : InUse s ip)
    (hlost : ∀ n, lost = some n → n = (s.inode ip).inum)
    (hr : Rewrites (s.inode ip) i') : Midway (rewritten s ip i') h (some (s.inode ip).inum) := by
  have hs := hm.sound
  obtain ⟨hdisk, htype⟩ := hs.toCoherent.typed hu
  have hmoves := hr.moves hu
  have href : ∀ k, ((rewritten s ip i').inode k).ref = (s.inode k).ref := by
    intro k
    have := hmoves.ref_eq k
    simpa using this
  have hinum : ∀ k, ((rewritten s ip i').inode k).inum = (s.inode k).inum := by
    intro k
    by_cases hk : k = ip
    · rw [hk, rewritten_self, hr.inum]
    · rw [rewritten_of_ne hk]
  -- what the disk has of every inode but for its links
  have hsame : ∀ m, ((rewritten s ip i').dinode m).type = (s.dinode m).type ∧
      ((rewritten s ip i').dinode m).size = (s.dinode m).size ∧
      ((rewritten s ip i').dinode m).addrs = (s.dinode m).addrs := by
    intro m
    rw [rewritten_dinode]
    by_cases hmi : m = i'.inum
    · rw [hmi, Function.update_self, hr.inum, ← hdisk]
      exact ⟨hr.type, hr.size, hr.addrs⟩
    · rw [Function.update_of_ne hmi]
      exact ⟨rfl, rfl, rfl⟩
  have hother : ∀ m, m ≠ (s.inode ip).inum → (rewritten s ip i').dinode m = s.dinode m := by
    intro m hmi
    rw [rewritten_dinode, Function.update_of_ne (by rw [hr.inum]; exact hmi)]
  have hbeside : ∀ m, m ≠ (s.inode ip).inum → ((rewritten s ip i').dinode m).type ≠ 0 →
      ((rewritten s ip i').dinode m).nlink = 0 →
        ∃ k, (h k : Int) < ((rewritten s ip i').inode k).ref ∧
          ((rewritten s ip i').inode k).inum = m := by
    intro m hmi htype' hlink
    rw [hother m hmi] at htype' hlink
    obtain ⟨k, hk, hki⟩ := hm.beside m (fun h => hmi (hlost m h)) htype' hlink
    exact ⟨k, by rw [href]; exact hk, by rw [hinum]; exact hki⟩
  refine ⟨?_, fun k => by rw [href]; exact hm.held k, fun m hlost => ?_⟩
  · constructor
    case small => exact hs.small
    case laid => exact hs.laid.congr fun m => ⟨(hsame m).1, (hsame m).2.2⟩
    case toCoherent =>
      constructor
      case cache => exact hmoves.cacheOk hs.cache
      case clean =>
        intro k hk hv
        by_cases hkip : k = ip
        · rw [hkip, rewritten_self, rewritten_dinode, Function.update_self]
        · rw [href] at hk
          rw [rewritten_of_ne hkip] at hv ⊢
          rw [hother _ fun heq => hkip (hs.cache.unique k ip hk hu.pos heq)]
          exact hs.clean k hk hv
      case filled =>
        intro m hm'
        obtain ⟨htype', hsize, haddrs⟩ := hsame m
        rw [htype'] at hm'
        rw [hsize, haddrs]
        exact hs.filled m hm'
      case live =>
        intro m hm' hlink
        by_cases hmi : m = (s.inode ip).inum
        · refine ⟨ip, ?_, ?_⟩
          · rw [href]
            exact hu.pos
          · rw [hinum, hmi]
        · obtain ⟨k, hk, hki⟩ := hbeside m hmi hm' hlink
          exact ⟨k, by omega, hki⟩
  · exact hbeside m fun heq => hlost (congrArg some heq.symm)

/-! ## Writing a piece of a file -/

theorem Wrote.inode_keys (hw : Wrote s ip off src s') (k : Slot) :
    (s'.inode k).ref = (s.inode k).ref ∧ (s'.inode k).inum = (s.inode k).inum ∧
      (s'.inode k).valid = (s.inode k).valid := by
  by_cases hk : k = ip
  · rw [hk, hw.entry]
    exact ⟨rfl, rfl, rfl⟩
  · rw [hw.others k hk]
    exact ⟨rfl, rfl, rfl⟩

/-- Types and links on the disk. -/
theorem Wrote.dinode_keys (hw : Wrote s ip off src s') (hs : Sound s) (hu : InUse s ip) (n : Nat) :
    (s'.dinode n).type = (s.dinode n).type ∧ (s'.dinode n).nlink = (s.dinode n).nlink := by
  by_cases hn : n = (s.inode ip).inum
  · rw [hn, hw.disk, hw.entry, ← (hs.toCoherent.typed hu).1]
    exact ⟨rfl, rfl⟩
  · rw [hw.dinode n hn]
    exact ⟨rfl, rfl⟩

theorem Midway.wrote (hm : Midway s h lost) (hu : InUse s ip) (hw : Wrote s ip off src s') :
    Midway s' h lost := by
  refine ⟨hw.sound, fun k => ?_, fun n hlost hn hlink => ?_⟩
  · rw [(hw.inode_keys k).1]
    exact hm.held k
  · rw [(hw.dinode_keys hm.sound hu n).1] at hn
    rw [(hw.dinode_keys hm.sound hu n).2] at hlink
    obtain ⟨k, hk, hki⟩ := hm.beside n hlost hn hlink
    exact ⟨k, by rw [(hw.inode_keys k).1]; exact hk, by rw [(hw.inode_keys k).2.1]; exact hki⟩

/-! ## Dropping a reference -/

theorem Midway.not_frees (hm : Midway s (h + one ip) lost)
    (hne : lost ≠ some (s.inode ip).inum) : ¬ Frees s ip := by
  intro hfrees
  obtain ⟨hvalid, hnlink, hone⟩ := hfrees
  have hpos : 0 < (s.inode ip).ref := by omega
  obtain ⟨hdisk, htype⟩ := hm.sound.toCoherent.typed ⟨hvalid, hpos⟩
  obtain ⟨k, hk, hki⟩ := hm.beside (s.inode ip).inum hne (by rw [← hdisk]; exact htype)
    (by rw [← hdisk]; exact hnlink)
  obtain rfl := hm.sound.cache.unique k ip (by omega) hpos hki
  simp only [Pi.add_apply, one_self] at hk
  omega

/-- The state after a reference to `ip` was dropped and nothing freed. -/
def putIn (s : Kernel) (ip : Slot) : Kernel :=
  withInode s ip { s.inode ip with ref := (s.inode ip).ref - 1, locked := false }

theorem putIn_ref (k : Slot) : ((putIn s ip).inode k).ref = (s.inode k).ref - one ip k := by
  by_cases hk : k = ip
  · rw [hk, one_self, putIn, withInode_self]
    rfl
  · rw [one_of_ne hk, putIn, withInode_of_ne hk]
    simp

theorem putIn_inum (k : Slot) : ((putIn s ip).inode k).inum = (s.inode k).inum := by
  by_cases hk : k = ip
  · rw [hk, putIn, withInode_self]
  · rw [putIn, withInode_of_ne hk]

/-- Dropping a reference that frees nothing: `lost` must stay with somebody. -/
theorem Midway.put (hm : Midway s (h + one ip) lost) (hmoves : Moves s (one ip) (putIn s ip) 0)
    (hleft : ∀ n, lost = some n → (s.dinode n).type ≠ 0 → (s.dinode n).nlink = 0 →
      ∃ k, (one ip k : Int) < (s.inode k).ref ∧ (s.inode k).inum = n) :
    Midway (putIn s ip) h lost := by
  have hs := hm.sound
  have hheld := hm.held
  have hone : (one ip ip : Int) ≤ (s.inode ip).ref := by
    have := hheld ip
    simp only [Pi.add_apply] at this
    omega
  have hbeside : ∀ n, lost ≠ some n → (s.dinode n).type ≠ 0 → (s.dinode n).nlink = 0 →
      ∃ k, (h k : Int) < ((putIn s ip).inode k).ref ∧ ((putIn s ip).inode k).inum = n := by
    intro n hlost hn hlink
    obtain ⟨k, hk, hki⟩ := hm.beside n hlost hn hlink
    simp only [Pi.add_apply] at hk
    exact ⟨k, by rw [putIn_ref]; omega, by rw [putIn_inum]; exact hki⟩
  refine ⟨?_, fun k => ?_, hbeside⟩
  · constructor
    case small => exact hs.small
    case laid => exact hs.laid
    case toCoherent =>
      constructor
      case cache =>
        refine hmoves.cache hs.cache fun k => ?_
        have := hheld k
        simp only [Pi.add_apply] at this
        omega
      case clean =>
        intro k hk hv
        by_cases hkip : k = ip
        · subst hkip
          rw [one_self] at hone
          rw [putIn, withInode_self] at hv ⊢
          exact hs.clean k (by omega) hv
        · rw [putIn, withInode_of_ne hkip] at hk hv ⊢
          exact hs.clean k hk hv
      case filled => exact hs.filled
      case live =>
        intro n hn hlink
        by_cases hlost : lost = some n
        · obtain ⟨k, hk, hki⟩ := hleft n hlost hn hlink
          exact ⟨k, by rw [putIn_ref]; omega, by rw [putIn_inum]; exact hki⟩
        · obtain ⟨k, hk, hki⟩ := hbeside n hlost hn hlink
          exact ⟨k, by omega, hki⟩
  · have := hheld k
    simp only [Pi.add_apply] at this
    rw [putIn_ref]
    omega

theorem iput_putIn (hkeep : ¬ Frees s ip) (hrun : (iput ip).run s = .ok (u, s')) :
    s' = putIn s ip :=
  (Prod.mk.inj (Except.ok.inj ((iput_run hkeep (iput_unlocked hrun)).symm.trans hrun))).2.symm

/-- A reference to an inode that is not `lost` is dropped. -/
theorem Midway.iput (hm : Midway s (h + one ip) lost) (hne : lost ≠ some (s.inode ip).inum)
    (hrun : (Fs.iput ip).run s = .ok (u, s')) : Midway s' h lost ∧ SameDisk s s' := by
  have hmoves := iput_moves hrun
  obtain rfl := iput_putIn (hm.not_frees hne) hrun
  refine ⟨hm.put hmoves fun n hlost hn hlink => ?_, ⟨rfl, rfl, rfl, rfl⟩⟩
  obtain ⟨k, hk, hki⟩ := hm.sound.live n hn hlink
  refine ⟨k, ?_, hki⟩
  rw [one_of_ne]
  · exact hk
  · rintro rfl
    exact hne (hlost.trans (congrArg some hki.symm))

/-- The inode `n` is free on the disk, and nothing else differs but marks of blocks. -/
structure Gone (s : Kernel) (n : Nat) (s' : Kernel) : Prop where
  type : (s'.dinode n).type = 0
  dinode : ∀ m, m ≠ n → s'.dinode m = s.dinode m
  block : s'.block = s.block
  sb : s'.sb = s.sb

theorem Gone.tree (hg : Gone s n s') : (Fs.tree s' n).type = 0 ∧
    ∀ m, m ≠ n → Fs.tree s' m = Fs.tree s m := by
  refine ⟨hg.type, fun m hm => ?_⟩
  unfold Fs.tree
  rw [hg.dinode m hm, hg.block]

/-- What `iput` does with the last reference to an inode without links. -/
structure Freed (s : Kernel) (ip : Slot) (s' : Kernel) : Prop
    extends Gone s (s.inode ip).inum s' where
  others : ∀ k, k ≠ ip → s'.inode k = s.inode k
  last : (s'.inode ip).ref = 0
  bitmap : ∀ b, ¬ OwnBlock s ip b → s'.bitmap b = s.bitmap b
  empty : ∀ i, i ≤ NDIRECT → (s'.dinode (s.inode ip).inum).addrs i = 0

theorem iput_freed (hfrees : Frees s ip) (hrun : (Fs.iput ip).run s = .ok (u, s')) :
    Freed s ip s' := by
  obtain ⟨hvalid, hnlink, hone⟩ := hfrees
  have hfree := iput_unlocked hrun
  have hacquire : (acquiresleep ip).run s =
      .ok ((), withInode s ip { s.inode ip with locked := true }) := by
    rw [acquiresleep, inodeAt_bind_run, if_neg (by rw [hfree]; exact Bool.false_ne_true),
      setInode_run]
  rw [Fs.iput, Prog.bind_eq hacquire, inodeAt_bind_run, withInode_self, Prog.bind_ok] at hrun
  obtain ⟨_, s₁, hwhen, hrun⟩ := hrun
  rw [Prog.when, if_pos ⟨hvalid, hnlink, hone⟩, Prog.bind_ok] at hwhen
  obtain ⟨_, s₂, htrunc, hwhen⟩ := hwhen
  have he := itrunc_erased htrunc
  rw [setInode_bind_run, iupdate_bind_run] at hwhen
  obtain rfl := setInode_ok.mp hwhen
  rw [releasesleep, setInode_bind_run] at hrun
  obtain rfl := setInode_ok.mp hrun
  have hinum : (s₂.inode ip).inum = (s.inode ip).inum := by
    rw [he.entry, withInode_self]
  have href : (s₂.inode ip).ref = 1 := by
    rw [he.entry, withInode_self]
    exact hone
  have hown : ∀ b, OwnBlock (withInode s ip { s.inode ip with locked := true }) ip b ↔
      OwnBlock s ip b := by
    intro b
    unfold OwnBlock
    rw [withInode_self]
    rfl
  constructor
  case toGone =>
    constructor
    case type =>
      simp only [updated, withInode_self, withInode_dinode, hinum, Function.update_self]
    case dinode =>
      intro m hm
      simp only [updated, withInode_self, withInode_dinode, hinum, Function.update_of_ne hm]
      rw [he.dinode m (by rw [withInode_self]; exact hm)]
      rfl
    case block => exact he.block
    case sb => exact he.sb
  case others =>
    intro k hk
    simp only [updated, withInode_of_ne hk]
    rw [he.others k hk, withInode_of_ne hk]
  case last =>
    simp only [updated, withInode_self]
    rw [href]
    rfl
  case bitmap => exact fun b hb => he.bitmap b fun h => hb ((hown b).mp h)
  case empty =>
    intro i hi
    simp only [updated, withInode_self, withInode_dinode, hinum, Function.update_self]
    exact he.empty i hi

/-- The last reference to `lost` is dropped, and with it the inode, or it is still
somebody's. -/
theorem Midway.iput_lost (hm : Midway s (one ip) (some (s.inode ip).inum))
    (hvalid : (s.inode ip).valid = true) (hrun : (Fs.iput ip).run s = .ok (u, s')) :
    Midway s' 0 none ∧ (SameDisk s s' ∨
      (s.inode ip).nlink = 0 ∧ Gone s (s.inode ip).inum s') := by
  have hs := hm.sound
  have hmoves := iput_moves hrun
  have hheld := hm.held ip
  rw [one_self] at hheld
  have hpos : 0 < (s.inode ip).ref := by omega
  obtain ⟨hdisk, htype⟩ := hs.toCoherent.typed ⟨hvalid, hpos⟩
  by_cases hfrees : Frees s ip
  · have hf := iput_freed hfrees hrun
    refine ⟨?_, Or.inr ⟨hfrees.2.1, hf.toGone⟩⟩
    have hbeside : ∀ n, (s'.dinode n).type ≠ 0 → (s'.dinode n).nlink = 0 →
        ∃ k, 0 < (s'.inode k).ref ∧ (s'.inode k).inum = n := by
      intro n hn hlink
      have hne : n ≠ (s.inode ip).inum := by
        rintro rfl
        exact hn hf.type
      rw [hf.dinode n hne] at hn hlink
      obtain ⟨k, hk, hki⟩ := hm.beside n (fun h => hne (Option.some.inj h).symm) hn hlink
      have hkip : k ≠ ip := by
        rintro rfl
        exact hne hki.symm
      rw [one_of_ne hkip] at hk
      rw [hf.others k hkip |>.symm] at hk hki
      exact ⟨k, hk, hki⟩
    have hnum : ∀ k, 0 < (s'.inode k).ref → k ≠ ip := by
      rintro k hk rfl
      rw [hf.last] at hk
      exact absurd hk (lt_irrefl 0)
    refine ⟨?_, fun k => ?_, fun n _ => hbeside n⟩
    · constructor
      case small =>
        rw [hf.sb]
        exact hs.small
      case laid =>
        have hdinodes : s'.dinode = Function.update s.dinode (s.inode ip).inum
            (s'.dinode (s.inode ip).inum) := by
          funext m
          by_cases hm' : m = (s.inode ip).inum
          · rw [hm', Function.update_self]
          · rw [Function.update_of_ne hm', hf.dinode m hm']
        rw [hdinodes, hf.block]
        refine hs.laid.empty (by rw [← hdisk]; exact htype) (fun b hb => hf.bitmap b ?_) hf.empty
        rw [← hdisk] at hb
        exact hb
      case toCoherent =>
        constructor
        case cache =>
          refine hmoves.cache hs.cache fun k => ?_
          exact hm.held k
        case clean =>
          intro k hk hv
          have hkip := hnum k hk
          rw [hf.others k hkip] at hk hv ⊢
          rw [hf.dinode _ fun heq => hkip (hs.cache.unique k ip hk hpos heq)]
          exact hs.clean k hk hv
        case filled =>
          intro n hn
          have hne : n ≠ (s.inode ip).inum := by
            rintro rfl
            exact hn hf.type
          rw [hf.dinode n hne] at hn ⊢
          rw [hf.block]
          exact hs.filled n hn
        case live => exact hbeside
    · by_cases hkip : k = ip
      · rw [hkip, hf.last]
        exact le_rfl
      · rw [hf.others k hkip]
        exact hs.cache.nonneg k
  · have hput := iput_putIn hfrees hrun
    subst hput
    have hm' : Midway s (0 + one ip) (some (s.inode ip).inum) := by
      rw [zero_add]
      exact hm
    have hkept : (s.dinode (s.inode ip).inum).nlink = 0 → 1 < (s.inode ip).ref := by
      intro hlink
      rw [← hdisk] at hlink
      by_contra hle
      exact hfrees ⟨hvalid, hlink, by omega⟩
    refine ⟨?_, Or.inl ⟨rfl, rfl, rfl, rfl⟩⟩
    have hnext := hm'.put hmoves fun n hlost hn hlink => ?_
    · refine ⟨hnext.sound, hnext.held, fun n _ hn hlink => ?_⟩
      by_cases hlost : n = (s.inode ip).inum
      · have hmore := hkept (by rw [← hlost]; exact hlink)
        refine ⟨ip, ?_, ?_⟩
        · rw [putIn_ref, one_self]
          show (0 : Int) < _
          omega
        · rw [putIn_inum, hlost]
      · exact hnext.beside n (fun h => hlost (Option.some.inj h).symm) hn hlink
    · obtain rfl := Option.some.inj hlost
      have hmore := hkept hlink
      refine ⟨ip, ?_, rfl⟩
      rw [one_self]
      omega

end Fs
end CS444
