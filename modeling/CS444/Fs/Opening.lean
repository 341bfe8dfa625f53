/-
What `openFile` does to files.

It empties the file when the mode asks for that, and then takes a file table entry
and a descriptor; if there is none of them left it fails, and has emptied the file
all the same, `openFile_files`.
-/
import CS444.Fs.Open
import CS444.Fs.Unlink

namespace CS444
namespace Fs

open Bytes Program Ledger

variable {s s₁ s' : Kernel} {ip k : Slot} {m n omode : Nat} {h : Slot → Nat} {l : Option Nat}
  {r : Int} {u : Unit}

/-! ## The tables of files and processes -/

/-- The inodes are as they were. -/
structure SameInodes (s s' : Kernel) : Prop extends SameDisk s s' where
  inode : s'.inode = s.inode

theorem SameDisk.refl (s : Kernel) : SameDisk s s := ⟨rfl, rfl, rfl, rfl⟩

theorem SameDisk.trans (hab : SameDisk s s₁) (hbc : SameDisk s₁ s') : SameDisk s s' :=
  hab.same hbc.sb hbc.bitmap hbc.block hbc.dinode

/-- Files and descriptors have no part in what a sound file system is. -/
theorem SameInodes.sound (hi : SameInodes s s') (hs : Sound s) : Sound s' := by
  constructor
  case small =>
    rw [hi.sb]
    exact hs.small
  case laid =>
    rw [hi.bitmap, hi.block, hi.dinode]
    exact hs.laid
  case toCoherent =>
    constructor
    case cache => exact (InodeMoves.of_eq hi.inode hi.dinode 0).cacheOk hs.cache
    case clean =>
      rw [hi.inode, hi.dinode]
      exact hs.clean
    case filled =>
      rw [hi.dinode, hi.block]
      exact hs.filled
    case live =>
      rw [hi.inode, hi.dinode]
      exact hs.live

theorem SameInodes.midway (hi : SameInodes s s') (hm : Midway s h l) : Midway s' h l := by
  refine ⟨hi.sound hm.sound, ?_, ?_⟩
  · rw [hi.inode]
    exact hm.held
  · rw [hi.inode, hi.dinode]
    exact hm.beside

/-! ## Emptying a file -/

/-- The file `m` is empty, and nothing else is different. -/
structure Drained (s : Kernel) (m : Nat) (s' : Kernel) : Prop where
  self : tree s' m = ⟨(tree s m).type, []⟩
  others : ∀ n, n ≠ m → tree s' n = tree s n
  types : ∀ n, (s'.dinode n).type = (s.dinode n).type
  nlinks : ∀ n, (s'.dinode n).nlink = (s.dinode n).nlink

theorem Erased.keys (he : Erased s ip s') (k : Slot) : (s'.inode k).ref = (s.inode k).ref ∧
    (s'.inode k).inum = (s.inode k).inum ∧ (s'.inode k).valid = (s.inode k).valid := by
  by_cases hk : k = ip
  · rw [hk, he.entry]
    exact ⟨rfl, rfl, rfl⟩
  · rw [he.others k hk]
    exact ⟨rfl, rfl, rfl⟩

/-- Types and links on the disk. -/
theorem Erased.dinode_keys (he : Erased s ip s') (hs : Coherent s) (hu : InUse s ip) (n : Nat) :
    (s'.dinode n).type = (s.dinode n).type ∧ (s'.dinode n).nlink = (s.dinode n).nlink := by
  by_cases hn : n = (s.inode ip).inum
  · rw [hn, he.disk, he.entry, ← (hs.typed hu).1]
    exact ⟨rfl, rfl⟩
  · rw [he.dinode n hn]
    exact ⟨rfl, rfl⟩

theorem Erased.drained (he : Erased s ip s') (hs : Coherent s) (hu : InUse s ip)
    (hinum : (s.inode ip).inum = m) : Drained s m s' := by
  obtain rfl := hinum
  refine ⟨?_, fun n hn => ?_, fun n => (he.dinode_keys hs hu n).1,
    fun n => (he.dinode_keys hs hu n).2⟩
  · have hsize : (s'.dinode (s.inode ip).inum).size = 0 := by
      rw [he.disk, he.entry]
      rfl
    unfold tree contents
    rw [(he.dinode_keys hs hu _).1, hsize]
    rfl
  · unfold tree
    rw [he.dinode n hn, he.block]

theorem Erased.sound (he : Erased s ip s') (hs : Sound s) (hu : InUse s ip)
    (hmoves : Moves s 0 s' 0) : Sound s' := by
  have hc := hs.toCoherent
  obtain ⟨hdisk, htype⟩ := hc.typed hu
  constructor
  case small =>
    rw [he.sb]
    exact hs.small
  case laid =>
    have hdinodes : s'.dinode = Function.update s.dinode (s.inode ip).inum
        (s'.dinode (s.inode ip).inum) := by
      funext n
      by_cases hn : n = (s.inode ip).inum
      · rw [hn, Function.update_self]
      · rw [Function.update_of_ne hn, he.dinode n hn]
    rw [hdinodes, he.block]
    refine hs.laid.empty (by rw [← hdisk]; exact htype) (fun b hb => he.bitmap b ?_) ?_
    · rw [← hdisk] at hb
      exact hb
    · rw [he.disk]
      exact he.empty
  case toCoherent =>
    constructor
    case cache => exact hmoves.cacheOk hs.cache
    case clean =>
      intro k hk hv
      rw [(he.keys k).1] at hk
      rw [(he.keys k).2.2] at hv
      by_cases hkip : k = ip
      · rw [hkip, (he.keys ip).2.1, he.disk]
      · rw [he.others k hkip,
          he.dinode _ fun heq => hkip (hs.cache.unique k ip hk hu.pos heq)]
        exact hs.clean k hk hv
    case filled =>
      intro n hn
      rw [(he.dinode_keys hc hu n).1] at hn
      rw [he.block]
      by_cases hni : n = (s.inode ip).inum
      · have hsize : (s'.dinode n).size = 0 := by
          rw [hni, he.disk, he.entry]
          rfl
        rw [hsize]
        exact ⟨Nat.zero_le _, fun bn hbn => absurd hbn (Nat.not_lt_zero _)⟩
      · rw [he.dinode n hni]
        exact hs.filled n hn
    case live =>
      intro n hn hlink
      rw [(he.dinode_keys hc hu n).1] at hn
      rw [(he.dinode_keys hc hu n).2] at hlink
      obtain ⟨k, hk, hki⟩ := hs.live n hn hlink
      exact ⟨k, by rw [(he.keys k).1]; exact hk, by rw [(he.keys k).2.1]; exact hki⟩

theorem Midway.erased (hm : Midway s h l) (hu : InUse s ip)
    (hrun : (itrunc ip).run s = .ok (u, s')) (hinum : (s.inode ip).inum = m) :
    Midway s' h l ∧ Drained s m s' := by
  have he := itrunc_erased hrun
  have hc := hm.sound.toCoherent
  have hmoves := itrunc_moves hrun hu.valid hu.pos 0
  refine ⟨⟨he.sound hm.sound hu hmoves, fun k => ?_, fun n hlost hn hlink => ?_⟩,
    he.drained hc hu hinum⟩
  · rw [(he.keys k).1]
    exact hm.held k
  · rw [(he.dinode_keys hc hu n).1] at hn
    rw [(he.dinode_keys hc hu n).2] at hlink
    obtain ⟨k, hk, hki⟩ := hm.beside n hlost hn hlink
    exact ⟨k, by rw [(he.keys k).1]; exact hk, by rw [(he.keys k).2.1]; exact hki⟩

/-! ## `openFile` -/

/-- What became of the file `m` that was opened: it was emptied, or nothing was. -/
structure Prepared (s : Kernel) (omode : Nat) (ip : Slot) (m : Nat) (s' : Kernel) : Prop where
  drained : Truncates omode ip s → Drained s m s'
  same : ¬Truncates omode ip s → SameDisk s s'

theorem Prepared.later (hp : Prepared s omode ip m s₁) (hd : SameDisk s₁ s') :
    Prepared s omode ip m s' := by
  refine ⟨fun ht => ?_, fun ht => (hp.same ht).trans hd⟩
  obtain ⟨hself, hothers, htypes, hnlinks⟩ := hp.drained ht
  constructor
  case self =>
    rw [hd.tree]
    exact hself
  case others =>
    rw [hd.tree]
    exact hothers
  case types =>
    rw [hd.dinode]
    exact htypes
  case nlinks =>
    rw [hd.dinode]
    exact hnlinks

theorem Opened.not_full {fd : Fin NOFILE} {f : FileSlot} (ho : Opened s omode ip fd f s') :
    ¬Full s := by
  intro hfull
  rcases hfull with hfiles | hfds
  · exact hfiles f ho.free
  · exact hfds fd ho.closed

theorem openFile_files (hm : Midway s (h + one ip) none) (hu : InUse s ip)
    (hinum : (s.inode ip).inum = m) (hclosed : FilesClosed s)
    (hrun : (openFile omode ip).run s = .ok (r, s')) : Prepared s omode ip m s' ∧
      (r = -1 ∧ Full s ∧ Midway s' h none ∨
        ∃ fd f, r = (fd : Fin NOFILE).val ∧ Opened s omode ip fd f s' ∧
          Midway s' (h + one ip) none) := by
  have hcases := openFile_cases hrun hu hclosed
  rw [openFile, inodeAt_bind_run, Prog.bind_ok] at hrun
  obtain ⟨_, s₁, htrunc, hrun⟩ := hrun
  have hprepared : Prepared s omode ip m s₁ ∧ Midway s₁ (h + one ip) none ∧
      SameTables s s₁ := by
    rw [Prog.when_ok] at htrunc
    rcases htrunc with ⟨ht, htrunc⟩ | ⟨hno, rfl⟩
    · obtain ⟨hm₁, hdrained⟩ := hm.erased hu htrunc hinum
      exact ⟨⟨fun _ => hdrained, fun hno => absurd ht hno⟩, hm₁, (itrunc_erased htrunc).tables⟩
    · exact ⟨⟨fun ht => absurd ht hno, fun _ => .refl s₁⟩, hm, .refl s₁⟩
  obtain ⟨hprepared, hm₁, htables⟩ := hprepared
  rw [Prog.bind_ok] at hrun
  obtain ⟨rf, s₂, halloc, hrun⟩ := hrun
  rcases filealloc_cases halloc with ⟨rfl, rfl⟩ | ⟨f, rfl, hfree, rfl⟩
  · -- the file table is full
    simp only at hrun
    rw [Prog.bind_ok] at hrun
    obtain ⟨_, s₃, hput, hrun⟩ := hrun
    obtain ⟨rfl, rfl⟩ := Prog.pure_ok.mp hrun
    obtain ⟨hm₃, hd⟩ := hm₁.iunlockput hput
    refine ⟨hprepared.later hd, Or.inl ⟨rfl, Or.inl fun f => ?_, hm₃⟩⟩
    rw [← htables.file]
    exact filealloc_none halloc f
  · simp only at hrun
    rw [Prog.bind_ok] at hrun
    obtain ⟨rfd, s₃, hfd, hrun⟩ := hrun
    rcases fdalloc_cases hfd with ⟨rfl, rfl⟩ | ⟨fd, rfl, hfdfree, rfl⟩
    · -- no descriptor is free, and the new file is closed again
      simp only at hrun
      rw [Prog.bind_ok] at hrun
      obtain ⟨_, s₄, hclose, hrun⟩ := hrun
      rw [Prog.bind_ok] at hrun
      obtain ⟨_, s₅, hput, hrun⟩ := hrun
      obtain ⟨rfl, rfl⟩ := Prog.pure_ok.mp hrun
      have hnone : (s₁.file f).type = .none := by
        rw [htables.file] at hfree ⊢
        exact hclosed f hfree
      have hback := fileclose_none hclose (by simp) (by simpa using hnone)
      have hsame : SameInodes s₁ s₄ := by
        rw [hback]
        exact ⟨⟨rfl, rfl, rfl, rfl⟩, rfl⟩
      obtain ⟨hm₅, hd⟩ := (hsame.midway hm₁).iunlockput hput
      refine ⟨hprepared.later (hsame.toSameDisk.trans hd), Or.inl ⟨rfl, Or.inr fun fd => ?_, hm₅⟩⟩
      rw [← htables.proc, ← htables.cur]
      exact fdalloc_none hfd fd
    · simp only at hrun
      rw [Prog.bind_ok] at hrun
      obtain ⟨_, s₄, hunlock, hrun⟩ := hrun
      rw [setFile_bind_run] at hrun
      obtain ⟨rfl, rfl⟩ := Prog.pure_ok.mp hrun
      have hbefore : SameInodes s₁ (withProc (withFile s₁ f { s₁.file f with ref := 1 })
          { s₁.proc s₁.cur with
            ofile := Function.update (s₁.proc s₁.cur).ofile fd (some f) }) :=
        ⟨⟨rfl, rfl, rfl, rfl⟩, rfl⟩
      have hm₃ := hbefore.midway hm₁
      obtain ⟨hsince, -⟩ := (hm₃.sound.toCoherent.sinceHere (some ip)).iunlock hunlock
      have hm₄ := hm₃.since hsince
      rw [add_zero] at hm₄
      have hafter : SameInodes s₄ (withFile s₄ f { s₄.file f with
          type := .inode, ip := some ip, off := 0, readable := omode &&& O_WRONLY = 0
          writable := writableOf omode }) := ⟨⟨rfl, rfl, rfl, rfl⟩, rfl⟩
      refine ⟨hprepared.later ((hbefore.toSameDisk.trans hsince.disk).trans hafter.toSameDisk),
        Or.inr ⟨fd, ?_⟩⟩
      rcases hcases with ⟨hres, -⟩ | ⟨fd', f', hres, hopened⟩
      · exact absurd hres (by omega)
      · have hfd' : fd = fd' := Fin.ext (by exact_mod_cast hres)
        rw [hfd']
        exact ⟨f', rfl, hopened, hafter.midway hm₄⟩

end Fs
end CS444
