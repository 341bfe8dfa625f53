/-
`sys_link`.

The call raises the link count before it looks at the new path, and lowers it again
when it fails.  It makes the new name if the old path names something that is no
directory and the new one names nothing in a directory, `sys_link_result`, and
otherwise leaves the tree alone.
-/
import CS444.Fs.Unlink

namespace CS444
namespace Fs

open Bytes Program Ledger

variable {s s₁ s' : Kernel} {ip dp cwd : Slot} {d m n : Nat} {h : Slot → Nat}
  {a name old new : Str} {links res : Int} {u : User}

/-- A new name for the inode `m`, `a` in the directory `d`, can be made. -/
structure Linkable (t : FileTree) (cwd : Nat) (old new : Str) (m d : Nat) (a : Str) : Prop where
  old : resolve t cwd old = some m
  file : (t m).type ≠ T_DIR
  new : resolveParent t cwd new = some (d, a)
  free : lookup (t d).contents a = none

/-- The files are as they were. -/
structure Untouched (s s' : Kernel) : Prop where
  sound : Sound s'
  tree : tree s' = tree s
  nlinks : ∀ n, (s'.dinode n).nlink = (s.dinode n).nlink

theorem SameDisk.untouched (hd : SameDisk s s') (hs : Sound s') : Untouched s s' :=
  ⟨hs, hd.tree, fun n => by rw [hd.dinode]⟩

/-- The exits that lower the link count again. -/
theorem linkBad_untouched (hm : Midway s (one ip) none) (hinum : (s.inode ip).inum = m)
    (hlinks : short ((s.dinode m).nlink - 1) ≠ 0)
    (hrun : (linkBad ip).run s = .ok (res, s')) : res = -1 ∧ Sound s' ∧ tree s' = tree s ∧
      (s'.dinode m).nlink = short ((s.dinode m).nlink - 1) ∧
      ∀ n, n ≠ m → s'.dinode n = s.dinode n := by
  rw [linkBad, Prog.bind_ok] at hrun
  obtain ⟨_, s₁, hlock, hrun⟩ := hrun
  have hc := hm.sound.toCoherent
  obtain ⟨hsince, hl⟩ := (hc.sinceHere none).ilock hc hlock
  have hm₁ := hm.since hsince
  rw [hinum] at hl
  rw [add_zero] at hm₁
  rw [setInode_bind_run, iupdate_bind_run, Prog.bind_ok] at hrun
  obtain ⟨_, s₂, hput, hrun⟩ := hrun
  obtain ⟨rfl, rfl⟩ := Prog.pure_ok.mp hrun
  have hnlink : (s₁.inode ip).nlink = (s.dinode m).nlink := congrArg Dinode.nlink hl.disk
  rw [hnlink] at hput
  obtain ⟨hs', hrest, hlater⟩ := hm₁.relinked hl.inUse hl.inum hput
  rw [hsince.disk.tree, hsince.disk.dinode] at hrest
  rw [hsince.disk.tree] at hlater
  rcases hlater with ⟨hsame, hself⟩ | ⟨hzero, -⟩
  · refine ⟨rfl, hs', ?_, hself, fun n hn => (hrest n hn).2⟩
    funext n
    by_cases hn : n = m
    · rw [hn]
      exact hsame
    · exact (hrest n hn).1
  · exact absurd hzero hlinks

/-! ## `sys_link` -/

theorem short_ne_zero {n : Int} (hpos : 1 ≤ n) (hlt : n < 2 ^ 15) : short (n + 1) ≠ 0 := by
  unfold short
  rw [Int.bmod_def]
  omega

/-- A link count raised and lowered again. -/
theorem short_back {n : Int} (hpos : 1 ≤ n) (hlt : n < 2 ^ 15) :
    short (short (n + 1) - 1) = n := by
  unfold short
  simp only [Int.bmod_def]
  omega

/-- The link count of `m` is raised, and the code has a reference to it. -/
structure Raised (s : Kernel) (ip : Slot) (m : Nat) (s' : Kernel) : Prop where
  midway : Midway s' (one ip) none
  inum : (s'.inode ip).inum = m
  tree : tree s' = tree s
  self : (s'.dinode m).nlink = short ((s.dinode m).nlink + 1)
  others : ∀ n, n ≠ m → s'.dinode n = s.dinode n
  moves : Moves s 0 s' (one ip)

theorem Raised.pos (hr : Raised s ip m s') : 0 < (s'.inode ip).ref := by
  have := hr.midway.held ip
  rw [one_self] at this
  omega

theorem Since.raised {u : Unit} (hs : Sound s) (hsince : Since s s₁ (one ip) (some ip))
    (hl : Loaded s s₁ ip m) (hlinks : short ((s.dinode m).nlink + 1) ≠ 0)
    (hrun : (Fs.iunlock ip).run (rewritten s₁ ip { s₁.inode ip with
      nlink := short ((s₁.inode ip).nlink + 1) }) = .ok (u, s')) : Raised s ip m s' := by
  have hnlink : (s₁.inode ip).nlink = (s.dinode m).nlink := congrArg Dinode.nlink hl.disk
  rw [hnlink] at hrun
  have hm := hs.midway.since hsince
  rw [zero_add] at hm
  have hr : Rewrites (s₁.inode ip)
    { s₁.inode ip with nlink := short ((s.dinode m).nlink + 1) } :=
    ⟨rfl, rfl, rfl, rfl, rfl, rfl, rfl⟩
  have hself : ((rewritten s₁ ip { s₁.inode ip with
      nlink := short ((s.dinode m).nlink + 1) }).dinode m).nlink =
      short ((s.dinode m).nlink + 1) := by
    rw [rewritten_dinode]
    simp only [hl.inum, Function.update_self]
    rfl
  have hm₁ := (hm.rewrite hl.inUse (by simp) hr).settle fun _ => by
    rw [hl.inum, hself]
    exact hlinks
  obtain ⟨hsince', hinum⟩ := (hm₁.sound.toCoherent.sinceHere (some ip)).iunlock hrun
  have hm' := hm₁.since hsince'
  rw [add_zero] at hm'
  constructor
  case midway => exact hm'
  case inum =>
    rw [hinum, rewritten_self]
    exact hl.inum
  case tree => rw [hsince'.disk.tree, rewritten_tree hm.sound hl.inUse hr, hsince.disk.tree]
  case self =>
    rw [hsince'.disk.dinode]
    exact hself
  case others =>
    intro n hn
    rw [hsince'.disk.dinode, rewritten_dinode, Function.update_of_ne, hsince.disk.dinode]
    simp only [hl.inum]
    exact hn
  case moves => exact (hsince.moves.andThen (hr.moves hl.inUse)).andThen hsince'.moves

/-- What was found in the disk of one state is what another with the same files has. -/
theorem Renamed.of_raised {r : Option Nat} (hr : Renamed s₁ s' d name r m links)
    (htree : tree s₁ = tree s) (hdinode : ∀ n, n ≠ m → s₁.dinode n = s.dinode n) :
    Renamed s s' d name r m links := by
  have htypes : ∀ n, (s₁.dinode n).type = (s.dinode n).type := fun n =>
    congrArg Node.type (congrFun htree n)
  constructor
  case sound => exact hr.sound
  case distinct => exact hr.distinct
  case rebound =>
    rw [← htree]
    exact hr.rebound
  case nodes =>
    intro n hn
    rw [← htree]
    rw [← htypes] at hn
    exact hr.nodes n hn
  case nlinks =>
    intro n hn
    rw [← hdinode n hn]
    exact hr.nlinks n hn
  case kept =>
    rw [← htree]
    exact hr.kept

/-- A name for a file was added, and nothing else was written. -/
theorem Rebinds.renamed (hr : Rebinds s s₁ d name (some m)) (hs' : Sound s')
    (hdisk : SameDisk s₁ s') (htype : (tree s d).type = T_DIR) (hdistinct : Distinct (tree s))
    (hfree : lookup (tree s d).contents name = none) (hfile : (tree s m).type ≠ T_DIR)
    (hm : (s.dinode m).type ≠ 0) :
    Renamed s s' d name (some m) m (s.dinode m).nlink := by
  have hmd : m ≠ d := by
    rintro rfl
    exact hfile htype
  have htree := hdisk.tree
  obtain ⟨hrebound, hdistinct'⟩ := hr.rebound htype hdistinct
    (fun n hn => by
      rw [hfree] at hn
      exact absurd hn (by simp))
    (fun n hn => Option.some.inj hn ▸ hfile) hfile (Or.inl (congrFun htree m))
    (fun n _ => congrFun htree n)
  refine ⟨hs', hrebound, hdistinct', fun n hn hnd _ => ?_, fun n _ => ?_, fun _ => ⟨?_, ?_⟩⟩
  · rw [htree]
    exact hr.nodes n hn hnd
  · rw [hdisk.dinode]
    exact hr.nlinks n
  · rw [htree]
    exact hr.nodes m hm hmd
  · rw [hdisk.dinode]
    exact hr.nlinks m

/-- `sys_link` makes the new name, or leaves the files alone. -/
theorem sys_link_result (hs : Sound s) (hcwd : CwdIs s cwd) (hdistinct : Distinct (tree s))
    (hrooted : Rooted (tree s) (s.inode cwd).inum)
    (hold : u.argstr 0 = some old) (hnew : u.argstr 1 = some new)
    (hlinks : ∀ m, resolve (tree s) (s.inode cwd).inum old = some m →
      (tree s m).type ≠ T_DIR → 1 ≤ (s.dinode m).nlink ∧ (s.dinode m).nlink < 2 ^ 15)
    (hrun : (sys_link u).run s = .ok (res, s')) :
    (res = -1 ∧ Untouched s s' ∧
      ∀ m d a, ¬ Linkable (tree s) (s.inode cwd).inum old new m d a) ∨
    (res = 0 ∧ ∃ m d a, Linkable (tree s) (s.inode cwd).inum old new m d a ∧
      Renamed s s' d a (some m) m (short ((s.dinode m).nlink + 1))) := by
  have hc := hs.toCoherent
  rw [sys_link, hold, hnew] at hrun
  simp only at hrun
  rw [Prog.bind_ok] at hrun
  obtain ⟨found, s₁, hwalk, hrun⟩ := hrun
  rcases namei_since hc hcwd (hc.sinceHere none) hwalk with
    ⟨rfl, hnone, hsince₁⟩ | ⟨ip, rfl, hfound, hsince₁⟩
  · obtain ⟨rfl, rfl⟩ := Prog.pure_ok.mp hrun
    refine Or.inl ⟨rfl, hsince₁.disk.untouched (hsince₁.sound hs), fun m d a hl => ?_⟩
    have := hl.old
    rw [hnone] at this
    exact absurd this (by simp)
  · simp only at hrun
    rw [Prog.bind_ok] at hrun
    obtain ⟨_, s₂, hlock, hrun⟩ := hrun
    obtain ⟨hsince₂, hl₂⟩ := hsince₁.ilock hc hlock
    have hm₂ := hs.midway.since hsince₂
    rw [zero_add, zero_add] at hm₂
    generalize (s₁.inode ip).inum = m at hfound hl₂
    have hother : ∀ m' d a, Linkable (tree s) (s.inode cwd).inum old new m' d a → m' = m := by
      intro m' d a hl
      have := hl.old
      rw [hfound] at this
      exact (Option.some.inj this).symm
    rw [inodeAt_bind_run] at hrun
    by_cases hdir : (s₂.inode ip).type = T_DIR
    · rw [if_pos hdir, Prog.bind_ok] at hrun
      obtain ⟨_, s₃, hput, hrun⟩ := hrun
      obtain ⟨rfl, rfl⟩ := Prog.pure_ok.mp hrun
      obtain ⟨hm₃, hd₃⟩ : Midway s₃ 0 none ∧ SameDisk s₂ s₃ := by
        refine Midway.iunlockput ?_ hput
        rw [zero_add]
        exact hm₂
      have hd : SameDisk s s₃ := hsince₂.disk.same hd₃.sb hd₃.bitmap hd₃.block hd₃.dinode
      refine Or.inl ⟨rfl, hd.untouched hm₃.sound, fun m' d a hl => ?_⟩
      obtain rfl := hother m' d a hl
      exact hl.file (hl₂.type.symm.trans hdir)
    · have hfile : (tree s m).type ≠ T_DIR := fun h => hdir (hl₂.type.trans h)
      have hmtype : (s.dinode m).type ≠ 0 := hl₂.type ▸ hl₂.typed
      obtain ⟨d', a', -, hnamed⟩ := resolve_file hrooted hfound hfile
      obtain ⟨hne, hlt⟩ := lookup_inum hnamed
      obtain ⟨hpos, hshort⟩ := hlinks m hfound hfile
      rw [if_neg hdir, setInode_bind_run, iupdate_bind_run, Prog.bind_ok] at hrun
      obtain ⟨_, s₃, hunlock, hrun⟩ := hrun
      rw [zero_add] at hsince₂
      have hr := hsince₂.raised hs hl₂ (short_ne_zero hpos hshort) hunlock
      have hback : short ((s₃.dinode m).nlink - 1) = (s.dinode m).nlink := by
        rw [hr.self]
        exact short_back hpos hshort
      -- the exits that lower the count again
      have hbad : ∀ t, Midway t (one ip) none → SameDisk s₃ t → (t.inode ip).inum = m →
          (linkBad ip).run t = .ok (res, s') → res = -1 ∧ Untouched s s' := by
        intro t hm hd hinum hrun
        obtain ⟨hres, hs', htree, hself, hrest⟩ := linkBad_untouched hm hinum
          (by rw [hd.dinode, hback]; omega) hrun
        refine ⟨hres, hs', ?_, fun n => ?_⟩
        · rw [htree, hd.tree, hr.tree]
        · by_cases hn : n = m
          · rw [hn, hself, hd.dinode, hback]
          · rw [hrest n hn, hd.dinode, hr.others n hn]
      obtain ⟨hcwd₃, hcwdnum⟩ := hr.moves.cwdIs hcwd
      have hc₃ := hr.midway.sound.toCoherent
      rw [Prog.bind_ok] at hrun
      obtain ⟨found, s₄, hwalk₄, hrun⟩ := hrun
      have hwalked := nameiparent_since hc₃ hcwd₃ (hc₃.sinceHere none) hwalk₄
      rw [hr.tree, hcwdnum] at hwalked
      rcases hwalked with ⟨rfl, hnone, hsince₄⟩ | ⟨dp, a, rfl, hsince₄, hparent⟩
      · have hm₄ := hr.midway.since hsince₄
        rw [add_zero] at hm₄
        obtain ⟨rfl, huntouched⟩ := hbad s₄ hm₄ hsince₄.disk
          ((hsince₄.cwd hr.pos).trans hr.inum) hrun
        refine Or.inl ⟨rfl, huntouched, fun m' d a hl => ?_⟩
        have := hl.new
        rw [hnone] at this
        exact absurd this (by simp)
      · simp only at hrun
        rw [Prog.bind_ok] at hrun
        obtain ⟨_, s₅, hlock₅, hrun⟩ := hrun
        obtain ⟨hsince₅, hl₅⟩ := hsince₄.ilock hc₃ hlock₅
        generalize (s₄.inode dp).inum = d at hparent hl₅
        have hm₅ := hr.midway.since hsince₅
        rw [zero_add] at hm₅
        have hinum₅ : (s₅.inode ip).inum = m := (hsince₅.cwd hr.pos).trans hr.inum
        have htree₅ : tree s₅ = tree s := hsince₅.disk.tree.trans hr.tree
        obtain ⟨hdtype, -⟩ := resolve_of_parent hparent
        have hnew' : ∀ m' d' a', Linkable (tree s) (s.inode cwd).inum old new m' d' a' →
            d' = d ∧ a' = a := by
          intro m' d' a' hl
          have := hl.new
          rw [hparent] at this
          obtain ⟨rfl, rfl⟩ := Prod.mk.inj (Option.some.inj this)
          exact ⟨rfl, rfl⟩
        have hdptype : (s₅.inode dp).type = T_DIR := by
          rw [hl₅.type, ← hdtype, ← hr.tree]
          rfl
        rw [inodeAt_bind_run, inodeAt_bind_run] at hrun
        have hdev : ¬(s₅.inode dp).dev ≠ (s₅.inode ip).dev := by
          have hheld := hm₅.held ip
          simp only [Pi.add_apply, one_self] at hheld
          rw [not_not, hm₅.sound.cache.dev dp hl₅.inUse.pos,
            hm₅.sound.cache.dev ip (by omega)]
        rw [if_neg hdev, Prog.bind_ok] at hrun
        obtain ⟨r, s₆, hlink, hrun⟩ := hrun
        rw [hinum₅] at hlink
        rw [← htree₅] at hdistinct hdtype hfile
        obtain ⟨hm₆, hadds⟩ := dirlink_adds hm₅ hl₅.inUse hl₅.inum hdptype
          (hdistinct d hdtype) hne hlt hlink
        rcases hadds with ⟨rfl, hexists, hd₆⟩ | ⟨rfl, hfree, hrebinds⟩
        · rw [if_pos (by decide), Prog.bind_ok] at hrun
          obtain ⟨_, s₇, hput, hrun⟩ := hrun
          obtain ⟨hm₇, hd₇⟩ := hm₆.iunlockput hput
          have hd : SameDisk s₃ s₇ := by
            have := hsince₅.disk.same hd₆.sb hd₆.bitmap hd₆.block hd₆.dinode
            exact this.same hd₇.sb hd₇.bitmap hd₇.block hd₇.dinode
          have hapart : ip ≠ dp := by
            rintro rfl
            have hmd : m = d := hinum₅.symm.trans hl₅.inum
            rw [hmd] at hfile
            exact hfile hdtype
          have hpos₅ : 0 < (s₅.inode ip).ref := by
            have := hm₅.held ip
            simp only [Pi.add_apply, one_self] at this
            omega
          have hmoves₆ := dirlink_moves hlink hl₅.inUse.pos hl₅.inUse.valid
          have hpos₆ := hmoves₆.keeps_pos hpos₅
          have hinum₇ : (s₇.inode ip).inum = m := by
            rw [((iunlockput_moves hput).pinned ip (by rw [one_of_ne hapart]; omega)).inum,
              (hmoves₆.pinned ip (by simpa using hpos₅)).inum, hinum₅]
          obtain ⟨rfl, huntouched⟩ := hbad s₇ hm₇ hd hinum₇ hrun
          refine Or.inl ⟨rfl, huntouched, fun m' d' a' hl => ?_⟩
          obtain ⟨rfl, rfl⟩ := hnew' m' d' a' hl
          rw [htree₅] at hexists
          exact hexists hl.free
        · rw [if_neg (by decide), Prog.bind_ok] at hrun
          obtain ⟨_, s₇, hput, hrun⟩ := hrun
          obtain ⟨hm₇, hd₇⟩ := hm₆.iunlockput hput
          rw [Prog.bind_ok] at hrun
          obtain ⟨_, s₈, hput₈, hrun⟩ := hrun
          obtain ⟨rfl, rfl⟩ := Prog.pure_ok.mp hrun
          rw [← zero_add (one ip)] at hm₇
          obtain ⟨hm₈, hd₈⟩ := hm₇.iput (by simp) hput₈
          have hd : SameDisk s₆ s₈ := hd₇.same hd₈.sb hd₈.bitmap hd₈.block hd₈.dinode
          have hmtype₅ : (s₅.dinode m).type ≠ 0 := by
            have := congrArg Node.type (congrFun htree₅ m)
            exact fun h => hmtype (this.symm.trans h)
          have hrenamed := hrebinds.renamed hm₈.sound hd hdtype hdistinct hfree hfile hmtype₅
          rw [hsince₅.disk.dinode, hr.self] at hrenamed
          have hrenamed' := (hrenamed.after hsince₅.disk).of_raised hr.tree hr.others
          rw [htree₅] at hfree hfile
          exact Or.inr ⟨rfl, m, d, a, ⟨hfound, hfile, hparent, hfree⟩, hrenamed'⟩

end Fs
end CS444
