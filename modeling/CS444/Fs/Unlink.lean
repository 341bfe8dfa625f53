/-
`sys_unlink` of a file.

The call takes the name away and lowers the link count, and the inode goes only when
that was the last link and nobody has the file open, `sys_unlink_file`.  `Renamed`
says what such a call leaves of the tree, of the link counts and of what the process
has.
-/
import CS444.Fs.Names

namespace CS444
namespace Fs

open Bytes Program Ledger

variable {s s₁ s₂ s' : Kernel} {ip dp cwd : Slot} {d m n off : Nat} {h : Slot → Nat}
  {l : Option Slot} {a name path : Str} {links res : Int} {r : Option Nat} {u : User}

/-! ## One name changed -/

/-- The directory `d` has `r` for `name`, the inode `m` has `links` links, and is
gone only if it has none. -/
structure Renamed (s s' : Kernel) (d : Nat) (name : Str) (r : Option Nat) (m : Nat)
    (links : Int) : Prop where
  sound : Sound s'
  rebound : Rebound (tree s) (tree s') d name r
  distinct : Distinct (tree s')
  nodes : ∀ n, (s.dinode n).type ≠ 0 → n ≠ d → n ≠ m → tree s' n = tree s n
  nlinks : ∀ n, n ≠ m → (s'.dinode n).nlink = (s.dinode n).nlink
  kept : links ≠ 0 → tree s' m = tree s m ∧ (s'.dinode m).nlink = links

/-- The working directory of the process stays what it is. -/
theorem InodeMoves.cwdIs (hm : InodeMoves s 0 s' h)
    (hproc : (s'.proc s'.cur).cwd = (s.proc s.cur).cwd) (hcwd : CwdIs s cwd) :
    CwdIs s' cwd ∧ (s'.inode cwd).inum = (s.inode cwd).inum := by
  obtain ⟨hdir, hpos⟩ := hcwd
  have href := hm.ref_eq cwd
  simp only [Pi.zero_apply] at href
  exact ⟨⟨hproc.trans hdir, by omega⟩, (hm.pinned cwd (by simpa using hpos)).inum⟩

theorem Moves.cwdIs (hm : Moves s 0 s' h) (hcwd : CwdIs s cwd) :
    CwdIs s' cwd ∧ (s'.inode cwd).inum = (s.inode cwd).inum :=
  hm.toInodeMoves.cwdIs (by rw [hm.tables.proc, hm.tables.cur]) hcwd

/-- An entry was rebound, and then an inode that is no directory lost its links or
not. -/
theorem Rebinds.rebound (hr : Rebinds s s₁ d name r) (htype : (tree s d).type = T_DIR)
    (hdistinct : Distinct (tree s)) (hold : ∀ n, lookup (tree s d).contents name = some n →
      (tree s n).type ≠ T_DIR) (hnew : ∀ n, r = some n → (tree s n).type ≠ T_DIR)
    (hm : (tree s m).type ≠ T_DIR)
    (hlater : tree s' m = tree s₁ m ∨ (tree s' m).type = 0)
    (hrest : ∀ n, n ≠ m → tree s' n = tree s₁ n) :
    Rebound (tree s) (tree s') d name r ∧ Distinct (tree s') := by
  have hdm : d ≠ m := by
    rintro rfl
    exact hm htype
  have htypes : ∀ n, n ≠ m → (tree s' n).type = (tree s n).type := by
    intro n hn
    rw [hrest n hn]
    exact hr.types n
  have hdir : ∀ n, (tree s' n).type = T_DIR ↔ (tree s n).type = T_DIR := by
    intro n
    by_cases hn : n = m
    · subst hn
      refine iff_of_false ?_ hm
      rcases hlater with hsame | hzero
      · rw [hsame]
        exact fun h => hm ((hr.types n).symm.trans h)
      · rw [hzero]
        decide
    · rw [htypes n hn]
  have hother : ∀ n, (tree s n).type = T_DIR → n ≠ d → tree s' n = tree s n := by
    intro n hn hnd
    have hnm : n ≠ m := by
      rintro rfl
      exact hm hn
    rw [hrest n hnm]
    refine hr.nodes n (fun hzero => ?_) hnd
    exact absurd (hzero.symm.trans hn) (by decide)
  refine ⟨⟨htype, hdir, fun n a hn hat => ?_, fun a ha => ?_, hold, hnew⟩, fun n hn => ?_⟩
  · by_cases hnd : n = d
    · rw [hnd, hrest d hdm, hr.lookups a, if_neg fun ha => hat ⟨hnd, ha⟩]
    · rw [hother n hn hnd]
  · rw [hrest d hdm, hr.lookups a, if_pos ha]
  · by_cases hnd : n = d
    · rw [hnd, hrest d hdm]
      exact hr.clear
    · rw [hdir n] at hn
      rw [hother n hn hnd]
      exact hdistinct n hn

/-- Looking names up first makes no difference. -/
theorem Renamed.after (hr : Renamed s₁ s' d name r m links) (hd : SameDisk s s₁) :
    Renamed s s' d name r m links := by
  have htree := hd.tree
  have hdinode := hd.dinode
  constructor
  case sound => exact hr.sound
  case distinct => exact hr.distinct
  case rebound =>
    rw [← htree]
    exact hr.rebound
  case nodes =>
    rw [← htree, ← hdinode]
    exact hr.nodes
  case nlinks =>
    rw [← hdinode]
    exact hr.nlinks
  case kept =>
    rw [← htree]
    exact hr.kept

/-! ## `sys_unlink` -/

/-- Unlocking an inode and dropping the reference, when that is not the one to an inode
that lost its links. -/
theorem Midway.iunlockput {u : Unit} (hm : Midway s (h + one ip) none)
    (hrun : (Fs.iunlockput ip).run s = .ok (u, s')) : Midway s' h none ∧ SameDisk s s' := by
  rw [Fs.iunlockput, Prog.bind_ok] at hrun
  obtain ⟨_, s₁, hunlock, hput⟩ := hrun
  obtain ⟨hsince, -⟩ := (hm.sound.toCoherent.sinceHere (some ip)).iunlock hunlock
  have hm₁ := hm.since hsince
  rw [add_zero] at hm₁
  obtain ⟨hm', hd⟩ := hm₁.iput (by simp) hput
  exact ⟨hm', hsince.disk.same hd.sb hd.bitmap hd.block hd.dinode⟩

/-- Unlocking and dropping an inode that may have lost its links. -/
theorem Midway.iunlockput_lost {u : Unit} (hm : Midway s (one ip) (some m)) (hip : InUse s ip)
    (hinum : (s.inode ip).inum = m) (hrun : (Fs.iunlockput ip).run s = .ok (u, s')) :
    Sound s' ∧ (SameDisk s s' ∨ (s.dinode m).nlink = 0 ∧ Gone s m s') := by
  rw [Fs.iunlockput, Prog.bind_ok] at hrun
  obtain ⟨_, s₁, hunlock, hput⟩ := hrun
  obtain ⟨hsince, hinum₁⟩ := (hm.sound.toCoherent.sinceHere (some ip)).iunlock hunlock
  have hm₁ := hm.since hsince
  rw [add_zero, ← hinum, ← hinum₁] at hm₁
  have hip₁ := (hsince.moves.inUse' hip).1
  obtain ⟨hm', hlater⟩ := hm₁.iput_lost hip₁.valid hput
  refine ⟨hm'.sound, ?_⟩
  rcases hlater with hd | ⟨hzero, hgone⟩
  · exact Or.inl (hsince.disk.same hd.sb hd.bitmap hd.block hd.dinode)
  · have hlink := congrArg Dinode.nlink (hm₁.sound.toCoherent.typed hip₁).1
    rw [hinum₁, hinum] at hgone hlink
    refine Or.inr ⟨?_, hgone.type, fun n hn => ?_, ?_, ?_⟩
    · rw [← hsince.disk.dinode, ← hlink]
      exact hzero
    · rw [hgone.dinode n hn, hsince.disk.dinode]
    · rw [hgone.block, hsince.disk.block]
    · rw [hgone.sb, hsince.disk.sb]

/-- The links of an inode were set, and its reference dropped. -/
theorem Midway.relinked {u : Unit} (hm : Midway s (one ip) none) (hip : InUse s ip)
    (hinum : (s.inode ip).inum = m)
    (hrun : (Fs.iunlockput ip).run
      (rewritten s ip { s.inode ip with nlink := links }) = .ok (u, s')) :
    Sound s' ∧ (∀ n, n ≠ m → tree s' n = tree s n ∧ s'.dinode n = s.dinode n) ∧
      (tree s' m = tree s m ∧ (s'.dinode m).nlink = links ∨
        links = 0 ∧ (tree s' m).type = 0) := by
  have hs := hm.sound
  have hr : Rewrites (s.inode ip) { s.inode ip with nlink := links } :=
    ⟨rfl, rfl, rfl, rfl, rfl, rfl, rfl⟩
  have hm₁ := hm.rewrite hip (by simp) hr
  have hmoves := hr.moves hip
  have htree := rewritten_tree hs hip hr
  have hdinode : (rewritten s ip { s.inode ip with nlink := links }).dinode =
      Function.update s.dinode (s.inode ip).inum { (s.inode ip).disk with nlink := links } :=
    rewritten_dinode
  have hip₁ := (hmoves.inUse' hip).1
  have hinum₁ : ((rewritten s ip { s.inode ip with nlink := links }).inode ip).inum = m := by
    rw [rewritten_self]
    exact hinum
  rw [hinum] at hm₁
  obtain ⟨hs', hlater⟩ := hm₁.iunlockput_lost hip₁ hinum₁ hrun
  have hother : ∀ n, n ≠ m → (rewritten s ip { s.inode ip with nlink := links }).dinode n =
      s.dinode n := by
    intro n hn
    rw [hdinode, Function.update_of_ne]
    rw [hinum]
    exact hn
  have hself : ((rewritten s ip { s.inode ip with nlink := links }).dinode m).nlink = links := by
    rw [hdinode, hinum, Function.update_self]
  rcases hlater with hd | ⟨hzero, hgone⟩
  · rw [hd.tree, hd.dinode, htree]
    exact ⟨hs', fun n hn => ⟨rfl, hother n hn⟩, Or.inl ⟨rfl, hself⟩⟩
  · rw [hself] at hzero
    obtain ⟨htype, hrest⟩ := hgone.tree
    refine ⟨hs', fun n hn => ⟨?_, ?_⟩, Or.inr ⟨hzero, htype⟩⟩
    · rw [hrest n hn, htree]
    · rw [hgone.dinode n hn, hother n hn]

/-- The rest of the call for an entry of a file. -/
theorem unlinkEntry_file (hm : Midway s (one dp + one ip) none) (hdp : InUse s dp)
    (hip : InUse s ip) (hd : (s.inode dp).inum = d) (hi : (s.inode ip).inum = m)
    (htype : (tree s d).type = T_DIR) (hfile : (tree s m).type ≠ T_DIR)
    (hdistinct : Distinct (tree s)) (hoff : entryOff (tree s d).contents name = some off)
    (hentry : lookup (tree s d).contents name = some m)
    (hrun : (unlinkEntry dp ip off).run s = .ok (res, s')) :
    res = 0 ∧ Renamed s s' d name none m (short ((s.dinode m).nlink - 1)) := by
  have hs := hm.sound
  have hdisk := (hs.toCoherent.typed hdp).1
  have hdtype : (s.inode dp).type = T_DIR := by
    rw [← htype, ← hd]
    exact congrArg Dinode.type hdisk
  have hne : dp ≠ ip := by
    rintro rfl
    rw [hd] at hi
    exact hfile (hi ▸ htype)
  rw [unlinkEntry, Prog.bind_ok] at hrun
  obtain ⟨n, s₁, hwrite, hrun⟩ := hrun
  split at hrun
  · exact absurd hrun (by simp)
  · rename_i hall
    rcases writei_wrote hs hdp (by rw [hdtype]; decide) (by decide) hwrite with
      ⟨rfl, -⟩ | ⟨-, -, -, hw⟩
    · exact absurd (by decide) hall
    · have hclears : Rebinds s s₁ d name none := hw.clears hs hdp hd (hdistinct d htype) hoff
      have hm₁ := hm.wrote hdp hw
      have hentry₁ : s₁.inode ip = s.inode ip := hw.others ip hne.symm
      have hip₁ : InUse s₁ ip := by
        constructor
        · rw [hentry₁]
          exact hip.valid
        · rw [hentry₁]
          exact hip.pos
      have hitype : (s.inode ip).type ≠ T_DIR := by
        intro h
        rw [← hi] at hfile
        exact hfile ((congrArg Dinode.type (hs.toCoherent.typed hip).1).symm.trans h)
      rw [inodeAt_bind_run, Prog.when, if_neg (by rw [hentry₁]; exact hitype),
        Prog.pure_bind_run, Prog.bind_ok] at hrun
      obtain ⟨_, s₂, hput, hrun⟩ := hrun
      rw [add_comm] at hm₁
      obtain ⟨hm₂, hd₂⟩ := hm₁.iunlockput hput
      have hheld : (one dp ip : Int) < (s₁.inode ip).ref := by
        have := hm₁.held ip
        rw [one_of_ne hne.symm]
        have := hip₁.pos
        omega
      have hmoves₂ := iunlockput_moves hput
      have hip₂ := (hmoves₂.inUse hip₁ hheld).1
      have hinum₂ : (s₂.inode ip).inum = m := by
        rw [(hmoves₂.pinned ip hheld).inum, hentry₁, hi]
      have hlinks : (s₂.inode ip).nlink = (s.dinode m).nlink := by
        rw [← hclears.nlinks m, ← hd₂.dinode, ← hinum₂]
        exact congrArg Dinode.nlink (hm₂.sound.toCoherent.typed hip₂).1
      rw [setInode_bind_run, iupdate_bind_run, Prog.bind_ok] at hrun
      obtain ⟨_, s₃, hput₃, hrun⟩ := hrun
      obtain ⟨rfl, rfl⟩ := Prog.pure_ok.mp hrun
      rw [hlinks] at hput₃
      obtain ⟨hs', hrest, hlater⟩ := hm₂.relinked hip₂ hinum₂ hput₃
      rw [hd₂.tree, hd₂.dinode] at hrest
      rw [hd₂.tree] at hlater
      have hgone : tree s₃ m = tree s₁ m ∨ (tree s₃ m).type = 0 :=
        hlater.imp And.left And.right
      obtain ⟨hrebound, hdistinct'⟩ := hclears.rebound htype hdistinct
        (fun k hk => by
          rw [hentry] at hk
          exact Option.some.inj hk ▸ hfile)
        (fun k hk => absurd hk (by simp)) hfile hgone (fun k hk => (hrest k hk).1)
      have hmtype : (s.dinode m).type ≠ 0 := by
        rw [← hi, ← (hs.toCoherent.typed hip).1]
        exact (hs.toCoherent.typed hip).2
      have hmd : m ≠ d := by
        rintro rfl
        exact hfile htype
      refine ⟨rfl, hs', hrebound, hdistinct', fun k hk hkd hkm => ?_, fun k hkm => ?_,
        fun hlink => ?_⟩
      · rw [(hrest k hkm).1]
        exact hclears.nodes k hk hkd
      · rw [(hrest k hkm).2]
        exact hclears.nlinks k
      · rcases hlater with ⟨hsame, hnlink⟩ | ⟨hzero, -⟩
        · exact ⟨hsame.trans (hclears.nodes m hmtype hmd), hnlink⟩
        · exact absurd hzero hlink

theorem Since.dirlookup_off {s₀ : Kernel} (hsince : Since s₀ s h l) (hs : Coherent s₀)
    (hl : Loaded s₀ s dp d) (htype : (s.inode dp).type = T_DIR)
    (hrun : (Fs.dirlookup dp name).run s = .ok (some (ip, off), s')) :
    entryOff (tree s₀ d).contents name = some off := by
  rw [dirlookup_eq (hl.filled hsince hs) htype, hl.cached hsince] at hrun
  cases hentry : entryOff (tree s₀ d).contents name with
  | none =>
      rw [hentry, fetched] at hrun
      split at hrun <;> simp at hrun
  | some o =>
      rw [hentry, fetched, Prog.bind_ok] at hrun
      obtain ⟨k, s₁, -, hrun⟩ := hrun
      obtain ⟨heq, -⟩ := Prog.pure_ok.mp hrun
      exact congrArg some (Prod.mk.inj (Option.some.inj heq)).2

/-- `sys_unlink` takes the name of a file away. -/
theorem sys_unlink_file (hs : Sound s) (hcwd : CwdIs s cwd) (hdistinct : Distinct (tree s))
    (hpath : u.argstr 0 = some path)
    (hparent : resolveParent (tree s) (s.inode cwd).inum path = some (d, name))
    (hdots : ¬(namecmp name [46] ∨ namecmp name [46, 46]))
    (hentry : lookup (tree s d).contents name = some m) (hfile : (tree s m).type ≠ T_DIR)
    (hrun : (sys_unlink u).run s = .ok (res, s')) :
    res = 0 ∧ Renamed s s' d name none m (short ((s.dinode m).nlink - 1)) := by
  have hc := hs.toCoherent
  have htype : (tree s d).type = T_DIR := (resolve_of_parent hparent).1
  rw [sys_unlink, hpath] at hrun
  simp only at hrun
  rw [Prog.bind_ok] at hrun
  obtain ⟨found, s₁, hwalk, hrun⟩ := hrun
  rcases nameiparent_since hc hcwd (hc.sinceHere none) hwalk with
    ⟨-, hnone, -⟩ | ⟨dp, nm, rfl, hsince₁, hfound⟩
  · rw [hparent] at hnone
    exact absurd hnone (by simp)
  · rw [hparent] at hfound
    obtain ⟨hd, rfl⟩ := Prod.mk.inj (Option.some.inj hfound)
    simp only at hrun
    rw [Prog.bind_ok] at hrun
    obtain ⟨_, s₂, hlock, hrun⟩ := hrun
    obtain ⟨hsince₂, hl⟩ := hsince₁.ilock hc hlock
    rw [← hd] at hl
    have hdtype : (s₂.inode dp).type = T_DIR := hl.type.trans htype
    rw [if_neg hdots, Prog.bind_ok] at hrun
    obtain ⟨e, s₃, hlookup, hrun⟩ := hrun
    rcases hsince₂.dirlookup hc hl hdtype hlookup with
      ⟨-, -, hnone⟩ | ⟨ip, off, m', rfl, hsome, hinum₃, hsince₃⟩
    · rw [hentry] at hnone
      exact absurd hnone (by simp)
    · rw [hentry] at hsome
      obtain rfl := Option.some.inj hsome
      have hoff := hsince₂.dirlookup_off hc hl hdtype hlookup
      simp only at hrun
      rw [Prog.bind_ok] at hrun
      obtain ⟨_, s₄, hlock₄, hrun⟩ := hrun
      have hm₃ := hs.midway.since hsince₃
      obtain ⟨hsince₄, hl₄⟩ := (hm₃.sound.toCoherent.sinceHere none).ilock
        hm₃.sound.toCoherent hlock₄
      have hm₄ := hm₃.since hsince₄
      rw [add_zero, zero_add, zero_add] at hm₄
      rw [hinum₃] at hl₄
      have hdisk : SameDisk s s₄ := hsince₃.disk.same hsince₄.disk.sb hsince₄.disk.bitmap
        hsince₄.disk.block hsince₄.disk.dinode
      have hdp₄ : InUse s₄ dp ∧ (s₄.inode dp).inum = d := by
        have hpos := hl.inUse.pos
        have hlook := dirlookup_moves hlookup hpos
        have hu₃ := (hlook.inUse' hl.inUse).1
        refine ⟨(hsince₄.moves.inUse' hu₃).1, ?_⟩
        rw [(hsince₄.moves.pinned dp (by simpa using hu₃.pos)).inum,
          (hlook.pinned dp (by simpa using hpos)).inum, hl.inum]
      have htree := hdisk.tree
      rw [inodeAt_bind_run] at hrun
      by_cases hlinks : (s₄.inode ip).nlink < 1
      · rw [if_pos hlinks] at hrun
        exact absurd hrun (by simp)
      · have hitype : (s₄.inode ip).type ≠ T_DIR := by
          rw [hl₄.type]
          show (tree s₃ m).type ≠ T_DIR
          rw [hsince₃.disk.tree]
          exact hfile
        rw [if_neg hlinks, if_neg hitype] at hrun
        rw [← htree] at htype hfile hdistinct hoff hentry
        obtain ⟨rfl, hrenamed⟩ := unlinkEntry_file hm₄ hdp₄.1 hl₄.inUse hdp₄.2 hl₄.inum htype
          hfile hdistinct hoff hentry hrun
        rw [hdisk.dinode] at hrenamed
        exact ⟨rfl, hrenamed.after hdisk⟩

end Fs
end CS444
