/-
What `create` does to files.

It finds a file, or takes an inode that is free and enters its name, and otherwise
leaves the disk alone, `create_files`.  `ialloc_midway` says what the new inode is in
the meantime: allocated and without a link, so that somebody has to refer to it.
-/
import CS444.Fs.Opening

namespace CS444
namespace Fs

open Bytes Program Ledger

variable {bitmap : Nat → Bool} {block : Nat → Mem} {D : Nat → Dinode} {s s₁ s₂ s' : Kernel}
  {ip dp k cwd : Slot} {d m n : Nat} {h : Slot → Nat} {type major minor : Int} {a path : Str}
  {u : Unit}

/-! ## A new inode -/

/-- An inode becomes one without blocks. -/
theorem Laid.enter {e : Dinode} (hl : Laid bitmap block D)
    (hempty : ∀ i, i ≤ NDIRECT → e.addrs i = 0) :
    Laid bitmap block (Function.update D m e) := by
  have hself : ∀ i, i ≤ MAXFILE → place block (Function.update D m e m).addrs i = 0 := by
    intro i hi
    rw [Function.update_self]
    exact place_empty hempty hi
  constructor
  case boot => exact hl.boot
  case used =>
    intro n i hn hi
    by_cases hnm : n = m
    · rw [hnm, hself i hi]
      exact hl.boot
    · rw [Function.update_of_ne hnm] at hn ⊢
      exact hl.used n i hn hi
  case apart =>
    intro n n' i j hn hn' hi hj hne heq
    by_cases hnm : n = m
    · rw [hnm, hself i hi] at hne
      exact absurd rfl hne
    · by_cases hnm' : n' = m
      · rw [hnm', hself j hj] at heq
        exact absurd heq hne
      · rw [Function.update_of_ne hnm] at hn hne heq
        rw [Function.update_of_ne hnm'] at hn' heq
        exact hl.apart n n' i j hn hn' hi hj hne heq

/-- `ialloc` found the free inode `m` and made it one of type `type`. -/
structure Allocated (s : Kernel) (type : Int) (ip : Slot) (m : Nat) (s' : Kernel) : Prop where
  ne_zero : m ≠ 0
  small : m < s.sb.ninodes
  free : (s.dinode m).type = 0
  inum : (s'.inode ip).inum = m
  dinode : s'.dinode = Function.update s.dinode m ⟨type, 0, 0, 0, 0, fun _ => 0⟩
  block : s'.block = s.block
  sb : s'.sb = s.sb

theorem ialloc_midway {dev : Nat} (hm : Midway s h none) (hdev : KnownDev s dev)
    (hrun : (ialloc dev type).run s = .ok (ip, s')) :
    ∃ m, Allocated s type ip m s' ∧ Midway s' (h + one ip) (some m) := by
  have hs := hm.sound
  have hmoves := (ialloc_moves hrun hdev).1
  rw [ialloc, Prog.get_bind_run] at hrun
  split at hrun
  · exact absurd hrun (by simp)
  · rename_i m hfind
    have hfree := List.find?_some hfind
    have hmem := List.mem_of_find?_eq_some hfind
    simp only [decide_eq_true_eq] at hfree
    rw [List.mem_range] at hmem
    rw [Prog.modify_bind_run] at hrun
    obtain ⟨hpos, hzero⟩ := hfree
    -- no entry of the cache was read from the free inode
    have hother : ∀ k, 0 < (s.inode k).ref → (s.inode k).valid = true →
        (s.inode k).inum ≠ m := by
      intro k hk hv heq
      obtain ⟨hdisk, hne⟩ := hs.cache.coherent k hk hv
      rw [heq, hzero] at hdisk
      exact hne hdisk.symm
    have hentry : s'.dinode = Function.update s.dinode m ⟨type, 0, 0, 0, 0, fun _ => 0⟩ ∧
        s'.block = s.block ∧ s'.sb = s.sb ∧ s'.bitmap = s.bitmap ∧
        (s'.inode ip).inum = m ∧ (s'.inode ip).valid = false ∧
        (∀ k, k ≠ ip → s'.inode k = s.inode k) ∧
        (0 < (s.inode ip).ref → (s.inode ip).inum = m) := by
      rcases iget_cases hrun with ⟨hk, -, hinum, rfl⟩ | ⟨-, hzero, rfl⟩
      · refine ⟨rfl, rfl, rfl, rfl, ?_, ?_, fun k hk => withInode_of_ne hk, fun _ => hinum⟩
        · rw [withInode_self]
          exact hinum
        · rw [withInode_self, Bool.eq_false_iff]
          exact fun hv => hother ip hk hv hinum
      · refine ⟨rfl, rfl, rfl, rfl, ?_, ?_, fun k hk => withInode_of_ne hk, fun hk => ?_⟩
        · rw [withInode_self]
        · rw [withInode_self]
        · replace hzero : (s.inode ip).ref = 0 := hzero
          omega
    obtain ⟨hdinode, hblock, hsb, hbitmap, hinum, hinvalid, hothers, hheld⟩ := hentry
    have href : ∀ k, (s'.inode k).ref = (s.inode k).ref + one ip k := by
      intro k
      have := hmoves.ref_eq k
      simpa using this
    have hbeside : ∀ n, n ≠ m → (s'.dinode n).type ≠ 0 → (s'.dinode n).nlink = 0 →
        ∃ k, ((h + one ip) k : Int) < (s'.inode k).ref ∧ (s'.inode k).inum = n := by
      intro n hn htype' hlink
      rw [hdinode, Function.update_of_ne hn] at htype' hlink
      obtain ⟨k, hk, hki⟩ := hm.beside n (by simp) htype' hlink
      have hkip : k ≠ ip := by
        rintro rfl
        exact hn (hki.symm.trans (hheld (by omega)))
      refine ⟨k, ?_, by rw [hothers k hkip]; exact hki⟩
      rw [href, Pi.add_apply]
      omega
    refine ⟨m, ⟨by omega, hmem, hzero, hinum, hdinode, hblock, hsb⟩, ?_, fun k => ?_,
      fun n hlost => hbeside n fun heq => hlost (congrArg some heq.symm)⟩
    · constructor
      case small =>
        rw [hsb]
        exact hs.small
      case laid =>
        rw [hbitmap, hblock, hdinode]
        exact hs.laid.enter fun _ _ => rfl
      case toCoherent =>
        constructor
        case cache => exact hmoves.cacheOk hs.cache
        case clean =>
          intro k hk hv
          by_cases hkip : k = ip
          · rw [hkip, hinvalid] at hv
            exact absurd hv (by simp)
          · rw [hothers k hkip] at hk hv ⊢
            rw [hdinode, Function.update_of_ne (hother k hk hv)]
            exact hs.clean k hk hv
        case filled =>
          intro n hn
          rw [hdinode] at hn ⊢
          rw [hblock]
          by_cases hnm : n = m
          · rw [hnm, Function.update_self]
            exact ⟨Nat.zero_le _, fun bn hbn => absurd hbn (Nat.not_lt_zero _)⟩
          · rw [Function.update_of_ne hnm] at hn ⊢
            exact hs.filled n hn
        case live =>
          intro n hn hlink
          by_cases hnm : n = m
          · refine ⟨ip, ?_, hinum.trans hnm.symm⟩
            have := hs.cache.nonneg ip
            rw [href, one_self]
            omega
          · obtain ⟨k, hk, hki⟩ := hbeside n hnm hn hlink
            exact ⟨k, by omega, hki⟩
    · have := hm.held k
      rw [href, Pi.add_apply]
      omega

theorem Allocated.tree (ha : Allocated s type ip m s') : Fs.tree s' m = ⟨type, []⟩ ∧
    ∀ n, n ≠ m → Fs.tree s' n = Fs.tree s n := by
  unfold Fs.tree
  rw [ha.dinode, ha.block]
  refine ⟨?_, fun n hn => ?_⟩
  · rw [Function.update_self]
    rfl
  · rw [Function.update_of_ne hn]

/-! ## `create` -/

/-- The new inode `m`, in the entry `ip`, is empty and has the name `a` in `d`, and
nothing else is different. -/
structure Made (s : Kernel) (type : Int) (d : Nat) (a : Str) (m : Nat) (ip : Slot) (s' : Kernel) :
    Prop where
  fresh : (s.dinode m).type = 0
  inum : (s'.inode ip).inum = m
  inUse : InUse s' ip
  node : tree s' m = ⟨type, []⟩
  free : lookup (tree s d).contents a = none
  rebound : Rebound (tree s) (tree s') d a (some m)
  distinct : Distinct (tree s')
  others : ∀ n, (s.dinode n).type ≠ 0 → n ≠ d → tree s' n = tree s n

/-- Looking the name up first makes no difference. -/
theorem Made.after (hmade : Made s₁ type d a m ip s') (hd : SameDisk s s₁) :
    Made s type d a m ip s' := by
  obtain ⟨hfresh, hinum, hin, hnode, hfree, hrebound, hdistinct, hothers⟩ := hmade
  rw [hd.tree] at hfree hrebound hothers
  rw [hd.dinode] at hfresh hothers
  exact ⟨hfresh, hinum, hin, hnode, hfree, hrebound, hdistinct, hothers⟩

/-- The new inode `m`, in the entry `ip`, before its name is entered. -/
structure NewInode (s : Kernel) (h : Slot → Nat) (type : Int) (ip : Slot) (m : Nat)
    (s' : Kernel) : Prop where
  ne_zero : m ≠ 0
  small : m < s.sb.ninodes
  fresh : (s.dinode m).type = 0
  midway : Midway s' (h + one ip) none
  inUse : InUse s' ip
  inum : (s'.inode ip).inum = m
  node : tree s' m = ⟨type, []⟩
  others : ∀ n, n ≠ m → tree s' n = tree s n
  moves : Moves s 0 s' (one ip)

theorem newInode_made {dev : Nat} (hm : Midway s h none) (hdev : KnownDev s dev)
    (halloc : (ialloc dev type).run s = .ok (ip, s₁)) (hlock : (ilock ip).run s₁ = .ok (u, s₂)) :
    ∃ m, NewInode s h type ip m (rewritten s₂ ip { s₂.inode ip with
      major := short major, minor := short minor, nlink := 1 }) := by
  obtain ⟨m, ha, hm₁⟩ := ialloc_midway hm hdev halloc
  have hc₁ := hm₁.sound.toCoherent
  obtain ⟨hsince, hl⟩ := (hc₁.sinceHere none).ilock hc₁ hlock
  rw [ha.inum] at hl
  have hm₂ := hm₁.since hsince
  rw [add_zero] at hm₂
  have hr : Rewrites (s₂.inode ip) { s₂.inode ip with
      major := short major, minor := short minor, nlink := 1 } :=
    ⟨rfl, rfl, rfl, rfl, rfl, rfl, rfl⟩
  have htree := (rewritten_tree hm₂.sound hl.inUse hr).trans hsince.disk.tree
  refine ⟨m, ha.ne_zero, ha.small, ha.free, ?_, ⟨?_, ?_⟩, ?_, ?_, fun n hn => ?_, ?_⟩
  · refine (hm₂.rewrite hl.inUse (fun n hn => ?_) hr).settle fun _ => ?_
    · rw [hl.inum]
      exact (Option.some.inj hn).symm
    · rw [rewritten_dinode]
      simp only [Function.update_self]
      show (1 : Int) ≠ 0
      decide
  · rw [rewritten_self]
    exact hl.inUse.valid
  · rw [rewritten_self]
    exact hl.inUse.pos
  · rw [rewritten_self]
    exact hl.inum
  · rw [htree]
    exact ha.tree.1
  · rw [htree]
    exact ha.tree.2 n hn
  · exact ((ialloc_moves halloc hdev).1.andThen hsince.moves).andThen (hr.moves hl.inUse)

theorem createNew_files (hm : Midway s (h + one dp) none) (hu : InUse s dp)
    (hd : (s.inode dp).inum = d) (hdtype : (tree s d).type = T_DIR)
    (hdistinct : Distinct (tree s)) (htype : type ≠ 0) (hkind : type ≠ T_DIR)
    (hinodes : s.sb.ninodes ≤ 65536)
    (hrun : (createNew dp a type major minor).run s = .ok (ip, s')) :
    ∃ m, Made s type d a m ip s' ∧ Midway s' (h + one ip) none := by
  rw [createNew, inodeAt_bind_run, Prog.bind_ok] at hrun
  obtain ⟨new, s₁, halloc, hrun⟩ := hrun
  rw [Prog.bind_ok] at hrun
  obtain ⟨_, s₂, hlock, hrun⟩ := hrun
  obtain ⟨m, hn⟩ : ∃ m, NewInode s (h + one dp) type new m (rewritten s₂ new
      { s₂.inode new with major := short major, minor := short minor, nlink := 1 }) :=
    newInode_made hm (Or.inr ⟨dp, hu.pos, rfl⟩) halloc hlock
  rw [setInode_bind_run, iupdate_bind_run, Prog.when, if_neg hkind, Prog.pure_bind_run,
    inodeAt_bind_run] at hrun
  unfold rewritten at hn
  generalize updated (withInode s₂ new _) new = s₃ at hn hrun
  rw [hn.inum, Prog.bind_ok] at hrun
  obtain ⟨r, s₄, hlink, hrun⟩ := hrun
  have hmd : d ≠ m := by
    rintro rfl
    exact absurd (hn.fresh.symm.trans hdtype) (by decide)
  obtain ⟨hu₃, hdptype₃⟩ := hn.moves.inUse' hu
  have hd₃ : (s₃.inode dp).inum = d := by
    rw [(hn.moves.pinned dp (by simpa using hu.pos)).inum, hd]
  have hdtype₃ : (tree s₃ d).type = T_DIR := by
    rw [hn.others d hmd]
    exact hdtype
  have hdistinct₃ : Distinct (tree s₃) := by
    intro n hdir
    by_cases hnm : n = m
    · rw [hnm, hn.node] at hdir
      exact absurd hdir hkind
    · rw [hn.others n hnm] at hdir ⊢
      exact hdistinct n hdir
  have hdp₃ : (s₃.inode dp).type = T_DIR := by
    rw [← hdtype₃, ← hd₃]
    exact congrArg Dinode.type (hn.midway.sound.toCoherent.typed hu₃).1
  have hsmall := hn.small
  obtain ⟨hm₄, hadds⟩ := dirlink_adds hn.midway hu₃ hd₃ hdp₃ (hdistinct₃ d hdtype₃) hn.ne_zero
    (by omega) hlink
  rcases hadds with ⟨rfl, -, -⟩ | ⟨rfl, hfree, hrebinds⟩
  · rw [if_pos (by decide)] at hrun
    exact absurd hrun (by simp)
  · rw [if_neg (by decide), Prog.bind_ok] at hrun
    obtain ⟨_, s₅, hput, hrun⟩ := hrun
    obtain ⟨rfl, rfl⟩ := Prog.pure_ok.mp hrun
    rw [add_right_comm] at hm₄
    obtain ⟨hm₅, hd₅⟩ := hm₄.iunlockput hput
    have htree₅ := hd₅.tree
    have hmfile : (tree s₃ m).type ≠ T_DIR := by
      rw [hn.node]
      exact hkind
    obtain ⟨hrebound, hdistinct'⟩ := hrebinds.rebound hdtype₃ hdistinct₃
      (fun n hn' => by
        rw [hfree] at hn'
        exact absurd hn' (by simp))
      (fun n hn' => Option.some.inj hn' ▸ hmfile) hmfile (Or.inl (congrFun htree₅ m))
      fun n _ => congrFun htree₅ n
    have hzero : (tree s m).type = 0 := hn.fresh
    have hdirs : ∀ n, (tree s₃ n).type = T_DIR ↔ (tree s n).type = T_DIR := by
      intro n
      by_cases hnm : n = m
      · rw [hnm, hzero]
        exact iff_of_false hmfile (by decide)
      · rw [hn.others n hnm]
    have hsame : ∀ n, (s.dinode n).type ≠ 0 → tree s₃ n = tree s n := by
      intro n hne
      refine hn.others n fun hnm => ?_
      rw [hnm] at hne
      exact hne hn.fresh
    have hapart : new ≠ dp := by
      rintro rfl
      exact hmd (hd₃.symm.trans hn.inum)
    have hmoves₄ := dirlink_moves hlink hu₃.pos hu₃.valid
    have hu₄ := (hmoves₄.inUse' hn.inUse).1
    have hmoves₅ := iunlockput_moves hput
    have hbeside : (one dp new : Int) < (s₄.inode new).ref := by
      rw [one_of_ne hapart]
      exact hu₄.pos
    have hothers : ∀ n, (s₃.dinode n).type ≠ 0 → n ≠ d → tree s₅ n = tree s₃ n := by
      intro n hne hnd
      rw [htree₅]
      exact hrebinds.nodes n hne hnd
    refine ⟨m, ⟨hn.fresh, ?_, (hmoves₅.inUse hu₄ hbeside).1, ?_, ?_, ?_, hdistinct',
      fun n hne hnd => ?_⟩, hm₅⟩
    · rw [(hmoves₅.pinned new hbeside).inum,
        (hmoves₄.pinned new (by simpa using hn.inUse.pos)).inum, hn.inum]
    · refine (hothers m (fun hzero => htype ?_) hmd.symm).trans hn.node
      rw [← hzero]
      exact (congrArg Node.type hn.node).symm
    · rw [hn.others d hmd] at hfree
      exact hfree
    · refine hrebound.before hdirs fun n hdir => hsame n fun hzero => ?_
      exact absurd (hzero.symm.trans hdir) (by decide)
    · refine (hothers n (fun hzero => hne ?_) hnd).trans (hsame n hne)
      rw [← hzero]
      exact (congrArg Node.type (hsame n hne)).symm

/-- `create` found a file of that name. -/
structure Existing (s : Kernel) (path : Str) (cwd : Nat) (h : Slot → Nat) (ip : Slot) (m : Nat)
    (s' : Kernel) : Prop where
  found : resolve (tree s) cwd path = some m
  type : (tree s m).type = T_FILE
  midway : Midway s' (h + one ip) none
  disk : SameDisk s s'
  inUse : InUse s' ip
  inum : (s'.inode ip).inum = m

theorem create_files {res : Option Slot} (hm : Midway s h none) (hcwd : CwdIs s cwd)
    (hdistinct : Distinct (tree s)) (hinodes : s.sb.ninodes ≤ 65536) (htype : type ≠ 0)
    (hkind : type ≠ T_DIR) (hrun : (create path type major minor).run s = .ok (res, s')) :
    (res = none ∧ Midway s' h none ∧ SameDisk s s') ∨
      (∃ ip m, res = some ip ∧ type = T_FILE ∧
        Existing s path (s.inode cwd).inum h ip m s') ∨
      ∃ d a m ip, res = some ip ∧
        resolveParent (tree s) (s.inode cwd).inum path = some (d, a) ∧
        Made s type d a m ip s' ∧ Midway s' (h + one ip) none := by
  have hc := hm.sound.toCoherent
  rw [create, Prog.bind_ok] at hrun
  obtain ⟨found, s₁, hwalk, hrun⟩ := hrun
  rcases nameiparent_since hc hcwd (hc.sinceHere none) hwalk with
    ⟨rfl, -, hsince⟩ | ⟨dp, a, rfl, hsince, hparent⟩
  · obtain ⟨rfl, rfl⟩ := Prog.pure_ok.mp hrun
    have hm₁ := hm.since hsince
    rw [add_zero] at hm₁
    exact Or.inl ⟨rfl, hm₁, hsince.disk⟩
  · simp only at hrun
    rw [Prog.bind_ok] at hrun
    obtain ⟨_, s₂, hlock, hrun⟩ := hrun
    obtain ⟨hsince₂, hl⟩ := hsince.ilock hc hlock
    generalize (s₁.inode dp).inum = d at hparent hl
    obtain ⟨hdtype, hresolve⟩ := resolve_of_parent hparent
    rw [zero_add] at hsince₂
    have hdptype : (s₂.inode dp).type = T_DIR := hl.type.trans hdtype
    have hm₂ := hm.since hsince₂
    rw [Prog.bind_ok] at hrun
    obtain ⟨entry, s₃, hlook, hrun⟩ := hrun
    rcases hsince₂.dirlookup hc hl hdptype hlook with
      ⟨rfl, rfl, hfree⟩ | ⟨ip, off, m, rfl, hentry, hinum, hsince₃⟩
    · -- a new inode
      simp only at hrun
      rw [Prog.bind_ok] at hrun
      obtain ⟨ip, s₄, hnew, hrun⟩ := hrun
      obtain ⟨rfl, rfl⟩ := Prog.pure_ok.mp hrun
      have htree := hsince₂.disk.tree
      obtain ⟨m, hmade, hm'⟩ := createNew_files hm₂ hl.inUse hl.inum (by rw [htree]; exact hdtype)
        (by rw [htree]; exact hdistinct) htype hkind (by rw [hsince₂.disk.sb]; exact hinodes) hnew
      exact Or.inr (Or.inr ⟨d, a, m, _, rfl, hparent, hmade.after hsince₂.disk, hm'⟩)
    · simp only at hrun
      rw [Prog.bind_ok] at hrun
      obtain ⟨_, s₄, hput, hrun⟩ := hrun
      have hm₃ := hm.since hsince₃
      rw [add_comm (one dp), ← add_assoc] at hm₃
      obtain ⟨hm₄, hd₄⟩ := hm₃.iunlockput hput
      rw [Prog.bind_ok] at hrun
      obtain ⟨_, s₅, hlock₅, hrun⟩ := hrun
      have hc₄ := hm₄.sound.toCoherent
      obtain ⟨hsince₅, hl₅⟩ := (hc₄.sinceHere none).ilock hc₄ hlock₅
      have hm₅ := hm₄.since hsince₅
      rw [add_zero] at hm₅
      have hd := (hsince₃.disk.trans hd₄).trans hsince₅.disk
      rw [inodeAt_bind_run] at hrun
      have hinum₄ : (s₄.inode ip).inum = m := by
        have hheld := hm₃.held ip
        simp only [Pi.add_apply, one_self] at hheld
        rw [((iunlockput_moves hput).pinned ip (by omega)).inum, hinum]
      rw [hinum₄] at hl₅
      have htype₅ : (s₅.inode ip).type = (tree s m).type := by
        rw [hl₅.type, ← (hsince₃.disk.trans hd₄).tree]
        rfl
      by_cases hboth : type = T_FILE ∧ (s₅.inode ip).type = T_FILE
      · rw [if_pos hboth] at hrun
        obtain ⟨rfl, rfl⟩ := Prog.pure_ok.mp hrun
        refine Or.inr (Or.inl ⟨ip, m, rfl, hboth.1, ?_, ?_, hm₅, hd, hl₅.inUse, hl₅.inum⟩)
        · rw [hresolve]
          exact hentry
        · rw [← htype₅]
          exact hboth.2
      · rw [if_neg hboth, Prog.bind_ok] at hrun
        obtain ⟨_, s₆, hput₆, hrun⟩ := hrun
        obtain ⟨rfl, rfl⟩ := Prog.pure_ok.mp hrun
        obtain ⟨hm₆, hd₆⟩ := hm₅.iunlockput hput₆
        exact Or.inl ⟨rfl, hm₆, hd.trans hd₆⟩

end Fs
end CS444
