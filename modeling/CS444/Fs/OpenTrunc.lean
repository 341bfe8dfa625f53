/-
`sys_open` of a file that is to be written anew.

With `O_WRONLY`, `O_CREATE` and `O_TRUNC` the path names an empty file afterwards, the
one it named or a new one, and the call holds the only descriptor of that file table
entry, `OpenedTrunc`.
-/
import CS444.Fs.Create
import CS444.Fs.Stat

namespace CS444
namespace Fs

open Bytes Program Ledger

variable {s s₁ s' : Kernel} {ip cwd : Slot} {d k m n omode : Nat} {h : Slot → Nat}
  {a path : Str} {fd : Fin NOFILE} {f g : FileSlot} {r : Int} {u : User}
  {t t₁ t' : FileTree}

/-! ## Directories that stay -/

/-- The directories are what they were. -/
structure SameDirs (t t' : FileTree) : Prop where
  dirs : ∀ n, (t' n).type = T_DIR ↔ (t n).type = T_DIR
  nodes : ∀ n, (t n).type = T_DIR → t' n = t n

theorem SameDirs.refl (t : FileTree) : SameDirs t t := ⟨fun _ => Iff.rfl, fun _ _ => rfl⟩

theorem SameDirs.trans (hab : SameDirs t t₁) (hbc : SameDirs t₁ t') : SameDirs t t' :=
  ⟨fun n => (hbc.dirs n).trans (hab.dirs n),
    fun n hn => (hbc.nodes n ((hab.dirs n).mpr hn)).trans (hab.nodes n hn)⟩

theorem Drained.sameDirs (hd : Drained s m s') (hfile : (tree s m).type ≠ T_DIR) :
    SameDirs (tree s) (tree s') := by
  refine ⟨fun n => ?_, fun n hn => hd.others n fun hnm => hfile (hnm ▸ hn)⟩
  show (s'.dinode n).type = T_DIR ↔ (s.dinode n).type = T_DIR
  rw [hd.types]

/-- Files were changed after an entry was. -/
theorem Rebound.later {o : Option Nat} (hr : Rebound t t₁ d a o) (hd : SameDirs t₁ t') :
    Rebound t t' d a o := by
  constructor
  case dir => exact hr.dir
  case dirs => exact fun n => (hd.dirs n).trans (hr.dirs n)
  case others =>
    intro n b hn hat
    rw [hd.nodes n ((hr.dirs n).mpr hn)]
    exact hr.others n b hn hat
  case here =>
    intro b hb
    rw [hd.nodes d ((hr.dirs d).mpr hr.dir)]
    exact hr.here b hb
  case old => exact hr.old
  case new => exact hr.new

/-- An entry may be said to have what it has. -/
theorem SameDirs.rebound (hd : SameDirs t t') (hdir : (t d).type = T_DIR)
    (hentry : lookup (t d).contents a = some m) (hfile : (t m).type ≠ T_DIR) :
    Rebound t t' d a (some m) := by
  constructor
  case dir => exact hdir
  case dirs => exact hd.dirs
  case others =>
    intro n b hn _
    rw [hd.nodes n hn]
  case here =>
    intro b hb
    rw [hd.nodes d hdir, lookup_congr hb]
    exact hentry
  case old =>
    intro n hn
    rw [hentry] at hn
    exact Option.some.inj hn ▸ hfile
  case new => exact fun n hn => Option.some.inj hn ▸ hfile

/-! ## `sys_open` -/

/-- The file `k`, named by the path, is open for writing and empty. -/
structure OpenedTrunc (s : Kernel) (path : Str) (cwd : Nat) (h : Slot → Nat) (fd : Fin NOFILE)
    (f : FileSlot) (ip : Slot) (k : Nat) (s' : Kernel) : Prop where
  named : ∃ d a, resolveParent (tree s) cwd path = some (d, a) ∧
    Rebound (tree s) (tree s') d a (some k)
  source : resolve (tree s) cwd path = some k ∨
    resolve (tree s) cwd path = none ∧ (s.dinode k).type = 0
  node : tree s' k = ⟨T_FILE, []⟩
  others : ∀ n, (s.dinode n).type ≠ 0 → (s.dinode n).type ≠ T_DIR → n ≠ k → tree s' n = tree s n
  midway : Midway s' (h + one ip) none
  inum : (s'.inode ip).inum = k
  sole : SoleFile s' fd f ip
  mode : (s'.file f).writable = FILE_WRITEABLE
  off : (s'.file f).off = 0
  moves : InodeMoves s 0 s' (one ip)
  kept : ∀ {fd' g j}, SoleFile s fd' g j →
    SoleFile s' fd' g j ∧ s'.file g = s.file g ∧ fd' ≠ fd ∧ g ≠ f

/-- Other files stay open. -/
theorem Opened.kept {j : Slot} {fd' : Fin NOFILE} (ho : Opened s omode ip fd f s')
    (hg : SoleFile s fd' g j) :
    SoleFile s' fd' g j ∧ s'.file g = s.file g ∧ fd' ≠ fd ∧ g ≠ f := by
  obtain ⟨hfd, htype, hip, href⟩ := hg
  have hne : fd' ≠ fd := by
    rintro rfl
    rw [ho.closed] at hfd
    exact absurd hfd (by simp)
  have hgf : g ≠ f := by
    rintro rfl
    rw [ho.free] at href
    exact absurd href (by decide)
  have hfile : s'.file g = s.file g := by
    rw [ho.file, Function.update_of_ne hgf]
  refine ⟨?_, hfile, hne, hgf⟩
  constructor
  case fd =>
    rw [ho.cur, ho.proc, Function.update_self]
    show Function.update (s.proc s.cur).ofile fd (some f) fd' = some g
    rw [Function.update_of_ne hne]
    exact hfd
  all_goals
    rw [hfile]
    assumption

/-- The new or existing file before `openFile`. -/
structure Target (s : Kernel) (path : Str) (cwd : Nat) (h : Slot → Nat) (ip : Slot) (k : Nat)
    (s' : Kernel) : Prop where
  named : ∃ d a, resolveParent (tree s) cwd path = some (d, a) ∧
    Rebound (tree s) (tree s') d a (some k)
  source : resolve (tree s) cwd path = some k ∨
    resolve (tree s) cwd path = none ∧ (s.dinode k).type = 0
  type : (tree s' k).type = T_FILE
  others : ∀ n, (s.dinode n).type ≠ 0 → (s.dinode n).type ≠ T_DIR → n ≠ k → tree s' n = tree s n
  midway : Midway s' (h + one ip) none
  inUse : InUse s' ip
  inum : (s'.inode ip).inum = k

theorem Existing.target (he : Existing s path m h ip k s') (hrooted : Rooted (tree s) m) :
    Target s path m h ip k s' := by
  have htree := he.disk.tree
  have hfile : (tree s k).type ≠ T_DIR := by
    rw [he.type]
    decide
  obtain ⟨d, a, hparent, hentry⟩ := resolve_file hrooted he.found hfile
  constructor
  case named =>
    refine ⟨d, a, hparent, ?_⟩
    rw [htree]
    exact (SameDirs.refl _).rebound (resolve_of_parent hparent).1 hentry hfile
  case source => exact Or.inl he.found
  case type =>
    rw [htree]
    exact he.type
  case others =>
    intro n _ _ _
    rw [htree]
  case midway => exact he.midway
  case inUse => exact he.inUse
  case inum => exact he.inum

theorem Made.target (hmade : Made s T_FILE d a k ip s')
    (hparent : resolveParent (tree s) m path = some (d, a)) (hm : Midway s' (h + one ip) none) :
    Target s path m h ip k s' := by
  obtain ⟨hdir, hresolve⟩ := resolve_of_parent hparent
  constructor
  case named => exact ⟨d, a, hparent, hmade.rebound⟩
  case source =>
    refine Or.inr ⟨?_, hmade.fresh⟩
    rw [hresolve, hmade.free]
  case type => rw [hmade.node]
  case others =>
    intro n hn hndir _
    refine hmade.others n hn ?_
    rintro rfl
    exact hndir hdir
  case midway => exact hm
  case inUse => exact hmade.inUse
  case inum => exact hmade.inum

/-- The mode `cp` opens its output with. -/
def rewriteMode : Nat := O_WRONLY ||| O_CREATE ||| O_TRUNC

theorem sys_open_trunc (hm : Midway s h none) (hcwd : CwdIs s cwd)
    (hrooted : Rooted (tree s) (s.inode cwd).inum) (hdistinct : Distinct (tree s))
    (hinodes : s.sb.ninodes ≤ 65536) (hclosed : FilesClosed s)
    (hpath : u.argstr 0 = some path) (hmode : u.argint 1 = some rewriteMode)
    (hrun : (Plain.sys_open u).run s = .ok (r, s')) (hr : 0 ≤ r) :
    ∃ fd f ip k, r = (fd : Fin NOFILE).val ∧
      OpenedTrunc s path (s.inode cwd).inum h fd f ip k s' := by
  rw [Plain.sys_open, hpath, hmode] at hrun
  simp only at hrun
  rw [Prog.bind_ok] at hrun
  obtain ⟨found, s₁, hinode, hrun⟩ := hrun
  rw [Plain.openInode, if_pos (by decide)] at hinode
  have hcwdOk : CwdOk s := by
    intro k hk
    rw [hcwd.1] at hk
    exact Option.some.inj hk ▸ hcwd.2
  have hcreated := create_created hm.sound.cache hcwdOk hinode
  have htarget : ∀ ip, found = some ip →
      ∃ k, Target s path (s.inode cwd).inum h ip k s₁ := by
    rintro ip rfl
    rcases create_files hm hcwd hdistinct hinodes (by decide) (by decide) hinode with
      ⟨hnone, -, -⟩ | ⟨ip', k, hsome, -, he⟩ | ⟨d, a, k, ip', hsome, hparent, hmade, hm₁⟩
    · exact absurd hnone (by simp)
    · obtain rfl := Option.some.inj hsome
      exact ⟨k, he.target hrooted⟩
    · obtain rfl := Option.some.inj hsome
      exact ⟨k, hmade.target hparent hm₁⟩
  cases found with
  | none =>
      obtain ⟨rfl, -⟩ := Prog.pure_ok.mp hrun
      exact absurd hr (by decide)
  | some ip =>
      obtain ⟨k, ht⟩ := htarget ip rfl
      have htables := hcreated.moves.tables
      have hclosed₁ : FilesClosed s₁ := by
        unfold FilesClosed
        rw [htables.file]
        exact hclosed
      obtain ⟨hprepared, hcases⟩ := openFile_files ht.midway ht.inUse ht.inum hclosed₁ hrun
      rcases hcases with ⟨rfl, -, -⟩ | ⟨fd, f, rfl, hopened, hm'⟩
      · exact absurd hr (by decide)
      · have htrunc : Truncates rewriteMode ip s₁ := by
          refine ⟨?_, Or.inl (by decide), by decide⟩
          exact hcreated.file rfl ip rfl
        have hdrained := hprepared.drained htrunc
        have hfile : (tree s₁ k).type ≠ T_DIR := by
          rw [ht.type]
          decide
        obtain ⟨d, a, hparent, hreb⟩ := ht.named
        refine ⟨fd, f, ip, k, rfl, ⟨d, a, hparent, hreb.later (hdrained.sameDirs hfile)⟩,
          ht.source, ?_, fun n hn hndir hnk => ?_, hm', ?_, hopened.sole, ?_, ?_, ?_,
          fun {fd' g j} hg => ?_⟩
        · rw [hdrained.self, ht.type]
        · rw [hdrained.others n hnk, ht.others n hn hndir hnk]
        · exact (hopened.inodes.pinned ip (by simpa using ht.inUse.pos)).inum.trans ht.inum
        · rw [hopened.file, Function.update_self]
          show writableOf rewriteMode = FILE_WRITEABLE
          decide
        · rw [hopened.file, Function.update_self]
          rfl
        · exact hcreated.moves.toInodeMoves.trans (hopened.inodes.frame (one ip))
        · have hfiles := htables.file
          have hg₁ : SoleFile s₁ fd' g j := by
            obtain ⟨h₁, h₂, h₃, h₄⟩ := hg
            constructor
            · rw [htables.proc, htables.cur]
              exact h₁
            all_goals
              rw [hfiles]
              assumption
          have hkept := hopened.kept hg₁
          rw [hfiles] at hkept
          exact hkept

end Fs
end CS444
