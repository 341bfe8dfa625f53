/-
`mv.c`.

The program gives a file its new name and takes the old one away, but an existing
file of the new name is unlinked before anything is known of the old one.  `Moved` and
`NamesKept` are the two ways a move may end, and `mv_safe_iff` says when it ends in one
of them: unless the new name existed and the old one is missing, is a directory, or is
the same entry.

What the program prints and its `exit` are left out.
-/
import CS444.Fs.Link
import CS444.Fs.Stat
import CS444.Fs.Truncate

namespace CS444
namespace Fs

open Bytes Program Ledger

/-! ## The program -/

namespace Mv

def DIRSTR : Nat := 128

/-- `mv(src, dest)` -/
def mv (u : User) (src dest : Nat) : K Int := do
  let r ← Ulib.link u src dest
  if r < 0 then return -1
  else
    let r ← Ulib.unlink u src
    if r < 0 then return -1 else return 0

/-- The program once `dirstr` holds `dest`, a slash and `arg`, which have to fit. -/
def dirName (u : User) (dirstr dest arg : Nat) : Option User :=
  match u.fetchstr dest, u.fetchstr arg with
  | some d, some a =>
    if d.length + 1 + a.length < DIRSTR then
      some { u with mem := blit u.mem dirstr DIRSTR fun i => (d ++ slash :: a).getD i 0 }
    else none
  | _, _ => none

/-- The loop of `main` that moves into a directory. -/
def intoDir (u : User) (dirstr dest : Nat) : List Nat → K Unit
  | [] => pure ()
  | arg :: rest =>
    match dirName u dirstr dest arg with
    | none => hang
    | some u => do
      let _ ← mv u arg dirstr
      intoDir u dirstr dest rest

/-- `main` from its call of `stat` on, which returned `res` and stored `st`. -/
def replace (u : User) (dirstr : Nat) (argv : List Nat) (src dest : Nat) (res : Int)
    (st : Option Stat) : K Unit := do
  if res < 0 then
    let _ ← mv u src dest
    return ()
  else
    match st with
    | none => return ()
    | some st =>
      if st.type = T_FILE then
        let _ ← Ulib.unlink u dest
        let _ ← mv u src dest
        return ()
      else if st.type = T_DIR then intoDir u dirstr dest ((argv.take (argv.length - 1)).drop 1)
      else return ()

/-- `main(argc, argv)`, with its locals `st` and `dirstr`. -/
def main (u : User) (st dirstr : Nat) (argv : List Nat) : K Unit := do
  if argv.length < 3 then return ()
  else
    let src := argv.getD 1 0
    let dest := argv.getD (argv.length - 1) 0
    let (res, stat) ← Ulib.stat u dest st
    replace u dirstr argv src dest res stat

end Mv

/-! ## What a move may do -/

variable {s s₁ s' : Kernel} {cwd : Slot} {d m n st dirstr srcAt destAt : Nat} {c : Nat}
  {a name src dest : Str} {argv : List Nat} {t t' : FileTree} {r : Int} {u : User}

/-- `dest` names what `src` named, and `src` nothing. -/
def Moved (t t' : FileTree) (cwd : Nat) (src dest : Str) : Prop :=
  ∃ m, resolve t cwd src = some m ∧ resolve t' cwd dest = some m ∧ t' m = t m ∧
    resolve t' cwd src = none

/-- Every path names what it named. -/
def NamesKept (t t' : FileTree) (cwd : Nat) : Prop :=
  ∀ path m, resolve t cwd path = some m → resolve t' cwd path = some m ∧ t' m = t m

/-- The paths end in the same entry of the same directory. -/
def SameEntry (t : FileTree) (cwd : Nat) (p q : Str) : Prop :=
  ∃ d a b, resolveParent t cwd p = some (d, a) ∧ resolveParent t cwd q = some (d, b) ∧
    namecmp a b = true

/-- `src` names something other than a directory, in another entry than `dest`'s. -/
def Replaceable (t : FileTree) (cwd : Nat) (src dest : Str) : Prop :=
  (∃ m, resolve t cwd src = some m ∧ (t m).type ≠ T_DIR) ∧ ¬SameEntry t cwd src dest

/-- The names `.` and `..` are of directories. -/
def Dotted (t : FileTree) : Prop := ∀ d a m, (t d).type = T_DIR →
  lookup (t d).contents a = some m → (namecmp a [46] ∨ namecmp a [46, 46]) → (t m).type = T_DIR

/-- A file system between calls and a process in it: what a name leads to is allocated
and has a link, and what is no directory has one for each of two names. -/
structure Consistent (s : Kernel) (cwd : Slot) : Prop where
  sound : Sound s
  cwdIs : CwdIs s cwd
  closed : FilesClosed s
  rooted : Rooted (tree s) (s.inode cwd).inum
  distinct : Distinct (tree s)
  dotted : Dotted (tree s)
  linked : ∀ d a m, (tree s d).type = T_DIR → lookup (tree s d).contents a = some m →
    (tree s m).type ≠ 0 ∧ 1 ≤ (s.dinode m).nlink ∧ (s.dinode m).nlink < 2 ^ 15
  twice : ∀ d a d' a' m, (tree s d).type = T_DIR → (tree s d').type = T_DIR →
    lookup (tree s d).contents a = some m → lookup (tree s d').contents a' = some m →
    (tree s m).type ≠ T_DIR → d = d' ∧ namecmp a a' = true ∨ 2 ≤ (s.dinode m).nlink

theorem Rebound.rooted (hr : Rebound t t' d name none) (h : Rooted t c) : Rooted t' c :=
  ⟨(hr.dirs _).mpr h.1, (hr.dirs _).mpr h.2⟩

theorem Rebound.dotted (hr : Rebound t t' d name none) (h : Dotted t) : Dotted t' := by
  intro n a m hn hm ha
  rw [hr.dirs] at hn ⊢
  by_cases hat : n = d ∧ namecmp a name = true
  · rw [hat.1, hr.here a hat.2] at hm
    exact absurd hm (by simp)
  · rw [hr.others n a hn hat] at hm
    exact h n a m hn hm ha

/-! ## `mv` -/

/-- What `mv` needs of the file system, which it may have changed since it started. -/
structure Ready (s : Kernel) (cwd : Slot) (src : Str) : Prop where
  sound : Sound s
  cwdIs : CwdIs s cwd
  rooted : Rooted (tree s) (s.inode cwd).inum
  distinct : Distinct (tree s)
  dotted : Dotted (tree s)
  links : ∀ m, resolve (tree s) (s.inode cwd).inum src = some m → (tree s m).type ≠ T_DIR →
    1 ≤ (s.dinode m).nlink ∧ (s.dinode m).nlink < 2 ^ 15

/-- The old name of a file that has been linked is taken away. -/
theorem unlink_src {d' : Nat} {a' : Str} (hr : Ready s cwd src)
    (hu : Stacked u) (hsrc : StringAt u srcAt src)
    (hl : Linkable (tree s) (s.inode cwd).inum src dest m d a)
    (hparent : resolveParent (tree s) (s.inode cwd).inum src = some (d', a'))
    (hentry : lookup (tree s d').contents a' = some m)
    (hlinked : Renamed s s₁ d a (some m) m (short ((s.dinode m).nlink + 1)))
    (hmoves : Moves s 0 s₁ 0) (hrun : (Ulib.unlink u srcAt).run s₁ = .ok (r, s')) :
    r = 0 ∧ Moved (tree s) (tree s') (s.inode cwd).inum src dest := by
  obtain ⟨hpos, hshort⟩ := hr.links m hl.old hl.file
  obtain ⟨hsame, hnlink⟩ := hlinked.kept (short_ne_zero hpos hshort)
  obtain ⟨hcwd₁, hinum₁⟩ := hmoves.cwdIs hr.cwdIs
  obtain ⟨hdtype, -⟩ := resolve_of_parent hparent
  have hapart : ¬(d' = d ∧ namecmp a' a = true) := by
    intro hat
    obtain ⟨rfl, hname⟩ := hat
    rw [lookup_congr hname, hl.free] at hentry
    exact absurd hentry (by simp)
  have hdots : ¬(namecmp a' [46] ∨ namecmp a' [46, 46]) := fun h =>
    hl.file (hr.dotted d' a' m hdtype hentry h)
  have hparent₁ : resolveParent (tree s₁) (s₁.inode cwd).inum src = some (d', a') := by
    rw [hinum₁, hlinked.rebound.resolveParent]
    exact hparent
  have hentry₁ : lookup (tree s₁ d').contents a' = some m := by
    rw [hlinked.rebound.others d' a' hdtype hapart]
    exact hentry
  obtain ⟨rfl, hunlinked⟩ := sys_unlink_file hlinked.sound hcwd₁ hlinked.distinct
    (hsrc.argstr hu (by simp) rfl) hparent₁ hdots hentry₁ (by rw [hsame]; exact hl.file) hrun
  rw [hnlink, short_back hpos hshort] at hunlinked
  obtain ⟨hsame', -⟩ := hunlinked.kept (by omega)
  have hreb := hunlinked.rebound
  rw [hinum₁] at hparent₁
  refine ⟨rfl, m, hl.old, ?_, hsame'.trans hsame, ?_⟩
  · rw [hreb.resolve_other]
    · exact hlinked.rebound.resolve_here hl.new (namecmp_iff.mpr rfl)
    · intro b hb hname
      rw [hlinked.rebound.resolveParent, hl.new] at hb
      obtain ⟨rfl, rfl⟩ := Prod.mk.inj (Option.some.inj hb)
      exact hapart ⟨rfl, namecmp_comm.mp hname⟩
  · exact hreb.resolve_here hparent₁ (namecmp_iff.mpr rfl)

/-- `mv` moves the file, if the new name can be made, and else leaves all as it is. -/
theorem mv_cases (hr : Ready s cwd src) (hu : Stacked u) (hsrc : StringAt u srcAt src)
    (hdest : StringAt u destAt dest) (hrun : (Mv.mv u srcAt destAt).run s = .ok (r, s')) :
    ((∃ m d a, Linkable (tree s) (s.inode cwd).inum src dest m d a) ∧
      Moved (tree s) (tree s') (s.inode cwd).inum src dest) ∨
    ((∀ m d a, ¬Linkable (tree s) (s.inode cwd).inum src dest m d a) ∧ Untouched s s') := by
  rw [Mv.mv, Prog.bind_ok] at hrun
  obtain ⟨r₁, s₁, hlink, hrun⟩ := hrun
  rcases sys_link_result hr.sound hr.cwdIs hr.distinct hr.rooted (hsrc.argstr hu (by simp) rfl)
    (hdest.argstr hu (by simp) rfl) hr.links hlink with
    ⟨rfl, huntouched, hno⟩ | ⟨rfl, m, d, a, hl, hlinked⟩
  · rw [if_pos (by decide)] at hrun
    obtain ⟨-, rfl⟩ := Prog.pure_ok.mp hrun
    exact Or.inr ⟨hno, huntouched⟩
  · rw [if_neg (by decide), Prog.bind_ok] at hrun
    obtain ⟨r₂, s₂, hunlink, hrun⟩ := hrun
    obtain ⟨d', a', hparent, hentry⟩ := resolve_file hr.rooted hl.old hl.file
    have hcwdOk : CwdOk s := by
      intro k hk
      rw [hr.cwdIs.1] at hk
      exact Option.some.inj hk ▸ hr.cwdIs.2
    obtain ⟨rfl, hmoved⟩ := unlink_src hr hu hsrc hl hparent hentry hlinked
      (sys_link_moves hcwdOk hlink) hunlink
    rw [if_neg (by decide)] at hrun
    obtain ⟨-, rfl⟩ := Prog.pure_ok.mp hrun
    exact Or.inl ⟨⟨m, d, a, hl⟩, hmoved⟩

/-! ## The whole program -/

theorem Untouched.namesKept (hu : Untouched s s') (c : Nat) :
    NamesKept (Fs.tree s) (Fs.tree s') c := by
  rw [hu.tree]
  exact fun _ _ h => ⟨h, rfl⟩

theorem Consistent.ready (hc : Consistent s cwd) (src : Str) : Ready s cwd src where
  sound := hc.sound
  cwdIs := hc.cwdIs
  rooted := hc.rooted
  distinct := hc.distinct
  dotted := hc.dotted
  links := by
    intro m hm hfile
    obtain ⟨d, a, hparent, hentry⟩ := resolve_file hc.rooted hm hfile
    exact (hc.linked d a m (resolve_of_parent hparent).1 hentry).2

/-- Looking a path up first makes no difference. -/
theorem Told.ready {path : Str} {res : Int × Option Stat} (ht : Told s path cwd res s')
    (hr : Ready s cwd src) : Ready s' cwd src := by
  obtain ⟨hs, hcwd, hrooted, hdistinct, hdotted, hlinks⟩ := hr
  have htree := ht.disk.tree
  constructor
  case sound => exact ht.sound
  case cwdIs => exact ht.cwdIs
  case rooted =>
    rw [htree, ht.inum]
    exact hrooted
  case distinct =>
    rw [htree]
    exact hdistinct
  case dotted =>
    rw [htree]
    exact hdotted
  case links =>
    rw [htree, ht.inum, ht.disk.dinode]
    exact hlinks

/-- What a path names after an entry was taken away. -/
theorem Rebound.resolve_iff (hr : Rebound t t' d a none)
    (hdest : Fs.resolveParent t c dest = some (d, a)) : resolve t' c src = some m ↔
      resolve t c src = some m ∧ ¬SameEntry t c src dest := by
  by_cases hsame : SameEntry t c src dest
  · obtain ⟨d', b, b', hp, hq, hname⟩ := hsame
    have hq' := hq
    rw [hdest] at hq'
    obtain ⟨rfl, rfl⟩ := Prod.mk.inj (Option.some.inj hq')
    rw [hr.resolve_here hp hname]
    exact iff_of_false (by simp) fun h => h.2 ⟨d, b, a, hp, hq, hname⟩
  · rw [hr.resolve_other fun b hb hname => hsame ⟨d, b, a, hb, hdest, hname⟩]
    exact (and_iff_left hsame).symm

/-- The new name can be made once it is taken away from the file it had. -/
theorem linkable_iff (hr : Rebound t t' d a none)
    (hdest : resolveParent t c dest = some (d, a)) :
    (∃ m d a, Linkable t' c src dest m d a) ↔ Replaceable t c src dest := by
  have htype : ∀ m, (t' m).type ≠ T_DIR ↔ (t m).type ≠ T_DIR := fun m => not_congr (hr.dirs m)
  constructor
  · intro hex
    obtain ⟨m, d', a', hl⟩ := hex
    obtain ⟨hm, hapart⟩ := (hr.resolve_iff hdest).mp hl.old
    exact ⟨⟨m, hm, (htype m).mp hl.file⟩, hapart⟩
  · intro hrep
    obtain ⟨⟨m, hm, hfile⟩, hapart⟩ := hrep
    refine ⟨m, d, a, (hr.resolve_iff hdest).mpr ⟨hm, hapart⟩, (htype m).mpr hfile, ?_,
      hr.here a (namecmp_iff.mpr rfl)⟩
    rw [hr.resolveParent]
    exact hdest

/-- The file system is still good for `mv` once the new name is taken away. -/
theorem Consistent.unlinked (hc : Consistent s cwd) (hcwd₁ : CwdIs s₁ cwd)
    (hinum₁ : (s₁.inode cwd).inum = (s.inode cwd).inum)
    (hdest : resolveParent (tree s) (s.inode cwd).inum dest = some (d, a))
    (hentry : lookup (tree s d).contents a = some m) (hfile : (tree s m).type ≠ T_DIR)
    (hr : Renamed s s₁ d a none m (short ((s.dinode m).nlink - 1))) : Ready s₁ cwd src ∧
      ∀ n, resolve (tree s₁) (s.inode cwd).inum src = some n → (tree s n).type ≠ T_DIR →
        tree s₁ n = tree s n := by
  have hreb := hr.rebound
  have hdtype := hreb.dir
  -- a file that `src` still names has another name than the one that went
  have hother : ∀ n, resolve (tree s₁) (s.inode cwd).inum src = some n →
      (tree s n).type ≠ T_DIR → tree s₁ n = tree s n ∧
        1 ≤ (s₁.dinode n).nlink ∧ (s₁.dinode n).nlink < 2 ^ 15 := by
    intro n hn hnfile
    obtain ⟨hn', hapart⟩ := (hreb.resolve_iff hdest).mp hn
    obtain ⟨d', b, hparent, hentry'⟩ := resolve_file hc.rooted hn' hnfile
    have hdtype' := (resolve_of_parent hparent).1
    obtain ⟨htype, hpos, hshort⟩ := hc.linked d' b n hdtype' hentry'
    by_cases hnm : n = m
    · subst hnm
      rcases hc.twice d' b d a n hdtype' hdtype hentry' hentry hnfile with ⟨rfl, hname⟩ | htwo
      · exact absurd ⟨d', b, a, hparent, hdest, hname⟩ hapart
      · have hlow : short ((s.dinode n).nlink - 1) = (s.dinode n).nlink - 1 := by
          unfold short
          rw [Int.bmod_def]
          omega
        obtain ⟨hsame, hnlink⟩ := hr.kept (by omega)
        rw [hnlink, hlow]
        exact ⟨hsame, by omega, by omega⟩
    · have hnd : n ≠ d := by
        rintro rfl
        exact hnfile hdtype
      rw [hr.nlinks n hnm]
      exact ⟨hr.nodes n htype hnd hnm, hpos, hshort⟩
  refine ⟨⟨hr.sound, hcwd₁, ?_, hr.distinct, hreb.dotted hc.dotted, fun n hn hnfile => ?_⟩,
    fun n hn hnfile => (hother n hn hnfile).1⟩
  · rw [hinum₁]
    exact hreb.rooted hc.rooted
  · rw [hinum₁] at hn
    exact (hother n hn fun h => hnfile ((hreb.dirs n).mpr h)).2

/-- A move ends as it should unless `dest` is an existing file that cannot be told from
`src`, or `src` is missing or a directory. -/
theorem mv_safe_iff {prog : Nat} (hc : Consistent s cwd) (hu : Stacked u)
    (hsrc : StringAt u srcAt src) (hdest : StringAt u destAt dest) (hst : st + 20 ≤ u.sz)
    (hfile : ∀ m, resolve (tree s) (s.inode cwd).inum dest = some m → (tree s m).type = T_FILE)
    (hrun : (Mv.main u st dirstr [prog, srcAt, destAt]).run s = .ok ((), s')) :
    (Moved (tree s) (tree s') (s.inode cwd).inum src dest ∨
        NamesKept (tree s) (tree s') (s.inode cwd).inum) ↔
      resolve (tree s) (s.inode cwd).inum dest = none ∨ Full s ∨
        Replaceable (tree s) (s.inode cwd).inum src dest := by
  rw [Mv.main, if_neg (by simp)] at hrun
  simp only [List.getD_cons_succ, List.getD_cons_zero, List.length_cons, List.length_nil] at hrun
  rw [Prog.bind_ok] at hrun
  obtain ⟨⟨res, stat⟩, s₁, hstat, hrun⟩ := hrun
  have ht := stat_told hc.sound hc.cwdIs hc.closed hu hdest hst hstat
  have htree := ht.disk.tree
  simp only at hrun
  unfold Mv.replace at hrun
  rcases ht.told with ⟨hneg, hwhy⟩ | ⟨m, stt, hres, hfound, htype, hfull⟩
  · -- `stat` failed, and what the new name has stays
    rw [if_pos hneg, Prog.bind_ok] at hrun
    obtain ⟨r, s₂, hmv, hrun⟩ := hrun
    obtain ⟨-, rfl⟩ := Prog.pure_ok.mp hrun
    have hcases := mv_cases (ht.ready (hc.ready src)) hu hsrc hdest hmv
    rw [htree, ht.inum] at hcases
    refine iff_of_true ?_ (hwhy.imp_right Or.inl)
    rcases hcases with ⟨-, hmoved⟩ | ⟨-, huntouched⟩
    · exact Or.inl hmoved
    · have hkept := huntouched.namesKept (s.inode cwd).inum
      rw [htree] at hkept
      exact Or.inr hkept
  · obtain ⟨rfl, rfl⟩ := Prod.mk.inj hres
    rw [hfile m hfound] at htype
    rw [if_neg (by decide)] at hrun
    simp only at hrun
    rw [if_pos htype, Prog.bind_ok] at hrun
    obtain ⟨r, s₂, hunlink, hrun⟩ := hrun
    rw [Prog.bind_ok] at hrun
    obtain ⟨r', s₃, hmv, hrun⟩ := hrun
    obtain ⟨-, rfl⟩ := Prog.pure_ok.mp hrun
    -- the new name is taken away
    have hmfile : (tree s m).type ≠ T_DIR := by
      rw [hfile m hfound]
      decide
    obtain ⟨d, a, hparent, hentry⟩ := resolve_file hc.rooted hfound hmfile
    have hdtype := (resolve_of_parent hparent).1
    have hdots : ¬(namecmp a [46] ∨ namecmp a [46, 46]) := fun h =>
      hmfile (hc.dotted d a m hdtype hentry h)
    obtain ⟨-, hunlinked⟩ := sys_unlink_file ht.sound ht.cwdIs (by rw [htree]; exact hc.distinct)
      (hdest.argstr hu (by simp) rfl) (by rw [htree, ht.inum]; exact hparent) hdots
      (by rw [htree]; exact hentry) (by rw [htree]; exact hmfile) hunlink
    rw [ht.disk.dinode] at hunlinked
    have hr := hunlinked.after ht.disk
    have hcwdOk : CwdOk s₁ := by
      intro k hk
      rw [ht.cwdIs.1] at hk
      exact Option.some.inj hk ▸ ht.cwdIs.2
    obtain ⟨hcwd₂, hinum₂⟩ := (sys_unlink_moves ht.sound.cache hcwdOk hunlink).cwdIs ht.cwdIs
    rw [ht.inum] at hinum₂
    obtain ⟨hready, hsame⟩ := hc.unlinked hcwd₂ hinum₂ hparent hentry hmfile hr
    have hiff : (∃ m d a, Linkable (tree s₂) (s.inode cwd).inum src dest m d a) ↔
        Replaceable (tree s) (s.inode cwd).inum src dest := linkable_iff hr.rebound hparent
    have hcases := mv_cases hready hu hsrc hdest hmv
    rw [hinum₂] at hcases
    rw [hfound]
    simp only [hfull, false_or, reduceCtorEq]
    rcases hcases with ⟨hex, hmoved⟩ | ⟨hno, huntouched⟩
    · refine iff_of_true (Or.inl ?_) (hiff.mp hex)
      obtain ⟨n, hsrc₂, hdest₃, hkept, hgone⟩ := hmoved
      obtain ⟨hsrc', -⟩ := (hr.rebound.resolve_iff hparent).mp hsrc₂
      obtain ⟨n', d', a', hl⟩ := hex
      have hn : n' = n := Option.some.inj (hl.old.symm.trans hsrc₂)
      rw [hn] at hl
      have hnfile : (tree s n).type ≠ T_DIR := fun h => hl.file ((hr.rebound.dirs n).mpr h)
      exact ⟨n, hsrc', hdest₃, hkept.trans (hsame n hsrc₂ hnfile), hgone⟩
    · have hgone : resolve (tree s₃) (s.inode cwd).inum dest = none := by
        rw [huntouched.tree]
        exact hr.rebound.resolve_here hparent (namecmp_iff.mpr rfl)
      refine iff_of_false (fun h => ?_) fun h => ?_
      · rcases h with hmoved | hkept
        · obtain ⟨n, -, hdest₃, -⟩ := hmoved
          rw [hgone] at hdest₃
          exact absurd hdest₃ (by simp)
        · have hdest₃ := (hkept dest m hfound).1
          rw [hgone] at hdest₃
          exact absurd hdest₃ (by simp)
      · obtain ⟨n, d', a', hl⟩ := hiff.mpr h
        exact hno n d' a' hl

/-! ## One file -/

theorem place_first {block : Nat → Mem} {b i : Nat} :
    place block (fun n => if n = 0 then b else 0) i = if i = 0 then b else 0 := by
  unfold place blockOf
  by_cases hi : i = 0
  · rw [hi]
    simp [MAXFILE, NDIRECT, NINDIRECT]
  · simp [hi, NDIRECT]

theorem Plain.oneFile_typed (hn : (Plain.oneFile.dinode n).type ≠ 0) : n = 1 ∨ n = 2 := by
  by_contra hother
  rw [not_or] at hother
  simp [Plain.oneFile, ROOTINO, hother] at hn

theorem Plain.oneFile_dir (hn : (tree Plain.oneFile n).type = T_DIR) : n = 1 := by
  rcases Plain.oneFile_typed (n := n) (fun h => absurd (h.symm.trans hn) (by decide)) with rfl | rfl
  · rfl
  · exact absurd hn (by decide)

theorem Plain.oneFile_root : (tree Plain.oneFile 1).contents = Dirent.toBytes ⟨2, [97]⟩ := by
  decide +kernel

theorem Plain.oneFile_lookup (h : lookup (tree Plain.oneFile 1).contents a = some m) :
    m = 2 ∧ namecmp a [97] = true := by
  rw [Plain.oneFile_root] at h
  unfold lookup at h
  obtain ⟨off, hoff, rfl⟩ := Option.map_eq_some_iff.mp h
  obtain ⟨i, hi, rfl, hfor⟩ := entryOff_eq_some hoff
  rw [length_toBytes] at hi
  obtain rfl : i = 0 := by
    simp only [direntSize] at hi
    omega
  refine ⟨by decide, ?_⟩
  have hname : namecmp a (Dirent.ofBytes (Dirent.toBytes ⟨2, [97]⟩)).name = namecmp a [97] :=
    namecmp_toBytes
  rw [← hname]
  exact hfor.2

theorem Plain.oneFile_addrs (hn : n = 1 ∨ n = 2) {i : Nat} :
    place Plain.oneFile.block (Plain.oneFile.dinode n).addrs i =
      if i = 0 then 58 + n else 0 := by
  rcases hn with rfl | rfl <;> exact place_first

theorem Plain.oneFile_sound : Sound Plain.oneFile where
  small := by
    show 1000 ≤ 2 ^ 32
    decide
  laid := by
    constructor
    case boot => rfl
    case used =>
      intro n i hn hi
      have htwo := Plain.oneFile_typed hn
      rw [Plain.oneFile_addrs htwo]
      show decide (_ < 61) = true
      rw [decide_eq_true_iff]
      split <;> omega
    case apart =>
      intro n m i j hn hm hi hj hne heq
      have hn := Plain.oneFile_typed hn
      have hm := Plain.oneFile_typed hm
      rw [Plain.oneFile_addrs hn] at hne heq
      rw [Plain.oneFile_addrs hm] at heq
      by_cases hi0 : i = 0
      · by_cases hj0 : j = 0
        · rw [if_pos hi0, if_pos hj0] at heq
          exact ⟨by omega, by rw [hi0, hj0]⟩
        · rw [if_pos hi0, if_neg hj0] at heq
          omega
      · rw [if_neg hi0] at hne
        exact absurd rfl hne
  cache := Plain.oneFile_init.1.cache
  clean := by
    intro k _ hv
    exact absurd hv (by simp [Plain.oneFile, booted])
  filled := by
    intro n hn
    have htwo := Plain.oneFile_typed hn
    have hsize : (Plain.oneFile.dinode n).size ≤ BSIZE := by
      rcases htwo with rfl | rfl <;> decide
    refine ⟨hsize.trans (by decide), fun bn hbn => ?_⟩
    obtain rfl : bn = 0 := by
      simp only [BSIZE] at *
      omega
    rw [← place_of_lt (by decide), Plain.oneFile_addrs htwo, if_pos rfl]
    omega
  live := by
    intro n hn hlink
    rcases Plain.oneFile_typed hn with rfl | rfl
    · exact absurd hlink (by decide)
    · exact absurd hlink (by decide)

theorem Plain.oneFile_consistent : Consistent Plain.oneFile 0 where
  sound := Plain.oneFile_sound
  cwdIs := ⟨rfl, by decide⟩
  closed _ _ := rfl
  rooted := ⟨rfl, rfl⟩
  distinct := by
    intro n hn a i j hi hj _ _
    rw [Plain.oneFile_dir hn, Plain.oneFile_root, length_toBytes] at hi hj
    simp only [direntSize] at hi hj
    omega
  dotted := by
    intro d a m hd hm hdots
    rw [Plain.oneFile_dir hd] at hm
    have hname := namecmp_iff.mp (Plain.oneFile_lookup hm).2
    rw [namecmp_iff, namecmp_iff, hname] at hdots
    exact absurd hdots (by decide)
  linked := by
    intro d a m hd hm
    rw [Plain.oneFile_dir hd] at hm
    rw [(Plain.oneFile_lookup hm).1]
    decide
  twice := by
    intro d a d' a' m hd hd' hm hm' _
    rw [Plain.oneFile_dir hd] at hm ⊢
    rw [Plain.oneFile_dir hd'] at hm' ⊢
    refine Or.inl ⟨rfl, ?_⟩
    rw [namecmp_iff, namecmp_iff.mp (Plain.oneFile_lookup hm).2,
      namecmp_iff.mp (Plain.oneFile_lookup hm').2]

/-- A process with the strings `a` and `b`. -/
def abUser : User where
  mem x := if x = 32 then 97 else if x = 40 then 98 else 0
  sz := 128
  esp := 0

theorem abUser_stacked : Stacked abUser := ⟨by decide, by decide⟩

theorem abUser_a : StringAt abUser 32 [97] := ⟨by decide, by decide, by decide⟩

theorem abUser_b : StringAt abUser 40 [98] := ⟨by decide, by decide, by decide⟩

/-- What `a` and `b` name after `mv`. -/
def mvOutcome (args : List Nat) : Option (Option Nat × Option Nat) :=
  match (Mv.main abUser 48 68 args).run Plain.oneFile with
  | .ok (_, s') => some (resolve (tree s') 1 [97], resolve (tree s') 1 [98])
  | .error _ => none

theorem exists_of_mvOutcome {args : List Nat} {x y : Option Nat}
    (h : mvOutcome args = some (x, y)) :
    ∃ s', (Mv.main abUser 48 68 args).run Plain.oneFile = .ok ((), s') ∧
      resolve (tree s') 1 [97] = x ∧ resolve (tree s') 1 [98] = y := by
  unfold mvOutcome at h
  split at h
  · rename_i s' hrun
    obtain ⟨hx, hy⟩ := Prod.mk.inj (Option.some.inj h)
    exact ⟨s', hrun, hx, hy⟩
  · exact absurd h (by simp)

/-- `mv a b` moves the file. -/
theorem mv_safe_iff_renamed : ∃ s',
    (Mv.main abUser 48 68 [0, 32, 40]).run Plain.oneFile = .ok ((), s') ∧
      (Moved (tree Plain.oneFile) (tree s') 1 [97] [98] ∨
        NamesKept (tree Plain.oneFile) (tree s') 1) := by
  have hout : mvOutcome [0, 32, 40] = some (none, some 2) := by decide +kernel
  obtain ⟨s', hrun, -, -⟩ := exists_of_mvOutcome hout
  have hnone : resolve (tree Plain.oneFile) 1 [98] = none := by decide +kernel
  refine ⟨s', hrun, (mv_safe_iff Plain.oneFile_consistent abUser_stacked abUser_a abUser_b ?_ ?_
    hrun).mpr (Or.inl hnone)⟩
  · decide
  · intro m hm
    rw [show (Plain.oneFile.inode 0).inum = 1 from rfl, hnone] at hm
    exact absurd hm (by simp)

/-- `mv b a` with no `b` loses `a`. -/
theorem mv_loses : ∃ s', (Mv.main abUser 48 68 [0, 40, 32]).run Plain.oneFile = .ok ((), s') ∧
    (tree Plain.oneFile 2).type = T_FILE ∧ resolve (tree Plain.oneFile) 1 [97] = some 2 ∧
    resolve (tree s') 1 [97] = none ∧
    ¬(Moved (tree Plain.oneFile) (tree s') 1 [98] [97] ∨
      NamesKept (tree Plain.oneFile) (tree s') 1) := by
  have hout : mvOutcome [0, 40, 32] = some (none, none) := by decide +kernel
  obtain ⟨s', hrun, ha, -⟩ := exists_of_mvOutcome hout
  have hfound : resolve (tree Plain.oneFile) 1 [97] = some 2 := by decide +kernel
  refine ⟨s', hrun, rfl, hfound, ha, fun h => ?_⟩
  rcases h with hmoved | hkept
  · obtain ⟨m, -, hdest, -⟩ := hmoved
    rw [ha] at hdest
    exact absurd hdest (by simp)
  · have hstill := (hkept [97] 2 hfound).1
    rw [ha] at hstill
    exact absurd hstill (by simp)

end Fs
end CS444
