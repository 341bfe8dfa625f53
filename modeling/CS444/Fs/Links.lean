/-
Where `sys_open`, `sys_exec` and `sys_chdir` end up.

`Leads` says which inode a path leads to through symbolic links, and under which
name that inode was found.  `sys_open` and `sys_exec` follow links with a loop
each; the loop of `sys_chdir` is guarded by `SYMLIKE`, a name nothing defines,
so that it takes a link for what it is.
-/
import CS444.Fs.Conservation

namespace CS444
namespace Fs

open Program

variable {s s₁ s₂ s' t t' : Kernel} {ip ip' dp next : Slot} {name path bytes : Str}
  {omode n left : Nat}

/-! ## What a path leads to -/

/-- `path` names `ip`, which is locked in `s'`. -/
def Found (s : Kernel) (path : Str) (ip : Slot) (s' : Kernel) : Prop :=
  ∃ s₁, (namei path).run s = .ok (some ip, s₁) ∧ (ilock ip).run s₁ = .ok ((), s')

/-- The link `ip` holds `bytes`; it was read and unlocked. -/
def ReadsLink (s : Kernel) (ip : Slot) (bytes : Str) (s' : Kernel) : Prop :=
  (s.inode ip).type = T_SYMLINK ∧ ∃ r s₁,
    (readi ip 0 MAX_FILE_NAME).run s = .ok ((r, bytes), s₁) ∧ (iunlock ip).run s₁ = .ok ((), s')

/-- `path` leads in `s` through at most `n` links to `name`, which names `ip` in
`t`, and `ip` is no link. -/
inductive Leads : Nat → Kernel → Str → Kernel → Str → Slot → Kernel → Prop
  | here {n : Nat} {s s' : Kernel} {path : Str} {ip : Slot} : Found s path ip s' →
      (s'.inode ip).type ≠ T_SYMLINK → Leads n s path s path ip s'
  | link {n : Nat} {s s₁ s₂ t t' : Kernel} {path bytes name : Str} {ip ip' : Slot} :
      Found s path ip s₁ → ReadsLink s₁ ip bytes s₂ → Leads n s₂ (cstr bytes) t name ip' t' →
      Leads (n + 1) s path t name ip' t'

/-- The first `n` links on the way from `path` are short enough for the array
they are read into to end in a NUL. -/
def Fits : Nat → Kernel → Str → Prop
  | 0, _, _ => True
  | n + 1, s, path => ∀ ip s₁ bytes s₂, Found s path ip s₁ → ReadsLink s₁ ip bytes s₂ →
      (bytes.length < MAX_FILE_NAME ∨ 0 ∈ bytes) ∧ Fits n s₂ (cstr bytes)

theorem Found.unique (h : Found s path ip s₁) (h' : Found s path ip' s₂) : ip = ip' ∧ s₁ = s₂ := by
  obtain ⟨t, hwalk, hlock⟩ := h
  obtain ⟨t', hwalk', hlock'⟩ := h'
  obtain ⟨heq, rfl⟩ := Prod.mk.inj (Except.ok.inj (hwalk.symm.trans hwalk'))
  obtain rfl := Option.some.inj heq
  exact ⟨rfl, (Prod.mk.inj (Except.ok.inj (hlock.symm.trans hlock'))).2⟩

theorem cstr_append (h : 0 ∈ bytes) (rest : Str) : cstr (bytes ++ rest) = cstr bytes := by
  have hstop : (bytes.takeWhile (· ≠ 0)).length ≠ bytes.length := by
    intro heq
    have hall := List.takeWhile_eq_self_iff.mp ((List.takeWhile_prefix _).eq_of_length heq)
    exact absurd (hall 0 h) (by simp)
  unfold cstr
  rw [List.takeWhile_append, if_neg hstop]

theorem cstr_append_zero (h : 0 ∉ bytes) (rest : Str) : cstr (bytes ++ 0 :: rest) = cstr bytes := by
  have hall : ∀ b ∈ bytes, decide (b ≠ 0) = true := fun b hb =>
    decide_eq_true fun heq => h (heq ▸ hb)
  unfold cstr
  rw [List.takeWhile_append_of_pos hall, List.takeWhile_cons_of_neg (by simp), List.append_nil,
    List.takeWhile_eq_self_iff.mpr hall]

/-- A short link is read the same whatever lies behind the array. -/
theorem linkName_of_reads {above : Str} {r : Int} (hfit : bytes.length < MAX_FILE_NAME ∨ 0 ∈ bytes)
    (hread : (readi ip 0 MAX_FILE_NAME).run s = .ok ((r, bytes), s₁)) :
    (linkName above ip).run s = .ok (cstr bytes, s₁) := by
  have hname : cstr (bytes ++ List.replicate (MAX_FILE_NAME - bytes.length) 0 ++ above) =
      cstr bytes := by
    rw [List.append_assoc]
    by_cases hzero : 0 ∈ bytes
    · exact cstr_append hzero _
    · have hshort := hfit.resolve_right hzero
      obtain ⟨k, hk⟩ :=
        Nat.exists_eq_succ_of_ne_zero (show MAX_FILE_NAME - bytes.length ≠ 0 by omega)
      rw [hk, List.replicate_succ, List.cons_append]
      exact cstr_append_zero hzero _
  rw [linkName, Prog.bind_eq hread, Prog.pure_run, hname]

/-! ## The link loop -/

/-- The loop of `sys_open` and `sys_exec` ends where the path leads. -/
theorem followLinks_of_leads {above : Nat → Str} (hl : Leads n s path t name ip' t')
    (hfit : Fits n s path) (hf : Found s path ip s₁) (nm : Str) :
    (followLinks above (n + 1) ip nm).run s₁ =
      .ok (some (ip', if (s₁.inode ip).type = T_SYMLINK then name else nm), t') := by
  induction hl generalizing ip s₁ nm with
  | here hf' hend =>
      obtain ⟨rfl, rfl⟩ := hf.unique hf'
      rw [followLinks, inodeAt_bind_run, if_pos hend, Prog.pure_run, if_neg hend]
  | @link n s s₂ s₃ t t' path bytes name ip₂ ip' hf' hreads hrest ih =>
      obtain ⟨rfl, rfl⟩ := hf.unique hf'
      obtain ⟨hshort, hnext⟩ := hfit _ _ _ _ hf' hreads
      obtain ⟨hlink, r, s₄, hread, hunlock⟩ := hreads
      obtain ⟨next, s₅, hfound⟩ : ∃ next s₅, Found s₃ (cstr bytes) next s₅ := by
        cases hrest with
        | here hf _ => exact ⟨_, _, hf⟩
        | link hf _ _ => exact ⟨_, _, hf⟩
      have hloop := ih hnext hfound (cstr bytes)
      obtain ⟨s₆, hwalk, hlock⟩ := id hfound
      rw [followLinks, inodeAt_bind_run, if_neg (not_not.mpr hlink),
        Prog.bind_eq (linkName_of_reads hshort hread), Prog.bind_eq hunlock, Prog.bind_eq hwalk]
      simp only
      rw [Prog.bind_eq hlock, if_neg (by omega), hloop, if_pos hlink]
      split
      · rfl
      · rename_i hend
        cases hrest with
        | here hf _ => rfl
        | link hf hreads _ =>
            obtain ⟨rfl, rfl⟩ := hfound.unique hf
            exact absurd hreads.1 hend

/-- The loop finds only what the path leads to. -/
theorem leads_of_followLinks {above : Nat → Str} {nm name' : Str} (hf : Found s path ip s₁)
    (hfit : Fits n s path)
    (hrun : (followLinks above (n + 1) ip nm).run s₁ = .ok (some (ip', name'), t')) :
    ∃ t name, Leads n s path t name ip' t' := by
  induction n generalizing s path ip s₁ nm with
  | zero =>
      rw [followLinks, inodeAt_bind_run] at hrun
      split at hrun
      · rename_i hend
        obtain ⟨heq, rfl⟩ := Prog.pure_ok.mp hrun
        obtain ⟨rfl, -⟩ := Prod.mk.inj (Option.some.inj heq)
        exact ⟨s, path, .here hf hend⟩
      · rw [Prog.bind_ok] at hrun
        obtain ⟨name, s₂, -, hrun⟩ := hrun
        rw [Prog.bind_ok] at hrun
        obtain ⟨_, s₃, -, hrun⟩ := hrun
        rw [Prog.bind_ok] at hrun
        obtain ⟨target, s₄, -, hrun⟩ := hrun
        cases target with
        | none => exact absurd (Prog.pure_ok.mp hrun).1 (by simp)
        | some next =>
            simp only at hrun
            rw [Prog.bind_ok] at hrun
            obtain ⟨_, s₅, -, hrun⟩ := hrun
            rw [if_pos trivial, Prog.bind_ok] at hrun
            obtain ⟨_, s₆, -, hrun⟩ := hrun
            exact absurd (Prog.pure_ok.mp hrun).1 (by simp)
  | succ n ih =>
      rw [followLinks, inodeAt_bind_run] at hrun
      split at hrun
      · rename_i hend
        obtain ⟨heq, rfl⟩ := Prog.pure_ok.mp hrun
        obtain ⟨rfl, -⟩ := Prod.mk.inj (Option.some.inj heq)
        exact ⟨s, path, .here hf hend⟩
      · rename_i hlink
        rw [Prog.bind_ok] at hrun
        obtain ⟨name, s₂, hname, hrun⟩ := hrun
        rw [Prog.bind_ok] at hrun
        obtain ⟨_, s₃, hunlock, hrun⟩ := hrun
        rw [Prog.bind_ok] at hrun
        obtain ⟨target, s₄, hwalk, hrun⟩ := hrun
        obtain ⟨⟨r, bytes⟩, s₅, hread, hcopy⟩ := Prog.bind_ok.mp hname
        obtain ⟨-, rfl⟩ := Prog.pure_ok.mp hcopy
        have hreads : ReadsLink s₁ ip bytes s₃ := ⟨not_not.mp hlink, r, s₅, hread, hunlock⟩
        obtain ⟨hshort, hnext⟩ := hfit _ _ _ _ hf hreads
        obtain ⟨rfl, -⟩ := Prod.mk.inj
          (Except.ok.inj ((linkName_of_reads hshort hread).symm.trans hname))
        cases target with
        | none => exact absurd (Prog.pure_ok.mp hrun).1 (by simp)
        | some next =>
            simp only at hrun
            rw [Prog.bind_ok] at hrun
            obtain ⟨_, s₆, hlock, hrun⟩ := hrun
            rw [if_neg (by omega)] at hrun
            obtain ⟨t, name'', hl⟩ := ih ⟨s₄, hwalk, hlock⟩ hnext hrun
            exact ⟨t, name'', .link hf hreads hl⟩

/-! ## `create` and names -/

theorem ilock_relock (hlock : (ilock ip).run s = .ok ((), s₁))
    (hunlock : (iunlock ip).run s₁ = .ok ((), s₂)) : (ilock ip).run s₂ = .ok ((), s₁) := by
  have hl := ilock_spec hlock
  have hpos := hl.pos'
  rw [iunlock, inodeAt_bind_run, if_neg (by rw [hl.locked]; simp; omega), releasesleep] at hunlock
  obtain rfl := setInode_ok.mp hunlock
  have hsame : ({ s₁.inode ip with locked := true } : Inode) = s₁.inode ip :=
    congrArg (fun b => ({ s₁.inode ip with locked := b } : Inode)) hl.locked.symm
  have hacquire : (acquiresleep ip).run
      (withInode s₁ ip { s₁.inode ip with locked := false }) = .ok ((), s₁) := by
    rw [acquiresleep, inodeAt_bind_run, withInode_self, if_neg (by simp), setInode_run,
      withInode_self, withInode_withInode, hsame]
    simp [withInode]
  rw [ilock, inodeAt_bind_run, withInode_self, if_neg (by simp only; omega), Prog.bind_eq hacquire,
    if_pos hl.valid, Prog.pure_run]

/-- `nameiparent` finds no parent of a path that `namei` resolves only if the
path has no name in it. -/
theorem namexLoop_no_parent {fuel : Nat} {nm : Str} {r : Slot × Str}
    (hrun : (namexLoop true fuel path ip nm).run s = .ok (none, s'))
    (hfound : (namexLoop false fuel path ip nm).run s = .ok (some r, t)) :
    skipelem path = none := by
  induction fuel generalizing s path ip nm with
  | zero => simp [namexLoop] at hrun
  | succ fuel ih =>
      cases hskip : skipelem path with
      | none => rfl
      | some e =>
          obtain ⟨name, rest⟩ := e
          simp only [namexLoop, hskip] at hrun hfound
          rw [Prog.bind_ok] at hrun hfound
          obtain ⟨_, s₁, hlock, hrun⟩ := hrun
          obtain ⟨_, s₂, hlock', hfound⟩ := hfound
          obtain ⟨-, rfl⟩ := Prod.mk.inj (Except.ok.inj (hlock.symm.trans hlock'))
          rw [inodeAt_bind_run] at hrun hfound
          split at hrun
          · rename_i hdir
            rw [if_pos hdir, Prog.bind_ok] at hfound
            obtain ⟨_, s₃, -, hfound⟩ := hfound
            exact absurd (Prog.pure_ok.mp hfound).1 (by simp)
          · rename_i hdir
            rw [if_neg hdir, if_neg (by simp), Prog.bind_ok] at hfound
            obtain ⟨e, s₃, hlookup, hfound⟩ := hfound
            split at hrun
            · rw [Prog.bind_ok] at hrun
              obtain ⟨_, s₄, -, hrun⟩ := hrun
              exact absurd (Prog.pure_ok.mp hrun).1 (by simp)
            · rename_i hmore
              rw [Prog.bind_eq hlookup] at hrun
              cases e with
              | none =>
                  simp only at hfound
                  rw [Prog.bind_ok] at hfound
                  obtain ⟨_, s₄, -, hfound⟩ := hfound
                  exact absurd (Prog.pure_ok.mp hfound).1 (by simp)
              | some e =>
                  obtain ⟨next, off⟩ := e
                  simp only at hrun hfound
                  rw [Prog.bind_ok] at hrun hfound
                  obtain ⟨_, s₄, hput, hrun⟩ := hrun
                  obtain ⟨_, s₅, hput', hfound⟩ := hfound
                  obtain ⟨-, rfl⟩ := Prod.mk.inj (Except.ok.inj (hput.symm.trans hput'))
                  exact absurd (ih hrun hfound) (skipelem_rest hskip (by simpa using hmore))

/-- `namei` goes on where `nameiparent` stops, by a lookup of the last name. -/
theorem namexLoop_last {fuel : Nat} {nm nm' : Str} (hfuel : path.length < fuel)
    (hrun : (namexLoop true fuel path ip nm).run s = .ok (some (dp, name), s'))
    (hfound : (namexLoop false fuel path ip nm).run s = .ok (some (next, nm'), t)) :
    skipelem path ≠ none ∧ ∃ s₁ off s₂, (ilock dp).run s' = .ok ((), s₁) ∧
      (dirlookup dp name).run s₁ = .ok (some (next, off), s₂) ∧
      (iunlockput dp).run s₂ = .ok ((), t) := by
  induction fuel generalizing s path ip nm with
  | zero => omega
  | succ fuel ih =>
      cases hskip : skipelem path with
      | none =>
          simp only [namexLoop, hskip, if_pos] at hrun
          rw [Prog.bind_ok] at hrun
          obtain ⟨_, s₁, -, hrun⟩ := hrun
          exact absurd (Prog.pure_ok.mp hrun).1 (by simp)
      | some e =>
          obtain ⟨elem, rest⟩ := e
          refine ⟨by simp, ?_⟩
          have hshorter := skipelem_length hskip
          simp only [namexLoop, hskip] at hrun hfound
          rw [Prog.bind_ok] at hrun hfound
          obtain ⟨_, s₁, hlock, hrun⟩ := hrun
          obtain ⟨_, s₂, hlock', hfound⟩ := hfound
          obtain ⟨-, rfl⟩ := Prod.mk.inj (Except.ok.inj (hlock.symm.trans hlock'))
          rw [inodeAt_bind_run] at hrun hfound
          split at hrun
          · rw [Prog.bind_ok] at hrun
            obtain ⟨_, s₃, -, hrun⟩ := hrun
            exact absurd (Prog.pure_ok.mp hrun).1 (by simp)
          · rename_i hdir
            rw [if_neg hdir, if_neg (by simp), Prog.bind_ok] at hfound
            obtain ⟨e, s₃, hlookup, hfound⟩ := hfound
            cases e with
            | none =>
                simp only at hfound
                rw [Prog.bind_ok] at hfound
                obtain ⟨_, s₄, -, hfound⟩ := hfound
                exact absurd (Prog.pure_ok.mp hfound).1 (by simp)
            | some e =>
                obtain ⟨next', off⟩ := e
                simp only at hfound
                rw [Prog.bind_ok] at hfound
                obtain ⟨_, s₄, hput, hfound⟩ := hfound
                split at hrun
                · -- the last name of the path
                  rename_i hlast
                  obtain ⟨-, rfl⟩ := hlast
                  rw [Prog.bind_ok] at hrun
                  obtain ⟨_, s₅, hunlock, hrun⟩ := hrun
                  obtain ⟨heq, rfl⟩ := Prog.pure_ok.mp hrun
                  obtain ⟨rfl, rfl⟩ := Prod.mk.inj (Option.some.inj heq)
                  have hone : fuel ≠ 0 := by
                    rintro rfl
                    omega
                  obtain ⟨fuel', rfl⟩ := Nat.exists_eq_succ_of_ne_zero hone
                  obtain ⟨hnext, rfl⟩ := Prog.pure_ok.mp hfound
                  obtain ⟨rfl, -⟩ := Prod.mk.inj (Option.some.inj hnext)
                  exact ⟨_, off, s₃, ilock_relock hlock hunlock, hlookup, hput⟩
                · rw [Prog.bind_eq hlookup] at hrun
                  simp only at hrun
                  rw [Prog.bind_eq hput] at hrun
                  exact (ih (by omega) hrun hfound).2

/-- `create` of a path that names an inode finds that inode, and takes it if it
is a regular file. -/
theorem create_of_found {r : Option Slot} (hf : Found s path ip t)
    (hrun : (create path T_FILE 0 0).run s = .ok (r, s')) :
    (skipelem path ≠ none ∧ (t.inode ip).type = T_FILE) ∧ r = some ip ∧ s' = t ∨
      ¬(skipelem path ≠ none ∧ (t.inode ip).type = T_FILE) ∧ r = none := by
  obtain ⟨s₁, hwalk, hlock⟩ := hf
  rw [namei, Prog.bind_ok] at hwalk
  obtain ⟨w, s₂, hwalk, hname⟩ := hwalk
  obtain ⟨hmap, rfl⟩ := Prog.pure_ok.mp hname
  obtain ⟨⟨ip', nm⟩, rfl, rfl⟩ := Option.map_eq_some_iff.mp hmap
  rw [namex, Prog.bind_ok] at hwalk
  obtain ⟨start, s₃, hstart, hwalk⟩ := hwalk
  rw [create, nameiparent, namex, Prog.bind_bind_run, Prog.bind_eq hstart, Prog.bind_ok] at hrun
  obtain ⟨parent, s₄, hparent, hrun⟩ := hrun
  cases parent with
  | none =>
      obtain ⟨rfl, -⟩ := Prog.pure_ok.mp hrun
      exact Or.inr ⟨fun h => h.1 (namexLoop_no_parent hparent hwalk), rfl⟩
  | some e =>
      obtain ⟨dp, name⟩ := e
      obtain ⟨hskip, s₅, off, s₆, hdlock, hlookup, hput⟩ :=
        namexLoop_last (Nat.lt_succ_self _) hparent hwalk
      simp only at hrun
      rw [Prog.bind_eq hdlock, Prog.bind_eq hlookup] at hrun
      simp only at hrun
      rw [Prog.bind_eq hput, Prog.bind_eq hlock, inodeAt_bind_run] at hrun
      split at hrun
      · rename_i hfile
        obtain ⟨rfl, rfl⟩ := Prog.pure_ok.mp hrun
        exact Or.inl ⟨⟨hskip, hfile.2⟩, rfl, rfl⟩
      · rename_i hfile
        rw [Prog.bind_ok] at hrun
        obtain ⟨_, s₇, -, hrun⟩ := hrun
        obtain ⟨rfl, -⟩ := Prog.pure_ok.mp hrun
        exact Or.inr ⟨fun h => hfile ⟨trivial, h.2⟩, rfl⟩

/-! ## The three calls -/

/-- The symbolic links the loops follow before they give up. -/
def maxLinks : Nat := MAX_DEPTH - 2

/-- The path names a symbolic link. -/
def NamesLink (s : Kernel) (path : Str) : Prop :=
  ∃ ip s', Found s path ip s' ∧ (s'.inode ip).type = T_SYMLINK

/-- The descriptor `r` is open on `ip`. -/
def OpenOn (s : Kernel) (r : Int) (ip : Slot) : Prop :=
  ∃ (fd : Fin NOFILE) (f : FileSlot), r = fd.val ∧ (s.proc s.cur).ofile fd = some f ∧
    (s.file f).type = .inode ∧ (s.file f).ip = some ip

/-- `sys_open` returned `ro`, `sys_exec` called `exec` with `re` or failed, and
`sys_chdir` returned `rc`, all called in `s` on `path`: they went to the inode
`path` leads to, or all failed. -/
structure ResolvedAlike (s : Kernel) (path : Str) (omode : Nat) (ro : Int) (so : Kernel)
    (re : Option (Str × List Str)) (rc : Int) (sc : Kernel) : Prop where
  found : ∀ t name ip t', Leads maxLinks s path t name ip t' →
    (OpenOn so ro ip ∨ ro = -1 ∧ Full t') ∧
    (∃ name' argv t'', re = some (name', argv) ∧ Found t name' ip t'') ∧
    ((t'.inode ip).type = T_DIR → rc = 0 ∧ (sc.proc sc.cur).cwd = some ip)
  lost : NamesLink s path → (¬∃ t name ip t', Leads maxLinks s path t name ip t') →
    ro = -1 ∧ re = none ∧ rc = -1
  missing : (∃ s₁, (namei path).run s = .ok (none, s₁)) → omode &&& O_CREATE = 0 →
    ro = -1 ∧ re = none ∧ rc = -1

/-- The paths on which the calls agree.  A link must not lead to a directory, for
`sys_chdir` takes it for the link; another path must be as good when `sys_exec`
has cut it to the size of its array.  With `O_CREATE`, `sys_open` opens regular
files only. -/
def Agreeable (s : Kernel) (path : Str) (omode : Nat) : Prop :=
  ∀ t name ip t', Leads maxLinks s path t name ip t' →
    (NamesLink s path → (t'.inode ip).type ≠ T_DIR ∧ (omode &&& O_CREATE ≠ 0 → Full t')) ∧
    (¬NamesLink s path → (∃ t'', Found s (path.take (MAX_FILE_NAME - 1)) ip t'') ∧
      (omode &&& O_CREATE ≠ 0 →
        Full t' ∨ skipelem path ≠ none ∧ (t'.inode ip).type = T_FILE))

theorem openFile_result {r : Int} (hrun : (openFile omode ip).run s = .ok (r, s')) :
    OpenOn s' r ip ∨ r = -1 ∧ Full s := by
  rw [openFile, inodeAt_bind_run, Prog.bind_ok] at hrun
  obtain ⟨_, s₁, htrunc, hrun⟩ := hrun
  have htables : SameTables s s₁ := by
    rw [Prog.when_ok] at htrunc
    rcases htrunc with ⟨-, htrunc⟩ | ⟨-, rfl⟩
    · obtain ⟨s₂, hkeys, rfl⟩ := itrunc_updated htrunc
      exact hkeys.tables.trans ⟨rfl, rfl, rfl, rfl, rfl, rfl⟩
    · exact .refl s₁
  rw [Prog.bind_ok] at hrun
  obtain ⟨rf, s₂, halloc, hrun⟩ := hrun
  cases rf with
  | none =>
      simp only at hrun
      rw [Prog.bind_ok] at hrun
      obtain ⟨_, s₃, -, hrun⟩ := hrun
      obtain ⟨rfl, -⟩ := Prog.pure_ok.mp hrun
      refine Or.inr ⟨rfl, Or.inl fun f => ?_⟩
      rw [← htables.file]
      exact filealloc_none halloc f
  | some f =>
      obtain ⟨heq, -⟩ | ⟨f', hf', -, rfl⟩ := filealloc_cases halloc
      · exact absurd heq (by simp)
      obtain rfl := Option.some.inj hf'
      simp only at hrun
      rw [Prog.bind_ok] at hrun
      obtain ⟨rfd, s₃, hfd, hrun⟩ := hrun
      cases rfd with
      | none =>
          simp only at hrun
          rw [Prog.bind_ok] at hrun
          obtain ⟨_, s₄, -, hrun⟩ := hrun
          rw [Prog.bind_ok] at hrun
          obtain ⟨_, s₅, -, hrun⟩ := hrun
          obtain ⟨rfl, -⟩ := Prog.pure_ok.mp hrun
          refine Or.inr ⟨rfl, Or.inr fun fd => ?_⟩
          rw [← htables.proc, ← htables.cur]
          exact fdalloc_none hfd fd
      | some fd =>
          obtain ⟨heq, -⟩ | ⟨fd', hfd', -, rfl⟩ := fdalloc_cases hfd
          · exact absurd heq (by simp)
          obtain rfl := Option.some.inj hfd'
          simp only at hrun
          rw [Prog.bind_ok] at hrun
          obtain ⟨_, s₄, hunlock, hrun⟩ := hrun
          rw [setFile_bind_run] at hrun
          obtain ⟨rfl, rfl⟩ := Prog.pure_ok.mp hrun
          have hkeys := (iunlock_keys hunlock).tables
          refine Or.inl ⟨fd, f, rfl, ?_, ?_, ?_⟩
          · show (s₄.proc s₄.cur).ofile fd = some f
            rw [hkeys.proc, hkeys.cur]
            simp [withProc, withFile]
          · rw [withFile_self]
          · rw [withFile_self]

theorem Leads.found (hl : Leads n s path t name ip t') : Found t name ip t' := by
  induction hl with
  | here hf _ => exact hf
  | link _ _ _ ih => exact ih

/-- A path that names no link leads to what it names. -/
theorem Leads.of_no_link (hl : Leads n s path t name ip t') (hno : ¬NamesLink s path) :
    t = s ∧ Found s path ip t' ∧ (t'.inode ip).type ≠ T_SYMLINK := by
  cases hl with
  | here hf hend => exact ⟨rfl, hf, hend⟩
  | link hf hreads _ => exact absurd ⟨_, _, hf, hreads.1⟩ hno

theorem Leads.first (hl : Leads n s path t name ip t') : ∃ ip₀ s₀, Found s path ip₀ s₀ := by
  cases hl with
  | here hf _ => exact ⟨_, _, hf⟩
  | link hf _ _ => exact ⟨_, _, hf⟩

section Calls

variable {above : Nat → Str} {u : User} {uargv : Nat} {argv : List Str} {r rc : Int}
  {re : Option (Str × List Str)} {ip₀ : Slot} {s₀ : Kernel}

/-- `sys_open` with `O_CREATE` of a path that names an inode. -/
theorem sys_open_create (hpath : u.argstr 0 = some path) (homode : u.argint 1 = some omode)
    (hcreate : omode &&& O_CREATE ≠ 0) (hf : Found s path ip₀ s₀)
    (hrun : (sys_open above u).run s = .ok (r, s')) :
    (skipelem path ≠ none ∧ (s₀.inode ip₀).type = T_FILE) ∧
        (openFile omode ip₀).run s₀ = .ok (r, s') ∨
      ¬(skipelem path ≠ none ∧ (s₀.inode ip₀).type = T_FILE) ∧ r = -1 := by
  simp only [sys_open, hpath, homode] at hrun
  rw [openInode, openPath, if_pos hcreate, Prog.bind_bind_run, Prog.bind_ok] at hrun
  obtain ⟨rc, s₁, hmade, hrun⟩ := hrun
  rcases create_of_found hf hmade with ⟨hfile, rfl, rfl⟩ | ⟨hno, rfl⟩
  · refine Or.inl ⟨hfile, ?_⟩
    have hend : (s₁.inode ip₀).type ≠ T_SYMLINK := by
      rw [hfile.2]
      decide
    have hloop : (followLinks above (MAX_DEPTH - 1) ip₀ []).run s₁ = .ok (some (ip₀, []), s₁) := by
      show (followLinks above (3 + 1) ip₀ []).run s₁ = _
      rw [followLinks, inodeAt_bind_run, if_pos hend, Prog.pure_run]
    simp only at hrun
    split at hrun
    · rw [Prog.bind_bind_run, Prog.bind_eq hloop] at hrun
      exact hrun
    · exact hrun
  · obtain ⟨rfl, -⟩ := Prog.pure_ok.mp hrun
    exact Or.inr ⟨hno, rfl⟩

/-- `sys_open` without `O_CREATE` of a path that names an inode. -/
theorem sys_open_plain (hpath : u.argstr 0 = some path) (homode : u.argint 1 = some omode)
    (hcreate : omode &&& O_CREATE = 0) (hnoderef : omode &&& O_NODEREF = 0)
    (hf : Found s path ip₀ s₀) (hrun : (sys_open above u).run s = .ok (r, s')) :
    ∃ found s₁, (followLinks above (maxLinks + 1) ip₀ []).run s₀ = .ok (found, s₁) ∧
      (openResult omode (found.map Prod.fst)).run s₁ = .ok (r, s') := by
  obtain ⟨s₂, hwalk, hlock⟩ := hf
  have hopen : (openPath path omode).run s = .ok (some ip₀, s₀) := by
    rw [openPath, if_neg (not_not.mpr hcreate), Prog.bind_eq hwalk]
    simp only
    rw [Prog.bind_eq hlock, inodeAt_bind_run, if_neg (fun hdir => hdir.2 (Nat.and_zero omode)),
      Prog.pure_run]
  simp only [sys_open, hpath, homode] at hrun
  rw [openInode, Prog.bind_bind_run, Prog.bind_eq hopen] at hrun
  simp only [hnoderef, if_true] at hrun
  rw [Prog.bind_bind_run, Prog.bind_ok] at hrun
  exact hrun

/-- `sys_exec` of a path that names an inode. -/
theorem sys_exec_found (hpath : u.argstr 0 = some path) (huargv : u.argint 1 = some uargv)
    (hargv : fetchArgv u uargv MAXARG 0 = some argv) (hf : Found s path ip₀ s₀)
    (hrun : (sys_exec above u).run s = .ok (re, s')) :
    (s₀.inode ip₀).type = T_SYMLINK ∧ (∃ found s₁,
        (followLinks above (maxLinks + 1) ip₀ []).run s₀ = .ok (found, s₁) ∧
        re = found.map fun e => (e.2, argv)) ∨
      (s₀.inode ip₀).type ≠ T_SYMLINK ∧ re = some (path.take (MAX_FILE_NAME - 1), argv) := by
  obtain ⟨s₂, hwalk, hlock⟩ := hf
  simp only [sys_exec, hpath, huargv, hargv] at hrun
  rw [Prog.bind_eq hwalk] at hrun
  simp only at hrun
  rw [Prog.bind_eq hlock, inodeAt_bind_run] at hrun
  split at hrun
  · rename_i hlink
    rw [Prog.bind_ok] at hrun
    obtain ⟨found, s₁, hloop, hrun⟩ := hrun
    refine Or.inl ⟨hlink, found, s₁, hloop, ?_⟩
    cases found with
    | none => exact (Prog.pure_ok.mp hrun).1.symm
    | some e =>
        simp only at hrun
        rw [Prog.bind_ok] at hrun
        obtain ⟨_, s₃, -, hrun⟩ := hrun
        exact (Prog.pure_ok.mp hrun).1.symm
  · rename_i hend
    rw [Prog.bind_ok] at hrun
    obtain ⟨_, s₃, -, hrun⟩ := hrun
    exact Or.inr ⟨hend, (Prog.pure_ok.mp hrun).1.symm⟩

/-- `sys_chdir` of a path that names an inode goes there if that is a directory. -/
theorem sys_chdir_found (hpath : u.argstr 0 = some path) (hf : Found s path ip₀ s₀)
    (hrun : (sys_chdir u).run s = .ok (rc, s')) :
    (s₀.inode ip₀).type = T_DIR ∧ rc = 0 ∧ (s'.proc s'.cur).cwd = some ip₀ ∨
      (s₀.inode ip₀).type ≠ T_DIR ∧ rc = -1 := by
  obtain ⟨s₂, hwalk, hlock⟩ := hf
  simp only [sys_chdir, hpath] at hrun
  rw [Prog.bind_eq hwalk] at hrun
  simp only at hrun
  rw [Prog.bind_eq hlock, inodeAt_bind_run] at hrun
  split at hrun
  · rename_i hno
    rw [Prog.bind_ok] at hrun
    obtain ⟨_, s₃, -, hrun⟩ := hrun
    exact Or.inr ⟨hno, (Prog.pure_ok.mp hrun).1.symm⟩
  · rename_i hdir
    rw [Prog.bind_ok] at hrun
    obtain ⟨_, s₃, -, hrun⟩ := hrun
    rw [myproc_bind_run] at hrun
    split at hrun
    · simp at hrun
    · rw [Prog.bind_ok] at hrun
      obtain ⟨_, s₄, -, hrun⟩ := hrun
      rw [setProc_bind_run] at hrun
      obtain ⟨rfl, rfl⟩ := Prog.pure_ok.mp hrun
      exact Or.inl ⟨not_not.mp hdir, rfl, by simp [withProc]⟩

end Calls

/-- The three calls agree on a path exactly when it is `Agreeable`, links that
overrun the array they are read into apart. -/
theorem resolvedAlike_iff {aboveOpen aboveExec : Nat → Str} {uo ue uc : User} {uargv : Nat}
    {argv : List Str} {ro rc : Int} {re : Option (Str × List Str)} {so se sc : Kernel}
    (hopath : uo.argstr 0 = some path) (homode : uo.argint 1 = some omode)
    (hnoderef : omode &&& O_NODEREF = 0) (hepath : ue.argstr 0 = some path)
    (huargv : ue.argint 1 = some uargv) (hargv : fetchArgv ue uargv MAXARG 0 = some argv)
    (hcpath : uc.argstr 0 = some path) (hfit : Fits maxLinks s path)
    (hopen : (sys_open aboveOpen uo).run s = .ok (ro, so))
    (hexec : (sys_exec aboveExec ue).run s = .ok (re, se))
    (hchdir : (sys_chdir uc).run s = .ok (rc, sc)) :
    ResolvedAlike s path omode ro so re rc sc ↔ Agreeable s path omode := by
  have hfail : ∀ ip, ro = -1 → ¬OpenOn so ro ip := by
    rintro ip hneg ⟨fd, f, hfd, -⟩
    omega
  constructor
  · intro h t name ip t' hl
    obtain ⟨hopened, ⟨name', argv', t'', hname', hnamed⟩, hcwd⟩ := h.found t name ip t' hl
    constructor
    · rintro ⟨ip₀, s₀, hf, hlink⟩
      have hnofile : ¬(skipelem path ≠ none ∧ (s₀.inode ip₀).type = T_FILE) := fun hfile =>
        absurd (hlink.symm.trans hfile.2) (by decide)
      constructor
      · intro hdir
        have hzero := (hcwd hdir).1
        rcases sys_chdir_found hcpath hf hchdir with ⟨hdir', -⟩ | ⟨-, hneg⟩
        · exact absurd (hlink.symm.trans hdir') (by decide)
        · omega
      · intro hcreate
        rcases sys_open_create hopath homode hcreate hf hopen with ⟨hfile, -⟩ | ⟨-, hneg⟩
        · exact absurd hfile hnofile
        · exact (hopened.resolve_left (hfail ip hneg)).2
    · intro hno
      obtain ⟨rfl, hf, hend⟩ := hl.of_no_link hno
      constructor
      · rcases sys_exec_found hepath huargv hargv hf hexec with ⟨hlink, -⟩ | ⟨-, hcut⟩
        · exact absurd hlink hend
        · obtain ⟨rfl, -⟩ := Prod.mk.inj (Option.some.inj (hname'.symm.trans hcut))
          exact ⟨t'', hnamed⟩
      · intro hcreate
        rcases sys_open_create hopath homode hcreate hf hopen with ⟨hfile, -⟩ | ⟨-, hneg⟩
        · exact Or.inr hfile
        · exact Or.inl (hopened.resolve_left (hfail ip hneg)).2
  · intro hag
    constructor
    case found =>
      intro t name ip t' hl
      obtain ⟨hlinked, hplain⟩ := hag t name ip t' hl
      obtain ⟨ip₀, s₀, hf⟩ := hl.first
      have hloop : ∀ above : Nat → Str, (followLinks above (maxLinks + 1) ip₀ []).run s₀ =
          .ok (some (ip, if (s₀.inode ip₀).type = T_SYMLINK then name else []), t') :=
        fun _ => followLinks_of_leads hl hfit hf []
      refine ⟨?_, ?_, ?_⟩
      · by_cases hcreate : omode &&& O_CREATE = 0
        · obtain ⟨found, s₁, hrun, hrest⟩ :=
            sys_open_plain hopath homode hcreate hnoderef hf hopen
          obtain ⟨rfl, rfl⟩ := Prod.mk.inj (Except.ok.inj (hrun.symm.trans (hloop _)))
          exact openFile_result hrest
        · rcases sys_open_create hopath homode hcreate hf hopen with ⟨hfile, hrest⟩ | ⟨hno, hneg⟩
          · have hno : ¬NamesLink s path := by
              rintro ⟨ip₁, s₁, hf₁, hlink⟩
              obtain ⟨rfl, rfl⟩ := hf.unique hf₁
              exact absurd (hlink.symm.trans hfile.2) (by decide)
            obtain ⟨rfl, hf', -⟩ := hl.of_no_link hno
            obtain ⟨rfl, rfl⟩ := hf.unique hf'
            exact openFile_result hrest
          · refine Or.inr ⟨hneg, ?_⟩
            by_cases hlink : NamesLink s path
            · exact (hlinked hlink).2 hcreate
            · obtain ⟨rfl, hf', -⟩ := hl.of_no_link hlink
              obtain ⟨rfl, rfl⟩ := hf.unique hf'
              exact ((hplain hlink).2 hcreate).resolve_right hno
      · by_cases hlink : NamesLink s path
        · obtain ⟨ip₁, s₁, hf₁, hlink₁⟩ := hlink
          obtain ⟨rfl, rfl⟩ := hf.unique hf₁
          rcases sys_exec_found hepath huargv hargv hf hexec with
            ⟨-, found, s₂, hrun, rfl⟩ | ⟨hend, -⟩
          · obtain ⟨rfl, rfl⟩ := Prod.mk.inj (Except.ok.inj (hrun.symm.trans (hloop _)))
            rw [if_pos hlink₁]
            exact ⟨name, argv, _, rfl, hl.found⟩
          · exact absurd hlink₁ hend
        · obtain ⟨rfl, hf', hend⟩ := hl.of_no_link hlink
          obtain ⟨rfl, rfl⟩ := hf.unique hf'
          obtain ⟨t'', hcut⟩ := (hplain hlink).1
          rcases sys_exec_found hepath huargv hargv hf hexec with ⟨hlink', -⟩ | ⟨-, rfl⟩
          · exact absurd hlink' hend
          · exact ⟨_, argv, t'', rfl, hcut⟩
      · intro hdir
        by_cases hlink : NamesLink s path
        · exact absurd hdir (hlinked hlink).1
        · obtain ⟨rfl, hf', -⟩ := hl.of_no_link hlink
          rcases sys_chdir_found hcpath hf' hchdir with ⟨-, hzero, hcwd⟩ | ⟨hno, -⟩
          · exact ⟨hzero, hcwd⟩
          · exact absurd hdir hno
    case lost =>
      rintro ⟨ip₀, s₀, hf, hlink⟩ hnone
      have hnotfound : ∀ (above : Nat → Str) (found : Option (Slot × Str)) (s₁ : Kernel),
          (followLinks above (maxLinks + 1) ip₀ []).run s₀ = .ok (found, s₁) → found = none := by
        rintro above (_ | ⟨ip, name⟩) s₁ hrun
        · rfl
        · obtain ⟨t, name', hl⟩ := leads_of_followLinks hf hfit hrun
          exact absurd ⟨t, name', ip, s₁, hl⟩ hnone
      refine ⟨?_, ?_, ?_⟩
      · by_cases hcreate : omode &&& O_CREATE = 0
        · obtain ⟨found, s₁, hrun, hrest⟩ :=
            sys_open_plain hopath homode hcreate hnoderef hf hopen
          obtain rfl := hnotfound _ _ _ hrun
          exact (Prog.pure_ok.mp hrest).1.symm
        · rcases sys_open_create hopath homode hcreate hf hopen with ⟨hfile, -⟩ | ⟨-, hneg⟩
          · exact absurd (hlink.symm.trans hfile.2) (by decide)
          · exact hneg
      · rcases sys_exec_found hepath huargv hargv hf hexec with
          ⟨-, found, s₂, hrun, rfl⟩ | ⟨hend, -⟩
        · obtain rfl := hnotfound _ _ _ hrun
          rfl
        · exact absurd hlink hend
      · rcases sys_chdir_found hcpath hf hchdir with ⟨hdir, -⟩ | ⟨-, hneg⟩
        · exact absurd (hlink.symm.trans hdir) (by decide)
        · exact hneg
    case missing =>
      rintro ⟨s₁, hwalk⟩ hcreate
      refine ⟨?_, ?_, ?_⟩
      · simp only [sys_open, hopath, homode, openInode, openPath, hcreate, ne_eq, not_true_eq_false,
          if_false, Prog.bind_bind_run] at hopen
        rw [Prog.bind_eq hwalk] at hopen
        exact (Prog.pure_ok.mp hopen).1.symm
      · simp only [sys_exec, hepath, huargv, hargv] at hexec
        rw [Prog.bind_eq hwalk] at hexec
        exact (Prog.pure_ok.mp hexec).1.symm
      · simp only [sys_chdir, hcpath] at hchdir
        rw [Prog.bind_eq hwalk] at hchdir
        exact (Prog.pure_ok.mp hchdir).1.symm

theorem ReadsLink.unique {bytes' : Str} (h : ReadsLink s ip bytes s₁)
    (h' : ReadsLink s ip bytes' s₂) : bytes = bytes' ∧ s₁ = s₂ := by
  obtain ⟨-, r, t, hread, hunlock⟩ := h
  obtain ⟨-, r', t', hread', hunlock'⟩ := h'
  obtain ⟨heq, rfl⟩ := Prod.mk.inj (Except.ok.inj (hread.symm.trans hread'))
  exact ⟨(Prod.mk.inj heq).2, (Prod.mk.inj (Except.ok.inj (hunlock.symm.trans hunlock'))).2⟩

/-- A path through one short link, to an inode that is none. -/
structure OneLink (s : Kernel) (path bytes : Str) (ip : Slot) (t' : Kernel) : Prop where
  link : ∃ ip₀ s₁ s₂, Found s path ip₀ s₁ ∧ ReadsLink s₁ ip₀ bytes s₂ ∧
    Found s₂ (cstr bytes) ip t'
  short : bytes.length < MAX_FILE_NAME
  plain : (t'.inode ip).type ≠ T_SYMLINK

theorem OneLink.fits (h : OneLink s path bytes ip t') (n : Nat) : Fits n s path := by
  obtain ⟨ip₀, s₁, s₂, hf, hreads, hend⟩ := h.link
  cases n with
  | zero => trivial
  | succ n =>
      intro ip₁ t₁ bytes₁ t₂ hf₁ hreads₁
      obtain ⟨rfl, rfl⟩ := hf.unique hf₁
      obtain ⟨rfl, rfl⟩ := hreads.unique hreads₁
      refine ⟨Or.inl h.short, ?_⟩
      cases n with
      | zero => trivial
      | succ n =>
          intro ip₂ t₃ bytes₂ t₄ hf₂ hreads₂
          obtain ⟨rfl, rfl⟩ := hend.unique hf₂
          exact absurd hreads₂.1 h.plain

theorem OneLink.namesLink (h : OneLink s path bytes ip t') : NamesLink s path := by
  obtain ⟨ip₀, s₁, s₂, hf, hreads, -⟩ := h.link
  exact ⟨ip₀, s₁, hf, hreads.1⟩

theorem OneLink.leads_unique (h : OneLink s path bytes ip t') {t₁ : Kernel}
    (hl : Leads n s path t name ip' t₁) : ip' = ip ∧ t₁ = t' := by
  obtain ⟨ip₀, s₁, s₂, hf, hreads, hend⟩ := h.link
  cases hl with
  | here hf₁ hplain =>
      obtain ⟨rfl, rfl⟩ := hf.unique hf₁
      exact absurd hreads.1 hplain
  | link hf₁ hreads₁ hrest =>
      obtain ⟨rfl, rfl⟩ := hf.unique hf₁
      obtain ⟨rfl, rfl⟩ := hreads.unique hreads₁
      cases hrest with
      | here hf₂ _ =>
          obtain ⟨rfl, rfl⟩ := hend.unique hf₂
          exact ⟨rfl, rfl⟩
      | link hf₂ hreads₂ _ =>
          obtain ⟨rfl, rfl⟩ := hend.unique hf₂
          exact absurd hreads₂.1 h.plain

/-- The arguments `(first, second + 256 * high)`; 16 is the address of "f", 20 that of
"l" and 24 that of a zero word. -/
def fileCall (first second high : UInt8) : User where
  mem a := if a = 4 then first else if a = 8 then second else if a = 9 then high
    else if a = 16 then 102 else if a = 20 then 108 else 0
  sz := 64
  esp := 0

/-- `open("f", O_CREATE)`, then `symlink("f", "l")`: the link leads to the file, which
`open("l", O_RDONLY)` opens and `exec("l", ..)` goes on with. -/
theorem file_linked : ∃ s₀ s t' so se sc,
    (sys_open (fun _ => []) (fileCall 16 0 2)).run booted = .ok (0, s₀) ∧
    (sys_symlink (fileCall 16 20 0)).run s₀ = .ok (0, s) ∧
    OneLink s [108] [102] 1 t' ∧ (t'.inode 1).type = T_FILE ∧
    (sys_open (fun _ => []) (fileCall 20 0 0)).run s = .ok (1, so) ∧
    (sys_exec (fun _ => []) (fileCall 20 24 0)).run s = .ok (some ([102], []), se) ∧
    (sys_chdir (fileCall 20 0 0)).run s = .ok (-1, sc) := by
  have hruns : Prog.returns ((sys_open (fun _ => []) (fileCall 16 0 2)).run booted) (fun r s₀ =>
      decide (r = 0) && Prog.returns ((sys_symlink (fileCall 16 20 0)).run s₀) fun r s =>
        decide (r = 0) &&
        (Prog.returns ((namei [108]).run s) (fun r s₁ => decide (r = some 2) &&
          Prog.returns ((ilock 2).run s₁) fun r s₂ => decide (r = ()) &&
            (decide ((s₂.inode 2).type = T_SYMLINK) &&
              Prog.returns ((readi 2 0 MAX_FILE_NAME).run s₂) fun r s₃ =>
                decide (r = (1, [102])) &&
                Prog.returns ((iunlock 2).run s₃) fun r s₄ => decide (r = ()) &&
                  Prog.returns ((namei [102]).run s₄) fun r s₅ => decide (r = some 1) &&
                    Prog.returns ((ilock 1).run s₅) fun r s₆ =>
                      decide (r = ()) && decide ((s₆.inode 1).type = T_FILE))) &&
        (Prog.returns ((sys_open (fun _ => []) (fileCall 20 0 0)).run s)
          (fun r _ => decide (r = 1) && true) &&
        (Prog.returns ((sys_exec (fun _ => []) (fileCall 20 24 0)).run s)
          (fun r _ => decide (r = some ([102], [])) && true) &&
        Prog.returns ((sys_chdir (fileCall 20 0 0)).run s)
          fun r _ => decide (r = -1) && true)))) = true := by
    decide +kernel
  obtain ⟨s₀, hs₀, hruns⟩ := Prog.returns_eq.mp hruns
  obtain ⟨s, hs, hruns⟩ := Prog.returns_eq.mp hruns
  obtain ⟨hlink, hruns⟩ := Bool.and_eq_true_iff.mp hruns
  obtain ⟨hopen, hruns⟩ := Bool.and_eq_true_iff.mp hruns
  obtain ⟨hexec, hchdir⟩ := Bool.and_eq_true_iff.mp hruns
  obtain ⟨s₁, hwalk, hlink⟩ := Prog.returns_eq.mp hlink
  obtain ⟨s₂, hlock, hlink⟩ := Prog.returns_eq.mp hlink
  obtain ⟨htype, hlink⟩ := Bool.and_eq_true_iff.mp hlink
  obtain ⟨s₃, hread, hlink⟩ := Prog.returns_eq.mp hlink
  obtain ⟨s₄, hunlock, hlink⟩ := Prog.returns_eq.mp hlink
  obtain ⟨s₅, hwalk', hlink⟩ := Prog.returns_eq.mp hlink
  obtain ⟨s₆, hlock', hfile⟩ := Prog.returns_eq.mp hlink
  have hfile := of_decide_eq_true hfile
  obtain ⟨so, hso, -⟩ := Prog.returns_eq.mp hopen
  obtain ⟨se, hse, -⟩ := Prog.returns_eq.mp hexec
  obtain ⟨sc, hsc, -⟩ := Prog.returns_eq.mp hchdir
  refine ⟨s₀, s, s₆, so, se, sc, hs₀, hs, ⟨⟨2, s₂, s₄, ⟨s₁, hwalk, hlock⟩,
    ⟨of_decide_eq_true htype, 1, s₃, hread, hunlock⟩, s₅, hwalk', hlock'⟩, by decide, ?_⟩,
    hfile, hso, hse, hsc⟩
  rw [hfile]
  decide

/-- The three calls on a link to a file. -/
theorem resolvedAlike_iff_link : ∃ s₀ s so se sc,
    (sys_open (fun _ => []) (fileCall 16 0 2)).run booted = .ok (0, s₀) ∧
    (sys_symlink (fileCall 16 20 0)).run s₀ = .ok (0, s) ∧
    (sys_open (fun _ => []) (fileCall 20 0 0)).run s = .ok (1, so) ∧
    (sys_exec (fun _ => []) (fileCall 20 24 0)).run s = .ok (some ([102], []), se) ∧
    (sys_chdir (fileCall 20 0 0)).run s = .ok (-1, sc) ∧ NamesLink s [108] ∧
    ResolvedAlike s [108] 0 1 so (some ([102], [])) (-1) sc := by
  obtain ⟨s₀, s, t', so, se, sc, hs₀, hs, hlink, hfile, hopen, hexec, hchdir⟩ := file_linked
  refine ⟨s₀, s, so, se, sc, hs₀, hs, hopen, hexec, hchdir, hlink.namesLink,
    (resolvedAlike_iff rfl rfl (by decide) rfl rfl rfl rfl (hlink.fits _) hopen hexec
      hchdir).mpr ?_⟩
  intro t name ip t₁ hl
  obtain ⟨rfl, rfl⟩ := hlink.leads_unique hl
  refine ⟨fun _ => ⟨?_, fun h => absurd rfl h⟩, fun hno => absurd hlink.namesLink hno⟩
  rw [hfile]
  decide

/-- The arguments `(first, second)`; 16 is the address of "/", 20 that of "l" and
24 that of a zero word. -/
def linkCall (first second : UInt8) : User where
  mem a := if a = 4 then first else if a = 8 then second else if a = 16 then slash
    else if a = 20 then 108 else 0
  sz := 64
  esp := 0

/-- `symlink("/", "l")`; then `open("l", O_RDONLY)` opens the root directory and
`exec("l", ..)` goes on with its name, but `chdir("l")` fails. -/
theorem link_chdir_fails : ∃ s so se sc,
    (sys_symlink (linkCall 16 20)).run booted = .ok (0, s) ∧
    (sys_open (fun _ => []) (linkCall 20 0)).run s = .ok (0, so) ∧
      OpenOn so 0 0 ∧ (so.inode 0).type = T_DIR ∧
    (sys_exec (fun _ => []) (linkCall 20 24)).run s = .ok (some ([slash], []), se) ∧
    (sys_chdir (linkCall 20 0)).run s = .ok (-1, sc) := by
  have hruns : Prog.returns ((sys_symlink (linkCall 16 20)).run booted) (fun r s => r = 0 &&
      Prog.returns ((sys_open (fun _ => []) (linkCall 20 0)).run s) (fun r so => decide (r = 0 ∧
        (so.proc so.cur).ofile 0 = some 0 ∧ (so.file 0).type = .inode ∧
        (so.file 0).ip = some 0 ∧ (so.inode 0).type = T_DIR)) &&
      Prog.returns ((sys_exec (fun _ => []) (linkCall 20 24)).run s)
        (fun r _ => r = some ([slash], [])) &&
      Prog.returns ((sys_chdir (linkCall 20 0)).run s) fun r _ => r = -1) = true := by
    decide +kernel
  obtain ⟨r, s, hs, hruns⟩ := Prog.returns_iff.mp hruns
  simp only [Bool.and_eq_true, decide_eq_true_eq] at hruns
  obtain ⟨⟨⟨rfl, hopen⟩, hexec⟩, hchdir⟩ := hruns
  obtain ⟨ro, so, hso, hopened⟩ := Prog.returns_iff.mp hopen
  obtain ⟨rfl, hfd, htype, hip, hdir⟩ := of_decide_eq_true hopened
  obtain ⟨re, se, hse, hname⟩ := Prog.returns_iff.mp hexec
  obtain ⟨rc, sc, hsc, hfail⟩ := Prog.returns_iff.mp hchdir
  obtain rfl := of_decide_eq_true hname
  obtain rfl := of_decide_eq_true hfail
  exact ⟨s, so, se, sc, hs, hso, ⟨0, 0, rfl, hfd, htype, hip⟩, hdir, hse, hsc⟩

end Fs
end CS444
