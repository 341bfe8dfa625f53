/-
`create`, the link loop of `sys_open` and the reference counts.
-/
import CS444.Fs.PathRefs

namespace CS444
namespace Fs

open Program Ledger

variable {s s₁ s' : Kernel} {ip dp : Slot} {name path : Str}

/-- An entry that is referred to and was read from the disk. -/
structure InUse (s : Kernel) (ip : Slot) : Prop where
  valid : (s.inode ip).valid = true
  pos : 0 < (s.inode ip).ref

theorem Ilocked.inUse (hl : Ilocked s ip s') : InUse s' ip := ⟨hl.valid, hl.pos'⟩

/-- Code that does not hold an entry leaves it in use, with its type. -/
theorem InodeMoves.inUse {h h' : Slot → Nat} (hm : InodeMoves s h s' h') (hu : InUse s ip)
    (hpos : (h ip : Int) < (s.inode ip).ref) :
    InUse s' ip ∧ (s'.inode ip).type = (s.inode ip).type := by
  obtain ⟨hpos', hvalid⟩ := hm.keeps hpos
  obtain ⟨hv, ht⟩ := hvalid hu.valid
  exact ⟨⟨hv, by omega⟩, ht⟩

theorem InodeMoves.inUse' {h' : Slot → Nat} (hm : InodeMoves s 0 s' h') (hu : InUse s ip) :
    InUse s' ip ∧ (s'.inode ip).type = (s.inode ip).type :=
  hm.inUse hu (by simpa using hu.pos)

/-- In a coherent cache the references held are counted. -/
theorem InodeMoves.holds {h' : Slot → Nat} (hm : InodeMoves s 0 s' h') (hc : CacheOk s) (k : Slot) :
    (h' k : Int) ≤ (s'.inode k).ref := by
  have := hm.ref_eq k
  have := hc.nonneg k
  simp only [Pi.zero_apply] at *
  omega

theorem InodeMoves.cacheOk {h' : Slot → Nat} (hm : InodeMoves s 0 s' h') (hc : CacheOk s) :
    CacheOk s' := hm.cache hc hc.nonneg

/-- A new entry with the old keys, written to the disk. -/
theorem rewritten_moves {i : Inode} (hu : InUse s ip) (href : i.ref = (s.inode ip).ref)
    (hdev : i.dev = (s.inode ip).dev) (hinum : i.inum = (s.inode ip).inum)
    (hvalid : i.valid = (s.inode ip).valid) (htype : i.type = (s.inode ip).type) :
    Moves s 0 (updated (withInode s ip i) ip) 0 := by
  have hkeys := sameKeys_withInode href hdev hinum hvalid htype
  refine (hkeys.moves 0).trans (updated_moves ((hkeys.valid ip).trans hu.valid) ?_ 0)
  rw [hkeys.ref]
  exact hu.pos

/-! ## `create` -/

theorem createDots_moves {u : Unit} (hrun : (createDots dp ip).run s = .ok (u, s'))
    (hdp : InUse s dp) (hip : InUse s ip) : Moves s 0 s' 0 := by
  rw [createDots, setInode_bind_run, iupdate_bind_run] at hrun
  simp only [inodeAt_bind_run] at hrun
  have hmoves := rewritten_moves hdp
    (i := { s.inode dp with nlink := short ((s.inode dp).nlink + 1) }) rfl rfl rfl rfl rfl
  have hip₁ := (hmoves.inUse' hip).1
  rw [Prog.bind_ok] at hrun
  obtain ⟨r, s₂, hdot, hrun⟩ := hrun
  have hmoves₂ := dirlink_moves hdot hip₁.pos hip₁.valid
  have hip₂ := (hmoves₂.inUse' hip₁).1
  split at hrun
  · simp at hrun
  · rw [Prog.bind_ok] at hrun
    obtain ⟨r', s₃, hdots, hrun⟩ := hrun
    have hmoves₃ := dirlink_moves hdots hip₂.pos hip₂.valid
    split at hrun
    · simp at hrun
    · obtain ⟨-, rfl⟩ := Prog.pure_ok.mp hrun
      exact (hmoves.trans hmoves₂).trans hmoves₃

theorem whenDots_moves {c : Prop} [Decidable c] {u : Unit}
    (hrun : (Prog.when c (createDots dp ip)).run s = .ok (u, s')) (hdp : InUse s dp)
    (hip : InUse s ip) : Moves s 0 s' 0 := by
  rw [Prog.when_ok] at hrun
  rcases hrun with ⟨-, hrun⟩ | ⟨-, rfl⟩
  · exact createDots_moves hrun hdp hip
  · exact .refl _ _

/-- What `create` returns: nothing, or an inode in use with the one reference
it left with, a regular file if that was asked for. -/
structure Created (s : Kernel) (type : Int) (r : Option Slot) (s' : Kernel) : Prop where
  moves : Moves s 0 s' (ofOption r)
  inUse : ∀ ip, r = some ip → InUse s' ip
  file : type = T_FILE → ∀ ip, r = some ip → (s'.inode ip).type = T_FILE

theorem createNew_created {type major minor : Int} (hc : CacheOk s)
    (hm : Moves s 0 s₁ (one dp)) (hdp : InUse s₁ dp)
    (hrun : (createNew dp name type major minor).run s₁ = .ok (ip, s')) :
    Created s type (some ip) s' := by
  rw [createNew, inodeAt_bind_run, Prog.bind_ok] at hrun
  obtain ⟨new, s₂, halloc, hrun⟩ := hrun
  rw [Prog.bind_ok] at hrun
  obtain ⟨_, s₃, hlock, hrun⟩ := hrun
  rw [setInode_bind_run, iupdate_bind_run, Prog.bind_ok] at hrun
  obtain ⟨_, s₄, hdots, hrun⟩ := hrun
  rw [inodeAt_bind_run, Prog.bind_ok] at hrun
  obtain ⟨r, s₅, hlink, hrun⟩ := hrun
  split at hrun
  · simp at hrun
  rw [Prog.bind_ok] at hrun
  obtain ⟨_, s₆, hput, hrun⟩ := hrun
  obtain ⟨rfl, rfl⟩ := Prog.pure_ok.mp hrun
  obtain ⟨hmalloc, hfresh⟩ := ialloc_moves halloc (Or.inr ⟨dp, hdp.pos, rfl⟩)
  have hl := ilock_spec hlock
  -- the new inode in the cache and on the disk
  have hmup := rewritten_moves hl.inUse
    (i := { s₃.inode new with major := short major, minor := short minor, nlink := 1 })
    rfl rfl rfl rfl rfl
  have hdp₂ := (hmalloc.inUse' hdp).1
  have hdp₃ := (hl.moves.inUse' hdp₂).1
  have hdp₄ := (hmup.inUse' hdp₃).1
  obtain ⟨hip₄, ht₄⟩ := hmup.inUse' hl.inUse
  have hmdots := whenDots_moves hdots hdp₄ hip₄
  have hdp₅ := (hmdots.inUse' hdp₄).1
  obtain ⟨hip₅, ht₅⟩ := hmdots.inUse' hip₄
  have hmlink := dirlink_moves hlink hdp₅.pos hdp₅.valid
  obtain ⟨hip₆, ht₆⟩ := hmlink.inUse' hip₅
  -- all of it before the parent is released
  have hmall : Moves s 0 s₅ (one dp + one new) := by
    have hnew := (((hmalloc.trans (hl.moves.beside (one new))).trans
      (hmup.beside (one new + 0))).trans (hmdots.beside _)).trans (hmlink.beside _)
    simp only [add_zero] at hnew
    exact hm.trans (hnew.beside (one dp))
  have hmput := iunlockput_moves hput
  have hpos : ((one dp new : Nat) : Int) < (s₅.inode new).ref := by
    have := hmall.holds hc new
    simp only [Pi.add_apply, one_self] at this
    omega
  obtain ⟨hip', ht'⟩ := hmput.inUse hip₆ hpos
  refine ⟨hmall.trans ?_, ?_, ?_⟩
  · have := hmput.leaving (one new)
    rwa [add_comm] at this
  · rintro k ⟨⟩
    exact hip'
  · rintro htype k ⟨⟩
    obtain ⟨hinvalid, hdisk⟩ := hfresh (hm.cacheOk hc)
    rw [ht', ht₆, ht₅, ht₄, hl.type, hinvalid, hdisk, htype]
    rfl

theorem create_created {type major minor : Int} {r : Option Slot} (hc : CacheOk s)
    (hcwd : CwdOk s) (hrun : (create path type major minor).run s = .ok (r, s')) :
    Created s type r s' := by
  have hnone : ∀ {s₁}, Moves s 0 s₁ 0 → Created s type none s₁ := fun hm =>
    ⟨hm, by simp, by simp⟩
  rw [create, Prog.bind_ok] at hrun
  obtain ⟨w, s₁, hparent, hrun⟩ := hrun
  have hm₁ := namex_moves hparent hcwd
  cases w with
  | none =>
      obtain ⟨rfl, rfl⟩ := Prog.pure_ok.mp hrun
      exact hnone hm₁
  | some w =>
      obtain ⟨dp, name⟩ := w
      simp only at hrun
      rw [Prog.bind_ok] at hrun
      obtain ⟨_, s₂, hlock, hrun⟩ := hrun
      have hl := ilock_spec hlock
      have hm₂ : Moves s 0 s₂ (one dp) := by
        have := hm₁.trans (hl.moves.beside (one dp))
        rwa [add_zero] at this
      rw [Prog.bind_ok] at hrun
      obtain ⟨e, s₃, hlookup, hrun⟩ := hrun
      have hlook := dirlookup_moves hlookup hl.pos'
      cases e with
      | some e =>
          obtain ⟨ip, off⟩ := e
          simp only at hrun
          rw [Prog.bind_ok] at hrun
          obtain ⟨_, s₄, hput, hrun⟩ := hrun
          rw [Prog.bind_ok] at hrun
          obtain ⟨_, s₅, hlock₅, hrun⟩ := hrun
          have hl₅ := ilock_spec hlock₅
          have hm₅ : Moves s 0 s₅ (one ip) := by
            have hdrop := (iunlockput_moves hput).leaving (one ip)
            rw [add_comm] at hdrop
            have := ((hm₂.trans (hlook.beside (one dp))).trans hdrop).trans
              (hl₅.moves.beside (one ip))
            rwa [add_zero] at this
          rw [inodeAt_bind_run] at hrun
          split at hrun
          · rename_i htypes
            obtain ⟨rfl, rfl⟩ := Prog.pure_ok.mp hrun
            refine ⟨hm₅, ?_, ?_⟩
            · rintro k ⟨⟩
              exact hl₅.inUse
            · rintro - k ⟨⟩
              exact htypes.2
          · rw [Prog.bind_ok] at hrun
            obtain ⟨_, s₆, hput₆, hrun⟩ := hrun
            obtain ⟨rfl, rfl⟩ := Prog.pure_ok.mp hrun
            exact hnone (hm₅.trans (iunlockput_moves hput₆))
      | none =>
          simp only at hrun
          rw [Prog.bind_ok] at hrun
          obtain ⟨ip, s₄, hnew, hrun⟩ := hrun
          obtain ⟨rfl, rfl⟩ := Prog.pure_ok.mp hrun
          refine createNew_created hc ?_ (hlook.inUse' hl.inUse).1 hnew
          have := hm₂.trans (hlook.beside (one dp))
          rwa [show found none = 0 from rfl, add_zero] at this

end Fs
end CS444
