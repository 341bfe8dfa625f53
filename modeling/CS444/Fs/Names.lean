/-
Writing an entry of a directory of the kernel.

`Rebinds s s' d name r` says that the directory `d` has `r` for `name` in `s'`, and
that no other directory or file, and no link count, is different.  Writing NULs over
the entry of a name does this with nothing for `r`, `Wrote.clears`, and `dirlink`
with the inode it is given, `dirlink_adds`.
-/
import CS444.Fs.Midway
import CS444.Fs.Rebound

namespace CS444
namespace Fs

open Bytes Program Ledger

variable {s s₁ s' : Kernel} {ip dp k : Slot} {d m n off fuel i inum : Nat} {h : Slot → Nat}
  {a name path src : Str} {r : Option Nat}

/-! ## Writing a directory -/

/-- No directory has two entries for the same name. -/
def Distinct (t : FileTree) : Prop := ∀ n, (t n).type = T_DIR → Unambiguous (t n).contents

/-- `d` has `r` for `name`, and nothing else is different. -/
structure Rebinds (s s' : Kernel) (d : Nat) (name : Str) (r : Option Nat) : Prop where
  lookups : ∀ a, lookup (tree s' d).contents a =
    if namecmp a name then r else lookup (tree s d).contents a
  clear : Unambiguous (tree s' d).contents
  nodes : ∀ n, (s.dinode n).type ≠ 0 → n ≠ d → tree s' n = tree s n
  types : ∀ n, (s'.dinode n).type = (s.dinode n).type
  nlinks : ∀ n, (s'.dinode n).nlink = (s.dinode n).nlink

theorem Wrote.tree_self (hw : Wrote s dp off src s') (hinum : (s.inode dp).inum = d) :
    (tree s' d).contents = splice (tree s d).contents off src := by
  obtain rfl := hinum
  exact hw.written

theorem Wrote.tree_other (hw : Wrote s dp off src s') (hinum : (s.inode dp).inum = d)
    (hn : n ≠ d) (htype : (s.dinode n).type ≠ 0) : tree s' n = tree s n := by
  obtain rfl := hinum
  unfold tree
  rw [hw.kept n hn htype, hw.dinode n hn]

theorem Wrote.rebinds (hw : Wrote s dp off src s') (hs : Sound s) (hu : InUse s dp)
    (hinum : (s.inode dp).inum = d)
    (hlookups : ∀ a, lookup (splice (tree s d).contents off src) a =
      if namecmp a name then r else lookup (tree s d).contents a)
    (hclear : Unambiguous (splice (tree s d).contents off src)) : Rebinds s s' d name r := by
  have hself := hw.tree_self hinum
  constructor
  case lookups =>
    rw [hself]
    exact hlookups
  case clear =>
    rw [hself]
    exact hclear
  case nodes => exact fun n htype hn => hw.tree_other hinum hn htype
  case types => exact fun n => (hw.dinode_keys hs hu n).1
  case nlinks => exact fun n => (hw.dinode_keys hs hu n).2

/-- NULs were written over the entry of a name. -/
theorem Wrote.clears (hw : Wrote s dp off noDirent s') (hs : Sound s) (hu : InUse s dp)
    (hinum : (s.inode dp).inum = d) (hdistinct : Unambiguous (tree s d).contents)
    (hoff : entryOff (tree s d).contents name = some off) : Rebinds s s' d name none := by
  obtain ⟨j, hj, rfl, -⟩ := entryOff_eq_some hoff
  exact hw.rebinds hs hu hinum (fun a => lookup_clear hdistinct hoff)
    (unambiguous_clear hdistinct hj)

/-- An entry was written in a vacant place. -/
theorem Wrote.adds (hw : Wrote s dp (i * direntSize) (Dirent.toBytes ⟨inum, name⟩) s')
    (hs : Sound s) (hu : InUse s dp) (hinum : (s.inode dp).inum = d)
    (hdistinct : Unambiguous (tree s d).contents) (hv : Vacant (tree s d).contents i)
    (hnone : lookup (tree s d).contents name = none) (hne : inum ≠ 0) (hlt : inum < 65536) :
    Rebinds s s' d name (some inum) :=
  hw.rebinds hs hu hinum (fun _ => lookup_add hdistinct hv hnone hne hlt)
    (unambiguous_add hdistinct hv hnone hne hlt)

/-- Files and directories that are neither freed nor written keep what they hold. -/
theorem Rebinds.same (hr : Rebinds s s₁ d name r) (htree : tree s' = tree s₁)
    (hnlinks : ∀ n, (s'.dinode n).nlink = (s₁.dinode n).nlink) : Rebinds s s' d name r := by
  have htypes : ∀ n, (s'.dinode n).type = (s₁.dinode n).type := fun n =>
    congrArg Node.type (congrFun htree n)
  constructor
  case lookups =>
    rw [htree]
    exact hr.lookups
  case clear =>
    rw [htree]
    exact hr.clear
  case nodes => exact fun n htype hn => (congrFun htree n).trans (hr.nodes n htype hn)
  case types => exact fun n => (htypes n).trans (hr.types n)
  case nlinks => exact fun n => (hnlinks n).trans (hr.nlinks n)

/-! ## `dirlink` -/

theorem emptyDirent_vacant {r : Nat} (hf : Filled s.block (s.inode dp).size (s.inode dp).addrs)
    (htype : (s.inode dp).type ≠ T_DEV) (hi : i * direntSize ≤ (s.inode dp).size)
    (hrun : (emptyDirent dp fuel (i * direntSize)).run s = .ok (r, s')) :
    s' = s ∧ ∃ j, r = j * direntSize ∧ Vacant (cached s dp) j := by
  induction fuel generalizing i with
  | zero => simp [emptyDirent] at hrun
  | succ fuel ih =>
      rw [emptyDirent, inodeAt_bind_run] at hrun
      by_cases hmore : i * direntSize < (s.inode dp).size
      · rw [if_pos hmore, Prog.run_bind, readDirent_eq _ hf htype hmore.le] at hrun
        by_cases hin : i * direntSize + direntSize ≤ (s.inode dp).size
        · rw [if_pos hin] at hrun
          simp only at hrun
          by_cases hempty : (direntAt (cached s dp) (i * direntSize)).inum = 0
          · rw [if_pos hempty] at hrun
            obtain ⟨rfl, rfl⟩ := Prog.pure_ok.mp hrun
            refine ⟨rfl, i, rfl, Or.inr ⟨?_, hempty⟩⟩
            rw [length_cached]
            simp only [direntSize] at *
            omega
          · have hnext : i * direntSize + direntSize = (i + 1) * direntSize := by ring
            rw [if_neg hempty, hnext] at hrun
            exact ih (by omega) hrun
        · rw [if_neg hin] at hrun
          exact absurd hrun (by simp)
      · rw [if_neg hmore] at hrun
        obtain ⟨rfl, rfl⟩ := Prog.pure_ok.mp hrun
        refine ⟨rfl, i, rfl, Or.inl ?_⟩
        rw [length_cached]
        omega

/-- `dirlink` finds the name, or adds it. -/
theorem dirlink_adds {r : Int} (hm : Midway s h none) (hu : InUse s dp)
    (hinum : (s.inode dp).inum = d) (htype : (s.inode dp).type = T_DIR)
    (hdistinct : Unambiguous (tree s d).contents) (hne : inum ≠ 0) (hlt : inum < 65536)
    (hrun : (dirlink dp name inum).run s = .ok (r, s')) : Midway s' h none ∧
      (r = -1 ∧ lookup (tree s d).contents name ≠ none ∧ SameDisk s s' ∨
        r = 0 ∧ lookup (tree s d).contents name = none ∧
          Rebinds s s' d name (some inum)) := by
  have hs := hm.sound
  have hloaded : cached s dp = (tree s d).contents := by
    obtain rfl := hinum
    show contents s.block (s.inode dp).disk = contents s.block (s.dinode (s.inode dp).inum)
    rw [(hs.toCoherent.typed hu).1]
  have hf := hs.toCoherent.filled_entry hu
  have hdev : (s.inode dp).type ≠ T_DEV := by
    rw [htype]
    decide
  rw [dirlink, Prog.bind_ok] at hrun
  obtain ⟨found, s₁, hlookup, hrun⟩ := hrun
  rw [dirlookup_eq hf htype, hloaded] at hlookup
  unfold lookup
  cases hoff : entryOff (tree s d).contents name with
  | none =>
      rw [hoff, fetched] at hlookup
      split at hlookup
      · obtain ⟨rfl, rfl⟩ := Prod.mk.inj (Except.ok.inj hlookup)
        simp only at hrun
        rw [inodeAt_bind_run, Prog.bind_ok] at hrun
        obtain ⟨off, s₂, hempty, hrun⟩ := hrun
        obtain ⟨rfl, j, rfl, hv⟩ := emptyDirent_vacant (i := 0) hf hdev (by omega)
          (by rw [Nat.zero_mul]; exact hempty)
        rw [hloaded] at hv
        rw [Prog.bind_ok] at hrun
        obtain ⟨n, s₃, hwrite, hrun⟩ := hrun
        split at hrun
        · exact absurd hrun (by simp)
        · rename_i hall
          obtain ⟨rfl, rfl⟩ := Prog.pure_ok.mp hrun
          rcases writei_wrote hs hu hdev (by rw [length_toBytes]; decide) hwrite with
            ⟨rfl, -⟩ | ⟨-, -, -, hw⟩
          · exact absurd hall (by decide)
          · refine ⟨hm.wrote hu hw, Or.inr ⟨rfl, rfl, ?_⟩⟩
            exact hw.adds hs hu hinum hdistinct hv (lookup_eq_none.mpr hoff) hne hlt
      · exact absurd hlookup (by simp)
  | some off =>
      rw [hoff, fetched, Prog.bind_ok] at hlookup
      obtain ⟨ip, s₂, hget, hlookup⟩ := hlookup
      obtain ⟨rfl, rfl⟩ := Prog.pure_ok.mp hlookup
      simp only at hrun
      rw [Prog.bind_ok] at hrun
      obtain ⟨_, s₃, hput, hrun⟩ := hrun
      obtain ⟨rfl, rfl⟩ := Prog.pure_ok.mp hrun
      obtain ⟨hsince, -, -⟩ := (hs.toCoherent.sinceHere none).iget
        (Or.inr ⟨dp, hu.pos, rfl⟩) hget
      have hsince' := hsince.iput hs.toCoherent hput
      have hnext := hm.since hsince'
      rw [add_zero] at hnext
      exact ⟨hnext, Or.inl ⟨rfl, by simp, hsince'.disk⟩⟩

end Fs
end CS444
