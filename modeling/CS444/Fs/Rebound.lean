/-
What a change of one directory entry does to paths.

`Rebound t t' d name r` says that the trees `t` and `t'` differ in what the
directory `d` has for `name`, which in neither is a directory: it is `r` in `t'`.
No path goes through such an entry, so paths lead to the same parents as before,
`Rebound.resolveParent`, and those that end in the entry name `r` now,
`Rebound.resolve_here`, while all others name what they named,
`Rebound.resolve_other`.
-/
import CS444.Fs.Entries

namespace CS444
namespace Fs

variable {t t' : FileTree} {fuel n m d d' cwd : Nat} {path name nm a : Str} {r : Option Nat}

/-! ## Paths and their parents -/

/-- A walk to the parent ends in a directory, and the path names what that has for the
last name. -/
theorem walk_of_parent (hfuel : path.length < fuel)
    (h : walk t true fuel path n nm = some (d, a)) : (t d).type = T_DIR ∧
      walk t false fuel path n nm = (lookup (t d).contents a).map fun m => (m, a) := by
  induction fuel generalizing path n nm with
  | zero => exact absurd hfuel (Nat.not_lt_zero _)
  | succ fuel ih =>
      rw [walk] at h ⊢
      cases hskip : skipelem path with
      | none =>
          rw [hskip] at h
          simp at h
      | some e =>
          obtain ⟨elem, rest⟩ := e
          have hlen := skipelem_length hskip
          rw [hskip] at h
          simp only at h ⊢
          by_cases hdir : (t n).type ≠ T_DIR
          · rw [if_pos hdir] at h
            exact absurd h (by simp)
          · rw [if_neg hdir] at h ⊢
            by_cases hlast : rest = []
            · rw [if_pos ⟨trivial, hlast⟩] at h
              obtain ⟨rfl, rfl⟩ := Prod.mk.inj (Option.some.inj h)
              refine ⟨not_not.mp hdir, ?_⟩
              rw [if_neg (by simp), hlast]
              cases lookup (t n).contents elem with
              | none => rfl
              | some m =>
                  obtain ⟨k, rfl⟩ : ∃ k, fuel = k + 1 := ⟨fuel - 1, by omega⟩
                  rfl
            · rw [if_neg (fun hand => hlast hand.2)] at h
              rw [if_neg (by simp)]
              cases hlookup : lookup (t n).contents elem with
              | none =>
                  rw [hlookup] at h
                  exact absurd h (by simp)
              | some m =>
                  rw [hlookup] at h
                  exact ih (by omega) h

/-- A path without a parent names nothing, if there is a name in it. -/
theorem walk_of_no_parent (hfuel : path.length < fuel) (h : walk t true fuel path n nm = none)
    (hskip : skipelem path ≠ none) : walk t false fuel path n nm = none := by
  induction fuel generalizing path n nm with
  | zero => exact absurd hfuel (Nat.not_lt_zero _)
  | succ fuel ih =>
      rw [walk] at h ⊢
      cases hskip : skipelem path with
      | none => contradiction
      | some e =>
          obtain ⟨elem, rest⟩ := e
          have hlen := skipelem_length hskip
          rw [hskip] at h
          simp only at h ⊢
          by_cases hdir : (t n).type ≠ T_DIR
          · rw [if_pos hdir]
          · rw [if_neg hdir] at h ⊢
            by_cases hlast : rest = []
            · rw [if_pos ⟨trivial, hlast⟩] at h
              exact absurd h (by simp)
            · rw [if_neg (fun hand => hlast hand.2)] at h
              rw [if_neg (by simp)]
              cases hlookup : lookup (t n).contents elem with
              | none => rfl
              | some m =>
                  rw [hlookup] at h
                  exact ih (by omega) h (skipelem_rest hskip hlast)

theorem resolve_of_parent (h : resolveParent t cwd path = some (d, a)) :
    (t d).type = T_DIR ∧ resolve t cwd path = lookup (t d).contents a := by
  obtain ⟨hdir, hwalk⟩ := walk_of_parent (Nat.lt_succ_self _) h
  refine ⟨hdir, ?_⟩
  unfold resolve
  rw [hwalk, Option.map_map]
  exact Option.map_id'

theorem resolve_of_no_parent (h : resolveParent t cwd path = none) :
    resolve t cwd path = if skipelem path = none then some (startOf path cwd) else none := by
  unfold resolve
  by_cases hskip : skipelem path = none
  · rw [if_pos hskip, walk, hskip]
    rfl
  · rw [if_neg hskip, walk_of_no_parent (Nat.lt_succ_self _) h hskip]
    rfl

/-- The directories that paths start from are directories. -/
def Rooted (t : FileTree) (cwd : Nat) : Prop := (t ROOTINO).type = T_DIR ∧ (t cwd).type = T_DIR

/-- What a path names and is no directory is an entry of the path's parent. -/
theorem resolve_file (hr : Rooted t cwd) (h : resolve t cwd path = some m)
    (hfile : (t m).type ≠ T_DIR) :
    ∃ d a, resolveParent t cwd path = some (d, a) ∧ lookup (t d).contents a = some m := by
  cases hp : resolveParent t cwd path with
  | none =>
      rw [resolve_of_no_parent hp] at h
      split at h
      · obtain rfl := Option.some.inj h
        refine absurd ?_ hfile
        unfold startOf
        split
        · exact hr.1
        · exact hr.2
      · exact absurd h (by simp)
  | some e =>
      obtain ⟨d, a⟩ := e
      rw [(resolve_of_parent hp).2] at h
      exact ⟨d, a, rfl, h⟩

/-! ## One entry changed -/

/-- The trees differ in what `d` has for `name`, which is no directory. -/
structure Rebound (t t' : FileTree) (d : Nat) (name : Str) (r : Option Nat) : Prop where
  dir : (t d).type = T_DIR
  dirs : ∀ n, (t' n).type = T_DIR ↔ (t n).type = T_DIR
  others : ∀ n a, (t n).type = T_DIR → ¬(n = d ∧ namecmp a name = true) →
    lookup (t' n).contents a = lookup (t n).contents a
  here : ∀ a, namecmp a name = true → lookup (t' d).contents a = r
  old : ∀ m, lookup (t d).contents name = some m → (t m).type ≠ T_DIR
  new : ∀ m, r = some m → (t m).type ≠ T_DIR

/-- No walk to a parent goes through what is no directory. -/
theorem walk_leaf (h : (t m).type ≠ T_DIR) : walk t true fuel path m nm = none := by
  cases fuel with
  | zero => rfl
  | succ fuel =>
      rw [walk]
      cases skipelem path with
      | none => rfl
      | some e => exact if_pos h

theorem Rebound.walk (hr : Rebound t t' d name r) :
    Fs.walk t' true fuel path n nm = Fs.walk t true fuel path n nm := by
  induction fuel generalizing path n nm with
  | zero => rfl
  | succ fuel ih =>
      rw [Fs.walk, Fs.walk]
      cases skipelem path with
      | none => rfl
      | some e =>
          obtain ⟨elem, rest⟩ := e
          simp only
          by_cases hdir : (t n).type = T_DIR
          · rw [if_neg (not_not.mpr hdir), if_neg (not_not.mpr ((hr.dirs n).mpr hdir))]
            by_cases hlast : rest = []
            · rw [if_pos ⟨trivial, hlast⟩, if_pos ⟨trivial, hlast⟩]
            · rw [if_neg (fun hand => hlast hand.2), if_neg (fun hand => hlast hand.2)]
              by_cases hat : n = d ∧ namecmp elem name = true
              · -- neither tree goes on through the entry
                obtain ⟨rfl, hname⟩ := hat
                rw [hr.here elem hname, lookup_congr hname]
                have hnew : ∀ m, r = some m → Fs.walk t' true fuel rest m elem = none :=
                  fun m hm => walk_leaf fun h => hr.new m hm ((hr.dirs m).mp h)
                have hold : ∀ m, lookup (t n).contents name = some m →
                    Fs.walk t true fuel rest m elem = none :=
                  fun m hm => walk_leaf (hr.old m hm)
                cases hr₁ : r with
                | none =>
                    cases hl : lookup (t n).contents name with
                    | none => rfl
                    | some m => exact (hold m hl).symm
                | some m₁ =>
                    cases hl : lookup (t n).contents name with
                    | none => exact hnew m₁ hr₁
                    | some m => exact (hnew m₁ hr₁).trans (hold m hl).symm
              · rw [hr.others n elem hdir hat]
                cases lookup (t n).contents elem with
                | none => rfl
                | some m => exact ih
          · rw [if_pos hdir, if_pos (fun h => hdir ((hr.dirs n).mp h))]

/-- Paths have the parents they had. -/
theorem Rebound.resolveParent (hr : Rebound t t' d name r) :
    Fs.resolveParent t' cwd path = Fs.resolveParent t cwd path := hr.walk

/-- A path that ends in the entry names what is there now. -/
theorem Rebound.resolve_here (hr : Rebound t t' d name r)
    (h : Fs.resolveParent t cwd path = some (d, a)) (ha : namecmp a name = true) :
    resolve t' cwd path = r := by
  rw [← hr.resolveParent] at h
  rw [(resolve_of_parent h).2, hr.here a ha]

/-- Any other path names what it named. -/
theorem Rebound.resolve_other (hr : Rebound t t' d name r)
    (h : ∀ a, Fs.resolveParent t cwd path = some (d, a) → ¬ namecmp a name = true) :
    resolve t' cwd path = resolve t cwd path := by
  cases hp : Fs.resolveParent t cwd path with
  | none => rw [resolve_of_no_parent hp, resolve_of_no_parent (hr.resolveParent.trans hp)]
  | some e =>
      obtain ⟨d', a⟩ := e
      have hp' : Fs.resolveParent t' cwd path = some (d', a) := hr.resolveParent.trans hp
      obtain ⟨hdir, heq⟩ := resolve_of_parent hp
      rw [heq, (resolve_of_parent hp').2]
      refine hr.others d' a hdir fun hat => ?_
      obtain ⟨rfl, hname⟩ := hat
      exact h a hp hname

/-- A change of what is no directory makes no difference to paths. -/
theorem Rebound.before {t₁ : FileTree} (hr : Rebound t₁ t' d name r)
    (hdirs : ∀ n, (t₁ n).type = T_DIR ↔ (t n).type = T_DIR)
    (hsame : ∀ n, (t n).type = T_DIR → t₁ n = t n) : Rebound t t' d name r := by
  have hdir : (t d).type = T_DIR := (hdirs d).mp hr.dir
  constructor
  case dir => exact hdir
  case dirs => exact fun n => (hr.dirs n).trans (hdirs n)
  case others =>
    intro n a hn hat
    rw [← hsame n hn]
    exact hr.others n a ((hdirs n).mpr hn) hat
  case here => exact hr.here
  case old =>
    intro m hm h
    rw [← hsame d hdir] at hm
    exact hr.old m hm ((hdirs m).mpr h)
  case new => exact fun m hm h => hr.new m hm ((hdirs m).mpr h)

end Fs
end CS444
