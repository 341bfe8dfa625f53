/-
What a directory holds, and writing one entry of it.

A directory is `Unambiguous` if no two of its entries are for the same name.
Looking a name up is then asking for an entry, `lookup_eq_some`, and writing NULs
over the entry of a name takes that name away, `lookup_clear`, as writing a new
entry over an empty one, or behind the last, adds its name, `lookup_add`.  Every
other name keeps what it had.
-/
import CS444.Fs.Tree
import CS444.Fs.Writes

namespace CS444
namespace Fs

variable {c b a name old src : Str} {off i j m inum p : Nat}

/-! ## Names -/

/-- The part of a name that is compared. -/
def nameKey (a : Str) : Str := (cstr a).take DIRSIZ

theorem namecmp_iff : namecmp a name = true ↔ nameKey a = nameKey name := by
  unfold namecmp nameKey
  exact decide_eq_true_iff

theorem namecmp_comm : namecmp a name = true ↔ namecmp name a = true := by
  rw [namecmp_iff, namecmp_iff]
  exact eq_comm

theorem takeWhile_take {α : Type} (q : α → Bool) (l : List α) (n : Nat) :
    (l.take n).takeWhile q = (l.takeWhile q).take n := by
  induction l generalizing n with
  | nil => simp
  | cons x l ih =>
      cases n with
      | zero => rfl
      | succ n =>
          rw [List.take_succ_cons, List.takeWhile_cons, List.takeWhile_cons]
          split
          · rw [ih, List.take_succ_cons]
          · rfl

/-- What is left of a name in a directory entry. -/
theorem nameKey_stored (n : Nat) :
    nameKey (name.take DIRSIZ ++ List.replicate n 0) = nameKey name := by
  have hcstr : cstr (name.take DIRSIZ ++ List.replicate n 0) = cstr (name.take DIRSIZ) := by
    unfold cstr
    rw [List.takeWhile_append]
    split
    · rename_i hall
      have hzeros : (List.replicate n (0 : UInt8)).takeWhile (· ≠ 0) = [] := by
        cases n with
        | zero => rfl
        | succ n =>
            rw [List.replicate_succ]
            rfl
      rw [hzeros, List.append_nil]
      exact ((List.takeWhile_prefix _).eq_of_length hall).symm
    · rfl
  unfold nameKey
  rw [hcstr]
  unfold cstr
  rw [takeWhile_take, List.take_take, Nat.min_self]

theorem length_toBytes (de : Dirent) : de.toBytes.length = direntSize := by
  unfold Dirent.toBytes
  simp only [List.length_append, List.length_cons, List.length_nil, List.length_replicate,
    List.length_take, DIRSIZ, direntSize]
  omega

theorem ofBytes_toBytes_inum (hinum : inum < 65536) :
    (Dirent.ofBytes (Dirent.toBytes ⟨inum, name⟩)).inum = inum := by
  show (UInt8.ofNat inum).toNat + 256 * (UInt8.ofNat (inum / 256)).toNat = inum
  rw [UInt8.toNat_ofNat', UInt8.toNat_ofNat']
  omega

theorem namecmp_toBytes :
    namecmp a (Dirent.ofBytes (Dirent.toBytes ⟨inum, name⟩)).name = namecmp a name := by
  rw [Bool.eq_iff_iff, namecmp_iff, namecmp_iff]
  show nameKey a = nameKey (name.take DIRSIZ ++ List.replicate _ 0) ↔ _
  rw [nameKey_stored]

/-! ## Entries -/

/-- No two entries are for the same name. -/
def Unambiguous (c : Str) : Prop :=
  ∀ a i j, i < c.length / direntSize → j < c.length / direntSize →
    EntryFor c a (i * direntSize) → EntryFor c a (j * direntSize) → i = j

theorem entryOff_eq_some (h : entryOff c a = some off) :
    ∃ i, i < c.length / direntSize ∧ off = i * direntSize ∧ EntryFor c a off := by
  have hmem := List.mem_of_find?_eq_some h
  have hentry : EntryFor c a off := by simpa using List.find?_some h
  rw [List.mem_range'] at hmem
  obtain ⟨i, hi, rfl⟩ := hmem
  exact ⟨i, hi, by ring, hentry⟩

theorem entryOff_eq_none (h : entryOff c a = none) (hi : i < c.length / direntSize) :
    ¬ EntryFor c a (i * direntSize) := by
  have hmem : i * direntSize ∈ List.range' 0 (c.length / direntSize) direntSize := by
    rw [List.mem_range']
    exact ⟨i, hi, by ring⟩
  simpa using List.find?_eq_none.mp h _ hmem

/-- Looking a name up is asking for its entry. -/
theorem lookup_eq_some (hu : Unambiguous c) : lookup c a = some m ↔
    ∃ i, i < c.length / direntSize ∧ EntryFor c a (i * direntSize) ∧
      (direntAt c (i * direntSize)).inum = m := by
  unfold lookup
  cases hoff : entryOff c a with
  | none =>
      refine iff_of_false (by simp) fun hex => ?_
      obtain ⟨i, hi, hentry, -⟩ := hex
      exact entryOff_eq_none hoff hi hentry
  | some off =>
      obtain ⟨i, hi, rfl, hentry⟩ := entryOff_eq_some hoff
      rw [Option.map_some, Option.some.injEq]
      constructor
      · exact fun hm => ⟨i, hi, hentry, hm⟩
      · intro hex
        obtain ⟨j, hj, hentry', hm⟩ := hex
        rwa [hu a i j hi hj hentry hentry']

theorem lookup_eq_none : lookup c a = none ↔ entryOff c a = none := by
  unfold lookup
  exact Option.map_eq_none_iff

theorem lookup_inum (h : lookup c a = some m) : m ≠ 0 ∧ m < 65536 := by
  unfold lookup at h
  obtain ⟨off, hoff, rfl⟩ := Option.map_eq_some_iff.mp h
  obtain ⟨-, -, -, hentry⟩ := entryOff_eq_some hoff
  refine ⟨hentry.1, ?_⟩
  have hlow := (((c.drop off).take direntSize).getD 0 0).toNat_lt
  have hhigh := (((c.drop off).take direntSize).getD 1 0).toNat_lt
  show _ + 256 * _ < 65536
  omega

/-- Names that are compared alike are looked up alike. -/
theorem lookup_congr (h : namecmp a name = true) : lookup c a = lookup c name := by
  have hkey := namecmp_iff.mp h
  have hsame : ∀ o, EntryFor c a o ↔ EntryFor c name o := by
    intro o
    unfold EntryFor
    rw [namecmp_iff, namecmp_iff, hkey]
  unfold lookup entryOff
  congr 2
  funext o
  exact decide_eq_decide.mpr (hsame o)

/-! ## Writing an entry -/

theorem getElem?_splice (hoff : off ≤ old.length) : (splice old off src)[p]? =
    if off ≤ p ∧ p < off + src.length then src[p - off]? else old[p]? := by
  have hlen : (old.take off ++ src).length = off + src.length := by
    rw [List.length_append, List.length_take]
    omega
  unfold splice
  by_cases hin : p < off + src.length
  · rw [List.getElem?_append_left (by omega)]
    by_cases hlow : off ≤ p
    · rw [if_pos ⟨hlow, hin⟩, List.getElem?_append_right (by rw [List.length_take]; omega),
        List.length_take, Nat.min_eq_left hoff]
    · rw [if_neg (by omega), List.getElem?_append_left (by rw [List.length_take]; omega),
        List.getElem?_take_of_lt (by omega)]
  · rw [if_neg (by omega), List.getElem?_append_right (by omega), hlen, List.getElem?_drop]
    congr 1
    omega

/-- The entries after one of them was written. -/
theorem direntAt_splice (hb : b.length = direntSize) (hj : j * direntSize ≤ c.length) :
    direntAt (splice c (j * direntSize) b) (i * direntSize) =
      if i = j then Dirent.ofBytes b else direntAt c (i * direntSize) := by
  by_cases hij : i = j
  · subst hij
    rw [if_pos rfl, direntAt]
    congr 1
    apply List.ext_getElem?
    intro q
    by_cases hq : q < direntSize
    · rw [List.getElem?_take_of_lt hq, List.getElem?_drop, getElem?_splice hj,
        if_pos ⟨by omega, by omega⟩]
      congr 1
      omega
    · rw [List.getElem?_take_eq_none (by omega), List.getElem?_eq_none (by omega)]
  · rw [if_neg hij, direntAt, direntAt]
    congr 1
    apply List.ext_getElem?
    intro q
    by_cases hq : q < direntSize
    · rw [List.getElem?_take_of_lt hq, List.getElem?_take_of_lt hq, List.getElem?_drop,
        List.getElem?_drop, getElem?_splice hj, if_neg]
      simp only [direntSize] at *
      omega
    · rw [List.getElem?_take_eq_none (by omega), List.getElem?_take_eq_none (by omega)]

theorem entryFor_splice (hb : b.length = direntSize) (hj : j * direntSize ≤ c.length) :
    EntryFor (splice c (j * direntSize) b) a (i * direntSize) ↔
      if i = j then (Dirent.ofBytes b).inum ≠ 0 ∧ namecmp a (Dirent.ofBytes b).name = true
      else EntryFor c a (i * direntSize) := by
  unfold EntryFor
  rw [direntAt_splice hb hj]
  split <;> rfl

/-- The empty entry. -/
def noDirent : Str := List.replicate direntSize 0

theorem ofBytes_noDirent : (Dirent.ofBytes noDirent).inum = 0 := by decide

theorem length_clear (hj : j < c.length / direntSize) :
    (splice c (j * direntSize) noDirent).length = c.length := by
  have hend : j * direntSize + direntSize ≤ c.length := by
    simp only [direntSize] at *
    omega
  rw [length_splice _ (by omega), noDirent, List.length_replicate, Nat.max_eq_left hend]

/-- An entry is left after another one was cleared. -/
theorem entryFor_clear (hj : j < c.length / direntSize) :
    EntryFor (splice c (j * direntSize) noDirent) a (i * direntSize) ↔
      i ≠ j ∧ EntryFor c a (i * direntSize) := by
  have hlow : j * direntSize ≤ c.length := by
    simp only [direntSize] at *
    omega
  rw [entryFor_splice (by rw [noDirent, List.length_replicate]) hlow, ofBytes_noDirent]
  by_cases hij : i = j
  · rw [if_pos hij]
    exact iff_of_false (fun h => h.1 rfl) fun h => h.1 hij
  · rw [if_neg hij]
    exact (and_iff_right hij).symm

theorem unambiguous_clear (hu : Unambiguous c) (hj : j < c.length / direntSize) :
    Unambiguous (splice c (j * direntSize) noDirent) := by
  intro a i k hi hk hfor hfor'
  rw [length_clear hj] at hi hk
  exact hu a i k hi hk ((entryFor_clear hj).mp hfor).2 ((entryFor_clear hj).mp hfor').2

/-- Clearing the entry of a name takes the name away, and no other. -/
theorem lookup_clear (hu : Unambiguous c) (hoff : entryOff c name = some off) :
    lookup (splice c off noDirent) a = if namecmp a name then none else lookup c a := by
  obtain ⟨j, hj, rfl, hentry⟩ := entryOff_eq_some hoff
  have hinums : ∀ i, i ≠ j → direntAt (splice c (j * direntSize) noDirent) (i * direntSize) =
      direntAt c (i * direntSize) := by
    intro i hij
    rw [direntAt_splice (by rw [noDirent, List.length_replicate]) (by
      simp only [direntSize] at *
      omega), if_neg hij]
  by_cases hname : namecmp a name = true
  · rw [if_pos hname, Option.eq_none_iff_forall_ne_some]
    intro m hm
    rw [lookup_eq_some (unambiguous_clear hu hj), length_clear hj] at hm
    obtain ⟨i, hi, hfor, -⟩ := hm
    obtain ⟨hij, hfor⟩ := (entryFor_clear hj).mp hfor
    have hsame : EntryFor c a (j * direntSize) := by
      refine ⟨hentry.1, ?_⟩
      rw [namecmp_iff, namecmp_iff.mp hname]
      exact namecmp_iff.mp hentry.2
    exact hij (hu a i j hi hj hfor hsame)
  · rw [if_neg hname]
    apply Option.ext
    intro m
    rw [lookup_eq_some (unambiguous_clear hu hj), lookup_eq_some hu, length_clear hj]
    constructor
    · intro hex
      obtain ⟨i, hi, hfor, hm⟩ := hex
      obtain ⟨hij, hfor⟩ := (entryFor_clear hj).mp hfor
      rw [hinums i hij] at hm
      exact ⟨i, hi, hfor, hm⟩
    · intro hex
      obtain ⟨i, hi, hfor, hm⟩ := hex
      have hij : i ≠ j := by
        rintro rfl
        refine hname ?_
        rw [namecmp_iff, namecmp_iff.mp hfor.2]
        exact (namecmp_iff.mp hentry.2).symm
      refine ⟨i, hi, (entryFor_clear hj).mpr ⟨hij, hfor⟩, ?_⟩
      rw [hinums i hij]
      exact hm

/-- A place for an entry: one that is empty, or behind the last. -/
def Vacant (c : Str) (j : Nat) : Prop :=
  c.length = j * direntSize ∨
    j < c.length / direntSize ∧ (direntAt c (j * direntSize)).inum = 0

theorem Vacant.le (hv : Vacant c j) : j * direntSize ≤ c.length := by
  rcases hv with hv | ⟨hv, -⟩
  · exact hv.ge
  · simp only [direntSize] at *
    omega

/-- The places after an entry was added. -/
theorem Vacant.places (hv : Vacant c j) (hb : b.length = direntSize) :
    i < (splice c (j * direntSize) b).length / direntSize ↔
      i = j ∨ i < c.length / direntSize := by
  rw [length_splice _ hv.le, hb]
  rcases hv with hv | ⟨hv, -⟩
  · simp only [direntSize] at *
    omega
  · simp only [direntSize] at *
    omega

theorem Vacant.not_entry (hv : Vacant c j) (hj : j < c.length / direntSize) :
    ¬ EntryFor c a (j * direntSize) := by
  rcases hv with hv | ⟨-, hv⟩
  · simp only [direntSize] at *
    omega
  · exact fun h => h.1 hv

theorem entryFor_add (hv : Vacant c j) (hinum : inum ≠ 0) (hlt : inum < 65536) :
    EntryFor (splice c (j * direntSize) (Dirent.toBytes ⟨inum, name⟩)) a (i * direntSize) ↔
      if i = j then namecmp a name = true else EntryFor c a (i * direntSize) := by
  rw [entryFor_splice (length_toBytes _) hv.le, ofBytes_toBytes_inum hlt, namecmp_toBytes]
  by_cases hij : i = j
  · rw [if_pos hij, if_pos hij]
    exact and_iff_right hinum
  · rw [if_neg hij, if_neg hij]

theorem unambiguous_add (hu : Unambiguous c) (hv : Vacant c j) (hnone : lookup c name = none)
    (hinum : inum ≠ 0) (hlt : inum < 65536) :
    Unambiguous (splice c (j * direntSize) (Dirent.toBytes ⟨inum, name⟩)) := by
  have hfree : ∀ i a, i < c.length / direntSize → EntryFor c a (i * direntSize) →
      ¬ namecmp a name = true := by
    intro i a hi hfor hname
    rw [← lookup_congr hname] at hnone
    exact entryOff_eq_none (lookup_eq_none.mp hnone) hi hfor
  intro a i k hi hk hfor hfor'
  rw [entryFor_add hv hinum hlt] at hfor hfor'
  rw [hv.places (length_toBytes _)] at hi hk
  by_cases hij : i = j
  · rw [if_pos hij] at hfor
    by_cases hkj : k = j
    · exact hij.trans hkj.symm
    · rw [if_neg hkj] at hfor'
      exact absurd hfor (hfree k a (hk.resolve_left hkj) hfor')
  · rw [if_neg hij] at hfor
    by_cases hkj : k = j
    · rw [if_pos hkj] at hfor'
      exact absurd hfor' (hfree i a (hi.resolve_left hij) hfor)
    · rw [if_neg hkj] at hfor'
      exact hu a i k (hi.resolve_left hij) (hk.resolve_left hkj) hfor hfor'

/-- Writing an entry adds its name, and no other. -/
theorem lookup_add (hu : Unambiguous c) (hv : Vacant c j) (hnone : lookup c name = none)
    (hinum : inum ≠ 0) (hlt : inum < 65536) :
    lookup (splice c (j * direntSize) (Dirent.toBytes ⟨inum, name⟩)) a =
      if namecmp a name then some inum else lookup c a := by
  have hdirents : ∀ i, direntAt (splice c (j * direntSize) (Dirent.toBytes ⟨inum, name⟩))
      (i * direntSize) = if i = j then Dirent.ofBytes (Dirent.toBytes ⟨inum, name⟩)
        else direntAt c (i * direntSize) := fun i => direntAt_splice (length_toBytes _) hv.le
  have hu' := unambiguous_add hu hv hnone hinum hlt
  by_cases hname : namecmp a name = true
  · rw [if_pos hname, lookup_eq_some hu']
    refine ⟨j, (hv.places (length_toBytes _)).mpr (Or.inl rfl), ?_, ?_⟩
    · rw [entryFor_add hv hinum hlt, if_pos rfl]
      exact hname
    · rw [hdirents, if_pos rfl, ofBytes_toBytes_inum hlt]
  · rw [if_neg hname]
    apply Option.ext
    intro m
    rw [lookup_eq_some hu', lookup_eq_some hu]
    constructor
    · intro hex
      obtain ⟨i, hi, hfor, hm⟩ := hex
      rw [entryFor_add hv hinum hlt] at hfor
      by_cases hij : i = j
      · rw [if_pos hij] at hfor
        exact absurd hfor hname
      · rw [if_neg hij] at hfor
        rw [hdirents, if_neg hij] at hm
        exact ⟨i, ((hv.places (length_toBytes _)).mp hi).resolve_left hij, hfor, hm⟩
    · intro hex
      obtain ⟨i, hi, hfor, hm⟩ := hex
      have hij : i ≠ j := by
        rintro rfl
        exact hv.not_entry hi hfor
      refine ⟨i, (hv.places (length_toBytes _)).mpr (Or.inr hi), ?_, ?_⟩
      · rw [entryFor_add hv hinum hlt, if_neg hij]
        exact hfor
      · rw [hdirents, if_neg hij]
        exact hm

end Fs
end CS444
