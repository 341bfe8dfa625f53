/-
The patterns of `grep`.

`match` tries a pattern at every place of a line, and `matchhere` and `matchstar` call
each other to walk the pattern and the line together.  What a pattern means is a
language, `language`, with `*` for the Kleene star, and whether it ends with the end of
the line, `anchored`.  `matchhere_iff` says that the two agree, and `match_iff` is the
same for a whole line.

A string is the bytes before its NUL, so `re[0] == '\0'` says that the pattern is empty.
-/
import Mathlib.Computability.Language

namespace CS444
namespace Grep

abbrev Text : Type := List Char

mutual

def matchhere : Text → Text → Bool
  | [], _ => true
  | c :: '*' :: re, text => matchstar c re text
  | ['$'], text => text.isEmpty
  | _ :: _, [] => false
  | c :: re, t :: text => (c == '.' || c == t) && matchhere re text
  termination_by re text => (re.length, text.length)

def matchstar (c : Char) (re : Text) : Text → Bool
  | [] => matchhere re []
  | t :: text =>
    if matchhere re (t :: text) then true
    else if t == c || c == '.' then matchstar c re text
    else false
  termination_by text => (re.length + 1, text.length)

end

/-- The loop of `match`: every suffix of the line, the empty one too. -/
def matchany (re : Text) : Text → Bool
  | [] => matchhere re []
  | t :: text => if matchhere re (t :: text) then true else matchany re text

/-- `match(re, text)` -/
def pmatch : Text → Text → Bool
  | '^' :: re, text => matchhere re text
  | re, text => matchany re text

/-! ## What a pattern means -/

/-- A byte of a pattern stands for itself, and the dot for every byte. -/
def atom (c : Char) : Language Char := {w | ∃ t, w = [t] ∧ (c = '.' ∨ c = t)}

/-- The texts that a pattern without `^` stands for. -/
def language : Text → Language Char
  | [] => 1
  | c :: '*' :: re => KStar.kstar (atom c) * language re
  | ['$'] => 1
  | c :: re => atom c * language re

/-- Is the pattern to match at the end of the line only? -/
def anchored : Text → Bool
  | [] => false
  | _ :: '*' :: re => anchored re
  | ['$'] => true
  | _ :: re => anchored re

/-- The text starts with a part that the pattern stands for. -/
def Here (re text : Text) : Prop :=
  ∃ w rest, text = w ++ rest ∧ w ∈ language re ∧ (anchored re = true → rest = [])

variable {c t : Char} {re text w : Text}

/-- A byte of a pattern that stands for itself: no star after it, and not the last `$`. -/
def Single (c : Char) (re : Text) : Prop := (∀ re', re ≠ '*' :: re') ∧ (c = '$' → re ≠ [])

theorem Single.language (h : Single c re) : language (c :: re) = atom c * language re := by
  rw [Grep.language]
  · exact fun re' => h.1 re'
  · exact h.2

theorem Single.anchored (h : Single c re) : anchored (c :: re) = anchored re := by
  rw [Grep.anchored]
  · exact fun re' => h.1 re'
  · exact h.2

theorem Single.matchhere_nil (h : Single c re) : matchhere (c :: re) [] = false := by
  rw [Grep.matchhere]
  · exact fun re' => h.1 re'
  · exact h.2

theorem Single.matchhere_cons (h : Single c re) :
    matchhere (c :: re) (t :: text) = ((c == '.' || c == t) && matchhere re text) := by
  rw [Grep.matchhere]
  · exact fun re' => h.1 re'
  · exact h.2

/-- A byte of a pattern takes a byte of the text. -/
theorem Single.here_cons (h : Single c re) :
    Here (c :: re) (t :: text) ↔ (c = '.' ∨ c = t) ∧ Here re text := by
  unfold Here
  rw [h.language, h.anchored]
  constructor
  · rintro ⟨w, rest, htext, hw, hrest⟩
    obtain ⟨a, ha, b, hb, rfl⟩ := Language.mem_mul.1 hw
    obtain ⟨u, rfl, hc⟩ := ha
    obtain ⟨rfl, rfl⟩ := List.cons.inj htext
    exact ⟨hc, b, rest, rfl, hb, hrest⟩
  · rintro ⟨hc, w, rest, rfl, hw, hrest⟩
    refine ⟨t :: w, rest, rfl, ?_, hrest⟩
    exact Language.mem_mul.2 ⟨[t], ⟨t, rfl, hc⟩, w, hw, rfl⟩

theorem Single.not_here_nil (h : Single c re) : ¬ Here (c :: re) [] := by
  rintro ⟨w, rest, htext, hw, -⟩
  rw [h.language] at hw
  obtain ⟨a, ⟨u, rfl, -⟩, b, -, rfl⟩ := Language.mem_mul.1 hw
  exact absurd htext (by simp)

theorem here_nil : Here [] text := ⟨[], text, rfl, rfl, fun h => Bool.noConfusion h⟩

theorem here_end : Here ['$'] text ↔ text = [] := by
  have hlanguage : language ['$'] = 1 := by
    unfold language
    rfl
  have hanchored : anchored ['$'] = true := by
    unfold anchored
    rfl
  unfold Here
  rw [hlanguage, hanchored]
  constructor
  · rintro ⟨w, rest, rfl, rfl, hrest⟩
    exact hrest rfl
  · rintro rfl
    exact ⟨[], [], rfl, rfl, fun _ => rfl⟩

/-! ## The star -/

theorem language_star : language (c :: '*' :: re) = KStar.kstar (atom c) * language re := by
  rw [language]

theorem anchored_star : anchored (c :: '*' :: re) = anchored re := by
  rw [anchored]

/-- A star takes nothing, or one byte more. -/
theorem mem_star : w ∈ language (c :: '*' :: re) ↔
    w ∈ language re ∨ w ∈ atom c * language (c :: '*' :: re) := by
  have hunfold : KStar.kstar (atom c) * language re =
      language re + atom c * (KStar.kstar (atom c) * language re) := by
    conv_lhs => rw [← Language.one_add_self_mul_kstar_eq_kstar (atom c)]
    rw [add_mul, one_mul, mul_assoc]
  rw [language_star]
  conv_lhs => rw [hunfold]
  exact Language.mem_add ..

theorem here_star : Here (c :: '*' :: re) text ↔ Here re text ∨
    ∃ t text', text = t :: text' ∧ (c = '.' ∨ c = t) ∧ Here (c :: '*' :: re) text' := by
  unfold Here
  rw [anchored_star]
  constructor
  · rintro ⟨w, rest, rfl, hw, hrest⟩
    obtain hw | hw := mem_star.1 hw
    · exact Or.inl ⟨w, rest, rfl, hw, hrest⟩
    · obtain ⟨a, ⟨t, rfl, hc⟩, b, hb, rfl⟩ := Language.mem_mul.1 hw
      exact Or.inr ⟨t, b ++ rest, rfl, hc, b, rest, rfl, hb, hrest⟩
  · rintro (⟨w, rest, rfl, hw, hrest⟩ | ⟨t, text', rfl, hc, w, rest, rfl, hw, hrest⟩)
    · exact ⟨w, rest, rfl, mem_star.2 (Or.inl hw), hrest⟩
    · refine ⟨t :: w, rest, rfl, mem_star.2 (Or.inr ?_), hrest⟩
      exact Language.mem_mul.2 ⟨[t], ⟨t, rfl, hc⟩, w, hw, rfl⟩

theorem matchstar_iff (h : ∀ text, matchhere re text = true ↔ Here re text) (c : Char)
    (text : Text) : matchstar c re text = true ↔ Here (c :: '*' :: re) text := by
  induction text with
  | nil =>
      rw [matchstar, h, here_star]
      simp
  | cons t text ih =>
      rw [matchstar, here_star]
      by_cases hhere : matchhere re (t :: text) = true
      · rw [if_pos hhere]
        exact iff_of_true rfl (Or.inl ((h _).1 hhere))
      · rw [if_neg hhere]
        have hnot : ¬ Here re (t :: text) := mt (h _).2 hhere
        have htakes : (t == c || c == '.') = true ↔ c = '.' ∨ c = t := by
          rw [Bool.or_eq_true, beq_iff_eq, beq_iff_eq, or_comm, @eq_comm _ t c]
        by_cases hc : (t == c || c == '.') = true
        · rw [if_pos hc, ih]
          constructor
          · exact fun hrest => Or.inr ⟨t, text, rfl, htakes.1 hc, hrest⟩
          · rintro (hrest | ⟨u, text', heq, -, hrest⟩)
            · exact absurd hrest hnot
            · obtain ⟨rfl, rfl⟩ := List.cons.inj heq
              exact hrest
        · rw [if_neg hc]
          refine iff_of_false Bool.false_ne_true ?_
          rintro (hrest | ⟨u, text', heq, hcu, -⟩)
          · exact hnot hrest
          · obtain ⟨rfl, rfl⟩ := List.cons.inj heq
            exact hc (htakes.2 hcu)

/-! ## Matching -/

/-- `matchhere` finds the texts that start with what the pattern stands for. -/
theorem matchhere_iff (re text : Text) : matchhere re text = true ↔ Here re text := by
  induction hn : re.length using Nat.strong_induction_on generalizing re text with
  | _ n ih =>
      cases re with
      | nil =>
          rw [matchhere]
          exact iff_of_true rfl here_nil
      | cons c re =>
          by_cases hstar : ∃ re', re = '*' :: re'
          · obtain ⟨re', rfl⟩ := hstar
            rw [matchhere]
            apply matchstar_iff
            intro text
            refine ih re'.length ?_ re' text rfl
            simp only [List.length_cons] at hn
            omega
          · by_cases hend : c = '$' ∧ re = []
            · obtain ⟨rfl, rfl⟩ := hend
              rw [matchhere, here_end, List.isEmpty_iff]
            · have hsingle : Single c re :=
                ⟨fun re' h => hstar ⟨re', h⟩, fun hc hre => hend ⟨hc, hre⟩⟩
              cases text with
              | nil =>
                  rw [hsingle.matchhere_nil]
                  exact iff_of_false Bool.false_ne_true hsingle.not_here_nil
              | cons t text =>
                  rw [hsingle.matchhere_cons, hsingle.here_cons, Bool.and_eq_true,
                    ih re.length (by rw [← hn]; simp) re text rfl]
                  simp

theorem matchany_iff (re text : Text) :
    matchany re text = true ↔ ∃ before rest, text = before ++ rest ∧ Here re rest := by
  induction text with
  | nil =>
      rw [matchany, matchhere_iff]
      simp
  | cons t text ih =>
      rw [matchany]
      by_cases hhere : matchhere re (t :: text) = true
      · rw [if_pos hhere]
        exact iff_of_true rfl ⟨[], t :: text, rfl, (matchhere_iff _ _).1 hhere⟩
      · rw [if_neg hhere, ih]
        constructor
        · rintro ⟨before, rest, rfl, hrest⟩
          exact ⟨t :: before, rest, rfl, hrest⟩
        · rintro ⟨before, rest, heq, hrest⟩
          cases before with
          | nil =>
              obtain rfl : t :: text = rest := heq
              exact absurd ((matchhere_iff _ _).2 hrest) hhere
          | cons u before =>
              obtain ⟨rfl, rfl⟩ := List.cons.inj heq
              exact ⟨before, rest, rfl, hrest⟩

/-- The pattern matches a line: somewhere in it, or at its front when it starts with `^`. -/
def Matches (re text : Text) : Prop :=
  if re.head? = some '^' then Here re.tail text
  else ∃ before rest, text = before ++ rest ∧ Here re rest

/-- `match` decides whether the pattern matches the line. -/
theorem pmatch_iff (re text : Text) : pmatch re text = true ↔ Matches re text := by
  unfold Matches
  cases re with
  | nil => exact matchany_iff [] text
  | cons c re =>
      by_cases hc : c = '^'
      · subst hc
        rw [pmatch, if_pos List.head?_cons]
        exact matchhere_iff re text
      · rw [pmatch, if_neg (by simpa using hc)]
        · exact matchany_iff (c :: re) text
        · intro re' h
          exact hc (List.cons.inj h).1

end Grep
end CS444
