/-
`peek` and `gettoken` read the tokens of the line.

`At line s ts` says that the parser stands at `s` with the tokens `ts` before it.  `peek`
passes over white space only, so it keeps this, and `gettoken` takes one token off.
-/
import CS444.Lib.Outcome
import CS444.Shell.Grammar

namespace CS444
namespace Shell

open Program Prog

variable {line s q eq w toks : Text} {c : Char} {t : Token} {ts us : List Token}
  {E : Failure → Prop}

/-! ## Bytes -/

theorem strchr_iff : strchr s c = true ↔ c ∈ s := by
  unfold strchr
  exact List.contains_iff_mem

theorem symbol_eq_none : symbol c = none ↔ c ∉ symbols := by
  unfold symbol symbols
  split <;> simp_all

/-- What `gettoken` returns for a token. -/
def Token.code : Token → Char
  | .word _ => 'a'
  | .less => '<'
  | .greater => '>'
  | .append => '+'
  | .bar => '|'
  | .amp => '&'
  | .semi => ';'
  | .lparen => '('
  | .rparen => ')'

/-- The byte of a token that `peek` sees, when it looks for symbols. -/
def Token.mark : Token → Char
  | .append => '>'
  | t => t.code

theorem symbol_code (h : symbol c = some t) : t.code = c ∧ t.mark = c := by
  unfold symbol at h
  split at h
  all_goals first
    | (obtain rfl := Option.some.inj h; exact ⟨rfl, rfl⟩)
    | exact absurd h (by simp)

theorem symbol_not_word (h : symbol c = some (.word w)) : False := by
  unfold symbol at h
  split at h <;> simp at h

theorem Token.code_eq_word (h : t.code = 'a') : ∃ w, t = .word w := by
  cases t with
  | word w => exact ⟨w, rfl⟩
  | _ => simp [Token.code] at h

theorem Token.code_ne_nul : t.code ≠ NUL := by
  cases t <;> simp [Token.code, NUL]

/-! ## White space -/

theorem skip_suffix (s : Text) : skip s <:+ s := s.dropWhile_suffix _

theorem skip_head (h : skip s = c :: q) : c ∉ whitespace := by
  have hhead := List.head?_dropWhile_not (strchr whitespace) s
  unfold skip at h
  rw [h] at hhead
  intro hc
  simp [strchr_iff.2 hc] at hhead

theorem tokens_nil : tokens [] = [] := by
  unfold tokens
  rfl

theorem tokens_skip : tokens (skip s) = tokens s := by
  induction s with
  | nil => rfl
  | cons c s ih =>
      by_cases hc : c ∈ whitespace
      · have hskip : skip (c :: s) = skip s := List.dropWhile_cons_of_pos (strchr_iff.2 hc)
        rw [hskip, ih, tokens, if_pos hc]
      · have hskip : skip (c :: s) = c :: s :=
          List.dropWhile_cons_of_neg (mt strchr_iff.1 hc)
        rw [hskip]

theorem skip_eq_nil (h : tokens s = []) : skip s = [] := by
  cases hs : skip s with
  | nil => rfl
  | cons c q =>
      have hc := skip_head hs
      rw [← tokens_skip, hs, tokens, if_neg hc] at h
      split at h
      · exact absurd h (by simp)
      · split at h <;> exact absurd h (by simp)

/-! ## One token -/

/-- The text between two pointers is a word. -/
structure Spelled (q eq w : Text) : Prop where
  text : q = w ++ eq
  chars : ∀ c ∈ w, wordChar c = true
  stop : ∀ c ∈ eq.head?, wordChar c = false

theorem wordChar_iff : wordChar c = true ↔ c ∉ whitespace ∧ c ∉ symbols := by
  unfold wordChar
  rw [Bool.and_eq_true, Bool.not_eq_true', Bool.not_eq_true', ← Bool.not_eq_true,
    ← Bool.not_eq_true, strchr_iff, strchr_iff]

theorem spelled_span (s : Text) : Spelled s (s.dropWhile wordChar) (s.takeWhile wordChar) where
  text := List.takeWhile_append_dropWhile.symm
  chars := List.all_eq_true.1 List.all_takeWhile
  stop := by
    intro c hc
    have hhead := List.head?_dropWhile_not wordChar s
    rw [Option.mem_def.1 hc] at hhead
    simpa using hhead

theorem scan_cons : scan (c :: s) =
    if strchr ['|', '(', ')', ';', '&', '<'] c then (c, s)
    else if c = '>' then
      match s with
      | '>' :: s => ('+', s)
      | s => ('>', s)
    else ('a', (c :: s).dropWhile wordChar) := rfl

/-- A greater-than sign is read together with the one after it. -/
theorem tokens_greater :
    ∃ t, tokens ('>' :: s) = t :: tokens (scan ('>' :: s)).2 ∧ (scan ('>' :: s)).1 = t.code ∧
      (scan ('>' :: s)).2 <:+ s ∧ t.mark = '>' ∧ ∀ w, t ≠ .word w := by
  by_cases hs : s.head? = some '>'
  · cases s with
    | nil => exact absurd hs (by simp)
    | cons c s =>
        obtain rfl : c = '>' := by simpa using hs
        have htokens : tokens ('>' :: '>' :: s) = .append :: tokens s := by
          rw [tokens, if_neg (by decide), if_pos ⟨rfl, rfl⟩]
          rfl
        exact ⟨.append, htokens, rfl, List.suffix_cons _ _, rfl, by simp⟩
  · have htokens : tokens ('>' :: s) = .greater :: tokens s := by
      rw [tokens, if_neg (by decide), if_neg (fun h => hs h.2)]
      rfl
    have hscan : scan ('>' :: s) = ('>', s) := by
      rw [scan_cons, if_neg (by decide), if_pos rfl]
      split
      · exact absurd rfl hs
      · rfl
    rw [hscan]
    exact ⟨.greater, htokens, rfl, List.suffix_refl _, rfl, by simp⟩

/-- Any other symbol is one byte. -/
theorem tokens_symbol (hc : c ∉ whitespace) (hgt : c ≠ '>') (ht : symbol c = some t) :
    tokens (c :: s) = t :: tokens s ∧ scan (c :: s) = (c, s) := by
  constructor
  · rw [tokens, if_neg hc, if_neg (fun h => hgt h.1), ht]
  · have hmem : c ∈ symbols := by
      by_contra hc
      rw [symbol_eq_none.2 hc] at ht
      exact absurd ht (by simp)
    rw [scan_cons, if_pos (strchr_iff.2 (by simp only [symbols, List.mem_cons] at hmem ⊢; tauto))]

/-- Everything else starts a word. -/
theorem tokens_word (hc : c ∉ whitespace) (ht : c ∉ symbols) :
    tokens (c :: s) = .word ((c :: s).takeWhile wordChar) :: tokens (s.dropWhile wordChar) ∧
      scan (c :: s) = ('a', s.dropWhile wordChar) := by
  have hword : wordChar c = true := wordChar_iff.2 ⟨hc, ht⟩
  have hgt : c ≠ '>' := fun h => ht (h ▸ by decide)
  constructor
  · rw [tokens, if_neg hc, if_neg (fun h => hgt h.1), symbol_eq_none.2 ht,
      List.takeWhile_cons_of_pos hword]
  · have hnot : strchr ['|', '(', ')', ';', '&', '<'] c = false := by
      rw [← Bool.not_eq_true, strchr_iff]
      intro hmem
      apply ht
      simp only [symbols, List.mem_cons] at hmem ⊢
      tauto
    rw [scan_cons, hnot, if_neg Bool.false_ne_true, if_neg hgt, List.dropWhile_cons_of_pos hword]

/-- The switch of `gettoken` tells which token is first, and where it ends. -/
theorem tokens_scan (hc : c ∉ whitespace) :
    ∃ t, tokens (c :: s) = t :: tokens (scan (c :: s)).2 ∧ (scan (c :: s)).1 = t.code ∧
      (scan (c :: s)).2 <:+ s ∧ (c ∈ symbols → t.mark = c) ∧ (c ∉ symbols → t.mark = 'a') ∧
      ∀ w, t = .word w → Spelled (c :: s) (scan (c :: s)).2 w := by
  by_cases hgt : c = '>'
  · subst hgt
    obtain ⟨t, htokens, hcode, hsuffix, hmark, hword⟩ := tokens_greater
    exact ⟨t, htokens, hcode, hsuffix, fun _ => hmark, fun h => absurd (by decide) h,
      fun w h => absurd h (hword w)⟩
  · cases ht : symbol c with
    | some t =>
        obtain ⟨htokens, hscan⟩ := tokens_symbol hc hgt ht
        obtain ⟨hcode, hmark⟩ := symbol_code ht
        rw [hscan]
        refine ⟨t, htokens, hcode.symm, List.suffix_refl _, fun _ => hmark, fun h => ?_,
          fun w h => ?_⟩
        · rw [symbol_eq_none.2 h] at ht
          exact absurd ht (by simp)
        · subst h
          exact (symbol_not_word ht).elim
    | none =>
        have hmem := symbol_eq_none.1 ht
        obtain ⟨htokens, hscan⟩ := tokens_word hc hmem
        rw [hscan]
        refine ⟨_, htokens, rfl, s.dropWhile_suffix _, fun h => absurd h hmem, fun _ => rfl,
          fun w h => ?_⟩
        obtain rfl := Token.word.inj h
        have hspan := spelled_span (c :: s)
        rwa [List.dropWhile_cons_of_pos (wordChar_iff.2 ⟨hc, hmem⟩)] at hspan

/-! ## Reading the tokens -/

/-- The parser stands at `s`, with the tokens `ts` before it. -/
structure At (line s : Text) (ts : List Token) : Prop where
  rest : s <:+ line
  tokens : tokens s = ts

/-- Do the tokens start with one of the symbols? -/
def looks (toks : Text) : List Token → Bool
  | [] => false
  | t :: _ => decide (t.mark ∈ toks)

theorem At.skip (h : At line s ts) : At line (skip s) ts :=
  ⟨(skip_suffix s).trans h.rest, tokens_skip.trans h.tokens⟩

/-- What `peek` looks at, past the white space. -/
theorem peek_looks (h : At line s ts) (htoks : toks ⊆ symbols) :
    (peek toks).run s = .ok (looks toks ts, Shell.skip s) := by
  have hts := h.skip.tokens
  have hrun : (peek toks).run s = .ok (among toks (Shell.skip s), Shell.skip s) := rfl
  rw [hrun]
  cases hq : Shell.skip s with
  | nil =>
      rw [hq, tokens_nil] at hts
      subst hts
      rfl
  | cons c q =>
      obtain ⟨t, htokens, -, -, hsym, hword, -⟩ := tokens_scan (s := q) (skip_head hq)
      rw [hq, htokens] at hts
      subst hts
      have hlook : strchr toks c = decide (t.mark ∈ toks) := by
        rw [Bool.eq_iff_iff, strchr_iff, decide_eq_true_iff]
        by_cases hc : c ∈ symbols
        · rw [hsym hc]
        · rw [hword hc]
          constructor
          · exact fun hmem => absurd (htoks hmem) hc
          · exact fun hmem => absurd (htoks hmem) (by decide)
      simp only [among, looks, hlook]

theorem peek_ends (h : At line s ts) (htoks : toks ⊆ symbols) :
    Ends (peek toks) s (fun b s' => b = looks toks ts ∧ At line s' ts) E := by
  rw [ends_ok (peek_looks h htoks)]
  exact ⟨rfl, h.skip⟩

/-- The token that was read is `t`, and its pointers are around it. -/
structure Read (line : Text) (tok : Tok) (t : Token) : Prop where
  ret : tok.ret = t.code
  rest : tok.q <:+ line
  word : ∀ w, t = .word w → Spelled tok.q tok.eq w

theorem gettoken_ends (h : At line s (t :: ts)) :
    Ends gettoken s (fun tok s' => Read line tok t ∧ At line s' ts) E := by
  have hat := h.skip
  have hrun : gettoken.run s = .ok (⟨(scan (Shell.skip s)).1, Shell.skip s,
    (scan (Shell.skip s)).2⟩, Shell.skip (scan (Shell.skip s)).2) := rfl
  rw [ends_ok hrun]
  cases hq : Shell.skip s with
  | nil =>
      have hts := hat.tokens
      rw [hq, tokens_nil] at hts
      exact absurd hts (by simp)
  | cons c q =>
      obtain ⟨t', htokens, hcode, hsuffix, -, -, hword⟩ := tokens_scan (s := q) (skip_head hq)
      rw [hq] at hat
      obtain ⟨rfl, rfl⟩ := List.cons.inj (htokens.symm.trans hat.tokens)
      refine ⟨⟨hcode, hat.rest, hword⟩, (skip_suffix _).trans (hsuffix.trans ?_), tokens_skip⟩
      exact (List.suffix_cons c q).trans hat.rest

/-- At the end of the line there is no token. -/
theorem gettoken_end (h : At line s []) :
    Ends gettoken s (fun tok s' => tok.ret = NUL ∧ At line s' []) E := by
  have hq := skip_eq_nil h.tokens
  have hrun : gettoken.run s = .ok (⟨(scan (Shell.skip s)).1, Shell.skip s,
    (scan (Shell.skip s)).2⟩, Shell.skip (scan (Shell.skip s)).2) := rfl
  rw [ends_ok hrun, hq]
  exact ⟨rfl, List.nil_suffix, tokens_nil⟩

end Shell
end CS444
