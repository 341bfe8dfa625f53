/-
Which commands the shell can be asked to run.

A command is written as a line with parentheses around its parts and blanks between its
tokens, and that line is read as the command, `parse_print`.  The words of the tokens of a
line say which commands `parsecmd` returns at all; `parsecmd_range` is the two together.
-/
import CS444.Shell.Terminate
import Mathlib.Data.List.TakeWhile

namespace CS444
namespace Shell

variable {s w : Text} {c d : Command} {t : Token} {ts : List Token} {rs : List Redir}
  {nt : Nonterminal}

/-- A word that can stand on a line. -/
structure Proper (w : Text) : Prop where
  nonempty : w ≠ []
  chars : ∀ c ∈ w, wordChar c = true
  noNul : NUL ∉ w

/-- A command that can be asked for: words that can stand on a line, fewer than `MAXARGS`
of them in a simple command, and redirections to the standard input or output. -/
def Command.WellFormed : Command → Prop
  | .exec argv => argv.length < MAXARGS ∧ ∀ w ∈ argv, Proper w
  | .redir cmd file mode fd =>
    cmd.WellFormed ∧ Proper file ∧ ∃ dir : Dir, mode = dir.mode ∧ fd = dir.fd
  | .pipe left right => left.WellFormed ∧ right.WellFormed
  | .list left right => left.WellFormed ∧ right.WellFormed
  | .back cmd => cmd.WellFormed

/-! ## Printing -/

def Token.text : Token → Text
  | .word w => w
  | .less => ['<']
  | .greater => ['>']
  | .append => ['>', '>']
  | .bar => ['|']
  | .amp => ['&']
  | .semi => [';']
  | .lparen => ['(']
  | .rparen => [')']

/-- The tokens with a blank after each. -/
def spell (ts : List Token) : Text := ts.flatMap fun t => t.text ++ [' ']

def parens (ts : List Token) : List Token := .lparen :: ts ++ [.rparen]

/-- The sign that redirects a descriptor. -/
def dirOf (fd : Nat) : Dir := if fd = 0 then .input else .output

def Command.tokens : Command → List Token
  | .exec argv => argv.map Token.word
  | .redir cmd file _ fd =>
    parens cmd.tokens ++ [(dirOf fd).token, .word file]
  | .pipe left right => parens left.tokens ++ .bar :: parens right.tokens
  | .list left right => parens left.tokens ++ .semi :: parens right.tokens
  | .back cmd => parens cmd.tokens ++ [.amp]

def Command.print (c : Command) : Text := spell c.tokens

/-! ## The tokens of a printed line -/

/-- The words of the tokens can stand on a line. -/
def Proper.All (ts : List Token) : Prop := ∀ w, .word w ∈ ts → Proper w

theorem tokens_spell_word (h : Proper w) :
    tokens (w ++ ' ' :: s) = .word w :: tokens s := by
  cases w with
  | nil => exact absurd rfl h.nonempty
  | cons c w =>
      obtain ⟨hws, hsym⟩ := wordChar_iff.1 (h.chars c (by simp))
      have hblank : wordChar ' ' = false := by decide
      have htake : (c :: w ++ ' ' :: s).takeWhile wordChar = c :: w := by
        rw [List.takeWhile_append_of_pos h.chars, List.takeWhile_cons_of_neg (by simp [hblank]),
          List.append_nil]
      have hdrop : (w ++ ' ' :: s).dropWhile wordChar = ' ' :: s := by
        rw [List.dropWhile_append_of_pos fun c hc => h.chars c (List.mem_cons_of_mem _ hc),
          List.dropWhile_cons_of_neg (by simp [hblank])]
      have hword := (tokens_word hws hsym (s := w ++ ' ' :: s)).1
      rw [hdrop] at hword
      rw [← List.cons_append] at hword
      rw [hword, htake, tokens, if_pos (by decide)]

theorem tokens_spell_one (h : ∀ w, t = .word w → Proper w) :
    tokens (t.text ++ ' ' :: s) = t :: tokens s := by
  have hblank : tokens (' ' :: s) = tokens s := by rw [tokens, if_pos (by decide)]
  cases t with
  | word w => exact tokens_spell_word (h w rfl)
  | greater =>
      show tokens ('>' :: ' ' :: s) = _
      rw [tokens, if_neg (by decide), if_neg (by simp), ← hblank]
      rfl
  | append =>
      show tokens ('>' :: '>' :: ' ' :: s) = _
      rw [tokens, if_neg (by decide), if_pos ⟨rfl, rfl⟩, ← hblank]
      rfl
  | _ =>
      exact hblank ▸ (tokens_symbol (by decide) (by decide) (by rfl)).1

theorem tokens_spell (h : Proper.All ts) : tokens (spell ts) = ts := by
  induction ts with
  | nil => exact tokens_nil
  | cons t ts ih =>
      have hone := tokens_spell_one (t := t) (s := spell ts) fun w ht => h w (by simp [ht])
      rw [spell, List.flatMap_cons, List.append_assoc]
      exact hone.trans (by rw [ih fun w hw => h w (List.mem_cons_of_mem _ hw)])

theorem nul_not_mem_text (h : ∀ w, t = .word w → Proper w) : NUL ∉ t.text := by
  cases t with
  | word w => exact (h w rfl).noNul
  | _ => decide

theorem cline_spell (h : Proper.All ts) : cline (spell ts) = spell ts := by
  apply List.takeWhile_eq_self_iff.2
  intro c hc
  obtain ⟨t, ht, hmem⟩ := List.mem_flatMap.1 hc
  have hnul : NUL ∉ t.text := nul_not_mem_text fun w hw => h w (hw ▸ ht)
  have hne : c ≠ NUL := by
    obtain hmem | hmem := List.mem_append.1 hmem
    · exact fun he => hnul (he ▸ hmem)
    · rw [List.mem_singleton.1 hmem]
      decide
  simpa using hne

/-! ## A printed command is read back -/

theorem phrase_parens {c : Command} (h : Phrase .line ts c) :
    Phrase .exec (parens ts) c := by
  have hblock := Phrase.block [] h
  simpa [parens] using hblock

theorem phrase_words {ws : List Text} (h : ws.length < MAXARGS) :
    Phrase .exec (ws.map Token.word) (.exec ws) := by
  have hsimple := Phrase.simple [] (ws.map fun w => ⟨w, []⟩) (by rwa [List.length_map])
  have htokens : (ws.map fun w => (⟨w, []⟩ : Arg)).flatMap Arg.tokens = ws.map Token.word := by
    rw [List.flatMap_map]
    exact List.map_eq_flatMap.symm
  have hredirs : (ws.map fun w => (⟨w, []⟩ : Arg)).flatMap Arg.redirs = [] := by
    rw [List.flatMap_map]
    simp
  rw [htokens, hredirs, List.map_map] at hsimple
  simpa [Function.comp_def] using hsimple

theorem phrase_exec (h : Phrase .exec ts c) : Phrase .line ts c := by
  have hlast := Phrase.last 0 (.single h)
  rwa [List.replicate_zero, List.append_nil] at hlast

theorem phrase_print (h : c.WellFormed) : Phrase .line c.tokens c := by
  induction c with
  | exec argv => exact phrase_exec (phrase_words h.1)
  | redir cmd file mode fd ih =>
      obtain ⟨hcmd, hfile, dir, rfl, rfl⟩ := h
      have hblock := Phrase.block [⟨dirOf dir.fd, file⟩] (ih hcmd)
      have hmode : (dirOf dir.fd).mode = dir.mode := by cases dir <;> rfl
      have hfd : (dirOf dir.fd).fd = dir.fd := by cases dir <;> rfl
      rw [wrap_cons, wrap_nil, hmode, hfd] at hblock
      apply phrase_exec
      simpa [Command.tokens, parens, Redir.tokens] using hblock
  | pipe left right ihl ihr =>
      have hpipe := Phrase.pipe (phrase_parens (ihl h.1)) (.single (phrase_parens (ihr h.2)))
      have hlast := Phrase.last 0 hpipe
      rwa [List.replicate_zero, List.append_nil] at hlast
  | list left right ihl ihr =>
      have hseq := Phrase.seq 0 (.single (phrase_parens (ihl h.1)))
        (phrase_exec (phrase_parens (ihr h.2)))
      rwa [List.replicate_zero, List.append_nil] at hseq
  | back cmd ih => exact .last 1 (.single (phrase_parens (ih h)))

theorem Proper.All.parens (h : Proper.All ts) : Proper.All (parens ts) := by
  intro w hw
  simp only [Shell.parens, List.mem_append, List.mem_cons, List.not_mem_nil, or_false] at hw
  apply h w
  simpa using hw

theorem Proper.All.append {us : List Token} (h : Proper.All ts) (h' : Proper.All us) :
    Proper.All (ts ++ us) := fun w hw => (List.mem_append.1 hw).elim (h w) (h' w)

theorem Proper.All.symbol (h : Proper.All ts) (ht : ∀ w, t ≠ .word w) : Proper.All (t :: ts) :=
  fun w hw => (List.mem_cons.1 hw).elim (fun he => absurd he.symm (ht w)) (h w)

theorem proper_print (h : c.WellFormed) : Proper.All c.tokens := by
  induction c with
  | exec argv =>
      intro w hw
      obtain ⟨v, hv, he⟩ := List.mem_map.1 hw
      exact Token.word.inj he ▸ h.2 v hv
  | redir cmd file mode fd ih =>
      apply (ih h.1).parens.append
      intro w hw
      have hfile : w = file := by
        unfold dirOf at hw
        split at hw <;> simpa [Dir.token] using hw
      exact hfile ▸ h.2.1
  | pipe left right ihl ihr =>
      exact (ihl h.1).parens.append ((ihr h.2).parens.symbol (by simp))
  | list left right ihl ihr =>
      exact (ihl h.1).parens.append ((ihr h.2).parens.symbol (by simp))
  | back cmd ih =>
      apply (ih h).parens.append
      intro w hw
      simp at hw

/-- The parser takes a printed command back to the command. -/
theorem parse_print (h : c.WellFormed) :
    ∃ cmd buf, parsecmd c.print = .ok (cmd, buf) ∧ cmd.read buf = c := by
  apply parsecmd_complete
  unfold Command.print
  rw [cline_spell (proper_print h), tokens_spell (proper_print h)]
  exact phrase_print h

/-- The language is not ambiguous: the tokens stand for one command at most. -/
theorem phrase_unique (hts : Proper.All ts) (hc : Phrase .line ts c) (hd : Phrase .line ts d) :
    c = d := by
  have hts' : tokens (cline (spell ts)) = ts := by rw [cline_spell hts, tokens_spell hts]
  obtain ⟨cmd, buf, hrun, rfl⟩ := parsecmd_complete (s := spell ts) (hts'.symm ▸ hc)
  obtain ⟨cmd', buf', hrun', rfl⟩ := parsecmd_complete (s := spell ts) (hts'.symm ▸ hd)
  obtain ⟨rfl, rfl⟩ := Prod.mk.inj (Except.ok.inj (hrun.symm.trans hrun'))
  rfl

/-! ## What is read can be asked for -/

theorem proper_tokens (h : NUL ∉ s) : Proper.All (tokens s) := by
  fun_induction tokens s with
  | case1 =>
      intro w hw
      simp at hw
  | case2 c s _ ih => exact ih fun hs => h (List.mem_cons_of_mem c hs)
  | case3 c s _ _ ih =>
      apply Proper.All.symbol (ih fun hs => h (List.mem_cons_of_mem c (List.mem_of_mem_tail hs)))
      simp
  | case4 c s _ _ t ht ih =>
      apply Proper.All.symbol (ih fun hs => h (List.mem_cons_of_mem c hs))
      exact fun w hw => symbol_not_word (hw ▸ ht)
  | case5 c s hws _ hsym ih =>
      have hc : wordChar c = true := wordChar_iff.2 ⟨hws, symbol_eq_none.1 hsym⟩
      have hrest := ih fun hs => h (List.mem_cons_of_mem c ((s.dropWhile_suffix _).subset hs))
      intro w hw
      obtain he | hw := List.mem_cons.1 hw
      · obtain rfl := Token.word.inj he
        refine ⟨by simp, fun x hx => ?_, fun hx => h ?_⟩
        · obtain rfl | hx := List.mem_cons.1 hx
          · exact hc
          · exact List.all_eq_true.1 List.all_takeWhile x hx
        · obtain hx | hx := List.mem_cons.1 hx
          · exact hx ▸ List.mem_cons_self ..
          · exact List.mem_cons_of_mem c ((s.takeWhile_prefix _).subset hx)
      · exact hrest w hw

theorem wellFormed_wrap (hc : c.WellFormed) (h : Proper.All (rs.flatMap Redir.tokens)) :
    (wrap c rs).WellFormed := by
  induction rs generalizing c with
  | nil => exact hc
  | cons r rs ih =>
      apply ih
      · exact ⟨hc, h r.file (by simp [Redir.tokens]), r.dir, rfl, rfl⟩
      · exact fun w hw => h w (by rw [List.flatMap_cons]; exact List.mem_append_right _ hw)

theorem wellFormed_backs {n : Nat} (hc : c.WellFormed) : (backs c n).WellFormed := by
  induction n generalizing c with
  | zero => exact hc
  | succ n ih => exact ih (c := .back c) hc

theorem Phrase.wellFormed (h : Phrase nt ts c) (hts : Proper.All ts) : c.WellFormed := by
  induction h with
  | simple rs as few =>
      apply wellFormed_wrap
      · refine ⟨by rwa [List.length_map], fun w hw => hts w ?_⟩
        obtain ⟨a, ha, rfl⟩ := List.mem_map.1 hw
        apply List.mem_append_right
        exact List.mem_flatMap.2 ⟨a, ha, List.mem_cons_self ..⟩
      · intro w hw
        apply hts w
        rw [List.flatMap_append, List.mem_append] at hw
        obtain hw | hw := hw
        · exact List.mem_append_left _ hw
        · obtain ⟨r, hr, hw⟩ := List.mem_flatMap.1 hw
          obtain ⟨a, ha, hr⟩ := List.mem_flatMap.1 hr
          apply List.mem_append_right
          apply List.mem_flatMap.2
          exact ⟨a, ha, List.mem_cons_of_mem _ (List.mem_flatMap.2 ⟨r, hr, hw⟩)⟩
  | block rs inner ih =>
      apply wellFormed_wrap
      · exact ih fun w hw => hts w (by simp [hw])
      · intro w hw
        apply hts w
        apply List.mem_append_right
        exact List.mem_cons_of_mem _ hw
  | single only ih => exact ih hts
  | pipe left right ihl ihr =>
      exact ⟨ihl fun w hw => hts w (by simp [hw]), ihr fun w hw => hts w (by simp [hw])⟩
  | last n only ih => exact wellFormed_backs (ih fun w hw => hts w (by simp [hw]))
  | seq n first rest ihf ihr =>
      exact ⟨wellFormed_backs (ihf fun w hw => hts w (by simp [hw])),
        ihr fun w hw => hts w (by simp [hw])⟩

/-- The commands that `parsecmd` returns, over all lines, are the well-formed ones, and
each of them is what its printed line is parsed to. -/
theorem parsecmd_range (c : Command) :
    ((∃ s cmd buf, parsecmd s = .ok (cmd, buf) ∧ cmd.read buf = c) ↔ c.WellFormed) ∧
      (c.WellFormed → ∃ cmd buf, parsecmd c.print = .ok (cmd, buf) ∧ cmd.read buf = c) := by
  refine ⟨⟨?_, fun h => ?_⟩, parse_print⟩
  · rintro ⟨s, cmd, buf, hrun, hread⟩
    exact hread ▸ (parsecmd_sound hrun).wellFormed (proper_tokens nul_not_mem_cline)
  · obtain ⟨cmd, buf, hrun, hread⟩ := parse_print h
    exact ⟨c.print, cmd, buf, hrun, hread⟩

end Shell
end CS444
