/-
The parsing functions read exactly the phrases of the shell.

For each function there are two statements.  In the one, whatever a function returns is
what some phrase at the front of the line stands for, and the only other endings are its
panics: it runs out of fuel only when given less than the tokens before it call for.  In
the other, a phrase is read when what comes after it could not go on with it.  `Spells`
relates the tree with its pointers to a command with its words.
-/
import CS444.Shell.Lexing
import Mathlib.Data.List.Forall2
import Mathlib.Data.List.Induction

namespace CS444
namespace Shell

open Program Prog

variable {line s s' q eq w toks : Text} {t : Token} {ts us : List Token} {n argc : Nat}
  {cmd cmd' : Cmd} {c d : Command} {tok file : Tok} {ws : List Text} {rs : List Redir}
  {E : Failure → Prop}

/-! ## What a tree spells -/

/-- Two addresses of the line, and the word between them. -/
def Word (line : Text) (p : Nat × Nat) (w : Text) : Prop :=
  ∃ q eq, q <:+ line ∧ Spelled q eq w ∧ p = (q.length, eq.length)

/-- The tree, with its pointers into the line, is the command. -/
inductive Spells (line : Text) : Cmd → Command → Prop
  | exec {argv : List (Nat × Nat)} {ws : List Text} (words : List.Forall₂ (Word line) argv ws) :
      Spells line (.exec argv) (.exec ws)
  | redir {cmd : Cmd} {c : Command} {file efile mode fd : Nat} {w : Text}
      (inner : Spells line cmd c) (word : Word line (file, efile) w) :
      Spells line (.redir cmd file efile mode fd) (.redir c w mode fd)
  | pipe {cmd cmd' : Cmd} {c d : Command} (left : Spells line cmd c)
      (right : Spells line cmd' d) : Spells line (.pipe cmd cmd') (.pipe c d)
  | list {cmd cmd' : Cmd} {c d : Command} (left : Spells line cmd c)
      (right : Spells line cmd' d) : Spells line (.list cmd cmd') (.list c d)
  | back {cmd : Cmd} {c : Command} (inner : Spells line cmd c) :
      Spells line (.back cmd) (.back c)

theorem Read.spelled (h : Read line tok (.word w)) :
    Word line (tok.q.length, tok.eq.length) w :=
  ⟨tok.q, tok.eq, h.rest, h.word w rfl, rfl⟩

theorem Read.is_word (h : Read line tok (.word w)) : tok.ret = 'a' := h.ret

@[simp] theorem wrap_nil : wrap c [] = c := rfl

theorem wrap_cons (r : Redir) :
    wrap c (r :: rs) = wrap (.redir c r.file r.dir.mode r.dir.fd) rs := rfl

theorem wrap_append (rs₁ rs₂ : List Redir) : wrap c (rs₁ ++ rs₂) = wrap (wrap c rs₁) rs₂ :=
  List.foldl_append

theorem wrap_concat (r : Redir) :
    wrap c (rs ++ [r]) = .redir (wrap c rs) r.file r.dir.mode r.dir.fd := wrap_append rs [r]

/-- A redirection is put around the tree. -/
theorem Spells.redircmd {dir : Dir} (hc : Spells line cmd c) (htok : Read line tok dir.token)
    (hfile : Read line file (.word w)) :
    Spells line (redircmd cmd tok.ret file) (.redir c w dir.mode dir.fd) := by
  rw [htok.ret]
  cases dir <;> exact .redir hc hfile.spelled

/-- An argument goes to the simple command inside the redirections. -/
theorem Spells.addArg (hc : Spells line cmd (wrap (.exec ws) rs))
    (htok : Read line tok (.word w)) :
    Spells line (cmd.addArg tok.q.length tok.eq.length) (wrap (.exec (ws ++ [w])) rs) := by
  induction rs using List.reverseRecOn generalizing cmd with
  | nil =>
      cases hc with
      | exec words =>
          apply Spells.exec
          exact List.rel_append words (.cons htok.spelled .nil)
  | append_singleton rs r ih =>
      rw [wrap_concat] at hc ⊢
      cases hc with
      | redir inner word => exact .redir (ih inner) word

/-! ## Redirections -/

theorem looks_redir (dir : Dir) : looks ['<', '>'] (dir.token :: ts) = true := by
  cases dir <;> rfl

theorem exists_dir (h : looks ['<', '>'] ts = true) : ∃ dir us, ts = Dir.token dir :: us := by
  cases ts with
  | nil => exact absurd h (by decide)
  | cons t ts =>
      cases t with
      | less => exact ⟨.input, ts, rfl⟩
      | greater => exact ⟨.output, ts, rfl⟩
      | append => exact ⟨.append, ts, rfl⟩
      | _ => exact absurd h (by simp [looks, Token.mark, Token.code])

theorem parseredirs_sound (h : At line s ts) (hc : Spells line cmd c) :
    Ends (parseredirs n cmd) s
      (fun cmd' s' => ∃ (rs : List Redir) (us : List Token),
        ts = rs.flatMap Redir.tokens ++ us ∧ At line s' us ∧
        Spells line cmd' (wrap c rs))
      (fun e => e = .outOfFuel → n ≤ ts.length) := by
  induction n generalizing s ts cmd c with
  | zero => exact Ends.halt fun _ => Nat.zero_le _
  | succ n ih =>
      rw [parseredirs]
      refine Ends.bind (peek_ends h (by decide)) fun b s₁ ⟨hb, h₁⟩ => ?_
      subst hb
      split
      · rename_i hlook
        obtain ⟨dir, us, rfl⟩ := exists_dir hlook
        refine Ends.bind (gettoken_ends h₁) fun tok s₂ ⟨htok, h₂⟩ => ?_
        cases us with
        | nil =>
            refine Ends.bind (gettoken_end h₂) fun file s₃ ⟨hfile, _⟩ => ?_
            rw [if_pos (by rw [hfile]; decide)]
            exact Ends.halt (by simp)
        | cons t us =>
            refine Ends.bind (gettoken_ends h₂) fun file s₃ ⟨hfile, h₃⟩ => ?_
            split
            · exact Ends.halt (by simp)
            · rename_i hword
              rw [hfile.ret, not_not] at hword
              obtain ⟨w, rfl⟩ := Token.code_eq_word hword
              refine (ih h₃ (hc.redircmd htok hfile)).mono ?_ ?_
              · rintro cmd' s' ⟨rs, vs, rfl, hat, hspell⟩
                exact ⟨⟨dir, w⟩ :: rs, vs, rfl, hat, hspell⟩
              · intro e hfuel he
                have := hfuel he
                simp only [List.length_cons]
                omega
      · exact Ends.pure ⟨[], ts, rfl, h₁, hc⟩

theorem parseredirs_complete (h : At line s (rs.flatMap Redir.tokens ++ us))
    (hstop : looks ['<', '>'] us = false) (hc : Spells line cmd c) (hn : rs.length < n) :
    Ends (parseredirs n cmd) s (fun cmd' s' => At line s' us ∧ Spells line cmd' (wrap c rs))
      E := by
  induction rs generalizing n s cmd c with
  | nil =>
      obtain ⟨n, rfl⟩ := Nat.exists_eq_succ_of_ne_zero (Nat.ne_of_gt hn)
      rw [parseredirs]
      refine Ends.bind (peek_ends h (by decide)) fun b s₁ ⟨hb, h₁⟩ => ?_
      subst hb
      rw [List.flatMap_nil, List.nil_append] at h₁ ⊢
      rw [hstop]
      exact Ends.pure ⟨h₁, hc⟩
  | cons r rs ih =>
      obtain ⟨n, rfl⟩ := Nat.exists_eq_succ_of_ne_zero (Nat.ne_of_gt (Nat.lt_of_le_of_lt
        (Nat.zero_le _) hn))
      have h₀ : At line s (r.dir.token :: .word r.file :: (rs.flatMap Redir.tokens ++ us)) := h
      rw [parseredirs]
      refine Ends.bind (peek_ends h₀ (by decide)) fun b s₁ ⟨hb, h₁⟩ => ?_
      subst hb
      rw [if_pos (looks_redir r.dir)]
      refine Ends.bind (gettoken_ends h₁) fun tok s₂ ⟨htok, h₂⟩ => ?_
      refine Ends.bind (gettoken_ends h₂) fun file s₃ ⟨hfile, h₃⟩ => ?_
      rw [if_neg (not_not.2 hfile.is_word)]
      rw [List.length_cons] at hn
      exact ih h₃ (hc.redircmd htok hfile) (by omega)

/-! ## Simple commands -/

theorem parseargs_sound (h : At line s ts) (hc : Spells line cmd (wrap (.exec ws) rs))
    (hargc : ws.length = argc) :
    Ends (parseargs n argc cmd) s
      (fun cmd' s' => ∃ (as : List Arg) (us : List Token),
        ts = as.flatMap Arg.tokens ++ us ∧ At line s' us ∧
        Spells line cmd' (wrap (.exec (ws ++ as.map Arg.word)) (rs ++ as.flatMap Arg.redirs)) ∧
        (argc < MAXARGS → argc + as.length < MAXARGS))
      (fun e => e = .outOfFuel → n ≤ ts.length) := by
  have hnone : Spells line cmd
      (wrap (.exec (ws ++ [].map Arg.word)) (rs ++ [].flatMap Arg.redirs)) := by
    simpa using hc
  induction n generalizing s ts cmd ws rs argc with
  | zero => exact Ends.halt fun _ => Nat.zero_le _
  | succ n ih =>
      rw [parseargs]
      refine Ends.bind (peek_ends h (by decide)) fun b s₁ ⟨hb, h₁⟩ => ?_
      split
      · exact Ends.pure ⟨[], ts, rfl, h₁, hnone, id⟩
      · cases ts with
        | nil =>
            refine Ends.bind (gettoken_end h₁) fun tok s₂ ⟨htok, h₂⟩ => ?_
            rw [if_pos htok]
            exact Ends.pure ⟨[], [], rfl, h₂, hnone, id⟩
        | cons t us =>
            refine Ends.bind (gettoken_ends h₁) fun tok s₂ ⟨htok, h₂⟩ => ?_
            rw [if_neg (by rw [htok.ret]; exact Token.code_ne_nul)]
            split
            · exact Ends.halt (by simp)
            · rename_i hword
              rw [htok.ret, not_not] at hword
              obtain ⟨w, rfl⟩ := Token.code_eq_word hword
              split
              · exact Ends.halt (by simp)
              · rename_i hfew
                refine Ends.bind ((parseredirs_sound h₂ (hc.addArg htok)).mono
                  (fun _ _ h => h) fun e hfuel he => ?_) ?_
                · have := hfuel he
                  simp only [List.length_cons]
                  omega
                · intro ret s₃ ⟨rs', vs, hus, h₃, hret⟩
                  rw [← wrap_append] at hret
                  subst hus
                  refine (ih h₃ hret (by simp [hargc]) (by simpa using hret)).mono ?_ ?_
                  · intro cmd' s' ⟨as, us, hvs, hat, hspell, hlen⟩
                    refine ⟨⟨w, rs'⟩ :: as, us, ?_, hat, ?_, ?_⟩
                    · simp [hvs, Arg.tokens]
                    · simpa using hspell
                    · intro _
                      have := hlen (by omega)
                      simp only [List.length_cons]
                      omega
                  · intro e hfuel he
                    have := hfuel he
                    simp only [List.length_cons, List.length_append]
                    omega

theorem length_redirs : (rs.flatMap Redir.tokens).length = 2 * rs.length := by
  induction rs with
  | nil => rfl
  | cons r rs ih =>
      rw [List.flatMap_cons, List.length_append, ih, List.length_cons]
      simp only [Redir.tokens, List.length_cons, List.length_nil]
      omega

/-- An argument is not a redirection. -/
theorem looks_args {as : List Arg} (h : looks ['<', '>'] us = false) :
    looks ['<', '>'] (as.flatMap Arg.tokens ++ us) = false := by
  cases as with
  | nil => exact h
  | cons a as => simp [looks, Arg.tokens, Token.mark, Token.code]

theorem parseargs_complete {as : List Arg} (h : At line s (as.flatMap Arg.tokens ++ us))
    (hstop : us = [] ∨ looks ['|', ')', '&', ';'] us = true) (hredir : looks ['<', '>'] us = false)
    (hc : Spells line cmd (wrap (.exec ws) rs)) (hfew : argc + as.length < MAXARGS)
    (hn : (as.flatMap Arg.tokens).length < n) :
    Ends (parseargs n argc cmd) s
      (fun cmd' s' => At line s' us ∧
        Spells line cmd' (wrap (.exec (ws ++ as.map Arg.word)) (rs ++ as.flatMap Arg.redirs)))
      E := by
  induction as generalizing n s cmd ws rs argc with
  | nil =>
      obtain ⟨n, rfl⟩ := Nat.exists_eq_succ_of_ne_zero (Nat.ne_of_gt hn)
      have hnone : Spells line cmd
          (wrap (.exec (ws ++ [].map Arg.word)) (rs ++ [].flatMap Arg.redirs)) := by
        simpa using hc
      have h₀ : At line s us := h
      rw [parseargs]
      refine Ends.bind (peek_ends h₀ (by decide)) ?_
      rintro b s₁ ⟨hb, h₁⟩
      split
      · exact Ends.pure ⟨h₁, hnone⟩
      · rename_i hlook
        obtain rfl : us = [] := hstop.resolve_right (hb ▸ hlook)
        refine Ends.bind (gettoken_end h₁) ?_
        rintro tok s₂ ⟨htok, h₂⟩
        rw [if_pos htok]
        exact Ends.pure ⟨h₂, hnone⟩
  | cons a as ih =>
      obtain ⟨n, rfl⟩ := Nat.exists_eq_succ_of_ne_zero (Nat.ne_of_gt (Nat.lt_of_le_of_lt
        (Nat.zero_le _) hn))
      have h₀ : At line s (.word a.word ::
          (a.redirs.flatMap Redir.tokens ++ (as.flatMap Arg.tokens ++ us))) := by
        simpa [Arg.tokens] using h
      have hlen : (a.redirs.flatMap Redir.tokens).length + (as.flatMap Arg.tokens).length < n := by
        simp only [List.flatMap_cons, Arg.tokens, List.length_append, List.length_cons] at hn
        omega
      rw [parseargs]
      refine Ends.bind (peek_ends h₀ (by decide)) ?_
      rintro b s₁ ⟨rfl, h₁⟩
      rw [if_neg (by simp [looks, Token.mark, Token.code])]
      refine Ends.bind (gettoken_ends h₁) ?_
      rintro tok s₂ ⟨htok, h₂⟩
      rw [if_neg (by rw [htok.ret]; exact Token.code_ne_nul), if_neg (not_not.2 htok.is_word),
        if_neg (by rw [List.length_cons] at hfew; omega)]
      refine Ends.bind (parseredirs_complete h₂ (looks_args hredir) (hc.addArg htok) ?_) ?_
      · rw [length_redirs] at hlen
        omega
      · rintro ret s₃ ⟨h₃, hret⟩
        rw [← wrap_append] at hret
        rw [List.length_cons] at hfew
        refine (ih h₃ hret (by omega) (by omega)).mono ?_ fun _ h => h
        rintro cmd' s' ⟨hat, hspell⟩
        refine ⟨hat, ?_⟩
        simpa using hspell

/-! ## Commands in the background -/

theorem replicate_amp_cons (k : Nat) :
    List.replicate (k + 1) Token.amp ++ us = .amp :: (List.replicate k .amp ++ us) := rfl

/-- One symbol is looked for, and found. -/
theorem exists_of_looks (t : Token) (ht : t ∈ [Token.amp, .bar, .semi, .lparen, .rparen])
    (h : looks [t.code] ts = true) : ∃ us, ts = t :: us := by
  cases ts with
  | nil => exact absurd h (by simp [looks])
  | cons u us =>
      have hmark : u.mark = t.code := by simpa [looks] using h
      have hu : u = t := by
        simp only [List.mem_cons, List.not_mem_nil, or_false] at ht
        obtain rfl | rfl | rfl | rfl | rfl := ht <;> cases u <;>
          simp_all [Token.mark, Token.code]
      exact ⟨us, by rw [hu]⟩

theorem parsebacks_sound (h : At line s ts) (hc : Spells line cmd c) :
    Ends (parsebacks n cmd) s
      (fun cmd' s' => ∃ (k : Nat) (us : List Token), ts = List.replicate k .amp ++ us ∧
        At line s' us ∧ Spells line cmd' (backs c k))
      (fun e => e = .outOfFuel → n ≤ ts.length) := by
  induction n generalizing s ts cmd c with
  | zero => exact Ends.halt fun _ => Nat.zero_le _
  | succ n ih =>
      rw [parsebacks]
      refine Ends.bind (peek_ends h (by decide)) fun b s₁ ⟨hb, h₁⟩ => ?_
      subst hb
      split
      · rename_i hlook
        obtain ⟨us, rfl⟩ := exists_of_looks .amp (by decide) hlook
        refine Ends.bind (gettoken_ends h₁) fun _ s₂ ⟨_, h₂⟩ => ?_
        refine (ih h₂ (.back hc)).mono ?_ ?_
        · intro cmd' s' ⟨k, vs, hus, hat, hspell⟩
          exact ⟨k + 1, vs, by rw [hus, replicate_amp_cons], hat, hspell⟩
        · intro e hfuel he
          have := hfuel he
          rw [List.length_cons]
          omega
      · exact Ends.pure ⟨0, ts, rfl, h₁, hc⟩

theorem parsebacks_complete {k : Nat} (h : At line s (List.replicate k .amp ++ us))
    (hstop : looks ['&'] us = false) (hc : Spells line cmd c) (hn : k < n) :
    Ends (parsebacks n cmd) s (fun cmd' s' => At line s' us ∧ Spells line cmd' (backs c k))
      E := by
  induction k generalizing n s cmd c with
  | zero =>
      obtain ⟨n, rfl⟩ := Nat.exists_eq_succ_of_ne_zero (Nat.ne_of_gt hn)
      have h₀ : At line s us := h
      rw [parsebacks]
      refine Ends.bind (peek_ends h₀ (by decide)) fun b s₁ ⟨hb, h₁⟩ => ?_
      subst hb
      rw [hstop]
      exact Ends.pure ⟨h₁, hc⟩
  | succ k ih =>
      obtain ⟨n, rfl⟩ := Nat.exists_eq_succ_of_ne_zero (Nat.ne_of_gt (Nat.lt_of_le_of_lt
        (Nat.zero_le _) hn))
      rw [replicate_amp_cons] at h
      rw [parsebacks]
      refine Ends.bind (peek_ends h (by decide)) fun b s₁ ⟨hb, h₁⟩ => ?_
      subst hb
      rw [if_pos (by rfl)]
      refine Ends.bind (gettoken_ends h₁) fun _ s₂ ⟨_, h₂⟩ => ?_
      exact ih h₂ (.back hc) (by omega)

/-! ## What is read is a phrase -/

/-- `p` returns what a phrase at the front of the line stands for, and runs out of fuel
only when there are so many tokens before it. -/
def Reads (line : Text) (nt : Nonterminal) (p : Parser Cmd) (n k : Nat) : Prop :=
  ∀ s ts, At line s ts → Ends p s
    (fun cmd s' => ∃ (vs us : List Token) (c : Command), ts = vs ++ us ∧ At line s' us ∧
      Phrase nt vs c ∧ Spells line cmd c)
    (fun e => e = .outOfFuel → n < 4 * ts.length + k)

theorem parsepipe_step (hexec : Reads line .exec (parseexec n) n 2)
    (hpipe : Reads line .pipe (parsepipe n) n 3) :
    Reads line .pipe (parsepipe (n + 1)) (n + 1) 3 := by
  intro s ts h
  rw [parsepipe]
  refine Ends.bind ((hexec s ts h).mono (fun _ _ h => h) fun e hfuel he => ?_) ?_
  · have := hfuel he
    omega
  · intro cmd s₁ ⟨vs, us, c, hts, h₁, hphrase, hspell⟩
    refine Ends.bind (peek_ends h₁ (by decide)) fun b s₂ ⟨hb, h₂⟩ => ?_
    subst hb hts
    split
    · rename_i hlook
      obtain ⟨us, rfl⟩ := exists_of_looks .bar (by decide) hlook
      refine Ends.bind (gettoken_ends h₂) fun _ s₃ ⟨_, h₃⟩ => ?_
      refine Ends.bind ((hpipe s₃ us h₃).mono (fun _ _ h => h) fun e hfuel he => ?_) ?_
      · have := hfuel he
        simp only [List.length_append, List.length_cons]
        omega
      · intro right s' ⟨vs', us', d, hus, hat, hright, hspell'⟩
        subst hus
        exact Ends.pure ⟨vs ++ .bar :: vs', us', .pipe c d, by simp, hat, .pipe hphrase hright,
          .pipe hspell hspell'⟩
    · exact Ends.pure ⟨vs, us, c, rfl, h₂, .single hphrase, hspell⟩

theorem parseline_step (hpipe : Reads line .pipe (parsepipe n) n 3)
    (hline : Reads line .line (parseline n) n 4) :
    Reads line .line (parseline (n + 1)) (n + 1) 4 := by
  intro s ts h
  rw [parseline]
  refine Ends.bind ((hpipe s ts h).mono (fun _ _ h => h) fun e hfuel he => ?_) ?_
  · have := hfuel he
    omega
  · intro cmd s₁ ⟨vs, us, c, hts, h₁, hphrase, hspell⟩
    refine Ends.bind ((parsebacks_sound h₁ hspell).mono (fun _ _ h => h) fun e hfuel he => ?_) ?_
    · have := hfuel he
      rw [hts, List.length_append]
      omega
    · intro cmd s₂ ⟨k, us', hus, h₂, hback⟩
      refine Ends.bind (peek_ends h₂ (by decide)) fun b s₃ ⟨hb, h₃⟩ => ?_
      subst hb hts hus
      split
      · rename_i hlook
        obtain ⟨us, rfl⟩ := exists_of_looks .semi (by decide) hlook
        refine Ends.bind (gettoken_ends h₃) fun _ s₄ ⟨_, h₄⟩ => ?_
        refine Ends.bind ((hline s₄ us h₄).mono (fun _ _ h => h) fun e hfuel he => ?_) ?_
        · have := hfuel he
          simp only [List.length_append, List.length_cons]
          omega
        · intro right s' ⟨vs', us', d, hus, hat, hright, hspell'⟩
          subst hus
          exact Ends.pure ⟨vs ++ List.replicate k .amp ++ .semi :: vs', us', .list (backs c k) d,
            by simp, hat, .seq k hphrase hright, .list hback hspell'⟩
      · exact Ends.pure ⟨vs ++ List.replicate k .amp, us', backs c k, by simp, h₃,
          .last k hphrase, hback⟩

theorem parseblock_step (hline : Reads line .line (parseline n) n 4) :
    Reads line .exec (parseblock (n + 1)) (n + 1) 1 := by
  intro s ts h
  rw [parseblock]
  refine Ends.bind (peek_ends h (by decide)) fun b s₁ ⟨hb, h₁⟩ => ?_
  subst hb
  split
  · rename_i hlook
    obtain ⟨us, rfl⟩ := exists_of_looks .lparen (by decide) hlook
    refine Ends.bind (gettoken_ends h₁) fun _ s₂ ⟨_, h₂⟩ => ?_
    refine Ends.bind ((hline s₂ us h₂).mono (fun _ _ h => h) fun e hfuel he => ?_) ?_
    · have := hfuel he
      rw [List.length_cons]
      omega
    · intro cmd s₃ ⟨vs, us', c, hus, h₃, hphrase, hspell⟩
      refine Ends.bind (peek_ends h₃ (by decide)) fun b s₄ ⟨hb, h₄⟩ => ?_
      subst hb hus
      split
      · rename_i hlook
        obtain ⟨us, rfl⟩ := exists_of_looks .rparen (by decide) hlook
        refine Ends.bind (gettoken_ends h₄) fun _ s₅ ⟨_, h₅⟩ => ?_
        refine (parseredirs_sound h₅ hspell).mono ?_ ?_
        · intro cmd' s' ⟨rs, us', hus, hat, hspell'⟩
          subst hus
          exact ⟨.lparen :: vs ++ .rparen :: rs.flatMap Redir.tokens, us', wrap c rs, by simp, hat,
            .block rs hphrase, hspell'⟩
        · intro e hfuel he
          have := hfuel he
          simp only [List.length_append, List.length_cons]
          omega
      · exact Ends.halt (by simp)
  · exact Ends.halt (by simp)

theorem parseexec_step (hblock : Reads line .exec (parseblock n) n 1) :
    Reads line .exec (parseexec (n + 1)) (n + 1) 2 := by
  intro s ts h
  rw [parseexec]
  refine Ends.bind (peek_ends h (by decide)) fun b s₁ ⟨hb, h₁⟩ => ?_
  split
  · refine (hblock s₁ ts h₁).mono (fun _ _ h => h) fun e hfuel he => ?_
    have := hfuel he
    omega
  · have hempty : Spells line (.exec []) (wrap (.exec []) []) := .exec .nil
    refine Ends.bind ((parseredirs_sound h₁ hempty).mono (fun _ _ h => h)
      fun e hfuel he => ?_) ?_
    · have := hfuel he
      omega
    · intro ret s₂ ⟨rs, us, hts, h₂, hspell⟩
      subst hts
      refine (parseargs_sound h₂ hspell rfl).mono ?_ ?_
      · intro cmd' s' ⟨as, us', hus, hat, hspell', hfew⟩
        subst hus
        rw [List.length_nil, Nat.zero_add] at hfew
        exact ⟨rs.flatMap Redir.tokens ++ as.flatMap Arg.tokens, us',
          wrap (.exec (as.map Arg.word)) (rs ++ as.flatMap Arg.redirs), by simp, hat,
          .simple rs as (hfew (by decide)), hspell'⟩
      · intro e hfuel he
        have := hfuel he
        rw [List.length_append]
        omega

theorem parse_reads (n : Nat) : Reads line .line (parseline n) n 4 ∧
    Reads line .pipe (parsepipe n) n 3 ∧ Reads line .exec (parseblock n) n 1 ∧
    Reads line .exec (parseexec n) n 2 := by
  induction n with
  | zero =>
      have hfuel : ∀ nt k, Reads line nt (halt .outOfFuel) 0 (k + 1) :=
        fun nt k s ts _ => Ends.halt fun _ => Nat.succ_pos _
      exact ⟨hfuel _ 3, hfuel _ 2, hfuel _ 0, hfuel _ 1⟩
  | succ n ih =>
      obtain ⟨hline, hpipe, hblock, hexec⟩ := ih
      exact ⟨parseline_step hpipe hline, parsepipe_step hexec hpipe, parseblock_step hline,
        parseexec_step hblock⟩

/-! ## Phrases are read -/

/-- What may stand after a phrase. -/
def Nonterminal.follow : Nonterminal → List Token
  | .line => [.rparen]
  | .pipe => [.rparen, .amp, .semi]
  | .exec => [.rparen, .amp, .semi, .bar]

def Follows (nt : Nonterminal) (us : List Token) : Prop := ∀ t ∈ us.head?, t ∈ nt.follow

theorem Follows.looks {nt : Nonterminal} (h : Follows nt us)
    (hstop : ∀ t ∈ nt.follow, t.mark ∉ toks) : looks toks us = false := by
  cases us with
  | nil => rfl
  | cons t us =>
      have hmark := hstop t (h t rfl)
      simpa [Shell.looks] using hmark

theorem Follows.weaken {nt nt' : Nonterminal} (h : Follows nt us)
    (hsub : nt.follow ⊆ nt'.follow) : Follows nt' us := fun t ht => hsub (h t ht)

theorem follows_cons {nt : Nonterminal} (ht : t ∈ nt.follow) : Follows nt (t :: us) := by
  intro u hu
  obtain rfl : t = u := by simpa using hu
  exact ht

/-- After the `&`s stands what may stand after them, or one of them. -/
theorem follows_amps {k : Nat} (h : Follows .pipe us) :
    Follows .pipe (List.replicate k .amp ++ us) := by
  cases k with
  | zero => exact h
  | succ k => exact follows_cons (by decide)

/-- A simple command does not start with a parenthesis. -/
theorem looks_simple {as : List Arg} (h : Follows .exec us) :
    looks ['('] (rs.flatMap Redir.tokens ++ as.flatMap Arg.tokens ++ us) = false := by
  cases rs with
  | cons r rs =>
      obtain ⟨dir, file⟩ := r
      cases dir <;> rfl
  | nil =>
      cases as with
      | cons a as => rfl
      | nil => exact h.looks (by decide)

theorem Follows.stops (h : Follows .exec us) :
    us = [] ∨ Shell.looks ['|', ')', '&', ';'] us = true := by
  cases us with
  | nil => exact Or.inl rfl
  | cons t us =>
      have ht := h t rfl
      simp only [Nonterminal.follow, List.mem_cons, List.not_mem_nil, or_false] at ht
      obtain rfl | rfl | rfl | rfl := ht <;> exact Or.inr rfl

/-- The function that reads the phrases of a nonterminal. -/
def Nonterminal.parser : Nonterminal → Nat → Parser Cmd
  | .line => parseline
  | .pipe => parsepipe
  | .exec => parseexec

def Nonterminal.need : Nonterminal → Nat
  | .line => 4
  | .pipe => 3
  | .exec => 2

/-- With enough fuel, a phrase with `us` after it is read up to there. -/
def Parses (line : Text) (nt : Nonterminal) (ts : List Token) (c : Command) : Prop :=
  ∀ s us n, At line s (ts ++ us) → Follows nt us → 4 * (ts ++ us).length + nt.need ≤ n →
    Ends (nt.parser n) s (fun cmd s' => At line s' us ∧ Spells line cmd c) fun _ => False

theorem parses_simple {as : List Arg} (hfew : as.length < MAXARGS) :
    Parses line .exec (rs.flatMap Redir.tokens ++ as.flatMap Arg.tokens)
      (wrap (.exec (as.map Arg.word)) (rs ++ as.flatMap Arg.redirs)) := by
  intro s us n h hfollow hn
  obtain ⟨n, rfl⟩ : ∃ m, n = m + 1 := ⟨n - 1, by simp only [Nonterminal.need] at hn; omega⟩
  simp only [List.length_append, length_redirs, Nonterminal.need] at hn
  show Ends (parseexec (n + 1)) _ _ _
  rw [parseexec]
  refine Ends.bind (peek_ends h (by decide)) fun b s₁ ⟨hb, h₁⟩ => ?_
  subst hb
  rw [looks_simple hfollow, if_neg Bool.false_ne_true]
  rw [List.append_assoc] at h₁
  have hredir : looks ['<', '>'] us = false := hfollow.looks (by decide)
  have hempty : Spells line (.exec []) (wrap (.exec []) []) := .exec .nil
  refine Ends.bind (parseredirs_complete h₁ (looks_args hredir) hempty (by omega)) ?_
  intro ret s₂ ⟨h₂, hret⟩
  exact parseargs_complete h₂ hfollow.stops hredir hret (by omega) (by omega)

theorem parses_block (hinner : Parses line .line ts c) :
    Parses line .exec (.lparen :: ts ++ .rparen :: rs.flatMap Redir.tokens) (wrap c rs) := by
  intro s us n h hfollow hn
  obtain ⟨n, rfl⟩ : ∃ m, n = m + 2 := ⟨n - 2, by simp only [Nonterminal.need] at hn; omega⟩
  have h₀ : At line s (.lparen :: (ts ++ .rparen :: (rs.flatMap Redir.tokens ++ us))) := by
    simpa using h
  simp only [List.length_append, List.length_cons, length_redirs, Nonterminal.need] at hn
  show Ends (parseexec (n + 2)) _ _ _
  rw [parseexec]
  refine Ends.bind (peek_ends h₀ (by decide)) fun b s₁ ⟨hb, h₁⟩ => ?_
  subst hb
  rw [if_pos (by rfl), parseblock]
  refine Ends.bind (peek_ends h₁ (by decide)) fun b s₂ ⟨hb, h₂⟩ => ?_
  subst hb
  rw [if_pos (by rfl)]
  refine Ends.bind (gettoken_ends h₂) fun _ s₃ ⟨_, h₃⟩ => ?_
  refine Ends.bind (hinner s₃ _ n h₃ (follows_cons (by decide)) ?_) ?_
  · simp only [List.length_append, List.length_cons, length_redirs, Nonterminal.need]
    omega
  · intro cmd s₄ ⟨h₄, hcmd⟩
    refine Ends.bind (peek_ends h₄ (by decide)) fun b s₅ ⟨hb, h₅⟩ => ?_
    subst hb
    rw [if_pos (by rfl)]
    refine Ends.bind (gettoken_ends h₅) fun _ s₆ ⟨_, h₆⟩ => ?_
    exact parseredirs_complete h₆ (hfollow.looks (by decide)) hcmd (by omega)

theorem parses_single (honly : Parses line .exec ts c) : Parses line .pipe ts c := by
  intro s us n h hfollow hn
  obtain ⟨n, rfl⟩ : ∃ m, n = m + 1 := ⟨n - 1, by simp only [Nonterminal.need] at hn; omega⟩
  show Ends (parsepipe (n + 1)) _ _ _
  rw [parsepipe]
  refine Ends.bind (honly s us n h (hfollow.weaken (by decide)) ?_) ?_
  · simp only [Nonterminal.need] at hn ⊢
    omega
  · intro cmd s₁ ⟨h₁, hcmd⟩
    refine Ends.bind (peek_ends h₁ (by decide)) fun b s₂ ⟨hb, h₂⟩ => ?_
    subst hb
    rw [hfollow.looks (by decide), if_neg Bool.false_ne_true]
    exact Ends.pure ⟨h₂, hcmd⟩

theorem parses_pipe (hleft : Parses line .exec ts c) (hright : Parses line .pipe us d) :
    Parses line .pipe (ts ++ .bar :: us) (.pipe c d) := by
  intro s vs n h hfollow hn
  obtain ⟨n, rfl⟩ : ∃ m, n = m + 1 := ⟨n - 1, by simp only [Nonterminal.need] at hn; omega⟩
  have h₀ : At line s (ts ++ .bar :: (us ++ vs)) := by simpa using h
  simp only [List.length_append, List.length_cons, Nonterminal.need] at hn
  show Ends (parsepipe (n + 1)) _ _ _
  rw [parsepipe]
  refine Ends.bind (hleft s _ n h₀ (follows_cons (by decide)) ?_) ?_
  · simp only [List.length_append, List.length_cons, Nonterminal.need]
    omega
  · intro cmd s₁ ⟨h₁, hcmd⟩
    refine Ends.bind (peek_ends h₁ (by decide)) fun b s₂ ⟨hb, h₂⟩ => ?_
    subst hb
    rw [if_pos (by rfl)]
    refine Ends.bind (gettoken_ends h₂) fun _ s₃ ⟨_, h₃⟩ => ?_
    refine Ends.bind (hright s₃ vs n h₃ hfollow ?_) fun right s' ⟨hat, hd⟩ => ?_
    · simp only [List.length_append, Nonterminal.need]
      omega
    · exact Ends.pure ⟨hat, .pipe hcmd hd⟩

theorem parses_last {k : Nat} (honly : Parses line .pipe ts c) :
    Parses line .line (ts ++ List.replicate k .amp) (backs c k) := by
  intro s us n h hfollow hn
  obtain ⟨n, rfl⟩ : ∃ m, n = m + 1 := ⟨n - 1, by simp only [Nonterminal.need] at hn; omega⟩
  rw [List.append_assoc] at h hn
  simp only [List.length_append, List.length_replicate, Nonterminal.need] at hn
  show Ends (parseline (n + 1)) _ _ _
  rw [parseline]
  refine Ends.bind (honly s _ n h (follows_amps (hfollow.weaken (by decide))) ?_) ?_
  · simp only [List.length_append, List.length_replicate, Nonterminal.need]
    omega
  · intro cmd s₁ ⟨h₁, hcmd⟩
    refine Ends.bind (parsebacks_complete h₁ (hfollow.looks (by decide)) hcmd (by omega)) ?_
    intro cmd s₂ ⟨h₂, hback⟩
    refine Ends.bind (peek_ends h₂ (by decide)) fun b s₃ ⟨hb, h₃⟩ => ?_
    subst hb
    rw [hfollow.looks (by decide), if_neg Bool.false_ne_true]
    exact Ends.pure ⟨h₃, hback⟩

theorem parses_seq {k : Nat} (hfirst : Parses line .pipe ts c) (hrest : Parses line .line us d) :
    Parses line .line (ts ++ List.replicate k .amp ++ .semi :: us) (.list (backs c k) d) := by
  intro s vs n h hfollow hn
  obtain ⟨n, rfl⟩ : ∃ m, n = m + 1 := ⟨n - 1, by simp only [Nonterminal.need] at hn; omega⟩
  have h₀ : At line s (ts ++ (List.replicate k .amp ++ .semi :: (us ++ vs))) := by simpa using h
  simp only [List.length_append, List.length_cons, List.length_replicate, Nonterminal.need] at hn
  show Ends (parseline (n + 1)) _ _ _
  rw [parseline]
  refine Ends.bind (hfirst s _ n h₀ (follows_amps (follows_cons (by decide))) ?_) ?_
  · simp only [List.length_append, List.length_cons, List.length_replicate, Nonterminal.need]
    omega
  · intro cmd s₁ ⟨h₁, hcmd⟩
    refine Ends.bind (parsebacks_complete h₁ (by rfl) hcmd (by omega)) ?_
    intro cmd s₂ ⟨h₂, hback⟩
    refine Ends.bind (peek_ends h₂ (by decide)) fun b s₃ ⟨hb, h₃⟩ => ?_
    subst hb
    rw [if_pos (by rfl)]
    refine Ends.bind (gettoken_ends h₃) fun _ s₄ ⟨_, h₄⟩ => ?_
    refine Ends.bind (hrest s₄ vs n h₄ hfollow ?_) fun right s' ⟨hat, hd⟩ => ?_
    · simp only [List.length_append, Nonterminal.need]
      omega
    · exact Ends.pure ⟨hat, .list hback hd⟩

theorem phrase_parses {nt : Nonterminal} (h : Phrase nt ts c) : Parses line nt ts c := by
  induction h with
  | simple rs as few => exact parses_simple few
  | block rs inner ih => exact parses_block ih
  | single only ih => exact parses_single ih
  | pipe left right ihl ihr => exact parses_pipe ihl ihr
  | last k only ih => exact parses_last ih
  | seq k first rest ihf ihr => exact parses_seq ihf ihr

end Shell
end CS444
