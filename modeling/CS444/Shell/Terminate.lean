/-
What `parsecmd` returns.

`nulterminate` writes a NUL where each word of the tree ends.  The byte that stood there
is not a byte of a word, so no word of the tree loses any of its bytes, and its pointers
are strings that are those words, `Spells.read`.  With what the parsing functions read
this says what `parsecmd` does, `parsecmd_iff`: it returns a command if and only if the
line is a phrase, and then the command of that phrase.
-/
import CS444.Shell.Parsing

namespace CS444
namespace Shell

open Program Prog

variable {line s q eq w : Text} {ts : List Token} {k : Nat} {cmd : Cmd} {c : Command}
  {buf : Buffer} {p : Nat × Nat}

/-- The command, with its strings read from the buffer. -/
def Cmd.read (buf : Buffer) : Cmd → Command
  | .exec argv => .exec (argv.map fun arg => buf.string arg.1)
  | .redir cmd file _ mode fd => .redir (cmd.read buf) (buf.string file) mode fd
  | .pipe left right => .pipe (left.read buf) (right.read buf)
  | .list left right => .list (left.read buf) (right.read buf)
  | .back cmd => .back (cmd.read buf)

/-! ## What is written -/

/-- Where the words of a tree end. -/
def Cmd.ends : Cmd → List Nat
  | .exec argv => argv.map Prod.snd
  | .redir cmd _ efile _ _ => efile :: cmd.ends
  | .pipe left right => left.ends ++ right.ends
  | .list left right => left.ends ++ right.ends
  | .back cmd => cmd.ends

theorem terminate_apply (buf : Buffer) (p k : Nat) :
    buf.terminate p k = if k = p then NUL else buf k := by
  unfold Buffer.terminate
  rw [Function.update_apply]

theorem terminate_args (argv : List (Nat × Nat)) (buf : Buffer) (k : Nat) :
    argv.foldl (fun buf arg => buf.terminate arg.2) buf k =
      if k ∈ argv.map Prod.snd then NUL else buf k := by
  induction argv generalizing buf with
  | nil => simp
  | cons arg argv ih =>
      rw [List.foldl_cons, ih, terminate_apply, List.map_cons]
      by_cases hk : k = arg.2
      · simp [hk]
      · simp only [List.mem_cons, hk, false_or, if_false]

theorem nulterminate_apply (cmd : Cmd) (buf : Buffer) (k : Nat) :
    nulterminate cmd buf k = if k ∈ cmd.ends then NUL else buf k := by
  induction cmd generalizing buf with
  | exec argv => exact terminate_args argv buf k
  | redir cmd file efile mode fd ih =>
      rw [nulterminate, terminate_apply, ih, Cmd.ends]
      by_cases hk : k = efile
      · simp [hk]
      · simp [hk]
  | pipe left right ihl ihr =>
      rw [nulterminate, ihr, ihl, Cmd.ends]
      by_cases hk : k ∈ right.ends
      · simp [hk]
      · simp [hk]
  | list left right ihl ihr =>
      rw [nulterminate, ihr, ihl, Cmd.ends]
      by_cases hk : k ∈ right.ends
      · simp [hk]
      · simp [hk]
  | back cmd ih => exact ih buf

/-! ## What is left of the words -/

theorem ofLine_suffix (h : s <:+ line) (hk : k ≤ s.length) :
    Buffer.ofLine line k = Buffer.ofLine s k := by
  obtain ⟨t, rfl⟩ := h
  induction t with
  | nil => rfl
  | cons c t ih =>
      rw [List.cons_append, Buffer.ofLine, Function.update_of_ne, ih]
      rw [List.length_append]
      omega

/-- The bytes of a word, and a NUL where it ends, are a string. -/
theorem string_word (hbuf : ∀ k, eq.length < k → k ≤ (w ++ eq).length →
    buf k = Buffer.ofLine (w ++ eq) k) (hend : eq ≠ [] → buf eq.length = NUL)
    (hw : NUL ∉ w) : buf.string (w ++ eq).length = w := by
  induction w with
  | nil =>
      rw [List.nil_append]
      cases eq with
      | nil => rfl
      | cons c eq =>
          rw [List.length_cons, Buffer.string, if_pos]
          exact hend (by simp)
  | cons c w ih =>
      have hlt : eq.length < (w ++ eq).length + 1 := by
        rw [List.length_append]
        omega
      have hc : buf ((w ++ eq).length + 1) = c := by
        rw [hbuf _ hlt (Nat.le_refl _), List.cons_append, Buffer.ofLine, Function.update_self]
      rw [List.cons_append, List.length_cons, Buffer.string, hc,
        if_neg (fun h => hw (by simp [h])), ih]
      · intro k hlt hle
        rw [hbuf k hlt (by rw [List.cons_append, List.length_cons]; omega), List.cons_append,
          Buffer.ofLine, Function.update_of_ne (by omega)]
      · exact fun h => hw (List.mem_cons_of_mem c h)

/-- The byte there, when it is not the end of the line, is not a byte of a word. -/
def Stop (line : Text) (k : Nat) : Prop :=
  ∃ eq, eq <:+ line ∧ k = eq.length ∧ ∀ c ∈ eq.head?, wordChar c = false

theorem Word.stop (h : Word line p w) : Stop line p.2 := by
  obtain ⟨q, eq, hq, hspell, rfl⟩ := h
  refine ⟨eq, List.IsSuffix.trans ?_ hq, rfl, hspell.stop⟩
  rw [hspell.text]
  exact List.suffix_append w eq

/-- No word ends inside a word. -/
theorem Stop.outside (hk : Stop line k) (hq : q <:+ line) (hspell : Spelled q eq w)
    (hlt : eq.length < k) (hle : k ≤ q.length) : False := by
  obtain ⟨r, hr, rfl, hstop⟩ := hk
  have hrq : r <:+ w ++ eq := hspell.text ▸ List.suffix_of_suffix_length_le hr hq hle
  have heq : eq <:+ r := by
    apply List.suffix_of_suffix_length_le (List.suffix_append w eq) hrq
    omega
  obtain ⟨v, rfl⟩ := heq
  cases v with
  | nil => simp at hlt
  | cons c v =>
      have hc := hstop c (by simp)
      have hmem : c ∈ w := by
        obtain ⟨u, hu⟩ := hrq
        rw [← List.append_assoc] at hu
        have := List.append_cancel_right hu
        rw [← this]
        simp
      rw [hspell.chars c hmem] at hc
      exact Bool.noConfusion hc

theorem Word.string (h : Word line p w) (hline : NUL ∉ line) (hends : ∀ k ∈ cmd.ends, Stop line k)
    (hp : p.2 ∈ cmd.ends) :
    (nulterminate cmd (Buffer.ofLine line)).string p.1 = w := by
  obtain ⟨q, eq, hq, hspell, rfl⟩ := h
  obtain rfl := hspell.text
  apply string_word
  · intro k hlt hle
    rw [nulterminate_apply, if_neg, ofLine_suffix hq hle]
    exact fun hk => (hends k hk).outside hq hspell hlt hle
  · intro _
    rw [nulterminate_apply, if_pos hp]
  · intro hmem
    exact hline (hq.subset (List.mem_append_left eq hmem))

theorem words_stop {argv : List (Nat × Nat)} {ws : List Text}
    (h : List.Forall₂ (Word line) argv ws) : ∀ k ∈ argv.map Prod.snd, Stop line k := by
  induction h with
  | nil => simp
  | cons hword _ ih =>
      intro k hk
      obtain rfl | hk := List.mem_cons.1 hk
      · exact hword.stop
      · exact ih k hk

theorem Spells.stops (h : Spells line cmd c) : ∀ k ∈ cmd.ends, Stop line k := by
  induction h with
  | exec words => exact words_stop words
  | redir _ word ih =>
      intro k hk
      obtain rfl | hk := List.mem_cons.1 hk
      · exact word.stop
      · exact ih k hk
  | pipe _ _ ihl ihr =>
      intro k hk
      exact (List.mem_append.1 hk).elim (ihl k) (ihr k)
  | list _ _ ihl ihr =>
      intro k hk
      exact (List.mem_append.1 hk).elim (ihl k) (ihr k)
  | back _ ih => exact ih

theorem read_words {argv : List (Nat × Nat)} {ws : List Text}
    (h : List.Forall₂ (Word line) argv ws)
    (hbuf : ∀ p w, Word line p w → p.2 ∈ argv.map Prod.snd → buf.string p.1 = w) :
    argv.map (fun arg => buf.string arg.1) = ws := by
  induction h with
  | nil => rfl
  | cons hword _ ih =>
      rw [List.map_cons, hbuf _ _ hword (by simp), ih]
      exact fun p w hp hmem => hbuf p w hp (List.mem_cons_of_mem _ hmem)

theorem Spells.read (h : Spells line cmd c)
    (hbuf : ∀ p w, Word line p w → p.2 ∈ cmd.ends → buf.string p.1 = w) : cmd.read buf = c := by
  induction h with
  | exec words => rw [Cmd.read, read_words words hbuf]
  | redir _ word ih =>
      rw [Cmd.read, hbuf _ _ word (List.mem_cons_self ..), ih]
      exact fun p w hp hmem => hbuf p w hp (List.mem_cons_of_mem _ hmem)
  | pipe _ _ ihl ihr =>
      rw [Cmd.read, ihl fun p w hp hmem => hbuf p w hp (List.mem_append_left _ hmem),
        ihr fun p w hp hmem => hbuf p w hp (List.mem_append_right _ hmem)]
  | list _ _ ihl ihr =>
      rw [Cmd.read, ihl fun p w hp hmem => hbuf p w hp (List.mem_append_left _ hmem),
        ihr fun p w hp hmem => hbuf p w hp (List.mem_append_right _ hmem)]
  | back _ ih => rw [Cmd.read, ih hbuf]

/-! ## The whole line -/

theorem nul_not_mem_cline : NUL ∉ cline s := by
  intro h
  have hne := List.all_eq_true.1 (List.all_takeWhile (p := (· ≠ NUL))) NUL h
  simp at hne

theorem Spells.terminated (h : Spells (cline s) cmd c) :
    cmd.read (nulterminate cmd (Buffer.ofLine (cline s))) = c :=
  h.read fun _ _ hp hmem => hp.string nul_not_mem_cline h.stops hmem

theorem length_tokens_le (s : Text) : (tokens s).length ≤ s.length := by
  fun_induction tokens s with
  | case1 => exact Nat.le_refl 0
  | case2 c s _ ih =>
      rw [List.length_cons]
      omega
  | case3 c s _ _ ih =>
      rw [List.length_tail] at ih
      simp only [List.length_cons]
      omega
  | case4 c s _ _ t _ ih =>
      simp only [List.length_cons]
      omega
  | case5 c s _ _ _ ih =>
      have := (s.dropWhile_suffix wordChar).length_le
      simp only [List.length_cons]
      omega

/-- `parsecmd` up to `nulterminate` returns the command of a line that is a phrase. -/
theorem parseall_sound (h : At line line ts) (n : Nat) :
    Ends (parseall n) line (fun cmd _ => ∃ c, Phrase .line ts c ∧ Spells line cmd c)
      (fun e => e = .outOfFuel → n < 4 * ts.length + 4) := by
  unfold parseall
  refine Ends.bind ((parse_reads n).1 line ts h) fun cmd s ⟨vs, us, c, hts, h₁, hc, hspell⟩ => ?_
  refine Ends.bind (peek_ends h₁ (List.nil_subset _)) fun _ s ⟨_, h₂⟩ => ?_
  refine Ends.call (get_run) ?_
  split
  · exact Ends.halt (by simp)
  · rename_i hs
    obtain rfl : s = [] := not_not.1 hs
    obtain rfl : us = [] := h₂.tokens.symm.trans tokens_nil
    rw [List.append_nil] at hts
    exact Ends.pure ⟨c, hts ▸ hc, hspell⟩

/-- A line that is a phrase is read to its end. -/
theorem parseall_complete {n : Nat} (h : At line line ts) (hphrase : Phrase .line ts c)
    (hn : 4 * ts.length + 4 ≤ n) :
    Ends (parseall n) line (fun cmd _ => Spells line cmd c) fun _ => False := by
  have h₀ : At line line (ts ++ []) := by rwa [List.append_nil]
  have hparse := phrase_parses hphrase line [] n h₀ (by simp [Follows])
    (by rw [List.append_nil]; exact hn)
  unfold parseall
  refine Ends.bind hparse fun cmd s ⟨h₁, hspell⟩ => ?_
  refine Ends.call (peek_looks h₁ (List.nil_subset _)) (Ends.call get_run ?_)
  rw [if_neg (not_not.2 (skip_eq_nil h₁.tokens))]
  exact Ends.pure hspell

theorem at_cline (s : Text) : At (cline s) (cline s) (tokens (cline s)) :=
  ⟨List.suffix_refl _, rfl⟩

theorem fuel_enough (s : Text) : 4 * (tokens (cline s)).length + 4 ≤ fuel (cline s) := by
  have := length_tokens_le (cline s)
  unfold fuel
  omega

theorem parsecmd_ends (s : Text) : parsecmd s ≠ .error .outOfFuel := by
  have hsound := parseall_sound (at_cline s) (fuel (cline s))
  have henough := fuel_enough s
  unfold parsecmd
  cases hrun : (parseall (fuel (cline s))).run (cline s) with
  | error e =>
      have hfuel := hsound.error hrun
      intro he
      have := hfuel (Except.error.inj he)
      omega
  | ok r => simp

/-- What is returned is the command of the line. -/
theorem parsecmd_sound (hrun : parsecmd s = .ok (cmd, buf)) :
    Phrase .line (tokens (cline s)) (cmd.read buf) := by
  have hsound := parseall_sound (at_cline s) (fuel (cline s))
  unfold parsecmd at hrun
  cases hall : (parseall (fuel (cline s))).run (cline s) with
  | error e =>
      rw [hall] at hrun
      exact absurd hrun (by simp)
  | ok r =>
      rw [hall] at hrun
      obtain ⟨rfl, rfl⟩ := Prod.mk.inj (Except.ok.inj hrun)
      obtain ⟨c, hphrase, hspell⟩ := hsound.ok hall
      rwa [hspell.terminated]

/-- The command of a line is returned. -/
theorem parsecmd_complete (hphrase : Phrase .line (tokens (cline s)) c) :
    ∃ cmd buf, parsecmd s = .ok (cmd, buf) ∧ cmd.read buf = c := by
  obtain ⟨cmd, s', hall, hspell⟩ :=
    (parseall_complete (at_cline s) hphrase (fuel_enough s)).returns
  unfold parsecmd
  rw [hall]
  exact ⟨cmd, _, rfl, hspell.terminated⟩

/-- The shell accepts the phrases of its language and nothing else: on every input
`parsecmd` panics or returns, and it returns a tree whose strings are the words of the
command `c` if and only if the line is a phrase that stands for `c`. -/
theorem parsecmd_iff (s : Text) : parsecmd s ≠ .error .outOfFuel ∧ ∀ c,
    (∃ cmd buf, parsecmd s = .ok (cmd, buf) ∧ cmd.read buf = c) ↔
      Phrase .line (tokens (cline s)) c := by
  refine ⟨parsecmd_ends s, fun c => ⟨?_, parsecmd_complete⟩⟩
  intro ⟨cmd, buf, hrun, hread⟩
  exact hread ▸ parsecmd_sound hrun

/-- The first redirection of a descriptor is the innermost, and there are two commands. -/
example : (parsecmd "a b >c>d;(e)&".toList).map (fun r => r.1.read r.2) =
    .ok (.list (.redir (.redir (.exec [['a'], ['b']]) ['c'] 0x201 1) ['d'] 0x201 1)
      (.back (.exec [['e']]))) := by
  decide

end Shell
end CS444
