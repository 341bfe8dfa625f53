/-
The loop of `grep` over its buffer.

Each `read` puts more of the file behind what is left in the buffer, and every complete
line of it is tried.  What is behind the last newline is moved to the front and waits for
the rest of its line, except when the buffer holds no newline at all: then it is thrown
away.  So `grep` prints the lines of the file that match provided that each `read`
completes a line, `grep_lines`, and that is so for a file none of whose lines is longer
than the buffer, `grepFile_lines`.  What comes after the last newline of the file is
never printed.
-/
import CS444.Grep.Match

namespace CS444
namespace Grep

def NUL : Char := '\x00'

/-- `sizeof(buf)` -/
def BUFSIZE : Nat := 1024

/-- `strchr(s, c)`: what is from the first `c` on, when it is before the first NUL. -/
def strchr (c : Char) : Text → Option Text
  | [] => none
  | b :: s => if b = NUL then none else if b = c then some (b :: s) else strchr c s

variable {re s p q line rest left : Text} {c : Char} {chunks : List Text} {lines : List Text}

theorem strchr_some (h : strchr c s = some q) : ∃ line rest, s = line ++ c :: rest ∧ q = c :: rest ∧
    c ∉ line ∧ NUL ∉ line := by
  induction s with
  | nil => exact absurd h (by simp [strchr])
  | cons b s ih =>
      rw [strchr] at h
      split at h
      · exact absurd h (by simp)
      · rename_i hb
        split at h
        · rename_i hc
          subst hc
          obtain rfl := Option.some.inj h
          exact ⟨[], s, rfl, rfl, by simp, by simp⟩
        · rename_i hc
          obtain ⟨line, rest, rfl, rfl, hline, hnul⟩ := ih h
          refine ⟨b :: line, rest, rfl, rfl, ?_, ?_⟩
          · simp [hline, Ne.symm hc]
          · simp [hnul, Ne.symm hb]

theorem strchr_line (hc : c ∉ line) (hnul : NUL ∉ line) (hne : c ≠ NUL) :
    strchr c (line ++ c :: rest) = some (c :: rest) := by
  induction line with
  | nil => rw [List.nil_append, strchr, if_neg hne, if_pos rfl]
  | cons b line ih =>
      rw [List.mem_cons, not_or] at hc hnul
      rw [List.cons_append, strchr, if_neg (Ne.symm hnul.1), if_neg (Ne.symm hc.1),
        ih hc.2 hnul.2]

theorem strchr_none (hc : c ∉ s) : strchr c s = none := by
  induction s with
  | nil => rfl
  | cons b s ih =>
      rw [List.mem_cons, not_or] at hc
      rw [strchr, if_neg (Ne.symm hc.1), ih hc.2, ite_self]

/-- `while((q = strchr(p, '\n')) != 0) ...`: what is written, a line at a time, and `p` in
the end.  The string at `p` is the line, once its newline is a NUL. -/
def scan (re p : Text) : List Text × Text :=
  match _h : strchr '\n' p with
  | none => ([], p)
  | some q =>
    let line := p.take (p.length - q.length)
    let r := scan re q.tail
    (if pmatch re line then ((line ++ ['\n']) :: r.1, r.2) else r)
  termination_by p.length
  decreasing_by
    obtain ⟨line, rest, rfl, rfl, -, -⟩ := strchr_some _h
    simp only [List.tail_cons, List.length_append, List.length_cons]
    omega

/-- The loop of `grep`, with what is in the buffer, over what the calls of `read` return. -/
def grep (re : Text) : Text → List Text → List Text
  | _, [] => []
  | left, chunk :: chunks =>
    if chunk = [] then []
    else
      let buf := left ++ chunk
      let r := scan re buf
      r.1 ++ grep re (if r.2.length = buf.length then [] else r.2) chunks

/-- `grep` of a file on the disk: `read` returns what there is room for in the buffer. -/
def grepFile (re left file : Text) : List Text :=
  let room := BUFSIZE - left.length - 1
  if _h : file.take room = [] then []
  else
    let buf := left ++ file.take room
    let r := scan re buf
    r.1 ++ grepFile re (if r.2.length = buf.length then [] else r.2) (file.drop room)
  termination_by file.length
  decreasing_by
    rw [List.take_eq_nil_iff, not_or] at _h
    have := List.length_pos_of_ne_nil _h.2
    rw [List.length_drop]
    omega

/-! ## The lines of a file -/

/-- Lines, each with its newline. -/
def unlines (lines : List Text) : Text := lines.flatMap (· ++ ['\n'])

/-- What is printed for lines. -/
def matching (re : Text) (lines : List Text) : List Text :=
  (lines.filter (pmatch re)).map (· ++ ['\n'])

/-- A line without its newline, and with no NUL in it. -/
structure Plain (line : Text) : Prop where
  noNewline : '\n' ∉ line
  noNul : NUL ∉ line

theorem scan_cons (hline : Plain line) :
    scan re (line ++ '\n' :: rest) =
      ((if pmatch re line then [line ++ ['\n']] else []) ++ (scan re rest).1,
        (scan re rest).2) := by
  have hfound : strchr '\n' (line ++ '\n' :: rest) = some ('\n' :: rest) :=
    strchr_line hline.noNewline hline.noNul (by decide)
  have htake : (line ++ '\n' :: rest).take
      ((line ++ '\n' :: rest).length - ('\n' :: rest).length) = line := by
    rw [List.length_append, Nat.add_sub_cancel, List.take_left]
  rw [scan]
  split
  · rename_i hnone
    rw [hfound] at hnone
    exact absurd hnone (by simp)
  · rename_i q hq
    rw [hfound] at hq
    obtain rfl := Option.some.inj hq
    rw [htake, List.tail_cons]
    by_cases hmatch : pmatch re line = true
    · rw [if_pos hmatch, if_pos hmatch, List.singleton_append]
    · rw [if_neg hmatch, if_neg hmatch, List.nil_append]

theorem scan_none (h : '\n' ∉ p) : scan re p = ([], p) := by
  have hnone := strchr_none h
  rw [scan]
  split
  · rfl
  · rename_i q hq
    rw [hnone] at hq
    exact absurd hq (by simp)

theorem scan_unlines (hlines : ∀ l ∈ lines, Plain l) (hleft : '\n' ∉ left) :
    scan re (unlines lines ++ left) = (matching re lines, left) := by
  induction lines with
  | nil => exact scan_none hleft
  | cons line lines ih =>
      have hcons : unlines (line :: lines) ++ left =
          line ++ '\n' :: (unlines lines ++ left) := by
        simp [unlines]
      rw [hcons, scan_cons (hlines line (by simp)),
        ih fun l hl => hlines l (List.mem_cons_of_mem _ hl)]
      unfold matching
      by_cases hmatch : pmatch re line = true
      · rw [if_pos hmatch, List.filter_cons_of_pos hmatch]
        rfl
      · rw [if_neg hmatch, List.filter_cons_of_neg hmatch]
        rfl

/-- What is in the buffer, when more is to come, is some of the lines and part of the next. -/
theorem split_lines {buf tail : Text} (h : buf ++ rest = unlines lines ++ tail)
    (hlines : ∀ l ∈ lines, Plain l) (htail : '\n' ∉ tail) :
    ∃ done todo left, lines = done ++ todo ∧ buf = unlines done ++ left ∧ '\n' ∉ left ∧
      left ++ rest = unlines todo ++ tail := by
  induction lines generalizing buf with
  | nil =>
      refine ⟨[], [], buf, rfl, rfl, fun hmem => htail ?_, h⟩
      rw [show tail = buf ++ rest from h.symm]
      exact List.mem_append_left _ hmem
  | cons line lines ih =>
      have hcons : buf ++ rest = line ++ '\n' :: (unlines lines ++ tail) := by
        simpa [unlines] using h
      obtain ⟨a, hline, hrest⟩ | ⟨a, rfl, ha⟩ := List.append_eq_append_iff.1 hcons
      · -- the buffer ends inside the first line
        refine ⟨[], line :: lines, buf, rfl, rfl, fun hmem => ?_, h⟩
        apply (hlines line (by simp)).noNewline
        rw [hline]
        exact List.mem_append_left _ hmem
      · cases a with
        | nil =>
            refine ⟨[], line :: lines, line, rfl, by simp [unlines],
              (hlines line (by simp)).noNewline, ?_⟩
            rw [List.append_nil] at h
            exact h
        | cons c a =>
            obtain ⟨rfl, hnext⟩ := List.cons.inj ha
            obtain ⟨done, todo, left, rfl, rfl, hleft, htodo⟩ :=
              ih hnext.symm fun l hl => hlines l (List.mem_cons_of_mem _ hl)
            exact ⟨line :: done, todo, left, rfl, by simp [unlines], hleft, htodo⟩

/-- One `read`: the lines it completes are tried, and what is left is kept, if it completes
one at all. -/
theorem scan_buffer (re : Text) {buf tail : Text} (h : buf ++ rest = unlines lines ++ tail)
    (hlines : ∀ l ∈ lines, Plain l) (htail : '\n' ∉ tail) :
    ∃ done todo left, lines = done ++ todo ∧ scan re buf = (matching re done, left) ∧
      '\n' ∉ left ∧ left ++ rest = unlines todo ++ tail ∧
      ('\n' ∈ buf → left.length ≠ buf.length) := by
  obtain ⟨done, todo, left, rfl, rfl, hleft, htodo⟩ := split_lines h hlines htail
  refine ⟨done, todo, left, rfl, ?_, hleft, htodo, fun hmem hlen => ?_⟩
  · exact scan_unlines (fun l hl => hlines l (List.mem_append_left _ hl)) hleft
  · rw [List.length_append] at hlen
    have hnil : unlines done = [] := List.eq_nil_of_length_eq_zero (by omega)
    rw [hnil, List.nil_append] at hmem
    exact hleft hmem

theorem matching_append (done todo : List Text) :
    matching re (done ++ todo) = matching re done ++ matching re todo := by
  simp [matching]

theorem matching_no_lines {tail : Text} (h : left = unlines lines ++ tail) (hleft : '\n' ∉ left) :
    lines = [] := by
  cases lines with
  | nil => rfl
  | cons line lines =>
      refine absurd ?_ hleft
      rw [h]
      simp [unlines]

theorem grep_cons {chunk : Text} (h : chunk ≠ []) :
    grep re left (chunk :: chunks) = (scan re (left ++ chunk)).1 ++
      grep re (if (scan re (left ++ chunk)).2.length = (left ++ chunk).length then []
        else (scan re (left ++ chunk)).2) chunks := by
  rw [grep, if_neg h]

theorem grep_from {tail : Text} (hchunks : ∀ chunk ∈ chunks, chunk ≠ [])
    (hcomplete : ∀ chunk ∈ chunks.dropLast, '\n' ∈ chunk) (hleft : '\n' ∉ left)
    (hlines : ∀ l ∈ lines, Plain l) (htail : '\n' ∉ tail)
    (hfile : left ++ chunks.flatten = unlines lines ++ tail) :
    grep re left chunks = matching re lines := by
  induction chunks generalizing left lines with
  | nil =>
      rw [List.flatten_nil, List.append_nil] at hfile
      obtain rfl := matching_no_lines hfile hleft
      rfl
  | cons chunk chunks ih =>
      rw [List.flatten_cons, ← List.append_assoc] at hfile
      obtain ⟨done, todo, left', rfl, hscan, hleft', htodo, hkept⟩ :=
        scan_buffer re hfile hlines htail
      have htodoPlain : ∀ l ∈ todo, Plain l := fun l hl => hlines l (List.mem_append_right _ hl)
      rw [grep_cons (hchunks chunk (by simp)), hscan, matching_append]
      congr 1
      cases chunks with
      | nil =>
          -- nothing is read any more, and what is left holds no line
          rw [List.flatten_nil, List.append_nil] at htodo
          obtain rfl := matching_no_lines htodo hleft'
          rfl
      | cons next chunks =>
          have hnewline : '\n' ∈ chunk := hcomplete chunk (by simp)
          rw [if_neg (hkept (List.mem_append_right _ hnewline))]
          apply ih
          · exact fun c hc => hchunks c (List.mem_cons_of_mem _ hc)
          · exact fun c hc => hcomplete c (by simp [hc])
          · exact hleft'
          · exact htodoPlain
          · exact htodo

/-- Whatever `read` returns at a time, as long as each call completes a line: the lines
that match are printed, in order, and nothing else. -/
theorem grep_lines {tail : Text} (re : Text) (hlines : ∀ l ∈ lines, Plain l)
    (htail : '\n' ∉ tail) (hfile : chunks.flatten = unlines lines ++ tail)
    (hchunks : ∀ chunk ∈ chunks, chunk ≠ [])
    (hcomplete : ∀ chunk ∈ chunks.dropLast, '\n' ∈ chunk) :
    grep re [] chunks = matching re lines :=
  grep_from hchunks hcomplete (by simp) hlines htail hfile

theorem plain_letters : ∀ l ∈ [['a'], ['b', 'c']], Plain l := by
  intro l hl
  have hcases : l = ['a'] ∨ l = ['b', 'c'] := by simpa using hl
  obtain rfl | rfl := hcases <;> exact ⟨by decide, by decide⟩

theorem grep_lines_pair : grep ['b'] [] [['a', '\n', 'b'], ['c', '\n'], ['d']] =
    matching ['b'] [['a'], ['b', 'c']] :=
  grep_lines ['b'] plain_letters (show '\n' ∉ ['d'] by decide) (by decide) (by decide) (by decide)

/-! ## Files on the disk -/

/-- A line that the buffer has room for is completed by one `read`. -/
theorem newline_mem {file : Text} (h : left ++ file = line ++ '\n' :: rest)
    (hleft : '\n' ∉ left) (hfits : line.length + 1 < BUFSIZE) :
    '\n' ∈ file.take (BUFSIZE - left.length - 1) := by
  have hpre : line ++ ['\n'] <+: left ++ file := ⟨rest, by rw [h]; simp⟩
  have hlt : left.length ≤ line.length := by
    by_contra hlt
    obtain ⟨a, hline, ha⟩ | ⟨a, hline, ha⟩ := List.append_eq_append_iff.1 h
    · rw [hline, List.length_append] at hlt
      omega
    · cases a with
      | nil =>
          rw [hline, List.append_nil] at hlt
          omega
      | cons c a =>
          apply hleft
          rw [hline, ← (List.cons.inj ha).1]
          simp
  have hbuf : left ++ file.take (BUFSIZE - left.length - 1) <+: left ++ file :=
    (List.prefix_append_right_inj left).2 (List.take_prefix _ _)
  have hlen : (line ++ ['\n']).length ≤
      (left ++ file.take (BUFSIZE - left.length - 1)).length := by
    have hwhole := hpre.length_le
    simp only [List.length_append, List.length_singleton, List.length_take] at hwhole ⊢
    omega
  have hin := (List.prefix_of_prefix_length_le hpre hbuf hlen).subset
    (List.mem_append_right line (List.mem_singleton_self '\n'))
  exact (List.mem_append.1 hin).resolve_left hleft

theorem grepFile_eq (re left file : Text) (h : file.take (BUFSIZE - left.length - 1) ≠ []) :
    grepFile re left file =
      (scan re (left ++ file.take (BUFSIZE - left.length - 1))).1 ++
        grepFile re (if (scan re (left ++ file.take (BUFSIZE - left.length - 1))).2.length =
          (left ++ file.take (BUFSIZE - left.length - 1)).length then []
          else (scan re (left ++ file.take (BUFSIZE - left.length - 1))).2)
        (file.drop (BUFSIZE - left.length - 1)) := by
  rw [grepFile, dif_neg h]

theorem grepFile_stop (re left file : Text) (h : file.take (BUFSIZE - left.length - 1) = []) :
    grepFile re left file = [] := by
  rw [grepFile, dif_pos h]

theorem grepFile_from {file tail : Text} (hleft : '\n' ∉ left)
    (hlines : ∀ l ∈ lines, Plain l ∧ l.length + 1 < BUFSIZE) (htail : '\n' ∉ tail)
    (hfile : left ++ file = unlines lines ++ tail) : grepFile re left file = matching re lines := by
  induction hn : file.length using Nat.strong_induction_on generalizing left file lines tail with
  | _ n ih =>
      by_cases hread : file.take (BUFSIZE - left.length - 1) = []
      · rw [grepFile_stop re left file hread]
        cases lines with
        | nil => rfl
        | cons line lines =>
            have hline : left ++ file = line ++ '\n' :: (unlines lines ++ tail) := by
              simpa [unlines] using hfile
            have hmem := newline_mem hline hleft (hlines line (by simp)).2
            rw [hread] at hmem
            exact absurd hmem (by simp)
      · have hsplit := hfile
        rw [← List.take_append_drop (BUFSIZE - left.length - 1) file, ← List.append_assoc] at hsplit
        obtain ⟨done, todo, left', rfl, hscan, hleft', htodo, hkept⟩ :=
          scan_buffer re hsplit (fun l hl => (hlines l hl).1) htail
        have hshort : (file.drop (BUFSIZE - left.length - 1)).length < n := by
          rw [List.take_eq_nil_iff, not_or] at hread
          have := List.length_pos_of_ne_nil hread.2
          rw [List.length_drop]
          omega
        rw [grepFile_eq re left file hread, hscan, matching_append]
        congr 1
        split
        · -- nothing is kept, so there was no line to complete
          rename_i hlen
          have hnil : done ++ todo = [] := by
            cases hall : done ++ todo with
            | nil => rfl
            | cons line lines =>
                rw [hall] at hfile hlines
                have hline : left ++ file = line ++ '\n' :: (unlines lines ++ tail) := by
                  simpa [unlines] using hfile
                have hmem := newline_mem hline hleft (hlines line (by simp)).2
                exact absurd hlen (hkept (List.mem_append_right _ hmem))
          obtain ⟨rfl, rfl⟩ := List.append_eq_nil_iff.1 hnil
          have hrest : '\n' ∉ file.drop (BUFSIZE - left.length - 1) := by
            intro hmem
            apply htail
            rw [show tail = left' ++ file.drop (BUFSIZE - left.length - 1) from htodo.symm]
            exact List.mem_append_right _ hmem
          exact ih _ hshort (by simp) hlines hrest rfl rfl
        · refine ih _ hshort hleft' ?_ htail htodo rfl
          exact fun l hl => hlines l (List.mem_append_right _ hl)

/-- Of a file none of whose lines is longer than the buffer, the lines that match are
printed, in order, and nothing else. -/
theorem grepFile_lines {tail : Text} (re : Text)
    (hlines : ∀ l ∈ lines, Plain l ∧ l.length + 1 < BUFSIZE) (htail : '\n' ∉ tail) :
    grepFile re [] (unlines lines ++ tail) = matching re lines :=
  grepFile_from (by simp) hlines htail rfl

theorem plain_replicate {a : Char} (n : Nat) (h : a ≠ '\n' ∧ a ≠ NUL) :
    Plain (List.replicate n a) where
  noNewline hmem := h.1 (List.eq_of_mem_replicate hmem).symm
  noNul hmem := h.2 (List.eq_of_mem_replicate hmem).symm

/-- Two lines the second of which the first `read` returns in part. -/
def longLines : List Text := [List.replicate 1000 'a', List.replicate 100 'b']

theorem grepFile_lines_split : BUFSIZE < (unlines longLines ++ ['d']).length ∧
    grepFile ['b'] [] (unlines longLines ++ ['d']) = matching ['b'] longLines := by
  refine ⟨?_, grepFile_lines ['b'] (fun l hl => ?_) (by decide)⟩
  · simp only [unlines, longLines, List.flatMap_cons, List.flatMap_nil, List.length_append,
      List.length_replicate, List.length_singleton, List.length_nil]
    decide
  · obtain rfl | hl := List.mem_cons.mp hl
    · exact ⟨plain_replicate 1000 (by decide), by rw [List.length_replicate]; decide⟩
    · obtain rfl := List.mem_singleton.mp hl
      exact ⟨plain_replicate 100 (by decide), by rw [List.length_replicate]; decide⟩

end Grep
end CS444
