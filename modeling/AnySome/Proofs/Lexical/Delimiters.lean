import AnySome.Proofs.Lexical.Reads

/-!
# What opens and closes a string literal

The automaton of string literals compares counts: how many signs `#` follow,
whether three quotes do. What it looks for is a text, the delimiter of a
literal, and the lemmas here say for each piece of a literal, given as the
text that it is, what the automaton does with it and how far it gets.

A literal of one line whose first quote has two more behind it is taken for
one of many lines. Every piece that opens a literal needs to exclude that.

## Main results

* `Literal.run_closer`, `Literal.run_content` — the automaton passes what holds
  neither an escape nor a closing delimiter, and takes the delimiter.
* `Literal.run_opener` — it recognises a literal in an interpolation.
* `Reader.next_opener` — what is read where a literal opens.
-/

namespace AnySome

namespace Literal

/-! ## Runs of signs -/

theorem hashes_cons (c : Char) (cs : List Char) :
    hashes (c :: cs) = if c = '#' then hashes cs + 1 else 0 := by
  unfold hashes
  by_cases hc : c = '#' <;> simp [hc]

theorem le_hashes_iff {count : Nat} {cs : List Char} :
    count ≤ hashes cs ↔ List.replicate count '#' <+: cs := by
  induction count generalizing cs with
  | zero => simp
  | succ count ih =>
    cases cs with
    | nil => simp [hashes]
    | cons c cs =>
      rw [hashes_cons, List.replicate_succ, List.cons_prefix_cons, ← ih]
      by_cases hc : c = '#'
      · simp [hc]
      · simp [hc, Ne.symm hc]

theorem take_hashes {count : Nat} {cs : List Char} (h : count ≤ hashes cs) :
    cs.take count = List.replicate count '#' := by
  have htake := List.prefix_iff_eq_take.mp (le_hashes_iff.mp h)
  rw [htake, List.length_replicate]

theorem hashes_replicate_append (count : Nat) (cs : List Char) :
    hashes (List.replicate count '#' ++ cs) = count + hashes cs := by
  induction count with
  | zero => simp
  | succ count ih =>
    rw [List.replicate_succ, List.cons_append, hashes_cons, if_pos rfl, ih]
    omega

theorem le_hashes_replicate_append (count : Nat) (cs : List Char) :
    count ≤ hashes (List.replicate count '#' ++ cs) := by
  rw [hashes_replicate_append]
  omega

theorem hashes_of_head_ne {cs : List Char} (h : cs.head? ≠ some '#') : hashes cs = 0 := by
  cases cs with
  | nil => rfl
  | cons c cs =>
    rw [hashes_cons, if_neg]
    rintro rfl
    exact h rfl

theorem drop_replicate_append (count : Nat) (cs : List Char) :
    (List.replicate count '#' ++ cs).drop count = cs := by
  have hlength : (List.replicate count '#').length = count := List.length_replicate
  exact List.drop_left' hlength

/-! ## Delimiters -/

theorem startsWithTripleQuote_iff {cs : List Char} :
    startsWithTripleQuote cs = true ↔ ∃ rest, cs = '"' :: '"' :: '"' :: rest := by
  unfold startsWithTripleQuote
  split
  · simp
  next hne =>
    simp only [Bool.false_eq_true, false_iff, not_exists]
    exact hne

/-- The quotes of a literal. -/
def quotes : Bool → List Char
  | true => ['"', '"', '"']
  | false => ['"']

/-- What a literal with `count` signs starts with. -/
def opener (count : Nat) (multiline : Bool) : List Char :=
  List.replicate count '#' ++ quotes multiline

/-- What a literal with `count` signs ends with. -/
def closer (count : Nat) (multiline : Bool) : List Char :=
  quotes multiline ++ List.replicate count '#'

/-- What escapes start with in a literal with `count` signs. -/
def escaper (count : Nat) : List Char := '\\' :: List.replicate count '#'

/-- In front of `behind`, the quote of a one-line literal is taken for the
first of three. -/
def LooksMultiline (multiline : Bool) (behind : List Char) : Prop :=
  multiline = false ∧ ['"', '"'] <+: behind

instance (multiline : Bool) (behind : List Char) : Decidable (LooksMultiline multiline behind) :=
  inferInstanceAs (Decidable (_ ∧ _))

@[simp] theorem length_opener (count : Nat) (multiline : Bool) :
    (opener count multiline).length = count + (quotes multiline).length := by
  simp [opener]

@[simp] theorem length_closer (count : Nat) (multiline : Bool) :
    (closer count multiline).length = (quotes multiline).length + count := by
  simp [closer]

theorem exists_quotes_eq (multiline : Bool) : ∃ more, quotes multiline = '"' :: more := by
  cases multiline <;> exact ⟨_, rfl⟩

theorem length_quotes_pos (multiline : Bool) : 0 < (quotes multiline).length := by
  cases multiline <;> decide

theorem opener_succ_append (count : Nat) (multiline : Bool) (cs : List Char) :
    opener (count + 1) multiline ++ cs =
      '#' :: (List.replicate count '#' ++ (quotes multiline ++ cs)) := by
  rw [opener, List.replicate_succ, List.cons_append, List.cons_append, List.append_assoc]

/-- The signs of a literal are counted up to its quotes. -/
theorem hashes_append_quotes (count : Nat) (multiline : Bool) (cs : List Char) :
    hashes (List.replicate count '#' ++ (quotes multiline ++ cs)) = count := by
  have hhead : (quotes multiline ++ cs).head? ≠ some '#' := by
    obtain ⟨more, hquotes⟩ := exists_quotes_eq multiline
    rw [hquotes]
    simp
  rw [hashes_replicate_append, hashes_of_head_ne hhead, Nat.add_zero]

theorem escaper_prefix_iff {count : Nat} {c : Char} {cs : List Char} :
    escaper count <+: c :: cs ↔ c = '\\' ∧ count ≤ hashes cs := by
  rw [escaper, List.cons_prefix_cons, le_hashes_iff, eq_comm]

theorem closer_oneLine_prefix_iff {count : Nat} {c : Char} {cs : List Char} :
    closer count false <+: c :: cs ↔ c = '"' ∧ count ≤ hashes cs := by
  rw [closer, quotes, List.singleton_append, List.cons_prefix_cons, le_hashes_iff, eq_comm]

theorem closer_multiline_prefix_iff {count : Nat} {c : Char} {cs : List Char} :
    closer count true <+: c :: cs ↔
      startsWithTripleQuote (c :: cs) = true ∧ count ≤ hashes (cs.drop 2) := by
  rw [startsWithTripleQuote_iff, le_hashes_iff]
  constructor
  · rintro ⟨rest, hrest⟩
    obtain ⟨rfl, rfl⟩ := List.cons.inj hrest
    exact ⟨⟨_, rfl⟩, ⟨rest, rfl⟩⟩
  · rintro ⟨⟨rest, hrest⟩, tail, htail⟩
    obtain ⟨rfl, rfl⟩ := List.cons.inj hrest
    exact ⟨tail, congrArg (fun ds => '"' :: '"' :: '"' :: ds) htail⟩

theorem opening_eq (count : Nat) {multiline : Bool} {behind : List Char}
    (h : ¬LooksMultiline multiline behind) :
    opening count (quotes multiline ++ behind) =
      (.quoted count multiline, (quotes multiline).length) := by
  unfold opening
  cases multiline with
  | true => rfl
  | false =>
    have hone : ¬startsWithTripleQuote (quotes false ++ behind) = true := by
      rw [startsWithTripleQuote_iff]
      rintro ⟨rest, hrest⟩
      exact h ⟨rfl, rest, (List.cons.inj hrest).2.symm⟩
    rw [if_neg hone]
    rfl

/-- The text behind an opening quote may make it the first of three. -/
theorem exists_quotes (cs : List Char) :
    ∃ multiline behind, '"' :: cs = quotes multiline ++ behind ∧
      ¬LooksMultiline multiline behind := by
  by_cases htriple : ['"', '"'] <+: cs
  · obtain ⟨behind, rfl⟩ := htriple
    exact ⟨true, behind, rfl, fun h => Bool.false_ne_true h.1.symm⟩
  · exact ⟨false, cs, rfl, fun h => htriple h.2⟩

theorem head?_drop_hashes (cs : List Char) : (cs.drop (hashes cs)).head? ≠ some '#' := by
  induction cs with
  | nil => simp
  | cons c cs ih =>
    rw [hashes_cons]
    by_cases hc : c = '#'
    · rw [if_pos hc, List.drop_succ_cons]
      exact ih
    · simp [hc]

/-- The signs that a text starts with. -/
theorem exists_signs (cs : List Char) :
    ∃ count rest, cs = List.replicate count '#' ++ rest ∧ rest.head? ≠ some '#' := by
  have hsplit := List.take_append_drop (hashes cs) cs
  rw [take_hashes (Nat.le_refl _)] at hsplit
  exact ⟨hashes cs, cs.drop (hashes cs), hsplit.symm, head?_drop_hashes cs⟩

/-- Every text starts with the opening delimiter of a literal, or with signs
that open none. -/
theorem exists_opener (cs : List Char) :
    (∃ count multiline behind, cs = opener count multiline ++ behind ∧
      ¬LooksMultiline multiline behind) ∨
    ∃ count rest, cs = List.replicate count '#' ++ rest ∧ rest.head? ≠ some '#' ∧
      rest.head? ≠ some '"' := by
  obtain ⟨count, rest, rfl, hsign⟩ := exists_signs cs
  by_cases hquote : rest.head? = some '"'
  · obtain ⟨tail, rfl⟩ := List.head?_eq_some_iff.mp hquote
    obtain ⟨multiline, behind, htail, hmulti⟩ := exists_quotes tail
    refine .inl ⟨count, multiline, behind, ?_, hmulti⟩
    rw [opener, List.append_assoc, ← htail]
  · exact .inr ⟨count, rest, rfl, hsign, hquote⟩

theorem stringExtent_quotes (count : Nat) {multiline : Bool} {behind : List Char}
    (h : ¬LooksMultiline multiline behind) :
    stringExtent count (quotes multiline ++ behind) =
      run [.quoted count multiline] (count + (quotes multiline).length) behind := by
  unfold stringExtent
  rw [opening_eq count h]
  dsimp only
  rw [List.drop_left]

/-! ## Runs

One lemma for each piece of a literal. The moves that take a delimiter or an
escape consume more than the character they look at. -/

section Run

variable {frame : Frame} {outer stack : List Frame} {c : Char} {rest : List Char} {extra : Nat}

theorem run_of_stop (h : move frame outer c rest = .stop) (seen : Nat) :
    run (frame :: outer) seen (c :: rest) = ⟨seen, false⟩ := by
  rw [run, h]

theorem run_of_next (h : move frame outer c rest = .next extra stack) (seen : Nat) :
    run (frame :: outer) seen (c :: rest) = run stack (seen + 1 + extra) (rest.drop extra) := by
  rw [run, h]

/-- A literal that is closed has taken at least one character. -/
theorem lt_length_run {seen : Nat} {cs : List Char}
    (h : (run (frame :: outer) seen cs).closed = true) :
    seen < (run (frame :: outer) seen cs).length := by
  cases cs with
  | nil =>
    rw [run] at h
    contradiction
  | cons c rest =>
    cases hmove : move frame outer c rest with
    | stop =>
      rw [run_of_stop hmove] at h
      contradiction
    | next extra stack =>
      rw [run_of_next hmove]
      have hle := le_length_run stack (seen + 1 + extra) (rest.drop extra)
      omega

end Run

section Quoted

variable {count : Nat} {multiline : Bool} {outer : List Frame} {seen : Nat}

theorem run_closer (cs : List Char) :
    run (.quoted count multiline :: outer) seen (closer count multiline ++ cs) =
      run outer (seen + (closer count multiline).length) cs := by
  have hsigns := le_hashes_replicate_append count cs
  have hnoescape : ∀ n : Nat, ¬('"' = '\\' ∧ count ≤ n) := fun _ h => absurd h.1 (by decide)
  cases multiline with
  | true =>
    have hmove : move (.quoted count true) outer '"'
        ('"' :: '"' :: (List.replicate count '#' ++ cs)) = .next (2 + count) outer := by
      unfold move quotedMove
      dsimp only
      rw [if_neg (hnoescape _), if_pos rfl, if_pos rfl, if_pos ⟨rfl, hsigns⟩]
    have hrun := run_of_next hmove seen
    rw [Nat.add_comm 2 count, List.drop_succ_cons, List.drop_succ_cons,
      drop_replicate_append] at hrun
    have htext : closer count true ++ cs =
        '"' :: '"' :: '"' :: (List.replicate count '#' ++ cs) := rfl
    rw [htext, hrun, length_closer]
    congr 1
    simp only [quotes, List.length_cons, List.length_nil]
    omega
  | false =>
    have hmove : move (.quoted count false) outer '"' (List.replicate count '#' ++ cs) =
        .next count outer := by
      unfold move quotedMove
      dsimp only
      rw [if_neg (hnoescape _), if_pos rfl, if_neg Bool.false_ne_true, if_pos hsigns]
    have htext : closer count false ++ cs = '"' :: (List.replicate count '#' ++ cs) := rfl
    rw [htext, run_of_next hmove, drop_replicate_append, length_closer, Nat.add_assoc]
    rfl

theorem run_plain {c : Char} {cs : List Char} (hescape : ¬escaper count <+: c :: cs)
    (hcloser : ¬closer count multiline <+: c :: cs)
    (hline : multiline = false → Trivia.isLineBreak c = false) :
    run (.quoted count multiline :: outer) seen (c :: cs) =
      run (.quoted count multiline :: outer) (seen + 1) cs := by
  have hmove : move (.quoted count multiline) outer c cs =
      .next 0 (.quoted count multiline :: outer) := by
    rw [escaper_prefix_iff] at hescape
    unfold move quotedMove
    dsimp only
    rw [if_neg hescape]
    cases multiline with
    | true =>
      rw [closer_multiline_prefix_iff] at hcloser
      have hmany : ¬(Trivia.isLineBreak c = true ∧ (!true) = true) := fun h =>
        Bool.false_ne_true h.2
      rw [if_pos rfl, if_neg hcloser, if_neg hmany, ite_self]
    | false =>
      rw [closer_oneLine_prefix_iff] at hcloser
      rw [hline rfl, if_neg Bool.false_ne_true]
      by_cases hquote : c = '"'
      · rw [if_pos hquote, if_neg fun h => hcloser ⟨hquote, h⟩]
      · rw [if_neg hquote, if_neg fun h => Bool.false_ne_true h.1]
  exact run_of_next hmove seen

/-- An escape takes the character behind it, which opens an interpolation if it
is a parenthesis. -/
theorem run_escaper (c : Char) (cs : List Char) :
    run (.quoted count multiline :: outer) seen (escaper count ++ c :: cs) =
      run (if c = '(' then .group :: .quoted count multiline :: outer
        else .quoted count multiline :: outer) (seen + (count + 2)) cs := by
  have hmove : move (.quoted count multiline) outer '\\' (List.replicate count '#' ++ c :: cs) =
      .next (count + 1) (if c = '(' then .group :: .quoted count multiline :: outer
        else .quoted count multiline :: outer) := by
    unfold move quotedMove
    dsimp only
    rw [if_pos ⟨rfl, le_hashes_replicate_append count _⟩, drop_replicate_append]
    by_cases hc : c = '('
    · subst hc
      rfl
    · rw [if_neg hc]
      split
      · contradiction
      next heq => exact absurd (List.cons.inj heq).1 hc
      · rfl
  have hdrop : (List.replicate count '#' ++ c :: cs).drop (count + 1) = cs := by
    rw [← List.drop_drop, drop_replicate_append]
    rfl
  rw [escaper, List.cons_append, run_of_next hmove, hdrop]
  congr 1
  omega

/-- There may be nothing for an escape to take. -/
theorem run_escaper_end :
    run (.quoted count multiline :: outer) seen (escaper count ++ []) =
      ⟨seen + (count + 1), false⟩ := by
  have hsigns := le_hashes_replicate_append count []
  have hdrop := drop_replicate_append count []
  rw [List.append_nil] at hsigns hdrop
  have hmove : move (.quoted count multiline) outer '\\' (List.replicate count '#') =
      .next count (.quoted count multiline :: outer) := by
    unfold move quotedMove
    dsimp only
    rw [if_pos ⟨rfl, hsigns⟩, hdrop]
  rw [List.append_nil, escaper, run_of_next hmove, hdrop, run]
  congr 1
  omega

/-- A literal of one line stops at the end of its line. -/
theorem run_lineBreak {c : Char} (h : Trivia.isLineBreak c = true) (cs : List Char) :
    run (.quoted count false :: outer) seen (c :: cs) = ⟨seen, false⟩ := by
  rcases Trivia.isLineBreak_iff.mp h with rfl | rfl
  · exact run_of_stop rfl seen
  · exact run_of_stop rfl seen

/-- What holds neither an escape nor a closing delimiter. -/
theorem run_content {body cs : List Char} (hescape : '\\' ∉ body)
    (hline : multiline = false → ∀ c ∈ body, Trivia.isLineBreak c = false)
    (hcloser : ∀ front c back, body = front ++ c :: back →
      ¬closer count multiline <+: c :: (back ++ cs)) :
    run (.quoted count multiline :: outer) seen (body ++ cs) =
      run (.quoted count multiline :: outer) (seen + body.length) cs := by
  induction body generalizing seen with
  | nil => rfl
  | cons c body ih =>
    rw [List.mem_cons, not_or] at hescape
    have hno : ¬escaper count <+: c :: (body ++ cs) := by
      rw [escaper_prefix_iff]
      exact fun h => hescape.1 h.1.symm
    have hone := fun hm => hline hm c List.mem_cons_self
    rw [List.cons_append, run_plain hno (hcloser [] c body rfl) hone,
      ih hescape.2
        (fun hm d hd => hline hm d (List.mem_cons_of_mem _ hd))
        (fun front d back hbody => hcloser (c :: front) d back (congrArg (c :: ·) hbody)),
      List.length_cons]
    congr 1
    omega

end Quoted

section Group

variable {outer : List Frame} {seen : Nat}

theorem run_groupEnd (cs : List Char) :
    run (.group :: outer) seen (')' :: cs) = run outer (seen + 1) cs := by
  have hmove : move .group outer ')' cs = .next 0 outer := rfl
  exact run_of_next hmove seen

theorem run_nested (cs : List Char) :
    run (.group :: outer) seen ('(' :: cs) = run (.group :: .group :: outer) (seen + 1) cs := by
  have hmove : move .group outer '(' cs = .next 0 (.group :: .group :: outer) := rfl
  exact run_of_next hmove seen

theorem run_ordinary {c : Char} (hc : c ∉ ['(', ')', '"', '#']) (cs : List Char) :
    run (.group :: outer) seen (c :: cs) = run (.group :: outer) (seen + 1) cs := by
  have hmove : move .group outer c cs = .next 0 (.group :: outer) := by
    simp only [List.mem_cons, not_or] at hc
    unfold move groupMove
    dsimp only
    rw [if_neg hc.1, if_neg hc.2.1, if_neg hc.2.2.1, if_neg hc.2.2.2.1]
  exact run_of_next hmove seen

theorem run_signs {count : Nat} (hcount : 0 < count) {cs : List Char}
    (hsign : cs.head? ≠ some '#') (hquote : cs.head? ≠ some '"') :
    run (.group :: outer) seen (List.replicate count '#' ++ cs) =
      run (.group :: outer) (seen + count) cs := by
  obtain ⟨more, rfl⟩ : ∃ more, count = more + 1 := ⟨count - 1, by omega⟩
  have hhashes : hashes (List.replicate more '#' ++ cs) = more := by
    rw [hashes_replicate_append, hashes_of_head_ne hsign, Nat.add_zero]
  have hmove : move .group outer '#' (List.replicate more '#' ++ cs) =
      .next more (.group :: outer) := by
    unfold move groupMove
    dsimp only
    rw [if_neg (by decide), if_neg (by decide), if_neg (by decide), if_pos rfl, hhashes,
      drop_replicate_append]
    split
    · exact absurd rfl hquote
    · rfl
  rw [List.replicate_succ, List.cons_append, run_of_next hmove, drop_replicate_append]
  congr 1
  omega

theorem run_opener {count : Nat} {multiline : Bool} {behind : List Char}
    (h : ¬LooksMultiline multiline behind) :
    run (.group :: outer) seen (opener count multiline ++ behind) =
      run (.quoted count multiline :: .group :: outer)
        (seen + (opener count multiline).length) behind := by
  obtain ⟨more, hquotes⟩ := exists_quotes_eq multiline
  have hlength : (quotes multiline).length = more.length + 1 := by rw [hquotes]; rfl
  cases count with
  | zero =>
    have hmove : move .group outer '"' (more ++ behind) =
        .next more.length (.quoted 0 multiline :: .group :: outer) := by
      have hzero := opening_eq 0 h
      rw [hquotes, List.cons_append] at hzero
      unfold move groupMove
      dsimp only
      rw [if_neg (by decide), if_neg (by decide), if_pos rfl, hzero]
      rfl
    have htext : opener 0 multiline ++ behind = '"' :: (more ++ behind) := by
      rw [opener, hquotes]
      rfl
    rw [htext, run_of_next hmove, List.drop_left, length_opener, hlength]
    congr 1
    omega
  | succ count =>
    have hmove : move .group outer '#'
        (List.replicate count '#' ++ (quotes multiline ++ behind)) =
          .next (count + (more.length + 1)) (.quoted (count + 1) multiline :: .group :: outer) := by
      have hsucc := opening_eq (count + 1) h
      unfold move groupMove
      dsimp only
      rw [if_neg (by decide), if_neg (by decide), if_neg (by decide), if_pos rfl,
        hashes_append_quotes, drop_replicate_append]
      rw [hquotes, List.cons_append] at hsucc ⊢
      simp only [hsucc, List.length_cons]
    rw [opener_succ_append, run_of_next hmove, ← List.drop_drop, drop_replicate_append, ← hlength,
      List.drop_left, length_opener]
    congr 1
    omega

end Group

end Literal

/-! ## Reading a literal -/

open Literal

theorem Trivia.scan?_opener {count : Nat} {multiline : Bool} {behind A : List Char} {a : Char}
    (htext : opener count multiline ++ behind = a :: A) : scan? (a :: A) = none := by
  obtain ⟨more, hquotes⟩ := exists_quotes_eq multiline
  rw [← htext]
  cases count with
  | zero =>
    rw [opener, hquotes]
    rfl
  | succ count =>
    rw [opener_succ_append]
    rfl

theorem Lexeme.scan_opener {count : Nat} {multiline : Bool} {behind A : List Char} {a : Char}
    (h : ¬LooksMultiline multiline behind) (htext : opener count multiline ++ behind = a :: A) :
    scan a A =
      ⟨.stringLiteral,
        (run [.quoted count multiline] (opener count multiline).length behind).length,
        (run [.quoted count multiline] (opener count multiline).length behind).closed⟩ := by
  have hextent := stringExtent_quotes count h
  rw [← length_opener] at hextent
  obtain ⟨more, hquotes⟩ := exists_quotes_eq multiline
  cases count with
  | zero =>
    have htext' : '"' :: (more ++ behind) = a :: A := by
      rw [← htext, opener, hquotes]
      rfl
    obtain ⟨rfl, rfl⟩ := List.cons.inj htext'
    rw [hquotes] at hextent
    rw [← hextent, scan_quote]
    rfl
  | succ count =>
    rw [opener_succ_append] at htext
    obtain ⟨rfl, rfl⟩ := List.cons.inj htext
    have hdrop : (List.replicate count '#' ++ (quotes multiline ++ behind)).drop
        (hashes (List.replicate count '#' ++ (quotes multiline ++ behind))) =
          '"' :: (more ++ behind) := by
      rw [hashes_append_quotes, drop_replicate_append, hquotes]
      rfl
    have hpound := pound_of_drop hdrop
    dsimp only at hpound
    rw [if_pos rfl, hashes_append_quotes, ← List.cons_append, ← hquotes, hextent] at hpound
    exact hpound

section Opener

variable {count taken : Nat} {multiline closed : Bool} {behind : List Char}
  (h : ¬LooksMultiline multiline behind)
  (hrun : run [.quoted count multiline] (opener count multiline).length behind =
    ⟨(opener count multiline).length + taken, closed⟩)

include h hrun

/-- Behind the opening delimiter, a literal takes as many characters as the
automaton does. -/
theorem Token.step_opener (offset : Nat) :
    Token.step offset (opener count multiline ++ behind) =
      .found ⟨[], .stringLiteral, String.ofList (opener count multiline ++ behind.take taken),
        offset, closed⟩ (behind.drop taken) := by
  obtain ⟨len, hlen⟩ : ∃ len, (opener count multiline).length = len + 1 := by
    obtain ⟨more, hquotes⟩ := exists_quotes_eq multiline
    exact ⟨count + more.length, by rw [length_opener, hquotes]; rfl⟩
  obtain ⟨a, A, htext⟩ : ∃ a A, opener count multiline ++ behind = a :: A := by
    cases hopener : opener count multiline with
    | nil =>
      rw [hopener] at hlen
      contradiction
    | cons a A => exact ⟨a, A ++ behind, rfl⟩
  have hscan := Lexeme.scan_opener h htext
  rw [hrun] at hscan
  have htake : a :: A.take (len + taken) = opener count multiline ++ behind.take taken := by
    rw [← List.take_succ_cons, ← htext, Nat.add_right_comm, ← hlen, List.take_length_add_append]
  have hdrop : A.drop (len + taken) = behind.drop taken := by
    rw [← List.drop_succ_cons (a := a), ← htext, Nat.add_right_comm, ← hlen,
      List.drop_length_add_append]
  have hsub : (opener count multiline).length + taken - 1 = len + taken := by omega
  unfold Token.step
  rw [htext, Trivia.gap_of_none (Trivia.scan?_opener htext)]
  unfold Token.behind Token.ofLexeme
  dsimp only
  rw [hscan]
  dsimp only
  rw [hsub, htake, hdrop]
  rfl

theorem Reader.next_opener (t : Token) :
    Reader.next ⟨t, opener count multiline ++ behind⟩ =
      ⟨⟨[], .stringLiteral, String.ofList (opener count multiline ++ behind.take taken), t.stop,
        closed⟩, behind.drop taken⟩ := by
  unfold Reader.next
  dsimp only
  rw [Token.step_opener h hrun]

end Opener

end AnySome
