import AnySome.Proofs.Lexical.Delimiters
import AnySome.Proofs.Run.Finish

/-!
# Line breaks in literals of one line

A literal that opens with a single quote should not go on beyond its line, and
the automaton stops where a character of it, or a quote in it, is followed by
the end of the line. But an escape takes the character behind it without
looking at it. So a line break behind a backslash, with the literal's number of
signs between them, is passed over, and the literal may well be closed on a
later line.

That is the only way across. The escapes of a literal can be read off its text
(`Literal.escapes`), an interpolation being an escaped parenthesis. A closed
literal without interpolations holds just the line breaks that it escapes.

## Main results

* `Literal.escapesLineBreaks_of_run` — what the automaton passes before it closes
  the literal.
* `TokenStream.exists_run_of_mem` — a token that opens with one quote is what
  the automaton passed.
* `TokenStream.lineBreaks_of_one_line` — the line breaks of a closed literal of
  one line are those it escapes.
-/

namespace AnySome

namespace Literal

variable {count : Nat} {c : Char} {cs : List Char}

/-! ## Escapes -/

/-- The characters that are escaped in the text of a literal with `count`
signs, in order. -/
def escapes (count : Nat) : List Char → List Char
  | [] => []
  | c :: cs =>
    if c = '\\' ∧ count ≤ hashes cs then
      (cs.drop count).head?.toList ++ escapes count (cs.drop (count + 1))
    else escapes count cs
termination_by cs => cs.length

theorem escapes_escaper (count : Nat) (c : Char) (cs : List Char) :
    escapes count (escaper count ++ c :: cs) = c :: escapes count cs := by
  have hsigns := le_hashes_replicate_append count (c :: cs)
  rw [escaper, List.cons_append, escapes, if_pos ⟨rfl, hsigns⟩, ← List.drop_drop,
    drop_replicate_append]
  rfl

theorem escapes_plain (h : ¬escaper count <+: c :: cs) :
    escapes count (c :: cs) = escapes count cs := by
  rw [escaper_prefix_iff] at h
  rw [escapes, if_neg h]

theorem escapes_of_not_mem (h : '\\' ∉ cs) : escapes count cs = [] := by
  induction cs with
  | nil => rw [escapes]
  | cons c cs ih =>
    rw [List.mem_cons, not_or] at h
    rw [escapes, if_neg fun hc => h.1 hc.1.symm, ih h.2]

/-- The line breaks of the text are those that are escaped in it. -/
def EscapesLineBreaks (count : Nat) (cs : List Char) : Prop :=
  cs.filter Trivia.isLineBreak = (escapes count cs).filter Trivia.isLineBreak

theorem filter_isLineBreak_of_delimiter (h : ∀ c ∈ cs, c = '"' ∨ c = '#' ∨ c = '\\') :
    cs.filter Trivia.isLineBreak = [] := by
  rw [List.filter_eq_nil_iff]
  intro c hc
  rcases h c hc with rfl | rfl | rfl <;> decide

theorem filter_isLineBreak_opener (count : Nat) :
    (opener count false).filter Trivia.isLineBreak = [] := by
  refine filter_isLineBreak_of_delimiter fun c hc => ?_
  rcases List.mem_append.mp hc with hc | hc
  · exact .inr (.inl (List.eq_of_mem_replicate hc))
  · exact .inl (List.mem_singleton.mp hc)

namespace EscapesLineBreaks

theorem closer (count : Nat) : EscapesLineBreaks count (closer count false) := by
  have hplain : ∀ c ∈ Literal.closer count false, c = '"' ∨ c = '#' := by
    intro c hc
    rcases List.mem_cons.mp hc with rfl | hc
    · exact .inl rfl
    · exact .inr (List.eq_of_mem_replicate hc)
  have hno : '\\' ∉ Literal.closer count false := by
    intro hc
    rcases hplain _ hc with h | h <;> cases h
  rw [EscapesLineBreaks, escapes_of_not_mem hno, List.filter_nil]
  refine filter_isLineBreak_of_delimiter fun c hc => ?_
  rcases hplain c hc with h | h
  · exact .inl h
  · exact .inr (.inl h)

theorem plain (hescape : ¬escaper count <+: c :: cs) (hc : Trivia.isLineBreak c = false)
    (h : EscapesLineBreaks count cs) : EscapesLineBreaks count (c :: cs) := by
  rw [EscapesLineBreaks, escapes_plain hescape, List.filter_cons_of_neg (by simp [hc])]
  exact h

theorem escape (c : Char) (h : EscapesLineBreaks count cs) :
    EscapesLineBreaks count (escaper count ++ c :: cs) := by
  have hsigns : (escaper count).filter Trivia.isLineBreak = [] := by
    refine filter_isLineBreak_of_delimiter fun d hd => ?_
    rcases List.mem_cons.mp hd with rfl | hd
    · exact .inr (.inr rfl)
    · exact .inr (.inl (List.eq_of_mem_replicate hd))
  rw [EscapesLineBreaks, escapes_escaper, List.filter_append, hsigns, List.nil_append,
    List.filter_cons, List.filter_cons, h]

end EscapesLineBreaks

/-! ## What the automaton passes -/

/-- What the automaton passes up to the end of a literal of one line escapes its
line breaks, if no parenthesis is escaped in it. -/
theorem escapesLineBreaks_of_run {seen taken : Nat}
    (hrun : run [.quoted count false] seen cs = ⟨seen + taken, true⟩)
    (hparen : '(' ∉ escapes count (cs.take taken)) :
    EscapesLineBreaks count (cs.take taken) := by
  have hclosed := congrArg Extent.closed hrun
  have hextent := congrArg Extent.length hrun
  induction hlen : cs.length using Nat.strongRecOn generalizing cs seen taken with
  | ind len ih =>
  cases cs with
  | nil =>
    rw [run] at hclosed
    contradiction
  | cons c cs =>
    by_cases hescape : escaper count <+: c :: cs
    · obtain ⟨tail, htail⟩ := hescape
      rw [← htail] at hrun hparen hclosed hextent hlen ⊢
      cases tail with
      | nil =>
        rw [run_escaper_end] at hclosed
        contradiction
      | cons d tail =>
        rw [run_escaper] at hrun hclosed hextent
        have hfar := le_length_run (if d = '(' then [.group, .quoted count false]
          else [.quoted count false]) (seen + (count + 2)) tail
        have hlength : (escaper count).length = count + 1 := by simp [escaper]
        obtain ⟨more, rfl⟩ : ∃ more, taken = (escaper count).length + (more + 1) :=
          ⟨taken - (count + 2), by simp only at hextent; omega⟩
        rw [List.take_length_add_append, List.take_succ_cons] at hparen ⊢
        rw [escapes_escaper, List.mem_cons, not_or] at hparen
        rw [if_neg fun heq => hparen.1 heq.symm] at hrun hclosed hextent
        have hsum : seen + ((escaper count).length + (more + 1)) = seen + (count + 2) + more := by
          omega
        rw [hsum] at hrun hextent
        refine .escape d (ih tail.length ?_ hrun hparen.2 hclosed hextent rfl)
        rw [← hlen, List.length_append, List.length_cons]
        omega
    · by_cases hcloser : Literal.closer count false <+: c :: cs
      · obtain ⟨tail, htail⟩ := hcloser
        rw [← htail] at hextent ⊢
        rw [run_closer, run] at hextent
        obtain rfl : taken = (Literal.closer count false).length := by
          simp only at hextent
          omega
        rw [List.take_left]
        exact .closer count
      · cases hbreak : Trivia.isLineBreak c with
        | true =>
          rw [run_lineBreak hbreak] at hclosed
          contradiction
        | false =>
          rw [run_plain hescape hcloser fun _ => hbreak] at hrun hclosed hextent
          have hfar := le_length_run [.quoted count false] (seen + 1) cs
          obtain ⟨more, rfl⟩ : ∃ more, taken = more + 1 :=
            ⟨taken - 1, by simp only at hextent; omega⟩
          have hsum : seen + (more + 1) = seen + 1 + more := by omega
          rw [hsum] at hrun hextent
          rw [List.take_succ_cons] at hparen ⊢
          have hshort : ¬escaper count <+: c :: cs.take more := fun h =>
            hescape (h.trans (List.cons_prefix_cons.mpr ⟨rfl, List.take_prefix more cs⟩))
          rw [escapes_plain hshort] at hparen
          refine .plain hshort hbreak (ih cs.length ?_ hrun hparen hclosed hextent rfl)
          rw [← hlen, List.length_cons]
          omega

end Literal

/-! ## Tokens -/

open Literal

theorem Token.length_ofLexeme (gap : List Trivia) (start : Nat) (c : Char) (tail : List Char) :
    (ofLexeme gap start (Lexeme.scan c tail) c tail).text.toList.length =
      (Lexeme.scan c tail).length := by
  have hle := Lexeme.length_scan_le c tail
  have hpos := Lexeme.length_scan_pos c tail
  simp only [ofLexeme, String.toList_ofList, List.length_cons, List.length_take]
  omega

namespace TokenStream

variable {text : String} {t : Token} {count : Nat} {body : List Char}

/-- A token that opens with one quote is what the automaton passed. -/
theorem exists_run_of_mem (ht : t ∈ (scan text).toList)
    (hopen : t.text.toList = opener count false ++ body) (hone : ¬['"', '"'] <+: body) :
    ∃ behind, body = behind.take body.length ∧
      run [.quoted count false] (opener count false).length behind =
        ⟨(opener count false).length + body.length, t.closed⟩ := by
  rcases List.mem_append.mp ht with hpending | hfinal
  · obtain ⟨gap, start, c, tail, rfl⟩ := exists_lexeme_of_mem_scanFrom hpending
    have hlength := Token.length_ofLexeme gap start c tail
    rw [hopen, List.length_append] at hlength
    obtain ⟨more, htext⟩ : ∃ more, opener count false ++ (body ++ more) = c :: tail := by
      refine ⟨tail.drop ((Lexeme.scan c tail).length - 1), ?_⟩
      rw [← List.append_assoc, ← hopen]
      simp [Token.ofLexeme]
    have hlooks : ¬LooksMultiline false (body ++ more) := by
      rintro ⟨-, hquotes⟩
      -- the token of a literal of many lines shows its three quotes
      obtain ⟨rest, hrest⟩ := hquotes
      have hmany : opener count true ++ rest = c :: tail := by
        rw [← htext, ← hrest]
        simp [opener, quotes]
      have hscan := Lexeme.scan_opener (fun h => absurd h.1 (by decide)) hmany
      have hfar := le_length_run [.quoted count true] (opener count true).length rest
      rw [hscan] at hlength
      have htwo : ['"', '"'].length ≤ body.length := by
        simp only [length_opener, quotes, List.length_cons, List.length_nil] at hlength hfar ⊢
        omega
      exact hone (List.prefix_of_prefix_length_le ⟨rest, hrest⟩ (List.prefix_append body more) htwo)
    have hscan := Lexeme.scan_opener hlooks htext
    refine ⟨body ++ more, List.take_left.symm, ?_⟩
    show _ = (⟨_, (Lexeme.scan c tail).closed⟩ : Extent)
    rw [hlength, hscan]
  · obtain ⟨g, start, hend, -⟩ := final_scanFrom (TokenStream.body text).1 (TokenStream.body text).2
    rw [List.mem_singleton.mp hfinal] at hopen
    have hnil : [] = opener count false ++ body := by
      rw [← hopen]
      exact congrArg (fun u : Token => u.text.toList) hend.symm
    have hlength := congrArg List.length hnil
    rw [List.length_append, length_opener] at hlength
    simp only [quotes, List.length_cons, List.length_nil] at hlength
    omega

/-- **A literal of one line holds the line breaks that it escapes.** Take a
token of any text that opens with `count` signs and one quote, not three, that
has its end, and that holds no interpolation. Its line breaks are those among
its escaped characters, so it holds none if it escapes none. -/
theorem lineBreaks_of_one_line (ht : t ∈ (scan text).toList)
    (hopen : t.text.toList = opener count false ++ body) (hone : ¬['"', '"'] <+: body)
    (hclosed : t.isUnterminated = false) (hparen : '(' ∉ escapes count body) :
    t.text.toList.filter Trivia.isLineBreak = (escapes count body).filter Trivia.isLineBreak := by
  obtain ⟨behind, hbody, hrun⟩ := exists_run_of_mem ht hopen hone
  have hend : t.closed = true := by
    rw [Token.isUnterminated, Bool.or_eq_false_iff, Bool.not_eq_false'] at hclosed
    exact hclosed.1
  rw [hend] at hrun
  rw [hopen, List.filter_append, filter_isLineBreak_opener, List.nil_append]
  rw [hbody] at hparen ⊢
  exact escapesLineBreaks_of_run hrun hparen

/-- An escaped line feed and, behind it, an escape of something else. -/
theorem lineBreaks_of_one_line_raw :
    let t : Token := ⟨[], .stringLiteral, "#\"a\\b\\#\nc\\#\\d\"#", 0, true⟩
    t ∈ (scan "#\"a\\b\\#\nc\\#\\d\"#;").toList ∧
      t.text.toList.filter Trivia.isLineBreak = ['\n'] := by
  intro t
  have ht : t ∈ (scan "#\"a\\b\\#\nc\\#\\d\"#;").toList := by decide +kernel
  have hopen : t.text.toList = opener 1 false ++
      ['a', '\\', 'b', '\\', '#', '\n', 'c', '\\', '#', '\\', 'd', '"', '#'] := by decide +kernel
  have hlines := lineBreaks_of_one_line ht hopen (by decide) (by decide) (by decide +kernel)
  refine ⟨ht, hlines.trans ?_⟩
  decide +kernel

/-- A backslash at the end of the line takes the line feed, and the quote on the
next line ends the literal: it is not flagged. -/
theorem line_feed_in_one_line :
    let t : Token := ⟨[], .stringLiteral, "\"\\\n\"", 0, true⟩
    t ∈ (scan "\"\\\n\"").toList ∧ t.isUnterminated = false ∧
      t.text.toList = opener 0 false ++ ['\\', '\n', '"'] ∧ ¬['"', '"'] <+: ['\\', '\n', '"'] ∧
      '(' ∉ escapes 0 ['\\', '\n', '"'] ∧ '\n' ∈ t.text.toList := by
  decide +kernel

end TokenStream

end AnySome
