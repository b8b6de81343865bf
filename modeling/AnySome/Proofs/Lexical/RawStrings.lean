import AnySome.Proofs.Lexical.Delimiters

/-!
# Raw literals of one line

A raw literal ends at the first quote that has its number of signs behind it,
so it may hold quotes, signs and anything else that does not come to that. But
two quotes behind the first are taken for the opening of a literal of many
lines, and these two may be content: the first of a content that starts with
two quotes, or a content of a single quote and the quote that ends it. Such a
literal goes on until three quotes close it. It still ends where it should if
the content also ends with two quotes, which make three with the closing one.

## Main results

* `Literal.EndsAtFirst.not_prefix` — what ends at the first mark has none that
  starts earlier.
* `Reader.next_raw_iff` — which contents are read up to their end.
-/

namespace AnySome

namespace Literal

/-! ## The first mark -/

/-- In the content with the mark behind it, the first mark is that one. -/
def EndsAtFirst (mark content : List Char) : Prop :=
  ∀ front back, content ++ mark = front ++ mark ++ back → back = []

variable {n : Nat} {mark content : List Char}

theorem endsAtFirst_iff : EndsAtFirst mark content ↔
    ∀ i < content.length, ¬mark <+: (content ++ mark).drop i := by
  constructor
  · rintro h i hi ⟨back, hback⟩
    have hsplit : content ++ mark = (content ++ mark).take i ++ mark ++ back := by
      rw [List.append_assoc, hback, List.take_append_drop]
    have hlength := congrArg List.length hback
    rw [h _ back hsplit] at hlength
    simp only [List.append_nil, List.length_drop, List.length_append] at hlength
    omega
  · intro h front back hsplit
    have hlength := congrArg List.length hsplit
    simp only [List.length_append] at hlength
    by_cases hfront : front.length < content.length
    · refine absurd ⟨back, ?_⟩ (h front.length hfront)
      rw [hsplit, List.append_assoc, List.drop_left]
    · exact List.length_eq_zero_iff.mp (by omega)

instance (mark content : List Char) : Decidable (EndsAtFirst mark content) :=
  decidable_of_iff _ endsAtFirst_iff.symm

/-- No mark starts in the content, whatever follows. -/
theorem EndsAtFirst.not_prefix (h : EndsAtFirst mark content) {front back : List Char} {c : Char}
    (hcontent : content = front ++ c :: back) (r : List Char) :
    ¬mark <+: c :: (back ++ (mark ++ r)) := by
  intro hprefix
  have hlonger : c :: (back ++ mark) <+: c :: (back ++ (mark ++ r)) :=
    ⟨r, by rw [List.cons_append, List.append_assoc]⟩
  have hle : mark.length ≤ (c :: (back ++ mark)).length := by
    simp only [List.length_cons, List.length_append]
    omega
  have hshorter : mark <+: c :: (back ++ mark) :=
    List.prefix_of_prefix_length_le hprefix hlonger hle
  have hdrop : (content ++ mark).drop front.length = c :: (back ++ mark) := by
    rw [hcontent, List.append_assoc, List.drop_left]
    rfl
  have hlt : front.length < content.length := by
    rw [hcontent, List.length_append, List.length_cons]
    omega
  rw [← hdrop] at hshorter
  exact endsAtFirst_iff.mp h front.length hlt hshorter

theorem closer_true (n : Nat) : closer n true = '"' :: '"' :: closer n false := rfl

/-- Between two quotes on either side, a content that ends at its first quote
ends at its first three. -/
theorem EndsAtFirst.within_quotes {d : List Char}
    (h : EndsAtFirst (closer n false) (['"', '"'] ++ d ++ ['"', '"'])) :
    EndsAtFirst (closer n true) d := by
  intro front back hsplit
  refine h (['"', '"'] ++ front ++ ['"', '"']) back ?_
  have hleft : ['"', '"'] ++ d ++ ['"', '"'] ++ closer n false =
      ['"', '"'] ++ (d ++ closer n true) := by
    simp [closer_true]
  have hright : ['"', '"'] ++ front ++ ['"', '"'] ++ closer n false ++ back =
      ['"', '"'] ++ (front ++ closer n true ++ back) := by
    simp [closer_true]
  rw [hleft, hright, hsplit]

/-! ## Three quotes where one would do -/

/-- Three quotes do not start in the delimiter of a raw literal of one line. -/
theorem not_closer_prefix_of_closer (hn : 0 < n) {front back : List Char} {c : Char}
    (hcloser : closer n false = front ++ c :: back) (r : List Char) :
    ¬closer n true <+: c :: (back ++ r) := by
  obtain ⟨k, rfl⟩ : ∃ k, n = k + 1 := ⟨n - 1, by omega⟩
  have hquote : closer (k + 1) false = '"' :: '#' :: List.replicate k '#' := rfl
  rw [hquote] at hcloser
  rw [closer_true, List.cons_prefix_cons]
  rintro ⟨rfl, hnext⟩
  cases front with
  | nil =>
    -- a sign follows the quote
    obtain rfl := (List.cons.inj hcloser).2
    rw [List.cons_append, List.cons_prefix_cons] at hnext
    exact absurd hnext.1 (by decide)
  | cons d front =>
    have hsigns : List.replicate (k + 1) '#' = front ++ '"' :: back := (List.cons.inj hcloser).2
    have hmem : '"' ∈ List.replicate (k + 1) '#' := by
      rw [hsigns]
      exact List.mem_append_right _ List.mem_cons_self
    exact absurd (List.eq_of_mem_replicate hmem) (by decide)

/-- A content that starts with two quotes and does not end with two more holds
no three quotes that would close it. -/
theorem not_closer_prefix_of_content (hn : 0 < n) {d : List Char}
    (hfirst : EndsAtFirst (closer n false) (['"', '"'] ++ d)) (hend : ∀ e, d ≠ e ++ ['"', '"'])
    {front back : List Char} {c : Char} (hd : d = front ++ c :: back) (r : List Char) :
    ¬closer n true <+: c :: (back ++ (closer n false ++ r)) := by
  rw [closer_true, List.cons_prefix_cons]
  rintro ⟨rfl, hprefix⟩
  cases back with
  | nil =>
    -- the second quote ends the literal, and a sign follows it
    obtain ⟨k, rfl⟩ : ∃ k, n = k + 1 := ⟨n - 1, by omega⟩
    have hthird : closer (k + 1) false <+: '#' :: (List.replicate k '#' ++ r) :=
      (List.cons_prefix_cons.mp hprefix).2
    exact absurd (List.cons_prefix_cons.mp hthird).1 (by decide)
  | cons y back =>
    rw [List.cons_append, List.cons_prefix_cons] at hprefix
    obtain ⟨rfl, hthird⟩ := hprefix
    cases back with
    | nil => exact hend front hd
    | cons z back =>
      have hsplit : ['"', '"'] ++ d = (['"', '"'] ++ front ++ ['"', '"']) ++ z :: back := by
        rw [hd]
        simp
      exact hfirst.not_prefix hsplit r hthird

/-! ## What the automaton makes of it -/

/-- The raw literal of one line with `n` signs and this content. -/
def raw (n : Nat) (content : List Char) : List Char :=
  opener n false ++ content ++ closer n false

/-- The content of a raw literal of one line. -/
structure IsRaw (n : Nat) (content : List Char) : Prop where
  pos : 0 < n
  noEscape : '\\' ∉ content
  noReturn : '\r' ∉ content
  noFeed : '\n' ∉ content
  first : EndsAtFirst (closer n false) content

theorem isRaw_iff : IsRaw n content ↔ 0 < n ∧ '\\' ∉ content ∧ '\r' ∉ content ∧
    '\n' ∉ content ∧ EndsAtFirst (closer n false) content :=
  ⟨fun h => ⟨h.pos, h.noEscape, h.noReturn, h.noFeed, h.first⟩,
    fun h => ⟨h.1, h.2.1, h.2.2.1, h.2.2.2.1, h.2.2.2.2⟩⟩

instance (n : Nat) (content : List Char) : Decidable (IsRaw n content) :=
  decidable_of_iff _ isRaw_iff.symm

namespace IsRaw

variable (h : IsRaw n content)

include h

theorem not_looksMultiline (hone : content ≠ ['"']) (htwo : ¬['"', '"'] <+: content)
    (r : List Char) : ¬LooksMultiline false (content ++ (closer n false ++ r)) := by
  rintro ⟨-, hprefix⟩
  cases content with
  | nil =>
    -- a sign follows the closing quote
    obtain ⟨k, rfl⟩ : ∃ k, n = k + 1 := ⟨n - 1, by have := h.pos; omega⟩
    have hsign : ['"'] <+: '#' :: (List.replicate k '#' ++ r) :=
      (List.cons_prefix_cons.mp hprefix).2
    exact absurd (List.cons_prefix_cons.mp hsign).1 (by decide)
  | cons c content =>
    rw [List.cons_append, List.cons_prefix_cons] at hprefix
    obtain ⟨rfl, hprefix⟩ := hprefix
    cases content with
    | nil => exact hone rfl
    | cons d content =>
      obtain ⟨rfl, -⟩ := List.cons_prefix_cons.mp hprefix
      exact htwo ⟨content, rfl⟩

theorem oneLine {c : Char} (hc : c ∈ content) : Trivia.isLineBreak c = false := by
  have hfeed : c ≠ '\n' := fun heq => h.noFeed (heq ▸ hc)
  have hreturn : c ≠ '\r' := fun heq => h.noReturn (heq ▸ hc)
  simp [Trivia.isLineBreak, hfeed, hreturn]

theorem run_oneLine (seen : Nat) (r : List Char) :
    run [.quoted n false] seen (content ++ (closer n false ++ r)) =
      ⟨seen + (content ++ closer n false).length, true⟩ := by
  rw [run_content h.noEscape (fun _ _ => h.oneLine)
    (fun _ _ _ hsplit => h.first.not_prefix hsplit r), run_closer, run, List.length_append,
    Nat.add_assoc]

end IsRaw

theorem IsRaw.run_multiline {d : List Char} (h : IsRaw n (['"', '"'] ++ d ++ ['"', '"']))
    (seen : Nat) (r : List Char) :
    run [.quoted n true] seen (d ++ (closer n true ++ r)) =
      ⟨seen + (d ++ closer n true).length, true⟩ := by
  have hescape : '\\' ∉ d := fun hd => h.noEscape (by simp [hd])
  rw [run_content hescape (fun htrue => absurd htrue (by decide))
    (fun _ _ _ hsplit => h.first.within_quotes.not_prefix hsplit r), run_closer, run,
    List.length_append, Nat.add_assoc]

/-- The quote that should end the literal is taken for the last of three, and
its signs for content. -/
theorem run_signs_open (hn : 0 < n) (seen : Nat) (r : List Char) :
    run [.quoted n true] seen (List.replicate n '#' ++ r) =
      run [.quoted n true] (seen + (List.replicate n '#').length) r := by
  refine run_content ?_ (fun htrue => absurd htrue (by decide)) ?_
  · exact fun hc => absurd (List.eq_of_mem_replicate hc) (by decide)
  · intro front c back hsplit
    have hcloser : closer n false = ('"' :: front) ++ c :: back := congrArg ('"' :: ·) hsplit
    exact not_closer_prefix_of_closer hn hcloser r

/-- The delimiter that should end the literal is taken for content. -/
theorem IsRaw.run_content_open {d : List Char} (h : IsRaw n (['"', '"'] ++ d))
    (hend : ∀ e, d ≠ e ++ ['"', '"']) (seen : Nat) (r : List Char) :
    run [.quoted n true] seen (d ++ closer n false ++ r) =
      run [.quoted n true] (seen + (d ++ closer n false).length) r := by
  refine run_content ?_ (fun htrue => absurd htrue (by decide)) ?_
  · intro hmem
    have hd : '\\' ∉ d := fun hd => h.noEscape (List.mem_append_right _ hd)
    simp [closer, quotes, hd] at hmem
  · intro front c back hsplit
    rcases List.append_eq_append_iff.mp hsplit with ⟨e, -, hcloser⟩ | ⟨e, hd, htail⟩
    · exact not_closer_prefix_of_closer h.pos hcloser r
    · cases e with
      | nil =>
        have hcloser : closer n false = [] ++ c :: back := htail.symm
        exact not_closer_prefix_of_closer h.pos hcloser r
      | cons c' e =>
        obtain ⟨rfl, hback⟩ : c = c' ∧ back = e ++ closer n false := List.cons.inj htail
        rw [hback, List.append_assoc]
        exact not_closer_prefix_of_content h.pos h.first hend hd r

end Literal

/-! ## Reading a raw literal -/

namespace Reader

open Literal

/-- A literal that the automaton passes without closing it is not read up to
there. -/
theorem next_ne_of_run (t : Token) {n : Nat} {passed r : List Char}
    (hrun : run [.quoted n true] (opener n true).length (passed ++ r) =
      run [.quoted n true] ((opener n true).length + passed.length) r) (text : String) :
    Reader.next ⟨t, opener n true ++ (passed ++ r)⟩ ≠
      ⟨⟨[], .stringLiteral, text, t.stop, true⟩, r⟩ := by
  generalize hextent : run [.quoted n true] ((opener n true).length + passed.length) r = e at hrun
  have hlt : e.closed = true → (opener n true).length + passed.length < e.length := by
    rw [← hextent]
    exact lt_length_run
  have hle := length_run_le [.quoted n true] ((opener n true).length + passed.length) r
  have hge := le_length_run [.quoted n true] ((opener n true).length + passed.length) r
  rw [hextent] at hle hge
  obtain ⟨taken, htaken⟩ : ∃ taken, e.length = (opener n true).length + taken :=
    ⟨e.length - (opener n true).length, by omega⟩
  have he : e = ⟨(opener n true).length + taken, e.closed⟩ := by rw [← htaken]
  rw [he] at hrun
  have hopen : ¬LooksMultiline true (passed ++ r) := fun h => absurd h.1 (by decide)
  rw [next_opener hopen hrun t]
  intro heq
  have hclosed : e.closed = true := congrArg (fun reader : Reader => reader.token.closed) heq
  have hrest := congrArg (fun reader : Reader => reader.rest.length) heq
  simp only [List.length_drop, List.length_append] at hrest
  have := hlt hclosed
  omega

section Raw

variable {n : Nat} {content : List Char} (t : Token) (r : List Char)

theorem next_raw_oneLine (h : IsRaw n content) (hone : content ≠ ['"'])
    (htwo : ¬['"', '"'] <+: content) :
    Reader.next ⟨t, raw n content ++ r⟩ =
      ⟨⟨[], .stringLiteral, String.ofList (raw n content), t.stop, true⟩, r⟩ := by
  have hnext := next_opener (h.not_looksMultiline hone htwo r)
    (h.run_oneLine (opener n false).length r) t
  rw [← List.append_assoc content, List.take_left, List.drop_left] at hnext
  rw [raw, List.append_assoc _ content, List.append_assoc]
  exact hnext

theorem next_raw_multiline {d : List Char} (h : IsRaw n (['"', '"'] ++ d ++ ['"', '"'])) :
    Reader.next ⟨t, raw n (['"', '"'] ++ d ++ ['"', '"']) ++ r⟩ =
      ⟨⟨[], .stringLiteral, String.ofList (raw n (['"', '"'] ++ d ++ ['"', '"'])), t.stop,
        true⟩, r⟩ := by
  have hopen : ¬LooksMultiline true (d ++ (closer n true ++ r)) :=
    fun hlooks => absurd hlooks.1 (by decide)
  have hnext := next_opener hopen (h.run_multiline (opener n true).length r) t
  rw [← List.append_assoc d, List.take_left, List.drop_left] at hnext
  have htext : raw n (['"', '"'] ++ d ++ ['"', '"']) = opener n true ++ (d ++ closer n true) := by
    simp [raw, opener, closer, quotes]
  rw [htext, List.append_assoc]
  exact hnext

theorem next_raw_quote_ne (h : IsRaw n ['"']) (text : String) :
    Reader.next ⟨t, raw n ['"'] ++ r⟩ ≠ ⟨⟨[], .stringLiteral, text, t.stop, true⟩, r⟩ := by
  have htext : raw n ['"'] ++ r = opener n true ++ (List.replicate n '#' ++ r) := by
    simp [raw, opener, closer, quotes]
  rw [htext]
  exact next_ne_of_run t (run_signs_open h.pos _ r) text

theorem next_raw_open_ne {d : List Char} (h : IsRaw n (['"', '"'] ++ d))
    (hend : ∀ e, d ≠ e ++ ['"', '"']) (text : String) :
    Reader.next ⟨t, raw n (['"', '"'] ++ d) ++ r⟩ ≠
      ⟨⟨[], .stringLiteral, text, t.stop, true⟩, r⟩ := by
  have htext : raw n (['"', '"'] ++ d) ++ r = opener n true ++ ((d ++ closer n false) ++ r) := by
    simp [raw, opener, quotes]
  rw [htext]
  exact next_ne_of_run t (h.run_content_open hend _ r) text

/-- A raw literal of one line is read as one token that ends with it exactly if
its content is not a single quote and, where it starts with two quotes, ends
with two more. -/
theorem next_raw_iff (h : IsRaw n content) :
    Reader.next ⟨t, raw n content ++ r⟩ =
        ⟨⟨[], .stringLiteral, String.ofList (raw n content), t.stop, true⟩, r⟩ ↔
      content ≠ ['"'] ∧
        (['"', '"'] <+: content → ∃ d, content = ['"', '"'] ++ d ++ ['"', '"']) := by
  constructor
  · intro hnext
    constructor
    · rintro rfl
      exact next_raw_quote_ne t r h _ hnext
    · rintro ⟨d, rfl⟩
      by_cases hend : ∃ e, d = e ++ ['"', '"']
      · obtain ⟨e, rfl⟩ := hend
        exact ⟨e, (List.append_assoc ..).symm⟩
      · exact absurd hnext (next_raw_open_ne t r h (fun e he => hend ⟨e, he⟩) _)
  · rintro ⟨hone, htwo⟩
    by_cases hquotes : ['"', '"'] <+: content
    · obtain ⟨d, rfl⟩ := htwo hquotes
      exact next_raw_multiline t r h
    · exact next_raw_oneLine t r h hone hquotes

end Raw

/-- A quote with too few signs behind it is content. -/
theorem next_raw_of_fewer_signs :
    IsRaw 2 ['a', '"', '#', 'b'] ∧
      Reader.next ⟨⟨[], .dot, ".", 0, true⟩, raw 2 ['a', '"', '#', 'b'] ++ ['.']⟩ =
        ⟨⟨[], .stringLiteral, "##\"a\"#b\"##", 1, true⟩, ['.']⟩ := by
  have hraw : IsRaw 2 ['a', '"', '#', 'b'] := by decide
  have hquotes : ¬['"', '"'] <+: ['a', '"', '#', 'b'] := by decide
  exact ⟨hraw, (next_raw_iff ⟨[], .dot, ".", 0, true⟩ ['.'] hraw).mpr
    ⟨by decide, fun h => absurd h hquotes⟩⟩

/-- A single quote between signs is taken for the last of three. -/
theorem raw_quote_is_open :
    IsRaw 1 ['"'] ∧
      Reader.next ⟨⟨[], .unknown, "", 0, true⟩, raw 1 ['"']⟩ =
        ⟨⟨[], .stringLiteral, "#\"\"\"#", 0, false⟩, []⟩ := by
  have hopen : ¬LooksMultiline true ['#'] := by decide
  have hrun : run [.quoted 1 true] (opener 1 true).length ['#'] =
      ⟨(opener 1 true).length + 1, false⟩ := by
    have hsigns := run_signs_open (by decide : 0 < 1) (opener 1 true).length []
    rw [run] at hsigns
    exact hsigns
  exact ⟨by decide, next_opener hopen hrun ⟨[], .unknown, "", 0, true⟩⟩

end Reader

end AnySome
