import Mathlib.Data.List.Forall2
import AnySome.Proofs.LineEnds.Gaps
import AnySome.Proofs.Rewrite.Splice

/-!
# Tokens with other line ends

A token of the conversion of a text is the conversion of a token: it is of the
same kind, answers in the same way whether it is separated and on a new line,
and its places are moved. That holds up to the first token without an end,
which takes other characters in the two texts; but there both texts are known
to be wrong.

## Main results

* `Lexeme.scan_crlf` — what stands at a place.
* `TokenStream.scan_crlf` — the tokens of a text.
-/

namespace AnySome

open Text

namespace Lexeme

/-! ## One token -/

/-- What stands at the front of `cs`, and what stands at the front of its
conversion. -/
structure Converts (cs : List Char) (l l' : Lexeme) : Prop where
  kind_eq : l'.kind = l.kind
  closed_eq : l'.closed = l.closed
  length_eq : l.closed = true → l'.length = (crlfChars (cs.take l.length)).length
  inLine : l.closed = true → l.kind.isName = true → '\n' ∉ cs.take l.length

theorem Converts.of_written {cs : List Char} {l l' : Lexeme} (h : Written lineEnds cs l l')
    (hline : l.kind.isName = true → '\n' ∉ cs.take l.length) : Converts cs l l' := by
  have hlength := h.length_eq
  rw [write_lineEnds] at hlength
  exact ⟨h.kind_eq, h.closed_eq, fun _ => hlength, fun _ => hline⟩

theorem Converts.of_inLine {cs : List Char} {l : Lexeme} (hline : '\n' ∉ cs.take l.length)
    (hlength : l.length ≤ cs.length) : Converts cs l l := by
  refine ⟨rfl, rfl, fun _ => ?_, fun _ _ => hline⟩
  rw [crlfChars_eq_self hline, List.length_take, Nat.min_eq_left hlength]

theorem Converts.of_open {cs : List Char} {l l' : Lexeme} (hkind : l'.kind = l.kind)
    (h : l.closed = false) (h' : l'.closed = false) : Converts cs l l' := by
  refine ⟨hkind, by rw [h, h'], fun hclosed => ?_, fun hclosed => ?_⟩
  · rw [h] at hclosed
    contradiction
  · rw [h] at hclosed
    contradiction

/-- What the conversion of a token takes behind its first character. -/
theorem Converts.cut {c : Char} {cs : List Char} {l l' : Lexeme} (h : Converts (c :: cs) l l')
    (hc : c ≠ '\n') (hpos : 0 < l.length) (hclosed : l.closed = true) :
    (crlfChars cs).take (l'.length - 1) = crlfChars (cs.take (l.length - 1)) ∧
      (crlfChars cs).drop (l'.length - 1) = crlfChars (cs.drop (l.length - 1)) := by
  have hlength := h.length_eq hclosed
  rw [List.take_cons hpos, crlfChars_cons hc, List.length_cons] at hlength
  rw [hlength, Nat.add_sub_cancel]
  simp only [← write_lineEnds]
  exact ⟨lineEnds.take_write _ cs, lineEnds.drop_write _ cs⟩

/-! ### Names -/

/-- The name that stands at a place stands in one line. -/
theorem lineFeed_not_mem_scan {c : Char} (hc : c ≠ '\n') (htick : c ≠ '\x60') {cs : List Char}
    (hname : (scan c cs).kind.isName = true) : '\n' ∉ (c :: cs).take (scan c cs).length := by
  have hsingle : '\n' ∉ (c :: cs).take 1 := by simpa using Ne.symm hc
  obtain ⟨f, hform, hscan⟩ := exists_form c
  rw [hscan] at hname ⊢
  cases hform with
  | punctuation => exact hsingle
  | hyphen =>
    dsimp only at hname
    split at hname <;> contradiction
  | point =>
    dsimp only at hname
    split at hname <;> contradiction
  | quote => contradiction
  | pound =>
    rcases kind_pound cs with hkind | hkind | hkind | hkind <;>
      exact absurd hname (by rw [hkind]; decide)
  | backtick => exact absurd rfl htick
  | digit => contradiction
  | sign => exact hsingle
  | name =>
    have htake : cs.take (cs.takeWhile isNamePart).length = cs.takeWhile isNamePart :=
      (List.prefix_iff_eq_take.mp (List.takeWhile_prefix _)).symm
    apply lineFeed_not_mem_take_succ hc
    rw [htake]
    intro hmem
    exact absurd (List.mem_takeWhile_imp hmem) (by decide)
  | unknown => exact hsingle

/-- A name in backticks, or what is taken for one up to the end of its line. -/
theorem backticked_crlf (cs : List Char) :
    Converts ('\x60' :: cs) (backticked cs) (backticked (crlfChars cs)) := by
  obtain ⟨body, rest, rfl, hbody, hrest⟩ := exists_quotedPart cs
  have hline : '\n' ∉ body := fun hmem => absurd (hbody _ hmem) (by decide)
  rw [crlfChars_append, crlfChars_eq_self hline]
  rcases hrest with (rfl | ⟨ds, rfl⟩) | ⟨ds, rfl⟩
  · rw [crlfChars_nil, backticked_of_open hbody (.inl rfl)]
    exact .of_open rfl rfl rfl
  · -- The carriage return is taken for a part of the name.
    have hreturn : ∀ c ∈ body ++ ['\r'], isQuotedPart c = true := by
      intro c hc
      rcases List.mem_append.mp hc with hc | hc
      · exact hbody c hc
      · rw [List.mem_singleton.mp hc]
        rfl
    have hopen := backticked_of_open hreturn (.inr ⟨crlfChars ds, rfl⟩)
    rw [List.append_assoc] at hopen
    rw [crlfChars_lineFeed, backticked_of_open hbody (.inr ⟨ds, rfl⟩),
      show body ++ '\r' :: '\n' :: crlfChars ds = body ++ (['\r'] ++ '\n' :: crlfChars ds) from rfl,
      hopen]
    exact .of_open rfl rfl rfl
  · rw [crlfChars_cons (by decide), backticked_of_closed hbody, backticked_of_closed hbody]
    apply Converts.of_inLine
    · refine lineFeed_not_mem_take_succ (by decide) ?_
      rw [List.take_length_add_append]
      simpa using hline
    · simp

/-- What stands at the front of the conversion of a text. -/
theorem scan_crlf {c : Char} (hc : Trivia.isLineBreak c = false) {cs : List Char}
    (hfree : ¬EscapesLineFeed (c :: cs)) :
    Converts (c :: cs) (scan c cs) (scan c (crlfChars cs)) := by
  have hfeed : c ≠ '\n' := by
    rintro rfl
    contradiction
  by_cases htick : c = '\x60'
  · subst htick
    exact backticked_crlf cs
  · have hwritten := scan_write (code_lineEnds hfeed) hc htick (splitsEscaped_iff.not.mpr hfree)
    rw [List.nil_append, write_lineEnds] at hwritten
    exact .of_written hwritten (lineFeed_not_mem_scan hfeed htick)

end Lexeme

/-! ## Tokens of a text -/

/-- A terminated token of `text` and its conversion in the conversion of
`text`. -/
structure Token.Alike (text : List Char) (t u : Token) : Prop where
  kind_eq : u.kind = t.kind
  text_eq : u.text = crlf t.text
  fullChars_eq : u.fullChars = crlfChars t.fullChars
  isSeparated_eq : u.isSeparated = t.isSeparated
  onNewLine_eq : u.onNewLine = t.onNewLine
  start_eq : u.start = crlfOffset text t.start
  stop_eq : u.stop = crlfOffset text t.stop
  terminated : t.isUnterminated = false
  terminated' : u.isUnterminated = false
  /-- A name stands in one line. -/
  inLine : t.kind.isName = true → '\n' ∉ t.text.toList

/-- The tokens of a text and those of its conversion, all of them terminated. -/
structure TokenStream.Alike (text : List Char) (s s' : TokenStream) : Prop where
  pending : List.Forall₂ (Token.Alike text) s.pending s'.pending
  final : Token.Alike text s.final s'.final

theorem TokenStream.Alike.inLine {text : List Char} {s s' : TokenStream} (h : s.Alike text s') :
    ∀ t ∈ s.pending, t.kind.isName = true → '\n' ∉ t.text.toList :=
  ((List.forall₂_and_left _ _).mp (h.pending.imp fun _ _ htoken => ⟨htoken.inLine, htoken⟩)).1

/-- Some token of the stream has no end. -/
def TokenStream.Broken (s : TokenStream) : Prop := ∃ t ∈ s.toList, t.isUnterminated = true

namespace Trivia

/-- The characters of a gap are converted. -/
theorem gapChars_crlf (cs : List Char) :
    (gap (crlfChars cs)).1.flatMap chars = crlfChars ((gap cs).1.flatMap chars) := by
  have happ := congrArg crlfChars (gap_append cs)
  have happ' := gap_append (crlfChars cs)
  rw [crlfChars_append] at happ
  rw [(gap_crlf cs).rest_eq] at happ'
  exact List.append_cancel_right (happ'.trans happ.symm)

end Trivia

namespace Token

/-- Tokens in gaps that match, with texts of which one is the conversion of the
other. -/
theorem alike_of_matches (front word rest : List Char) {g g' : List Trivia} {k : Kind}
    (hgap : g'.flatMap Trivia.chars = crlfChars (g.flatMap Trivia.chars))
    (hmatches : Trivia.Matches g g') (hclosed : g.any Trivia.isUnclosed = false)
    (hline : k.isName = true → '\n' ∉ word) :
    Token.Alike (front ++ (g.flatMap Trivia.chars ++ (word ++ rest)))
      ⟨g, k, String.ofList word, byteLength front + byteLength (g.flatMap Trivia.chars), true⟩
      ⟨g', k, String.ofList (crlfChars word),
        byteLength (crlfChars front) + byteLength (g'.flatMap Trivia.chars), true⟩ := by
  have hstart := crlfOffset_byteLength (front ++ g.flatMap Trivia.chars) (word ++ rest)
  have hstop := crlfOffset_byteLength (front ++ (g.flatMap Trivia.chars ++ word)) rest
  simp only [crlfChars_append, byteLength_append, List.append_assoc] at hstart hstop
  constructor
  case kind_eq => rfl
  case text_eq => rw [crlf_ofList]
  case fullChars_eq => simp [fullChars, gapChars, hgap]
  case isSeparated_eq => exact congrArg (!·) hmatches.isEmpty_eq
  case onNewLine_eq => exact hmatches.breaksLine_eq
  case start_eq => rw [hgap, hstart]
  case stop_eq =>
    simp only [stop, String.toList_ofList]
    rw [hgap, Nat.add_assoc, Nat.add_assoc, hstop]
  case terminated => simpa [isUnterminated] using hclosed
  case terminated' => simpa [isUnterminated] using hmatches.isUnclosed_eq.trans hclosed
  case inLine => simpa using hline

/-- A token with an end, behind its gap. -/
theorem alike_ofLexeme (front : List Char) {c : Char} {cs tail : List Char} {l l' : Lexeme}
    (hrest : (Trivia.gap cs).2 = c :: tail) (hc : c ≠ '\n') (h : l.Converts (c :: tail) l')
    (hpos : 0 < l.length) (hclosed : l.closed = true)
    (hunclosed : (Trivia.gap cs).1.any Trivia.isUnclosed = false) :
    Token.Alike (front ++ cs)
      (ofLexeme (Trivia.gap cs).1
        (byteLength front + byteLength ((Trivia.gap cs).1.flatMap Trivia.chars)) l c tail)
      (ofLexeme (Trivia.gap (crlfChars cs)).1 (byteLength (crlfChars front) +
        byteLength ((Trivia.gap (crlfChars cs)).1.flatMap Trivia.chars)) l' c (crlfChars tail)) := by
  have happ := Trivia.gap_append cs
  have hline : l.kind.isName = true → '\n' ∉ c :: tail.take (l.length - 1) := by
    intro hname
    have hall := h.inLine hclosed hname
    rwa [List.take_cons hpos] at hall
  have htoken := alike_of_matches front (c :: tail.take (l.length - 1)) (tail.drop (l.length - 1))
    (Trivia.gapChars_crlf cs) (Trivia.gap_crlf cs).matches_gap hunclosed hline
  rw [hrest] at happ
  rw [List.cons_append, List.take_append_drop, happ, crlfChars_cons hc] at htoken
  unfold ofLexeme
  rw [h.kind_eq, h.closed_eq, hclosed, (h.cut hc hpos hclosed).1]
  exact htoken

namespace Step

/-- The token that is found has no end. -/
def IsBroken : Step → Prop
  | finish t | found t _ => t.isUnterminated = true

/-- What is found in `text`, and what is found in its conversion. -/
inductive Converts (text : List Char) : Step → Step → Prop
  | finish {t u : Token} : Token.Alike text t u → Converts text (.finish t) (.finish u)
  | found {t u : Token} {rest : List Char} :
      Token.Alike text t u → Converts text (.found t rest) (.found u (crlfChars rest))

end Step

/-- Behind the last token there is a gap, which may have no end. -/
theorem step_crlf_of_gap_nil (front : List Char) {cs : List Char}
    (hrest : (Trivia.gap cs).2 = []) :
    (step (byteLength front) cs).IsBroken ∧
        (step (byteLength (crlfChars front)) (crlfChars cs)).IsBroken ∨
      Step.Converts (front ++ cs) (step (byteLength front) cs)
        (step (byteLength (crlfChars front)) (crlfChars cs)) := by
  obtain ⟨hbehind, hmatches⟩ := Trivia.gap_crlf cs
  have happ := Trivia.gap_append cs
  rw [hrest] at hbehind happ
  rw [step_of_gap_nil hrest, step_of_gap_nil hbehind]
  cases hclosed : (Trivia.gap cs).1.any Trivia.isUnclosed with
  | true =>
    have hclosed' := hmatches.isUnclosed_eq.trans hclosed
    left
    simp [Step.IsBroken, isUnterminated, endOfText, hclosed, hclosed']
  | false =>
    have hlast := alike_of_matches (k := .endOfFile) front [] [] (Trivia.gapChars_crlf cs)
      hmatches hclosed (by simp)
    rw [List.nil_append, happ] at hlast
    exact .inr (.finish hlast)

theorem step_crlf_of_gap_cons (front : List Char) {c : Char} {cs tail : List Char}
    (hrest : (Trivia.gap cs).2 = c :: tail) (hfree : ¬EscapesLineFeed (c :: tail)) :
    (step (byteLength front) cs).IsBroken ∧
        (step (byteLength (crlfChars front)) (crlfChars cs)).IsBroken ∨
      Step.Converts (front ++ cs) (step (byteLength front) cs)
        (step (byteLength (crlfChars front)) (crlfChars cs)) := by
  obtain ⟨hbehind, hmatches⟩ := Trivia.gap_crlf cs
  have hscan := Trivia.scan?_gap cs
  rw [hrest, Trivia.scan?_eq_none_iff] at hscan
  have hc : c ≠ '\n' := by
    rintro rfl
    exact absurd hscan.1 (by decide)
  have hlexeme := Lexeme.scan_crlf hscan.1 hfree
  have hpos := Lexeme.length_scan_pos c tail
  rw [hrest, crlfChars_cons hc] at hbehind
  rw [step_of_gap_cons hrest, step_of_gap_cons hbehind]
  generalize Lexeme.scan c tail = l at hlexeme hpos ⊢
  generalize Lexeme.scan c (crlfChars tail) = l' at hlexeme ⊢
  by_cases hopen : (!l.closed || (Trivia.gap cs).1.any Trivia.isUnclosed) = true
  · refine .inl ⟨hopen, ?_⟩
    show (!l'.closed || (Trivia.gap (crlfChars cs)).1.any Trivia.isUnclosed) = true
    rw [hlexeme.closed_eq, hmatches.isUnclosed_eq]
    exact hopen
  · rw [Bool.or_eq_true, not_or, Bool.not_eq_true, Bool.not_eq_true, Bool.not_eq_false'] at hopen
    have htoken := alike_ofLexeme front hrest hc hlexeme hpos hopen.1 hopen.2
    rw [(hlexeme.cut hc hpos hopen.1).2]
    exact .inr (.found htoken)

/-- A step finds a token without an end in both texts, or it finds tokens that
are alike. -/
theorem step_crlf (front : List Char) {cs : List Char} (hfree : ¬EscapesLineFeed cs) :
    (step (byteLength front) cs).IsBroken ∧
        (step (byteLength (crlfChars front)) (crlfChars cs)).IsBroken ∨
      Step.Converts (front ++ cs) (step (byteLength front) cs)
        (step (byteLength (crlfChars front)) (crlfChars cs)) := by
  have happ := Trivia.gap_append cs
  cases hrest : (Trivia.gap cs).2 with
  | nil => exact step_crlf_of_gap_nil front hrest
  | cons c tail =>
    apply step_crlf_of_gap_cons front hrest
    intro h
    rw [hrest] at happ
    exact hfree (happ ▸ .of_append _ h)

end Token

namespace TokenStream

theorem broken_of_step {offset : Nat} {cs : List Char} (h : (Token.step offset cs).IsBroken) :
    (scanFrom offset cs).Broken := by
  cases hstep : Token.step offset cs with
  | finish t =>
    rw [hstep] at h
    rw [scanFrom_of_finish hstep]
    exact ⟨t, List.mem_singleton_self t, h⟩
  | found t rest =>
    rw [hstep] at h
    rw [scanFrom_of_found hstep]
    exact ⟨t, List.mem_cons_self, h⟩

theorem Broken.cons {t : Token} {s : TokenStream} (h : s.Broken) :
    Broken ⟨t :: s.pending, s.final⟩ := by
  obtain ⟨u, hu, hopen⟩ := h
  exact ⟨u, List.mem_cons_of_mem t hu, hopen⟩

/-- Reading the rest of a text and of its conversion: both meet a token without
an end, or they give tokens that are alike. -/
theorem scanFrom_crlf (front : List Char) {cs : List Char} (hfree : ¬EscapesLineFeed cs) :
    (scanFrom (byteLength front) cs).Broken ∧
        (scanFrom (byteLength (crlfChars front)) (crlfChars cs)).Broken ∨
      TokenStream.Alike (front ++ cs) (scanFrom (byteLength front) cs)
        (scanFrom (byteLength (crlfChars front)) (crlfChars cs)) := by
  induction hn : cs.length using Nat.strongRecOn generalizing front cs with
  | ind n ih =>
    subst hn
    rcases Token.step_crlf front hfree with ⟨hbroken, hbroken'⟩ | hconverts
    · exact .inl ⟨broken_of_step hbroken, broken_of_step hbroken'⟩
    generalize hstep : Token.step (byteLength front) cs = s at hconverts
    generalize hstep' : Token.step (byteLength (crlfChars front)) (crlfChars cs) = s' at hconverts
    cases hconverts with
    | finish hlast =>
      rw [scanFrom_of_finish hstep, scanFrom_of_finish hstep']
      exact .inr ⟨.nil, hlast⟩
    | @found t u rest htoken =>
      have happ := Token.fullChars_append_of_step_found hstep
      have hstop := Token.stop_of_step_found hstep
      rw [← byteLength_append] at hstop
      have hstop' := htoken.stop_eq
      rw [hstop, ← happ, ← List.append_assoc, crlfOffset_byteLength] at hstop'
      have hnext := ih _ (Token.length_lt_of_step_found hstep) (front ++ t.fullChars)
        (fun h => hfree (happ ▸ .of_append _ h)) rfl
      rw [List.append_assoc, happ] at hnext
      rw [scanFrom_of_found hstep, scanFrom_of_found hstep', hstop, hstop']
      rcases hnext with ⟨hbroken, hbroken'⟩ | halike
      · exact .inl ⟨hbroken.cons, hbroken'.cons⟩
      · exact .inr ⟨.cons htoken halike.pending, halike.final⟩

/-- The tokens of a text and of its conversion: in both is a token without an
end, or the tokens are alike. -/
theorem scan_crlf {text : String} (hfree : ¬EscapesLineFeed text.toList) :
    (scan text).Broken ∧ (scan (crlf text)).Broken ∨
      TokenStream.Alike text.toList (scan text) (scan (crlf text)) := by
  have hhead : (crlf text).toList.head? = some '\ufeff' ↔ text.toList.head? = some '\ufeff' := by
    rw [toList_crlf]
    exact head?_crlfChars_iff (by decide) (by decide)
  unfold scan
  by_cases hmark : text.toList.head? = some '\ufeff'
  · obtain ⟨cs, hcs⟩ := List.head?_eq_some_iff.mp hmark
    rw [body_of_mark hmark, body_of_mark (hhead.mpr hmark), toList_crlf, hcs]
    rw [hcs] at hfree
    exact scanFrom_crlf ['\ufeff'] fun h => hfree (.of_append ['\ufeff'] h)
  · rw [body_of_not_mark hmark, body_of_not_mark (hhead.not.mpr hmark), toList_crlf]
    exact scanFrom_crlf [] hfree

end TokenStream

end AnySome
