import AnySome.Proofs.Lexical.Tiling
import AnySome.Proofs.Rewrite.Order
import AnySome.Proofs.Rewrite.Standalone

/-!
# Types as texts of their own

The reader of types looks past the end of a type: at the gap in front of the
next token, at its kind, at what follows a word. Still, where a type of an
accepted file is cut out of the text, the piece is a text of its own that is
read as the same type.

That comes from two sides. The tokens of the type are read from the piece as
they are from the file, since the last of them is a word, a number or a sign
that ends at the end of a text too. And they spell the type in front of
whatever may stand behind it, of which the end of a text is one case. A piece
that starts with a byte order mark is an exception: at the start of a text the
mark is no part of a name.

## Main results

* `Placed.slice_eq` — a slice from token to token is what they write.
* `SourceFile.slice_reads_as_type` — and they are read as the type.
-/

namespace AnySome

open Cursor Chunk TypeExpr SourceFile

/-! ## Slices of a text -/

theorem Cursor.lastStop_cons (stop : Nat) (t : Token) (ts : List Token) :
    lastStop stop (t :: ts) = ((t :: ts).getLast (List.cons_ne_nil t ts)).stop := by
  rw [lastStop, List.getLast?_eq_some_getLast (List.cons_ne_nil t ts)]
  rfl

/-- The text from the start of one token through the stop of another is what the
tokens from the one to the other write. -/
theorem Placed.slice_eq {text : String} {R Y : List Char} {before ts behind : List Token}
    {t : Token} (h : Placed (Text.byteLength R) (before ++ (t :: ts ++ behind)))
    (htext : text.toList = R ++ (Token.allChars (before ++ (t :: ts ++ behind)) ++ Y))
    (stop : Nat) : Text.slice text t.start (lastStop stop (t :: ts)) = Token.written (t :: ts) := by
  rw [Placed.append_iff, Placed.append_iff] at h
  obtain ⟨-, htokens, -⟩ := h
  have hstart := htokens.1
  have hstop := htokens.lastStop_eq
  let A := R ++ (Token.allChars before ++ t.gapChars)
  let B := t.text.toList ++ Token.allChars ts
  have hA : t.start = Text.byteLength A := by
    rw [hstart]
    simp only [A, Text.byteLength_append]
    omega
  have hB : lastStop stop (t :: ts) = Text.byteLength A + Text.byteLength B := by
    rw [lastStop_cons, ← lastStop_cons _, hstop]
    simp only [A, B, Token.allChars, List.flatMap_cons, Token.fullChars, Text.byteLength_append]
    omega
  have hall : text.toList = A ++ (B ++ (Token.allChars behind ++ Y)) := by
    rw [htext]
    simp [A, B, Token.allChars, Token.fullChars]
  rw [hB, hA, Text.slice_middle hall]
  simp [B, Token.written, Token.allChars]

namespace Segment

variable {s : Segment} {text : String} {K : List Chunk} {Y : List Char}

/-! ## The tokens of a type -/

/-- Signs that spell a type where they are read end with one that ends at the
end of a text too. -/
theorem solidEnd_tokens (h : Lexes (s.tokens.map Token.sign) Y) :
    SolidEnd (s.tokens.map Token.sign) := by
  obtain ⟨T, hT, _⟩ := s.spells.respells h (.same 0 s.ascription.parsed)
  exact hT.solid.congr hT.last.symm

/-- Without the gap in front the tokens of a type are a text of their own. -/
theorem lexes_alone (h : Lexes (s.tokens.map Token.sign) Y) :
    Lexes (regap [] (s.tokens.map Token.sign)) [] := by
  have hsolid := solidEnd_tokens h
  have hsettled : Settled (s.tokens.map Token.sign) := .of_lexes h hsolid
  have hlast : ReadsLast (s.tokens.map Token.sign) [] := hsolid.readsLast .nil
  exact hsettled.regap Trivia.isGap_nil [] (hlast.congr lastOf_regap)

/-! ## The slice of a type -/

/-- The span of a type is that of its tokens, from the start of the first to the
stop of the last. -/
theorem span_ends {offset : Nat} (h : Placed offset (s.guard :: s.tokens)) {t : Token}
    {ts : List Token} (hts : s.tokens = t :: ts) :
    s.ascription.span.start = t.start ∧
      s.ascription.span.stop = lastStop s.guard.stop (t :: ts) := by
  have htokens : Placed s.guard.stop (t :: ts) := hts ▸ h.2.2
  have hlast := htokens.lastStop_eq
  obtain ⟨hstart, hstop⟩ := s.span_eq_of_placed h hts
  constructor
  · rw [hstart]
    exact htokens.1.symm
  · rw [hstop, hlast, hts]

/-- The slice of a type is its tokens as they are written. -/
theorem slice_eq (hcut : Cut (TokenStream.scan text).final.sign K
      (TokenStream.scan text).pending []) (hs : Chunk.typed s ∈ K) :
    s.ascription.span.slice text = Token.written s.tokens ∧
      (∃ t ∈ s.tokens.head?, t.start = s.ascription.span.start) ∧
      ∃ t ∈ s.tokens.getLast?, t.stop = s.ascription.span.stop := by
  obtain ⟨R, hbehind⟩ := behind_start text
  have hchars := hbehind.chars_eq
  have hplaced := hbehind.placed
  obtain ⟨before, behind, hpending, -⟩ := hcut.exists_place hs
  obtain ⟨t, ts, hts⟩ := s.exists_tokens
  have hsplit : (TokenStream.scan text).pending =
      (before ++ [s.guard]) ++ (t :: ts ++ behind) := by
    rw [hpending, hts]
    simp
  have hseg := hplaced
  rw [pending_start, hpending, ← List.cons_append, Placed.append_iff, Placed.append_iff] at hseg
  rw [pending_start, hsplit] at hchars hplaced
  obtain ⟨hstart, hstop⟩ := s.span_ends hseg.2.1 hts
  rw [hts]
  refine ⟨?_, ⟨t, rfl, hstart.symm⟩, ?_⟩
  · unfold Span.slice
    rw [hstart, hstop]
    exact hplaced.slice_eq hchars s.guard.stop
  · rw [hstop, lastStop_cons]
    exact ⟨_, List.getLast?_eq_some_getLast (List.cons_ne_nil t ts), rfl⟩

end Segment

/-! ## Every type of a file -/

namespace SourceFile

variable {name text : String} {file : SourceFile}

/-- The slice that a type of an accepted file covers starts where a token starts
and stops where a token stops, and these tokens are all it holds. Read on its
own it is the type, whatever stands around it in the file. -/
theorem slice_reads_as_type (hparse : parse name text = .ok file) {a : Ascription}
    (ha : a ∈ Declaration.ascriptionsList file.declarations)
    (hmark : (a.span.slice text).toList.head? ≠ some '\ufeff') :
    TypeExpr.parse (a.span.slice text) = .ok a.parsed ∧
      ∃ before ts behind, (TokenStream.scan text).pending = before ++ (ts ++ behind) ∧
        (∃ t ∈ ts.head?, t.start = a.span.start) ∧
        (∃ t ∈ ts.getLast?, t.stop = a.span.stop) ∧
        a.span.slice text = Token.written ts := by
  obtain ⟨hrun, rfl⟩ := parse_eq_ok_iff.mp hparse
  obtain ⟨K, s, hcut, hs, rfl⟩ := exists_chunk_of_mem hrun ha
  obtain ⟨hslice, hfirst, hlast⟩ := Segment.slice_eq hcut hs
  constructor
  · have hpending : (TokenStream.scan text).pending = allTokens K := by
      rw [hcut.tokens_eq, List.append_nil]
    obtain ⟨Y, hY⟩ := lexes_of_mem (lexes_pending (clean_start hrun) hpending) hs
    have hne : s.tokens.map Token.sign ≠ [] := s.spells.shape.ne_nil
    have hchars : (s.ascription.span.slice text).toList =
        (regap [] (s.tokens.map Token.sign)).flatMap Sign.chars := by
      rw [chars_regap hne, Token.written_map_sign, hslice]
      rfl
    rcases parse_of_spells (Segment.lexes_alone hY) hchars hmark (s.spells.regap []) with
      hread | ⟨hlimit, -⟩
    · exact hread
    · have hlevels := s.levels_le
      omega
  · obtain ⟨before, behind, hpending, -⟩ := hcut.exists_place hs
    refine ⟨before ++ [s.guard], s.tokens, behind, ?_, hfirst, hlast, hslice⟩
    rw [hpending]
    simp

/-- Words that are names because of what stands behind them, types in front of a
label and of an effect, and a name that holds a byte order mark. -/
theorem slice_reads_as_type_of_words :
    let text := "func f(any: each, some: (any, each) throws -> some, x: a\ufeffb? = 1) -> any {}"
    let file : SourceFile := ⟨"f", text, (run text).1⟩
    parse "f" text = .ok file ∧
      (Declaration.ascriptionsList file.declarations).map (fun a => a.span.slice text) =
        ["each", "(any, each) throws -> some", "a\ufeffb?", "any"] ∧
      ∀ a ∈ Declaration.ascriptionsList file.declarations,
        TypeExpr.parse (a.span.slice text) = .ok a.parsed := by
  intro text file
  have hparse : parse "f" text = .ok file := parse_eq_ok_iff.mpr ⟨by decide +kernel, rfl⟩
  have hmarks : ∀ a ∈ Declaration.ascriptionsList file.declarations,
      (a.span.slice text).toList.head? ≠ some '\ufeff' := by decide +kernel
  refine ⟨hparse, by decide +kernel, ?_⟩
  intro a ha
  exact (slice_reads_as_type hparse ha (hmarks a ha)).1

end SourceFile

end AnySome
