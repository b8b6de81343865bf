import Mathlib.Data.List.TakeWhile
import AnySome.Proofs.Lexical.RecodedTokens
import AnySome.Proofs.LineEnds.Basic

/-!
# Line ends as a coding

Putting a carriage return in front of every line feed is a coding. A line feed is
none of the characters that literals look for, and the two characters of its
code end a line as it does. So literals, names and block comments reach as far as
before.

The one exception is an escape: it takes the character behind its signs,
whatever that is. Where this is a line feed, the conversion puts a carriage
return in its place and leaves the line feed to be read, so a text must not
escape its line feeds.

## Main results

* `Text.write_lineEnds` — the coding is the conversion.
* `Text.splitsEscaped_iff` — what a text must not escape.
-/

namespace AnySome.Text

/-! ## Escaped line feeds -/

/-- A backslash, with any number of signs `#` behind it, stands in front of a
line feed. -/
def EscapesLineFeed (cs : List Char) : Prop :=
  ∃ front n back, cs = front ++ '\\' :: (List.replicate n '#' ++ '\n' :: back)

namespace EscapesLineFeed

theorem of_append (as : List Char) {bs : List Char} (h : EscapesLineFeed bs) :
    EscapesLineFeed (as ++ bs) := by
  obtain ⟨front, n, back, rfl⟩ := h
  exact ⟨as ++ front, n, back, (List.append_assoc ..).symm⟩

theorem not_nil : ¬EscapesLineFeed [] := by
  rintro ⟨front, n, back, h⟩
  simp at h

theorem cons_iff {c : Char} {cs : List Char} : EscapesLineFeed (c :: cs) ↔
    (c = '\\' ∧ (cs.dropWhile (· == '#')).head? = some '\n') ∨ EscapesLineFeed cs := by
  constructor
  · rintro ⟨front, n, back, h⟩
    cases front with
    | nil =>
      rw [List.nil_append, List.cons.injEq] at h
      refine .inl ⟨h.1, ?_⟩
      rw [h.2, List.dropWhile_append_of_pos (by simp)]
      rfl
    | cons d front =>
      rw [List.cons_append, List.cons.injEq] at h
      exact .inr ⟨front, n, back, h.2⟩
  · rintro (⟨rfl, hhead⟩ | h)
    · obtain ⟨back, hback⟩ := List.head?_eq_some_iff.mp hhead
      have hsplit := List.takeWhile_append_dropWhile (p := (· == '#')) (l := cs)
      have hsigns : cs.takeWhile (· == '#') =
          List.replicate (cs.takeWhile (· == '#')).length '#' :=
        List.eq_replicate_iff.mpr ⟨rfl, fun c hc => by simpa using List.mem_takeWhile_imp hc⟩
      rw [hback, hsigns] at hsplit
      exact ⟨[], _, back, by rw [List.nil_append, hsplit]⟩
    · exact of_append [c] h

instance decide : DecidablePred EscapesLineFeed
  | [] => isFalse not_nil
  | _ :: cs => have := decide cs; decidable_of_iff _ cons_iff.symm

end EscapesLineFeed

/-! ## The coding -/

theorem crlfChars_singleton {c : Char} (h : c ≠ '\n') : crlfChars [c] = [c] :=
  crlfChars_cons h []

theorem mem_crlfChars_singleton {c d : Char} (h : d ∈ crlfChars [c]) :
    d = c ∨ c = '\n' ∧ d = '\r' := by
  by_cases hc : c = '\n'
  · rw [hc, crlfChars_lineFeed, crlfChars_nil] at h
    rcases List.mem_cons.mp h with rfl | h
    · exact .inr ⟨hc, rfl⟩
    · exact .inl ((List.mem_singleton.mp h).trans hc.symm)
  · rw [crlfChars_singleton hc, List.mem_singleton] at h
    exact .inl h

/-- A line feed with a carriage return in front of it, and all others as they
are. -/
def lineEnds : Recoding where
  code c := crlfChars [c]
  code_ne_nil c := by simp
  code_of_telling := by
    rintro c ⟨-, hc⟩
    apply crlfChars_singleton
    rintro rfl
    contradiction
  eq_of_mem := by
    rintro c d h ⟨-, hd⟩
    rcases mem_crlfChars_singleton h with heq | ⟨-, rfl⟩
    · exact heq
    · contradiction
  isLineBreak_eq := by
    intro c d h
    rcases mem_crlfChars_singleton h with rfl | ⟨rfl, rfl⟩
    · rfl
    · rfl

@[simp] theorem write_lineEnds (cs : List Char) : lineEnds.write cs = crlfChars cs := by
  induction cs with
  | nil => rfl
  | cons c cs ih =>
    rw [lineEnds.write_cons, ih]
    exact (crlfChars_append [c] cs).symm

theorem code_lineEnds {c : Char} (h : c ≠ '\n') : lineEnds.code c = [c] := crlfChars_singleton h

/-- What a text must not escape. -/
theorem splitsEscaped_iff {cs : List Char} : lineEnds.SplitsEscaped cs ↔ EscapesLineFeed cs := by
  constructor
  · rintro ⟨front, n, c, back, rfl, -, hcode⟩
    obtain rfl : c = '\n' := by
      by_contra hc
      exact hcode (code_lineEnds hc)
    exact ⟨front, n, back, rfl⟩
  · rintro ⟨front, n, back, rfl⟩
    refine ⟨front, n, '\n', back, rfl, rfl, ?_⟩
    show crlfChars ['\n'] ≠ ['\n']
    decide

end AnySome.Text
