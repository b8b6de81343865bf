import AnySome.Proofs.Run.Finish
import AnySome.Proofs.TypeGrammar.Sound

/-!
# Types on their own

A text that is read as a type is spelled by all of its tokens: nothing is left
behind the type, and no token lacks its end.

## Main results

* `TypeExpr.parse_eq_ok_iff` — when a text is accepted as a type.
* `TypeExpr.exists_spells_of_parse` — the tokens of such a text spell the type.
-/

namespace AnySome.TypeExpr

open Cursor

/-- The run of the reader of types on a text. -/
def run (source : String) : TypeExpr × Cursor :=
  parser nestingLimit (Cursor.start (TokenStream.scan source))

variable {source : String} {t : TypeExpr}

/-- A text is accepted as a type if it is read to its end without findings. -/
theorem parse_eq_ok_iff : parse source = .ok t ↔
    (run source).2.pending = [] ∧ (run source).2.findings = [] ∧ t = (run source).1 := by
  have hparse : parse source =
      let done := if (run source).2.pending.isEmpty then (run source).2
        else (run source).2.reportHere .trailingToken
      if done.findings.isEmpty then .ok (run source).1
      else .error (ParseError.ofDiagnostics "<type>" source
        (done.findings.map (·.toDiagnostic "<type>"))) := rfl
  rw [hparse]
  dsimp only
  cases hend : (run source).2.pending with
  | nil =>
    rw [List.isEmpty_nil, if_pos rfl]
    cases hfindings : (run source).2.findings with
    | nil => simp [eq_comm]
    | cons f fs => simp
  | cons u us =>
    have hne := findings_reportHere_ne_nil .trailingToken (run source).2
    rw [List.isEmpty_cons, if_neg Bool.false_ne_true, if_neg (by simpa using hne)]
    simp

/-- All tokens of an accepted text spell its type, and the end of the text may
stand behind it. -/
theorem exists_spells_of_parse (h : parse source = .ok t) :
    ∃ e, Spells nestingLimit t ((TokenStream.scan source).pending.map Token.sign) e ∧
      e.Stops (TokenStream.scan source).final.sign := by
  obtain ⟨hend, hfindings, rfl⟩ := parse_eq_ok_iff.mp h
  have hclean := clean_start_of_run (p := parser nestingLimit) hfindings hend
  obtain ⟨T, U, e, hT, hU, hspells, hstops, _⟩ :=
    sound_of_depth nestingLimit hclean.at hfindings
  have hnil : U = [] := hU.pending_eq_nil_iff.mp hend
  subst hnil
  rw [pending_start, List.append_nil] at hT
  rw [final_start] at hstops
  rw [hT]
  exact ⟨e, hspells, hstops⟩

end AnySome.TypeExpr
