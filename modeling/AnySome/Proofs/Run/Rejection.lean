import AnySome.Proofs.Rewrite.Reread
import AnySome.Proofs.TypeGrammar.Alone

/-!
# Texts with a token that has no end

A token is looked at when it becomes the current one. What is found in a
lookahead is forgotten with it, and of two problems at one place only the
first is kept; still no token without an end is missed. A cursor goes back
only to where it was before, so a run meets again every token that it has seen
ahead, and it does not matter which of the problems at a place is kept.

A file is read to its end, so each of its unterminated tokens, the one at the
end of the text included, is the place of one of the problems. A text that is
not read to its end as a type is rejected for that.

## Main results

* `Cursor.Leads.marks` — a run marks every unterminated token that it passes.
* `TokenStream.rejected_of_unterminated` — a text with an unterminated token is
  rejected, as a file and as a type.
-/

namespace AnySome

open AnySome.Cursor AnySome.Parser

namespace Cursor

/-- The token has an end, or it is known to have none. -/
def Settles (c : Cursor) (t : Token) : Prop := t.isUnterminated = true → c.Marks t

/-- The current token is settled as soon as it is looked at. -/
theorem settles_checkTerminated (c : Cursor) : c.checkTerminated.Settles c.current := by
  intro hopen
  rw [checkTerminated, if_pos hopen]
  exact marks_report _ _ _ _

theorem Settles.leads {c d : Cursor} {t : Token} (h : c.Settles t) (k : Leads c d) :
    d.Settles t := by
  intro hopen
  exact (h hopen).leads k

/-- A step settles the token that it leads to. -/
theorem settles_advance {c : Cursor} (h : c.Settles c.current) :
    c.advance.Settles c.advance.current := by
  cases hp : c.pending with
  | nil =>
    rw [advance_of_pending_nil hp]
    exact h
  | cons t ts =>
    unfold advance
    split
    next hnil => rw [hp] at hnil; contradiction
    · rw [current_checkTerminated]
      exact settles_checkTerminated _

/-- A run marks every unterminated token that it passes, and the one at which
it ends. -/
theorem Leads.marks {c d : Cursor} (h : Leads c d) (hc : c.Settles c.current) :
    d.Settles d.current ∧ ∃ ts, c.pending = ts ++ d.pending ∧ ∀ t ∈ ts, d.Settles t := by
  induction h with
  | refl => exact ⟨hc, [], rfl, by simp⟩
  | @advance d _ ih =>
    obtain ⟨hcurrent, ts, hts, hsettled⟩ := ih
    have hstep : Leads d d.advance := Leads.refl.advance
    refine ⟨settles_advance hcurrent, ?_⟩
    cases hp : d.pending with
    | nil =>
      rw [advance_of_pending_nil hp]
      exact ⟨ts, hts, hsettled⟩
    | cons t us =>
      refine ⟨ts ++ [t], by simp [hts, hp], ?_⟩
      intro u hu
      rcases List.mem_append.mp hu with hu | hu
      · exact (hsettled u hu).leads hstep
      · rw [List.mem_singleton.mp hu, ← current_of_cons hp]
        exact hcurrent.leads hstep
  | @report d start stop fault _ ih =>
    obtain ⟨hcurrent, ts, hts, hsettled⟩ := ih
    have hstep : Leads d (d.report start stop fault) := Leads.refl.report start stop fault
    refine ⟨?_, ts, by simpa using hts, fun t ht => (hsettled t ht).leads hstep⟩
    have hcur : (d.report start stop fault).current = d.current := by
      rw [current, pending_report, hstep.final_eq]
      rfl
    rw [hcur]
    exact hcurrent.leads hstep

/-- A run over a whole text marks all of its unterminated tokens. -/
theorem settles_of_run {p : Parser α} [Steady p] {text : String}
    (hend : (p (start (TokenStream.scan text))).2.pending = []) {t : Token}
    (ht : t ∈ (TokenStream.scan text).toList) :
    (p (start (TokenStream.scan text))).2.Settles t := by
  have hleads := Steady.leads (p := p) (start (TokenStream.scan text))
  have hfirst : (start (TokenStream.scan text)).Settles (start (TokenStream.scan text)).current := by
    rw [start, current_checkTerminated]
    exact settles_checkTerminated _
  obtain ⟨hlast, ts, hts, hpassed⟩ := hleads.marks hfirst
  rw [hend, List.append_nil, pending_start] at hts
  rcases List.mem_append.mp ht with hpending | hfinal
  · exact hpassed t (by rwa [← hts])
  · rw [current, hend, hleads.final_eq, final_start] at hlast
    rw [List.mem_singleton.mp hfinal]
    exact hlast

end Cursor

/-! ## Rejection -/

theorem SourceFile.pending_run (text : String) : (run text).2.pending = [] := by
  apply Declaration.pending_parser
  intro t ht
  rw [pending_start] at ht
  exact TokenStream.kind_ne_of_mem_scanFrom ht

/-- Every finding about a file is one of the diagnostics of its rejection. -/
theorem SourceFile.parse_error_of_finding {f : Finding} {text : String} (name : String)
    (hf : f ∈ (run text).2.findings) :
    ∃ e, parse name text = .error e ∧ f.toDiagnostic name ∈ e.diagnostics := by
  rw [parse_eq, if_neg (List.ne_nil_of_mem hf)]
  exact ⟨_, rfl, List.mem_map_of_mem hf⟩

/-- A text with an unterminated token, wherever it stands, is rejected: as a
file with a diagnostic at the place of that token, and as a type. -/
theorem TokenStream.rejected_of_unterminated {text : String} {t : Token}
    (ht : t ∈ (scan text).toList) (hopen : t.isUnterminated = true) (name : String) :
    (∃ e, SourceFile.parse name text = .error e ∧ ∃ d ∈ e.diagnostics, d.start = t.start) ∧
      ∃ e, TypeExpr.parse text = .error e := by
  constructor
  · obtain ⟨f, hf, hstart⟩ := settles_of_run (SourceFile.pending_run text) ht hopen
    obtain ⟨e, he, hmem⟩ := SourceFile.parse_error_of_finding name hf
    exact ⟨e, he, _, hmem, hstart⟩
  · cases hparse : TypeExpr.parse text with
    | error e => exact ⟨e, rfl⟩
    | ok type =>
      obtain ⟨hend, hfindings, -⟩ := TypeExpr.parse_eq_ok_iff.mp hparse
      obtain ⟨f, hf, -⟩ :=
        settles_of_run (p := TypeExpr.parser TypeExpr.nestingLimit) hend ht hopen
      rw [show (TypeExpr.parser _ _).2.findings = [] from hfindings] at hf
      contradiction

/-- A string without an end in a default value, which is skipped. -/
theorem TokenStream.rejected_of_unterminated_default :
    (∃ e, SourceFile.parse "f" "func f(a: P = g(\"a\n)) {}" = .error e ∧
        ∃ d ∈ e.diagnostics, d.start = 16) ∧
      ∃ e, TypeExpr.parse "func f(a: P = g(\"a\n)) {}" = .error e :=
  rejected_of_unterminated (t := ⟨[], .stringLiteral, "\"a", 16, false⟩)
    (by decide +kernel) (by decide) "f"

end AnySome
