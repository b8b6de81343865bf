import AnySome.Proofs.Rewrite.Reread
import AnySome.Proofs.TypeGrammar.Alone

/-!
# Types that are printed and read again

A type that was read has a canonical form, and so has what qualifying makes of
it. Its signs end with the last word or sign of the old text, which ends at the
end of a text too; so they are the signs of the canonical form when it is a text
of its own, and they spell the type. A canonical form that starts with a byte
order mark is an exception: at the start of a text the mark is no part of a
name.

What was read has no more levels in its canonical form than in its text, so it
is read again. What qualifying makes of it may have two more.

## Main results

* `TypeExpr.parse_of_spells` — the text of settled signs, read as a type.
* `TypeExpr.print_reads_back` — canonical forms are read as their types.
-/

namespace AnySome.TypeExpr

open Cursor

/-! ## Texts that are one type -/

/-- Every type may stand in front of the end of a text. -/
theorem Ending.stops_endOfText (e : Ending) : e.Stops ⟨[], .endOfFile, ""⟩ := by
  refine ⟨⟨rfl, ?_⟩, nofun⟩
  cases e with
  | word w => exact ⟨rfl, fun _ => rfl⟩
  | name => rfl
  | tuple => exact ⟨rfl, nofun⟩
  | closed => trivial

/-- A type nested too deeply is the first problem of its text. -/
theorem parse_of_deep {source : String} (h : (run source).2.Deep) :
    ∃ e, parse source = .error e ∧
      e.diagnostics.head?.map Diagnostic.message = some "type is nested too deeply" := by
  let done := if (run source).2.atEnd then (run source).2
    else (run source).2.reportHere .trailingToken
  have hdone : done.Deep := by
    unfold done
    split
    · exact h
    · exact h.leads (Leads.refl.reportHere .trailingToken)
  have hparse : parse source = if done.findings.isEmpty then .ok (run source).1
      else .error (ParseError.ofDiagnostics "<type>" source
        (done.findings.map (·.toDiagnostic "<type>"))) := rfl
  have hne := hdone.findings_ne_nil
  rw [hparse, if_neg (by simpa using hne)]
  obtain ⟨f, hf, hfault⟩ := hdone
  refine ⟨_, rfl, ?_⟩
  show (done.findings.map (·.toDiagnostic "<type>")).head?.map Diagnostic.message = _
  rw [List.head?_map, hf]
  show some f.fault.message = _
  rw [hfault]
  rfl

/-- The signs of a text that has no byte order mark. -/
theorem at_start_of_lexes {text : String} {S : List Sign} (h : Lexes S [])
    (htext : text.toList = S.flatMap Sign.chars) (hmark : text.toList.head? ≠ some '\ufeff') :
    (start (TokenStream.scan text)).At ⟨[], .endOfFile, ""⟩ S := by
  have hbody : (TokenStream.body text).2 = S.flatMap Sign.chars ++ [] := by
    rw [TokenStream.body_of_not_mark hmark, htext, List.append_nil]
  exact at_start (g := []) (Trivia.gap_of_none rfl) rfl hbody h

/-- A text whose signs spell a type is read as that type, or the type is nested
too deeply, which it is only if it has more levels than the limit allows. -/
theorem parse_of_spells {text : String} {u : TypeExpr} {S : List Sign} {e : Ending} {n : Nat}
    (hlex : Lexes S []) (htext : text.toList = S.flatMap Sign.chars)
    (hmark : text.toList.head? ≠ some '\ufeff') (h : Spells n u S e) :
    parse text = .ok u ∨ nestingLimit < n ∧ ∃ e, parse text = .error e ∧
      e.diagnostics.head?.map Diagnostic.message = some "type is nested too deeply" := by
  have hat := at_start_of_lexes hlex htext hmark
  rw [← List.append_nil S] at hat
  have hlimit : nestingLimit < n → nestingLimit < n := id
  have hstops : e.Stops (([] : List Sign).headD ⟨[], .endOfFile, ""⟩) := e.stops_endOfText
  rcases complete_of_depth hlimit h hstops hat with
    ⟨hlimit, hdeep⟩ | ⟨htype, hend⟩
  · exact .inr ⟨hlimit, parse_of_deep hdeep⟩
  · exact .inl (parse_eq_ok_iff.mpr
      ⟨hend.pending_eq_nil_iff.mpr rfl, hend.clean.findings, htype.symm⟩)

/-! ## Canonical forms -/

variable {source : String} {t : TypeExpr}

/-- The canonical form of a variant of a type that was read. -/
theorem parse_print_of_variant (h : parse source = .ok t) {g : Nat} {u : TypeExpr}
    (hu : Variant g t u) (hmark : u.print.toList.head? ≠ some '\ufeff') :
    parse u.print = .ok u ∨ 0 < g ∧ ∃ e, parse u.print = .error e ∧
      e.diagnostics.head?.map Diagnostic.message = some "type is nested too deeply" := by
  obtain ⟨e, hspells, -⟩ := exists_spells_of_parse h
  obtain ⟨hend, hfindings, -⟩ := parse_eq_ok_iff.mp h
  have hclean := clean_start_of_run (p := parser nestingLimit) hfindings hend
  have hlexes : Lexes ((TokenStream.scan source).pending.map Token.sign)
      (TokenStream.scan source).final.gapChars :=
    Lexes.of_scan fun t ht => hclean.pending t (by rwa [pending_start])
  obtain ⟨T, hT, hT'⟩ := hspells.respells hlexes hu
  have hlex : Lexes (regap [] T) [] := by
    refine hT.settled.regap Trivia.isGap_nil [] ((hT.solid.readsLast .nil).congr ?_)
    rw [lastOf_regap]
  have htext : u.print.toList = (regap [] T).flatMap Sign.chars := by
    rw [chars_regap hT.ne_nil, hT.written_eq]
    rfl
  rcases parse_of_spells hlex htext hmark (hT'.regap []) with hread | ⟨hlimit, hdeep⟩
  · exact .inl hread
  · exact .inr ⟨by omega, hdeep⟩

/-- The canonical form of a type that was read is read as that type. The
canonical form of what qualifying makes of it is read as that, or it is nested
too deeply, and that is its first problem. -/
theorem print_reads_back (h : parse source = .ok t) :
    (t.print.toList.head? ≠ some '\ufeff' → parse t.print = .ok t) ∧
      ∀ (rules : Rules) (k : Qualifier),
        (t.requalify rules k).print.toList.head? ≠ some '\ufeff' →
          parse (t.requalify rules k).print = .ok (t.requalify rules k) ∨
            ∃ e, parse (t.requalify rules k).print = .error e ∧
              e.diagnostics.head?.map Diagnostic.message = some "type is nested too deeply" := by
  constructor
  · intro hmark
    rcases parse_print_of_variant h (.same 0 t) hmark with hread | ⟨hpos, -⟩
    · exact hread
    · omega
  · intro rules k hmark
    rcases parse_print_of_variant h (.requalified rules k t) hmark with hread | ⟨-, hdeep⟩
    · exact .inl hread
    · exact .inr hdeep

/-- Labels of two words, text kept as written, attributes in front of parentheses
and words that are names here. -/
theorem print_reads_back_of_function_type :
    let source := "(_  a:P?,b: [Int /* c */]..., @x (each) ,some<P>)async  throws(E)->Q<5,each T>?"
    let t : TypeExpr := .function
      [⟨some "_  a", .optional (.named "P"), false⟩, ⟨some "b", .verbatim "[Int /* c */]", true⟩,
        ⟨none, .attributed ["@x"] (parenthesized (.named "each")), false⟩,
        ⟨none, .generic "some" [.named "P"], false⟩]
      (some "async throws(E)")
      (.optional (.generic "Q" [.verbatim "5", .attributed ["each"] (.named "T")]))
    let rules : Rules := ⟨fun n => n == "P" || n == "Q", false⟩
    let u := t.requalify rules .some
    u.print = "(_  a: (any P)?, b: [Int /* c */]..., @x (each), some<any P>) async throws(E) " ++
        "-> (any Q<5, each T>)?" ∧
      parse source = .ok t ∧ parse t.print = .ok t ∧ parse u.print = .ok u := by
  intro source t rules u
  have h : parse source = .ok t := by decide +kernel
  refine ⟨by decide +kernel, h, (print_reads_back h).1 (by decide +kernel), ?_⟩
  rcases (print_reads_back h).2 rules .some (by decide +kernel) with hread | ⟨e, he, -⟩
  · exact hread
  · have hread : parse u.print = .ok u := by decide +kernel
    rw [show parse u.print = .error e from he] at hread
    contradiction

/-- A name keeps its byte order mark behind another one, and only there. -/
example : parse "\ufeff\ufeffP" = .ok (.named "\ufeffP") ∧ parse "\ufeffP" = .ok (.named "P") := by
  decide +kernel

end AnySome.TypeExpr
