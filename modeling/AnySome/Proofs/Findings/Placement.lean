import AnySome.Proofs.Findings.Anchored
import Mathlib.Data.List.DropRight
import Mathlib.Data.List.Nodup

/-!
# Where the diagnostics of a text are

The diagnostics of a text stand at different places, because a cursor notes
one problem for each place, and each of them is about a stretch of whole
characters, because all parsers anchor their findings.

The line and the column of a rejection are looked up in the line map of the
text, which finds what a walk through the text would. Behind a front part of it
the walk has counted the line feeds of that part, and the bytes behind the last
of them.

## Main results

* `Cursor.Leads.nodup_starts` — no run notes a second problem at a place.
* `Position.ofOffset_eq` — the line and the column of a place.
* `SourceFile.diagnostics_placed` — where the diagnostics of a text are, and
  where its rejection points.
-/

namespace AnySome

open AnySome.Cursor AnySome.Parser

/-! ## One problem for each place -/

namespace Cursor

/-- The findings start at different places. -/
def Distinct (c : Cursor) : Prop := (c.findings.map Finding.start).Nodup

theorem Distinct.report {c : Cursor} (h : c.Distinct) (start stop : Nat) (fault : Fault) :
    (c.report start stop fault).Distinct := by
  unfold Cursor.report
  split
  · exact h
  next hnew =>
    have hfresh : start ∉ c.findings.map Finding.start := by
      intro hmem
      obtain ⟨f, hf, hstart⟩ := List.mem_map.mp hmem
      exact hnew (List.any_eq_true.mpr ⟨f, hf, beq_iff_eq.mpr hstart⟩)
    unfold Distinct
    rw [List.map_append, List.map_singleton, List.nodup_append]
    refine ⟨h, List.nodup_singleton _, fun a ha b hb => ?_⟩
    rw [List.mem_singleton.mp hb]
    rintro rfl
    exact hfresh ha

theorem Distinct.checkTerminated {c : Cursor} (h : c.Distinct) : c.checkTerminated.Distinct := by
  unfold Cursor.checkTerminated
  split
  · exact h.report _ _ _
  · exact h

theorem Distinct.advance {c : Cursor} (h : c.Distinct) : c.advance.Distinct := by
  unfold Cursor.advance
  split
  · exact h
  · exact checkTerminated h

/-- No run notes a second problem at a place. -/
theorem Leads.nodup_starts {c d : Cursor} (hleads : c.Leads d) (h : c.Distinct) : d.Distinct := by
  induction hleads with
  | refl => exact h
  | advance _ ih => exact ih.advance
  | report start stop fault _ ih => exact ih.report start stop fault

theorem distinct_start (s : TokenStream) : (start s).Distinct :=
  Distinct.checkTerminated List.nodup_nil

end Cursor

/-! ## Lines and columns -/

namespace Position

/-- The line feeds of a front part of a text are counted as lines, and the
bytes behind the last of them as columns. -/
theorem foldl_after (as : List Char) : as.foldl after ⟨0, 0⟩ =
    ⟨as.count '\n', Text.byteLength (as.rtakeWhile (· ≠ '\n'))⟩ := by
  induction as using List.reverseRecOn with
  | nil => rfl
  | append_singleton as a ih =>
    rw [List.foldl_append, ih, List.rtakeWhile_concat]
    by_cases ha : a = '\n'
    · subst ha
      simp [after]
    · simp [after, ha]

theorem ofOffset_eq {text : String} {before behind : List Char}
    (htext : text.toList = before ++ behind) : ofOffset text (Text.byteLength before) =
      ⟨before.count '\n', Text.byteLength (before.rtakeWhile (· ≠ '\n'))⟩ := by
  rw [ofOffset, LineMap.locate_build, htext, walk_append, foldl_after]

end Position

/-- The rejection points at the place of `d` in the text: lines are counted by
the line feeds in front of that place, columns by the bytes behind the last of
them. -/
def ParseError.PointsAt (text : String) (e : ParseError) (d : Diagnostic) : Prop :=
  ∃ before behind, text.toList = before ++ behind ∧ Text.byteLength before = d.start ∧
    e.line = before.count '\n' + 1 ∧
    e.column = Text.byteLength (before.rtakeWhile (· ≠ '\n')) + 1

theorem ParseError.pointsAt_ofDiagnostics {text : String} {d : Diagnostic} (file : String)
    (ds : List Diagnostic) (h : Text.IsBoundary text.toList d.start) :
    (ofDiagnostics file text (d :: ds)).PointsAt text d := by
  obtain ⟨before, behind, htext, hstart⟩ := h
  have hplace := Position.ofOffset_eq htext
  rw [hstart] at hplace
  refine ⟨before, behind, htext, hstart, ?_, ?_⟩
  · exact congrArg (fun p => p.line + 1) hplace
  · exact congrArg (fun p => p.column + 1) hplace

/-! ## Texts -/

namespace SourceFile

theorem anchored_run (text : String) : (run text).2.Anchored text :=
  Anchors.anchored (anchored_start text)

theorem distinct_run (text : String) : (run text).2.Distinct :=
  (anchored_run text).leads.nodup_starts (distinct_start _)

/-- The diagnostics of a text start at different places, and each of them is
about a stretch of whole characters of the text. A rejection has all of them,
at least one, and points at the first. -/
theorem diagnostics_placed (name text : String) :
    ((recover name text).2.map Diagnostic.start).Nodup ∧
      (∀ d ∈ (recover name text).2, d.start + d.length ≤ Text.byteLength text.toList ∧
        Text.IsStretch text.toList d.start (d.start + d.length)) ∧
      ∀ e, parse name text = .error e → e.diagnostics = (recover name text).2 ∧
        ∃ first more, e.diagnostics = first :: more ∧ e.PointsAt text first := by
  have hrecover : (recover name text).2 =
      (run text).2.findings.map (·.toDiagnostic name) := rfl
  have hstretch : ∀ d ∈ (recover name text).2,
      Text.IsStretch text.toList d.start (d.start + d.length) := by
    rw [hrecover]
    intro d hd
    obtain ⟨f, hf, rfl⟩ := List.mem_map.mp hd
    exact (anchored_run text).findings f hf
  refine ⟨?_, fun d hd => ⟨(hstretch d hd).stop.le, hstretch d hd⟩, ?_⟩
  · rw [hrecover, List.map_map]
    exact distinct_run text
  · intro e he
    rw [parse_eq, ← hrecover] at he
    split at he
    · contradiction
    next hfindings =>
      cases he
      refine ⟨rfl, ?_⟩
      obtain ⟨first, more, hds⟩ : ∃ first more, (recover name text).2 = first :: more := by
        apply List.exists_cons_of_ne_nil
        rw [hrecover]
        simpa using hfindings
      refine ⟨first, more, hds, ?_⟩
      rw [hds]
      exact ParseError.pointsAt_ofDiagnostics name more
        (hstretch first (by rw [hds]; exact List.mem_cons_self ..)).start

/-- A string without an end on the second line is met first, and the delimiter
that was opened first is the last to be missed. -/
theorem diagnostics_placed_of_open_string :
    ∃ e, parse "f" "// é\nlet é = \"é\nfunc f(a: (b \x7b\n" = .error e ∧
      e.diagnostics.map Diagnostic.start = [15, 29, 32, 25] ∧ e.line = 2 ∧ e.column = 10 ∧
      ∃ first more, e.diagnostics = first :: more ∧
        e.PointsAt "// é\nlet é = \"é\nfunc f(a: (b \x7b\n" first := by
  have hfindings : (run "// é\nlet é = \"é\nfunc f(a: (b \x7b\n").2.findings =
      [⟨15, 3, .unterminatedString⟩, ⟨29, 1, .unmatched .paren⟩,
        ⟨32, 1, .missing .parameterSeparator⟩, ⟨25, 1, .unmatched .paren⟩] := by
    decide +kernel
  have he := parse_eq "f" "// é\nlet é = \"é\nfunc f(a: (b \x7b\n"
  rw [hfindings, if_neg (List.cons_ne_nil _ _)] at he
  have hplace : Position.ofOffset "// é\nlet é = \"é\nfunc f(a: (b \x7b\n" 15 = ⟨1, 9⟩ :=
    (LineMap.locate_build _ _).trans (by decide)
  exact ⟨_, he, rfl, congrArg (fun p => p.line + 1) hplace,
    congrArg (fun p => p.column + 1) hplace, ((diagnostics_placed "f" _).2.2 _ he).2⟩

end SourceFile

end AnySome
