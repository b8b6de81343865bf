import AnySome.Declaration.Parser

/-!
# Where a run of a parser can lead

A parser does two things to a cursor: it consumes the current token, and it
notes problems. So the cursor behind a run is reached from the one in front
of it by a number of such steps (`Cursor.Leads`), and every parser of this
library is *steady*: this holds wherever it starts. Three facts follow for
all of them at once.

* The findings only grow, and the first of them stays the first. A run
  without findings has no findings anywhere on its way, and a run that has
  met a type nested too deeply ends with that as its first problem.
* What is consumed is a front part of the pending tokens.
* A run without findings passes only tokens that have an end, and knows where
  the last of them stops.

Parsers decide by what tokens say, never by where they stand. A token
without its place is a `Sign`, and `Cursor.At` describes a cursor without
problems by the signs that are still to come.

## Main results

* `Cursor.Leads.findings_eq` — findings are only added behind the old ones.
* `Cursor.Leads.exists_consumed` — what a run consumes, and where it stops.
* `Cursor.Leads.clean` — a run without findings leaves nothing wrong.
* `Cursor.Deep.leads` — a type nested too deeply stays the first problem.
-/

namespace AnySome

/-! ## Signs -/

/-- A token without its place. -/
structure Sign where
  gap : List Trivia
  kind : Kind
  text : String
deriving DecidableEq, Repr

namespace Sign

/-- The sign is separated from the one before. -/
def isSeparated (s : Sign) : Bool := !s.gap.isEmpty

/-- A line break stands between the sign and the one before. -/
def onNewLine (s : Sign) : Bool := s.gap.any Trivia.breaksLine

/-- The gap and the text of the sign. -/
def chars (s : Sign) : List Char := s.gap.flatMap Trivia.chars ++ s.text.toList

/-- The text of consecutive signs, without the gap in front of the first. -/
def written : List Sign → String
  | [] => ""
  | s :: ss => s.text ++ String.ofList (ss.flatMap chars)

@[simp] theorem written_singleton (s : Sign) : written [s] = s.text := by
  simp [written]

end Sign

namespace Token

/-- What the token says, wherever it stands. -/
def sign (t : Token) : Sign := ⟨t.gap, t.kind, t.text⟩

@[simp] theorem sign_gap (t : Token) : t.sign.gap = t.gap := rfl

@[simp] theorem sign_kind (t : Token) : t.sign.kind = t.kind := rfl

@[simp] theorem sign_text (t : Token) : t.sign.text = t.text := rfl

@[simp] theorem isSeparated_sign (t : Token) : t.sign.isSeparated = t.isSeparated := rfl

@[simp] theorem onNewLine_sign (t : Token) : t.sign.onNewLine = t.onNewLine := rfl

@[simp] theorem chars_sign (t : Token) : t.sign.chars = t.fullChars := rfl

theorem written_map_sign (ts : List Token) : Sign.written (ts.map sign) = Token.written ts := by
  cases ts with
  | nil => rfl
  | cons t ts => simp [Sign.written, Token.written, List.flatMap_map]

end Token

namespace Cursor

/-! ## Steps of a run -/

/-- A run that starts at the first cursor can end at the second. -/
inductive Leads (c : Cursor) : Cursor → Prop where
  | refl : Leads c c
  | advance {d : Cursor} : Leads c d → Leads c d.advance
  | report {d : Cursor} (start stop : Nat) (fault : Fault) :
      Leads c d → Leads c (d.report start stop fault)

namespace Leads

variable {c d e : Cursor}

theorem trans (h : Leads c d) (k : Leads d e) : Leads c e := by
  induction k with
  | refl => exact h
  | advance _ ih => exact ih.advance
  | report start stop fault _ ih => exact ih.report start stop fault

theorem reportHere (fault : Fault) (h : Leads c d) : Leads c (d.reportHere fault) :=
  h.report _ _ _

theorem reportDelimiter (start : Nat) (fault : Fault) (h : Leads c d) :
    Leads c (d.reportDelimiter start fault) :=
  h.report _ _ _

end Leads

/-! ## Findings -/

theorem findings_report (start stop : Nat) (fault : Fault) (c : Cursor) :
    ∃ fs, (c.report start stop fault).findings = c.findings ++ fs := by
  unfold report
  split
  · exact ⟨[], by simp⟩
  · exact ⟨_, rfl⟩

theorem findings_report_of_nil {c : Cursor} (h : c.findings = []) (start stop : Nat)
    (fault : Fault) :
    (c.report start stop fault).findings = [⟨start, stop - start, fault⟩] := by
  simp [report, h]

theorem findings_report_ne_nil (start stop : Nat) (fault : Fault) (c : Cursor) :
    (c.report start stop fault).findings ≠ [] := by
  unfold report
  split
  next h =>
    intro hnil
    simp [hnil] at h
  · simp

theorem findings_reportHere_ne_nil (fault : Fault) (c : Cursor) :
    (c.reportHere fault).findings ≠ [] := findings_report_ne_nil _ _ _ _

theorem findings_reportDelimiter_ne_nil (start : Nat) (fault : Fault) (c : Cursor) :
    (c.reportDelimiter start fault).findings ≠ [] := findings_report_ne_nil _ _ _ _

theorem findings_checkTerminated (c : Cursor) :
    ∃ fs, c.checkTerminated.findings = c.findings ++ fs := by
  unfold checkTerminated
  split
  · exact findings_report _ _ _ _
  · exact ⟨[], by simp⟩

theorem findings_advance (c : Cursor) : ∃ fs, c.advance.findings = c.findings ++ fs := by
  unfold advance
  split
  · exact ⟨[], by simp⟩
  · exact findings_checkTerminated _

/-- Findings are only added behind the old ones. -/
theorem Leads.findings_eq {c d : Cursor} (h : Leads c d) :
    ∃ fs, d.findings = c.findings ++ fs := by
  induction h with
  | refl => exact ⟨[], by simp⟩
  | @advance d _ ih =>
    obtain ⟨fs, hfs⟩ := ih
    obtain ⟨gs, hgs⟩ := findings_advance d
    exact ⟨fs ++ gs, by rw [hgs, hfs, List.append_assoc]⟩
  | @report d start stop fault _ ih =>
    obtain ⟨fs, hfs⟩ := ih
    obtain ⟨gs, hgs⟩ := findings_report start stop fault d
    exact ⟨fs ++ gs, by rw [hgs, hfs, List.append_assoc]⟩

/-- Where a run ends without findings, it had none before. -/
theorem Leads.findings_nil {c d : Cursor} (h : Leads c d) (hd : d.findings = []) :
    c.findings = [] := by
  obtain ⟨fs, hfs⟩ := h.findings_eq
  rw [hd] at hfs
  exact (List.append_eq_nil_iff.mp hfs.symm).1

/-- A problem is known at the place of the token. -/
def Marks (c : Cursor) (t : Token) : Prop := ∃ f ∈ c.findings, f.start = t.start

theorem marks_report (start stop : Nat) (fault : Fault) (c : Cursor) :
    ∃ f ∈ (c.report start stop fault).findings, f.start = start := by
  unfold report
  split
  next hknown =>
    obtain ⟨f, hf, hstart⟩ := List.any_eq_true.mp hknown
    exact ⟨f, hf, beq_iff_eq.mp hstart⟩
  · exact ⟨_, List.mem_append_right _ (List.mem_singleton_self _), rfl⟩

theorem Marks.leads {c d : Cursor} {t : Token} (h : c.Marks t) (k : Leads c d) : d.Marks t := by
  obtain ⟨f, hf, hstart⟩ := h
  obtain ⟨fs, hfs⟩ := k.findings_eq
  exact ⟨f, by rw [hfs]; exact List.mem_append_left fs hf, hstart⟩

/-- The first problem is a type nested too deeply. -/
def Deep (c : Cursor) : Prop := ∃ f, c.findings.head? = some f ∧ f.fault = .typeTooDeep

/-- A type nested too deeply stays the first problem. -/
theorem Deep.leads {c d : Cursor} (h : c.Deep) (k : Leads c d) : d.Deep := by
  obtain ⟨f, hf, hfault⟩ := h
  obtain ⟨fs, hfs⟩ := k.findings_eq
  refine ⟨f, ?_, hfault⟩
  rw [hfs, List.head?_append, hf]
  rfl

/-- The same, where that may be. -/
def DeepIf (may : Prop) (c : Cursor) : Prop := may ∧ c.Deep

theorem DeepIf.leads {may : Prop} {c d : Cursor} (h : c.DeepIf may) (k : Leads c d) :
    d.DeepIf may := ⟨h.1, h.2.leads k⟩

theorem Deep.findings_ne_nil {c : Cursor} (h : c.Deep) : c.findings ≠ [] := by
  obtain ⟨f, hf, _⟩ := h
  intro hnil
  simp [hnil] at hf

/-! ## Cursors without problems -/

/-- Nothing was found, and nothing that is still to come lacks its end. -/
structure Clean (c : Cursor) : Prop where
  findings : c.findings = []
  pending : ∀ t ∈ c.pending, t.isUnterminated = false
  kinds : ∀ t ∈ c.pending, t.kind ≠ .endOfFile
  final : c.final.isUnterminated = false
  finalKind : c.final.kind = .endOfFile

/-- The sign at the cursor. -/
def next (c : Cursor) : Sign := c.current.sign

@[simp] theorem final_report (start stop : Nat) (fault : Fault) (c : Cursor) :
    (c.report start stop fault).final = c.final := by
  unfold report
  split <;> rfl

@[simp] theorem previousStop_report (start stop : Nat) (fault : Fault) (c : Cursor) :
    (c.report start stop fault).previousStop = c.previousStop := by
  unfold report
  split <;> rfl

@[simp] theorem final_checkTerminated (c : Cursor) : c.checkTerminated.final = c.final := by
  unfold checkTerminated
  split
  · exact final_report _ _ _ _
  · rfl

@[simp] theorem previousStop_checkTerminated (c : Cursor) :
    c.checkTerminated.previousStop = c.previousStop := by
  unfold checkTerminated
  split
  · exact previousStop_report _ _ _ _
  · rfl

@[simp] theorem final_advance (c : Cursor) : c.advance.final = c.final := by
  unfold advance
  split <;> simp

theorem previousStop_advance {c : Cursor} {t : Token} {ts : List Token}
    (h : c.pending = t :: ts) : c.advance.previousStop = t.stop := by
  unfold advance
  split
  next hnil => rw [h] at hnil; contradiction
  next u us hcons =>
    rw [h] at hcons
    cases hcons
    simp

theorem advance_of_pending_nil {c : Cursor} (h : c.pending = []) : c.advance = c := by
  unfold advance
  split
  · rfl
  next hcons => rw [h] at hcons; contradiction

theorem Leads.final_eq {c d : Cursor} (h : Leads c d) : d.final = c.final := by
  induction h with
  | refl => rfl
  | advance _ ih => rw [final_advance, ih]
  | report start stop fault _ ih => rw [final_report, ih]

/-- Where the last of the tokens stops; `stop` if there is none. -/
def lastStop (stop : Nat) (ts : List Token) : Nat := (ts.getLast?.map Token.stop).getD stop

/-- What a run consumes, and where it stops. -/
theorem Leads.exists_consumed {c d : Cursor} (h : Leads c d) :
    ∃ ts, c.pending = ts ++ d.pending ∧ d.previousStop = lastStop c.previousStop ts := by
  induction h with
  | refl => exact ⟨[], rfl, rfl⟩
  | @advance d _ ih =>
    obtain ⟨ts, hts, hstop⟩ := ih
    cases hd : d.pending with
    | nil =>
      rw [advance_of_pending_nil hd]
      exact ⟨ts, hts, hstop⟩
    | cons t us =>
      refine ⟨ts ++ [t], ?_, ?_⟩
      · rw [hts, hd, pending_advance, hd]
        simp
      · rw [previousStop_advance hd]
        simp [lastStop]
  | report start stop fault _ ih =>
    obtain ⟨ts, hts, hstop⟩ := ih
    exact ⟨ts, by rw [hts, pending_report], by rw [previousStop_report, hstop]⟩

/-- Only a cursor without findings can lead to one. -/
theorem Leads.clean {c d : Cursor} (h : Leads c d) (hc : c.Clean) (hd : d.findings = []) :
    d.Clean := by
  obtain ⟨ts, hts, _⟩ := h.exists_consumed
  refine ⟨hd, ?_, ?_, ?_, ?_⟩
  · intro t ht
    exact hc.pending t (by rw [hts]; exact List.mem_append_right ts ht)
  · intro t ht
    exact hc.kinds t (by rw [hts]; exact List.mem_append_right ts ht)
  · rw [h.final_eq]
    exact hc.final
  · rw [h.final_eq]
    exact hc.finalKind

theorem Clean.kind_eq {c : Cursor} (h : c.Clean) : c.kind = c.next.kind := by
  unfold Cursor.kind next Cursor.current
  cases hp : c.pending with
  | nil => exact h.finalKind.symm
  | cons t ts => rfl

/-- Without problems, a step only moves. -/
theorem Clean.findings_advance {c : Cursor} (h : c.Clean) : c.advance.findings = [] := by
  cases hp : c.pending with
  | nil => rw [advance_of_pending_nil hp, h.findings]
  | cons t ts =>
    have hterm : (ts.headD c.final).isUnterminated = false := by
      cases ts with
      | nil => exact h.final
      | cons u us => exact h.pending u (by simp [hp])
    unfold Cursor.advance
    split
    · exact h.findings
    next u us hcons =>
      rw [hp] at hcons
      cases hcons
      simpa only [checkTerminated, Cursor.current, hterm, Bool.false_eq_true, if_false]
        using h.findings

theorem Clean.advance {c : Cursor} (h : c.Clean) : c.advance.Clean :=
  Leads.refl.advance.clean h h.findings_advance

/-! ## The signs to come -/

/-- A cursor without problems, with the signs `S` to come in front of the sign
`fin` that ends the text. -/
structure At (fin : Sign) (S : List Sign) (c : Cursor) : Prop where
  clean : c.Clean
  signs : c.pending.map Token.sign = S
  final : c.final.sign = fin

theorem Clean.at {c : Cursor} (h : c.Clean) :
    c.At c.final.sign (c.pending.map Token.sign) := ⟨h, rfl, rfl⟩

namespace At

variable {fin : Sign} {S T : List Sign} {c d : Cursor}

theorem next_eq (h : c.At fin S) : c.next = S.headD fin := by
  rw [← h.signs, ← h.final]
  unfold Cursor.next Cursor.current
  cases c.pending <;> rfl

theorem kind_eq (h : c.At fin S) : c.kind = (S.headD fin).kind := by
  rw [h.clean.kind_eq, h.next_eq]

theorem onNewLine_eq (h : c.At fin S) : c.current.onNewLine = (S.headD fin).onNewLine := by
  rw [← h.next_eq]
  rfl

theorem isSeparated_eq (h : c.At fin S) :
    c.current.isSeparated = (S.headD fin).isSeparated := by
  rw [← h.next_eq]
  rfl

theorem text_eq (h : c.At fin S) : c.current.text = (S.headD fin).text := by
  rw [← h.next_eq]
  rfl

theorem isWord_eq (h : c.At fin S) (word : String) :
    c.current.isWord word
      = ((S.headD fin).kind == .identifier && (S.headD fin).text == word) := by
  rw [← h.next_eq]
  rfl

theorem length_eq (h : c.At fin S) : c.pending.length = S.length := by
  rw [← h.signs, List.length_map]

theorem pending_eq_nil_iff (h : c.At fin S) : c.pending = [] ↔ S = [] := by
  rw [← h.signs, List.map_eq_nil_iff]

theorem pending_ne_nil {s : Sign} (h : c.At fin (s :: S)) : ¬c.pending = [] := by
  rw [h.pending_eq_nil_iff]
  simp

theorem exists_signs_cons (h : c.At fin S) (hp : ¬c.pending = []) : ∃ s U, S = s :: U := by
  rw [h.pending_eq_nil_iff] at hp
  exact List.exists_cons_of_ne_nil hp

theorem advance (h : c.At fin S) : c.advance.At fin S.tail := by
  refine ⟨h.clean.advance, ?_, ?_⟩
  · rw [pending_advance, List.map_tail, h.signs]
  · rw [final_advance, h.final]

theorem exists_cons {s : Sign} (h : c.At fin (s :: S)) :
    ∃ t ts, c.pending = t :: ts ∧ t.sign = s := by
  have hsigns := h.signs
  cases hp : c.pending with
  | nil =>
    rw [hp] at hsigns
    contradiction
  | cons t ts =>
    rw [hp] at hsigns
    cases hsigns
    exact ⟨t, ts, rfl, rfl⟩

theorem finalKind (h : c.At fin S) : fin.kind = .endOfFile := by
  rw [← h.final]
  exact h.clean.finalKind

theorem kind_ne (h : c.At fin S) {s : Sign} (hs : s ∈ S) : s.kind ≠ .endOfFile := by
  rw [← h.signs] at hs
  obtain ⟨t, ht, rfl⟩ := List.mem_map.mp hs
  exact h.clean.kinds t ht

/-- Only the end of a text looks like the end of the text. -/
theorem eq_nil_of_headD (h : c.At fin (T ++ S)) (hS : S.headD fin = fin) : S = [] := by
  cases S with
  | nil => rfl
  | cons s S =>
    have hs : s = fin := hS
    have hkind := h.kind_ne (s := s) (by simp)
    rw [hs, h.finalKind] at hkind
    exact absurd rfl hkind

/-- What was consumed between two places of one text, as written. -/
theorem writtenSince_eq (hc : c.At fin (T ++ S)) (hd : d.At fin S) :
    c.writtenSince d = Sign.written T := by
  have hlen : c.remaining - d.remaining = T.length := by
    rw [c.remaining_eq, d.remaining_eq, hc.length_eq, hd.length_eq, List.length_append]
    omega
  unfold writtenSince
  rw [hlen, ← Token.written_map_sign, List.map_take, hc.signs, List.take_left]

end At

end Cursor

end AnySome
