import AnySome.Proofs.Lexical.Settled
import AnySome.Proofs.Run.Loops

/-!
# Runs over a whole text

A list of declarations is read to the end of the text: every round consumes
something. An unterminated token is noted when it becomes the current one, so
a run without findings that reaches the end has met no such token, and the
cursor at the start of its text is without problems.

## Main results

* `Declaration.pending_parser` — a file is read to its end.
* `Cursor.clean_start` — a file without findings has no unterminated tokens.
-/

namespace AnySome

open AnySome.Cursor AnySome.Parser

/-! ## The tokens of a text -/

namespace TokenStream

/-- Every token in front of the end was recognised by its first character. -/
theorem exists_lexeme_of_mem_scanFrom {offset : Nat} {cs : List Char} {t : Token}
    (h : t ∈ (scanFrom offset cs).pending) :
    ∃ gap start c tail, t = Token.ofLexeme gap start (Lexeme.scan c tail) c tail := by
  fun_induction scanFrom offset cs with
  | case1 => contradiction
  | case2 offset cs u rest hstep stream ih =>
    rcases List.mem_cons.mp h with rfl | h
    · unfold Token.step Token.behind at hstep
      dsimp only at hstep
      split at hstep
      · contradiction
      · cases hstep
        exact ⟨_, _, _, _, rfl⟩
    · exact ih h

theorem kind_ne_of_mem_scanFrom {offset : Nat} {cs : List Char} {t : Token}
    (h : t ∈ (scanFrom offset cs).pending) : t.kind ≠ .endOfFile := by
  obtain ⟨gap, start, c, tail, rfl⟩ := exists_lexeme_of_mem_scanFrom h
  exact kind_scan_ne c tail

/-- The token that ends a text is the gap in front of the end. -/
theorem final_scanFrom (offset : Nat) (cs : List Char) :
    ∃ g start, (scanFrom offset cs).final = .endOfText g start ∧
      Trivia.gap (g.flatMap Trivia.chars) = (g, []) := by
  fun_induction scanFrom offset cs with
  | case1 offset cs last h =>
    have hchars := Token.gapChars_of_step_finish h
    unfold Token.step Token.behind at h
    dsimp only at h
    split at h
    next hrest =>
      cases h
      refine ⟨_, _, rfl, ?_⟩
      rw [show (Trivia.gap cs).1.flatMap Trivia.chars = cs from hchars]
      exact Prod.ext rfl hrest
    · contradiction
  | case2 offset cs t rest h stream ih => exact ih

end TokenStream

/-! ## The end of a file -/

theorem length_advancing_lt {p : Parser α} [Steady p] {c : Cursor} (hp : c.pending ≠ []) :
    (Declaration.advancing p c).2.remaining < c.remaining := by
  show (if (p c).2.remaining < c.remaining then (p c).2 else (p c).2.advance).remaining < _
  split
  · assumption
  next hstay =>
    obtain ⟨ts, hts, _⟩ := (Steady.leads (p := p) c).exists_consumed
    have hlen := congrArg List.length hts
    have hpos := List.length_pos_iff.mpr hp
    rw [List.length_append] at hlen
    rw [remaining_eq, remaining_eq, length_advance]
    omega

/-- Rounds that move for as long as there are tokens reach the end. -/
theorem pending_collect {round : Parser (Round α)} [Steady round]
    (hround : ∀ ⦃c : Cursor⦄, (∀ t ∈ c.pending, t.kind ≠ .endOfFile) →
      (round c).2.pending = [] ∨
        ∃ a, (round c).1 = .more a ∧ (round c).2.remaining < c.remaining)
    {c : Cursor} (hkinds : ∀ t ∈ c.pending, t.kind ≠ .endOfFile) :
    (collect round c).2.pending = [] := by
  induction hn : c.remaining using Nat.strongRecOn generalizing c with
  | _ n ih =>
    have hnext := hround hkinds
    have hleads := Steady.leads (p := round) c
    cases hrun : round c with
    | mk r d =>
      rw [hrun] at hnext hleads
      obtain ⟨ts, hts, _⟩ := hleads.exists_consumed
      have hrest : ∀ t ∈ d.pending, t.kind ≠ .endOfFile :=
        fun t ht => hkinds t (by rw [hts]; exact List.mem_append_right ts ht)
      cases r with
      | finished =>
        rw [collect_of_finished hrun]
        rcases hnext with hend | ⟨a, hmore, _⟩
        · exact hend
        · contradiction
      | last a =>
        rw [collect_of_last hrun]
        rcases hnext with hend | ⟨a, hmore, _⟩
        · exact hend
        · contradiction
      | more a =>
        by_cases hmove : d.remaining < c.remaining
        · rw [collect_of_more hrun hmove]
          exact ih _ (hn ▸ hmove) hrest rfl
        · rw [collect_of_stuck hrun hmove]
          rcases hnext with hend | ⟨a, _, hmove'⟩
          · exact hend
          · exact absurd hmove' hmove

/-- A list outside of a block is read to the end of the text. -/
theorem Declaration.pending_items {one : Parser (Option α)} [Steady one] {c : Cursor}
    (hkinds : ∀ t ∈ c.pending, t.kind ≠ .endOfFile) :
    (Declaration.items false one c).2.pending = [] := by
  unfold Declaration.items
  rw [run_bind, run_pure]
  refine pending_collect ?_ hkinds
  intro c hkinds
  simp only [bind_kind, run_ite, Bool.false_and, Bool.or_false, beq_iff_eq]
  cases hp : c.pending with
  | nil =>
    rw [if_pos (kind_of_pending_nil hp)]
    exact .inl hp
  | cons t ts =>
    rw [if_neg (by rw [kind_of_cons hp]; exact hkinds t (by simp [hp]))]
    right
    split
    · refine ⟨none, rfl, ?_⟩
      show c.advance.remaining < c.remaining
      rw [remaining_eq, remaining_eq, length_advance, hp]
      simp
    · exact ⟨_, rfl, length_advancing_lt (by simp [hp])⟩

/-- A file is read to its end. -/
theorem Declaration.pending_parser {c : Cursor} (hkinds : ∀ t ∈ c.pending, t.kind ≠ .endOfFile) :
    (Declaration.parser c).2.pending = [] :=
  pending_items hkinds

/-! ## Tokens without an end -/

namespace Cursor

theorem isUnterminated_of_checkTerminated {c : Cursor} (h : c.checkTerminated.findings = []) :
    c.current.isUnterminated = false := by
  cases hterm : c.current.isUnterminated with
  | false => rfl
  | true =>
    rw [checkTerminated, if_pos hterm] at h
    exact absurd h (findings_reportHere_ne_nil _ _)

theorem current_checkTerminated (c : Cursor) : c.checkTerminated.current = c.current := by
  unfold current
  rw [pending_checkTerminated, final_checkTerminated]

/-- A step without findings leads to a token with an end. -/
theorem isUnterminated_advance {c : Cursor} (hc : c.current.isUnterminated = false)
    (h : c.advance.findings = []) : c.advance.current.isUnterminated = false := by
  cases hp : c.pending with
  | nil =>
    rw [advance_of_pending_nil hp]
    exact hc
  | cons t ts =>
    unfold advance at h ⊢
    split
    next hnil => rw [hp] at hnil; contradiction
    next u us hcons =>
      split at h
      next hnil => rw [hp] at hnil; contradiction
      next v vs hcons' =>
        cases hcons.symm.trans hcons'
        rw [current_checkTerminated]
        exact isUnterminated_of_checkTerminated h

/-- A run without findings passes only tokens with an end. -/
theorem Leads.terminated {c d : Cursor} (h : Leads c d)
    (hc : c.current.isUnterminated = false) (hd : d.findings = []) :
    d.current.isUnterminated = false ∧
      ∃ ts, c.pending = ts ++ d.pending ∧ ∀ t ∈ ts, t.isUnterminated = false := by
  induction h with
  | refl => exact ⟨hc, [], rfl, by simp⟩
  | @advance d _ ih =>
    obtain ⟨hcurrent, ts, hts, hends⟩ := ih (Leads.refl.advance.findings_nil hd)
    refine ⟨isUnterminated_advance hcurrent hd, ?_⟩
    cases hp : d.pending with
    | nil =>
      rw [advance_of_pending_nil hp]
      exact ⟨ts, hts, hends⟩
    | cons t us =>
      refine ⟨ts ++ [t], ?_, ?_⟩
      · rw [pending_advance, hts, hp]
        simp
      · intro u hu
        rcases List.mem_append.mp hu with hu | hu
        · exact hends u hu
        · rw [List.mem_singleton.mp hu, ← current_of_cons hp]
          exact hcurrent
  | @report d start stop fault _ ih =>
    have hbefore : d.findings = [] := (Leads.refl.report start stop fault).findings_nil hd
    rw [findings_report_of_nil hbefore] at hd
    contradiction

@[simp] theorem pending_start (s : TokenStream) : (start s).pending = s.pending := by
  rw [start, pending_checkTerminated]

@[simp] theorem final_start (s : TokenStream) : (start s).final = s.final := by
  rw [start, final_checkTerminated]

/-- The start of tokens none of which lacks its end. -/
theorem clean_start_of {s : TokenStream} (hpending : ∀ t ∈ s.pending, t.isUnterminated = false)
    (hkinds : ∀ t ∈ s.pending, t.kind ≠ .endOfFile) (hfinal : s.final.isUnterminated = false)
    (hkind : s.final.kind = .endOfFile) : (start s).Clean := by
  have hfirst : (s.pending.headD s.final).isUnterminated = false := by
    cases hp : s.pending with
    | nil => exact hfinal
    | cons t ts => exact hpending t (by simp [hp])
  have hstart : start s =
      ⟨s.pending, s.pending.length, rfl, s.final, (s.pending.headD s.final).start, []⟩ := by
    unfold start checkTerminated
    apply if_neg
    show ¬(s.pending.headD s.final).isUnterminated = true
    rw [hfirst]
    exact Bool.false_ne_true
  rw [hstart]
  exact ⟨rfl, hpending, hkinds, hfinal, hkind⟩

/-- The start of a text that is read to its end without findings. -/
theorem clean_start_of_run {p : Parser α} [Steady p] {text : String}
    (h : (p (start (TokenStream.scan text))).2.findings = [])
    (hend : (p (start (TokenStream.scan text))).2.pending = []) :
    (start (TokenStream.scan text)).Clean := by
  have hleads := Steady.leads (p := p) (start (TokenStream.scan text))
  have hfirst : (start (TokenStream.scan text)).findings = [] := hleads.findings_nil h
  have hcurrent : (start (TokenStream.scan text)).current.isUnterminated = false := by
    rw [start, current_checkTerminated]
    exact isUnterminated_of_checkTerminated hfirst
  obtain ⟨hlast, ts, hts, hends⟩ := hleads.terminated hcurrent h
  refine ⟨hfirst, ?_, ?_, ?_, ?_⟩
  · intro t ht
    rw [hts, hend, List.append_nil] at ht
    exact hends t ht
  · intro t ht
    rw [pending_start] at ht
    exact TokenStream.kind_ne_of_mem_scanFrom ht
  · rw [current, hend, hleads.final_eq] at hlast
    exact hlast
  · obtain ⟨g, stop, hg, _⟩ := TokenStream.final_scanFrom (TokenStream.body text).1
      (TokenStream.body text).2
    rw [final_start]
    exact congrArg Token.kind hg

/-- The start of a file that is read without findings. -/
theorem clean_start {text : String}
    (h : (Declaration.parser (start (TokenStream.scan text))).2.findings = []) :
    (start (TokenStream.scan text)).Clean := by
  apply clean_start_of_run h
  apply Declaration.pending_parser
  intro t ht
  rw [pending_start] at ht
  exact TokenStream.kind_ne_of_mem_scanFrom ht

end Cursor

end AnySome
