import AnySome.Proofs.Rewrite.Reread

/-!
# The order of ascriptions

Whatever is wrong with a text, the ascriptions read from it stand one behind
the other and between characters. A cursor always stands between two tokens of
its text (`Cursor.Behind`), and a type is read only behind a token that
announces it, so the type starts behind everything that was read before, even
where no type is found and its span is empty.

A parser that keeps this order *places* its ascriptions (`Places`). Only the
parsers whose results hold ascriptions need an argument; all others move the
cursor and nothing more.

## Main results

* `Cursor.Behind.leads` — a run stays in its text.
* `Places.bind`, `Places.collect`, `Places.bind_ascription` — how the order
  goes through sequences, loops and types.
* `Places.parser` — a whole file.
* `SourceFile.strung_recover` — the ascriptions of every text are in order.
* `SourceFile.exists_segment_of_mem` — in an accepted text each is spelled by
  the tokens at its place.
-/

namespace AnySome

open AnySome.Cursor AnySome.Parser AnySome.Declaration

/-! ## Between characters -/

/-- A character of the text ends at byte `n`, or the text starts there. -/
def Text.IsBoundary (cs : List Char) (n : Nat) : Prop :=
  ∃ A B, cs = A ++ B ∧ Text.byteLength A = n

theorem Text.IsBoundary.le {cs : List Char} {n : Nat} (h : Text.IsBoundary cs n) :
    n ≤ Text.byteLength cs := by
  obtain ⟨A, B, rfl, rfl⟩ := h
  rw [Text.byteLength_append]
  omega

theorem Text.eq_nil_of_byteLength {A : List Char} (h : Text.byteLength A = 0) : A = [] := by
  cases A with
  | nil => rfl
  | cons a A =>
    have hpos := a.utf8Size_pos
    rw [Text.byteLength_cons] at h
    omega

/-- A boundary behind a front part of a text is one of the rest. -/
theorem Text.IsBoundary.exists_front {R cs : List Char} {n : Nat}
    (h : Text.IsBoundary (R ++ cs) n) (hn : Text.byteLength R ≤ n) :
    ∃ A B, cs = A ++ B ∧ n = Text.byteLength R + Text.byteLength A := by
  obtain ⟨A, B, hAB, rfl⟩ := h
  rcases List.append_eq_append_iff.mp hAB with ⟨A', rfl, hcs⟩ | ⟨C, rfl, hB⟩
  · exact ⟨A', B, hcs, Text.byteLength_append R A'⟩
  · rw [Text.byteLength_append] at hn
    have hC : C = [] := Text.eq_nil_of_byteLength (by omega)
    subst hC
    exact ⟨[], cs, rfl, by simp⟩

/-! ## Cursors in their text -/

namespace Cursor

@[simp] theorem current_report (start stop : Nat) (fault : Fault) (c : Cursor) :
    (c.report start stop fault).current = c.current := by
  rw [current, current, pending_report, final_report]

/-- The cursor stands in the text `cs` behind the characters `R`. Where
nothing was consumed yet, the last consumed token is taken to end where the
first token starts. -/
structure Behind (cs R : List Char) (c : Cursor) : Prop where
  chars_eq : cs = R ++ (Token.allChars c.pending ++ c.final.gapChars)
  placed : Placed (Text.byteLength R) c.pending
  final_start : c.final.start = Text.byteLength cs
  previous : c.previousStop = Text.byteLength R ∨ c.previousStop = c.current.start

namespace Behind

variable {cs R : List Char} {c d : Cursor}

/-- The gap in front of the current token is the next part of the text. -/
theorem start_eq (h : c.Behind cs R) :
    ∃ Y, cs = (R ++ c.current.gapChars) ++ Y ∧
      c.current.start = Text.byteLength (R ++ c.current.gapChars) := by
  have hchars := h.chars_eq
  have hplaced := h.placed
  unfold Cursor.current
  cases hp : c.pending with
  | nil =>
    rw [hp] at hchars
    have hall : cs = R ++ c.final.gapChars := hchars
    refine ⟨[], by rw [List.append_nil]; exact hall, ?_⟩
    show c.final.start = _
    rw [h.final_start]
    exact congrArg Text.byteLength hall
  | cons t ts =>
    rw [hp] at hchars hplaced
    refine ⟨t.text.toList ++ (Token.allChars ts ++ c.final.gapChars), ?_, ?_⟩
    · rw [hchars]
      simp [Token.allChars, Token.fullChars]
    · rw [Text.byteLength_append]
      exact hplaced.1

theorem boundary_start (h : c.Behind cs R) : Text.IsBoundary cs c.current.start := by
  obtain ⟨Y, hchars, hstart⟩ := h.start_eq
  exact ⟨_, Y, hchars, hstart.symm⟩

theorem boundary_previous (h : c.Behind cs R) : Text.IsBoundary cs c.previousStop := by
  rcases h.previous with hstop | hstop
  · exact ⟨R, _, h.chars_eq, hstop.symm⟩
  · rw [hstop]
    exact h.boundary_start

theorem byteLength_le (h : c.Behind cs R) : Text.byteLength R ≤ c.current.start := by
  obtain ⟨_, _, hstart⟩ := h.start_eq
  rw [hstart, Text.byteLength_append]
  omega

theorem previousStop_le (h : c.Behind cs R) : c.previousStop ≤ c.current.start := by
  have hle := h.byteLength_le
  rcases h.previous with hstop | hstop <;> omega

/-- A step passes the characters of a token. -/
theorem advance (h : c.Behind cs R) {t : Token} {ts : List Token} (hp : c.pending = t :: ts) :
    c.advance.Behind cs (R ++ t.fullChars) := by
  have hchars := h.chars_eq
  have hplaced := h.placed
  rw [hp] at hchars hplaced
  have hstop := hplaced.stop_eq
  have hpending := pending_advance_of_cons hp
  refine ⟨?_, ?_, ?_, ?_⟩
  · rw [hpending, final_advance, hchars]
    simp [Token.allChars]
  · rw [hpending, Text.byteLength_append, ← hstop]
    exact hplaced.2.2
  · rw [final_advance, h.final_start]
  · rw [previousStop_advance hp, Text.byteLength_append, hstop]
    exact .inl rfl

/-- Behind a step the next token starts later. -/
theorem start_lt_advance (h : c.Behind cs R) (hne : c.pending ≠ []) :
    c.current.start < c.advance.current.start := by
  obtain ⟨t, ts, hp⟩ := List.exists_cons_of_ne_nil hne
  have hplaced := h.placed
  rw [hp] at hplaced
  have hlt := hplaced.start_lt_stop
  have hstop := hplaced.stop_eq
  have hnext := (h.advance hp).byteLength_le
  rw [Text.byteLength_append] at hnext
  rw [current_of_cons hp]
  omega

theorem report (h : c.Behind cs R) (start stop : Nat) (fault : Fault) :
    (c.report start stop fault).Behind cs R := by
  refine ⟨?_, ?_, ?_, ?_⟩
  · rw [pending_report, final_report]
    exact h.chars_eq
  · rw [pending_report]
    exact h.placed
  · rw [final_report]
    exact h.final_start
  · rw [previousStop_report, current_report]
    exact h.previous

/-- A run stays in its text, and does not go back in it. -/
theorem leads (h : c.Behind cs R) (hleads : c.Leads d) :
    c.current.start ≤ d.current.start ∧ ∃ Q, d.Behind cs Q := by
  induction hleads with
  | refl => exact ⟨Nat.le_refl _, R, h⟩
  | @advance d _ ih =>
    obtain ⟨hle, Q, hd⟩ := ih
    by_cases hp : d.pending = []
    · rw [advance_of_pending_nil hp]
      exact ⟨hle, Q, hd⟩
    · have hlt := hd.start_lt_advance hp
      obtain ⟨t, ts, hts⟩ := List.exists_cons_of_ne_nil hp
      exact ⟨by omega, _, hd.advance hts⟩
  | @report d start stop fault _ ih =>
    obtain ⟨hle, Q, hd⟩ := ih
    rw [current_report]
    exact ⟨hle, Q, hd.report start stop fault⟩

end Behind

/-- Reading starts in the text, behind a byte order mark if there is one. -/
theorem behind_start (text : String) :
    ∃ R, (start (TokenStream.scan text)).Behind text.toList R := by
  have hall := TokenStream.flatMap_fullChars_scanFrom (TokenStream.body text).1
    (TokenStream.body text).2
  have hstart := TokenStream.start_final_scanFrom (TokenStream.body text).1
    (TokenStream.body text).2
  have hlast : (TokenStream.scan text).final.fullChars =
      (TokenStream.scan text).final.gapChars := by
    rw [Token.fullChars, TokenStream.scan, TokenStream.text_final_scanFrom]
    exact List.append_nil _
  obtain ⟨R, htext, hmark, _⟩ := TokenStream.exists_mark text
  refine ⟨R, ?_, ?_, ?_, ?_⟩
  · rw [start, pending_checkTerminated, final_checkTerminated, htext, ← hlast]
    rw [TokenStream.toList, List.flatMap_append, List.flatMap_singleton] at hall
    rw [← hall]
    rfl
  · rw [start, pending_checkTerminated, ← hmark]
    exact .scanFrom _ _
  · rw [start, final_checkTerminated, htext, Text.byteLength_append, ← hmark]
    exact hstart
  · right
    rw [start, previousStop_checkTerminated, Cursor.current, pending_checkTerminated,
      final_checkTerminated]

end Cursor

/-! ## Ascriptions in order -/

/-- The span of the ascription is a stretch of characters of the text. -/
structure Ascription.Marks (cs : List Char) (a : Ascription) : Prop where
  start_le_stop : a.span.start ≤ a.span.stop
  start : Text.IsBoundary cs a.span.start
  stop : Text.IsBoundary cs a.span.stop

/-- The ascriptions stand one behind the other, behind byte `lo` and not
beyond byte `hi`. -/
def Strung (cs : List Char) (lo hi : Nat) : List Ascription → Prop
  | [] => lo ≤ hi
  | a :: as => lo < a.span.start ∧ a.Marks cs ∧ Strung cs a.span.stop hi as

namespace Strung

variable {cs : List Char} {lo mid hi : Nat} {as bs : List Ascription}

theorem le (h : Strung cs lo hi as) : lo ≤ hi := by
  induction as generalizing lo with
  | nil => exact h
  | cons a as ih =>
    obtain ⟨hlo, hmarks, hrest⟩ := h
    have hspan := hmarks.start_le_stop
    have hhi := ih hrest
    omega

theorem of_le (hlo : mid ≤ lo) (h : Strung cs lo hi as) : Strung cs mid hi as := by
  cases as with
  | nil => exact Nat.le_trans hlo h
  | cons a as => exact ⟨Nat.lt_of_le_of_lt hlo h.1, h.2⟩

theorem append (h : Strung cs lo mid as) (k : Strung cs mid hi bs) :
    Strung cs lo hi (as ++ bs) := by
  induction as generalizing lo with
  | nil => exact k.of_le h
  | cons a as ih => exact ⟨h.1, h.2.1, ih h.2.2⟩

theorem of_mem (h : Strung cs lo hi as) {a : Ascription} (ha : a ∈ as) :
    lo < a.span.start ∧ a.Marks cs ∧ a.span.stop ≤ hi := by
  induction as generalizing lo with
  | nil => contradiction
  | cons b as ih =>
    obtain ⟨hlo, hmarks, hrest⟩ := h
    rcases List.mem_cons.mp ha with rfl | ha
    · exact ⟨hlo, hmarks, hrest.le⟩
    · obtain ⟨hstart, hrest⟩ := ih hrest ha
      have hspan := hmarks.start_le_stop
      exact ⟨by omega, hrest⟩

/-- Each ascription ends in front of the later ones. -/
theorem pairwise (h : Strung cs lo hi as) :
    as.Pairwise fun a b => a.span.start < b.span.start ∧ a.span.stop ≤ b.span.start := by
  induction as generalizing lo with
  | nil => exact .nil
  | cons a as ih =>
    obtain ⟨_, hmarks, hrest⟩ := h
    refine List.pairwise_cons.mpr ⟨?_, ih hrest⟩
    intro b hb
    have hlt := (hrest.of_mem hb).1
    have hspan := hmarks.start_le_stop
    omega

end Strung

/-! ## Parsers that place ascriptions -/

/-- What the parser adds to the ascriptions `seen` stands between its first
and its last place. -/
def Places [Mirrored α] (seen : List Ascription) (p : Parser α) : Prop :=
  ∀ ⦃cs R : List Char⦄ ⦃c : Cursor⦄, c.Behind cs R →
    ∃ as, Mirrored.ascriptions (p c).1 = seen ++ as ∧
      Strung cs c.current.start (p c).2.current.start as

namespace Places

variable {seen : List Ascription} {α β : Type} [Mirrored α] [Mirrored β] {p : Parser α}

/-- A parser whose results hold no ascriptions only moves. -/
theorem silent [Steady p] (h : ∀ a : α, Mirrored.ascriptions a = []) : Places [] p := by
  intro cs R c hc
  exact ⟨[], h _, (hc.leads (Steady.leads c)).1⟩

theorem pure {a : α} (h : seen = Mirrored.ascriptions a) : Places seen (Pure.pure a) := by
  intro cs R c hc
  exact ⟨[], by rw [h, List.append_nil]; rfl, Nat.le_refl _⟩

theorem bind {k : α → Parser β} [Steady p] (hp : Places [] p)
    (hk : ∀ a, Places (seen ++ Mirrored.ascriptions a) (k a)) : Places seen (p >>= k) := by
  intro cs R c hc
  obtain ⟨as, has, hstrung⟩ := hp hc
  obtain ⟨_, Q, hd⟩ := hc.leads (Steady.leads (p := p) c)
  obtain ⟨bs, hbs, hrest⟩ := hk (p c).1 hd
  refine ⟨as ++ bs, ?_, hstrung.append hrest⟩
  rw [List.nil_append] at has
  rw [← List.append_assoc, ← has]
  exact hbs

/-- A part whose results hold no ascriptions can be passed over. -/
theorem bind_silent {k : α → Parser β} [Steady p] (h : ∀ a : α, Mirrored.ascriptions a = [])
    (hk : ∀ a, Places seen (k a)) : Places seen (p >>= k) := by
  apply (silent h).bind
  intro a
  rw [h, List.append_nil]
  exact hk a

theorem bind_plain [Plain α] {k : α → Parser β} [Steady p] (hk : ∀ a, Places seen (k a)) :
    Places seen (p >>= k) :=
  bind_silent Plain.ascriptions_eq hk

theorem bind_get {k : Cursor → Parser α} (hk : ∀ c, Places seen (k c)) :
    Places seen (get >>= k) :=
  fun _ _ c hc => hk c hc

theorem bind_current {k : Token → Parser α} (hk : ∀ t, Places seen (k t)) :
    Places seen (current >>= k) :=
  fun _ _ c hc => hk c.current hc

theorem ite {P : Prop} [Decidable P] {q : Parser α} (hp : Places seen p) (hq : Places seen q) :
    Places seen (if P then p else q) := by
  split
  · exact hp
  · exact hq

/-- A loop places what its rounds place. -/
theorem collect {round : Parser (Round α)} [Steady round] (h : Places [] round) :
    Places [] (collect round) := by
  intro cs R c hc
  induction hn : c.remaining using Nat.strongRecOn generalizing c R with
  | _ n ih =>
    obtain ⟨as, has, hstrung⟩ := h hc
    obtain ⟨_, Q, hd⟩ := hc.leads (Steady.leads (p := round) c)
    rw [List.nil_append] at has
    cases hround : round c with
    | mk r d =>
    rw [hround] at has hstrung hd
    cases r with
    | finished =>
      rw [collect_of_finished hround]
      exact ⟨as, has, hstrung⟩
    | last a =>
      rw [collect_of_last hround]
      exact ⟨as, by rw [← has]; exact List.append_nil _, hstrung⟩
    | more a =>
      by_cases hmove : d.remaining < c.remaining
      · rw [collect_of_more hround hmove]
        obtain ⟨bs, hbs, hrest⟩ := ih _ (hn ▸ hmove) hd rfl
        refine ⟨as ++ bs, ?_, hstrung.append hrest⟩
        rw [List.nil_append] at hbs ⊢
        rw [← has, ← hbs]
        rfl
      · rw [collect_of_stuck hround hmove]
        exact ⟨as, by rw [← has]; exact List.append_nil _, hstrung⟩

theorem many {item : Parser (Option α)} [Steady item] (h : Places [] item) :
    Places [] (many item) := by
  apply collect
  apply h.bind
  intro o
  cases o with
  | none => exact pure rfl
  | some a => exact pure (List.append_nil _)

theorem advancing [Steady p] (h : Places [] p) : Places [] (advancing p) := by
  intro cs R c hc
  obtain ⟨as, has, hstrung⟩ := h hc
  obtain ⟨_, Q, hd⟩ := hc.leads (Steady.leads (p := p) c)
  refine ⟨as, has, ?_⟩
  have hle : (p c).2.current.start ≤ (Declaration.advancing p c).2.current.start := by
    show _ ≤ (if (p c).2.remaining < c.remaining then (p c).2
      else (p c).2.advance).current.start
    split
    · exact Nat.le_refl _
    · exact (hd.leads Leads.refl.advance).1
  simpa using hstrung.append (show Strung cs _ _ [] from hle)

/-- A type is placed: its span ends with the last token that was consumed, or
where it starts if none was. -/
theorem marks_ascription {cs R : List Char} {c : Cursor} (hc : c.Behind cs R) :
    (Declaration.ascription c).1.Marks cs ∧
      (Declaration.ascription c).1.span.start = c.current.start ∧
      (Declaration.ascription c).1.span.stop ≤ (Declaration.ascription c).2.current.start := by
  obtain ⟨hle, Q, hd⟩ := hc.leads
    (Steady.leads (p := TypeExpr.parser TypeExpr.nestingLimit) c)
  rw [Mirrors.ascription_eq]
  generalize TypeExpr.parser TypeExpr.nestingLimit c = type at *
  refine ⟨⟨Nat.le_max_right _ _, hc.boundary_start, ?_⟩, rfl, ?_⟩
  · show Text.IsBoundary cs (max type.2.previousStop c.current.start)
    rcases Nat.le_total type.2.previousStop c.current.start with hstop | hstop
    · rw [Nat.max_eq_right hstop]
      exact hc.boundary_start
    · rw [Nat.max_eq_left hstop]
      exact hd.boundary_previous
  · exact Nat.max_le.mpr ⟨hd.previousStop_le, hle⟩

/-- The token that announces a type, the type, and what stands behind it. -/
theorem bind_ascription {g : Kind} (hg : g ≠ .endOfFile) {k : Ascription → Parser α}
    {r : Bool → Parser α}
    (hr : r true = (Parser.advance >>= fun _ => Declaration.ascription >>= k))
    (hfalse : Places seen (r false)) (hk : ∀ a, Places (seen ++ [a]) (k a)) :
    Places seen (Parser.isAt g >>= r) := by
  intro cs R c hc
  rw [Parser.bind_isAt]
  by_cases hkind : c.kind = g
  · rw [beq_iff_eq.mpr hkind, hr, Parser.bind_advance, run_bind]
    have hpending : c.pending ≠ [] := by
      intro hnil
      exact hg (hkind.symm.trans (kind_of_pending_nil hnil))
    obtain ⟨t, ts, hp⟩ := List.exists_cons_of_ne_nil hpending
    have hguard := hc.start_lt_advance hpending
    have hadvance := hc.advance hp
    obtain ⟨hmarks, hstart, hstop⟩ := marks_ascription hadvance
    obtain ⟨_, Q, hd⟩ := hadvance.leads (Steady.leads (p := Declaration.ascription) c.advance)
    obtain ⟨bs, hbs, hrest⟩ := hk (Declaration.ascription c.advance).1 hd
    refine ⟨(Declaration.ascription c.advance).1 :: bs, ?_, ?_, hmarks, hrest.of_le hstop⟩
    · rw [List.append_cons]
      exact hbs
    · rw [hstart]
      exact hguard
  · rw [beq_false_of_ne hkind]
    exact hfalse hc

end Places

/-! ## Declarations -/

namespace Places

-- That a sequence of many steps is steady is a deep search.
set_option synthInstance.maxSize 4096

theorem item {α : Type} [Mirrored α] {body : Nat → Parser (Option α)}
    (h : ∀ start, Places [] (body start)) : Places [] (item body) := by
  unfold Declaration.item
  apply bind_plain
  intro b
  apply ite
  · exact bind_plain fun _ => pure rfl
  · apply bind_get
    intro c
    apply ite
    · exact bind_current fun first => bind_plain fun _ => h first.start
    · exact bind_plain fun _ => pure rfl

theorem items {α : Type} [Mirrored α] (inBlock : Bool) {one : Parser (Option α)} [Steady one]
    (h : Places [] one) : Places [] (items inBlock one) := by
  unfold Declaration.items
  refine (collect ?_).bind fun found => ?_
  · apply bind_plain
    intro k
    apply ite (pure rfl)
    apply ite
    · exact bind_plain fun _ => pure rfl
    · exact h.advancing.bind fun o => pure rfl
  · exact pure (Mirrored.ascriptions_filterMap_id found).symm

theorem ascriptionBehind {k : Kind} (hk : k ≠ .endOfFile) : Places [] (ascriptionBehind k) :=
  bind_ascription hk rfl (pure rfl) fun _ => pure rfl

theorem binding : Places [] binding := by
  unfold Declaration.binding
  dsimp only
  apply bind_plain
  intro name
  refine (ascriptionBehind (by decide)).bind fun type => ?_
  refine bind_silent ascriptions_initializer fun value => ?_
  have hseen : [] ++ Mirrored.ascriptions type = type.toList := ascriptions_result type
  apply ite
  · exact bind_plain fun block => pure hseen
  · exact bind_plain fun block => pure hseen

theorem variableDecl (start : Nat) : Places [] (variableDecl start) := by
  have hfurther : Places [] Declaration.furtherBinding := by
    apply bind_plain
    intro b
    apply ite
    · exact bind_plain fun _ => binding.bind fun b => pure (List.append_nil _).symm
    · exact pure rfl
  unfold Declaration.variableDecl
  refine bind_plain fun isLet => bind_plain fun _ => ?_
  refine binding.bind fun first => (many hfurther).bind fun more => ?_
  refine bind_silent ascriptions_span fun span => pure ?_
  show first.ascription.toList ++ Mirrored.ascriptions more =
    (first :: more).filterMap Binding.ascription
  rw [← ascriptions_bindings]
  rfl

theorem localVariable : Places [] localVariable := by
  apply item
  intro start
  apply bind_plain
  intro k
  split
  · exact (variableDecl start).bind fun d => pure (List.append_nil _).symm
  · exact (variableDecl start).bind fun d => pure (List.append_nil _).symm
  · exact bind_plain fun _ => pure rfl

theorem body : Places [] body := by
  have hblock : Places [] Declaration.codeBlock := by
    refine bind_current fun opening => bind_plain fun _ => ?_
    refine (items true localVariable).bind fun locals => bind_plain fun _ => ?_
    exact bind_silent ascriptions_span fun span => pure rfl
  apply bind_plain
  intro b
  apply ite
  · exact hblock.bind fun block => pure (List.append_nil _).symm
  · exact pure rfl

theorem parameter : Places [] parameter := by
  unfold Declaration.parameter
  dsimp only
  refine bind_plain fun _ => bind_plain fun names => ?_
  have hmissing : Places [] (do
      Parser.reportHere (.missing .parameterName)
      Parser.move fun c => c.skipUntil endsParameter
      return none : Parser (Option Parameter)) :=
    bind_plain fun _ => bind_plain fun _ => pure rfl
  cases names.isEmpty with
  | true => exact bind_plain fun _ => hmissing
  | false =>
    refine bind_ascription (g := .colon) (by decide) (if_neg Bool.false_ne_true) hmissing
      fun type => bind_plain fun variadic => ?_
    apply ite
    · exact bind_plain fun _ => bind_silent ascriptions_default fun value => pure rfl
    · exact bind_silent ascriptions_default fun value => pure rfl

theorem parameterClause : Places [] parameterClause := by
  unfold Declaration.parameterClause
  refine bind_current fun opening => bind_plain fun b => ?_
  apply ite
  · refine bind_plain fun _ => (collect ?_).bind fun found => bind_plain fun _ => ?_
    · apply bind_plain
      intro k
      apply ite (pure rfl)
      exact parameter.bind fun p => bind_plain fun _ => pure rfl
    · exact pure (Mirrored.ascriptions_filterMap_id found).symm
  · exact bind_plain fun _ => pure rfl

theorem functionDecl (start : Nat) : Places [] (functionDecl start) := by
  unfold Declaration.functionDecl
  refine bind_plain fun _ => bind_plain fun name => bind_plain fun _ => ?_
  refine parameterClause.bind fun parameters => bind_plain fun _ => ?_
  refine (ascriptionBehind (by decide)).bind fun result => bind_plain fun _ => ?_
  refine body.bind fun block => bind_silent ascriptions_span fun span => pure ?_
  rw [ascriptions_parameters, ascriptions_result, ascriptions_body, List.nil_append]
  rfl

theorem initializerDecl (start : Nat) : Places [] (initializerDecl start) := by
  unfold Declaration.initializerDecl
  refine bind_plain fun _ => bind_plain fun _ => bind_plain fun _ => ?_
  refine parameterClause.bind fun parameters => bind_plain fun _ => bind_plain fun _ => ?_
  refine body.bind fun block => bind_silent ascriptions_span fun span => pure ?_
  rw [ascriptions_parameters, ascriptions_body, List.nil_append]
  rfl

theorem aliasDecl (start : Nat) : Places [] (aliasDecl start) := by
  unfold Declaration.aliasDecl
  refine bind_plain fun _ => bind_plain fun name => bind_plain fun _ => ?_
  apply bind_ascription (g := .equals) (by decide) rfl
  · exact bind_plain fun _ => bind_plain fun _ => pure rfl
  · exact fun target => bind_silent ascriptions_span fun span => pure rfl

section Members

variable {members : Parser (List Declaration)} [Steady members]

theorem protocolDecl (h : Places [] members) (start : Nat) :
    Places [] (protocolDecl members start) := by
  unfold Declaration.protocolDecl
  refine bind_plain fun _ => bind_plain fun name => bind_plain fun _ => h.bind fun inner => ?_
  exact bind_silent ascriptions_span fun span => pure (ascriptions_members inner)

theorem nominalDecl (h : Places [] members) (kind : NominalKind) (start : Nat) :
    Places [] (nominalDecl members kind start) := by
  unfold Declaration.nominalDecl
  refine bind_plain fun _ => bind_plain fun first => bind_plain fun name => ?_
  refine bind_plain fun _ => h.bind fun inner => ?_
  exact bind_silent ascriptions_span fun span => pure (ascriptions_members inner)

/-- A result under a constructor of declarations. -/
theorem some_declaration {α : Type} [Mirrored α] {p : Parser α} [Steady p] (h : Places [] p)
    {g : α → Declaration} (hg : ∀ a, (g a).ascriptions = Mirrored.ascriptions a) :
    Places [] (do return some (g (← p))) := by
  refine h.bind fun a => pure ?_
  show [] ++ Mirrored.ascriptions a = (g a).ascriptions ++ []
  rw [hg, List.append_nil, List.nil_append]

theorem declaration (h : Places [] members) : Places [] (declaration members) := by
  apply item
  intro start
  apply bind_plain
  intro k
  split
  · exact (variableDecl start).some_declaration fun _ => rfl
  · exact (variableDecl start).some_declaration fun _ => rfl
  · exact (protocolDecl h start).some_declaration (g := id) fun _ => rfl
  · exact (nominalDecl h _ start).some_declaration (g := id) fun _ => rfl
  · exact (nominalDecl h _ start).some_declaration (g := id) fun _ => rfl
  · exact (nominalDecl h _ start).some_declaration (g := id) fun _ => rfl
  · exact (nominalDecl h _ start).some_declaration (g := id) fun _ => rfl
  · exact (nominalDecl h _ start).some_declaration (g := id) fun _ => rfl
  · exact (functionDecl start).some_declaration fun _ => rfl
  · exact (initializerDecl start).some_declaration fun _ => rfl
  · refine (aliasDecl start).bind fun d => pure ?_
    cases d <;> rfl
  · exact bind_plain fun _ => pure rfl

end Members

theorem memberBlock {contents : Nat → Parser (List Declaration)}
    [∀ start, Steady (contents start)] (h : ∀ start, Places [] (contents start)) :
    Places [] (memberBlock contents) := by
  unfold Declaration.memberBlock
  refine bind_current fun opening => bind_plain fun b => ?_
  apply ite
  · refine bind_plain fun _ => (h opening.start).bind fun inner => bind_plain fun _ => ?_
    exact pure (List.nil_append _)
  · exact bind_plain fun _ => pure rfl

theorem members (depth : Nat) : Places [] (members depth) := by
  induction depth with
  | zero =>
    apply memberBlock
    exact fun start => bind_plain fun _ => bind_plain fun _ => pure rfl
  | succ depth ih =>
    apply memberBlock
    exact fun _ => items true (declaration ih)

/-- A whole file places its ascriptions. -/
theorem parser : Places [] parser := items false (declaration (members nestingLimit))

end Places

namespace SourceFile

/-- The ascriptions of a text are in order, whatever is wrong with it. -/
theorem strung_recover (name text : String) :
    ∃ lo, Strung text.toList lo (Text.byteLength text.toList)
      (Declaration.ascriptionsList (recover name text).1.declarations) := by
  obtain ⟨R, hstart⟩ := behind_start text
  obtain ⟨as, has, hstrung⟩ := Places.parser hstart
  obtain ⟨_, Q, hend⟩ := hstart.leads (Steady.leads (p := Declaration.parser) _)
  rw [List.nil_append, ascriptions_members] at has
  refine ⟨(Cursor.start (TokenStream.scan text)).current.start, ?_⟩
  have hlast : Strung text.toList _ (Text.byteLength text.toList) [] := hend.boundary_start.le
  show Strung text.toList _ _ (Declaration.ascriptionsList
    (Declaration.parser (Cursor.start (TokenStream.scan text))).1)
  rw [has]
  simpa using hstrung.append hlast

theorem text_of_parse {name text : String} {file : SourceFile}
    (hparse : parse name text = .ok file) : file.text = text := by
  obtain ⟨_, rfl⟩ := parse_eq_ok_iff.mp hparse
  rfl

/-- An ascription of an accepted text is that of a chunk. -/
theorem exists_chunk_of_mem {text : String} (hrun : (run text).2.findings = []) {a : Ascription}
    (ha : a ∈ Declaration.ascriptionsList (run text).1) :
    ∃ (K : List Chunk) (s : Segment),
      Chunk.Cut (TokenStream.scan text).final.sign K (TokenStream.scan text).pending [] ∧
        Chunk.typed s ∈ K ∧ s.ascription = a := by
  obtain ⟨K, hcut, hascriptions, _⟩ := exists_chunks hrun ⟨Ascription.type, fun _ => [], True⟩
  rw [← hascriptions] at ha
  obtain ⟨k, hk, hak⟩ := List.mem_flatMap.mp ha
  cases k with
  | kept t => contradiction
  | typed s => exact ⟨K, s, hcut, hk, (List.mem_singleton.mp hak).symm⟩

/-- An ascription of an accepted text is what the tokens at its place spell. -/
theorem exists_segment_of_mem {name text : String} {file : SourceFile}
    (hparse : parse name text = .ok file) {a : Ascription}
    (ha : a ∈ Declaration.ascriptionsList file.declarations) :
    ∃ (s : Segment) (offset : Nat), s.ascription = a ∧ Placed offset (s.guard :: s.tokens) := by
  obtain ⟨hrun, rfl⟩ := parse_eq_ok_iff.mp hparse
  obtain ⟨K, s, hcut, hs, hsa⟩ := exists_chunk_of_mem hrun ha
  obtain ⟨before, behind, hpending, _⟩ := hcut.exists_place hs
  have hplaced := Placed.scanFrom (TokenStream.body text).1 (TokenStream.body text).2
  rw [show (TokenStream.scanFrom _ _).pending = _ from hpending, ← List.cons_append,
    Placed.append_iff, Placed.append_iff] at hplaced
  exact ⟨s, _, hsa, hplaced.2.1⟩

/-- The types of an accepted text are within the limit. -/
theorem readsWithin_limit {name text : String} {file : SourceFile}
    (hparse : parse name text = .ok file) {a : Ascription}
    (ha : a ∈ Declaration.ascriptionsList file.declarations) :
    ReadsWithin text TypeExpr.nestingLimit a := by
  obtain ⟨hrun, rfl⟩ := parse_eq_ok_iff.mp hparse
  obtain ⟨K, s, hcut, hs, rfl⟩ := exists_chunk_of_mem hrun ha
  exact (readsWithin_iff (clean_start hrun) hcut hs).mpr s.levels_le

theorem type_eq_parsed {name text : String} {file : SourceFile}
    (hparse : parse name text = .ok file) {a : Ascription}
    (ha : a ∈ Declaration.ascriptionsList file.declarations) : a.type = a.parsed := by
  obtain ⟨s, _, rfl, _⟩ := exists_segment_of_mem hparse ha
  exact s.type_eq

/-- Where a text is accepted, no ascription is empty. -/
theorem start_lt_stop {name text : String} {file : SourceFile}
    (hparse : parse name text = .ok file) {a : Ascription}
    (ha : a ∈ Declaration.ascriptionsList file.declarations) : a.span.start < a.span.stop := by
  obtain ⟨s, offset, rfl, hplaced⟩ := exists_segment_of_mem hparse ha
  obtain ⟨t, ts, hts⟩ := s.exists_tokens
  obtain ⟨hstart, hstop⟩ := s.span_eq_of_placed hplaced hts
  have hfirst : Placed s.guard.stop (t :: ts) := hts ▸ hplaced.2.2
  have hlt := hfirst.start_lt_stop
  have hend := hfirst.stop_eq
  have hall : Text.byteLength (Token.allChars s.tokens) =
      Text.byteLength t.fullChars + Text.byteLength (Token.allChars ts) := by
    simp [hts, Token.allChars]
  have hgap := hfirst.1
  omega

end SourceFile

end AnySome
