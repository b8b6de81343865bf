import AnySome.Proofs.Rewrite.Order

/-!
# Where problems are noted

A problem is noted at the current token, or at a delimiter that a parser has
consumed and whose other half it misses. The first is a stretch of whole
characters because a cursor stands between two tokens of its text; the second
is one because a delimiter is a single character of one byte, but whether it
is a delimiter has to be known where its place is taken down.

So a parser *anchors* its findings in a text if every run that starts in this
text adds only findings at stretches of whole characters. This goes through
sequences, branches and loops. A parser that opens a clause does so only where
it has seen the delimiter, and the lemmas about such parsers ask for it.

## Main results

* `Cursor.Anchored.stretch_current`, `Cursor.Anchored.stretch_punctuation` —
  the current token is a stretch of its text, of one byte if it is punctuation.
* `Cursor.anchored_skipWithin` — what is opened in skipped text is marked where
  it was opened.
* `Parser.Anchors` — found for every parser, up to that of a whole file.
-/

namespace AnySome

open AnySome.Cursor AnySome.Parser

/-! ## Stretches of a text -/

/-- The bytes from `start` to `stop` are whole characters of the text. -/
structure Text.IsStretch (cs : List Char) (start stop : Nat) : Prop where
  start_le_stop : start ≤ stop
  start : Text.IsBoundary cs start
  stop : Text.IsBoundary cs stop

/-- The finding is about a stretch of the text. -/
def Finding.FitsIn (cs : List Char) (f : Finding) : Prop :=
  Text.IsStretch cs f.start (f.start + f.length)

theorem Finding.fitsIn_of_stretch {cs : List Char} {start stop : Nat} {f : Finding}
    (h : Text.IsStretch cs start stop) (hstart : f.start = start)
    (hlength : f.length = stop - start) : f.FitsIn cs := by
  unfold Finding.FitsIn
  rwa [hstart, hlength, Nat.add_sub_cancel' h.start_le_stop]

/-- A token of punctuation is one byte long. -/
theorem TokenStream.stop_of_isPunctuation {offset : Nat} {cs : List Char} {t : Token}
    (ht : t ∈ (scanFrom offset cs).pending) (hkind : isPunctuation t.kind = true) :
    t.stop = t.start + 1 := by
  obtain ⟨gap, start, c, tail, rfl⟩ := exists_lexeme_of_mem_scanFrom ht
  replace hkind : isPunctuation (Lexeme.scan c tail).kind = true := hkind
  rcases scan_cases c tail with ⟨k, hpunct, hscan⟩ | ⟨-, -, hscan⟩ | hother
  · have hsize : c.utf8Size = 1 := by
      unfold Lexeme.punctuation? at hpunct
      split at hpunct <;> cases hpunct <;> rfl
    rw [hscan]
    simp [Token.stop, Token.ofLexeme, Lexeme.single, hsize]
  · rw [hscan] at hkind
    contradiction
  · unfold isOther at hother
    split at hother
    · contradiction
    · contradiction
    · rw [hkind] at hother
      contradiction

/-! ## Cursors in their text -/

namespace Cursor

/-- A run over the text has led to the cursor, and its findings are about
stretches of the text. -/
structure Anchored (text : String) (c : Cursor) : Prop where
  leads : (start (TokenStream.scan text)).Leads c
  findings : ∀ f ∈ c.findings, f.FitsIn text.toList

theorem mem_findings_report {start stop : Nat} {fault : Fault} {c : Cursor} {f : Finding}
    (h : f ∈ (c.report start stop fault).findings) :
    f ∈ c.findings ∨ f = ⟨start, stop - start, fault⟩ := by
  unfold report at h
  split at h
  · exact .inl h
  · rcases List.mem_append.mp h with h | h
    · exact .inl h
    · exact .inr (List.mem_singleton.mp h)

/-- What is found on a step is about the token that the step leads to. -/
theorem mem_findings_checkTerminated {c : Cursor} {f : Finding}
    (h : f ∈ c.checkTerminated.findings) : f ∈ c.findings ∨
      (f.start = c.current.start ∧ f.length = c.current.stop - c.current.start) := by
  unfold checkTerminated at h
  split at h
  · rcases mem_findings_report h with h | rfl
    · exact .inl h
    · exact .inr ⟨rfl, rfl⟩
  · exact .inl h

theorem mem_findings_advance {c : Cursor} {f : Finding} (h : f ∈ c.advance.findings) :
    f ∈ c.findings ∨ (f.start = c.advance.current.start ∧
      f.length = c.advance.current.stop - c.advance.current.start) := by
  cases hp : c.pending with
  | nil =>
    rw [advance_of_pending_nil hp] at h
    exact .inl h
  | cons t ts =>
    unfold advance at h ⊢
    split at h
    next hnil => rw [hp] at hnil; contradiction
    · rw [current_checkTerminated]
      exact mem_findings_checkTerminated h

namespace Anchored

variable {text : String} {c d : Cursor}

/-- The current token is a stretch of the text, whatever was found. -/
theorem stretch_of_leads (hleads : (start (TokenStream.scan text)).Leads c) :
    Text.IsStretch text.toList c.current.start c.current.stop := by
  obtain ⟨R, hstart⟩ := behind_start text
  obtain ⟨-, Q, hbehind⟩ := hstart.leads hleads
  refine ⟨Nat.le_add_right _ _, hbehind.boundary_start, ?_⟩
  cases hp : c.pending with
  | nil =>
    have hcurrent : c.current = (TokenStream.scan text).final := by
      rw [current, hp, hleads.final_eq, final_start]
      rfl
    have hempty : c.current.stop = c.current.start := by
      rw [Token.stop, hcurrent, TokenStream.scan, TokenStream.text_final_scanFrom]
      rfl
    rw [hempty]
    exact hbehind.boundary_start
  | cons t ts =>
    have hcurrent := current_of_cons hp
    -- a step takes down where the token stops, and stays in the text
    rw [hcurrent, ← previousStop_advance hp]
    exact (hbehind.advance hp).boundary_previous

theorem stretch_current (h : c.Anchored text) :
    Text.IsStretch text.toList c.current.start c.current.stop := stretch_of_leads h.leads

/-- A current token of punctuation is one byte of the text. -/
theorem stretch_punctuation {k : Kind} (h : c.Anchored text) (hk : c.kind = k)
    (hkind : isPunctuation k = true) :
    Text.IsStretch text.toList c.current.start (c.current.start + 1) := by
  have hstretch := h.stretch_current
  rw [← hk] at hkind
  cases hp : c.pending with
  | nil =>
    rw [kind_of_pending_nil hp] at hkind
    contradiction
  | cons t ts =>
    have hcurrent := current_of_cons hp
    have ht : t ∈ (TokenStream.scan text).pending := by
      obtain ⟨passed, hpassed, -⟩ := h.leads.exists_consumed
      rw [pending_start] at hpassed
      rw [hpassed, hp]
      simp
    have hone : t.stop = t.start + 1 := by
      apply TokenStream.stop_of_isPunctuation ht
      rwa [Cursor.kind, hp] at hkind
    rwa [hcurrent, hone, ← hcurrent] at hstretch

/-- A problem with a stretch of the text may be noted. -/
theorem report {start stop : Nat} (h : c.Anchored text)
    (hstretch : Text.IsStretch text.toList start stop) (fault : Fault) :
    (c.report start stop fault).Anchored text := by
  refine ⟨h.leads.report _ _ _, fun f hf => ?_⟩
  rcases mem_findings_report hf with hf | rfl
  · exact h.findings f hf
  · exact Finding.fitsIn_of_stretch hstretch rfl rfl

theorem reportHere (h : c.Anchored text) (fault : Fault) :
    (c.reportHere fault).Anchored text := h.report h.stretch_current fault

theorem reportDelimiter {start : Nat} (h : c.Anchored text)
    (hbyte : Text.IsStretch text.toList start (start + 1)) (fault : Fault) :
    (c.reportDelimiter start fault).Anchored text := h.report hbyte fault

theorem advance (h : c.Anchored text) : c.advance.Anchored text := by
  have hleads := h.leads.advance
  refine ⟨hleads, fun f hf => ?_⟩
  rcases mem_findings_advance hf with hf | ⟨hstart, hlength⟩
  · exact h.findings f hf
  · exact Finding.fitsIn_of_stretch (stretch_of_leads hleads) hstart hlength

end Anchored

/-- Reading starts with no finding but that the first token has no end. -/
theorem anchored_start (text : String) : (start (TokenStream.scan text)).Anchored text := by
  refine ⟨.refl, fun f hf => ?_⟩
  rcases mem_findings_checkTerminated hf with hf | ⟨hstart, hlength⟩
  · contradiction
  · have hstretch := Anchored.stretch_of_leads (.refl (c := start (TokenStream.scan text)))
    rw [start, current_checkTerminated] at hstretch
    exact Finding.fitsIn_of_stretch hstretch hstart hlength

/-! ## Moves -/

section

variable {text : String} {c : Cursor}

theorem nesting_consume {opened opened' : List (Bracket × Nat)} {t : Token}
    (h : nesting opened t = .consume opened') :
    (∃ b, t.kind = .opening b ∧ opened' = (b, t.start) :: opened) ∨ opened' <:+ opened := by
  unfold nesting at h
  split at h
  next b hkind =>
    cases h
    exact .inl ⟨b, hkind, rfl⟩
  · right
    split at h
    · contradiction
    · split at h
      · cases h
        exact List.suffix_cons _ _
      · contradiction
  · cases h
    exact .inr (List.suffix_refl _)

theorem anchored_skipWithin {opened : List (Bracket × Nat)} (h : c.Anchored text)
    (hopened : ∀ o ∈ opened, Text.IsStretch text.toList o.2 (o.2 + 1)) :
    (c.skipWithin opened).Anchored text := by
  fun_induction skipWithin opened c with
  | case1 => exact h
  | case2 c hp b start outer =>
    exact h.reportDelimiter (hopened (b, start) (List.mem_cons_self ..)) _
  | case3 => exact (h.reportHere _).advance
  | case4 => exact h.reportHere _
  | case5 => exact h.advance
  | case6 opened c t rest hp opened' hconsume _ ih =>
    refine ih h.advance fun o ho => ?_
    rcases nesting_consume hconsume with ⟨b, hkind, rfl⟩ | hsuffix
    · rcases List.mem_cons.mp ho with rfl | ho
      · have hbyte := h.stretch_punctuation ((kind_of_cons hp).trans hkind) rfl
        rwa [current_of_cons hp] at hbyte
      · exact hopened o ho
    · exact hopened o (hsuffix.subset ho)

theorem Anchored.skipBalanced (h : c.Anchored text) : c.skipBalanced.Anchored text :=
  anchored_skipWithin h (by simp)

theorem Anchored.skipUntil (isOver : Cursor → Bool) (h : c.Anchored text) :
    (c.skipUntil isOver).Anchored text := by
  fun_induction Cursor.skipUntil isOver c with
  | case1 => exact h
  | case2 => exact h
  | case3 c _ _ ih => exact ih h.skipBalanced

theorem Anchored.skipStatement (h : c.Anchored text) : c.skipStatement.Anchored text := by
  unfold Cursor.skipStatement
  split
  · exact (h.reportHere _).advance
  · exact h
  · exact h.skipBalanced.skipUntil _

theorem Anchored.skipExpression (oneLine : Bool) (h : c.Anchored text) :
    (c.skipExpression oneLine).Anchored text := by
  unfold Cursor.skipExpression
  split
  · exact h.reportHere _
  · exact h.skipBalanced.skipUntil _

theorem Anchored.skipAdjacentParen (h : c.Anchored text) :
    c.skipAdjacentParen.Anchored text := by
  unfold Cursor.skipAdjacentParen
  split
  · exact h.skipBalanced
  · exact h

theorem Anchored.skipAttribute (h : c.Anchored text) : c.skipAttribute.Anchored text := by
  unfold Cursor.skipAttribute
  simp only
  split
  · exact h.advance.advance.skipAdjacentParen
  · exact h.advance.reportHere _

theorem anchored_skipGenericWithin {start depth : Nat} (h : c.Anchored text)
    (hstart : Text.IsStretch text.toList start (start + 1)) :
    (c.skipGenericWithin start depth).Anchored text := by
  fun_induction skipGenericWithin start depth c with
  | case1 => exact h.reportDelimiter hstart _
  | case2 _ _ _ _ ih => exact ih h.advance
  | case3 => exact h.advance
  | case4 _ _ _ _ _ ih => exact ih h.advance
  | case5 => exact h.reportDelimiter hstart _
  | case6 => exact h.reportDelimiter hstart _
  | case7 => exact h.reportDelimiter hstart _
  | case8 _ _ _ _ _ _ _ _ ih => exact ih h.skipBalanced

theorem Anchored.skipRequirements (afterComma : Bool) (h : c.Anchored text) :
    (c.skipRequirements afterComma).Anchored text := by
  fun_induction Cursor.skipRequirements afterComma c with
  | case1 => exact h
  | case2 => exact h
  | case3 _ c _ _ ih => exact ih h.skipBalanced

end

end Cursor

/-! ## Parsers -/

/-- Runs in the text add only findings about stretches of the text. -/
class Parser.Anchors (text : String) (p : Parser α) : Prop where
  anchored {c : Cursor} (h : c.Anchored text) : (p c).2.Anchored text

namespace Parser

variable {text : String}

theorem Anchors.move {f : Cursor → Cursor}
    (h : ∀ {c : Cursor}, c.Anchored text → (f c).Anchored text) : Anchors text (move f) := ⟨h⟩

/-! ## Single steps -/

instance (a : α) : Anchors text (pure a : Parser α) := ⟨id⟩

instance : Anchors text (get : Parser Cursor) := ⟨id⟩

instance : Anchors text current := ⟨id⟩

instance : Anchors text kind := ⟨id⟩

instance (k : Kind) : Anchors text (isAt k) := ⟨id⟩

instance : Anchors text isAtName := ⟨id⟩

instance : Anchors text isSeparated := ⟨id⟩

instance : Anchors text advance := ⟨Anchored.advance⟩

instance (fault : Fault) : Anchors text (reportHere fault) := ⟨fun h => h.reportHere fault⟩

section

variable {start : Nat}

theorem anchors_reportDelimiter (hbyte : Text.IsStretch text.toList start (start + 1))
    (fault : Fault) : Anchors text (reportDelimiter start fault) :=
  ⟨fun h => h.reportDelimiter hbyte fault⟩

theorem anchors_close (hbyte : Text.IsStretch text.toList start (start + 1))
    (bracket : Bracket) : Anchors text (close bracket start) where
  anchored h := by
    unfold close
    split
    · exact h.advance
    · exact h.reportDelimiter hbyte _

end

/-! ## Sequences, branches and loops -/

instance Anchors.bind {p : Parser α} {k : α → Parser β} [Anchors text p]
    [∀ a, Anchors text (k a)] : Anchors text (p >>= k) where
  anchored {c} h := Anchors.anchored (p := k (p c).1) (Anchors.anchored (p := p) h)

instance {P : Prop} [Decidable P] {p q : Parser α} [Anchors text p] [Anchors text q] :
    Anchors text (if P then p else q) := by
  split <;> infer_instance

instance {p : Parser Unit} [Anchors text p] : Anchors text (written p) :=
  ⟨fun h => Anchors.anchored (p := p) h⟩

instance {p : Parser α} [Anchors text p] : Anchors text (spanned p) :=
  ⟨fun h => Anchors.anchored (p := p) h⟩

instance {round : Parser (Round α)} [Anchors text round] : Anchors text (collect round) where
  anchored {c} hc := by
    have hround := fun {c : Cursor} (hc : c.Anchored text) => Anchors.anchored (p := round) hc
    fun_induction collect round c with
    | case1 c later h => simpa [h] using hround hc
    | case2 c a later h => simpa [h] using hround hc
    | case3 c a later h _ as final heq ih =>
      rw [heq] at ih
      exact ih (by simpa [h] using hround hc)
    | case4 c a later h _ => simpa [h] using hround hc

instance {round : α → Parser (Option α)} [∀ a, Anchors text (round a)] (a : α) :
    Anchors text (iterate round a) where
  anchored {c} hc := by
    have hround := fun {a : α} {c : Cursor} (hc : c.Anchored text) =>
      Anchors.anchored (p := round a) hc
    fun_induction iterate round a c with
    | case1 a c later h => simpa [h] using hround (a := a) hc
    | case2 a c b later h _ ih => exact ih (by simpa [h] using hround (a := a) hc)
    | case3 a c b later h _ => simpa [h] using hround (a := a) hc

instance {item : Parser (Option α)} [Anchors text item] : Anchors text (many item) := by
  unfold many
  infer_instance

instance (isOver : Kind → Bool) {item : Parser α} [Anchors text item] :
    Anchors text (commaSeparated isOver item) := by
  unfold commaSeparated
  infer_instance

instance : Anchors text (move Cursor.skipBalanced) := .move Anchored.skipBalanced

instance (isOver : Cursor → Bool) : Anchors text (move fun c => c.skipUntil isOver) :=
  .move (Anchored.skipUntil isOver)

instance : Anchors text (move Cursor.skipStatement) := .move Anchored.skipStatement

instance (oneLine : Bool) : Anchors text (move (Cursor.skipExpression oneLine)) :=
  .move (Anchored.skipExpression oneLine)

instance : Anchors text (move Cursor.skipAttribute) := .move Anchored.skipAttribute

instance : Anchors text (move fun c => c.advance.skipAdjacentParen) :=
  .move fun h => h.advance.skipAdjacentParen

end Parser

-- A parser of many steps is a deep term for the search of instances.
set_option synthInstance.maxSize 4096

/-! ## Types -/

namespace TypeExpr

variable {text : String}

instance : Anchors text specifier := by
  unfold specifier
  infer_instance

instance : Anchors text label := by
  unfold label
  refine @Anchors.bind _ _ _ _ _ _ fun c => ?_
  split <;> infer_instance

instance : Anchors text effect := by
  unfold effect
  infer_instance

instance : Anchors text effects := by
  unfold effects
  refine @Anchors.bind _ _ _ _ _ _ fun found => ?_
  cases found <;> infer_instance

variable {inner : Parser TypeExpr} [Anchors text inner]

theorem anchored_genericArguments {c : Cursor} (h : c.Anchored text)
    (hfollow : argumentsFollow c = true) : (genericArguments inner c).2.Anchored text := by
  unfold argumentsFollow at hfollow
  have hkind : c.kind = .lessThan := by simpa using (Bool.and_eq_true_iff.mp hfollow).1
  have := anchors_reportDelimiter (h.stretch_punctuation hkind rfl)
  unfold genericArguments
  rw [bind_current]
  exact Anchors.anchored h

instance : Anchors text (element inner) := by
  unfold element
  infer_instance

theorem anchored_tupleOrFunction {c : Cursor} (h : c.Anchored text)
    (hkind : c.kind = .opening .paren) : (tupleOrFunction inner c).2.Anchored text := by
  have := anchors_close (h.stretch_punctuation hkind rfl)
  unfold tupleOrFunction
  rw [bind_current]
  dsimp only
  exact Anchors.anchored h

instance : Anchors text (primary inner) where
  anchored {c} h := by
    rw [primary_eq]
    split
    · split
      next hfollow => exact anchored_genericArguments h.advance hfollow
      · exact h.advance
    next hkind => exact anchored_tupleOrFunction h hkind
    · exact h.skipBalanced
    · exact h.skipBalanced
    · exact h.reportHere _

instance (start : Cursor) (type : TypeExpr) : Anchors text (suffix inner start type) where
  anchored {c} h := by
    rw [suffix_eq]
    split
    · exact h
    split
    · split
      · split
        next hfollow => exact anchored_genericArguments h.advance.advance hfollow
        · exact h.advance.advance
      · exact h.advance.reportHere _
    · exact h.advance
    · exact h.advance
    · exact h

instance : Anchors text (suffixed inner) := by
  unfold suffixed
  infer_instance

instance : Anchors text (composedWith inner) := by
  unfold composedWith
  infer_instance

instance : Anchors text (level inner) := by
  unfold level
  refine @Anchors.bind _ _ _ _ _ _ fun start => ?_
  refine @Anchors.bind _ _ _ _ _ _ fun specifiers => ?_
  split
  · infer_instance
  · refine @Anchors.bind _ _ _ _ _ _ fun c => ?_
    split <;> infer_instance

instance anchorsOfDepth : (depth : Nat) → Anchors text (parser depth)
  | 0 => by
    unfold parser
    infer_instance
  | depth + 1 => by
    have := anchorsOfDepth depth
    unfold parser
    infer_instance

end TypeExpr

/-! ## Declarations -/

namespace Declaration

variable {text : String}

instance : Anchors text attribute? := by
  unfold attribute?
  infer_instance

instance : Anchors text attributes := by
  unfold attributes
  infer_instance

instance : Anchors text modifier := by
  unfold modifier
  infer_instance

instance : Anchors text modifiers := by
  unfold modifiers
  infer_instance

theorem anchored_skipDirective {c : Cursor} (h : c.Anchored text) :
    (skipDirective c).Anchored text := by
  unfold skipDirective
  split
  · exact h.advance.skipUntil _
  · exact h.advance.skipUntil _
  · exact h.advance
  · exact h.advance
  · exact h.skipStatement

instance : Anchors text (move skipDirective) := .move anchored_skipDirective

instance anchors_item {body : Nat → Parser (Option α)} [∀ start, Anchors text (body start)] :
    Anchors text (item body) := by
  unfold item
  infer_instance

instance {p : Parser α} [Anchors text p] : Anchors text (advancing p) where
  anchored {c} h := by
    have hp := Anchors.anchored (p := p) h
    show (if (p c).2.remaining < c.remaining then (p c).2 else (p c).2.advance).Anchored text
    split
    · exact hp
    · exact hp.advance

instance (inBlock : Bool) {one : Parser (Option α)} [Anchors text one] :
    Anchors text (items inBlock one) := by
  unfold items
  infer_instance

instance (what : Expectation) : Anchors text (nameOf what) := by
  unfold nameOf
  infer_instance

instance (start : Nat) : Anchors text (spanFrom start) := ⟨id⟩

instance : Anchors text ascription := by
  unfold ascription
  infer_instance

instance (k : Kind) : Anchors text (ascriptionBehind k) := by
  unfold ascriptionBehind
  infer_instance

theorem anchored_skipGenerics {c : Cursor} (h : c.Anchored text) :
    (skipGenerics c).Anchored text := by
  unfold skipGenerics
  split
  next hless =>
    have hkind : c.kind = .lessThan := by simpa using hless
    exact anchored_skipGenericWithin h (h.stretch_punctuation hkind rfl)
  · exact h

theorem anchored_skipWhere {c : Cursor} (h : c.Anchored text) : (skipWhere c).Anchored text := by
  unfold skipWhere
  split
  · exact h.advance.skipRequirements _
  · exact h

theorem anchored_skipFailureMark {c : Cursor} (h : c.Anchored text) :
    (skipFailureMark c).Anchored text := by
  unfold skipFailureMark
  split
  · exact h.advance
  · exact h

instance : Anchors text (move skipGenerics) := .move anchored_skipGenerics

instance : Anchors text (move skipWhere) := .move anchored_skipWhere

instance : Anchors text (move skipFailureMark) := .move anchored_skipFailureMark

instance : Anchors text (move skipHeader) := .move (Anchored.skipUntil _)

instance : Anchors text pattern := by
  unfold pattern
  infer_instance

instance : Anchors text accessor := by
  unfold accessor
  infer_instance

instance : Anchors text initialValue := by
  unfold initialValue
  infer_instance

instance : Anchors text binding := by
  unfold binding
  dsimp only
  infer_instance

instance : Anchors text furtherBinding := by
  unfold furtherBinding
  infer_instance

instance (start : Nat) : Anchors text (variableDecl start) := by
  unfold variableDecl
  infer_instance

instance (start : Nat) : Anchors text (localBehind start) := by
  unfold localBehind
  refine @Anchors.bind _ _ _ _ _ _ fun k => ?_
  split <;> infer_instance

instance : Anchors text localVariable := by
  unfold localVariable
  infer_instance

theorem anchored_codeBlock {c : Cursor} (h : c.Anchored text) (hkind : c.kind = .opening .brace) :
    (codeBlock c).2.Anchored text := by
  have := anchors_close (h.stretch_punctuation hkind rfl)
  unfold codeBlock
  rw [bind_current]
  exact Anchors.anchored h

instance : Anchors text body where
  anchored {c} h := by
    unfold body
    rw [bind_isAt, run_ite]
    split
    next hopening => exact anchored_codeBlock h (by simpa using hopening)
    · exact h

instance : Anchors text name? := by
  unfold name?
  infer_instance

instance : Anchors text defaultValue := by
  unfold defaultValue
  infer_instance

instance : Anchors text parameter := by
  unfold parameter
  dsimp only
  infer_instance

instance : Anchors text parameterSeparator := by
  unfold parameterSeparator
  refine @Anchors.bind _ _ _ _ _ _ fun k => ?_
  split <;> infer_instance

instance : Anchors text parameterClause where
  anchored {c} h := by
    unfold parameterClause
    rw [bind_current, bind_isAt, run_ite]
    split
    next hopening =>
      have hkind : c.kind = .opening .paren := by simpa using hopening
      have := anchors_close (h.stretch_punctuation hkind rfl)
      exact Anchors.anchored h
    · exact h.reportHere _

instance (token : Token) : Anchors text (effectOf token) := by
  unfold effectOf
  refine @Anchors.bind _ _ _ _ _ _ fun k => ?_
  split <;> infer_instance

instance : Anchors text effect := by
  unfold effect
  infer_instance

instance : Anchors text effects := by
  unfold effects
  infer_instance

instance : Anchors text operatorPart := by
  unfold operatorPart
  infer_instance

instance : Anchors text operatorName := by
  unfold operatorName
  refine @Anchors.bind _ _ _ _ _ _ fun k => ?_
  split <;> infer_instance

instance : Anchors text functionName := by
  unfold functionName
  infer_instance

instance (start : Nat) : Anchors text (functionDecl start) := by
  unfold functionDecl
  infer_instance

instance (start : Nat) : Anchors text (initializerDecl start) := by
  unfold initializerDecl
  infer_instance

instance (start : Nat) : Anchors text (aliasDecl start) := by
  unfold aliasDecl
  infer_instance

instance (name : String) : Anchors text (dottedPart name) := by
  unfold dottedPart
  infer_instance

/-- A block, if its contents are anchored behind its opening brace. -/
theorem anchors_memberBlock {contents : Nat → Parser (List Declaration)}
    (hcontents : ∀ ⦃start : Nat⦄, Text.IsStretch text.toList start (start + 1) →
      Anchors text (contents start)) : Anchors text (memberBlock contents) where
  anchored {c} h := by
    unfold memberBlock
    rw [bind_current, bind_isAt, run_ite]
    split
    next hopening =>
      have hkind : c.kind = .opening .brace := by simpa using hopening
      have hbyte := h.stretch_punctuation hkind rfl
      have := hcontents hbyte
      have := anchors_close hbyte
      exact Anchors.anchored h
    · exact h.reportHere _

theorem anchors_tooDeep {start : Nat} (hbyte : Text.IsStretch text.toList start (start + 1)) :
    Anchors text (tooDeep start) := by
  have := anchors_reportDelimiter hbyte
  unfold tooDeep
  infer_instance

section

variable {inner : Parser (List Declaration)} [Anchors text inner]

instance (start : Nat) : Anchors text (protocolDecl inner start) := by
  unfold protocolDecl
  infer_instance

instance (kind : NominalKind) (start : Nat) : Anchors text (nominalDecl inner kind start) := by
  unfold nominalDecl
  infer_instance

instance (start : Nat) : Anchors text (declarationBehind inner start) := by
  unfold declarationBehind
  refine @Anchors.bind _ _ _ _ _ _ fun k => ?_
  split <;> infer_instance

instance : Anchors text (declaration inner) := by
  unfold declaration
  infer_instance

end

instance anchors_members : (depth : Nat) → Anchors text (members depth)
  | 0 => anchors_memberBlock fun _ => anchors_tooDeep
  | depth + 1 => by
    have := anchors_members depth
    exact anchors_memberBlock fun _ _ => inferInstance

instance : Anchors text parser := by
  unfold parser
  infer_instance

end Declaration

end AnySome
