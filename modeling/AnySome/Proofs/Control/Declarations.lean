import AnySome.Proofs.Control.Types
import AnySome.Proofs.Lexical.Tiling

/-!
# The script of declarations

A file is a list of declarations, and so is each block inside it; a body is a
list of which only the variables are kept. In such a list it is the list that
sees to it that every round consumes something. In a list of parameters it is
the parameter, or at a comma the separator. Blocks are read by a routine that
calls itself and counts them.

So the script of a file runs to its end, whatever the text. It leaves behind
every token that a fresh reader gives, once and in that order, and no type and
no block is still counted when it is done.

## Main results

* `Script.Realizes.items`, `Script.Realizes.parameterClause` — the lists.
* `Script.Realizes.members` — blocks, with the depth counted so far.
* `Script.Realizes.file` — a whole file.
* `Script.file_runs_to_end` — the one outcome of reading a text.
-/

namespace AnySome.Script

open AnySome.Cursor AnySome.Parser AnySome.Declaration

variable {α : Type} {d : Depths} {C : Kind → Prop}

-- A parser of many steps is a deep term for the search of instances.
set_option synthInstance.maxSize 4096

namespace Realizes

/-! ## Attributes and modifiers -/

/-- A step and a parenthesis behind it, in front of other steps. -/
theorem bind_next_skipAdjacentParen {K : Script α} {k : Parser α} (h : Realizes d anywhere K k) :
    Realizes d (· ≠ .endOfFile) (Script.next >>= fun _ => Script.skipAdjacentParen >>= fun _ => K)
      ((Parser.move fun c => c.advance.skipAdjacentParen) >>= fun _ => k) :=
  show Realizes d _ _ (Parser.advance >>= fun _ => Parser.move Cursor.skipAdjacentParen >>=
    fun _ => k) from next.bind fun _ => skipAdjacentParen.bind fun _ => h

theorem attribute? : Realizes d C Script.attribute? Declaration.attribute? := by
  apply ite_isAt
  · exact (skipAttribute.weaken (by rintro _ rfl; simp)).bind fun _ => pure
  · exact pure

theorem moves_attribute? : Moves anywhere (·.isSome = true) Declaration.attribute? :=
  .ite_isAt (.bind moves_skipAttribute) .none

theorem attributes : Realizes d C Script.attributes Declaration.attributes :=
  (many attribute? moves_attribute?).bind fun _ => pure

end Realizes

theorem Answers.isAtModifier : Answers d C Script.isAtModifier Declaration.isAtModifier := by
  intro c hc _
  refine .bind_look ?_
  unfold Declaration.isAtModifier
  cases hk : c.kind with
  | keyword word =>
    cases word with
    | staticModifier => exact .pure true c
    | classDecl => exact Answers.behind _ hc (by rw [hk]; simp)
    | _ => exact .pure false c
  | identifier =>
    cases hword : modifierWords.contains c.current.text with
    | true =>
      refine .bind_look_of hword ?_
      have hnext := Takes.next (d := d) (pending_ne_nil (c := c) (by rw [hk]; simp))
      have hparen := Realizes.skipAdjacentParen (d := d) (C := anywhere) (hnext.plain hc) trivial
      exact (hnext.bind (hparen.bind (.look isModified _))).lookahead
    | false => exact .bind_look_of hword (.pure false c)
  | _ => exact .pure false c

namespace Realizes

theorem modifier : Realizes d C Script.modifier Declaration.modifier := by
  apply ite_isAt
  · exact (skipAttribute.weaken (by rintro _ rfl; simp)).bind fun _ => pure
  · apply bind_asks .isAtModifier
    intro c _
    apply ite
    · intro hmodifier
      refine (bind_next_skipAdjacentParen pure).weaken ?_
      rintro _ rfl hend
      simp [Declaration.isAtModifier, hend] at hmodifier
    · exact fun _ => pure

theorem moves_modifier : Moves anywhere (·.isSome = true) Declaration.modifier := by
  refine .ite_isAt (.bind moves_skipAttribute) ?_
  apply Moves.bind_get
  intro c _
  apply Moves.ite
  · intro hmodifier
    refine .bind ((Moves.move fun _ => leads_skipAdjacentParen _).weaken ?_)
    rintro _ rfl hend
    simp [Declaration.isAtModifier, hend] at hmodifier
  · exact fun _ => .none

theorem modifiers : Realizes d C Script.modifiers Declaration.modifiers :=
  (many modifier moves_modifier).bind fun _ => pure

end Realizes

/-! ## Lists of declarations -/

theorem Answers.isAtActor : Answers d C Script.isAtActor Declaration.isAtActor := by
  intro c hc _
  unfold Declaration.isAtActor
  cases hword : c.kind == .identifier && c.current.text == "actor" with
  | true =>
    refine .bind_look_of hword (Answers.behind _ hc ?_)
    rw [Bool.and_eq_true, beq_iff_eq] at hword
    rw [hword.1]
    simp
  | false => exact .bind_look_of hword (.pure false c)

theorem Answers.isAtDeclaration :
    Answers d C Script.isAtDeclaration Declaration.isAtDeclaration := by
  intro c hc _
  have hbehind := Realizes.modifiers (d := d) (C := anywhere) hc trivial
  refine .lookahead (e := (Declaration.modifiers c).2) (hbehind.bind (.bind_look ?_))
  unfold Declaration.isAtDeclaration
  dsimp only
  cases (Declaration.modifiers c).2.kind with
  | keyword word => cases word <;> exact .pure _ _
  | identifier => exact Answers.isAtActor (C := anywhere) (hbehind.plain hc) trivial
  | _ => exact .pure false _

namespace Realizes

theorem item {B : Nat → Script (Option α)} {b : Nat → Parser (Option α)}
    (h : ∀ start, Realizes d anywhere (B start) (b start)) :
    Realizes d C (Script.item B) (Declaration.item b) := by
  apply ite_isAt
  · exact skipDirective.bind fun _ => pure
  · apply bind_asks .isAtDeclaration
    intro c _
    apply ite
    · intro _
      apply bind_current
      intro first _
      exact modifiers.bind fun _ => h first.start
    · exact fun _ => skipStatement.bind fun _ => pure

theorem items (inBlock : Bool) {I : Script (Option α)} {one : Parser (Option α)} [Steady one]
    (h : Realizes d anywhere I one) :
    Realizes d C (Script.items inBlock I) (Declaration.items inBlock one) := by
  refine (collect ?_ ?_).bind fun _ => pure
  · apply bind_kind
    intro k _
    apply ite (fun _ => pure)
    intro hgo
    apply ite
    · intro hsemicolon
      exact (next_of (by rw [eq_of_beq hsemicolon]; simp)).bind fun _ => pure
    · exact fun _ => h.advancing.at_any.bind fun _ => pure
  · apply Moves.bind_kind
    intro k _
    apply Moves.ite (fun _ => .pure (by simp))
    intro hgo
    apply Moves.ite
    · intro hsemicolon
      exact .advance_bind (by rw [eq_of_beq hsemicolon]; simp)
    · intro _
      apply Moves.bind
      rintro c - rfl -
      refine length_advancing_lt (pending_ne_nil fun hend => ?_)
      simp [hend] at hgo

/-! ## Parts of declarations -/

theorem nameOf (what : Expectation) :
    Realizes d C (Script.nameOf what) (Declaration.nameOf what) := by
  apply bind_current
  intro token _
  apply ite_isAtName
  · exact next_name.bind fun _ => pure
  · exact (reportHere _).bind fun _ => pure

theorem skipHeader : Realizes d C Script.skipHeader (Parser.move Declaration.skipHeader) :=
  skipUntil _

theorem pattern : Realizes d C Script.pattern Declaration.pattern := by
  apply ite_isAt
  · exact skipBalanced
  · apply ite_isAtName
    · exact next_name
    · exact reportHere _

end Realizes

theorem Answers.accessorOf :
    Answers d (· = .opening .brace) Script.accessorOf Declaration.accessorOf := by
  intro c hc hk
  have hnext := Takes.next (d := d) (pending_ne_nil (c := c) (by rw [hk]; simp))
  have hbehind := Realizes.attributes (d := d) (C := anywhere) (hnext.plain hc) trivial
  exact (hnext.bind (hbehind.bind (.look _ _))).lookahead

namespace Realizes

theorem accessor : Realizes d C Script.accessor Declaration.accessor := by
  apply ite_isAt
  · apply bind_asks .accessorOf
    intro c _
    exact skipBalanced.bind fun _ => pure
  · exact pure

theorem initialValue : Realizes d C Script.initialValue Declaration.initialValue := by
  apply ite_isAt
  · exact (next_of (by simp)).bind fun _ => (skipExpression true).spanned.bind fun _ => pure
  · exact pure

theorem name? : Realizes d C Script.name? Declaration.name? := by
  apply bind_current
  intro token _
  apply ite_isAtName
  · exact next_name.bind fun _ => pure
  · exact pure

theorem moves_name? : Moves anywhere (·.isSome = true) Declaration.name? := by
  apply Moves.bind_current
  intro token _
  refine .ite_isAtName (.bind (Moves.advance.weaken ?_)) .none
  rintro k hk rfl
  contradiction

theorem defaultValue : Realizes d C Script.defaultValue Declaration.defaultValue := by
  apply ite_isAt
  · exact (next_of (by simp)).bind fun _ => bind_get fun start _ =>
      (skipExpression false).spanned.bind fun _ => bind_get fun _ _ => pure
  · exact pure

/-! ## Effects and operators -/

theorem effect : Realizes d C Script.effect Declaration.effect := by
  apply bind_current
  intro token _
  apply bind_kind
  intro k _
  cases k with
  | keyword word =>
    cases word with
    | rethrowsEffect => exact (next_of (by simp)).bind fun _ => pure
    | throwsEffect => exact (bind_next_skipAdjacentParen pure).weaken (by rintro _ rfl; simp)
    | _ => exact pure
  | identifier =>
    apply ite
    · exact fun _ => (next_of (by simp)).bind fun _ => pure
    · exact fun _ => pure
  | _ => exact pure

theorem moves_effect : Moves anywhere (·.isSome = true) Declaration.effect := by
  apply Moves.bind_current
  intro token _
  apply Moves.bind_kind
  intro k _
  cases k with
  | keyword word =>
    cases word with
    | rethrowsEffect => exact .advance_bind (by simp)
    | throwsEffect =>
      exact .bind ((Moves.move fun _ => leads_skipAdjacentParen _).weaken (by rintro _ rfl; simp))
    | _ => exact .none
  | identifier =>
    apply Moves.ite
    · exact fun _ => .advance_bind (by simp)
    · exact fun _ => .none
  | _ => exact .none

theorem effects : Realizes d C Script.effects Declaration.effects :=
  (many effect moves_effect).bind fun _ => pure

theorem kind_ne_of_endsOperatorName {c : Cursor} (h : ¬endsOperatorName c = true) :
    c.kind ≠ .endOfFile := by
  intro hend
  simp [endsOperatorName, hend] at h

theorem operatorPart : Realizes d C Script.operatorPart Declaration.operatorPart := by
  apply bind_look
  intro c _
  apply ite (fun _ => pure)
  intro hgo
  exact (next_of (kind_ne_of_endsOperatorName hgo)).bind fun _ => pure

theorem moves_operatorPart : Moves anywhere (·.isSome = true) Declaration.operatorPart := by
  apply Moves.bind_get
  intro c _
  apply Moves.ite (fun _ => .none)
  intro hgo
  exact .advance_bind (kind_ne_of_endsOperatorName hgo)

theorem operatorName : Realizes d C Script.operatorName Declaration.operatorName := by
  apply bind_kind
  intro k _
  cases k with
  | opening bracket =>
    cases bracket with
    | square =>
      exact (next_of (by simp)).bind fun _ =>
        (many operatorPart moves_operatorPart).bind fun _ => pure
    | _ => exact reportHere _
  | endOfFile => exact reportHere _
  | _ =>
    exact (next_of (by simp)).bind fun _ =>
      (many operatorPart moves_operatorPart).bind fun _ => pure

theorem functionName : Realizes d C Script.functionName Declaration.functionName := by
  apply ite_isAtName
  · exact (nameOf _).at_any
  · exact operatorName.written

theorem dottedPart (name : String) :
    Realizes d C (Script.dottedPart name) (Declaration.dottedPart name) := by
  apply ite_isAt
  · exact (next_of (by simp)).bind fun _ => (nameOf _).bind fun _ => pure
  · exact pure

theorem moves_dottedPart (name : String) :
    Moves anywhere (·.isSome = true) (Declaration.dottedPart name) :=
  .ite_isAt (.advance_bind (by simp)) .none

/-! ## Parameters -/

theorem parameterSeparator :
    Realizes d C Script.parameterSeparator Declaration.parameterSeparator := by
  apply bind_kind
  intro k _
  cases k with
  | comma => exact next_of (by simp)
  | closing bracket =>
    cases bracket with
    | paren => exact pure
    | _ =>
      exact (reportHere _).bind fun _ => (skipUntil _).bind fun _ =>
        ite_isAt (next_of (by simp)) pure
  | _ =>
    exact (reportHere _).bind fun _ => (skipUntil _).bind fun _ =>
      ite_isAt (next_of (by simp)) pure

/-- In front of a comma it is the separator that consumes something. -/
theorem moves_parameterSeparator :
    Moves (· = .comma) (fun _ => True) Declaration.parameterSeparator := by
  apply Moves.bind_kind
  rintro k rfl
  exact .weaken .advance (by rintro _ rfl; simp)

/-- A parameter that is passed over reaches beyond a token that does not end
it. -/
theorem moves_passedOver {good : Option Parameter → Prop} :
    Moves (fun k => TypeExpr.endsList k = false ∧ k ≠ .comma) good
      (Parser.reportHere (.missing .parameterName) >>= fun _ =>
        (Parser.move fun c => c.skipUntil endsParameter) >>= fun _ => Pure.pure none) := by
  refine .bind_after fun _ => .bind (moves_skipUntil (by simp [TypeExpr.endsList]) ?_)
  rintro c ⟨hgo, hcomma⟩
  unfold endsParameter
  rw [hgo, beq_false_of_ne hcomma]
  rfl

/-- Elsewhere the parameter does, unless the list is over. -/
theorem moves_parameter : Moves (fun k => TypeExpr.endsList k = false ∧ k ≠ .comma)
    (fun _ => True) Declaration.parameter := by
  refine .bind_after fun _ => .bind_after fun names => .bind_isAt ?_ ?_
  · apply Moves.ite
    · exact fun _ => moves_passedOver.weaken (by rintro _ rfl; exact ⟨rfl, by simp⟩)
    · exact fun _ => .advance_bind (by simp)
  · apply Moves.ite
    · exact fun _ => moves_passedOver
    · intro h
      simp at h

section untyped

variable (hd : d.types = 0)

include hd

/-! ## Types in declarations -/

theorem ascription : Realizes d C Script.ascription Declaration.ascription :=
  (type TypeExpr.nestingLimit (by rw [hd, Nat.zero_add])).spanned.bind fun _ => pure

theorem ascriptionBehind {k : Kind} (hk : k ≠ .endOfFile) :
    Realizes d C (Script.ascriptionBehind k) (Declaration.ascriptionBehind k) := by
  apply ite_isAt
  · exact (next_of hk).bind fun _ => (ascription hd).bind fun _ => pure
  · exact pure

/-! ## Variables and bodies -/

theorem binding : Realizes d C Script.binding Declaration.binding := by
  refine pattern.written.bind fun name => (ascriptionBehind hd (by simp)).bind fun type =>
    initialValue.bind fun value => ?_
  apply ite
  · exact fun _ => accessor.bind fun _ => pure
  · exact fun _ => pure.bind fun _ => pure

theorem furtherBinding : Realizes d C Script.furtherBinding Declaration.furtherBinding := by
  apply ite_isAt
  · exact (next_of (by simp)).bind fun _ => (binding hd).bind fun _ => pure
  · exact pure

omit hd in
theorem moves_furtherBinding : Moves anywhere (·.isSome = true) Declaration.furtherBinding :=
  .ite_isAt (.advance_bind (by simp)) .none

theorem variableDecl (start : Nat) :
    Realizes d (· ≠ .endOfFile) (Script.variableDecl start) (Declaration.variableDecl start) := by
  refine bind_isAt ((next_of (by simp)).bind fun _ => ?_) (next.bind fun _ => ?_)
  all_goals
    exact (binding hd).bind fun first =>
      (many (furtherBinding hd) moves_furtherBinding).bind fun more =>
        (spanFrom start).bind fun _ => pure

theorem localVariable : Realizes d C Script.localVariable Declaration.localVariable := by
  apply item
  intro start
  apply bind_kind
  intro k _
  cases k with
  | keyword word =>
    cases word with
    | varDecl | letDecl =>
      exact ((variableDecl hd start).weaken (by rintro _ rfl; simp)).bind fun _ => pure
    | _ => exact skipStatement.bind fun _ => pure
  | _ => exact skipStatement.bind fun _ => pure

theorem codeBlock :
    Realizes d (· = .opening .brace) Script.codeBlock Declaration.codeBlock := by
  apply bind_current
  intro opening hopening
  exact (next_of (by rw [hopening]; simp)).bind fun _ =>
    (items true (localVariable hd)).bind fun _ => (close _ _).bind fun _ =>
      (spanFrom _).bind fun _ => pure

theorem body : Realizes d C Script.body Declaration.body := by
  apply ite_isAt
  · exact (codeBlock hd).bind fun _ => pure
  · exact pure

/-! ## Functions, initializers and aliases -/

theorem parameter : Realizes d C Script.parameter Declaration.parameter := by
  refine attributes.bind fun _ => (many name? moves_name?).bind fun names => ?_
  apply bind_isAt
  · apply ite
    · exact fun _ => (reportHere _).bind fun _ => (skipUntil _).bind fun _ => pure
    · intro _
      refine (next_of (by simp)).bind fun _ => (ascription hd).bind fun type => ?_
      apply bind_isAt
      · exact (next_of (by simp)).bind fun _ => defaultValue.bind fun _ => pure
      · exact defaultValue.bind fun _ => pure
  · apply ite
    · exact fun _ => (reportHere _).bind fun _ => (skipUntil _).bind fun _ => pure
    · intro h
      simp at h

theorem parameterClause :
    Realizes d C Script.parameterClause Declaration.parameterClause := by
  apply bind_current
  intro opening _
  apply ite_isAt
  · refine (next_of (by simp)).bind fun _ => (collect ?_ ?_).bind fun _ =>
      (close _ _).bind fun _ => pure
    · apply bind_kind
      intro k _
      apply ite (fun _ => pure)
      intro _
      exact (parameter hd).at_any.bind fun _ => parameterSeparator.bind fun _ => pure
    · apply Moves.bind_kind
      intro k _
      apply Moves.ite (fun _ => .pure (by simp))
      intro hgo
      rw [Bool.not_eq_true] at hgo
      by_cases hcomma : k = .comma
      · subst hcomma
        exact .bind_after fun _ => .bind moves_parameterSeparator
      · exact .bind (moves_parameter.weaken (by rintro _ rfl; exact ⟨hgo, hcomma⟩))
  · exact (reportHere _).bind fun _ => pure

theorem functionDecl (start : Nat) :
    Realizes d (· ≠ .endOfFile) (Script.functionDecl start) (Declaration.functionDecl start) :=
  next.bind fun _ => functionName.bind fun _ => skipGenerics.bind fun _ =>
    (parameterClause hd).bind fun _ => effects.bind fun _ =>
      (ascriptionBehind hd (by simp)).bind fun _ => skipWhere.bind fun _ =>
        (body hd).bind fun _ => (spanFrom start).bind fun _ => pure

theorem initializerDecl (start : Nat) : Realizes d (· ≠ .endOfFile)
    (Script.initializerDecl start) (Declaration.initializerDecl start) :=
  next.bind fun _ => skipFailureMark.bind fun _ => skipGenerics.bind fun _ =>
    (parameterClause hd).bind fun _ => effects.bind fun _ => skipWhere.bind fun _ =>
      (body hd).bind fun _ => (spanFrom start).bind fun _ => pure

theorem aliasDecl (start : Nat) :
    Realizes d (· ≠ .endOfFile) (Script.aliasDecl start) (Declaration.aliasDecl start) := by
  refine next.bind fun _ => (nameOf _).bind fun name => skipGenerics.bind fun _ => ?_
  apply ite_isAt
  · exact (next_of (by simp)).bind fun _ => (ascription hd).bind fun _ =>
      (spanFrom start).bind fun _ => pure
  · exact (reportHere _).bind fun _ => skipStatement.bind fun _ => pure

end untyped

/-! ## Declarations -/

section inner

variable {inner : Parser (List Declaration)} (hinner : Realizes d anywhere (.call .members) inner)

include hinner

theorem protocolDecl (start : Nat) : Realizes d (· ≠ .endOfFile) (Script.protocolDecl start)
    (Declaration.protocolDecl inner start) :=
  next.bind fun _ => (nameOf _).bind fun _ => skipHeader.bind fun _ => hinner.bind fun _ =>
    (spanFrom start).bind fun _ => pure

theorem nominalDecl (kind : NominalKind) (start : Nat) : Realizes d (· ≠ .endOfFile)
    (Script.nominalDecl kind start) (Declaration.nominalDecl inner kind start) :=
  next.bind fun _ => (nameOf _).bind fun first =>
    (iterate dottedPart moves_dottedPart first).bind fun _ => skipHeader.bind fun _ =>
      hinner.bind fun _ => (spanFrom start).bind fun _ => pure

theorem declaration (hd : d.types = 0) :
    Realizes d C Script.declaration (Declaration.declaration inner) := by
  apply item
  intro start
  apply bind_kind
  intro k _
  have hstart : ∀ {a : Kind}, a ≠ .endOfFile → ∀ b, b = a → b ≠ .endOfFile :=
    fun ha _ hb => hb ▸ ha
  cases k with
  | keyword word =>
    cases word with
    | varDecl | letDecl =>
      exact ((variableDecl hd start).weaken (hstart (by simp))).bind fun _ => pure
    | protocolDecl =>
      exact ((protocolDecl hinner start).weaken (hstart (by simp))).bind fun _ => pure
    | classDecl | structDecl | enumDecl | extensionDecl =>
      exact ((nominalDecl hinner _ start).weaken (hstart (by simp))).bind fun _ => pure
    | funcDecl => exact ((functionDecl hd start).weaken (hstart (by simp))).bind fun _ => pure
    | initDecl => exact ((initializerDecl hd start).weaken (hstart (by simp))).bind fun _ => pure
    | typealiasDecl => exact ((aliasDecl hd start).weaken (hstart (by simp))).bind fun _ => pure
    | _ => exact skipStatement.bind fun _ => pure
  | identifier => exact ((nominalDecl hinner _ start).weaken (hstart (by simp))).bind fun _ => pure
  | _ => exact skipStatement.bind fun _ => pure

end inner

/-! ## The routine -/

theorem tooDeep (start : Nat) :
    Realizes d C (Script.tooDeep start) (Declaration.tooDeep start) :=
  (reportDelimiter _ _).bind fun _ => (skipUntil _).bind fun _ => pure

/-- A block in braces, if what it holds is realized with one more block open. -/
theorem memberBlock {contents : Nat → Parser (List Declaration)}
    (h : ∀ start, Realizes { d with blocks := d.blocks + 1 } anywhere
      (if Declaration.nestingLimit < d.blocks + 1 then Script.tooDeep start
        else Script.items true Script.declaration) (contents start)) :
    Realizes d C (.call .members) (Declaration.memberBlock contents) := by
  suffices hblock : Realizes d C Script.members (Declaration.memberBlock contents) from
    fun _ hc hk => .call (hblock hc hk)
  apply bind_current
  intro opening _
  apply ite_isAt
  · refine (next_of (by simp)).bind fun _ => Realizes.bind ?_ fun inner =>
      (close _ _).bind fun _ => pure
    exact fun _ hc hk => .inBlock (.bind_depths (h _ hc hk))
  · exact (reportHere _).bind fun _ => pure

/-- With as many levels left as there are blocks that may still be opened, the
parser goes where a call does. -/
theorem members (n : Nat) (hd : d.types = 0)
    (hlevels : d.blocks + n = Declaration.nestingLimit) :
    Realizes d C (.call .members) (Declaration.members n) := by
  induction n generalizing d C with
  | zero =>
    apply memberBlock
    intro start
    rw [if_pos (by omega)]
    exact tooDeep start
  | succ n ih =>
    apply memberBlock
    intro start
    rw [if_neg (by omega)]
    exact items true (declaration (ih hd (by dsimp only; omega)) hd)

theorem file : Realizes ⟨0, 0⟩ C Script.file Declaration.parser :=
  items false (declaration (members Declaration.nestingLimit rfl (Nat.zero_add _)) rfl)

end Realizes

/-! ## A whole text -/

/-- Where the reader of a text starts: at its first token, with nothing left
behind and nothing counted. -/
def beginning (text : String) : Stand := ⟨Cursor.start (TokenStream.scan text), [], ⟨0, 0⟩⟩

theorem plain_start (text : String) : (Cursor.start (TokenStream.scan text)).Plain := by
  refine ⟨fun t ht => ?_, ?_⟩
  · rw [pending_start] at ht
    exact TokenStream.kind_ne_of_mem_scanFrom ht
  · obtain ⟨g, start, hfinal, _⟩ := TokenStream.final_scanFrom (TokenStream.body text).1
      (TokenStream.body text).2
    rw [final_start, TokenStream.scan, hfinal]
    rfl

/-- Reading a text as a file has one outcome, which is the parser's. It is at
the end of the text; the tokens left behind, followed by the end, are those
that the calls on a fresh reader give, up to the first end; and no type or
block is counted any more. -/
theorem file_runs_to_end (text : String) : ∃ e : Stand,
    (∀ a f, Runs Script.file (beginning text) a f ↔
      a = (Declaration.parser (Cursor.start (TokenStream.scan text))).1 ∧ f = e) ∧
    e.cursor = (Declaration.parser (Cursor.start (TokenStream.scan text))).2 ∧
    e.cursor.current.kind = .endOfFile ∧
    e.depths = ⟨0, 0⟩ ∧
    (∀ t ∈ e.passed, t.kind ≠ .endOfFile) ∧
    e.passed ++ [e.cursor.current] =
      (List.range (e.passed.length + 1)).map fun i => Reader.nth text (i + 1) := by
  have hplain := plain_start text
  obtain ⟨ts, hts, hruns⟩ := Realizes.file (C := anywhere) hplain trivial
  have hend := Declaration.pending_parser hplain.kinds
  have hfinal := (hruns []).final_eq
  generalize Declaration.parser (Cursor.start (TokenStream.scan text)) = outcome at *
  rw [hend, List.append_nil, pending_start] at hts
  have hcurrent : outcome.2.current = (TokenStream.scan text).final := by
    rw [Cursor.current, hend, List.headD_nil]
    exact hfinal.trans (final_start _)
  have hrun : Runs Script.file (beginning text) outcome.1 ⟨outcome.2, ts, ⟨0, 0⟩⟩ := hruns []
  refine ⟨⟨outcome.2, ts, ⟨0, 0⟩⟩, fun a f => ⟨fun h => h.unique hrun, ?_⟩, rfl, ?_, rfl, ?_, ?_⟩
  · rintro ⟨rfl, rfl⟩
    exact hrun
  · show outcome.2.current.kind = .endOfFile
    rw [hcurrent, ← final_start]
    exact hplain.final
  · rw [← hts, ← pending_start]
    exact hplain.kinds
  · show ts ++ [outcome.2.current] = _
    rw [hcurrent, ← hts]
    exact Reader.toList_scan text

end AnySome.Script
