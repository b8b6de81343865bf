import AnySome.Proofs.LineEnds.Types

/-!
# Declarations in a text with other line ends

The reader of declarations looks at kinds and gaps of tokens, at a few words,
and at whether a token is on a new line, which it is in both texts. So it finds
the same declarations. A name stands in one line and stays as it is; the pattern
of a variable and a default value may go over several.

## Main results

* `Commutes.declarations` — a whole file.
-/

namespace AnySome

open Cursor AnySome.Parser Declaration Converted

/-! ## Names -/

theorem Name.lineFeed_not_mem_bare {name : String} (h : '\n' ∉ name.toList) :
    '\n' ∉ (Name.bare name).toList := by
  intro hmem
  rw [Name.bare, String.toList_ofList, Name.bareChars, List.mem_reverse] at hmem
  have hback := List.mem_reverse.mp ((List.dropWhile_sublist _).mem hmem)
  exact h ((List.dropWhile_sublist _).mem hback)

/-! ## Looking ahead -/

namespace Commutes

variable {text : List Char}

theorem skipAttribute : Commutes text (Parser.move Cursor.skipAttribute)
    (Parser.move Cursor.skipAttribute) := move Alike.skipAttribute

theorem skipStatement : Commutes text (Parser.move Cursor.skipStatement)
    (Parser.move Cursor.skipStatement) := move Alike.skipStatement

theorem attribute? : Commutes text attribute? Declaration.attribute? :=
  ite_isAt _ (skipAttribute.bind fun _ => pure rfl) (pure rfl)

theorem attributes : Commutes text attributes Declaration.attributes :=
  (many attribute?).bind fun _ => pure rfl

end Commutes

namespace Cursor.Alike

variable {text : List Char} {c d : Cursor}

theorem isModifiedByClass_eq (h : Alike text c d) :
    isModifiedByClass d = isModifiedByClass c := by
  unfold isModifiedByClass
  rw [h.kind_eq, h.current.contains_word (by decide +kernel)]

theorem isModified_eq (h : Alike text c d) : isModified d = isModified c := by
  unfold isModified
  rw [h.kind_eq]

theorem isAtModifier_eq (h : Alike text c d) : isAtModifier d = isAtModifier c := by
  unfold isAtModifier
  rw [h.kind_eq, h.current.contains_word (by decide +kernel), h.advance.isModifiedByClass_eq,
    h.advance.skipAdjacentParen.isModified_eq]

end Cursor.Alike

namespace Commutes

variable {text : List Char}

theorem modifier : Commutes text modifier Declaration.modifier := by
  apply ite_isAt
  · exact skipAttribute.bind fun _ => pure rfl
  · apply ite_ask Alike.isAtModifier_eq
    · exact (move fun h => h.advance.skipAdjacentParen).bind fun _ => pure rfl
    · exact pure rfl

theorem modifiers : Commutes text modifiers Declaration.modifiers :=
  (many modifier).bind fun _ => pure rfl

end Commutes

namespace Cursor.Alike

variable {text : List Char} {c d : Cursor}

theorem isAtActor_eq (h : Alike text c d) : isAtActor d = isAtActor c := by
  unfold isAtActor
  dsimp only
  rw [h.kind_eq, h.current.beq_word (by decide), h.advance.kind_eq, h.advance.onNewLine_eq]

theorem isAtDeclaration_eq (h : Alike text c d) : isAtDeclaration d = isAtDeclaration c := by
  have hbehind := (Commutes.modifiers h).2
  unfold isAtDeclaration
  dsimp only
  rw [hbehind.kind_eq, hbehind.isAtActor_eq]

theorem accessorOf_eq (h : Alike text c d) : accessorOf d = accessorOf c := by
  have hfirst := (Commutes.attributes h.advance).2
  unfold accessorOf
  dsimp only
  rw [hfirst.kind_eq, hfirst.current.beq_word (by decide), hfirst.current.beq_word (by decide)]

theorem endsOperatorName_eq (h : Alike text c d) :
    endsOperatorName d = endsOperatorName c := by
  unfold endsOperatorName
  rw [h.kind_eq, h.isSeparated_eq, h.onNewLine_eq]

theorem endsParameter_eq (h : Alike text c d) : endsParameter d = endsParameter c := by
  unfold endsParameter
  rw [h.kind_eq]

/-! ## Moves -/

theorem skipGenerics (h : Alike text c d) : Alike text (skipGenerics c) (skipGenerics d) :=
  ite (by rw [h.kind_eq]) (fun _ => h.skipGenericClause) fun _ => h

theorem skipWhere (h : Alike text c d) : Alike text (skipWhere c) (skipWhere d) :=
  ite (by rw [h.kind_eq]) (fun _ => h.skipWhereClause) fun _ => h

theorem skipHeader (h : Alike text c d) : Alike text (skipHeader c) (skipHeader d) :=
  h.skipUntil fun h' => by rw [h'.kind_eq]

theorem skipFailureMark (h : Alike text c d) :
    Alike text (skipFailureMark c) (skipFailureMark d) :=
  ite (by rw [h.kind_eq, h.isSeparated_eq]) (fun _ => h.advance) fun _ => h

theorem skipDirective (h : Alike text c d) : Alike text (skipDirective c) (skipDirective d) := by
  have hword : ∀ {word : String}, '\n' ∉ word.toList →
      (d.current.text = word ↔ c.current.text = word) := h.current.eq_word_iff
  rw [skipDirective_eq, skipDirective_eq]
  apply ite (by rw [hword (by decide), hword (by decide)])
  · exact fun _ => h.advance.skipUntil Alike.onNewLine_eq
  · intro _
    apply ite (by rw [hword (by decide), hword (by decide)])
    · exact fun _ => h.advance
    · exact fun _ => h.skipStatement

end Cursor.Alike

namespace Commutes

variable {text : List Char} {α : Type} [Converted α]

/-! ## Lists of declarations -/

theorem item {body : Nat → Parser (Option α)}
    (h : ∀ start, Commutes text (body start) (body (Text.crlfOffset text start))) :
    Commutes text (item body) (Declaration.item body) := by
  apply ite_isAt
  · exact (move Alike.skipDirective).bind fun _ => pure rfl
  · apply ite_ask Alike.isAtDeclaration_eq
    · apply bind_current
      intro first first' hfirst
      rw [hfirst.start_eq]
      exact modifiers.bind fun _ => h first.start
    · exact skipStatement.bind fun _ => pure rfl

theorem items (inBlock : Bool) {one : Parser (Option α)} (h : Commutes text one one) :
    Commutes text (items inBlock one) (Declaration.items inBlock one) := by
  refine (collect ?_).bind fun found => pure (convert_filterMap_id text found).symm
  apply bind_kind
  intro k
  apply ite Iff.rfl
  · exact fun _ => pure rfl
  · intro _
    apply ite Iff.rfl
    · exact fun _ => advance.bind fun _ => pure rfl
    · exact fun _ => h.advancing.bind fun _ => pure rfl

/-! ## Names and types -/

/-- A name stands in one line, so it stays as it is. -/
theorem nameOf (what : Expectation) : Commutes text (nameOf what) (Declaration.nameOf what) := by
  intro c d h
  unfold Declaration.nameOf
  simp only [Parser.bind_current, Parser.bind_isAtName, run_ite, h.kind_eq]
  by_cases hname : c.kind.isName = true
  · rw [if_pos hname, if_pos hname]
    refine ⟨?_, h.advance⟩
    show Name.bare d.current.text = Text.crlf (Name.bare c.current.text)
    rw [h.name_eq hname, Text.crlf_eq_self (Name.lineFeed_not_mem_bare (h.inLine hname))]
  · rw [if_neg hname, if_neg hname]
    exact ⟨rfl, h.reportHere _⟩

theorem ascription : Commutes text ascription Declaration.ascription :=
  (typeExpr TypeExpr.nestingLimit).spanned.bind fun _ => pure rfl

theorem ascriptionBehind (k : Kind) :
    Commutes text (ascriptionBehind k) (Declaration.ascriptionBehind k) :=
  ite_isAt _ (advance.bind fun _ => ascription.bind fun _ => pure rfl) (pure rfl)

/-! ## Variables -/

theorem pattern : Commutes text pattern Declaration.pattern :=
  ite_isAt _ (move Alike.skipBalanced) (ite_isAtName advance (reportHere _))

theorem accessor : Commutes text accessor Declaration.accessor := by
  apply ite_isAt
  · apply bind_get
    intro c d h
    rw [h.accessorOf_eq]
    exact (move Alike.skipBalanced).bind fun _ => pure rfl
  · exact pure rfl

theorem skipExpression (oneLine : Bool) :
    Commutes text (Parser.move (Cursor.skipExpression oneLine))
      (Parser.move (Cursor.skipExpression oneLine)) := move (Alike.skipExpression oneLine)

theorem initialValue : Commutes text initialValue Declaration.initialValue := by
  apply ite_isAt
  · exact advance.bind fun _ => (skipExpression true).spanned.bind fun _ => pure rfl
  · exact pure rfl

theorem binding : Commutes text binding Declaration.binding := by
  refine pattern.written.bind fun name => (ascriptionBehind .colon).bind fun type => ?_
  refine initialValue.bind fun value => ?_
  apply ite (by cases value <;> rfl)
  · exact fun _ => accessor.bind fun block => pure (by cases block <;> rfl)
  · exact fun _ => (pure rfl).bind fun block => pure (by cases block <;> rfl)

theorem furtherBinding : Commutes text furtherBinding Declaration.furtherBinding :=
  ite_isAt _ (advance.bind fun _ => binding.bind fun _ => pure rfl) (pure rfl)

theorem variableDecl (start : Nat) : Commutes text (variableDecl start)
    (Declaration.variableDecl (Text.crlfOffset text start)) :=
  bind_isAt _ fun _ => advance.bind fun _ => binding.bind fun _ =>
    (many furtherBinding).bind fun _ => (spanFrom rfl).bind fun _ => pure rfl

/-! ## Bodies -/

theorem localVariable : Commutes text localVariable Declaration.localVariable := by
  apply item
  intro start
  have hvariable : Commutes text (do return some (← Declaration.variableDecl start))
      (do return some (← Declaration.variableDecl (Text.crlfOffset text start))) :=
    (variableDecl start).bind fun _ => pure rfl
  apply bind_kind
  intro k
  split
  · exact hvariable
  · exact hvariable
  · exact skipStatement.bind fun _ => pure rfl

theorem codeBlock : Commutes text codeBlock Declaration.codeBlock := by
  apply bind_current
  intro opening opening' hopening
  refine advance.bind fun _ => (items true localVariable).bind fun locals => ?_
  exact (close _ _ _).bind fun _ => (spanFrom hopening.start_eq).bind fun _ => pure rfl

theorem body : Commutes text body Declaration.body :=
  ite_isAt _ (codeBlock.bind fun _ => pure rfl) (pure rfl)

/-! ## Parameters -/

theorem name? : Commutes text name? Declaration.name? := by
  apply bind_current
  intro t u ht
  exact ite_isAtName (advance.bind fun _ => pure (congrArg some ht.text_eq)) (pure rfl)

theorem defaultValue : Commutes text defaultValue Declaration.defaultValue := by
  apply ite_isAt
  · refine advance.bind fun _ => bind_get fun hstart => ?_
    refine (skipExpression false).spanned.bind fun x => bind_get fun h => pure ?_
    exact congrArg (fun s => some (DefaultValue.mk _ s)) (hstart.written_since h)
  · exact pure rfl

theorem parameter : Commutes text parameter Declaration.parameter := by
  refine attributes.bind fun _ => (many name?).bind fun names => bind_isAt _ fun atColon => ?_
  apply ite (by cases names <;> rfl)
  · intro _
    refine (reportHere _).bind fun _ => ?_
    exact (move fun h => h.skipUntil Alike.endsParameter_eq).bind fun _ => pure rfl
  · intro _
    refine advance.bind fun _ => ascription.bind fun type => bind_isAt _ fun variadic => ?_
    apply ite Iff.rfl
    · exact fun _ => advance.bind fun _ => defaultValue.bind fun _ => pure rfl
    · exact fun _ => defaultValue.bind fun _ => pure rfl

theorem parameterSeparator :
    Commutes text parameterSeparator Declaration.parameterSeparator := by
  apply bind_kind
  intro k
  split
  · exact advance
  · exact pure rfl
  · refine (reportHere _).bind fun _ => ?_
    refine (move fun h => h.skipUntil Alike.endsParameter_eq).bind fun _ => ?_
    exact ite_isAt _ advance (pure rfl)

theorem parameterClause : Commutes text parameterClause Declaration.parameterClause := by
  apply bind_current
  intro opening opening' _
  apply ite_isAt
  · refine advance.bind fun _ => (collect ?_).bind fun found => ?_
    · apply bind_kind
      intro k
      apply ite Iff.rfl
      · exact fun _ => pure rfl
      · exact fun _ => parameter.bind fun _ => parameterSeparator.bind fun _ => pure rfl
    · exact (close _ _ _).bind fun _ => pure (convert_filterMap_id text found).symm
  · exact (reportHere _).bind fun _ => pure rfl

/-! ## Functions and initializers -/

theorem effect : Commutes text effect Declaration.effect := by
  apply bind_current
  intro token token' htoken
  apply bind_kind
  intro k
  split
  · exact advance.bind fun _ => pure rfl
  · exact (move fun h => h.advance.skipAdjacentParen).bind fun _ => pure rfl
  · apply ite (by rw [htoken.beq_word (by decide), htoken.beq_word (by decide)])
    · exact fun _ => advance.bind fun _ => pure rfl
    · exact fun _ => pure rfl
  · exact pure rfl

theorem effects : Commutes text effects Declaration.effects :=
  (many effect).bind fun _ => pure rfl

theorem operatorPart : Commutes text operatorPart Declaration.operatorPart :=
  ite_ask Alike.endsOperatorName_eq (pure rfl) (advance.bind fun _ => pure rfl)

theorem operatorName : Commutes text operatorName Declaration.operatorName := by
  apply bind_kind
  intro k
  split
  · exact reportHere _
  · exact reportHere _
  · exact reportHere _
  · exact advance.bind fun _ => (many operatorPart).bind fun _ => pure rfl

theorem functionName : Commutes text functionName Declaration.functionName :=
  ite_isAtName (nameOf _) operatorName.written

theorem functionDecl (start : Nat) : Commutes text (functionDecl start)
    (Declaration.functionDecl (Text.crlfOffset text start)) := by
  refine advance.bind fun _ => functionName.bind fun name => ?_
  refine (move Alike.skipGenerics).bind fun _ => parameterClause.bind fun parameters => ?_
  refine effects.bind fun _ => (ascriptionBehind _).bind fun result => ?_
  refine (move Alike.skipWhere).bind fun _ => body.bind fun block => ?_
  exact (spanFrom rfl).bind fun _ => pure rfl

theorem initializerDecl (start : Nat) : Commutes text (initializerDecl start)
    (Declaration.initializerDecl (Text.crlfOffset text start)) := by
  refine advance.bind fun _ => (move Alike.skipFailureMark).bind fun _ => ?_
  refine (move Alike.skipGenerics).bind fun _ => parameterClause.bind fun parameters => ?_
  refine effects.bind fun _ => (move Alike.skipWhere).bind fun _ => body.bind fun block => ?_
  exact (spanFrom rfl).bind fun _ => pure rfl

/-! ## Aliases and types -/

theorem aliasDecl (start : Nat) : Commutes text (aliasDecl start)
    (Declaration.aliasDecl (Text.crlfOffset text start)) := by
  refine advance.bind fun _ => (nameOf _).bind fun name => ?_
  refine (move Alike.skipGenerics).bind fun _ => ite_isAt _ ?_ ?_
  · refine advance.bind fun _ => ascription.bind fun target => ?_
    exact (spanFrom rfl).bind fun _ => pure rfl
  · exact (reportHere _).bind fun _ => skipStatement.bind fun _ => pure rfl

theorem dottedPart (name : String) : Commutes text (dottedPart name)
    (Declaration.dottedPart (Text.crlf name)) := by
  apply ite_isAt
  · refine advance.bind fun _ => (nameOf _).bind fun part => pure ?_
    show some (Text.crlf name ++ "." ++ Text.crlf part) = some (Text.crlf (name ++ "." ++ part))
    rw [Text.crlf_append, Text.crlf_append]
    rfl
  · exact pure rfl

section members

variable {members : Parser (List Declaration)} (h : Commutes text members members)

include h

theorem protocolDecl (start : Nat) : Commutes text (protocolDecl members start)
    (Declaration.protocolDecl members (Text.crlfOffset text start)) := by
  refine advance.bind fun _ => (nameOf _).bind fun name => (move Alike.skipHeader).bind fun _ => ?_
  refine h.bind fun inner => (spanFrom rfl).bind fun span => pure ?_
  exact congrArg (Declaration.protocol _ _) (crlfList_eq_map text inner).symm

theorem nominalDecl (kind : NominalKind) (start : Nat) :
    Commutes text (nominalDecl members kind start)
      (Declaration.nominalDecl members kind (Text.crlfOffset text start)) := by
  refine advance.bind fun _ => (nameOf _).bind fun first => ?_
  refine (iterate dottedPart first).bind fun name => (move Alike.skipHeader).bind fun _ => ?_
  refine h.bind fun inner => (spanFrom rfl).bind fun span => pure ?_
  exact congrArg (Declaration.nominal kind _ _) (crlfList_eq_map text inner).symm

/-! ## Declarations -/

theorem declaration : Commutes text (declaration members) (Declaration.declaration members) := by
  apply item
  intro start
  have hvariable : Commutes text (do return some (Declaration.bindings (← Declaration.variableDecl start)))
      (do return some (Declaration.bindings (← Declaration.variableDecl (Text.crlfOffset text start)))) :=
    (variableDecl start).bind fun _ => pure rfl
  apply bind_kind
  intro k
  split
  · exact hvariable
  · exact hvariable
  · exact (protocolDecl h start).bind fun _ => pure rfl
  · exact (nominalDecl h _ start).bind fun _ => pure rfl
  · exact (nominalDecl h _ start).bind fun _ => pure rfl
  · exact (nominalDecl h _ start).bind fun _ => pure rfl
  · exact (nominalDecl h _ start).bind fun _ => pure rfl
  · exact (nominalDecl h _ start).bind fun _ => pure rfl
  · exact (functionDecl start).bind fun _ => pure rfl
  · exact (initializerDecl start).bind fun _ => pure rfl
  · exact (aliasDecl start).bind fun d => pure (by cases d <;> rfl)
  · exact skipStatement.bind fun _ => pure rfl

end members

theorem memberBlock {contents : Nat → Parser (List Declaration)}
    (h : ∀ start, Commutes text (contents start) (contents (Text.crlfOffset text start))) :
    Commutes text (memberBlock contents) (Declaration.memberBlock contents) := by
  apply bind_current
  intro opening opening' hopening
  rw [hopening.start_eq]
  apply ite_isAt
  · refine advance.bind fun _ => (h opening.start).bind fun inner => ?_
    exact (close _ _ _).bind fun _ => pure rfl
  · exact (reportHere _).bind fun _ => pure rfl

theorem tooDeep (start : Nat) : Commutes text (tooDeep start)
    (Declaration.tooDeep (Text.crlfOffset text start)) := by
  refine (reportDelimiter _ _ _).bind fun _ => ?_
  refine (move fun h => h.skipUntil ?_).bind fun _ => pure rfl
  intro c d h'
  rw [h'.kind_eq]

/-- Blocks of members in which blocks nest at most `depth` levels deep. -/
theorem members (depth : Nat) : Commutes text (members depth) (Declaration.members depth) := by
  induction depth with
  | zero => exact memberBlock tooDeep
  | succ depth ih => exact memberBlock fun _ => items true (declaration ih)

/-- The declarations of a whole file. -/
theorem declarations : Commutes text Declaration.parser Declaration.parser :=
  items false (declaration (members _))

end Commutes

end AnySome
