import AnySome.Proofs.Mirror.Simulation

/-!
# Declarations in a revised text

Every part of the reader of declarations mirrors itself: what it reads in a
revised text is what it reads in the text, with the types of the revision.
The parts are taken one after the other, by the rules of `Mirrors`; types
stand behind a colon, an equals sign or an arrow, and nowhere else.

## Main results

* `Mirrors.parser` — a whole file.
-/

namespace AnySome

open Cursor AnySome.Parser Declaration

namespace Mirrors

-- That a sequence of many steps is steady is a deep search.
set_option synthInstance.maxSize 4096

variable {w : Revision} {ι : Type}

/-! ## Attributes and modifiers -/

theorem attribute? : Mirrors w [] attribute? (fun _ : ι => Declaration.attribute?) := by
  unfold Declaration.attribute?
  refine (isAt .atSign).bind_plain fun b => ite (fun _ => ?_) fun _ => pure rfl fun _ => rfl
  exact (move .skipAttribute leads_skipAttribute).bind_plain fun _ => pure rfl fun _ => rfl

theorem attributes : Mirrors w [] attributes (fun _ : ι => Declaration.attributes) :=
  (many attribute?).bind_plain fun _ => pure rfl fun _ => rfl

theorem advance_skipAdjacentParen :
    Mirrors w [] (Parser.move fun c => c.advance.skipAdjacentParen)
      (fun _ : ι => Parser.move fun c => c.advance.skipAdjacentParen) :=
  move (.comp (f := Cursor.advance) .advance .skipAdjacentParen leads_skipAdjacentParen)
    fun _ => Leads.refl.advance.trans (leads_skipAdjacentParen _)

theorem modifier : Mirrors w [] modifier (fun _ : ι => Declaration.modifier) := by
  unfold Declaration.modifier
  refine (isAt .atSign).bind_plain fun b => ite (fun _ => ?_) fun _ => ?_
  · exact (move .skipAttribute leads_skipAttribute).bind_plain fun _ => pure rfl fun _ => rfl
  refine bind_get (g := isAtModifier) Twins.isAtModifier_eq
    (k := fun b => if b then do
      Parser.move fun c => c.advance.skipAdjacentParen
      return some ()
    else return none) fun b => ite (fun _ => ?_) fun _ => pure rfl fun _ => rfl
  exact advance_skipAdjacentParen.bind_plain fun _ => pure rfl fun _ => rfl

theorem modifiers : Mirrors w [] modifiers (fun _ : ι => Declaration.modifiers) :=
  (many modifier).bind_plain fun _ => pure rfl fun _ => rfl

/-! ## Lists of declarations -/

section Items

variable {α : Type} [Mirrored α]

theorem item {body : Nat → Parser (Option α)} [∀ start, Steady (body start)]
    (h : ∀ (start : Nat) {κ : Type} (start' : κ → Nat),
      Mirrors w [] (body start) (fun i => body (start' i))) :
    Mirrors w [] (item body) (fun _ : ι => Declaration.item body) := by
  unfold Declaration.item
  refine (isAt .poundKeyword).bind_plain fun b => ite (fun _ => ?_) fun _ => ?_
  · exact (move retraces_skipDirective leads_skipDirective).bind_plain
      fun _ => pure rfl fun _ => rfl
  refine bind_get (g := isAtDeclaration) Twins.isAtDeclaration_eq
    (k := fun b => if b then do
      let first ← Parser.current
      Declaration.modifiers
      body first.start
    else do
      Parser.move Cursor.skipStatement
      return none) fun b => ite (fun _ => ?_) fun _ => ?_
  · refine current.bind fun first => ?_
    exact modifiers.bind_plain fun _ => h _ _
  · exact (move .skipStatement leads_skipStatement).bind_plain fun _ => pure rfl fun _ => rfl

theorem items (inBlock : Bool) {one : Parser (Option α)} [Steady one]
    (h : Mirrors w [] one (fun _ : ι => one)) :
    Mirrors w [] (items inBlock one) (fun _ : ι => Declaration.items inBlock one) := by
  unfold Declaration.items
  refine (collect ?_).bind fun found => ?_
  · refine kind.bind_plain fun k => ite (fun _ => pure rfl fun _ => rfl) fun _ => ?_
    refine ite (fun _ => advance.bind_plain fun _ => pure rfl fun _ => rfl) fun _ => ?_
    exact h.advancing.bind fun o => pure rfl fun x => congrArg Round.more x.2
  · exact pure (Mirrored.ascriptions_filterMap_id found).symm fun x => x.2.filterMap_id

end Items

/-! ## Names and types -/

theorem nameOf (what : Expectation) :
    Mirrors w [] (nameOf what) (fun _ : ι => Declaration.nameOf what) := by
  unfold Declaration.nameOf
  refine current.bind fun token => isAtName.bind_plain fun b => ite (fun _ => ?_) fun _ => ?_
  · exact advance.bind_plain fun _ => pure rfl fun x => congrArg Name.bare x.2.text_eq
  · exact reportHere_bind

theorem ascriptionBehind {k : Kind} (hk : isGuard k = true) :
    Mirrors w [] (ascriptionBehind k) (fun _ : ι => Declaration.ascriptionBehind k) := by
  unfold Declaration.ascriptionBehind
  refine bind_ascription hk (if_pos rfl) (fun _ => if_pos rfl) ?_ ?_
  · exact pure rfl fun _ => rfl
  · intro a
    exact pure rfl fun x => x.2.some

/-! ## Variables -/

theorem pattern : Mirrors w [] pattern (fun _ : ι => Declaration.pattern) := by
  unfold Declaration.pattern
  refine (isAt _).bind_plain fun b => ite (fun _ => ?_) fun _ => ?_
  · exact move .skipBalanced leads_skipBalanced
  refine isAtName.bind_plain fun b => ite (fun _ => advance) fun _ => ?_
  exact vacuous (findings_reportHere_ne_nil _)

/-- An accessor block, with what it holds. -/
def block : Option Accessor → Parser (Option Accessor)
  | none => return none
  | some a => do
    Parser.move Cursor.skipBalanced
    return some a

instance (o : Option Accessor) : Steady (block o) := by
  cases o <;> (unfold block; infer_instance)

theorem accessor_eq : Declaration.accessor =
    get >>= fun c => block (if c.kind = .opening .brace then some (accessorOf c) else none) := by
  funext c
  simp only [Declaration.accessor, bind_isAt, Parser.bind_get, run_ite, beq_iff_eq]
  split <;> rfl

theorem accessor : Mirrors w [] accessor (fun _ : ι => Declaration.accessor) := by
  rw [accessor_eq]
  refine bind_get (g := fun c => if c.kind = .opening .brace then some (accessorOf c) else none)
    (k := block) ?_ fun o => ?_
  · intro fin K c d h
    simp only [h.kind_eq]
    split
    next hk => rw [h.accessorOf_eq hk]
    · rfl
  · cases o with
    | none => exact pure rfl fun _ => rfl
    | some a =>
      exact (move .skipBalanced leads_skipBalanced).bind_plain fun _ => pure rfl fun _ => rfl

theorem skipExpression (oneLine : Bool) :
    Mirrors w [] (Parser.move (Cursor.skipExpression oneLine))
      (fun _ : ι => Parser.move (Cursor.skipExpression oneLine)) :=
  move (.skipExpression oneLine) (leads_skipExpression oneLine)

theorem initialValue : Mirrors w [] initialValue (fun _ : ι => Declaration.initialValue) := by
  unfold Declaration.initialValue
  refine (isAt .equals).bind_plain fun b => ite (fun _ => ?_) fun _ => pure rfl fun _ => rfl
  refine advance.bind_plain fun _ => (skipExpression true).spanned.bind fun x => ?_
  exact pure rfl fun x => rfl

theorem binding : Mirrors w [] binding (fun _ : ι => Declaration.binding) := by
  unfold Declaration.binding
  dsimp only
  refine pattern.written.bind_plain fun name => ?_
  refine (ascriptionBehind rfl).bind fun type => initialValue.bind fun value => ?_
  have hseen : [] ++ Mirrored.ascriptions type ++ Mirrored.ascriptions value = type.toList := by
    rw [ascriptions_result, ascriptions_initializer, List.nil_append, List.append_nil]
  refine ite_of_iff (fun x => by rw [x.2.isNone_eq]) (fun _ => ?_) fun _ => ?_
  · exact accessor.bind_plain fun block => pure hseen fun x => .binding x.1.1.2 x.2 name block
  · exact bind_plain (pure rfl fun _ => rfl) fun block =>
      pure hseen fun x => .binding x.1.1.2 x.2 name block

theorem furtherBinding :
    Mirrors w [] furtherBinding (fun _ : ι => Declaration.furtherBinding) := by
  unfold Declaration.furtherBinding
  refine (isAt .comma).bind_plain fun b => ite (fun _ => ?_) fun _ => pure rfl fun _ => rfl
  refine advance.bind_plain fun _ => binding.bind fun b => pure ?_ fun x => x.2.some
  exact (List.append_nil _).symm

theorem variableDecl (start : Nat) (start' : ι → Nat) :
    Mirrors w [] (variableDecl start) (fun i => Declaration.variableDecl (start' i)) := by
  unfold Declaration.variableDecl
  refine (isAt _).bind_plain fun isLet => advance.bind_plain fun _ => ?_
  refine binding.bind fun first => (many furtherBinding).bind fun more => ?_
  refine (spanFrom start _).bind fun span => pure ?_ fun x => ?_
  · show first.ascription.toList ++ Mirrored.ascriptions more ++ [] =
      (first :: more).filterMap Binding.ascription
    rw [← ascriptions_bindings, List.append_nil]
    rfl
  · exact .variableDecl (x.1.1.1.1.2.cons x.1.1.2) isLet span x.1.2

/-! ## Bodies -/

theorem localBehind (start : Nat) (start' : ι → Nat) :
    Mirrors w [] (localBehind start) (fun i => Declaration.localBehind (start' i)) := by
  unfold Declaration.localBehind
  refine bind_kind (fun k => ?_) (fun i k => ?_) fun k => ?_
  · split <;> infer_instance
  · split <;> infer_instance
  split
  · refine (variableDecl start start').bind fun d => pure ?_ fun x => x.2.some
    exact (List.append_nil _).symm
  · refine (variableDecl start start').bind fun d => pure ?_ fun x => x.2.some
    exact (List.append_nil _).symm
  · exact (move .skipStatement leads_skipStatement).bind_plain fun _ => pure rfl fun _ => rfl

theorem localVariable : Mirrors w [] localVariable (fun _ : ι => Declaration.localVariable) :=
  item fun start _ start' => localBehind start start'

theorem codeBlock : Mirrors w [] codeBlock (fun _ : ι => Declaration.codeBlock) := by
  unfold Declaration.codeBlock
  refine current.bind fun opening => advance.bind_plain fun _ => ?_
  refine ((items true localVariable).comap (fun _ => ()) fun _ => rfl).bind fun locals => ?_
  refine (close .brace opening.start _).bind_plain fun _ => ?_
  refine (spanFrom opening.start _).bind fun span => pure ?_ fun x => ?_
  · exact List.append_nil _
  · exact .codeBlock x.1.1.2 span x.1.2

theorem body : Mirrors w [] body (fun _ : ι => Declaration.body) := by
  unfold Declaration.body
  refine (isAt _).bind_plain fun b => ite (fun _ => ?_) fun _ => pure rfl fun _ => rfl
  refine codeBlock.bind fun block => pure ?_ fun x => x.2.some
  exact (List.append_nil _).symm

/-! ## Parameters -/

theorem name? : Mirrors w [] name? (fun _ : ι => Declaration.name?) := by
  unfold Declaration.name?
  refine current.bind fun token => isAtName.bind_plain fun b => ?_
  refine ite (fun _ => ?_) fun _ => pure rfl fun _ => rfl
  exact advance.bind_plain fun _ => pure rfl fun x => congrArg some x.2.text_eq

theorem defaultValue_eq : Declaration.defaultValue = do
    if ← Parser.isAt .equals then
      Parser.advance
      let x ← Parser.spanned (Parser.written (Parser.move (Cursor.skipExpression false)))
      return some ⟨x.2, x.1⟩
    else return none := rfl

theorem defaultValue : Mirrors w [] defaultValue (fun _ : ι => Declaration.defaultValue) := by
  rw [defaultValue_eq]
  refine (isAt .equals).bind_plain fun b => ite (fun _ => ?_) fun _ => pure rfl fun _ => rfl
  refine advance.bind_plain fun _ => (skipExpression false).written.spanned.bind fun x => ?_
  refine pure rfl fun y => ?_
  have htext : y.1.2.1 = x.1 := (congrArg Prod.fst y.2 : _)
  exact congrArg (fun text => some (⟨default, text⟩ : DefaultValue)) htext

theorem parameter : Mirrors w [] parameter (fun _ : ι => Declaration.parameter) := by
  unfold Declaration.parameter
  dsimp only
  refine attributes.bind_plain fun _ => (many name?).bind_plain fun names => ?_
  cases names.isEmpty with
  | true => exact (isAt .colon).bind_plain fun _ => reportHere_bind
  | false =>
    refine bind_ascription (g := .colon) rfl (if_neg Bool.false_ne_true)
      (fun _ => if_neg Bool.false_ne_true) reportHere_bind fun type => ?_
    refine (isAt .ellipsis).bind_plain fun variadic => ?_
    have hseen : ∀ value : Option DefaultValue,
        [] ++ [type] ++ Mirrored.ascriptions value = [type] := by
      intro value
      rw [ascriptions_default, List.append_nil, List.nil_append]
    refine ite (fun _ => advance.bind_plain fun _ => ?_) fun _ => ?_
    · exact defaultValue.bind fun value => pure (hseen value) fun x =>
        (Both.parameter x.1.1.2 x.2 names variadic).some
    · exact defaultValue.bind fun value => pure (hseen value) fun x =>
        (Both.parameter x.1.1.2 x.2 names variadic).some

theorem parameterSeparator :
    Mirrors w [] parameterSeparator (fun _ : ι => Declaration.parameterSeparator) := by
  unfold Declaration.parameterSeparator
  refine bind_kind (fun k => ?_) (fun _ k => ?_) fun k => ?_
  · split <;> infer_instance
  · split <;> infer_instance
  · split
    · exact advance
    · exact pure rfl fun _ => rfl
    · exact reportHere_bind

theorem parameterClause :
    Mirrors w [] parameterClause (fun _ : ι => Declaration.parameterClause) := by
  unfold Declaration.parameterClause
  refine current.bind fun opening => (isAt _).bind_plain fun b => ite (fun _ => ?_) fun _ => ?_
  · refine advance.bind_plain fun _ => (collect ?_).bind fun found => ?_
    · refine kind.bind_plain fun k => ite (fun _ => pure rfl fun _ => rfl) fun _ => ?_
      refine parameter.bind fun p => parameterSeparator.bind_plain fun _ => ?_
      exact pure rfl fun x => congrArg Round.more x.2
    · refine (close .paren opening.start _).bind_plain fun _ => ?_
      exact pure (Mirrored.ascriptions_filterMap_id found).symm fun x => x.2.filterMap_id
  · exact reportHere_bind

/-! ## Functions and initializers -/

theorem effect : Mirrors w [] effect (fun _ : ι => Declaration.effect) := by
  refine current.bind fun token => ?_
  unfold effectOf
  refine bind_kind (fun k => ?_) (fun x k => ?_) fun k => ?_
  · split <;> infer_instance
  · split <;> infer_instance
  split
  · exact advance.bind_plain fun _ => pure rfl fun _ => rfl
  · exact advance_skipAdjacentParen.bind_plain fun _ => pure rfl fun _ => rfl
  · refine ite_of_iff (fun x => by rw [x.2.text_eq]) (fun _ => ?_) fun _ => pure rfl fun _ => rfl
    exact advance.bind_plain fun _ => pure rfl fun _ => rfl
  · exact pure rfl fun _ => rfl

theorem effects : Mirrors w [] effects (fun _ : ι => Declaration.effects) :=
  (many effect).bind_plain fun _ => pure rfl fun _ => rfl

theorem operatorPart : Mirrors w [] operatorPart (fun _ : ι => Declaration.operatorPart) := by
  unfold Declaration.operatorPart
  refine bind_get (g := endsOperatorName) Twins.endsOperatorName_eq
    (k := fun b => if b then return none else do
      Parser.advance
      return some ()) fun b => ite (fun _ => pure rfl fun _ => rfl) fun _ => ?_
  exact advance.bind_plain fun _ => pure rfl fun _ => rfl

theorem operatorName : Mirrors w [] operatorName (fun _ : ι => Declaration.operatorName) := by
  unfold Declaration.operatorName
  refine bind_kind (fun k => ?_) (fun _ k => ?_) fun k => ?_
  · split <;> infer_instance
  · split <;> infer_instance
  · split
    · exact vacuous (findings_reportHere_ne_nil _)
    · exact vacuous (findings_reportHere_ne_nil _)
    · exact vacuous (findings_reportHere_ne_nil _)
    · refine advance.bind_plain fun _ => ?_
      exact (many operatorPart).bind_plain fun _ => pure rfl fun _ => rfl

theorem functionName : Mirrors w [] functionName (fun _ : ι => Declaration.functionName) := by
  unfold Declaration.functionName
  exact isAtName.bind_plain fun b => ite (fun _ => nameOf _) fun _ => operatorName.written

theorem functionDecl (start : Nat) (start' : ι → Nat) :
    Mirrors w [] (functionDecl start) (fun i => Declaration.functionDecl (start' i)) := by
  unfold Declaration.functionDecl
  refine advance.bind_plain fun _ => functionName.bind_plain fun name => ?_
  refine (move retraces_skipGenerics leads_skipGenerics).bind_plain fun _ => ?_
  refine parameterClause.bind fun parameters => effects.bind_plain fun _ => ?_
  refine (ascriptionBehind rfl).bind fun result => ?_
  refine (move retraces_skipWhere leads_skipWhere).bind_plain fun _ => ?_
  refine body.bind fun block => (spanFrom start _).bind fun span => pure ?_ fun x => ?_
  · rw [ascriptions_parameters, ascriptions_result, ascriptions_body, ascriptions_span,
      List.append_nil, List.nil_append]
    rfl
  · exact .functionDecl x.1.1.1.1.1.1.2 x.1.1.1.1.2 x.1.1.2 name span x.1.2

theorem initializerDecl (start : Nat) (start' : ι → Nat) :
    Mirrors w [] (initializerDecl start) (fun i => Declaration.initializerDecl (start' i)) := by
  unfold Declaration.initializerDecl
  refine advance.bind_plain fun _ => ?_
  refine (move retraces_skipFailureMark leads_skipFailureMark).bind_plain fun _ => ?_
  refine (move retraces_skipGenerics leads_skipGenerics).bind_plain fun _ => ?_
  refine parameterClause.bind fun parameters => effects.bind_plain fun _ => ?_
  refine (move retraces_skipWhere leads_skipWhere).bind_plain fun _ => ?_
  refine body.bind fun block => (spanFrom start _).bind fun span => pure ?_ fun x => ?_
  · rw [ascriptions_parameters, ascriptions_body, ascriptions_span, List.append_nil,
      List.nil_append]
    rfl
  · exact .initializerDecl x.1.1.1.1.2 x.1.1.2 span x.1.2

/-! ## Aliases and types -/

theorem aliasDecl (start : Nat) (start' : ι → Nat) :
    Mirrors w [] (aliasDecl start) (fun i => Declaration.aliasDecl (start' i)) := by
  unfold Declaration.aliasDecl
  refine advance.bind_plain fun _ => (nameOf _).bind_plain fun name => ?_
  refine (move retraces_skipGenerics leads_skipGenerics).bind_plain fun _ => ?_
  refine bind_ascription (g := .equals) rfl (if_pos rfl) (fun _ => if_pos rfl) reportHere_bind
    fun target => ?_
  refine (spanFrom start _).bind fun span => pure rfl fun x => ?_
  exact (Both.aliasDecl x.1.1.2 name span x.1.2).some

theorem protocolDecl {members : Parser (List Declaration)} [Steady members]
    (h : ∀ κ : Type, Mirrors w [] members (fun _ : κ => members)) (start : Nat)
    (start' : ι → Nat) :
    Mirrors w [] (protocolDecl members start)
      (fun i => Declaration.protocolDecl members (start' i)) := by
  unfold Declaration.protocolDecl
  refine advance.bind_plain fun _ => (nameOf _).bind_plain fun name => ?_
  refine (move retraces_skipHeader (leads_skipUntil _)).bind_plain fun _ => ?_
  refine (h _).bind fun inner => (spanFrom start _).bind fun span => pure ?_ fun x => ?_
  · rw [ascriptions_members, ascriptions_span, List.append_nil]
    rfl
  · exact congrArg (Declaration.protocol name default) x.1.1.2.outlineList_eq

theorem dottedPart (name : String) :
    Mirrors w [] (dottedPart name) (fun _ : ι => Declaration.dottedPart name) := by
  unfold Declaration.dottedPart
  refine (isAt .dot).bind_plain fun b => ite (fun _ => ?_) fun _ => pure rfl fun _ => rfl
  exact advance.bind_plain fun _ => (nameOf _).bind_plain fun _ => pure rfl fun _ => rfl

theorem nominalDecl {members : Parser (List Declaration)} [Steady members]
    (h : ∀ κ : Type, Mirrors w [] members (fun _ : κ => members)) (kind : NominalKind)
    (start : Nat) (start' : ι → Nat) :
    Mirrors w [] (nominalDecl members kind start)
      (fun i => Declaration.nominalDecl members kind (start' i)) := by
  unfold Declaration.nominalDecl
  refine advance.bind_plain fun _ => (nameOf _).bind_plain fun first => ?_
  refine (iterate dottedPart first).bind_plain fun name => ?_
  refine (move retraces_skipHeader (leads_skipUntil _)).bind_plain fun _ => ?_
  refine (h _).bind fun inner => (spanFrom start _).bind fun span => pure ?_ fun x => ?_
  · rw [ascriptions_members, ascriptions_span, List.append_nil]
    rfl
  · exact congrArg (Declaration.nominal kind name default) x.1.1.2.outlineList_eq

/-! ## Declarations -/

/-- A result under a constructor of declarations. -/
theorem some_declaration {α : Type} [Mirrored α] {p : Parser α} {q : ι → Parser α} [Steady p]
    [∀ i, Steady (q i)] (h : Mirrors w [] p q) {g : α → Declaration}
    (hascriptions : ∀ a, (g a).ascriptions = Mirrored.ascriptions a)
    (houtline : ∀ f a, (g a).outline f = g (Mirrored.outline f a)) :
    Mirrors w [] (do return some (g (← p))) (fun i => do return some (g (← q i))) := by
  refine h.bind fun a => pure ?_ fun x => ?_
  · show [] ++ Mirrored.ascriptions a = (g a).ascriptions ++ []
    rw [hascriptions, List.append_nil, List.nil_append]
  · apply Both.some
    show (g x.1.2).outline _ = (g a).outline _
    rw [houtline, houtline]
    exact congrArg g x.2

theorem declarationBehind {members : Parser (List Declaration)} [Steady members]
    (h : ∀ κ : Type, Mirrors w [] members (fun _ : κ => members)) (start : Nat)
    (start' : ι → Nat) : Mirrors w [] (declarationBehind members start)
      (fun i => Declaration.declarationBehind members (start' i)) := by
  unfold Declaration.declarationBehind
  refine bind_kind (fun k => ?_) (fun i k => ?_) fun k => ?_
  · split <;> infer_instance
  · split <;> infer_instance
  split
  · exact (variableDecl start start').some_declaration (fun _ => rfl) fun _ _ => rfl
  · exact (variableDecl start start').some_declaration (fun _ => rfl) fun _ _ => rfl
  · exact (protocolDecl h start start').some_declaration (g := id) (fun _ => rfl) fun _ _ => rfl
  · exact (nominalDecl h _ start start').some_declaration (g := id) (fun _ => rfl) fun _ _ => rfl
  · exact (nominalDecl h _ start start').some_declaration (g := id) (fun _ => rfl) fun _ _ => rfl
  · exact (nominalDecl h _ start start').some_declaration (g := id) (fun _ => rfl) fun _ _ => rfl
  · exact (nominalDecl h _ start start').some_declaration (g := id) (fun _ => rfl) fun _ _ => rfl
  · exact (nominalDecl h _ start start').some_declaration (g := id) (fun _ => rfl) fun _ _ => rfl
  · exact (functionDecl start start').some_declaration (fun _ => rfl) fun _ _ => rfl
  · exact (initializerDecl start start').some_declaration (fun _ => rfl) fun _ _ => rfl
  · refine (aliasDecl start start').bind fun d => pure ?_ fun x => ?_
    · cases d <;> rfl
    · have hd : x.1.2.map (AliasDecl.outline _) = d.map (AliasDecl.outline _) := x.2
      have hwrap := congrArg (Option.map Declaration.typeAlias) hd
      rw [Option.map_map, Option.map_map] at hwrap
      show (x.1.2.map _).map _ = (d.map _).map _
      rw [Option.map_map, Option.map_map]
      exact hwrap
  · exact (move .skipStatement leads_skipStatement).bind_plain fun _ => pure rfl fun _ => rfl

theorem declaration {members : Parser (List Declaration)} [Steady members]
    (h : ∀ κ : Type, Mirrors w [] members (fun _ : κ => members)) :
    Mirrors w [] (declaration members) (fun _ : ι => Declaration.declaration members) :=
  item fun start _ start' => declarationBehind h start start'

theorem memberBlock {contents : Nat → Parser (List Declaration)} [∀ start, Steady (contents start)]
    (h : ∀ (start : Nat) {κ : Type} (start' : κ → Nat),
      Mirrors w [] (contents start) (fun i => contents (start' i))) :
    Mirrors w [] (memberBlock contents) (fun _ : ι => Declaration.memberBlock contents) := by
  unfold Declaration.memberBlock
  refine current.bind fun opening => (isAt _).bind_plain fun b => ite (fun _ => ?_) fun _ => ?_
  · refine advance.bind_plain fun _ => (h opening.start _).bind fun inner => ?_
    refine (close .brace opening.start _).bind_plain fun _ => ?_
    exact pure (List.nil_append _) fun x => x.2
  · exact reportHere_bind

theorem members (depth : Nat) {κ : Type} :
    Mirrors w [] (members depth) (fun _ : κ => Declaration.members depth) := by
  induction depth generalizing κ with
  | zero =>
    unfold Declaration.members
    refine memberBlock fun start κ start' => ?_
    unfold Declaration.tooDeep
    exact reportDelimiter_bind
  | succ depth ih =>
    unfold Declaration.members
    exact memberBlock fun start κ start' => items true (declaration fun _ => ih)

/-- A whole file mirrors itself. -/
theorem parser : Mirrors w [] parser (fun _ : ι => Declaration.parser) :=
  items false (declaration fun _ => members nestingLimit)

end Mirrors

end AnySome
