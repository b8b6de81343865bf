import AnySome.Proofs.Run.Leads

/-!
# Every parser is steady

A parser is steady if its runs lead somewhere by steps, in the sense of
`Cursor.Leads`. Being steady goes through sequencing, branching and the
loops, so a parser is steady because its parts are; as a class, this is found
without being asked for.
-/

namespace AnySome

/-- Wherever the parser starts, it ends where steps can lead. -/
class Parser.Steady (p : Parser α) : Prop where
  leads (c : Cursor) : c.Leads (p c).2

open AnySome.Parser

/-! ## Moves -/

namespace Cursor

theorem leads_skipWithin (opened : List (Bracket × Nat)) (c : Cursor) :
    c.Leads (c.skipWithin opened) := by
  fun_induction skipWithin opened c with
  | case1 => exact Leads.refl
  | case2 => exact Leads.refl.reportDelimiter _ _
  | case3 => exact (Leads.refl.reportHere _).advance
  | case4 => exact Leads.refl.reportHere _
  | case5 => exact Leads.refl.advance
  | case6 _ _ _ _ _ _ _ _ ih => exact Leads.refl.advance.trans ih

theorem leads_skipBalanced (c : Cursor) : c.Leads c.skipBalanced := leads_skipWithin [] c

theorem leads_skipUntil (isOver : Cursor → Bool) (c : Cursor) :
    c.Leads (c.skipUntil isOver) := by
  fun_induction skipUntil isOver c with
  | case1 => exact Leads.refl
  | case2 => exact Leads.refl
  | case3 c _ _ ih => exact c.leads_skipBalanced.trans ih

theorem leads_skipStatement (c : Cursor) : c.Leads c.skipStatement := by
  unfold skipStatement
  split
  · exact (Leads.refl.reportHere _).advance
  · exact Leads.refl
  · exact c.leads_skipBalanced.trans (leads_skipUntil _ _)

theorem leads_skipExpression (oneLine : Bool) (c : Cursor) :
    c.Leads (c.skipExpression oneLine) := by
  unfold skipExpression
  split
  · exact Leads.refl.reportHere _
  · exact c.leads_skipBalanced.trans (leads_skipUntil _ _)

theorem leads_skipAdjacentParen (c : Cursor) : c.Leads c.skipAdjacentParen := by
  unfold skipAdjacentParen
  split
  · exact c.leads_skipBalanced
  · exact Leads.refl

theorem leads_skipAttribute (c : Cursor) : c.Leads c.skipAttribute := by
  unfold skipAttribute
  simp only
  split
  · exact Leads.refl.advance.advance.trans (leads_skipAdjacentParen _)
  · exact Leads.refl.advance.reportHere _

theorem leads_skipGenericWithin (start depth : Nat) (c : Cursor) :
    c.Leads (c.skipGenericWithin start depth) := by
  fun_induction skipGenericWithin start depth c with
  | case1 => exact Leads.refl.reportDelimiter _ _
  | case2 _ _ _ _ ih => exact Leads.refl.advance.trans ih
  | case3 => exact Leads.refl.advance
  | case4 _ _ _ _ _ ih => exact Leads.refl.advance.trans ih
  | case5 => exact Leads.refl.reportDelimiter _ _
  | case6 => exact Leads.refl.reportDelimiter _ _
  | case7 => exact Leads.refl.reportDelimiter _ _
  | case8 _ c _ _ _ _ _ _ ih => exact c.leads_skipBalanced.trans ih

theorem leads_skipRequirements (afterComma : Bool) (c : Cursor) :
    c.Leads (c.skipRequirements afterComma) := by
  fun_induction skipRequirements afterComma c with
  | case1 => exact Leads.refl
  | case2 => exact Leads.refl
  | case3 _ c _ _ ih => exact c.leads_skipBalanced.trans ih

theorem leads_skipWhereClause (c : Cursor) : c.Leads c.skipWhereClause :=
  Leads.refl.advance.trans (leads_skipRequirements _ _)

end Cursor

namespace Parser

theorem Steady.move {f : Cursor → Cursor} (h : ∀ c : Cursor, c.Leads (f c)) : Steady (move f) := ⟨h⟩

/-! ## Single steps -/

instance (a : α) : Steady (pure a : Parser α) := ⟨fun _ => .refl⟩

instance : Steady (get : Parser Cursor) := ⟨fun _ => .refl⟩

instance : Steady current := ⟨fun _ => .refl⟩

instance : Steady kind := ⟨fun _ => .refl⟩

instance (k : Kind) : Steady (isAt k) := ⟨fun _ => .refl⟩

instance : Steady isAtName := ⟨fun _ => .refl⟩

instance : Steady isSeparated := ⟨fun _ => .refl⟩

instance : Steady advance := ⟨fun _ => Cursor.Leads.refl.advance⟩

instance (fault : Fault) : Steady (reportHere fault) :=
  ⟨fun _ => Cursor.Leads.refl.reportHere _⟩

instance (start : Nat) (fault : Fault) : Steady (reportDelimiter start fault) :=
  ⟨fun _ => Cursor.Leads.refl.reportDelimiter _ _⟩

instance (bracket : Bracket) (start : Nat) : Steady (close bracket start) where
  leads c := by
    unfold close
    split
    · exact Cursor.Leads.refl.advance
    · exact Cursor.Leads.refl.reportDelimiter _ _

/-! ## Sequences, branches and loops -/

instance Steady.bind {p : Parser α} {k : α → Parser β} [Steady p] [∀ a, Steady (k a)] :
    Steady (p >>= k) where
  leads c := (Steady.leads (p := p) c).trans (Steady.leads (p := k (p c).1) (p c).2)

instance {P : Prop} [Decidable P] {p q : Parser α} [Steady p] [Steady q] :
    Steady (if P then p else q) := by
  split <;> infer_instance

instance {p : Parser Unit} [Steady p] : Steady (written p) :=
  ⟨fun c => Steady.leads (p := p) c⟩

instance {p : Parser α} [Steady p] : Steady (spanned p) :=
  ⟨fun c => Steady.leads (p := p) c⟩

instance {round : Parser (Round α)} [Steady round] : Steady (collect round) where
  leads c := by
    fun_induction collect round c with
    | case1 c later h => simpa [h] using Steady.leads (p := round) c
    | case2 c a later h => simpa [h] using Steady.leads (p := round) c
    | case3 c a later h _ as final heq ih =>
      have hround : c.Leads later := by simpa [h] using Steady.leads (p := round) c
      rw [heq] at ih
      exact hround.trans ih
    | case4 c a later h _ => simpa [h] using Steady.leads (p := round) c

theorem leads_iterate {round : α → Parser (Option α)} [∀ a, Steady (round a)] (a : α)
    (c : Cursor) : c.Leads (iterate round a c).2 := by
  fun_induction iterate round a c with
  | case1 a c later h => simpa [h] using Steady.leads (p := round a) c
  | case2 a c b later h _ ih =>
    have hround : c.Leads later := by simpa [h] using Steady.leads (p := round a) c
    exact hround.trans ih
  | case3 a c b later h _ => simpa [h] using Steady.leads (p := round a) c

instance {round : α → Parser (Option α)} [∀ a, Steady (round a)] (a : α) :
    Steady (iterate round a) := ⟨leads_iterate a⟩

instance {item : Parser (Option α)} [Steady item] : Steady (many item) := by
  unfold many
  infer_instance

instance (isOver : Kind → Bool) {item : Parser α} [Steady item] :
    Steady (commaSeparated isOver item) := by
  unfold commaSeparated
  infer_instance

instance : Steady (move Cursor.skipBalanced) := .move Cursor.leads_skipBalanced

instance (isOver : Cursor → Bool) : Steady (move fun c => c.skipUntil isOver) :=
  .move (Cursor.leads_skipUntil isOver)

instance : Steady (move Cursor.skipStatement) := .move Cursor.leads_skipStatement

instance (oneLine : Bool) : Steady (move (Cursor.skipExpression oneLine)) :=
  .move (Cursor.leads_skipExpression oneLine)

instance : Steady (move Cursor.skipAttribute) := .move Cursor.leads_skipAttribute

instance : Steady (move fun c => c.advance.skipAdjacentParen) :=
  .move fun _ => Cursor.Leads.refl.advance.trans (Cursor.leads_skipAdjacentParen _)

end Parser

/-! ## Types -/

-- A parser of many steps is a deep term for the search of instances.
set_option synthInstance.maxSize 4096

namespace TypeExpr

instance : Steady specifier := by
  unfold specifier
  infer_instance

instance : Steady label := by
  unfold label
  refine @Steady.bind _ _ _ _ _ fun c => ?_
  split <;> infer_instance

instance : Steady effect := by
  unfold effect
  infer_instance

instance : Steady effects := by
  unfold effects
  refine @Steady.bind _ _ _ _ _ fun found => ?_
  cases found <;> infer_instance

variable {inner : Parser TypeExpr} [Steady inner]

instance : Steady (genericArguments inner) := by
  unfold genericArguments
  infer_instance

instance : Steady (element inner) := by
  unfold element
  infer_instance

instance : Steady (tupleOrFunction inner) := by
  unfold tupleOrFunction
  dsimp only
  infer_instance

instance : Steady (primary inner) := by
  unfold primary
  refine @Steady.bind _ _ _ _ _ fun token => ?_
  refine @Steady.bind _ _ _ _ _ fun k => ?_
  split <;> infer_instance

instance (start : Cursor) (type : TypeExpr) : Steady (suffix inner start type) := by
  unfold suffix
  refine @Steady.bind _ _ _ _ _ fun separated => ?_
  split
  · infer_instance
  · refine @Steady.bind _ _ _ _ _ fun k => ?_
    dsimp only
    split <;> infer_instance

instance : Steady (suffixed inner) := by
  unfold suffixed
  infer_instance

instance : Steady (composedWith inner) := by
  unfold composedWith
  infer_instance

instance : Steady (level inner) := by
  unfold level
  refine @Steady.bind _ _ _ _ _ fun start => ?_
  refine @Steady.bind _ _ _ _ _ fun specifiers => ?_
  split
  · infer_instance
  · refine @Steady.bind _ _ _ _ _ fun c => ?_
    split <;> infer_instance

instance steadyOfDepth : (depth : Nat) → Steady (parser depth)
  | 0 => by
    unfold parser
    infer_instance
  | depth + 1 => by
    have := steadyOfDepth depth
    unfold parser
    infer_instance

end TypeExpr

/-! ## Declarations -/

namespace Declaration

instance : Steady attribute? := by
  unfold attribute?
  infer_instance

instance : Steady attributes := by
  unfold attributes
  infer_instance

instance : Steady modifier := by
  unfold modifier
  infer_instance

instance : Steady modifiers := by
  unfold modifiers
  infer_instance

/-- The branches of a directive's match, told by their words. -/
theorem skipDirective_eq (c : Cursor) : skipDirective c =
    if c.current.text = "#if" ∨ c.current.text = "#elseif" then
      c.advance.skipUntil (·.current.onNewLine)
    else if c.current.text = "#else" ∨ c.current.text = "#endif" then c.advance
    else c.skipStatement := by
  unfold skipDirective
  split <;> simp_all

theorem leads_skipDirective (c : Cursor) : c.Leads (skipDirective c) := by
  rw [skipDirective_eq]
  split
  · exact Cursor.Leads.refl.advance.trans (Cursor.leads_skipUntil _ _)
  split
  · exact Cursor.Leads.refl.advance
  · exact c.leads_skipStatement

instance : Steady (move skipDirective) := .move leads_skipDirective

instance steady_item {body : Nat → Parser (Option α)} [∀ start, Steady (body start)] :
    Steady (item body) := by
  unfold item
  infer_instance

instance {p : Parser α} [Steady p] : Steady (advancing p) where
  leads c := by
    have hp := Steady.leads (p := p) c
    show c.Leads (if (p c).2.remaining < c.remaining then (p c).2 else (p c).2.advance)
    split
    · exact hp
    · exact hp.advance

instance (inBlock : Bool) {one : Parser (Option α)} [Steady one] : Steady (items inBlock one) := by
  unfold items
  infer_instance

instance (what : Expectation) : Steady (nameOf what) := by
  unfold nameOf
  infer_instance

instance (start : Nat) : Steady (spanFrom start) := ⟨fun _ => .refl⟩

instance : Steady ascription := by
  unfold ascription
  infer_instance

instance (k : Kind) : Steady (ascriptionBehind k) := by
  unfold ascriptionBehind
  infer_instance

theorem leads_skipGenerics (c : Cursor) : c.Leads (skipGenerics c) := by
  unfold skipGenerics
  split
  · exact Cursor.leads_skipGenericWithin _ _ _
  · exact .refl

theorem leads_skipWhere (c : Cursor) : c.Leads (skipWhere c) := by
  unfold skipWhere
  split
  · exact c.leads_skipWhereClause
  · exact .refl

theorem leads_skipFailureMark (c : Cursor) : c.Leads (skipFailureMark c) := by
  unfold skipFailureMark
  split
  · exact Cursor.Leads.refl.advance
  · exact .refl

instance : Steady (move skipGenerics) := .move leads_skipGenerics

instance : Steady (move skipWhere) := .move leads_skipWhere

instance : Steady (move skipFailureMark) := .move leads_skipFailureMark

instance : Steady (move skipHeader) := .move (Cursor.leads_skipUntil _)

instance : Steady pattern := by
  unfold pattern
  infer_instance

instance : Steady accessor := by
  unfold accessor
  infer_instance

instance : Steady initialValue := by
  unfold initialValue
  infer_instance

instance : Steady binding := by
  unfold binding
  dsimp only
  infer_instance

instance : Steady furtherBinding := by
  unfold furtherBinding
  infer_instance

instance (start : Nat) : Steady (variableDecl start) := by
  unfold variableDecl
  infer_instance

instance (start : Nat) : Steady (localBehind start) := by
  unfold localBehind
  refine @Steady.bind _ _ _ _ _ fun k => ?_
  split <;> infer_instance

instance : Steady localVariable := by
  unfold localVariable
  infer_instance

instance : Steady codeBlock := by
  unfold codeBlock
  infer_instance

instance : Steady body := by
  unfold body
  infer_instance

instance : Steady name? := by
  unfold name?
  infer_instance

instance : Steady defaultValue := by
  unfold defaultValue
  infer_instance

instance : Steady parameter := by
  unfold parameter
  dsimp only
  infer_instance

instance : Steady parameterSeparator := by
  unfold parameterSeparator
  refine @Steady.bind _ _ _ _ _ fun k => ?_
  split <;> infer_instance

instance : Steady parameterClause := by
  unfold parameterClause
  infer_instance

instance (token : Token) : Steady (effectOf token) := by
  unfold effectOf
  refine @Steady.bind _ _ _ _ _ fun k => ?_
  split <;> infer_instance

instance : Steady effect := by
  unfold effect
  infer_instance

instance : Steady effects := by
  unfold effects
  infer_instance

instance : Steady operatorPart := by
  unfold operatorPart
  infer_instance

instance : Steady operatorName := by
  unfold operatorName
  refine @Steady.bind _ _ _ _ _ fun k => ?_
  split <;> infer_instance

instance : Steady functionName := by
  unfold functionName
  infer_instance

instance (start : Nat) : Steady (functionDecl start) := by
  unfold functionDecl
  infer_instance

instance (start : Nat) : Steady (initializerDecl start) := by
  unfold initializerDecl
  infer_instance

instance (start : Nat) : Steady (aliasDecl start) := by
  unfold aliasDecl
  infer_instance

instance (name : String) : Steady (dottedPart name) := by
  unfold dottedPart
  infer_instance

instance (start : Nat) : Steady (tooDeep start) := by
  unfold tooDeep
  infer_instance

instance {contents : Nat → Parser (List Declaration)} [∀ start, Steady (contents start)] :
    Steady (memberBlock contents) := by
  unfold memberBlock
  infer_instance

section

variable {inner : Parser (List Declaration)} [Steady inner]

instance (start : Nat) : Steady (protocolDecl inner start) := by
  unfold protocolDecl
  infer_instance

instance (kind : NominalKind) (start : Nat) : Steady (nominalDecl inner kind start) := by
  unfold nominalDecl
  infer_instance

instance (start : Nat) : Steady (declarationBehind inner start) := by
  unfold declarationBehind
  refine @Steady.bind _ _ _ _ _ fun k => ?_
  split <;> infer_instance

instance : Steady (declaration inner) := by
  unfold declaration
  infer_instance

end

instance steady_members : (depth : Nat) → Steady (members depth)
  | 0 => by
    unfold members
    infer_instance
  | depth + 1 => by
    have := steady_members depth
    unfold members
    infer_instance

instance : Steady parser := by
  unfold parser
  infer_instance

end Declaration

end AnySome
