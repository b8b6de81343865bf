import AnySome.Proofs.Balance.Tidy
import AnySome.Proofs.Rewrite.Reread

/-!
# Brackets in accepted files

Every part of the reader of declarations is neat, so the tokens of an accepted
file are balanced outside of the names of operator functions. Inside such a
name a bracket goes unnoticed: `func )() {}` is accepted.

## Main results

* `Neat.parser` — a whole file.
* `SourceFile.balanced_outside_operator_names` — the brackets of an accepted
  file.
* `SourceFile.closing_bracket_in_operator_name` — a file with a bracket in the
  name of an operator.
-/

namespace AnySome

open Cursor AnySome.Parser AnySome.Declaration

namespace Neat

-- That a sequence of many steps is steady is a deep search.
set_option synthInstance.maxSize 4096

variable {P : Kind → Prop}

/-! ## Moves between declarations -/

theorem skipBalanced : Neat P (Parser.move Cursor.skipBalanced) :=
  move fun _ hc _ h => passes_skipBalanced hc h

theorem skipUntil (isOver : Cursor → Bool) : Neat P (Parser.move fun c => c.skipUntil isOver) :=
  move fun _ hc _ h => passes_skipUntil isOver hc h

theorem skipStatement : Neat P (Parser.move Cursor.skipStatement) :=
  move fun _ hc _ h => passes_skipStatement hc h

theorem skipExpression (oneLine : Bool) : Neat P (Parser.move (Cursor.skipExpression oneLine)) :=
  move fun _ hc _ h => passes_skipExpression oneLine hc h

theorem skipAttribute : Neat (isBracket · = false) (Parser.move Cursor.skipAttribute) :=
  move fun _ hc hkind h => passes_skipAttribute hc hkind h

theorem advance_skipAdjacentParen :
    Neat (isBracket · = false) (Parser.move fun c => c.advance.skipAdjacentParen) :=
  move fun _ hc hkind h => passes_advance_skipAdjacentParen hc hkind h

theorem skipDirective : Neat (· = .poundKeyword) (Parser.move skipDirective) := by
  apply move
  intro c hc hkind h
  have hfirst : Passes c c.advance := .advance (by rw [hkind]; rfl)
  unfold Declaration.skipDirective at h ⊢
  split at h
  · exact hfirst.trans (passes_skipUntil _ hc.advance h)
  · exact hfirst.trans (passes_skipUntil _ hc.advance h)
  · exact hfirst
  · exact hfirst
  · exact passes_skipStatement hc h

theorem skipGenerics : Neat P (Parser.move skipGenerics) := by
  apply move
  intro c hc _ h
  unfold Declaration.skipGenerics at h ⊢
  split
  next hk =>
    rw [if_pos hk] at h
    exact passes_skipGenericWithin _ _ hc h
  · exact .refl c

theorem skipWhere : Neat P (Parser.move skipWhere) := by
  apply move
  intro c hc _ h
  unfold Declaration.skipWhere at h ⊢
  split
  next hk =>
    rw [if_pos hk] at h
    have hkind : c.kind = .keyword .whereClause := eq_of_beq hk
    exact (Passes.advance (by rw [hkind]; rfl)).trans (passes_skipRequirements _ hc.advance h)
  · exact .refl c

theorem skipFailureMark : Neat P (Parser.move skipFailureMark) := by
  apply move
  intro c hc _ h
  unfold Declaration.skipFailureMark
  split
  next hk =>
    rw [Bool.and_eq_true, Bool.or_eq_true, beq_iff_eq, beq_iff_eq] at hk
    rcases hk.1 with hkind | hkind
    · exact .advance (by rw [hkind]; rfl)
    · exact .advance (by rw [hkind]; rfl)
  · exact .refl c

/-! ## Attributes and modifiers -/

theorem attributes : Neat P attributes := by
  have hone : Neat anywhere attribute? := by
    apply ite_isAt
    · exact (skipAttribute.weaken (by rintro _ rfl; rfl)).bind fun _ => pure
    · exact pure
  exact (many hone).bind fun _ => pure

theorem isBracket_of_isAtModifier {c : Cursor} (h : isAtModifier c = true) :
    isBracket c.kind = false := by
  unfold isAtModifier at h
  split at h
  next hk => rw [hk]; rfl
  next hk => rw [hk]; rfl
  next hk => rw [hk]; rfl
  · contradiction

theorem modifiers : Neat P modifiers := by
  have hone : Neat anywhere modifier := by
    apply ite_isAt
    · exact (skipAttribute.weaken (by rintro _ rfl; rfl)).bind fun _ => pure
    · apply bind_get
      intro c _
      apply ite
      · intro hmodifier
        have hkind := isBracket_of_isAtModifier hmodifier
        exact (advance_skipAdjacentParen.weaken (by rintro _ rfl; exact hkind)).bind fun _ => pure
      · exact fun _ => pure
  exact (many hone).bind fun _ => pure

/-! ## Lists of declarations -/

theorem item {α : Type} {body : Nat → Parser (Option α)} [∀ start, Steady (body start)]
    (h : ∀ start, Neat anywhere (body start)) : Neat P (item body) := by
  apply ite_isAt
  · exact skipDirective.bind fun _ => pure
  · apply bind_get
    intro c _
    apply ite
    · exact fun _ => bind_current fun first => modifiers.bind fun _ => h first.start
    · exact fun _ => skipStatement.bind fun _ => pure

/-- At a bracket there are no modifiers and no declaration. -/
theorem item_of_bracket {α : Type} {body : Nat → Parser (Option α)} {c : Cursor}
    (h : isBracket c.kind = true) : Declaration.item body c = (none, c.skipStatement) := by
  have hkind : ∀ k, isBracket k = false → ¬c.kind = k := by
    rintro k hk rfl
    rw [hk] at h
    contradiction
  have hmodifier : isAtModifier c = false := by
    rw [Bool.eq_false_iff]
    intro hmodifier
    rw [isBracket_of_isAtModifier hmodifier] at h
    contradiction
  have hnone : Declaration.modifier c = (none, c) := by
    unfold Declaration.modifier
    rw [Parser.bind_isAt, beq_false_of_ne (hkind .atSign rfl)]
    show (if isAtModifier c = true then _ else _ : Parser (Option Unit)) c = _
    rw [hmodifier]
    rfl
  have hmodifiers : (Declaration.modifiers c).2 = c := by
    show (Parser.many Declaration.modifier c).2 = c
    rw [many_of_none hnone]
  have hdeclaration : isAtDeclaration c = false := by
    unfold isAtDeclaration
    rw [hmodifiers]
    dsimp only
    cases hk : c.kind with
    | opening b => rfl
    | closing b => rfl
    | _ => exact absurd hk (hkind _ rfl)
  unfold Declaration.item
  rw [Parser.bind_isAt, beq_false_of_ne (hkind .poundKeyword rfl)]
  show (if isAtDeclaration c = true then _ else _ : Parser (Option α)) c = _
  rw [hdeclaration]
  rfl

theorem item_moves {α : Type} {body : Nat → Parser (Option α)} {c : Cursor}
    (h : isBracket c.kind = true) : (Declaration.item body c).2.remaining < c.remaining := by
  have hpos : 0 < c.pending.length := by
    apply length_pos_of_kind_ne
    intro hk
    rw [hk] at h
    contradiction
  rw [item_of_bracket h]
  dsimp only
  unfold Cursor.skipStatement
  split
  · rw [remaining_eq, remaining_eq, length_advance, pending_reportHere]
    omega
  next hk =>
    rw [hk] at h
    contradiction
  · have hunit := length_skipBalanced_lt hpos
    have hrest := (leads_skipUntil atStatementEnd c.skipBalanced).remaining_le
    rw [remaining_eq, remaining_eq] at hrest ⊢
    omega

theorem items {α : Type} (inBlock : Bool) {body : Nat → Parser (Option α)}
    [∀ start, Steady (body start)] (h : ∀ start, Neat anywhere (body start)) :
    Neat P (items inBlock (Declaration.item body)) := by
  apply Neat.bind
  · apply collect
    apply bind_kind
    intro k _
    apply ite (fun _ => pure)
    intro _
    apply ite
    · intro hsemicolon
      have hk : k = .semicolon := eq_of_beq hsemicolon
      subst hk
      exact (advance_of rfl).bind fun _ => pure
    · exact fun _ => (advancing (item h) fun _ => item_moves).bind fun _ => pure
  · exact fun _ => pure

/-! ## Names and types -/

theorem nameOf (what : Expectation) : Neat P (nameOf what) := by
  apply bind_current
  intro token
  apply ite_isAtName
  · exact advance_name.bind fun _ => pure
  · exact reportHere_bind

theorem ascriptionBehind {k : Kind} (hk : isBracket k = false) : Neat P (ascriptionBehind k) := by
  apply ite_isAt
  · exact (advance_of hk).bind fun _ => ascription.bind fun _ => pure
  · exact pure

/-! ## Variables -/

theorem pattern : Neat P pattern := by
  apply ite_isAt skipBalanced
  exact ite_isAtName advance_name reportHere

theorem accessor : Neat P accessor := by
  apply ite_isAt
  · exact bind_get fun c _ => skipBalanced.bind fun _ => pure
  · exact pure

theorem initialValue : Neat P initialValue := by
  apply ite_isAt
  · exact (advance_of rfl).bind fun _ => (skipExpression true).spanned.bind fun _ => pure
  · exact pure

theorem binding : Neat P binding := by
  unfold Declaration.binding
  dsimp only
  refine pattern.written.bind fun name => (ascriptionBehind rfl).bind fun type => ?_
  refine initialValue.bind fun value => ?_
  apply ite
  · exact fun _ => accessor.bind fun _ => pure
  · exact fun _ => pure.bind fun _ => pure

theorem variableDecl (start : Nat) : Neat (isBracket · = false) (variableDecl start) := by
  have hfurther : Neat anywhere furtherBinding := by
    apply ite_isAt
    · exact (advance_of rfl).bind fun _ => binding.bind fun _ => pure
    · exact pure
  refine bind_stay (fun _ => rfl) fun isLet => advance.bind fun _ => ?_
  refine binding.bind fun first => (many hfurther).bind fun more => ?_
  exact (spanFrom start).bind fun _ => pure

/-! ## Bodies -/

theorem localBehind (start : Nat) : Neat P (localBehind start) := by
  apply bind_kind
  intro k _
  split
  · exact ((variableDecl start).weaken (by rintro _ rfl; rfl)).bind fun _ => pure
  · exact ((variableDecl start).weaken (by rintro _ rfl; rfl)).bind fun _ => pure
  · exact skipStatement.bind fun _ => pure

theorem body : Neat P body := by
  apply ite_isAt
  · have hblock : Neat (· = .opening .brace) codeBlock := by
      apply bind_current
      intro opening
      exact enclosed (items true localBehind) fun locals => (spanFrom _).bind fun _ => pure
    exact hblock.bind fun _ => pure
  · exact pure

/-! ## Parameters -/

theorem defaultValue : Neat P defaultValue := by
  apply ite_isAt
  · refine (advance_of rfl).bind fun _ => bind_get fun _ _ => ?_
    exact (skipExpression false).spanned.bind fun _ => bind_get fun _ _ => pure
  · exact pure

theorem parameter : Neat P parameter := by
  have hname : Neat anywhere name? := by
    apply bind_current
    intro token
    exact ite_isAtName (advance_name.bind fun _ => pure) pure
  unfold Declaration.parameter
  dsimp only
  refine attributes.bind fun _ => (many hname).bind fun names => ?_
  cases names.isEmpty with
  | true => exact bind_isAt reportHere_bind reportHere_bind
  | false =>
    refine bind_isAt ((advance_of rfl).bind fun _ => ascription.bind fun type => ?_) reportHere_bind
    apply bind_isAt
    · exact (advance_of rfl).bind fun _ => defaultValue.bind fun _ => pure
    · exact defaultValue.bind fun _ => pure

theorem parameterSeparator : Neat P parameterSeparator := by
  apply bind_kind
  intro k _
  split
  · exact advance_of rfl
  · exact pure
  · exact reportHere_bind

theorem parameterClause : Neat P parameterClause := by
  apply bind_current
  intro opening
  apply ite_isAt
  · apply enclosed
    · apply collect
      apply bind_kind
      intro k _
      apply ite (fun _ => pure)
      exact fun _ => parameter.bind fun p => parameterSeparator.bind fun _ => pure
    · exact fun _ => pure
  · exact reportHere_bind

/-! ## Functions and initializers -/

theorem effects : Neat P effects := by
  have hone : Neat anywhere Declaration.effect := by
    apply bind_current
    intro token
    apply bind_kind
    intro k _
    split
    · exact (advance_of rfl).bind fun _ => pure
    · exact (advance_skipAdjacentParen.weaken (by rintro _ rfl; rfl)).bind fun _ => pure
    · exact ite (fun _ => (advance_of rfl).bind fun _ => pure) fun _ => pure
    · exact pure
  exact (many hone).bind fun _ => pure

theorem endsOperatorName_eq {c : Cursor} {t : Token} {ts : List Token} (h : c.pending = t :: ts) :
    t.sign.endsOperatorName = endsOperatorName c := by
  unfold Sign.endsOperatorName endsOperatorName Cursor.kind Cursor.current
  rw [h]
  rfl

/-- The further tokens of an operator's name reach to where it is over. -/
theorem exists_operatorParts (c : Cursor) :
    ∃ ts, c.pending = ts ++ (Parser.many operatorPart c).2.pending ∧
      (∀ t ∈ ts, t.sign.endsOperatorName = false) ∧
      endsOperatorName (Parser.many operatorPart c).2 = true := by
  induction hn : c.remaining using Nat.strongRecOn generalizing c with
  | _ n ih =>
    cases hends : endsOperatorName c with
    | true =>
      have hnone : operatorPart c = (none, c) := by
        unfold operatorPart
        rw [Parser.bind_get, hends]
        rfl
      rw [many_of_none hnone]
      exact ⟨[], rfl, by simp, hends⟩
    | false =>
      have hsome : operatorPart c = (some (), c.advance) := by
        unfold operatorPart
        rw [Parser.bind_get, hends]
        rfl
      have hkind : c.kind ≠ .endOfFile := by
        intro hk
        simp [endsOperatorName, hk] at hends
      obtain ⟨t, hp, _⟩ := exists_token hkind
      have hmove : c.advance.remaining < c.remaining := by
        have hlength := congrArg List.length hp
        rw [remaining_eq, remaining_eq, hlength, List.length_cons]
        omega
      obtain ⟨ts, hts, hrest, hend⟩ := ih _ (hn ▸ hmove) c.advance rfl
      rw [many_of_some hsome hmove]
      refine ⟨t :: ts, by rw [hp, hts]; rfl, ?_, hend⟩
      intro u hu
      rcases List.mem_cons.mp hu with rfl | hu
      · rw [endsOperatorName_eq hp, hends]
      · exact hrest u hu

/-- The name of an operator function, which takes the brackets in it. -/
theorem exists_operatorName {c : Cursor} (hname : c.kind.isName = false)
    (h : (Declaration.operatorName c).2.findings = []) :
    ∃ ts, c.pending = ts ++ (Declaration.operatorName c).2.pending ∧
      OperatorName (ts.map Token.sign) ∧
      endsOperatorName (Declaration.operatorName c).2 = true := by
  have hother : c.kind ≠ .opening .paren ∧ c.kind ≠ .opening .brace ∧ c.kind ≠ .endOfFile := by
    unfold Declaration.operatorName at h
    rw [Parser.bind_kind] at h
    refine ⟨?_, ?_, ?_⟩ <;> intro hk <;> rw [hk] at h <;>
      exact findings_reportHere_ne_nil _ _ h
  obtain ⟨hparen, hbrace, hend⟩ := hother
  have hrun : (Declaration.operatorName c).2 = (Parser.many operatorPart c.advance).2 := by
    unfold Declaration.operatorName
    rw [Parser.bind_kind]
    clear hname
    generalize c.kind = k at hparen hbrace hend ⊢
    split
    · contradiction
    · contradiction
    · contradiction
    · rfl
  obtain ⟨t, hp, hkind⟩ := exists_token hend
  obtain ⟨ts, hts, hparts, hover⟩ := exists_operatorParts c.advance
  rw [hrun]
  refine ⟨t :: ts, by rw [hp, hts]; rfl, ⟨?_, ?_⟩, hover⟩
  · unfold Sign.startsOperatorName
    rw [Token.sign_kind, hkind]
    simp [hname, hparen, hbrace]
  · intro x hx
    obtain ⟨u, hu, rfl⟩ := List.mem_map.mp hx
    exact hparts u hu

/-- The keyword of a function, its name and what stands behind them. That
there is something tells the end of an operator's name. -/
theorem functionName {α : Type} {k : String → Parser α} [∀ name, Steady (k name)]
    (hk : ∀ name, Neat anywhere (k name))
    (hmoves : ∀ name ⦃c : Cursor⦄, (k name c).2.findings = [] →
      (k name c).2.remaining < c.remaining) :
    Neat (· = .keyword .funcDecl) (Parser.advance >>= fun _ => functionName >>= k) := by
  intro c hc hkind hrun
  have hkeyword : Passes c c.advance := .advance (by rw [hkind]; rfl)
  obtain ⟨f, hf, hfkind⟩ := exists_token (show c.kind ≠ _ by rw [hkind]; simp)
  cases hname : c.advance.kind.isName with
  | true =>
    have hplain : Declaration.functionName c.advance =
        Declaration.nameOf .functionName c.advance := by
      unfold Declaration.functionName
      rw [Parser.bind_isAtName, hname]
      rfl
    have hboth : Neat anywhere (Declaration.nameOf .functionName >>= k) := (nameOf _).bind hk
    rw [Parser.bind_advance, Parser.run_bind, hplain] at hrun ⊢
    exact hkeyword.trans (hboth hc.advance trivial hrun)
  | false =>
    have hoperator : Declaration.functionName c.advance =
        Parser.written Declaration.operatorName c.advance := by
      unfold Declaration.functionName
      rw [Parser.bind_isAtName, hname]
      rfl
    rw [Parser.bind_advance, Parser.run_bind, hoperator] at hrun ⊢
    generalize (Parser.written Declaration.operatorName c.advance).1 = name at hrun ⊢
    change (k name (Declaration.operatorName c.advance).2).2.findings = [] at hrun
    show Passes c (k name (Declaration.operatorName c.advance).2).2
    have hfirst := (Steady.leads (p := k name) _).findings_nil hrun
    obtain ⟨ts, hts, hN, hends⟩ := exists_operatorName hname hfirst
    have hclean := (Steady.leads (p := Declaration.operatorName) c.advance).clean hc.advance hfirst
    obtain ⟨us, hus, htidy⟩ := hk name hclean trivial hrun
    have hmove := hmoves name hrun
    cases us with
    | nil =>
      rw [remaining_eq, remaining_eq, hus] at hmove
      exact absurd hmove (Nat.lt_irrefl _)
    | cons e us =>
      refine ⟨f :: (ts ++ e :: us), by rw [hf, hts, hus]; simp, ?_⟩
      rw [List.map_cons, List.map_append]
      refine .operator (hfkind.trans hkind) hN ?_ htidy
      exact (endsOperatorName_eq hus).trans hends

/-- A parameter clause that is there is consumed. -/
theorem parameterClause_moves {c : Cursor} (h : (Declaration.parameterClause c).2.findings = []) :
    (Declaration.parameterClause c).2.remaining < c.remaining := by
  by_cases hkind : c.kind = .opening .paren
  · obtain ⟨t, hp, _⟩ := exists_token (show c.kind ≠ _ by rw [hkind]; simp)
    have hleads : c.advance.Leads (Declaration.parameterClause c).2 := by
      unfold Declaration.parameterClause
      rw [Parser.bind_current, Parser.bind_isAt, beq_iff_eq.mpr hkind, if_pos rfl,
        Parser.bind_advance]
      exact Steady.leads c.advance
    have hle := hleads.remaining_le
    have hlength := congrArg List.length hp
    rw [List.length_cons, ← remaining_eq, ← remaining_eq] at hlength
    omega
  · have hmissing : (Declaration.parameterClause c).2 = c.reportHere (.missing .openingParen) := by
      unfold Declaration.parameterClause
      rw [Parser.bind_current, Parser.bind_isAt, beq_false_of_ne hkind]
      rfl
    rw [hmissing] at h
    exact absurd h (findings_reportHere_ne_nil _ _)

/-- What holds a parameter clause is consumed. -/
theorem moves_of_parameterClause {α : Type} {k : List Parameter → Parser α}
    [∀ parameters, Steady (k parameters)] {c : Cursor}
    (h : ((Parser.move Declaration.skipGenerics >>= fun _ =>
      Declaration.parameterClause >>= k) c).2.findings = []) :
    ((Parser.move Declaration.skipGenerics >>= fun _ =>
      Declaration.parameterClause >>= k) c).2.remaining < c.remaining := by
  have hbehind := Steady.leads
    (p := k (Declaration.parameterClause (Declaration.skipGenerics c)).1)
    (Declaration.parameterClause (Declaration.skipGenerics c)).2
  have hclause := parameterClause_moves (hbehind.findings_nil h)
  calc _ ≤ (Declaration.parameterClause (Declaration.skipGenerics c)).2.remaining :=
        hbehind.remaining_le
    _ < (Declaration.skipGenerics c).remaining := hclause
    _ ≤ c.remaining := (leads_skipGenerics c).remaining_le

theorem functionDecl (start : Nat) : Neat (· = .keyword .funcDecl) (functionDecl start) := by
  unfold Declaration.functionDecl
  apply functionName
  · intro name
    refine skipGenerics.bind fun _ => parameterClause.bind fun _ => effects.bind fun _ => ?_
    refine (ascriptionBehind rfl).bind fun _ => skipWhere.bind fun _ => body.bind fun _ => ?_
    exact (spanFrom start).bind fun _ => pure
  · exact fun name c hrun => moves_of_parameterClause hrun

theorem initializerDecl (start : Nat) : Neat (· = .keyword .initDecl) (initializerDecl start) := by
  refine (advance_of rfl).bind fun _ => skipFailureMark.bind fun _ => skipGenerics.bind fun _ => ?_
  refine parameterClause.bind fun _ => effects.bind fun _ => skipWhere.bind fun _ => ?_
  exact body.bind fun _ => (spanFrom start).bind fun _ => pure

/-! ## Aliases and types -/

theorem aliasDecl (start : Nat) : Neat (· = .keyword .typealiasDecl) (aliasDecl start) := by
  refine (advance_of rfl).bind fun _ => (nameOf _).bind fun _ => skipGenerics.bind fun _ => ?_
  apply ite_isAt
  · refine (advance_of rfl).bind fun _ => ascription.bind fun _ => ?_
    exact (spanFrom start).bind fun _ => pure
  · exact reportHere_bind

variable {members : Parser (List Declaration)} [Steady members]

theorem protocolDecl (hmembers : Neat anywhere members) (start : Nat) :
    Neat (isBracket · = false) (protocolDecl members start) := by
  refine advance.bind fun _ => (nameOf _).bind fun _ => (skipUntil _).bind fun _ => ?_
  exact hmembers.bind fun _ => (spanFrom start).bind fun _ => pure

theorem nominalDecl (hmembers : Neat anywhere members) (kind : NominalKind) (start : Nat) :
    Neat (isBracket · = false) (nominalDecl members kind start) := by
  have hpart : ∀ name, Neat anywhere (dottedPart name) := by
    intro name
    apply ite_isAt
    · exact (advance_of rfl).bind fun _ => (nameOf _).bind fun _ => pure
    · exact pure
  refine advance.bind fun _ => (nameOf _).bind fun first => (iterate hpart first).bind fun _ => ?_
  refine (skipUntil _).bind fun _ => hmembers.bind fun _ => ?_
  exact (spanFrom start).bind fun _ => pure

/-! ## Declarations -/

theorem declarationBehind (hmembers : Neat anywhere members) (start : Nat) :
    Neat P (declarationBehind members start) := by
  apply bind_kind
  intro k _
  have hplain : ∀ {q : Parser Declaration} [Steady q], isBracket k = false →
      Neat (isBracket · = false) q → Neat (· = k) (q >>= fun d => Pure.pure (some d)) := by
    intro q _ hk hq
    exact (hq.weaken (by rintro _ rfl; exact hk)).bind fun _ => pure
  split
  · exact ((variableDecl start).weaken (by rintro _ rfl; rfl)).bind fun _ => pure
  · exact ((variableDecl start).weaken (by rintro _ rfl; rfl)).bind fun _ => pure
  · exact hplain rfl (protocolDecl hmembers start)
  · exact hplain rfl (nominalDecl hmembers _ start)
  · exact hplain rfl (nominalDecl hmembers _ start)
  · exact hplain rfl (nominalDecl hmembers _ start)
  · exact hplain rfl (nominalDecl hmembers _ start)
  · exact hplain rfl (nominalDecl hmembers _ start)
  · exact (functionDecl start).bind fun _ => pure
  · exact (initializerDecl start).bind fun _ => pure
  · exact (aliasDecl start).bind fun _ => pure
  · exact skipStatement.bind fun _ => pure

theorem declaration_items (inBlock : Bool) (hmembers : Neat anywhere members) :
    Neat P (Declaration.items inBlock (Declaration.declaration members)) :=
  items inBlock fun start => declarationBehind hmembers start

theorem memberBlock {contents : Nat → Parser (List Declaration)} [∀ start, Steady (contents start)]
    (h : ∀ start, Neat anywhere (contents start)) : Neat P (memberBlock contents) := by
  apply bind_current
  intro opening
  apply ite_isAt
  · exact enclosed (h opening.start) fun _ => pure
  · exact reportHere_bind

theorem members_of_depth (depth : Nat) : Neat anywhere (Declaration.members depth) := by
  induction depth with
  | zero => exact memberBlock fun start => reportDelimiter_bind
  | succ depth ih => exact memberBlock fun _ => declaration_items true ih

/-- A whole file. -/
theorem parser : Neat P Declaration.parser := declaration_items false (members_of_depth _)

end Neat

/-! ## Accepted files -/

namespace SourceFile

variable {name text : String} {file : SourceFile}

/-- All signs of a text, with its end. -/
def signs (text : String) : List Sign := (TokenStream.scan text).toList.map Token.sign

/-- What is read without findings is tidy. -/
theorem tidy_signs (h : (run text).2.findings = []) : Tidy (signs text) := by
  have hclean := clean_start h
  obtain ⟨ts, hts, htidy⟩ := Neat.parser (P := anywhere) hclean trivial h
  rw [Declaration.pending_parser hclean.kinds, List.append_nil, pending_start] at hts
  have hfinal : isBracket (TokenStream.scan text).final.kind = false := by
    rw [← final_start, hclean.finalKind]
    rfl
  unfold signs TokenStream.toList
  rw [hts, List.map_append]
  exact htidy.append (.of_balanced (.single hfinal))

/-- A closing parenthesis in the name of an operator goes unnoticed. -/
theorem closing_bracket_in_operator_name :
    (∃ file, parse "f" "func )() {}" = .ok file) ∧ nestAll [] (signs "func )() {}") = none :=
  ⟨⟨_, parse_eq_ok_iff.mpr ⟨by decide +kernel, rfl⟩⟩, by decide +kernel⟩

/-- The brackets of an accepted text are balanced outside of the names of
operator functions, and altogether if there is no bracket in such a name. -/
theorem balanced_outside_operator_names (hparse : parse name text = .ok file) :
    (∃ kept, OutsideNames (signs text) kept ∧ Balanced kept) ∧
      ((∀ N ∈ operatorNames (signs text), ∀ s ∈ N, isBracket s.kind = false) →
        Balanced (signs text)) := by
  obtain ⟨kept, hkept, hbalanced⟩ := tidy_signs (parse_eq_ok_iff.mp hparse).1
  refine ⟨⟨kept, hkept, hbalanced⟩, ?_⟩
  intro hnames o
  rw [hkept.nestAll_eq hnames, hbalanced o]

/-- An operator function with brackets of all three kinds around its name. -/
theorem balanced_outside_operator_names_of_member :
    let text := "struct S { static func <> (a: [S], b: (S) -> S) -> [S] { return [a[0]] } }"
    let file : SourceFile := ⟨"f", text, (run text).1⟩
    parse "f" text = .ok file ∧ (operatorNames (signs text)).length = 1 ∧
      (∀ N ∈ operatorNames (signs text), ∀ s ∈ N, isBracket s.kind = false) ∧
      Balanced (signs text) := by
  intro text file
  have hparse : parse "f" text = .ok file := parse_eq_ok_iff.mpr ⟨by decide +kernel, rfl⟩
  have hnames : ∀ N ∈ operatorNames (signs text), ∀ s ∈ N, isBracket s.kind = false := by
    decide +kernel
  exact ⟨hparse, by decide +kernel, hnames, (balanced_outside_operator_names hparse).2 hnames⟩

end SourceFile

end AnySome
