import AnySome.Proofs.LineEnds.Simulation

/-!
# Types in a text with other line ends

A type is read from kinds and gaps of tokens and from a few words, none of which
holds a line end. What is kept of it as written is converted with the text.

## Main results

* `Commutes.typeExpr` — types of any number of levels.
-/

namespace AnySome

open Cursor AnySome.Parser TypeExpr Converted

/-! ## Looking ahead -/

namespace Cursor.Alike

variable {text : List Char} {c d : Cursor}

theorem isTypeNext_eq (h : Alike text c d) : isTypeNext d = isTypeNext c := by
  unfold isTypeNext
  dsimp only
  rw [h.advance.kind_eq, h.advance.onNewLine_eq]

theorem isAtSpecifierWord_eq (h : Alike text c d) : isAtSpecifierWord d = isAtSpecifierWord c := by
  unfold isAtSpecifierWord
  rw [h.kind_eq, h.isTypeNext_eq, h.current.contains_word (by decide)]

theorem qualifierAt_eq (h : Alike text c d) : qualifierAt d = qualifierAt c := by
  have hany : d.current.text = "any" ↔ c.current.text = "any" :=
    h.current.eq_word_iff (by decide)
  have hsome : d.current.text = "some" ↔ c.current.text = "some" :=
    h.current.eq_word_iff (by decide)
  unfold qualifierAt Qualifier.ofKeyword?
  simp only [h.kind_eq, h.isTypeNext_eq, hany, hsome]

theorem labelWidth_eq (h : Alike text c d) : labelWidth d = labelWidth c := by
  unfold labelWidth
  dsimp only
  rw [h.kind_eq, h.advance.kind_eq, h.advance.advance.kind_eq]

theorem argumentsFollow_eq (h : Alike text c d) : argumentsFollow d = argumentsFollow c := by
  unfold argumentsFollow
  rw [h.kind_eq, h.isSeparated_eq]

end Cursor.Alike

namespace Commutes

variable {text : List Char} {inner : Parser TypeExpr}

/-! ## Words in front of a type -/

theorem specifier : Commutes text specifier TypeExpr.specifier := by
  unfold TypeExpr.specifier
  apply ite_isAt
  · exact (move Alike.skipAttribute).written.bind fun _ => pure rfl
  · apply ite_ask Alike.isAtSpecifierWord_eq
    · apply bind_current
      intro t u ht
      exact advance.bind fun _ => pure (congrArg some ht.text_eq)
    · exact pure rfl

/-! ## Arguments, elements and effects -/

theorem label : Commutes text label TypeExpr.label := by
  apply bind_get
  intro c d h
  rw [h.labelWidth_eq]
  rcases labelWidth c with _ | _ | n
  · exact pure rfl
  · exact advance.written.bind fun _ => advance.bind fun _ => pure rfl
  · exact (advance.bind fun _ => advance).written.bind fun _ => advance.bind fun _ => pure rfl

theorem typeEffect : Commutes text effect TypeExpr.effect := by
  apply bind_current
  intro t u ht
  apply ite (by rw [ht.onNewLine_eq])
  · exact fun _ => pure rfl
  · intro _
    apply ite (by rw [ht.isWord_eq (by decide)])
    · exact fun _ => advance.bind fun _ => pure rfl
    · intro _
      apply ite_isAt
      · exact (move fun h => h.advance.skipAdjacentParen).written.bind fun _ => pure rfl
      · exact pure rfl

theorem crlf_intercalate (l : List String) :
    Text.crlf (String.intercalate " " l) = String.intercalate " " (l.map Text.crlf) := by
  induction l with
  | nil => rfl
  | cons first more ih =>
    cases more with
    | nil => simp [String.intercalate_singleton]
    | cons second more =>
      rw [List.map_cons, List.map_cons, String.intercalate_cons_cons, String.intercalate_cons_cons,
        Text.crlf_append, Text.crlf_append, ih, List.map_cons]
      rfl

theorem typeEffects : Commutes text effects TypeExpr.effects := by
  refine (many typeEffect).bind fun found => ?_
  cases found with
  | nil => exact pure rfl
  | cons first more => exact pure (congrArg some (crlf_intercalate (first :: more)).symm)

section inner

variable (hinner : Commutes text inner inner)

include hinner

theorem genericArguments : Commutes text (genericArguments inner)
    (TypeExpr.genericArguments inner) := by
  apply bind_current
  intro opening opening' _
  refine advance.bind fun _ => (commaSeparated _ hinner).bind fun arguments => ?_
  apply ite_isAt
  · exact advance.bind fun _ => pure rfl
  · exact (reportDelimiter _ _ _).bind fun _ => pure rfl

theorem element : Commutes text (element inner) (TypeExpr.element inner) := by
  refine label.bind fun name => hinner.bind fun type => bind_isAt _ fun variadic => ?_
  apply ite Iff.rfl
  · exact fun _ => advance.bind fun _ => pure rfl
  · exact fun _ => pure rfl

theorem tupleOrFunction : Commutes text (tupleOrFunction inner)
    (TypeExpr.tupleOrFunction inner) := by
  apply bind_current
  intro opening opening' _
  refine advance.bind fun _ => (commaSeparated _ (element hinner)).bind fun elements => ?_
  refine (close _ _ _).bind fun _ => typeEffects.bind fun effects => ?_
  apply ite_isAt
  · refine advance.bind fun _ => hinner.bind fun result => pure ?_
    exact congrArg (fun es => TypeExpr.function es _ _) (crlfElements_eq_map elements).symm
  · have htuple : TypeExpr.tuple (convert text elements) = convert text (.tuple elements) :=
      congrArg TypeExpr.tuple (crlfElements_eq_map elements).symm
    apply ite (by cases effects <;> rfl)
    · exact fun _ => (reportHere _).bind fun _ => pure htuple
    · exact fun _ => pure htuple

/-! ## Types with suffixes -/

theorem primary : Commutes text (primary inner) (TypeExpr.primary inner) := by
  apply bind_current
  intro token token' htoken
  apply bind_kind
  intro k
  cases k with
  | identifier =>
    refine advance.bind fun _ => ite_ask Alike.argumentsFollow_eq ?_ ?_
    · refine (genericArguments hinner).bind fun arguments => pure ?_
      show TypeExpr.generic token'.text (arguments.map crlf) =
        .generic (Text.crlf token.text) (crlfList arguments)
      rw [htoken.text_eq, crlfList_eq_map]
    · exact pure (congrArg TypeExpr.named htoken.text_eq)
  | opening bracket =>
    cases bracket with
    | paren => exact tupleOrFunction hinner
    | square => exact (move Alike.skipBalanced).written.bind fun _ => pure rfl
    | brace => exact (reportHere _).bind fun _ => pure rfl
  | numericLiteral => exact (move Alike.skipBalanced).written.bind fun _ => pure rfl
  | _ => exact (reportHere _).bind fun _ => pure rfl

theorem suffix {start start' : Cursor} (hstart : start.Alike text start') (type : TypeExpr) :
    Commutes text (suffix inner start type) (TypeExpr.suffix inner start' type.crlf) := by
  have hwritten : Commutes text
      (get >>= fun c => Pure.pure (some (TypeExpr.verbatim (start.writtenSince c))))
      (get >>= fun c => Pure.pure (some (TypeExpr.verbatim (start'.writtenSince c)))) :=
    bind_get fun h => pure (congrArg (fun s => some (TypeExpr.verbatim s)) (hstart.written_since h))
  apply bind_isSeparated
  intro separated
  apply ite Iff.rfl
  · exact fun _ => pure rfl
  · intro _
    apply bind_kind
    intro k
    cases k with
    | dot =>
      refine advance.bind fun _ => ite_isAtName ?_ ?_
      · refine advance.bind fun _ => ite_ask Alike.argumentsFollow_eq ?_ hwritten
        exact (genericArguments hinner).bind fun _ => hwritten
      · exact (reportHere _).bind fun _ => pure rfl
    | question => exact advance.bind fun _ => pure rfl
    | exclamation => exact advance.bind fun _ => hwritten
    | _ => exact pure rfl

theorem suffixed : Commutes text (suffixed inner) (TypeExpr.suffixed inner) :=
  bind_get fun hstart => (primary hinner).bind fun type => iterate (suffix hinner hstart) type

/-! ## One level -/

theorem composedWith : Commutes text (composedWith inner) (TypeExpr.composedWith inner) := by
  apply ite_isAt
  · exact advance.bind fun _ => (suffixed hinner).bind fun _ => pure rfl
  · exact pure rfl

theorem level : Commutes text (level inner) (TypeExpr.level inner) := by
  apply bind_get
  intro start start' hstart
  refine (many specifier).bind fun specifiers => ?_
  apply ite (by cases specifiers <;> rfl)
  · exact fun _ => hinner.bind fun _ => pure rfl
  · intro _
    apply bind_get
    intro c d h
    rw [h.qualifierAt_eq]
    cases TypeExpr.qualifierAt c with
    | some q => exact advance.bind fun _ => hinner.bind fun _ => pure rfl
    | none =>
      refine (suffixed hinner).bind fun type => ite_isAt _ ?_ (pure rfl)
      refine (many (composedWith hinner)).bind fun _ => bind_get fun h' => pure ?_
      exact congrArg TypeExpr.verbatim (hstart.written_since h')

end inner

/-- Types of at most `n` levels. -/
theorem typeExpr (n : Nat) : Commutes text (TypeExpr.parser n) (TypeExpr.parser n) := by
  induction n with
  | zero => exact (reportHere _).bind fun _ => pure rfl
  | succ n ih => exact level ih

end Commutes

end AnySome
