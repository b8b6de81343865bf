import AnySome.Declaration.Parser
import AnySome.Proofs.LineEnds.Conversion
import AnySome.Proofs.LineEnds.Cursors
import AnySome.Proofs.Run.Loops

/-!
# Reading a text with other line ends

A parser commutes with the conversion if from cursors that are alike it reads
the conversion of what it reads, and ends at cursors that are alike. Sequences,
branches and loops commute if their parts do; so each parser commutes because
what it looks at and what it passes over are the same in both texts.

A part may have been told something about the text already, such as where a
declaration starts or which type was read so far. So the statement is about a
parser for the text and a parser for its conversion.

## Main results

* `Commutes.bind`, `Commutes.ite`, … — sequences and branches.
* `Commutes.collect`, `Commutes.iterate`, … — loops.
-/

namespace AnySome

open Cursor AnySome.Parser

/-! ## Results -/

/-- What becomes of a result where the text `text` is converted. -/
class Converted (α : Type) where
  convert (text : List Char) : α → α

open Converted

namespace Converted

instance : Converted Unit := ⟨fun _ a => a⟩
instance : Converted Bool := ⟨fun _ a => a⟩
instance : Converted Kind := ⟨fun _ a => a⟩
instance : Converted Accessor := ⟨fun _ a => a⟩
instance : Converted String := ⟨fun _ => Text.crlf⟩
instance : Converted Span := ⟨Span.crlf⟩
instance : Converted TypeExpr := ⟨fun _ => TypeExpr.crlf⟩
instance : Converted (Element TypeExpr) := ⟨fun _ => TypeExpr.crlfElement⟩
instance : Converted Ascription := ⟨Ascription.crlf⟩
instance : Converted Binding := ⟨Binding.crlf⟩
instance : Converted VariableDecl := ⟨VariableDecl.crlf⟩
instance : Converted DefaultValue := ⟨DefaultValue.crlf⟩
instance : Converted Parameter := ⟨Parameter.crlf⟩
instance : Converted CodeBlock := ⟨CodeBlock.crlf⟩
instance : Converted FunctionDecl := ⟨FunctionDecl.crlf⟩
instance : Converted InitializerDecl := ⟨InitializerDecl.crlf⟩
instance : Converted AliasDecl := ⟨AliasDecl.crlf⟩
instance : Converted Declaration := ⟨Declaration.crlf⟩

instance [Converted α] : Converted (Option α) := ⟨fun text => Option.map (convert text)⟩

instance [Converted α] : Converted (List α) := ⟨fun text => List.map (convert text)⟩

instance [Converted α] [Converted β] : Converted (α × β) :=
  ⟨fun text x => (convert text x.1, convert text x.2)⟩

instance [Converted α] : Converted (Round α) where
  convert text
    | .finished => .finished
    | .last a => .last (convert text a)
    | .more a => .more (convert text a)

theorem convert_filterMap_id [Converted α] (text : List Char) (l : List (Option α)) :
    convert text (l.filterMap id) = (convert text l).filterMap id := by
  simp [convert, List.map_filterMap, List.filterMap_map]

end Converted

/-! ## Parsers -/

/-- From cursors that are alike, `q` reads the conversion of what `p` reads. -/
def Commutes (text : List Char) [Converted α] (p q : Parser α) : Prop :=
  ∀ ⦃c d : Cursor⦄, c.Alike text d →
    (q d).1 = convert text (p c).1 ∧ (p c).2.Alike text (q d).2

namespace Commutes

variable {text : List Char} {α β : Type} [Converted α] [Converted β] {p q : Parser α}

theorem pure {a b : α} (h : b = convert text a) : Commutes text (Pure.pure a) (Pure.pure b) :=
  fun _ _ halike => ⟨h, halike⟩

theorem bind {k k' : α → Parser β} (hp : Commutes text p q)
    (hk : ∀ a, Commutes text (k a) (k' (convert text a))) :
    Commutes text (p >>= k) (q >>= k') := by
  intro c d h
  obtain ⟨hresult, halike⟩ := hp h
  rw [run_bind, run_bind, hresult]
  exact hk _ halike

theorem ite {P Q : Prop} [Decidable P] [Decidable Q] (hiff : Q ↔ P) {p' q' : Parser α}
    (h : P → Commutes text p q) (h' : ¬P → Commutes text p' q') :
    Commutes text (if P then p else p') (if Q then q else q') := by
  by_cases hP : P
  · rw [if_pos hP, if_pos (hiff.mpr hP)]
    exact h hP
  · rw [if_neg hP, if_neg (hiff.not.mpr hP)]
    exact h' hP

/-! ## Looking -/

theorem bind_get {k k' : Cursor → Parser β}
    (h : ∀ {c d : Cursor}, c.Alike text d → Commutes text (k c) (k' d)) :
    Commutes text (get >>= k) (get >>= k') := fun _ _ halike => h halike halike

theorem bind_current {k k' : Token → Parser β}
    (h : ∀ {t u : Token}, t.Alike text u → Commutes text (k t) (k' u)) :
    Commutes text (current >>= k) (current >>= k') := fun _ _ halike => h halike.current halike

theorem bind_kind {k k' : Kind → Parser β} (h : ∀ a, Commutes text (k a) (k' a)) :
    Commutes text (kind >>= k) (kind >>= k') := by
  intro c d halike
  rw [Parser.bind_kind, Parser.bind_kind, halike.kind_eq]
  exact h _ halike

theorem bind_isAt (a : Kind) {k k' : Bool → Parser β} (h : ∀ b, Commutes text (k b) (k' b)) :
    Commutes text (isAt a >>= k) (isAt a >>= k') := by
  intro c d halike
  rw [Parser.bind_isAt, Parser.bind_isAt, halike.kind_eq]
  exact h _ halike

theorem bind_isAtName {k k' : Bool → Parser β} (h : ∀ b, Commutes text (k b) (k' b)) :
    Commutes text (isAtName >>= k) (isAtName >>= k') := by
  intro c d halike
  rw [Parser.bind_isAtName, Parser.bind_isAtName, halike.kind_eq]
  exact h _ halike

theorem bind_isSeparated {k k' : Bool → Parser β} (h : ∀ b, Commutes text (k b) (k' b)) :
    Commutes text (isSeparated >>= k) (isSeparated >>= k') := by
  intro c d halike
  rw [Parser.bind_isSeparated, Parser.bind_isSeparated, halike.isSeparated_eq]
  exact h _ halike

/-- What is done where a token of kind `a` stands, and what is done elsewhere. -/
theorem ite_isAt (a : Kind) {p' q' : Parser α} (h : Commutes text p q)
    (h' : Commutes text p' q') :
    Commutes text (isAt a >>= fun b => if b then p else p')
      (isAt a >>= fun b => if b then q else q') :=
  bind_isAt a fun _ => ite Iff.rfl (fun _ => h) fun _ => h'

theorem ite_isAtName {p' q' : Parser α} (h : Commutes text p q) (h' : Commutes text p' q') :
    Commutes text (isAtName >>= fun b => if b then p else p')
      (isAtName >>= fun b => if b then q else q') :=
  bind_isAtName fun _ => ite Iff.rfl (fun _ => h) fun _ => h'

/-- The same for a question about the cursor that has one answer in both texts. -/
theorem ite_ask {f : Cursor → Bool} (hf : ∀ {c d : Cursor}, c.Alike text d → f d = f c)
    {p' q' : Parser α} (h : Commutes text p q) (h' : Commutes text p' q') :
    Commutes text (get >>= fun c => if f c then p else p')
      (get >>= fun c => if f c then q else q') :=
  bind_get fun halike => ite (by rw [hf halike]) (fun _ => h) fun _ => h'

/-! ## Moving -/

theorem move {f g : Cursor → Cursor}
    (h : ∀ {c d : Cursor}, c.Alike text d → (f c).Alike text (g d)) :
    Commutes text (move f) (Parser.move g) := fun _ _ halike => ⟨rfl, h halike⟩

theorem advance : Commutes text advance Parser.advance := move Cursor.Alike.advance

theorem reportHere (fault : Fault) : Commutes text (reportHere fault) (Parser.reportHere fault) :=
  move fun h => h.reportHere fault

theorem reportDelimiter (start start' : Nat) (fault : Fault) :
    Commutes text (reportDelimiter start fault) (Parser.reportDelimiter start' fault) :=
  move fun h => h.reportDelimiter start start' fault

theorem close (bracket : Bracket) (start start' : Nat) :
    Commutes text (close bracket start) (Parser.close bracket start') := by
  intro c d h
  unfold Parser.close
  rw [h.kind_eq]
  by_cases hk : c.kind = .closing bracket
  · rw [if_pos hk, if_pos hk]
    exact ⟨rfl, h.advance⟩
  · rw [if_neg hk, if_neg hk]
    exact ⟨rfl, h.reportDelimiter _ _ _⟩

/-! ## Texts and spans -/

theorem written {p q : Parser Unit} (h : Commutes text p q) :
    Commutes text (written p) (Parser.written q) := by
  intro c d halike
  obtain ⟨_, halike'⟩ := h halike
  exact ⟨halike.written_since halike', halike'⟩

theorem spanned (h : Commutes text p q) : Commutes text (spanned p) (Parser.spanned q) := by
  intro c d halike
  obtain ⟨hresult, halike'⟩ := h halike
  refine ⟨?_, halike'⟩
  show ((q d).1, (⟨d.current.start, max (q d).2.previousStop d.current.start⟩ : Span)) =
    (convert text (p c).1, ⟨Text.crlfOffset text c.current.start,
      Text.crlfOffset text (max (p c).2.previousStop c.current.start)⟩)
  rw [hresult, halike.current.start_eq, halike'.previousStop_eq, Text.crlfOffset_max]

theorem spanFrom {start start' : Nat} (hstart : start' = Text.crlfOffset text start) :
    Commutes text (Declaration.spanFrom start) (Declaration.spanFrom start') := by
  intro c d h
  refine ⟨?_, h⟩
  show (⟨start', d.previousStop⟩ : Span) =
    ⟨Text.crlfOffset text start, Text.crlfOffset text c.previousStop⟩
  rw [hstart, h.previousStop_eq]

/-! ## Loops -/

theorem moved_iff {c c' d d' : Cursor} (h : c.Alike text d) (h' : c'.Alike text d') :
    d'.remaining < d.remaining ↔ c'.remaining < c.remaining := by
  rw [h.remaining_eq, h'.remaining_eq]

theorem collect {round round' : Parser (Round α)} (h : Commutes text round round') :
    Commutes text (collect round) (Parser.collect round') := by
  intro c d halike
  induction hn : c.remaining using Nat.strongRecOn generalizing c d with
  | ind n ih =>
    subst hn
    obtain ⟨hresult, halike'⟩ := h halike
    cases hround : round c with
    | mk r c' =>
    cases hround' : round' d with
    | mk r' d' =>
    rw [hround, hround'] at hresult halike'
    dsimp only at hresult halike'
    subst hresult
    cases r with
    | finished =>
      rw [collect_of_finished hround, collect_of_finished hround']
      exact ⟨rfl, halike'⟩
    | last a =>
      rw [collect_of_last hround, collect_of_last hround']
      exact ⟨rfl, halike'⟩
    | more a =>
      by_cases hmove : c'.remaining < c.remaining
      · rw [collect_of_more hround hmove,
          collect_of_more hround' ((moved_iff halike halike').mpr hmove)]
        obtain ⟨hrest, hfinal⟩ := ih _ hmove halike' rfl
        refine ⟨?_, hfinal⟩
        dsimp only
        rw [hrest]
        rfl
      · rw [collect_of_stuck hround hmove,
          collect_of_stuck hround' ((moved_iff halike halike').not.mpr hmove)]
        exact ⟨rfl, halike'⟩

theorem many {item item' : Parser (Option α)} (h : Commutes text item item') :
    Commutes text (many item) (Parser.many item') := by
  refine collect (h.bind fun o => ?_)
  cases o with
  | none => exact pure rfl
  | some a => exact pure rfl

theorem iterate {round round' : α → Parser (Option α)}
    (h : ∀ a, Commutes text (round a) (round' (convert text a))) (a : α) :
    Commutes text (iterate round a) (Parser.iterate round' (convert text a)) := by
  intro c d halike
  induction hn : c.remaining using Nat.strongRecOn generalizing a c d with
  | ind n ih =>
    subst hn
    obtain ⟨hresult, halike'⟩ := h a halike
    cases hround : round a c with
    | mk o c' =>
    cases hround' : round' (convert text a) d with
    | mk o' d' =>
    rw [hround, hround'] at hresult halike'
    dsimp only at hresult halike'
    subst hresult
    cases o with
    | none =>
      rw [iterate_of_none hround, iterate_of_none hround']
      exact ⟨rfl, halike'⟩
    | some b =>
      by_cases hmove : c'.remaining < c.remaining
      · rw [iterate_of_some hround hmove,
          iterate_of_some hround' ((moved_iff halike halike').mpr hmove)]
        exact ih _ hmove b halike' rfl
      · rw [iterate_of_stuck hround hmove,
          iterate_of_stuck hround' ((moved_iff halike halike').not.mpr hmove)]
        exact ⟨rfl, halike'⟩

theorem commaSeparated (isOver : Kind → Bool) {item item' : Parser α}
    (h : Commutes text item item') :
    Commutes text (commaSeparated isOver item) (Parser.commaSeparated isOver item') := by
  apply collect
  apply bind_kind
  intro k
  apply ite Iff.rfl
  · exact fun _ => pure rfl
  · intro _
    refine h.bind fun a => ite_isAt .comma ?_ (pure rfl)
    exact advance.bind fun _ => pure rfl

theorem advancing (h : Commutes text p q) :
    Commutes text (Declaration.advancing p) (Declaration.advancing q) := by
  intro c d halike
  obtain ⟨hresult, halike'⟩ := h halike
  refine ⟨hresult, ?_⟩
  exact .ite (moved_iff halike halike') (fun _ => halike') fun _ => halike'.advance

end Commutes

end AnySome
