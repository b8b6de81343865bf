import AnySome.Proofs.Respell.Canonical

/-!
# Comments in canonical forms

A type holds no gaps: its canonical form is put together anew. But some of its
texts are longer than a token: whatever is kept as written, and labels, effects
and attributes. These texts have gaps inside them, and the comments in those
gaps are printed with them. All other comments between the signs of a type are
dropped.

The comments of a canonical form are told by reading it. So a text whose signs
are known (`Holds`) is put together along with its comments, in the order in
which types are printed, and signs that are read from one text are the same.

## Main results

* `TypeExpr.holds_print` — the comments of a canonical form are those of the
  texts of its type.
* `TypeExpr.texts_requalify` — qualifying changes no text.
* `TypeExpr.Spells.keeps` — the comments of the texts of a type are among those
  between its signs.
-/

namespace AnySome

/-! ## Comments -/

/-- The comments in a gap, as written. -/
def Trivia.comments (g : List Trivia) : List String :=
  (g.filter isComment).map fun t => String.ofList t.chars

/-- The comments in the gap in front of the token. -/
def Token.comments (t : Token) : List String := Trivia.comments t.gap

/-- The comments in the gap in front of the sign. -/
def Sign.comments (x : Sign) : List String := Trivia.comments x.gap

/-- All comments between tokens, the one at the end of the text included. -/
def TokenStream.comments (s : TokenStream) : List String := s.toList.flatMap Token.comments

/-- The comments of a text. -/
def Text.comments (text : String) : List String := (TokenStream.scan text).comments

/-- The comments of a text that stands inside another: no byte order mark is
skipped at its start. -/
def Text.innerComments (text : String) : List String :=
  (TokenStream.scanFrom 0 text.toList).comments

/-- The comments between the signs, without those in front of the first. -/
def Sign.innerComments (T : List Sign) : List String := (T.drop 1).flatMap comments

/-! ## Signs and their comments -/

section

variable {A B T : List Sign} {text : String}

theorem comments_sign (t : Token) : t.sign.comments = t.comments := rfl

theorem comments_map_sign (ts : List Token) :
    (ts.map Token.sign).flatMap Sign.comments = ts.flatMap Token.comments := by
  rw [List.flatMap_map]
  rfl

theorem innerComments_append (h : A ≠ []) :
    Sign.innerComments (A ++ B) = Sign.innerComments A ++ B.flatMap Sign.comments := by
  cases A with
  | nil => contradiction
  | cons x A => simp [Sign.innerComments]

theorem innerComments_regap (g : List Trivia) :
    Sign.innerComments (regap g T) = Sign.innerComments T := by
  cases T <;> rfl

theorem comments_regap (h : T ≠ []) (g : List Trivia) :
    (regap g T).flatMap Sign.comments = Trivia.comments g ++ Sign.innerComments T := by
  cases T with
  | nil => contradiction
  | cons x T => rfl

theorem comments_regap_of_nil (h : T ≠ []) {g : List Trivia} (hg : Trivia.comments g = []) :
    (regap g T).flatMap Sign.comments = Sign.innerComments T := by
  rw [comments_regap h, hg, List.nil_append]

theorem innerComments_sublist (T : List Sign) :
    (Sign.innerComments T).Sublist (T.flatMap Sign.comments) := by
  cases T with
  | nil => exact .slnil
  | cons x T => exact List.sublist_append_right _ _

/-- The comments of a text are those of the signs that are read from it. -/
theorem Lexes.comments_eq {Y : List Char} {g : List Trivia} (h : Lexes T Y)
    (hY : Trivia.gap Y = (g, [])) (offset : Nat) :
    (TokenStream.scanFrom offset (T.flatMap Sign.chars ++ Y)).comments =
      T.flatMap Sign.comments ++ Trivia.comments g := by
  obtain ⟨hpending, hfinal, -⟩ := h.scan_eq hY offset
  rw [TokenStream.comments, TokenStream.toList, List.flatMap_append, ← comments_map_sign, hpending,
    List.flatMap_singleton, ← comments_sign, hfinal]
  rfl

/-- A comma may stand behind every part. -/
theorem Part.lexes_comma (h : Part T text) : Lexes (regap [] T ++ [Sign.mark .comma]) [] := by
  have hcomma : Settled [Sign.mark .comma] := Settled.nil.mark_cons rfl
  refine h.joins.regap h.ne_nil Trivia.isGap_nil hcomma (cuts_mark rfl) [] ?_
  intro z hz
  rw [List.getLast?_concat, Option.mem_some_iff] at hz
  subst hz
  exact firm_punctuation rfl []

/-- The signs of a part are those of its text. -/
theorem Part.innerComments_unique (hA : Part A text) (hB : Part B text) :
    Sign.innerComments A = Sign.innerComments B := by
  have hscan : ∀ {V : List Sign}, Part V text →
      (TokenStream.scanFrom 0 (text.toList ++ [','])).pending.map Token.sign =
        regap [] V ++ [Sign.mark .comma] := by
    intro V hV
    have hread := (hV.lexes_comma.scan_eq (Trivia.gap_of_none rfl) 0).1
    rw [List.flatMap_append, chars_regap hV.ne_nil, hV.written_eq] at hread
    simpa [Sign.chars_mark, punctuationChar] using hread
  have hsame := (hscan hA).symm.trans (hscan hB)
  rw [List.append_cancel_right_eq] at hsame
  rw [← innerComments_regap [], hsame, innerComments_regap]

/-- The comments of a text that can end where a text ends. -/
theorem Part.innerComments_eq (h : Part T text) (hsolid : SolidEnd T) :
    Text.innerComments text = Sign.innerComments T := by
  have hend : SolidEnd (regap [] T) := hsolid.congr lastOf_regap
  have hlex : Lexes (regap [] T) [] :=
    Settled.of_lexes (Lexes.append_iff.mp h.lexes_comma).1 hend [] (hend.readsLast .nil)
  have hcomments := hlex.comments_eq (Trivia.gap_of_none rfl) 0
  rw [chars_regap h.ne_nil, h.written_eq, comments_regap h.ne_nil] at hcomments
  unfold Text.innerComments
  simpa [Trivia.comments] using hcomments

end

/-! ## Putting texts together -/

/-- The text can be joined to others, and these are the comments in it. -/
def Holds (text : List Char) (cs : List String) : Prop :=
  ∃ V, Part V (String.ofList text) ∧ Sign.innerComments V = cs

namespace Holds

variable {a b : List Char} {cs ds : List String}

theorem unique (h : Holds a cs) (h' : Holds a ds) : cs = ds := by
  obtain ⟨V, hV, rfl⟩ := h
  obtain ⟨W, hW, rfl⟩ := h'
  exact hV.innerComments_unique hW

/-- A single sign. -/
theorem single {k : Kind} (text : String) (h : Joins [⟨[], k, text⟩]) : Holds text.toList [] :=
  ⟨[⟨[], k, text⟩], ⟨by simp, by simp, h⟩, rfl⟩

theorem mark {k : Kind} (hk : Lexeme.punctuation? (punctuationChar k) = some k) :
    Holds [punctuationChar k] [] := by
  have h : Holds (String.singleton (punctuationChar k)).toList [] :=
    single _ (Joins.nil.mark_cons hk)
  simpa using h

theorem append (ha : Holds a cs) (hb : Holds b ds) (hcut : ∀ Y, Cuts (b ++ Y)) :
    Holds (a ++ b) (cs ++ ds) := by
  obtain ⟨V, hV, rfl⟩ := ha
  obtain ⟨W, hW, rfl⟩ := hb
  have hchars : (regap [] W).flatMap Sign.chars = b := by
    rw [chars_regap hW.ne_nil, hW.written_eq, String.toList_ofList]
    rfl
  refine ⟨V ++ regap [] W, ⟨by simp [hV.ne_nil], ?_, ?_⟩, ?_⟩
  · rw [written_append hV.ne_nil, hV.written_eq, hchars, String.ofList_append]
  · refine hV.joins.append (hW.joins.regap hW.ne_nil Trivia.isGap_nil) (.inr ?_)
    rw [hchars]
    exact hcut
  · rw [innerComments_append hV.ne_nil, comments_regap_of_nil hW.ne_nil rfl]

/-- One space between two texts. -/
theorem spaced (ha : Holds a cs) (hb : Holds b ds) : Holds (a ++ ' ' :: b) (cs ++ ds) := by
  obtain ⟨V, hV, rfl⟩ := ha
  obtain ⟨W, hW, rfl⟩ := hb
  refine ⟨V ++ regap space W, ⟨by simp [hV.ne_nil], ?_, ?_⟩, ?_⟩
  · rw [written_append hV.ne_nil, hV.written_eq, chars_space hW.ne_nil, hW.written_eq,
      String.toList_ofList, String.ofList_append]
  · exact hV.joins.append (hW.joins.regap hW.ne_nil Trivia.isGap_space)
      (.inr (cuts_space hW.ne_nil))
  · rw [innerComments_append hV.ne_nil, comments_regap_of_nil hW.ne_nil rfl]

/-- Punctuation in front of a text. -/
theorem mark_cons {k : Kind} (hk : Lexeme.punctuation? (punctuationChar k) = some k)
    (hb : Holds b ds) : Holds (punctuationChar k :: b) ds := by
  obtain ⟨W, hW, rfl⟩ := hb
  have hne : regap [] W ≠ [] := by simpa using hW.ne_nil
  refine ⟨Sign.mark k :: regap [] W, ⟨by simp, ?_, ?_⟩, ?_⟩
  · rw [Sign.written, chars_regap hW.ne_nil, hW.written_eq, Sign.text_mark, ← String.toList_inj]
    simp
  · exact (hW.joins.regap hW.ne_nil Trivia.isGap_nil).mark_cons hk
  · exact comments_regap_of_nil hW.ne_nil rfl

/-- Punctuation that cuts behind a text. -/
theorem append_mark {k : Kind} (ha : Holds a cs)
    (hk : Lexeme.punctuation? (punctuationChar k) = some k)
    (hcut : isCut (punctuationChar k) = true) : Holds (a ++ [punctuationChar k]) cs := by
  simpa using ha.append (mark hk) fun _ => .char hcut

/-- Punctuation that cuts, and a space, between two texts. -/
theorem separated {k : Kind} (ha : Holds a cs)
    (hk : Lexeme.punctuation? (punctuationChar k) = some k)
    (hcut : isCut (punctuationChar k) = true) (hb : Holds b ds) :
    Holds (a ++ punctuationChar k :: ' ' :: b) (cs ++ ds) :=
  ha.append ((mark hk).spaced hb) fun _ => .char hcut

theorem keyword (q : Qualifier) : Holds q.keyword.toList [] := by
  refine single (k := .identifier) q.keyword ?_
  intro B hB hcut Y hread
  exact ⟨⟨Trivia.isGap_nil, textReads_keyword q (hcut Y)⟩,
    hB Y (ReadsLast.append (A := [_]) hread)⟩

theorem arrow : Holds ['-', '>'] [] :=
  single (k := .arrow) "->" fun _ hB _ => hB.cons_firm Trivia.isGap_nil firm_arrow

theorem ellipsis : Holds ['.', '.', '.'] [] :=
  single (k := .ellipsis) "..." fun _ hB _ =>
    hB.cons_firm Trivia.isGap_nil firm_ellipsis

end Holds

/-- The text is kept as it was written: it can be joined to others, and stand at
the end of a text. -/
def Whole (text : String) : Prop := ∃ V, Part V text ∧ SolidEnd V

theorem Whole.holds {text : String} (h : Whole text) :
    Holds text.toList (Text.innerComments text) := by
  obtain ⟨V, hV, hsolid⟩ := h
  exact ⟨V, by rwa [String.ofList_toList], (hV.innerComments_eq hsolid).symm⟩

/-- Two texts with a space between them. -/
theorem Whole.spaced {s t : String} (hs : Whole s) (ht : Whole t) :
    Whole (s ++ " " ++ t) ∧
      Text.innerComments (s ++ " " ++ t) = Text.innerComments s ++ Text.innerComments t := by
  obtain ⟨V, hV, hsolid⟩ := hs
  obtain ⟨W, hW, hsolid'⟩ := ht
  have hne : regap space W ≠ [] := by simpa using hW.ne_nil
  have hpart : Part (V ++ regap space W) (s ++ " " ++ t) := by
    refine ⟨by simp [hV.ne_nil], ?_, hV.joins.append (hW.joins.regap hW.ne_nil Trivia.isGap_space)
      (.inr (cuts_space hW.ne_nil))⟩
    rw [written_append hV.ne_nil, hV.written_eq, chars_space hW.ne_nil, hW.written_eq,
      ← String.toList_inj]
    simp
  have hend : SolidEnd (V ++ regap space W) :=
    hsolid'.congr ((lastOf_append hne).trans lastOf_regap)
  refine ⟨⟨_, hpart, hend⟩, ?_⟩
  rw [hpart.innerComments_eq hend, hV.innerComments_eq hsolid, hW.innerComments_eq hsolid',
    innerComments_append hV.ne_nil, comments_regap_of_nil hW.ne_nil rfl]

namespace TypeExpr

/-! ## The texts of a type -/

mutual
/-- The texts that a type is made of, in the order in which they are printed. -/
def texts : TypeExpr → List String
  | .named name => [name]
  | .generic base arguments => base :: textsList arguments
  | .optional t => texts t
  | .tuple elements => textsElements elements
  | .function parameters effects result =>
    textsElements parameters ++ (effects.toList ++ texts result)
  | .qualified _ t => texts t
  | .attributed specifiers t => specifiers ++ texts t
  | .verbatim text => [text]

/-- The texts of several types. -/
def textsList : List TypeExpr → List String
  | [] => []
  | t :: ts => texts t ++ textsList ts

/-- The texts of elements, with their labels. -/
def textsElements : List (Element TypeExpr) → List String
  | [] => []
  | ⟨label, t, _⟩ :: es => label.toList ++ texts t ++ textsElements es
end

/-- The comments that a type holds: those in its texts. -/
def comments (t : TypeExpr) : List String := t.texts.flatMap Text.innerComments

theorem textsList_eq (ts : List TypeExpr) : textsList ts = ts.flatMap texts := by
  induction ts with
  | nil => rfl
  | cons t ts ih => rw [textsList, ih, List.flatMap_cons]

theorem textsElements_eq (es : List (Element TypeExpr)) :
    textsElements es = es.flatMap fun x => x.label.toList ++ x.type.texts := by
  induction es with
  | nil => rfl
  | cons x es ih => rw [textsElements, ih, List.flatMap_cons]

/-! ## Qualifying -/

section

variable (rules : Rules)

theorem texts_optionalOf (t : TypeExpr) : (optionalOf t).texts = t.texts := by
  unfold optionalOf
  split <;> simp [texts, textsElements, parenthesized]

theorem texts_keepQualifier (q : Qualifier) (t : TypeExpr) :
    (keepQualifier q t).texts = t.texts := by
  unfold keepQualifier
  split <;> rfl

mutual
/-- Qualifying changes no text. -/
theorem texts_requalify (k : Qualifier) : (t : TypeExpr) → (t.requalify rules k).texts = t.texts
  | .named name => by
    rw [requalify]
    split <;> rfl
  | .generic base arguments => by
    rw [requalify]
    split
    · rfl
    · rw [texts, texts, textsList_requalify arguments]
  | .optional t => by rw [requalify, texts_optionalOf, texts, texts_requalify .any t]
  | .tuple elements => by rw [requalify, texts, texts, textsElements_requalify elements]
  | .function parameters effects result => by
    rw [requalify, texts, texts, textsElements_requalify parameters, texts_requalify .any result]
  | .qualified q t => by
    rw [requalify]
    split
    · rfl
    · rw [texts_keepQualifier, texts, texts_requalify k t]
  | .attributed specifiers t => by rw [requalify, texts, texts, texts_requalify k t]
  | .verbatim text => by rw [requalify]

theorem textsList_requalify : (ts : List TypeExpr) →
    textsList (requalifyList rules ts) = textsList ts
  | [] => rfl
  | t :: ts => by
    rw [requalifyList, textsList, textsList, texts_requalify .any t, textsList_requalify ts]

theorem textsElements_requalify : (es : List (Element TypeExpr)) →
    textsElements (requalifyElements rules es) = textsElements es
  | [] => rfl
  | ⟨label, t, variadic⟩ :: es => by
    rw [requalifyElements, textsElements, textsElements, texts_requalify .any t,
      textsElements_requalify es]
end

end

/-! ## Printing -/

/-- A text between two marks. -/
theorem holds_enclosed {l r : Kind} {b : List Char} {cs : List String} (h : Holds b cs)
    (hl : Lexeme.punctuation? (punctuationChar l) = some l)
    (hr : Lexeme.punctuation? (punctuationChar r) = some r)
    (hcut : isCut (punctuationChar r) = true) :
    Holds (punctuationChar l :: (b ++ [punctuationChar r])) cs :=
  (h.append_mark hr hcut).mark_cons hl

theorem holds_parentheses {b : List Char} {cs : List String} (h : Holds b cs) :
    Holds ('(' :: (b ++ [')'])) cs :=
  holds_enclosed (l := .opening .paren) (r := .closing .paren) h rfl rfl rfl

/-- The arguments of a generic type with the brackets around them. -/
theorem holds_genericClause {ts : List TypeExpr}
    (h : ts = [] ∨
      Holds (printArguments ts).toList ((textsList ts).flatMap Text.innerComments)) :
    Holds ('<' :: ((printArguments ts).toList ++ ['>']))
      ((textsList ts).flatMap Text.innerComments) := by
  rcases h with rfl | h
  · exact (Holds.mark (k := .greaterThan) rfl).mark_cons (k := .lessThan) rfl
  · exact holds_enclosed (l := .lessThan) (r := .greaterThan) h rfl rfl rfl

/-- Elements with the parentheses around them. -/
theorem holds_elementClause {es : List (Element TypeExpr)}
    (h : es = [] ∨
      Holds (printElements es).toList ((textsElements es).flatMap Text.innerComments)) :
    Holds ('(' :: ((printElements es).toList ++ [')']))
      ((textsElements es).flatMap Text.innerComments) := by
  rcases h with rfl | h
  · exact (Holds.mark (k := .closing .paren) rfl).mark_cons (k := .opening .paren) rfl
  · exact holds_parentheses h

theorem holds_element {label : Option String} {t : TypeExpr} (variadic : Bool)
    (hlabel : ∀ s ∈ label.toList, Whole s) (ht : Holds t.print.toList t.comments) :
    Holds (printElement ⟨label, t, variadic⟩).toList
      ((label.toList ++ t.texts).flatMap Text.innerComments) := by
  have hdots : Holds (t.print ++ printVariadic variadic).toList t.comments := by
    cases variadic with
    | false => simpa [printVariadic] using ht
    | true => simpa [printVariadic] using ht.append .ellipsis fun _ => .dots
  cases label with
  | none => simpa [printElement, printLabel, comments] using hdots
  | some text =>
    have htext : Whole text := hlabel text List.mem_cons_self
    have hboth := htext.holds.separated (k := .colon) rfl rfl hdots
    simpa [printElement, printLabel, comments, punctuationChar] using hboth

theorem holds_specifiers {ss : List String} {b : List Char} {cs : List String}
    (hss : ∀ s ∈ ss, Whole s) (hb : Holds b cs) :
    Holds ((printSpecifiers ss).toList ++ b) (ss.flatMap Text.innerComments ++ cs) := by
  induction ss with
  | nil => exact hb
  | cons s ss ih =>
    obtain ⟨hs, hrest⟩ := List.forall_mem_cons.mp hss
    simpa [printSpecifiers] using hs.holds.spaced (ih hrest)

mutual
/-- The comments of a canonical form are those of the texts of its type. -/
theorem holds_print : (t : TypeExpr) → (∀ s ∈ t.texts, Whole s) →
    Holds t.print.toList t.comments
  | .named name, h => by
    have hname : Whole name := h name List.mem_cons_self
    simpa [print, comments, texts] using hname.holds
  | .generic base arguments, h => by
    obtain ⟨hbase, hrest⟩ := List.forall_mem_cons.mp h
    have hclause := holds_genericClause (holds_arguments arguments hrest)
    simpa [print, comments, texts] using hbase.holds.append hclause fun _ => .char rfl
  | .optional t, h => by
    have ht : Holds t.print.toList t.comments := holds_print t h
    rw [print]
    split
    · simpa [comments, texts, punctuationChar] using
        (holds_parentheses ht).append_mark (k := .question) rfl rfl
    · simpa [comments, texts, punctuationChar] using ht.append_mark (k := .question) rfl rfl
  | .tuple elements, h => by
    simpa [print, comments, texts] using holds_elementClause (holds_elements elements h)
  | .function parameters effects result, h => by
    obtain ⟨hparameters, hrest⟩ := List.forall_mem_append.mp h
    obtain ⟨heffects, hresult⟩ := List.forall_mem_append.mp hrest
    have hclause := holds_elementClause (holds_elements parameters hparameters)
    have harrow := Holds.arrow.spaced (holds_print result hresult)
    cases effects with
    | none => simpa [print, comments, texts, printEffects] using hclause.spaced harrow
    | some text =>
      have htext : Whole text := heffects text List.mem_cons_self
      simpa [print, comments, texts, printEffects] using
        (hclause.spaced htext.holds).spaced harrow
  | .qualified q t, h => by
    have ht : Holds t.print.toList t.comments := holds_print t h
    simpa [print, comments, texts] using (Holds.keyword q).spaced ht
  | .attributed specifiers t, h => by
    obtain ⟨hspecifiers, hrest⟩ := List.forall_mem_append.mp h
    simpa [print, comments, texts] using holds_specifiers hspecifiers (holds_print t hrest)
  | .verbatim text, h => by
    have htext : Whole text := h text List.mem_cons_self
    simpa [print, comments, texts] using htext.holds

theorem holds_arguments : (ts : List TypeExpr) → (∀ s ∈ textsList ts, Whole s) →
    ts = [] ∨ Holds (printArguments ts).toList ((textsList ts).flatMap Text.innerComments)
  | [], _ => .inl rfl
  | [t], h => by
    have ht : Holds t.print.toList t.comments := holds_print t (List.forall_mem_append.mp h).1
    exact .inr (by simpa [printArguments_singleton, textsList, comments] using ht)
  | t :: u :: ts, h => by
    obtain ⟨ht, hrest⟩ := List.forall_mem_append.mp h
    rcases holds_arguments (u :: ts) hrest with hnil | hus
    · contradiction
    · have hboth := (holds_print t ht).separated (k := .comma) rfl rfl hus
      exact .inr (by simpa [printArguments_cons, textsList, comments, punctuationChar] using hboth)

theorem holds_elements : (es : List (Element TypeExpr)) → (∀ s ∈ textsElements es, Whole s) →
    es = [] ∨ Holds (printElements es).toList ((textsElements es).flatMap Text.innerComments)
  | [], _ => .inl rfl
  | [⟨label, t, variadic⟩], h => by
    obtain ⟨hlabel, ht⟩ := List.forall_mem_append.mp (List.forall_mem_append.mp h).1
    have hx := holds_element variadic hlabel (holds_print t ht)
    exact .inr (by simpa [printElements_singleton, textsElements] using hx)
  | ⟨label, t, variadic⟩ :: e :: es, h => by
    obtain ⟨hx, hrest⟩ := List.forall_mem_append.mp h
    obtain ⟨hlabel, ht⟩ := List.forall_mem_append.mp hx
    have hx := holds_element variadic hlabel (holds_print t ht)
    rcases holds_elements (e :: es) hrest with hnil | hes
    · contradiction
    · have hboth := hx.separated (k := .comma) rfl rfl hes
      exact .inr (by simpa [printElements_cons, textsElements, punctuationChar] using hboth)
end

/-! ## The texts of a type that is spelled -/

/-- The texts are whole, and their comments are in the gaps of the signs, in
order. -/
def Keeps (ss : List String) (T : List Sign) : Prop :=
  (∀ s ∈ ss, Whole s) ∧ (ss.flatMap Text.innerComments).Sublist (T.flatMap Sign.comments)

namespace Keeps

variable {ss ts : List String} {S T : List Sign}

theorem nil (T : List Sign) : Keeps [] T := ⟨nofun, List.nil_sublist _⟩

theorem append (hs : Keeps ss S) (ht : Keeps ts T) : Keeps (ss ++ ts) (S ++ T) := by
  refine ⟨List.forall_mem_append.mpr ⟨hs.1, ht.1⟩, ?_⟩
  rw [List.flatMap_append, List.flatMap_append]
  exact hs.2.append ht.2

/-- More signs have more comments. -/
theorem cons (x : Sign) (h : Keeps ss T) : Keeps ss (x :: T) := (nil [x]).append h

theorem concat (h : Keeps ss S) (T : List Sign) : Keeps ss (S ++ T) := by
  simpa using h.append (nil T)

/-- Signs whose text is kept as it was written. -/
theorem written {Y : List Char} (hlex : Lexes T Y) (hne : T ≠ [])
    (hk : ∀ z ∈ T.getLast?, isSolid z.kind = true) : Keeps [Sign.written T] T := by
  have hpart := Part.of_lexes hlex hne hk
  have hsolid := SolidEnd.of_lexes hlex hk
  refine ⟨?_, ?_⟩
  · intro s hs
    rw [List.mem_singleton.mp hs]
    exact ⟨T, hpart, hsolid⟩
  · rw [List.flatMap_singleton, hpart.innerComments_eq hsolid]
    exact innerComments_sublist T

theorem listed {P : α → List Sign → Prop} {f : α → List String} {as : List α} {Y : List Char}
    (hP : ∀ ⦃a T Y⦄, P a T → Lexes T Y → Keeps (f a) T) (h : Listed P as T) (hlex : Lexes T Y) :
    Keeps (as.flatMap f) T := by
  induction h generalizing Y with
  | nil => exact nil []
  | last ha => simpa using hP ha hlex
  | more ha hs hrest ih =>
    obtain ⟨hfirst, -, hlast⟩ := Lexes.append_iff.mp hlex
    rw [List.flatMap_cons]
    exact (hP ha hfirst).append ((ih hlast).cons _)

theorem label {l : Option String} {Y : List Char} (h : Label l T) (hlex : Lexes T Y) :
    Keeps l.toList T := by
  cases h with
  | none => exact nil []
  | @single x y hx hy =>
    have hfirst : Lexes [x] _ := (Lexes.append_iff (S := [x]) (T := [y])).mp hlex |>.1
    have hname := written hfirst (by simp) (by simpa using isSolid_of_isName hx)
    rw [Sign.written_singleton] at hname
    exact hname.concat [y]
  | @double x y z hx hy hz =>
    have hfirst : Lexes [x, y] _ := (Lexes.append_iff (S := [x, y]) (T := [z])).mp hlex |>.1
    exact (written hfirst (by simp) (by simpa using isSolid_of_isName hy)).concat [z]

theorem specifiers {h : Sign} {Y : List Char} (hrow : Row Specifier h ss T) (hlex : Lexes T Y) :
    Keeps ss T := by
  induction hrow generalizing Y with
  | nil => exact nil []
  | cons hs _ ih =>
    obtain ⟨hfirst, hrest⟩ := Lexes.append_iff.mp hlex
    have hone := written hfirst hs.ne_nil hs.isSolid_last
    rw [hs.written_eq] at hone
    exact hone.append (ih hrest)

/-- All effects are one text. -/
theorem effects {h : Sign} {Y : List Char} (hrow : Row Effect h ss T) (hlex : Lexes T Y) :
    Keeps (joinEffects ss).toList T := by
  induction hrow generalizing Y with
  | nil => exact nil []
  | @cons f fs A As hf _ ih =>
    obtain ⟨hfirst, hrest⟩ := Lexes.append_iff.mp hlex
    have hone := written hfirst hf.ne_nil hf.isSolid_last
    rw [hf.written_eq] at hone
    have hmore := ih hrest
    cases fs with
    | nil => simpa [joinEffects] using hone.concat As
    | cons g fs =>
      have htexts : (joinEffects (f :: g :: fs)).toList =
          [f ++ " " ++ String.intercalate " " (g :: fs)] := by
        simp [joinEffects, String.intercalate_cons_cons]
      obtain ⟨hwhole, hcomments⟩ := (hone.1 f (by simp)).spaced
        (hmore.1 (String.intercalate " " (g :: fs)) (by simp [joinEffects]))
      rw [htexts]
      refine ⟨by simpa using hwhole, ?_⟩
      have hboth := (hone.append hmore).2
      simpa [joinEffects, hcomments] using hboth

end Keeps

section

variable {n : Nat} {t : TypeExpr} {T : List Sign} {e : Ending} {Y : List Char}

theorem Item.keeps (hI : ∀ ⦃t T e Y⦄, Spells n t T e → Lexes T Y → Keeps t.texts T)
    {x : Element TypeExpr} (h : Item (Spells n) x T) (hlex : Lexes T Y) :
    Keeps (x.label.toList ++ x.type.texts) T := by
  obtain @⟨label, variadic, t, L, T, D, e, hlabel, ht, hdots⟩ := h
  obtain ⟨hL, hrest⟩ := Lexes.append_iff.mp hlex
  obtain ⟨hT, -⟩ := Lexes.append_iff.mp hrest
  exact (Keeps.label hlabel hL).append ((hI ht hT).concat D)

theorem keeps_arguments (hI : ∀ ⦃t T e Y⦄, Spells n t T e → Lexes T Y → Keeps t.texts T)
    {ts : List TypeExpr} (h : Listed (Argument (Spells n)) ts T) (hlex : Lexes T Y) :
    Keeps (textsList ts) T := by
  rw [textsList_eq]
  refine Keeps.listed ?_ h hlex
  rintro t T Y ⟨e, ht⟩ hT
  exact hI ht hT

theorem keeps_elements (hI : ∀ ⦃t T e Y⦄, Spells n t T e → Lexes T Y → Keeps t.texts T)
    {es : List (Element TypeExpr)} (h : Listed (Item (Spells n)) es T) (hlex : Lexes T Y) :
    Keeps (textsElements es) T := by
  rw [textsElements_eq]
  exact Keeps.listed (fun x T Y hx hT => hx.keeps hI hT) h hlex

theorem Atom.keeps (hI : ∀ ⦃t T e Y⦄, Spells n t T e → Lexes T Y → Keeps t.texts T)
    (h : Atom (Spells n) t T e) (hlex : Lexes T Y) : Keeps t.texts T := by
  cases h with
  | @named x hx =>
    have hname := Keeps.written hlex (by simp) (by simp [hx, isSolid])
    rwa [Sign.written_singleton] at hname
  | @generic x l g ts Ts hx hl hts hg =>
    obtain ⟨hbase, -, hrest⟩ := Lexes.append_iff (S := [x]) |>.mp hlex
    have hname := Keeps.written hbase (by simp) (by simp [hx, isSolid])
    rw [Sign.written_singleton] at hname
    have harguments := keeps_arguments hI hts (Lexes.append_iff.mp hrest).1
    exact hname.append ((harguments.concat [g]).cons l)
  | @tuple l r es Es hl hes hr =>
    obtain ⟨-, hrest⟩ := hlex
    exact ((keeps_elements hI hes (Lexes.append_iff.mp hrest).1).concat [r]).cons l
  | unit hs hT => exact Keeps.written hlex (by simp) (hT.isSolid_last hs)

theorem Chain.keeps (hI : ∀ ⦃t T e Y⦄, Spells n t T e → Lexes T Y → Keeps t.texts T)
    (h : Chain (Spells n) t T e) (hlex : Lexes T Y) : Keeps t.texts T := by
  induction h generalizing Y with
  | atom ha => exact ha.keeps hI hlex
  | member _ _ _ hx =>
    exact Keeps.written hlex (by simp) (by simpa using isSolid_of_isName hx)
  | memberGeneric _ _ _ _ _ _ hg =>
    refine Keeps.written hlex (by simp) ?_
    simp [List.getLast?_append, List.getLast?_cons, hg, isSolid]
  | optional _ _ _ ih => exact (ih (Lexes.append_iff.mp hlex).1).concat _
  | unwrapped _ _ hq => exact Keeps.written hlex (by simp) (by simp [hq, isSolid])

theorem Suffixed.keeps (hI : ∀ ⦃t T e Y⦄, Spells n t T e → Lexes T Y → Keeps t.texts T)
    (h : Suffixed (Spells n) t T e) (hlex : Lexes T Y) : Keeps t.texts T := by
  cases h with
  | chain hchain => exact hchain.keeps hI hlex
  | @function l r a es Es Fs T fs t e hl hes hr hfs ha ht =>
    obtain ⟨-, hrest⟩ := hlex
    obtain ⟨hEs, -, hrest⟩ := Lexes.append_iff.mp hrest
    obtain ⟨hFs, -, hT⟩ := Lexes.append_iff.mp hrest
    have hresult := (Keeps.effects hfs hFs).append ((hI ht hT).cons a)
    exact ((keeps_elements hI hes hEs).append (hresult.cons r)).cons l

theorem Level.keeps (hI : ∀ ⦃t T e Y⦄, Spells n t T e → Lexes T Y → Keeps t.texts T)
    (h : Level (Spells n) t T e) (hlex : Lexes T Y) : Keeps t.texts T := by
  cases h with
  | @word x hx =>
    have hname := Keeps.written hlex (by simp) (by simp [hx, isSolid])
    rwa [Sign.written_singleton] at hname
  | plain hsuffixed => exact hsuffixed.keeps hI hlex
  | @composition t T Ms e e' hchain hmembers =>
    have hne : Ms ≠ [] := by
      obtain ⟨x, R, rfl, -⟩ := hmembers.exists_cons
      simp
    have hsolid : SolidEnd (T ++ Ms) :=
      (hmembers.solid_last id (fun h => h.respells) (Lexes.append_iff.mp hlex).2).congr
        (lastOf_append hne)
    exact Keeps.written hlex (by simp [hne]) fun z hz => (hsolid z hz).1
  | @qualified x s q t T e hx hq hs ht => exact (hI ht hlex.2).cons x
  | @attributed s ss Ss T t e hrow hss ht hattr =>
    obtain ⟨hSs, hT⟩ := Lexes.append_iff.mp hlex
    exact (Keeps.specifiers hrow hSs).append (hI ht hT)

/-- The texts of a type are whole, and their comments are among those between
its signs. -/
theorem Spells.keeps (h : Spells n t T e) (hlex : Lexes T Y) : Keeps t.texts T := by
  induction n generalizing t T e Y with
  | zero => exact h.elim
  | succ n ih =>
    have hlevel : Level (Spells n) t T e := h
    exact hlevel.keeps (fun t T e Y h hlex => ih h hlex) hlex

end

end TypeExpr

end AnySome
