import AnySome.Proofs.TypeGrammar.Shape
import AnySome.Proofs.TypeGrammar.Steps

/-!
# What is read as a type is spelled by the grammar

A reader of types that ends without findings has consumed signs that spell
its result, and the sign behind them is one at which that spelling stops.
The proof goes through the readers from the inside out; the loops are
followed round by round.

## Main results

* `level_sound` — one level of types, given that the inner types are read
  soundly.
* `sound_of_depth` — types of any depth.
-/

namespace AnySome

namespace Cursor.At

variable {fin : Sign} {S : List Sign} {c : Cursor}

theorem exists_cons_of_kind (h : c.At fin S) {k : Kind} (hk : c.kind = k)
    (hne : k ≠ .endOfFile) : ∃ s U, S = s :: U ∧ s.kind = k := by
  cases S with
  | nil =>
    rw [h.kind_eq] at hk
    have hend : k = .endOfFile := hk.symm.trans h.finalKind
    exact absurd hend hne
  | cons s U => exact ⟨s, U, rfl, by rw [← hk, h.kind_eq]; rfl⟩

theorem exists_cons_of_isName (h : c.At fin S) (hk : c.kind.isName = true) :
    ∃ s U, S = s :: U ∧ s.kind.isName = true := by
  have hne : c.kind ≠ .endOfFile := by
    intro hend
    rw [hend] at hk
    contradiction
  obtain ⟨s, U, hS, hs⟩ := h.exists_cons_of_kind rfl hne
  exact ⟨s, U, hS, by rw [hs]; exact hk⟩

theorem kind_cons {s : Sign} (h : c.At fin (s :: S)) : c.kind = s.kind := h.kind_eq

theorem text_cons {s : Sign} (h : c.At fin (s :: S)) : c.current.text = s.text := h.text_eq

theorem writtenSince_cons {s : Sign} {d : Cursor} {T U : List Sign}
    (hc : c.At fin (s :: (T ++ U))) (hd : d.At fin U) :
    c.writtenSince d = Sign.written (s :: T) :=
  writtenSince_eq (T := s :: T) hc hd

/-! ## Parentheses behind a name -/

theorem opensAdjacentParen_eq (h : c.At fin S) :
    (c.kind == .opening .paren && !c.current.isSeparated)
      = (S.headD fin).opensAdjacentParen := by
  rw [h.kind_eq, h.isSeparated_eq]
  rfl

theorem skipAdjacentParen_of_not (h : c.At fin S)
    (hS : (S.headD fin).opensAdjacentParen = false) : c.skipAdjacentParen = c := by
  unfold Cursor.skipAdjacentParen
  rw [h.opensAdjacentParen_eq, hS]
  rfl

theorem skipAdjacentParen_of_opens {p : Sign} {P U : List Sign}
    (hp : p.opensAdjacentParen = true) (hP : Closes [] (p :: P))
    (h : c.At fin (p :: (P ++ U))) : c.skipAdjacentParen.At fin U := by
  unfold Cursor.skipAdjacentParen
  rw [h.opensAdjacentParen_eq, List.headD_cons, hp]
  exact skipBalanced_complete hP h

/-- A parenthesis that continues a name is a unit; otherwise nothing is
passed over. -/
theorem skipAdjacentParen_cases (h : c.At fin S) (hf : c.skipAdjacentParen.findings = []) :
    ((S.headD fin).opensAdjacentParen = false ∧ c.skipAdjacentParen.At fin S) ∨
      ∃ p P U, S = p :: (P ++ U) ∧ p.opensAdjacentParen = true ∧ Closes [] (p :: P) ∧
        c.skipAdjacentParen.At fin U := by
  by_cases hopen : (S.headD fin).opensAdjacentParen = true
  · right
    unfold Cursor.skipAdjacentParen at hf ⊢
    rw [h.opensAdjacentParen_eq, hopen, if_pos rfl] at hf ⊢
    have hS : S ≠ [] := by
      rintro rfl
      rw [List.headD_nil, Sign.opensAdjacentParen, h.finalKind] at hopen
      simp at hopen
    obtain ⟨T, U, rfl, hU, hunit⟩ := skipBalanced_sound h hS hf
    obtain ⟨p, P, rfl⟩ := List.exists_cons_of_ne_nil hunit.ne_nil
    exact ⟨p, P, U, rfl, hopen, hunit, hU⟩
  · left
    have hclosed : (S.headD fin).opensAdjacentParen = false := by simpa using hopen
    rw [h.skipAdjacentParen_of_not hclosed]
    exact ⟨hclosed, h⟩

end Cursor.At

namespace TypeExpr

open AnySome.Parser AnySome.Cursor

variable {fin : Sign} {S : List Sign} {c : Cursor}

/-! ## Words in front of a type -/

theorem isTypeNext_eq {s : Sign} (h : c.At fin (s :: S)) :
    isTypeNext c = (S.headD fin).startsTypeHere := by
  have hline := h.advance.onNewLine_eq
  have hkind := h.advance.kind_eq
  simp only [isTypeNext, hline, hkind]
  rfl

theorem headD_append_eq (T U : List Sign) (fin : Sign) :
    (T ++ U).headD fin = T.headD (U.headD fin) := by
  cases T <;> rfl

/-- Reading items one after the other, each of which is read as `P` says. -/
theorem many_sound {item : Parser (Option α)} [Steady item] {P : α → List Sign → Sign → Prop}
    (hitem : ∀ {S : List Sign} {c : Cursor}, c.At fin S → (item c).2.findings = [] →
      item c = (none, c) ∨ ∃ a A U, S = A ++ U ∧ A ≠ [] ∧ (item c).1 = some a ∧
        (item c).2.At fin U ∧ P a A (U.headD fin))
    (hc : c.At fin S) (h : (many item c).2.findings = []) :
    ∃ A U, S = A ++ U ∧ (many item c).2.At fin U ∧ Row P (U.headD fin) (many item c).1 A ∧
      item (many item c).2 = (none, (many item c).2) := by
  induction hn : S.length using Nat.strongRecOn generalizing S c with
  | ind n ih =>
    cases hres : item c with
    | mk r d =>
      cases r with
      | none =>
        rw [many_of_none hres] at h ⊢
        rcases hitem hc (by rw [hres]; exact h) with hnone | ⟨a, _, _, _, _, ha, _⟩
        · rw [hres] at hnone
          cases hnone
          exact ⟨[], S, rfl, hc, .nil, hres⟩
        · rw [hres] at ha
          contradiction
      | some a =>
        have hd : d.findings = [] := by
          by_cases hmove : d.remaining < c.remaining
          · rw [many_of_some hres hmove] at h
            exact (Steady.leads (p := many item) d).findings_nil h
          · rw [many_of_stuck hres hmove] at h
            exact h
        rcases hitem hc (by rw [hres]; exact hd) with hnone | ⟨b, A, U, rfl, hA, hb, hU, hP⟩
        · rw [hres] at hnone
          cases hnone
        · rw [hres] at hb hU
          cases hb
          have hlen : (A ++ U).length = A.length + U.length := List.length_append
          have hpos : 0 < A.length := List.length_pos_iff.mpr hA
          have hmove : d.remaining < c.remaining := by
            rw [d.remaining_eq, c.remaining_eq, hU.length_eq, hc.length_eq]
            omega
          rw [many_of_some hres hmove] at h ⊢
          obtain ⟨As, V, rfl, hV, hrow, hend⟩ := ih U.length (by omega) hU h rfl
          rw [headD_append_eq] at hP
          exact ⟨A ++ As, V, by simp, hV, .cons hP hrow, hend⟩

theorem isAtSpecifierWord_eq {s : Sign} (h : c.At fin (s :: S)) :
    isAtSpecifierWord c =
      (s.kind == .keyword .inoutSpecifier ||
        (s.kind == .identifier && specifierWords.contains s.text
          && (S.headD fin).startsTypeHere)) := by
  unfold isAtSpecifierWord
  rw [h.kind_cons, h.text_cons, isTypeNext_eq h]

theorem isAtSpecifierWord_of_nil (h : c.At fin []) : isAtSpecifierWord c = false := by
  have hkind : c.kind = .endOfFile := h.kind_eq.trans h.finalKind
  simp [isAtSpecifierWord, hkind]

/-- An attribute is its name with its arguments. -/
theorem skipAttribute_sound (hc : c.At fin S) (hat : c.kind = .atSign)
    (h : c.skipAttribute.findings = []) :
    ∃ A U, S = A ++ U ∧ A ≠ [] ∧ c.skipAttribute.At fin U ∧
      Specifier (Sign.written A) A (U.headD fin) := by
  obtain ⟨a, S, rfl, ha⟩ := hc.exists_cons_of_kind hat (by simp)
  have hname := hc.advance
  rw [List.tail_cons] at hname
  by_cases hkind : c.advance.kind.isName = true
  · have hskip : c.skipAttribute = c.advance.advance.skipAdjacentParen := if_pos hkind
    rw [hskip] at h ⊢
    obtain ⟨x, U, rfl, hx⟩ := hname.exists_cons_of_isName hkind
    rcases hname.advance.skipAdjacentParen_cases h with ⟨hopen, hU⟩ | ⟨p, P, V, hS, hp, hP, hV⟩
    · exact ⟨[a, x], U, rfl, by simp, hU, .bare ha hx hopen⟩
    · rw [List.tail_cons] at hS
      subst hS
      exact ⟨a :: x :: p :: P, V, rfl, by simp, hV, .applied ha hx hp hP⟩
  · have hskip : c.skipAttribute = c.advance.reportHere (.missing .attributeName) :=
      if_neg hkind
    rw [hskip] at h
    exact absurd h (findings_reportHere_ne_nil _ _)

theorem specifier_sound (hc : c.At fin S) (h : (specifier c).2.findings = []) :
    specifier c = (none, c) ∨ ∃ a A U, S = A ++ U ∧ A ≠ [] ∧ (specifier c).1 = some a ∧
      (specifier c).2.At fin U ∧ Specifier a A (U.headD fin) := by
  rw [specifier_eq] at h ⊢
  by_cases hat : (c.kind == .atSign) = true
  · rw [if_pos hat] at h ⊢
    obtain ⟨A, U, rfl, hA, hU, hspec⟩ := skipAttribute_sound hc (by simpa using hat) h
    right
    exact ⟨_, A, U, rfl, hA, by rw [hc.writtenSince_eq hU], hU, hspec⟩
  · rw [if_neg hat] at h ⊢
    by_cases hword : isAtSpecifierWord c = true
    · rw [if_pos hword] at h ⊢
      right
      cases S with
      | nil =>
        rw [isAtSpecifierWord_of_nil hc] at hword
        contradiction
      | cons s S =>
        refine ⟨_, [s], S, rfl, by simp, by rw [hc.text_cons], hc.advance, ?_⟩
        rw [isAtSpecifierWord_eq hc] at hword
        simp only [Bool.or_eq_true, Bool.and_eq_true] at hword
        rcases hword with hinout | ⟨⟨hident, hmem⟩, hnext⟩
        · exact .keyword (eq_of_beq hinout)
        · exact .word (eq_of_beq hident) hmem hnext
    · rw [if_neg hword]
      exact .inl rfl

/-! ## Effects -/

theorem effect_sound (hc : c.At fin S) (h : (effect c).2.findings = []) :
    effect c = (none, c) ∨ ∃ a A U, S = A ++ U ∧ A ≠ [] ∧ (effect c).1 = some a ∧
      (effect c).2.At fin U ∧ Effect a A (U.headD fin) := by
  rw [effect_eq] at h ⊢
  by_cases hline : c.current.onNewLine = true
  · rw [if_pos hline]
    exact .inl rfl
  rw [if_neg hline] at h ⊢
  by_cases hasync : c.current.isWord "async" = true
  · rw [if_pos hasync] at h ⊢
    right
    rw [hc.isWord_eq, Bool.and_eq_true] at hasync
    have hkind : c.kind = .identifier := by rw [hc.kind_eq]; exact eq_of_beq hasync.1
    obtain ⟨x, S, rfl, hx⟩ := hc.exists_cons_of_kind hkind (by simp)
    exact ⟨_, [x], S, rfl, by simp, rfl, hc.advance,
      .async (by rw [hc.onNewLine_eq] at hline; simpa using hline) hx (eq_of_beq hasync.2)⟩
  rw [if_neg hasync] at h ⊢
  by_cases hthrows : (c.kind == .keyword .throwsEffect) = true
  · rw [if_pos hthrows] at h ⊢
    right
    obtain ⟨x, S, rfl, hx⟩ := hc.exists_cons_of_kind (by simpa using hthrows) (by simp)
    have hx' : x.onNewLine = false := by
      rw [hc.onNewLine_eq] at hline
      simpa using hline
    rcases hc.advance.skipAdjacentParen_cases h with ⟨hopen, hU⟩ | ⟨p, P, V, hS, hp, hP, hV⟩
    · exact ⟨_, [x], S, rfl, by simp, by simp [hc.writtenSince_cons (T := []) hU], hU,
        .throwing hx' hx hopen⟩
    · rw [List.tail_cons] at hS
      subst hS
      exact ⟨_, x :: p :: P, V, rfl, by simp, by rw [hc.writtenSince_cons (T := p :: P) hV], hV,
        .throwingTyped hx' hx hp hP⟩
  · rw [if_neg hthrows]
    exact .inl rfl

theorem isEffect_of_effect_none (hc : c.At fin S) (h : effect c = (none, c)) :
    (S.headD fin).isEffect = false := by
  rw [effect_eq, hc.onNewLine_eq, hc.isWord_eq, hc.kind_eq] at h
  unfold Sign.isEffect
  generalize S.headD fin = s at h ⊢
  by_cases hline : s.onNewLine = true
  · simp [hline]
  by_cases hasync : (s.kind == .identifier && s.text == "async") = true
  · rw [if_neg hline, if_pos hasync] at h
    cases h
  by_cases hthrows : (s.kind == .keyword .throwsEffect) = true
  · rw [if_neg hline, if_neg hasync, if_pos hthrows] at h
    cases h
  · simp_all

/-! ## Lists -/

/-- Reading a list with commas, each item of which is read as `P` says. -/
theorem commaSeparated_sound {isOver : Kind → Bool} {item : Parser α} [Steady item]
    {P : α → List Sign → Prop}
    (hitem : ∀ {S : List Sign} {c : Cursor}, c.At fin S → (item c).2.findings = [] →
      ∃ T U, S = T ++ U ∧ (item c).2.At fin U ∧ P (item c).1 T)
    (hc : c.At fin S) (h : (commaSeparated isOver item c).2.findings = []) :
    ∃ T U, S = T ++ U ∧ (commaSeparated isOver item c).2.At fin U ∧
      Listed P (commaSeparated isOver item c).1 T := by
  induction hn : S.length using Nat.strongRecOn generalizing S c with
  | ind n ih =>
    by_cases hover : isOver c.kind = true
    · rw [commaSeparated_of_over hover]
      exact ⟨[], S, rfl, hc, .nil⟩
    have hgo : isOver c.kind = false := by simpa using hover
    cases hres : item c with
    | mk a d =>
      by_cases hcomma : d.kind = .comma
      · rw [commaSeparated_of_more hgo hres hcomma (remaining_advance_lt hres hcomma)] at h ⊢
        have hd : d.findings = [] :=
          (Leads.refl.advance.trans (Steady.leads (p := commaSeparated isOver item)
            d.advance)).findings_nil h
        obtain ⟨T, U, rfl, hU, hP⟩ := hitem hc (by rw [hres]; exact hd)
        rw [hres] at hU hP
        obtain ⟨s, V, rfl, hs⟩ := hU.exists_cons_of_kind hcomma (by simp)
        have hshort : V.length < n := by
          rw [← hn, List.length_append, List.length_cons]
          omega
        obtain ⟨Ts, W, rfl, hW, hlist⟩ := ih V.length hshort hU.advance h rfl
        exact ⟨T ++ s :: Ts, W, by simp, hW, .more hP hs hlist⟩
      · rw [commaSeparated_of_last hgo hres hcomma] at h ⊢
        obtain ⟨T, U, rfl, hU, hP⟩ := hitem hc (by rw [hres]; exact h)
        rw [hres] at hU hP
        exact ⟨T, U, rfl, hU, .last hP⟩

theorem label_sound (hc : c.At fin S) :
    ∃ L U, S = L ++ U ∧ (label c).2.At fin U ∧ Label (label c).1 L := by
  rw [label_eq]
  by_cases hname : c.kind.isName = true
  · obtain ⟨x, S, rfl, hx⟩ := hc.exists_cons_of_isName hname
    have hnext := hc.advance
    rw [List.tail_cons] at hnext
    by_cases hcolon : c.advance.kind = .colon
    · have hwidth : labelWidth c = 1 := by simp [labelWidth, hname, hcolon]
      obtain ⟨y, U, rfl, hy⟩ := hnext.exists_cons_of_kind hcolon (by simp)
      rw [hwidth]
      refine ⟨[x, y], U, rfl, hnext.advance, ?_⟩
      have htext := hc.writtenSince_cons (T := []) hnext
      simpa [htext] using Label.single hx hy
    · by_cases hdouble : c.advance.kind.isName = true ∧ c.advance.advance.kind = .colon
      · have hwidth : labelWidth c = 2 := by simp [labelWidth, hname, hcolon, hdouble]
        obtain ⟨y, U, rfl, hy⟩ := hnext.exists_cons_of_isName hdouble.1
        have hthird := hnext.advance
        rw [List.tail_cons] at hthird
        obtain ⟨z, V, rfl, hz⟩ := hthird.exists_cons_of_kind hdouble.2 (by simp)
        rw [hwidth]
        refine ⟨[x, y, z], V, rfl, hthird.advance, ?_⟩
        have htext := hc.writtenSince_cons (T := [y]) hthird
        simpa [htext] using Label.double hx hy hz
      · have hwidth : labelWidth c = 0 := by
          simp only [labelWidth, hname, if_true]
          rw [if_neg (by simpa using hcolon), if_neg (by simpa using hdouble)]
        rw [hwidth]
        exact ⟨[], x :: S, rfl, hc, .none⟩
  · have hwidth : labelWidth c = 0 := by simp [labelWidth, hname]
    rw [hwidth]
    exact ⟨[], S, rfl, hc, .none⟩

/-! ## Types -/

/-- Whatever the parser reads without findings is spelled by `I`, and it is
attributed only if a specifier stands in front. -/
def SoundFor (inner : Parser TypeExpr) (I : TypeExpr → List Sign → Ending → Prop) : Prop :=
  ∀ ⦃fin : Sign⦄ ⦃S : List Sign⦄ ⦃c : Cursor⦄, c.At fin S → (inner c).2.findings = [] →
    ∃ T U e, S = T ++ U ∧ (inner c).2.At fin U ∧ I (inner c).1 T e ∧ e.Stops (U.headD fin) ∧
      (specifier c = (none, c) → (inner c).1.isAttributed = false)

variable {inner : Parser TypeExpr} {I : TypeExpr → List Sign → Ending → Prop}

theorem element_sound (hI : SoundFor inner I) (hc : c.At fin S)
    (h : (element inner c).2.findings = []) :
    ∃ T U, S = T ++ U ∧ (element inner c).2.At fin U ∧ Item I (element inner c).1 T := by
  rw [element_eq] at h ⊢
  dsimp only at h ⊢
  obtain ⟨L, U, rfl, hU, hlabel⟩ := label_sound hc
  by_cases hdots : ((inner (label c).2).2.kind == .ellipsis) = true
  · rw [if_pos hdots] at h ⊢
    rw [hdots]
    obtain ⟨T, V, e, rfl, hV, ht, -⟩ := hI hU (Leads.refl.advance.findings_nil h)
    obtain ⟨s, W, rfl, hs⟩ := hV.exists_cons_of_kind (eq_of_beq hdots) (by simp)
    exact ⟨L ++ (T ++ [s]), W, by simp, hV.advance, .mk hlabel ht (.some hs)⟩
  · rw [if_neg hdots] at h ⊢
    obtain ⟨T, V, e, rfl, hV, ht, -⟩ := hI hU h
    have hnot : ((inner (label c).2).2.kind == .ellipsis) = false := by simpa using hdots
    rw [hnot]
    exact ⟨L ++ (T ++ []), V, by simp, hV, .mk hlabel ht .none⟩

variable [Steady inner]

theorem genericArguments_sound (hI : SoundFor inner I) {l : Sign} (hc : c.At fin (l :: S))
    (h : (genericArguments inner c).2.findings = []) :
    ∃ Ts g U, S = Ts ++ g :: U ∧ (genericArguments inner c).2.At fin U ∧
      Listed (Argument I) (genericArguments inner c).1 Ts ∧ g.kind = .greaterThan := by
  rw [genericArguments_eq] at h ⊢
  dsimp only at h ⊢
  split at h
  next hclose =>
    rw [if_pos hclose]
    have hitem : ∀ {S : List Sign} {c : Cursor}, c.At fin S → (inner c).2.findings = [] →
        ∃ T U, S = T ++ U ∧ (inner c).2.At fin U ∧ Argument I (inner c).1 T := by
      intro S c hc h
      obtain ⟨T, U, e, hTU, hU, ht, -⟩ := hI hc h
      exact ⟨T, U, hTU, hU, e, ht⟩
    obtain ⟨Ts, U, hS, hU, hlist⟩ :=
      commaSeparated_sound hitem hc.advance (Leads.refl.advance.findings_nil h)
    rw [List.tail_cons] at hS
    subst hS
    obtain ⟨g, V, rfl, hg⟩ := hU.exists_cons_of_kind (eq_of_beq hclose) (by simp)
    exact ⟨Ts, g, V, rfl, hU.advance, hlist, hg⟩
  · exact absurd h (findings_reportDelimiter_ne_nil _ _ _)

/-- A chain that may go on, or a function that is over. -/
def Started (I : TypeExpr → List Sign → Ending → Prop) (t : TypeExpr) (T : List Sign)
    (e : Ending) (s : Sign) : Prop :=
  (Chain I t T e ∧ e.Allows s) ∨ (Suffixed I t T e ∧ e.Stops s)

theorem close_sound {bracket : Bracket} {start : Nat} (hc : c.At fin S)
    (h : (close bracket start c).2.findings = []) :
    ∃ r U, S = r :: U ∧ r.kind = .closing bracket ∧ (close bracket start c).2.At fin U := by
  unfold close at h ⊢
  split at h
  next hclose =>
    rw [if_pos hclose]
    obtain ⟨r, U, rfl, hr⟩ := hc.exists_cons_of_kind hclose (by simp)
    exact ⟨r, U, rfl, hr, hc.advance⟩
  · exact absurd h (findings_reportDelimiter_ne_nil _ _ _)

theorem tupleOrFunction_sound (hI : SoundFor inner I) {l : Sign} (hc : c.At fin (l :: S))
    (hl : l.kind = .opening .paren) (h : (tupleOrFunction inner c).2.findings = []) :
    ∃ T U e, l :: S = T ++ U ∧ (tupleOrFunction inner c).2.At fin U ∧
      Started I (tupleOrFunction inner c).1 T e (U.headD fin) := by
  rw [tupleOrFunction_eq] at h ⊢
  generalize hlist : commaSeparated endsList (element inner) c.advance = list at h ⊢
  obtain ⟨es, after⟩ := list
  dsimp only at h ⊢
  have hfound : (many effect (close .paren c.current.start after).2).2.findings = [] := by
    split at h
    · exact (Leads.refl.advance.trans (Steady.leads (p := inner) _)).findings_nil h
    · dsimp only at h
      split at h
      · exact absurd h (findings_reportHere_ne_nil _ _)
      · exact h
  have hclosed := (Steady.leads (p := many effect) _).findings_nil hfound
  have hafter := (Steady.leads (p := close .paren c.current.start) after).findings_nil hclosed
  obtain ⟨Es, U, hS, hU, hes⟩ := commaSeparated_sound (fun hc h => element_sound hI hc h)
    hc.advance (by rw [hlist]; exact hafter)
  rw [hlist] at hU hes
  obtain ⟨r, V, rfl, hr, hV⟩ := close_sound hU hclosed
  obtain ⟨Fs, W, rfl, hW, hfs, hend⟩ := many_sound effect_sound hV hfound
  rw [List.tail_cons] at hS
  subst hS
  generalize many effect (close .paren c.current.start after).2 = found at h hW hfs hend ⊢
  obtain ⟨fs, d⟩ := found
  dsimp only at h hW hfs hend ⊢
  by_cases harrow : (d.kind == .arrow) = true
  · rw [if_pos harrow] at h ⊢
    obtain ⟨a, X, rfl, ha⟩ := hW.exists_cons_of_kind (eq_of_beq harrow) (by simp)
    obtain ⟨T, Y, e, hX, hY, ht, hstops, -⟩ := hI hW.advance h
    rw [List.tail_cons] at hX
    subst hX
    refine ⟨l :: (Es ++ r :: (Fs ++ a :: T)), Y, e, by simp, hY, .inr ⟨?_, hstops⟩⟩
    exact .function hl hes hr hfs ha ht
  · rw [if_neg harrow] at h ⊢
    dsimp only at h ⊢
    split at h
    · exact absurd h (findings_reportHere_ne_nil _ _)
    next hnone =>
      rw [if_neg hnone]
      -- Without an arrow there are no effects, so the tuple ends with its parenthesis.
      cases hfs with
      | nil =>
        refine ⟨l :: (Es ++ [r]), W, .tuple, by simp, hW, .inl ⟨.atom (.tuple hl hes hr), ?_⟩⟩
        refine ⟨isEffect_of_effect_none hW hend, ?_⟩
        intro hk
        rw [hW.kind_eq, hk] at harrow
        exact harrow rfl
      | cons _ _ => simp [joinEffects] at hnone

theorem argumentsFollow_eq (hc : c.At fin S) :
    argumentsFollow c = (S.headD fin).opensArguments := by
  unfold argumentsFollow
  rw [hc.kind_eq, hc.isSeparated_eq]
  rfl

theorem primary_sound (hI : SoundFor inner I) (hc : c.At fin S)
    (h : (primary inner c).2.findings = []) :
    ∃ T U e, S = T ++ U ∧ (primary inner c).2.At fin U ∧
      Started I (primary inner c).1 T e (U.headD fin) := by
  rw [primary_eq] at h ⊢
  have hne : c.kind ≠ .endOfFile := by
    intro hend
    rw [hend] at h
    exact absurd h (findings_reportHere_ne_nil _ _)
  obtain ⟨x, S, rfl, hx⟩ := hc.exists_cons_of_kind rfl hne
  rw [← hx] at h ⊢
  rw [hc.text_cons] at h ⊢
  have hnext := hc.advance
  rw [List.tail_cons] at hnext
  have hunit : x.kind = .opening .square ∨ x.kind = .numericLiteral →
      c.skipBalanced.findings = [] → ∃ T U e, x :: S = T ++ U ∧ c.skipBalanced.At fin U ∧
        Started I (.verbatim (c.writtenSince c.skipBalanced)) T e (U.headD fin) := by
    intro hkind hskip
    obtain ⟨T, U, hTU, hU, hcloses⟩ := skipBalanced_sound hc (by simp) hskip
    obtain ⟨y, T, rfl⟩ := List.exists_cons_of_ne_nil hcloses.ne_nil
    cases hTU
    rw [hc.writtenSince_cons hU]
    exact ⟨x :: T, U, .closed, rfl, hU, .inl ⟨.atom (.unit hkind hcloses), trivial⟩⟩
  split at h
  next hident =>
    by_cases hargs : argumentsFollow c.advance = true
    · rw [if_pos hargs] at h ⊢
      rw [argumentsFollow_eq hnext] at hargs
      cases S with
      | nil =>
        rw [List.headD_nil, Sign.opensArguments, hc.finalKind] at hargs
        simp at hargs
      | cons l S =>
        obtain ⟨Ts, g, U, rfl, hU, hts, hg⟩ := genericArguments_sound hI hnext h
        exact ⟨x :: l :: (Ts ++ [g]), U, .closed, by simp, hU,
          .inl ⟨.atom (.generic hident hargs hts hg), trivial⟩⟩
    · rw [if_neg hargs] at h ⊢
      rw [argumentsFollow_eq hnext] at hargs
      exact ⟨[x], S, .name, rfl, hnext, .inl ⟨.atom (.named hident), Bool.eq_false_iff.mpr hargs⟩⟩
  next hparen => exact tupleOrFunction_sound hI hc hparen h
  next hsquare => exact hunit (.inl hsquare) h
  next hnumber => exact hunit (.inr hnumber) h
  · exact absurd h (findings_reportHere_ne_nil _ _)

/-! ## Suffixes -/

/-- A chain or a function that is over. -/
def Ended (I : TypeExpr → List Sign → Ending → Prop) (t : TypeExpr) (T : List Sign)
    (e : Ending) (s : Sign) : Prop :=
  (Chain I t T e ∧ e.Rests s) ∨ (Suffixed I t T e ∧ e.Stops s)

omit [Steady inner] in
theorem suffix_of_not_isSuffix {start : Cursor} {t : TypeExpr} (hc : c.At fin S)
    (h : (S.headD fin).isSuffix = false) : suffix inner start t c = (none, c) := by
  rw [suffix_eq, hc.isSeparated_eq, hc.kind_eq]
  unfold Sign.isSuffix at h
  generalize S.headD fin = s at h ⊢
  by_cases hsep : s.isSeparated = true
  · rw [if_pos hsep]
  · rw [if_neg hsep]
    simp only [Bool.eq_false_iff.mpr hsep, Bool.not_false, Bool.true_and, Bool.or_eq_false_iff]
      at h
    split <;> simp_all

/-- A member makes a longer chain, with arguments or without. -/
theorem member_sound (hI : SoundFor inner I) {start : Cursor} {t : TypeExpr} {T : List Sign}
    {e : Ending} {s : Sign} (hs : start.At fin (T ++ s :: S)) (hc : c.At fin (s :: S))
    (hchain : Chain I t T e) (hsep : s.isSeparated = false) (hdot : s.kind = .dot)
    (h : (suffix inner start t c).2.findings = []) :
    ∃ u V U e', S = V ++ U ∧ (suffix inner start t c).1 = some u ∧
      (suffix inner start t c).2.At fin U ∧ Chain I u (T ++ s :: V) e' ∧
      e'.Allows (U.headD fin) := by
  have hnext := hc.advance
  rw [List.tail_cons] at hnext
  rw [suffix_eq, hc.isSeparated_eq, List.headD_cons, hsep, hc.kind_cons,
    if_neg Bool.false_ne_true, hdot] at h ⊢
  dsimp only at h ⊢
  split at h
  next hname =>
    rw [if_pos hname]
    obtain ⟨x, S, rfl, hx⟩ := hnext.exists_cons_of_isName hname
    have hthird := hnext.advance
    rw [List.tail_cons] at hthird
    split at h
    next hargs =>
      rw [if_pos hargs]
      rw [argumentsFollow_eq hthird] at hargs
      cases S with
      | nil =>
        rw [List.headD_nil, Sign.opensArguments, hc.finalKind] at hargs
        simp at hargs
      | cons l S =>
        obtain ⟨Ts, g, U, rfl, hU, hts, hg⟩ := genericArguments_sound hI hthird h
        refine ⟨_, x :: l :: (Ts ++ [g]), U, .closed, by simp, rfl, hU, ?_, trivial⟩
        have hall : start.At fin ((T ++ s :: x :: l :: (Ts ++ [g])) ++ U) := by simpa using hs
        rw [hall.writtenSince_eq hU]
        exact .memberGeneric hchain hsep hdot hx hargs hts hg
    next hargs =>
      rw [if_neg hargs]
      rw [argumentsFollow_eq hthird] at hargs
      refine ⟨_, [x], S, .name, rfl, rfl, hthird, ?_, Bool.eq_false_iff.mpr hargs⟩
      have hall : start.At fin ((T ++ [s, x]) ++ S) := by simpa using hs
      rw [hall.writtenSince_eq hthird]
      exact .member hchain hsep hdot hx
  · exact absurd h (findings_reportHere_ne_nil _ _)

/-- The first suffix behind a chain makes a longer chain. -/
theorem suffix_sound (hI : SoundFor inner I) {start : Cursor} {t : TypeExpr} {T : List Sign}
    {e : Ending} {s : Sign} (hs : start.At fin (T ++ s :: S)) (hc : c.At fin (s :: S))
    (hchain : Chain I t T e) (hsuffix : s.isSuffix = true)
    (h : (suffix inner start t c).2.findings = []) :
    ∃ u V U e', S = V ++ U ∧ (suffix inner start t c).1 = some u ∧
      (suffix inner start t c).2.At fin U ∧ Chain I u (T ++ s :: V) e' ∧
      e'.Allows (U.headD fin) := by
  unfold Sign.isSuffix at hsuffix
  simp only [Bool.and_eq_true, Bool.not_eq_true', Bool.or_eq_true] at hsuffix
  obtain ⟨hsep, (hdot | hquestion) | hexclamation⟩ := hsuffix
  · exact member_sound hI hs hc hchain hsep (eq_of_beq hdot) h
  · rw [suffix_eq, hc.isSeparated_eq, List.headD_cons, hsep, hc.kind_cons,
      if_neg Bool.false_ne_true, eq_of_beq hquestion]
    exact ⟨_, [], S, .closed, rfl, rfl, hc.advance,
      .optional hchain hsep (eq_of_beq hquestion), trivial⟩
  · rw [suffix_eq, hc.isSeparated_eq, List.headD_cons, hsep, hc.kind_cons,
      if_neg Bool.false_ne_true, eq_of_beq hexclamation]
    refine ⟨_, [], S, .closed, rfl, rfl, hc.advance, ?_, trivial⟩
    have hall : start.At fin ((T ++ [s]) ++ S) := by simpa using hs
    rw [hall.writtenSince_eq hc.advance]
    exact .unwrapped hchain hsep (eq_of_beq hexclamation)

theorem suffixes_sound (hI : SoundFor inner I) {start : Cursor} {t : TypeExpr}
    {T U : List Sign} {e : Ending} (hs : start.At fin (T ++ U)) (hc : c.At fin U)
    (hstart : Started I t T e (U.headD fin))
    (h : (iterate (suffix inner start) t c).2.findings = []) :
    ∃ T' U' e', T ++ U = T' ++ U' ∧ (iterate (suffix inner start) t c).2.At fin U' ∧
      Ended I (iterate (suffix inner start) t c).1 T' e' (U'.headD fin) := by
  induction hn : U.length using Nat.strongRecOn generalizing t T U e c with
  | ind n ih =>
    by_cases hsuffix : (U.headD fin).isSuffix = true
    · cases U with
      | nil =>
        rw [List.headD_nil, Sign.isSuffix, hc.finalKind] at hsuffix
        simp at hsuffix
      | cons s U =>
        rcases hstart with ⟨hchain, -⟩ | ⟨-, hstops⟩
        · -- The loop goes on with what one round leaves.
          have hround : (suffix inner start t c).2.findings = [] :=
            (leads_iterate_of_round t c).findings_nil h
          obtain ⟨u, V, W, e', rfl, hu, hW, hlonger, hallows⟩ :=
            suffix_sound hI hs hc hchain hsuffix hround
          have hres : suffix inner start t c = (some u, (suffix inner start t c).2) :=
            Prod.ext hu rfl
          have hlen : (s :: (V ++ W)).length = V.length + W.length + 1 := by simp
          have hmove : (suffix inner start t c).2.remaining < c.remaining := by
            rw [(suffix inner start t c).2.remaining_eq, c.remaining_eq, hW.length_eq,
              hc.length_eq]
            omega
          rw [iterate_of_some hres hmove] at h ⊢
          have hs' : start.At fin ((T ++ s :: V) ++ W) := by simpa using hs
          obtain ⟨T', U', e'', hT', hU', hended⟩ :=
            ih W.length (by omega) hs' hW (.inl ⟨hlonger, hallows⟩) h rfl
          exact ⟨T', U', e'', by rw [← hT']; simp, hU', hended⟩
        · rw [hstops.suffix] at hsuffix
          contradiction
    · have hnone : suffix inner start t c = (none, c) :=
        suffix_of_not_isSuffix hc (Bool.eq_false_iff.mpr hsuffix)
      rw [iterate_of_none hnone] at h ⊢
      refine ⟨T, U, e, rfl, hc, ?_⟩
      rcases hstart with ⟨hchain, hallows⟩ | hfunction
      · exact .inl ⟨hchain, Bool.eq_false_iff.mpr hsuffix, hallows⟩
      · exact .inr hfunction

theorem suffixed_sound (hI : SoundFor inner I) (hc : c.At fin S)
    (h : (suffixed inner c).2.findings = []) :
    ∃ T U e, S = T ++ U ∧ (suffixed inner c).2.At fin U ∧
      Ended I (suffixed inner c).1 T e (U.headD fin) := by
  rw [suffixed_eq] at h ⊢
  obtain ⟨T, U, e, rfl, hU, hstart⟩ :=
    primary_sound hI hc ((leads_iterate _ _).findings_nil h)
  exact suffixes_sound hI hc hU hstart h

/-! ## Compositions and what stands in front -/

theorem many_composedWith (hk : c.kind = .ampersand) :
    (many (composedWith inner) c).2
      = (many (composedWith inner) (suffixed inner c.advance).2).2 := by
  have hres : composedWith inner c = (some (), (suffixed inner c.advance).2) := by
    rw [composedWith_eq, hk]
    rfl
  have hmove : (suffixed inner c.advance).2.remaining < c.remaining := by
    obtain ⟨ts, hts, _⟩ := (Steady.leads (p := suffixed inner) c.advance).exists_consumed
    have hlen := congrArg List.length hts
    rw [List.length_append, length_advance] at hlen
    have hpos := length_pos_of_kind_ne (c := c) (by simp [hk])
    rw [(suffixed inner c.advance).2.remaining_eq, c.remaining_eq]
    omega
  rw [many_of_some hres hmove]

omit [Steady inner] in
theorem many_composedWith_of_not (hk : c.kind ≠ .ampersand) :
    many (composedWith inner) c = ([], c) := by
  refine many_of_none ?_
  rw [composedWith_eq, if_neg (by simpa using hk)]

theorem members_sound (hI : SoundFor inner I) (hc : c.At fin S) (hk : c.kind = .ampersand)
    (h : (many (composedWith inner) c).2.findings = []) :
    ∃ Ms U e, S = Ms ++ U ∧ (many (composedWith inner) c).2.At fin U ∧ Members I Ms e ∧
      e.Stops (U.headD fin) := by
  induction hn : S.length using Nat.strongRecOn generalizing S c with
  | ind n ih =>
    obtain ⟨m, S, rfl, hm⟩ := hc.exists_cons_of_kind hk (by simp)
    have hnext := hc.advance
    rw [List.tail_cons] at hnext
    rw [many_composedWith hk] at h ⊢
    obtain ⟨T, U, e, rfl, hU, hended⟩ := suffixed_sound hI hnext
      ((Steady.leads (p := many (composedWith inner)) _).findings_nil h)
    by_cases hmore : (suffixed inner c.advance).2.kind = .ampersand
    · rcases hended with ⟨hchain, -⟩ | ⟨-, hstops⟩
      · have hshort : U.length < n := by
          rw [← hn, List.length_cons, List.length_append]
          omega
        obtain ⟨Ms, V, e', rfl, hV, hmembers, hstops⟩ := ih U.length hshort hU hmore h rfl
        exact ⟨m :: (T ++ Ms), V, e', by simp, hV, .more hm hchain hmembers, hstops⟩
      · rw [hU.kind_eq] at hmore
        exact absurd hmore hstops.ampersand
    · rw [many_composedWith_of_not hmore] at h ⊢
      rw [hU.kind_eq] at hmore
      rcases hended with ⟨hchain, hrests⟩ | ⟨hfunction, hstops⟩
      · exact ⟨m :: T, U, e, rfl, hU, .last hm (.chain hchain), hrests, hmore⟩
      · exact ⟨m :: T, U, e, rfl, hU, .last hm hfunction, hstops⟩

theorem takesType_of_stopped {x : Sign} (hc : c.At fin (x :: S)) (hx : x.kind = .identifier)
    (hspecifier : specifier c = (none, c)) (hqualifier : qualifierAt c = none)
    (ht : takesType x.text = true) : (S.headD fin).startsTypeHere = false := by
  rw [Bool.eq_false_iff]
  intro hstarts
  unfold takesType at ht
  rw [Bool.or_eq_true] at ht
  rcases ht with hword | hkeyword
  · have hat : isAtSpecifierWord c = true := by
      rw [isAtSpecifierWord_eq hc, hx, hword, hstarts]
      rfl
    rw [specifier_eq, hc.kind_cons, hx, hat] at hspecifier
    cases hspecifier
  · unfold qualifierAt at hqualifier
    rw [hc.kind_cons, hx, isTypeNext_eq hc, hstarts, if_pos (by rfl), hc.text_cons] at hqualifier
    rw [hqualifier] at hkeyword
    contradiction

theorem eq_keyword_of_ofKeyword? {text : String} {q : Qualifier}
    (h : Qualifier.ofKeyword? text = some q) : text = q.keyword := by
  unfold Qualifier.ofKeyword? at h
  split at h
  next htext =>
    cases h
    exact htext
  next =>
    split at h
    next htext =>
      cases h
      exact htext
    · contradiction

theorem qualifierAt_sound {q : Qualifier} (hc : c.At fin S) (h : qualifierAt c = some q) :
    ∃ x U, S = x :: U ∧ x.kind = .identifier ∧ x.text = q.keyword ∧
      (U.headD fin).startsTypeHere = true := by
  unfold qualifierAt at h
  split at h
  next hcond =>
    rw [Bool.and_eq_true] at hcond
    obtain ⟨x, U, rfl, hx⟩ := hc.exists_cons_of_kind (eq_of_beq hcond.1) (by simp)
    rw [isTypeNext_eq hc] at hcond
    rw [hc.text_cons] at h
    exact ⟨x, U, rfl, hx, eq_keyword_of_ofKeyword? h, hcond.2⟩
  · contradiction

theorem level_findings {ss : List String} {d : Cursor} (hmany : many specifier c = (ss, d))
    (h : (level inner c).2.findings = []) : d.findings = [] := by
  rw [level_eq, hmany] at h
  dsimp only at h
  split at h
  · exact (Steady.leads (p := inner) d).findings_nil h
  split at h
  · exact (Leads.refl.advance.trans (Steady.leads (p := inner) _)).findings_nil h
  split at h
  · exact ((Steady.leads (p := suffixed inner) d).trans
      (Steady.leads (p := many (composedWith inner)) _)).findings_nil h
  · exact (Steady.leads (p := suffixed inner) d).findings_nil h

omit [Steady inner] in
/-- A chain in front of which neither a specifier nor a qualifier stands is a
whole type. -/
theorem level_of_chain {t : TypeExpr} {T U : List Sign} {e : Ending} (hc : c.At fin (T ++ U))
    (hspecifier : specifier c = (none, c)) (hqualifier : qualifierAt c = none)
    (hchain : Chain I t T e) (hstops : e.Stops (U.headD fin)) :
    ∃ e', Level I t T e' ∧ e'.Stops (U.headD fin) := by
  by_cases hnamed : t.isNamed = true
  · obtain ⟨x, hx, rfl, rfl, rfl⟩ := hchain.eq_of_isNamed hnamed
    exact ⟨.word x.text, .word hx, ⟨hstops.suffix, hstops.allows,
      takesType_of_stopped hc hx hspecifier hqualifier⟩, hstops.ampersand⟩
  · exact ⟨e, .plain (.chain hchain) (by simpa using hnamed), hstops⟩

theorem Chain.isAttributed_eq {t : TypeExpr} {T : List Sign} {e : Ending}
    (h : Chain I t T e) : t.isAttributed = false := by
  cases h with
  | atom ha => cases ha <;> rfl
  | member | memberGeneric | optional | unwrapped => rfl

omit [Steady inner] in
theorem level_of_front (hspecifier : specifier c = (none, c)) (hqualifier : qualifierAt c = none) :
    level inner c =
      if (suffixed inner c).2.kind == .ampersand then
        (.verbatim (c.writtenSince (many (composedWith inner) (suffixed inner c).2).2),
          (many (composedWith inner) (suffixed inner c).2).2)
      else suffixed inner c := by
  rw [level_eq, many_of_none hspecifier]
  dsimp only
  rw [if_neg (by simp), hqualifier]

/-- A level that starts with neither a specifier nor a qualifier. -/
theorem level_sound_of_front (hI : SoundFor inner I) (hc : c.At fin S)
    (hspecifier : specifier c = (none, c)) (hqualifier : qualifierAt c = none)
    (h : (level inner c).2.findings = []) :
    ∃ T U e, S = T ++ U ∧ (level inner c).2.At fin U ∧ Level I (level inner c).1 T e ∧
      e.Stops (U.headD fin) ∧ (level inner c).1.isAttributed = false := by
  rw [level_of_front hspecifier hqualifier] at h ⊢
  by_cases hamp : ((suffixed inner c).2.kind == .ampersand) = true
  · rw [if_pos hamp] at h ⊢
    obtain ⟨T, V, e, rfl, hV, hended⟩ := suffixed_sound hI hc
      ((Steady.leads (p := many (composedWith inner)) _).findings_nil h)
    obtain ⟨Ms, W, e', rfl, hW, hmembers, hstops⟩ := members_sound hI hV (eq_of_beq hamp) h
    rcases hended with ⟨hchain, -⟩ | ⟨-, hover⟩
    · have hall : c.At fin ((T ++ Ms) ++ W) := by simpa using hc
      refine ⟨T ++ Ms, W, e', by simp, hW, ?_, hstops, rfl⟩
      rw [hall.writtenSince_eq hW]
      exact .composition hchain hmembers
    · rw [hV.kind_eq] at hamp
      exact absurd (eq_of_beq hamp) hover.ampersand
  · rw [if_neg hamp] at h ⊢
    obtain ⟨T, V, e, rfl, hV, hended⟩ := suffixed_sound hI hc h
    have hamp' : (V.headD fin).kind ≠ .ampersand := by
      rw [hV.kind_eq] at hamp
      simpa using hamp
    generalize (suffixed inner c).1 = t at hended ⊢
    have hlast : ∀ {e}, Chain I t T e → e.Stops (V.headD fin) →
        ∃ T' U' e', T ++ V = T' ++ U' ∧ (suffixed inner c).2.At fin U' ∧ Level I t T' e' ∧
          e'.Stops (U'.headD fin) ∧ t.isAttributed = false := by
      intro e hchain hstops
      obtain ⟨e', hlevel, hstops⟩ := level_of_chain hc hspecifier hqualifier hchain hstops
      exact ⟨T, V, e', rfl, hV, hlevel, hstops, hchain.isAttributed_eq⟩
    rcases hended with ⟨hchain, hrests⟩ | ⟨hsuffixed, hstops⟩
    · exact hlast hchain ⟨hrests, hamp'⟩
    · cases hsuffixed with
      | chain hchain => exact hlast hchain hstops
      | function hl hes hr hfs ha ht =>
        exact ⟨_, V, e, rfl, hV, .plain (.function hl hes hr hfs ha ht) rfl, hstops, rfl⟩

omit [Steady inner] in
/-- A level that starts with a qualifier. -/
theorem level_sound_of_qualifier (hI : SoundFor inner I) (hne : ∀ {t T e}, I t T e → T ≠ [])
    {q : Qualifier} (hc : c.At fin S) (hspecifier : specifier c = (none, c))
    (hqualifier : qualifierAt c = some q) (h : (level inner c).2.findings = []) :
    ∃ T U e, S = T ++ U ∧ (level inner c).2.At fin U ∧ Level I (level inner c).1 T e ∧
      e.Stops (U.headD fin) ∧ (level inner c).1.isAttributed = false := by
  rw [level_eq, many_of_none hspecifier] at h ⊢
  dsimp only at h ⊢
  rw [if_neg (by simp), hqualifier] at h ⊢
  obtain ⟨x, V, rfl, hx, hkeyword, hstarts⟩ := qualifierAt_sound hc hqualifier
  obtain ⟨T, W, e, hV, hW, ht, hstops, -⟩ := hI hc.advance h
  rw [List.tail_cons] at hV
  subst hV
  obtain ⟨s, T, rfl⟩ := List.exists_cons_of_ne_nil (hne ht)
  exact ⟨x :: s :: T, W, e, rfl, hW, .qualified hx hkeyword hstarts ht, hstops, rfl⟩

/-- What one level of types reads is spelled by its rules. -/
theorem level_sound (hI : SoundFor inner I) (hne : ∀ {t T e}, I t T e → T ≠ []) :
    SoundFor (level inner) (Level I) := by
  intro fin S c hc h
  generalize hmany : many specifier c = found
  obtain ⟨ss, d⟩ := found
  have hd := level_findings hmany h
  by_cases hss : ss = []
  · -- A list without specifiers has consumed nothing.
    subst hss
    have hnone : specifier c = (none, d) := eq_none_of_many_nil hmany
    have hspecifier : specifier c = (none, c) := by
      rcases specifier_sound hc (by rw [hnone]; exact hd) with hfront | ⟨a, _, _, _, _, ha, _⟩
      · exact hfront
      · rw [hnone] at ha
        contradiction
    cases hq : qualifierAt c with
    | some q =>
      obtain ⟨T, U, e, hS, hU, ht, hstops, hattr⟩ :=
        level_sound_of_qualifier hI hne hc hspecifier hq h
      exact ⟨T, U, e, hS, hU, ht, hstops, fun _ => hattr⟩
    | none =>
      obtain ⟨T, U, e, hS, hU, ht, hstops, hattr⟩ := level_sound_of_front hI hc hspecifier hq h
      exact ⟨T, U, e, hS, hU, ht, hstops, fun _ => hattr⟩
  · obtain ⟨Ss, U, rfl, hU, hrow, hend⟩ :=
      many_sound specifier_sound hc (by rw [hmany]; exact hd)
    rw [hmany] at hU hrow hend
    dsimp only at hU hrow hend
    rw [level_eq, hmany] at h ⊢
    dsimp only at h ⊢
    rw [if_pos (by simpa using hss)] at h ⊢
    obtain ⟨T, V, e, rfl, hV, ht, hstops, hattr⟩ := hI hU h
    obtain ⟨s, T, rfl⟩ := List.exists_cons_of_ne_nil (hne ht)
    refine ⟨Ss ++ s :: T, V, e, by simp, hV, .attributed hrow hss ht (hattr hend), hstops, ?_⟩
    intro hnone
    rw [many_of_none hnone] at hmany
    exact absurd (Prod.mk.inj hmany).1.symm hss

/-- What is read as a type of at most so many levels is spelled by the grammar
with at most so many. -/
theorem sound_of_depth (depth : Nat) : SoundFor (parser depth) (Spells depth) := by
  induction depth with
  | zero =>
    intro fin S c _ h
    exact absurd h (findings_reportHere_ne_nil _ _)
  | succ depth ih =>
    intro fin S c hc h
    obtain ⟨T, U, e, hS, hU, ht, hrest⟩ := level_sound ih (fun h => h.shape.ne_nil) hc h
    exact ⟨T, U, e, hS, hU, .level ht, hrest⟩

end TypeExpr

end AnySome
