import AnySome.Proofs.TypeGrammar.Sound

/-!
# Every spelling of a type is read as that type

Where signs that spell a type stand in front of a sign at which they stop,
reading a type consumes exactly them and gives that type. The one thing that
can go wrong is the limit on nesting: then the first problem found is a type
nested too deeply, and everything behind it leaves it so. The proposition
`may` says that there can be such a type; it is false of spellings within the
limit.

## Main results

* `level_complete` — one level of types, given that the inner types are read
  back.
* `complete_of_depth` — types, with any limit on their depth.
* `complete_within` — types that are within the limit.
-/

namespace AnySome

namespace Parser

/-- Running the parser meets a type nested too deeply first, where there can be
one, or gives the result and stops in front of the signs `U`. -/
def Gives (may : Prop) (p : Parser α) (c : Cursor) (a : α) (fin : Sign) (U : List Sign) : Prop :=
  (p c).2.DeepIf may ∨ ((p c).1 = a ∧ (p c).2.At fin U)

theorem Steady.deep {may : Prop} {p : Parser α} [Steady p] {c : Cursor} (h : c.DeepIf may) :
    (p c).2.DeepIf may :=
  h.leads (Steady.leads c)

end Parser

namespace TypeExpr

open AnySome.Parser AnySome.Cursor

variable {may : Prop} {fin : Sign} {c : Cursor} {U : List Sign}

/-! ## Specifiers and effects -/

theorem skipAttribute_of_isName {a x : Sign} {R : List Sign} (hc : c.At fin (a :: x :: R))
    (hx : x.kind.isName = true) : c.skipAttribute = c.advance.advance.skipAdjacentParen := by
  have hkind : c.advance.kind.isName = true := by
    rw [hc.advance.kind_eq]
    exact hx
  exact if_pos hkind

theorem specifier_complete {a : String} {A : List Sign} (h : Specifier a A (U.headD fin))
    (hc : c.At fin (A ++ U)) :
    A ≠ [] ∧ specifier c = (some a, (specifier c).2) ∧ (specifier c).2.At fin U := by
  rw [specifier_eq]
  cases h with
  | @bare a x _ ha hx hopen =>
    have hskip : c.skipAttribute = c.advance.advance := by
      rw [skipAttribute_of_isName hc hx]
      exact hc.advance.advance.skipAdjacentParen_of_not hopen
    rw [hc.kind_cons, ha, if_pos (by rfl), hskip,
      hc.writtenSince_cons (T := [x]) hc.advance.advance]
    exact ⟨by simp, rfl, hc.advance.advance⟩
  | @applied a x p _ P ha hx hp hP =>
    have hskip : c.skipAttribute.At fin U := by
      rw [skipAttribute_of_isName hc hx]
      exact At.skipAdjacentParen_of_opens hp hP hc.advance.advance
    rw [hc.kind_cons, ha, if_pos (by rfl), hc.writtenSince_cons (T := x :: p :: P) hskip]
    exact ⟨by simp, rfl, hskip⟩
  | @keyword x _ hx =>
    have hword : isAtSpecifierWord c = true := by
      rw [isAtSpecifierWord_eq hc, hx]
      rfl
    rw [hc.kind_cons, hx, if_neg (by decide), if_pos hword, hc.text_cons]
    exact ⟨by simp, rfl, hc.advance⟩
  | @word x _ hx hmem hstarts =>
    have hword : isAtSpecifierWord c = true := by
      have hnext : (([] ++ U).headD fin).startsTypeHere = true := hstarts
      rw [isAtSpecifierWord_eq hc, hx, hmem]
      simpa using hnext
    rw [hc.kind_cons, hx, if_neg (by decide), if_pos hword, hc.text_cons]
    exact ⟨by simp, rfl, hc.advance⟩

theorem effect_complete {a : String} {A : List Sign} (h : Effect a A (U.headD fin))
    (hc : c.At fin (A ++ U)) :
    A ≠ [] ∧ effect c = (some a, (effect c).2) ∧ (effect c).2.At fin U := by
  rw [effect_eq]
  cases h with
  | @async x _ hline hx htext =>
    have hline' : c.current.onNewLine = false := by rw [hc.onNewLine_eq]; exact hline
    have hword : c.current.isWord "async" = true := by
      rw [hc.isWord_eq]
      simp [hx, htext]
    rw [hline', if_neg (by simp), if_pos hword]
    exact ⟨by simp, rfl, hc.advance⟩
  | @throwing x _ hline hx hopen =>
    have hline' : c.current.onNewLine = false := by rw [hc.onNewLine_eq]; exact hline
    have hword : c.current.isWord "async" = false := by
      rw [hc.isWord_eq]
      simp [hx]
    rw [hline', hword, hc.kind_cons, hx, if_neg (by simp), if_neg (by simp), if_pos (by rfl),
      hc.advance.skipAdjacentParen_of_not hopen, hc.writtenSince_cons (T := []) hc.advance]
    exact ⟨by simp, by simp, hc.advance⟩
  | @throwingTyped x p _ P hline hx hp hP =>
    have hline' : c.current.onNewLine = false := by rw [hc.onNewLine_eq]; exact hline
    have hword : c.current.isWord "async" = false := by
      rw [hc.isWord_eq]
      simp [hx]
    have hskip := At.skipAdjacentParen_of_opens hp hP hc.advance
    rw [hline', hword, hc.kind_cons, hx, if_neg (by simp), if_neg (by simp), if_pos (by rfl),
      hc.writtenSince_cons (T := p :: P) hskip]
    exact ⟨by simp, rfl, hskip⟩

/-- Reading items back, up to a place where no further item stands. -/
theorem many_complete {item : Parser (Option α)} {P : α → List Sign → Sign → Prop}
    (hitem : ∀ {a : α} {A U : List Sign} {c : Cursor}, P a A (U.headD fin) →
      c.At fin (A ++ U) → A ≠ [] ∧ item c = (some a, (item c).2) ∧ (item c).2.At fin U)
    (hend : ∀ {d : Cursor}, d.At fin U → item d = (none, d)) {as : List α} {As : List Sign}
    (h : Row P (U.headD fin) as As) (hc : c.At fin (As ++ U)) :
    (many item c).1 = as ∧ (many item c).2.At fin U := by
  induction h generalizing c with
  | nil =>
    rw [many_of_none (hend hc)]
    exact ⟨rfl, hc⟩
  | @cons a as A As ha _ ih =>
    rw [List.append_assoc] at hc
    rw [← headD_append_eq] at ha
    obtain ⟨hA, hres, hAs⟩ := hitem ha hc
    have hmove : (item c).2.remaining < c.remaining := by
      have hpos := List.length_pos_iff.mpr hA
      have hlen : (A ++ (As ++ U)).length = A.length + (As ++ U).length := List.length_append
      rw [(item c).2.remaining_eq, c.remaining_eq, hAs.length_eq, hc.length_eq]
      omega
    rw [many_of_some hres hmove]
    obtain ⟨has, hU⟩ := ih hAs
    exact ⟨by rw [has], hU⟩

/-! ## Lists -/

theorem commaSeparated_deep {isOver : Kind → Bool} {item : Parser α} [Steady item]
    (hgo : isOver c.kind = false) (h : (item c).2.DeepIf may) :
    (commaSeparated isOver item c).2.DeepIf may := by
  cases hres : item c with
  | mk a d =>
    rw [hres] at h
    by_cases hcomma : d.kind = .comma
    · rw [commaSeparated_of_more hgo hres hcomma (remaining_advance_lt hres hcomma)]
      exact Steady.deep (p := commaSeparated isOver item) (h.leads Leads.refl.advance)
    · rw [commaSeparated_of_last hgo hres hcomma]
      exact h

/-- Reading a list back, up to a sign at which it is over. -/
theorem commaSeparated_complete {isOver : Kind → Bool} {item : Parser α} [Steady item]
    {P : α → List Sign → Prop}
    (hitem : ∀ {a : α} {T U : List Sign} {s : Sign} {c : Cursor}, P a T →
      Ending.isStop s.kind = true → s.kind ≠ .ellipsis → c.At fin (T ++ s :: U) →
      Gives may item c a fin (s :: U))
    (hfront : ∀ {a : α} {T : List Sign}, P a T → ∃ x R, T = x :: R ∧ isOver x.kind = false)
    {as : List α} {Ts : List Sign} (h : Listed P as Ts) {s : Sign}
    (hs : Ending.isStop s.kind = true) (hover : isOver s.kind = true)
    (hcomma : s.kind ≠ .comma) (hdots : s.kind ≠ .ellipsis) (hc : c.At fin (Ts ++ s :: U)) :
    Gives may (commaSeparated isOver item) c as fin (s :: U) := by
  have hstart : ∀ {a : α} {T V : List Sign} {c : Cursor}, P a T → c.At fin (T ++ V) →
      isOver c.kind = false := by
    intro a T V c ha hc
    obtain ⟨x, R, rfl, hx⟩ := hfront ha
    rw [hc.kind_eq]
    exact hx
  induction h generalizing c with
  | nil =>
    have hover' : isOver c.kind = true := by rw [hc.kind_eq]; exact hover
    right
    rw [commaSeparated_of_over hover']
    exact ⟨rfl, hc⟩
  | @last a T ha =>
    have hgo := hstart ha hc
    rcases hitem ha hs hdots hc with hdeep | ⟨ha', hd⟩
    · exact .inl (commaSeparated_deep hgo hdeep)
    · have hkind : (item c).2.kind ≠ .comma := by rw [hd.kind_eq]; exact hcomma
      have hres : item c = (a, (item c).2) := Prod.ext ha' rfl
      right
      rw [commaSeparated_of_last hgo hres hkind]
      exact ⟨rfl, hd⟩
  | @more a T Ts x as ha hx _ ih =>
    rw [List.append_assoc, List.cons_append] at hc
    have hgo := hstart ha hc
    rcases hitem ha (by rw [hx]; rfl) (by rw [hx]; simp) hc with hdeep | ⟨ha', hd⟩
    · exact .inl (commaSeparated_deep hgo hdeep)
    · have hkind : (item c).2.kind = .comma := by rw [hd.kind_eq]; exact hx
      have hres : item c = (a, (item c).2) := Prod.ext ha' rfl
      unfold Gives
      rw [commaSeparated_of_more hgo hres hkind (remaining_advance_lt hres hkind)]
      rcases ih hd.advance with hdeep | ⟨has, hU⟩
      · exact .inl hdeep
      · exact .inr ⟨by rw [has], hU⟩

theorem label_complete {label? : Option String} {L : List Sign} (h : Label label? L)
    (hnone : label? = none → labelWidth c = 0) (hc : c.At fin (L ++ U)) :
    (label c).1 = label? ∧ (label c).2.At fin U := by
  rw [label_eq]
  cases h with
  | none =>
    rw [hnone rfl]
    exact ⟨rfl, hc⟩
  | @single x y hx hy =>
    have hwidth : labelWidth c = 1 := by
      simp [labelWidth, hc.kind_cons, hx, hc.advance.kind_eq, hy]
    have htext := hc.writtenSince_cons (T := []) hc.advance
    rw [hwidth]
    exact ⟨by simp [htext], hc.advance.advance⟩
  | @double x y z hx hy hz =>
    have hcolon : y.kind ≠ .colon := by
      intro hk
      rw [hk] at hy
      contradiction
    have hwidth : labelWidth c = 2 := by
      simp [labelWidth, hc.kind_cons, hx, hc.advance.kind_eq, hy, hcolon,
        hc.advance.advance.kind_eq, hz]
    have htext := hc.writtenSince_cons (T := [y]) hc.advance.advance
    rw [hwidth]
    exact ⟨by simp [htext], hc.advance.advance.advance⟩

/-- The first words of a type are not taken for a label. -/
theorem labelWidth_of_unlabelled {T : List Sign} {s : Sign} (hT : Unlabelled T)
    (hs : Ending.isStop s.kind = true) (hc : c.At fin (T ++ s :: U)) : labelWidth c = 0 := by
  have hname : s.kind.isName = false := by
    cases hk : s.kind <;> simp_all [Ending.isStop, Kind.isName]
  have hcolon : s.kind ≠ .colon := by
    intro hk
    rw [hk] at hs
    contradiction
  cases T with
  | nil => simp [labelWidth, hc.kind_eq, hname]
  | cons x T =>
    by_cases hx : x.kind.isName = true
    · rw [Unlabelled, if_pos hx] at hT
      cases T with
      | nil => simp [labelWidth, hc.advance.kind_eq, hname, hcolon]
      | cons y T =>
        by_cases hy : y.kind.isName = true
        · rw [Unlabelled, if_pos hy] at hT
          have hy' : y.kind ≠ .colon := by
            intro hk
            rw [hk] at hy
            contradiction
          have hz : c.advance.advance.kind ≠ .colon := by
            rw [hc.advance.advance.kind_eq]
            cases T with
            | nil => exact hcolon
            | cons z T =>
              rw [Unlabelled] at hT
              intro hk
              have hk' : z.kind = .colon := hk
              simp [hk', Kind.isName] at hT
          simp [labelWidth, hc.advance.kind_eq, hy', hz]
        · rw [Unlabelled, if_neg hy] at hT
          simp [labelWidth, hc.advance.kind_eq, hT, hy]
    · simp [labelWidth, hc.kind_eq, hx]

/-! ## Types -/

/-- Whatever `I` spells is read back. -/
def CompleteFor (may : Prop) (inner : Parser TypeExpr)
    (I : TypeExpr → List Sign → Ending → Prop) : Prop :=
  ∀ ⦃t : TypeExpr⦄ ⦃T : List Sign⦄ ⦃e : Ending⦄, I t T e → ∀ ⦃fin : Sign⦄ ⦃U : List Sign⦄
    ⦃c : Cursor⦄, e.Stops (U.headD fin) → c.At fin (T ++ U) → Gives may inner c t fin U

/-- Nothing that `I` spells without specifiers is taken to start with one. -/
def FrontFor (I : TypeExpr → List Sign → Ending → Prop) : Prop :=
  ∀ ⦃t : TypeExpr⦄ ⦃T : List Sign⦄ ⦃e : Ending⦄, I t T e → t.isAttributed = false →
    ∀ ⦃fin : Sign⦄ ⦃U : List Sign⦄ ⦃c : Cursor⦄, e.Stops (U.headD fin) → c.At fin (T ++ U) →
      specifier c = (none, c)

variable {inner : Parser TypeExpr} {I : TypeExpr → List Sign → Ending → Prop}

theorem element_complete (hI : CompleteFor may inner I) (hshape : ∀ {t T e}, I t T e → Shape T)
    {x : Element TypeExpr} {T : List Sign} (h : Item I x T) {s : Sign}
    (hs : Ending.isStop s.kind = true) (hdots : s.kind ≠ .ellipsis)
    (hc : c.At fin (T ++ s :: U)) : Gives may (element inner) c x fin (s :: U) := by
  obtain @⟨label?, variadic, t, L, T, D, e, hlabel, ht, hD⟩ := h
  rw [List.append_assoc, List.append_assoc] at hc
  unfold Gives
  rw [element_eq]
  dsimp only
  have hwidth : label? = none → labelWidth c = 0 := by
    rintro rfl
    cases hlabel
    cases hD with
    | none => exact labelWidth_of_unlabelled (hshape ht).unlabelled hs hc
    | some hd => exact labelWidth_of_unlabelled (hshape ht).unlabelled (by rw [hd]; rfl) hc
  obtain ⟨hname, hafter⟩ := label_complete hlabel hwidth hc
  rw [hname]
  cases hD with
  | none =>
    have hstops : e.Stops ((s :: U).headD fin) := e.stops_of_kind hs
    rcases hI ht hstops hafter with hdeep | ⟨ht', hd⟩
    · left
      split
      · exact hdeep.leads Leads.refl.advance
      · exact hdeep
    · right
      have hkind : ((inner (label c).2).2.kind == .ellipsis) = false := by
        rw [hd.kind_eq]
        simpa using hdots
      rw [hkind, ht']
      exact ⟨rfl, hd⟩
  | @some y hy =>
    have hstops : e.Stops ((y :: s :: U).headD fin) :=
      e.stops_of_kind (s := y) (by rw [hy]; rfl)
    rcases hI ht hstops hafter with hdeep | ⟨ht', hd⟩
    · left
      split
      · exact hdeep.leads Leads.refl.advance
      · exact hdeep
    · right
      have hkind : ((inner (label c).2).2.kind == .ellipsis) = true := by
        rw [hd.kind_eq]
        simpa using hy
      rw [hkind, ht']
      exact ⟨rfl, hd.advance⟩

variable [Steady inner]

theorem not_over_of_isFront {k : Kind} (h : isFront k = true) :
    (k == .greaterThan) = false ∧ endsList k = false := by
  unfold isFront at h
  split at h <;> simp_all [endsList]

theorem endsList_of_isName {k : Kind} (h : k.isName = true) : endsList k = false := by
  cases k with
  | identifier | keyword => rfl
  | _ => contradiction

theorem genericArguments_complete (hI : CompleteFor may inner I)
    (hshape : ∀ {t T e}, I t T e → Shape T) {ts : List TypeExpr} {Ts : List Sign} {l g : Sign}
    (hts : Listed (Argument I) ts Ts) (hg : g.kind = .greaterThan)
    (hc : c.At fin (l :: (Ts ++ g :: U))) : Gives may (genericArguments inner) c ts fin U := by
  have hlist : Gives may (commaSeparated (· == .greaterThan) inner) c.advance ts fin (g :: U) := by
    refine commaSeparated_complete (P := Argument I) ?_ ?_ hts (by rw [hg]; rfl)
      (by rw [hg]; rfl) (by rw [hg]; simp) (by rw [hg]; simp) hc.advance
    · intro t T U s c ⟨e, ht⟩ hs _ hc
      have hstops : e.Stops ((s :: U).headD fin) := e.stops_of_kind hs
      exact hI ht hstops hc
    · intro t T ⟨e, ht⟩
      obtain ⟨x, R, rfl, hx⟩ := (hshape ht).front
      exact ⟨x, R, rfl, (not_over_of_isFront hx).1⟩
  unfold Gives
  rw [genericArguments_eq]
  dsimp only
  rcases hlist with hdeep | ⟨hts', hd⟩
  · left
    split
    · exact hdeep.leads Leads.refl.advance
    · exact hdeep.leads (Leads.refl.reportDelimiter _ _)
  · right
    have hkind : (commaSeparated (· == .greaterThan) inner c.advance).2.kind = .greaterThan := by
      rw [hd.kind_eq]
      exact hg
    rw [hkind, hts']
    exact ⟨rfl, hd.advance⟩

theorem close_complete {bracket : Bracket} {start : Nat} {r : Sign}
    (hr : r.kind = .closing bracket) (hc : c.At fin (r :: U)) :
    (close bracket start c).2.At fin U := by
  have hkind : c.kind = .closing bracket := by rw [hc.kind_cons, hr]
  unfold close
  rw [if_pos hkind]
  exact hc.advance

/-- The elements of a tuple or a function, with the parenthesis that closes
them. -/
theorem elements_complete (hI : CompleteFor may inner I) (hshape : ∀ {t T e}, I t T e → Shape T)
    (start : Nat) {es : List (Element TypeExpr)} {Es : List Sign} {r : Sign}
    (hes : Listed (Item I) es Es) (hr : r.kind = .closing .paren)
    (hc : c.At fin (Es ++ r :: U)) :
    (close .paren start (commaSeparated endsList (element inner) c).2).2.DeepIf may ∨
      ((commaSeparated endsList (element inner) c).1 = es ∧
        (close .paren start (commaSeparated endsList (element inner) c).2).2.At fin U) := by
  have hlist : Gives may (commaSeparated endsList (element inner)) c es fin (r :: U) := by
    refine commaSeparated_complete (P := Item I) ?_ ?_ hes (by rw [hr]; rfl) (by rw [hr]; rfl)
      (by rw [hr]; simp) (by rw [hr]; simp) hc
    · intro x T U s c hx hs hdots hc
      exact element_complete hI hshape hx hs hdots hc
    · intro x T hx
      obtain ⟨hlabel, ht, hD⟩ := hx
      obtain ⟨x, R, rfl, hx⟩ := (hshape ht).front
      cases hlabel with
      | none => exact ⟨x, _, rfl, (not_over_of_isFront hx).2⟩
      | @single y z hy hz => exact ⟨y, _, rfl, endsList_of_isName hy⟩
      | @double y z w hy hz hw => exact ⟨y, _, rfl, endsList_of_isName hy⟩
  rcases hlist with hdeep | ⟨hes', hd⟩
  · exact .inl (Steady.deep (p := close .paren start) hdeep)
  · exact .inr ⟨hes', close_complete hr hd⟩

theorem effect_of_not_isEffect (hc : c.At fin U) (h : (U.headD fin).isEffect = false) :
    effect c = (none, c) := by
  rw [effect_eq, hc.onNewLine_eq, hc.isWord_eq, hc.kind_eq]
  unfold Sign.isEffect at h
  generalize U.headD fin = s at h ⊢
  by_cases hline : s.onNewLine = true
  · rw [if_pos hline]
  · rw [Bool.eq_false_iff.mpr hline, Bool.not_false, Bool.true_and, Bool.or_eq_false_iff] at h
    rw [if_neg hline, h.1, h.2]
    rfl

/-- What is nested too deeply in the elements is so in the tuple or function. -/
theorem tupleOrFunction_deep
    (h : (close .paren c.current.start
      (commaSeparated endsList (element inner) c.advance).2).2.DeepIf may) :
    (tupleOrFunction inner c).2.DeepIf may := by
  have hfound := Steady.deep (p := many effect) h
  rw [tupleOrFunction_eq]
  dsimp only
  split
  · exact Steady.deep (p := inner) (hfound.leads Leads.refl.advance)
  dsimp only
  split
  · exact hfound.leads (Leads.refl.reportHere _)
  · exact hfound

theorem tuple_complete (hI : CompleteFor may inner I) (hshape : ∀ {t T e}, I t T e → Shape T)
    {es : List (Element TypeExpr)} {Es : List Sign} {l r : Sign}
    (hes : Listed (Item I) es Es) (hr : r.kind = .closing .paren)
    (hallows : Ending.tuple.Allows (U.headD fin)) (hc : c.At fin (l :: (Es ++ r :: U))) :
    Gives may (tupleOrFunction inner) c (.tuple es) fin U := by
  unfold Gives
  rcases elements_complete hI hshape c.current.start hes hr hc.advance with
    hdeep | ⟨hes', hd⟩
  · exact .inl (tupleOrFunction_deep hdeep)
  rw [tupleOrFunction_eq]
  dsimp only
  have hnone := effect_of_not_isEffect hd hallows.1
  rw [many_of_none hnone]
  have hkind : ((close .paren c.current.start
      (commaSeparated endsList (element inner) c.advance).2).2.kind == .arrow) = false := by
    rw [hd.kind_eq]
    simpa using hallows.2
  rw [if_neg (by simp [hkind]), hes']
  exact .inr ⟨rfl, hd⟩

theorem function_complete (hI : CompleteFor may inner I) (hshape : ∀ {t T e}, I t T e → Shape T)
    {es : List (Element TypeExpr)} {Es Fs T : List Sign} {fs : List String} {l r a : Sign}
    {t : TypeExpr} {e : Ending} (hes : Listed (Item I) es Es) (hr : r.kind = .closing .paren)
    (hfs : Row Effect a fs Fs) (ha : a.kind = .arrow) (ht : I t T e)
    (hstops : e.Stops (U.headD fin))
    (hc : c.At fin (l :: (Es ++ r :: (Fs ++ a :: (T ++ U))))) :
    Gives may (tupleOrFunction inner) c (.function es (joinEffects fs) t) fin U := by
  unfold Gives
  rcases elements_complete hI hshape c.current.start hes hr hc.advance with
    hdeep | ⟨hes', hd⟩
  · exact .inl (tupleOrFunction_deep hdeep)
  rw [tupleOrFunction_eq]
  dsimp only
  generalize (close .paren c.current.start
    (commaSeparated endsList (element inner) c.advance).2).2 = d at hd ⊢
  have hend : ∀ {d : Cursor}, d.At fin (a :: (T ++ U)) → effect d = (none, d) := by
    intro d hd
    refine effect_of_not_isEffect hd ?_
    simp [Sign.isEffect, ha]
  obtain ⟨hfs', hafter⟩ := many_complete (U := a :: (T ++ U)) effect_complete hend hfs hd
  have hkind : ((many effect d).2.kind == .arrow) = true := by
    rw [hafter.kind_eq]
    simpa using ha
  rw [if_pos hkind, hfs', hes']
  rcases hI ht hstops hafter.advance with hdeep | ⟨ht', hU⟩
  · exact .inl hdeep
  · exact .inr ⟨by rw [ht'], hU⟩

/-- An atom is read up to a sign that does not belong to it. -/
theorem atom_complete (hI : CompleteFor may inner I) (hshape : ∀ {t T e}, I t T e → Shape T)
    {t : TypeExpr} {T : List Sign} {e : Ending} (h : Atom I t T e)
    (hallows : e.Allows (U.headD fin)) (hc : c.At fin (T ++ U)) :
    Gives may (primary inner) c t fin U := by
  unfold Gives
  rw [primary_eq]
  cases h with
  | @named x hx =>
    have hargs : argumentsFollow c.advance = false := by
      rw [argumentsFollow_eq hc.advance]
      exact hallows
    rw [hc.kind_cons, hx]
    dsimp only
    rw [if_neg (by simp [hargs]), hc.text_cons]
    exact .inr ⟨rfl, hc.advance⟩
  | @generic x l g ts Ts hx hl hts hg =>
    have hargs : argumentsFollow c.advance = true := by
      rw [argumentsFollow_eq hc.advance]
      exact hl
    rw [hc.kind_cons, hx]
    dsimp only
    rw [if_pos hargs, hc.text_cons]
    have hc' : c.advance.At fin (l :: (Ts ++ g :: U)) := by simpa using hc.advance
    rcases genericArguments_complete hI hshape hts hg hc' with hdeep | ⟨hts', hd⟩
    · exact .inl hdeep
    · exact .inr ⟨by rw [hts'], hd⟩
  | @tuple l r es Es hl hes hr =>
    rw [hc.kind_cons, hl]
    exact tuple_complete hI hshape hes hr hallows (by simpa using hc)
  | @unit s T hs hT =>
    have hskip := skipBalanced_complete hT hc
    have hwritten := hc.writtenSince_cons hskip
    rw [hc.kind_cons]
    rcases hs with hs | hs <;> rw [hs] <;> exact .inr ⟨by rw [hwritten], hskip⟩

/-! ## Suffixes -/

omit [Steady inner] in
/-- A round of the suffix loop that consumes something is one step of it. -/
theorem iterate_suffix {start d d' : Cursor} {t u : TypeExpr} {s : Sign} {V : List Sign}
    (hres : suffix inner start t d = (some u, d')) (hd : d.At fin (s :: (V ++ U)))
    (hd' : d'.At fin U) :
    iterate (suffix inner start) t d = iterate (suffix inner start) u d' := by
  refine iterate_of_some hres ?_
  rw [d'.remaining_eq, d.remaining_eq, hd'.length_eq, hd.length_eq, List.length_cons,
    List.length_append]
  omega

omit [Steady inner] in
/-- A member, which makes the whole chain one name as written. -/
theorem suffix_member {start d : Cursor} {t : TypeExpr} {T : List Sign} {y x : Sign}
    (hsep : y.isSeparated = false) (hy : y.kind = .dot) (hx : x.kind.isName = true)
    (hallows : (U.headD fin).opensArguments = false) (hstart : start.At fin (T ++ y :: x :: U))
    (hd : d.At fin (y :: x :: U)) :
    Gives may (suffix inner start t) d (some (.verbatim (Sign.written (T ++ [y, x])))) fin U := by
  have hargs : argumentsFollow d.advance.advance = false := by
    rw [argumentsFollow_eq hd.advance.advance]
    exact hallows
  have hname : d.advance.kind.isName = true := by rw [hd.advance.kind_eq]; exact hx
  have hgap : d.current.isSeparated = false := by rw [hd.isSeparated_eq]; exact hsep
  have hall : start.At fin ((T ++ [y, x]) ++ U) := by simpa using hstart
  unfold Gives
  rw [suffix_eq, hgap, hd.kind_cons, hy, if_neg (by simp)]
  dsimp only
  rw [if_pos hname, if_neg (by simp [hargs]), hall.writtenSince_eq hd.advance.advance]
  exact .inr ⟨rfl, hd.advance.advance⟩

/-- A member with arguments. -/
theorem suffix_memberGeneric (hI : CompleteFor may inner I)
    (hshape : ∀ {t T e}, I t T e → Shape T) {start d : Cursor} {t : TypeExpr} {T Ts : List Sign}
    {ts : List TypeExpr} {y x l g : Sign} (hsep : y.isSeparated = false) (hy : y.kind = .dot)
    (hx : x.kind.isName = true) (hl : l.opensArguments = true)
    (hts : Listed (Argument I) ts Ts) (hg : g.kind = .greaterThan)
    (hstart : start.At fin (T ++ y :: x :: l :: (Ts ++ g :: U)))
    (hd : d.At fin (y :: x :: l :: (Ts ++ g :: U))) :
    Gives may (suffix inner start t) d
      (some (.verbatim (Sign.written (T ++ y :: x :: l :: (Ts ++ [g]))))) fin U := by
  have hargs : argumentsFollow d.advance.advance = true := by
    rw [argumentsFollow_eq hd.advance.advance]
    exact hl
  have hname : d.advance.kind.isName = true := by rw [hd.advance.kind_eq]; exact hx
  have hgap : d.current.isSeparated = false := by rw [hd.isSeparated_eq]; exact hsep
  have hall : start.At fin ((T ++ y :: x :: l :: (Ts ++ [g])) ++ U) := by simpa using hstart
  unfold Gives
  rw [suffix_eq, hgap, hd.kind_cons, hy, if_neg (by simp)]
  dsimp only
  rw [if_pos hname, if_pos hargs]
  rcases genericArguments_complete hI hshape hts hg hd.advance.advance with hdeep | ⟨-, hU⟩
  · exact .inl hdeep
  · rw [hall.writtenSince_eq hU]
    exact .inr ⟨rfl, hU⟩

omit [Steady inner] in
theorem suffix_optional {start d : Cursor} {t : TypeExpr} {q : Sign}
    (hsep : q.isSeparated = false) (hq : q.kind = .question) (hd : d.At fin (q :: U)) :
    Gives may (suffix inner start t) d (some (.optional t)) fin U := by
  have hgap : d.current.isSeparated = false := by rw [hd.isSeparated_eq]; exact hsep
  unfold Gives
  rw [suffix_eq, hgap, hd.kind_cons, hq, if_neg (by simp)]
  exact .inr ⟨rfl, hd.advance⟩

omit [Steady inner] in
/-- An exclamation mark, which makes the whole chain one name as written. -/
theorem suffix_unwrapped {start d : Cursor} {t : TypeExpr} {T : List Sign} {q : Sign}
    (hsep : q.isSeparated = false) (hq : q.kind = .exclamation)
    (hstart : start.At fin (T ++ q :: U)) (hd : d.At fin (q :: U)) :
    Gives may (suffix inner start t) d (some (.verbatim (Sign.written (T ++ [q])))) fin U := by
  have hgap : d.current.isSeparated = false := by rw [hd.isSeparated_eq]; exact hsep
  have hall : start.At fin ((T ++ [q]) ++ U) := by simpa using hstart
  unfold Gives
  rw [suffix_eq, hgap, hd.kind_cons, hq, if_neg (by simp)]
  dsimp only
  rw [hall.writtenSince_eq hd.advance]
  exact .inr ⟨rfl, hd.advance⟩

/-- The suffix loop gets in front of the signs `U` with this type in its hands. -/
def Carries (may : Prop) (inner : Parser TypeExpr) (c : Cursor) (t : TypeExpr) (fin : Sign)
    (U : List Sign) : Prop :=
  (suffixed inner c).2.DeepIf may ∨
    ∃ d, d.At fin U ∧ suffixed inner c = iterate (suffix inner c) t d

/-- One suffix more. -/
theorem Carries.next {t u : TypeExpr} {s : Sign} {V : List Sign}
    (h : Carries may inner c t fin (s :: (V ++ U)))
    (hround : ∀ {d : Cursor}, d.At fin (s :: (V ++ U)) →
      Gives may (suffix inner c t) d (some u) fin U) : Carries may inner c u fin U := by
  rcases h with hdeep | ⟨d, hd, heq⟩
  · exact .inl hdeep
  · rcases hround hd with hdeep | ⟨hu, hd'⟩
    · left
      rw [heq]
      exact hdeep.leads (leads_iterate_of_round t d)
    · refine .inr ⟨_, hd', ?_⟩
      rw [heq, iterate_suffix (Prod.ext hu rfl) hd hd']

/-- Behind the signs of a chain, the suffix loop stands with the type of that
chain in its hands. -/
theorem chain_complete (hI : CompleteFor may inner I) (hshape : ∀ {t T e}, I t T e → Shape T)
    {t : TypeExpr} {T : List Sign} {e : Ending} (h : Chain I t T e)
    (hallows : e.Allows (U.headD fin)) (hc : c.At fin (T ++ U)) : Carries may inner c t fin U := by
  induction h generalizing U with
  | atom ha =>
    unfold Carries
    rw [suffixed_eq]
    rcases atom_complete hI hshape ha hallows hc with hdeep | ⟨ht, hd⟩
    · exact .inl (hdeep.leads (leads_iterate _ _))
    · exact .inr ⟨_, hd, by rw [ht]⟩
  | @member t T e y x _ hsep hy hx ih =>
    rw [List.append_assoc] at hc
    have hfree := e.allows_of_isFree (s := y) (by rw [hy]; rfl)
    exact (ih (U := y :: ([x] ++ U)) hfree hc).next fun hd => suffix_member hsep hy hx hallows hc hd
  | @memberGeneric t T Ts ts e y x l g _ hsep hy hx hl hts hg ih =>
    have hc' : c.At fin (T ++ y :: x :: l :: (Ts ++ g :: U)) := by simpa using hc
    have hfree := e.allows_of_isFree (s := y) (by rw [hy]; rfl)
    refine (ih (U := y :: (x :: l :: (Ts ++ [g]) ++ U)) hfree (by simpa using hc)).next ?_
    intro d hd
    exact suffix_memberGeneric hI hshape hsep hy hx hl hts hg hc' (by simpa using hd)
  | @optional t T e q _ hsep hq ih =>
    have hc' : c.At fin (T ++ q :: U) := by simpa using hc
    have hfree := e.allows_of_isFree (s := q) (by rw [hq]; rfl)
    exact (ih (U := q :: U) hfree hc').next (V := []) fun hd => suffix_optional hsep hq hd
  | @unwrapped t T e q _ hsep hq ih =>
    have hc' : c.At fin (T ++ q :: U) := by simpa using hc
    have hfree := e.allows_of_isFree (s := q) (by rw [hq]; rfl)
    exact (ih (U := q :: U) hfree hc').next (V := []) fun hd => suffix_unwrapped hsep hq hc' hd

/-- A chain is read up to a sign that does not continue it. -/
theorem suffixed_of_chain (hI : CompleteFor may inner I) (hshape : ∀ {t T e}, I t T e → Shape T)
    {t : TypeExpr} {T : List Sign} {e : Ending} (h : Chain I t T e)
    (hrests : e.Rests (U.headD fin)) (hc : c.At fin (T ++ U)) :
    Gives may (suffixed inner) c t fin U := by
  rcases chain_complete hI hshape h hrests.allows hc with hdeep | ⟨d, hd, heq⟩
  · exact .inl hdeep
  · right
    rw [heq, iterate_of_none (suffix_of_not_isSuffix hd hrests.suffix)]
    exact ⟨rfl, hd⟩

theorem suffixed_complete (hI : CompleteFor may inner I) (hshape : ∀ {t T e}, I t T e → Shape T)
    {t : TypeExpr} {T : List Sign} {e : Ending} (h : Suffixed I t T e)
    (hstops : e.Stops (U.headD fin)) (hc : c.At fin (T ++ U)) :
    Gives may (suffixed inner) c t fin U := by
  cases h with
  | chain hchain => exact suffixed_of_chain hI hshape hchain hstops.toRests hc
  | @function l r a es Es Fs T fs t e hl hes hr hfs ha ht =>
    have hc' : c.At fin (l :: (Es ++ r :: (Fs ++ a :: (T ++ U)))) := by simpa using hc
    have hprimary : primary inner c = tupleOrFunction inner c := by
      rw [primary_eq, hc'.kind_cons, hl]
    unfold Gives
    rw [suffixed_eq, hprimary]
    rcases function_complete hI hshape hes hr hfs ha ht hstops hc' with hdeep | ⟨ht', hd⟩
    · exact .inl (hdeep.leads (leads_iterate _ _))
    · right
      rw [iterate_of_none (suffix_of_not_isSuffix hd hstops.suffix)]
      exact ⟨ht', hd⟩

/-! ## Compositions and what stands in front -/

theorem members_complete (hI : CompleteFor may inner I) (hshape : ∀ {t T e}, I t T e → Shape T)
    {Ms : List Sign} {e : Ending} (h : Members I Ms e) (hstops : e.Stops (U.headD fin))
    (hc : c.At fin (Ms ++ U)) :
    (many (composedWith inner) c).2.DeepIf may ∨ (many (composedWith inner) c).2.At fin U := by
  induction h generalizing c with
  | @last m t T e hm ht =>
    have hk : c.kind = .ampersand := by rw [hc.kind_eq]; exact hm
    rw [many_composedWith hk]
    rcases suffixed_complete hI hshape ht hstops hc.advance with hdeep | ⟨-, hd⟩
    · exact .inl (Steady.deep (p := many (composedWith inner)) hdeep)
    · right
      rw [many_composedWith_of_not (by rw [hd.kind_eq]; exact hstops.ampersand)]
      exact hd
  | @more m t T Ms e e' hm ht hmembers ih =>
    have hk : c.kind = .ampersand := by rw [hc.kind_eq]; exact hm
    rw [many_composedWith hk]
    have hc' : c.advance.At fin (T ++ (Ms ++ U)) := by simpa using hc.advance
    have hrests : e.Rests ((Ms ++ U).headD fin) := by
      obtain ⟨y, R, rfl, hy⟩ := hmembers.exists_cons
      have hsuffix : y.isSuffix = false := by simp [Sign.isSuffix, hy]
      exact ⟨hsuffix, e.allows_of_isFree (s := y) (by rw [hy]; rfl)⟩
    rcases suffixed_of_chain hI hshape ht hrests hc' with hdeep | ⟨-, hd⟩
    · exact .inl (Steady.deep (p := many (composedWith inner)) hdeep)
    · exact ih hstops hd

/-- Neither a specifier nor a qualifier stands where no word has a type behind
it. -/
theorem front_of_next {x : Sign} {R : List Sign} (hat : x.kind ≠ .atSign)
    (hinout : x.kind ≠ .keyword .inoutSpecifier)
    (hnext : x.kind = .identifier → takesType x.text = true →
      (R.headD fin).startsTypeHere = false) (hc : c.At fin (x :: R)) :
    specifier c = (none, c) ∧ qualifierAt c = none := by
  by_cases hx : x.kind = .identifier
  · by_cases hstarts : (R.headD fin).startsTypeHere = true
    · have htakes : takesType x.text = false := by
        rw [Bool.eq_false_iff]
        intro htakes
        rw [hnext hx htakes] at hstarts
        contradiction
      unfold takesType at htakes
      rw [Bool.or_eq_false_iff] at htakes
      have hword : isAtSpecifierWord c = false := by
        rw [isAtSpecifierWord_eq hc, hx, htakes.1]
        rfl
      constructor
      · rw [specifier_eq, hc.kind_cons, hx, hword]
        rfl
      · unfold qualifierAt
        rw [hc.kind_cons, hx, isTypeNext_eq hc, hstarts, hc.text_cons]
        simpa using htakes.2
    · rw [Bool.not_eq_true] at hstarts
      have hword : isAtSpecifierWord c = false := by
        rw [isAtSpecifierWord_eq hc, hx, hstarts, Bool.and_false]
        rfl
      constructor
      · rw [specifier_eq, hc.kind_cons, hx, hword]
        rfl
      · unfold qualifierAt
        rw [isTypeNext_eq hc, hstarts, Bool.and_false, if_neg (by simp)]
  · have hword : isAtSpecifierWord c = false := by
      rw [isAtSpecifierWord_eq hc]
      simp [hx, hinout]
    constructor
    · rw [specifier_eq, hc.kind_cons, hword, if_neg (by simpa using hat), if_neg (by simp)]
    · unfold qualifierAt
      rw [hc.kind_cons, if_neg (by simp [hx])]

/-- In front of a plain type stands neither a specifier nor a qualifier. -/
theorem front_of_plain {T : List Sign} (h : PlainFront T)
    (hword : ∀ x, T = [x] → x.kind = .identifier → takesType x.text = true →
      (U.headD fin).startsTypeHere = false) (hc : c.At fin (T ++ U)) :
    specifier c = (none, c) ∧ qualifierAt c = none := by
  obtain ⟨x, R, rfl, hx⟩ := h
  rcases hx with hx | hx | hx | ⟨hx, hR⟩
  · exact front_of_next (by simp [hx]) (by simp [hx]) (by simp [hx]) hc
  · exact front_of_next (by simp [hx]) (by simp [hx]) (by simp [hx]) hc
  · exact front_of_next (by simp [hx]) (by simp [hx]) (by simp [hx]) hc
  · refine front_of_next (by simp [hx]) (by simp [hx]) ?_ hc
    intro _ htakes
    cases R with
    | nil => exact hword x rfl hx htakes
    | cons y R =>
      show y.startsTypeHere = false
      simp [Sign.startsTypeHere, (hR y rfl).1]

theorem Chain.isNamed_of_single (hshape : ∀ {t T e}, I t T e → Shape T) {t : TypeExpr}
    {T : List Sign} {e : Ending} (h : Chain I t T e) {x : Sign} (hT : T = [x])
    (hx : x.kind = .identifier) : t.isNamed = true := by
  have hlong : ∀ {t : TypeExpr} {T R : List Sign} {e : Ending} {y : Sign}, Chain I t T e →
      T ++ y :: R ≠ [x] := by
    intro t T R e y hchain heq
    obtain ⟨z, Z, rfl, -⟩ := (hchain.plain hshape).1
    simp at heq
  cases h with
  | atom ha =>
    cases ha with
    | named => rfl
    | generic | tuple => simp at hT
    | unit hs =>
      cases hT
      rw [hx] at hs
      simp at hs
  | member hchain => exact absurd hT (hlong hchain)
  | memberGeneric hchain => exact absurd hT (hlong hchain)
  | optional hchain => exact absurd hT (hlong hchain)
  | unwrapped hchain => exact absurd hT (hlong hchain)

theorem Suffixed.isNamed_of_single (hshape : ∀ {t T e}, I t T e → Shape T) {t : TypeExpr}
    {T : List Sign} {e : Ending} (h : Suffixed I t T e) {x : Sign} (hT : T = [x])
    (hx : x.kind = .identifier) : t.isNamed = true := by
  cases h with
  | chain hchain => exact hchain.isNamed_of_single hshape hT hx
  | function => simp at hT

/-- A chain in front of members is no single word. -/
theorem composition_ne_single (hshape : ∀ {t T e}, I t T e → Shape T) {t : TypeExpr}
    {T Ms : List Sign} {e e' : Ending} (hchain : Chain I t T e) (hmembers : Members I Ms e')
    (x : Sign) : T ++ Ms ≠ [x] := by
  intro heq
  obtain ⟨z, Z, rfl, -⟩ := (hchain.plain hshape).1
  obtain ⟨m, R, rfl, -⟩ := hmembers.exists_cons
  simp at heq

/-- A type without specifiers of its own is not taken to have one. -/
theorem Level.specifier_eq_none (hshape : ∀ {t T e}, I t T e → Shape T) {t : TypeExpr}
    {T : List Sign} {e : Ending} (h : Level I t T e) (ht : t.isAttributed = false)
    (hstops : e.Stops (U.headD fin)) (hc : c.At fin (T ++ U)) : specifier c = (none, c) := by
  cases h with
  | @word x hx =>
    exact (front_of_next (by simp [hx]) (by simp [hx]) (fun _ => hstops.allows.2) hc).1
  | plain hsuffixed hnamed =>
    refine (front_of_plain (hsuffixed.plain hshape).1 ?_ hc).1
    intro x hT hx
    rw [hsuffixed.isNamed_of_single hshape hT hx] at hnamed
    contradiction
  | composition hchain hmembers =>
    refine (front_of_plain (composition_plain hshape hchain hmembers) ?_ hc).1
    intro x hT
    exact absurd hT (composition_ne_single hshape hchain hmembers x)
  | @qualified x s q t T e hx hq hs hi =>
    have hword : isAtSpecifierWord c = false := by
      have hnot : specifierWords.contains x.text = false := by
        rw [hq]
        cases q <;> decide
      rw [isAtSpecifierWord_eq hc, hx, hnot]
      rfl
    rw [specifier_eq, hc.kind_cons, hx, hword]
    rfl
  | attributed => contradiction

/-- What is nested too deeply in the first member of a level is so in the level. -/
theorem level_deep (hspecifier : specifier c = (none, c)) (hqualifier : qualifierAt c = none)
    (h : (suffixed inner c).2.DeepIf may) : (level inner c).2.DeepIf may := by
  rw [level_of_front hspecifier hqualifier]
  split
  · exact Steady.deep (p := many (composedWith inner)) h
  · exact h

/-- A type that nothing stands in front of and no member follows. -/
theorem level_of_suffixed {t : TypeExpr} {e : Ending} (hspecifier : specifier c = (none, c))
    (hqualifier : qualifierAt c = none) (hstops : e.Stops (U.headD fin))
    (h : Gives may (suffixed inner) c t fin U) : Gives may (level inner) c t fin U := by
  rcases h with hdeep | ⟨ht, hd⟩
  · exact .inl (level_deep hspecifier hqualifier hdeep)
  · right
    have hkind : ((suffixed inner c).2.kind == .ampersand) = false := by
      rw [hd.kind_eq]
      simpa using hstops.ampersand
    rw [level_of_front hspecifier hqualifier, hkind, if_neg (by simp)]
    exact ⟨ht, hd⟩

/-- A composition is read member by member and kept as written. -/
theorem composition_complete (hI : CompleteFor may inner I)
    (hshape : ∀ {t T e}, I t T e → Shape T) {t : TypeExpr} {T Ms : List Sign} {e e' : Ending}
    (hchain : Chain I t T e) (hmembers : Members I Ms e') (hstops : e'.Stops (U.headD fin))
    (hc : c.At fin ((T ++ Ms) ++ U)) :
    Gives may (level inner) c (.verbatim (Sign.written (T ++ Ms))) fin U := by
  have hword : ∀ x, T ++ Ms = [x] → x.kind = .identifier → takesType x.text = true →
      (U.headD fin).startsTypeHere = false :=
    fun x hT => absurd hT (composition_ne_single hshape hchain hmembers x)
  obtain ⟨hspecifier, hqualifier⟩ :=
    front_of_plain (composition_plain hshape hchain hmembers) hword hc
  have hc' : c.At fin (T ++ (Ms ++ U)) := by simpa using hc
  obtain ⟨m, R, hMs, hm⟩ := hmembers.exists_cons
  have hhead : (Ms ++ U).headD fin = m := by rw [hMs]; rfl
  have hrests : e.Rests ((Ms ++ U).headD fin) := by
    have hsuffix : m.isSuffix = false := by simp [Sign.isSuffix, hm]
    rw [hhead]
    exact ⟨hsuffix, e.allows_of_isFree (by rw [hm]; rfl)⟩
  rcases suffixed_of_chain hI hshape hchain hrests hc' with hdeep | ⟨-, hd⟩
  · exact .inl (level_deep hspecifier hqualifier hdeep)
  · have hkind : ((suffixed inner c).2.kind == .ampersand) = true := by
      rw [hd.kind_eq, hhead]
      simpa using hm
    unfold Gives
    rw [level_of_front hspecifier hqualifier, if_pos hkind]
    rcases members_complete hI hshape hmembers hstops hd with hdeep | hU
    · exact .inl hdeep
    · exact .inr ⟨by rw [hc.writtenSince_eq hU], hU⟩

omit [Steady inner] in
theorem qualified_complete (hI : CompleteFor may inner I)
    (hshape : ∀ {t T e}, I t T e → Shape T) {x s : Sign} {q : Qualifier} {t : TypeExpr}
    {T : List Sign} {e : Ending} (hx : x.kind = .identifier) (hq : x.text = q.keyword)
    (hs : s.startsTypeHere = true) (ht : I t (s :: T) e) (hstops : e.Stops (U.headD fin))
    (hc : c.At fin (x :: s :: (T ++ U))) :
    Gives may (level inner) c (.qualified q t) fin U := by
  have hspecifier :=
    (Level.qualified hx hq hs ht).specifier_eq_none hshape rfl hstops hc
  have hqualifier : qualifierAt c = some q := by
    have hnext : isTypeNext c = true := (isTypeNext_eq hc).trans hs
    unfold qualifierAt
    rw [hnext, hc.kind_cons, hx, if_pos (by rfl), hc.text_cons, hq]
    cases q <;> rfl
  unfold Gives
  rw [level_eq, many_of_none hspecifier]
  dsimp only
  rw [if_neg (by simp), hqualifier]
  rcases hI ht hstops hc.advance with hdeep | ⟨ht', hd⟩
  · exact .inl hdeep
  · exact .inr ⟨by rw [ht'], hd⟩

omit [Steady inner] in
theorem attributed_complete (hI : CompleteFor may inner I)
    (hfront : FrontFor I) {s : Sign} {ss : List String} {Ss T : List Sign} {t : TypeExpr}
    {e : Ending} (hrow : Row Specifier s ss Ss) (hne : ss ≠ []) (ht : I t (s :: T) e)
    (hattr : t.isAttributed = false) (hstops : e.Stops (U.headD fin))
    (hc : c.At fin (Ss ++ (s :: (T ++ U)))) :
    Gives may (level inner) c (.attributed ss t) fin U := by
  obtain ⟨hss, hd⟩ := many_complete (U := s :: (T ++ U)) specifier_complete
    (fun hd => hfront ht hattr hstops hd) hrow hc
  unfold Gives
  rw [level_eq]
  dsimp only
  rw [hss, if_pos (by simpa using hne)]
  rcases hI ht hstops hd with hdeep | ⟨ht', hU⟩
  · exact .inl hdeep
  · exact .inr ⟨by rw [ht'], hU⟩

/-- What the rules of a level spell is read back by that level. -/
theorem level_complete (hI : CompleteFor may inner I) (hshape : ∀ {t T e}, I t T e → Shape T)
    (hfront : FrontFor I) : CompleteFor may (level inner) (Level I) := by
  intro t T e h fin U c hstops hc
  cases h with
  | @word x hx =>
    obtain ⟨hspecifier, hqualifier⟩ :=
      front_of_next (by simp [hx]) (by simp [hx]) (fun _ => hstops.allows.2) hc
    have hrests : Ending.name.Rests (U.headD fin) := ⟨hstops.suffix, hstops.allows.1⟩
    exact level_of_suffixed hspecifier hqualifier hstops
      (suffixed_of_chain hI hshape (.atom (.named hx)) hrests hc)
  | plain hsuffixed hnamed =>
    have hword : ∀ x, T = [x] → x.kind = .identifier → takesType x.text = true →
        (U.headD fin).startsTypeHere = false := by
      intro x hT hx
      rw [hsuffixed.isNamed_of_single hshape hT hx] at hnamed
      contradiction
    obtain ⟨hspecifier, hqualifier⟩ :=
      front_of_plain (hsuffixed.plain hshape).1 hword hc
    exact level_of_suffixed hspecifier hqualifier hstops
      (suffixed_complete hI hshape hsuffixed hstops hc)
  | composition hchain hmembers => exact composition_complete hI hshape hchain hmembers hstops hc
  | qualified hx hq hs ht => exact qualified_complete hI hshape hx hq hs ht hstops hc
  | attributed hrow hne ht hattr =>
    exact attributed_complete hI hfront hrow hne ht hattr hstops (by simpa using hc)

omit [Steady inner] in
/-- Whatever the grammar spells is read back, or is nested too deeply. -/
theorem complete_of_depth {depth n : Nat} (hmay : depth < n → may) :
    CompleteFor may (parser depth) (Spells n) := by
  induction depth generalizing n with
  | zero =>
    intro t T e h fin U c _ hc
    obtain ⟨m, rfl, _⟩ := h.exists_level
    have hfindings : (c.reportHere .typeTooDeep).findings = _ :=
      findings_report_of_nil hc.clean.findings _ _ _
    exact .inl ⟨hmay (Nat.succ_pos m), _,
      by rw [parser, run_bind]; exact congrArg List.head? hfindings, rfl⟩
  | succ depth ih =>
    intro t T e h fin U c hstops hc
    obtain ⟨m, rfl, hlevel⟩ := h.exists_level
    refine level_complete (ih fun hm => hmay (by omega)) (fun h => h.shape) ?_ hlevel hstops hc
    intro t T e ht hattr fin U c hstops hc
    obtain ⟨k, rfl, hinner⟩ := ht.exists_level
    exact hinner.specifier_eq_none (fun h => h.shape) hattr hstops hc

omit [Steady inner] in
/-- Within the limit, a spelling is read back. -/
theorem complete_within {depth n : Nat} (hn : n ≤ depth) {t : TypeExpr} {T : List Sign}
    {e : Ending} (h : Spells n t T e) (hstops : e.Stops (U.headD fin))
    (hc : c.At fin (T ++ U)) : (parser depth c).1 = t ∧ (parser depth c).2.At fin U := by
  have hnever : depth < n → False := by omega
  rcases complete_of_depth hnever h hstops hc with hdeep | hread
  · exact hdeep.1.elim
  · exact hread

end TypeExpr

end AnySome
