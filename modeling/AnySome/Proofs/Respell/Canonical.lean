import AnySome.Proofs.Respell.Parts

/-!
# The canonical form of a type spells it

Given signs that spell a type somewhere in a text, the canonical form of each
variant of that type is the text of signs that spell the variant. These signs
end as the old ones did, with the same last token, so they can stand in the
place of the old ones; and they are read back wherever that last token is.

## Main results

* `Spells.respells` — for every spelling of a type and every variant of it.
-/

namespace AnySome.TypeExpr

/-- The first sign starts a type. -/
def StartsType (T : List Sign) : Prop := ∀ s ∈ T.head?, startsType s.kind = true

/-- The signs `T'` are the canonical form of the type `u` and can stand in the
place of the signs `T`. -/
structure Canonical (T T' : List Sign) (u : TypeExpr) : Prop where
  ne_nil : T' ≠ []
  written_eq : Sign.written T' = u.print
  settled : Settled T'
  solid : SolidEnd T'
  last : lastOf T' = lastOf T
  front : StartsType T → StartsType T'

/-- Every variant of the type has a canonical form that can stand in the place
of these signs, and spells it with as many levels more as the variant has. -/
def Respells (n : Nat) (t : TypeExpr) (T : List Sign) (e : Ending) : Prop :=
  ∀ ⦃Y : List Char⦄, Lexes T Y → ∀ ⦃g : Nat⦄ ⦃u : TypeExpr⦄, Variant g t u →
    ∃ T', Canonical T T' u ∧ Spells (n + g) u T' e

/-- The sign of a qualifier. -/
def keywordSign (q : Qualifier) : Sign := ⟨[], .identifier, q.keyword⟩

/-- The arrow of a function type in canonical form. -/
def arrowSign : Sign := ⟨space, .arrow, "->"⟩

namespace Canonical

variable {T T' : List Sign} {u : TypeExpr}

theorem part (h : Canonical T T' u) : Part T' u.print :=
  ⟨h.ne_nil, h.written_eq, .of_solid h.settled h.solid⟩

/-- A text that is kept as written. -/
theorem verbatim {Y : List Char} (hlex : Lexes T Y) (hne : T ≠ [])
    (hk : ∀ z ∈ T.getLast?, isSolid z.kind = true) :
    Canonical T T (.verbatim (Sign.written T)) :=
  have hsolid := SolidEnd.of_lexes hlex hk
  ⟨hne, by rw [print], .of_lexes hlex hsolid, hsolid, rfl, id⟩

/-- A word that is kept. -/
theorem word {x : Sign} {Y : List Char} (hx : x.kind = .identifier) (hlex : Lexes [x] Y) :
    Canonical [x] [x] (.named x.text) := by
  have hsolid : SolidEnd [x] := .of_lexes hlex (by simp [hx, isSolid])
  exact ⟨by simp, by rw [print, Sign.written_singleton], .of_lexes hlex hsolid, hsolid, rfl, id⟩

/-- Signs that end in a mark, in place of signs that end in one of its kind. -/
theorem marked {A B : List Sign} {r : Sign} {Y : List Char} {k : Kind}
    (hlex : Lexes (A ++ [r]) Y) (hr : r.kind = k)
    (hk : Lexeme.punctuation? (punctuationChar k) = some k) (hsolid : isSolid k = true)
    (hwritten : Sign.written (B ++ [Sign.mark k]) = u.print)
    (hsettled : Settled (B ++ [Sign.mark k]))
    (hfront : StartsType (A ++ [r]) → StartsType (B ++ [Sign.mark k])) :
    Canonical (A ++ [r]) (B ++ [Sign.mark k]) u := by
  have hlast : lastOf (B ++ [Sign.mark k]) = some (k, String.singleton (punctuationChar k)) :=
    lastOf_append_cons _
  have hlastA : lastOf (A ++ [r]) = some (r.kind, r.text) := lastOf_append_cons r
  have hread : TextReads k r.text Y := by
    rw [Lexes.append_iff] at hlex
    simpa [hr] using hlex.2.1.text
  refine ⟨by simp, hwritten, hsettled, ?_, ?_, hfront⟩
  · rw [solidEnd_iff, hlast]
    rintro z hz
    cases hz
    exact ⟨hsolid, [], firm_punctuation hk []⟩
  · rw [hlast, hlastA, hr, hread.text_eq (isPunctuation_of_punctuation? hk)]

/-- What stands in the place of some signs stands in the place of others that
end in the same token. -/
theorem congr_last {S : List Sign} (h : Canonical T T' u) (hlast : lastOf S = lastOf T)
    (hfront : StartsType S → StartsType T') : Canonical S T' u :=
  ⟨h.ne_nil, h.written_eq, h.settled, h.solid, h.last.trans hlast.symm, hfront⟩

theorem startsTypeHere (h : Canonical T T' u) (hstarts : StartsType T') :
    ∃ s R, regap space T' = s :: R ∧ s.startsTypeHere = true := by
  obtain ⟨x, R, rfl⟩ := List.exists_cons_of_ne_nil h.ne_nil
  refine ⟨_, R, rfl, ?_⟩
  have hx := hstarts x rfl
  simp [Sign.startsTypeHere, Sign.onNewLine, space, Trivia.breaksLine, hx]

theorem qualified (h : Canonical T T' u) (q : Qualifier) :
    Canonical T (keywordSign q :: regap space T') (.qualified q u) := by
  have hlast : lastOf (keywordSign q :: regap space T') = lastOf T' := by
    have happ := lastOf_append (A := [keywordSign q]) (B := regap space T')
      (by simpa using h.ne_nil)
    rw [lastOf_regap] at happ
    exact happ
  refine ⟨by simp, ?_, ?_, h.solid.congr hlast, hlast.trans h.last, ?_⟩
  · rw [print, ← h.written_eq, Sign.written, chars_space h.ne_nil, ← String.toList_inj]
    simp [keywordSign]
  · intro Y hread
    refine ⟨⟨Trivia.isGap_nil, textReads_keyword q (cuts_space h.ne_nil Y)⟩, ?_⟩
    exact h.settled.regap Trivia.isGap_space Y (ReadsLast.append (A := [keywordSign q]) hread)
  · intro _ s hs
    cases hs
    rfl

end Canonical

/-- A type that stands behind a qualifier. -/
theorem Spells.qualified {n : Nat} {t : TypeExpr} {T T' : List Sign} {e : Ending}
    (h : Spells n t T' e) (hT' : Canonical T T' t) (hstarts : StartsType T') (q : Qualifier) :
    Spells (n + 1) (.qualified q t) (keywordSign q :: AnySome.regap space T') e := by
  obtain ⟨s, R, hR, hs⟩ := hT'.startsTypeHere hstarts
  have hspells := h.regap space
  rw [hR] at hspells ⊢
  exact .level (.qualified rfl rfl hs hspells)

/-! ## Arguments and elements -/

/-- A list in canonical form, to be put between brackets. -/
theorem Listed.canonical_enclosed {P Q : α → List Sign → Prop} {R : α → α → Prop}
    {item : α → String} {list : List α → String} (hnil : list [] = "")
    (hone : ∀ a, list [a] = item a)
    (hmore : ∀ a b as, list (a :: b :: as) = item a ++ ", " ++ list (b :: as))
    (hQ : ∀ ⦃a T g⦄, Q a T → Q a (AnySome.regap g T))
    (hitem : ∀ ⦃a b T Y⦄, P a T → Lexes T Y → R a b → ∃ T', Part T' (item b) ∧ Q b T')
    {as bs : List α} {Ts : List Sign} {Y : List Char} (h : Listed P as Ts) (hlex : Lexes Ts Y)
    (hR : List.Forall₂ R as bs) :
    ∃ Ts', Listed Q bs Ts' ∧ Joins Ts' ∧ Ts'.flatMap Sign.chars = (list bs).toList := by
  rcases h.canonical hone hmore hQ hitem hlex hR with rfl | ⟨Ts', hpart, hqs⟩
  · exact ⟨[], .nil, .nil, by rw [hnil]; rfl⟩
  · refine ⟨AnySome.regap [] Ts', Listed.regap (fun hq => hQ hq) hqs,
      hpart.joins.regap hpart.ne_nil Trivia.isGap_nil, ?_⟩
    rw [chars_regap hpart.ne_nil, hpart.written_eq]
    rfl

theorem printArguments_singleton (t : TypeExpr) : printArguments [t] = t.print := by
  rw [printArguments]

theorem printArguments_cons (t u : TypeExpr) (ts : List TypeExpr) :
    printArguments (t :: u :: ts) = t.print ++ ", " ++ printArguments (u :: ts) := by
  rw [printArguments]

/-- An element as it is printed in a list. -/
def printElement (x : Element TypeExpr) : String :=
  printLabel x.label ++ x.type.print ++ printVariadic x.variadic

theorem printElements_singleton (x : Element TypeExpr) : printElements [x] = printElement x := by
  obtain ⟨label, t, variadic⟩ := x
  rw [printElements]
  rfl

theorem printElements_cons (x y : Element TypeExpr) (es : List (Element TypeExpr)) :
    printElements (x :: y :: es) = printElement x ++ ", " ++ printElements (y :: es) := by
  obtain ⟨label, t, variadic⟩ := x
  rw [printElements]
  rfl

theorem Item.regap {n : Nat} {x : Element TypeExpr} {T : List Sign} (h : Item (Spells n) x T)
    {g : List Trivia} : Item (Spells n) x (regap g T) := by
  obtain @⟨label, variadic, t, L, T, D, e, hlabel, ht, hdots⟩ := h
  cases hlabel with
  | none =>
    rw [List.nil_append, regap_append ht.shape.ne_nil]
    exact .mk .none (ht.regap g) hdots
  | @single x y hx hy => exact .mk (.single (x := ⟨g, x.kind, x.text⟩) hx hy) ht hdots
  | @double x y z hx hy hz => exact .mk (.double (x := ⟨g, x.kind, x.text⟩) hx hy hz) ht hdots

/-- A label in canonical form: one space behind the colon. -/
theorem Label.canonical {label : Option String} {L : List Sign} {Y : List Char}
    (h : Label label L) (hlex : Lexes L Y) {T' : List Sign} {text : String}
    (hpart : Part T' text) :
    ∃ L' T'', Label label L' ∧ (T'' = T' ∨ T'' = regap space T') ∧
      Part (L' ++ T'') (printLabel label ++ text) := by
  have hnames : ∀ {A : List Sign} {text' : String}, Part A text' →
      Part (A ++ Sign.mark .colon :: regap space T') (text' ++ ": " ++ text) := by
    intro A text' hA
    refine ⟨by simp, ?_, ?_⟩
    · rw [written_append hA.ne_nil, hA.written_eq, List.flatMap_cons, Sign.chars_mark,
        chars_space hpart.ne_nil, hpart.written_eq, String.append_assoc]
      congr 1
      rw [← String.toList_inj]
      simp [punctuationChar]
    · exact hA.joins.append (.mark_cons (hpart.joins.regap hpart.ne_nil Trivia.isGap_space) rfl)
        (.inr (cuts_mark rfl))
  cases h with
  | none => exact ⟨[], T', .none, .inl rfl, by simpa [printLabel] using hpart⟩
  | @single x y hx hy =>
    have hlex' : Lexes [x] _ := ⟨hlex.1, trivial⟩
    have hA := Part.of_lexes (Y := [y].flatMap Sign.chars ++ Y) hlex' (by simp)
      (by simpa using isSolid_of_isName hx)
    refine ⟨[x, Sign.mark .colon], regap space T', .single hx rfl, .inr rfl, ?_⟩
    simpa [printLabel] using hnames hA
  | @double x y z hx hy hz =>
    have hlex' : Lexes [x, y] ([z].flatMap Sign.chars ++ Y) :=
      (Lexes.append_iff (S := [x, y]) (T := [z])).mp hlex |>.1
    have hA := Part.of_lexes hlex' (by simp) (by simpa using isSolid_of_isName hy)
    refine ⟨[x, y, Sign.mark .colon], regap space T', .double hx hy rfl, .inr rfl, ?_⟩
    simpa [printLabel] using hnames hA

/-! ## Types -/

section

variable {n : Nat} {I : TypeExpr → List Sign → Ending → Prop}

theorem Argument.canonical (hI : ∀ {t T e}, I t T e → Respells n t T e) {g : Nat}
    {t u : TypeExpr} {T : List Sign} {Y : List Char} (h : Argument I t T) (hlex : Lexes T Y)
    (hu : Variant g t u) : ∃ T', Part T' u.print ∧ Argument (Spells (n + g)) u T' := by
  obtain ⟨e, he⟩ := h
  obtain ⟨T', hcanonical, hspells⟩ := hI he hlex hu
  exact ⟨T', hcanonical.part, e, hspells⟩

theorem Item.canonical (hI : ∀ {t T e}, I t T e → Respells n t T e) {g : Nat}
    {x y : Element TypeExpr} {T : List Sign} {Y : List Char} (h : Item I x T) (hlex : Lexes T Y)
    (hy : VariantElement g x y) :
    ∃ T', Part T' (printElement y) ∧ Item (Spells (n + g)) y T' := by
  obtain @⟨label, variadic, t, L, T, D, e, hlabel, ht, hdots⟩ := h
  obtain ⟨label', u, variadic'⟩ := y
  obtain ⟨rfl, rfl, hu⟩ := hy
  dsimp only at hu
  rw [Lexes.append_iff, Lexes.append_iff] at hlex
  obtain ⟨T', hcanonical, hspells⟩ := hI ht hlex.2.1 hu
  obtain ⟨D', hD', hpart⟩ : ∃ D', Dots variadic' D' ∧
      Part (T' ++ D') (u.print ++ printVariadic variadic') := by
    cases hdots with
    | none => exact ⟨[], .none, by simpa [printVariadic] using hcanonical.part⟩
    | some hs =>
      refine ⟨[⟨[], .ellipsis, "..."⟩], .some rfl, by simp, ?_, ?_⟩
      · rw [written_append hcanonical.ne_nil, hcanonical.written_eq, ← String.toList_inj]
        simp [Sign.chars, printVariadic]
      · intro B hB hcut
        rw [List.append_assoc]
        refine hcanonical.part.joins (hB.cons_firm Trivia.isGap_nil firm_ellipsis) ?_
        intro Y
        exact .dots
  obtain ⟨L', T'', hL', hT'', hwhole⟩ := hlabel.canonical hlex.1 hpart
  refine ⟨L' ++ T'', ?_, ?_⟩
  · unfold printElement
    rw [String.append_assoc]
    exact hwhole
  · rcases hT'' with rfl | rfl
    · exact .mk hL' hspells hD'
    · rw [regap_append hcanonical.ne_nil]
      exact .mk hL' (hspells.regap space) hD'

theorem arguments_canonical (hI : ∀ {t T e}, I t T e → Respells n t T e) {g : Nat}
    {ts us : List TypeExpr} {Ts : List Sign} {Y : List Char} (h : Listed (Argument I) ts Ts)
    (hlex : Lexes Ts Y) (hus : List.Forall₂ (Variant g) ts us) :
    ∃ Us, Listed (Argument (Spells (n + g))) us Us ∧ Joins Us ∧
      Us.flatMap Sign.chars = (printArguments us).toList := by
  refine Listed.canonical_enclosed (P := Argument I) (Q := Argument (Spells (n + g)))
    (R := Variant g) rfl printArguments_singleton printArguments_cons ?_ ?_ h hlex hus
  · rintro t T g ⟨e, he⟩
    exact ⟨e, he.regap g⟩
  · intro t u T Y ht hlex hu
    exact ht.canonical hI hlex hu

theorem elements_canonical (hI : ∀ {t T e}, I t T e → Respells n t T e) {g : Nat}
    {es fs : List (Element TypeExpr)} {Es : List Sign} {Y : List Char}
    (h : Listed (Item I) es Es) (hlex : Lexes Es Y)
    (hfs : List.Forall₂ (VariantElement g) es fs) :
    ∃ Fs, Listed (Item (Spells (n + g))) fs Fs ∧ Joins Fs ∧
      Fs.flatMap Sign.chars = (printElements fs).toList := by
  refine Listed.canonical_enclosed (P := Item I) (Q := Item (Spells (n + g)))
    (R := VariantElement g) rfl printElements_singleton printElements_cons ?_ ?_ h hlex hfs
  · intro x T g hx
    exact hx.regap
  · intro x y T Y hx hlex hy
    exact hx.canonical hI hlex hy

/-- What becomes of a chain whose inner types are of `n` levels: a chain again,
with the levels of the variant inside, or one behind a new qualifier, with
nothing more inside. -/
def Outcome (C : Nat → TypeExpr → List Sign → Ending → Prop) (n g : Nat) (t : TypeExpr)
    (T : List Sign) (e : Ending) (u : TypeExpr) : Prop :=
  ∃ v V, Canonical T V v ∧ v.isNamed = t.isNamed ∧
    (u = v ∧ C (n + g) v V e ∨ g = 2 ∧ ∃ k, u = .qualified k v ∧ StartsType V ∧ C n v V e)

/-- A generic type in canonical form. -/
theorem generic_canonical (hI : ∀ {t T e}, I t T e → Respells n t T e) {x l r : Sign}
    {ts us : List TypeExpr} {Ts : List Sign} {Y : List Char} (hx : x.kind = .identifier)
    (hts : Listed (Argument I) ts Ts) (hr : r.kind = .greaterThan)
    (hlex : Lexes (x :: l :: (Ts ++ [r])) Y) {g : Nat} (hus : List.Forall₂ (Variant g) ts us) :
    ∃ Us, Canonical (x :: l :: (Ts ++ [r]))
        (x :: Sign.mark .lessThan :: (Us ++ [Sign.mark .greaterThan])) (.generic x.text us) ∧
      Atom (Spells (n + g)) (.generic x.text us)
        (x :: Sign.mark .lessThan :: (Us ++ [Sign.mark .greaterThan])) .closed := by
  obtain ⟨hxread, -, hrest⟩ := id hlex
  rw [Lexes.append_iff] at hrest
  obtain ⟨Us, hUs, hjoins, hchars⟩ := arguments_canonical hI hts hrest.1 hus
  have hword : Canonical [x] [x] (.named x.text) := .word hx ⟨hxread, trivial⟩
  have hinner : Settled (Us ++ [Sign.mark .greaterThan]) :=
    hjoins (Settled.nil.mark_cons rfl) (cuts_mark rfl)
  have hsettled : Settled (x :: Sign.mark .lessThan :: (Us ++ [Sign.mark .greaterThan])) :=
    hword.settled.append hword.solid (hinner.mark_cons rfl) (cuts_mark rfl)
  refine ⟨Us, ?_, .generic hx rfl hUs rfl⟩
  refine .marked (A := x :: l :: Ts) (B := x :: Sign.mark .lessThan :: Us) hlex hr rfl rfl ?_
    hsettled id
  rw [print, List.cons_append, Sign.written, ← String.toList_inj]
  simp [Sign.chars_mark, hchars, punctuationChar]

/-- A tuple in canonical form. -/
theorem tuple_canonical (hI : ∀ {t T e}, I t T e → Respells n t T e) {l r : Sign}
    {es fs : List (Element TypeExpr)} {Es : List Sign} {Y : List Char}
    (hes : Listed (Item I) es Es) (hr : r.kind = .closing .paren)
    (hlex : Lexes (l :: (Es ++ [r])) Y) {g : Nat} (hfs : List.Forall₂ (VariantElement g) es fs) :
    ∃ Fs, Canonical (l :: (Es ++ [r]))
        (Sign.mark (.opening .paren) :: (Fs ++ [Sign.mark (.closing .paren)])) (.tuple fs) ∧
      Atom (Spells (n + g)) (.tuple fs)
        (Sign.mark (.opening .paren) :: (Fs ++ [Sign.mark (.closing .paren)])) .tuple := by
  obtain ⟨-, hrest⟩ := id hlex
  rw [Lexes.append_iff] at hrest
  obtain ⟨Fs, hFs, hjoins, hchars⟩ := elements_canonical hI hes hrest.1 hfs
  have hinner : Settled (Fs ++ [Sign.mark (.closing .paren)]) :=
    hjoins (Settled.nil.mark_cons rfl) (cuts_mark rfl)
  refine ⟨Fs, ?_, .tuple rfl hFs rfl⟩
  refine .marked (A := l :: Es) (B := Sign.mark (.opening .paren) :: Fs) hlex hr rfl rfl ?_
    (hinner.mark_cons rfl) ?_
  · rw [print, List.cons_append, Sign.written, ← String.toList_inj]
    simp [Sign.text_mark, Sign.chars_mark, hchars, punctuationChar, Bracket.opener, Bracket.closer]
  · intro _ s hs
    cases hs
    rfl

theorem Atom.canonical (hI : ∀ {t T e}, I t T e → Respells n t T e) {g : Nat}
    {t u : TypeExpr} {T : List Sign} {e : Ending} {Y : List Char} (h : Atom I t T e)
    (hlex : Lexes T Y) (hu : Variant g t u) :
    Outcome (fun n => Atom (Spells n)) n g t T e u := by
  cases h with
  | @named x hx =>
    refine ⟨.named x.text, [x], .word hx hlex, rfl, ?_⟩
    rcases hu.named with rfl | ⟨hg, k, rfl⟩
    · exact .inl ⟨rfl, .named hx⟩
    · exact .inr ⟨hg, k, rfl, by simp [StartsType, hx, startsType], .named hx⟩
  | @generic x l r ts Ts hx hl hts hr =>
    have hstarts : ∀ {V : List Sign}, StartsType (x :: V) := by simp [StartsType, hx, startsType]
    rcases hu.generic with ⟨us, hus, rfl⟩ | ⟨hg, k, rfl⟩
    · obtain ⟨Us, hcanonical, hUs⟩ := generic_canonical hI hx hts hr hlex hus
      exact ⟨_, _, hcanonical, rfl, .inl ⟨rfl, hUs⟩⟩
    · obtain ⟨Us, hcanonical, hUs⟩ :=
        generic_canonical hI hx hts hr hlex (Variant.forall_same (g := 0) ts)
      exact ⟨_, _, hcanonical, rfl, .inr ⟨hg, k, rfl, hstarts, hUs⟩⟩
  | @tuple l r es Es hl hes hr =>
    obtain ⟨fs, hfs, rfl⟩ := hu.tuple
    obtain ⟨Fs, hcanonical, hFs⟩ := tuple_canonical hI hes hr hlex hfs
    exact ⟨_, _, hcanonical, rfl, .inl ⟨rfl, hFs⟩⟩
  | @unit s T hs hT =>
    rw [hu.verbatim]
    exact ⟨_, s :: T, .verbatim hlex (by simp) (hT.isSolid_last hs), rfl, .inl ⟨rfl, .unit hs hT⟩⟩

theorem Chain.flags {t : TypeExpr} {T : List Sign} {e : Ending} (h : Chain I t T e) :
    t.isQualified = false ∧ t.bindsLoosely = false := by
  cases h with
  | atom ha => cases ha <;> exact ⟨rfl, rfl⟩
  | member | memberGeneric | optional | unwrapped => exact ⟨rfl, rfl⟩

/-- A chain of more than a word is a whole type. -/
theorem Chain.spells {t : TypeExpr} {T : List Sign} {e : Ending} (h : Chain (Spells n) t T e) :
    ∃ e', Spells (n + 1) t T e' := by
  by_cases hnamed : t.isNamed = true
  · obtain ⟨x, hx, rfl, rfl, rfl⟩ := h.eq_of_isNamed hnamed
    exact ⟨_, .level (.word hx)⟩
  · exact ⟨e, .level (.plain (.chain h) (by simpa using hnamed))⟩

theorem StartsType.append {T R : List Sign} (h : StartsType (T ++ R)) (hT : T ≠ []) :
    StartsType T := by
  cases T with
  | nil => contradiction
  | cons x T => exact h

theorem StartsType.append_right {T : List Sign} (h : StartsType T) (hT : T ≠ [])
    (R : List Sign) : StartsType (T ++ R) := by
  cases T with
  | nil => contradiction
  | cons x T => exact h

/-- An optional in canonical form. -/
theorem optional_canonical {t : TypeExpr} {T V : List Sign} {q : Sign} {Y : List Char}
    (h : Part V t.print) (hloose : t.bindsLoosely = false) (hlex : Lexes (T ++ [q]) Y)
    (hq : q.kind = .question) (hfront : StartsType (T ++ [q]) → StartsType V) :
    Canonical (T ++ [q]) (V ++ [Sign.mark .question]) (.optional t) := by
  refine .marked hlex hq rfl rfl ?_ (h.joins (Settled.nil.mark_cons rfl) (cuts_mark rfl))
    fun hT => (hfront hT).append_right h.ne_nil _
  rw [print, hloose, written_append h.ne_nil, h.written_eq, ← String.toList_inj]
  simp [Sign.chars_mark, punctuationChar]

/-- A type in parentheses in canonical form. -/
theorem parenthesized_part {t : TypeExpr} {V : List Sign} (h : Part V t.print) :
    Part (Sign.mark (.opening .paren) :: (regap [] V ++ [Sign.mark (.closing .paren)]))
      t.parenthesized.print := by
  refine ⟨by simp, ?_, ?_⟩
  · rw [parenthesized, print, printElements_singleton, ← String.toList_inj, Sign.written,
      List.flatMap_append, chars_regap h.ne_nil, h.written_eq]
    simp [Sign.text_mark, Sign.chars_mark, printElement, printLabel, printVariadic, punctuationChar,
      Bracket.opener, Bracket.closer]
  · intro B hB _
    have hclosing : Settled (regap [] V ++ Sign.mark (.closing .paren) :: B) :=
      h.joins.regap h.ne_nil Trivia.isGap_nil (hB.mark_cons rfl) (cuts_mark rfl)
    simpa using hclosing.mark_cons (k := .opening .paren) rfl

theorem Chain.canonical (hS : ∀ {t T e}, I t T e → Spells n t T e)
    (hI : ∀ {t T e}, I t T e → Respells n t T e) {g : Nat} {t u : TypeExpr} {T : List Sign}
    {e : Ending} {Y : List Char} (h : Chain I t T e) (hlex : Lexes T Y) (hu : Variant g t u) :
    Outcome (fun n => Chain (Spells n)) n g t T e u := by
  have hshape : ∀ {t T e}, I t T e → Shape T := fun h => (hS h).shape
  have hne : ∀ {t T e}, Chain I t T e → T ≠ [] := by
    intro t T e h
    obtain ⟨x, R, rfl, -⟩ := (h.plain hshape).1
    simp
  -- whatever is kept as written
  have hkept : ∀ {T : List Sign} {e : Ending} {Y : List Char} {u : TypeExpr},
      Chain I (.verbatim (Sign.written T)) T e → Lexes T Y →
      (∀ z ∈ T.getLast?, isSolid z.kind = true) → Variant g (.verbatim (Sign.written T)) u →
      Outcome (fun n => Chain (Spells n)) n g (.verbatim (Sign.written T)) T e u := by
    intro T e Y u h hlex hk hu
    refine ⟨_, T, .verbatim hlex (hne h) hk, rfl, .inl ⟨hu.verbatim, ?_⟩⟩
    exact h.mono fun h' => (hS h').le (by omega)
  induction h generalizing u Y with
  | atom ha =>
    obtain ⟨v, V, hcanonical, hnamed, ⟨hv, hV⟩ | ⟨hg, k, hk, hstarts, hV⟩⟩ :=
      ha.canonical hI hlex hu
    · exact ⟨v, V, hcanonical, hnamed, .inl ⟨hv, .atom hV⟩⟩
    · exact ⟨v, V, hcanonical, hnamed, .inr ⟨hg, k, hk, hstarts, .atom hV⟩⟩
  | member hchain hsep hd hx _ =>
    exact hkept (.member hchain hsep hd hx) hlex (by simpa using isSolid_of_isName hx) hu
  | memberGeneric hchain hsep hd hx hl hts hg _ =>
    refine hkept (.memberGeneric hchain hsep hd hx hl hts hg) hlex ?_ hu
    simp [List.getLast?_append, List.getLast?_cons, hg, isSolid]
  | unwrapped hchain hsep hq _ =>
    exact hkept (.unwrapped hchain hsep hq) hlex (by simp [hq, isSolid]) hu
  | @optional t T e q hchain hsep hq ih =>
    obtain ⟨p, hp, rfl⟩ := hu.optional hchain.flags.1
    obtain ⟨v, V, hcanonical, -, ⟨hp, hV⟩ | ⟨hg, k, hp, hstarts, hV⟩⟩ :=
      ih (Lexes.append_iff.mp hlex).1 hp
    · subst hp
      have hopt : optionalOf p = .optional p := by
        unfold optionalOf
        rw [hV.flags.1]
        rfl
      rw [hopt]
      refine ⟨.optional p, V ++ [Sign.mark .question],
        optional_canonical hcanonical.part hV.flags.2 hlex hq ?_, rfl,
        .inl ⟨rfl, .optional hV rfl rfl⟩⟩
      exact fun hfront => hcanonical.front (hfront.append (hne hchain))
    · -- A new qualifier goes into parentheses, in front of the question mark. It is one level
      -- further in than the parentheses, and the type behind it one further still.
      subst hp hg
      obtain ⟨e', hspells⟩ := hV.spells
      have hitem : Item (Spells (n + 2)) ⟨none, .qualified k v, false⟩
          (AnySome.regap [] (keywordSign k :: AnySome.regap space V)) := by
        have hmk := Item.mk .none (hspells.qualified hcanonical hstarts k) .none
        simpa using hmk.regap (g := [])
      refine ⟨.optional (.parenthesized (.qualified k v)), _,
        optional_canonical (parenthesized_part (hcanonical.qualified k).part) rfl hlex hq ?_,
        rfl, .inl ⟨rfl, .optional (.atom (.tuple rfl (.last hitem) rfl)) rfl rfl⟩⟩
      intro _ s hs
      cases hs
      rfl

/-! ## Whole types -/

theorem function_canonical (hS : ∀ {t T e}, I t T e → Spells n t T e)
    (hI : ∀ {t T e}, I t T e → Respells n t T e) {l r a : Sign}
    {es : List (Element TypeExpr)} {Es Fs T : List Sign} {fs : List String} {g : Nat}
    {t u : TypeExpr} {e : Ending} {Y : List Char} (hes : Listed (Item I) es Es)
    (hfs : Row Effect a fs Fs) (ht : I t T e)
    (hlex : Lexes (l :: (Es ++ r :: (Fs ++ a :: T))) Y)
    (hu : Variant g (.function es (joinEffects fs) t) u) :
    ∃ V, Canonical (l :: (Es ++ r :: (Fs ++ a :: T))) V u ∧ Suffixed (Spells (n + g)) u V e := by
  obtain ⟨es', t', hes', ht', rfl⟩ := hu.function
  obtain ⟨-, hrest⟩ := hlex
  rw [Lexes.append_iff] at hrest
  obtain ⟨hEs, -, hrest⟩ := hrest
  rw [Lexes.append_iff] at hrest
  obtain ⟨hFs, -, hT⟩ := hrest
  obtain ⟨Es', hlisted, hjoins, hchars⟩ := elements_canonical hI hes hEs hes'
  obtain ⟨Fs', hrow, hjoinsF, hcharsF, -, -⟩ := hfs.canonical_effects (b := arrowSign) hFs rfl
  obtain ⟨T', hcanonical, hspells⟩ := hI ht hT ht'
  have hresult : Settled (arrowSign :: regap space T') :=
    (hcanonical.settled.regap Trivia.isGap_space).cons_firm Trivia.isGap_space firm_arrow
  have heffects : Settled (Fs' ++ arrowSign :: regap space T') :=
    hjoinsF hresult fun _ => .char rfl
  have helements : Settled (Es' ++ Sign.mark (.closing .paren) ::
      (Fs' ++ arrowSign :: regap space T')) := hjoins (heffects.mark_cons rfl) (cuts_mark rfl)
  have hlast : lastOf (Sign.mark (.opening .paren) :: (Es' ++ Sign.mark (.closing .paren) ::
      (Fs' ++ arrowSign :: regap space T'))) = lastOf T' := by
    have hne : regap space T' ≠ [] := by simpa using hcanonical.ne_nil
    have happ := lastOf_append (A := Sign.mark (.opening .paren) ::
      (Es' ++ Sign.mark (.closing .paren) :: (Fs' ++ [arrowSign]))) hne
    rw [lastOf_regap] at happ
    simpa using happ
  have hlastT : lastOf (l :: (Es ++ r :: (Fs ++ a :: T))) = lastOf T := by
    have happ := lastOf_append (A := l :: (Es ++ r :: (Fs ++ [a]))) (hS ht).shape.ne_nil
    simpa using happ
  refine ⟨Sign.mark (.opening .paren) :: (Es' ++ Sign.mark (.closing .paren) ::
      (Fs' ++ arrowSign :: regap space T')), ⟨by simp, ?_, helements.mark_cons rfl,
      hcanonical.solid.congr hlast, ?_, ?_⟩, .function rfl hlisted rfl hrow rfl (hspells.regap space)⟩
  · rw [print, Sign.written, ← String.toList_inj]
    have harrow : arrowSign.chars = [' ', '-', '>'] := rfl
    simp [Sign.text_mark, Sign.chars_mark, hchars, hcharsF, harrow, chars_space hcanonical.ne_nil,
      hcanonical.written_eq, punctuationChar, Bracket.opener, Bracket.closer]
  · rw [hlast, hlastT, hcanonical.last]
  · intro _ s hs
    cases hs
    rfl

/-- A chain that is a whole type. -/
theorem respells_of_outcome {g : Nat} {t u : TypeExpr} {T : List Sign} {e : Ending}
    (h : Outcome (fun n => Chain (Spells n)) n g t T e u) (ht : t.isNamed = false) :
    ∃ T', Canonical T T' u ∧ Spells (n + 1 + g) u T' e := by
  obtain ⟨v, V, hcanonical, hnamed, ⟨rfl, hV⟩ | ⟨rfl, k, rfl, hstarts, hV⟩⟩ := h
  · have hspells : Spells (n + g + 1) u V e := .level (.plain (.chain hV) (by rw [hnamed, ht]))
    exact ⟨V, hcanonical, hspells.le (by omega)⟩
  · have hspells : Spells (n + 1) v V e := .level (.plain (.chain hV) (by rw [hnamed, ht]))
    have hbehind := hspells.qualified hcanonical hstarts k
    exact ⟨_, hcanonical.qualified k, hbehind.le (by omega)⟩

theorem Members.solid_last (hS : ∀ {t T e}, I t T e → Spells n t T e)
    (hI : ∀ {t T e}, I t T e → Respells n t T e) {Ms : List Sign} {e : Ending} {Y : List Char}
    (h : Members I Ms e) (hlex : Lexes Ms Y) : SolidEnd Ms := by
  have hshape : ∀ {t T e}, I t T e → Shape T := fun h => (hS h).shape
  induction h with
  | @last m t T e hm ht =>
    have hne : T ≠ [] := by
      obtain ⟨x, R, rfl, -⟩ := (ht.plain hshape).1
      simp
    refine SolidEnd.congr (A := T) ?_ (lastOf_append (A := [m]) hne)
    cases ht with
    | chain hchain =>
      obtain ⟨v, V, hcanonical, -⟩ := hchain.canonical hS hI hlex.2 (.same 0 t)
      exact hcanonical.solid.congr hcanonical.last.symm
    | function hl hes hr hfs ha ht =>
      obtain ⟨V, hcanonical, -⟩ := function_canonical hS hI hes hfs ht hlex.2 (.same 0 _)
      exact hcanonical.solid.congr hcanonical.last.symm
  | @more m t T Ms e e' hm ht hmembers ih =>
    have hne : Ms ≠ [] := by
      obtain ⟨x, R, rfl, -⟩ := hmembers.exists_cons
      simp
    have hlast : lastOf (m :: (T ++ Ms)) = lastOf Ms := lastOf_append (A := m :: T) hne
    exact (ih (Lexes.append_iff.mp hlex.2).2).congr hlast

/-- A type behind specifiers in canonical form. -/
theorem attributed_canonical {s : Sign} {ss : List String} {Ss T V : List Sign} {v : TypeExpr}
    {Y : List Char} (hrow : Row Specifier s ss Ss) (hss : ss ≠ []) (hlex : Lexes Ss Y)
    (h : Canonical (s :: T) V v) :
    ∃ x R Ss', AnySome.regap space V = x :: R ∧ Row Specifier x ss Ss' ∧
      Canonical (Ss ++ s :: T) (Ss' ++ x :: R) (.attributed ss v) := by
  obtain ⟨x, R, hR⟩ := List.exists_cons_of_ne_nil
    (show AnySome.regap space V ≠ [] by simpa using h.ne_nil)
  have hgap : x.gap = space := by
    have hhead := gap_headD_space h.ne_nil [] x
    rw [List.append_nil, hR] at hhead
    exact hhead
  have hstarts : startsType s.kind = true → startsType x.kind = true := by
    intro hs
    have hfront : StartsType V := h.front fun y hy => by cases hy; exact hs
    obtain ⟨y, R', hR', hy⟩ := h.startsTypeHere hfront
    rw [hR] at hR'
    cases hR'
    exact kind_of_startsTypeHere hy
  obtain ⟨Ss', hrow', hjoins, hchars, hhead, hkind⟩ := hrow.canonical_specifiers hlex hgap hstarts
  refine ⟨x, R, Ss', hR, hrow', ?_⟩
  -- There are specifiers, so both rows start with a sign of their own.
  obtain ⟨hne, hne'⟩ : Ss ≠ [] ∧ Ss' ≠ [] := by
    cases hrow with
    | nil => contradiction
    | cons hs _ =>
      obtain _ | ⟨hs', _⟩ := hrow'
      exact ⟨by simp [hs.ne_nil], by simp [hs'.ne_nil]⟩
  obtain ⟨y, B, rfl⟩ := List.exists_cons_of_ne_nil hne
  obtain ⟨y', B', rfl⟩ := List.exists_cons_of_ne_nil hne'
  have hlast : lastOf (y' :: B' ++ x :: R) = lastOf V := by
    rw [lastOf_append_cons, ← hR, lastOf_regap]
  have hsettled : Settled (y' :: B' ++ x :: R) := by
    rw [← hR]
    exact hjoins (h.settled.regap Trivia.isGap_space) (cuts_space h.ne_nil)
  refine ⟨by simp, ?_, hsettled, h.solid.congr hlast, ?_, ?_⟩
  · -- Both sides behind one more space are the signs with their gaps.
    have hall := hchars v.print
    rw [← h.written_eq, ← chars_space h.ne_nil, hR, ← List.flatMap_append, h.written_eq] at hall
    have hy' : y'.gap = space := hhead
    have hsame : AnySome.regap space (y' :: B' ++ x :: R) = y' :: B' ++ x :: R := by
      rw [List.cons_append, AnySome.regap, ← hy']
    rw [← hsame, chars_space (by simp), List.cons_eq_cons] at hall
    rw [print, ← String.toList_inj]
    exact hall.2
  · rw [hlast, h.last, lastOf_append_cons]
  · intro hfront z hz
    cases hz
    have hkind' : y'.kind = y.kind := hkind
    rw [hkind']
    exact hfront y rfl

/-- A single word with all its variants. -/
theorem respells_word {x : Sign} (hx : x.kind = .identifier) :
    Respells (n + 1) (.named x.text) [x] (.word x.text) := by
  intro Y hlex g u hu
  have hcanonical : Canonical [x] [x] (.named x.text) := .word hx hlex
  have hspells : ∀ m, Spells (m + 1) (.named x.text) [x] (.word x.text) := fun m =>
    .level (.word hx)
  rcases hu.named with rfl | ⟨rfl, k, rfl⟩
  · exact ⟨[x], hcanonical, (hspells (n + g)).le (by omega)⟩
  · have hstarts : StartsType [x] := by simp [StartsType, hx, startsType]
    exact ⟨_, hcanonical.qualified k, (hspells (n + 1)).qualified hcanonical hstarts k⟩

/-- A qualifier with its type. A variant keeps the qualifier or is a variant of the
type alone. -/
theorem Respells.qualified {x s : Sign} {q : Qualifier} {t : TypeExpr} {T : List Sign}
    {e : Ending} (h : Respells n t (s :: T) e) (hs : s.startsTypeHere = true) :
    Respells (n + 1) (.qualified q t) (x :: s :: T) e := by
  intro Y hlex g u hu
  obtain ⟨v, hv, hshapes⟩ := hu.qualified
  obtain ⟨V, hcanonical, hspells⟩ := h hlex.2 hv
  have hstarts : StartsType V := hcanonical.front fun y hy => by
    cases hy
    exact kind_of_startsTypeHere hs
  have hlast : lastOf (x :: s :: T) = lastOf (s :: T) :=
    lastOf_append (A := [x]) (List.cons_ne_nil s T)
  rcases hshapes with rfl | rfl
  · refine ⟨_, (hcanonical.qualified q).congr_last hlast ?_,
      (hspells.qualified hcanonical hstarts q).le (by omega)⟩
    rintro _ y hy
    cases hy
    rfl
  · exact ⟨V, hcanonical.congr_last hlast fun _ => hstarts, hspells.le (by omega)⟩

/-- A composition, which is kept as written. -/
theorem Members.respells (hS : ∀ {t T e}, I t T e → Spells n t T e)
    (hI : ∀ {t T e}, I t T e → Respells n t T e) {t : TypeExpr} {T Ms : List Sign}
    {e e' : Ending} (hchain : Chain I t T e) (hmembers : Members I Ms e') :
    Respells (n + 1) (.verbatim (Sign.written (T ++ Ms))) (T ++ Ms) e' := by
  intro Y hlex g u hu
  rw [hu.verbatim]
  have hne : Ms ≠ [] := by
    obtain ⟨x, R, rfl, -⟩ := hmembers.exists_cons
    simp
  have hsolid : SolidEnd (T ++ Ms) :=
    (hmembers.solid_last hS hI (Lexes.append_iff.mp hlex).2).congr (lastOf_append hne)
  have hsame : ∀ {t T e}, I t T e → Spells (n + g) t T e := fun h => (hS h).le (by omega)
  have hspells : Spells (n + g + 1) (.verbatim (Sign.written (T ++ Ms))) (T ++ Ms) e' :=
    .level (.composition (hchain.mono hsame) (hmembers.mono hsame))
  exact ⟨T ++ Ms, .verbatim hlex (by simp [hne]) fun z hz => (hsolid z hz).1,
    hspells.le (by omega)⟩

theorem Level.respells (hS : ∀ {t T e}, I t T e → Spells n t T e)
    (hI : ∀ {t T e}, I t T e → Respells n t T e) {t : TypeExpr} {T : List Sign} {e : Ending}
    (h : Level I t T e) : Respells (n + 1) t T e := by
  cases h with
  | word hx => exact respells_word hx
  | composition hchain hmembers => exact hmembers.respells hS hI hchain
  | qualified hx hq hs ht => exact (hI ht).qualified hs
  | plain hsuffixed hnamed =>
    intro Y hlex g u hu
    cases hsuffixed with
    | chain hchain => exact respells_of_outcome (hchain.canonical hS hI hlex hu) hnamed
    | function hl hes hr hfs ha ht =>
      obtain ⟨V, hcanonical, hV⟩ := function_canonical hS hI hes hfs ht hlex hu
      obtain ⟨fs, r, -, -, rfl⟩ := hu.function
      have hspells : Spells (n + g + 1) _ V e := .level (.plain hV rfl)
      exact ⟨V, hcanonical, hspells.le (by omega)⟩
  | attributed hrow hss ht hattr =>
    intro Y hlex g u hu
    obtain ⟨v, hv, rfl⟩ := hu.attributed
    rw [Lexes.append_iff] at hlex
    obtain ⟨V, hV, hspells⟩ := hI ht hlex.2 hv
    obtain ⟨x, R, Ss', hR, hrow', hcanonical⟩ := attributed_canonical hrow hss hlex.1 hV
    have hbehind := hspells.regap space
    rw [hR] at hbehind
    have hwhole : Spells (n + g + 1) (.attributed _ v) (Ss' ++ x :: R) e :=
      .level (.attributed hrow' hss hbehind (hv.isAttributed_eq hattr))
    exact ⟨_, hcanonical, hwhole.le (by omega)⟩

end

/-- Every variant of a type that is spelled somewhere has a canonical form that
spells it and can stand in its place. -/
theorem Spells.respells {n : Nat} {t : TypeExpr} {T : List Sign} {e : Ending}
    (h : Spells n t T e) : Respells n t T e := by
  induction n generalizing t T e with
  | zero => exact h.elim
  | succ n ih =>
    have hlevel : Level (Spells n) t T e := h
    exact hlevel.respells id ih

end AnySome.TypeExpr
