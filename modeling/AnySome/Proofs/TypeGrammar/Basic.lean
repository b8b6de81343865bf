import AnySome.Proofs.Run.Retrace

/-!
# A grammar of types

Which signs spell which type. The rules follow the layers in which types are
read: atoms, chains of suffixes, functions and compositions, and what may
stand in front. Every rule takes the relation `I` for the types inside a type
as a parameter; `Spells n` puts the rules of a whole level into each other, at
most `n` times.

Where a type ends depends on the sign behind it. A name takes arguments that
follow directly, a tuple takes effects and an arrow, and a bare word such as
`any` is a qualifier if a type follows it. So a spelling has an `Ending`, and
`Ending.Stops` says which signs may stand behind a type with that ending.

## Main results

* `Spells.level_induction` — what the rules keep holds of every spelling.
* `Spells.le` — the levels of a spelling are an upper bound.
* `Ending.stops_of_kind` — separators and closing signs may stand behind any
  type.
-/

namespace AnySome

/-! ## Signs around types -/

namespace Sign

/-- The sign continues a type in front of it: a member, `?` or `!`. -/
def isSuffix (s : Sign) : Bool :=
  !s.isSeparated && (s.kind == .dot || s.kind == .question || s.kind == .exclamation)

/-- The sign opens generic arguments directly behind a name. -/
def opensArguments (s : Sign) : Bool := s.kind == .lessThan && !s.isSeparated

/-- The sign opens a parenthesis directly behind a name. -/
def opensAdjacentParen (s : Sign) : Bool := s.kind == .opening .paren && !s.isSeparated

/-- The sign is an effect on the line of the parameters. -/
def isEffect (s : Sign) : Bool :=
  !s.onNewLine &&
    ((s.kind == .identifier && s.text == "async") || s.kind == .keyword .throwsEffect)

/-- The sign starts a type on the line of the word in front of it. -/
def startsTypeHere (s : Sign) : Bool := !s.onNewLine && TypeExpr.startsType s.kind

end Sign

namespace TypeExpr

/-! ## Endings -/

/-- What the sign behind a type must not be, told by how the type ends. -/
inductive Ending where
  /-- The type is a single word, which may want a type behind it. -/
  | word (text : String)
  /-- A name, which takes arguments. -/
  | name
  /-- A tuple, which takes effects and an arrow. -/
  | tuple
  /-- Something complete. -/
  | closed
deriving DecidableEq, Repr

/-- Words that belong to a type behind them on their line. -/
def takesType (word : String) : Bool :=
  specifierWords.contains word || (Qualifier.ofKeyword? word).isSome

namespace Ending

/-- The sign does not belong to the last part of a type with this ending. -/
def Allows (s : Sign) : Ending → Prop
  | .word w => s.opensArguments = false ∧ (takesType w = true → s.startsTypeHere = false)
  | .name => s.opensArguments = false
  | .tuple => s.isEffect = false ∧ s.kind ≠ .arrow
  | .closed => True

/-- The sign continues neither the type nor its last part. -/
structure Rests (e : Ending) (s : Sign) : Prop where
  suffix : s.isSuffix = false
  allows : e.Allows s

/-- The sign may stand behind a type with this ending. -/
structure Stops (e : Ending) (s : Sign) : Prop extends e.Rests s where
  ampersand : s.kind ≠ .ampersand

/-- Kinds of signs that may stand behind any type. -/
def isStop : Kind → Bool
  | .comma | .greaterThan | .closing _ | .ellipsis => true
  | _ => false

/-- Kinds of signs that belong to no last part of a type. -/
def isFree : Kind → Bool
  | .dot | .question | .exclamation | .ampersand => true
  | k => isStop k

theorem allows_of_isFree (e : Ending) {s : Sign} (h : isFree s.kind = true) : e.Allows s := by
  have hargs : s.opensArguments = false := by
    unfold Sign.opensArguments
    cases hk : s.kind <;> simp_all [isFree, isStop]
  cases e with
  | word w =>
    refine ⟨hargs, fun _ => ?_⟩
    unfold Sign.startsTypeHere
    cases hk : s.kind <;> simp_all [isFree, isStop, startsType]
  | name => exact hargs
  | tuple =>
    constructor
    · unfold Sign.isEffect
      cases hk : s.kind <;> simp_all [isFree, isStop]
    · intro hk
      simp [hk, isFree, isStop] at h
  | closed => trivial

/-- Separators and closing signs may stand behind any type. -/
theorem stops_of_kind (e : Ending) {s : Sign} (h : isStop s.kind = true) : e.Stops s := by
  refine ⟨⟨?_, e.allows_of_isFree ?_⟩, ?_⟩
  · unfold Sign.isSuffix
    cases hk : s.kind <;> simp_all [isStop]
  · unfold isFree
    split <;> simp_all
  · intro hk
    simp [hk, isStop] at h

end Ending

/-! ## Lists, labels and effects -/

/-- Items with commas between them, and perhaps one behind the last. -/
inductive Listed (P : α → List Sign → Prop) : List α → List Sign → Prop where
  | nil : Listed P [] []
  | last {a : α} {T : List Sign} : P a T → Listed P [a] T
  | more {a : α} {T Ts : List Sign} {s : Sign} {as : List α} :
      P a T → s.kind = .comma → Listed P as Ts → Listed P (a :: as) (T ++ s :: Ts)

theorem Listed.mono {P Q : α → List Sign → Prop} (hPQ : ∀ {a T}, P a T → Q a T) {as : List α}
    {T : List Sign} (h : Listed P as T) : Listed Q as T := by
  induction h with
  | nil => exact .nil
  | last ha => exact .last (hPQ ha)
  | more ha hs _ ih => exact .more (hPQ ha) hs ih

/-- A label with its colon, or nothing. -/
inductive Label : Option String → List Sign → Prop where
  | none : Label none []
  | single {x y : Sign} : x.kind.isName = true → y.kind = .colon → Label (some x.text) [x, y]
  | double {x y z : Sign} : x.kind.isName = true → y.kind.isName = true → z.kind = .colon →
      Label (some (Sign.written [x, y])) [x, y, z]

/-- The dots of a variadic element, or nothing. -/
inductive Dots : Bool → List Sign → Prop where
  | none : Dots false []
  | some {s : Sign} : s.kind = .ellipsis → Dots true [s]

/-- Items one after the other, each in front of the next and the last in front
of the sign `h`. -/
inductive Row (P : α → List Sign → Sign → Prop) (h : Sign) : List α → List Sign → Prop where
  | nil : Row P h [] []
  | cons {a : α} {as : List α} {A As : List Sign} : P a A (As.headD h) → Row P h as As →
      Row P h (a :: as) (A ++ As)

/-- An effect in front of the sign `h`. -/
inductive Effect : String → List Sign → Sign → Prop where
  | async {x h : Sign} : x.onNewLine = false → x.kind = .identifier → x.text = "async" →
      Effect "async" [x] h
  | throwing {x h : Sign} : x.onNewLine = false → x.kind = .keyword .throwsEffect →
      h.opensAdjacentParen = false → Effect x.text [x] h
  | throwingTyped {x p h : Sign} {P : List Sign} : x.onNewLine = false →
      x.kind = .keyword .throwsEffect → p.opensAdjacentParen = true → Closes [] (p :: P) →
      Effect (Sign.written (x :: p :: P)) (x :: p :: P) h

/-- Several effects as the one text that a function type keeps. -/
def joinEffects : List String → Option String
  | [] => none
  | f :: fs => some (String.intercalate " " (f :: fs))

/-- An attribute or a specifier in front of the sign `h`. -/
inductive Specifier : String → List Sign → Sign → Prop where
  | bare {a x h : Sign} : a.kind = .atSign → x.kind.isName = true →
      h.opensAdjacentParen = false → Specifier (Sign.written [a, x]) [a, x] h
  | applied {a x p h : Sign} {P : List Sign} : a.kind = .atSign →
      x.kind.isName = true → p.opensAdjacentParen = true → Closes [] (p :: P) →
      Specifier (Sign.written (a :: x :: p :: P)) (a :: x :: p :: P) h
  | keyword {x h : Sign} : x.kind = .keyword .inoutSpecifier → Specifier x.text [x] h
  | word {x h : Sign} : x.kind = .identifier → specifierWords.contains x.text = true →
      h.startsTypeHere = true → Specifier x.text [x] h

/-! ## Types -/

/-- The outermost layer is a list of specifiers. -/
def isAttributed : TypeExpr → Bool
  | .attributed _ _ => true
  | _ => false

/-- The type is a bare name. -/
def isNamed : TypeExpr → Bool
  | .named _ => true
  | _ => false

section Rules

variable (I : TypeExpr → List Sign → Ending → Prop)

/-- A generic argument. -/
def Argument (t : TypeExpr) (T : List Sign) : Prop := ∃ e, I t T e

/-- A tuple element or a parameter. -/
inductive Item : Element TypeExpr → List Sign → Prop where
  | mk {label : Option String} {variadic : Bool} {t : TypeExpr} {L T D : List Sign}
      {e : Ending} : Label label L → I t T e → Dots variadic D →
      Item ⟨label, t, variadic⟩ (L ++ (T ++ D))

/-- A type without suffixes that is no function. -/
inductive Atom : TypeExpr → List Sign → Ending → Prop where
  | named {x : Sign} : x.kind = .identifier → Atom (.named x.text) [x] .name
  | generic {x l g : Sign} {ts : List TypeExpr} {Ts : List Sign} : x.kind = .identifier →
      l.opensArguments = true → Listed (Argument I) ts Ts → g.kind = .greaterThan →
      Atom (.generic x.text ts) (x :: l :: (Ts ++ [g])) .closed
  | tuple {l r : Sign} {es : List (Element TypeExpr)} {Es : List Sign} :
      l.kind = .opening .paren → Listed (Item I) es Es → r.kind = .closing .paren →
      Atom (.tuple es) (l :: (Es ++ [r])) .tuple
  | unit {s : Sign} {T : List Sign} : s.kind = .opening .square ∨ s.kind = .numericLiteral →
      Closes [] (s :: T) → Atom (.verbatim (Sign.written (s :: T))) (s :: T) .closed

/-- An atom with its suffixes. -/
inductive Chain : TypeExpr → List Sign → Ending → Prop where
  | atom {t : TypeExpr} {T : List Sign} {e : Ending} : Atom I t T e → Chain t T e
  | member {t : TypeExpr} {T : List Sign} {e : Ending} {d x : Sign} : Chain t T e →
      d.isSeparated = false → d.kind = .dot → x.kind.isName = true →
      Chain (.verbatim (Sign.written (T ++ [d, x]))) (T ++ [d, x]) .name
  | memberGeneric {t : TypeExpr} {T Ts : List Sign} {ts : List TypeExpr} {e : Ending}
      {d x l g : Sign} : Chain t T e → d.isSeparated = false → d.kind = .dot →
      x.kind.isName = true → l.opensArguments = true → Listed (Argument I) ts Ts →
      g.kind = .greaterThan →
      Chain (.verbatim (Sign.written (T ++ d :: x :: l :: (Ts ++ [g]))))
        (T ++ d :: x :: l :: (Ts ++ [g])) .closed
  | optional {t : TypeExpr} {T : List Sign} {e : Ending} {q : Sign} : Chain t T e →
      q.isSeparated = false → q.kind = .question → Chain (.optional t) (T ++ [q]) .closed
  | unwrapped {t : TypeExpr} {T : List Sign} {e : Ending} {q : Sign} : Chain t T e →
      q.isSeparated = false → q.kind = .exclamation →
      Chain (.verbatim (Sign.written (T ++ [q]))) (T ++ [q]) .closed

/-- A chain or a function. -/
inductive Suffixed : TypeExpr → List Sign → Ending → Prop where
  | chain {t : TypeExpr} {T : List Sign} {e : Ending} : Chain I t T e → Suffixed t T e
  | function {l r a : Sign} {es : List (Element TypeExpr)} {Es Fs T : List Sign}
      {fs : List String} {t : TypeExpr} {e : Ending} : l.kind = .opening .paren →
      Listed (Item I) es Es → r.kind = .closing .paren → Row Effect a fs Fs →
      a.kind = .arrow → I t T e →
      Suffixed (.function es (joinEffects fs) t) (l :: (Es ++ r :: (Fs ++ a :: T))) e

/-- The members of a composition behind the first. -/
inductive Members : List Sign → Ending → Prop where
  | last {m : Sign} {t : TypeExpr} {T : List Sign} {e : Ending} : m.kind = .ampersand →
      Suffixed I t T e → Members (m :: T) e
  | more {m : Sign} {t : TypeExpr} {T Ms : List Sign} {e e' : Ending} : m.kind = .ampersand →
      Chain I t T e → Members Ms e' → Members (m :: (T ++ Ms)) e'

/-- A whole type whose inner types are spelled by `I`. -/
inductive Level : TypeExpr → List Sign → Ending → Prop where
  | word {x : Sign} : x.kind = .identifier → Level (.named x.text) [x] (.word x.text)
  | plain {t : TypeExpr} {T : List Sign} {e : Ending} : Suffixed I t T e →
      t.isNamed = false → Level t T e
  | composition {t : TypeExpr} {T Ms : List Sign} {e e' : Ending} : Chain I t T e →
      Members I Ms e' → Level (.verbatim (Sign.written (T ++ Ms))) (T ++ Ms) e'
  | qualified {x s : Sign} {q : Qualifier} {t : TypeExpr} {T : List Sign} {e : Ending} :
      x.kind = .identifier → x.text = q.keyword → s.startsTypeHere = true →
      I t (s :: T) e → Level (.qualified q t) (x :: s :: T) e
  | attributed {s : Sign} {ss : List String} {Ss T : List Sign} {t : TypeExpr} {e : Ending} :
      Row Specifier s ss Ss → ss ≠ [] → I t (s :: T) e → t.isAttributed = false →
      Level (.attributed ss t) (Ss ++ s :: T) e

end Rules

section Mono

variable {I J : TypeExpr → List Sign → Ending → Prop}

theorem Argument.mono (h : ∀ {t T e}, I t T e → J t T e) {t : TypeExpr} {T : List Sign}
    (ht : Argument I t T) : Argument J t T := by
  obtain ⟨e, he⟩ := ht
  exact ⟨e, h he⟩

theorem Item.mono (h : ∀ {t T e}, I t T e → J t T e) {x : Element TypeExpr} {T : List Sign}
    (hx : Item I x T) : Item J x T := by
  cases hx with
  | mk hl ht hd => exact .mk hl (h ht) hd

theorem Atom.mono (h : ∀ {t T e}, I t T e → J t T e) {t : TypeExpr} {T : List Sign} {e : Ending}
    (ht : Atom I t T e) : Atom J t T e := by
  cases ht with
  | named hx => exact .named hx
  | generic hx hl hts hg => exact .generic hx hl (hts.mono (Argument.mono h)) hg
  | tuple hl hes hr => exact .tuple hl (hes.mono (Item.mono h)) hr
  | unit hs hT => exact .unit hs hT

theorem Chain.mono (h : ∀ {t T e}, I t T e → J t T e) {t : TypeExpr} {T : List Sign}
    {e : Ending} (ht : Chain I t T e) : Chain J t T e := by
  induction ht with
  | atom ha => exact .atom (ha.mono h)
  | member _ hsep hd hx ih => exact .member ih hsep hd hx
  | memberGeneric _ hsep hd hx hl hts hg ih =>
    exact .memberGeneric ih hsep hd hx hl (hts.mono (Argument.mono h)) hg
  | optional _ hsep hq ih => exact .optional ih hsep hq
  | unwrapped _ hsep hq ih => exact .unwrapped ih hsep hq

theorem Suffixed.mono (h : ∀ {t T e}, I t T e → J t T e) {t : TypeExpr} {T : List Sign}
    {e : Ending} (ht : Suffixed I t T e) : Suffixed J t T e := by
  cases ht with
  | chain hc => exact .chain (hc.mono h)
  | function hl hes hr hfs ha hres =>
    exact .function hl (hes.mono (Item.mono h)) hr hfs ha (h hres)

theorem Members.mono (h : ∀ {t T e}, I t T e → J t T e) {Ms : List Sign} {e : Ending}
    (hMs : Members I Ms e) : Members J Ms e := by
  induction hMs with
  | last hm ht => exact .last hm (ht.mono h)
  | more hm ht _ ih => exact .more hm (ht.mono h) ih

theorem Level.mono (h : ∀ {t T e}, I t T e → J t T e) {t : TypeExpr} {T : List Sign}
    {e : Ending} (ht : Level I t T e) : Level J t T e := by
  cases ht with
  | word hx => exact .word hx
  | plain hs hn => exact .plain (hs.mono h) hn
  | composition hc hm => exact .composition (hc.mono h) (hm.mono h)
  | qualified hx hq hs hi => exact .qualified hx hq hs (h hi)
  | attributed hss hne hi ha => exact .attributed hss hne (h hi) ha

end Mono

/-- The signs spell the type, with the given ending and with at most `n` levels
of types inside types. -/
def Spells : Nat → TypeExpr → List Sign → Ending → Prop
  | 0 => fun _ _ _ => False
  | n + 1 => Level (Spells n)

namespace Spells

variable {n m : Nat} {t : TypeExpr} {T : List Sign} {e : Ending}

/-- What the rules build from spellings is a spelling of one more level. -/
theorem level (h : Level (Spells n) t T e) : Spells (n + 1) t T e := h

/-- Every spelling is built by a rule from spellings of one level less. -/
theorem exists_level (h : Spells n t T e) : ∃ m, n = m + 1 ∧ Level (Spells m) t T e := by
  cases n with
  | zero => exact h.elim
  | succ m => exact ⟨m, rfl, h⟩

/-- What the rules keep holds of every spelling. -/
theorem level_induction {P : TypeExpr → List Sign → Ending → Prop}
    (hP : ∀ {t T e}, Level P t T e → P t T e) (h : Spells n t T e) : P t T e := by
  induction n generalizing t T e with
  | zero => exact h.elim
  | succ n ih =>
    have hlevel : Level (Spells n) t T e := h
    exact hP (hlevel.mono ih)

/-- More levels may be allowed than there are. -/
theorem le (h : Spells n t T e) (hn : n ≤ m) : Spells m t T e := by
  induction n generalizing m t T e with
  | zero => exact h.elim
  | succ n ih =>
    obtain ⟨m, rfl⟩ : ∃ k, m = k + 1 := ⟨m - 1, by omega⟩
    have hlevel : Level (Spells n) t T e := h
    exact hlevel.mono fun h' => ih h' (by omega)

end Spells

end TypeExpr

end AnySome
