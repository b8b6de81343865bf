import AnySome.Proofs.TypeGrammar.Basic

/-!
# What every spelling of a type looks like

A few facts that hold of the signs of every type, whatever it is: with what
it can start, that its first words are not a label, and that it closes every
bracket it opens and no other.

## Main results

* `Spells.shape` — the signs of a type have the shape of a type.
* `Balanced.of_closes` — a unit is balanced.
-/

namespace AnySome

/-! ## Balanced signs -/

/-- The kind of a bracket. -/
def isBracket : Kind → Bool
  | .opening _ | .closing _ => true
  | _ => false

theorem isBracket_of_isName {k : Kind} (h : k.isName = true) : isBracket k = false := by
  cases k with
  | identifier | keyword => rfl
  | _ => contradiction

/-- The brackets that are open behind the signs, if `o` are open in front. -/
def nestAll (o : List Bracket) : List Sign → Option (List Bracket)
  | [] => some o
  | s :: T => (nest o s.kind).bind fun o' => nestAll o' T

/-- The signs close what they open, and nothing else. -/
def Balanced (T : List Sign) : Prop := ∀ o, nestAll o T = some o

theorem nestAll_append (o : List Bracket) (T U : List Sign) :
    nestAll o (T ++ U) = (nestAll o T).bind fun o' => nestAll o' U := by
  induction T generalizing o with
  | nil => rfl
  | cons s T ih =>
    simp only [List.cons_append, nestAll]
    cases nest o s.kind with
    | none => rfl
    | some o' => exact ih o'

/-- What is open further out does not matter to a sign that closes nothing of
it. -/
theorem nest_append {o o' : List Bracket} {k : Kind} (h : nest o k = some o')
    (outer : List Bracket) : nest (o ++ outer) k = some (o' ++ outer) := by
  unfold nest at h ⊢
  split at h
  · cases h
    rfl
  · split at h
    · contradiction
    next expected rest =>
      simp only [List.cons_append]
      split at h
      next heq =>
        cases h
        rw [if_pos heq]
      · contradiction
  · cases h
    rfl

namespace Balanced

variable {T U : List Sign}

theorem nil : Balanced [] := fun _ => rfl

theorem append (hT : Balanced T) (hU : Balanced U) : Balanced (T ++ U) := by
  intro o
  rw [nestAll_append, hT o]
  exact hU o

/-- A sign that is no bracket. -/
theorem single {s : Sign} (h : isBracket s.kind = false) : Balanced [s] := by
  intro o
  have hnest : nest o s.kind = some o := by
    unfold nest
    split
    next hk => rw [hk] at h; contradiction
    next hk => rw [hk] at h; contradiction
    · rfl
  simp [nestAll, hnest]

theorem cons {s : Sign} (h : isBracket s.kind = false) (hT : Balanced T) : Balanced (s :: T) :=
  (single h).append hT

/-- Balanced signs in a pair of brackets. -/
theorem enclose {l r : Sign} {b : Bracket} (hl : l.kind = .opening b)
    (hr : r.kind = .closing b) (hT : Balanced T) : Balanced (l :: (T ++ [r])) := by
  intro o
  have hopen : nest o l.kind = some (b :: o) := by rw [hl]; rfl
  have hclose : nest (b :: o) r.kind = some o := by simp [hr, nest]
  rw [nestAll, hopen, Option.bind_some, nestAll_append, hT (b :: o)]
  simp [nestAll, hclose]

theorem nestAll_of_closes {o : List Bracket} (h : Closes o T) (outer : List Bracket) :
    nestAll (o ++ outer) T = some outer := by
  induction h with
  | last hnest => simp [nestAll, nest_append hnest outer]
  | more hnest _ _ ih =>
    rw [nestAll, nest_append hnest outer]
    exact ih

/-- A unit is balanced. -/
theorem of_closes (h : Closes [] T) : Balanced T := fun o => nestAll_of_closes h o

end Balanced

namespace TypeExpr

/-! ## Fronts -/

/-- Kinds of signs with which a type can start. -/
def isFront : Kind → Bool
  | .identifier | .opening .paren | .opening .square | .numericLiteral | .atSign
  | .keyword .inoutSpecifier => true
  | _ => false

/-- No colon follows the words at the front: they are not a label. -/
def Unlabelled : List Sign → Prop
  | [] => True
  | s :: T => if s.kind.isName then Unlabelled T else s.kind ≠ .colon

namespace Unlabelled

theorem cons_of_isName {s : Sign} {T : List Sign} (h : s.kind.isName = true)
    (hT : Unlabelled T) : Unlabelled (s :: T) := by
  rw [Unlabelled, if_pos h]
  exact hT

theorem cons_of_not {s : Sign} {T : List Sign} (h : s.kind.isName = false)
    (hs : s.kind ≠ .colon) : Unlabelled (s :: T) := by
  rw [Unlabelled, if_neg (by simp [h])]
  exact hs

end Unlabelled

/-- What the signs of every type look like. -/
structure Shape (T : List Sign) : Prop where
  front : ∃ x R, T = x :: R ∧ isFront x.kind = true
  unlabelled : Unlabelled T
  balanced : Balanced T

theorem Shape.ne_nil {T : List Sign} (h : Shape T) : T ≠ [] := by
  obtain ⟨x, R, rfl, -⟩ := h.front
  simp

/-- The front of a type without specifiers and qualifiers: a bracket, a number,
or a name that no type follows. -/
def PlainFront (T : List Sign) : Prop :=
  ∃ x R, T = x :: R ∧
    (x.kind = .opening .paren ∨ x.kind = .opening .square ∨ x.kind = .numericLiteral ∨
      (x.kind = .identifier ∧ ∀ y ∈ R.head?, startsType y.kind = false ∧
        y.kind.isName = false ∧ y.kind ≠ .colon))

namespace PlainFront

theorem isFront {T : List Sign} (h : PlainFront T) :
    ∃ x R, T = x :: R ∧ isFront x.kind = true := by
  obtain ⟨x, R, rfl, hx⟩ := h
  refine ⟨x, R, rfl, ?_⟩
  rcases hx with hx | hx | hx | ⟨hx, -⟩ <;> rw [hx] <;> rfl

theorem unlabelled {T : List Sign} (h : PlainFront T) : Unlabelled T := by
  obtain ⟨x, R, rfl, hx⟩ := h
  rcases hx with hx | hx | hx | ⟨hx, hR⟩
  · exact .cons_of_not (by rw [hx]; rfl) (by rw [hx]; simp)
  · exact .cons_of_not (by rw [hx]; rfl) (by rw [hx]; simp)
  · exact .cons_of_not (by rw [hx]; rfl) (by rw [hx]; simp)
  · refine .cons_of_isName (by rw [hx]; rfl) ?_
    cases R with
    | nil => trivial
    | cons y R =>
      obtain ⟨-, hname, hcolon⟩ := hR y rfl
      exact .cons_of_not hname hcolon

/-- Something that starts no type and is no name may follow. -/
theorem append {T U : List Sign} (h : PlainFront T)
    (hU : ∀ y ∈ U.head?, startsType y.kind = false ∧ y.kind.isName = false ∧
      y.kind ≠ .colon) : PlainFront (T ++ U) := by
  obtain ⟨x, R, rfl, hx⟩ := h
  refine ⟨x, R ++ U, rfl, ?_⟩
  rcases hx with hx | hx | hx | ⟨hx, hR⟩
  · exact .inl hx
  · exact .inr (.inl hx)
  · exact .inr (.inr (.inl hx))
  · refine .inr (.inr (.inr ⟨hx, ?_⟩))
    cases R with
    | nil => exact hU
    | cons y R => exact hR

end PlainFront

section

variable {I : TypeExpr → List Sign → Ending → Prop} (hI : ∀ {t T e}, I t T e → Shape T)

include hI

theorem Argument.balanced {t : TypeExpr} {T : List Sign} (h : Argument I t T) : Balanced T := by
  obtain ⟨e, he⟩ := h
  exact (hI he).balanced

theorem Item.balanced {x : Element TypeExpr} {T : List Sign} (h : Item I x T) :
    Balanced T := by
  cases h with
  | mk hlabel ht hdots =>
    refine .append ?_ (.append (hI ht).balanced ?_)
    · cases hlabel with
      | none => exact .nil
      | single hx hy => exact .cons (isBracket_of_isName hx) (.single (by rw [hy]; rfl))
      | double hx hy hz =>
        exact .cons (isBracket_of_isName hx) (.cons (isBracket_of_isName hy)
          (.single (by rw [hz]; rfl)))
    · cases hdots with
      | none => exact .nil
      | some hs => exact .single (by rw [hs]; rfl)

omit hI in
theorem Listed.balanced {P : α → List Sign → Prop} (hP : ∀ {a T}, P a T → Balanced T)
    {as : List α} {T : List Sign} (h : Listed P as T) : Balanced T := by
  induction h with
  | nil => exact .nil
  | last ha => exact hP ha
  | more ha hs _ ih => exact .append (hP ha) (.cons (by rw [hs]; rfl) ih)

omit hI in
theorem Row.balanced {P : α → List Sign → Sign → Prop} {h : Sign}
    (hP : ∀ {a T s}, P a T s → Balanced T) {as : List α} {T : List Sign} (hrow : Row P h as T) :
    Balanced T := by
  induction hrow with
  | nil => exact .nil
  | cons ha _ ih => exact .append (hP ha) ih

omit hI in
theorem Effect.balanced {a : String} {T : List Sign} {s : Sign} (h : Effect a T s) :
    Balanced T := by
  cases h with
  | async _ hx _ => exact .single (by rw [hx]; rfl)
  | throwing _ hx _ => exact .single (by rw [hx]; rfl)
  | throwingTyped _ hx _ hP => exact .cons (by rw [hx]; rfl) (.of_closes hP)

omit hI in
theorem Specifier.balanced {a : String} {T : List Sign} {s : Sign} (h : Specifier a T s) :
    Balanced T := by
  cases h with
  | bare ha hx _ => exact .cons (by rw [ha]; rfl) (.single (isBracket_of_isName hx))
  | applied ha hx _ hP =>
    exact .cons (by rw [ha]; rfl) (.cons (isBracket_of_isName hx) (.of_closes hP))
  | keyword hx => exact .single (by rw [hx]; rfl)
  | word hx _ _ => exact .single (by rw [hx]; rfl)

omit hI in
theorem kind_of_opensArguments {l : Sign} (h : l.opensArguments = true) :
    l.kind = .lessThan := by
  unfold Sign.opensArguments at h
  rw [Bool.and_eq_true] at h
  exact eq_of_beq h.1

/-- Generic arguments with their angle brackets. -/
theorem Listed.balanced_arguments {ts : List TypeExpr} {Ts : List Sign} {l g : Sign}
    (hl : l.opensArguments = true) (hts : Listed (Argument I) ts Ts)
    (hg : g.kind = .greaterThan) : Balanced (l :: (Ts ++ [g])) := by
  refine .cons (by rw [kind_of_opensArguments hl]; rfl) (.append ?_ (.single (by rw [hg]; rfl)))
  exact hts.balanced (Argument.balanced hI)

theorem Atom.plain {t : TypeExpr} {T : List Sign} {e : Ending} (h : Atom I t T e) :
    PlainFront T ∧ Balanced T := by
  cases h with
  | @named x hx =>
    refine ⟨⟨x, [], rfl, .inr (.inr (.inr ⟨hx, ?_⟩))⟩, .single (by rw [hx]; rfl)⟩
    intro y hy
    contradiction
  | @generic x l g ts Ts hx hl hts hg =>
    refine ⟨⟨x, _, rfl, .inr (.inr (.inr ⟨hx, ?_⟩))⟩,
      .cons (by rw [hx]; rfl) (Listed.balanced_arguments hI hl hts hg)⟩
    intro y hy
    cases hy
    rw [kind_of_opensArguments hl]
    exact ⟨rfl, rfl, by simp⟩
  | @tuple l r es Es hl hes hr =>
    exact ⟨⟨l, _, rfl, .inl hl⟩, .enclose hl hr (hes.balanced (Item.balanced hI))⟩
  | @unit s T hs hT =>
    refine ⟨⟨s, T, rfl, ?_⟩, .of_closes hT⟩
    rcases hs with hs | hs
    · exact .inr (.inl hs)
    · exact .inr (.inr (.inl hs))

theorem Chain.plain {t : TypeExpr} {T : List Sign} {e : Ending} (h : Chain I t T e) :
    PlainFront T ∧ Balanced T := by
  induction h with
  | atom ha => exact ha.plain hI
  | @member t T e d x _ hsep hd hx ih =>
    refine ⟨ih.1.append ?_, ih.2.append (.cons (by rw [hd]; rfl)
      (.single (isBracket_of_isName hx)))⟩
    intro y hy
    cases hy
    rw [hd]
    exact ⟨rfl, rfl, by simp⟩
  | @memberGeneric t T Ts ts e d x l g _ hsep hd hx hl hts hg ih =>
    refine ⟨ih.1.append ?_, ih.2.append (.cons (by rw [hd]; rfl)
      (.cons (isBracket_of_isName hx) (Listed.balanced_arguments hI hl hts hg)))⟩
    intro y hy
    cases hy
    rw [hd]
    exact ⟨rfl, rfl, by simp⟩
  | @optional t T e q _ hsep hq ih =>
    refine ⟨ih.1.append ?_, ih.2.append (.single (by rw [hq]; rfl))⟩
    intro y hy
    cases hy
    rw [hq]
    exact ⟨rfl, rfl, by simp⟩
  | @unwrapped t T e q _ hsep hq ih =>
    refine ⟨ih.1.append ?_, ih.2.append (.single (by rw [hq]; rfl))⟩
    intro y hy
    cases hy
    rw [hq]
    exact ⟨rfl, rfl, by simp⟩

omit hI in
/-- A chain that is a bare name is nothing but that name. -/
theorem Chain.eq_of_isNamed {t : TypeExpr} {T : List Sign} {e : Ending} (h : Chain I t T e)
    (ht : t.isNamed = true) :
    ∃ x, x.kind = .identifier ∧ t = .named x.text ∧ T = [x] ∧ e = .name := by
  cases h with
  | atom ha =>
    cases ha with
    | named hx => exact ⟨_, hx, rfl, rfl, rfl⟩
    | generic | tuple | unit => contradiction
  | member | memberGeneric | optional | unwrapped => contradiction

theorem Suffixed.plain {t : TypeExpr} {T : List Sign} {e : Ending} (h : Suffixed I t T e) :
    PlainFront T ∧ Balanced T := by
  cases h with
  | chain hc => exact hc.plain hI
  | @function l r a es Es Fs T fs t e hl hes hr hfs ha ht =>
    refine ⟨⟨l, _, rfl, .inl hl⟩, ?_⟩
    have hlist := Balanced.enclose hl hr (hes.balanced (Item.balanced hI))
    have hrest : Balanced (Fs ++ a :: T) :=
      (hfs.balanced Effect.balanced).append (.cons (by rw [ha]; rfl) (hI ht).balanced)
    simpa using hlist.append hrest

theorem Members.balanced {Ms : List Sign} {e : Ending} (h : Members I Ms e) : Balanced Ms := by
  induction h with
  | last hm ht => exact .cons (by rw [hm]; rfl) (ht.plain hI).2
  | more hm ht _ ih => exact .cons (by rw [hm]; rfl) ((ht.plain hI).2.append ih)

omit hI in
theorem Members.exists_cons {Ms : List Sign} {e : Ending} (h : Members I Ms e) :
    ∃ m R, Ms = m :: R ∧ m.kind = .ampersand := by
  cases h with
  | last hm _ => exact ⟨_, _, rfl, hm⟩
  | more hm _ _ => exact ⟨_, _, rfl, hm⟩

theorem composition_plain {t : TypeExpr} {T Ms : List Sign} {e e' : Ending}
    (hc : Chain I t T e) (hm : Members I Ms e') : PlainFront (T ++ Ms) := by
  refine (hc.plain hI).1.append ?_
  obtain ⟨m, R, rfl, hk⟩ := hm.exists_cons
  intro y hy
  cases hy
  rw [hk]
  exact ⟨rfl, rfl, by simp⟩

omit hI in
theorem kind_of_startsTypeHere {s : Sign} (h : s.startsTypeHere = true) :
    startsType s.kind = true := by
  unfold Sign.startsTypeHere at h
  rw [Bool.and_eq_true] at h
  exact h.2

omit hI in
/-- Specifiers in front of a type. -/
theorem Row.shape_specifiers {s : Sign} {ss : List String} {Ss T : List Sign}
    (h : Row Specifier s ss Ss) (hT : Shape (s :: T)) : Shape (Ss ++ s :: T) := by
  induction h with
  | nil => exact hT
  | @cons a as A As ha _ ih =>
    rw [List.append_assoc]
    refine ⟨?_, ?_, ha.balanced.append ih.balanced⟩
    · cases ha with
      | bare ha => exact ⟨_, _, rfl, by rw [ha]; rfl⟩
      | applied ha => exact ⟨_, _, rfl, by rw [ha]; rfl⟩
      | keyword hx => exact ⟨_, _, rfl, by rw [hx]; rfl⟩
      | word hx => exact ⟨_, _, rfl, by rw [hx]; rfl⟩
    · cases ha with
      | bare ha => exact .cons_of_not (by rw [ha]; rfl) (by rw [ha]; simp)
      | applied ha => exact .cons_of_not (by rw [ha]; rfl) (by rw [ha]; simp)
      | keyword hx => exact .cons_of_isName (by rw [hx]; rfl) ih.unlabelled
      | word hx => exact .cons_of_isName (by rw [hx]; rfl) ih.unlabelled

theorem Level.shape {t : TypeExpr} {T : List Sign} {e : Ending} (h : Level I t T e) :
    Shape T := by
  cases h with
  | @word x hx =>
    exact ⟨⟨x, [], rfl, by rw [hx]; rfl⟩, .cons_of_isName (by rw [hx]; rfl) trivial,
      .single (by rw [hx]; rfl)⟩
  | plain hs _ =>
    obtain ⟨hfront, hbalanced⟩ := hs.plain hI
    exact ⟨hfront.isFront, hfront.unlabelled, hbalanced⟩
  | composition hc hm =>
    have hfront := composition_plain hI hc hm
    exact ⟨hfront.isFront, hfront.unlabelled, (hc.plain hI).2.append (hm.balanced hI)⟩
  | @qualified x s q t T e hx hq hs ht =>
    exact ⟨⟨x, _, rfl, by rw [hx]; rfl⟩,
      .cons_of_isName (by rw [hx]; rfl) (hI ht).unlabelled,
      .cons (by rw [hx]; rfl) (hI ht).balanced⟩
  | attributed hss _ ht _ => exact hss.shape_specifiers (hI ht)

end

/-- The signs of a type have the shape of a type. -/
theorem Spells.shape {n : Nat} {t : TypeExpr} {T : List Sign} {e : Ending}
    (h : Spells n t T e) : Shape T :=
  h.level_induction (P := fun _ T _ => Shape T) fun hlevel => hlevel.shape id

end TypeExpr

end AnySome
