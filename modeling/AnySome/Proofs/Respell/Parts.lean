import AnySome.Proofs.Respell.Regap
import AnySome.Proofs.Respell.Variant
import AnySome.TypeExpr.Printer

/-!
# Parts of canonical forms

The canonical form of a type is put together from parts: arguments, elements,
effects, specifiers. A part is a list of signs with a given text that can
stand in front of anything that cuts. This module finds the parts for
everything in a type but its inner types, which are left to the caller.

## Main results

* `Listed.canonical` — lists with one comma and one space between the items.
* `Row.canonical_effects`, `Row.canonical_specifiers` — effects and
  specifiers with one space around them.
-/

namespace AnySome

/-- One space, as it stands in canonical forms. -/
def space : List Trivia := [.blank ' ']

/-- The sign of a punctuation kind, without a gap. -/
def Sign.mark (k : Kind) : Sign := ⟨[], k, String.singleton (punctuationChar k)⟩

theorem Sign.text_mark (k : Kind) : (Sign.mark k).text = String.singleton (punctuationChar k) := rfl

theorem Sign.chars_mark (k : Kind) : (Sign.mark k).chars = [punctuationChar k] := by
  simp [Sign.mark, Sign.chars]

theorem Settled.mark_cons {B : List Sign} {k : Kind} (hB : Settled B)
    (hk : Lexeme.punctuation? (punctuationChar k) = some k) : Settled (Sign.mark k :: B) :=
  hB.cons_firm Trivia.isGap_nil (firm_punctuation hk)

/-! ## Texts of signs -/

theorem written_append {A B : List Sign} (h : A ≠ []) :
    Sign.written (A ++ B) = Sign.written A ++ String.ofList (B.flatMap Sign.chars) := by
  cases A with
  | nil => contradiction
  | cons x A => simp [Sign.written, String.append_assoc]

theorem chars_space {T : List Sign} (h : T ≠ []) :
    (regap space T).flatMap Sign.chars = ' ' :: (Sign.written T).toList := by
  rw [chars_regap h]
  rfl

theorem cuts_space {T : List Sign} (h : T ≠ []) (Y : List Char) :
    Cuts ((regap space T).flatMap Sign.chars ++ Y) := by
  rw [chars_space h]
  exact .char rfl

theorem cuts_mark {B : List Sign} {k : Kind} (hk : isCut (punctuationChar k) = true)
    (Y : List Char) : Cuts ((Sign.mark k :: B).flatMap Sign.chars ++ Y) := by
  rw [List.flatMap_cons, Sign.chars_mark]
  exact .char hk

/-! ## Parts that can be joined -/

/-- The signs can stand in front of everything that cuts. -/
def Joins (T : List Sign) : Prop :=
  ∀ ⦃B : List Sign⦄, Settled B → (∀ Y, Cuts (B.flatMap Sign.chars ++ Y)) → Settled (T ++ B)

namespace Joins

variable {A B T : List Sign}

theorem nil : Joins [] := fun _ hB _ => hB

theorem of_solid (h : Settled T) (hsolid : SolidEnd T) : Joins T :=
  fun _ hB hcut => h.append hsolid hB hcut

theorem append (hA : Joins A) (hB : Joins B)
    (hcut : B = [] ∨ ∀ Y, Cuts (B.flatMap Sign.chars ++ Y)) : Joins (A ++ B) := by
  intro C hC hCcut
  rw [List.append_assoc]
  refine hA (hB hC hCcut) ?_
  intro Y
  rcases hcut with rfl | hcut
  · exact hCcut Y
  · rw [List.flatMap_append, List.append_assoc]
    exact hcut _

theorem mark_cons {k : Kind} (hB : Joins B)
    (hk : Lexeme.punctuation? (punctuationChar k) = some k) : Joins (Sign.mark k :: B) :=
  fun _ hC hcut => (hB hC hcut).mark_cons hk

theorem regap (h : Joins T) (hne : T ≠ []) {g : List Trivia} (hg : Trivia.IsGap g) :
    Joins (AnySome.regap g T) := by
  intro B hB hcut
  rw [← regap_append hne]
  exact (h hB hcut).regap hg

end Joins

/-- Signs with the given text that can be joined to others. -/
structure Part (T : List Sign) (text : String) : Prop where
  ne_nil : T ≠ []
  written_eq : Sign.written T = text
  joins : Joins T

theorem SolidEnd.of_lexes {T : List Sign} {Y : List Char} (h : Lexes T Y)
    (hk : ∀ z ∈ T.getLast?, isSolid z.kind = true) : SolidEnd T :=
  fun z hz => ⟨hk z hz, Y, h.readsLast z hz⟩

/-- Signs as they stand in a text, with a solid end, are a part. -/
theorem Part.of_lexes {T : List Sign} {Y : List Char} (h : Lexes T Y) (hne : T ≠ [])
    (hk : ∀ z ∈ T.getLast?, isSolid z.kind = true) : Part T (Sign.written T) :=
  have hsolid := SolidEnd.of_lexes h hk
  ⟨hne, rfl, .of_solid (.of_lexes h hsolid) hsolid⟩

theorem isSolid_of_isName {k : Kind} (h : k.isName = true) : isSolid k = true := by
  cases k with
  | identifier | keyword => rfl
  | _ => contradiction

theorem isSolid_of_isClosing {k : Kind} (h : k.isClosing = true) : isSolid k = true := by
  cases k with
  | closing => rfl
  | _ => contradiction

/-- A unit that is a type ends with a bracket, or is a number. -/
theorem Closes.isSolid_last {s : Sign} {T : List Sign} (h : Closes [] (s :: T))
    (hs : s.kind = .opening .square ∨ s.kind = .numericLiteral) :
    ∀ z ∈ (s :: T).getLast?, isSolid z.kind = true := by
  rcases hs with hs | hs
  · obtain ⟨z, hz, hk⟩ := h.lastOf_opening hs
    intro y hy
    rw [Option.mem_def.mp hz] at hy
    cases hy
    exact isSolid_of_isClosing hk
  · cases h with
    | last => simp [hs, isSolid]
    | more hnest hne =>
      rw [hs] at hnest
      cases hnest
      contradiction

namespace TypeExpr

/-! ## Lists -/

theorem Listed.regap {P : α → List Sign → Prop} {g : List Trivia}
    (hP : ∀ {a T}, P a T → P a (regap g T)) {as : List α} {T : List Sign} (h : Listed P as T) :
    Listed P as (regap g T) := by
  cases h with
  | nil => exact .nil
  | last ha => exact .last (hP ha)
  | @more a T Ts s as ha hs hrest =>
    cases T with
    | nil => exact .more (T := []) (s := ⟨g, s.kind, s.text⟩) ha hs hrest
    | cons x T => exact .more (hP ha) hs hrest

/-- A list in canonical form: one comma and one space between the items, and
no comma behind the last. -/
theorem Listed.canonical {P Q : α → List Sign → Prop} {R : α → α → Prop} {item : α → String}
    {list : List α → String} (hone : ∀ a, list [a] = item a)
    (hmore : ∀ a b as, list (a :: b :: as) = item a ++ ", " ++ list (b :: as))
    (hQ : ∀ ⦃a T g⦄, Q a T → Q a (AnySome.regap g T))
    (hitem : ∀ ⦃a b T Y⦄, P a T → Lexes T Y → R a b → ∃ T', Part T' (item b) ∧ Q b T')
    {as bs : List α} {Ts : List Sign} {Y : List Char} (h : Listed P as Ts) (hlex : Lexes Ts Y)
    (hR : List.Forall₂ R as bs) :
    bs = [] ∨ ∃ Ts', Part Ts' (list bs) ∧ Listed Q bs Ts' := by
  induction h generalizing bs Y with
  | nil =>
    cases hR
    exact .inl rfl
  | last ha =>
    obtain _ | ⟨hab, hnil⟩ := hR
    cases hnil
    obtain ⟨T', hpart, hq⟩ := hitem ha hlex hab
    exact .inr ⟨T', by rw [hone]; exact hpart, .last hq⟩
  | @more a T Ts s as ha hs _ ih =>
    obtain _ | ⟨hab, hrest⟩ := hR
    rw [Lexes.append_iff] at hlex
    obtain ⟨T', hpart, hq⟩ := hitem ha hlex.1 hab
    right
    rcases ih hlex.2.2 hrest with rfl | ⟨Ts', hparts, hqs⟩
    · exact ⟨T', by rw [hone]; exact hpart, .last hq⟩
    · rename_i b bs
      obtain ⟨c, cs, rfl⟩ : ∃ c cs, bs = c :: cs := by
        cases bs with
        | nil =>
          cases hqs
          exact absurd rfl hparts.ne_nil
        | cons c cs => exact ⟨c, cs, rfl⟩
      refine ⟨T' ++ Sign.mark .comma :: AnySome.regap space Ts', ⟨by simp, ?_, ?_⟩,
        .more hq rfl (Listed.regap (fun hq => hQ hq) hqs)⟩
      · rw [written_append hpart.ne_nil, hpart.written_eq, List.flatMap_cons, Sign.chars_mark,
          chars_space hparts.ne_nil, hparts.written_eq, hmore, String.append_assoc]
        congr 1
        rw [← String.toList_inj]
        simp [punctuationChar]
      · refine hpart.joins.append (.mark_cons (hparts.joins.regap hparts.ne_nil
          Trivia.isGap_space) rfl) (.inr ?_)
        exact cuts_mark rfl

/-! ## Effects -/

theorem Effect.ne_nil {f : String} {A : List Sign} {h : Sign} (he : Effect f A h) : A ≠ [] := by
  cases he <;> simp

theorem Effect.written_eq {f : String} {A : List Sign} {h : Sign} (he : Effect f A h) :
    Sign.written A = f := by
  cases he with
  | async _ _ htext => rw [Sign.written_singleton, htext]
  | throwing => exact Sign.written_singleton _
  | throwingTyped => rfl

theorem Effect.isSolid_last {f : String} {A : List Sign} {h : Sign} (he : Effect f A h) :
    ∀ z ∈ A.getLast?, isSolid z.kind = true := by
  cases he with
  | async _ hx _ => simp [hx, isSolid]
  | throwing _ hx => simp [hx, isSolid]
  | @throwingTyped x p _ P _ hx hp hP =>
    unfold Sign.opensAdjacentParen at hp
    rw [Bool.and_eq_true] at hp
    obtain ⟨z, hz, hk⟩ := hP.lastOf_opening (eq_of_beq hp.1)
    intro y hy
    rw [List.getLast?_cons, Option.mem_def.mp hz] at hy
    cases hy
    exact isSolid_of_isClosing hk

theorem Effect.part {f : String} {A : List Sign} {h : Sign} {Y : List Char} (he : Effect f A h)
    (hlex : Lexes A Y) : Part A f := by
  rw [← he.written_eq]
  exact .of_lexes hlex he.ne_nil he.isSolid_last

/-- An effect in front of another sign that opens no parenthesis. -/
theorem Effect.in_front {f : String} {A : List Sign} {h : Sign} (he : Effect f A h) {h' : Sign}
    (hh' : h'.opensAdjacentParen = false) : Effect f A h' := by
  cases he with
  | async hline hx htext => exact .async hline hx htext
  | throwing hline hx _ => exact .throwing hline hx hh'
  | throwingTyped hline hx hp hP => exact .throwingTyped hline hx hp hP

theorem toList_printEffects_cons (f : String) (fs : List String) :
    (printEffects (joinEffects (f :: fs))).toList =
      ' ' :: (f.toList ++ (printEffects (joinEffects fs)).toList) := by
  cases fs with
  | nil => simp [joinEffects, printEffects]
  | cons g fs => simp [joinEffects, printEffects, String.intercalate_cons_cons]

theorem opensAdjacentParen_of_space {s : Sign} (h : s.gap = space) :
    s.opensAdjacentParen = false := by
  simp [Sign.opensAdjacentParen, Sign.isSeparated, h, space]

theorem gap_headD_space {A : List Sign} (h : A ≠ []) (B : List Sign) (s : Sign) :
    ((regap space A ++ B).headD s).gap = space := by
  cases A with
  | nil => contradiction
  | cons x A => rfl

/-- Effects in canonical form: one space in front of each. -/
theorem Row.canonical_effects {a b : Sign} {fs : List String} {Fs : List Sign} {Y : List Char}
    (h : Row Effect a fs Fs) (hlex : Lexes Fs Y) (hb : b.opensAdjacentParen = false) :
    ∃ Fs', Row Effect b fs Fs' ∧ Joins Fs' ∧
      Fs'.flatMap Sign.chars = (printEffects (joinEffects fs)).toList ∧
      (Fs'.headD b).opensAdjacentParen = false ∧
      (Fs' = [] ∨ ∀ Y, Cuts (Fs'.flatMap Sign.chars ++ Y)) := by
  induction h generalizing Y with
  | nil => exact ⟨[], .nil, .nil, rfl, hb, .inl rfl⟩
  | @cons f fs A As he _ ih =>
    rw [Lexes.append_iff] at hlex
    obtain ⟨As', hrow, hjoins, hchars, hhead, hcut⟩ := ih hlex.2
    have hpart := he.part hlex.1
    have hchars' : (regap space A ++ As').flatMap Sign.chars =
        (printEffects (joinEffects (f :: fs))).toList := by
      rw [List.flatMap_append, chars_space hpart.ne_nil, hpart.written_eq, hchars,
        toList_printEffects_cons]
      rfl
    refine ⟨regap space A ++ As', .cons ?_ hrow,
      (hpart.joins.regap hpart.ne_nil Trivia.isGap_space).append hjoins hcut, hchars',
      opensAdjacentParen_of_space (gap_headD_space hpart.ne_nil _ _), .inr ?_⟩
    · exact (he.in_front hhead).regap rfl
    · intro Y
      rw [hchars', toList_printEffects_cons]
      exact .char rfl

/-! ## Specifiers -/

theorem Specifier.ne_nil {s : String} {A : List Sign} {h : Sign} (hs : Specifier s A h) :
    A ≠ [] := by
  cases hs <;> simp

theorem Specifier.written_eq {s : String} {A : List Sign} {h : Sign} (hs : Specifier s A h) :
    Sign.written A = s := by
  cases hs with
  | bare | applied => rfl
  | keyword | word => exact Sign.written_singleton _

theorem Specifier.isSolid_last {s : String} {A : List Sign} {h : Sign} (hs : Specifier s A h) :
    ∀ z ∈ A.getLast?, isSolid z.kind = true := by
  cases hs with
  | bare _ hx _ => simpa using isSolid_of_isName hx
  | @applied y x p _ P _ hx hp hP =>
    unfold Sign.opensAdjacentParen at hp
    rw [Bool.and_eq_true] at hp
    obtain ⟨z, hz, hk⟩ := hP.lastOf_opening (eq_of_beq hp.1)
    intro w hw
    rw [List.getLast?_cons, List.getLast?_cons, Option.mem_def.mp hz] at hw
    cases hw
    exact isSolid_of_isClosing hk
  | keyword hx => simp [hx, isSolid]
  | word hx _ _ => simp [hx, isSolid]

theorem Specifier.part {s : String} {A : List Sign} {h : Sign} {Y : List Char}
    (hs : Specifier s A h) (hlex : Lexes A Y) : Part A s := by
  rw [← hs.written_eq]
  exact .of_lexes hlex hs.ne_nil hs.isSolid_last

/-- A specifier in front of another sign that starts a type if the old one
does. -/
theorem Specifier.in_front {s : String} {A : List Sign} {h : Sign} (hs : Specifier s A h)
    {h' : Sign} (hgap : h'.gap = space)
    (hstarts : startsType h.kind = true → startsType h'.kind = true) : Specifier s A h' := by
  cases hs with
  | bare ha hx _ => exact .bare ha hx (opensAdjacentParen_of_space hgap)
  | applied ha hx hp hP => exact .applied ha hx hp hP
  | keyword hx => exact .keyword hx
  | word hx hmem hnext =>
    refine .word hx hmem ?_
    have hkind := hstarts (kind_of_startsTypeHere hnext)
    simp [Sign.startsTypeHere, Sign.onNewLine, hgap, space, Trivia.breaksLine, hkind]

/-- Specifiers in canonical form: one space in front of each, and one behind
the last, where `s'` stands. -/
theorem Row.canonical_specifiers {s s' : Sign} {ss : List String} {Ss : List Sign}
    {Y : List Char} (h : Row Specifier s ss Ss) (hlex : Lexes Ss Y) (hgap : s'.gap = space)
    (hstarts : startsType s.kind = true → startsType s'.kind = true) :
    ∃ Ss', Row Specifier s' ss Ss' ∧ Joins Ss' ∧
      (∀ text : String, Ss'.flatMap Sign.chars ++ ' ' :: text.toList =
        ' ' :: (printSpecifiers ss ++ text).toList) ∧
      (Ss'.headD s').gap = space ∧ (Ss'.headD s').kind = (Ss.headD s').kind := by
  induction h generalizing Y with
  | nil => exact ⟨[], .nil, .nil, by simp [printSpecifiers], hgap, rfl⟩
  | @cons f fs A As hs hrow ih =>
    rw [Lexes.append_iff] at hlex
    obtain ⟨As', hrow', hjoins, hchars, hhead, hkind⟩ := ih hlex.2
    have hpart := hs.part hlex.1
    have hnext : startsType (As.headD s).kind = true → startsType (As'.headD s').kind = true := by
      rw [hkind]
      cases As with
      | nil => exact hstarts
      | cons x As => exact id
    have hcut : As' = [] ∨ ∀ Y, Cuts (As'.flatMap Sign.chars ++ Y) := by
      cases As' with
      | nil => exact .inl rfl
      | cons x As' =>
        right
        intro Y
        have hx : x.gap = space := hhead
        rw [List.flatMap_cons, Sign.chars, hx]
        exact .char rfl
    refine ⟨regap space A ++ As', .cons ((hs.in_front hhead hnext).regap space) hrow',
      (hpart.joins.regap hpart.ne_nil Trivia.isGap_space).append hjoins hcut, ?_,
      gap_headD_space hpart.ne_nil _ _, ?_⟩
    · intro text
      rw [List.flatMap_append, List.append_assoc, hchars, chars_space hpart.ne_nil,
        hpart.written_eq, printSpecifiers]
      simp
    · obtain ⟨x, R, rfl⟩ := List.exists_cons_of_ne_nil hpart.ne_nil
      rfl

end TypeExpr

end AnySome
