import AnySome.Proofs.Lexical.Settled
import AnySome.Proofs.TypeGrammar.Shape

/-!
# The gap in front of a type does not matter to its spelling

What a type is, and how it ends, is decided by its signs and the gaps between
them. So its signs spell the same type behind any other gap.

## Main results

* `Chain.regap`, `Spells.regap` — chains and types behind another gap.
-/

namespace AnySome

theorem Closes.regap {o : List Bracket} {T : List Sign} (h : Closes o T) (g : List Trivia) :
    Closes o (regap g T) := by
  cases h with
  | last hnest => exact .last hnest
  | more hnest hne hT => exact .more hnest hne hT

/-- Between a bracket and the one that closes it nothing else is last. -/
theorem Closes.lastOf {o : List Bracket} {T : List Sign} (h : Closes o T) (ho : o ≠ []) :
    ∃ z ∈ T.getLast?, z.kind.isClosing = true := by
  induction h with
  | @last o s hnest =>
    refine ⟨s, rfl, ?_⟩
    unfold nest at hnest
    split at hnest
    · cases hnest
    next hk =>
      rw [hk]
      rfl
    · cases hnest
      contradiction
  | @more o o' s T _ ho' hT ih =>
    obtain ⟨z, hz, hk⟩ := ih ho'
    refine ⟨z, ?_, hk⟩
    rw [List.getLast?_cons, Option.mem_def.mp hz]
    rfl

/-- A unit that a bracket opens ends with one that closes. -/
theorem Closes.lastOf_opening {p : Sign} {T : List Sign} {b : Bracket} (h : Closes [] (p :: T))
    (hp : p.kind = .opening b) : ∃ z ∈ (p :: T).getLast?, z.kind.isClosing = true := by
  cases h with
  | last hnest =>
    rw [hp] at hnest
    cases hnest
  | more hnest hne hT =>
    rw [hp] at hnest
    cases hnest
    obtain ⟨z, hz, hk⟩ := hT.lastOf hne
    refine ⟨z, ?_, hk⟩
    rw [List.getLast?_cons, Option.mem_def.mp hz]
    rfl

namespace TypeExpr

theorem Effect.regap {a : String} {T : List Sign} {h : Sign} (he : Effect a T h)
    {g : List Trivia} (hg : g.any Trivia.breaksLine = false) : Effect a (regap g T) h := by
  cases he with
  | @async x _ _ hx htext => exact .async (x := ⟨g, x.kind, x.text⟩) hg hx htext
  | @throwing x _ _ hx hopen => exact .throwing (x := ⟨g, x.kind, x.text⟩) hg hx hopen
  | @throwingTyped x p _ P _ hx hp hP =>
    exact .throwingTyped (x := ⟨g, x.kind, x.text⟩) hg hx hp hP

theorem Specifier.regap {a : String} {T : List Sign} {h : Sign} (hs : Specifier a T h)
    (g : List Trivia) : Specifier a (regap g T) h := by
  cases hs with
  | @bare y x _ ha hx hopen => exact .bare (a := ⟨g, y.kind, y.text⟩) ha hx hopen
  | @applied y x p _ P ha hx hp hP =>
    exact .applied (a := ⟨g, y.kind, y.text⟩) ha hx hp hP
  | keyword hx => exact .keyword (x := ⟨g, _, _⟩) hx
  | word hx hmem hnext => exact .word (x := ⟨g, _, _⟩) hx hmem hnext

section

variable {I : TypeExpr → List Sign → Ending → Prop} {t : TypeExpr} {T : List Sign} {e : Ending}

theorem Atom.regap (h : Atom I t T e) (g : List Trivia) : Atom I t (regap g T) e := by
  cases h with
  | named hx => exact .named (x := ⟨g, _, _⟩) hx
  | generic hx hl hts hg => exact .generic (x := ⟨g, _, _⟩) hx hl hts hg
  | tuple hl hes hr => exact .tuple hl hes hr
  | @unit s T hs hT => exact .unit (s := ⟨g, s.kind, s.text⟩) hs (hT.regap g)

theorem Chain.regap (hI : ∀ {t T e}, I t T e → Shape T) (h : Chain I t T e) (g : List Trivia) :
    Chain I t (regap g T) e := by
  have hne : ∀ {t : TypeExpr} {T : List Sign} {e : Ending}, Chain I t T e → T ≠ [] := by
    intro t T e h
    obtain ⟨x, R, rfl, -⟩ := (h.plain hI).1
    simp
  induction h with
  | atom ha => exact .atom (ha.regap g)
  | @member t T e d x hchain hsep hd hx ih =>
    have hwritten : Sign.written (T ++ [d, x]) = Sign.written (AnySome.regap g T ++ [d, x]) := by
      rw [← regap_append (hne hchain), written_regap]
    rw [regap_append (hne hchain), hwritten]
    exact .member ih hsep hd hx
  | @memberGeneric t T Ts ts e d x l r hchain hsep hd hx hl hts hr ih =>
    have hwritten : Sign.written (T ++ d :: x :: l :: (Ts ++ [r])) =
        Sign.written (AnySome.regap g T ++ d :: x :: l :: (Ts ++ [r])) := by
      rw [← regap_append (hne hchain), written_regap]
    rw [regap_append (hne hchain), hwritten]
    exact .memberGeneric ih hsep hd hx hl hts hr
  | @optional t T e q hchain hsep hq ih =>
    rw [regap_append (hne hchain)]
    exact .optional ih hsep hq
  | @unwrapped t T e q hchain hsep hq ih =>
    have hwritten : Sign.written (T ++ [q]) = Sign.written (AnySome.regap g T ++ [q]) := by
      rw [← regap_append (hne hchain), written_regap]
    rw [regap_append (hne hchain), hwritten]
    exact .unwrapped ih hsep hq

theorem Suffixed.regap (hI : ∀ {t T e}, I t T e → Shape T) (h : Suffixed I t T e)
    (g : List Trivia) : Suffixed I t (regap g T) e := by
  cases h with
  | chain hchain => exact .chain (hchain.regap hI g)
  | function hl hes hr hfs ha ht => exact .function hl hes hr hfs ha ht

theorem Row.regap_specifiers {h : Sign} {ss : List String} {Ss : List Sign}
    (hrow : Row Specifier h ss Ss) (g : List Trivia) : Row Specifier h ss (regap g Ss) := by
  cases hrow with
  | nil => exact .nil
  | @cons s ss A As hs hrow =>
    have hne : A ≠ [] := by cases hs <;> simp
    rw [regap_append hne]
    exact .cons (hs.regap g) hrow

theorem Level.regap (hI : ∀ {t T e}, I t T e → Shape T) (h : Level I t T e) (g : List Trivia) :
    Level I t (regap g T) e := by
  cases h with
  | word hx => exact .word (x := ⟨g, _, _⟩) hx
  | plain hs hn => exact .plain (hs.regap hI g) hn
  | @composition t T Ms e e' hchain hmembers =>
    have hne : T ≠ [] := by
      obtain ⟨x, R, rfl, -⟩ := (hchain.plain hI).1
      simp
    have hwritten : Sign.written (T ++ Ms) = Sign.written (AnySome.regap g T ++ Ms) := by
      rw [← regap_append hne, written_regap]
    rw [regap_append hne, hwritten]
    exact .composition (hchain.regap hI g) hmembers
  | qualified hx hq hs ht => exact .qualified (x := ⟨g, _, _⟩) hx hq hs ht
  | @attributed s ss Ss T t e hrow hss ht hattr =>
    have hne : Ss ≠ [] := by
      cases hrow with
      | nil => contradiction
      | cons hs _ => cases hs <;> simp
    rw [regap_append hne]
    exact .attributed (hrow.regap_specifiers g) hss ht hattr

end

theorem Spells.regap {n : Nat} {t : TypeExpr} {T : List Sign} {e : Ending} (h : Spells n t T e)
    (g : List Trivia) : Spells n t (regap g T) e := by
  obtain ⟨m, rfl, hlevel⟩ := h.exists_level
  exact hlevel.regap (fun h => h.shape) g

end TypeExpr

end AnySome
