import AnySome.Proofs.Mirror.Chunks

/-!
# Declarations without their places

The outline of a declaration is what is left of it when its spans are
forgotten and its ascriptions are replaced by a function of them. Two texts
say the same if what is read from them has the same outline.

What parts of the parser give is compared in the same way, so every kind of
result says which ascriptions it holds and what its outline is (`Mirrored`).
A result that holds neither ascriptions nor spans is its own outline
(`Plain`).

## Main results

* `Declaration.ascriptionsList_outline` — the ascriptions of an outline.
* `Declaration.interfaceNamesList_outline` — an outline declares the same
  protocols.
-/

namespace AnySome

/-! ## Outlines -/

namespace Ascription

/-- An ascription without its place. -/
def bare (a : Ascription) : Ascription := ⟨default, a.parsed, a.type⟩

/-- An ascription without its place, as it reads when it is written back. -/
def settled (a : Ascription) : Ascription := ⟨default, a.type, a.type⟩

end Ascription

section Outlines

variable (f : Ascription → Ascription)

def Binding.outline (b : Binding) : Binding :=
  ⟨b.pattern, b.ascription.map f, b.initializer.map fun _ => default, b.accessor⟩

def VariableDecl.outline (d : VariableDecl) : VariableDecl :=
  ⟨d.isLet, d.bindings.map (Binding.outline f), default⟩

def DefaultValue.outline (v : DefaultValue) : DefaultValue := ⟨default, v.text⟩

def Parameter.outline (p : Parameter) : Parameter :=
  ⟨p.names, f p.ascription, p.variadic, p.default.map DefaultValue.outline⟩

def CodeBlock.outline (b : CodeBlock) : CodeBlock :=
  ⟨default, b.locals.map (VariableDecl.outline f)⟩

def FunctionDecl.outline (d : FunctionDecl) : FunctionDecl :=
  ⟨d.name, d.parameters.map (Parameter.outline f), d.result.map f,
    d.body.map (CodeBlock.outline f), default⟩

def InitializerDecl.outline (d : InitializerDecl) : InitializerDecl :=
  ⟨d.parameters.map (Parameter.outline f), d.body.map (CodeBlock.outline f), default⟩

def AliasDecl.outline (d : AliasDecl) : AliasDecl := ⟨d.name, f d.target, default⟩

namespace Declaration

mutual
/-- A declaration without its places, and with its ascriptions replaced. -/
def outline : Declaration → Declaration
  | .protocol name _ members => .protocol name default (outlineList members)
  | .nominal kind name _ members => .nominal kind name default (outlineList members)
  | .bindings d => .bindings (d.outline f)
  | .function d => .function (d.outline f)
  | .initializer d => .initializer (d.outline f)
  | .typeAlias d => .typeAlias (d.outline f)

/-- Declarations that follow each other, without their places. -/
def outlineList : List Declaration → List Declaration
  | [] => []
  | d :: ds => outline d :: outlineList ds
end

theorem outlineList_eq_map (ds : List Declaration) : outlineList f ds = ds.map (outline f) := by
  induction ds with
  | nil => rfl
  | cons d ds ih => simp [outlineList, ih]

theorem ascriptionsList_eq_flatMap (ds : List Declaration) :
    ascriptionsList ds = ds.flatMap ascriptions := by
  induction ds with
  | nil => rfl
  | cons d ds ih => simp [ascriptionsList, ih]

end Declaration

/-! ## The ascriptions of an outline -/

theorem VariableDecl.ascriptions_outline (d : VariableDecl) :
    (d.outline f).ascriptions = d.ascriptions.map f := by
  simp [VariableDecl.ascriptions, VariableDecl.outline, List.filterMap_map, List.map_filterMap,
    Function.comp_def, Binding.outline]

theorem CodeBlock.ascriptionsOf_outline (body : Option CodeBlock) :
    CodeBlock.ascriptionsOf (body.map (CodeBlock.outline f)) =
      (CodeBlock.ascriptionsOf body).map f := by
  cases body with
  | none => rfl
  | some b =>
    simp [CodeBlock.ascriptionsOf, CodeBlock.ascriptions, CodeBlock.outline, List.flatMap_map,
      List.map_flatMap, VariableDecl.ascriptions_outline]

theorem Parameter.ascription_outline (ps : List Parameter) :
    (ps.map (Parameter.outline f)).map Parameter.ascription =
      (ps.map Parameter.ascription).map f := by
  simp [Parameter.outline]

namespace Declaration

mutual
theorem ascriptions_outline : (d : Declaration) →
    ascriptions (outline f d) = (ascriptions d).map f
  | .protocol _ _ members => ascriptionsList_outline members
  | .nominal _ _ _ members => ascriptionsList_outline members
  | .bindings d => d.ascriptions_outline f
  | .function d => by
    simp only [outline, ascriptions, FunctionDecl.ascriptions, FunctionDecl.outline,
      Parameter.ascription_outline, CodeBlock.ascriptionsOf_outline, List.map_append]
    cases d.result <;> rfl
  | .initializer d => by
    simp only [outline, ascriptions, InitializerDecl.ascriptions, InitializerDecl.outline,
      Parameter.ascription_outline, CodeBlock.ascriptionsOf_outline, List.map_append]
  | .typeAlias _ => rfl

/-- The ascriptions of an outline are the ascriptions, replaced. -/
theorem ascriptionsList_outline : (ds : List Declaration) →
    ascriptionsList (outlineList f ds) = (ascriptionsList ds).map f
  | [] => rfl
  | d :: ds => by
    simp only [outlineList, ascriptionsList, List.map_append]
    rw [ascriptions_outline d, ascriptionsList_outline ds]
end

mutual
theorem interfaceNames_outline : (d : Declaration) →
    interfaceNames (outline f d) = interfaceNames d
  | .protocol _ _ _ => rfl
  | .nominal _ _ _ members => interfaceNamesList_outline members
  | .bindings _ => rfl
  | .function _ => rfl
  | .initializer _ => rfl
  | .typeAlias _ => rfl

/-- An outline declares the same protocols. -/
theorem interfaceNamesList_outline : (ds : List Declaration) →
    interfaceNamesList (outlineList f ds) = interfaceNamesList ds
  | [] => rfl
  | d :: ds => by
    simp only [outlineList, interfaceNamesList]
    rw [interfaceNames_outline d, interfaceNamesList_outline ds]
end

end Declaration

end Outlines

/-! ## Results of parsers -/

/-- What a result of a parser holds, and what is left of it without places. -/
class Mirrored (α : Type) where
  ascriptions : α → List Ascription
  outline : (Ascription → Ascription) → α → α

open Mirrored

/-- Results that are the same in a text and in its revision. -/
class Plain (α : Type) [Mirrored α] : Prop where
  ascriptions_eq (a : α) : ascriptions a = []
  outline_eq (f : Ascription → Ascription) (a : α) : outline f a = a

namespace Mirrored

instance : Mirrored Unit := ⟨fun _ => [], fun _ a => a⟩
instance : Mirrored Bool := ⟨fun _ => [], fun _ a => a⟩
instance : Mirrored String := ⟨fun _ => [], fun _ a => a⟩
instance : Mirrored Kind := ⟨fun _ => [], fun _ a => a⟩
instance : Mirrored Accessor := ⟨fun _ => [], fun _ a => a⟩
instance : Mirrored Span := ⟨fun _ => [], fun _ _ => default⟩
instance : Mirrored Token := ⟨fun _ => [], fun _ t => { t with start := 0, closed := true }⟩
instance : Mirrored Ascription := ⟨fun a => [a], fun f a => f a⟩
instance : Mirrored Binding := ⟨fun b => b.ascription.toList, Binding.outline⟩
instance : Mirrored VariableDecl := ⟨VariableDecl.ascriptions, VariableDecl.outline⟩
instance : Mirrored DefaultValue := ⟨fun _ => [], fun _ => DefaultValue.outline⟩
instance : Mirrored Parameter := ⟨fun p => [p.ascription], Parameter.outline⟩
instance : Mirrored CodeBlock := ⟨CodeBlock.ascriptions, CodeBlock.outline⟩
instance : Mirrored FunctionDecl := ⟨FunctionDecl.ascriptions, FunctionDecl.outline⟩
instance : Mirrored InitializerDecl := ⟨InitializerDecl.ascriptions, InitializerDecl.outline⟩
instance : Mirrored AliasDecl := ⟨fun d => [d.target], AliasDecl.outline⟩
instance : Mirrored Declaration := ⟨Declaration.ascriptions, Declaration.outline⟩

instance [Mirrored α] : Mirrored (Option α) :=
  ⟨fun o => o.toList.flatMap ascriptions, fun f o => o.map (outline f)⟩

instance [Mirrored α] : Mirrored (List α) :=
  ⟨fun l => l.flatMap ascriptions, fun f l => l.map (outline f)⟩

instance [Mirrored α] [Mirrored β] : Mirrored (α × β) :=
  ⟨fun x => ascriptions x.1 ++ ascriptions x.2, fun f x => (outline f x.1, outline f x.2)⟩

instance [Mirrored α] : Mirrored (Parser.Round α) where
  ascriptions
    | .finished => []
    | .last a | .more a => ascriptions a
  outline f
    | .finished => .finished
    | .last a => .last (outline f a)
    | .more a => .more (outline f a)

instance : Plain Unit := ⟨fun _ => rfl, fun _ _ => rfl⟩
instance : Plain Bool := ⟨fun _ => rfl, fun _ _ => rfl⟩
instance : Plain String := ⟨fun _ => rfl, fun _ _ => rfl⟩
instance : Plain Kind := ⟨fun _ => rfl, fun _ _ => rfl⟩
instance : Plain Accessor := ⟨fun _ => rfl, fun _ _ => rfl⟩

instance [Mirrored α] [Plain α] : Plain (Option α) where
  ascriptions_eq o := by cases o <;> simp [ascriptions, Plain.ascriptions_eq]
  outline_eq f o := by cases o <;> simp [outline, Plain.outline_eq]

instance [Mirrored α] [Plain α] : Plain (List α) where
  ascriptions_eq l := by simp [ascriptions, Plain.ascriptions_eq]
  outline_eq f l := by
    induction l with
    | nil => rfl
    | cons a l ih =>
      show outline f a :: outline f l = a :: l
      rw [ih, Plain.outline_eq]

end Mirrored

theorem Mirrored.ascriptions_filterMap_id [Mirrored α] (l : List (Option α)) :
    ascriptions (l.filterMap id) = ascriptions l := by
  induction l with
  | nil => rfl
  | cons o l ih =>
    cases o with
    | none => simpa [ascriptions] using ih
    | some a => simpa [ascriptions] using ih

section

open Mirrored

theorem ascriptions_span (s : Span) : ascriptions s = [] := rfl

theorem ascriptions_initializer (o : Option Span) : ascriptions o = [] := by
  cases o <;> rfl

theorem ascriptions_default (o : Option DefaultValue) : ascriptions o = [] := by
  cases o <;> rfl

theorem ascriptions_result (o : Option Ascription) : ascriptions o = o.toList := by
  cases o <;> rfl

theorem ascriptions_bindings (bs : List Binding) :
    ascriptions bs = bs.filterMap Binding.ascription := by
  induction bs with
  | nil => rfl
  | cons b bs ih =>
    show b.ascription.toList ++ ascriptions bs = _
    rw [ih]
    cases h : b.ascription <;> simp [h]

theorem ascriptions_parameters (ps : List Parameter) :
    ascriptions ps = ps.map Parameter.ascription := by
  induction ps with
  | nil => rfl
  | cons p ps ih =>
    show p.ascription :: ascriptions ps = _
    rw [ih, List.map_cons]

theorem ascriptions_body (b : Option CodeBlock) : ascriptions b = CodeBlock.ascriptionsOf b := by
  cases b with
  | none => rfl
  | some b => exact List.append_nil _

theorem ascriptions_members (ds : List Declaration) :
    ascriptions ds = Declaration.ascriptionsList ds :=
  (Declaration.ascriptionsList_eq_flatMap ds).symm

end

/-- An ascription without its place, as it reads in the revision. -/
def Revision.retype (w : Revision) (a : Ascription) : Ascription := ⟨default, w.type a, w.type a⟩

/-- The results say the same in a text and in its revision. -/
def Both (w : Revision) [Mirrored α] (a a' : α) : Prop :=
  outline Ascription.bare a' = outline w.retype a

namespace Both

variable {w : Revision} [Mirrored α]

theorem eq [Plain α] {a a' : α} (h : Both w a a') : a' = a := by
  unfold Both at h
  rwa [Plain.outline_eq, Plain.outline_eq] at h

theorem refl [Plain α] (a : α) : Both w a a := by
  unfold Both
  rw [Plain.outline_eq, Plain.outline_eq]

theorem cons {a a' : α} {l l' : List α} (ha : Both w a a') (hl : Both w l l') :
    Both w (a :: l) (a' :: l') := by
  unfold Both at ha hl ⊢
  show outline _ a' :: outline _ l' = outline _ a :: outline _ l
  rw [ha, hl]

theorem singleton {a a' : α} (ha : Both w a a') : Both w [a] [a'] := ha.cons rfl

theorem some {a a' : α} (ha : Both w a a') : Both w (some a) (some a') := congrArg Option.some ha

theorem isNone_eq {o o' : Option α} (ho : Both w o o') : o'.isNone = o.isNone := by
  have hmap := congrArg Option.isNone ho
  simpa [outline] using hmap

theorem text_eq {t t' : Token} (ht : Both w t t') : t'.text = t.text := by
  have htext : (outline Ascription.bare t').text = (outline w.retype t).text :=
    congrArg Token.text ht
  exact htext

theorem filterMap_id {l l' : List (Option α)} (hl : Both w l l') :
    Both w (l.filterMap id) (l'.filterMap id) := by
  have hmap : ∀ (f : Ascription → Ascription) (m : List (Option α)),
      outline f (m.filterMap id) = (outline f m).filterMap id := by
    intro f m
    simp [outline, List.map_filterMap, List.filterMap_map]
  unfold Both at hl ⊢
  rw [hmap, hmap, hl]

/-! What is built from results that say the same says the same. -/

theorem binding {type type' : Option Ascription} {value value' : Option Span}
    (htype : Both w type type') (hvalue : Both w value value') (name : String)
    (block : Option Accessor) :
    Both w (⟨name, type, value, block⟩ : Binding) ⟨name, type', value', block⟩ := by
  have ht : type'.map Ascription.bare = type.map w.retype := htype
  have hv : (value'.map fun _ => (default : Span)) = value.map fun _ => default := hvalue
  show (⟨name, _, _, block⟩ : Binding) = ⟨name, _, _, block⟩
  rw [ht, hv]

theorem variableDecl {bindings bindings' : List Binding} (h : Both w bindings bindings')
    (isLet : Bool) (span span' : Span) :
    Both w (⟨isLet, bindings, span⟩ : VariableDecl) ⟨isLet, bindings', span'⟩ :=
  congrArg (fun bs => (⟨isLet, bs, default⟩ : VariableDecl)) h

theorem parameter {type type' : Ascription} {value value' : Option DefaultValue}
    (htype : Both w type type') (hvalue : Both w value value') (names : List String)
    (variadic : Bool) :
    Both w (⟨names, type, variadic, value⟩ : Parameter) ⟨names, type', variadic, value'⟩ := by
  have ht : type'.bare = w.retype type := htype
  have hv : value'.map DefaultValue.outline = value.map DefaultValue.outline := hvalue
  show (⟨names, _, variadic, _⟩ : Parameter) = ⟨names, _, variadic, _⟩
  rw [ht, hv]

theorem codeBlock {locals locals' : List VariableDecl} (h : Both w locals locals')
    (span span' : Span) : Both w (⟨span, locals⟩ : CodeBlock) ⟨span', locals'⟩ :=
  congrArg (fun ds => (⟨default, ds⟩ : CodeBlock)) h

theorem functionDecl {parameters parameters' : List Parameter} {result result' : Option Ascription}
    {body body' : Option CodeBlock} (hp : Both w parameters parameters')
    (hr : Both w result result') (hb : Both w body body') (name : String) (span span' : Span) :
    Both w (⟨name, parameters, result, body, span⟩ : FunctionDecl)
      ⟨name, parameters', result', body', span'⟩ := by
  have hp : parameters'.map (Parameter.outline _) = parameters.map (Parameter.outline _) := hp
  have hr : result'.map Ascription.bare = result.map w.retype := hr
  have hb : body'.map (CodeBlock.outline _) = body.map (CodeBlock.outline _) := hb
  show (⟨name, _, _, _, default⟩ : FunctionDecl) = ⟨name, _, _, _, default⟩
  rw [hp, hr, hb]

theorem initializerDecl {parameters parameters' : List Parameter} {body body' : Option CodeBlock}
    (hp : Both w parameters parameters') (hb : Both w body body') (span span' : Span) :
    Both w (⟨parameters, body, span⟩ : InitializerDecl) ⟨parameters', body', span'⟩ := by
  have hp : parameters'.map (Parameter.outline _) = parameters.map (Parameter.outline _) := hp
  have hb : body'.map (CodeBlock.outline _) = body.map (CodeBlock.outline _) := hb
  show (⟨_, _, default⟩ : InitializerDecl) = ⟨_, _, default⟩
  rw [hp, hb]

theorem aliasDecl {target target' : Ascription} (h : Both w target target') (name : String)
    (span span' : Span) :
    Both w (⟨name, target, span⟩ : AliasDecl) ⟨name, target', span'⟩ :=
  congrArg (fun a => (⟨name, a, default⟩ : AliasDecl)) h

theorem outlineList_eq {members members' : List Declaration} (h : Both w members members') :
    Declaration.outlineList Ascription.bare members' =
      Declaration.outlineList w.retype members := by
  rw [Declaration.outlineList_eq_map, Declaration.outlineList_eq_map]
  exact h

end Both

end AnySome
