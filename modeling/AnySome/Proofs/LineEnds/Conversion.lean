import AnySome.Proofs.LineEnds.Basic
import AnySome.Proofs.Migration.Sites

/-!
# What is read, with other line ends

Line ends occur in what is read: in a type kept as written, in a default value,
in the pattern of a variable. So the conversion of a text has its counterpart in
every result: texts are converted, spans are moved, and the shape stays.

A type and its conversion are written in canonical form by the same steps, so
the canonical form of the conversion is the conversion of the canonical form.

## Main results

* `TypeExpr.print_crlf` — the canonical form of a converted type.
* `TypeExpr.crlf_eq_iff` — no two types become the same.
* `Declaration.sitesList_crlf` — the ascriptions of converted declarations.
-/

namespace AnySome

open Text

/-! ## Types -/

namespace TypeExpr

mutual
/-- The type with its texts converted. -/
def crlf : TypeExpr → TypeExpr
  | .named name => .named (Text.crlf name)
  | .generic base arguments => .generic (Text.crlf base) (crlfList arguments)
  | .optional t => .optional (crlf t)
  | .tuple elements => .tuple (crlfElements elements)
  | .function parameters effects result =>
    .function (crlfElements parameters) (effects.map Text.crlf) (crlf result)
  | .qualified q t => .qualified q (crlf t)
  | .attributed specifiers t => .attributed (specifiers.map Text.crlf) (crlf t)
  | .verbatim text => .verbatim (Text.crlf text)

/-- The types of a list with their texts converted. -/
def crlfList : List TypeExpr → List TypeExpr
  | [] => []
  | t :: ts => crlf t :: crlfList ts

/-- Elements with their texts converted. -/
def crlfElements : List (Element TypeExpr) → List (Element TypeExpr)
  | [] => []
  | ⟨label, t, variadic⟩ :: es => ⟨label.map Text.crlf, crlf t, variadic⟩ :: crlfElements es
end

/-- An element with its texts converted. -/
def crlfElement (e : Element TypeExpr) : Element TypeExpr :=
  ⟨e.label.map Text.crlf, e.type.crlf, e.variadic⟩

theorem crlfList_eq_map (ts : List TypeExpr) : crlfList ts = ts.map crlf := by
  induction ts with
  | nil => rfl
  | cons t ts ih => rw [crlfList, ih, List.map_cons]

theorem crlfElements_eq_map (es : List (Element TypeExpr)) :
    crlfElements es = es.map crlfElement := by
  induction es with
  | nil => rfl
  | cons e es ih => rw [crlfElements, ih, List.map_cons, crlfElement]

/-! ### The canonical form -/

@[simp] theorem bindsLoosely_crlf (t : TypeExpr) : t.crlf.bindsLoosely = t.bindsLoosely := by
  cases t <;> rfl

theorem printLabel_crlf (label : Option String) :
    printLabel (label.map Text.crlf) = Text.crlf (printLabel label) := by
  cases label with
  | none => rfl
  | some label => exact (crlf_append label ": ").symm

theorem printEffects_crlf (effects : Option String) :
    printEffects (effects.map Text.crlf) = Text.crlf (printEffects effects) := by
  cases effects with
  | none => rfl
  | some effects => exact (crlf_append " " effects).symm

theorem printSpecifiers_crlf (specifiers : List String) :
    printSpecifiers (specifiers.map Text.crlf) = Text.crlf (printSpecifiers specifiers) := by
  induction specifiers with
  | nil => rfl
  | cons s ss ih =>
    rw [List.map_cons, printSpecifiers, printSpecifiers, crlf_append, crlf_append, ih]
    rfl

theorem printVariadic_crlf (variadic : Bool) :
    printVariadic variadic = Text.crlf (printVariadic variadic) := by
  cases variadic <;> rfl

theorem crlf_keyword (q : Qualifier) : Text.crlf q.keyword = q.keyword := by
  cases q <;> rfl

mutual
/-- A converted type is written as its canonical form, converted. -/
theorem print_crlf : (t : TypeExpr) → print t.crlf = Text.crlf (print t)
  | .named _ => rfl
  | .verbatim _ => rfl
  | .generic base arguments => by
    rw [crlf, print, print, printArguments_crlf arguments]
    simp only [crlf_append]
    rfl
  | .optional t => by
    rw [crlf, print, print, print_crlf t, bindsLoosely_crlf]
    split
    · simp only [crlf_append]
      rfl
    · simp only [crlf_append]
      rfl
  | .tuple elements => by
    rw [crlf, print, print, printElements_crlf elements]
    simp only [crlf_append]
    rfl
  | .function parameters effects result => by
    rw [crlf, print, print, printElements_crlf parameters, printEffects_crlf, print_crlf result]
    simp only [crlf_append]
    rfl
  | .qualified q t => by
    rw [crlf, print, print, print_crlf t, crlf_append, crlf_append, crlf_keyword]
    rfl
  | .attributed specifiers t => by
    rw [crlf, print, print, print_crlf t, printSpecifiers_crlf, crlf_append]

theorem printArguments_crlf : (ts : List TypeExpr) →
    printArguments (crlfList ts) = Text.crlf (printArguments ts)
  | [] => rfl
  | [t] => print_crlf t
  | t :: u :: ts => by
    rw [crlfList, crlfList, printArguments, printArguments, print_crlf t, ← crlfList,
      printArguments_crlf (u :: ts), crlf_append, crlf_append]
    rfl

theorem printElements_crlf : (es : List (Element TypeExpr)) →
    printElements (crlfElements es) = Text.crlf (printElements es)
  | [] => rfl
  | [⟨label, t, variadic⟩] => by
    rw [crlfElements, crlfElements, printElements, printElements, print_crlf t, printLabel_crlf,
      crlf_append, crlf_append, ← printVariadic_crlf]
  | ⟨label, t, variadic⟩ :: ⟨label', u, variadic'⟩ :: es => by
    rw [crlfElements, crlfElements, printElements, printElements, print_crlf t, printLabel_crlf,
      ← crlfElements, printElements_crlf (⟨label', u, variadic'⟩ :: es)]
    simp only [crlf_append, ← printVariadic_crlf]
    rfl
end

/-! ### Different types -/

mutual
/-- Types are equal if their conversions are. -/
theorem crlf_eq_iff : (t u : TypeExpr) → (t.crlf = u.crlf ↔ t = u)
  | .named a, u => by cases u <;> simp [crlf]
  | .verbatim a, u => by cases u <;> simp [crlf]
  | .generic a ts, u => by cases u <;> simp [crlf, crlfList_eq_iff ts]
  | .optional t, u => by cases u <;> simp [crlf, crlf_eq_iff t]
  | .tuple es, u => by cases u <;> simp [crlf, crlfElements_eq_iff es]
  | .function es effects t, u => by
    cases u <;>
      simp [crlf, crlf_eq_iff t, crlfElements_eq_iff es, Option.map_inj_right crlf_inj]
  | .qualified q t, u => by cases u <;> simp [crlf, crlf_eq_iff t]
  | .attributed ss t, u => by
    cases u <;> simp [crlf, crlf_eq_iff t, List.map_inj_right crlf_inj]

theorem crlfList_eq_iff : (ts us : List TypeExpr) → (crlfList ts = crlfList us ↔ ts = us)
  | [], us => by cases us <;> simp [crlfList]
  | t :: ts, us => by cases us <;> simp [crlfList, crlf_eq_iff t, crlfList_eq_iff ts]

theorem crlfElements_eq_iff :
    (es fs : List (Element TypeExpr)) → (crlfElements es = crlfElements fs ↔ es = fs)
  | [], fs => by cases fs <;> simp [crlfElements]
  | ⟨label, t, variadic⟩ :: es, fs => by
    cases fs with
    | nil => simp [crlfElements]
    | cons f fs =>
      obtain ⟨label', u, variadic'⟩ := f
      simp [crlfElements, crlf_eq_iff t, crlfElements_eq_iff es, Option.map_inj_right crlf_inj]
end

end TypeExpr

/-! ## Declarations -/

section Declarations

variable (text : List Char)

/-- The place of a span of `text` in the conversion. -/
def Span.crlf (s : Span) : Span := ⟨crlfOffset text s.start, crlfOffset text s.stop⟩

def Ascription.crlf (a : Ascription) : Ascription :=
  ⟨a.span.crlf text, a.parsed.crlf, a.type.crlf⟩

def Binding.crlf (b : Binding) : Binding :=
  ⟨Text.crlf b.pattern, b.ascription.map (Ascription.crlf text),
    b.initializer.map (Span.crlf text), b.accessor⟩

def VariableDecl.crlf (d : VariableDecl) : VariableDecl :=
  ⟨d.isLet, d.bindings.map (Binding.crlf text), d.span.crlf text⟩

def DefaultValue.crlf (v : DefaultValue) : DefaultValue := ⟨v.span.crlf text, Text.crlf v.text⟩

def Parameter.crlf (p : Parameter) : Parameter :=
  ⟨p.names.map Text.crlf, p.ascription.crlf text, p.variadic,
    p.default.map (DefaultValue.crlf text)⟩

def CodeBlock.crlf (b : CodeBlock) : CodeBlock :=
  ⟨b.span.crlf text, b.locals.map (VariableDecl.crlf text)⟩

def FunctionDecl.crlf (d : FunctionDecl) : FunctionDecl :=
  ⟨Text.crlf d.name, d.parameters.map (Parameter.crlf text),
    d.result.map (Ascription.crlf text), d.body.map (CodeBlock.crlf text), d.span.crlf text⟩

def InitializerDecl.crlf (d : InitializerDecl) : InitializerDecl :=
  ⟨d.parameters.map (Parameter.crlf text), d.body.map (CodeBlock.crlf text), d.span.crlf text⟩

def AliasDecl.crlf (d : AliasDecl) : AliasDecl :=
  ⟨Text.crlf d.name, d.target.crlf text, d.span.crlf text⟩

namespace Declaration

mutual
/-- A declaration of `text` with its texts converted and its spans moved. -/
def crlf : Declaration → Declaration
  | .protocol name span members =>
    .protocol (Text.crlf name) (span.crlf text) (crlfList members)
  | .nominal kind name span members =>
    .nominal kind (Text.crlf name) (span.crlf text) (crlfList members)
  | .bindings d => .bindings (d.crlf text)
  | .function d => .function (d.crlf text)
  | .initializer d => .initializer (d.crlf text)
  | .typeAlias d => .typeAlias (d.crlf text)

/-- Declarations that follow each other, converted. -/
def crlfList : List Declaration → List Declaration
  | [] => []
  | d :: ds => crlf d :: crlfList ds
end

theorem crlfList_eq_map (ds : List Declaration) : crlfList text ds = ds.map (crlf text) := by
  induction ds with
  | nil => rfl
  | cons d ds ih => rw [crlfList, ih, List.map_cons]

end Declaration

/-! ## Sites -/

/-- A site with the text of its default value converted. -/
def Site.crlf : Site → Site
  | .parameter variadic default => .parameter variadic (default.map Text.crlf)
  | site => site

/-- An ascription with its site, converted. -/
def Site.convert (x : Site × Ascription) : Site × Ascription := (x.1.crlf, x.2.crlf text)

theorem VariableDecl.sites_crlf (site : Option Accessor → Site)
    (hsite : ∀ accessor, (site accessor).crlf = site accessor) (d : VariableDecl) :
    (d.crlf text).sites site = (d.sites site).map (Site.convert text) := by
  simp only [VariableDecl.sites, VariableDecl.crlf, List.filterMap_map, List.map_filterMap]
  congr 1
  funext b
  cases hb : b.ascription <;> simp [Binding.crlf, Site.convert, hb, hsite]

theorem CodeBlock.sitesOf_crlf (body : Option CodeBlock) :
    CodeBlock.sitesOf (body.map (CodeBlock.crlf text)) =
      (CodeBlock.sitesOf body).map (Site.convert text) := by
  cases body with
  | none => rfl
  | some b =>
    simp [CodeBlock.sitesOf, CodeBlock.crlf, List.flatMap_map, List.map_flatMap,
      VariableDecl.sites_crlf text .localVariable fun _ => rfl]

theorem Parameter.sites_crlf (ps : List Parameter) :
    Parameter.sites (ps.map (Parameter.crlf text)) =
      (Parameter.sites ps).map (Site.convert text) := by
  simp [Parameter.sites, Parameter.crlf, Parameter.site, Site.convert, Site.crlf,
    Function.comp_def, DefaultValue.crlf]

namespace Declaration

mutual
theorem sites_crlf (inProtocol : Bool) : (d : Declaration) →
    sites inProtocol (d.crlf text) = (sites inProtocol d).map (Site.convert text)
  | .protocol _ _ members => sitesList_crlf true members
  | .nominal _ _ _ members => sitesList_crlf false members
  | .bindings d => d.sites_crlf text .property fun _ => rfl
  | .function d => by
    simp only [crlf, sites, FunctionDecl.crlf, Parameter.sites_crlf, CodeBlock.sitesOf_crlf,
      List.map_append]
    cases d.result <;> rfl
  | .initializer d => by
    simp only [crlf, sites, InitializerDecl.crlf, Parameter.sites_crlf, CodeBlock.sitesOf_crlf,
      List.map_append]
  | .typeAlias _ => rfl

/-- The ascriptions of converted declarations stand at the same sites. -/
theorem sitesList_crlf (inProtocol : Bool) : (ds : List Declaration) →
    sitesList inProtocol (crlfList text ds) = (sitesList inProtocol ds).map (Site.convert text)
  | [] => rfl
  | d :: ds => by
    rw [crlfList, sitesList, sitesList, List.map_append, sites_crlf inProtocol d,
      sitesList_crlf inProtocol ds]
end

end Declaration

end Declarations

end AnySome
