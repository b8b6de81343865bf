import AnySome.Migration.File
import AnySome.Proofs.Mirror.Outline

/-!
# The sites of ascriptions

What an ascription is qualified with depends on its site: the kind of
declaration it is in, the block behind a variable, the dots and the default
value of a parameter, and whether a function is a requirement of a protocol.
`Declaration.sites` lists the ascriptions of a declaration with their sites,
and `Declaration.mapSites` replaces each ascription by a function of the two.

A migration is such a replacement (`Migration.declarations_eq`), and everything
it does to a file is read off the list of sites.

## Main results

* `Declaration.ascriptionsList_eq_sites` — every ascription has its site.
* `Declaration.sitesList_mapSites` — a replacement changes no site.
* `Declaration.outlineList_mapSites` — a replacement changes nothing but the
  ascriptions.
* `Migration.declarations_eq` — a migration qualifies each ascription for its
  site.
-/

namespace AnySome

/-- Where an ascription stands. -/
inductive Site where
  /-- A variable of a file or a type, with what its block holds. -/
  | property (accessor : Option Accessor)
  /-- A variable declared in a body. -/
  | localVariable (accessor : Option Accessor)
  /-- A parameter of a function or an initializer, with the text of its
  default value. -/
  | parameter (variadic : Bool) (default : Option String)
  /-- The result of a function, which is a direct member of a protocol or not. -/
  | result (inProtocol : Bool)
  | aliasTarget
deriving DecidableEq, Repr

/-- The site of a parameter's type. -/
def Parameter.site (p : Parameter) : Site :=
  .parameter p.variadic (p.default.map DefaultValue.text)

/-! ## Ascriptions with their sites -/

/-- The ascriptions of a variable declaration, whose sites are told by the
blocks of its entries. -/
def VariableDecl.sites (site : Option Accessor → Site) (d : VariableDecl) :
    List (Site × Ascription) :=
  d.bindings.filterMap fun b => b.ascription.map (Prod.mk (site b.accessor))

/-- The ascriptions in a body that may be missing. -/
def CodeBlock.sitesOf (body : Option CodeBlock) : List (Site × Ascription) :=
  body.toList.flatMap fun b => b.locals.flatMap (VariableDecl.sites .localVariable)

/-- The ascriptions of parameters. -/
def Parameter.sites (ps : List Parameter) : List (Site × Ascription) :=
  ps.map fun p => (p.site, p.ascription)

namespace Declaration

mutual
/-- The ascriptions of a declaration with their sites, in the order in which
they are written; `inProtocol` for a direct member of a protocol. -/
def sites (inProtocol : Bool) : Declaration → List (Site × Ascription)
  | .protocol _ _ members => sitesList true members
  | .nominal _ _ _ members => sitesList false members
  | .bindings d => d.sites .property
  | .function d =>
    Parameter.sites d.parameters ++ (d.result.map (Prod.mk (.result inProtocol))).toList ++
      CodeBlock.sitesOf d.body
  | .initializer d => Parameter.sites d.parameters ++ CodeBlock.sitesOf d.body
  | .typeAlias d => [(.aliasTarget, d.target)]

/-- The ascriptions of declarations that follow each other. -/
def sitesList (inProtocol : Bool) : List Declaration → List (Site × Ascription)
  | [] => []
  | d :: ds => sites inProtocol d ++ sitesList inProtocol ds
end

end Declaration

/-! ## Replacing ascriptions -/

section Replacing

variable (h : Site → Ascription → Ascription)

def Binding.mapSites (site : Option Accessor → Site) (b : Binding) : Binding :=
  { b with ascription := b.ascription.map (h (site b.accessor)) }

def VariableDecl.mapSites (site : Option Accessor → Site) (d : VariableDecl) : VariableDecl :=
  { d with bindings := d.bindings.map (Binding.mapSites h site) }

def CodeBlock.mapSites (b : CodeBlock) : CodeBlock :=
  { b with locals := b.locals.map (VariableDecl.mapSites h .localVariable) }

def Parameter.mapSites (p : Parameter) : Parameter :=
  { p with ascription := h p.site p.ascription }

def FunctionDecl.mapSites (inProtocol : Bool) (d : FunctionDecl) : FunctionDecl :=
  { d with
    parameters := d.parameters.map (Parameter.mapSites h)
    result := d.result.map (h (.result inProtocol))
    body := d.body.map (CodeBlock.mapSites h) }

def InitializerDecl.mapSites (d : InitializerDecl) : InitializerDecl :=
  { d with
    parameters := d.parameters.map (Parameter.mapSites h)
    body := d.body.map (CodeBlock.mapSites h) }

def AliasDecl.mapSites (d : AliasDecl) : AliasDecl := { d with target := h .aliasTarget d.target }

namespace Declaration

mutual
/-- The declaration with every ascription replaced by a function of its site
and itself. -/
def mapSites (inProtocol : Bool) : Declaration → Declaration
  | .protocol name span members => .protocol name span (mapSitesList true members)
  | .nominal kind name span members => .nominal kind name span (mapSitesList false members)
  | .bindings d => .bindings (d.mapSites h .property)
  | .function d => .function (d.mapSites h inProtocol)
  | .initializer d => .initializer (d.mapSites h)
  | .typeAlias d => .typeAlias (d.mapSites h)

/-- Declarations that follow each other, with their ascriptions replaced. -/
def mapSitesList (inProtocol : Bool) : List Declaration → List Declaration
  | [] => []
  | d :: ds => mapSites inProtocol d :: mapSitesList inProtocol ds
end

end Declaration

end Replacing

/-! ## Every ascription has its site -/

theorem VariableDecl.ascriptions_eq_sites (site : Option Accessor → Site) (d : VariableDecl) :
    d.ascriptions = (d.sites site).map Prod.snd := by
  unfold VariableDecl.ascriptions VariableDecl.sites
  rw [List.map_filterMap]
  congr 1
  funext b
  cases b.ascription <;> rfl

theorem CodeBlock.ascriptionsOf_eq_sites (body : Option CodeBlock) :
    CodeBlock.ascriptionsOf body = (CodeBlock.sitesOf body).map Prod.snd := by
  cases body with
  | none => rfl
  | some b =>
    have hlocal : VariableDecl.ascriptions =
        fun d => (VariableDecl.sites .localVariable d).map Prod.snd :=
      funext (VariableDecl.ascriptions_eq_sites .localVariable)
    simp [CodeBlock.ascriptionsOf, CodeBlock.ascriptions, CodeBlock.sitesOf, List.map_flatMap,
      hlocal]

namespace Declaration

mutual
theorem ascriptions_eq_sites (inProtocol : Bool) : (d : Declaration) →
    ascriptions d = (sites inProtocol d).map Prod.snd
  | .protocol _ _ members => ascriptionsList_eq_sites true members
  | .nominal _ _ _ members => ascriptionsList_eq_sites false members
  | .bindings d => d.ascriptions_eq_sites .property
  | .function d => by
    simp only [ascriptions, sites, FunctionDecl.ascriptions, Parameter.sites, List.map_append,
      CodeBlock.ascriptionsOf_eq_sites]
    cases d.result <;> simp
  | .initializer d => by
    simp [ascriptions, sites, InitializerDecl.ascriptions, Parameter.sites,
      CodeBlock.ascriptionsOf_eq_sites]
  | .typeAlias _ => rfl

/-- The ascriptions are those that the list of sites holds, in the same order. -/
theorem ascriptionsList_eq_sites (inProtocol : Bool) : (ds : List Declaration) →
    ascriptionsList ds = (sitesList inProtocol ds).map Prod.snd
  | [] => rfl
  | d :: ds => by
    rw [ascriptionsList, sitesList, List.map_append, ascriptions_eq_sites inProtocol d,
      ascriptionsList_eq_sites inProtocol ds]
end

theorem mem_ascriptionsList_of_mem_sitesList {inProtocol : Bool} {ds : List Declaration}
    {x : Site × Ascription} (hx : x ∈ sitesList inProtocol ds) : x.2 ∈ ascriptionsList ds := by
  rw [ascriptionsList_eq_sites inProtocol]
  exact List.mem_map_of_mem hx

end Declaration

/-! ## The sites of a replacement -/

/-- An ascription at its site, replaced. -/
def Site.apply (h : Site → Ascription → Ascription) (x : Site × Ascription) : Site × Ascription :=
  (x.1, h x.1 x.2)

section Laws

variable {h k : Site → Ascription → Ascription}

theorem VariableDecl.sites_mapSites (site : Option Accessor → Site) (d : VariableDecl) :
    (d.mapSites h site).sites site = (d.sites site).map (Site.apply h) := by
  simp only [VariableDecl.sites, VariableDecl.mapSites, List.filterMap_map, List.map_filterMap]
  congr 1
  funext b
  cases hb : b.ascription <;> simp [Binding.mapSites, Site.apply, hb]

theorem CodeBlock.sitesOf_mapSites (body : Option CodeBlock) :
    CodeBlock.sitesOf (body.map (CodeBlock.mapSites h)) =
      (CodeBlock.sitesOf body).map (Site.apply h) := by
  cases body with
  | none => rfl
  | some b =>
    simp [CodeBlock.sitesOf, CodeBlock.mapSites, List.flatMap_map, List.map_flatMap,
      VariableDecl.sites_mapSites]

theorem Parameter.sites_mapSites (ps : List Parameter) :
    Parameter.sites (ps.map (Parameter.mapSites h)) = (Parameter.sites ps).map (Site.apply h) := by
  simp [Parameter.sites, Parameter.mapSites, Parameter.site, Site.apply]

namespace Declaration

mutual
theorem sites_mapSites (inProtocol : Bool) : (d : Declaration) →
    sites inProtocol (mapSites h inProtocol d) = (sites inProtocol d).map (Site.apply h)
  | .protocol _ _ members => sitesList_mapSites true members
  | .nominal _ _ _ members => sitesList_mapSites false members
  | .bindings d => d.sites_mapSites .property
  | .function d => by
    simp only [mapSites, sites, FunctionDecl.mapSites, Parameter.sites_mapSites,
      CodeBlock.sitesOf_mapSites, List.map_append]
    cases d.result <;> rfl
  | .initializer d => by
    simp only [mapSites, sites, InitializerDecl.mapSites, Parameter.sites_mapSites,
      CodeBlock.sitesOf_mapSites, List.map_append]
  | .typeAlias _ => rfl

/-- A replacement changes no site. -/
theorem sitesList_mapSites (inProtocol : Bool) : (ds : List Declaration) →
    sitesList inProtocol (mapSitesList h inProtocol ds) =
      (sitesList inProtocol ds).map (Site.apply h)
  | [] => rfl
  | d :: ds => by
    rw [mapSitesList, sitesList, sitesList, List.map_append, sites_mapSites inProtocol d,
      sitesList_mapSites inProtocol ds]
end

theorem ascriptionsList_mapSites (inProtocol : Bool) (ds : List Declaration) :
    ascriptionsList (mapSitesList h inProtocol ds) =
      (sitesList inProtocol ds).map fun x => h x.1 x.2 := by
  rw [ascriptionsList_eq_sites inProtocol, sitesList_mapSites, List.map_map]
  rfl

end Declaration

/-! ## Two replacements -/

theorem VariableDecl.mapSites_mapSites (site : Option Accessor → Site) (d : VariableDecl) :
    (d.mapSites h site).mapSites k site = d.mapSites (fun s a => k s (h s a)) site := by
  simp [VariableDecl.mapSites, Binding.mapSites, Function.comp_def]

theorem CodeBlock.mapSites_mapSites (b : CodeBlock) :
    (b.mapSites h).mapSites k = b.mapSites fun s a => k s (h s a) := by
  simp [CodeBlock.mapSites, Function.comp_def, VariableDecl.mapSites_mapSites]

theorem Parameter.mapSites_mapSites (p : Parameter) :
    (p.mapSites h).mapSites k = p.mapSites fun s a => k s (h s a) := rfl

namespace Declaration

mutual
theorem mapSites_mapSites (inProtocol : Bool) : (d : Declaration) →
    mapSites k inProtocol (mapSites h inProtocol d) =
      mapSites (fun s a => k s (h s a)) inProtocol d
  | .protocol name span members => by
    simp only [mapSites, mapSitesList_mapSitesList true members]
  | .nominal kind name span members => by
    simp only [mapSites, mapSitesList_mapSitesList false members]
  | .bindings d => congrArg Declaration.bindings (d.mapSites_mapSites .property)
  | .function d => by
    simp [mapSites, FunctionDecl.mapSites, Function.comp_def, Parameter.mapSites_mapSites,
      CodeBlock.mapSites_mapSites]
  | .initializer d => by
    simp [mapSites, InitializerDecl.mapSites, Function.comp_def, Parameter.mapSites_mapSites,
      CodeBlock.mapSites_mapSites]
  | .typeAlias _ => rfl

theorem mapSitesList_mapSitesList (inProtocol : Bool) : (ds : List Declaration) →
    mapSitesList k inProtocol (mapSitesList h inProtocol ds) =
      mapSitesList (fun s a => k s (h s a)) inProtocol ds
  | [] => rfl
  | d :: ds => by
    simp only [mapSitesList, mapSites_mapSites inProtocol d,
      mapSitesList_mapSitesList inProtocol ds]
end

end Declaration

/-! ## Outlines -/

variable {f g : Ascription → Ascription}

theorem VariableDecl.outline_mapSites (site : Option Accessor → Site) (d : VariableDecl)
    (hd : ∀ x ∈ d.sites site, f (h x.1 x.2) = g x.2) :
    (d.mapSites h site).outline f = d.outline g := by
  simp only [VariableDecl.outline, VariableDecl.mapSites, List.map_map]
  congr 1
  apply List.map_congr_left
  intro b hb
  cases ha : b.ascription with
  | none => simp [Binding.outline, Binding.mapSites, ha]
  | some a =>
    have hsite : (site b.accessor, a) ∈ d.sites site :=
      List.mem_filterMap.mpr ⟨b, hb, by rw [ha]; rfl⟩
    have heq := hd _ hsite
    simp only [Binding.outline, Binding.mapSites, Function.comp_def, ha, Option.map_some] at heq ⊢
    rw [heq]

theorem CodeBlock.outline_mapSites (body : Option CodeBlock)
    (hb : ∀ x ∈ CodeBlock.sitesOf body, f (h x.1 x.2) = g x.2) :
    (body.map (CodeBlock.mapSites h)).map (CodeBlock.outline f) =
      body.map (CodeBlock.outline g) := by
  cases body with
  | none => rfl
  | some b =>
    simp only [CodeBlock.sitesOf, Option.toList_some, List.flatMap_cons, List.flatMap_nil,
      List.append_nil, List.mem_flatMap] at hb
    simp only [Option.map_some, CodeBlock.outline, CodeBlock.mapSites, List.map_map]
    congr 2
    apply List.map_congr_left
    intro d hd
    exact d.outline_mapSites .localVariable fun x hx => hb x ⟨d, hd, hx⟩

theorem Parameter.outline_mapSites (ps : List Parameter)
    (hp : ∀ x ∈ Parameter.sites ps, f (h x.1 x.2) = g x.2) :
    (ps.map (Parameter.mapSites h)).map (Parameter.outline f) =
      ps.map (Parameter.outline g) := by
  rw [List.map_map]
  apply List.map_congr_left
  intro p hmem
  have heq : f (h p.site p.ascription) = g p.ascription :=
    hp (p.site, p.ascription) (List.mem_map_of_mem hmem)
  simp only [Function.comp_def, Parameter.outline, Parameter.mapSites, heq]

namespace Declaration

mutual
theorem outline_mapSites (inProtocol : Bool) : (d : Declaration) →
    (∀ x ∈ sites inProtocol d, f (h x.1 x.2) = g x.2) →
      outline f (mapSites h inProtocol d) = outline g d
  | .protocol _ _ members, hd => by
    simp only [mapSites, outline, outlineList_mapSites true members hd]
  | .nominal _ _ _ members, hd => by
    simp only [mapSites, outline, outlineList_mapSites false members hd]
  | .bindings d, hd => congrArg Declaration.bindings (d.outline_mapSites .property hd)
  | .function d, hd => by
    simp only [sites, List.mem_append] at hd
    have hresult : (d.result.map (h (.result inProtocol))).map f = d.result.map g := by
      cases hr : d.result with
      | none => rfl
      | some a =>
        have heq := hd (.result inProtocol, a) (.inl (.inr (by simp [hr])))
        exact congrArg some heq
    simp only [mapSites, outline, FunctionDecl.outline, FunctionDecl.mapSites, hresult]
    rw [Parameter.outline_mapSites d.parameters fun x hx => hd x (.inl (.inl hx)),
      CodeBlock.outline_mapSites d.body fun x hx => hd x (.inr hx)]
  | .initializer d, hd => by
    simp only [sites, List.mem_append] at hd
    simp only [mapSites, outline, InitializerDecl.outline, InitializerDecl.mapSites]
    rw [Parameter.outline_mapSites d.parameters fun x hx => hd x (.inl hx),
      CodeBlock.outline_mapSites d.body fun x hx => hd x (.inr hx)]
  | .typeAlias d, hd => by
    have heq : f (h .aliasTarget d.target) = g d.target :=
      hd (.aliasTarget, d.target) (List.mem_singleton.mpr rfl)
    simp only [mapSites, outline, AliasDecl.outline, AliasDecl.mapSites, heq]

/-- A replacement changes nothing but the ascriptions. -/
theorem outlineList_mapSites (inProtocol : Bool) : (ds : List Declaration) →
    (∀ x ∈ sitesList inProtocol ds, f (h x.1 x.2) = g x.2) →
      outlineList f (mapSitesList h inProtocol ds) = outlineList g ds
  | [], _ => rfl
  | d :: ds, hds => by
    simp only [sitesList, List.mem_append] at hds
    rw [mapSitesList, outlineList, outlineList,
      outline_mapSites inProtocol d fun x hx => hds x (.inl hx),
      outlineList_mapSites inProtocol ds fun x hx => hds x (.inr hx)]
end

end Declaration

/-! An outline has the sites of what it outlines. -/

theorem VariableDecl.sites_outline (site : Option Accessor → Site) (d : VariableDecl) :
    (d.outline f).sites site = (d.sites site).map (Site.apply fun _ => f) := by
  simp only [VariableDecl.sites, VariableDecl.outline, List.filterMap_map, List.map_filterMap]
  congr 1
  funext b
  cases hb : b.ascription <;> simp [Binding.outline, Site.apply, hb]

theorem CodeBlock.sitesOf_outline (body : Option CodeBlock) :
    CodeBlock.sitesOf (body.map (CodeBlock.outline f)) =
      (CodeBlock.sitesOf body).map (Site.apply fun _ => f) := by
  cases body with
  | none => rfl
  | some b =>
    simp [CodeBlock.sitesOf, CodeBlock.outline, List.flatMap_map, List.map_flatMap,
      VariableDecl.sites_outline]

theorem Parameter.sites_outline (ps : List Parameter) :
    Parameter.sites (ps.map (Parameter.outline f)) =
      (Parameter.sites ps).map (Site.apply fun _ => f) := by
  simp [Parameter.sites, Parameter.outline, Parameter.site, Site.apply, Function.comp_def,
    DefaultValue.outline]

namespace Declaration

mutual
theorem sites_outline (inProtocol : Bool) : (d : Declaration) →
    sites inProtocol (outline f d) = (sites inProtocol d).map (Site.apply fun _ => f)
  | .protocol _ _ members => sitesList_outline true members
  | .nominal _ _ _ members => sitesList_outline false members
  | .bindings d => d.sites_outline .property
  | .function d => by
    simp only [outline, sites, FunctionDecl.outline, Parameter.sites_outline,
      CodeBlock.sitesOf_outline, List.map_append]
    cases d.result <;> rfl
  | .initializer d => by
    simp only [outline, sites, InitializerDecl.outline, Parameter.sites_outline,
      CodeBlock.sitesOf_outline, List.map_append]
  | .typeAlias _ => rfl

theorem sitesList_outline (inProtocol : Bool) : (ds : List Declaration) →
    sitesList inProtocol (outlineList f ds) =
      (sitesList inProtocol ds).map (Site.apply fun _ => f)
  | [] => rfl
  | d :: ds => by
    rw [outlineList, sitesList, sitesList, List.map_append, sites_outline inProtocol d,
      sitesList_outline inProtocol ds]
end

end Declaration

end Laws

/-! ## Migrations -/

namespace Migration

variable (m : Migration)

/-- The qualifier for a site; none where ascriptions are left alone. -/
def keyword : Site → Option Qualifier
  | .property accessor | .localVariable accessor =>
    if accessor = some .computed then none else some .any
  | .parameter variadic default =>
    if variadic ∨ DefaultShape.ofDefault default = .shared then some .any
    else some m.policy.preferred
  | .result inProtocol => if inProtocol then some .any else some m.policy.preferred
  | .aliasTarget => some .any

/-- The ascription qualified for its site. -/
def atSite (s : Site) (a : Ascription) : Ascription := m.ascription (m.keyword s) a

/-- No more than the type of an ascription changes. -/
theorem atSite_eq (s : Site) (a : Ascription) :
    m.atSite s a = { a with type := (m.atSite s a).type } := by
  unfold atSite ascription
  split <;> rfl

theorem parameterKeyword_eq (p : Parameter) {place : Place}
    (h : place = .functionParameter ∨ place = .initializerParameter) :
    m.parameterKeyword place p = m.keyword p.site := by
  unfold parameterKeyword keyword Parameter.site
  by_cases hv : p.variadic = true
  · simp [hv]
  · rcases h with rfl | rfl <;> simp [hv, Policy.qualifierFor]

theorem parameter_eq {place : Place}
    (h : place = .functionParameter ∨ place = .initializerParameter) :
    m.parameter place = Parameter.mapSites m.atSite := by
  funext p
  unfold parameter Parameter.mapSites atSite
  rw [m.parameterKeyword_eq p h]

/-- A variable of a file, of a type or of a body. -/
theorem bindings_eq {place : Place} {site : Option Accessor → Site}
    (h : ∀ accessor, m.policy.qualifierFor
        (if accessor = some Accessor.computed then .computedProperty else place) .absent =
      m.keyword (site accessor)) (d : VariableDecl) :
    m.bindings place d = d.mapSites m.atSite site := by
  have hbinding : m.binding place = Binding.mapSites m.atSite site := by
    funext b
    have hkey := h b.accessor
    simp only [binding, Binding.mapSites, Binding.isComputed, beq_iff_eq]
    rw [hkey]
    rfl
  unfold bindings VariableDecl.mapSites
  rw [hbinding]

theorem property_eq (d : VariableDecl) :
    m.bindings .storedProperty d = d.mapSites m.atSite .property := by
  apply m.bindings_eq
  intro accessor
  by_cases hc : accessor = some Accessor.computed <;> simp [hc, Policy.qualifierFor, keyword]

theorem body_eq (b : CodeBlock) : m.body b = b.mapSites m.atSite := by
  have hlocal : m.bindings .localVariable = VariableDecl.mapSites m.atSite .localVariable := by
    funext d
    apply m.bindings_eq
    intro accessor
    by_cases hc : accessor = some Accessor.computed <;> simp [hc, Policy.qualifierFor, keyword]
  unfold body CodeBlock.mapSites
  rw [hlocal]

theorem function_eq (inProtocol : Bool) (d : FunctionDecl) :
    m.function inProtocol d = d.mapSites m.atSite inProtocol := by
  have hresult : m.resultKeyword inProtocol = m.keyword (.result inProtocol) := by
    cases inProtocol <;> rfl
  have hbody : m.body = CodeBlock.mapSites m.atSite := funext m.body_eq
  unfold function FunctionDecl.mapSites
  rw [m.parameter_eq (.inl rfl), hresult, hbody]
  rfl

theorem initializer_eq (d : InitializerDecl) : m.initializer d = d.mapSites m.atSite := by
  have hbody : m.body = CodeBlock.mapSites m.atSite := funext m.body_eq
  unfold initializer InitializerDecl.mapSites
  rw [m.parameter_eq (.inr rfl), hbody]

mutual
theorem declaration_eq (inProtocol : Bool) : (d : Declaration) →
    m.declaration inProtocol d = d.mapSites m.atSite inProtocol
  | .protocol _ _ members => by
    rw [declaration, Declaration.mapSites, declarations_eq true members]
  | .nominal _ _ _ members => by
    rw [declaration, Declaration.mapSites, declarations_eq false members]
  | .bindings d => congrArg Declaration.bindings (m.property_eq d)
  | .function d => congrArg Declaration.function (m.function_eq inProtocol d)
  | .initializer d => congrArg Declaration.initializer (m.initializer_eq d)
  | .typeAlias _ => rfl

/-- A migration qualifies each ascription for its site, and does nothing else. -/
theorem declarations_eq (inProtocol : Bool) : (ds : List Declaration) →
    m.declarations inProtocol ds = Declaration.mapSitesList m.atSite inProtocol ds
  | [] => rfl
  | d :: ds => by
    rw [declarations, Declaration.mapSitesList, declaration_eq inProtocol d,
      declarations_eq inProtocol ds]
end

theorem declarations_file (f : SourceFile) :
    (m.file f).declarations = Declaration.mapSitesList m.atSite false f.declarations :=
  m.declarations_eq false f.declarations

end Migration

end AnySome
