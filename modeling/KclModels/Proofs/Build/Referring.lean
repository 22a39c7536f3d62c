import KclModels.Proofs.Build.Translating

/-!
# Definitions that are references

A definition that is only a reference is built as an alias or as a composition with the reference as
its one branch, by the shape of the schema that the reference leads to. Nothing is built below it
either way: the schema of the alias and that of the branch hold no other schema, and building such a
schema comes down to two looks at its type.
-/

namespace KclModels

variable {tr : Text.Transliteration}

namespace Schema

/-- Whether a reference to the schema is an alias: to an array, a map, a known type or a base. -/
def isAliasable (c : Schema) : Bool :=
  let shape := Shape.ofParts c false false
  shape.array || shape.map || shape.known || shape.base

end Schema

/-- The shape of a reference is that of the schema that it leads to, whatever its parts are. -/
theorem Shape.ofSchema_leads {r : Registry} {c : Schema} {reference : String} {shape : Shape}
    (href : c.reference = some reference) (h : Shape.ofSchema r c = .ok shape) :
    ∃ d, r.Leads reference d ∧
      ∃ simpleItem simpleValue, shape = Shape.ofParts d simpleItem simpleValue := by
  rw [ofSchema, ofSchemaIn] at h
  obtain ⟨d, hd, h⟩ := bind_eq_ok.mp h
  obtain ⟨simpleItem, -, h⟩ := bind_eq_ok.mp h
  obtain ⟨simpleValue, -, h⟩ := bind_eq_ok.mp h
  rw [behind, href] at hd
  exact ⟨d, Registry.resolve_leads hd, simpleItem, simpleValue, (Except.ok.inj h).symm⟩

/-- The facts of a model without its type, its name in the file and its place among subtypes. -/
def ModelFacts.undressed (facts : ModelFacts) : ModelFacts :=
  { facts with
    type := {}
    declaredName := ""
    isBase := false
    exported := false
    isSubtype := false
    discriminatorField := none
    discriminatorValue := none
    discriminates := [] }

/-- The model has no parts, and beside its type only what the schema says itself. -/
structure Model.Partless (m : Model) (c : Schema) : Prop where
  items : m.items = none
  extraItems : m.additionalItems = none
  properties : m.properties = []
  allOf : m.allOf = []
  value : m.additionalProperties = none
  extended : m.isAdditionalProperties = false
  reference : m.reference = c.referenceName
  title : m.title = c.title.map trimMarks
  description : m.description = c.description.map trimMarks
  readOnly : m.readOnly = c.readOnly
  choice : m.constraints.enumValues = c.enumValues
  itemsChoice : m.itemsEnum = []

theorem Model.Partless.dressed {m : Model} {c : Schema} {facts : ModelFacts} {allOf : List Model}
    (h : m.Partless c) (hf : facts.undressed = m.undressed) (hall : allOf = []) :
    ({ m with toModelFacts := facts, allOf } : Model).Partless c where
  items := h.items
  extraItems := h.extraItems
  properties := h.properties
  allOf := hall
  value := h.value
  extended := (congrArg ModelFacts.isAdditionalProperties hf).trans h.extended
  reference := (congrArg ModelFacts.reference hf).trans h.reference
  title := (congrArg ModelFacts.title hf).trans h.title
  description := (congrArg ModelFacts.description hf).trans h.description
  readOnly := (congrArg ModelFacts.readOnly hf).trans h.readOnly
  choice := (congrArg (·.constraints.enumValues) hf).trans h.choice
  itemsChoice := (congrArg ModelFacts.itemsEnum hf).trans h.itemsChoice

namespace Frame

open Build

variable {setting : Setting} {build : Frame → Build Frame} {s s' : Session} {f f' : Frame}
variable {reference : String}

/-! ## Schemas that hold no other -/

/-- The frame of a schema that holds no other, with the types that it is given. -/
def finished (setting : Setting) (f : Frame) (t t' : TypeInfo) : Frame :=
  (((f.start setting (.ofSchema f.schema)).fillContainer.setType t t.baseType).retype t').orderProperties
    setting

theorem constraints_of_no_choice (h : f.schema.enumValues = []) :
    f.constraints = pure (.ofSchema f.schema) := by
  have henum : (Constraints.ofSchema f.schema).enumValues = [] := h
  unfold constraints
  simp only [henum, List.isEmpty_nil, if_true]

theorem pointMap_eq_self (h : f.model.hasAdditionalProperties = false) : f.pointMap = f := by
  rw [pointMap, h, Bool.and_false]
  rfl

/-- A frame of a schema that holds no other is built by looking its type up, twice. -/
theorem buildStep_childless (hc : f.schema.Childless) (henum : f.schema.enumValues = [])
    (hf : f.Fresh) (hplace : (f.named && f.schema.reference.isSome) = false)
    (h : (f.buildStep setting build).Gives s f' s') :
    s' = s ∧ ∃ t t' required required',
      (resolverAt setting f s).resolve f.schema (!f.named) required = .ok t ∧
      (resolverAt setting f s).resolve f.schema (!f.named) required' = .ok t' ∧
      f' = f.finished setting t t' := by
  obtain ⟨k, s₀, t, f₃, s₃, t', f₄, s₄, f₅, s₅, required, hk, ht, hextra, ht', hprops, hadd, hitems⟩ :=
    buildStep_unbranched hplace hc.allOf h
  rw [constraints_of_no_choice henum, gives_pure] at hk
  obtain ⟨rfl, rfl⟩ := hk
  -- nothing is allowed beyond the properties, and no step after that finds anything to build
  generalize hg : (f.start setting (.ofSchema f.schema)).fillContainer = g at hextra
  have hschema : g.schema = f.schema := by rw [← hg, fillContainer_schema]; rfl
  have hextra₃ : f₃ = g.setType t t.baseType ∧ s₃ = s := by
    rcases buildAdditionalProperties_cases hextra with ⟨-, h₃, h₃'⟩ | ⟨extra, hsome, -⟩
    · exact ⟨h₃, h₃'⟩
    · have hnone : g.schema.additionalProperties = none := hschema ▸ hc.values
      exact absurd (hnone.symm.trans hsome) (by simp)
  obtain ⟨rfl, rfl⟩ := hextra₃
  have hpoint : (g.setType t t.baseType).pointMap = g.setType t t.baseType := by
    refine pointMap_eq_self ?_
    show g.model.hasAdditionalProperties = false
    rw [← hg, fillContainer_model]
    show f.model.hasAdditionalProperties = false
    rw [hf.model]
  rw [hpoint] at hprops
  have hchildless : ((g.setType t t.baseType).retype t').schema.Childless := by
    show g.schema.Childless
    rwa [hschema]
  obtain ⟨rfl, rfl⟩ := childless_rest hchildless hprops hadd hitems
  have hlook : resolverAt setting (g.setType t t.baseType) s' = resolverAt setting f s' := by
    show resolverAt setting g s' = _
    rw [← hg, resolverAt_fillContainer]
    rfl
  have hnamed : (g.setType t t.baseType).named = f.named := by
    show g.named = _
    rw [← hg, fillContainer_named]
    rfl
  rw [hlook, hnamed, show (g.setType t t.baseType).schema = f.schema from hschema] at ht'
  exact ⟨rfl, t, t', _, _, ht, ht', by rw [finished, hg]⟩

theorem finished_model (setting : Setting) (f : Frame) (t t' : TypeInfo) :
    (f.finished setting t t').model = { (f.filled setting (.ofSchema f.schema)).model with
      isBase := t'.discriminated
      type := { t' with complex := t.complex, map := t.map }
      properties := Model.sortProperties f.model.properties setting.options.keepOrder } := by
  have hmodel := fillContainer_model (f.start setting (.ofSchema f.schema))
  simp only [finished, orderProperties, retype, setType, mapModel, hmodel]
  rfl

theorem finished_partless (setting : Setting) (hf : f.Fresh) (t t' : TypeInfo) :
    (f.finished setting t t').model.Partless f.schema := by
  rw [finished_model]
  refine ⟨congrArg Model.items hf.model, congrArg Model.additionalItems hf.model, ?_,
    congrArg Model.allOf hf.model, congrArg Model.additionalProperties hf.model,
    congrArg (·.isAdditionalProperties) hf.model, rfl, rfl, rfl, rfl, rfl,
    congrArg (·.itemsEnum) hf.model⟩
  show Model.sortProperties f.model.properties _ = []
  rw [hf.model]
  rfl

theorem finished_extras (setting : Setting) (f : Frame) (t t' : TypeInfo) :
    (f.finished setting t t').extras = f.extras := by
  show (f.start setting (.ofSchema f.schema)).fillContainer.extras = _
  exact (fillContainer_same _).extras

/-! ## Aliases and compositions -/

/-- The shape of the target decides between an alias and a composition. -/
theorem buildReference_choice (href : f.schema.reference = some reference)
    (h : (f.buildReference setting build).Gives s f' s') :
    ∃ d, s.registry.Leads reference d ∧
      ((d.isAliasable = true ∧ ∃ simpleItem simpleValue target alias_,
          (resolverAt setting f s).resolve f.schema false true = .ok target ∧
          (build f.aliasOf).Gives s alias_ s' ∧
          f' = f.takeAlias alias_ (Shape.ofParts d simpleItem simpleValue) target) ∨
        (d.isAliasable = false ∧ ∃ branch, (build (f.branch f.schema 0)).Gives s branch s' ∧
          f' = (f.mapType fun _ =>
            soleBranchType (resolverAt setting f s).modelTypeName).addBranch branch)) := by
  simp only [buildReference, gives_bind, gives_registry, gives_ofReference] at h
  obtain ⟨_, _, ⟨rfl, rfl⟩, shape, _, ⟨hshape, rfl⟩, h⟩ := h
  obtain ⟨d, hd, simpleItem, simpleValue, rfl⟩ := Shape.ofSchema_leads href hshape
  refine ⟨d, hd, ?_⟩
  -- the kind of the parts has no say in whether the shape is that of an alias
  change ((if d.isAliasable then _ else _) : Build Frame).Gives s f' s' at h
  split at h
  · rename_i hyes
    simp only [gives_bind, gives_resolve, gives_pure] at h
    obtain ⟨target, _, ⟨ht, rfl⟩, alias_, _, ha, rfl, rfl⟩ := h
    exact Or.inl ⟨hyes, simpleItem, simpleValue, target, alias_, ht, ha, rfl⟩
  · rename_i hno
    simp only [gives_bind, gives_resolver, gives_pure] at h
    obtain ⟨_, _, ⟨rfl, rfl⟩, branch, _, hb, rfl, rfl⟩ := h
    exact Or.inr ⟨by simpa using hno, branch, hb, rfl⟩

end Frame

namespace Model

/-- The model composes one branch that stands for a reference, and is nothing else. -/
structure OnlyComposes (m branch : Model) : Prop where
  items : m.items = none
  extraItems : m.additionalItems = none
  properties : m.properties = []
  allOf : m.allOf = [branch]
  value : m.additionalProperties = none
  package : m.type.package = ""
  reference : branch.reference.isSome = true
  declares : branch.properties = []

/-- The model has the type with which the definition `n` is declared. -/
structure HasTypeOf [Text.Transliteration] (o : Options) (r : Registry) (n : String) (c : Schema)
    (m : Model) : Prop where
  kclType : m.type.kclType = (r.declared o n c).kclType
  package : m.type.package = (r.declared o n c).package

/-- The model of a definition that is only a reference to `n`, which leads to the schema `d`. -/
inductive RefersOnly [Text.Transliteration] (o : Options) (r : Registry) (n : String) (c d : Schema)
    (m : Model) : Prop
  | aliased : d.isAliasable = true → m.Partless {} → m.type.tuple = false → m.HasTypeOf o r n c →
      RefersOnly o r n c d m
  | composed {branch : Model} : d.isAliasable = false → m.OnlyComposes branch →
      branch.type.complex = d.isRecord → branch.HasTypeOf o r n c → RefersOnly o r n c d m

theorem RefersOnly.dressed {o : Options} {r : Registry} {n : String} {c d : Schema} {m : Model}
    {facts : ModelFacts} {allOf : List Model} (h : m.RefersOnly o r n c d)
    (hf : facts.undressed = m.undressed) (htype : facts.type = m.type) (hall : allOf = m.allOf) :
    ({ m with toModelFacts := facts, allOf } : Model).RefersOnly o r n c d := by
  cases h with
  | aliased halias hparts htuple hown =>
    refine .aliased halias (hparts.dressed hf (hall.trans hparts.allOf)) ?_ ⟨?_, ?_⟩
    · exact (congrArg TypeInfo.tuple htype).trans htuple
    · exact (congrArg TypeInfo.kclType htype).trans hown.kclType
    · exact (congrArg TypeInfo.package htype).trans hown.package
  | composed hcomposes hbranch hcomplex hown =>
    exact .composed hcomposes ⟨hbranch.items, hbranch.extraItems, hbranch.properties,
      hall.trans hbranch.allOf, hbranch.value, (congrArg TypeInfo.package htype).trans hbranch.package,
      hbranch.reference, hbranch.declares⟩ hcomplex hown

end Model

namespace Frame

open Build Model

variable {setting : Setting} {s s' : Session} {f f' : Frame} {reference : String}

theorem aliasOf_childless (f : Frame) : f.aliasOf.schema.Childless := ⟨rfl, rfl, rfl, rfl, rfl⟩

theorem aliasOf_fresh (f : Frame) : f.aliasOf.Fresh := ⟨rfl, rfl, rfl⟩

theorem aliasOf_bare (h : f.schema = { reference := some reference }) : f.aliasOf.schema = {} := by
  rw [aliasOf, h]

/-- What stands for an alias is built by looking its type up. -/
theorem Builds.alias {g alias_ : Frame} (h : g.aliasOf.Builds setting s alias_ s') :
    s' = s ∧ ∃ t t', alias_ = g.aliasOf.finished setting t t' := by
  obtain ⟨build, -, hs⟩ := h.step
  obtain ⟨heq, t, t', _, _, -, -, halias⟩ :=
    buildStep_childless g.aliasOf_childless rfl g.aliasOf_fresh (Bool.and_false _) hs
  exact ⟨heq, t, t', halias⟩

/-- A branch that is only a reference has the type of its target, and nothing else. -/
theorem Builds.branch_of_reference {d : Schema} {n : String} (h : f.Builds setting s f' s')
    (hf : f.Fresh) (hnamed : f.named = false) (hc : f.schema = { reference := some reference })
    (hd : s.registry.Leads reference d) (hname : Reference.name? reference = some n) :
    s' = s ∧ f'.extras = [] ∧ f'.model.Partless { reference := some reference } ∧
      f'.model.type.complex = d.isRecord ∧
      ∃ c, s.registry.get? n = some c ∧ f'.model.HasTypeOf setting.options s.registry n c := by
  have href : f.schema.reference = some reference := by rw [hc]
  have hreference : f.schema.referenceName = some n :=
    Schema.referenceName_eq href hname
  obtain ⟨build, -, hs⟩ := h.step
  obtain ⟨rfl, t, t', _, _, ht, ht', rfl⟩ := buildStep_childless (hc ▸ ⟨rfl, rfl, rfl, rfl, rfl⟩)
    (by rw [hc]) hf (by rw [hnamed]; rfl) hs
  rw [hnamed] at ht
  obtain ⟨c, hget, hkcl, hpackage⟩ := Resolver.resolve_reference hreference ht'
  obtain ⟨d', hd', hcomplex, -⟩ := Resolver.resolve_reference_kind href ht
  obtain rfl := hd.unique hd'
  -- the type is the one that the frame was given last
  have hm := congrArg ModelFacts.type (congrArg Model.toModelFacts (finished_model setting f t t'))
  refine ⟨rfl, (finished_extras setting f t t').trans hf.extras, ?_, ?_, c, hget, ?_, ?_⟩
  · rw [← hc]
    exact finished_partless setting hf t t'
  · rw [hm]
    exact hcomplex
  · rw [hm]
    exact hkcl
  · rw [hm]
    exact hpackage

/-- **A definition that is only a reference** is an alias of the type of its target, or composes it. -/
theorem Builds.of_reference (h : f.Builds setting s f' s') (hf : f.Fresh) (hnamed : f.named = true)
    (hc : f.schema = { reference := some reference }) :
    s'.registry = s.registry ∧ f'.extras = [] ∧ ∃ n c d, Reference.name? reference = some n ∧
      s.registry.get? n = some c ∧ s.registry.Leads reference d ∧
      f'.model.RefersOnly setting.options s.registry n c d := by
  have href : f.schema.reference = some reference := by rw [hc]
  have hsome : f.schema.reference.isSome = true := by rw [href]; rfl
  have henum : f.schema.enumValues = [] := by rw [hc]
  obtain ⟨build, hb, hs⟩ := h.step
  -- the place has a name, so that the reference is all that is built
  obtain ⟨k, s₀, hk, ⟨-, -, hs⟩ | ⟨hno, -⟩⟩ := buildStep_steps hs
  swap
  · rw [hnamed, hsome] at hno
    exact absurd hno (by decide)
  rw [constraints_of_no_choice henum, gives_pure] at hk
  obtain ⟨rfl, rfl⟩ := hk
  have hstart : (f.start setting (.ofSchema f.schema)).schema.reference = some reference := href
  obtain ⟨d, hd, hcases⟩ := buildReference_choice hstart hs
  obtain ⟨n, hname⟩ := hd.exists_name
  have hstartschema : (f.start setting (.ofSchema f.schema)).schema = { reference := some reference } :=
    hc
  have hextras : (f.start setting (.ofSchema f.schema)).extras = [] := hf.extras
  rcases hcases with ⟨halias, simpleItem, simpleValue, target, alias_, ht, ha, rfl⟩ |
    ⟨hcomposes, branch, hbranch, rfl⟩
  · have hreference : f.schema.referenceName = some n :=
      Schema.referenceName_eq href hname
    obtain ⟨c, hget, hkcl, hpackage⟩ := Resolver.resolve_reference hreference ht
    obtain ⟨rfl, t, t', rfl⟩ := (hb _ _ _ _ ha).alias
    refine ⟨rfl, ?_, n, c, d, hname, hget, hd, .aliased halias ?_ rfl ⟨hkcl, hpackage⟩⟩
    · show Assoc.mergeSorted (f.start setting (.ofSchema f.schema)).extras
        ((f.start setting (.ofSchema f.schema)).aliasOf.finished setting t t').extras = []
      rw [hextras, finished_extras]
      rfl
    · have hparts := finished_partless setting
        (f.start setting (.ofSchema f.schema)).aliasOf_fresh t t'
      rw [aliasOf_bare hstartschema] at hparts
      exact hparts.dressed rfl hparts.allOf
  · obtain ⟨rfl, hbare, hparts, hcomplex, c, hget, htype⟩ :=
      (hb _ _ _ _ hbranch).branch_of_reference ⟨rfl, rfl, rfl⟩ rfl hc hd hname
    refine ⟨rfl, ?_, n, c, d, hname, hget, hd, .composed hcomposes ?_ hcomplex htype⟩
    · show Assoc.mergeSorted (f.start setting (.ofSchema f.schema)).extras branch.extras = []
      rw [hextras, hbare]
      rfl
    · refine ⟨congrArg Model.items hf.model, congrArg Model.additionalItems hf.model,
        congrArg Model.properties hf.model, ?_, congrArg Model.additionalProperties hf.model, rfl,
        ?_, hparts.properties⟩
      · show f.model.allOf ++ [branch.model] = [branch.model]
        rw [hf.model]
        rfl
      · rw [hparts.reference, Schema.referenceName, Option.bind_some, hname]
        rfl

end Frame

end KclModels
