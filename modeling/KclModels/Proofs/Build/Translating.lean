import KclModels.Proofs.Build.Extracts
import KclModels.Proofs.Build.Persisting
import KclModels.Proofs.Resolve.Kinds

/-!
# Models follow the structure of their schemas

The type of a schema that is built of plain types, references, arrays, maps and objects is found in
several places: before a part of it is made a definition, after that, and for each part on its own.
What the model is left with tells the same structure whichever way it came: each part of the schema
has the model that stands for it, and a part that was made a definition has a model that refers to
that definition.

The induction is on the depth of building. A frame that is built again, because its elements or the
whole of it were made a definition, holds a schema of the same kind with a reference in its place.
-/

namespace KclModels

variable {tr : Text.Transliteration}

namespace Registry

variable {r r' : Registry} {o : Options} {n : String} {c : Schema}

/-- The name and package that a definition is declared under. -/
def declared [Text.Transliteration] (r : Registry) (o : Options) (n : String) (c : Schema) :
    DeclaredType :=
  ({ registry := r, options := o, modelName := n, path := n } : Resolver).declared n c

/-- What is a definition already does not become one that was made on the way. -/
theorem Grows.isHoisted (h : r.Grows r') (hc : r.get? n = some c) :
    r'.isHoisted n = r.isHoisted n := by
  rw [Bool.eq_iff_iff, Registry.isHoisted, Registry.isHoisted, List.contains_iff_mem,
    List.contains_iff_mem]
  refine ⟨fun hn => ?_, h.hoisted n⟩
  rcases h.made n hn with hn | ⟨hfree, -⟩
  · exact hn
  · rw [get?_eq_none_of_free hfree] at hc
    exact absurd hc (by simp)

theorem Grows.declared (h : r.Grows r') (hc : r.get? n = some c) (o : Options) (d : Schema) :
    r'.declared o n d = r.declared o n d := by
  unfold Registry.declared Resolver.declared
  simp only [h.isHoisted hc]

end Registry

/-! ## What models say of types -/

namespace Model

/-- The model refers to the definition `n` and has the name and package of that. -/
structure StandsFor [Text.Transliteration] (o : Options) (r : Registry) (n : String) (m : Model) :
    Prop where
  reference : m.reference = some n
  declared : ∃ c, r.get? n = some c ∧ m.type.kclType = (r.declared o n c).kclType ∧
    m.type.package = (r.declared o n c).package
  items : m.items = none
  value : m.additionalProperties = none

/-- The model has a type of no package that is written `text`, and no parts to write it out of. -/
structure Bears (m : Model) (text : String) : Prop where
  kclType : m.type.kclType = text
  package : m.type.package = ""
  items : m.items = none
  value : m.additionalProperties = none

/-- The model has a type of no package that is written out of that of the elements `p`. -/
structure Lists (m p : Model) : Prop where
  package : m.type.package = ""
  array : m.type.array = true
  items : m.items = some p
  value : m.additionalProperties = none

/-- The model has a type of no package that is written out of that of the values `p`. -/
structure Maps (m p : Model) : Prop where
  package : m.type.package = ""
  kclType : Text.begins "\x7bstr:" m.type.kclType = true
  items : m.items = none
  value : m.additionalProperties = some p

/-- **The model of a schema follows its structure.** -/
inductive Translates [Text.Transliteration] (o : Options) (r : Registry) : Schema → Model → Prop
  | plain {c : Schema} {text : String} {m : Model} : c.IsPlain text → m.Bears text →
      Translates o r c m
  | array {c item : Schema} {p m : Model} : c.IsArray (some item) → m.Lists p →
      Translates o r item p → Translates o r c m
  | map {c value : Schema} {p m : Model} : c.IsMap value → m.Maps p →
      Translates o r value p → Translates o r c m
  | reference {c : Schema} {n : String} {m : Model} : c.IsReference → c.referenceName = some n →
      m.StandsFor o r n → Translates o r c m
  /-- A tuple is the definition that was made of its places. -/
  | tuple {c : Schema} {places : List Schema} {extra : Option (Extra Schema)} {n : String}
      {m : Model} : c.IsTuple places → r.get? n = some (Frame.tupleRecord places extra) →
      n ∈ r.hoisted → m.StandsFor o r n → Translates o r c m
  /-- An object that declares something is the definition that was made of it. -/
  | record {c : Schema} {n : String} {m : Model} : c.IsRecord → r.get? n = some c →
      n ∈ r.hoisted → m.StandsFor o r n → Translates o r c m

variable {o : Options} {r r' : Registry} {n text : String} {c : Schema} {m m' p : Model}

theorem StandsFor.mono (h : m.StandsFor o r n) (hr : r.Grows r') : m.StandsFor o r' n where
  reference := h.reference
  declared := by
    obtain ⟨c, hc, hdeclared⟩ := h.declared
    refine ⟨c, hr.keeps n c hc, ?_⟩
    rw [hr.declared hc]
    exact hdeclared
  items := h.items
  value := h.value

theorem Translates.mono (h : Translates o r c m) (hr : r.Grows r') : Translates o r' c m := by
  induction h with
  | plain hc hm => exact .plain hc hm
  | array hc hm _ ih => exact .array hc hm ih
  | map hc hm _ ih => exact .map hc hm ih
  | reference hc hn hm => exact .reference hc hn (hm.mono hr)
  | tuple hc hn hmade hm => exact .tuple hc (hr.keeps _ _ hn) (hr.hoisted _ hmade) (hm.mono hr)
  | record hc hn hmade hm => exact .record hc (hr.keeps _ _ hn) (hr.hoisted _ hmade) (hm.mono hr)

/-- The models have the same type, reference and parts that make up a type. -/
structure SameType (m m' : Model) : Prop where
  type : m'.type = m.type
  reference : m'.reference = m.reference
  items : m'.items = m.items
  value : m'.additionalProperties = m.additionalProperties

theorem StandsFor.same (h : m.StandsFor o r n) (hs : SameType m m') : m'.StandsFor o r n where
  reference := hs.reference.trans h.reference
  declared := hs.type ▸ h.declared
  items := hs.items.trans h.items
  value := hs.value.trans h.value

theorem Translates.same (h : Translates o r c m) (hs : SameType m m') : Translates o r c m' := by
  cases h with
  | plain hc hm =>
    exact .plain hc ⟨hs.type ▸ hm.kclType, hs.type ▸ hm.package, hs.items.trans hm.items,
      hs.value.trans hm.value⟩
  | array hc hm hp =>
    exact .array hc ⟨hs.type ▸ hm.package, hs.type ▸ hm.array, hs.items.trans hm.items,
      hs.value.trans hm.value⟩ hp
  | map hc hm hp =>
    exact .map hc ⟨hs.type ▸ hm.package, hs.type ▸ hm.kclType, hs.items.trans hm.items,
      hs.value.trans hm.value⟩ hp
  | reference hc hn hm => exact .reference hc hn (hm.same hs)
  | tuple hc hn hmade hm => exact .tuple hc hn hmade (hm.same hs)
  | record hc hn hmade hm => exact .record hc hn hmade (hm.same hs)

/-- The later model is the earlier one where that is a part of another. -/
structure SamePart (m m' : Model) : Prop extends SameType m m' where
  bounds : m'.constraints.values = m.constraints.values

/-- Pointing a value of a map at an expression leaves the types alone. -/
theorem Translates.pointed (h : Translates o r c m) : ∀ e, Translates o r c (pointValue e m) := by
  have hsame : ∀ {m : Model} (e : String), m.additionalProperties = none →
      SameType m (pointValue e m) := by
    intro m e hnone
    obtain ⟨facts, items, extraItems, properties, allOf, v⟩ := m
    obtain rfl : v = none := hnone
    exact ⟨rfl, rfl, rfl, rfl⟩
  induction h with
  | @map c value p m hc hm hp ih =>
    intro e
    obtain ⟨facts, items, extraItems, properties, allOf, v⟩ := m
    obtain rfl : v = some p := hm.value
    exact .map hc ⟨hm.package, hm.kclType, hm.items, rfl⟩ (ih (e ++ "[" ++ facts.keyVar ++ "]"))
  | @array c item p m hc hm hp _ =>
    intro e
    exact (array hc hm hp).same (hsame e hm.value)
  | plain hc hm => exact fun e => (plain hc hm).same (hsame e hm.value)
  | reference hc hn hm => exact fun e => (reference hc hn hm).same (hsame e hm.value)
  | tuple hc hn hmade hm => exact fun e => (tuple hc hn hmade hm).same (hsame e hm.value)
  | record hc hn hmade hm => exact fun e => (record hc hn hmade hm).same (hsame e hm.value)

end Model

/-! ## Frames -/

namespace Frame

open Build Model

variable {setting : Setting} {build : Frame → Build Frame} {s s' s₁ s₂ s₃ s₄ s₅ : Session}
variable {f f' f₃ f₄ f₅ g : Frame} {c item value : Schema} {n text : String} {t t' : TypeInfo}

/-- Nothing is asked of registries, schemas and errors. -/
theorem fits_free : Fits setting (fun _ => True) (fun _ _ => True) fun _ => True :=
  fits_of_hoists fun _ _ _ _ _ => trivial

/-- Building only adds to the registry. -/
theorem Builds.adds (h : f.Builds setting s f' s') : s.registry.Grows s'.registry := by
  obtain ⟨depth, h⟩ := h
  exact ((buildIn_meets fits_free (Or.inl trivial) trivial trivial).1 f' s' h).grows

theorem BuildsBelow.descends (hb : BuildsBelow setting build) (f : Frame) :
    Descends (fun _ => True) (fun _ _ => True) (fun _ => True) build f := by
  intro g s _ _ _
  refine ⟨fun g' s' hg => ?_, fun _ _ _ => trivial⟩
  obtain ⟨depth, h⟩ := hb g s g' s' hg
  exact (buildIn_meets fits_free (Or.inl trivial) trivial trivial).1 g' s' h

/-- A frame is kept by doing nothing. -/
theorem kept_refl (f : Frame) (s : Session) :
    Kept (fun _ => True) (fun _ _ => True) f s f s :=
  ⟨rfl, rfl, .refl _, .refl _, trivial, trivial⟩

theorem buildAllOf_grows (hb : BuildsBelow setting build)
    (h : (f.buildAllOf setting build).Gives s f' s') : s.registry.Grows s'.registry :=
  ((buildAllOf_meets fits_free (hb.descends f) (kept_refl f s)).1 f' s' h).grows

theorem buildAdditionalProperties_grows (hb : BuildsBelow setting build)
    (h : (f.buildAdditionalProperties setting build).Gives s f' s') :
    s.registry.Grows s'.registry :=
  ((buildAdditionalProperties_meets fits_free (hb.descends f) (kept_refl f s)).1 f' s' h).grows

theorem buildProperties_grows (hb : BuildsBelow setting build)
    (h : (f.buildProperties setting build).Gives s f' s') : s.registry.Grows s'.registry :=
  ((buildProperties_meets fits_free (hb.descends f) (kept_refl f s)).1 f' s' h).grows

theorem buildAdditionalItems_grows (hb : BuildsBelow setting build)
    (h : (f.buildAdditionalItems setting build).Gives s f' s') : s.registry.Grows s'.registry :=
  ((buildAdditionalItems_meets fits_free (hb.descends f) (kept_refl f s)).1 f' s' h).grows

/-- The steps after the type is looked up again only add to the registry. -/
theorem finish_adds (hb : BuildsBelow setting build) (hf : ¬ f.Refers)
    (hprops : (f.buildProperties setting build).Gives s f₄ s₄)
    (hadd : (f₄.buildAdditionalItems setting build).Gives s₄ f₅ s₅)
    (hitems : (f₅.buildItems setting build).Gives s₅ f' s') :
    s.registry.Grows s₄.registry ∧ s₄.registry.Grows s₅.registry ∧
      s₅.registry.Grows s'.registry := by
  have hf₅ : ¬ f₅.Refers := by
    have hkeep := buildParts_retains hprops hadd
    obtain ⟨extra, hschema⟩ := hkeep.schema
    rw [Refers, hkeep.named, hschema]
    exact hf
  have h' := (buildItems_meets fits_free (hb.descends f₅) hf₅ (kept_refl f₅ s₅)).1 f' s' hitems
  exact ⟨buildProperties_grows hb hprops, buildAdditionalItems_grows hb hadd, h'.grows⟩

/-! ### Frames without branches -/

/-- The frame is filled in and nothing is built of it beyond what was. -/
structure Filled (f g : Frame) : Prop where
  named : g.named = f.named
  tuple : g.tuple = f.tuple
  schema : g.schema = f.schema
  reference : g.model.reference = f.schema.referenceName
  items : g.model.items = f.model.items
  value : g.model.additionalProperties = f.model.additionalProperties
  properties : g.model.properties = f.model.properties
  extraItems : g.model.additionalItems = f.model.additionalItems
  allowsItems : g.model.hasAdditionalItems = f.model.hasAdditionalItems

/-- A step of building a frame without branches. -/
theorem buildStep_branchless (hplace : f.named = false ∨ f.schema.reference = none)
    (hall : f.schema.allOf = []) (hs : (f.buildStep setting build).Gives s f' s') :
    ∃ g s₂ t f₃ s₃ t' f₄ s₄ f₅ s₅ required, Filled f g ∧ s₂.registry = s.registry ∧
      (resolverAt setting g s₂).resolve f.schema (!f.named) required = .ok t ∧
      ((g.setType t t.baseType).buildAdditionalProperties setting build).Gives s₂ f₃ s₃ ∧
      (resolverAt setting f₃ s₃).resolve f₃.schema (!f₃.named) (f₃.named || f₃.tuple) = .ok t' ∧
      ((f₃.pointMap.retype t').buildProperties setting build).Gives s₃ f₄ s₄ ∧
      (f₄.buildAdditionalItems setting build).Gives s₄ f₅ s₅ ∧
      (f₅.buildItems setting build).Gives s₅ f' s' := by
  have hno : (f.named && f.schema.reference.isSome) = false := by
    rcases hplace with hplace | hplace <;> simp [hplace]
  obtain ⟨k, s₂, t, f₃, s₃, t', f₄, s₄, f₅, s₅, required, hk, ht, hextra, ht', hprops, hadd, hitems⟩ :=
    buildStep_unbranched hno hall hs
  have hfilled : Filled f (f.start setting k).fillContainer := by
    unfold fillContainer
    split <;> exact ⟨rfl, rfl, rfl, rfl, rfl, rfl, rfl, rfl, rfl⟩
  refine ⟨_, s₂, t, f₃, s₃, t', f₄, s₄, f₅, s₅, required, hfilled, constraints_registry hk, ?_,
    hextra, ht', hprops, hadd, hitems⟩
  rwa [resolverAt_fillContainer]

/-- The model has the type `t` as far as it is written, and the rest as in `f`. -/
structure Typed (f : Frame) (t : TypeInfo) (g : Frame) : Prop where
  named : g.named = f.named
  schema : ∃ extra, g.schema = { f.schema with additionalItems := extra }
  kclType : g.model.type.kclType = t.kclType
  package : g.model.type.package = t.package
  array : g.model.type.array = t.array
  reference : g.model.reference = f.model.reference
  items : g.model.items = f.model.items
  value : g.model.additionalProperties = f.pointMap.model.additionalProperties

theorem typed_finish (hprops : ((f₃.pointMap.retype t').buildProperties setting build).Gives s f₄ s₄)
    (hadd : (f₄.buildAdditionalItems setting build).Gives s₄ f₅ s₅) : Typed f₃ t' f₅ := by
  have hkeep := buildParts_retains hprops hadd
  obtain ⟨-, -, href, -, -, -, hitems, -⟩ := pointMap_facts f₃
  have hplace : f₃.pointMap.toPlace = f₃.toPlace := pointMap_toPlace
  refine ⟨hkeep.named.trans (congrArg Place.named hplace), ?_, ?_, ?_, ?_,
    hkeep.reference.trans href, hkeep.items.trans hitems, hkeep.value⟩
  · obtain ⟨extra, hschema⟩ := hkeep.schema
    refine ⟨extra, hschema.trans ?_⟩
    show { f₃.pointMap.schema with additionalItems := extra } = _
    rw [pointMap_schema]
  · rw [hkeep.type]
    rfl
  · rw [hkeep.type]
    rfl
  · rw [hkeep.type]
    rfl

/-- A frame without values beyond the properties, once it has its type and only items are left. -/
structure Ready (f : Frame) (t : TypeInfo) (g : Frame) : Prop where
  named : g.named = false
  schema : ∃ extra, g.schema = { f.schema with additionalItems := extra }
  kclType : g.model.type.kclType = t.kclType
  package : g.model.type.package = t.package
  array : g.model.type.array = t.array
  reference : g.model.reference = f.schema.referenceName
  items : g.model.items = none
  value : g.model.additionalProperties = none

/-- A frame without values beyond the properties, once it has its type and nothing else is built. -/
structure Begun (f : Frame) (t : TypeInfo) (g : Frame) : Prop where
  named : g.named = f.named
  tuple : g.tuple = f.tuple
  schema : g.schema = f.schema
  kclType : g.model.type.kclType = t.kclType
  package : g.model.type.package = t.package
  array : g.model.type.array = t.array
  reference : g.model.reference = f.schema.referenceName
  items : g.model.items = f.model.items
  value : f.model.additionalProperties = none → g.model.additionalProperties = none
  properties : g.model.properties = f.model.properties
  extraItems : g.model.additionalItems = f.model.additionalItems
  allowsItems : g.model.hasAdditionalItems = f.model.hasAdditionalItems

/-- A step of building a frame without branches and without values beyond the properties. -/
theorem buildStep_begun (hplace : f.named = false ∨ f.schema.reference = none)
    (hall : f.schema.allOf = []) (hvalues : f.schema.hasAdditionalProperties = false)
    (hs : (f.buildStep setting build).Gives s f' s') :
    ∃ g h s₃ t f₄ s₄ f₅ s₅, s₃.registry = s.registry ∧
      (resolverAt setting h s₃).resolve f.schema (!f.named) (f.named || f.tuple) = .ok t ∧
      Begun f t g ∧ (g.buildProperties setting build).Gives s₃ f₄ s₄ ∧
      (f₄.buildAdditionalItems setting build).Gives s₄ f₅ s₅ ∧
      (f₅.buildItems setting build).Gives s₅ f' s' := by
  obtain ⟨g, s₂, t, f₃, s₃, t', f₄, s₄, f₅, s₅, required, hfilled, hreg, -, hextra, ht', hprops, hadd,
    hitems⟩ := buildStep_branchless hplace hall hs
  -- without values beyond the properties that step changes neither place nor session
  obtain ⟨hf₃, rfl⟩ : Filled f f₃ ∧ s₃ = s₂ := by
    have htyped : Filled f (g.setType t t.baseType) := { hfilled with }
    rcases buildAdditionalProperties_cases hextra with ⟨-, rfl, rfl⟩ | ⟨extra, hsome, hcases⟩
    · exact ⟨htyped, rfl⟩
    · have hoff : extra.isEnabled = false := by
        have hsome : g.schema.additionalProperties = some extra := hsome
        rw [Schema.hasAdditionalProperties, ← hfilled.schema, hsome, Option.any_some] at hvalues
        exact hvalues
      rcases hcases with ⟨-, rfl, rfl⟩ | ⟨rfl, -⟩ | ⟨value, rfl, -⟩
      · exact ⟨{ htyped with }, rfl⟩
      · exact absurd hoff (by decide)
      · exact absurd hoff (by simp [Extra.isEnabled])
  rw [hf₃.schema, hf₃.named, hf₃.tuple] at ht'
  -- pointing at the map touches the type of its values only
  have hbegun : Begun f t' (f₃.pointMap.retype t') := by
    obtain ⟨-, -, -, -, -, -, -, hvalue⟩ := pointMap_facts f₃
    refine ⟨?_, ?_, ?_, rfl, rfl, rfl, ?_, ?_, fun hnone => hvalue (hf₃.value.trans hnone), ?_, ?_, ?_⟩
    · exact (congrArg Place.named pointMap_toPlace).trans hf₃.named
    · exact (congrArg Place.tuple pointMap_toPlace).trans hf₃.tuple
    · exact pointMap_schema.trans hf₃.schema
    all_goals unfold pointMap; split
    all_goals first
      | exact hf₃.reference
      | exact hf₃.items
      | exact hf₃.properties
      | exact hf₃.extraItems
      | exact hf₃.allowsItems
  exact ⟨_, f₃, s₃, t', f₄, s₄, f₅, s₅, hreg, ht', hbegun, hprops, hadd, hitems⟩

theorem buildStep_valueless (hb : BuildsBelow setting build) (hnamed : f.named = false)
    (hopen : f.Open) (hall : f.schema.allOf = [])
    (hvalues : f.schema.hasAdditionalProperties = false)
    (hs : (f.buildStep setting build).Gives s f' s') :
    ∃ g h s₃ s₅ t required, (resolverAt setting h s₃).resolve f.schema true required = .ok t ∧
      s₃.registry.Grows s'.registry ∧ Ready f t g ∧
      (g.buildItems setting build).Gives s₅ f' s' := by
  obtain ⟨g, h, s₃, t, f₄, s₄, f₅, s₅, -, ht, hbegun, hprops, hadd, hitems⟩ :=
    buildStep_begun (.inl hnamed) hall hvalues hs
  have hnamed' : g.named = false := hbegun.named.trans hnamed
  -- what is not named never refers, so the parts are built in place
  have hrefers : ¬ g.Refers := by
    rw [Refers, hnamed']
    simp
  obtain ⟨hgrows, hgrows₄, hgrows₅⟩ := finish_adds hb hrefers hprops hadd hitems
  have hkeep := buildParts_retains hprops hadd
  obtain ⟨extra, hschema⟩ := hkeep.schema
  rw [hnamed] at ht
  refine ⟨f₅, h, s₃, s₅, t, _, ht, hgrows.trans (hgrows₄.trans hgrows₅), ?_, hitems⟩
  refine ⟨hkeep.named.trans hnamed', ⟨extra, hbegun.schema ▸ hschema⟩, ?_, ?_, ?_,
    hkeep.reference.trans hbegun.reference, hkeep.items.trans (hbegun.items.trans hopen.1),
    hkeep.value.trans (hbegun.value hopen.2)⟩
  · rw [hkeep.type, hbegun.kclType]
  · rw [hkeep.type, hbegun.package]
  · rw [hkeep.type, hbegun.array]

/-- Without items nothing is left to build. -/
theorem Ready.itemless (h : Ready f t g) (hnone : f.schema.items = none)
    (hitems : (g.buildItems setting build).Gives s f' s') : f' = g := by
  obtain ⟨extra, hschema⟩ := h.schema
  have hnone' : g.schema.items = none := by rw [hschema]; exact hnone
  rcases buildItems_cases hitems with ⟨-, rfl, -⟩ | ⟨item, hsome, -⟩ | ⟨places, hsome, -⟩
  · rfl
  · exact absurd (hnone'.symm.trans hsome) (by simp)
  · exact absurd (hnone'.symm.trans hsome) (by simp)

/-! ### Plain types and references -/

theorem buildStep_plain (hb : BuildsBelow setting build) (hnamed : f.named = false)
    (hopen : f.Open) (hc : f.schema.IsPlain text)
    (hs : (f.buildStep setting build).Gives s f' s') : f'.model.Bears text := by
  have halone := hc.alone
  obtain ⟨g, h, s₃, s₅, t, required, ht, -, hready, hitems⟩ :=
    buildStep_valueless hb hnamed hopen halone.allOf halone.values hs
  obtain rfl := hready.itemless halone.items hitems
  have hreads := Resolver.resolve_plain hc ht
  exact ⟨hready.kclType.trans hreads.kclType, hready.package.trans hreads.package, hready.items,
    hready.value⟩

/-- **A reference becomes a model that stands for the definition.** -/
theorem buildStep_reference (hb : BuildsBelow setting build) (hnamed : f.named = false)
    (hopen : f.Open) (hc : f.schema.IsReference) (hs : (f.buildStep setting build).Gives s f' s') :
    ∃ n, f.schema.referenceName = some n ∧
      f'.model.StandsFor setting.options s'.registry n := by
  obtain ⟨g, h, s₃, s₅, t, required, ht, hgrows, hready, hitems⟩ :=
    buildStep_valueless hb hnamed hopen hc.allOf hc.values hs
  obtain rfl := hready.itemless hc.items hitems
  obtain ⟨reference, href⟩ := Option.isSome_iff_exists.mp hc.reference
  obtain ⟨n, hn⟩ : ∃ n, f.schema.referenceName = some n := by
    have hderef := ht
    rw [Resolver.resolve_of_reference href] at hderef
    obtain ⟨n, -, hn, -⟩ := Resolver.derefIn_ok hderef
    exact ⟨n, Schema.referenceName_eq href hn⟩
  obtain ⟨d, hd, hkclType, hpackage⟩ := Resolver.resolve_reference hn ht
  refine ⟨n, hn, StandsFor.mono ⟨hready.reference.trans hn, ⟨d, hd, ?_, ?_⟩, hready.items,
    hready.value⟩ hgrows⟩
  · exact hready.kclType.trans hkclType
  · exact hready.package.trans hpackage

/-- A place that was left with a reference to a definition that was made stands for that. -/
theorem Builds.referTo (h : f.Builds setting s f' s') (hnamed : f.named = false)
    (hopen : f.Open) (hc : f.schema = .referenceTo n) :
    f'.model.StandsFor setting.options s'.registry n := by
  obtain ⟨build, hb, hs⟩ := h.step
  obtain ⟨m, hm, hstands⟩ :=
    buildStep_reference hb hnamed hopen (hc ▸ Schema.isReference_referenceTo n) hs
  rw [hc] at hm
  exact Reference.eq_of_name?_toDefinition hm ▸ hstands

/-! ### Arrays and tuples -/

/-- The way to build frames gives models that follow the structure of their schemas. -/
def BuildsTranslating [Text.Transliteration] (setting : Setting) (build : Frame → Build Frame) :
    Prop :=
  ∀ g s g' s', g.named = false → g.Open → g.schema.Structural → ¬ g.schema.IsRecord →
    (build g).Gives s g' s' → Translates setting.options s'.registry g.schema g'.model

/-- An array is made of its elements if no definition is made of those. -/
theorem buildStep_array_of_kept (hb : BuildsBelow setting build) (hnamed : f.named = false)
    (hopen : f.Open) (hc : f.schema.IsArray (some item))
    (hkept : ∀ (r : Resolver) t, r.resolve item true false = .ok t →
      (t.complex && t.anonymous) = false)
    (hs : (f.buildStep setting build).Gives s f' s') :
    ∃ g g' s₅, g.named = false ∧ g.Fresh ∧ g.schema = item ∧ (build g).Gives s₅ g' s' ∧
      ∃ p, SamePart g'.model p ∧ f'.model.Lists p := by
  obtain ⟨g, h, s₃, s₅, t, required, ht, -, hready, hitems⟩ :=
    buildStep_valueless hb hnamed hopen hc.allOf hc.values hs
  -- the type is that of an array, of no package
  obtain ⟨harray, hpackage, -⟩ := Resolver.resolve_items hc ht
  obtain ⟨extra, hschema⟩ := hready.schema
  have hsome : g.schema.items = some (.single item) := by rw [hschema]; exact hc.items
  rcases buildItems_cases hitems with ⟨hnone, -⟩ | ⟨item', hsome', harr⟩ | ⟨places, hsome', -⟩
  · exact absurd (hnone.symm.trans hsome) (by simp)
  · obtain rfl : item' = item := by simpa using hsome'.symm.trans hsome
    obtain ⟨u, hu, ⟨hneeds, -⟩ | ⟨-, element, helement, rfl⟩⟩ := buildArray_cases harr
    · exact absurd (hneeds.symm.trans (hkept _ u hu)) (by decide)
    · obtain ⟨p, hp, hsame⟩ : ∃ p, ((g.markElements item' setting.polymorphism).setElement
          element).model.items = some p ∧ SamePart element.model p :=
        ⟨_, rfl, ⟨rfl, rfl, rfl, rfl⟩, rfl⟩
      have hmarked : (g.markElements item' setting.polymorphism).model.type.package =
          g.model.type.package ∧ (g.markElements item' setting.polymorphism).model.additionalProperties =
          g.model.additionalProperties := by
        unfold markElements
        split <;> exact ⟨rfl, rfl⟩
      exact ⟨_, element, s₅, rfl, ⟨rfl, rfl, rfl⟩, rfl, helement, p, hsame,
        hmarked.1.trans (hready.package.trans hpackage), rfl, hp, hmarked.2.trans hready.value⟩
  · exact absurd (hsome'.symm.trans hsome) (by simp)

/-- An array whose elements are no objects that declare something is made of its elements. -/
theorem buildStep_array_of_plain (hb : BuildsBelow setting build) (hnamed : f.named = false)
    (hopen : f.Open) (hc : f.schema.IsArray (some item)) (hitem : item.Structural)
    (hrec : ¬ item.IsRecord) (hs : (f.buildStep setting build).Gives s f' s') :
    ∃ g g' s₅, g.named = false ∧ g.Fresh ∧ g.schema = item ∧ (build g).Gives s₅ g' s' ∧
      ∃ p, SamePart g'.model p ∧ f'.model.Lists p := by
  refine buildStep_array_of_kept hb hnamed hopen hc (fun r t ht => ?_) hs
  exact Bool.eq_false_iff.mpr fun hneeds =>
    hrec ((Resolver.complex_anonymous_iff hitem (.inl rfl) ht).mp hneeds)

/--
An array of objects that declare something is built again with a reference to the definition that was
made of its elements.
-/
theorem buildStep_array_of_record (hb : BuildsBelow setting build) (hnamed : f.named = false)
    (hopen : f.Open) (hc : f.schema.IsArray (some item)) (hitem : item.Structural)
    (hrec : item.IsRecord) (hs : (f.buildStep setting build).Gives s f' s') :
    ∃ (g g' : Frame) (n : String) (s₅ : Session), g.named = false ∧ g.Fresh ∧
      g.schema = .referenceTo n ∧ g.Builds setting s₅ g' s' ∧ s'.registry.get? n = some item ∧
      n ∈ s'.registry.hoisted ∧ ∃ p, SamePart g'.model p ∧ f'.model.Lists p := by
  obtain ⟨g, h, s₃, s₅, t, required, -, -, hready, hitems⟩ :=
    buildStep_valueless hb hnamed hopen hc.allOf hc.values hs
  obtain ⟨extra, hschema⟩ := hready.schema
  have hsome : g.schema.items = some (.single item) := by rw [hschema]; exact hc.items
  rcases buildItems_cases hitems with ⟨hnone, -⟩ | ⟨item', hsome', harr⟩ | ⟨places, hsome', -⟩
  · exact absurd (hnone.symm.trans hsome) (by simp)
  · obtain rfl : item' = item := by simpa using hsome'.symm.trans hsome
    obtain ⟨u, hu, ⟨-, base, made, s₁, hoisted, s₂, inner, hm, hh, hi, rfl⟩ | ⟨hno, -⟩⟩ :=
      buildArray_cases harr
    -- a record without a name is always hoisted
    swap
    · have hneeds := (Resolver.complex_anonymous_iff hitem (.inl rfl) hu).mpr hrec
      exact absurd (hneeds.symm.trans hno) (by decide)
    obtain ⟨-, hstored, hmade⟩ := stored_of_hoist hb hm hh (made_fresh hm) rfl
    have hgrows := (hb _ _ _ _ hi).adds
    obtain ⟨build', hb', hs'⟩ := (hb _ _ _ _ hi).step
    -- the second time the elements are a reference, of which no definition is made
    have hagain : (g.mapItem (.referenceTo hoisted.name)).makeVirtual.restart.schema.IsArray
        (some (.referenceTo hoisted.name)) := by
      have hschema' : (g.mapItem (.referenceTo hoisted.name)).makeVirtual.restart.schema =
          { g.schema with items := some (.single (.referenceTo hoisted.name)) } := rfl
      rw [hschema', hschema]
      exact ⟨hc.toHasKind.rewrite rfl, hc.allOf, rfl, hc.values⟩
    have href := Schema.isReference_referenceTo hoisted.name
    obtain ⟨e, e', s₆, he, heo, hes, helement, p, hp, hlists⟩ :=
      buildStep_array_of_plain (f := (g.mapItem (.referenceTo hoisted.name)).makeVirtual.restart)
        hb' hready.named ⟨rfl, rfl⟩ hagain (.reference href) (Schema.not_isRecord_of_reference href) hs'
    exact ⟨e, e', hoisted.name, s₆, he, heo, hes, hb' _ _ _ _ helement,
      hgrows.keeps _ _ hstored, hgrows.hoisted _ hmade, p, hp, hlists.package, hlists.array,
      hlists.items, hlists.value⟩
  · exact absurd (hsome'.symm.trans hsome) (by simp)

/-- **The model of an array follows its structure.** -/
theorem buildStep_array (hb : BuildsBelow setting build) (ih : BuildsTranslating setting build)
    (hnamed : f.named = false) (hopen : f.Open) (hc : f.schema.IsArray (some item))
    (hitem : item.Structural) (hs : (f.buildStep setting build).Gives s f' s') :
    Translates setting.options s'.registry f.schema f'.model := by
  by_cases hrec : item.IsRecord
  · obtain ⟨g, g', n, s₅, hg, hgo, hgs, helement, hstored, hmade, p, hp, hlists⟩ :=
      buildStep_array_of_record hb hnamed hopen hc hitem hrec hs
    have hsame := (helement.referTo hg hgo.open hgs).same hp.toSameType
    exact .array hc hlists (.record hrec hstored hmade hsame)
  · obtain ⟨g, g', s₅, hg, hgo, rfl, helement, p, hp, hlists⟩ :=
      buildStep_array_of_plain hb hnamed hopen hc hitem hrec hs
    exact .array hc hlists ((ih g s₅ g' s' hg hgo.open hitem hrec helement).same hp.toSameType)

/-- A tuple is built again as a reference to the definition that was made of its places. -/
theorem buildStep_tuple_record {places : List Schema} (hb : BuildsBelow setting build)
    (hnamed : f.named = false) (hc : f.schema.IsTuple places)
    (hs : (f.buildStep setting build).Gives s f' s') :
    ∃ (f₄ g made hoisted inner : Frame) (base : String) (s₄ s₅ s₁ s₂ : Session),
      f₄.schema = f.schema ∧ (f₄.buildAdditionalItems setting build).Gives s₄ g s₅ ∧
      s.registry.Grows s₅.registry ∧ g.named = false ∧
      (hoist g base (tupleRecord places g.schema.additionalItems)).Gives s₅ made s₁ ∧
      (build { made with tuple := true }).Gives s₁ hoisted s₂ ∧
      (build (g.referTo hoisted.name).restart).Gives s₂ inner s' ∧
      f' = inner.addExtra hoisted.asTuple := by
  obtain ⟨f₀, h, s₃, t, f₄, s₄, g, s₅, hreg, -, hbegun, hprops, hadd, hitems⟩ :=
    buildStep_begun (.inl hnamed) hc.allOf hc.values hs
  have hkeep := buildParts_retains hprops hadd
  have hnamed₀ : f₀.named = false := hbegun.named.trans hnamed
  have hnamed' : g.named = false := hkeep.named.trans hnamed₀
  have hrefers : ¬ f₀.Refers := by
    rw [Refers, hnamed₀]
    simp
  obtain ⟨hgrows₄, hgrows₅, -⟩ := finish_adds hb hrefers hprops hadd hitems
  have hsome : g.schema.items = some (.tuple places) := by
    obtain ⟨extra, hschema⟩ := hkeep.schema
    rw [hschema, hbegun.schema]
    exact hc.items
  -- only a tuple without a name is left, the other shapes of the items contradict the schema
  rcases buildItems_cases hitems with ⟨hnone, -⟩ | ⟨item, hsome', -⟩ |
    ⟨places', hsome', ⟨hn, -⟩ | ⟨-, htuple⟩⟩
  · exact absurd (hnone.symm.trans hsome) (by simp)
  · exact absurd (hsome'.symm.trans hsome) (by simp)
  · exact absurd (hn.symm.trans hnamed') (by decide)
  · obtain rfl : places' = places := by simpa using hsome'.symm.trans hsome
    obtain ⟨base, made, s₁, hoisted, s₂, inner, hm, hh, hi, rfl⟩ := hoistTuple_cases htuple
    exact ⟨f₄, g, made, hoisted, inner, base, s₄, s₅, s₁, s₂,
      (buildProperties_schema hprops).trans hbegun.schema, hadd, hreg ▸ hgrows₄.trans hgrows₅,
      hnamed', hm, hh, hi, rfl⟩

/-- **The model of a tuple stands for the definition that was made of its places.** -/
theorem buildStep_tuple {places : List Schema} (hb : BuildsBelow setting build)
    (hnamed : f.named = false) (hc : f.schema.IsTuple places)
    (hs : (f.buildStep setting build).Gives s f' s') :
    Translates setting.options s'.registry f.schema f'.model := by
  obtain ⟨-, g, made, hoisted, inner, base, -, s₅, s₁, s₂, -, -, -, hnamed', hm, hh, hi, rfl⟩ :=
    buildStep_tuple_record hb hnamed hc hs
  have hfresh := made_fresh hm
  obtain ⟨-, hstored, hmade⟩ :=
    stored_of_hoist hb hm hh ⟨hfresh.model, hfresh.dependencies, hfresh.extras⟩ rfl
  have hgrows := (hb _ _ _ _ hi).adds
  have hstands := (hb _ _ _ _ hi).referTo hnamed' ⟨rfl, rfl⟩ rfl
  exact .tuple hc (hgrows.keeps _ _ hstored) (hgrows.hoisted _ hmade)
    (hstands.same ⟨rfl, rfl, rfl, rfl⟩)

/-! ### Maps -/

/-- **The innermost value of maps follows its structure.** -/
theorem buildMapLeaf_translates {parent level : Frame} (hb : BuildsBelow setting build)
    (ih : BuildsTranslating setting build) (hlevel : level.Fresh) (hnamed : level.named = false)
    (hc : level.schema.Structural)
    (ht : (t.complex && t.anonymous) = true ↔ level.schema.IsRecord)
    (hs : (buildMapLeaf build parent level t).Gives s f' s') :
    Translates setting.options s'.registry level.schema f'.model := by
  have hopen : level.Open := hlevel.open
  rcases buildMapLeaf_cases hs with ⟨hneeds, base, made, s₁, hoisted, s₂, required, hm, hh, hi⟩ |
    ⟨hno, required, hi⟩
  · obtain ⟨-, hstored, hmade⟩ := stored_of_hoist hb hm hh (made_fresh hm) rfl
    have hgrows := (hb _ _ _ _ hi).adds
    have hstands := (hb _ _ _ _ hi).referTo hnamed hopen rfl
    exact .record (ht.mp hneeds) (hgrows.keeps _ _ hstored) (hgrows.hoisted _ hmade) hstands
  · refine ih (level.require required) s f' s' hnamed hopen hc (fun hrec => ?_) hi
    exact absurd ((ht.mpr hrec).symm.trans hno) (by decide)

/-- **The values of a map follow their structure**, over any levels of maps of maps. -/
theorem buildMapLevel_translates (hb : BuildsBelow setting build)
    (ih : BuildsTranslating setting build) (v : Schema) :
    ∀ {parent f' : Frame} {s s' : Session}, v.Structural →
    (buildMapLevel setting build parent v).Gives s f' s' →
    Translates setting.options s'.registry v f'.model := by
  induction v using Schema.value_induction with
  | step v ihv =>
    intro parent f' s s' hc hs
    obtain ⟨t, ht, ⟨next, child, s₁, hvalue, hmap, href, hchild, hjoin⟩ | ⟨-, hleaf⟩⟩ :=
      buildMapLevel_cases hs
    · rw [href] at ht
      obtain ⟨hm, hnext⟩ := Resolver.isMap_of_resolve hc hvalue ht hmap
      obtain ⟨k, t', ht', rfl, hreg⟩ := joinMapLevel_cases hjoin
      have hreads := Resolver.resolve_map (hm.setValue child.schema) ht'
      rw [hreg]
      exact .map hm ⟨hreads.package, hreads.kclType, rfl, rfl⟩ (ihv next hvalue hnext hchild)
    · refine buildMapLeaf_translates hb ih ⟨rfl, rfl, rfl⟩ rfl hc ?_ hleaf
      refine Resolver.complex_anonymous_iff hc ?_ ht
      show v.reference.isNone = true ∨ v.reference.isSome = true
      cases v.reference <;> simp

/-- The values of a map stay where they are when they are pointed at the map. -/
theorem pointMap_value {p : Model} (hvalue : f.model.additionalProperties = some p) :
    ∃ p', f.pointMap.model.additionalProperties = some p' ∧
      (p' = p ∨ p' = pointValue f.model.valueExpression p) := by
  unfold pointMap
  split
  · refine ⟨_, ?_, .inr rfl⟩
    show f.model.additionalProperties.map _ = _
    rw [hvalue, Option.map_some]
  · exact ⟨p, hvalue, .inl rfl⟩

/-- A map is made of its values. -/
theorem buildStep_map_value (hb : BuildsBelow setting build) (hnamed : f.named = false)
    (hopen : f.Open) (hc : f.schema.IsMap value) (hs : (f.buildStep setting build).Gives s f' s') :
    ∃ parent child s₂ s₃ e p, (buildMapLevel setting build parent value).Gives s₂ child s₃ ∧
      s₃.registry.Grows s'.registry ∧ (p = child.model ∨ p = pointValue e child.model) ∧
      f'.model.Maps p := by
  obtain ⟨g, s₂, t, f₃, s₃, t', f₄, s₄, f₅, s₅, required, hfilled, -, ht, hextra, ht', hprops, hadd,
    hitems⟩ := buildStep_branchless (.inl hnamed) hc.allOf hs
  rw [hnamed] at ht
  have hplain : t.complex = false := (Resolver.resolve_map hc ht).complex
  have hvalues : (g.setType t t.baseType).schema.additionalProperties = some (.schema value) := by
    show g.schema.additionalProperties = _
    rw [hfilled.schema]
    exact hc.values
  obtain ⟨child, hschema₃, hnamed₃, hvalue₃, hitems₃, parent, hchild⟩ : ∃ child : Frame,
      f₃.schema = { f.schema with additionalProperties := some (.schema child.schema) } ∧
      f₃.named = false ∧ f₃.model.additionalProperties = some child.model ∧
      f₃.model.items = none ∧ ∃ parent, (buildMapLevel setting build parent value).Gives s₂ child s₃ := by
    rcases buildAdditionalProperties_cases hextra with ⟨hnone, -⟩ | ⟨extra, hsome, hcases⟩
    · exact absurd (hnone.symm.trans hvalues) (by simp)
    obtain rfl : extra = .schema value := by simpa using hsome.symm.trans hvalues
    rcases hcases with ⟨hoff, -⟩ | ⟨hflag, -⟩ | ⟨value', hv, ⟨-, hmap⟩ | ⟨hcomplex, -⟩ |
      ⟨hcomplex, -⟩⟩
    · exact absurd hoff (by simp [Extra.isEnabled])
    · exact absurd hflag (by simp)
    · obtain rfl : value = value' := by simpa using hv
      obtain ⟨child, hlevel, rfl⟩ := buildMap_cases hmap
      refine ⟨child, ?_, hfilled.named.trans hnamed, rfl, hfilled.items.trans hopen.1, _, hlevel⟩
      rw [← hfilled.schema]
      rfl
    · exact absurd (hcomplex.symm.trans hplain) (by decide)
    · exact absurd (hcomplex.symm.trans hplain) (by decide)
  -- the schema was rewritten, and is still that of a map
  have hreads : Resolver.ReadsMap t' := by
    rw [hschema₃, hnamed₃] at ht'
    exact Resolver.resolve_map (hc.setValue child.schema) ht'
  have htyped := typed_finish hprops hadd
  have hrefers : ¬ (f₃.pointMap.retype t').Refers := by
    have hplace : (f₃.pointMap.retype t').named = f₃.named := congrArg Place.named pointMap_toPlace
    rw [Refers, hplace, hnamed₃]
    simp
  obtain ⟨hgrows, hgrows₄, hgrows₅⟩ := finish_adds hb hrefers hprops hadd hitems
  have hnone : f₅.schema.items = none := by
    obtain ⟨extra, hschema⟩ := htyped.schema
    rw [hschema, hschema₃]
    exact hc.items
  obtain ⟨p, hp, hpointed⟩ := pointMap_value hvalue₃
  rcases buildItems_cases hitems with ⟨-, rfl, -⟩ | ⟨item, hsome, -⟩ | ⟨places, hsome, -⟩
  · refine ⟨parent, child, s₂, s₃, _, p, hchild, hgrows.trans (hgrows₄.trans hgrows₅), hpointed, ?_, ?_,
      htyped.items.trans hitems₃, htyped.value.trans hp⟩
    · exact htyped.package.trans hreads.package
    · rw [htyped.kclType]
      exact hreads.kclType
  · exact absurd (hnone.symm.trans hsome) (by simp)
  · exact absurd (hnone.symm.trans hsome) (by simp)

/-- **The model of a map follows its structure.** -/
theorem buildStep_map (hb : BuildsBelow setting build) (ih : BuildsTranslating setting build)
    (hnamed : f.named = false) (hopen : f.Open) (hc : f.schema.IsMap value)
    (hvalue : value.Structural) (hs : (f.buildStep setting build).Gives s f' s') :
    Translates setting.options s'.registry f.schema f'.model := by
  obtain ⟨parent, child, s₂, s₃, e, p, hchild, hgrows, hpointed, hmaps⟩ :=
    buildStep_map_value hb hnamed hopen hc hs
  have htranslates := (buildMapLevel_translates hb ih value hvalue hchild).mono hgrows
  refine .map hc hmaps ?_
  rcases hpointed with rfl | rfl
  · exact htranslates
  · exact htranslates.pointed e

/-! ### Any structure -/

/-- A step of building follows the structure of the schema, if building the frames below does. -/
theorem buildStep_translates (hb : BuildsBelow setting build)
    (ih : BuildsTranslating setting build) (hnamed : f.named = false) (hopen : f.Open)
    (hc : f.schema.Structural) (hrec : ¬ f.schema.IsRecord)
    (hs : (f.buildStep setting build).Gives s f' s') :
    Translates setting.options s'.registry f.schema f'.model := by
  have hplain : ∀ text, f.schema.IsPlain text →
      Translates setting.options s'.registry f.schema f'.model :=
    fun text hp => .plain hp (buildStep_plain hb hnamed hopen hp hs)
  cases hc with
  | scalar hscalar => exact hplain _ (.scalar hscalar)
  | empty hempty => exact hplain _ (.empty hempty)
  | list hlist => exact hplain _ (.list hlist)
  | reference href =>
    obtain ⟨n, hn, hstands⟩ := buildStep_reference hb hnamed hopen href hs
    exact .reference href hn hstands
  | array harray hitem => exact buildStep_array hb ih hnamed hopen harray hitem hs
  | map hmap hvalue => exact buildStep_map hb ih hnamed hopen hmap hvalue hs
  | tuple htuple => exact buildStep_tuple hb hnamed htuple hs
  | record hrecord => exact absurd hrecord hrec

/-- **Places without a name follow the structure of their schemas**, at any depth. -/
theorem buildIn_translates (setting : Setting) (depth : Nat) :
    BuildsTranslating setting (buildIn setting depth) := by
  induction depth with
  | zero =>
    intro g s g' s' _ _ _ _ h
    rw [buildIn, gives_throw] at h
    exact h.elim
  | succ depth ih =>
    intro g s g' s' hnamed hopen hc hrec h
    exact buildStep_translates (fun g s g' s' hg => ⟨depth, hg⟩) ih hnamed hopen hc hrec h

end Frame

end KclModels
