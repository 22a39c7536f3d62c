import KclModels.Proofs.Build.Flattening
import KclModels.Proofs.Build.Standing
import KclModels.Proofs.Imports.Rendered

/-!
# What the main model of a file is

A definition that is a reference is an alias by the shape of the schema at its end, or composes it.
Any other is built of its own schema, or of the one branch of its composition that says anything. The
steps to a file after that only mark bases and subtypes and write types out, so that what the main
model of a file is follows from the definitions alone.
-/

namespace KclModels

variable {tr : Text.Transliteration}

namespace Schema

/-- What the schema comes down to when nothing is known of its parts. -/
def shape (c : Schema) : Shape := .ofParts c false false

/-- Whether an alias of the schema is a type without declared parts. -/
def isFlat (c : Schema) : Bool := c.shape.array || c.shape.map || c.shape.known

theorem isAliasable_of_isFlat {c : Schema} (h : c.isFlat = true) : c.isAliasable = true := by
  change (c.shape.array || c.shape.map || c.shape.known) = true at h
  change (c.shape.array || c.shape.map || c.shape.known || c.shape.base) = true
  rw [h, Bool.true_or]

/-- The kind of the model of a definition that is a reference which ends at the schema. -/
def aliasCategory (c : Schema) : Category :=
  if c.shape.array then .array
  else if c.shape.map then .map
  else if c.shape.known then .primitive
  else .object

end Schema

/-- What the model of a definition is that is a reference which ends at the schema `d`. -/
structure Standing.Refers (d : Schema) (m : Standing) : Prop where
  category : m.type.category = d.aliasCategory
  tuple : m.type.tuple = false
  complex : m.type.complex = !d.isFlat
  base : m.isBase = (d.saysObject && d.discriminator.isSome)
  extended : m.extended = false
  branches : m.branches = if d.isAliasable then 0 else 1
  properties : m.properties = 0

namespace Definitions

variable {defs : Definitions} {b b' c d d' : Schema}

/-- The branch `b` is put in place of a composition, as the only one that says anything. -/
def LiftsTo (defs : Definitions) (c b : Schema) : Prop :=
  c.Sole b ∧ ∃ d, defs.Ends b d ∧ (d.isScalar = true ∨ (b.reference.isSome = true ∧ d.isRecord = true))

/-- The schema `b`, which ends at `d`, is the one that the model of the definition `c` is built of. -/
inductive BuiltOf (defs : Definitions) (c : Schema) : Schema → Schema → Prop
  | own : c.reference = none → (∀ b, ¬ defs.LiftsTo c b) → BuiltOf defs c c c
  | lifted {b d : Schema} : c.reference = none → defs.LiftsTo c b → defs.Ends b d → BuiltOf defs c b d

theorem LiftsTo.mem (h : defs.LiftsTo c b) : b ∈ c.allOf := h.1.mem

theorem LiftsTo.unique (h : defs.LiftsTo c b) (h' : defs.LiftsTo c b') : b = b' :=
  (List.cons.inj (h.1.2.symm.trans h'.1.2)).1

/-- No array is lifted. -/
theorem LiftsTo.ends (h : defs.LiftsTo c b) : ∃ d, defs.Ends b d ∧ d.saysArray = false := by
  obtain ⟨-, d, hd, hscalar | ⟨-, hrecord⟩⟩ := h
  · exact ⟨d, hd, Resolver.saysArray_of_isScalar hscalar⟩
  · rw [Schema.isRecord, Bool.and_eq_true] at hrecord
    exact ⟨d, hd, Schema.saysArray_of_saysObject hrecord.1⟩

theorem BuiltOf.reference (h : defs.BuiltOf c b d) : c.reference = none := by
  cases h <;> assumption

theorem BuiltOf.not_reference (h : defs.BuiltOf c b d) : c.reference.isSome = false := by
  rw [h.reference]
  rfl

theorem BuiltOf.ends (h : defs.BuiltOf c b d) : defs.Ends b d := by
  cases h with
  | own href => exact .here href
  | lifted _ _ hd => exact hd

theorem BuiltOf.unique (h : defs.BuiltOf c b d) (h' : defs.BuiltOf c b' d') : b = b' ∧ d = d' := by
  have hb : b = b' := by
    cases h with
    | own _ hno =>
      cases h' with
      | own => rfl
      | lifted _ hl => exact absurd hl (hno _)
    | lifted _ hl =>
      cases h' with
      | own _ hno => exact absurd hl (hno _)
      | lifted _ hl' => exact hl.unique hl'
  subst hb
  exact ⟨rfl, h.ends.unique h'.ends⟩

end Definitions

namespace Frame

open Build

variable {setting : Setting} {build : Frame → Build Frame} {s s' : Session} {f f' : Frame}
variable {defs : Definitions} {c d : Schema} {target : TypeInfo} {reference name container : String}

/-! ## References -/

/-- The kind of an alias is that of the shape. -/
theorem aliasType_category (simpleItem simpleValue : Bool) (d : Schema) (target : TypeInfo) :
    (aliasType (Shape.ofParts d simpleItem simpleValue) target).category = d.aliasCategory ∧
      (aliasType (Shape.ofParts d simpleItem simpleValue) target).complex = !d.isFlat := by
  refine ⟨?_, rfl⟩
  change (aliasType { d.shape with simple := _ } target).category = _
  unfold TypeInfo.category aliasType Schema.aliasCategory
  cases d.shape.array <;> cases d.shape.map <;> cases d.shape.known <;> rfl

/-- The type of a reference is that of a base if the schema at its end is an object that is one. -/
theorem resolve_baseType {r : Resolver} {required : Bool} (href : c.reference = some reference)
    (hd : r.registry.Leads reference d) (h : r.resolve c false required = .ok target) :
    target.baseType = (d.saysObject && d.discriminator.isSome) := by
  obtain ⟨e, deref, known, t, he, ht, rfl⟩ := Resolver.resolve_reference_ok href h
  obtain rfl := he.unique hd
  exact (Resolver.resolveWith_typedBy he.reference_eq_none ht).discriminated

/-- A composition of what is referred to has nothing beside it, and is no base if that is no alias. -/
theorem composed_refers (hf : f.Fresh) (hcomposes : d.isAliasable = false) (k : Constraints)
    (kclType : String) (branch : Frame) :
    (((f.start setting k).mapType fun _ => soleBranchType kclType).addBranch
      branch).model.standing.Refers d := by
  -- nothing that makes an alias is said at the end of the reference, so it has no own kind
  have hflags : (d.shape.array || d.shape.map || d.shape.known || d.discriminator.isSome) = false :=
    hcomposes
  simp only [Bool.or_eq_false_iff, and_assoc] at hflags
  obtain ⟨harray, hmap, hknown, hbase⟩ := hflags
  have hblank : f.model = {} := hf.model
  refine ⟨?_, rfl, ?_, ?_, ?_, ?_, ?_⟩
  · rw [Schema.aliasCategory, harray, hmap, hknown]
    rfl
  · rw [Schema.isFlat, harray, hmap, hknown]
    rfl
  · rw [hbase, Bool.and_false]
    exact congrArg (·.isBase) hblank
  · exact congrArg (·.isAdditionalProperties) hblank
  · rw [hcomposes]
    show (f.model.allOf ++ [branch.model]).length = 1
    rw [hblank]
    rfl
  · show f.model.properties.length = 0
    rw [hblank]
    rfl

/-- **What the model of a definition that is a reference is**, the schema at its end says. -/
theorem Builds.standing_of_reference (h : f.Builds setting s f' s') (hf : f.Fresh)
    (hnamed : f.named = true) (href : f.schema.reference = some reference) :
    ∃ d, s.registry.Leads reference d ∧ f'.model.standing.Refers d ∧
      (d.isAliasable = true → f'.model.items = none ∧ f'.model.additionalProperties = none ∧
        ∃ n c, f.schema.referenceName = some n ∧ s.registry.get? n = some c ∧
          f'.model.HasTypeOf setting.options s.registry n c) := by
  obtain ⟨build, hb, hs⟩ := h.step
  obtain ⟨k, s₀, hk, ⟨-, -, hs⟩ | ⟨hno, -⟩⟩ := buildStep_steps hs
  swap
  · -- a reference with a name is built as one
    rw [hnamed, href] at hno
    exact absurd hno (by simp)
  have hreg := constraints_registry hk
  have hstart : (f.start setting k).schema.reference = some reference := href
  obtain ⟨d, hd, hcases⟩ := buildReference_choice hstart hs
  rw [hreg] at hd
  refine ⟨d, hd, ?_⟩
  rcases hcases with ⟨halias, simpleItem, simpleValue, target, alias_, ht, ha, rfl⟩ |
    ⟨hcomposes, branch, -, rfl⟩
  · obtain ⟨rfl, t, t', rfl⟩ := (hb _ _ _ _ ha).alias
    have hparts := finished_partless setting (f.start setting k).aliasOf_fresh t t'
    have hbase := resolve_baseType (r := resolverAt setting (f.start setting k) _) href (hreg ▸ hd) ht
    obtain ⟨hcategory, hcomplex⟩ := aliasType_category simpleItem simpleValue d target
    obtain ⟨n, hname⟩ := hd.exists_name
    obtain ⟨c, hget, hkcl, hpackage⟩ :=
      Resolver.resolve_reference (r := resolverAt setting (f.start setting k) _)
        (Schema.referenceName_eq (s := f.schema) href hname) ht
    refine ⟨⟨hcategory, rfl, hcomplex, hbase, hparts.extended, ?_, ?_⟩, fun _ =>
      ⟨hparts.items, hparts.value, n, c, Schema.referenceName_eq href hname, hreg ▸ hget, ?_⟩⟩
    · rw [if_pos halias]
      exact congrArg List.length hparts.allOf
    · exact congrArg List.length hparts.properties
    · rw [← hreg]
      exact ⟨hkcl, hpackage⟩
  · exact ⟨composed_refers hf hcomposes k _ branch,
      fun halias => absurd (hcomposes.symm.trans halias) (by decide)⟩

/-! ## Compositions -/

/-- What the one branch that says anything is, decides whether it is lifted. -/
theorem lifts_iff_kind {r : Resolver} {b : Schema} {t : TypeInfo} (hr : r.registry.Holds defs)
    (hknown : ∀ n, b.referenceName = some n → (defs.lookup n).isSome = true)
    (ht : r.resolve b true true = .ok t) :
    ((t.anonymous = false ∧ t.complex = true) ∨ t.primitive = true) ↔
      ∃ d, defs.Ends b d ∧ (d.isScalar = true ∨ (b.reference.isSome = true ∧ d.isRecord = true)) := by
  cases href : b.reference with
  | some reference =>
    obtain ⟨d, hd, hcomplex, hprimitive⟩ := Resolver.resolve_reference_kind href ht
    have hnamed := Resolver.resolve_named (.inl (by rw [href]; rfl)) ht
    have hends := hr.ends hd href hknown
    rw [hcomplex, hprimitive, hnamed]
    constructor
    · rintro (⟨-, hrecord⟩ | hscalar)
      · exact ⟨d, hends, .inr ⟨rfl, hrecord⟩⟩
      · exact ⟨d, hends, .inl hscalar⟩
    · rintro ⟨e, he, hmeans⟩
      obtain rfl := hends.unique he
      exact hmeans.symm.imp (fun hmeans => ⟨rfl, hmeans.2⟩) id
  | none =>
    obtain ⟨hcomplex, hprimitive⟩ := Resolver.resolveWith_kind href ht
    rw [hcomplex, hprimitive]
    constructor
    · rintro (⟨hnamed, hrecord⟩ | hscalar)
      · -- an object without a name of its own is not put in place of the composition
        rw [Schema.isRecord, Bool.and_eq_true] at hrecord
        rw [(Resolver.resolve_saysObject href hrecord.1 ht).1] at hnamed
        exact absurd hnamed (by decide)
      · exact ⟨b, .here href, .inl hscalar⟩
    · rintro ⟨d, hd, hscalar | ⟨hsome, -⟩⟩
      · obtain rfl := hd.of_inline href
        exact .inr hscalar
      · exact absurd hsome (by decide)

/-- **Which branch is lifted**, the definitions say. -/
theorem Builds.lifts_iff (h : f.Builds setting s f' s') (href : f.schema.reference = none)
    (hr : s.registry.Holds defs)
    (hknown : ∀ b ∈ f.schema.allOf, ∀ n, b.referenceName = some n → (defs.lookup n).isSome = true)
    (b : Schema) : Lifts (resolverAt setting f s) f.schema b ↔ defs.LiftsTo f.schema b := by
  constructor
  · intro hl
    have hb := hknown b hl.mem
    obtain ⟨hlen, hfilter, t, ht, hkind⟩ := hl
    exact ⟨⟨hlen, hfilter⟩, (lifts_iff_kind hr hb ht).mp hkind⟩
  · intro hl
    have hb := hknown b hl.mem
    obtain ⟨⟨hlen, hfilter⟩, hkind⟩ := hl
    obtain ⟨build, -, hs⟩ := h.step
    obtain ⟨k, s₀, hk, ⟨-, hsome, -⟩ | ⟨-, f₁, f₂, s₂, t, f₃, s₃, t', f₄, s₄, f₅, s₅, required, hlift,
      -⟩⟩ := buildStep_steps hs
    · rw [href] at hsome
      exact absurd hsome (by decide)
    have hresolver : resolverAt setting (f.start setting k) s₀ = resolverAt setting f s := by
      unfold resolverAt
      rw [constraints_registry hk]
      rfl
    -- that building went on shows that the branch has a type
    obtain ⟨t, ht⟩ := liftBranch_resolves hlift hlen hfilter
    rw [hresolver] at ht
    exact ⟨hlen, hfilter, t, ht, (lifts_iff_kind hr hb ht).mpr hkind⟩

/-- **What the model of a definition is that is no reference**, its schema says, or the branch that
is put in its place. -/
theorem Builds.standing_of_definition (h : f.Builds setting s f' s') (hf : f.Fresh)
    (hnamed : f.named = true) (href : f.schema.reference = none) (hr : s.registry.Holds defs)
    (hknown : ∀ b ∈ f.schema.allOf, ∀ n, b.referenceName = some n → (defs.lookup n).isSome = true)
    (hapart : f.schema.ItemsApart) (hbranches : ∀ b, f.schema.Sole b → b.ItemsApart) :
    ∃ b d, defs.BuiltOf f.schema b d ∧ f'.model.standing.Of b d := by
  have hiff := h.lifts_iff href hr hknown
  have hends : ∀ b, Lifts (resolverAt setting f s) f.schema b →
      ∃ d, defs.Ends b d ∧ (d = b ∨ d.saysArray = false) := by
    intro b hl
    obtain ⟨d, hd, hend⟩ := ((hiff b).mp hl).ends
    exact ⟨d, hd, .inr hend⟩
  obtain ⟨c, d, hc, hd, hof⟩ := h.standing hr.keeps hnamed hf.model href hapart hbranches hends
  refine ⟨c, d, ?_, hof⟩
  rcases hc with ⟨rfl, hno⟩ | hl
  · obtain rfl := hd.of_inline href
    exact .own href fun b hl => hno b ((hiff b).mpr hl)
  · exact .lifted href ((hiff c).mp hl) hd

/-! ## Names -/

/-- **Up to its items a frame with a name persists**, and definitions are only added. -/
theorem steps_persist {f₂ f₃ f₄ f₅ : Frame} {s₂ s₃ s₄ s₅ : Session} {t t' : TypeInfo}
    (hb : BuildsBelow setting build) (hnamed : f.named = true)
    (hall : (f.fillContainer.buildAllOf setting build).Gives s f₂ s₂)
    (hextra : ((f₂.setType t t.baseType).buildAdditionalProperties setting build).Gives s₂ f₃ s₃)
    (hprops : ((f₃.pointMap.retype t').buildProperties setting build).Gives s₃ f₄ s₄)
    (hadd : (f₄.buildAdditionalItems setting build).Gives s₄ f₅ s₅) :
    Persists f f₃ ∧ Persists f₃ f₅ ∧ s.registry.Grows s₅.registry := by
  have hbranches := (fillContainer_persists f).trans (buildAllOf_persists hall)
  have hvalues : Persists f₂ f₃ := (setType_persists f₂ t t.baseType).trans
    (buildAdditionalProperties_persists_named (hbranches.named.trans hnamed) hextra)
  refine ⟨hbranches.trans hvalues, finish_persists hprops hadd, ?_⟩
  exact ((buildAllOf_grows hb hall).trans (buildAdditionalProperties_grows hb hextra)).trans
    ((buildProperties_grows hb hprops).trans (buildAdditionalItems_grows hb hadd))

/--
What is built under a name of its own either refers to nothing, or it composes what it refers to and
has the type that its definition declares.
-/
def BuildsOwn (build : Frame → Build Frame) : Prop :=
  ∀ g s g' s', g.named = true → g.model = {} → (s.registry.get? g.modelName).isSome = true →
    (build g).Gives s g' s' → g'.model.reference.isSome = true →
    g'.model.Named false s'.registry g.modelName

/-- A composition of what is referred to goes by the name of the definition itself. -/
theorem buildReference_own (hb : BuildsBelow setting build) (hmodel : f.model.items = none ∧
      f.model.additionalProperties = none) (hstored : (s.registry.get? f.modelName).isSome = true)
    (h : (f.buildReference setting build).Gives s f' s') (href : f'.model.reference.isSome = true) :
    f'.model.Named false s'.registry f.modelName := by
  rcases buildReference_cases h with ⟨shape, target, alias_, -, ha, rfl⟩ | ⟨branch, hbranch, rfl⟩
  · obtain ⟨rfl, t, t', rfl⟩ := (hb _ _ _ _ ha).alias
    have hnone : (f.aliasOf.finished setting t t').model.reference = none :=
      (finished_partless setting f.aliasOf_fresh t t').reference
    change (f.aliasOf.finished setting t t').model.reference.isSome = true at href
    rw [hnone] at href
    exact absurd href (by decide)
  · obtain ⟨c, hc⟩ := Option.isSome_iff_exists.mp hstored
    have hgrows := (hb _ _ _ _ hbranch).grows ⟨rfl, rfl, rfl⟩
    have hname := Resolver.modelTypeName_eq (r := resolverAt setting f s) rfl hc
    exact ⟨⟨c, hgrows.keeps _ c hc, hname, fun _ _ => rfl⟩, hmodel.1, fun _ => hmodel.2⟩

/-- What has a name and is built step by step is no reference, so that its model refers to nothing. -/
theorem buildIn_own [Text.Transliteration] (setting : Setting) (depth : Nat) :
    BuildsOwn (buildIn setting depth) := by
  induction depth with
  | zero =>
    intro g s g' s' _ _ _ h
    rw [buildIn, gives_throw] at h
    exact h.elim
  | succ depth ih =>
    intro g s g' s' hnamed hmodel hstored h href
    have hb : BuildsBelow setting (buildIn setting depth) := fun g s g' s' hg => ⟨depth, hg⟩
    obtain ⟨k, s₀, hk, ⟨-, -, hs⟩ | ⟨hno, f₁, f₂, s₂, t, f₃, s₃, t', f₄, s₄, f₅, s₅, required, hlift,
      hall, -, hextra, -, hprops, hadd, hitems⟩⟩ := buildStep_steps h
    all_goals rw [← constraints_registry hk] at hstored
    · have hopen : (g.start setting k).model.items = none ∧
          (g.start setting k).model.additionalProperties = none := by
        show g.model.items = none ∧ g.model.additionalProperties = none
        rw [hmodel]
        exact ⟨rfl, rfl⟩
      exact buildReference_own (f := g.start setting k) hb hopen hstored hs href
    rw [hnamed, Bool.true_and] at hno
    have hnone : (g.start setting k).model.reference = none :=
      Schema.referenceName_eq_none (Option.not_isSome_iff_eq_none.mp (by simp [hno]))
    have hstart : f₁.named = true ∧ f₁.modelName = g.modelName ∧ f₁.model.reference = none := by
      obtain ⟨-, ⟨rfl, -⟩ | ⟨b, -, rfl⟩⟩ := liftBranch_cases hlift
      · exact ⟨hnamed, rfl, hnone⟩
      · exact ⟨hnamed, rfl, hnone⟩
    obtain ⟨hnamed₁, hmodelName, hnone₁⟩ := hstart
    obtain ⟨hpersists₃, hpersists₅, hgrows⟩ := steps_persist hb hnamed₁ hall hextra hprops hadd
    have hpersists := hpersists₃.trans hpersists₅
    have hnone₅ : f₅.model.reference = none := hpersists.reference.trans hnone₁
    rcases buildItems_cases hitems with ⟨-, rfl, -⟩ | ⟨item, -, harray⟩ | ⟨places, -, ⟨-, hp⟩ |
      ⟨hunnamed, -⟩⟩
    · exact absurd href (by simp [hnone₅])
    · obtain ⟨_, -, ⟨-, _, made, s₆, hoisted, s₇, inner, hm, hh, hi, rfl⟩ | ⟨-, element, -, rfl⟩⟩ :=
        buildArray_cases harray
      · -- the array is built once more, at the same place
        obtain ⟨hgrows', -, -⟩ := stored_of_hoist hb hm hh (made_fresh hm) rfl
        obtain ⟨c, hc⟩ := Option.isSome_iff_exists.mp hstored
        have hplace : f₅.modelName = g.modelName := hpersists.modelName.trans hmodelName
        have hget : s₇.registry.get? f₅.modelName = some c :=
          (hgrows.trans hgrows').keeps _ c (hplace ▸ hc)
        have hown := ih (f₅.mapItem (.referenceTo hoisted.name)).makeVirtual.restart s₇ inner s'
          (hpersists.named.trans hnamed₁) rfl (Option.isSome_iff_exists.mpr ⟨c, hget⟩) hi href
        exact hplace ▸ ⟨hown.type, hown.items, hown.value⟩
      · have hkept := (setElement_persists f₅ element item setting.polymorphism).reference
        exact absurd href (by rw [hkept, hnone₅]; decide)
    · have hmark : (f₅.markTuple (resolverAt setting f₅ s₅).modelTypeName).model.reference = none :=
        hnone₅
      exact absurd href (by rw [(buildPlaces_persists hp).reference, hmark]; decide)
    · exact absurd (hunnamed.symm.trans (hpersists.named.trans hnamed₁)) (by decide)

/-- **A model that composes what its definition refers to goes by the name of the definition.** -/
theorem Builds.own (h : f.Builds setting s f' s') (hnamed : f.named = true) (hmodel : f.model = {})
    (hstored : (s.registry.get? f.modelName).isSome = true) (href : f'.model.reference.isSome = true) :
    f'.model.Named false s'.registry f.modelName := by
  obtain ⟨depth, h⟩ := h
  exact buildIn_own setting depth f s f' s' hnamed hmodel hstored h href

/-- **An object that declares something goes by the name of the definition that it is built as.** -/
theorem Builds.kclType_of_record (h : f.Builds setting s f' s') (hnamed : f.named = true)
    (href : f.schema.reference = none) (hrecord : f.schema.isRecord = true)
    (hitems : f.schema.items = none) (hsteady : f.schema.Steady) :
    f'.model.type.kclType = f.schema.declaredName f.modelName := by
  obtain ⟨build, hb, hs⟩ := h.step
  obtain ⟨k, s₀, hk, ⟨-, hsome, -⟩ | ⟨-, f₁, f₂, s₂, t, f₃, s₃, t', f₄, s₄, f₅, s₅, required, hlift,
    hall, -, hextra, ht', hprops, hadd, hrest⟩⟩ := buildStep_steps hs
  · rw [href] at hsome
    exact absurd hsome (by decide)
  obtain ⟨-, ⟨rfl, -⟩ | ⟨b, hl, -⟩⟩ := liftBranch_cases hlift
  swap
  · exact absurd hl (not_lifts_of_steady hsteady b)
  obtain ⟨hpersists₃, hpersists₅, -⟩ :=
    steps_persist (f := f.start setting k) hb hnamed hall hextra hprops hadd
  -- the schema is revised along the way, but says the same
  have hrevised : f.schema.Revises f₃.schema := hpersists₃.schema
  have hname : f₃.schema.declaredName f₃.modelName = f.schema.declaredName f.modelName := by
    rw [hpersists₃.modelName, Schema.declaredName, Schema.declaredName, Schema.nameOr, Schema.nameOr,
      hrevised.keywords]
    rfl
  rw [hpersists₃.named.trans hnamed] at ht'
  have htype := Resolver.resolve_record_kclType (hrevised.reference.trans href)
    (hrevised.isRecord.trans hrecord) ht'
  have hlast : f₅.model.type.kclType = t'.kclType :=
    congrArg (fun m : Standing => m.type.kclType) (buildParts_standing hprops hadd)
  rcases buildItems_cases hrest with ⟨-, rfl, -⟩ | ⟨item, hsome, -⟩ | ⟨places, hsome, -⟩
  · exact hlast.trans (htype.trans hname)
  all_goals
    rw [hpersists₅.schema.items, hrevised.items, hitems] at hsome
    exact absurd hsome (by simp)

end Frame

/-- **A model that was built as a definition** which is an object that declares something goes by the
name of that. -/
theorem Model.TypedAs.kclType {r : Registry} {n : String} {m : Model} {c : Schema}
    (h : m.TypedAs r n) (hget : r.get? n = some c) (href : c.reference = none)
    (hrecord : c.isRecord = true) (hitems : c.items = none) (hsteady : c.Steady) :
    m.type.kclType = c.declaredName n := by
  obtain ⟨_, setting, container, d, f, s, s', hd, hf, hgrows, htype⟩ := h
  have hbuilds := Frame.builds_of_definition hf
  have hkept := (hbuilds.grows Frame.root_fresh).trans hgrows
  -- the name leads to what is stored under it, which is no reference
  obtain rfl : d = c := by
    cases hd with
    | stop hn hd _ =>
      obtain rfl := Reference.eq_of_name?_toDefinition hn
      exact Option.some.inj ((hkept.keeps _ d hd).symm.trans hget)
    | next hn hc hnext _ =>
      obtain rfl := Reference.eq_of_name?_toDefinition hn
      obtain rfl := Option.some.inj ((hkept.keeps _ _ hc).symm.trans hget)
      exact absurd (hnext.symm.trans href) (by simp)
  rw [htype]
  exact hbuilds.kclType_of_record rfl href hrecord hitems hsteady

/-! ## Files -/

/-- What the main model of a file is, given what the model that was built of its definition is. -/
structure Standing.InFile (p : Polymorphism) (name : String) (m m' : Standing) : Prop where
  type : Model.typeOutline m'.type = Model.typeOutline m.type
  written : m.type.Written → m'.type.Written
  isBase : m'.isBase = (m.isBase || p.isBase (Reference.toDefinition name))
  isSubtype : m'.isSubtype = (m.isSubtype || p.isSubtype (Reference.toDefinition name))
  extended : m'.extended = m.extended
  branches : m'.branches = m.branches
  properties : m'.properties = m.properties

namespace Build

variable {setting : Setting} {s s' : Session} {f : Frame} {name container : String} {c : Schema}

/-- As many branches stand there after bases are put in place of some. -/
theorem expandBranches_length {branches : List Schema} : ∀ {index : Nat} {allOf : List Model}
    {s s' : Session} {result : List Model × List String},
    (expandBranches setting container index allOf branches).Gives s result s' →
    result.1.length = allOf.length := by
  induction branches with
  | nil =>
    intro index allOf s s' result h
    rw [expandBranches, gives_pure] at h
    exact h.1 ▸ rfl
  | cons branch rest ih =>
    intro index allOf s s' result h
    rcases expandBranches_cons_cases h with ⟨-, h⟩ | ⟨_, _, _, _, _, _, -, -, -, -, -, h, -⟩
    · exact ih h
    · exact (ih h).trans List.length_set

theorem asBase_standing (setting : Setting) (name : String) (f : Frame) :
    (asBase setting name f).model.standing = { f.model.standing with
      isBase := f.model.isBase || setting.polymorphism.isBase (Reference.toDefinition name) } := by
  rw [Polymorphism.isBase, Assoc.has]
  unfold asBase
  cases setting.polymorphism.bases.lookup (Reference.toDefinition name) with
  | none =>
    rw [Option.isSome_none, Bool.or_false]
    rfl
  | some base =>
    rw [Option.isSome_some, Bool.or_true]
    rfl

/-- The model refers to the same as the other, and has the same items and values. -/
structure SameHolds (m m' : Model) : Prop where
  reference : m'.reference = m.reference
  items : m'.items = m.items
  value : m'.additionalProperties = m.additionalProperties

theorem asBase_holds (setting : Setting) (name : String) (f : Frame) :
    SameHolds f.model (asBase setting name f).model := by
  unfold asBase
  split <;> exact ⟨rfl, rfl, rfl⟩

/-- Declaring the properties of branches leaves what the model holds itself. -/
theorem inlineBranches_holds {parent : Option Nat} {branches : List Model} : ∀ {index : Nat}
    {f f' : Frame} {s s' : Session}, (inlineBranches setting parent f index branches).Gives s f' s' →
    SameHolds f.model f'.model := by
  induction branches with
  | nil =>
    intro index f f' s s' h
    rw [inlineBranches, gives_pure] at h
    exact h.1 ▸ ⟨rfl, rfl, rfl⟩
  | cons branch rest ih =>
    intro index f f' s s' h
    rcases inlineBranches_cons_cases h with ⟨-, h⟩ | ⟨_, _, _, _, -, -, -, -, h⟩
    · exact ih h
    · exact ⟨(ih h).reference, (ih h).items, (ih h).value⟩

/-- Marking a base and a subtype changes nothing else of what a model is. -/
theorem fileFrame_standing (hc : s.registry.get? name = some c)
    (h : (fileFrame setting name).Gives s f s') :
    ∃ built s₁, (Frame.root name c name).Builds setting s built s₁ ∧
      Standing.InFile setting.polymorphism name built.model.standing f.model.standing ∧
      f.model.type = built.model.type ∧ SameHolds built.model f.model := by
  obtain ⟨d, built, s₁, s₂, m, hd, hbuilt, hexpand, hinline⟩ := fileFrame_cases h
  obtain rfl := Option.some.inj (hc.symm.trans hd)
  refine ⟨built, s₁, Frame.builds_of_definition hbuilt, ?_⟩
  have hbase := asBase_standing setting name built
  have hholds := asBase_holds setting name built
  have hm : m.standing = { (asBase setting name built).model.standing with
      isSubtype := built.model.isSubtype ||
        setting.polymorphism.isSubtype (Reference.toDefinition name) } ∧
      SameHolds built.model m := by
    have hkept : (asBase setting name built).model.isSubtype = built.model.isSubtype :=
      congrArg Standing.isSubtype hbase
    rcases hexpand with ⟨hno, rfl, -⟩ | ⟨subtype, hyes, he⟩
    · rw [hno, Bool.or_false, ← hkept]
      exact ⟨rfl, hholds⟩
    · obtain ⟨allOf, ofBases, hex, rfl⟩ := expandSubtype_cases he
      have hlength : (Model.dedupBranches ofBases [] allOf).length =
          (asBase setting name built).model.allOf.length :=
        (Model.length_dedupBranches ..).trans (expandBranches_length hex)
      rw [hyes, Bool.or_true]
      exact ⟨congrArg (fun n => { (asBase setting name built).model.standing with
        isSubtype := true, branches := n }) hlength,
        ⟨hholds.reference, hholds.items, hholds.value⟩⟩
  obtain ⟨hm, hsame⟩ := hm
  obtain ⟨-, hproperties, hfacts, hlength, -⟩ := inlined_facts hinline
  have htype : f.model.type = m.type := congrArg ModelFacts.type hfacts
  have hf : f.model.standing = m.standing := by
    have hisBase := congrArg ModelFacts.isBase hfacts
    have hisSubtype := congrArg ModelFacts.isSubtype hfacts
    have hextended := congrArg ModelFacts.isAdditionalProperties hfacts
    exact Standing.ext htype hisBase hisSubtype hextended hlength (congrArg List.length hproperties)
  have hlast := inlineBranches_holds hinline
  refine ⟨?_, htype.trans ((congrArg Standing.type hm).trans (congrArg Standing.type hbase)),
    hlast.reference.trans hsame.reference, hlast.items.trans hsame.items,
    hlast.value.trans hsame.value⟩
  rw [hf, hm, hbase]
  exact ⟨rfl, id, rfl, rfl, rfl, rfl, rfl⟩

end Build

/-- Models that differ in the texts of types only are the same otherwise. -/
theorem Model.Alike.standing {m m' : Model} (h : m.Alike m') :
    m'.standing = { m.standing with type := m'.type } ∧
      Model.typeOutline m'.type = Model.typeOutline m.type := by
  have hrow : ∀ row, (m'.row row).length = (m.row row).length := fun row =>
    (h.forall₂_row row).length_eq.symm
  have houtline := h.outline
  refine ⟨Standing.ext rfl ?_ ?_ ?_ (hrow .branches) (hrow .properties),
    (congrArg ModelFacts.type houtline).symm⟩
  · exact (congrArg ModelFacts.isBase houtline).symm
  · exact (congrArg ModelFacts.isSubtype houtline).symm
  · exact (congrArg ModelFacts.isAdditionalProperties houtline).symm

namespace Imports

variable {target : String} {m : Model} {t : TypeInfo} {i : Imports}

/-- A type that is written without a name of a schema is not qualified. -/
theorem qualify_written (h : t.Written) (target : String) (i : Imports) :
    (qualify target t i).1.Written := by
  rw [qualify_own (.inl h.package)]
  exact h

theorem rebracket_written (h : t.Written) (item value : Option Model) :
    (rebracket t item value).Written := by
  have hitem : (rebracket t item none).Written := by
    cases item with
    | none => exact h
    | some p =>
      rw [rebracket]
      split
      · exact ⟨h.package, Format.isBuiltIn_brackets p.type.kclType⟩
      · exact h
  have hvalue : ∀ {t : TypeInfo} (v : Model), t.Written → (rebracket t none (some v)).Written := by
    intro t v h
    rw [rebracket]
    split
    · exact ⟨h.package, Format.isBuiltIn_braces v.type.kclType⟩
    · exact h
  cases value with
  | none => exact hitem
  | some v =>
    -- items and values are bracketed one after the other
    have htwice : rebracket t item (some v) = rebracket (rebracket t item none) none (some v) := by
      cases item <;> rfl
    rw [htwice]
    exact hvalue v hitem

/-- The type of a collected model is that of the model, put together anew and qualified. -/
theorem collectRendered_type (target : String) (m : Model) (i : Imports) :
    ∃ item value j, (collectRendered target m i).1.type =
        (qualify target (rebracket m.type item value) j).1 ∧
      (m.items = none → item = none) ∧ (m.additionalProperties = none → value = none) := by
  obtain ⟨facts, items, extraItems, properties, allOf, value⟩ := m
  rw [collectRendered_eq, collect]
  refine ⟨_, _, _, rfl, fun hnone => ?_, fun hnone => ?_⟩
  · obtain rfl : items = none := hnone
    rfl
  · obtain rfl : value = none := hnone
    rfl

/-- A qualified type has the name of its package before its own. -/
theorem qualify_text (target : String) (t : TypeInfo) (i : Imports) :
    ((t.package = "" ∨ t.package = target) ∧ (qualify target t i).1.kclType = t.kclType) ∨
      (t.package ≠ "" ∧ t.package ≠ target ∧
        ∃ before, (qualify target t i).1.kclType = before ++ "." ++ t.kclType) := by
  by_cases hown : t.package = "" ∨ t.package = target
  · rw [qualify_own hown]
    exact .inl ⟨hown, rfl⟩
  · rw [not_or] at hown
    obtain ⟨stmt, -, htype⟩ := qualify_foreign hown.1 hown.2 i
    rw [htype]
    exact .inr ⟨hown.1, hown.2, stmt.asName, rfl⟩

end Imports

namespace Build

/-- Writing types out changes nothing else of what the main model of a file is. -/
theorem assemble_standing (setting : Setting) (name : String) (r : Registry) (f : Frame) :
    Model.typeOutline (assemble setting name r f).1.model.type = Model.typeOutline f.model.type ∧
      (assemble setting name r f).1.model.standing =
        { f.model.standing with type := (assemble setting name r f).1.model.type } :=
  (Imports.collectRendered_alike (setting.options.packageOf name) (declare setting name r f.model)
    {}).standing.symm

/-- A type that is written out stays so. -/
theorem assemble_written (setting : Setting) (name : String) (r : Registry) {f : Frame}
    (h : f.model.type.Written) : (assemble setting name r f).1.model.type.Written := by
  obtain ⟨item, value, j, htype, -⟩ := Imports.collectRendered_type
    (setting.options.packageOf name) (declare setting name r f.model) {}
  rw [(assemble_facts setting name r f).1, htype]
  exact Imports.qualify_written (Imports.rebracket_written h item value) _ j

end Build

end KclModels
