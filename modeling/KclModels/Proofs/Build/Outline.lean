import Mathlib.Data.List.Forall2
import KclModels.Proofs.Build.Linking
import KclModels.Proofs.Registry.Grounded
import KclModels.Proofs.Schema.Composition

/-!
# Outlines of models

What a model declares, shown by its schema: the names of its properties, and for each branch of its
composition either the names that the branch declares or the definition that it refers to. Building
changes these in few places. The properties are added by one step and the branches by another, and
all other steps leave both as they are (`SameParts`); the exception is a schema that is made a
definition on the way, of which a reference is left.
-/

namespace KclModels

variable {tr : Text.Transliteration}

theorem Schema.known_of_anything (c : Schema) : c.Known (fun _ => True) unasked :=
  known_unasked.mpr fun _ _ _ _ => trivial

namespace Frame

open Build

variable {setting : Setting} {build : Frame → Build Frame} {s s' : Session} {f f' f'' g : Frame}

/-! ## Steps that leave the parts as they are -/

/-- Of the later frame the properties, the branches and the reference are the same. -/
structure SameParts (f f' : Frame) : Prop where
  named : f'.named = f.named
  properties : f'.model.properties = f.model.properties
  allOf : f'.model.allOf = f.model.allOf
  reference : f'.model.reference = f.model.reference
  complex : f'.model.type.complex = f.model.type.complex
  declared : f'.schema.properties = f.schema.properties
  items : f'.schema.items = f.schema.items
  keywords : f'.schema.toKeywords = f.schema.toKeywords

theorem SameParts.refl (f : Frame) : SameParts f f := ⟨rfl, rfl, rfl, rfl, rfl, rfl, rfl, rfl⟩

theorem SameParts.trans (h : SameParts f f') (h' : SameParts f' f'') : SameParts f f'' where
  named := h'.named.trans h.named
  properties := h'.properties.trans h.properties
  allOf := h'.allOf.trans h.allOf
  reference := h'.reference.trans h.reference
  complex := h'.complex.trans h.complex
  declared := h'.declared.trans h.declared
  items := h'.items.trans h.items
  keywords := h'.keywords.trans h.keywords

theorem addExtra_parts (f g : Frame) : SameParts f (f.addExtra g) :=
  ⟨rfl, rfl, rfl, rfl, rfl, rfl, rfl, rfl⟩

theorem setValue_parts (f g : Frame) : SameParts f (f.setValue g) :=
  ⟨rfl, rfl, rfl, rfl, rfl, rfl, rfl, rfl⟩

theorem setStore_parts (f g : Frame) : SameParts f (f.setStore g) :=
  ⟨rfl, rfl, rfl, rfl, rfl, rfl, rfl, rfl⟩

theorem deny_parts (f : Frame) (extra : Extra Schema) : SameParts f (f.deny extra) :=
  ⟨rfl, rfl, rfl, rfl, rfl, rfl, rfl, rfl⟩

theorem markExtra_parts (f : Frame) (declared : Bool) : SameParts f (f.markExtra declared) := by
  unfold markExtra
  cases declared <;> exact ⟨rfl, rfl, rfl, rfl, rfl, rfl, rfl, rfl⟩

theorem allowAny_parts (f : Frame) (declared : Bool) : SameParts f (f.allowAny declared) := by
  unfold allowAny
  cases declared <;> exact ⟨rfl, rfl, rfl, rfl, rfl, rfl, rfl, rfl⟩

theorem mapExtraValue_parts (f : Frame) (c : Schema) : SameParts f (f.mapExtraValue c) :=
  ⟨rfl, rfl, rfl, rfl, rfl, rfl, rfl, rfl⟩

theorem referValue_parts (f : Frame) (n : String) : SameParts f (f.referValue n) :=
  ⟨rfl, rfl, rfl, rfl, rfl, rfl, rfl, rfl⟩

theorem allowItems_parts (f : Frame) (extra : Extra Schema) : SameParts f (f.allowItems extra) :=
  ⟨rfl, rfl, rfl, rfl, rfl, rfl, rfl, rfl⟩

theorem mapExtraItem_parts (f : Frame) (c : Schema) : SameParts f (f.mapExtraItem c) :=
  ⟨rfl, rfl, rfl, rfl, rfl, rfl, rfl, rfl⟩

theorem setExtraItems_parts (f g : Frame) : SameParts f (f.setExtraItems g) :=
  ⟨rfl, rfl, rfl, rfl, rfl, rfl, rfl, rfl⟩

theorem pointMap_sameParts (f : Frame) : SameParts f f.pointMap := by
  unfold pointMap
  split <;> exact ⟨rfl, rfl, rfl, rfl, rfl, rfl, rfl, rfl⟩

theorem pointMap_isBase (f : Frame) : f.pointMap.model.isBase = f.model.isBase := by
  unfold pointMap
  split <;> rfl

theorem retype_parts (f : Frame) (t : TypeInfo) : SameParts f (f.retype t) :=
  ⟨rfl, rfl, rfl, rfl, rfl, rfl, rfl, rfl⟩

theorem fillContainer_parts (f : Frame) : SameParts f f.fillContainer := by
  unfold fillContainer
  split <;> exact ⟨rfl, rfl, rfl, rfl, rfl, rfl, rfl, rfl⟩

/-- What is allowed beyond the properties leaves them as they are, unless the frame is taken apart. -/
theorem buildAdditionalProperties_parts
    (h : (f.buildAdditionalProperties setting build).Gives s f' s') :
    SameParts f f' ∨ (f.model.type.complex = true ∧ f.named = false ∧
      f.schema.extraValue?.isSome = true ∧ ∃ g : Frame, SameParts f g ∧ g.schema = f.schema ∧
        (g.hoistExtended build).Gives s f' s') := by
  rcases buildAdditionalProperties_cases h with ⟨-, rfl, -⟩ | ⟨extra, hextra, ⟨-, rfl, -⟩ |
    ⟨rfl, h⟩ | ⟨value, rfl, ⟨-, h⟩ | ⟨hcomplex, hnamed, h⟩ | ⟨-, -, h⟩⟩⟩
  · exact Or.inl (.refl f')
  · exact Or.inl (deny_parts f extra)
  · obtain ⟨child, -, rfl⟩ := buildAnyValues_cases h
    exact Or.inl ((((deny_parts f _).trans (markExtra_parts _ _)).trans
      (allowAny_parts _ _)).trans (setValue_parts _ _))
  · obtain ⟨child, -, rfl⟩ := buildMap_cases h
    exact Or.inl ((((deny_parts f _).trans (markExtra_parts _ _)).trans
      (mapExtraValue_parts _ _)).trans (setValue_parts _ _))
  · -- an object without a name is taken apart
    refine Or.inr ⟨hcomplex, hnamed, ?_, _, (deny_parts f _).trans (markExtra_parts _ _), rfl, h⟩
    rw [Schema.extraValue?, hextra]
    rfl
  · have hmarked := (deny_parts f (.schema value)).trans (markExtra_parts _ true)
    obtain ⟨t, -, ⟨-, _, _, _, hoisted, _, child, _, -, -, -, rfl⟩ | ⟨-, child, _, -, rfl⟩⟩ :=
      buildExtraValues_cases h
    · exact Or.inl ((hmarked.trans (referValue_parts _ _)).trans (setStore_parts _ _))
    · exact Or.inl (hmarked.trans (setStore_parts _ _))

theorem buildAdditionalItems_parts (h : (f.buildAdditionalItems setting build).Gives s f' s') :
    SameParts f f' := by
  rcases buildAdditionalItems_cases h with ⟨-, rfl, -⟩ | ⟨extra, -, ⟨-, rfl, -⟩ | ⟨-, -, h⟩⟩
  · exact .refl f'
  · exact allowItems_parts f extra
  · obtain ⟨t, -, ⟨c, -, -, _, _, _, _, _, items, -, -, -, rfl⟩ | ⟨-, items, -, rfl⟩⟩ :=
      buildExtraItems_cases h
    · exact ((allowItems_parts f extra).trans (mapExtraItem_parts _ _)).trans
        (setExtraItems_parts _ _)
    · exact (allowItems_parts f extra).trans (setExtraItems_parts _ _)

/-! ## The properties -/

/-- The names of models. -/
def names (l : List Model) : List String := l.map (·.name)

/-- The way to build frames names their models. -/
def BuildsNames (build : Frame → Build Frame) : Prop :=
  ∀ f s f' s', f.Fresh → (build f).Gives s f' s' → f'.model.name = f.name

/-- The later frame has the properties with the names `added` beside those it had. -/
structure Adds (f f' : Frame) (added : List String) : Prop where
  named : f'.named = f.named
  properties : (names f'.model.properties).Perm (names f.model.properties ++ added)
  allOf : f'.model.allOf = f.model.allOf
  reference : f'.model.reference = f.model.reference
  complex : f'.model.type.complex = f.model.type.complex
  items : f'.schema.items = f.schema.items

theorem decorated_name (h : Decorated setting f f') : f'.model.name = f.model.name := by
  rcases h with rfl | ⟨reference, rfl | ⟨c, rfl⟩⟩
  · rfl
  all_goals
    unfold markRole
    dsimp only
    split <;> split <;> rfl

theorem buildProperty_adds (hb : BuildsNames build) {position : Nat} {name : String} {c : Schema}
    (h : (f.buildProperty setting build position name c).Gives s f' s') : Adds f f' [name] := by
  have hadd : ∀ g property : Frame, SameParts f g → property.model.name = name →
      Adds f (g.addProperty property position) [name] := by
    intro g property hg hname
    refine ⟨hg.named, ?_, hg.allOf, hg.reference, hg.complex, hg.items⟩
    show (names (g.model.properties ++ [{ property.model with position }])).Perm _
    rw [names, List.map_append, hg.properties]
    exact List.Perm.of_eq (congrArg (names f.model.properties ++ [·]) hname)
  obtain ⟨t, -, ⟨-, base, made, s₁, hoisted, s₂, required, property, property', -, -, hp, hd, rfl⟩ |
    ⟨-, required, property, property', hp, hd, rfl⟩⟩ := buildProperty_cases h
  · refine hadd _ _ (addExtra_parts f _) ((decorated_name hd).trans ?_)
    exact hb _ _ _ _ ⟨rfl, rfl, rfl⟩ hp
  · refine hadd _ _ (.refl f) ((decorated_name hd).trans ?_)
    exact hb _ _ _ _ ⟨rfl, rfl, rfl⟩ hp

theorem Adds.trans {added added' : List String} (h : Adds f f' added) (h' : Adds f' f'' added') :
    Adds f f'' (added ++ added') where
  named := h'.named.trans h.named
  properties := by
    refine h'.properties.trans ?_
    rw [← List.append_assoc]
    exact h.properties.append_right added'
  allOf := h'.allOf.trans h.allOf
  reference := h'.reference.trans h.reference
  complex := h'.complex.trans h.complex
  items := h'.items.trans h.items

theorem buildPropertyList_adds (hb : BuildsNames build) {properties : List (String × Schema)} :
    ∀ {position : Nat} {f f' : Frame} {s s' : Session},
    (f.buildPropertyList setting build position properties).Gives s f' s' →
    Adds f f' (Assoc.keys properties) := by
  induction properties with
  | nil =>
    intro position f f' s s' h
    rw [buildPropertyList, gives_pure] at h
    obtain ⟨rfl, -⟩ := h
    exact ⟨rfl, by simp [Assoc.keys], rfl, rfl, rfl, rfl⟩
  | cons e rest ih =>
    intro position f f' s s' h
    obtain ⟨f₁, s₁, h₁, h₂⟩ := buildPropertyList_cons_cases h
    exact (buildProperty_adds hb h₁).trans (ih h₂)

/-- **Building the properties adds one model for each, with its name.** -/
theorem buildProperties_adds (hb : BuildsNames build)
    (h : (f.buildProperties setting build).Gives s f' s') :
    Adds f f' (Assoc.keys f.schema.properties) := by
  obtain ⟨f₁, hl, rfl⟩ := buildProperties_cases h
  obtain ⟨hnamed, hproperties, hall, href, hcomplex, hitems⟩ := buildPropertyList_adds hb hl
  refine ⟨hnamed, List.Perm.trans ?_ hproperties, hall, href, hcomplex, hitems⟩
  exact (sortBy_perm _ _).map _

/-! ## Frames that are built -/

/-- The frame is built, with some bound on the depth. -/
def Builds [Text.Transliteration] (setting : Setting) (f : Frame) (s : Session) (f' : Frame)
    (s' : Session) : Prop :=
  ∃ depth, (buildIn setting depth f).Gives s f' s'

/-- The frames below a frame are built as well. -/
def BuildsBelow [Text.Transliteration] (setting : Setting) (build : Frame → Build Frame) : Prop :=
  ∀ g s g' s', (build g).Gives s g' s' → g.Builds setting s g' s'

theorem Builds.step (h : f.Builds setting s f' s') :
    ∃ build, BuildsBelow setting build ∧ (f.buildStep setting build).Gives s f' s' := by
  obtain ⟨depth, h⟩ := h
  cases depth with
  | zero =>
    rw [buildIn, gives_throw] at h
    exact h.elim
  | succ depth => exact ⟨buildIn setting depth, fun g s g' s' hg => ⟨depth, hg⟩, h⟩

theorem Builds.built (h : f.Builds setting s f' s') (hf : f.Fresh) :
    Built (fun _ => True) unasked f s.registry f' s'.registry := by
  obtain ⟨depth, h⟩ := h
  exact (buildIn_linked setting depth).below h hf (Schema.known_of_anything f.schema)

theorem Builds.grows (h : f.Builds setting s f' s') (hf : f.Fresh) :
    s.registry.Grows s'.registry := (h.built hf).grows

theorem BuildsBelow.names (hb : BuildsBelow setting build) : BuildsNames build :=
  fun f s f' s' hf h =>
    have hbuilt := (hb f s f' s' h).built hf
    hbuilt.titled.1.trans hbuilt.carries.name

/-- A definition that is made is stored, and so it is once it is built. -/
theorem stored_of_hoist (hb : BuildsBelow setting build) {made h : Frame} {s₁ s₂ : Session}
    {base : String} {c : Schema} (hm : (hoist f base c).Gives s made s₁)
    (hh : (build g).Gives s₁ h s₂) (hg : g.Fresh) (hname : g.name = made.name) :
    s.registry.Grows s₂.registry ∧ s₂.registry.get? h.name = some c ∧
      h.name ∈ s₂.registry.hoisted := by
  have hbuilt := (hb _ _ _ _ hh).built hg
  rw [hbuilt.carries.name, hname]
  rw [gives_hoist] at hm
  obtain ⟨rfl, rfl⟩ := hm
  refine ⟨(Registry.hoist_grows _ _ _).trans hbuilt.grows, hbuilt.grows.keeps _ _ ?_,
    hbuilt.grows.hoisted _ (List.mem_append_right _ (List.mem_singleton_self _))⟩
  rw [Registry.get?_hoist]
  exact if_pos rfl

/-- A frame that has no properties and no branches yet. -/
structure Bare (f : Frame) : Prop where
  properties : f.model.properties = []
  allOf : f.model.allOf = []

theorem Fresh.bare (h : f.Fresh) : f.Bare := by
  constructor <;> rw [h.model]

theorem start_bare (setting : Setting) (h : f.Bare) (k : Constraints) : (f.start setting k).Bare :=
  ⟨h.properties, h.allOf⟩

/-! ## References -/

/-- The model stands for a reference to the definition `n` and declares nothing. -/
structure Links (r : Registry) (n : String) (m : Model) : Prop where
  properties : m.properties = []
  allOf : m.allOf = []
  reference : m.reference = some n
  /-- It is complex if the schema at the end of the chain is a record. -/
  kind : ∃ d, r.Leads (Reference.toDefinition n) d ∧ m.type.complex = d.isRecord
  /-- It is a base only if the schema at the end of the chain has a discriminator. -/
  base : m.isBase = true →
    ∃ d, r.Leads (Reference.toDefinition n) d ∧ d.discriminator.isSome = true

variable {r r' : Registry} {n : String} {m m' : Model} {c : Schema}

theorem Links.mono (h : Links r n m) (hr : r.Grows r') : Links r' n m :=
  ⟨h.properties, h.allOf, h.reference, h.kind.imp fun _ hd => ⟨hd.1.mono hr.keeps, hd.2⟩,
    fun hbase => (h.base hbase).imp fun _ hd => ⟨hd.1.mono hr.keeps, hd.2⟩⟩

theorem Links.same (h : Links r n f.model) (hs : SameParts f f')
    (hbase : f'.model.isBase = f.model.isBase) : Links r n f'.model where
  properties := hs.properties.trans h.properties
  allOf := hs.allOf.trans h.allOf
  reference := hs.reference.trans h.reference
  kind := hs.complex ▸ h.kind
  base := hbase ▸ h.base

/-- The model takes the type of the reference. -/
theorem Links.retype (resolver : Resolver) {t : TypeInfo} {anonymous required : Bool}
    (h : Links resolver.registry n f.model)
    (href : f.schema.reference = some (Reference.toDefinition n))
    (ht : resolver.resolve f.schema anonymous required = .ok t) :
    Links resolver.registry n (f.retype t).model where
  properties := h.properties
  allOf := h.allOf
  reference := h.reference
  kind := h.kind
  base := Resolver.resolve_reference_discriminated href ht

/-- Nothing is built of a schema that holds no other once it has its type. -/
theorem childless_rest {f₄ f₅ : Frame} {s₄ s₅ : Session} (hc : f.schema.Childless)
    (hprops : (f.buildProperties setting build).Gives s f₄ s₄)
    (hadd : (f₄.buildAdditionalItems setting build).Gives s₄ f₅ s₅)
    (hitems : (f₅.buildItems setting build).Gives s₅ f' s') :
    f' = f.orderProperties setting ∧ s' = s := by
  obtain ⟨g, hlist, rfl⟩ := buildProperties_cases hprops
  rw [hc.properties, buildPropertyList, gives_pure] at hlist
  obtain ⟨rfl, rfl⟩ := hlist
  rcases buildAdditionalItems_cases hadd with ⟨-, rfl, rfl⟩ | ⟨extra, hsome, -⟩
  swap
  · exact absurd (hc.extraItems.symm.trans hsome) (by simp)
  rcases buildItems_cases hitems with ⟨-, rfl, rfl⟩ | ⟨item, hsome, -⟩ | ⟨places, hsome, -⟩
  · exact ⟨rfl, rfl⟩
  · exact absurd (hc.items.symm.trans hsome) (by simp)
  · exact absurd (hc.items.symm.trans hsome) (by simp)

theorem orderProperties_nil (setting : Setting) (h : f.model.properties = []) :
    SameParts f (f.orderProperties setting) := by
  refine ⟨rfl, ?_, rfl, rfl, rfl, rfl, rfl, rfl⟩
  show sortBy _ f.model.properties = f.model.properties
  rw [h]
  rfl

/-- **A reference beside which nothing is declared becomes a model that refers.** -/
theorem Builds.solitary (h : f.Builds setting s f' s') (hnamed : f.named = false)
    (hc : f.schema.Solitary) (hf : f.Bare) :
    s'.registry = s.registry ∧ f'.named = false ∧ f'.schema = f.schema ∧
      ∃ n, f.schema.referenceName = some n ∧ Links s.registry n f'.model := by
  obtain ⟨build, -, hs⟩ := h.step
  obtain ⟨k, s₂, t, f₃, s₃, t', f₄, s₄, f₅, s₅, required, hk, ht, hextra, ht', hprops, hadd, hitems⟩ :=
    buildStep_unbranched (by rw [hnamed]; rfl) hc.allOf hs
  have hreg := constraints_registry hk
  have hfill := fillContainer_parts (f.start setting k)
  have hfilled : (f.start setting k).fillContainer.schema = f.schema := fillContainer_schema _
  generalize (f.start setting k).fillContainer = f₂ at *
  -- a reference beside which nothing is declared has no values either
  have hextra₃ : f₃ = f₂.setType t t.baseType ∧ s₃ = s₂ := by
    rcases buildAdditionalProperties_cases hextra with ⟨-, h₃, h₃'⟩ | ⟨extra, hsome, -⟩
    · exact ⟨h₃, h₃'⟩
    · have hnone : f₂.schema.additionalProperties = none := hfilled ▸ hc.values
      exact absurd (hnone.symm.trans hsome) (by simp)
  obtain ⟨rfl, rfl⟩ := hextra₃
  have hretype := (pointMap_sameParts (f₂.setType t t.baseType)).trans (retype_parts _ t')
  have hschema₃ : ((f₂.setType t t.baseType).pointMap.retype t').schema = f.schema :=
    pointMap_schema.trans hfilled
  have hbase : ((f₂.setType t t.baseType).pointMap.retype t').model.isBase = t'.discriminated := rfl
  generalize (f₂.setType t t.baseType).pointMap.retype t' = g at *
  obtain ⟨rfl, rfl⟩ := childless_rest (hschema₃ ▸ hc.childless) hprops hadd hitems
  obtain ⟨reference, href⟩ := Option.isSome_iff_exists.mp hc.reference
  rw [hnamed] at ht
  obtain ⟨d, hd, hcomplex, -⟩ := Resolver.resolve_reference_kind href ht
  obtain ⟨n, hname⟩ := hd.exists_name
  have hreferenceName : f.schema.referenceName = some n :=
    Schema.referenceName_eq href hname
  have hproperties : g.model.properties = [] :=
    (hretype.properties.trans hfill.properties).trans hf.properties
  -- what is built of it so far refers to `n`, and ordering no properties changes nothing
  have hlinks : Links s.registry n g.model := by
    rw [← hreg]
    refine ⟨hproperties, (hretype.allOf.trans hfill.allOf).trans hf.allOf, ?_, ⟨d, ?_, ?_⟩, ?_⟩
    · exact (hretype.reference.trans hfill.reference).trans hreferenceName
    · rw [← Reference.eq_toDefinition hname]
      exact hd
    · exact hretype.complex.trans hcomplex
    · rw [hbase, ← Reference.eq_toDefinition hname]
      exact Resolver.resolve_reference_discriminated ((congrArg (·.reference) hfilled).trans href) ht'
  refine ⟨hreg, (hretype.named.trans hfill.named).trans hnamed, hschema₃, n, hreferenceName, ?_⟩
  exact hlinks.same (orderProperties_nil setting hproperties) rfl

/-! ## Objects -/

theorem BuildsBelow.linked (hb : BuildsBelow setting build) : BuildsLinked unasked build := by
  intro known f s f' s' hf hopen h
  obtain ⟨depth, h⟩ := hb f s f' s' h
  exact buildIn_linked setting depth known f s f' s' hf hopen h

/-- The model was taken apart: a definition was made of the schema, and a reference is left. -/
def TakenApart (r : Registry) (c : Schema) (m : Model) : Prop :=
  ∃ n, r.get? n = some c ∧ Links r n m

/--
The steps after the branches add the properties, and leave the model the type of its schema; unless
the frame is taken apart.
-/
theorem finish_parts {f₃ f₄ f₅ : Frame} {s₃ s₄ s₅ : Session} {t t' : TypeInfo} {required : Bool}
    (hb : BuildsBelow setting build) (hitemless : f.schema.items = none)
    (hextra : ((f.setType t t.baseType).buildAdditionalProperties setting build).Gives s f₃ s₃)
    (ht' : (resolverAt setting f₃ s₃).resolve f₃.schema (!f₃.named) required = .ok t')
    (hprops : ((f₃.pointMap.retype t').buildProperties setting build).Gives s₃ f₄ s₄)
    (hadd : (f₄.buildAdditionalItems setting build).Gives s₄ f₅ s₅)
    (hitems : (f₅.buildItems setting build).Gives s₅ f' s') :
    (Adds (f.setType t t.baseType) f' (Assoc.keys f.schema.properties) ∧
        f₃.schema.toKeywords = f.schema.toKeywords ∧ f'.model.type.tuple = t'.tuple ∧
        f'.model.isBase = t'.discriminated) ∨
      (t.complex = true ∧ f.named = false ∧ f.schema.extraValue?.isSome = true ∧
        TakenApart s'.registry f.schema f'.model) := by
  have hretype := (pointMap_sameParts f₃).trans (retype_parts _ t')
  rcases buildAdditionalProperties_parts hextra with hsame |
    ⟨hcomplex, hnamed, hvalue, g, hg, hschema, hapart⟩
  · have h₃ := hsame.trans hretype
    have h₄ := buildProperties_adds hb.names hprops
    have h₅ := buildAdditionalItems_parts hadd
    have hkeep := buildParts_retains hprops hadd
    have hnone : f₅.schema.items = none :=
      ((h₅.items.trans h₄.items).trans h₃.items).trans hitemless
    rcases buildItems_cases hitems with ⟨-, rfl, rfl⟩ | ⟨item, hsome, -⟩ | ⟨places, hsome, -⟩
    · refine Or.inl ⟨⟨(h₅.named.trans h₄.named).trans h₃.named, ?_,
        (h₅.allOf.trans h₄.allOf).trans h₃.allOf, (h₅.reference.trans h₄.reference).trans
        h₃.reference, (h₅.complex.trans h₄.complex).trans h₃.complex, hnone.trans hitemless.symm⟩,
        hsame.keywords, by rw [hkeep.type]; rfl, hkeep.isBase⟩
      have hperm := h₄.properties
      rw [h₃.properties, h₃.declared] at hperm
      rw [h₅.properties]
      exact hperm
    · -- there are no items to build
      exact absurd (hnone.symm.trans hsome) (by simp)
    · exact absurd (hnone.symm.trans hsome) (by simp)
  · obtain ⟨base, made, sₘ, hoisted, sₕ, inner, hm, hh, hi, rfl⟩ := hoistExtended_cases hapart
    obtain ⟨-, hstored, -⟩ := stored_of_hoist hb hm hh (made_fresh hm) rfl
    obtain ⟨hreg, -, hinner, n, hn, hlinks⟩ := (hb _ _ _ _ hi).solitary (hg.named.trans hnamed)
      (Schema.solitary_referenceTo hoisted.name) ⟨rfl, rfl⟩
    -- what is left in its place refers to the definition that was made
    obtain rfl : n = hoisted.name := Reference.eq_of_name?_toDefinition hn
    have hschema' : (inner.addExtra hoisted).pointMap.schema = .referenceTo hoisted.name :=
      pointMap_schema.trans hinner
    obtain ⟨rfl, rfl⟩ := childless_rest (f := (inner.addExtra hoisted).pointMap.retype t')
      (hschema' ▸ (Schema.solitary_referenceTo hoisted.name).childless) hprops hadd hitems
    refine Or.inr ⟨hcomplex, hnamed, hvalue, hoisted.name, ?_, ?_⟩
    · rw [hreg, hstored, hschema]
      rfl
    · rw [← hreg] at hlinks
      have hpoint := (addExtra_parts inner hoisted).trans (pointMap_sameParts _)
      have hpointed := hlinks.same hpoint (pointMap_isBase (inner.addExtra hoisted))
      rw [← pointMap_schema] at ht'
      have htyped := Links.retype (resolverAt setting (inner.addExtra hoisted) s')
        hpointed (congrArg (·.reference) hschema') ht'
      exact htyped.same (orderProperties_nil setting htyped.properties) rfl

theorem TakenApart.mono (h : TakenApart r c m) (hr : r.Grows r') : TakenApart r' c m :=
  h.imp fun n hn => ⟨hr.keeps n c hn.1, hn.2.mono hr⟩

theorem TakenApart.same (h : TakenApart r c f.model) (hs : SameParts f f')
    (hbase : f'.model.isBase = f.model.isBase) : TakenApart r c f'.model :=
  h.imp fun _ hn => hn.imp_right fun hl => hl.same hs hbase

/-- What became of a branch of a composition. -/
inductive Outcome (r : Registry) (b : Schema) (m : Model) : Prop
  /-- The model declares the properties of the branch. -/
  | declares : b.reference = none → b.allOf = [] → m.reference = none →
      (names m.properties).Perm (Assoc.keys b.properties) → m.type.complex = b.isRecord →
      (m.isBase = true → b.discriminator.isSome = true) → Outcome r b m
  /-- The model refers to the definition that the branch refers to. -/
  | refers {n : String} : b.Solitary → b.referenceName = some n → Links r n m → Outcome r b m
  /-- A definition was made of the branch: a composition, or an object with more values. -/
  | apart : b.reference = none → b.allOf ≠ [] ∨ b.extraValue?.isSome = true →
      TakenApart r b m → Outcome r b m

theorem Outcome.mono (h : Outcome r c m) (hr : r.Grows r') : Outcome r' c m := by
  cases h with
  | declares href hall hm hnames hcomplex hbase =>
    exact .declares href hall hm hnames hcomplex hbase
  | refers hc hn hl => exact .refers hc hn (hl.mono hr)
  | apart href hwhy hapart => exact .apart href hwhy (hapart.mono hr)

theorem Outcome.same (h : Outcome r c f.model) (hs : SameParts f f')
    (hbase : f'.model.isBase = f.model.isBase) : Outcome r c f'.model := by
  cases h with
  | declares href hall hm hnames hcomplex hdisc =>
    exact .declares href hall (hs.reference.trans hm) (hs.properties ▸ hnames)
      (hs.complex.trans hcomplex) (hbase ▸ hdisc)
  | refers hc hn hl => exact .refers hc hn (hl.same hs hbase)
  | apart href hwhy hapart => exact .apart href hwhy (hapart.same hs hbase)

/-- An object without branches declares its properties, or a definition is made of it. -/
theorem Builds.object (h : f.Builds setting s f' s') (hf : f.Bare) (hnamed : f.named = false)
    (href : f.schema.reference = none) (hitemless : f.schema.items = none)
    (hbranches : f.schema.allOf = []) :
    Outcome s'.registry f.schema f'.model := by
  obtain ⟨build, hb, hs⟩ := h.step
  obtain ⟨k, s₀, hreg, ⟨hn, -⟩ | ⟨-, f₁, f₂, s₂, t, f₃, s₃, t', f₄, s₄, f₅, s₅, required, hlift,
    hall, ht, hextra, ht', hprops, hadd, hitems⟩⟩ := buildStep_cases hs
  · rw [hnamed] at hn
    exact absurd hn (by decide)
  have hschema : (f.start setting k).schema = f.schema := rfl
  obtain ⟨-, ⟨rfl, -⟩ | ⟨branch, hl, -⟩⟩ := liftBranch_cases hlift
  swap
  · -- without branches none is lifted
    have hlen := hl.1
    rw [hschema, hbranches] at hlen
    exact absurd hlen (by decide)
  have hfill := fillContainer_parts (f.start setting k)
  have hfilled : (f.start setting k).fillContainer.schema = f.schema :=
    (fillContainer_same _).schema.trans hschema
  rcases buildAllOf_cases hall with ⟨-, rfl, rfl⟩ | ⟨hne, -⟩
  swap
  · rw [hfilled] at hne
    exact absurd hbranches hne
  generalize (f.start setting k).fillContainer = f₂ at *
  have hkind := (Resolver.resolveWith_kind (hfilled ▸ href) ht).1
  rw [hfilled] at hkind
  rcases finish_parts hb (hfilled ▸ hitemless) hextra ht' hprops hadd hitems with
    ⟨hadds, hkeywords, -, hbase⟩ | ⟨-, -, hvalue, hapart⟩
  · refine .declares href hbranches ?_ ?_ (hadds.complex.trans hkind) fun hmarked => ?_
    · have hnone : f.schema.referenceName = none := Schema.referenceName_eq_none href
      exact (hadds.reference.trans hfill.reference).trans hnone
    · have hperm := hadds.properties
      have hnil : f₂.model.properties = [] := hfill.properties.trans hf.properties
      rw [hfilled] at hperm
      change (names f'.model.properties).Perm (names f₂.model.properties ++ _) at hperm
      rwa [hnil] at hperm
    · rw [hfilled] at hkeywords
      -- the mark of a base comes from the discriminator of the schema
      have hdisc := Resolver.resolveWith_discriminated
        ((congrArg Keywords.reference hkeywords).trans href) ht' (hbase.symm.trans hmarked)
      rw [← congrArg Keywords.discriminator hkeywords]
      exact hdisc
  · rw [hfilled] at hvalue hapart
    exact .apart href (.inr hvalue) hapart

/-- The later frame has the models of `branches` beside the branches it had. -/
structure AddsBranches (r : Registry) (f f' : Frame) (branches : List Schema) : Prop where
  named : f'.named = f.named
  properties : f'.model.properties = f.model.properties
  reference : f'.model.reference = f.model.reference
  schema : ∃ l, f'.schema = { f.schema with allOf := l } ∧ l.length = f.schema.allOf.length
  allOf : ∃ l, f'.model.allOf = f.model.allOf ++ l ∧ List.Forall₂ (Outcome r) branches l

theorem AddsBranches.cons {b : Schema} {rest : List Schema} (h : AddsBranches r f f' [b])
    (h' : AddsBranches r' f' f'' rest) (hr : r.Grows r') : AddsBranches r' f f'' (b :: rest) where
  named := h'.named.trans h.named
  properties := h'.properties.trans h.properties
  reference := h'.reference.trans h.reference
  schema := by
    obtain ⟨l, hl, hlen⟩ := h.schema
    obtain ⟨l', hl', hlen'⟩ := h'.schema
    rw [hl] at hl' hlen'
    exact ⟨l', hl', hlen'.trans hlen⟩
  allOf := by
    obtain ⟨l, hl, hall⟩ := h.allOf
    obtain ⟨l', hl', hall'⟩ := h'.allOf
    cases hall with
    | cons hm hnil =>
      cases hnil
      exact ⟨_ :: l', by rw [hl', hl, List.append_assoc]; rfl, .cons (hm.mono hr) hall'⟩

theorem addBranch_adds {b : Schema} (hg : Outcome r b g.model) :
    AddsBranches r f (f.addBranch g) [b] where
  named := rfl
  properties := rfl
  reference := rfl
  schema := f.schema.exists_allOf
  allOf := ⟨[g.model], rfl, .cons hg .nil⟩

/-- **What becomes of a branch.** -/
theorem buildBranch_adds (hb : BuildsBelow setting build) {index : Nat} {b : Schema} {array : Bool}
    (hbranch : b.IsBranch) (h : (f.buildBranch setting build index b).Gives s (f', array) s') :
    AddsBranches s'.registry f f' [b] ∧ s.registry.Grows s'.registry := by
  obtain ⟨t, ht, ⟨hneeds, base, made, s₁, hoisted, s₂, composed, hm, hh, hc, rfl⟩ |
    ⟨hneeds, composed, hc, rfl⟩⟩ := buildBranch_cases h
  · -- the branch is a composition: a reference needs no name
    obtain ⟨href, hall⟩ : b.reference = none ∧ b.allOf ≠ [] := by
      cases hbranch with
      | solitary hsol =>
        rw [branchNeedsName, Resolver.resolve_named (Or.inl hsol.reference) ht,
          Option.isNone_eq_false_iff.mpr hsol.reference] at hneeds
        exact absurd hneeds (by simp)
      | object href hobject _ =>
        rw [href] at ht
        have hkind := Resolver.resolveWith_kind href ht
        rw [Schema.isScalar_of_saysObject hobject] at hkind
        rw [branchNeedsName, hkind.2, (Resolver.resolve_saysObject href hobject ht).2] at hneeds
        exact ⟨href, by simpa using And.right (by simpa using hneeds : t.anonymous = true ∧ _)⟩
    obtain ⟨hgrows, hstored, -⟩ := stored_of_hoist hb hm hh (made_fresh hm) rfl
    obtain ⟨hreg, -, -, n, hn, hlinks⟩ := (hb _ _ _ _ hc).solitary rfl
      (Schema.solitary_referenceTo hoisted.name) ⟨rfl, rfl⟩
    obtain rfl : n = hoisted.name := Reference.eq_of_name?_toDefinition hn
    rw [hreg]
    have hout : Outcome s₂.registry b (composed.addExtra hoisted).model :=
      .apart href (.inl hall) ⟨_, hstored, hlinks.same (addExtra_parts composed hoisted) rfl⟩
    obtain ⟨hnamed, hproperties, hreference, hschema, hallOf⟩ :=
      addBranch_adds (f := f.mapBranch index (.referenceTo hoisted.name)) hout
    refine ⟨⟨hnamed, hproperties, hreference, ?_, hallOf⟩, hgrows⟩
    exact ⟨f.schema.allOf.set index (.referenceTo hoisted.name), rfl, List.length_set⟩
  · have hfresh : (f.branch b index).Fresh := ⟨rfl, rfl, rfl⟩
    refine ⟨addBranch_adds ?_, (hb _ _ _ _ hc).grows hfresh⟩
    refine Outcome.same ?_ (pointMap_sameParts composed) (pointMap_isBase composed)
    cases hbranch with
    | solitary hsol =>
      obtain ⟨hreg, -, -, n, hn, hlinks⟩ := (hb _ _ _ _ hc).solitary rfl hsol hfresh.bare
      rw [hreg]
      exact .refers hsol hn hlinks
    | object href hobject hitemless =>
      rw [href] at ht
      have hall : b.allOf = [] := by
        rw [branchNeedsName, (Resolver.resolve_saysObject href hobject ht).1] at hneeds
        simpa using And.left (by simpa using hneeds : b.allOf = [] ∧ _)
      exact (hb _ _ _ _ hc).object hfresh.bare rfl href hitemless hall

theorem buildBranches_adds (hb : BuildsBelow setting build) {branches : List Schema} :
    ∀ {index : Nat} {arrays : List Bool} {f f' : Frame} {s s' : Session},
    (∀ b ∈ branches, b.IsBranch) →
    (f.buildBranches setting build index branches).Gives s (f', arrays) s' →
    AddsBranches s'.registry f f' branches ∧ s.registry.Grows s'.registry := by
  induction branches with
  | nil =>
    intro index arrays f f' s s' _ h
    rw [buildBranches, gives_pure, Prod.mk.injEq] at h
    obtain ⟨⟨rfl, -⟩, rfl⟩ := h
    exact ⟨⟨rfl, rfl, rfl, f.schema.exists_allOf, [], (List.append_nil _).symm, .nil⟩, .refl _⟩
  | cons b rest ih =>
    intro index arrays f f' s s' hbranches h
    obtain ⟨f₁, array, s₁, arrays', h₁, h₂⟩ := buildBranches_cons_cases h
    obtain ⟨hadds, hgrows⟩ := buildBranch_adds hb (hbranches b List.mem_cons_self) h₁
    obtain ⟨hrest, hgrows'⟩ := ih (fun c hc => hbranches c (List.mem_cons_of_mem _ hc)) h₂
    exact ⟨hadds.cons hrest hgrows', hgrows.trans hgrows'⟩

/-! ## Definitions -/

/-- What a model declares, as its schema says. -/
structure Outline (r : Registry) (c : Schema) (m : Model) : Prop where
  complex : m.type.complex = c.isRecord
  properties : (names m.properties).Perm (Assoc.keys c.properties)
  branches : List.Forall₂ (Outcome r) c.allOf m.allOf

/-- A property needs a name if and only if it is an inline object that declares something. -/
theorem propertyNeedsName_iff {r : Resolver} {t : TypeInfo} {required : Bool}
    (ht : r.resolve c true required = .ok t) : propertyNeedsName c t = c.isInline := by
  -- that something is declared is asked twice
  rw [propertyNeedsName, Resolver.complex_anonymous_eq (.inr rfl) ht, Schema.isInline, Schema.isRecord,
    Bool.and_assoc, Bool.and_assoc, Bool.and_self]

theorem resolverAt_start (k : Constraints) {s₀ : Session} (h : s₀.registry = s.registry) :
    resolverAt setting (f.start setting k) s₀ = resolverAt setting f s := by
  unfold resolverAt
  rw [h]
  rfl

/-- Of the branches of objects only references are lifted. -/
theorem Lifts.solitary {b : Schema} {r : Resolver} (h : Lifts r c b) (hb : b.IsBranch) :
    b.Solitary := by
  cases hb with
  | solitary hsol => exact hsol
  | object href hobject _ =>
    rcases h.kind with hsome | hscalar
    · exact absurd (hsome.symm.trans (congrArg Option.isSome href)) (by decide)
    · exact absurd (hscalar.symm.trans (Schema.isScalar_of_saysObject hobject)) (by decide)

/--
The composition gives way to its one branch that says something: a reference to an object that
declares something, or to a type without structure.
-/
def Collapses (r : Registry) (c : Schema) : Prop :=
  2 ≤ c.allOf.length ∧ ∃ b reference d, c.allOf.filter isSubstantive = [b] ∧
    b.reference = some reference ∧ r.Leads reference d ∧ (d.isRecord = true ∨ d.isScalar = true)

theorem liftBranch_resolves {b : Schema} (h : (f.liftBranch setting).Gives s f' s')
    (hlen : 2 ≤ f.schema.allOf.length) (hfilter : f.schema.allOf.filter isSubstantive = [b]) :
    ∃ t, (resolverAt setting f s).resolve b true true = .ok t := by
  unfold liftBranch at h
  rw [if_neg (by omega), hfilter] at h
  simp only [gives_bind, gives_resolve] at h
  obtain ⟨t, _, ⟨ht, -⟩, -⟩ := h
  exact ⟨t, ht⟩

/-- **Which branches of objects are lifted**, the definitions that they refer to say. -/
theorem liftBranch_collapses (h : (f.liftBranch setting).Gives s f' s')
    (hbranches : ∀ b ∈ f.schema.allOf, b.IsBranch) :
    (f' = f ∧ (∀ b, ¬ Lifts (resolverAt setting f s) f.schema b) ∧
        ¬ Collapses s.registry f.schema) ∨
      ∃ b, f' = f.lift b ∧ b.Solitary ∧ Lifts (resolverAt setting f s) f.schema b ∧
        Collapses s.registry f.schema ∧ ∃ reference d, b.reference = some reference ∧
          s.registry.Leads reference d ∧ (d.saysObject = true ∨ d.isScalar = true) := by
  obtain ⟨-, ⟨rfl, hno⟩ | ⟨b, hl, rfl⟩⟩ := liftBranch_cases h
  · refine .inl ⟨rfl, hno, fun ⟨hlen, b, reference, d, hfilter, href, hd, hkind⟩ => ?_⟩
    obtain ⟨t, ht⟩ := liftBranch_resolves h hlen hfilter
    obtain ⟨e, he, hcomplex, hprimitive⟩ := Resolver.resolve_reference_kind href ht
    obtain rfl := he.unique hd
    have hnamed := Resolver.resolve_named (.inl (by rw [href]; rfl)) ht
    -- if the composition collapsed, the branch would have been lifted
    refine hno b ⟨hlen, hfilter, t, ht, ?_⟩
    rw [hnamed, hcomplex, hprimitive]
    exact hkind.imp_left fun h => ⟨rfl, h⟩
  · have hsol := hl.solitary (hbranches b hl.mem)
    obtain ⟨reference, href⟩ := Option.isSome_iff_exists.mp hsol.reference
    obtain ⟨hlen, hfilter, t, ht, hkind⟩ := hl
    obtain ⟨d, hd, hcomplex, hprimitive⟩ := Resolver.resolve_reference_kind href ht
    rw [hcomplex, hprimitive] at hkind
    have hkind' := hkind.imp_left And.right
    refine .inr ⟨b, rfl, hsol, ⟨hlen, hfilter, t, ht, ?_⟩, ⟨hlen, b, reference, d, hfilter, href, hd,
      hkind'⟩, reference, d, href, hd, hkind'.imp_left fun h => ?_⟩
    · rw [hcomplex, hprimitive]
      exact hkind
    · exact (Bool.and_eq_true_iff.mp h).1

/-- What the steps come to for a definition that keeps its branches. -/
theorem steps_outline {f₂ f₃ f₄ f₅ : Frame} {s₂ s₃ s₄ s₅ : Session} {t t' : TypeInfo}
    {required required' : Bool} (hb : BuildsBelow setting build) (hbare : f.Bare)
    (hnamed : f.named = true) (hc : f.schema.Composed)
    (hall : (f.fillContainer.buildAllOf setting build).Gives s f₂ s₂)
    (ht : (resolverAt setting f₂ s₂).resolve f₂.schema (!f₂.named) required = .ok t)
    (hextra : ((f₂.setType t t.baseType).buildAdditionalProperties setting build).Gives s₂ f₃ s₃)
    (ht' : (resolverAt setting f₃ s₃).resolve f₃.schema (!f₃.named) required' = .ok t')
    (hprops : ((f₃.pointMap.retype t').buildProperties setting build).Gives s₃ f₄ s₄)
    (hadd : (f₄.buildAdditionalItems setting build).Gives s₄ f₅ s₅)
    (hitems : (f₅.buildItems setting build).Gives s₅ f' s')
    (hgrows : s₂.registry.Grows s'.registry) :
    f'.model.reference = f.model.reference ∧ f'.model.type.tuple = false ∧
      Outline s'.registry f.schema f'.model := by
  have hfill := fillContainer_parts f
  have hfilled : f.fillContainer.schema = f.schema := (fillContainer_same _).schema
  generalize f.fillContainer = g at *
  have hadds : AddsBranches s₂.registry g f₂ f.schema.allOf := by
    rcases buildAllOf_cases hall with ⟨hnil, rfl, -⟩ | ⟨-, arrays, s₁, hbr, hreg'⟩
    · rw [hfilled] at hnil
      rw [hnil]
      exact ⟨rfl, rfl, rfl, f₂.schema.exists_allOf, [], (List.append_nil _).symm, .nil⟩
    · rw [hreg']
      rw [hfilled] at hbr
      exact (buildBranches_adds hb hc.branches hbr).1
  obtain ⟨l, hschema, hlen⟩ := hadds.schema
  rw [hfilled] at hschema hlen
  have hitemless₂ : f₂.schema.items = none := by rw [hschema, hc.items]
  have hnamed₂ : f₂.named = true := (hadds.named.trans hfill.named).trans hnamed
  -- a definition is not taken apart
  obtain ⟨hfinish, hkeywords, htuple, -⟩ :=
    (finish_parts hb hitemless₂ hextra ht' hprops hadd hitems).resolve_right
      fun h => absurd (hnamed₂.symm.trans h.2.1) (by decide)
  refine ⟨(hfinish.reference.trans hadds.reference).trans hfill.reference, ?_, ?_, ?_, ?_⟩
  · have hkeywords' : f₃.schema.toKeywords = f.schema.toKeywords := by
      rw [hkeywords, hschema]
    rw [htuple]
    refine Resolver.resolveWith_tuple ?_ (.inl ?_) ht'
    · exact (congrArg Keywords.reference hkeywords').trans hc.reference
    · rw [Schema.saysObject_congr hkeywords']
      exact hc.object
  · have href : f₂.schema.reference = none := by rw [hschema, hc.reference]
    have hkind := (Resolver.resolveWith_kind href ht).1
    rw [hschema, Schema.isRecord_with_allOf hlen] at hkind
    exact hfinish.complex.trans hkind
  · have hperm := hfinish.properties
    have hnil : f₂.model.properties = [] :=
      (hadds.properties.trans hfill.properties).trans hbare.properties
    change (names f'.model.properties).Perm (names f₂.model.properties ++ _) at hperm
    rw [hnil, hschema] at hperm
    exact hperm
  · obtain ⟨ms, hms, hout⟩ := hadds.allOf
    have hall' : f'.model.allOf = f₂.model.allOf := hfinish.allOf
    rw [hfill.allOf, hbare.allOf] at hms
    rw [hall', hms]
    exact hout.imp fun _ _ ho => ho.mono hgrows

/-- What the steps come to once a reference took the place of the schema: nothing is declared. -/
theorem steps_lifted {f₂ f₃ f₄ f₅ : Frame} {s₂ s₃ s₄ s₅ : Session} {t t' : TypeInfo}
    {required : Bool} {reference : String} {d : Schema} (hbare : f.Bare) (hsol : f.schema.Solitary)
    (href : f.schema.reference = some reference) (hd : s.registry.Leads reference d)
    (hkind : d.saysObject = true ∨ d.isScalar = true)
    (hall : (f.fillContainer.buildAllOf setting build).Gives s f₂ s₂)
    (hextra : ((f₂.setType t t.baseType).buildAdditionalProperties setting build).Gives s₂ f₃ s₃)
    (ht' : (resolverAt setting f₃ s₃).resolve f₃.schema (!f₃.named) required = .ok t')
    (hprops : ((f₃.pointMap.retype t').buildProperties setting build).Gives s₃ f₄ s₄)
    (hadd : (f₄.buildAdditionalItems setting build).Gives s₄ f₅ s₅)
    (hitems : (f₅.buildItems setting build).Gives s₅ f' s') :
    f'.model.reference = f.model.reference ∧ f'.model.type.tuple = false ∧
      f'.model.properties = [] ∧ f'.model.allOf = [] := by
  have hfill := fillContainer_parts f
  have hfilled : f.fillContainer.schema = f.schema := (fillContainer_same _).schema
  generalize f.fillContainer = g at *
  -- a reference beside which nothing is declared has neither branches nor values to build
  obtain ⟨rfl, rfl⟩ : f₂ = g ∧ s₂ = s := by
    rcases buildAllOf_cases hall with ⟨-, rfl, rfl⟩ | ⟨hne, -⟩
    · exact ⟨rfl, rfl⟩
    · rw [hfilled] at hne
      exact absurd hsol.allOf hne
  obtain ⟨rfl, rfl⟩ : f₃ = f₂.setType t t.baseType ∧ s₃ = s₂ := by
    rcases buildAdditionalProperties_cases hextra with ⟨-, rfl, rfl⟩ | ⟨extra, hsome, -⟩
    · exact ⟨rfl, rfl⟩
    · have hvalues : f₂.schema.additionalProperties = none := hfilled ▸ hsol.values
      exact absurd (hvalues.symm.trans hsome) (by simp)
  have hrest := (pointMap_sameParts (f₂.setType t t.baseType)).trans (retype_parts _ t')
  have hschema : ((f₂.setType t t.baseType).pointMap.retype t').schema = f.schema :=
    pointMap_schema.trans hfilled
  obtain ⟨rfl, -⟩ := childless_rest (hschema ▸ hsol.childless) hprops hadd hitems
  have hproperties : ((f₂.setType t t.baseType).pointMap.retype t').model.properties = [] :=
    (hrest.properties.trans hfill.properties).trans hbare.properties
  have hlast := hrest.trans (orderProperties_nil setting hproperties)
  refine ⟨hlast.reference.trans hfill.reference, ?_,
    (hlast.properties.trans hfill.properties).trans hbare.properties,
    (hlast.allOf.trans hfill.allOf).trans hbare.allOf⟩
  show t'.tuple = false
  refine Resolver.resolve_reference_tuple ?_ hd hkind ht'
  show f₂.schema.reference = some reference
  rw [hfilled]
  exact href

/--
**What a definition declares**: the names of its properties and what became of its branches; nothing
if a branch was lifted.
-/
theorem Builds.outline (h : f.Builds setting s f' s') (hf : f.Fresh) (hnamed : f.named = true)
    (hc : f.schema.Composed) :
    f'.model.reference = none ∧ f'.model.type.tuple = false ∧
      (((∀ b, ¬ Lifts (resolverAt setting f s) f.schema b) ∧ ¬ Collapses s.registry f.schema ∧
          Outline s'.registry f.schema f'.model) ∨
        ((∃ b, Lifts (resolverAt setting f s) f.schema b) ∧ Collapses s.registry f.schema ∧
          f'.model.properties = [] ∧ f'.model.allOf = [])) := by
  obtain ⟨build, hb, hs⟩ := h.step
  obtain ⟨k, s₀, hreg, ⟨-, hsome, -⟩ | ⟨-, f₁, f₂, s₂, t, f₃, s₃, t', f₄, s₄, f₅, s₅, required, hlift,
    hall, ht, hextra, ht', hprops, hadd, hitems⟩⟩ := buildStep_cases hs
  · rw [hc.reference] at hsome
    exact absurd hsome (by decide)
  have hlinked : f.Linked (fun _ => True) unasked s.registry :=
    hf.linked (Schema.known_of_anything f.schema)
  obtain ⟨hstart, -, hopen⟩ := start_advances setting hlinked hf.open k
  rw [← hreg] at hstart
  have h₁ := liftBranch_advances hstart.linked hopen hlift
  have h₁' := (fillContainer_same f₁).advances h₁.linked
  have h₂ := buildAllOf_advances hb.linked h₁'.linked hall
  -- the definitions that branches refer to are still there when the last step is done
  have hgrows := (finish_advances hb.linked h₂.linked hextra ht' hprops hadd hitems).1.grows
  have hnone : (f.start setting k).model.reference = none := by
    show f.schema.referenceName = none
    rw [Schema.referenceName, hc.reference]
    rfl
  have hbare := start_bare setting hf.bare k
  rcases liftBranch_collapses hlift hc.branches with ⟨rfl, hno, hcollapses⟩ |
    ⟨b, rfl, hsol, hl, hcollapses, reference, d, href, hd, hkind⟩
  · rw [resolverAt_start k hreg] at hno
    rw [hreg] at hcollapses
    obtain ⟨hreference, htuple, houtline⟩ := steps_outline (f := f.start setting k) hb hbare hnamed hc
      hall ht hextra ht' hprops hadd hitems hgrows
    exact ⟨hreference.trans hnone, htuple, .inl ⟨hno, hcollapses, houtline⟩⟩
  · rw [resolverAt_start k hreg] at hl
    rw [hreg] at hcollapses
    obtain ⟨hreference, htuple, hempty⟩ := steps_lifted (f := (f.start setting k).lift b)
      ⟨hbare.properties, hbare.allOf⟩ hsol href hd hkind hall hextra ht' hprops hadd hitems
    exact ⟨hreference.trans hnone, htuple, .inr ⟨⟨b, hl⟩, hcollapses, hempty⟩⟩

end Frame

end KclModels
