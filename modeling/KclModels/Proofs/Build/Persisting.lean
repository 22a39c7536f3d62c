import KclModels.Proofs.Build.Cases
import KclModels.Proofs.Build.Flattening
import KclModels.Proofs.Schema.Composition
import KclModels.Proofs.Schema.Within

/-!
# What steps of building leave as it is

A model takes its name in the document, its texts, its values and its constraints straight from the
place and the schema, before anything is built below it. The steps after that add parts and change
types and mark that there are constraints, and of the schema they do no more than put references in
place of parts. Where a definition is made of a frame, or of its elements, another frame is built in
its place; what persists of a frame says nothing about that one.
-/

namespace KclModels

variable {tr : Text.Transliteration}

/-- What is said of a value beside its type and its constraints. -/
structure Metadata where
  title : Option String := none
  description : Option String := none
  defaultValue : Option Value := none
  exampleValue : Option Value := none
  readOnly : Bool := false
  /-- Where the value is to stand among the properties. -/
  order : Option Double := none

/-- What the schema says: texts without byte order marks, values with their keys in order. -/
def Schema.metadata (keepOrder : Bool) (c : Schema) : Metadata where
  title := c.title.map trimMarks
  description := c.description.map trimMarks
  defaultValue := c.defaultValue.map (Value.ordered keepOrder)
  exampleValue := c.exampleValue.map (Value.ordered keepOrder)
  readOnly := c.readOnly
  order := c.hints.order

/-- What the model says. -/
def Model.metadata (m : Model) : Metadata where
  title := m.title
  description := m.description
  defaultValue := m.defaultValue
  exampleValue := m.exampleValue
  readOnly := m.readOnly
  order := m.order

/-- The constraints without the flags that say where there are any. -/
def Constraints.values (k : Constraints) : Constraints :=
  { k with present := false, presentOnItems := false }

/-- The constraints of the schema on its values, without nulls among those to choose from. -/
def Schema.bounds (c : Schema) : Constraints :=
  let k := (Constraints.ofSchema c).values
  { k with enumValues := ((Constraints.pruneEnum k.enumValues).map Prod.fst).getD [] }

/-- What is said of a value beside its type. -/
structure Said where
  metadata : Metadata := {}
  bounds : Constraints := {}

/-- What the schema says of a value beside its type. -/
def Schema.said (keepOrder : Bool) (c : Schema) : Said where
  metadata := c.metadata keepOrder
  bounds := c.bounds

/-- What the model says of a value beside its type. -/
def Model.said (m : Model) : Said where
  metadata := m.metadata
  bounds := m.constraints.values

/-- A reference that was put in place of a schema says nothing. -/
@[simp]
theorem Schema.said_referenceTo (keepOrder : Bool) (n : String) :
    (Schema.referenceTo n).said keepOrder = {} := rfl

theorem Schema.said_congr {c d : Schema} (h : c.toKeywords = d.toKeywords) (keepOrder : Bool) :
    c.said keepOrder = d.said keepOrder := by
  obtain ⟨keywords⟩ := c
  obtain ⟨keywords'⟩ := d
  obtain rfl : keywords = keywords' := h
  rfl

/-- The later schema is the earlier one with references in place of some of its parts. -/
structure Schema.Revises (c c' : Schema) : Prop where
  keywords : c'.toKeywords = c.toKeywords
  properties : c'.properties = c.properties
  items : c'.items = c.items
  value : c'.extraValue?.isSome = c.extraValue?.isSome
  branches : Schema.Renames c.allOf c'.allOf

namespace Schema.Revises

variable {c c' c'' : Schema}

theorem refl (c : Schema) : c.Revises c := ⟨rfl, rfl, rfl, rfl, .refl _⟩

theorem trans (h : c.Revises c') (h' : c'.Revises c'') : c.Revises c'' where
  keywords := h'.keywords.trans h.keywords
  properties := h'.properties.trans h.properties
  items := h'.items.trans h.items
  value := h'.value.trans h.value
  branches := h.branches.trans h'.branches

theorem reference (h : c.Revises c') : c'.reference = c.reference :=
  congrArg Keywords.reference h.keywords

theorem length (h : c.Revises c') : c'.allOf.length = c.allOf.length := h.branches.length_eq.symm

/-- It still declares something, or still does not. -/
theorem isRecord (h : c.Revises c') : c'.isRecord = c.isRecord := by
  have hempty : c'.allOf.isEmpty = c.allOf.isEmpty := by
    rw [Bool.eq_iff_iff, List.isEmpty_iff_length_eq_zero, List.isEmpty_iff_length_eq_zero, h.length]
  rw [Schema.isRecord, Schema.isRecord, Schema.saysObject_congr h.keywords, h.properties, hempty]

end Schema.Revises

namespace Frame

open Build

variable {setting : Setting} {build : Frame → Build Frame} {s s' : Session} {f f' f'' g : Frame}

/-- The later frame has the same place and says the same, with a revised schema. -/
structure Persists (f f' : Frame) : Prop where
  name : f'.name = f.name
  named : f'.named = f.named
  required : f'.required = f.required
  tuple : f'.tuple = f.tuple
  modelName : f'.modelName = f.modelName
  reference : f'.model.reference = f.model.reference
  documentName : f'.model.documentName = f.model.documentName
  said : f'.model.said = f.model.said
  schema : f.schema.Revises f'.schema

theorem Persists.refl (f : Frame) : Persists f f :=
  ⟨rfl, rfl, rfl, rfl, rfl, rfl, rfl, rfl, .refl _⟩

theorem Persists.trans (h : Persists f f') (h' : Persists f' f'') : Persists f f'' where
  name := h'.name.trans h.name
  named := h'.named.trans h.named
  required := h'.required.trans h.required
  tuple := h'.tuple.trans h.tuple
  modelName := h'.modelName.trans h.modelName
  reference := h'.reference.trans h.reference
  documentName := h'.documentName.trans h.documentName
  said := h'.said.trans h.said
  schema := h.schema.trans h'.schema

/-- The constraints that a frame is filled in with are those of its schema. -/
theorem constraints_values {k : Constraints} (h : f.constraints.Gives s k s') :
    k.values = f.schema.bounds := by
  unfold constraints at h
  simp only at h
  split at h
  · rename_i hempty
    rw [gives_pure] at h
    rw [← h.1, Schema.bounds]
    have hnil : (Constraints.ofSchema f.schema).values.enumValues = [] := List.isEmpty_iff.mp hempty
    rw [hnil, Constraints.pruneEnum, ← hnil]
    rfl
  · split at h
    · -- choices of which none can be kept are an error
      rw [gives_throw] at h
      exact h.elim
    · rename_i kept _ hpruned
      have hbounds : f.schema.bounds =
          { (Constraints.ofSchema f.schema).values with enumValues := kept } := by
        rw [Schema.bounds]
        have hvalues : Constraints.pruneEnum (Constraints.ofSchema f.schema).values.enumValues = _ :=
          hpruned
        rw [hvalues]
        rfl
      rw [hbounds]
      split at h
      · -- a warning of choices that were dropped changes nothing else
        rw [gives_bind] at h
        obtain ⟨_, t, -, hp⟩ := h
        rw [gives_pure] at hp
        rw [← hp.1]
        rfl
      · rw [gives_pure] at h
        rw [← h.1]
        rfl

/-! ## Changes -/

theorem fillContainer_persists (f : Frame) : Persists f f.fillContainer := by
  unfold fillContainer
  split
  · exact ⟨rfl, rfl, rfl, rfl, rfl, rfl, rfl, rfl, .refl _⟩
  · exact .refl f

theorem setType_persists (f : Frame) (t : TypeInfo) (isBase : Bool) :
    Persists f (f.setType t isBase) := ⟨rfl, rfl, rfl, rfl, rfl, rfl, rfl, rfl, .refl _⟩

theorem retype_persists (f : Frame) (t : TypeInfo) : Persists f (f.retype t) :=
  ⟨rfl, rfl, rfl, rfl, rfl, rfl, rfl, rfl, .refl _⟩

theorem pointMap_persists (f : Frame) : Persists f f.pointMap := by
  unfold pointMap
  split
  · exact ⟨rfl, rfl, rfl, rfl, rfl, rfl, rfl, rfl, .refl _⟩
  · exact .refl f

theorem addExtra_persists (f g : Frame) : Persists f (f.addExtra g) :=
  ⟨rfl, rfl, rfl, rfl, rfl, rfl, rfl, rfl, .refl _⟩

theorem markExtra_persists (f : Frame) (declared : Bool) : Persists f (f.markExtra declared) := by
  unfold markExtra
  split
  · exact ⟨rfl, rfl, rfl, rfl, rfl, rfl, rfl, rfl, .refl _⟩
  · exact ⟨rfl, rfl, rfl, rfl, rfl, rfl, rfl, rfl, .refl _⟩

theorem deny_markExtra_persists (f : Frame) (extra : Extra Schema) (declared : Bool) :
    Persists f ((f.deny extra).markExtra declared) := by
  have hdeny : Persists f (f.deny extra) := ⟨rfl, rfl, rfl, rfl, rfl, rfl, rfl, rfl, .refl _⟩
  exact hdeny.trans (markExtra_persists _ declared)

theorem allowAny_persists (f : Frame) (declared : Bool) : Persists f (f.allowAny declared) := by
  unfold allowAny
  split
  · exact .refl f
  · exact ⟨rfl, rfl, rfl, rfl, rfl, rfl, rfl, rfl, .refl _⟩

theorem setValue_persists (f g : Frame) : Persists f (f.setValue g) :=
  ⟨rfl, rfl, rfl, rfl, rfl, rfl, rfl, rfl, .refl _⟩

theorem setStore_persists (f g : Frame) : Persists f (f.setStore g) :=
  ⟨rfl, rfl, rfl, rfl, rfl, rfl, rfl, rfl, .refl _⟩

/-- Another schema takes the place of that of the values, if there was one. -/
theorem mapExtraValue_persists {value : Schema} (h : f.schema.extraValue? = some value) (c : Schema) :
    Persists f (f.mapExtraValue c) :=
  ⟨rfl, rfl, rfl, rfl, rfl, rfl, rfl, rfl, rfl, rfl, rfl, by rw [h]; rfl, .refl _⟩

theorem referValue_persists {value : Schema} (h : f.schema.extraValue? = some value) (n : String) :
    Persists f (f.referValue n) :=
  (mapExtraValue_persists h (.referenceTo n)).trans ⟨rfl, rfl, rfl, rfl, rfl, rfl, rfl, rfl, .refl _⟩

theorem mapExtraItem_persists (f : Frame) (c : Schema) : Persists f (f.mapExtraItem c) :=
  ⟨rfl, rfl, rfl, rfl, rfl, rfl, rfl, rfl, rfl, rfl, rfl, rfl, .refl _⟩

theorem setElement_persists (f element : Frame) (item : Schema) (p : Polymorphism) :
    Persists f ((f.markElements item p).setElement element) := by
  unfold markElements
  split <;> exact ⟨rfl, rfl, rfl, rfl, rfl, rfl, rfl, rfl, .refl _⟩

/-! ## Steps -/

theorem buildBranches_persists {branches : List Schema} : ∀ {index : Nat} {arrays : List Bool}
    {f f' : Frame} {s s' : Session}, (∀ j : Nat, branches[j]? = f.schema.allOf[index + j]?) →
    (f.buildBranches setting build index branches).Gives s (f', arrays) s' → Persists f f' := by
  induction branches with
  | nil =>
    intro index arrays f f' s s' _ h
    rw [buildBranches, gives_pure, Prod.mk.injEq] at h
    exact h.1.1 ▸ .refl f
  | cons branch rest ih =>
    intro index arrays f f' s s' hsame h
    obtain ⟨f₁, array, s₁, arrays', h₁, h₂⟩ := buildBranches_cons_cases h
    refine Persists.trans ?_ (ih (buildBranch_rest h₁ hsame) h₂)
    obtain ⟨t, ht, ⟨hneeds, _, _, _, hoisted, _, _, -, -, -, rfl⟩ | ⟨-, _, -, rfl⟩⟩ :=
      buildBranch_cases h₁
    · refine ⟨rfl, rfl, rfl, rfl, rfl, rfl, rfl, rfl, rfl, rfl, rfl, rfl,
        .set (hsame 0).symm (fun hplain => ?_) hoisted.name⟩
      exact absurd (hneeds.symm.trans (branchNeedsName_of_plain hplain ht)) (by decide)
    · exact ⟨rfl, rfl, rfl, rfl, rfl, rfl, rfl, rfl, .refl _⟩

theorem buildAllOf_persists (h : (f.buildAllOf setting build).Gives s f' s') : Persists f f' := by
  rcases buildAllOf_cases h with ⟨-, rfl, -⟩ | ⟨-, arrays, s₁, hbranches, -⟩
  · exact .refl f'
  · exact buildBranches_persists (fun j => by rw [Nat.zero_add]) hbranches

/--
What is allowed beyond the properties leaves the frame as it is, unless it is taken apart: an object
without a name that declares something and says of what schema its other values are.
-/
theorem buildAdditionalProperties_persists
    (h : (f.buildAdditionalProperties setting build).Gives s f' s') :
    (Persists f f' ∧ (f.model.type.complex = true → f.named = false →
        f.schema.extraValue?.isSome = false)) ∨
      (f.model.type.complex = true ∧ f.named = false ∧ f.schema.extraValue?.isSome = true ∧
        ∃ g, Persists f g ∧ (g.hoistExtended build).Gives s f' s') := by
  have hvalue : ∀ {extra}, f.schema.additionalProperties = some extra →
      f.schema.extraValue? = extra.schema? := by
    intro extra hextra
    rw [Schema.extraValue?, hextra, Option.bind_some]
  -- to note what is known of the values leaves the schema for them as it is
  have hmarked : ∀ {extra : Extra Schema} {declared : Bool},
      f.schema.additionalProperties = some extra →
      ((f.deny extra).markExtra declared).schema.extraValue? = extra.schema? := by
    intro extra declared hextra
    refine Eq.trans (congrArg Schema.extraValue? ?_) (hvalue hextra)
    unfold markExtra
    split <;> rfl
  rcases buildAdditionalProperties_cases h with ⟨hnone, rfl, -⟩ | ⟨extra, hextra, ⟨hoff, rfl, -⟩ |
    ⟨rfl, h⟩ | ⟨value, rfl, ⟨hplain, h⟩ | ⟨hcomplex, hnamed, h⟩ | ⟨-, hnamed, h⟩⟩⟩
  · exact .inl ⟨.refl f', fun _ _ => by rw [Schema.extraValue?, hnone]; rfl⟩
  · refine .inl ⟨⟨rfl, rfl, rfl, rfl, rfl, rfl, rfl, rfl, .refl _⟩, fun _ _ => ?_⟩
    rw [hvalue hextra]
    cases extra with
    | flag => rfl
    | schema => exact absurd hoff (by simp [Extra.isEnabled])
  · obtain ⟨child, -, rfl⟩ := buildAnyValues_cases h
    refine .inl ⟨?_, fun _ _ => by rw [hvalue hextra]; rfl⟩
    exact ((deny_markExtra_persists f _ _).trans (allowAny_persists _ _)).trans
      (setValue_persists _ _)
  · obtain ⟨child, -, rfl⟩ := buildMap_cases h
    refine .inl ⟨?_, fun hcomplex => absurd (hcomplex.symm.trans hplain) (by decide)⟩
    exact ((deny_markExtra_persists f _ _).trans
      (mapExtraValue_persists (hmarked hextra) _)).trans (setValue_persists _ _)
  · exact .inr ⟨hcomplex, hnamed, by rw [hvalue hextra]; rfl, _, deny_markExtra_persists f _ _, h⟩
  · refine .inl ⟨(deny_markExtra_persists f (.schema value) true).trans ?_,
      fun _ hunnamed => absurd (hunnamed.symm.trans hnamed) (by decide)⟩
    obtain ⟨t, -, ⟨-, _, _, _, hoisted, _, child, _, -, -, -, rfl⟩ | ⟨-, child, _, -, rfl⟩⟩ :=
      buildExtraValues_cases h
    · exact (referValue_persists (hmarked hextra) _).trans (setStore_persists _ _)
    · exact setStore_persists _ _

/-- What has a name is never taken apart. -/
theorem buildAdditionalProperties_persists_named (hnamed : f.named = true)
    (h : (f.buildAdditionalProperties setting build).Gives s f' s') : Persists f f' :=
  ((buildAdditionalProperties_persists h).resolve_right fun hapart =>
    absurd (hapart.2.1.symm.trans hnamed) (by decide)).1

theorem buildProperty_persists {position : Nat} {name : String} {c : Schema}
    (h : (f.buildProperty setting build position name c).Gives s f' s') : Persists f f' := by
  obtain ⟨t, -, ⟨-, _, _, _, _, _, _, _, _, -, -, -, -, rfl⟩ | ⟨-, _, _, _, -, -, rfl⟩⟩ :=
    buildProperty_cases h
  · exact ⟨rfl, rfl, rfl, rfl, rfl, rfl, rfl, rfl, .refl _⟩
  · exact ⟨rfl, rfl, rfl, rfl, rfl, rfl, rfl, rfl, .refl _⟩

theorem buildPropertyList_persists {position : Nat} {properties : List (String × Schema)}
    (h : (f.buildPropertyList setting build position properties).Gives s f' s') : Persists f f' :=
  buildPropertyList_run (R := fun f _ f' _ => Persists f f') (fun f _ => .refl f) Persists.trans
    buildProperty_persists h

/-- Properties leave the schema as it is. -/
theorem buildProperty_schema {position : Nat} {name : String} {c : Schema}
    (h : (f.buildProperty setting build position name c).Gives s f' s') : f'.schema = f.schema := by
  obtain ⟨t, -, ⟨-, _, _, _, _, _, _, _, _, -, -, -, -, rfl⟩ | ⟨-, _, _, _, -, -, rfl⟩⟩ :=
    buildProperty_cases h <;> rfl

theorem buildProperties_schema (h : (f.buildProperties setting build).Gives s f' s') :
    f'.schema = f.schema := by
  obtain ⟨f₁, hlist, rfl⟩ := buildProperties_cases h
  have hsame : f₁.schema = f.schema := buildPropertyList_run
    (R := fun f _ f' _ => f'.schema = f.schema) (fun _ _ => rfl) (fun h h' => h'.trans h)
    buildProperty_schema hlist
  exact hsame

theorem buildProperties_persists (h : (f.buildProperties setting build).Gives s f' s') :
    Persists f f' := by
  obtain ⟨f₁, hlist, rfl⟩ := buildProperties_cases h
  exact (buildPropertyList_persists hlist).trans ⟨rfl, rfl, rfl, rfl, rfl, rfl, rfl, rfl, .refl _⟩

theorem buildAdditionalItems_persists (h : (f.buildAdditionalItems setting build).Gives s f' s') :
    Persists f f' := by
  rcases buildAdditionalItems_cases h with ⟨-, rfl, -⟩ | ⟨extra, -, ⟨-, rfl, -⟩ | ⟨-, -, h⟩⟩
  · exact .refl f'
  · exact ⟨rfl, rfl, rfl, rfl, rfl, rfl, rfl, rfl, .refl _⟩
  · have hallow : Persists f (f.allowItems extra) := ⟨rfl, rfl, rfl, rfl, rfl, rfl, rfl, rfl, .refl _⟩
    obtain ⟨t, -, ⟨c, -, -, _, _, _, _, _, _, -, -, -, rfl⟩ | ⟨-, _, -, rfl⟩⟩ :=
      buildExtraItems_cases h
    · exact (hallow.trans (mapExtraItem_persists _ _)).trans
        ⟨rfl, rfl, rfl, rfl, rfl, rfl, rfl, rfl, .refl _⟩
    · exact hallow.trans ⟨rfl, rfl, rfl, rfl, rfl, rfl, rfl, rfl, .refl _⟩

theorem buildPlaces_persists {index : Nat} {places : List Schema}
    (h : (f.buildPlaces setting build index places).Gives s f' s') : Persists f f' :=
  buildPlaces_run (R := fun f _ f' _ => Persists f f') (fun f _ => .refl f) Persists.trans
    (fun _ _ => ⟨rfl, rfl, rfl, rfl, rfl, rfl, rfl, rfl, .refl _⟩) h

/-- **From the type to the items a frame persists.** -/
theorem finish_persists {f₄ : Frame} {s₄ : Session} {t : TypeInfo}
    (hprops : ((f.pointMap.retype t).buildProperties setting build).Gives s f₄ s₄)
    (hadd : (f₄.buildAdditionalItems setting build).Gives s₄ f' s') : Persists f f' :=
  ((pointMap_persists f).trans (retype_persists _ t)).trans
    ((buildProperties_persists hprops).trans (buildAdditionalItems_persists hadd))

end Frame

end KclModels

/-!
## The names of models in the document

A model bears the name of the place that it was built for, and no step of building changes that: the
model is filled in first, and where a frame is built again the place is the same. The file of a
definition goes by this name.
-/

namespace KclModels.Frame

open Build

variable {tr : Text.Transliteration}
variable {setting : Setting} {build : Frame → Build Frame} {s s' : Session} {f f' g : Frame}

/-- The model bears the name of the place. -/
def Entitled (f : Frame) : Prop := f.model.documentName = f.name

/-- The way to build frames entitles their models. -/
def BuildsEntitled (build : Frame → Build Frame) : Prop :=
  ∀ g s g' s', (build g).Gives s g' s' → g'.name = g.name ∧ g'.Entitled

/-- What persists of a frame has its name, and its model still bears it. -/
theorem Persists.entitled (h : Persists f f') (hf : f.name = g.name ∧ f.Entitled) :
    f'.name = g.name ∧ f'.Entitled :=
  ⟨h.name.trans hf.1, h.documentName.trans (hf.2.trans h.name.symm)⟩

section Steps

variable (hb : BuildsEntitled build)

include hb

theorem buildAdditionalProperties_entitled (hf : f.name = g.name ∧ f.Entitled)
    (h : (f.buildAdditionalProperties setting build).Gives s f' s') :
    f'.name = g.name ∧ f'.Entitled := by
  rcases buildAdditionalProperties_persists h with ⟨hkept, -⟩ | ⟨-, -, -, k, hk, hapart⟩
  · exact hkept.entitled hf
  · obtain ⟨_, _, _, hoisted, _, inner, -, -, hi, rfl⟩ := hoistExtended_cases hapart
    obtain ⟨hname, hentitled⟩ := hb _ _ _ _ hi
    refine (addExtra_persists inner hoisted).entitled ⟨hname.trans ?_, hentitled⟩
    exact hk.name.trans hf.1

theorem buildItems_entitled (hf : f.name = g.name ∧ f.Entitled)
    (h : (f.buildItems setting build).Gives s f' s') : f'.name = g.name ∧ f'.Entitled := by
  rcases buildItems_cases h with ⟨-, rfl, -⟩ | ⟨item, -, h⟩ | ⟨places, -, ⟨-, h⟩ | ⟨-, h⟩⟩
  · exact hf
  · obtain ⟨t, -, ⟨-, _, _, _, hoisted, _, inner, -, -, hi, rfl⟩ | ⟨-, element, -, rfl⟩⟩ :=
      buildArray_cases h
    · -- the array is built once more, in its own place
      obtain ⟨hname, hentitled⟩ := hb _ _ _ _ hi
      exact (addExtra_persists inner hoisted).entitled ⟨hname.trans hf.1, hentitled⟩
    · exact (setElement_persists f element item _).entitled hf
  · have hmark : Persists f (f.markTuple (resolverAt setting f s).modelTypeName) :=
      ⟨rfl, rfl, rfl, rfl, rfl, rfl, rfl, rfl, .refl _⟩
    exact (hmark.trans (buildPlaces_persists h)).entitled hf
  · obtain ⟨_, _, _, hoisted, _, inner, -, -, hi, rfl⟩ := hoistTuple_cases h
    obtain ⟨hname, hentitled⟩ := hb _ _ _ _ hi
    exact (addExtra_persists inner hoisted.asTuple).entitled ⟨hname.trans hf.1, hentitled⟩

/-- A step of building entitles its model, if building the frames below does. -/
theorem buildStep_entitled (h : (f.buildStep setting build).Gives s f' s') :
    f'.name = f.name ∧ f'.Entitled := by
  obtain ⟨k, s₀, -, ⟨-, -, href⟩ | ⟨-, f₁, f₂, s₂, t, f₃, s₃, t', f₄, s₄, f₅, s₅, required, hlift,
    hall, -, hextra, -, hprops, hadd, hitems⟩⟩ := buildStep_cases h
  · rcases buildReference_cases href with ⟨shape, target, g, -, hg, rfl⟩ | ⟨g, -, rfl⟩
    · -- an alias takes the model over, which was built in its own place
      obtain ⟨hname, hentitled⟩ := hb _ _ _ _ hg
      exact ⟨rfl, hentitled.trans hname⟩
    · exact ⟨rfl, rfl⟩
  · have hstart : f₁.name = f.name ∧ f₁.Entitled := by
      obtain ⟨-, ⟨rfl, -⟩ | ⟨branch, -, rfl⟩⟩ := liftBranch_cases hlift
      · exact ⟨rfl, rfl⟩
      · exact ⟨rfl, rfl⟩
    have hbranches := (fillContainer_persists f₁).trans (buildAllOf_persists hall)
    have hvalues := buildAdditionalProperties_entitled hb
      ((hbranches.trans (setType_persists f₂ t t.baseType)).entitled hstart) hextra
    exact buildItems_entitled hb ((finish_persists hprops hadd).entitled hvalues) hitems

end Steps

/-- **A model that is built bears the name of its place.** -/
theorem build_entitled (h : (f.build setting).Gives s f' s') : f'.name = f.name ∧ f'.Entitled :=
  buildIn_induction setting (R := fun f _ f' _ => f'.name = f.name ∧ f'.Entitled)
    (fun _ hb _ _ _ _ h => buildStep_entitled hb h) f s f' s' h

end KclModels.Frame

namespace KclModels

open Build

variable {tr : Text.Transliteration}
variable {setting : Setting} {s s' : Session} {f f' : Frame} {name : String}

/-- **The model of a file bears the name of its definition.** -/
theorem fileFrame_entitled (h : (fileFrame setting name).Gives s f s') :
    f.model.documentName = name := by
  obtain ⟨c, built, s₁, s₂, m, -, hb, hexpand, hinline⟩ := fileFrame_cases h
  obtain ⟨hname, hentitled⟩ := Frame.build_entitled hb
  have hbase : (asBase setting name built).model.documentName = name := by
    refine Eq.trans ?_ (hentitled.trans hname)
    unfold asBase
    split <;> rfl
  obtain ⟨-, -, hfacts, -⟩ := inlined_facts hinline
  rw [congrArg ModelFacts.documentName hfacts]
  rcases hexpand with ⟨-, rfl, -⟩ | ⟨subtype, -, he⟩
  · exact hbase
  · obtain ⟨allOf, names, -, rfl⟩ := expandSubtype_cases he
    exact hbase

end KclModels
