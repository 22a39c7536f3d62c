import KclModels.Model.Constraints
import KclModels.Proofs.Registry.Grounded
import KclModels.Proofs.Schema.References

/-!
# Schemas under other names

Definitions under other names have schemas that refer to the new names and are the same in all else.
What a schema says beside its references does not change, and its parts are renamed as it is.
-/

namespace KclModels

/-- The reference to a definition under its new name; what names no definition stays. -/
def Reference.rename (w : String → String) (reference : String) : String :=
  match name? reference with
  | some n => toDefinition (w n)
  | none => reference

namespace Reference

variable {w w' : String → String} {reference n : String}

theorem rename_of_name? (h : name? reference = some n) :
    rename w reference = toDefinition (w n) := by
  rw [rename, h]

theorem rename_of_none (h : name? reference = none) : rename w reference = reference := by
  rw [rename, h]

theorem rename_congr (h : ∀ n, name? reference = some n → w n = w' n) :
    rename w reference = rename w' reference := by
  unfold rename
  split
  · rename_i n hn
    rw [h n hn]
  · rfl

theorem rename_id (reference : String) : rename id reference = reference := by
  unfold rename
  split
  · rename_i n hn
    exact (eq_toDefinition hn).symm
  · rfl

end Reference

namespace Schema

/-- The schema with references to the new names. -/
def rename (w : String → String) (c : Schema) : Schema := c.mapReferences (Reference.rename w)

variable {w w' : String → String} {c : Schema}

theorem rename_eq (w : String → String) (c : Schema) : c.rename w =
    ⟨{ c.toKeywords with reference := c.reference.map (Reference.rename w) },
      c.properties.map fun e => (e.1, e.2.rename w), c.allOf.map (rename w),
      mapItemReferences (Reference.rename w) c.items,
      mapExtraReferences (Reference.rename w) c.additionalProperties,
      mapExtraReferences (Reference.rename w) c.additionalItems⟩ := by
  obtain ⟨keywords, properties, allOf, items, value, extraItems⟩ := c
  rw [rename, mapReferences, mapPropertyReferences_eq, mapListReferences_eq]
  rfl

/-! ## What stays -/

theorem keywords_rename (w : String → String) (c : Schema) : (c.rename w).toKeywords =
    { c.toKeywords with reference := c.reference.map (Reference.rename w) } := by
  rw [rename_eq]

@[simp]
theorem reference_rename : (c.rename w).reference = c.reference.map (Reference.rename w) := by
  rw [keywords_rename]

@[simp]
theorem types_rename : (c.rename w).types = c.types := by rw [keywords_rename]

@[simp]
theorem format_rename : (c.rename w).format = c.format := by rw [keywords_rename]

@[simp]
theorem discriminator_rename : (c.rename w).discriminator = c.discriminator := by
  rw [keywords_rename]

@[simp]
theorem hints_rename : (c.rename w).hints = c.hints := by rw [keywords_rename]

@[simp]
theorem ofSchema_rename : Constraints.ofSchema (c.rename w) = Constraints.ofSchema c := by
  unfold Constraints.ofSchema
  rw [keywords_rename]

@[simp]
theorem isConstrained_rename : (c.rename w).isConstrained = c.isConstrained := by
  rw [isConstrained, isConstrained, ofSchema_rename]

@[simp]
theorem hasType_rename (type : String) : (c.rename w).hasType type = c.hasType type := by
  rw [hasType, hasType, types_rename]

@[simp]
theorem isObject_rename : (c.rename w).isObject = c.isObject := by
  rw [isObject, isObject, reference_rename, types_rename, hasType_rename, Option.isNone_map]

/-! ## The parts -/

@[simp]
theorem properties_rename :
    (c.rename w).properties = c.properties.map fun e => (e.1, e.2.rename w) := by
  rw [rename_eq]

@[simp]
theorem allOf_rename : (c.rename w).allOf = c.allOf.map (rename w) := by rw [rename_eq]

@[simp]
theorem items_rename :
    (c.rename w).items = mapItemReferences (Reference.rename w) c.items := by
  rw [rename_eq]

@[simp]
theorem additionalProperties_rename : (c.rename w).additionalProperties =
    mapExtraReferences (Reference.rename w) c.additionalProperties := by
  rw [rename_eq]

@[simp]
theorem additionalItems_rename : (c.rename w).additionalItems =
    mapExtraReferences (Reference.rename w) c.additionalItems := by
  rw [rename_eq]

theorem tuple_rename (w : String → String) (places : List Schema) :
    mapItemReferences (Reference.rename w) (some (.tuple places)) =
      some (.tuple (places.map (rename w))) := by
  rw [mapItemReferences, mapListReferences_eq]
  rfl

theorem any_mapExtraReferences {g : String → String} (e : Option (Extra Schema)) :
    (mapExtraReferences g e).any Extra.isEnabled = e.any Extra.isEnabled := by
  cases e with
  | none => rfl
  | some e => cases e <;> rfl

@[simp]
theorem hasAdditionalProperties_rename :
    (c.rename w).hasAdditionalProperties = c.hasAdditionalProperties := by
  rw [hasAdditionalProperties, additionalProperties_rename, any_mapExtraReferences]
  rfl

@[simp]
theorem isNone_mapExtraReferences {g : String → String} (e : Option (Extra Schema)) :
    (mapExtraReferences g e).isNone = e.isNone := by
  cases e with
  | none => rfl
  | some e => cases e <;> rfl

@[simp]
theorem singleItem?_rename : (c.rename w).singleItem? = c.singleItem?.map (rename w) := by
  rw [singleItem?, singleItem?, items_rename]
  cases c.items with
  | none => rfl
  | some items => cases items <;> rfl

@[simp]
theorem tupleItems?_rename : (c.rename w).tupleItems? = c.tupleItems?.map (List.map (rename w)) := by
  rw [tupleItems?, tupleItems?, items_rename]
  cases c.items with
  | none => rfl
  | some items =>
    cases items with
    | single _ => rfl
    | tuple places =>
      rw [tuple_rename]
      rfl

@[simp]
theorem extraValue?_rename : (c.rename w).extraValue? = c.extraValue?.map (rename w) :=
  (congrArg (Option.bind · Extra.schema?) additionalProperties_rename).trans
    (mapExtraReferences_schema _)

/-- **A schema under other names is as large as it was.** -/
@[simp]
theorem size_rename : (c.rename w).size = c.size := by
  induction c using children_induction with
  | step c ih =>
    rw [size_eq, size_eq c, rename, children_mapReferences]
    have hlist : ∀ l : List Schema, (∀ d ∈ l, (d.rename w).size = d.size) →
        listSize (l.map (mapReferences (Reference.rename w))) = listSize l := by
      intro l hl
      induction l with
      | nil => rfl
      | cons d rest ih =>
        rw [List.map_cons, listSize, listSize, ih fun e he => hl e (List.mem_cons_of_mem _ he)]
        exact congrArg (· + _) (hl d List.mem_cons_self)
    rw [hlist c.children ih]

theorem rename_referenceTo {n : String}
    (h : Reference.name? (Reference.toDefinition n) = some n) :
    (referenceTo n).rename w = referenceTo (w n) := by
  rw [rename_eq, referenceTo, Option.map_some, Reference.rename_of_name? h]
  rfl

@[simp]
theorem rename_id (c : Schema) : c.rename id = c := by
  rw [rename, funext Reference.rename_id]
  exact mapReferences_id c

/-- New names for what the schema refers to are all that counts. -/
theorem rename_congr (h : ∀ r ∈ c.mentions, ∀ n, Reference.name? r = some n → w n = w' n) :
    c.rename w = c.rename w' :=
  mapReferences_congr c fun r hr => Reference.rename_congr (h r hr)

end Schema

end KclModels
