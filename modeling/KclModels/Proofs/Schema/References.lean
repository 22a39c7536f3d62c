import Mathlib.Data.List.Basic
import KclModels.Proofs.Schema.Size

/-!
# The references in a schema

The references in a schema in the order in which they are visited, with repetitions, and the schema
with other references in their place. There are no more references in a schema than schemas, and
what becomes of a schema depends on nothing but what becomes of the references in it.
-/

namespace KclModels

namespace Schema

mutual

/-- The references of a schema and of all schemas in it. -/
def mentions : Schema → List String
  | ⟨keywords, properties, allOf, items, value, extraItems⟩ =>
    keywords.reference.toList ++ propertyMentions properties ++ listMentions allOf ++
      itemMentions items ++ extraMentions value ++ extraMentions extraItems

def propertyMentions : List (String × Schema) → List String
  | [] => []
  | (_, s) :: rest => mentions s ++ propertyMentions rest

def listMentions : List Schema → List String
  | [] => []
  | s :: rest => mentions s ++ listMentions rest

def itemMentions : Option (Items Schema) → List String
  | none => []
  | some (.single s) => mentions s
  | some (.tuple schemas) => listMentions schemas

def extraMentions : Option (Extra Schema) → List String
  | some (.schema s) => mentions s
  | _ => []

end

mutual

/-- The schema with `g r` in place of each reference `r`, at any depth. -/
def mapReferences (g : String → String) : Schema → Schema
  | ⟨keywords, properties, allOf, items, value, extraItems⟩ =>
    ⟨{ keywords with reference := keywords.reference.map g }, mapPropertyReferences g properties,
      mapListReferences g allOf, mapItemReferences g items, mapExtraReferences g value,
      mapExtraReferences g extraItems⟩

def mapPropertyReferences (g : String → String) : List (String × Schema) → List (String × Schema)
  | [] => []
  | (n, s) :: rest => (n, mapReferences g s) :: mapPropertyReferences g rest

def mapListReferences (g : String → String) : List Schema → List Schema
  | [] => []
  | s :: rest => mapReferences g s :: mapListReferences g rest

def mapItemReferences (g : String → String) : Option (Items Schema) → Option (Items Schema)
  | none => none
  | some (.single s) => some (.single (mapReferences g s))
  | some (.tuple schemas) => some (.tuple (mapListReferences g schemas))

def mapExtraReferences (g : String → String) : Option (Extra Schema) → Option (Extra Schema)
  | some (.schema s) => some (.schema (mapReferences g s))
  | extra => extra

end

variable {s t : Schema} {r : String} {g g' : String → String}

/-! ## The list of references -/

theorem propertyMentions_eq (properties : List (String × Schema)) :
    propertyMentions properties = properties.flatMap fun e => e.2.mentions := by
  induction properties with
  | nil => rfl
  | cons e rest ih => rw [propertyMentions, ih, List.flatMap_cons]

theorem listMentions_eq (l : List Schema) : listMentions l = l.flatMap mentions := by
  induction l with
  | nil => rfl
  | cons s rest ih => rw [listMentions, ih, List.flatMap_cons]

theorem extraMentions_eq (e : Option (Extra Schema)) :
    extraMentions e = (e.bind Extra.schema?).toList.flatMap mentions := by
  match e with
  | none => rfl
  | some (.flag _) => rfl
  | some (.schema s) => exact (List.append_nil _).symm

theorem itemMentions_eq (s : Schema) :
    itemMentions s.items = s.itemSchemas.flatMap mentions := by
  unfold itemSchemas
  match s.items with
  | none => rfl
  | some (.single item) => exact (List.append_nil _).symm
  | some (.tuple schemas) => exact listMentions_eq schemas

/-- The references in a schema are its own and those in its children. -/
theorem mentions_eq (s : Schema) :
    s.mentions = s.reference.toList ++ s.children.flatMap mentions := by
  obtain ⟨keywords, properties, allOf, items, value, extraItems⟩ := s
  rw [mentions, propertyMentions_eq, listMentions_eq, extraMentions_eq,
    extraMentions_eq, itemMentions_eq ⟨keywords, properties, allOf, items, value, extraItems⟩]
  simp only [children, List.flatMap_append, List.flatMap_map, List.append_assoc]

theorem mem_mentions_of_reference (h : s.reference = some r) : r ∈ s.mentions := by
  rw [mentions_eq, h]
  exact List.mem_append_left _ List.mem_cons_self

theorem mem_mentions_of_child {c : Schema} (hc : c ∈ s.children) (h : r ∈ c.mentions) :
    r ∈ s.mentions := by
  rw [mentions_eq]
  exact List.mem_append_right _ (List.mem_flatMap.mpr ⟨c, hc, h⟩)

/-- **A reference is in a schema if it is one of a schema that stands somewhere in it.** -/
theorem mem_mentions : r ∈ s.mentions ↔ ∃ t : Schema, t.Within s ∧ t.reference = some r := by
  constructor
  · induction s using children_induction with
    | step s ih =>
      intro h
      rw [mentions_eq] at h
      rcases List.mem_append.mp h with h | h
      · exact ⟨s, .refl s, Option.mem_toList.mp h⟩
      · obtain ⟨c, hc, h⟩ := List.mem_flatMap.mp h
        obtain ⟨t, ht, href⟩ := ih c hc h
        exact ⟨t, .child hc ht, href⟩
  · rintro ⟨t, ht, href⟩
    induction ht with
    | refl => exact mem_mentions_of_reference href
    | child hc _ ih => exact mem_mentions_of_child hc ih

theorem mem_mentions_of_within (h : t.Within s) (hr : r ∈ t.mentions) : r ∈ s.mentions := by
  induction h with
  | refl => exact hr
  | child hc _ ih => exact mem_mentions_of_child hc ih

/-- There are no more references than schemas. -/
theorem length_mentions_le (s : Schema) : s.mentions.length ≤ s.size := by
  induction s using children_induction with
  | step s ih =>
    have hlist : ∀ l : List Schema, (∀ c ∈ l, c.mentions.length ≤ c.size) →
        (l.flatMap mentions).length ≤ listSize l := by
      intro l hl
      induction l with
      | nil => exact Nat.le_refl _
      | cons c rest ih =>
        have hc := hl c List.mem_cons_self
        have hrest := ih fun d hd => hl d (List.mem_cons_of_mem _ hd)
        rw [List.flatMap_cons, List.length_append, listSize]
        omega
    have hown : s.reference.toList.length ≤ 1 := by cases s.reference <;> simp
    have hchildren := hlist s.children ih
    rw [mentions_eq, List.length_append, size_eq]
    omega

/-! ## Other references in their place -/

theorem mapPropertyReferences_eq (properties : List (String × Schema)) :
    mapPropertyReferences g properties = properties.map fun e => (e.1, e.2.mapReferences g) := by
  induction properties with
  | nil => rfl
  | cons e rest ih => rw [mapPropertyReferences, ih, List.map_cons]

theorem keys_mapPropertyReferences (properties : List (String × Schema)) :
    Assoc.keys (mapPropertyReferences g properties) = Assoc.keys properties := by
  rw [mapPropertyReferences_eq, Assoc.keys, Assoc.keys, List.map_map]
  rfl

theorem lookup_mapPropertyReferences (properties : List (String × Schema)) (n : String) :
    (mapPropertyReferences g properties).lookup n =
      (properties.lookup n).map (mapReferences g) := by
  induction properties with
  | nil => rfl
  | cons e rest ih =>
    rw [mapPropertyReferences, Assoc.lookup_pair, Assoc.lookup_pair, ih]
    split <;> rfl

theorem mapListReferences_eq (l : List Schema) :
    mapListReferences g l = l.map (mapReferences g) := by
  induction l with
  | nil => rfl
  | cons s rest ih => rw [mapListReferences, ih, List.map_cons]

theorem mapExtraReferences_schema (e : Option (Extra Schema)) :
    (mapExtraReferences g e).bind Extra.schema? =
      (e.bind Extra.schema?).map (mapReferences g) := by
  match e with
  | none => rfl
  | some (.flag _) => rfl
  | some (.schema _) => rfl

theorem reference_mapReferences (s : Schema) :
    (s.mapReferences g).reference = s.reference.map g := by
  obtain ⟨keywords, properties, allOf, items, value, extraItems⟩ := s
  rw [mapReferences]

theorem itemSchemas_mapReferences (s : Schema) :
    (s.mapReferences g).itemSchemas = s.itemSchemas.map (mapReferences g) := by
  obtain ⟨keywords, properties, allOf, items, value, extraItems⟩ := s
  rw [mapReferences]
  unfold itemSchemas
  match items with
  | none => rfl
  | some (.single _) => rfl
  | some (.tuple schemas) => exact mapListReferences_eq schemas

theorem children_mapReferences (s : Schema) :
    (s.mapReferences g).children = s.children.map (mapReferences g) := by
  have hitems := itemSchemas_mapReferences (g := g) s
  obtain ⟨keywords, properties, allOf, items, value, extraItems⟩ := s
  unfold children
  rw [hitems, mapReferences]
  simp only [List.map_append, List.map_map, mapPropertyReferences_eq, mapListReferences_eq,
    mapExtraReferences_schema, Option.toList_map]
  rfl

/-- The references of the changed schema are the changed references. -/
theorem mentions_mapReferences (s : Schema) :
    (s.mapReferences g).mentions = s.mentions.map g := by
  induction s using children_induction with
  | step s ih =>
    rw [mentions_eq, mentions_eq s, reference_mapReferences, children_mapReferences,
      List.map_append, Option.toList_map, List.flatMap_map, List.map_flatMap]
    exact congrArg _ (List.flatMap_congr ih)

theorem propertyMentions_mapPropertyReferences (properties : List (String × Schema)) :
    propertyMentions (mapPropertyReferences g properties) = (propertyMentions properties).map g := by
  rw [propertyMentions_eq, propertyMentions_eq, mapPropertyReferences_eq, List.flatMap_map,
    List.map_flatMap]
  exact List.flatMap_congr fun e _ => mentions_mapReferences e.2

mutual

/-- **What becomes of the references is all that counts.** -/
theorem mapReferences_congr : ∀ s : Schema, (∀ r ∈ s.mentions, g r = g' r) →
    s.mapReferences g = s.mapReferences g'
  | ⟨keywords, properties, allOf, items, value, extraItems⟩, h => by
    simp only [mentions, List.mem_append] at h
    rw [mapReferences, mapReferences,
      mapPropertyReferences_congr properties fun r hr => h r (by simp [hr]),
      mapListReferences_congr allOf fun r hr => h r (by simp [hr]),
      mapItemReferences_congr items fun r hr => h r (by simp [hr]),
      mapExtraReferences_congr value fun r hr => h r (by simp [hr]),
      mapExtraReferences_congr extraItems fun r hr => h r (by simp [hr])]
    have href : keywords.reference.map g = keywords.reference.map g' :=
      Option.map_congr fun r hr => h r (by rw [hr]; simp)
    rw [href]

theorem mapPropertyReferences_congr : ∀ properties : List (String × Schema),
    (∀ r ∈ propertyMentions properties, g r = g' r) →
    mapPropertyReferences g properties = mapPropertyReferences g' properties
  | [], _ => rfl
  | (n, s) :: rest, h => by
    simp only [propertyMentions, List.mem_append] at h
    rw [mapPropertyReferences, mapPropertyReferences, mapReferences_congr s fun r hr => h r (.inl hr),
      mapPropertyReferences_congr rest fun r hr => h r (.inr hr)]

theorem mapListReferences_congr : ∀ l : List Schema, (∀ r ∈ listMentions l, g r = g' r) →
    mapListReferences g l = mapListReferences g' l
  | [], _ => rfl
  | s :: rest, h => by
    simp only [listMentions, List.mem_append] at h
    rw [mapListReferences, mapListReferences, mapReferences_congr s fun r hr => h r (.inl hr),
      mapListReferences_congr rest fun r hr => h r (.inr hr)]

theorem mapItemReferences_congr : ∀ items : Option (Items Schema),
    (∀ r ∈ itemMentions items, g r = g' r) → mapItemReferences g items = mapItemReferences g' items
  | none, _ => rfl
  | some (.single s), h => by
    rw [mapItemReferences, mapItemReferences, mapReferences_congr s h]
  | some (.tuple schemas), h => by
    rw [mapItemReferences, mapItemReferences, mapListReferences_congr schemas h]

theorem mapExtraReferences_congr : ∀ extra : Option (Extra Schema),
    (∀ r ∈ extraMentions extra, g r = g' r) →
    mapExtraReferences g extra = mapExtraReferences g' extra
  | none, _ => rfl
  | some (.flag _), _ => rfl
  | some (.schema s), h => by
    rw [mapExtraReferences, mapExtraReferences, mapReferences_congr s h]

end

mutual

theorem mapReferences_id : ∀ s : Schema, s.mapReferences id = s
  | ⟨keywords, properties, allOf, items, value, extraItems⟩ => by
    rw [mapReferences, Option.map_id, id, mapPropertyReferences_id properties,
      mapListReferences_id allOf, mapItemReferences_id items, mapExtraReferences_id value,
      mapExtraReferences_id extraItems]

theorem mapPropertyReferences_id : ∀ properties : List (String × Schema),
    mapPropertyReferences id properties = properties
  | [] => rfl
  | (n, s) :: rest => by
    rw [mapPropertyReferences, mapReferences_id s, mapPropertyReferences_id rest]

theorem mapListReferences_id : ∀ l : List Schema, mapListReferences id l = l
  | [] => rfl
  | s :: rest => by rw [mapListReferences, mapReferences_id s, mapListReferences_id rest]

theorem mapItemReferences_id : ∀ items : Option (Items Schema), mapItemReferences id items = items
  | none => rfl
  | some (.single s) => by rw [mapItemReferences, mapReferences_id s]
  | some (.tuple schemas) => by rw [mapItemReferences, mapListReferences_id schemas]

theorem mapExtraReferences_id : ∀ extra : Option (Extra Schema), mapExtraReferences id extra = extra
  | none => rfl
  | some (.flag _) => rfl
  | some (.schema s) => by rw [mapExtraReferences, mapReferences_id s]

end

end Schema

/-- The references in definitions. -/
def Definitions.mentions (definitions : Definitions) : List String :=
  Schema.propertyMentions definitions

namespace Definitions

variable {definitions : Definitions} {n r : String} {s : Schema}

theorem mentions_eq (definitions : Definitions) :
    definitions.mentions = definitions.flatMap fun e => e.2.mentions :=
  Schema.propertyMentions_eq definitions

theorem mem_mentions_of_lookup (h : definitions.lookup n = some s) (hr : r ∈ s.mentions) :
    r ∈ definitions.mentions := by
  rw [mentions_eq]
  exact List.mem_flatMap.mpr ⟨(n, s), Assoc.mem_of_lookup h, hr⟩

theorem length_mentions_le (definitions : Definitions) :
    definitions.mentions.length ≤ Schema.propertiesSize definitions := by
  unfold mentions
  induction definitions with
  | nil => exact Nat.le_refl _
  | cons e rest ih =>
    have hs := e.2.length_mentions_le
    rw [Schema.propertyMentions, Schema.propertiesSize, List.length_append]
    omega

end Definitions

end KclModels
