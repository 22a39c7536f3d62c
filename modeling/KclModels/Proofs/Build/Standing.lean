import KclModels.Proofs.Build.Metadata
import KclModels.Proofs.Build.Referring
import KclModels.Proofs.Resolve.Categories

/-!
# What the model of a definition is

The flags of a model are set by several steps: the type is looked up, values beyond the properties
make an object a map or not, items make anything an array or a tuple. This module follows them
through the steps for a place with a name. What the model comes to is said by the keywords of the
schema that it is built of, which is the schema of the definition or the branch that was put in its
place.
-/

namespace KclModels

variable {tr : Text.Transliteration}

/-- The type as that of a map, or not. -/
def TypeInfo.asMap (t : TypeInfo) (map : Bool) : TypeInfo := { t with map }

theorem TypeInfo.asMap_self (t : TypeInfo) : t.asMap t.map = t := by
  cases t
  rfl

/-- What a model is, apart from what it says and from what its parts are. -/
@[ext]
structure Standing where
  type : TypeInfo
  isBase : Bool
  isSubtype : Bool
  /-- Whether the model has additional properties beside declared ones. -/
  extended : Bool
  /-- The count of its branches. -/
  branches : Nat
  /-- The count of its properties. -/
  properties : Nat

/-- What the model is. -/
def Model.standing (m : Model) : Standing where
  type := m.type
  isBase := m.isBase
  isSubtype := m.isSubtype
  extended := m.isAdditionalProperties
  branches := m.allOf.length
  properties := m.properties.length

namespace Schema

variable {c c' d d' : Schema}

/-- Whether any values are allowed beyond the properties, of which nothing is said. -/
def allowsAny (c : Schema) : Bool := c.hasAdditionalProperties && c.extraValue?.isNone

/-- The later schema is the earlier one with other schemas for branches and values. -/
structure Redone (c c' : Schema) : Prop extends Revises c c' where
  enabled : c'.hasAdditionalProperties = c.hasAdditionalProperties

theorem Redone.trans {c'' : Schema} (h : c.Redone c') (h' : c'.Redone c'') : c.Redone c'' :=
  ⟨h.toRevises.trans h'.toRevises, h'.enabled.trans h.enabled⟩

theorem Redone.nameless (h : c.Redone c') (hc : c.Nameless) : c'.Nameless where
  reference := h.reference.trans hc.reference
  properties := h.properties.trans hc.properties
  allOf := by rw [← List.length_eq_zero_iff, h.length, hc.allOf, List.length_nil]
  places := by
    have hplaces := hc.places
    rw [tupleItems?] at hplaces ⊢
    rwa [h.items]
  object := by
    have hobject : c'.saysObject = c.saysObject := saysObject_congr h.keywords
    rw [hobject, h.items, h.value]
    exact hc.object

theorem saysArray_congr (h : c.toKeywords = d.toKeywords) : c.saysArray = d.saysArray := by
  obtain ⟨keywords⟩ := c
  obtain ⟨keywords'⟩ := d
  obtain rfl : keywords = keywords' := h
  rfl

theorem Revises.saysObject (h : c.Revises c') : c'.saysObject = c.saysObject :=
  saysObject_congr h.keywords

theorem Revises.saysArray (h : c.Revises c') : c'.saysArray = c.saysArray :=
  saysArray_congr h.keywords

theorem Revises.isScalar (h : c.Revises c') : c'.isScalar = c.isScalar := by
  rw [isScalar_eq, isScalar_eq, h.saysObject, h.saysArray]

theorem Revises.saysMap (h : c.Revises c') : c'.saysMap = c.saysMap := by
  rw [Schema.saysMap, Schema.saysMap, h.saysObject, h.isRecord, h.value]

/-- The type of a revised schema is still one of the schema. -/
theorem Revises.typedBy {defs : Definitions} {t : TypeInfo} (h : c.Revises c')
    (hd : defs.Ends c d) (hd' : defs.Ends c' d') (ht : Resolver.TypedBy c' d' t) :
    Resolver.TypedBy c d t := by
  have htuple : c'.tupleItems? = c.tupleItems? := by rw [tupleItems?, tupleItems?, h.items]
  have hdiscriminator : c'.discriminator = c.discriminator :=
    congrArg Keywords.discriminator h.keywords
  cases hd with
  | here hnone =>
    obtain rfl := hd'.of_inline (h.reference.trans hnone)
    obtain ⟨h₁, h₂, h₃, h₄, h₅, h₆⟩ := ht
    rw [h.saysArray, htuple] at h₁ h₂
    rw [h.reference, h.saysMap] at h₃
    rw [h.isScalar] at h₄
    rw [h.reference, h.isRecord] at h₅
    rw [h.saysObject, hdiscriminator] at h₆
    exact ⟨h₁, h₂, h₃, h₄, h₅, h₆⟩
  | next href hname hget htail =>
    obtain rfl := hd'.unique (.next (h.reference.trans href) hname hget htail)
    exact ⟨ht.tuple, ht.array, by rw [← h.reference]; exact ht.map, ht.primitive,
      by rw [← h.reference]; exact ht.complex, ht.discriminated⟩

theorem Revises.exists_ends {defs : Definitions} (h : c.Revises c') (hd : defs.Ends c d) :
    ∃ d', defs.Ends c' d' :=
  (hd.similar h.reference h.isRecord).imp fun _ hd' => hd'.1

/--
The kind of the model of a definition that is built of the schema `c`, which ends at `d`: what has
items is a tuple or an array whatever its type, and what is allowed beyond the properties makes a map
of anything but an object that declares something.
-/
def builtCategory (c d : Schema) : Category :=
  if c.tupleItems?.isSome then .tuple
  else if c.singleItem?.isSome then .array
  else if d.saysArray then if d.tupleItems?.isSome then .tuple else .array
  else if c.reference.isNone && (d.saysMap || (c.allowsAny && !d.isRecord)) then .map
  else if d.isScalar then .primitive
  else .object

end Schema

namespace Frame

open Build

variable {setting : Setting} {build : Frame → Build Frame} {s s' : Session} {f f' : Frame}

/-! ## What the steps change -/

theorem pointMap_standing (f : Frame) : f.pointMap.model.standing = f.model.standing := by
  unfold pointMap
  split <;> rfl

/-- Branches are added, and of the schema nothing changes but other branches. -/
theorem buildBranches_standing {branches : List Schema} : ∀ {index : Nat} {arrays : List Bool}
    {f f' : Frame} {s s' : Session},
    (f.buildBranches setting build index branches).Gives s (f', arrays) s' →
    f'.model.standing =
        { f.model.standing with branches := f.model.allOf.length + branches.length } ∧
      f'.schema.additionalProperties = f.schema.additionalProperties := by
  induction branches with
  | nil =>
    intro index arrays f f' s s' h
    rw [buildBranches, gives_pure, Prod.mk.injEq] at h
    exact h.1.1 ▸ ⟨rfl, rfl⟩
  | cons branch rest ih =>
    intro index arrays f f' s s' h
    obtain ⟨f₁, array, s₁, arrays', h₁, h₂⟩ := buildBranches_cons_cases h
    -- one branch is one model more, hoisted or not
    have hone : f₁.model.standing = { f.model.standing with branches := f.model.allOf.length + 1 } ∧
        f₁.schema.additionalProperties = f.schema.additionalProperties := by
      obtain ⟨t, -, ⟨-, _, _, _, hoisted, _, composed, -, -, -, rfl⟩ | ⟨-, composed, -, rfl⟩⟩ :=
        buildBranch_cases h₁
      · exact ⟨congrArg (fun n => { f.model.standing with branches := n }) List.length_append, rfl⟩
      · exact ⟨congrArg (fun n => { f.model.standing with branches := n }) List.length_append, rfl⟩
    obtain ⟨hstanding, hextra⟩ := ih h₂
    refine ⟨?_, hextra.trans hone.2⟩
    have hlength : f₁.model.allOf.length = f.model.allOf.length + 1 :=
      congrArg Standing.branches hone.1
    rw [hstanding, hone.1, hlength, List.length_cons, Nat.add_assoc, Nat.add_comm 1]

theorem buildAllOf_standing (h : (f.buildAllOf setting build).Gives s f' s') :
    f'.model.standing =
        { f.model.standing with branches := f.model.allOf.length + f.schema.allOf.length } ∧
      f.schema.Redone f'.schema := by
  refine ⟨?_, (buildAllOf_persists h).schema, ?_⟩
  · rcases buildAllOf_cases h with ⟨hnone, rfl, -⟩ | ⟨-, arrays, t, hbranches, -⟩
    · rw [hnone]
      rfl
    · exact (buildBranches_standing hbranches).1
  · rcases buildAllOf_cases h with ⟨-, rfl, -⟩ | ⟨-, arrays, t, hbranches, -⟩
    · rfl
    · rw [Schema.hasAdditionalProperties, (buildBranches_standing hbranches).2]
      rfl

/-- What a model becomes when values are allowed beyond the properties. -/
def extendBy (c : Schema) (m : Standing) : Standing :=
  if !c.hasAdditionalProperties then m
  else if m.type.complex then { m with extended := true, type := m.type.asMap false }
  else { m with type := m.type.asMap (m.type.map || c.extraValue?.isNone) }

theorem extendBy_of_complex {c : Schema} {m : Standing} (hon : c.hasAdditionalProperties = true)
    (hcomplex : m.type.complex = true) :
    extendBy c m = { m with extended := true, type := m.type.asMap false } := by
  rw [extendBy, hon, hcomplex]
  rfl

theorem extendBy_of_any {c : Schema} {m : Standing} (hon : c.hasAdditionalProperties = true)
    (hplain : m.type.complex = false) (hany : c.extraValue?.isNone = true) :
    extendBy c m = { m with type := m.type.asMap true } := by
  rw [extendBy, hon, hplain, hany, Bool.or_true]
  rfl

theorem extendBy_of_value {c : Schema} {m : Standing} (hplain : m.type.complex = false)
    (hvalue : c.extraValue?.isNone = false) : extendBy c m = m := by
  rw [extendBy, hplain, hvalue, Bool.or_false, if_neg Bool.false_ne_true, TypeInfo.asMap_self,
    ite_self]

theorem deny_standing (f : Frame) (extra : Extra Schema) :
    (f.deny extra).model.standing = f.model.standing := rfl

theorem markExtra_standing (f : Frame) (declared : Bool) :
    (f.markExtra declared).model.standing =
      if declared then
        { f.model.standing with extended := true, type := f.model.type.asMap false }
      else f.model.standing := by
  cases declared <;> rfl

theorem anyValues_standing (f child : Frame) (declared : Bool) :
    ((f.allowAny declared).setValue child).model.standing =
      if declared then f.model.standing
      else { f.model.standing with type := f.model.type.asMap true } := by
  cases declared <;> rfl

/--
Values beyond the properties make a map of what is no object with properties, unless the frame is
taken apart.
-/
theorem buildAdditionalProperties_standing
    (h : (f.buildAdditionalProperties setting build).Gives s f' s') :
    (f'.model.standing = extendBy f.schema f.model.standing ∧
        f'.schema.hasAdditionalProperties = f.schema.hasAdditionalProperties) ∨
      f.named = false ∧ ∃ value, (((f.deny (.schema value)).markExtra true).hoistExtended build).Gives
        s f' s' := by
  have hmeans : ∀ {extra}, f.schema.additionalProperties = some extra →
      f.schema.hasAdditionalProperties = extra.isEnabled ∧
        f.schema.extraValue? = extra.schema? := by
    intro extra hextra
    rw [Schema.hasAdditionalProperties, Schema.extraValue?, hextra]
    exact ⟨rfl, rfl⟩
  rcases buildAdditionalProperties_cases h with ⟨hnone, rfl, -⟩ | ⟨extra, hextra, ⟨hoff, rfl, -⟩ |
    ⟨rfl, h⟩ | ⟨value, rfl, ⟨hplain, h⟩ | ⟨-, hunnamed, h⟩ | ⟨hcomplex, -, h⟩⟩⟩
  · refine .inl ⟨?_, rfl⟩
    rw [extendBy, Schema.hasAdditionalProperties, hnone]
    rfl
  · refine .inl ⟨?_, rfl⟩
    rw [extendBy, (hmeans hextra).1, hoff]
    rfl
  · -- values of any kind: what is complex already stays what it is
    obtain ⟨child, -, rfl⟩ := buildAnyValues_cases h
    obtain ⟨hon, hvalue⟩ := hmeans hextra
    cases hcomplex : f.model.type.complex
    · refine .inl ⟨?_, rfl⟩
      rw [anyValues_standing, markExtra_standing, deny_standing,
        extendBy_of_any hon hcomplex (by rw [hvalue]; rfl)]
      rfl
    · refine .inl ⟨?_, rfl⟩
      rw [anyValues_standing, markExtra_standing, deny_standing, extendBy_of_complex hon hcomplex]
      rfl
  · obtain ⟨child, -, rfl⟩ := buildMap_cases h
    obtain ⟨hon, hvalue⟩ := hmeans hextra
    refine .inl ⟨?_, hon ▸ rfl⟩
    rw [extendBy_of_value hplain (by rw [hvalue]; rfl)]
    rfl
  · exact .inr ⟨hunnamed, value, h⟩
  · obtain ⟨hon, -⟩ := hmeans hextra
    -- an object with properties keeps its standing, whether the values are hoisted or not
    have hkept : f'.model.standing = ((f.deny (.schema value)).markExtra true).model.standing ∧
        f'.schema.hasAdditionalProperties = true := by
      obtain ⟨t, -, ⟨-, _, _, _, hoisted, _, child, _, -, -, -, rfl⟩ | ⟨-, child, _, -, rfl⟩⟩ :=
        buildExtraValues_cases h
      · exact ⟨rfl, rfl⟩
      · exact ⟨rfl, hon⟩
    refine .inl ⟨hkept.1.trans ?_, hkept.2.trans hon.symm⟩
    rw [extendBy_of_complex hon hcomplex]
    rw [markExtra_standing, if_pos rfl]
    rfl

/-- Properties are added, and nothing else changes. -/
theorem buildPropertyList_standing {properties : List (String × Schema)} : ∀ {position : Nat}
    {f f' : Frame} {s s' : Session},
    (f.buildPropertyList setting build position properties).Gives s f' s' → f'.model.standing =
      { f.model.standing with properties := f.model.properties.length + properties.length } := by
  induction properties with
  | nil =>
    intro position f f' s s' h
    rw [buildPropertyList, gives_pure] at h
    exact h.1 ▸ rfl
  | cons e rest ih =>
    intro position f f' s s' h
    obtain ⟨f₁, s₁, h₁, h₂⟩ := buildPropertyList_cons_cases h
    have hone : f₁.model.standing =
        { f.model.standing with properties := f.model.properties.length + 1 } := by
      obtain ⟨t, -, ⟨-, _, _, _, _, _, _, _, _, -, -, -, -, rfl⟩ | ⟨-, _, _, _, -, -, rfl⟩⟩ :=
        buildProperty_cases h₁ <;>
      exact congrArg (fun n => { f.model.standing with properties := n }) List.length_append
    have hlength : f₁.model.properties.length = f.model.properties.length + 1 :=
      congrArg Standing.properties hone
    rw [ih h₂, hone, hlength, List.length_cons, Nat.add_assoc, Nat.add_comm 1]

theorem buildProperties_standing (h : (f.buildProperties setting build).Gives s f' s') :
    f'.model.standing = { f.model.standing with
      properties := f.model.properties.length + f.schema.properties.length } := by
  obtain ⟨f₁, hlist, rfl⟩ := buildProperties_cases h
  rw [← buildPropertyList_standing hlist]
  have hperm : (Model.sortProperties f₁.model.properties setting.options.keepOrder).length =
      f₁.model.properties.length := (sortBy_perm _ _).length_eq
  exact congrArg (fun n => { f₁.model.standing with properties := n }) hperm

theorem buildAdditionalItems_standing (h : (f.buildAdditionalItems setting build).Gives s f' s') :
    f'.model.standing = f.model.standing := by
  rcases buildAdditionalItems_cases h with ⟨-, rfl, -⟩ | ⟨extra, -, ⟨-, rfl, -⟩ | ⟨-, -, h⟩⟩
  · rfl
  · rfl
  · obtain ⟨t, -, ⟨c, -, -, _, _, _, _, _, _, -, -, -, rfl⟩ | ⟨-, _, -, rfl⟩⟩ :=
      buildExtraItems_cases h <;> rfl

/-- The places of a tuple are its properties. -/
theorem buildPlaces_standing {places : List Schema} : ∀ {index : Nat} {f f' : Frame}
    {s s' : Session}, (f.buildPlaces setting build index places).Gives s f' s' →
    f'.model.standing =
      { f.model.standing with properties := f.model.properties.length + places.length } := by
  induction places with
  | nil =>
    intro index f f' s s' h
    rw [buildPlaces, gives_pure] at h
    exact h.1 ▸ rfl
  | cons c rest ih =>
    intro index f f' s s' h
    obtain ⟨_, _, element, _, -, -, h⟩ := buildPlaces_cons_cases h
    have hlength : (f.addPlace element index).model.properties.length = f.model.properties.length + 1 :=
      List.length_append
    rw [ih h, hlength, List.length_cons, Nat.add_assoc, Nat.add_comm 1]
    rfl

/-! ## Definitions -/

theorem extendBy_facts (c : Schema) (m : Standing) :
    (extendBy c m).type.complex = m.type.complex ∧
      (extendBy c m).type.map = (if c.hasAdditionalProperties then
        !m.type.complex && (m.type.map || c.extraValue?.isNone) else m.type.map) ∧
      (extendBy c m).extended = (m.extended || c.hasAdditionalProperties && m.type.complex) ∧
      (extendBy c m).branches = m.branches ∧ (extendBy c m).properties = m.properties := by
  unfold extendBy
  cases c.hasAdditionalProperties
  · exact ⟨rfl, rfl, (Bool.or_false _).symm, rfl, rfl⟩
  · cases hcomplex : m.type.complex
    · exact ⟨hcomplex, rfl, (Bool.or_false _).symm, rfl, rfl⟩
    · exact ⟨hcomplex, rfl, (Bool.or_true _).symm, rfl, rfl⟩

end Frame

/-- What the model of a definition is that is built of the schema `c`, which ends at `d`. -/
structure Standing.Of (c d : Schema) (m : Standing) : Prop where
  category : m.type.category = c.builtCategory d
  tuple : m.type.tuple = (c.tupleItems?.isSome || d.saysArray && d.tupleItems?.isSome)
  complex : m.type.complex = (c.reference.isSome || d.isRecord)
  base : c.singleItem? = none → m.isBase = (d.saysObject && d.discriminator.isSome)
  extended : m.extended = (c.hasAdditionalProperties && (c.reference.isSome || d.isRecord))
  branches : m.branches = c.allOf.length
  properties : m.properties = c.properties.length + (c.tupleItems?.getD []).length
  written : c.Nameless → m.type.Written

/--
What that model is before the items of the schema are built: its type is that of the schema, which is
an array or a tuple only if the schema says so.
-/
structure Standing.Before (c d : Schema) (m : Standing) : Prop where
  tuple : m.type.tuple = (d.saysArray && d.tupleItems?.isSome)
  array : m.type.array = (d.saysArray && !d.tupleItems?.isSome)
  primitive : m.type.primitive = d.isScalar
  map : m.type.map = (c.reference.isNone && (d.saysMap || (c.allowsAny && !d.isRecord)))
  complex : m.type.complex = (c.reference.isSome || d.isRecord)
  base : m.isBase = (d.saysObject && d.discriminator.isSome)
  extended : m.extended = (c.hasAdditionalProperties && (c.reference.isSome || d.isRecord))
  branches : m.branches = c.allOf.length
  properties : m.properties = c.properties.length
  written : c.Nameless → m.type.Written

/-- Where a definition is made of the elements, the schema is built twice of the same branches. -/
def Schema.ItemsApart (c : Schema) : Prop :=
  ∀ item, c.items = some (.single item) → item.isInline = true → c.reference = none ∧ c.Steady

namespace Frame

open Build

variable {setting : Setting} {build : Frame → Build Frame} {s s' : Session} {f f' : Frame}
variable {defs : Definitions} {c c' d d' : Schema} {t t' : TypeInfo} {m : Standing}

/-- What is known of the model before its items are built. -/
theorem standing_of_types (hr : c.Redone c') (ht : Resolver.TypedBy c d t)
    (ht' : Resolver.TypedBy c d t') (hd : defs.Ends c d) (hextended : m.extended = false)
    (htype : m.type = t) :
    let m' := extendBy c' m
    let last := { t' with complex := m'.type.complex, map := m'.type.map }
    last.map = (c.reference.isNone && (d.saysMap || (c.allowsAny && !d.isRecord))) ∧
      last.complex = (c.reference.isSome || d.isRecord) ∧
      m'.extended = (c.hasAdditionalProperties && (c.reference.isSome || d.isRecord)) := by
  obtain ⟨hcomplex, hmap, hextended', -, -⟩ := extendBy_facts c' m
  rw [htype, ht.complex] at hcomplex
  rw [htype, ht.complex, ht.map, hr.enabled] at hmap
  rw [htype, ht.complex, hextended, hr.enabled, Bool.false_or] at hextended'
  refine ⟨hmap.trans ?_, hcomplex, hextended'⟩
  have hvalue : c'.extraValue?.isNone = c.extraValue?.isNone := by
    rw [← Option.not_isSome, ← Option.not_isSome, hr.value]
  rw [hvalue, Schema.allowsAny]
  cases href : c.reference with
  | some reference => simp
  | none =>
    obtain rfl := hd.of_inline href
    -- an object that describes its values allows some, and declares nothing
    have hmeans : d.saysMap = true → d.isRecord = false ∧ d.hasAdditionalProperties = true := by
      intro hmeans
      rw [Schema.saysMap, Bool.and_eq_true, Bool.and_eq_true, Bool.not_eq_true'] at hmeans
      refine ⟨hmeans.1.2, ?_⟩
      cases hon : d.hasAdditionalProperties
      · rw [Schema.extraValue?_eq_none hon] at hmeans
        exact absurd hmeans.2 (by decide)
      · rfl
    cases hmap : d.saysMap with
    | true => simp [hmeans hmap]
    | false => cases d.hasAdditionalProperties <;> cases d.isRecord <;> simp

/-- The kind of a type with these flags. -/
theorem builtCategory_of_flags
    (htuple : t.tuple = (c.tupleItems?.isSome || d.saysArray && d.tupleItems?.isSome))
    (harray : t.array = (c.singleItem?.isSome || d.saysArray && !d.tupleItems?.isSome))
    (hmap : t.map = (c.reference.isNone && (d.saysMap || (c.allowsAny && !d.isRecord))))
    (hprimitive : t.primitive = d.isScalar)
    (hsingle : c.singleItem?.isSome = true → (d.saysArray && d.tupleItems?.isSome) = false) :
    t.category = c.builtCategory d := by
  unfold TypeInfo.category Schema.builtCategory
  rw [htuple, harray, hmap, hprimitive]
  cases hplaces : c.tupleItems?.isSome
  · cases hone : c.singleItem?.isSome
    · cases d.saysArray <;> cases d.tupleItems?.isSome <;> rfl
    · rw [hsingle hone]
      simp
  · rfl

end Frame

namespace Standing.Before

variable {c d : Schema} {m : Standing}

/-- Without items the model stays what it is. -/
theorem of_no_items (h : m.Before c d) (hnone : c.items = none) : m.Of c d := by
  have hplaces : c.tupleItems? = none := by rw [Schema.tupleItems?, hnone]
  have hsingle : c.singleItem? = none := by rw [Schema.singleItem?, hnone]
  have htuple : m.type.tuple = (c.tupleItems?.isSome || d.saysArray && d.tupleItems?.isSome) := by
    rw [h.tuple, hplaces]
    rfl
  refine ⟨Frame.builtCategory_of_flags htuple ?_ h.map h.primitive ?_, htuple, h.complex,
    fun _ => h.base, h.extended, h.branches, ?_, h.written⟩
  · rw [h.array, hsingle]
    rfl
  · rw [hsingle]
    exact fun hno => absurd hno (by decide)
  · rw [h.properties, hplaces]
    rfl

/-- Items of one schema make an array of the model, of which the end of the schema says nothing. -/
theorem of_single {item : Schema} (h : m.Before c d) (hitem : c.items = some (.single item))
    (hend : d = c ∨ d.saysArray = false) {text : String} {isBase : Bool} : ({ m with
      type := { m.type with kclType := "[" ++ text ++ "]", array := true }
      isBase } : Standing).Of c d := by
  have hplaces : c.tupleItems? = none := by rw [Schema.tupleItems?, hitem]
  have hsingle : c.singleItem? = some item := by rw [Schema.singleItem?, hitem]
  have hno : (d.saysArray && d.tupleItems?.isSome) = false := by
    rcases hend with rfl | hend
    · rw [hplaces]
      exact Bool.and_false _
    · rw [hend, Bool.false_and]
  have htuple : m.type.tuple = (c.tupleItems?.isSome || d.saysArray && d.tupleItems?.isSome) := by
    rw [h.tuple, hplaces]
    rfl
  refine ⟨Frame.builtCategory_of_flags htuple ?_ h.map h.primitive fun _ => hno, htuple, h.complex,
    fun hno => ?_, h.extended, h.branches, ?_,
    fun hc => ⟨(h.written hc).package, Format.isBuiltIn_brackets text⟩⟩
  · rw [hsingle]
    rfl
  · rw [hsingle] at hno
    exact absurd hno (Option.some_ne_none _)
  · rw [hplaces]
    exact h.properties

/-- The places of a tuple make a tuple of the model and are properties of it. -/
theorem of_places {places : List Schema} (h : m.Before c d)
    (hitems : c.items = some (.tuple places)) {text : String} : ({ m with
      type := { m.type with kclType := text, tuple := true }
      properties := m.properties + places.length } : Standing).Of c d := by
  have hplaces : c.tupleItems? = some places := by rw [Schema.tupleItems?, hitems]
  have hsingle : c.singleItem? = none := by rw [Schema.singleItem?, hitems]
  refine ⟨Frame.builtCategory_of_flags ?_ ?_ h.map h.primitive fun hno => ?_, ?_, h.complex,
    fun _ => h.base, h.extended, h.branches, ?_,
    fun hc => absurd (hplaces.symm.trans hc.places) (Option.some_ne_none places)⟩
  · rw [hplaces]
    rfl
  · rw [hsingle]
    exact h.array
  · rw [hsingle] at hno
    exact absurd hno (by decide)
  · rw [hplaces]
    rfl
  · rw [hplaces]
    exact congrArg (· + places.length) h.properties

end Standing.Before

namespace Frame

open Build

variable {setting : Setting} {build : Frame → Build Frame} {s s' : Session} {f f' : Frame}
variable {defs : Definitions} {c c' d d' : Schema} {t t' : TypeInfo} {m : Standing}

theorem setElement_standing (f element : Frame) (item : Schema) (p : Polymorphism) :
    ((f.markElements item p).setElement element).model.standing = { f.model.standing with
      type := { f.model.type with
        kclType := "[" ++ element.model.type.kclType ++ "]", array := true }
      isBase := element.model.isBase } := by
  unfold markElements
  split <;> rfl

/-- The way to build frames says of definitions that give way to no branch what they are. -/
def BuildsStanding (build : Frame → Build Frame) : Prop :=
  ∀ g s g' s', g.named = true → g.model = {} → g.schema.Whole → (build g).Gives s g' s' →
    g'.model.standing.Of g.schema g.schema

/-- An array is an array however its elements came about. -/
theorem of_single {item : Schema} (hr : c.Redone c') (hitem : c.items = some (.single item))
    {n : String} (h : m.Of { c' with items := some (.single (.referenceTo n)) }
      { c' with items := some (.single (.referenceTo n)) }) : m.Of c c := by
  have hsingle : c.singleItem? = some item := by rw [Schema.singleItem?, hitem]
  have htuple : c.tupleItems? = none := by rw [Schema.tupleItems?, hitem]
  obtain ⟨hcategory, htuple', hcomplex, -, hextended, hbranches, hproperties, hwritten⟩ := h
  have hrecord : ({ c' with items := some (.single (.referenceTo n)) } : Schema).isRecord =
      c.isRecord := hr.isRecord
  have hreference : ({ c' with items := some (.single (.referenceTo n)) } : Schema).reference =
      c.reference := hr.reference
  rw [hreference, hrecord] at hcomplex hextended
  have hextended' : m.extended =
      (c'.hasAdditionalProperties && (c.reference.isSome || c.isRecord)) := hextended
  refine ⟨hcategory.trans ?_, htuple'.trans ?_, hcomplex, fun hno => ?_, ?_,
    hbranches.trans hr.length, ?_, fun hc => hwritten ?_⟩
  · rw [Schema.builtCategory, Schema.builtCategory, htuple, hsingle]
    rfl
  · rw [htuple]
    simp [Schema.tupleItems?]
  · rw [hsingle] at hno
    exact absurd hno (by simp)
  · rw [hextended', hr.enabled]
  · rw [hproperties, htuple, show c'.properties = c.properties from hr.properties]
    rfl
  · -- an array with other elements is still no object
    obtain ⟨href, hprops, hall, -, hobject⟩ := hr.nameless hc
    refine ⟨href, hprops, hall, by simp [Schema.tupleItems?], fun hmeans => ?_⟩
    rw [hr.items, hitem] at hobject
    exact absurd (hobject hmeans).1 (Option.some_ne_none _)

/-- What a model is before its items are built. -/
theorem buildParts_standing {f₃ f₄ f₅ : Frame} {s₃ s₄ s₅ : Session}
    (hprops : ((f₃.pointMap.retype t').buildProperties setting build).Gives s₃ f₄ s₄)
    (hadd : (f₄.buildAdditionalItems setting build).Gives s₄ f₅ s₅) :
    f₅.model.standing = { f₃.model.standing with
      type := { t' with complex := f₃.model.type.complex, map := f₃.model.type.map }
      isBase := t'.discriminated
      properties := f₃.model.properties.length + f₃.schema.properties.length } := by
  have hschema : (f₃.pointMap.retype t').schema.properties = f₃.schema.properties :=
    congrArg Schema.properties pointMap_schema
  have hpoint := pointMap_standing f₃
  have hlength : f₃.pointMap.model.properties.length = f₃.model.properties.length :=
    congrArg Standing.properties hpoint
  have htype : f₃.pointMap.model.type = f₃.model.type := congrArg Standing.type hpoint
  rw [buildAdditionalItems_standing hadd, buildProperties_standing hprops, hschema]
  show ({ f₃.pointMap.model.standing with
    type := { t' with complex := f₃.pointMap.model.type.complex, map := f₃.pointMap.model.type.map }
    isBase := t'.discriminated
    properties := f₃.pointMap.model.properties.length + f₃.schema.properties.length } : Standing) = _
  rw [hpoint, htype, hlength]

/--
**Before its items are built**, the model is what the two looked up types, the branches, the values
beyond the properties and the properties make of it.
-/
theorem steps_before {f₂ f₃ f₄ f₅ : Frame} {s₂ s₃ s₄ s₅ : Session} {required : Bool}
    (hb : BuildsBelow setting build) (hdefs : Knowing defs s) (hnamed : f.named = true)
    (hblank : f.model.standing = ({} : Model).standing) (hd : defs.Ends f.schema d)
    (hall : (f.fillContainer.buildAllOf setting build).Gives s f₂ s₂)
    (ht : (resolverAt setting f₂ s₂).resolve f₂.schema (!f₂.named) required = .ok t)
    (hextra : ((f₂.setType t t.baseType).buildAdditionalProperties setting build).Gives s₂ f₃ s₃)
    (ht' : (resolverAt setting f₃ s₃).resolve f₃.schema (!f₃.named) (f₃.named || f₃.tuple) = .ok t')
    (hprops : ((f₃.pointMap.retype t').buildProperties setting build).Gives s₃ f₄ s₄)
    (hadd : (f₄.buildAdditionalItems setting build).Gives s₄ f₅ s₅) :
    f₅.model.standing.Before f.schema d ∧ f.schema.Redone f₅.schema ∧ f₅.named = true := by
  -- the schema is revised along the way, and the frame keeps its name
  obtain ⟨hstanding₂, hredone₂⟩ := buildAllOf_standing hall
  rw [fillContainer_schema] at hredone₂
  rw [fillContainer_model, fillContainer_schema, hblank] at hstanding₂
  have hnamed₂ : f₂.named = true :=
    ((fillContainer_persists f).trans (buildAllOf_persists hall)).named.trans hnamed
  obtain ⟨hstanding₃, henabled⟩ := (buildAdditionalProperties_standing hextra).resolve_right
    fun hunnamed => absurd (hunnamed.1.symm.trans hnamed₂) (by decide)
  have hpersists₃ : Persists f₂ f₃ := (setType_persists f₂ t t.baseType).trans
    (buildAdditionalProperties_persists_named hnamed₂ hextra)
  have hredone₃ : f.schema.Redone f₃.schema := hredone₂.trans ⟨hpersists₃.schema, henabled⟩
  have hnamed₃ : f₃.named = true := hpersists₃.named.trans hnamed₂
  obtain ⟨extra, hschema₅⟩ := (buildParts_retains hprops hadd).schema
  have hredone₅ : f.schema.Redone f₅.schema := by
    refine hredone₃.trans ?_
    rw [hschema₅, show (f₃.pointMap.retype t').schema = f₃.schema from pointMap_schema]
    exact ⟨⟨rfl, rfl, rfl, rfl, .refl _⟩, rfl⟩
  have hnamed₅ : f₅.named = true :=
    (buildParts_retains hprops hadd).named.trans ((pointMap_persists f₃).named.trans hnamed₃)
  -- both types are those of the schema
  have hdefs₂ : Knowing defs s₂ := hdefs.grown (buildAllOf_grows hb hall)
  have hdefs₃ : Knowing defs s₃ := hdefs₂.grown (buildAdditionalProperties_grows hb hextra)
  obtain ⟨d₂, hd₂⟩ := hredone₂.exists_ends hd
  obtain ⟨d₃, hd₃⟩ := hredone₃.exists_ends hd
  rw [hnamed₂] at ht
  rw [hnamed₃] at ht'
  have htyped := hredone₂.typedBy hd hd₂
    (Resolver.resolve_typedBy (r := resolverAt setting f₂ s₂) hdefs₂ hd₂ ht)
  have htyped' := hredone₃.typedBy hd hd₃
    (Resolver.resolve_typedBy (r := resolverAt setting f₃ s₃) hdefs₃ hd₃ ht')
  obtain ⟨hmap, hcomplex, hextended⟩ := standing_of_types (m := (f₂.setType t t.baseType).model.standing)
    hredone₂ htyped htyped' hd (congrArg Standing.extended hstanding₂) rfl
  have hwritten : f.schema.Nameless → ({ t' with
      complex := f₃.model.type.complex, map := f₃.model.type.map } : TypeInfo).Written := by
    intro hc
    obtain ⟨hpackage, htext⟩ := Resolver.resolve_written (hredone₃.nameless hc) ht' rfl
    exact ⟨hpackage, htext⟩
  -- the model had nothing, and got its branches and its properties since
  obtain ⟨-, -, -, hbranches, hproperties⟩ :=
    extendBy_facts f₂.schema (f₂.setType t t.baseType).model.standing
  have hbranches₃ : f₃.model.allOf.length = f.schema.allOf.length := by
    have hnone : f.model.allOf.length = 0 := congrArg Standing.branches hblank
    refine (congrArg Standing.branches hstanding₃).trans
      (hbranches.trans ((congrArg Standing.branches hstanding₂).trans ?_))
    show f.model.allOf.length + _ = _
    rw [hnone, Nat.zero_add]
  have hproperties₃ : f₃.model.properties.length = 0 := (congrArg Standing.properties hstanding₃).trans
    (hproperties.trans (congrArg Standing.properties hstanding₂))
  have htype₃ : f₃.model.type = _ := congrArg Standing.type hstanding₃
  have hextended₃ : f₃.model.isAdditionalProperties = _ := congrArg Standing.extended hstanding₃
  have hlast := buildParts_standing hprops hadd
  rw [hredone₃.properties, hproperties₃, Nat.zero_add] at hlast
  rw [hlast]
  refine ⟨⟨htyped'.tuple, htyped'.array, htyped'.primitive, ?_, ?_, htyped'.discriminated,
    hextended₃.trans hextended, hbranches₃, rfl, hwritten⟩, hredone₅, hnamed₅⟩
  · rw [htype₃]
    exact hmap
  · rw [htype₃]
    exact hcomplex

/-- The steps after a branch was lifted, if one was, say what the model is. -/
theorem steps_standing {f₂ f₃ f₄ f₅ : Frame} {s₂ s₃ s₄ s₅ : Session} {required : Bool}
    (hb : BuildsBelow setting build) (ih : BuildsStanding build) (hdefs : Knowing defs s)
    (hnamed : f.named = true) (hblank : f.model.standing = ({} : Model).standing)
    (hapart : f.schema.ItemsApart) (hd : defs.Ends f.schema d)
    (hend : d = f.schema ∨ d.saysArray = false)
    (hall : (f.fillContainer.buildAllOf setting build).Gives s f₂ s₂)
    (ht : (resolverAt setting f₂ s₂).resolve f₂.schema (!f₂.named) required = .ok t)
    (hextra : ((f₂.setType t t.baseType).buildAdditionalProperties setting build).Gives s₂ f₃ s₃)
    (ht' : (resolverAt setting f₃ s₃).resolve f₃.schema (!f₃.named) (f₃.named || f₃.tuple) = .ok t')
    (hprops : ((f₃.pointMap.retype t').buildProperties setting build).Gives s₃ f₄ s₄)
    (hadd : (f₄.buildAdditionalItems setting build).Gives s₄ f₅ s₅)
    (hitems : (f₅.buildItems setting build).Gives s₅ f' s') :
    f'.model.standing.Of f.schema d := by
  obtain ⟨hbefore, hredone, hnamed₅⟩ :=
    steps_before hb hdefs hnamed hblank hd hall ht hextra ht' hprops hadd
  rcases buildItems_cases hitems with ⟨hnone, rfl, -⟩ | ⟨item, hitem, harray⟩ |
    ⟨places, hplaces, ⟨-, hbuilt⟩ | ⟨hunnamed, -⟩⟩
  · exact hbefore.of_no_items (hredone.items.symm.trans hnone)
  · rw [hredone.items] at hitem
    obtain ⟨_, hitemType, ⟨hneeds, _, made, s₆, hoisted, s₇, inner, hm, hh, hi, rfl⟩ |
      ⟨-, element, -, rfl⟩⟩ := buildArray_cases harray
    · -- the array is built once more, with a definition in place of its elements
      have hinline := (Resolver.complex_anonymous_eq (.inr rfl) hitemType).symm.trans hneeds
      obtain ⟨href, hsteady⟩ := hapart item hitem hinline
      obtain rfl := hd.of_inline href
      have hwhole : (f₅.mapItem (.referenceTo hoisted.name)).makeVirtual.restart.schema.Whole :=
        ⟨hredone.reference.trans href, hsteady.rename hredone.branches⟩
      have hagain := ih (f₅.mapItem (.referenceTo hoisted.name)).makeVirtual.restart _ _ _ hnamed₅ rfl
        hwhole hi
      exact of_single (m := inner.model.standing) hredone hitem hagain
    · rw [setElement_standing]
      exact hbefore.of_single hitem hend
  · rw [hredone.items] at hplaces
    rw [buildPlaces_standing hbuilt]
    exact hbefore.of_places hplaces
  · exact absurd (hunnamed.symm.trans hnamed₅) (by decide)

/-- A definition that gives way to no branch is what its keywords say, at any depth. -/
theorem buildIn_standing [Text.Transliteration] (setting : Setting) (depth : Nat) :
    BuildsStanding (buildIn setting depth) := by
  induction depth with
  | zero =>
    intro g s g' s' _ _ _ h
    rw [buildIn, gives_throw] at h
    exact h.elim
  | succ depth ih =>
    intro g s g' s' hnamed hmodel hwhole h
    have hb : BuildsBelow setting (buildIn setting depth) := fun g s g' s' hg => ⟨depth, hg⟩
    obtain ⟨k, s₀, hk, ⟨-, hsome, -⟩ | ⟨-, f₁, f₂, s₂, t, f₃, s₃, t', f₄, s₄, f₅, s₅, required, hlift,
      hall, ht, hextra, ht', hprops, hadd, hitems⟩⟩ := buildStep_steps h
    · rw [hwhole.reference] at hsome
      exact absurd hsome (by decide)
    obtain ⟨-, ⟨rfl, -⟩ | ⟨b, hl, rfl⟩⟩ := liftBranch_cases hlift
    · have hnothing : Knowing [] s₀ := fun _ _ hd => absurd hd (by simp)
      refine steps_standing (f := g.start setting k) hb ih hnothing hnamed ?_
        (fun _ _ _ => ⟨hwhole.reference, hwhole.branches⟩) (.here hwhole.reference) (.inl rfl) hall ht
        hextra ht' hprops hadd hitems
      show g.model.standing = _
      rw [hmodel]
    · exact absurd hl (not_lifts_of_steady hwhole.branches b)

/-- **What the model of a definition is**, the schema says that it is built of: its own, or that of the
one branch that is put in its place. -/
theorem Builds.standing (h : f.Builds setting s f' s') (hdefs : Knowing defs s)
    (hnamed : f.named = true) (hmodel : f.model = {}) (href : f.schema.reference = none)
    (hapart : f.schema.ItemsApart) (hbranches : ∀ b, f.schema.Sole b → b.ItemsApart)
    (hends : ∀ b, Lifts (resolverAt setting f s) f.schema b →
      ∃ d, defs.Ends b d ∧ (d = b ∨ d.saysArray = false)) :
    ∃ c d, ((c = f.schema ∧ ∀ b, ¬ Lifts (resolverAt setting f s) f.schema b) ∨
        Lifts (resolverAt setting f s) f.schema c) ∧
      defs.Ends c d ∧ f'.model.standing.Of c d := by
  obtain ⟨depth, h⟩ := h
  cases depth with
  | zero =>
    rw [buildIn, gives_throw] at h
    exact h.elim
  | succ depth =>
    have hb : BuildsBelow setting (buildIn setting depth) := fun g s g' s' hg => ⟨depth, hg⟩
    have ih := buildIn_standing setting depth
    obtain ⟨k, s₀, hk, ⟨-, hsome, -⟩ | ⟨-, f₁, f₂, s₂, t, f₃, s₃, t', f₄, s₄, f₅, s₅, required, hlift,
      hall, ht, hextra, ht', hprops, hadd, hitems⟩⟩ := buildStep_steps h
    · rw [href] at hsome
      exact absurd hsome (by decide)
    have hreg := constraints_registry hk
    have hdefs₀ : Knowing defs s₀ := fun n d hd => hreg ▸ hdefs n d hd
    -- starting the frame leaves the resolver as it was
    have hresolver : resolverAt setting (f.start setting k) s₀ = resolverAt setting f s := by
      unfold resolverAt
      rw [hreg]
      rfl
    have hblank : (f.start setting k).model.standing = ({} : Model).standing := by
      show f.model.standing = _
      rw [hmodel]
    obtain ⟨-, hcases⟩ := liftBranch_cases hlift
    rw [hresolver] at hcases
    -- the steps are those of the schema itself, or of the branch put in its place
    rcases hcases with ⟨rfl, hno⟩ | ⟨b, hl, rfl⟩
    · exact ⟨f.schema, f.schema, .inl ⟨rfl, hno⟩, .here href, steps_standing (f := f.start setting k) hb
        ih hdefs₀ hnamed hblank hapart (.here href) (.inl rfl) hall ht hextra ht' hprops hadd hitems⟩
    · obtain ⟨d, hd, hend⟩ := hends b hl
      exact ⟨b, d, .inr hl, hd, steps_standing (f := (f.start setting k).lift b) hb ih hdefs₀ hnamed
        hblank (hbranches b hl.sole) hd hend hall ht hextra ht' hprops hadd hitems⟩

end Frame

end KclModels
