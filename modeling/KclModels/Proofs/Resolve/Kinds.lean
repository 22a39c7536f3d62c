import KclModels.Proofs.Resolve.Records
import KclModels.Proofs.Resolve.References

/-!
# Kinds of schemas

What a schema is by its keywords alone, and the type that each kind resolves to. Only objects that
declare something have a type that is complex and has no name.
-/

namespace KclModels

variable {tr : Text.Transliteration}

namespace Schema

variable {c item value : Schema} {kind text reference : String}

/-- The schema has this one type, and no keyword beside it stands for a type of its own. -/
structure HasKind (c : Schema) (kind : String) : Prop where
  reference : c.reference = none
  types : c.types = [kind] ∨ (kind = "object" ∧ c.types = [])
  format : Resolver.byFormat? c = none
  intOrString : c.hints.intOrString = false

/-- The schema composes nothing and describes no items or values. -/
structure Alone (c : Schema) : Prop where
  allOf : c.allOf = []
  items : c.items = none
  values : c.hasAdditionalProperties = false

/-- The type of a schema with a type name and perhaps a format, by the tables. -/
def scalarText (c : Schema) (type : String) : Option String :=
  (c.format.bind (Format.ofFormat? type)).or (Format.ofType? type)

/-- A primitive type, written `text`. -/
structure IsScalar (c : Schema) (text : String) : Prop extends c.Alone where
  reference : c.reference = none
  intOrString : c.hints.intOrString = false
  text : ∃ type, c.types = [type] ∧ c.scalarText type = some text

/-- An object without content. -/
structure IsEmpty (c : Schema) : Prop extends c.Alone, c.HasKind "object" where
  properties : c.properties = []

/-- A reference. -/
structure IsReference (c : Schema) : Prop extends c.Alone where
  reference : c.reference.isSome = true

/-- An array of any items, or of items of one schema. -/
structure IsArray (c : Schema) (item? : Option Schema) : Prop extends c.HasKind "array" where
  allOf : c.allOf = []
  items : c.items = item?.map .single
  values : c.hasAdditionalProperties = false

/-- A tuple. -/
structure IsTuple (c : Schema) (places : List Schema) : Prop extends c.HasKind "array" where
  allOf : c.allOf = []
  items : c.items = some (.tuple places)
  values : c.hasAdditionalProperties = false

/-- A map to values of one schema. -/
structure IsMap (c value : Schema) : Prop extends c.HasKind "object" where
  properties : c.properties = []
  allOf : c.allOf = []
  items : c.items = none
  values : c.additionalProperties = some (.schema value)

/-- An object that declares something, without a name of its own. -/
structure IsRecord (c : Schema) : Prop extends c.HasKind "object" where
  declares : c.properties ≠ [] ∨ c.allOf ≠ []
  kclName : c.hints.kclName = none
  existing : c.hints.existing = none

/-- A kind whose type is written out of no other: `text` is how. -/
inductive IsPlain : Schema → String → Prop
  | scalar {c : Schema} {text : String} : c.IsScalar text → IsPlain c text
  | empty {c : Schema} : c.IsEmpty → IsPlain c Format.anyType
  | list {c : Schema} : c.IsArray none → IsPlain c ("[" ++ Format.anyType ++ "]")

/-- Schemas that are built of these kinds, arrays and maps to any depth. -/
inductive Structural : Schema → Prop
  | scalar {c : Schema} {text : String} : c.IsScalar text → Structural c
  | empty {c : Schema} : c.IsEmpty → Structural c
  | reference {c : Schema} : c.IsReference → Structural c
  | list {c : Schema} : c.IsArray none → Structural c
  | array {c item : Schema} : c.IsArray (some item) → Structural item → Structural c
  | map {c value : Schema} : c.IsMap value → Structural value → Structural c
  | tuple {c : Schema} {places : List Schema} : c.IsTuple places → Structural c
  | record {c : Schema} : c.IsRecord → Structural c

theorem IsPlain.alone (h : c.IsPlain text) : c.Alone := by
  cases h with
  | scalar hs => exact hs.toAlone
  | empty he => exact he.toAlone
  | list hl => exact ⟨hl.allOf, hl.items, hl.values⟩

theorem isReference_referenceTo (n : String) : (referenceTo n).IsReference :=
  ⟨⟨rfl, rfl, rfl⟩, rfl⟩

theorem not_isRecord_of_reference (h : c.IsReference) : ¬ c.IsRecord := by
  intro hrec
  have hsome := h.reference
  rw [hrec.toHasKind.reference] at hsome
  exact absurd hsome (by simp)

/-- A map stays one when its values have another schema. -/
theorem IsMap.setValue (h : c.IsMap value) (d : Schema) :
    ({ c with additionalProperties := some (.schema d) } : Schema).IsMap d :=
  ⟨⟨h.toHasKind.reference, h.types, h.format, h.intOrString⟩, h.properties, h.allOf, h.items, rfl⟩

/-- The kind stays when other items take the place of the items. -/
theorem HasKind.rewrite {c' : Schema} (h : c.HasKind kind)
    (hk : c'.toKeywords = c.toKeywords) : c'.HasKind kind := by
  obtain ⟨href, htypes, hformat, hints⟩ := h
  refine ⟨?_, ?_, ?_, ?_⟩
  · rw [hk]
    exact href
  · rw [hk]
    exact htypes
  · unfold Resolver.byFormat? at hformat ⊢
    rw [hk]
    exact hformat
  · rw [hk]
    exact hints

end Schema

namespace Resolver

variable {r : Resolver} {c item value : Schema} {t : TypeInfo} {anonymous required : Bool}
variable {kind text : String}

theorem says_of_hasKind (h : c.HasKind kind) : Says r c kind where
  reference := h.reference
  format := h.format
  intOrString := h.intOrString
  typeName := by
    unfold typeName
    rcases h.types with htypes | ⟨rfl, htypes⟩
    · rw [htypes]
    · rw [htypes]

/-- A schema of a kind has no type without structure. -/
theorem not_hasScalar (h : Says r c kind) (hk : kind = "array" ∨ kind = "object") :
    ¬ HasScalar r required c t := by
  intro hs
  cases hs with
  | byFormat hf => rw [h.format] at hf; simp at hf
  | intOrString _ hi => rw [h.intOrString] at hi; simp at hi
  | byName _ _ ht harray hobject _ =>
    rw [h.typeName, Except.ok.injEq] at ht
    rcases hk with rfl | rfl
    · exact harray ht.symm
    · exact hobject ht.symm

theorem Says.unique {kind' : String} (h : Says r c kind) (h' : Says r c kind') : kind = kind' :=
  Except.ok.inj (h.typeName.symm.trans h'.typeName)

/-- The type of an array or a tuple. -/
theorem resolve_array (hk : c.HasKind "array") (h : r.resolve c anonymous required = .ok t) :
    ∃ element, resolveItems r (r.derefIn r.registry.definitions.length []) c.items = .ok element ∧
      t = settle required (sequenceOf c anonymous element) := by
  have hs : Says r c "array" := says_of_hasKind hk
  rcases resolveWith_ok h with ⟨reference, href, -⟩ | ⟨-, hscalar⟩ | ⟨-, element⟩ | ⟨hobject, -⟩ |
    ⟨hobject, -⟩
  · rw [hk.reference] at href
    simp at href
  · exact absurd hscalar (not_hasScalar hs (Or.inl rfl))
  · exact element
  · exact absurd (hs.unique hobject) (by simp)
  · exact absurd (hs.unique hobject) (by simp)

/-- The type of an object. -/
theorem resolve_object (hk : c.HasKind "object") (h : r.resolve c anonymous required = .ok t) :
    (c.allOf ≠ [] ∧ t = settle required (r.composed c anonymous)) ∨
    (c.allOf = [] ∧ ∃ value, resolveValue r (r.derefIn r.registry.definitions.length [])
        c.additionalProperties = .ok value ∧ t = settle required (r.objectWith c anonymous value)) := by
  have hs : Says r c "object" := says_of_hasKind hk
  rcases resolveWith_ok h with ⟨reference, href, -⟩ | ⟨-, hscalar⟩ | ⟨harray, -⟩ | ⟨-, hall, ht⟩ |
    ⟨-, hall, ht⟩
  · rw [hk.reference] at href
    simp at href
  · exact absurd hscalar (not_hasScalar hs (Or.inr rfl))
  · exact absurd (hs.unique harray) (by simp)
  · exact Or.inl ⟨hall, ht⟩
  · exact Or.inr ⟨hall, ht⟩

/-- The type has this text and belongs to no package, and is not one of an object. -/
structure Reads (t : TypeInfo) (text : String) : Prop where
  kclType : t.kclType = text
  package : t.package = ""
  complex : t.complex = false

theorem ofType?_array : Format.ofType? "array" = none := rfl

theorem ofType?_object : Format.ofType? "object" = none := rfl

/-- Without a format that has a meaning, the table of plain types says the type. -/
theorem scalarText_of_unformatted {type : String} (htypes : c.types = [type])
    (hf : byFormat? c = none) : c.scalarText type = Format.ofType? type := by
  rw [Schema.scalarText]
  rw [byFormat?, htypes] at hf
  cases hformat : c.format with
  | none => rfl
  | some format =>
    rw [hformat] at hf
    change (Format.ofFormat? type format).bind _ = none at hf
    cases hk : Format.ofFormat? type format with
    | none => rw [Option.bind_some, hk, Option.none_or]
    | some kclType => rw [hk] at hf; simp at hf

theorem resolve_scalar (hc : c.IsScalar text) (h : r.resolve c anonymous required = .ok t) :
    Reads t text := by
  obtain ⟨type, htypes, htext⟩ := hc.text
  have hname : r.typeName c = .ok type := by
    rw [typeName, htypes]
  have hformat : ∀ u, byFormat? c = some u → Reads u text := by
    intro u hu
    obtain ⟨format, hf, hu⟩ := Option.bind_eq_some_iff.mp hu
    obtain ⟨kclType, hk, hu⟩ := Option.bind_eq_some_iff.mp hu
    obtain rfl := Option.some.inj hu
    rw [htypes] at hk
    change Format.ofFormat? type format = some kclType at hk
    rw [Schema.scalarText, hf, Option.bind_some, hk, Option.some_or, Option.some.injEq] at htext
    exact ⟨htext, rfl, rfl⟩
  -- without a format of its own the text is that of the table
  have htable : byFormat? c = none → Format.ofType? type = some text := fun hf =>
    (scalarText_of_unformatted htypes hf).symm.trans htext
  rcases resolveWith_ok h with ⟨reference, href, -⟩ | ⟨-, hscalar⟩ | ⟨hs, -⟩ | ⟨hs, -⟩ | ⟨hs, -⟩
  · rw [hc.reference] at href
    simp at href
  · cases hscalar with
    | byFormat hf => exact hformat t hf
    | intOrString _ hi => rw [hc.intOrString] at hi; simp at hi
    | byName hf _ ht _ _ hu =>
      rw [hname, Except.ok.injEq] at ht
      subst ht
      have hofType := htable hf
      unfold scalarOf at hu
      split at hu
      · rename_i heq
        subst heq
        rw [← Except.ok.inj hu]
        exact ⟨Option.some.inj hofType, rfl, rfl⟩
      · rw [hofType] at hu
        rw [← Except.ok.inj hu]
        exact ⟨rfl, rfl, rfl⟩
  -- arrays and objects are not in the table
  all_goals
    obtain rfl := Except.ok.inj (hname.symm.trans hs.typeName)
    exact absurd (htable hs.format) (by simp [ofType?_array, ofType?_object])

theorem resolve_empty (hc : c.IsEmpty) (h : r.resolve c true required = .ok t) :
    Reads t Format.anyType := by
  rcases resolve_object hc.toHasKind h with ⟨hall, -⟩ | ⟨-, value, hvalue, rfl⟩
  · exact absurd hc.allOf hall
  · rcases resolveValue_ok hvalue with ⟨v, e, hv, -⟩ | ⟨-, rfl⟩
    · have hvalues := hc.values
      rw [Schema.hasAdditionalProperties, hv] at hvalues
      exact absurd hvalues (by simp [Extra.isEnabled])
    · rw [objectWith, hc.properties]
      exact ⟨rfl, rfl, rfl⟩

theorem resolve_list (hc : c.IsArray none) (h : r.resolve c anonymous required = .ok t) :
    Reads t ("[" ++ Format.anyType ++ "]") := by
  obtain ⟨element, helement, rfl⟩ := resolve_array hc.toHasKind h
  rw [hc.items] at helement
  rcases resolveItems_ok helement with ⟨-, rfl⟩ | ⟨_, _, hi, -⟩ | ⟨_, hi, -⟩
  · exact ⟨rfl, rfl, rfl⟩
  · simp at hi
  · simp at hi

theorem resolve_plain (hc : c.IsPlain text) (h : r.resolve c true required = .ok t) :
    Reads t text := by
  cases hc with
  | scalar hs => exact resolve_scalar hs h
  | empty he => exact resolve_empty he h
  | list hl => exact resolve_list hl h

theorem resolve_items (hc : c.IsArray (some item)) (h : r.resolve c anonymous required = .ok t) :
    t.array = true ∧ t.package = "" ∧ t.complex = false := by
  obtain ⟨element, helement, rfl⟩ := resolve_array hc.toHasKind h
  rw [hc.items] at helement
  rcases resolveItems_ok helement with ⟨hi, -⟩ | ⟨_, e, -, -, rfl⟩ | ⟨_, hi, -⟩
  · simp at hi
  · exact ⟨rfl, rfl, rfl⟩
  · simp at hi

theorem resolve_tuple {places : List Schema} (hc : c.IsTuple places)
    (h : r.resolve c anonymous required = .ok t) : t.complex = false := by
  obtain ⟨element, helement, rfl⟩ := resolve_array hc.toHasKind h
  rw [hc.items] at helement
  rcases resolveItems_ok helement with ⟨hi, -⟩ | ⟨_, _, hi, -⟩ | ⟨_, -, rfl⟩
  · simp at hi
  · simp at hi
  · rfl

/-- The type is that of a map, written so. -/
structure ReadsMap (t : TypeInfo) : Prop where
  map : t.map = true
  complex : t.complex = false
  package : t.package = ""
  kclType : Text.begins "\x7bstr:" t.kclType = true

theorem resolve_map (hc : c.IsMap value) (h : r.resolve c true required = .ok t) :
    ReadsMap t := by
  rcases resolve_object hc.toHasKind h with ⟨hall, -⟩ | ⟨-, v, hvalue, rfl⟩
  · exact absurd hc.allOf hall
  · rw [hc.values] at hvalue
    rcases resolveValue_ok hvalue with ⟨_, e, -, -, rfl⟩ | ⟨hno, -⟩
    · rw [objectWith, hc.properties]
      refine ⟨rfl, rfl, rfl, ?_⟩
      change Text.begins "\x7bstr:" ("\x7bstr:" ++ e.kclType ++ "\x7d") = true
      rw [String.append_assoc]
      exact Text.begins_append _ _
    · exact absurd rfl (hno value)

theorem resolve_record (hc : c.IsRecord) (h : r.resolve c true required = .ok t) :
    t.complex = true ∧ t.anonymous = true ∧ t.map = false := by
  rcases resolve_object hc.toHasKind h with ⟨-, rfl⟩ | ⟨hall, v, -, rfl⟩
  · exact ⟨rfl, rfl, rfl⟩
  · have hprops : c.properties.isEmpty = false := by
      rcases hc.declares with hp | hp
      · simpa using hp
      · exact absurd hall hp
    refine ⟨?_, objectWith_anonymous r c v, ?_⟩
    · cases v <;> simp [settle, objectWith, withValues, hprops]
    · cases v <;> simp [settle, objectWith, withValues, hprops, objectOf]

/-- **Only objects that declare something have a complex type without a name.** -/
theorem complex_anonymous_iff (hc : c.Structural)
    (hnamed : anonymous = true ∨ c.reference.isSome = true)
    (h : r.resolve c anonymous required = .ok t) :
    (t.complex && t.anonymous) = true ↔ c.IsRecord := by
  have hanonymous : c.reference = none → anonymous = true := by
    intro hnone
    rw [hnone] at hnamed
    simpa using hnamed
  -- all but records and references are settled by their type not being complex
  have hplain : t.complex = false → ¬ c.IsRecord →
      ((t.complex && t.anonymous) = true ↔ c.IsRecord) := by
    intro hcomplex hno
    rw [hcomplex, Bool.false_and]
    exact ⟨fun h => absurd h (by simp), fun h => absurd h hno⟩
  cases hc with
  | scalar hs =>
    refine hplain (resolve_scalar hs h).complex fun hrec => ?_
    obtain ⟨type, htypes, htext⟩ := hs.text
    rcases hrec.types with ht | ⟨-, ht⟩
    · rw [htypes, List.cons.injEq] at ht
      rw [scalarText_of_unformatted htypes hrec.format, ht.1, ofType?_object] at htext
      exact absurd htext (by simp)
    · rw [htypes] at ht
      exact absurd ht (by simp)
  | empty he =>
    have hanon := hanonymous he.toHasKind.reference
    subst hanon
    exact hplain (resolve_empty he h).complex fun hrec =>
      hrec.declares.elim (absurd he.properties) (absurd he.allOf)
  | reference href =>
    have hn := resolve_named (Or.inl href.reference) h
    rw [hn, Bool.and_false]
    exact ⟨fun h => absurd h (by simp), fun hrec => absurd hrec (Schema.not_isRecord_of_reference href)⟩
  | list hl =>
    exact hplain (resolve_list hl h).complex fun hrec => not_record hl.toHasKind hrec
  | array ha => exact hplain (resolve_items ha h).2.2 fun hrec => not_record ha.toHasKind hrec
  | map hm =>
    have hanon := hanonymous hm.toHasKind.reference
    subst hanon
    exact hplain (resolve_map hm h).complex fun hrec =>
      hrec.declares.elim (absurd hm.properties) (absurd hm.allOf)
  | tuple ht => exact hplain (resolve_tuple ht h) fun hrec => not_record ht.toHasKind hrec
  | record hrec =>
    have hanon := hanonymous hrec.toHasKind.reference
    subst hanon
    obtain ⟨hcomplex, hanonymous, -⟩ := resolve_record hrec h
    rw [hcomplex, hanonymous]
    exact ⟨fun _ => hrec, fun _ => rfl⟩
where
  not_record {c : Schema} (h : c.HasKind "array") (hrec : c.IsRecord) : False := by
    rcases h.types with ht | ⟨hk, -⟩
    · rcases hrec.types with hr | ⟨-, hr⟩
      · rw [ht] at hr
        exact absurd hr (by simp)
      · rw [ht] at hr
        exact absurd hr (by simp)
    · exact absurd hk (by simp)

/-- Of the kinds that say of what schema their values are, only maps have the type of a map. -/
theorem isMap_of_resolve (hc : c.Structural) (hv : c.additionalProperties = some (.schema value))
    (h : r.resolve c true required = .ok t) (hmap : t.map = true) :
    c.IsMap value ∧ value.Structural := by
  have hvalues : c.hasAdditionalProperties = false → c.IsMap value ∧ value.Structural := by
    intro hnone
    rw [Schema.hasAdditionalProperties, hv] at hnone
    exact absurd hnone (by simp [Extra.isEnabled])
  cases hc with
  | scalar hs => exact hvalues hs.values
  | empty he => exact hvalues he.values
  | reference href => exact hvalues href.values
  | list hl => exact hvalues hl.values
  | array ha => exact hvalues ha.values
  | tuple ht => exact hvalues ht.values
  | map hm hvalue =>
    obtain rfl : _ = value := by simpa using hm.values.symm.trans hv
    exact ⟨hm, hvalue⟩
  | record hrec => exact absurd ((resolve_record hrec h).2.2.symm.trans hmap) (by decide)

end Resolver

end KclModels

/-!
## Forms of schemas

A structural schema is of one form only: a plain type, a reference, an array, a tuple, a map or an
object that declares something. Of the last two but one, and of the last, definitions are made where
they have no name.
-/

namespace KclModels

namespace Schema

variable {c item value : Schema} {text kind : String} {places : List Schema}

/-- What a structural schema is made of. -/
inductive Form
  | plain
  | reference
  | array (item : Schema)
  | tuple (places : List Schema)
  | map (value : Schema)
  | record

/-- The form of a schema, if it is structural. -/
def form (c : Schema) : Form :=
  if c.reference.isSome then .reference
  else if c.isRecord then .record
  else match c.items with
    | some (.single item) => .array item
    | some (.tuple places) => .tuple places
    | none =>
      match c.extraValue? with
      | some value => .map value
      | none => .plain

/-- Whether a definition is made of a schema of this form where it has no name. -/
def Form.isMade : Form → Bool
  | .tuple _ | .record => true
  | .plain | .reference | .array _ | .map _ => false

theorem HasKind.saysObject_array (h : c.HasKind "array") : c.saysObject = false := by
  have htypes : c.types = ["array"] := h.types.elim id fun h => absurd h.1 (by decide)
  simp [saysObject, htypes]

theorem HasKind.saysObject_object (h : c.HasKind "object") : c.saysObject = true := by
  rcases h.types with htypes | ⟨-, htypes⟩
  · simp [saysObject, h.format, h.intOrString, htypes]
  · simp [saysObject, h.format, h.intOrString, htypes]

theorem IsScalar.saysObject (h : c.IsScalar text) : c.saysObject = false := by
  obtain ⟨type, htypes, htext⟩ := h.text
  refine Bool.eq_false_iff.mpr fun hobject => ?_
  rw [Schema.saysObject, Bool.and_eq_true, Bool.and_eq_true, Option.isNone_iff_eq_none] at hobject
  obtain ⟨⟨hformat, -⟩, hnames⟩ := hobject
  -- without a format the type is in the table, and objects are not
  rw [Resolver.scalarText_of_unformatted htypes hformat] at htext
  obtain rfl : type = "object" := by simpa [htypes] using hnames
  exact absurd (htext.symm.trans Resolver.ofType?_object) (by simp)

theorem extraValue?_eq_none (h : c.hasAdditionalProperties = false) : c.extraValue? = none := by
  rw [extraValue?]
  rw [hasAdditionalProperties] at h
  rcases hextra : c.additionalProperties with _ | flag | value
  · rfl
  · rfl
  · rw [hextra] at h
    exact absurd h (by simp [Extra.isEnabled])

theorem form_of_parts (href : c.reference = none) (hrecord : c.isRecord = false) :
    c.form = match c.items with
      | some (.single item) => .array item
      | some (.tuple places) => .tuple places
      | none =>
        match c.extraValue? with
        | some value => .map value
        | none => .plain := by
  rw [form, href, hrecord]
  rfl

theorem IsPlain.isRecord (h : c.IsPlain text) : c.isRecord = false := by
  rw [Schema.isRecord]
  cases h with
  | scalar hs => rw [hs.saysObject, Bool.false_and]
  | empty he => simp [he.properties, he.allOf]
  | list hl => rw [hl.toHasKind.saysObject_array, Bool.false_and]

theorem IsPlain.reference (h : c.IsPlain text) : c.reference = none := by
  cases h with
  | scalar hs => exact hs.reference
  | empty he => exact he.toHasKind.reference
  | list hl => exact hl.toHasKind.reference

theorem IsPlain.form (h : c.IsPlain text) : c.form = .plain := by
  rw [form_of_parts h.reference h.isRecord, h.alone.items, extraValue?_eq_none h.alone.values]

theorem IsReference.form (h : c.IsReference) : c.form = .reference := by
  rw [Schema.form, if_pos h.reference]

theorem IsArray.form (h : c.IsArray (some item)) : c.form = .array item := by
  have hrecord : c.isRecord = false := by
    rw [Schema.isRecord, h.toHasKind.saysObject_array, Bool.false_and]
  rw [form_of_parts h.toHasKind.reference hrecord, h.items]
  rfl

theorem IsTuple.form (h : c.IsTuple places) : c.form = .tuple places := by
  have hrecord : c.isRecord = false := by
    rw [Schema.isRecord, h.toHasKind.saysObject_array, Bool.false_and]
  rw [form_of_parts h.toHasKind.reference hrecord, h.items]

theorem IsMap.form (h : c.IsMap value) : c.form = .map value := by
  have hrecord : c.isRecord = false := by simp [Schema.isRecord, h.properties, h.allOf]
  have hvalue : c.extraValue? = some value := by
    rw [extraValue?, h.values]
    rfl
  rw [form_of_parts h.toHasKind.reference hrecord, h.items, hvalue]

theorem IsRecord.isRecord (h : c.IsRecord) : c.isRecord = true := by
  rw [Schema.isRecord, h.toHasKind.saysObject_object, Bool.true_and, Bool.or_eq_true]
  exact h.declares.imp (by simp) (by simp)

theorem IsRecord.form (h : c.IsRecord) : c.form = .record := by
  rw [Schema.form, h.toHasKind.reference, h.isRecord]
  rfl

/-- The text of a plain type. -/
def plainText (c : Schema) : String :=
  (c.types.head?.bind c.scalarText).getD
    (if c.saysObject then Format.anyType else "[" ++ Format.anyType ++ "]")

/-- A plain type is written in one way. -/
theorem IsPlain.plainText (h : c.IsPlain text) : c.plainText = text := by
  rw [Schema.plainText]
  cases h with
  | scalar hs =>
    obtain ⟨type, htypes, htext⟩ := hs.text
    rw [htypes, List.head?_cons, Option.bind_some, htext, Option.getD_some]
  | empty he =>
    -- an object has no text of its own, with or without its type written out
    have hnone : c.types.head?.bind c.scalarText = none := by
      rcases he.types with htypes | ⟨-, htypes⟩
      · rw [htypes, List.head?_cons, Option.bind_some,
          Resolver.scalarText_of_unformatted htypes he.format]
        exact Resolver.ofType?_object
      · rw [htypes]
        rfl
    rw [hnone, he.toHasKind.saysObject_object]
    rfl
  | list hl =>
    have htypes : c.types = ["array"] := hl.types.elim id fun h => absurd h.1 (by decide)
    rw [htypes, List.head?_cons, Option.bind_some,
      Resolver.scalarText_of_unformatted htypes hl.format, Resolver.ofType?_array,
      hl.toHasKind.saysObject_array]
    rfl

end Schema

end KclModels
