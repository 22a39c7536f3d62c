import KclModels.Proofs.Resolve.Kinds
import KclModels.Proofs.Schema.Composition

/-!
# Categories of types

The structural kind of a type follows from the keywords of the schema: an array says of what its
elements are or lists its places, an object declares something, describes its values or does neither.
The type of a reference is of the kind of the schema at its end, except that it is not one of a map:
it is known by a name, and what has a name counts as an object.
-/

namespace KclModels

variable {tr : Text.Transliteration}

namespace Format

/-- The text of a type that is no name: of a single value, or of an array or a map. -/
def IsBuiltIn (text : String) : Prop :=
  text ∈ ["str", "bool", "int", "float", intOrStringType] ∨ text.toList.head? = some '[' ∨
    text.toList.head? = some '\x7b'

theorem isBuiltIn_ofType {type text : String} (h : ofType? type = some text) : IsBuiltIn text := by
  refine .inl ?_
  unfold ofType? at h
  split at h
  case h_6 => exact absurd h (by simp)
  all_goals
    rw [← Option.some.inj h]
    decide

theorem isBuiltIn_ofFormat {type format text : String} (h : ofFormat? type format = some text) :
    IsBuiltIn text := by
  unfold ofFormat? at h
  simp only at h
  split at h
  · exact .inl (Option.some.inj h ▸ by decide)
  · split at h
    · exact .inl (Option.some.inj h ▸ by decide)
    · split at h
      · exact .inl (Option.some.inj h ▸ by decide)
      · exact isBuiltIn_ofType h

theorem IsBuiltIn.ne_empty {text : String} (h : IsBuiltIn text) : text ≠ "" := by
  rintro rfl
  exact absurd h (by unfold IsBuiltIn; decide)

theorem isBuiltIn_brackets (text : String) : IsBuiltIn ("[" ++ text ++ "]") := by
  refine .inr (.inl ?_)
  rw [String.append_assoc, String.toList_append]
  rfl

theorem isBuiltIn_braces (text : String) : IsBuiltIn ("\x7bstr:" ++ text ++ "\x7d") := by
  refine .inr (.inr ?_)
  rw [String.append_assoc, String.toList_append]
  rfl

end Format

/-- The type is written without the name of a schema. -/
structure TypeInfo.Written (t : TypeInfo) : Prop where
  package : t.package = ""
  text : Format.IsBuiltIn t.kclType

namespace Schema

variable {c d : Schema}

/-- The type of the schema is written out: no schema is declared for it. -/
structure Nameless (c : Schema) : Prop where
  reference : c.reference = none
  properties : c.properties = []
  allOf : c.allOf = []
  places : c.tupleItems? = none
  /-- An object describes its values, and has no items. -/
  object : c.saysObject = true → c.items = none ∧ c.extraValue?.isSome = true

/-- A schema that is no reference has a type name that says `array`. -/
def saysArray (c : Schema) : Bool :=
  (Resolver.byFormat? c).isNone && !c.hints.intOrString && c.types == ["array"]

/-- An object that declares nothing and describes its values. -/
def saysMap (c : Schema) : Bool := c.saysObject && !c.isRecord && c.extraValue?.isSome

/-- The kind of the type of a schema that is no reference. -/
def category (c : Schema) : Category :=
  if c.saysArray then if c.tupleItems?.isSome then .tuple else .array
  else if c.saysMap then .map
  else if c.isScalar then .primitive
  else .object

theorem isScalar_eq (c : Schema) : c.isScalar = (!c.saysObject && !c.saysArray) := rfl

theorem saysObject_of_saysArray (h : c.saysArray = true) : c.saysObject = false := by
  simp only [saysArray, Bool.and_eq_true, beq_iff_eq] at h
  simp [saysObject, h.2]

theorem saysArray_of_saysObject (h : c.saysObject = true) : c.saysArray = false := by
  rw [← Bool.not_eq_true]
  exact fun hlist => absurd (h.symm.trans (saysObject_of_saysArray hlist)) (by decide)

theorem isRecord_of_saysArray (h : c.saysArray = true) : c.isRecord = false := by
  rw [isRecord, saysObject_of_saysArray h, Bool.false_and]

theorem isScalar_of_saysArray (h : c.saysArray = true) : c.isScalar = false := by
  rw [isScalar_eq, h, Bool.not_true, Bool.and_false]

end Schema

namespace Resolver

variable {r : Resolver} {deref : Deref} {c d : Schema} {t : TypeInfo} {anonymous required : Bool}

/-- The type of a definition with the schema `c`, which ends at `d`. -/
structure TypedBy (c d : Schema) (t : TypeInfo) : Prop where
  tuple : t.tuple = (d.saysArray && d.tupleItems?.isSome)
  array : t.array = (d.saysArray && !d.tupleItems?.isSome)
  map : t.map = (c.reference.isNone && d.saysMap)
  primitive : t.primitive = d.isScalar
  complex : t.complex = (c.reference.isSome || d.isRecord)
  discriminated : t.discriminated = (d.saysObject && d.discriminator.isSome)

theorem Says.saysArray (h : Says r c "array") : c.saysArray = true := by
  have htypes : c.types = ["array"] := (says_types h (Or.inr rfl)).elim id fun h =>
    absurd h.1 (by decide)
  simp [Schema.saysArray, h.format, h.intOrString, htypes]

/-- A type without structure is no array. -/
theorem hasScalar_array (h : HasScalar r required c t) : t.array = false := by
  cases h with
  | byFormat hf =>
    obtain ⟨format, -, hu⟩ := Option.bind_eq_some_iff.mp hf
    obtain ⟨kclType, -, hu⟩ := Option.bind_eq_some_iff.mp hu
    rw [← Option.some.inj hu]
  | intOrString => rfl
  | @byName type u hf hi ht harray hobject hu =>
    show u.array = false
    unfold scalarOf at hu
    split at hu
    · rw [← Except.ok.inj hu]
      rfl
    · split at hu
      · rw [← Except.ok.inj hu]
      · simp at hu

theorem saysArray_of_isScalar (h : c.isScalar = true) : c.saysArray = false := by
  rw [Schema.isScalar_eq, Bool.and_eq_true, Bool.not_eq_true', Bool.not_eq_true'] at h
  exact h.2

theorem discriminated_objectOf [Text.Transliteration] (r : Resolver) (c : Schema)
    (anonymous : Bool) :
    (r.objectOf c anonymous).discriminated = c.discriminator.isSome := by
  unfold objectOf
  cases anonymous <;> rfl

theorem map_objectOf [Text.Transliteration] (r : Resolver) (c : Schema) (anonymous : Bool) :
    (r.objectOf c anonymous).map = false ∧ (r.objectOf c anonymous).array = false := by
  unfold objectOf
  cases anonymous <;> exact ⟨rfl, rfl⟩

/-- The type of an object that composes nothing. -/
theorem objectWith_flags (r : Resolver) (c : Schema) (v : Option TypeInfo) :
    (r.objectWith c false v).map = (c.properties.isEmpty && v.isSome) ∧
      (r.objectWith c false v).array = false ∧
      (r.objectWith c false v).discriminated = c.discriminator.isSome := by
  obtain ⟨hmap, harray⟩ := map_objectOf r c false
  have hdiscriminated := discriminated_objectOf r c false
  unfold objectWith withValues
  cases v <;> cases hp : c.properties.isEmpty <;>
    exact ⟨by first | exact hmap | rfl, harray, hdiscriminated⟩

/-- The values of an object have a type just if the schema gives a schema for them. -/
theorem isSome_resolveValue {v : Option TypeInfo}
    (h : resolveValue r deref c.additionalProperties = .ok v) :
    v.isSome = c.extraValue?.isSome := by
  rw [Schema.extraValue?]
  rcases resolveValue_ok h with ⟨value, e, hextra, -, rfl⟩ | ⟨hno, rfl⟩
  · rw [hextra]
    rfl
  · rcases hextra : c.additionalProperties with _ | flag | value
    · rfl
    · rfl
    · exact absurd hextra (hno value)

/-- Whether an array is a tuple, its keywords say; the type of its elements does not count. -/
theorem sequenceOf_flags {element : Option TypeInfo}
    (h : resolveItems r deref c.items = .ok element) :
    (sequenceOf c false element).tuple = c.tupleItems?.isSome ∧
      (sequenceOf c false element).array = !c.tupleItems?.isSome ∧
      (sequenceOf c false element).map = false ∧
      (sequenceOf c false element).discriminated = false := by
  rw [Schema.tupleItems?]
  rcases resolveItems_ok h with ⟨hitems, rfl⟩ | ⟨item, e, hitems, -, rfl⟩ | ⟨places, hitems, rfl⟩ <;>
    (rw [hitems]; exact ⟨rfl, rfl, rfl, rfl⟩)

/-- **The type of a definition that is no reference** is of the kind that its keywords say. -/
theorem resolveWith_typedBy (href : c.reference = none)
    (h : resolveWith r deref false required c = .ok t) : TypedBy c c t := by
  obtain ⟨hcomplex, hprimitive⟩ := resolveWith_kind href h
  rw [← Bool.false_or c.isRecord] at hcomplex
  have hnone : c.reference.isSome = false ∧ c.reference.isNone = true := by rw [href]; exact ⟨rfl, rfl⟩
  rw [← hnone.1] at hcomplex
  rcases resolveWith_ok h with ⟨reference, hr, -⟩ | ⟨-, hs⟩ | ⟨hs, element, he, rfl⟩ |
    ⟨hs, hall, rfl⟩ | ⟨hs, hall, v, hv, rfl⟩
  · rw [href] at hr
    exact absurd hr (by simp)
  · obtain ⟨htuple, hmap, hdiscriminated⟩ := hasScalar_flat hs
    obtain ⟨-, -, hobject, hscalar⟩ := hasScalar_kind hs
    have hlist := saysArray_of_isScalar hscalar
    exact ⟨by rw [htuple, hlist]; rfl, by rw [hasScalar_array hs, hlist]; rfl,
      by rw [hmap, Schema.saysMap, hobject]; simp, hprimitive, hcomplex,
      by rw [hdiscriminated, hobject]; rfl⟩
  · have hlist := hs.saysArray
    have hobject := Schema.saysObject_of_saysArray hlist
    obtain ⟨htuple, harray, hmap, hdiscriminated⟩ := sequenceOf_flags he
    exact ⟨htuple.trans (by rw [hlist, Bool.true_and]), harray.trans (by rw [hlist, Bool.true_and]),
      hmap.trans (by rw [Schema.saysMap, hobject, Bool.false_and, Bool.false_and, Bool.and_false]),
      hprimitive, hcomplex, hdiscriminated.trans (by rw [hobject, Bool.false_and])⟩
  · have hobject := hs.saysObject
    have hlist := Schema.saysArray_of_saysObject hobject
    have hrecord : c.isRecord = true := by simp [Schema.isRecord, hobject, hall]
    obtain ⟨hmap, harray⟩ := map_objectOf r c false
    exact ⟨by rw [hlist, resolveWith_tuple href (Or.inl hobject) h]; rfl,
      by rw [hlist]; exact harray, hmap.trans (by simp [Schema.saysMap, hrecord]), hprimitive, hcomplex,
      by rw [hobject]; exact discriminated_objectOf r c false⟩
  · have hobject := hs.saysObject
    have hlist := Schema.saysArray_of_saysObject hobject
    have hrecord : c.isRecord = !c.properties.isEmpty := by simp [Schema.isRecord, hobject, hall]
    obtain ⟨hmap, harray, hdiscriminated⟩ := objectWith_flags r c v
    refine ⟨by rw [hlist, resolveWith_tuple href (Or.inl hobject) h]; rfl, by rw [hlist]; exact harray,
      ?_, hprimitive, hcomplex, by rw [hobject]; exact hdiscriminated⟩
    rw [hnone.2, Schema.saysMap, hobject, hrecord, Bool.not_not, ← isSome_resolveValue hv]
    exact hmap

/-- **The type of a definition** is of the kind that the schema at its end says. -/
theorem resolve_typedBy {defs : Definitions}
    (hkeeps : ∀ n d, defs.lookup n = some d → r.registry.get? n = some d) (hd : defs.Ends c d)
    (h : r.resolve c false required = .ok t) : TypedBy c d t := by
  cases href : c.reference with
  | none =>
    obtain rfl := hd.of_inline href
    exact resolveWith_typedBy href h
  | some reference =>
    obtain ⟨e, deref, known, t', he, ht', rfl⟩ := resolve_reference_ok href h
    obtain rfl := he.unique (hd.leads hkeeps href)
    obtain ⟨htuple, harray, -, hprimitive, -, hdiscriminated⟩ :=
      resolveWith_typedBy he.reference_eq_none ht'
    exact ⟨htuple, harray, by rw [href]; rfl, hprimitive, by rw [href]; rfl, hdiscriminated⟩

/-- The kind of the type of a definition: what is known by a name is no map. -/
def listedCategory (c d : Schema) : Category :=
  if c.reference.isSome && d.category == .map then .object else d.category

theorem TypedBy.category (h : TypedBy c d t) : t.category = listedCategory c d := by
  unfold TypeInfo.category listedCategory Schema.category
  rw [h.tuple, h.array, h.map, h.primitive]
  cases hlist : d.saysArray
  · cases hmap : d.saysMap <;> cases hscalar : d.isScalar <;> cases href : c.reference <;> simp
    -- a map is an object, and so no type without structure
    rw [Schema.saysMap, Bool.and_eq_true, Bool.and_eq_true] at hmap
    rw [Schema.isScalar_eq, hmap.1.1] at hscalar
    exact absurd hscalar (by simp)
  · cases hplaces : d.tupleItems?.isSome <;> simp

/-! ## Types that are written out -/

theorem intOrString_written (c : Schema) : (intOrString c).Written :=
  ⟨rfl, .inl (show Format.intOrStringType ∈ _ by decide)⟩

theorem hasScalar_written (h : HasScalar r required c t) : t.Written := by
  cases h with
  | byFormat hf =>
    obtain ⟨format, -, hu⟩ := Option.bind_eq_some_iff.mp hf
    obtain ⟨kclType, hk, hu⟩ := Option.bind_eq_some_iff.mp hu
    obtain rfl := Option.some.inj hu
    exact ⟨rfl, Format.isBuiltIn_ofFormat hk⟩
  | intOrString => exact intOrString_written c
  | @byName type u hf hi ht harray hobject hu =>
    have hwritten : u.Written := by
      unfold scalarOf at hu
      split at hu
      · rw [← Except.ok.inj hu]
        exact intOrString_written c
      · split at hu
        · rename_i hk
          rw [← Except.ok.inj hu]
          exact ⟨rfl, Format.isBuiltIn_ofType hk⟩
        · exact absurd hu (by simp)
    exact ⟨hwritten.package, hwritten.text⟩

/-- The type of a map is written with that of its values. -/
theorem objectWith_written (r : Resolver) (v : TypeInfo) (h : c.properties = []) :
    (r.objectWith c false (some v)).Written := by
  rw [objectWith, h]
  exact ⟨rfl, Format.isBuiltIn_braces v.kclType⟩

theorem resolve_written (hc : c.Nameless) (h : r.resolve c anonymous required = .ok t)
    (hnamed : anonymous = false) : t.Written := by
  subst hnamed
  rcases resolveWith_ok h with ⟨reference, hr, -⟩ | ⟨-, hs⟩ | ⟨hs, element, he, rfl⟩ |
    ⟨-, hall, -⟩ | ⟨hs, -, v, hv, rfl⟩
  · exact absurd (hc.reference.symm.trans hr) (by simp)
  · exact hasScalar_written hs
  · rcases resolveItems_ok he with ⟨-, rfl⟩ | ⟨item, e, -, -, rfl⟩ | ⟨places, hitems, rfl⟩
    · exact ⟨rfl, Format.isBuiltIn_brackets _⟩
    · exact ⟨rfl, Format.isBuiltIn_brackets _⟩
    · have hnone := hc.places
      rw [Schema.tupleItems?, hitems] at hnone
      exact absurd hnone (by simp)
  · exact absurd hc.allOf hall
  · rcases resolveValue_ok hv with ⟨value, e, -, -, rfl⟩ | ⟨hno, rfl⟩
    · obtain ⟨hpackage, htext⟩ := objectWith_written r e hc.properties
      exact ⟨hpackage, htext⟩
    · -- an object that describes no values would be declared
      obtain ⟨-, hvalue⟩ := hc.object hs.saysObject
      rw [Schema.extraValue?] at hvalue
      rcases hextra : c.additionalProperties with _ | flag | value
      · rw [hextra] at hvalue
        exact absurd hvalue (by simp)
      · rw [hextra] at hvalue
        exact absurd hvalue (by simp [Extra.schema?])
      · exact absurd hextra (hno value)

end Resolver

end KclModels
