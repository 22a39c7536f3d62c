import KclModels.Resolve

/-!
# How schemas get their types

One lemma for the whole of resolving: which of its ways a type came about, with the types of the
parts that it was made of. The other way around, what is known of a schema says which way it goes.
Later proofs go by these and do not look into resolving again.
-/

namespace KclModels.Resolver

variable {tr : Text.Transliteration}
variable {r : Resolver} {deref : Deref} {c : Schema} {t : TypeInfo} {anonymous required : Bool}
variable {type : String}

/-- The ways to a type of a schema that is no reference, of a type without structure. -/
inductive HasScalar (r : Resolver) (required : Bool) (c : Schema) : TypeInfo → Prop
  | byFormat {t : TypeInfo} : byFormat? c = some t → HasScalar r required c t
  | intOrString : byFormat? c = none → c.hints.intOrString = true →
      HasScalar r required c (Resolver.intOrString c)
  | byName {type : String} {t : TypeInfo} : byFormat? c = none → c.hints.intOrString = false →
      r.typeName c = .ok type → type ≠ "array" → type ≠ "object" → r.scalarOf c type = .ok t →
      HasScalar r required c (settle required t)

/-- A schema has a type of this name, and nothing beside it says otherwise. -/
structure Says (r : Resolver) (c : Schema) (type : String) : Prop where
  reference : c.reference = none
  format : byFormat? c = none
  intOrString : c.hints.intOrString = false
  typeName : r.typeName c = .ok type

theorem resolveItems_ok {items : Option (Items Schema)} {element : Option TypeInfo}
    (h : resolveItems r deref items = .ok element) :
    (items = none ∧ element = some .any) ∨
    (∃ item e, items = some (.single item) ∧ resolveWith r deref true false item = .ok e ∧
      element = some e) ∨
    ∃ places, items = some (.tuple places) ∧ element = none := by
  unfold resolveItems at h
  split at h
  · exact Or.inl ⟨rfl, (Except.ok.inj h).symm⟩
  · rename_i item
    obtain ⟨e, he, rfl⟩ := map_eq_ok.mp h
    exact Or.inr (Or.inl ⟨item, e, rfl, he, rfl⟩)
  · rename_i places
    exact Or.inr (Or.inr ⟨places, rfl, (Except.ok.inj h).symm⟩)

theorem resolveValue_ok {extra : Option (Extra Schema)} {value : Option TypeInfo}
    (h : resolveValue r deref extra = .ok value) :
    (∃ v e, extra = some (.schema v) ∧
      resolveWith r deref v.reference.isNone false v = .ok e ∧ value = some e) ∨
    ((∀ v, extra ≠ some (.schema v)) ∧ value = none) := by
  unfold resolveValue at h
  split at h
  · rename_i v
    obtain ⟨e, he, rfl⟩ := map_eq_ok.mp h
    exact Or.inl ⟨v, e, rfl, he, rfl⟩
  · rename_i hno
    exact Or.inr ⟨hno, (Except.ok.inj h).symm⟩

/-! ## Which way it goes -/

/-- What is left of resolving once a schema is known to say its type by name. -/
def byName [Text.Transliteration] (r : Resolver) (deref : Deref) (anonymous required : Bool)
    (c : Schema) (type : String) : Except TypeError TypeInfo :=
  if type = "array" then
    (fun element => settle required (sequenceOf c anonymous element)) <$>
      resolveItems r deref c.items
  else if type = "object" then
    if c.allOf.isEmpty then
      (fun value => settle required (r.objectWith c anonymous value)) <$>
        resolveValue r deref c.additionalProperties
    else .ok (settle required (r.composed c anonymous))
  else settle required <$> r.scalarOf c type

theorem resolveWith_of_reference {reference : String} (href : c.reference = some reference) :
    resolveWith r deref anonymous required c = deref anonymous required reference := by
  obtain ⟨keywords, properties, allOf, items, value, extraItems⟩ := c
  change keywords.reference = some reference at href
  rw [resolveWith]
  simp only [href]

theorem resolveWith_of_format (href : c.reference = none) (hf : byFormat? c = some t) :
    resolveWith r deref anonymous required c = .ok t := by
  obtain ⟨keywords, properties, allOf, items, value, extraItems⟩ := c
  change keywords.reference = none at href
  rw [resolveWith]
  simp only [href, hf]

theorem resolveWith_of_hint (href : c.reference = none) (hf : byFormat? c = none)
    (hh : c.hints.intOrString = true) :
    resolveWith r deref anonymous required c = .ok (intOrString c) := by
  obtain ⟨keywords, properties, allOf, items, value, extraItems⟩ := c
  change keywords.reference = none at href
  change keywords.hints.intOrString = true at hh
  rw [resolveWith]
  simp only [href, hf, hh, if_true]

theorem resolveWith_of_name (href : c.reference = none) (hf : byFormat? c = none)
    (hh : c.hints.intOrString = false) :
    resolveWith r deref anonymous required c =
      r.typeName c >>= r.byName deref anonymous required c := by
  obtain ⟨keywords, properties, allOf, items, value, extraItems⟩ := c
  change keywords.reference = none at href
  change keywords.hints.intOrString = false at hh
  rw [resolveWith]
  simp only [href, hf, hh, Bool.false_eq_true, if_false]
  refine congrArg (r.typeName _ >>= ·) (funext fun type => ?_)
  unfold byName
  dsimp only
  split
  · cases resolveItems r deref items <;> rfl
  · split
    · cases allOf with
      | nil => cases resolveValue r deref value <;> rfl
      | cons b rest => rfl
    · cases r.scalarOf _ type <;> rfl

/-! ## Where a type comes from -/

/-- How a type by name comes about: as the name says, of the types of the parts. -/
theorem byName_ok (h : r.byName deref anonymous required c type = .ok t) :
    (type ≠ "array" ∧ type ≠ "object" ∧ ∃ u, r.scalarOf c type = .ok u ∧ t = settle required u) ∨
    (type = "array" ∧ ∃ element, resolveItems r deref c.items = .ok element ∧
      t = settle required (sequenceOf c anonymous element)) ∨
    (type = "object" ∧ c.allOf ≠ [] ∧ t = settle required (r.composed c anonymous)) ∨
    (type = "object" ∧ c.allOf = [] ∧ ∃ value,
      resolveValue r deref c.additionalProperties = .ok value ∧
      t = settle required (r.objectWith c anonymous value)) := by
  -- the tests of the program, in its order: array, then object, then everything else
  unfold byName at h
  split at h
  · rename_i harray
    obtain ⟨element, helement, rfl⟩ := map_eq_ok.mp h
    exact Or.inr (Or.inl ⟨harray, element, helement, rfl⟩)
  rename_i harray
  split at h
  · rename_i hobject
    refine Or.inr (Or.inr ?_)
    split at h
    · rename_i hall
      obtain ⟨value, hvalue, rfl⟩ := map_eq_ok.mp h
      exact Or.inr ⟨hobject, List.isEmpty_iff.mp hall, value, hvalue, rfl⟩
    · rename_i hall
      exact Or.inl ⟨hobject, fun hnil => hall (List.isEmpty_iff.mpr hnil), (Except.ok.inj h).symm⟩
  · rename_i hobject
    obtain ⟨u, hu, rfl⟩ := map_eq_ok.mp h
    exact Or.inl ⟨harray, hobject, u, hu, rfl⟩

/-- **Where the type of a schema comes from.** -/
theorem resolveWith_ok (h : resolveWith r deref anonymous required c = .ok t) :
    (∃ reference, c.reference = some reference ∧ deref anonymous required reference = .ok t) ∨
    (c.reference = none ∧ HasScalar r required c t) ∨
    (Says r c "array" ∧ ∃ element, resolveItems r deref c.items = .ok element ∧
      t = settle required (sequenceOf c anonymous element)) ∨
    (Says r c "object" ∧ c.allOf ≠ [] ∧ t = settle required (r.composed c anonymous)) ∨
    (Says r c "object" ∧ c.allOf = [] ∧ ∃ value,
      resolveValue r deref c.additionalProperties = .ok value ∧
      t = settle required (r.objectWith c anonymous value)) := by
  cases href : c.reference with
  | some reference => exact Or.inl ⟨reference, rfl, (resolveWith_of_reference href).symm.trans h⟩
  | none =>
    refine Or.inr ?_
    cases hf : byFormat? c with
    | some u =>
      rw [resolveWith_of_format href hf, Except.ok.injEq] at h
      exact Or.inl ⟨rfl, h ▸ .byFormat hf⟩
    | none =>
      cases hh : c.hints.intOrString with
      | true =>
        rw [resolveWith_of_hint href hf hh, Except.ok.injEq] at h
        exact Or.inl ⟨rfl, h ▸ .intOrString hf hh⟩
      | false =>
        rw [resolveWith_of_name href hf hh] at h
        obtain ⟨type, htype, h⟩ := bind_eq_ok.mp h
        rcases byName_ok h with ⟨harray, hobject, u, hu, rfl⟩ | ⟨rfl, hsequence⟩ | ⟨rfl, hcomposed⟩ |
          ⟨rfl, hobject⟩
        · exact Or.inl ⟨rfl, .byName hf hh htype harray hobject hu⟩
        · exact Or.inr (Or.inl ⟨⟨href, hf, hh, htype⟩, hsequence⟩)
        · exact Or.inr (Or.inr (Or.inl ⟨⟨href, hf, hh, htype⟩, hcomposed⟩))
        · exact Or.inr (Or.inr (Or.inr ⟨⟨href, hf, hh, htype⟩, hobject⟩))

end KclModels.Resolver
