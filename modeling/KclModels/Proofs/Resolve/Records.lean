import KclModels.Proofs.Resolve.References

/-!
# Records

Whether a type is one of an object that declares something, and whether it is a type without
structure, depends on the keywords of the schema alone: on neither the definitions that are known nor
the place. For a reference it depends on the schema at the end of the chain.
-/

namespace KclModels

variable {tr : Text.Transliteration}

namespace Schema

/-- A schema that is no reference has a type name that says `object`. -/
def saysObject (c : Schema) : Bool :=
  (Resolver.byFormat? c).isNone && !c.hints.intOrString && (c.types == [] || c.types == ["object"])

/-- An object that declares something, as its type has it. -/
def isRecord (c : Schema) : Bool := c.saysObject && (!c.properties.isEmpty || !c.allOf.isEmpty)

/-- The schema is that of an object that declares something, and has no name. -/
def isInline (c : Schema) : Bool := c.reference.isNone && c.isRecord

/-- A schema that is no reference has a type without structure. -/
def isScalar (c : Schema) : Bool := !c.saysObject && !((Resolver.byFormat? c).isNone &&
  !c.hints.intOrString && c.types == ["array"])

end Schema

namespace Resolver

variable {r : Resolver} {deref : Deref} {c d : Schema} {t : TypeInfo} {anonymous required : Bool}

theorem hasScalar_kind (h : HasScalar r required c t) :
    t.complex = false ∧ t.primitive = true ∧ c.saysObject = false ∧ c.isScalar = true := by
  cases h with
  | byFormat hf =>
    have hkind : t.complex = false ∧ t.primitive = true := by
      obtain ⟨format, -, hu⟩ := Option.bind_eq_some_iff.mp hf
      obtain ⟨kclType, -, hu⟩ := Option.bind_eq_some_iff.mp hu
      rw [← Option.some.inj hu]
      exact ⟨rfl, rfl⟩
    exact ⟨hkind.1, hkind.2, by simp [Schema.saysObject, hf],
      by simp [Schema.isScalar, Schema.saysObject, hf]⟩
  | intOrString _ hi =>
    exact ⟨rfl, rfl, by simp [Schema.saysObject, hi],
      by simp [Schema.isScalar, Schema.saysObject, hi]⟩
  | @byName type u hf hi ht harray hobject hu =>
    have hkind : u.complex = false ∧ u.primitive = true := by
      unfold scalarOf at hu
      split at hu
      · rw [← Except.ok.inj hu]
        exact ⟨rfl, rfl⟩
      · split at hu
        · rw [← Except.ok.inj hu]
          exact ⟨rfl, rfl⟩
        · simp at hu
    -- no type and `object` are the name of an object, `array` is that of an array
    have htypes : c.types ≠ [] ∧ c.types ≠ ["object"] ∧ c.types ≠ ["array"] := by
      refine ⟨fun h => hobject ?_, fun h => hobject ?_, fun h => harray ?_⟩
      all_goals
        rw [typeName, h] at ht
        exact (Except.ok.inj ht).symm
    exact ⟨hkind.1, hkind.2, by simp [Schema.saysObject, htypes],
      by simp [Schema.isScalar, Schema.saysObject, htypes]⟩

/-- A type without structure is neither a tuple nor a map, and has no discriminator. -/
theorem hasScalar_flat (h : HasScalar r required c t) :
    t.tuple = false ∧ t.map = false ∧ t.discriminated = false := by
  cases h with
  | byFormat hf =>
    obtain ⟨format, -, hu⟩ := Option.bind_eq_some_iff.mp hf
    obtain ⟨kclType, -, hu⟩ := Option.bind_eq_some_iff.mp hu
    rw [← Option.some.inj hu]
    exact ⟨rfl, rfl, rfl⟩
  | intOrString => exact ⟨rfl, rfl, rfl⟩
  | @byName type u hf hi ht harray hobject hu =>
    show u.tuple = false ∧ u.map = false ∧ u.discriminated = false
    unfold scalarOf at hu
    split at hu
    · rw [← Except.ok.inj hu]
      exact ⟨rfl, rfl, rfl⟩
    · split at hu
      · rw [← Except.ok.inj hu]
        exact ⟨rfl, rfl, rfl⟩
      · simp at hu

theorem says_types {kind : String} (h : Says r c kind) (hk : kind = "object" ∨ kind = "array") :
    c.types = [kind] ∨ (kind = "object" ∧ c.types = []) := by
  have hname := h.typeName
  unfold typeName at hname
  split at hname
  · rename_i hnil
    exact Or.inr ⟨(Except.ok.inj hname).symm, hnil⟩
  · rename_i hone
    rw [← Except.ok.inj hname]
    exact Or.inl hone
  · split at hname
    · rcases hk with rfl | rfl
      · exact absurd (Except.ok.inj hname) (by decide)
      · exact absurd (Except.ok.inj hname) (by decide)
    · simp at hname
  · simp at hname

theorem Says.saysObject (h : Says r c "object") : c.saysObject = true := by
  rcases says_types h (Or.inl rfl) with ht | ⟨-, ht⟩
  · simp [Schema.saysObject, h.format, h.intOrString, ht]
  · simp [Schema.saysObject, h.format, h.intOrString, ht]

theorem objectWith_complex [Text.Transliteration] (r : Resolver) (c : Schema) (anonymous : Bool)
    (v : Option TypeInfo) :
    (r.objectWith c anonymous v).complex = !c.properties.isEmpty ∧
      (r.objectWith c anonymous v).primitive = false := by
  have hobject : (r.objectOf c anonymous).complex = false ∧
      (r.objectOf c anonymous).primitive = false := by
    unfold objectOf
    cases anonymous <;> exact ⟨rfl, rfl⟩
  unfold objectWith
  cases hp : c.properties.isEmpty <;> cases v
  · exact ⟨rfl, hobject.2⟩
  · exact ⟨rfl, hobject.2⟩
  · cases anonymous <;> exact hobject
  · exact hobject

/-- **What a type is, its schema says.** -/
theorem resolveWith_kind (href : c.reference = none)
    (h : resolveWith r deref anonymous required c = .ok t) :
    t.complex = c.isRecord ∧ t.primitive = c.isScalar := by
  rcases resolveWith_ok h with ⟨reference, hr, -⟩ | ⟨-, hs⟩ | ⟨hs, element, -, rfl⟩ |
    ⟨hs, hall, rfl⟩ | ⟨hs, hall, v, -, rfl⟩
  · rw [href] at hr
    exact absurd hr (by simp)
  · obtain ⟨hcomplex, hprimitive, hobject, hscalar⟩ := hasScalar_kind hs
    rw [hcomplex, hprimitive, hscalar, Schema.isRecord, hobject, Bool.false_and]
    exact ⟨rfl, rfl⟩
  · -- only a schema that says so is an array
    have htypes : c.types = ["array"] := (says_types hs (Or.inr rfl)).elim id fun h =>
      absurd h.1 (by decide)
    have hobject : c.saysObject = false := by simp [Schema.saysObject, htypes]
    rw [Schema.isRecord, Schema.isScalar, hobject, hs.format, hs.intOrString, htypes]
    cases element <;> exact ⟨rfl, rfl⟩
  · have hall' : c.allOf.isEmpty = false := by simpa using hall
    rw [Schema.isRecord, Schema.isScalar, hs.saysObject, hall']
    refine ⟨by simp [settle, composed], ?_⟩
    unfold settle composed objectOf
    cases anonymous <;> rfl
  · obtain ⟨hcomplex, hprimitive⟩ := objectWith_complex r c anonymous v
    rw [Schema.isRecord, Schema.isScalar, hs.saysObject, hall, settle]
    exact ⟨by simp [hcomplex], by simp [hprimitive]⟩

/-- The type of a reference comes from that of the schema at its end. -/
theorem resolve_reference_ok {reference : String} (href : c.reference = some reference)
    (h : r.resolve c anonymous required = .ok t) :
    ∃ d deref known t', r.registry.Leads reference d ∧
      resolveWith r deref false required d = .ok t' ∧ t = ofTarget known anonymous t' := by
  rw [resolve_of_reference href] at h
  have hknown : ∀ {known}, r.knownAs reference = .ok known → r.registry.definitions ≠ [] := by
    intro known hk hnil
    obtain ⟨n, d, -, hd, -⟩ := knownAs_ok hk
    rw [Registry.get?, hnil] at hd
    exact absurd hd (by simp)
  cases hlen : r.registry.definitions.length with
  | zero =>
    rw [hlen] at h
    obtain ⟨known, hk, -⟩ := meetAgain_ok h
    exact absurd (List.length_eq_zero_iff.mp hlen) (hknown hk)
  | succ unvisited =>
    rw [hlen, derefIn, if_neg (by simp)] at h
    obtain ⟨known, d, t', -, hd, ht', rfl⟩ := enter_ok h
    exact ⟨d, _, known, t', Registry.resolve_leads hd, ht', rfl⟩

/-- A reference has the kind of type that the schema at its end says. -/
theorem resolve_reference_kind {reference : String} (href : c.reference = some reference)
    (h : r.resolve c true required = .ok t) :
    ∃ d, r.registry.Leads reference d ∧ t.complex = d.isRecord ∧ t.primitive = d.isScalar := by
  obtain ⟨d, deref, known, t', hleads, ht', rfl⟩ := resolve_reference_ok href h
  obtain ⟨hcomplex, hprimitive⟩ := resolveWith_kind hleads.reference_eq_none ht'
  exact ⟨d, hleads, hcomplex, hprimitive⟩

/-- No object and no type without structure is a tuple. -/
theorem resolveWith_tuple (href : c.reference = none)
    (hkind : c.saysObject = true ∨ c.isScalar = true)
    (h : resolveWith r deref anonymous required c = .ok t) : t.tuple = false := by
  rcases resolveWith_ok h with ⟨reference, hr, -⟩ | ⟨-, hs⟩ | ⟨hs, -⟩ | ⟨-, -, rfl⟩ |
    ⟨-, -, v, -, rfl⟩
  · rw [href] at hr
    exact absurd hr (by simp)
  · exact (hasScalar_flat hs).1
  · have htypes : c.types = ["array"] := (says_types hs (Or.inr rfl)).elim id fun h =>
      absurd h.1 (by decide)
    have hobject : c.saysObject = false := by simp [Schema.saysObject, htypes]
    rw [Schema.isScalar, hobject, hs.format, hs.intOrString, htypes] at hkind
    exact absurd hkind (by simp)
  · unfold settle composed objectOf
    cases anonymous <;> rfl
  · unfold settle objectWith objectOf
    cases anonymous <;> cases v <;> cases c.properties.isEmpty <;> rfl

/-- A reference to an object or to a type without structure is no tuple. -/
theorem resolve_reference_tuple {reference : String} (href : c.reference = some reference)
    (hd : r.registry.Leads reference d) (hkind : d.saysObject = true ∨ d.isScalar = true)
    (h : r.resolve c anonymous required = .ok t) : t.tuple = false := by
  obtain ⟨e, deref, known, t', hleads, ht', rfl⟩ := resolve_reference_ok href h
  obtain rfl := hleads.unique hd
  have htuple := resolveWith_tuple hd.reference_eq_none hkind ht'
  unfold ofTarget
  cases anonymous <;> exact htuple

/-- A schema that is no reference and has the type of a tuple lists the places of one. -/
theorem resolveWith_places (href : c.reference = none)
    (h : resolveWith r deref anonymous required c = .ok t) (htuple : t.tuple = true) :
    ∃ places, c.items = some (.tuple places) := by
  rcases resolveWith_ok h with ⟨reference, hr, -⟩ | ⟨-, hs⟩ | ⟨-, element, he, rfl⟩ |
    ⟨hs, -⟩ | ⟨hs, -⟩
  · rw [href] at hr
    exact absurd hr (by simp)
  · rw [(hasScalar_flat hs).1] at htuple
    exact absurd htuple (by simp)
  · rcases resolveItems_ok he with ⟨-, rfl⟩ | ⟨_, e, -, -, rfl⟩ | ⟨places, hitems, -⟩
    · exact absurd htuple (by simp [settle, sequenceOf, arrayOf])
    · exact absurd htuple (by simp [settle, sequenceOf, arrayOf])
    · exact ⟨places, hitems⟩
  · rw [resolveWith_tuple href (Or.inl hs.saysObject) h] at htuple
    exact absurd htuple (by simp)
  · rw [resolveWith_tuple href (Or.inl hs.saysObject) h] at htuple
    exact absurd htuple (by simp)

/-- A schema that is no reference and has the type of a map is an object that declares nothing. -/
theorem object_of_map (href : c.reference = none)
    (h : resolveWith r deref anonymous required c = .ok t) (hmap : t.map = true) :
    c.saysObject = true ∧ c.allOf = [] ∧ c.properties = [] := by
  rcases resolveWith_ok h with ⟨reference, hr, -⟩ | ⟨-, hs⟩ | ⟨-, element, -, rfl⟩ |
    ⟨-, -, rfl⟩ | ⟨hs, hall, v, -, rfl⟩
  · rw [href] at hr
    exact absurd hr (by simp)
  · rw [(hasScalar_flat hs).2.1] at hmap
    exact absurd hmap (by simp)
  · cases element <;> exact absurd hmap (by simp [settle, sequenceOf, arrayOf, tupleOf])
  · have hflat : (settle required (r.composed c anonymous)).map = false := by
      unfold settle composed objectOf
      cases anonymous <;> rfl
    rw [hflat] at hmap
    exact absurd hmap (by simp)
  · refine ⟨hs.saysObject, hall, ?_⟩
    -- with properties of its own it would be no map
    by_contra hne
    have hproperties : c.properties.isEmpty = false := by simpa using hne
    have hflat : (settle required (r.objectWith c anonymous v)).map = false := by
      unfold settle objectWith withValues objectOf
      cases v <;> cases anonymous <;> simp [hproperties, DeclaredType.apply]
    rw [hflat] at hmap
    exact absurd hmap (by simp)

/-- An object that is asked for without a name has none, and it is no array. -/
theorem resolve_saysObject (href : c.reference = none) (hobject : c.saysObject = true)
    (h : r.resolve c true required = .ok t) : t.anonymous = true ∧ t.array = false := by
  rcases resolveWith_ok h with ⟨reference, hr, -⟩ | ⟨-, hs⟩ | ⟨hs, -⟩ | ⟨-, -, rfl⟩ |
    ⟨-, -, v, -, rfl⟩
  · rw [href] at hr
    exact absurd hr (by simp)
  · rw [(hasScalar_kind hs).2.2.1] at hobject
    exact absurd hobject (by simp)
  · have htypes : c.types = ["array"] := (says_types hs (Or.inr rfl)).elim id fun h =>
      absurd h.1 (by decide)
    rw [Schema.saysObject, htypes] at hobject
    exact absurd hobject (by simp)
  · exact ⟨rfl, rfl⟩
  · refine ⟨objectWith_anonymous r c v, ?_⟩
    unfold settle objectWith
    cases v <;> cases c.properties.isEmpty <;> rfl

/-- An object that declares something has the type that the definition it is part of declares. -/
theorem resolve_record_kclType (href : c.reference = none) (hrecord : c.isRecord = true)
    (h : r.resolve c false required = .ok t) : t.kclType = c.declaredName r.modelName := by
  rw [Schema.isRecord, Bool.and_eq_true] at hrecord
  have hobject : (r.objectOf c false).kclType = c.declaredName r.modelName :=
    r.declared_kclType r.modelName c
  rcases resolveWith_ok h with ⟨reference, hr, -⟩ | ⟨-, hs⟩ | ⟨hs, -⟩ | ⟨-, -, rfl⟩ |
    ⟨-, hall, v, -, rfl⟩
  · exact absurd (href.symm.trans hr) (by simp)
  · exact absurd ((hasScalar_kind hs).2.2.1.symm.trans hrecord.1) (by decide)
  · have htypes : c.types = ["array"] := (says_types hs (Or.inr rfl)).elim id fun h =>
      absurd h.1 (by decide)
    rw [Schema.saysObject, htypes] at hrecord
    exact absurd hrecord.1 (by simp)
  · exact hobject
  · -- without branches the object has properties, and those leave it its name
    have hproperties : c.properties.isEmpty = false := by simpa [hall] using hrecord.2
    refine Eq.trans ?_ hobject
    unfold settle objectWith withValues
    rw [hproperties]
    cases v <;> rfl

/-- A part has a type without a name just if it is an inline object that declares something. -/
theorem complex_anonymous_eq (hplace : anonymous = c.reference.isNone ∨ anonymous = true)
    (h : r.resolve c anonymous required = .ok t) : (t.complex && t.anonymous) = c.isInline := by
  cases href : c.reference with
  | some reference =>
    rw [resolve_named (.inl (by rw [href]; rfl)) h, Schema.isInline, href, Bool.and_false]
    rfl
  | none =>
    obtain rfl : anonymous = true := hplace.elim (fun h => h.trans (by rw [href]; rfl)) id
    rw [Schema.isInline, (resolveWith_kind href h).1, href, Option.isNone_none, Bool.true_and]
    cases hobject : c.saysObject with
    | false => rw [Schema.isRecord, hobject, Bool.false_and, Bool.false_and]
    | true => rw [(resolve_saysObject href hobject h).1, Bool.and_true]

/-- Only an object with a discriminator has a type with one. -/
theorem resolveWith_discriminated (href : c.reference = none)
    (h : resolveWith r deref anonymous required c = .ok t) (hdisc : t.discriminated = true) :
    c.discriminator.isSome = true := by
  rcases resolveWith_ok h with ⟨reference, hr, -⟩ | ⟨-, hs⟩ | ⟨-, element, -, rfl⟩ |
    ⟨-, -, rfl⟩ | ⟨-, -, v, -, rfl⟩
  · rw [href] at hr
    exact absurd hr (by simp)
  · rw [(hasScalar_flat hs).2.2] at hdisc
    exact absurd hdisc (by simp)
  · cases element <;> exact absurd hdisc (by simp [settle, sequenceOf, arrayOf, tupleOf])
  · rw [← hdisc]
    unfold settle composed objectOf
    cases anonymous <;> rfl
  · rw [← hdisc]
    unfold settle objectWith objectOf
    cases anonymous <;> cases v <;> cases c.properties.isEmpty <;> rfl

/-- Only a reference to an object with a discriminator has a type with one. -/
theorem resolve_reference_discriminated {reference : String} (href : c.reference = some reference)
    (h : r.resolve c anonymous required = .ok t) (hdisc : t.discriminated = true) :
    ∃ d, r.registry.Leads reference d ∧ d.discriminator.isSome = true := by
  obtain ⟨d, deref, known, t', hleads, ht', rfl⟩ := resolve_reference_ok href h
  refine ⟨d, hleads, resolveWith_discriminated hleads.reference_eq_none ht' ?_⟩
  rw [← hdisc]
  unfold ofTarget
  cases anonymous <;> rfl

end Resolver

end KclModels
