import KclModels.Proofs.Registry.Renaming
import KclModels.Proofs.Resolve.Cases
import KclModels.Proofs.Resolve.Errors

/-!
# Types under other names

In registries that mirror each other counterparts have types that differ in names only: what a type
is declared as depends on the name of its definition, and nothing else does. If a schema has no type,
its counterpart has none for the same reason, though maybe at another place.
-/

namespace KclModels

open Registry

variable {tr : Text.Transliteration}

/-- Both computations end well with results in `Q`, or both fail with errors in `E`. -/
inductive Coincide {ε ε' α β : Type} (E : ε → ε' → Prop) (Q : α → β → Prop) :
    Except ε α → Except ε' β → Prop
  | ok {a : α} {b : β} : Q a b → Coincide E Q (.ok a) (.ok b)
  | error {e : ε} {e' : ε'} : E e e' → Coincide E Q (.error e) (.error e')

namespace Coincide

variable {ε ε' α β γ δ : Type} {E : ε → ε' → Prop} {Q : α → β → Prop} {P : γ → δ → Prop}
variable {x : Except ε α} {y : Except ε' β}

theorem bind {k : α → Except ε γ} {k' : β → Except ε' δ} (h : Coincide E Q x y)
    (hk : ∀ a b, Q a b → Coincide E P (k a) (k' b)) : Coincide E P (x >>= k) (y >>= k') := by
  cases h with
  | ok h => exact hk _ _ h
  | error h => exact .error h

theorem map {k : α → γ} {k' : β → δ} (h : Coincide E Q x y) (hk : ∀ a b, Q a b → P (k a) (k' b)) :
    Coincide E P (k <$> x) (k' <$> y) := by
  cases h with
  | ok h => exact .ok (hk _ _ h)
  | error h => exact .error h

end Coincide

/-- The types differ in names, and in what may be absent, only. -/
structure TypeInfo.Matches (t t' : TypeInfo) : Prop where
  anonymous : t'.anonymous = t.anonymous
  array : t'.array = t.array
  map : t'.map = t.map
  tuple : t'.tuple = t.tuple
  primitive : t'.primitive = t.primitive
  complex : t'.complex = t.complex
  baseType : t'.baseType = t.baseType
  discriminated : t'.discriminated = t.discriminated

theorem TypeInfo.Matches.refl (t : TypeInfo) : t.Matches t := ⟨rfl, rfl, rfl, rfl, rfl, rfl, rfl, rfl⟩

/-- The errors are the same but for the place: `path` here and `path'` there. -/
inductive TypeError.Moved (path path' : String) : TypeError → TypeError → Prop
  | reference (e : ReferenceError) : Moved path path' (.reference e) (.reference e)
  | unsupported (types : List String) (format : Option String) :
      Moved path path' (.unsupported path types format) (.unsupported path' types format)

namespace Resolver

variable {r r' : Resolver} {w : String → String} {docs : List String} {c : Schema}
variable {anonymous : Bool} {deref deref' : Deref} {t t' : TypeInfo}

/-! ## Types that match -/

theorem settle_matches (h : t.Matches t') (required required' : Bool) :
    (settle required t).Matches (settle required' t') :=
  ⟨h.anonymous, h.array, h.map, h.tuple, h.primitive, h.complex, h.baseType, h.discriminated⟩

theorem apply_matches (h : t.Matches t') (d d' : DeclaredType) : (d.apply t).Matches (d'.apply t') :=
  ⟨h.anonymous, h.array, h.map, h.tuple, h.primitive, h.complex, h.baseType, h.discriminated⟩

theorem objectOf_matches [Text.Transliteration] (r r' : Resolver) (c : Schema) (anonymous : Bool) :
    (r.objectOf c anonymous).Matches (r'.objectOf (c.rename w) anonymous) := by
  unfold objectOf
  rw [Schema.discriminator_rename]
  split
  · exact .refl _
  · exact apply_matches (.refl _) _ _

theorem composed_matches (r r' : Resolver) (c : Schema) (anonymous : Bool) :
    (r.composed c anonymous).Matches (r'.composed (c.rename w) anonymous) := by
  have h := objectOf_matches (w := w) r r' c anonymous
  exact ⟨h.anonymous, h.array, h.map, h.tuple, h.primitive, rfl, h.baseType, h.discriminated⟩

theorem ofTarget_matches (h : t.Matches t') (known known' : DeclaredType) (anonymous : Bool) :
    (ofTarget known anonymous t).Matches (ofTarget known' anonymous t') := by
  unfold ofTarget
  cases anonymous with
  | true =>
    exact ⟨h.anonymous, h.array, h.map, h.tuple, h.primitive, h.complex, h.discriminated,
      h.discriminated⟩
  | false =>
    exact ⟨h.anonymous, h.array, rfl, h.tuple, h.primitive, rfl, h.discriminated, h.discriminated⟩

/-- The types of parts match, if there are any. -/
def OptionMatches : Option TypeInfo → Option TypeInfo → Prop
  | some t, some t' => t.Matches t'
  | none, none => True
  | _, _ => False

theorem sequenceOf_matches {element element' : Option TypeInfo} (h : OptionMatches element element')
    (c c' : Schema) (anonymous : Bool) :
    (sequenceOf c anonymous element).Matches (sequenceOf c' anonymous element') := by
  cases element <;> cases element'
  · exact ⟨rfl, rfl, rfl, rfl, rfl, rfl, rfl, rfl⟩
  · exact h.elim
  · exact h.elim
  · exact ⟨rfl, rfl, rfl, rfl, rfl, rfl, rfl, rfl⟩

theorem objectWith_matches {value value' : Option TypeInfo} (h : OptionMatches value value')
    (r r' : Resolver) (c : Schema) (anonymous : Bool) :
    (r.objectWith c anonymous value).Matches (r'.objectWith (c.rename w) anonymous value') := by
  have ht := objectOf_matches (w := w) r r' c anonymous
  -- renaming keeps whether there are properties, and only that is asked
  have hproperties : (c.rename w).properties.isEmpty = c.properties.isEmpty := by
    rw [Schema.properties_rename, List.isEmpty_map]
  generalize hu : r.objectOf c anonymous = u at ht
  generalize hu' : r'.objectOf (c.rename w) anonymous = u' at ht
  obtain ⟨hanonymous, harray, hmap, htuple, hprimitive, hcomplex, hbase, hdiscriminated⟩ := ht
  cases value <;> cases value'
  · unfold objectWith
    rw [hproperties, hu, hu']
    cases c.properties.isEmpty <;> cases anonymous
    · exact ⟨hanonymous, harray, hmap, htuple, hprimitive, rfl, hbase, hdiscriminated⟩
    · exact ⟨hanonymous, harray, hmap, htuple, hprimitive, rfl, hbase, hdiscriminated⟩
    · exact ⟨hanonymous, harray, hmap, htuple, hprimitive, hcomplex, hbase, hdiscriminated⟩
    · exact ⟨hanonymous, harray, rfl, htuple, hprimitive, hcomplex, hbase, hdiscriminated⟩
  · exact h.elim
  · exact h.elim
  · unfold objectWith withValues
    rw [hproperties, hu, hu']
    cases c.properties.isEmpty
    · exact ⟨hanonymous, harray, hmap, htuple, hprimitive, rfl, hbase, hdiscriminated⟩
    · exact ⟨hanonymous, harray, rfl, htuple, hprimitive, hcomplex, hbase, hdiscriminated⟩

/-! ## Schemas without references -/

theorem byFormat?_rename : byFormat? (c.rename w) = byFormat? c := by
  unfold byFormat?
  rw [Schema.format_rename, Schema.types_rename]

theorem unsupported_moved (r r' : Resolver) (c : Schema) :
    TypeError.Moved r.path r'.path (r.unsupported c) (r'.unsupported (c.rename w)) := by
  rw [unsupported, unsupported, Schema.types_rename, Schema.format_rename]
  exact .unsupported c.types c.format

theorem typeName_coincide (r r' : Resolver) (c : Schema) :
    Coincide (TypeError.Moved r.path r'.path) Eq (r.typeName c) (r'.typeName (c.rename w)) := by
  have herror := unsupported_moved (w := w) r r' c
  unfold typeName
  rw [Schema.types_rename]
  split
  · exact .ok rfl
  · exact .ok rfl
  · split
    · exact .ok rfl
    · exact .error herror
  · exact .error herror

theorem scalarOf_coincide (r r' : Resolver) (c : Schema) (type : String) :
    Coincide (TypeError.Moved r.path r'.path) TypeInfo.Matches (r.scalarOf c type)
      (r'.scalarOf (c.rename w) type) := by
  unfold scalarOf
  split
  · exact .ok ⟨rfl, rfl, rfl, rfl, rfl, rfl, rfl, rfl⟩
  · split
    · exact .ok (.refl _)
    · exact .error (unsupported_moved r r' c)

/-! ## All schemas -/

/-- References are resolved to types that match. -/
def DerefMatches (w : String → String) (r r' : Resolver) (deref deref' : Deref) : Prop :=
  ∀ anonymous required required' reference, r.registry.Reaches reference →
    Coincide (TypeError.Moved r.path r'.path) TypeInfo.Matches (deref anonymous required reference)
      (deref' anonymous required' (Reference.rename w reference))

/-- The types of elements match, if those of the items do. -/
theorem resolveItems_coincide
    (h : ∀ item, c.items = some (.single item) →
      Coincide (TypeError.Moved r.path r'.path) TypeInfo.Matches (resolveWith r deref true false item)
        (resolveWith r' deref' true false (item.rename w))) :
    Coincide (TypeError.Moved r.path r'.path) OptionMatches (resolveItems r deref c.items)
      (resolveItems r' deref' (c.rename w).items) := by
  rw [Schema.items_rename]
  cases hitems : c.items with
  | none => exact .ok (.refl _)
  | some items =>
    cases items with
    | single item => exact (h item hitems).map fun _ _ hmatch => hmatch
    | tuple places => exact .ok trivial

/-- The types of values match, if those of the schema for them do. -/
theorem resolveValue_coincide
    (h : ∀ v anonymous, c.additionalProperties = some (.schema v) →
      Coincide (TypeError.Moved r.path r'.path) TypeInfo.Matches
        (resolveWith r deref anonymous false v) (resolveWith r' deref' anonymous false (v.rename w))) :
    Coincide (TypeError.Moved r.path r'.path) OptionMatches (resolveValue r deref c.additionalProperties)
      (resolveValue r' deref' (c.rename w).additionalProperties) := by
  rw [Schema.additionalProperties_rename]
  cases hvalue : c.additionalProperties with
  | none => exact .ok trivial
  | some extra =>
    cases extra with
    | flag _ => exact .ok trivial
    | schema v =>
      -- a value is anonymous unless it is a reference, and its counterpart is one just as well
      have hnone : (v.rename w).reference.isNone = v.reference.isNone := by
        rw [Schema.reference_rename, Option.isNone_map]
      show Coincide _ OptionMatches (some <$> resolveWith r deref _ false v)
        (some <$> resolveWith r' deref' (v.rename w).reference.isNone false (v.rename w))
      rw [hnone]
      exact (h v _ hvalue).map fun _ _ hmatch => hmatch

/-- Types by the same name match, if those of the parts do. -/
theorem byName_coincide {required required' : Bool} (type : String)
    (ih : ∀ d ∈ c.children, ∀ {anonymous required required' : Bool},
      Coincide (TypeError.Moved r.path r'.path) TypeInfo.Matches
        (resolveWith r deref anonymous required d)
        (resolveWith r' deref' anonymous required' (d.rename w))) :
    Coincide (TypeError.Moved r.path r'.path) TypeInfo.Matches
      (r.byName deref anonymous required c type)
      (r'.byName deref' anonymous required' (c.rename w) type) := by
  unfold byName
  rw [Schema.allOf_rename, List.isEmpty_map]
  split
  · have hitems := resolveItems_coincide fun item hitem => ih item (Schema.item_mem_children hitem)
    exact hitems.map fun _ _ h => settle_matches (sequenceOf_matches h ..) ..
  · split
    · split
      · have hvalue := resolveValue_coincide fun v _ hv => ih v (Schema.value_mem_children hv)
        exact hvalue.map fun _ _ h => settle_matches (objectWith_matches h ..) ..
      · exact .ok (settle_matches (composed_matches ..) ..)
    · exact (scalarOf_coincide r r' c type).map fun _ _ h => settle_matches h ..

/-- **Counterparts have types that match**, if their references do. -/
theorem resolveWith_coincide (hderef : DerefMatches w r r' deref deref') :
    ∀ {anonymous required required' : Bool}, c.Known r.registry.Defines unasked →
      Coincide (TypeError.Moved r.path r'.path) TypeInfo.Matches
        (resolveWith r deref anonymous required c)
        (resolveWith r' deref' anonymous required' (c.rename w)) := by
  induction c using Schema.children_induction with
  | step c ih =>
    intro anonymous required required' hc
    -- whichever way is taken, the counterpart takes it too
    have href' : (c.rename w).reference = c.reference.map (Reference.rename w) :=
      Schema.reference_rename
    have hf' : byFormat? (c.rename w) = byFormat? c := byFormat?_rename
    have hh' : (c.rename w).hints.intOrString = c.hints.intOrString := by
      rw [Schema.hints_rename]
    cases href : c.reference with
    | some reference =>
      rw [href] at href'
      rw [resolveWith_of_reference href, resolveWith_of_reference href']
      exact hderef anonymous required required' reference (reaches_of_known hc href)
    | none =>
      rw [href] at href'
      cases hf : byFormat? c with
      | some t =>
        rw [resolveWith_of_format href hf, resolveWith_of_format href' (hf'.trans hf)]
        exact .ok (.refl t)
      | none =>
        cases hh : c.hints.intOrString with
        | true =>
          rw [resolveWith_of_hint href hf hh,
            resolveWith_of_hint href' (hf'.trans hf) (hh'.trans hh)]
          exact .ok ⟨rfl, rfl, rfl, rfl, rfl, rfl, rfl, rfl⟩
        | false =>
          rw [resolveWith_of_name href hf hh,
            resolveWith_of_name href' (hf'.trans hf) (hh'.trans hh)]
          refine (typeName_coincide r r' c).bind ?_
          rintro type _ rfl
          exact byName_coincide type fun d hd _ _ _ => ih d hd (hc.child hd)

/-! ## References -/

variable (hr : r.registry.Mirrors docs w r'.registry)

include hr

theorem knownAs_coincide {reference : String} (hreach : r.registry.Reaches reference) :
    Coincide (TypeError.Moved r.path r'.path) (fun _ _ => True) (r.knownAs reference)
      (r'.knownAs (Reference.rename w reference)) := by
  unfold knownAs
  rw [hr.lookup hreach]
  cases r.registry.lookup reference with
  | error e => exact .error (.reference e)
  | ok d => exact .ok trivial

theorem meetAgain_coincide {reference : String} (hreach : r.registry.Reaches reference) :
    Coincide (TypeError.Moved r.path r'.path) TypeInfo.Matches (r.meetAgain reference)
      (r'.meetAgain (Reference.rename w reference)) :=
  (knownAs_coincide hr hreach).map fun _ _ _ => apply_matches (.refl _) _ _

theorem enter_matches (hderef : DerefMatches w r r' deref deref') :
    DerefMatches w r r' (r.enter deref) (r'.enter deref') := by
  intro anonymous required required' reference hreach
  refine (knownAs_coincide hr hreach).bind fun known known' _ => ?_
  rw [hr.resolve hreach]
  cases hd : r.registry.resolve reference with
  | error e => exact .error (.reference e)
  | ok d =>
    exact (resolveWith_coincide hderef (hr.known_of_resolve hd)).bind fun _ _ h =>
      .ok (ofTarget_matches h ..)

theorem derefIn_matches (unvisited : Nat) :
    ∀ visiting, (∀ v ∈ visiting, r.registry.Reaches v) →
      DerefMatches w r r' (r.derefIn unvisited visiting)
        (r'.derefIn unvisited (visiting.map (Reference.rename w))) := by
  induction unvisited with
  | zero =>
    exact fun _ _ anonymous _ _ reference hreach => meetAgain_coincide hr hreach
  | succ unvisited ih =>
    intro visiting hvisiting anonymous required required' reference hreach
    have hcontains := contains_map_injective fun v hv =>
      hr.rename_injective (hvisiting v hv) hreach
    unfold derefIn
    rw [hcontains]
    split
    · exact meetAgain_coincide hr hreach
    · refine enter_matches hr (ih (reference :: visiting) fun v hv => ?_) anonymous required
        required' reference hreach
      rcases List.mem_cons.mp hv with rfl | hv
      · exact hreach
      · exact hvisiting v hv

/-- **Counterparts have types that match**, or none for the same reason. -/
theorem resolve_coincide (hc : c.Known r.registry.Defines unasked) (anonymous required required' : Bool) :
    Coincide (TypeError.Moved r.path r'.path) TypeInfo.Matches (r.resolve c anonymous required)
      (r'.resolve (c.rename w) anonymous required') := by
  rw [resolve, resolve, hr.length]
  exact resolveWith_coincide (derefIn_matches hr _ [] fun _ hv => absurd hv List.not_mem_nil) hc

end Resolver

end KclModels
