import KclModels.Proofs.Build.Bounding
import KclModels.Proofs.Kcl.Conditions

/-!
# Conditions on nested values

The levels of an array or a map are its values, their elements or values, and so on down to a value
that is neither. Each level has a schema, which may put conditions on it. The model of an attribute is
made of such levels as well, and what is built of a level has the constraints of its schema, at any
depth. But only two levels of the model are ever checked, so this is all that is said here: the
outermost conditions of the schema are checks of the model, to which a reference may add those of the
definition that it leads to.
-/

namespace KclModels

variable {tr : Text.Transliteration}

namespace Schema

variable {c d item value : Schema} {path : List Part} {k : Condition}

/-- The conditions that the schema puts on its values. -/
def conditions (c : Schema) : List Condition := (Constraints.ofSchema c).conditions

/-- Arrays and maps, to any depth, of values that are neither: those of a scalar, above all. -/
inductive Nests : Schema → Prop
  | leaf {c : Schema} : c.Alone → c.isInline = false → Nests c
  | array {c item : Schema} : c.IsArray (some item) → Nests item → Nests c
  | map {c value : Schema} : c.IsMap value → Nests value → Nests c

/-- The schema of a level, by the parts that lead there. -/
inductive Level : Schema → List Part → Schema → Prop
  | here (c : Schema) : Level c [] c
  | items {c item d : Schema} {path : List Part} : c.singleItem? = some item → Level item path d →
      Level c (.items :: path) d
  | values {c value d : Schema} {path : List Part} : c.extraValue? = some value →
      Level value path d → Level c (.values :: path) d

/-- The checks for the conditions of the two outermost levels. -/
def checks (c : Schema) : List Check :=
  c.conditions.map .own ++ Check.onParts .items (c.singleItem?.map conditions) ++
    Check.onParts .values (c.extraValue?.map conditions)

/-- **The conditions of the two outermost levels are checked**, each of the values of its level. -/
theorem Level.exists_check (h : c.Level path d) (hdepth : path.length ≤ 1) (hk : k ∈ d.conditions) :
    ∃ check ∈ c.checks, check.Asks path k := by
  -- the checks of items and of values are among those of the schema
  have hmem : ∀ {check : Check} {part} {item : Schema},
      check ∈ Check.onParts part (some item.conditions) →
      (part = .items ∧ c.singleItem? = some item) ∨ (part = .values ∧ c.extraValue? = some item) →
      check ∈ c.checks := by
    rintro check part item hcheck (⟨rfl, hitem⟩ | ⟨rfl, hvalue⟩)
    · exact List.mem_append_left _ (List.mem_append_right _ (by rwa [hitem]))
    · exact List.mem_append_right _ (by rwa [hvalue])
  cases h with
  | here =>
    exact ⟨.own k, List.mem_append_left _ (List.mem_append_left _ (List.mem_map_of_mem hk)), .own k⟩
  | items hitem h =>
    cases h with
    | here =>
      obtain ⟨check, hcheck, hasks⟩ := Check.exists_of_onParts .items hk
      exact ⟨check, hmem hcheck (.inl ⟨rfl, hitem⟩), hasks⟩
    -- a third level is too deep
    | items | values => exact absurd hdepth (by simp)
  | values hvalue h =>
    cases h with
    | here =>
      obtain ⟨check, hcheck, hasks⟩ := Check.exists_of_onParts .values hk
      exact ⟨check, hmem hcheck (.inr ⟨rfl, hvalue⟩), hasks⟩
    | items | values => exact absurd hdepth (by simp)

theorem Nests.isInline (h : c.Nests) : c.isInline = false := by
  cases h with
  | leaf _ hinline => exact hinline
  | array hc => simp [Schema.isInline, isRecord, hc.toHasKind.saysObject_array]
  | map hc => simp [Schema.isInline, isRecord, hc.properties, hc.allOf]

/-- Nothing is taken out of arrays and maps whose values are neither. -/
theorem Nests.intact (h : c.Nests) (defs : Definitions) : defs.Intact c := by
  have hplain : c.reference = none → c.isRecord = false := by
    intro href
    simpa [Schema.isInline, href] using h.isInline
  refine ⟨⟨?_, fun hvalue => ?_⟩, hplain, fun b hb => ?_⟩
  · cases h with
    | leaf ha => rw [tupleItems?, ha.items]
    | array hc => rw [tupleItems?, hc.items]; rfl
    | map hc => rw [tupleItems?, hc.items]
  · cases h with
    | leaf ha =>
      rw [extraValue?_eq_none ha.values] at hvalue
      exact absurd hvalue (by decide)
    | array hc =>
      rw [extraValue?_eq_none hc.values] at hvalue
      exact absurd hvalue (by decide)
    -- a map is no record, so its values stay with it
    | map hc => exact ⟨c, .here hc.toHasKind.reference, hplain hc.toHasKind.reference⟩
  · have hall : c.allOf = [] := by
      cases h with
      | leaf ha => exact ha.allOf
      | array hc => exact hc.allOf
      | map hc => exact hc.allOf
    exact absurd (hall ▸ hb.mem) List.not_mem_nil

end Schema

/-- The checks of a model are those for what it limits its values to. -/
def Limits.checks (l : Limits) : List Check :=
  l.own.conditions.map .own ++ Check.onParts .items (l.items.map (·.conditions)) ++
    Check.onParts .values (l.values.map (·.conditions))

theorem Model.checks_eq (m : Model) : m.checks = m.limits.checks := by
  rw [Model.checks, Limits.checks, Model.limits, Option.map_map, Option.map_map]
  rfl

/-- The model of an attribute has its name and is checked for the outermost conditions of its schema. -/
structure Model.ChecksFor (e : String × Schema) (p : Model) : Prop where
  name : p.name = e.1
  checks : e.2.Nests → ∀ check ∈ e.2.checks, check ∈ p.checks

namespace Frame

open Build Model

variable {setting : Setting} {build : Frame → Build Frame} {s s' : Session} {f f' : Frame}
variable {c v : Schema} {n : String}

/-- What is built of a level of arrays and maps has the constraints of its schema. -/
theorem Builds.nested_bounds (h : f.Builds setting s f' s') (hnamed : f.named = false)
    (hc : f.schema.Nests) : f'.model.constraints.values = f.schema.bounds :=
  congrArg Said.bounds
    (h.said (fun _ _ hd => absurd hd (by simp)) hnamed (hc.intact [])).1

/-- The values of a map have the constraints of their schema. -/
theorem buildMapLevel_nested (hb : BuildsBelow setting build) (hc : v.Nests) {parent : Frame}
    (hs : (buildMapLevel setting build parent v).Gives s f' s') :
    f'.model.constraints.values = v.bounds := by
  obtain ⟨t, ht, ⟨next, child, s₁, -, -, -, -, hjoin⟩ | ⟨-, hleaf⟩⟩ := buildMapLevel_cases hs
  · obtain ⟨k, t', hk, -, rfl⟩ := joinMapLevel_steps hjoin
    exact constraints_values hk
  · have hkept := (Resolver.complex_anonymous_eq (.inl rfl) ht).trans hc.isInline
    rcases buildMapLeaf_cases hleaf with ⟨hneeds, -⟩ | ⟨-, required, hi⟩
    · exact absurd (hneeds.symm.trans hkept) (by decide)
    · exact (hb _ _ _ _ hi).nested_bounds rfl hc

/-- What is built of a reference or of a scalar has no parts. -/
theorem Builds.leaf_limits (h : f.Builds setting s f' s') (hnamed : f.named = false)
    (hopen : f.Open) (ha : f.schema.Alone) (hinline : f.schema.isInline = false) :
    f'.model.limits = { own := f.schema.bounds } := by
  obtain ⟨build, hb, hstep⟩ := h.step
  obtain ⟨g, h₁, s₃, s₅, t, required, -, -, hready, hitems⟩ :=
    buildStep_valueless hb hnamed hopen ha.allOf ha.values hstep
  obtain rfl := hready.itemless ha.items hitems
  rw [limits_of_childless hready.items hready.value, h.nested_bounds hnamed (.leaf ha hinline)]

/-- **The checks of an array or a map are those for the conditions of its outermost levels.** -/
theorem Builds.nested_checks (h : f.Builds setting s f' s') (hnamed : f.named = false)
    (hopen : f.Open) (hc : f.schema.Nests) : f'.model.checks = f.schema.checks := by
  have hown : f'.model.constraints.values = f.schema.bounds := h.nested_bounds hnamed hc
  obtain ⟨build, hb, hstep⟩ := h.step
  rw [Model.checks_eq]
  cases hc with
  | leaf ha hinline =>
    rw [h.leaf_limits hnamed hopen ha hinline, Schema.checks, Schema.extraValue?_eq_none ha.values,
      Schema.singleItem?, ha.items]
    rfl
  | @array _ item hc hitem =>
    obtain ⟨g, g', s₅, hg, -, rfl, helement, p, hp, hlists⟩ :=
      buildStep_array_of_kept hb hnamed hopen hc
        (fun r t ht => (Resolver.complex_anonymous_eq (.inr rfl) ht).trans hitem.isInline) hstep
    have hbounds := hp.bounds.trans ((hb _ _ _ _ helement).nested_bounds hg hitem)
    rw [Model.limits, hlists.items, hlists.value, hown, Option.map_some, hbounds, Schema.checks,
      Schema.extraValue?_eq_none hc.values, Schema.singleItem?, hc.items]
    rfl
  | @map _ value hc hvalue =>
    obtain ⟨parent, child, s₂, s₃, e, p, hchild, -, hpointed, hmaps⟩ :=
      buildStep_map_value hb hnamed hopen hc hstep
    -- the value may be pointed at another place, which its bounds do not depend on
    have hbounds : p.constraints.values = value.bounds := by
      rcases hpointed with rfl | rfl
      · exact buildMapLevel_nested hb hvalue hchild
      · rw [pointValue_eq]
        exact buildMapLevel_nested hb hvalue hchild
    rw [Model.limits, hmaps.items, hmaps.value, hown, Option.map_some, hbounds, Schema.checks,
      Schema.singleItem?, hc.items, Schema.extraValue?, hc.values]
    rfl

/-! ## Attributes -/

/-- What a property takes over adds to its checks. -/
theorem DecoratedBy.checks {r : Registry} (h : DecoratedBy setting r f f') {check : Check}
    (hcheck : check ∈ f.model.checks) : check ∈ f'.model.checks := by
  have hrole : ∀ reference, (f.markRole setting reference).model.checks = f.model.checks := by
    intro reference
    unfold markRole
    dsimp only
    split <;> split <;> rfl
  rcases h with ⟨-, rfl⟩ | ⟨reference, _, -, -, ⟨-, rfl⟩ | ⟨-, c, rfl⟩⟩
  · exact hcheck
  · exact (hrole reference).symm ▸ hcheck
  · rw [← hrole reference] at hcheck
    simp only [Model.checks, List.mem_append, List.mem_map] at hcheck ⊢
    refine hcheck.imp_left (Or.imp_left ?_)
    rintro ⟨k, hk, rfl⟩
    exact ⟨k, Constraints.conditions_inherit hk, rfl⟩

/-- **A property is checked for the outermost conditions of its schema.** -/
theorem buildProperty_checksFor (hb : BuildsBelow setting build) {position : Nat}
    {e : String × Schema} (h : (f.buildProperty setting build position e.1 e.2).Gives s f' s') :
    ∃ p, p.ChecksFor e ∧ f'.model.properties = f.model.properties ++ [p] := by
  obtain ⟨t, ht, ⟨hneeds, _, made, s₁, hoisted, s₂, property, property', hm, hh, hp, hd, rfl⟩ |
    ⟨-, property, property', hp, hd, rfl⟩⟩ := buildProperty_steps rfl h
  all_goals
    have hname : property'.model.name = e.1 :=
      (decorated_name hd.decorated).trans (hb.names _ _ _ _ ⟨rfl, rfl, rfl⟩ hp)
  · refine ⟨_, ?_, rfl⟩
    refine ⟨hname, fun hnests => ?_⟩
    have hinline := (propertyNeedsName_iff ht).symm.trans hneeds
    exact absurd (hinline.symm.trans hnests.isInline) (by decide)
  · refine ⟨_, ?_, rfl⟩
    refine ⟨hname, fun hnests check hcheck => hd.checks ?_⟩
    rwa [(hb _ _ _ _ hp).nested_checks rfl ⟨rfl, rfl⟩ hnests]

/-- **A place of a tuple is checked for the outermost conditions of its schema.** -/
theorem hoistPlace_checksFor (hb : BuildsBelow setting build) {index : Nat} {place element : Frame}
    {s₁ : Session} (hp : (f.hoistPlace setting build index c).Gives s place s₁)
    (he : (build place).Gives s₁ element s') (m : Model) (hname : m.name = placeName index)
    (hsame : m.checks = element.model.checks) : m.ChecksFor (placeName index, c) := by
  refine ⟨hname, fun hnests check hcheck => hsame ▸ ?_⟩
  rcases hoistPlace_cases hp with ⟨rfl, -⟩ | ⟨-, t, ht, hneeds, -⟩
  · rwa [(hb _ _ _ _ he).nested_checks rfl ⟨rfl, rfl⟩ hnests]
  · have hkept := (Resolver.complex_anonymous_eq (.inr rfl) ht).trans hnests.isInline
    exact absurd (hneeds.symm.trans hkept) (by decide)

/--
**The items past the places are checked for the conditions of their schema**, and the schema of the
frame stays unless a definition is made of them.
-/
theorem buildExtraItems_checks (hb : BuildsBelow setting build) {c? : Option Schema}
    (h : (f.buildExtraItems setting build c?).Gives s f' s') :
    (∃ p, f'.model.additionalItems = some p ∧ ((c?.getD {}).Nests →
      p.constraints.conditions = (c?.getD {}).conditions)) ∧
      (f'.schema = f.schema ∨ (c?.getD {}).isInline = true ∧
        f'.schema = { f.schema with additionalItems := f'.schema.additionalItems }) := by
  obtain ⟨t, ht, ⟨c, rfl, hneeds, base, made, s₁, hoisted, s₂, items, hm, hh, hi, rfl⟩ |
    ⟨-, items, hi, rfl⟩⟩ := buildExtraItems_cases h
  · have hinline := (Resolver.complex_anonymous_eq (.inr rfl) ht).symm.trans hneeds
    refine ⟨⟨_, rfl, fun hnests => ?_⟩, .inr ⟨hinline, rfl⟩⟩
    exact absurd (hinline.symm.trans hnests.isInline) (by decide)
  · refine ⟨⟨_, rfl, fun hnests => ?_⟩, .inl rfl⟩
    obtain ⟨-, hschema, hnamed⟩ := extraItemsPlace_facts f (c?.getD {}) t.array
    have hbounds := (hb _ _ _ _ hi).nested_bounds hnamed (hschema.symm ▸ hnests)
    rw [hschema] at hbounds
    have hconditions := congrArg Constraints.conditions hbounds
    exact hconditions

end Frame

end KclModels
