import KclModels.Proofs.Build.Requiring
import KclModels.Proofs.Resolve.Kinds

/-!
# What values are limited to

The conditions on a value are those on the value itself, on its elements if it is an array, and on
its values if it is a map. Where a structural schema has no name they are the constraints of the
schema, of its elements and of its values, except where a definition is made of one of them: a
reference is left of that, which asks for nothing.
-/

namespace KclModels

variable {tr : Text.Transliteration}

/-- The constraints on a value, on its elements and on its values. -/
structure Limits where
  own : Constraints := {}
  items : Option Constraints := none
  values : Option Constraints := none

/-- What the model limits its values to. -/
def Model.limits (m : Model) : Limits where
  own := m.constraints.values
  items := m.items.map (·.constraints.values)
  values := m.additionalProperties.map (·.constraints.values)

namespace Schema

variable {c : Schema} {places : List Schema}

/-- What a schema says where it has no name: nothing if a definition is made of it. -/
def keptSaid (keepOrder : Bool) (c : Schema) : Said :=
  if c.form.isMade then {} else c.said keepOrder

/-- The constraints of a schema where it has no name: none if a definition is made of it. -/
def keptBounds (c : Schema) : Constraints := if c.form.isMade then {} else c.bounds

/-- What a structural schema limits its values to where it has no name. -/
def limits (c : Schema) : Limits :=
  match c.form with
  | .tuple _ | .record => {}
  | .array item => { own := c.bounds, items := some item.keptBounds }
  | .map value => { own := c.bounds, values := some value.keptBounds }
  | .plain | .reference => { own := c.bounds }

theorem keptSaid_bounds (keepOrder : Bool) (c : Schema) :
    (c.keptSaid keepOrder).bounds = c.keptBounds := by
  rw [keptSaid, keptBounds]
  split <;> rfl

/-- A structural schema of which no definition is made is left as it is. -/
theorem Structural.intact (h : c.Structural) (hkept : c.form.isMade = false) (defs : Definitions) :
    defs.Intact c := by
  -- the three forms without parts are intact for the same reason
  have halone : c.Alone → c.isRecord = false → defs.Intact c := by
    intro ha hrecord
    refine ⟨⟨?_, fun hvalue => ?_⟩, fun _ => hrecord, fun b hb => ?_⟩
    · rw [tupleItems?, ha.items]
    · rw [extraValue?_eq_none ha.values] at hvalue
      exact absurd hvalue (by decide)
    · exact absurd (ha.allOf ▸ hb.mem) List.not_mem_nil
  cases h with
  | scalar hc => exact halone hc.toAlone (IsPlain.scalar hc).isRecord
  | empty hc => exact halone hc.toAlone (IsPlain.empty hc).isRecord
  | list hc => exact halone (IsPlain.list hc).alone (IsPlain.list hc).isRecord
  | tuple hc =>
    -- of tuples and records definitions are made
    rw [hc.form] at hkept
    exact absurd hkept (by simp [Form.isMade])
  | record hc =>
    rw [hc.form] at hkept
    exact absurd hkept (by decide)
  | reference hc =>
    refine ⟨⟨?_, fun hvalue => ?_⟩, fun hnone => ?_, fun b hb => ?_⟩
    · rw [tupleItems?, hc.items]
    · rw [extraValue?_eq_none hc.values] at hvalue
      exact absurd hvalue (by decide)
    · have hsome := hc.reference
      rw [hnone] at hsome
      exact absurd hsome (by decide)
    · exact absurd (hc.allOf ▸ hb.mem) List.not_mem_nil
  | array hc =>
    refine ⟨⟨?_, fun hvalue => ?_⟩, fun _ => ?_, fun b hb => ?_⟩
    · rw [tupleItems?, hc.items]
      rfl
    · rw [extraValue?_eq_none hc.values] at hvalue
      exact absurd hvalue (by decide)
    · rw [isRecord, hc.toHasKind.saysObject_array, Bool.false_and]
    · exact absurd (hc.allOf ▸ hb.mem) List.not_mem_nil
  | map hc =>
    have hrecord : c.isRecord = false := by simp [isRecord, hc.properties, hc.allOf]
    -- a map is no record, so what it has for its values stays with it
    refine ⟨⟨?_, fun _ => ⟨c, .here hc.toHasKind.reference, hrecord⟩⟩, fun _ => hrecord, fun b hb => ?_⟩
    · rw [tupleItems?, hc.items]
    · exact absurd (hc.allOf ▸ hb.mem) List.not_mem_nil

end Schema

/-- **What a model is by the form of the schema that it follows.** -/
theorem Model.Translates.by_form {o : Options} {r : Registry} {c : Schema} {m : Model}
    (h : Translates o r c m) :
    match c.form with
    | .plain => m.Bears c.plainText
    | .reference => ∃ n, c.referenceName = some n ∧ m.StandsFor o r n
    | .array item => ∃ p, m.Lists p ∧ Translates o r item p
    | .map value => ∃ p, m.Maps p ∧ Translates o r value p
    | .tuple places => ∃ n extra, r.get? n = some (Frame.tupleRecord places extra) ∧
        n ∈ r.hoisted ∧ m.StandsFor o r n
    | .record => ∃ n, r.get? n = some c ∧ n ∈ r.hoisted ∧ m.StandsFor o r n := by
  cases h with
  | plain hc hm =>
    rw [hc.form, hc.plainText]
    exact hm
  | reference hc hn hm =>
    rw [hc.form]
    exact ⟨_, hn, hm⟩
  | array hc hm hp =>
    rw [hc.form]
    exact ⟨_, hm, hp⟩
  | map hc hm hp =>
    rw [hc.form]
    exact ⟨_, hm, hp⟩
  | tuple hc hget hmade hm =>
    rw [hc.form]
    exact ⟨_, _, hget, hmade, hm⟩
  | record hc hget hmade hm =>
    rw [hc.form]
    exact ⟨_, hget, hmade, hm⟩

namespace Frame

open Build Model

variable {setting : Setting} {build : Frame → Build Frame} {s s' : Session} {f f' : Frame}
variable {n : String} {v : Schema}

/-- **What a structural schema says where it has no name.** -/
theorem Builds.keptSaid (h : f.Builds setting s f' s') (hnamed : f.named = false)
    (hc : f.schema.Structural) (hrec : ¬ f.schema.IsRecord) :
    f'.model.said = f.schema.keptSaid setting.options.keepOrder := by
  have hdefs : Knowing [] s := fun _ _ hd => absurd hd (by simp)
  have hintact : f.schema.form.isMade = false →
      f'.model.said = f.schema.keptSaid setting.options.keepOrder := by
    intro hkept
    rw [Schema.keptSaid, hkept]
    exact (h.said hdefs hnamed (hc.intact hkept [])).1
  cases hc with
  | scalar hc => exact hintact (by rw [(Schema.IsPlain.scalar hc).form]; rfl)
  | empty hc => exact hintact (by rw [(Schema.IsPlain.empty hc).form]; rfl)
  | list hc => exact hintact (by rw [(Schema.IsPlain.list hc).form]; rfl)
  | reference hc => exact hintact (by rw [hc.form]; rfl)
  | array hc => exact hintact (by rw [hc.form]; rfl)
  | map hc => exact hintact (by rw [hc.form]; rfl)
  | record hc => exact absurd hc hrec
  | tuple hc =>
    obtain ⟨build, hb, hstep⟩ := h.step
    have hplaces : f.schema.tupleItems?.isSome = true := by
      rw [Schema.tupleItems?, hc.items]
      rfl
    rw [Schema.keptSaid, hc.form]
    -- what is left of a tuple without a name is a reference, which says nothing
    exact buildStep_bare hb hdefs hnamed (.inl (by rw [hc.allOf]; decide)) (.inl hplaces) hstep

theorem Builds.keptBounds (h : f.Builds setting s f' s') (hnamed : f.named = false)
    (hc : f.schema.Structural) (hrec : ¬ f.schema.IsRecord) :
    f'.model.constraints.values = f.schema.keptBounds :=
  (congrArg Said.bounds (h.keptSaid hnamed hc hrec)).trans (Schema.keptSaid_bounds _ _)

/-- The values of a map are limited by their schema. -/
theorem buildMapLevel_bounds (hb : BuildsBelow setting build) (hc : v.Structural) {parent : Frame}
    (hs : (buildMapLevel setting build parent v).Gives s f' s') :
    f'.model.constraints.values = v.keptBounds := by
  obtain ⟨t, ht, ⟨next, child, s₁, hvalue, hmap, href, -, hjoin⟩ | ⟨-, hleaf⟩⟩ :=
    buildMapLevel_cases hs
  · rw [href] at ht
    obtain ⟨hm, -⟩ := Resolver.isMap_of_resolve hc hvalue ht hmap
    obtain ⟨k, t', hk, -, rfl⟩ := joinMapLevel_steps hjoin
    rw [Schema.keptBounds, hm.form]
    exact constraints_values hk
  · have hneeds : (t.complex && t.anonymous) = true ↔ v.IsRecord :=
      Resolver.complex_anonymous_iff hc (by cases v.reference <;> simp) ht
    rcases buildMapLeaf_cases hleaf with ⟨hyes, _, made, s₁, hoisted, s₂, required, -, -, hi⟩ |
      ⟨hno, required, hi⟩
    · rw [Schema.keptBounds, (hneeds.mp hyes).form]
      exact congrArg Said.bounds ((hb _ _ _ _ hi).bare rfl ⟨rfl, rfl⟩ rfl).1
    · refine (hb _ _ _ _ hi).keptBounds rfl hc fun hrec => ?_
      exact absurd ((hneeds.mpr hrec).symm.trans hno) (by decide)

/-- A model without elements and values is limited by its own constraints alone. -/
theorem limits_of_childless {m : Model} (hitems : m.items = none)
    (hvalue : m.additionalProperties = none) : m.limits = { own := m.constraints.values } := by
  rw [Model.limits, hitems, hvalue]
  rfl

/-- **What a structural schema limits its values to where it has no name.** -/
theorem Builds.limits (h : f.Builds setting s f' s') (hnamed : f.named = false) (hopen : f.Open)
    (hc : f.schema.Structural) (hrec : ¬ f.schema.IsRecord) : f'.model.limits = f.schema.limits := by
  have hown : f'.model.constraints.values = f.schema.keptBounds := h.keptBounds hnamed hc hrec
  obtain ⟨build, hb, hstep⟩ := h.step
  have hplain : ∀ text, f.schema.IsPlain text → f'.model.limits = f.schema.limits := by
    intro text hc
    have hbears := buildStep_plain hb hnamed hopen hc hstep
    rw [limits_of_childless hbears.items hbears.value, hown, Schema.limits, Schema.keptBounds, hc.form]
    rfl
  cases hc with
  | scalar hc => exact hplain _ (.scalar hc)
  | empty hc => exact hplain _ (.empty hc)
  | list hc => exact hplain _ (.list hc)
  | record hc => exact absurd hc hrec
  | reference hc =>
    obtain ⟨n, -, hstands⟩ := buildStep_reference hb hnamed hopen hc hstep
    rw [limits_of_childless hstands.items hstands.value, hown, Schema.limits, Schema.keptBounds,
      hc.form]
    rfl
  | tuple hc =>
    have htuple := (buildStep_tuple hb hnamed hc hstep).by_form
    rw [hc.form] at htuple
    obtain ⟨n, -, -, -, hstands⟩ := htuple
    rw [limits_of_childless hstands.items hstands.value, hown, Schema.limits, Schema.keptBounds,
      hc.form]
    rfl
  | @array _ item hc hitem =>
    obtain ⟨p, hbounds, hlists⟩ : ∃ p, p.constraints.values = item.keptBounds ∧
        f'.model.Lists p := by
      by_cases hitemrec : item.IsRecord
      · -- an element that is a record got a name, and its place keeps no bounds
        obtain ⟨g, g', n, s₅, hg, hfresh, hgs, helement, -, -, p, hp, hlists⟩ :=
          buildStep_array_of_record hb hnamed hopen hc hitem hitemrec hstep
        refine ⟨p, hp.bounds.trans ?_, hlists⟩
        rw [Schema.keptBounds, hitemrec.form]
        exact congrArg Said.bounds (helement.bare hg hfresh.bare hgs).1
      · -- any other element stays in its place with the bounds that are its own
        obtain ⟨g, g', s₅, hg, -, rfl, helement, p, hp, hlists⟩ :=
          buildStep_array_of_plain hb hnamed hopen hc hitem hitemrec hstep
        exact ⟨p, hp.bounds.trans ((hb _ _ _ _ helement).keptBounds hg hitem hitemrec), hlists⟩
    rw [Model.limits, hlists.items, hlists.value, hown, Schema.limits, Schema.keptBounds, hc.form]
    simp [Schema.Form.isMade, hbounds]
  | @map _ value hc hvalue =>
    obtain ⟨parent, child, s₂, s₃, e, p, hchild, -, hpointed, hmaps⟩ :=
      buildStep_map_value hb hnamed hopen hc hstep
    have hbounds : p.constraints.values = value.keptBounds := by
      rcases hpointed with rfl | rfl
      · exact buildMapLevel_bounds hb hvalue hchild
      · rw [pointValue_eq]
        exact buildMapLevel_bounds hb hvalue hchild
    rw [Model.limits, hmaps.items, hmaps.value, hown, Schema.limits, Schema.keptBounds, hc.form]
    simp [Schema.Form.isMade, hbounds]

end Frame

end KclModels
