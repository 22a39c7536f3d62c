import KclModels.Proofs.Build.Outcome

/-!
# What each step of building does

One lemma for each step: from its outcome, the frames that were built below it and how the frame was
put together from them. Later proofs go by these and do not look into the steps again.
-/

namespace KclModels.Frame

open Build

variable {tr : Text.Transliteration}
variable {setting : Setting} {build : Frame → Build Frame} {s s' : Session} {f f' : Frame}

theorem constraints_registry {c : Constraints} (h : f.constraints.Gives s c s') :
    s'.registry = s.registry := by
  unfold constraints at h
  simp only at h
  split at h
  · rw [gives_pure] at h
    rw [h.2]
  · split at h
    · rw [gives_throw] at h
      exact h.elim
    · split at h
      · rw [gives_bind] at h
        obtain ⟨_, t, hw, hp⟩ := h
        rw [gives_warn] at hw
        rw [gives_pure] at hp
        rw [← hp.2, ← hw]
      · rw [gives_pure] at h
        rw [h.2]

theorem populate_cases (h : (f.populate setting).Gives s f' s') :
    ∃ c, f.constraints.Gives s c s' ∧ f' = f.filled setting c := by
  simp only [populate, gives_bind, gives_pure] at h
  obtain ⟨c, t, hc, rfl, rfl⟩ := h
  exact ⟨c, hc, rfl⟩

/-! ## Definitions that are references -/

theorem buildReference_cases (h : (f.buildReference setting build).Gives s f' s') :
    (∃ shape target alias_,
      (resolverAt setting f s).resolve f.schema false true = .ok target ∧
      (build f.aliasOf).Gives s alias_ s' ∧ f' = f.takeAlias alias_ shape target) ∨
    (∃ branch, (build (f.branch f.schema 0)).Gives s branch s' ∧
      f' = (f.mapType fun _ =>
        soleBranchType (resolverAt setting f s).modelTypeName).addBranch branch) := by
  simp only [buildReference, gives_bind, gives_registry, gives_ofReference] at h
  obtain ⟨_, _, ⟨rfl, rfl⟩, shape, _, ⟨-, rfl⟩, h⟩ := h
  split at h
  · simp only [gives_bind, gives_resolve, gives_pure] at h
    obtain ⟨target, _, ⟨ht, rfl⟩, alias_, _, ha, rfl, rfl⟩ := h
    exact Or.inl ⟨shape, target, alias_, ht, ha, rfl⟩
  · simp only [gives_bind, gives_resolver, gives_pure] at h
    obtain ⟨_, _, ⟨rfl, rfl⟩, branch, _, hb, rfl, rfl⟩ := h
    exact Or.inr ⟨branch, hb, rfl⟩

/-! ## Compositions -/

/-- The one branch of a composition that says anything is put in place of the composition. -/
def Lifts [Text.Transliteration] (r : Resolver) (c branch : Schema) : Prop :=
  2 ≤ c.allOf.length ∧ c.allOf.filter isSubstantive = [branch] ∧
    ∃ t, r.resolve branch true true = .ok t ∧ ((t.anonymous = false ∧ t.complex = true) ∨
      t.primitive = true)

theorem Lifts.mem {r : Resolver} {c branch : Schema} (h : Lifts r c branch) :
    branch ∈ c.allOf := by
  have hm : branch ∈ c.allOf.filter isSubstantive := by rw [h.2.1]; exact List.mem_singleton_self _
  exact (List.mem_filter.mp hm).1

theorem liftBranch_cases (h : (f.liftBranch setting).Gives s f' s') :
    s' = s ∧ ((f' = f ∧ ∀ branch, ¬ Lifts (resolverAt setting f s) f.schema branch) ∨
      ∃ branch, Lifts (resolverAt setting f s) f.schema branch ∧ f' = f.lift branch) := by
  unfold liftBranch at h
  split at h
  · -- less than two branches are never lifted
    rename_i hlen
    rw [gives_pure] at h
    exact ⟨h.2.symm, Or.inl ⟨h.1.symm, fun branch hl => absurd hl.1 (by omega)⟩⟩
  · rename_i hlen
    split at h
    · -- no branch says anything
      rename_i hnil
      rw [gives_pure] at h
      refine ⟨h.2.symm, Or.inl ⟨h.1.symm, fun branch hl => ?_⟩⟩
      exact absurd (hnil.symm.trans hl.2.1) (by simp)
    · rename_i branch others hcons
      simp only [gives_bind, gives_resolve] at h
      obtain ⟨t, _, ⟨ht, rfl⟩, h⟩ := h
      split at h
      · rename_i hc
        rw [gives_pure] at h
        rw [Bool.and_eq_true, List.isEmpty_iff, Bool.or_eq_true, Bool.and_eq_true,
          Bool.not_eq_true'] at hc
        obtain ⟨rfl, hc⟩ := hc
        exact ⟨h.2.symm, Or.inr ⟨branch, ⟨by omega, hcons, t, ht, hc⟩, h.1.symm⟩⟩
      · rename_i hc
        rw [gives_pure] at h
        -- a branch that could be lifted is the first that says anything: the failed test is its own
        refine ⟨h.2.symm, Or.inl ⟨h.1.symm, fun b hl => hc ?_⟩⟩
        obtain ⟨-, hf, u, hu, hl⟩ := hl
        rw [hcons, List.cons.injEq] at hf
        obtain ⟨rfl, rfl⟩ := hf
        rw [ht, Except.ok.injEq] at hu
        subst hu
        simpa using hl

theorem buildBranch_cases {index : Nat} {branch : Schema} {array : Bool}
    (h : (f.buildBranch setting build index branch).Gives s (f', array) s') :
    ∃ t, (resolverAt setting f s).resolve branch branch.reference.isNone false = .ok t ∧
      ((branchNeedsName branch t = true ∧ ∃ base made s₁ hoisted s₂ composed,
          (hoist f base branch).Gives s made s₁ ∧ (build made).Gives s₁ hoisted s₂ ∧
          (build ((f.mapBranch index (.referenceTo hoisted.name)).branch
            (.referenceTo hoisted.name) index)).Gives s₂ composed s' ∧
          f' = (f.mapBranch index (.referenceTo hoisted.name)).addBranch
            (composed.addExtra hoisted)) ∨
        (branchNeedsName branch t = false ∧ ∃ composed,
          (build (f.branch branch index)).Gives s composed s' ∧
          f' = f.addBranch composed.pointMap)) := by
  simp only [buildBranch, gives_bind, gives_resolve] at h
  obtain ⟨t, _, ⟨ht, rfl⟩, h⟩ := h
  refine ⟨t, ht, ?_⟩
  split at h
  · -- a definition is made of the branch
    rename_i hn
    simp only [gives_bind, gives_pure, Prod.mk.injEq] at h
    obtain ⟨made, s₁, hm, hoisted, s₂, hh, composed, _, hc, ⟨rfl, -⟩, rfl⟩ := h
    exact Or.inl ⟨hn, _, made, s₁, hoisted, s₂, composed, hm, hh, hc, rfl⟩
  · rename_i hn
    simp only [gives_bind, gives_pure, Prod.mk.injEq] at h
    obtain ⟨composed, _, hc, ⟨rfl, -⟩, rfl⟩ := h
    exact Or.inr ⟨by simpa using hn, composed, hc, rfl⟩

theorem buildBranches_cons_cases {index : Nat} {branch : Schema} {rest : List Schema}
    {arrays : List Bool}
    (h : (f.buildBranches setting build index (branch :: rest)).Gives s (f', arrays) s') :
    ∃ f₁ array s₁ arrays', (f.buildBranch setting build index branch).Gives s (f₁, array) s₁ ∧
      (f₁.buildBranches setting build (index + 1) rest).Gives s₁ (f', arrays') s' := by
  simp only [buildBranches, gives_bind, gives_pure, Prod.mk.injEq] at h
  obtain ⟨⟨f₁, array⟩, s₁, h₁, ⟨f₂, arrays'⟩, _, h₂, ⟨rfl, -⟩, rfl⟩ := h
  exact ⟨f₁, array, s₁, arrays', h₁, h₂⟩

theorem buildAllOf_cases (h : (f.buildAllOf setting build).Gives s f' s') :
    (f.schema.allOf = [] ∧ f' = f ∧ s' = s) ∨
    (f.schema.allOf ≠ [] ∧ ∃ arrays t, (f.buildBranches setting build 0 f.schema.allOf).Gives s
      (f', arrays) t ∧ s'.registry = t.registry) := by
  unfold buildAllOf at h
  split at h
  · rename_i hnil
    rw [gives_pure] at h
    exact Or.inl ⟨List.isEmpty_iff.mp hnil, h.1.symm, h.2.symm⟩
  · rename_i hnil
    refine Or.inr ⟨fun hn => hnil (List.isEmpty_iff.mpr hn), ?_⟩
    simp only [gives_bind] at h
    obtain ⟨⟨f₁, arrays⟩, t, hb, h⟩ := h
    split at h
    · simp only [gives_bind, gives_warn, gives_pure] at h
      obtain ⟨_, _, rfl, rfl, rfl⟩ := h
      exact ⟨arrays, t, hb, rfl⟩
    · rw [gives_pure] at h
      obtain ⟨rfl, rfl⟩ := h
      exact ⟨arrays, t, hb, rfl⟩

/-! ## Additional properties -/

theorem buildMapLeaf_cases {parent level : Frame} {t : TypeInfo}
    (h : (buildMapLeaf build parent level t).Gives s f' s') :
    ((t.complex && t.anonymous) = true ∧ ∃ base made s₁ hoisted s₂ required,
      (hoist parent base level.schema).Gives s made s₁ ∧ (build made).Gives s₁ hoisted s₂ ∧
      (build (((level.referTo hoisted.name).addExtra hoisted).require required)).Gives s₂ f' s') ∨
    ((t.complex && t.anonymous) = false ∧ ∃ required,
      (build (level.require required)).Gives s f' s') := by
  unfold buildMapLeaf at h
  split at h
  · rename_i hn
    simp only [gives_bind, gives_pure, gives_registry, gives_ofReference] at h
    obtain ⟨made, s₁, hm, hoisted, s₂, hh, _, _, ⟨rfl, rfl⟩, _, _, ⟨rfl, rfl⟩, shape, _, ⟨-, rfl⟩,
      h⟩ := h
    exact Or.inl ⟨hn, _, made, s₁, hoisted, s₂, _, hm, hh, h⟩
  · rename_i hn
    simp only [gives_bind, gives_pure, gives_registry, gives_ofReference] at h
    obtain ⟨_, _, ⟨rfl, rfl⟩, _, _, ⟨rfl, rfl⟩, shape, _, ⟨-, rfl⟩, h⟩ := h
    exact Or.inr ⟨by simpa using hn, _, h⟩

/-- The steps of putting a level of maps together, with the constraints that it is filled in with. -/
theorem joinMapLevel_steps {level child : Frame}
    (h : (level.joinMapLevel setting child).Gives s f' s') :
    ∃ c t, (level.mapExtraValue child.schema).constraints.Gives s c s' ∧
      (resolverAt setting level s').resolve (level.mapExtraValue child.schema).schema true
        level.required = .ok t ∧
      f' = (((level.mapExtraValue child.schema).filled setting c).makeMap t).setValue child := by
  simp only [joinMapLevel, gives_bind, gives_resolve, gives_pure] at h
  obtain ⟨f₁, s₁, hp, t, _, ⟨ht, rfl⟩, rfl, rfl⟩ := h
  obtain ⟨c, hc, rfl⟩ := populate_cases hp
  exact ⟨c, t, hc, ht, rfl⟩

theorem joinMapLevel_cases {level child : Frame}
    (h : (level.joinMapLevel setting child).Gives s f' s') :
    ∃ c t, (resolverAt setting level s').resolve (level.mapExtraValue child.schema).schema true
        level.required = .ok t ∧
      f' = (((level.mapExtraValue child.schema).filled setting c).makeMap t).setValue child ∧
      s'.registry = s.registry := by
  obtain ⟨c, t, hc, ht, rfl⟩ := joinMapLevel_steps h
  exact ⟨c, t, ht, rfl, constraints_registry hc⟩

theorem buildMapLevel_cases {parent : Frame} {v : Schema}
    (h : (buildMapLevel setting build parent v).Gives s f' s') :
    ∃ t, (resolverAt setting (parent.mapValue v) s).resolve v v.reference.isNone false = .ok t ∧
      ((∃ next child s₁, v.additionalProperties = some (.schema next) ∧ t.map = true ∧
          v.reference = none ∧
          (buildMapLevel setting build (parent.mapValue v) next).Gives s child s₁ ∧
          ((parent.mapValue v).joinMapLevel setting child).Gives s₁ f' s') ∨
        ((∀ next, v.additionalProperties = some (.schema next) → t.map = true →
            v.reference ≠ none) ∧
          (buildMapLeaf build parent (parent.mapValue v) t).Gives s f' s')) := by
  -- the recursion is on the schema, which has to be taken apart for it to unfold
  obtain ⟨keywords, properties, allOf, items, value, extraItems⟩ := v
  simp only [buildMapLevel, gives_bind, gives_resolve] at h
  obtain ⟨t, _, ⟨ht, rfl⟩, h⟩ := h
  refine ⟨t, ht, ?_⟩
  match value with
  | some (.schema next) =>
    simp only at h
    split at h
    · rename_i hm
      rw [Bool.and_eq_true, Option.isNone_iff_eq_none] at hm
      rw [gives_bind] at h
      obtain ⟨child, s₁, hc, hj⟩ := h
      exact Or.inl ⟨next, child, s₁, rfl, hm.1, hm.2, hc, hj⟩
    · rename_i hm
      refine Or.inr ⟨fun _ _ hmap hnone => hm ?_, h⟩
      rw [hmap, Bool.true_and, Option.isNone_iff_eq_none]
      exact hnone
  | some (.flag allowed) => exact Or.inr ⟨fun _ hv => by simp at hv, h⟩
  | none => exact Or.inr ⟨fun _ hv => by simp at hv, h⟩

theorem buildMap_cases {value : Schema} (h : (f.buildMap setting build value).Gives s f' s') :
    ∃ child, (buildMapLevel setting build f value).Gives s child s' ∧
      f' = (f.mapExtraValue child.schema).setValue child := by
  simp only [buildMap, gives_bind, gives_pure] at h
  obtain ⟨child, _, hc, rfl, rfl⟩ := h
  exact ⟨child, hc, rfl⟩

theorem hoistExtended_cases (h : (f.hoistExtended build).Gives s f' s') :
    ∃ base made s₁ hoisted s₂ inner, (hoist f base f.schema).Gives s made s₁ ∧
      (build made).Gives s₁ hoisted s₂ ∧
      (build (f.referTo hoisted.name).restart).Gives s₂ inner s' ∧
      f' = inner.addExtra hoisted := by
  simp only [hoistExtended, gives_bind, gives_pure] at h
  obtain ⟨made, s₁, hm, hoisted, s₂, hh, inner, _, hi, rfl, rfl⟩ := h
  exact ⟨_, made, s₁, hoisted, s₂, inner, hm, hh, hi, rfl⟩

theorem buildExtraValues_cases {value : Schema}
    (h : (f.buildExtraValues setting build value).Gives s f' s') :
    ∃ t, (resolverAt setting f s).resolve value value.reference.isNone false = .ok t ∧
      (((t.complex && t.anonymous) = true ∧ ∃ base made s₁ hoisted s₂ child required,
          (hoist f base value).Gives s made s₁ ∧ (build made).Gives s₁ hoisted s₂ ∧
          (build (((f.referValue hoisted.name).mapValue
            (.referenceTo hoisted.name)).require required)).Gives s₂ child s' ∧
          f' = (f.referValue hoisted.name).setStore (child.addExtra hoisted)) ∨
        ((t.complex && t.anonymous) = false ∧ ∃ child required,
          (build ((f.mapValue value).require required)).Gives s child s' ∧
          f' = f.setStore child)) := by
  simp only [buildExtraValues, gives_bind, gives_resolve] at h
  obtain ⟨t, _, ⟨ht, rfl⟩, h⟩ := h
  refine ⟨t, ht, ?_⟩
  obtain ⟨⟨f₁, v, made?⟩, s₁, hv, h⟩ := h
  simp only [gives_registry, gives_ofReference, gives_pure] at h
  obtain ⟨_, _, ⟨rfl, rfl⟩, shape, _, ⟨-, rfl⟩, child, _, hc, rfl, rfl⟩ := h
  -- all that differs is whether a definition was made of the values
  unfold hoistExtraValue at hv
  split at hv
  · rename_i hn
    simp only [gives_bind, gives_pure, Prod.mk.injEq] at hv
    obtain ⟨made, s₀, hm, hoisted, s₂, hh, ⟨rfl, rfl, rfl⟩, rfl⟩ := hv
    exact Or.inl ⟨hn, _, made, s₀, hoisted, s₂, child, _, hm, hh, hc, rfl⟩
  · rename_i hn
    simp only [gives_pure, Prod.mk.injEq] at hv
    obtain ⟨⟨rfl, rfl, rfl⟩, rfl⟩ := hv
    exact Or.inr ⟨by simpa using hn, child, _, hc, rfl⟩

theorem buildAnyValues_cases {declared : Bool}
    (h : (f.buildAnyValues build declared).Gives s f' s') :
    ∃ child, (build ((f.allowAny declared).mapValue (.typed "object"))).Gives s child s' ∧
      f' = (f.allowAny declared).setValue child := by
  simp only [buildAnyValues, gives_bind, gives_pure] at h
  obtain ⟨child, _, hc, rfl, rfl⟩ := h
  exact ⟨child, hc, rfl⟩

theorem buildAdditionalProperties_cases
    (h : (f.buildAdditionalProperties setting build).Gives s f' s') :
    (f.schema.additionalProperties = none ∧ f' = f ∧ s' = s) ∨
    (∃ extra, f.schema.additionalProperties = some extra ∧
      ((extra.isEnabled = false ∧ f' = f.deny extra ∧ s' = s) ∨
        (extra = .flag true ∧
          (((f.deny extra).markExtra f.model.type.complex).buildAnyValues build
            f.model.type.complex).Gives s f' s') ∨
        (∃ value, extra = .schema value ∧
          ((f.model.type.complex = false ∧
              (((f.deny extra).markExtra false).buildMap setting build value).Gives s f' s') ∨
            (f.model.type.complex = true ∧ f.named = false ∧
              (((f.deny extra).markExtra true).hoistExtended build).Gives s f' s') ∨
            (f.model.type.complex = true ∧ f.named = true ∧
              (((f.deny extra).markExtra true).buildExtraValues setting build value).Gives
                s f' s'))))) := by
  unfold buildAdditionalProperties at h
  split at h
  · rename_i hnone
    rw [gives_pure] at h
    exact Or.inl ⟨hnone, h.1.symm, h.2.symm⟩
  · rename_i extra hextra
    refine Or.inr ⟨extra, hextra, ?_⟩
    simp only at h
    split at h
    · rename_i hoff
      rw [gives_pure] at h
      exact Or.inl ⟨by simpa using hoff, h.1.symm, h.2.symm⟩
    · rename_i hon
      match extra with
      | .flag allowed =>
        obtain rfl : allowed = true := by simpa [Extra.isEnabled] using hon
        exact Or.inr (Or.inl ⟨rfl, h⟩)
      | .schema value =>
        refine Or.inr (Or.inr ⟨value, rfl, ?_⟩)
        -- whether it is an object is asked after its values were noted, which does not change it
        change ((if !(f.deny (.schema value)).model.type.complex then _ else _) :
          Build Frame).Gives s f' s' at h
        cases hc : f.model.type.complex
        · rw [show (f.deny (.schema value)).model.type.complex = false from hc] at h
          exact Or.inl ⟨rfl, h⟩
        · rw [show (f.deny (.schema value)).model.type.complex = true from hc] at h
          refine Or.inr ?_
          cases hn : f.named
          · exact Or.inl ⟨rfl, rfl, by simpa [markExtra, deny, mapModel, mapType, hn] using h⟩
          · exact Or.inr ⟨rfl, rfl, by simpa [markExtra, deny, mapModel, mapType, hn] using h⟩

/-! ## Properties -/

theorem decorate_cases {reference : String} (h : (f.decorate setting reference).Gives s f' s') :
    s' = s ∧ ∃ target, s.registry.resolve reference = .ok target ∧
      ((target.isConstrained = false ∧ f' = f.markRole setting reference) ∨
        (target.isConstrained = true ∧
          ∃ c, f' = (f.markRole setting reference).inheritConstraints c)) := by
  simp only [decorate, gives_bind, gives_registry, gives_ofReference, gives_ofType] at h
  obtain ⟨_, _, ⟨rfl, rfl⟩, target, _, ⟨ht, rfl⟩, _, _, ⟨-, rfl⟩, h⟩ := h
  split at h
  · rename_i hconstrained
    split at h
    · rw [gives_throw] at h
      exact h.elim
    · rw [gives_pure] at h
      exact ⟨h.2.symm, target, ht, Or.inr ⟨hconstrained, _, h.1.symm⟩⟩
  · rename_i hfree
    rw [gives_pure] at h
    exact ⟨h.2.symm, target, ht, Or.inl ⟨by simpa using hfree, h.1.symm⟩⟩

/-- A built property with what it takes from the definition that it refers to. -/
def Decorated (setting : Setting) (property property' : Frame) : Prop :=
  property' = property ∨ ∃ reference, property' = property.markRole setting reference ∨
    ∃ c, property' = (property.markRole setting reference).inheritConstraints c

/--
A built property with what it takes from the definition that it leads to: its part in polymorphism,
and its constraints if it has any.
-/
def DecoratedBy (setting : Setting) (r : Registry) (property property' : Frame) : Prop :=
  (property.schema.reference = none ∧ property' = property) ∨ ∃ reference target,
    property.schema.reference = some reference ∧ r.resolve reference = .ok target ∧
    ((target.isConstrained = false ∧ property' = property.markRole setting reference) ∨
      (target.isConstrained = true ∧
        ∃ c, property' = (property.markRole setting reference).inheritConstraints c))

theorem DecoratedBy.decorated {r : Registry} {property property' : Frame}
    (h : DecoratedBy setting r property property') : Decorated setting property property' := by
  rcases h with ⟨-, heq⟩ | ⟨reference, _, -, -, ⟨-, heq⟩ | ⟨-, c, heq⟩⟩
  · exact Or.inl heq
  · exact Or.inr ⟨reference, Or.inl heq⟩
  · exact Or.inr ⟨reference, Or.inr ⟨c, heq⟩⟩

/-- The steps of building a property, with what is asked of it. -/
theorem buildProperty_steps {position : Nat} {name : String} {c : Schema} {required : Bool}
    (hrequired : required = (f.tuple || f.schema.required.contains name))
    (h : (f.buildProperty setting build position name c).Gives s f' s') :
    ∃ t, (resolverAt setting f s).resolve c true required = .ok t ∧
      ((propertyNeedsName c t = true ∧ ∃ base made s₁ hoisted s₂ property property',
          (hoist f base c).Gives s made s₁ ∧ (build (made.within f name)).Gives s₁ hoisted s₂ ∧
          (build ((f.addExtra (hoisted.markDiscriminated c)).propertyPlace name
            (.referenceTo hoisted.name) required)).Gives s₂ property s' ∧
          DecoratedBy setting s'.registry property property' ∧
          f' = (f.addExtra (hoisted.markDiscriminated c)).addProperty property' position) ∨
        (propertyNeedsName c t = false ∧ ∃ property property',
          (build (f.propertyPlace name c required)).Gives s property s' ∧
          DecoratedBy setting s'.registry property property' ∧
          f' = f.addProperty property' position)) := by
  subst hrequired
  simp only [buildProperty, gives_bind, gives_resolve] at h
  obtain ⟨t, _, ⟨ht, rfl⟩, ⟨f₁, c₁⟩, s₁, hh, property, s₂, hp, h⟩ := h
  refine ⟨t, ht, ?_⟩
  -- the last step is the same in both cases: to look at what a reference leads to
  obtain ⟨property', hd, rfl, rfl⟩ : ∃ property', DecoratedBy setting s₂.registry property property' ∧
      f' = f₁.addProperty property' position ∧ s' = s₂ := by
    split at h
    · rename_i reference href
      simp only [gives_bind, gives_pure] at h
      obtain ⟨property', _, hd, rfl, rfl⟩ := h
      obtain ⟨rfl, target, htarget, hp'⟩ := decorate_cases hd
      exact ⟨property', Or.inr ⟨reference, target, href, htarget, hp'⟩, rfl, rfl⟩
    · rename_i hnone
      simp only [gives_bind, gives_pure] at h
      obtain ⟨property', _, ⟨rfl, rfl⟩, rfl, rfl⟩ := h
      exact ⟨property, Or.inl ⟨hnone, rfl⟩, rfl, rfl⟩
  unfold hoistProperty at hh
  split at hh
  · rename_i hn
    simp only [gives_bind, gives_pure, Prod.mk.injEq] at hh
    obtain ⟨made, s₀, hm, hoisted, _, hb, ⟨rfl, rfl⟩, rfl⟩ := hh
    exact Or.inl ⟨hn, _, made, s₀, hoisted, _, property, property', hm, hb, hp, hd, rfl⟩
  · rename_i hn
    simp only [gives_pure, Prod.mk.injEq] at hh
    obtain ⟨⟨rfl, rfl⟩, rfl⟩ := hh
    exact Or.inr ⟨by simpa using hn, property, property', hp, hd, rfl⟩

theorem buildProperty_cases {position : Nat} {name : String} {c : Schema}
    (h : (f.buildProperty setting build position name c).Gives s f' s') :
    ∃ t, (resolverAt setting f s).resolve c true (f.tuple || f.schema.required.contains name) =
        .ok t ∧
      ((propertyNeedsName c t = true ∧ ∃ base made s₁ hoisted s₂ required property property',
          (hoist f base c).Gives s made s₁ ∧ (build (made.within f name)).Gives s₁ hoisted s₂ ∧
          (build ((f.addExtra (hoisted.markDiscriminated c)).propertyPlace name
            (.referenceTo hoisted.name) required)).Gives s₂ property s' ∧
          Decorated setting property property' ∧
          f' = (f.addExtra (hoisted.markDiscriminated c)).addProperty property' position) ∨
        (propertyNeedsName c t = false ∧ ∃ required property property',
          (build (f.propertyPlace name c required)).Gives s property s' ∧
          Decorated setting property property' ∧ f' = f.addProperty property' position)) := by
  obtain ⟨t, ht, ⟨hn, base, made, s₁, hoisted, s₂, property, property', hm, hh, hp, hd, heq⟩ |
    ⟨hn, property, property', hp, hd, heq⟩⟩ := buildProperty_steps rfl h
  · exact ⟨t, ht, .inl ⟨hn, base, made, s₁, hoisted, s₂, _, property, property', hm, hh, hp,
      hd.decorated, heq⟩⟩
  · exact ⟨t, ht, .inr ⟨hn, _, property, property', hp, hd.decorated, heq⟩⟩

theorem buildPropertyList_cons_cases {position : Nat} {name : String} {c : Schema}
    {rest : List (String × Schema)}
    (h : (f.buildPropertyList setting build position ((name, c) :: rest)).Gives s f' s') :
    ∃ f₁ s₁, (f.buildProperty setting build position name c).Gives s f₁ s₁ ∧
      (f₁.buildPropertyList setting build (position + 1) rest).Gives s₁ f' s' := by
  simp only [buildPropertyList, gives_bind] at h
  exact h

/-- **What building one property keeps, building properties keeps.** -/
theorem buildPropertyList_run {R : Frame → Session → Frame → Session → Prop}
    (hrefl : ∀ f s, R f s f s)
    (htrans : ∀ {f s f₁ s₁ f₂ s₂}, R f s f₁ s₁ → R f₁ s₁ f₂ s₂ → R f s f₂ s₂)
    (hone : ∀ {position : Nat} {name : String} {c : Schema} {f f' : Frame} {s s' : Session},
      (f.buildProperty setting build position name c).Gives s f' s' → R f s f' s')
    {position : Nat} {properties : List (String × Schema)}
    (h : (f.buildPropertyList setting build position properties).Gives s f' s') : R f s f' s' := by
  induction properties generalizing position f s with
  | nil =>
    rw [buildPropertyList, gives_pure] at h
    obtain ⟨rfl, rfl⟩ := h
    exact hrefl f s
  | cons e rest ih =>
    obtain ⟨f₁, s₁, h₁, h₂⟩ := buildPropertyList_cons_cases h
    exact htrans (hone h₁) (ih h₂)

theorem buildProperties_cases (h : (f.buildProperties setting build).Gives s f' s') :
    ∃ f₁, (f.buildPropertyList setting build 0 f.schema.properties).Gives s f₁ s' ∧
      f' = f₁.orderProperties setting := by
  simp only [buildProperties, gives_bind, gives_pure] at h
  obtain ⟨f₁, _, hl, rfl, rfl⟩ := h
  exact ⟨f₁, hl, rfl⟩

/-! ## Items -/

theorem buildArray_cases {item : Schema} (h : (f.buildArray setting build item).Gives s f' s') :
    ∃ t, (resolverAt setting f s).resolve item true false = .ok t ∧
      (((t.complex && t.anonymous) = true ∧ ∃ base made s₁ hoisted s₂ inner,
          (hoist f base item).Gives s made s₁ ∧ (build made).Gives s₁ hoisted s₂ ∧
          (build (f.mapItem (.referenceTo hoisted.name)).makeVirtual.restart).Gives s₂ inner s' ∧
          f' = inner.addExtra hoisted) ∨
        ((t.complex && t.anonymous) = false ∧ ∃ element,
          (build (f.element item setting.polymorphism)).Gives s element s' ∧
          f' = (f.markElements item setting.polymorphism).setElement element)) := by
  simp only [buildArray, gives_bind, gives_resolve] at h
  obtain ⟨t, _, ⟨ht, rfl⟩, h⟩ := h
  refine ⟨t, ht, ?_⟩
  split at h
  · rename_i hn
    simp only [gives_bind, gives_pure] at h
    obtain ⟨made, s₁, hm, hoisted, s₂, hh, inner, _, hi, rfl, rfl⟩ := h
    exact Or.inl ⟨hn, _, made, s₁, hoisted, s₂, inner, hm, hh, hi, rfl⟩
  · rename_i hn
    simp only [gives_bind, gives_pure] at h
    obtain ⟨element, _, he, rfl, rfl⟩ := h
    exact Or.inr ⟨by simpa using hn, element, he, rfl⟩

theorem hoistPlace_cases {index : Nat} {c : Schema}
    (h : (f.hoistPlace setting build index c).Gives s f' s') :
    (f' = f.tuplePlace c index ∧ s' = s ∧ (c.reference.isSome = true ∨ ∃ t,
        (resolverAt setting f s).resolve c true true = .ok t ∧
          (t.complex && t.anonymous) = false)) ∨
    (c.reference = none ∧ ∃ t, (resolverAt setting f s).resolve c true true = .ok t ∧
      (t.complex && t.anonymous) = true ∧ ∃ base made s₁ hoisted,
        (hoist f base c).Gives s made s₁ ∧ (build made).Gives s₁ hoisted s' ∧
        f' = ((f.tuplePlace c index).referTo hoisted.name).addExtra hoisted) := by
  unfold hoistPlace at h
  simp only at h
  split at h
  · -- a reference stays in its place
    rename_i href
    rw [gives_pure] at h
    exact Or.inl ⟨h.1.symm, h.2.symm, Or.inl href⟩
  · rename_i href
    simp only [gives_bind, gives_resolve] at h
    obtain ⟨t, _, ⟨ht, rfl⟩, h⟩ := h
    split at h
    · rename_i hn
      simp only [gives_bind, gives_pure] at h
      obtain ⟨made, s₁, hm, hoisted, _, hh, rfl, rfl⟩ := h
      exact Or.inr ⟨by simpa using href, t, ht, hn, _, made, s₁, hoisted, hm, hh, rfl⟩
    · rename_i hn
      rw [gives_pure] at h
      exact Or.inl ⟨h.1.symm, h.2.symm, Or.inr ⟨t, ht, by simpa using hn⟩⟩

theorem buildPlaces_cons_cases {index : Nat} {c : Schema} {rest : List Schema}
    (h : (f.buildPlaces setting build index (c :: rest)).Gives s f' s') :
    ∃ place s₁ element s₂, (f.hoistPlace setting build index c).Gives s place s₁ ∧
      (build place).Gives s₁ element s₂ ∧
      ((f.addPlace element index).buildPlaces setting build (index + 1) rest).Gives s₂ f' s' := by
  simp only [buildPlaces, gives_bind] at h
  obtain ⟨place, s₁, hp, element, s₂, he, h⟩ := h
  exact ⟨place, s₁, element, s₂, hp, he, h⟩

/-- **What building one place of a tuple keeps, building its places keeps.** -/
theorem buildPlaces_run {R : Frame → Session → Frame → Session → Prop} (hrefl : ∀ f s, R f s f s)
    (htrans : ∀ {f s f₁ s₁ f₂ s₂}, R f s f₁ s₁ → R f₁ s₁ f₂ s₂ → R f s f₂ s₂)
    (hone : ∀ {index : Nat} {c : Schema} {f place element : Frame} {s s₁ s₂ : Session},
      (f.hoistPlace setting build index c).Gives s place s₁ → (build place).Gives s₁ element s₂ →
      R f s (f.addPlace element index) s₂)
    {index : Nat} {places : List Schema}
    (h : (f.buildPlaces setting build index places).Gives s f' s') : R f s f' s' := by
  induction places generalizing index f s with
  | nil =>
    rw [buildPlaces, gives_pure] at h
    obtain ⟨rfl, rfl⟩ := h
    exact hrefl f s
  | cons c rest ih =>
    obtain ⟨place, s₁, element, s₂, hplace, helement, h⟩ := buildPlaces_cons_cases h
    exact htrans (hone hplace helement) (ih h)

theorem hoistTuple_cases {places : List Schema}
    (h : (f.hoistTuple build places).Gives s f' s') :
    ∃ base made s₁ hoisted s₂ inner,
      (hoist f base (tupleRecord places f.schema.additionalItems)).Gives s made s₁ ∧
      (build { made with tuple := true }).Gives s₁ hoisted s₂ ∧
      (build (f.referTo hoisted.name).restart).Gives s₂ inner s' ∧
      f' = inner.addExtra hoisted.asTuple := by
  simp only [hoistTuple, gives_bind, gives_pure] at h
  obtain ⟨made, s₁, hm, hoisted, s₂, hh, inner, _, hi, rfl, rfl⟩ := h
  exact ⟨_, made, s₁, hoisted, s₂, inner, hm, hh, hi, rfl⟩

theorem buildItems_cases (h : (f.buildItems setting build).Gives s f' s') :
    (f.schema.items = none ∧ f' = f ∧ s' = s) ∨
    (∃ item, f.schema.items = some (.single item) ∧
      (f.buildArray setting build item).Gives s f' s') ∨
    (∃ places, f.schema.items = some (.tuple places) ∧
      ((f.named = true ∧ ((f.markTuple (resolverAt setting f s).modelTypeName).buildPlaces
          setting build 0 places).Gives s f' s') ∨
        (f.named = false ∧ (f.hoistTuple build places).Gives s f' s'))) := by
  unfold buildItems at h
  split at h
  · rename_i hi
    rw [gives_pure] at h
    exact Or.inl ⟨hi, h.1.symm, h.2.symm⟩
  · rename_i item hi
    exact Or.inr (Or.inl ⟨item, hi, h⟩)
  · rename_i places hi
    refine Or.inr (Or.inr ⟨places, hi, ?_⟩)
    split at h
    · rename_i hn
      -- a frame with a name is the tuple itself
      simp only [buildTuple, gives_bind, gives_resolver] at h
      obtain ⟨_, _, ⟨rfl, rfl⟩, h⟩ := h
      exact Or.inl ⟨hn, h⟩
    · rename_i hn
      exact Or.inr ⟨by simpa using hn, h⟩

theorem buildExtraItems_cases {c? : Option Schema}
    (h : (f.buildExtraItems setting build c?).Gives s f' s') :
    ∃ t, (resolverAt setting f s).resolveOptional c? true true = .ok t ∧
      ((∃ c, c? = some c ∧ (t.complex && t.anonymous) = true ∧ ∃ base made s₁ hoisted s₂ items,
          (hoist f base c).Gives s made s₁ ∧ (build made).Gives s₁ hoisted s₂ ∧
          (build ((f.mapExtraItem (.referenceTo hoisted.name)).extraItemsPlace
            (.referenceTo hoisted.name) t.array)).Gives s₂ items s' ∧
          f' = (f.mapExtraItem (.referenceTo hoisted.name)).setExtraItems
            (items.addExtra hoisted)) ∨
        ((c?.isSome && t.complex && t.anonymous) = false ∧ ∃ items,
          (build (f.extraItemsPlace (c?.getD {}) t.array)).Gives s items s' ∧
          f' = f.setExtraItems items)) := by
  simp only [buildExtraItems, gives_bind, gives_resolver, gives_ofType, gives_pure] at h
  obtain ⟨_, _, ⟨rfl, rfl⟩, t, _, ⟨ht, rfl⟩, ⟨f₁, c', made?⟩, s₁, hh, items, _, hi, rfl, rfl⟩ := h
  refine ⟨t, ht, ?_⟩
  cases c? with
  | none =>
    -- items that nothing is said of are built of the empty schema
    simp only [hoistExtraItems, gives_pure, Prod.mk.injEq] at hh
    obtain ⟨⟨rfl, rfl, rfl⟩, rfl⟩ := hh
    exact Or.inr ⟨rfl, items, hi, rfl⟩
  | some c =>
    simp only [hoistExtraItems] at hh
    split at hh
    · rename_i hn
      simp only [gives_bind, gives_pure, Prod.mk.injEq] at hh
      obtain ⟨made, s₀, hm, hoisted, _, hb, ⟨rfl, rfl, rfl⟩, rfl⟩ := hh
      exact Or.inl ⟨c, rfl, hn, _, made, s₀, hoisted, _, items, hm, hb, hi, rfl⟩
    · rename_i hn
      simp only [gives_pure, Prod.mk.injEq] at hh
      obtain ⟨⟨rfl, rfl, rfl⟩, rfl⟩ := hh
      exact Or.inr ⟨by simpa using hn, items, hi, rfl⟩

theorem buildAdditionalItems_cases (h : (f.buildAdditionalItems setting build).Gives s f' s') :
    (f.schema.additionalItems = none ∧ f' = f ∧ s' = s) ∨
    (∃ extra, f.schema.additionalItems = some extra ∧
      ((extra.isEnabled = false ∧ f' = f.allowItems extra ∧ s' = s) ∨
        (extra.isEnabled = true ∧ f.schema.singleItem? = none ∧
          ((f.allowItems extra).buildExtraItems setting build extra.schema?).Gives s f' s'))) := by
  unfold buildAdditionalItems at h
  split at h
  · rename_i hnone
    rw [gives_pure] at h
    exact Or.inl ⟨hnone, h.1.symm, h.2.symm⟩
  · rename_i extra hextra
    refine Or.inr ⟨extra, hextra, ?_⟩
    split at h
    · rename_i hoff
      rw [gives_pure] at h
      exact Or.inl ⟨by simpa using hoff, h.1.symm, h.2.symm⟩
    · rename_i hon
      split at h
      · -- more items beside a schema for all of them are an error
        rw [gives_throw] at h
        exact h.elim
      · rename_i hsingle
        exact Or.inr ⟨by simpa using hon, by simpa using hsingle, h⟩

/-! ## Schemas -/

/-- The frame that a step of building starts from: filled in, with the reference noted. -/
def start (setting : Setting) (f : Frame) (c : Constraints) : Frame :=
  (f.filled setting c).dependOn f.schema.referenceName.toList

@[simp]
theorem pointMap_toPlace : f.pointMap.toPlace = f.toPlace := by
  unfold pointMap
  split <;> rfl

@[simp]
theorem pointMap_schema : f.pointMap.schema = f.schema := by
  unfold pointMap
  split <;> rfl

/-- What a step of building does once it has the constraints of the schema. -/
def Steps [Text.Transliteration] (setting : Setting) (build : Frame → Build Frame) (f : Frame)
    (c : Constraints) (s₀ : Session) (f' : Frame) (s' : Session) : Prop :=
  (f.named = true ∧ f.schema.reference.isSome = true ∧
      ((f.start setting c).buildReference setting build).Gives s₀ f' s') ∨
    ((f.named && f.schema.reference.isSome) = false ∧
      ∃ f₁ f₂ s₂ t f₃ s₃ t' f₄ s₄ f₅ s₅ required,
        ((f.start setting c).liftBranch setting).Gives s₀ f₁ s₀ ∧
        (f₁.fillContainer.buildAllOf setting build).Gives s₀ f₂ s₂ ∧
        (resolverAt setting f₂ s₂).resolve f₂.schema (!f₂.named) required = .ok t ∧
        ((f₂.setType t t.baseType).buildAdditionalProperties setting build).Gives s₂ f₃ s₃ ∧
        (resolverAt setting f₃ s₃).resolve f₃.schema (!f₃.named) (f₃.named || f₃.tuple) =
          .ok t' ∧
        ((f₃.pointMap.retype t').buildProperties setting build).Gives s₃ f₄ s₄ ∧
        (f₄.buildAdditionalItems setting build).Gives s₄ f₅ s₅ ∧
        (f₅.buildItems setting build).Gives s₅ f' s')

theorem buildStep_steps (h : (f.buildStep setting build).Gives s f' s') :
    ∃ c s₀, f.constraints.Gives s c s₀ ∧ f.Steps setting build c s₀ f' s' := by
  unfold buildStep at h
  simp only [populate, bind_assoc, pure_bind] at h
  rw [gives_bind] at h
  obtain ⟨c, s₀, hc, h⟩ := h
  refine ⟨c, s₀, hc, ?_⟩
  change ((if f.named && f.schema.reference.isSome then _ else _) : Build Frame).Gives s₀ f' s' at h
  split at h
  · rename_i href
    rw [Bool.and_eq_true] at href
    exact Or.inl ⟨href.1, href.2, h⟩
  · rename_i href
    refine Or.inr ⟨by simpa using href, ?_⟩
    simp only [gives_bind, gives_resolve] at h
    obtain ⟨f₁, s₁, hl, f₂, s₂, hb, t, _, ⟨ht, rfl⟩, f₃, s₃, hx, t', _, ⟨ht', rfl⟩, f₄, s₄, hp',
      f₅, s₅, hi, h⟩ := h
    obtain ⟨rfl, -⟩ := liftBranch_cases hl
    refine ⟨f₁, f₂, s₂, t, f₃, s₃, t', f₄, s₄, f₅, s₅, _, hl, hb, ht, hx, ?_, hp', hi, h⟩
    simpa only [resolverAt, pointMap_toPlace, pointMap_schema] using ht'

theorem buildStep_cases (h : (f.buildStep setting build).Gives s f' s') :
    ∃ c s₀, s₀.registry = s.registry ∧ f.Steps setting build c s₀ f' s' := by
  obtain ⟨c, s₀, hc, hsteps⟩ := buildStep_steps h
  exact ⟨c, s₀, constraints_registry hc, hsteps⟩

theorem fillContainer_model (f : Frame) : f.fillContainer.model = f.model := by
  unfold fillContainer
  split <;> rfl

theorem fillContainer_schema (f : Frame) : f.fillContainer.schema = f.schema := by
  unfold fillContainer
  split <;> rfl

theorem fillContainer_named (f : Frame) : f.fillContainer.named = f.named := by
  unfold fillContainer
  split <;> rfl

theorem resolverAt_fillContainer (setting : Setting) (f : Frame) (s : Session) :
    resolverAt setting f.fillContainer s = resolverAt setting f s := by
  unfold fillContainer
  split <;> rfl

/-- What a step does with a frame whose schema has no branches. -/
theorem buildStep_unbranched (hplace : (f.named && f.schema.reference.isSome) = false)
    (hall : f.schema.allOf = []) (h : (f.buildStep setting build).Gives s f' s') :
    ∃ c s₀ t f₃ s₃ t' f₄ s₄ f₅ s₅ required, f.constraints.Gives s c s₀ ∧
      (resolverAt setting f s₀).resolve f.schema (!f.named) required = .ok t ∧
      (((f.start setting c).fillContainer.setType t t.baseType).buildAdditionalProperties
        setting build).Gives s₀ f₃ s₃ ∧
      (resolverAt setting f₃ s₃).resolve f₃.schema (!f₃.named) (f₃.named || f₃.tuple) = .ok t' ∧
      ((f₃.pointMap.retype t').buildProperties setting build).Gives s₃ f₄ s₄ ∧
      (f₄.buildAdditionalItems setting build).Gives s₄ f₅ s₅ ∧
      (f₅.buildItems setting build).Gives s₅ f' s' := by
  obtain ⟨c, s₀, hc, ⟨hnamed, href, -⟩ | ⟨-, f₁, f₂, s₂, t, f₃, s₃, t', f₄, s₄, f₅, s₅, required,
    hlift, hbranches, ht, hrest⟩⟩ := buildStep_steps h
  · rw [hnamed, href] at hplace
    exact absurd hplace (by decide)
  have hschema : (f.start setting c).schema = f.schema := rfl
  have hf₁ : f₁ = f.start setting c := by
    obtain ⟨-, ⟨h₁, -⟩ | ⟨branch, hl, -⟩⟩ := liftBranch_cases hlift
    · exact h₁
    · -- there is no branch to lift
      have hlen := hl.1
      rw [hschema, hall] at hlen
      exact absurd hlen (by decide)
  subst hf₁
  have hf₂ : f₂ = (f.start setting c).fillContainer ∧ s₂ = s₀ := by
    rcases buildAllOf_cases hbranches with ⟨-, h₂, hs₂⟩ | ⟨hne, -⟩
    · exact ⟨h₂, hs₂⟩
    · rw [fillContainer_schema, hschema] at hne
      exact absurd hall hne
  obtain ⟨rfl, rfl⟩ := hf₂
  rw [fillContainer_schema, fillContainer_named, resolverAt_fillContainer] at ht
  exact ⟨c, s₂, t, f₃, s₃, t', f₄, s₄, f₅, s₅, required, hc, ht, hrest⟩

/-- What a step does if the frames below do it, is done at any depth. -/
theorem buildIn_all [Text.Transliteration] (setting : Setting)
    {R : Frame → Session → Frame → Session → Prop}
    (hstep : ∀ build : Frame → Build Frame, (∀ f s f' s', (build f).Gives s f' s' → R f s f' s') →
      ∀ f s f' s', (f.buildStep setting build).Gives s f' s' → R f s f' s') (depth : Nat) :
    ∀ f s f' s', (buildIn setting depth f).Gives s f' s' → R f s f' s' := by
  induction depth with
  | zero =>
    intro f s f' s' h
    rw [buildIn, gives_throw] at h
    exact h.elim
  | succ depth ih => exact hstep (buildIn setting depth) ih

/-- **Building a frame is building it step by step**, as deep as it takes. -/
theorem buildIn_induction [Text.Transliteration] (setting : Setting)
    {R : Frame → Session → Frame → Session → Prop}
    (hstep : ∀ build : Frame → Build Frame, (∀ f s f' s', (build f).Gives s f' s' → R f s f' s') →
      ∀ f s f' s', (f.buildStep setting build).Gives s f' s' → R f s f' s') :
    ∀ f s f' s', (f.build setting).Gives s f' s' → R f s f' s' :=
  fun f => buildIn_all setting hstep _ f

end KclModels.Frame
