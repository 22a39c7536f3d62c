import KclModels.Proofs.Build.Outline
import KclModels.Proofs.Schema.Examined

/-!
# Building finds the faults of a schema

A fault that cannot be generated is found by the step that comes to the schema: its values to choose
from are looked at first, whatever becomes of the schema, and its items after everything else. So a
schema of which a frame was built is sound, given that the schemas of the frames below it are, and
the argument follows the step: each part of the schema is the schema of a frame below, or of a
definition that was made of it.

Two things change a schema on the way. References take the place of branches of which definitions
were made; a schema that was open stays so. And the levels of a map between the map and its innermost
values have no frames of their own, so of these nothing but the values to choose from is looked at.
-/

namespace KclModels.Frame

open Build

variable {tr : Text.Transliteration}
variable {setting : Setting} {build : Frame → Build Frame} {s s' : Session} {f f' : Frame}
variable {c : Schema}

/-- The way to build frames fails for schemas that are not sound. -/
def BuildsSound (build : Frame → Build Frame) : Prop :=
  ∀ f s f' s', (build f).Gives s f' s' → f.schema.Sound

/-! ## Values to choose from -/

theorem pruneEnum_eq_none {values : List Value}
    (h : ∃ v ∈ values, (∃ items, v = .arr items) ∨ ∃ fields, v = .obj fields) :
    Constraints.pruneEnum values = none := by
  obtain ⟨v, hv, hkind⟩ := h
  induction values with
  | nil => exact absurd hv List.not_mem_nil
  | cons w rest ih =>
    rcases List.mem_cons.mp hv with rfl | hv
    · rcases hkind with ⟨items, rfl⟩ | ⟨fields, rfl⟩ <;> rfl
    · have hrest := ih hv
      cases w <;> simp [Constraints.pruneEnum, hrest]

theorem not_choosesStructure_of_constraints {k : Constraints} (hs : f.constraints.Gives s k s') :
    ¬ f.schema.ChoosesStructure := by
  intro hchoice
  have hnone : Constraints.pruneEnum (Constraints.ofSchema f.schema).enumValues = none :=
    pruneEnum_eq_none hchoice
  have hsome : (Constraints.ofSchema f.schema).enumValues.isEmpty = false := by
    obtain ⟨v, hv, -⟩ := hchoice
    exact List.isEmpty_eq_false_iff_exists_mem.mpr ⟨v, hv⟩
  unfold constraints at hs
  simp only [hsome, hnone] at hs
  exact gives_throw.mp hs

theorem not_choosesStructure_of_populate (hs : (f.populate setting).Gives s f' s') :
    ¬ f.schema.ChoosesStructure := by
  rw [populate, gives_bind] at hs
  obtain ⟨k, _, hk, -⟩ := hs
  exact not_choosesStructure_of_constraints hk

theorem not_choosesStructure_of_buildStep (hs : (f.buildStep setting build).Gives s f' s') :
    ¬ f.schema.ChoosesStructure := by
  unfold buildStep at hs
  rw [gives_bind] at hs
  obtain ⟨_, _, hp, -⟩ := hs
  exact not_choosesStructure_of_populate hp

section Steps

variable (hb : BuildsSound build)

include hb

/-- The schema of a definition that was made is sound. -/
theorem BuildsSound.made {g m h : Frame} {s₁ s₂ : Session} {base : String}
    (hm : (hoist f base c).Gives s m s₁) (hh : (build g).Gives s₁ h s₂)
    (hg : g.schema = m.schema) : c.Sound := by
  have hsound := hb _ _ _ _ hh
  rw [gives_hoist] at hm
  rw [hg, ← hm.1] at hsound
  exact hsound

/-! ## Compositions -/

theorem buildBranch_sound {index : Nat} {branch : Schema} {array : Bool}
    (hs : (f.buildBranch setting build index branch).Gives s (f', array) s') :
    branch.Sound ∧ (f'.schema = f.schema ∨ ∃ n, ¬ branch.Plain ∧
      f'.schema = { f.schema with allOf := f.schema.allOf.set index (.referenceTo n) }) := by
  obtain ⟨t, ht, ⟨hneeds, base, made, s₁, h, s₂, g, hm, hh, -, rfl⟩ | ⟨-, g, hg, rfl⟩⟩ :=
    buildBranch_cases hs
  · refine ⟨hb.made hm hh rfl, Or.inr ⟨h.name, fun hplain => ?_, rfl⟩⟩
    exact absurd (hneeds.symm.trans (branchNeedsName_of_plain hplain ht)) (by simp)
  · exact ⟨hb _ _ _ _ hg, Or.inl rfl⟩

theorem buildBranches_sound {branches : List Schema} : ∀ {done : List Schema} {index : Nat}
    {arrays : List Bool} {f f' : Frame} {s s' : Session}, f.schema.allOf = done ++ branches →
    index = done.length →
    (f.buildBranches setting build index branches).Gives s (f', arrays) s' →
    (∀ b ∈ branches, b.Sound) ∧ ∃ l, Schema.Renames branches l ∧
      f'.schema = { f.schema with allOf := done ++ l } := by
  induction branches with
  | nil =>
    intro done index arrays f f' s s' hall _ hs
    rw [buildBranches, gives_pure, Prod.mk.injEq] at hs
    obtain ⟨⟨rfl, -⟩, -⟩ := hs
    exact ⟨fun b hmem => absurd hmem List.not_mem_nil, [], .nil, Schema.eq_with_allOf hall⟩
  | cons branch rest ih =>
    intro done index arrays f f' s s' hall hindex hs
    obtain ⟨f₁, array, s₁, arrays', h₁, h₂⟩ := buildBranches_cons_cases hs
    obtain ⟨hsound, hschema⟩ := buildBranch_sound hb h₁
    -- a branch that became a definition is replaced by a reference
    obtain ⟨b, hrename, hschema⟩ : ∃ b,
        (b = branch ∨ ((∃ n, b = .referenceTo n) ∧ ¬ branch.Plain)) ∧
        f₁.schema = { f.schema with allOf := done ++ b :: rest } := by
      rcases hschema with hschema | ⟨n, hplain, hschema⟩
      · exact ⟨branch, Or.inl rfl, hschema.trans (Schema.eq_with_allOf hall)⟩
      · refine ⟨.referenceTo n, Or.inr ⟨⟨n, rfl⟩, hplain⟩, ?_⟩
        rw [hschema, hall, hindex, List.set_append_right _ _ (Nat.le_refl _), Nat.sub_self,
          List.set_cons_zero]
    have hall₁ : f₁.schema.allOf = (done ++ [b]) ++ rest := by
      rw [hschema, List.append_assoc]
      rfl
    obtain ⟨hrest, l, hl, hschema'⟩ :=
      ih hall₁ (by rw [List.length_append, hindex]; rfl) h₂
    refine ⟨List.forall_mem_cons.mpr ⟨hsound, hrest⟩, b :: l, .cons hrename hl, ?_⟩
    rw [hschema', hschema, List.append_assoc]
    rfl

/-- The branches of a composition are sound, and references may take their places. -/
theorem buildAllOf_sound (hs : (f.buildAllOf setting build).Gives s f' s') :
    (∀ b ∈ f.schema.allOf, b.Sound) ∧ ∃ l, Schema.Renames f.schema.allOf l ∧
      f'.schema = { f.schema with allOf := l } := by
  rcases buildAllOf_cases hs with ⟨hnil, rfl, -⟩ | ⟨-, arrays, t, hbranches, -⟩
  · refine ⟨fun b hmem => ?_, f'.schema.allOf, .refl _, Schema.eq_with_allOf rfl⟩
    rw [hnil] at hmem
    exact absurd hmem List.not_mem_nil
  · have hall : f.schema.allOf = [] ++ f.schema.allOf := rfl
    exact buildBranches_sound hb hall rfl hbranches

/-! ## Additional properties -/

theorem buildMapLeaf_sound {parent level : Frame} {t : TypeInfo}
    (hs : (buildMapLeaf build parent level t).Gives s f' s') : level.schema.Sound := by
  rcases buildMapLeaf_cases hs with ⟨-, base, made, s₁, h, s₂, required, hm, hh, -⟩ |
    ⟨-, required, hg⟩
  · exact hb.made hm hh rfl
  · exact hb (level.require required) _ _ _ hg

omit hb in
/-- Of a level of maps the values to choose from are looked at. -/
theorem not_choosesStructure_of_joinMapLevel {level child : Frame}
    (hs : (level.joinMapLevel setting child).Gives s f' s') :
    ¬ level.schema.ChoosesStructure := by
  rw [joinMapLevel, gives_bind] at hs
  obtain ⟨_, _, hp, -⟩ := hs
  exact not_choosesStructure_of_populate (f := level.mapExtraValue child.schema) hp

/-- Levels of maps that have no items are sound. -/
theorem buildMapLevel_sound (v : Schema) : ∀ {parent f' : Frame} {s s' : Session},
    (v.Layer → v.items = none ∧ v.additionalItems = none) →
    (buildMapLevel setting build parent v).Gives s f' s' → v.Sound := by
  induction v using Schema.value_induction with
  | step v ih =>
    intro parent f' s s' hlayer hs
    obtain ⟨t, ht, ⟨next, child, s₁, hv, hmap, href, hchild, hjoin⟩ | ⟨-, hleaf⟩⟩ :=
      buildMapLevel_cases hs
    · obtain ⟨hobject, hall, hproperties⟩ := Resolver.object_of_map href ht hmap
      have hvalue : v.extraValue? = some next := by
        rw [Schema.extraValue?, hv]
        rfl
      obtain ⟨hitems, hextra⟩ := hlayer ⟨href, hproperties, hall, by rw [hvalue]; rfl⟩
      refine Schema.sound_of_children ?_ fun hopen d hd => ?_
      · rintro (⟨-, hmixes, -⟩ | hchoice)
        · rw [Schema.singleItem?, hitems] at hmixes
          exact absurd hmixes (by simp)
        · exact not_choosesStructure_of_joinMapLevel hjoin hchoice
      · -- nothing but the next level is in this one
        have hrecord : v.isRecord = false := by
          rw [Schema.isRecord, hall, hproperties]
          simp
        rcases Schema.mem_children_iff.1 hd with ⟨n, hd⟩ | hd | hd | ⟨l, hd, -⟩ | hd | hd
        · exact absurd (hproperties ▸ hd) List.not_mem_nil
        · exact absurd (hall ▸ hd) List.not_mem_nil
        · exact absurd (hitems.symm.trans hd) (by simp)
        · exact absurd (hitems.symm.trans hd) (by simp)
        · obtain rfl : next = d := by simpa using hv.symm.trans hd
          exact ih next hv (hopen.values next hv hrecord) hchild
        · exact absurd (hextra.symm.trans hd) (by simp)
    · have hvalue : (parent.mapValue v).schema.Sound := buildMapLeaf_sound hb hleaf
      exact hvalue

/-- The values beyond the properties are sound, unless an open schema was looked at as a whole. -/
theorem buildAdditionalProperties_sound (hcomplex : f.model.type.complex = f.schema.isRecord)
    (hs : (f.buildAdditionalProperties setting build).Gives s f' s') :
    f.schema.Sound ∨
      (∃ extra, f'.schema = { f.schema with additionalProperties := extra }) ∧
        (f.schema.Open → ∀ v, f.schema.additionalProperties = some (.schema v) → v.Sound) := by
  rcases buildAdditionalProperties_cases hs with ⟨hnone, rfl, -⟩ | ⟨extra, hextra, ⟨hoff, rfl, -⟩ |
    ⟨rfl, hany⟩ | ⟨value, rfl, ⟨hflat, hmap⟩ | ⟨-, -, hhoist⟩ | ⟨-, -, hvalues⟩⟩⟩
  · exact Or.inr ⟨f'.schema.exists_additionalProperties, fun _ v hv =>
      absurd (hnone.symm.trans hv) (by simp)⟩
  · refine Or.inr ⟨f.schema.exists_additionalProperties, fun _ v hv => ?_⟩
    obtain rfl : extra = .schema v := by simpa using hextra.symm.trans hv
    exact absurd hoff (by simp [Extra.isEnabled])
  · obtain ⟨child, -, rfl⟩ := buildAnyValues_cases hany
    refine Or.inr ⟨?_, fun _ v hv => absurd (hextra.symm.trans hv) (by simp)⟩
    cases f.model.type.complex <;> exact f.schema.exists_additionalProperties
  · obtain ⟨child, hchild, rfl⟩ := buildMap_cases hmap
    refine Or.inr ⟨⟨_, rfl⟩, fun hopen v hv => ?_⟩
    obtain rfl : value = v := by simpa using hextra.symm.trans hv
    exact buildMapLevel_sound hb value
      (hopen.values value hv (hcomplex.symm.trans hflat)) hchild
  · -- the whole schema became a definition, so it was looked at there
    obtain ⟨base, made, s₁, h, s₂, inner, hm, hh, -, -⟩ := hoistExtended_cases hhoist
    exact Or.inl (hb.made hm hh rfl)
  · obtain ⟨t, -, ⟨-, base, made, s₁, h, s₂, child, required, hm, hh, -, rfl⟩ |
      ⟨-, child, required, hg, rfl⟩⟩ := buildExtraValues_cases hvalues
    · refine Or.inr ⟨⟨_, rfl⟩, fun _ v hv => ?_⟩
      obtain rfl : value = v := by simpa using hextra.symm.trans hv
      exact hb.made hm hh rfl
    · refine Or.inr ⟨f.schema.exists_additionalProperties, fun _ v hv => ?_⟩
      obtain rfl : value = v := by simpa using hextra.symm.trans hv
      exact hb _ _ _ _ hg

/-! ## Properties -/

theorem buildProperty_sound {position : Nat} {name : String}
    (hs : (f.buildProperty setting build position name c).Gives s f' s') :
    c.Sound ∧ f'.schema = f.schema := by
  obtain ⟨t, -, ⟨-, base, made, s₁, h, s₂, required, g, g', hm, hh, -, -, rfl⟩ |
    ⟨-, required, g, g', hg, -, rfl⟩⟩ := buildProperty_cases hs
  · exact ⟨hb.made hm hh rfl, rfl⟩
  · exact ⟨hb _ _ _ _ hg, rfl⟩

theorem buildPropertyList_sound {properties : List (String × Schema)} : ∀ {position : Nat}
    {f f' : Frame} {s s' : Session},
    (f.buildPropertyList setting build position properties).Gives s f' s' →
    (∀ p ∈ properties, p.2.Sound) ∧ f'.schema = f.schema := by
  induction properties with
  | nil =>
    intro position f f' s s' hs
    rw [buildPropertyList, gives_pure] at hs
    exact ⟨fun p hp => absurd hp List.not_mem_nil, by rw [hs.1]⟩
  | cons p rest ih =>
    intro position f f' s s' hs
    obtain ⟨f₁, s₁, h₁, h₂⟩ := buildPropertyList_cons_cases hs
    obtain ⟨hsound, hschema⟩ := buildProperty_sound hb h₁
    obtain ⟨hrest, hschema'⟩ := ih h₂
    exact ⟨List.forall_mem_cons.mpr ⟨hsound, hrest⟩, hschema'.trans hschema⟩

theorem buildProperties_sound (hs : (f.buildProperties setting build).Gives s f' s') :
    (∀ p ∈ f.schema.properties, p.2.Sound) ∧ f'.schema = f.schema := by
  obtain ⟨f₁, hlist, rfl⟩ := buildProperties_cases hs
  obtain ⟨hsound, hschema⟩ := buildPropertyList_sound hb hlist
  exact ⟨hsound, hschema⟩

/-! ## Items -/

theorem buildPlaces_sound {places : List Schema} : ∀ {index : Nat} {f f' : Frame}
    {s s' : Session}, (f.buildPlaces setting build index places).Gives s f' s' →
    ∀ c ∈ places, c.Sound := by
  induction places with
  | nil => exact fun _ c hc => absurd hc List.not_mem_nil
  | cons c rest ih =>
    intro index f f' s s' hs
    obtain ⟨place, s₁, g, s₂, hp, hg, hrest⟩ := buildPlaces_cons_cases hs
    refine List.forall_mem_cons.mpr ⟨?_, ih hrest⟩
    rcases hoistPlace_cases hp with ⟨rfl, -⟩ | ⟨-, t, -, -, base, made, s₀, h, hm, hh, -⟩
    · exact hb _ _ _ _ hg
    · exact hb.made hm hh rfl

omit hb in
/-- Of the object that stands for a tuple everything is looked at. -/
theorem tupleRecord_open (places : List Schema) (extra : Option (Extra Schema)) :
    (tupleRecord places extra).Open where
  reference := rfl
  branches hlen := absurd hlen (by simp [tupleRecord])
  values v hv := absurd hv (by simp [tupleRecord])

theorem hoistTuple_sound {places : List Schema}
    (hs : (f.hoistTuple build places).Gives s f' s') : ∀ c ∈ places, c.Sound := by
  obtain ⟨base, made, s₁, h, s₂, inner, hm, hh, -, -⟩ := hoistTuple_cases hs
  intro c hc
  refine (hb.made hm hh rfl).child (tupleRecord_open places _) ?_
  obtain ⟨i, hi, rfl⟩ := List.getElem_of_mem hc
  refine Schema.property_mem_children (n := placeName i) ?_
  refine List.mem_map.mpr ⟨(places[i], i), ?_, rfl⟩
  exact List.mem_zipIdx_iff_getElem?.mpr (List.getElem?_eq_getElem hi)

/-- The items that are described are sound. -/
theorem buildItems_sound (hs : (f.buildItems setting build).Gives s f' s') :
    (∀ c, f.schema.items = some (.single c) → c.Sound) ∧
      ∀ l, f.schema.items = some (.tuple l) → ∀ c ∈ l, c.Sound := by
  rcases buildItems_cases hs with ⟨hnone, -⟩ | ⟨item, hitem, harray⟩ | ⟨places, hplaces, htuple⟩
  · rw [hnone]
    exact ⟨fun _ h => absurd h (by simp), fun _ h => absurd h (by simp)⟩
  · rw [hitem]
    refine ⟨fun c h => ?_, fun _ h => absurd h (by simp)⟩
    obtain rfl : item = c := by simpa using h
    obtain ⟨t, -, ⟨-, base, made, s₁, h, s₂, inner, hm, hh, -, -⟩ | ⟨-, element, he, -⟩⟩ :=
      buildArray_cases harray
    · exact hb.made hm hh rfl
    · exact hb _ _ _ _ he
  · rw [hplaces]
    refine ⟨fun _ h => absurd h (by simp), fun l h => ?_⟩
    obtain rfl : places = l := by simpa using h
    rcases htuple with ⟨-, htuple⟩ | ⟨-, htuple⟩
    · exact buildPlaces_sound hb htuple
    · exact hoistTuple_sound hb htuple

theorem buildExtraItems_sound {c? : Option Schema}
    (hs : (f.buildExtraItems setting build c?).Gives s f' s') : ∀ c, c? = some c → c.Sound := by
  rintro c rfl
  obtain ⟨t, -, ⟨d, hd, -, base, made, s₁, h, s₂, items, hm, hh, -, -⟩ | ⟨-, items, hg, -⟩⟩ :=
    buildExtraItems_cases hs
  · obtain rfl : c = d := by simpa using hd
    exact hb.made hm hh rfl
  · have hsound := hb _ _ _ _ hg
    rw [Option.getD_some, (extraItemsPlace_facts f c t.array).2.1] at hsound
    exact hsound

/-- Items are described each on its own if more are allowed, and those are sound. -/
theorem buildAdditionalItems_sound (hs : (f.buildAdditionalItems setting build).Gives s f' s') :
    ¬ f.schema.MixesItems ∧ (∀ c, f.schema.additionalItems = some (.schema c) → c.Sound) ∧
      f'.schema.items = f.schema.items := by
  rcases buildAdditionalItems_cases hs with ⟨hnone, rfl, -⟩ | ⟨extra, hextra, ⟨hoff, rfl, -⟩ |
    ⟨-, hsingle, hitems⟩⟩
  · refine ⟨?_, fun c hc => absurd (hnone.symm.trans hc) (by simp), rfl⟩
    rintro ⟨-, hmore⟩
    rw [Schema.hasAdditionalItems, hnone] at hmore
    exact absurd hmore (by simp)
  · refine ⟨?_, fun c hc => ?_, rfl⟩
    · rintro ⟨-, hmore⟩
      rw [Schema.hasAdditionalItems, hextra, Option.any_some, hoff] at hmore
      exact absurd hmore (by simp)
    · obtain rfl : extra = .schema c := by simpa using hextra.symm.trans hc
      exact absurd hoff (by simp [Extra.isEnabled])
  · refine ⟨?_, fun c hc => ?_, ?_⟩
    · -- both a schema for items and more items would have been an error
      rintro ⟨hsome, -⟩
      rw [hsingle] at hsome
      exact absurd hsome (by simp)
    · obtain rfl : extra = .schema c := by simpa using hextra.symm.trans hc
      exact buildExtraItems_sound hb hitems c rfl
    · obtain ⟨t, -, ⟨_, -, -, _, _, _, _, _, _, -, -, -, rfl⟩ | ⟨-, _, -, rfl⟩⟩ :=
        buildExtraItems_cases hitems <;> rfl

/-! ## Schemas -/

/-- What is found out about a whole schema by the steps after its branches are built. -/
theorem finish_sound {f₃ f₄ f₅ : Frame} {s₃ s₄ s₅ : Session} {t t' : TypeInfo} {required : Bool}
    {r : Resolver} (hwhole : f.schema.Whole)
    (ht : r.resolve f.schema (!f.named) required = .ok t)
    (hextra : ((f.setType t t.baseType).buildAdditionalProperties setting build).Gives s f₃ s₃)
    (hprops : ((f₃.pointMap.retype t').buildProperties setting build).Gives s₃ f₄ s₄)
    (hadd : (f₄.buildAdditionalItems setting build).Gives s₄ f₅ s₅)
    (hitems : (f₅.buildItems setting build).Gives s₅ f' s') :
    ¬ f.schema.MixesItems ∧
      (f.schema.Open → ∀ d ∈ ({ f.schema with allOf := [] } : Schema).children, d.Sound) := by
  have hrecord : (f.setType t t.baseType).model.type.complex = f.schema.isRecord :=
    (Resolver.resolveWith_kind hwhole.reference ht).1
  rcases buildAdditionalProperties_sound hb hrecord hextra with hsound |
    ⟨⟨extra, hschema⟩, hvalues⟩
  · have hsound : f.schema.Sound := hsound
    exact ⟨fun hmixes => hsound.here (Or.inl ⟨hwhole, hmixes⟩),
      fun hopen d hd => hsound.child hopen (Schema.mem_children_of_beside hd)⟩
  · obtain ⟨hproperties, hkept⟩ := buildProperties_sound hb hprops
    obtain ⟨hmixes, hmore, hitems'⟩ := buildAdditionalItems_sound hb hadd
    obtain ⟨hsingle, hplaces⟩ := buildItems_sound hb hitems
    -- each step leaves the parts alone that the later ones look at
    have hschema₃ : (f₃.pointMap.retype t').schema =
        { f.schema with additionalProperties := extra } := pointMap_schema.trans hschema
    rw [hschema₃] at hproperties hkept
    rw [hkept] at hmixes hmore hitems'
    rw [hitems'] at hsingle hplaces
    refine ⟨hmixes, fun hopen d hd => ?_⟩
    rcases Schema.mem_children_iff.1 hd with ⟨n, hd⟩ | hd | hd | ⟨l, hl, hd⟩ | hd | hd
    · exact hproperties (n, d) hd
    · exact absurd hd List.not_mem_nil
    · exact hsingle d hd
    · exact hplaces l hl d hd
    · exact hvalues hopen d hd
    · exact hmore d hd

/-- **A step of building finds the faults of its schema**, if building the frames below does. -/
theorem buildStep_sound (hs : (f.buildStep setting build).Gives s f' s') : f.schema.Sound := by
  have hplain := not_choosesStructure_of_buildStep hs
  -- what is found out if the schema is built itself
  have hparts : f.schema.Whole → ¬ f.schema.MixesItems ∧
      (f.schema.Open → ∀ d ∈ f.schema.children, d.Sound) := by
    intro hwhole
    obtain ⟨k, s₀, -, ⟨-, href, -⟩ | ⟨-, f₁, f₂, s₂, t, f₃, s₃, t', f₄, s₄, f₅, s₅, required,
      hlift, hall, ht, hextra, -, hprops, hadd, hitems⟩⟩ := buildStep_cases hs
    · rw [hwhole.reference] at href
      exact absurd href (by simp)
    · obtain ⟨-, ⟨rfl, -⟩ | ⟨branch, hl, -⟩⟩ := liftBranch_cases hlift
      swap
      · exact absurd hl (not_lifts_of_steady hwhole.branches branch)
      have hfilled : (f.start setting k).fillContainer.schema = f.schema :=
        (fillContainer_same _).schema
      obtain ⟨hbranches, l, hl, hschema⟩ := buildAllOf_sound hb hall
      rw [hfilled] at hbranches hl hschema
      obtain ⟨hmixes, hchildren⟩ := finish_sound hb (hschema ▸ hwhole.rename hl) ht hextra hprops
        hadd hitems
      rw [hschema] at hmixes hchildren
      refine ⟨hmixes, fun hopen d hd => ?_⟩
      rcases Schema.mem_children_or_beside hd with hd | hd
      · exact hbranches d hd
      · exact hchildren (hopen.rename hl) d hd
  refine Schema.sound_of_children ?_ fun hopen => (hparts hopen.toWhole).2 hopen
  rintro (⟨hwhole, hmixes⟩ | hchoice)
  · exact (hparts hwhole).1 hmixes
  · exact hplain hchoice

end Steps

/-- **Of a schema with a fault that is examined no frame is built.** -/
theorem build_sound (hs : (f.build setting).Gives s f' s') : f.schema.Sound :=
  buildIn_induction setting (R := fun f _ _ _ => f.schema.Sound)
    (fun _ hb _ _ _ _ hs => buildStep_sound hb hs) f s f' s' hs

end KclModels.Frame
