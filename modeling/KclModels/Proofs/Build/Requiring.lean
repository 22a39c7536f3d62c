import KclModels.Proofs.Build.Metadata

/-!
# What has to be present

Whether a value has to be present is said of its place, and its model takes that over first. After
that it changes in two ways only. Branches and items past the places of a tuple may lift to their
model that something in them has to be present; all other parts of a model leave it as it is. And
where a definition is made of a place, the model is built once more of the same place. So a model
without such parts says exactly what its place says.

The place of a property asks for it if the schema that declares the property does, or all properties
are asked for, as in the record of a tuple. It also asks for a property that nobody can set and that
has a value; but it finds that out from the schema that is left of the property, and of an inline
object that declares something a reference is left, which says nothing.
-/

namespace KclModels

variable {tr : Text.Transliteration}

/-- Nobody can set the value, and there is one. -/
def Schema.isPreset (c : Schema) : Bool := c.readOnly && c.defaultValue.isSome

/-- Nothing in the schema lifts to it that it has to be present. -/
structure Schema.Still (c : Schema) : Prop where
  allOf : c.allOf = []
  /-- Items past the places of a tuple are those of the definition that is made of the tuple. -/
  extraItems : ∀ b, c.additionalItems = some (.schema b) → c.items ≠ none

theorem Schema.still_referenceTo (n : String) : (Schema.referenceTo n).Still :=
  ⟨rfl, fun _ hb => by cases hb⟩

/--
The property has its name, and has to be present if it is asked for or preset. Parts of it may lift
to it that it has to be present as well, and an inline object is present only if it is asked for.
-/
structure Model.AskedFor (asked : Bool) (e : String × Schema) (p : Model) : Prop where
  name : p.name = e.1
  inline : e.2.isInline = true → p.required = asked
  still : e.2.isInline = false → e.2.Still → p.required = (asked || e.2.isPreset)
  present : e.2.isInline = false → (asked || e.2.isPreset) = true → p.required = true

/-- The model has the properties of the schema, and they are asked for as it says, or all of them. -/
def Model.AsksFor (all : Bool) (c : Schema) (m : Model) : Prop :=
  ∃ own places, m.properties.Perm (own ++ places) ∧
    List.Forall₂ (fun e p => p.AskedFor (all || c.required.contains e.1) e) c.properties own ∧
    (c.tupleItems? = none → places = [])

/-- The model has some of the properties of the schema, which are asked for as it says. -/
def Model.AsksForSome (all : Bool) (c : Schema) (m : Model) : Prop :=
  ∀ p ∈ m.properties, ∃ e ∈ c.properties, p.AskedFor (all || c.required.contains e.1) e

/--
The branches that are no references have properties of the branches of the schema, if these are
objects without branches.
-/
def Model.BranchesAskFor (all : Bool) (c : Schema) (m : Model) : Prop :=
  ∀ (i : Nat) (b' : Model), m.allOf[i]? = some b' → b'.reference = none →
    ∃ b, c.allOf[i]? = some b ∧ (b.allOf = [] → b.tupleItems? = none → b'.AsksForSome all b)

theorem Model.AskedFor.congr {asked : Bool} {e : String × Schema} {p p' : Model}
    (h : p.AskedFor asked e) (hname : p'.name = p.name) (hrequired : p'.required = p.required) :
    p'.AskedFor asked e where
  name := hname.trans h.name
  inline hinline := hrequired.trans (h.inline hinline)
  still hinline hstill := hrequired.trans (h.still hinline hstill)
  present hinline hasked := hrequired.trans (h.present hinline hasked)

theorem Model.HasEach.asksFor {all keepOrder : Bool} {c : Schema} {m : Model}
    (h : m.HasEach (fun e p => p.AskedFor (all || c.required.contains e.1) e) keepOrder c) :
    m.AsksFor all c := by
  obtain ⟨own, places, heq, hown, hplaces⟩ := h
  refine ⟨own, places, ?_, hown, hplaces⟩
  rw [heq]
  exact (sortBy_perm _ _).append_right places

theorem Model.AsksFor.some {all : Bool} {c : Schema} {m : Model} (h : m.AsksFor all c)
    (hnone : c.tupleItems? = none) : m.AsksForSome all c := by
  obtain ⟨own, places, hperm, hown, hplaces⟩ := h
  intro p hp
  rw [hperm.mem_iff, hplaces hnone, List.append_nil] at hp
  obtain ⟨i, hi⟩ := List.mem_iff_getElem?.mp hp
  obtain ⟨e, he, hasked⟩ := forall₂_getElem? hown.flip hi
  exact ⟨e, List.mem_of_getElem? he, hasked⟩

namespace Frame

open Build

variable {setting : Setting} {build : Frame → Build Frame} {s s' s₁ : Session}
variable {f f' g : Frame} {c : Schema} {n : String} {t : TypeInfo}

/-! ## Parts that lift nothing -/

theorem merge_required (f g : Frame) : (f.merge g false).model.required = f.model.required := by
  show (f.model.required || _) = _
  rw [Bool.false_and, Bool.or_false]

theorem addExtra_required (f g : Frame) : (f.addExtra g).model.required = f.model.required :=
  merge_required f g

theorem setValue_required (f g : Frame) : (f.setValue g).model.required = f.model.required :=
  merge_required f g

theorem pointMap_required (f : Frame) : f.pointMap.model.required = f.model.required := by
  unfold pointMap
  split <;> rfl

theorem markExtra_required (f : Frame) (declared : Bool) :
    (f.markExtra declared).model.required = f.model.required := by
  unfold markExtra
  split <;> rfl

theorem allowAny_required (f : Frame) (declared : Bool) :
    (f.allowAny declared).model.required = f.model.required := by
  unfold allowAny
  split <;> rfl

theorem setElement_required (f element : Frame) (item : Schema) (p : Polymorphism) :
    ((f.markElements item p).setElement element).model.required = f.model.required := by
  refine (merge_required _ _).trans ?_
  unfold markElements
  split <;> rfl

theorem buildProperty_still {position : Nat} {name : String} {c : Schema}
    (h : (f.buildProperty setting build position name c).Gives s f' s') :
    f'.model.required = f.model.required := by
  obtain ⟨t, -, ⟨-, _, _, _, _, _, _, _, _, -, -, -, -, rfl⟩ | ⟨-, _, _, _, -, -, rfl⟩⟩ :=
    buildProperty_cases h
  · exact (merge_required _ _).trans (addExtra_required _ _)
  · exact merge_required _ _

/-- Properties lift nothing. -/
theorem buildProperties_still (h : (f.buildProperties setting build).Gives s f' s') :
    f'.model.required = f.model.required := by
  obtain ⟨f₁, hlist, rfl⟩ := buildProperties_cases h
  have hsame : f₁.model.required = f.model.required := buildPropertyList_run
    (R := fun f _ f' _ => f'.model.required = f.model.required) (fun _ _ => rfl)
    (fun h h' => h'.trans h) buildProperty_still hlist
  exact hsame

/-! ## Parts that lift -/

theorem addBranch_required (f branch : Frame) (h : f.model.required = true) :
    (f.addBranch branch).model.required = true := by
  show (f.model.required || _) = true
  rw [h, Bool.true_or]

theorem buildAllOf_required (h : (f.buildAllOf setting build).Gives s f' s')
    (hf : f.model.required = true) : f'.model.required = true := by
  -- by induction over the branches, each of which can only add to what is required
  have hlist : ∀ {branches : List Schema} {index : Nat} {arrays : List Bool} {f f' : Frame}
      {s s' : Session}, (f.buildBranches setting build index branches).Gives s (f', arrays) s' →
      f.model.required = true → f'.model.required = true := by
    intro branches
    induction branches with
    | nil =>
      intro index arrays f f' s s' h hf
      rw [buildBranches, gives_pure, Prod.mk.injEq] at h
      exact h.1.1 ▸ hf
    | cons branch rest ih =>
      intro index arrays f f' s s' h hf
      obtain ⟨f₁, array, s₁, arrays', h₁, h₂⟩ := buildBranches_cons_cases h
      refine ih h₂ ?_
      obtain ⟨t, -, ⟨-, _, _, _, hoisted, _, _, -, -, -, rfl⟩ | ⟨-, _, -, rfl⟩⟩ :=
        buildBranch_cases h₁
      · exact addBranch_required _ _ hf
      · exact addBranch_required _ _ hf
  rcases buildAllOf_cases h with ⟨-, rfl, -⟩ | ⟨-, arrays, s₁, hbranches, -⟩
  · exact hf
  · exact hlist hbranches hf

theorem setExtraItems_required (f items : Frame) (h : f.model.required = true) :
    (f.setExtraItems items).model.required = true := by
  show (f.model.required || _) = true
  rw [h, Bool.true_or]

theorem buildAdditionalItems_required (h : (f.buildAdditionalItems setting build).Gives s f' s')
    (hf : f.model.required = true) : f'.model.required = true := by
  rcases buildAdditionalItems_cases h with ⟨-, rfl, -⟩ | ⟨extra, -, ⟨-, rfl, -⟩ | ⟨-, -, h⟩⟩
  · exact hf
  · exact hf
  · obtain ⟨t, -, ⟨c, -, -, _, _, _, _, _, _, -, -, -, rfl⟩ | ⟨-, _, -, rfl⟩⟩ :=
      buildExtraItems_cases h
    · exact setExtraItems_required _ _ hf
    · exact setExtraItems_required _ _ hf

/-! ## What is left of a place -/

/-- The way to build frames gives the model of a place what the place says, if nothing is lifted. -/
def BuildsRequired (build : Frame → Build Frame) : Prop :=
  ∀ g s g' s', g.named = false → (build g).Gives s g' s' →
    (g.schema.Still → g'.model.required = g.required) ∧
      (g.required = true → g'.model.required = true)

/-- A definition that is made of a place is referred to from the same place. -/
theorem BuildsRequired.refer (ihr : BuildsRequired build) (hnamed : f.named = false)
    (h : (build (f.referTo n).restart).Gives s f' s') : f'.model.required = f.required :=
  (ihr (f.referTo n).restart _ _ _ hnamed h).1 (Schema.still_referenceTo n)

/-- What is allowed beyond the properties lifts nothing, and no other items are allowed for it. -/
theorem buildAdditionalProperties_still (hb : BuildsBelow setting build) (ihr : BuildsRequired build)
    (hnamed : f.named = false) (hf : f.model.required = f.required)
    (h : (f.buildAdditionalProperties setting build).Gives s f' s') :
    f'.model.required = f.required ∧
      ∀ e, f'.schema.additionalItems = some e → f.schema.additionalItems = some e := by
  -- to note what is known of the values changes neither the place nor the schema
  have hmark : ∀ extra declared, ((f.deny extra).markExtra declared).model.required = f.required ∧
      ((f.deny extra).markExtra declared).toPlace = f.toPlace ∧
      ((f.deny extra).markExtra declared).schema = f.schema := by
    intro extra declared
    refine ⟨(markExtra_required _ declared).trans hf, ?_, (markExtra_same _ declared).schema⟩
    unfold markExtra
    split <;> rfl
  rcases buildAdditionalProperties_cases h with ⟨-, rfl, -⟩ | ⟨extra, -, ⟨-, rfl, -⟩ |
    ⟨rfl, h⟩ | ⟨value, rfl, ⟨-, h⟩ | ⟨-, -, h⟩ | ⟨-, hsome, -⟩⟩⟩
  · exact ⟨hf, fun _ he => he⟩
  · exact ⟨hf, fun _ he => he⟩
  · obtain ⟨hrequired, -, hschema⟩ := hmark (.flag true) f.model.type.complex
    obtain ⟨child, -, rfl⟩ := buildAnyValues_cases h
    have hany := (allowAny_same ((f.deny (.flag true)).markExtra f.model.type.complex)
      f.model.type.complex).schema.trans hschema
    refine ⟨((setValue_required _ _).trans (allowAny_required _ _)).trans hrequired, fun e he => ?_⟩
    rw [← hany]
    exact he
  · obtain ⟨hrequired, -, hschema⟩ := hmark (.schema value) false
    obtain ⟨child, -, rfl⟩ := buildMap_cases h
    refine ⟨(setValue_required _ _).trans hrequired, fun e he => ?_⟩
    rw [← hschema]
    exact he
  · obtain ⟨-, hplace, -⟩ := hmark (.schema value) true
    have hunnamed := (congrArg Place.named hplace).trans hnamed
    obtain ⟨_, _, _, hoisted, _, inner, -, -, hi, rfl⟩ := hoistExtended_cases h
    obtain ⟨-, -, hschema, -⟩ :=
      (hb _ _ _ _ hi).solitary hunnamed (Schema.solitary_referenceTo _) ⟨rfl, rfl⟩
    refine ⟨?_, fun e he => ?_⟩
    · refine (addExtra_required _ _).trans ((ihr.refer hunnamed hi).trans ?_)
      exact congrArg Place.required hplace
    · -- what is left of it is a reference, which allows no items
      have hnone : inner.schema.additionalItems = none := by
        rw [hschema]
        rfl
      exact absurd (hnone.symm.trans he) (by simp)
  · exact absurd (hnamed.symm.trans hsome) (by decide)

/-- Items past those that are described lift nothing if nothing is said of them, or of all items. -/
theorem buildAdditionalItems_still (hb : BuildsBelow setting build) (ihr : BuildsRequired build)
    (hplain : ∀ b, f.schema.additionalItems = some (.schema b) → f.schema.singleItem? ≠ none)
    (h : (f.buildAdditionalItems setting build).Gives s f' s') :
    f'.model.required = f.model.required := by
  rcases buildAdditionalItems_cases h with ⟨-, rfl, -⟩ | ⟨extra, hextra, ⟨-, rfl, -⟩ | ⟨-, hsingle, h⟩⟩
  · rfl
  · rfl
  · have hnone : extra.schema? = none := by
      cases extra with
      | flag => rfl
      | schema b => exact absurd hsingle (hplain b hextra)
    rw [hnone] at h
    obtain ⟨t, -, ⟨c, hsome, -⟩ | ⟨-, items, hi, rfl⟩⟩ := buildExtraItems_cases h
    · exact absurd hsome (by simp)
    · obtain ⟨hfresh, hschema, hnamed⟩ :=
        extraItemsPlace_facts (f.allowItems extra) (Option.getD none {}) t.array
      have hrequired :
          ((f.allowItems extra).extraItemsPlace (Option.getD none {}) t.array).required = false := by
        unfold extraItemsPlace
        split <;> rfl
      generalize (f.allowItems extra).extraItemsPlace (Option.getD none {}) t.array = place at *
      replace hschema : place.schema = {} := hschema
      -- nothing is said of the items, so nothing in them is required
      have hitems : items.model.required = false :=
        ((ihr _ _ _ _ hnamed hi).1 (hschema ▸ ⟨rfl, fun _ hb => by cases hb⟩)).trans hrequired
      obtain ⟨build', hb', hstep⟩ := (hb _ _ _ _ hi).step
      obtain ⟨g, _, _, _, u, _, -, -, hready, hrest⟩ :=
        buildStep_valueless hb' hnamed hfresh.open (by rw [hschema]) (by rw [hschema]; rfl) hstep
      obtain rfl := hready.itemless (by rw [hschema]) hrest
      show (f.model.required || (true && (items.model.required ||
        items.model.additionalProperties.any (·.required)))) = f.model.required
      rw [hitems, hready.value]
      exact Bool.or_false _

/-- Items lift nothing, and where a tuple was, its place is referred to. -/
theorem buildItems_required (ihr : BuildsRequired build) (hnamed : f.named = false)
    (hf : f.schema.tupleItems? = none → f.model.required = f.required)
    (hagain : f.required = true ∨ f.schema.allOf = [])
    (h : (f.buildItems setting build).Gives s f' s') : f'.model.required = f.required := by
  rcases buildItems_cases h with ⟨hnone, rfl, -⟩ | ⟨item, hitem, harray⟩ |
    ⟨places, -, ⟨hsome, -⟩ | ⟨-, htuple⟩⟩
  · exact hf (by rw [Schema.tupleItems?, hnone])
  · obtain ⟨t, -, ⟨-, _, made, s₁, hoisted, s₂, inner, -, -, hi, rfl⟩ | ⟨-, element, -, rfl⟩⟩ :=
      buildArray_cases harray
    · refine (addExtra_required _ _).trans ?_
      obtain ⟨hstill, hpresent⟩ :=
        ihr (f.mapItem (.referenceTo hoisted.name)).makeVirtual.restart _ _ _ hnamed hi
      rcases hagain with hrequired | hall
      · exact (hpresent hrequired).trans hrequired.symm
      · exact hstill ⟨hall, fun _ _ hnone => by cases hnone⟩
    · exact (setElement_required f element item _).trans (hf (by rw [Schema.tupleItems?, hitem]))
  · exact absurd (hnamed.symm.trans hsome) (by decide)
  · obtain ⟨_, _, _, hoisted, _, inner, -, -, hi, rfl⟩ := hoistTuple_cases htuple
    exact (addExtra_required _ _).trans (ihr.refer hnamed hi)

/-- What the place says is left by the steps after the branches, or lifted to if that was so. -/
theorem steps_required (hb : BuildsBelow setting build) (ihr : BuildsRequired build)
    {t' : TypeInfo} {isBase : Bool} {f₃ f₄ f₅ : Frame} {s₃ s₄ s₅ : Session}
    (hnamed : f.named = false) (hf : f.model.required = f.required)
    (hwhy : f.required = true ∨ f.schema.Still)
    (hextra : ((f.setType t isBase).buildAdditionalProperties setting build).Gives s f₃ s₃)
    (hprops : ((f₃.pointMap.retype t').buildProperties setting build).Gives s₃ f₄ s₄)
    (hadd : (f₄.buildAdditionalItems setting build).Gives s₄ f₅ s₅)
    (hitems : (f₅.buildItems setting build).Gives s₅ f' s') : f'.model.required = f.required := by
  obtain ⟨h₃, hextraItems⟩ :=
    buildAdditionalProperties_still (f := f.setType t isBase) hb ihr hnamed hf hextra
  have h₃' : (f₃.pointMap.retype t').model.required = f.required := (pointMap_required f₃).trans h₃
  rcases buildAdditionalProperties_persists hextra with ⟨hkept, -⟩ | ⟨-, -, -, g, hg, hapart⟩
  swap
  · -- what is left of an object that is taken apart is a reference
    obtain ⟨_, _, _, hoisted, _, inner, -, -, hi, rfl⟩ := hoistExtended_cases hapart
    obtain ⟨-, -, hschema, -⟩ := (hb _ _ _ _ hi).solitary (hg.named.trans hnamed)
      (Schema.solitary_referenceTo _) ⟨rfl, rfl⟩
    have hrest : ((inner.addExtra hoisted).pointMap.retype t').schema = .referenceTo hoisted.name :=
      pointMap_schema.trans hschema
    obtain ⟨rfl, -⟩ := childless_rest
      (hrest ▸ (Schema.solitary_referenceTo hoisted.name).childless) hprops hadd hitems
    exact h₃'
  have hkept₅ : Persists (f.setType t isBase) f₅ := hkept.trans (finish_persists hprops hadd)
  have h₄ := buildProperties_still hprops
  have hschema₄ := buildProperties_schema hprops
  have hrequired₅ : f₅.required = f.required := hkept₅.required
  rw [← hrequired₅]
  refine buildItems_required ihr (hkept₅.named.trans hnamed) (fun hplaceless => ?_) ?_ hitems
  · rw [hrequired₅]
    rcases hwhy with hrequired | hstill
    · exact (buildAdditionalItems_required hadd (h₄.trans (h₃'.trans hrequired))).trans hrequired.symm
    · refine (buildAdditionalItems_still hb ihr (fun b hsome hsingle => ?_) hadd).trans (h₄.trans h₃')
      -- of an array nothing may be said past its items, and a tuple is made a definition
      have hextra₀ : f.schema.additionalItems = some (.schema b) :=
        hextraItems _ ((congrArg _ (pointMap_schema.symm.trans hschema₄.symm)).trans hsome)
      have hitems₅ : f₅.schema.items = f.schema.items := hkept₅.schema.items
      have hitems₄ : f₄.schema.items = f.schema.items :=
        (buildAdditionalItems_parts hadd).items.symm.trans hitems₅
      refine hstill.extraItems b hextra₀ (Schema.items_eq_none ?_ ?_)
      · rw [← hsingle, Schema.singleItem?, Schema.singleItem?, hitems₄]
      · rw [← hplaceless, Schema.tupleItems?, Schema.tupleItems?, hitems₅]
  · rw [hrequired₅, ← List.length_eq_zero_iff, hkept₅.schema.length]
    exact hwhy.imp_right fun hstill => congrArg List.length hstill.allOf

theorem buildStep_required (hb : BuildsBelow setting build) (ihr : BuildsRequired build)
    (hnamed : f.named = false) (hwhy : f.required = true ∨ f.schema.Still)
    (h : (f.buildStep setting build).Gives s f' s') : f'.model.required = f.required := by
  obtain ⟨k, s₀, -, ⟨hsome, -⟩ | ⟨-, f₁, f₂, s₂, t, f₃, s₃, t', f₄, s₄, f₅, s₅, required, hlift,
    hall, -, hextra, -, hprops, hadd, hitems⟩⟩ := buildStep_cases h
  · exact absurd (hsome.symm.trans hnamed) (by decide)
  have hstart : f₁.required = f.required ∧ f₁.model.required = f.required ∧ f₁.named = f.named := by
    obtain ⟨-, ⟨rfl, -⟩ | ⟨b, -, rfl⟩⟩ := liftBranch_cases hlift <;> exact ⟨rfl, rfl, rfl⟩
  obtain ⟨hplace₁, hmodel₁, hnamed₁⟩ := hstart
  have hbranches : Persists f₁ f₂ := (fillContainer_persists f₁).trans (buildAllOf_persists hall)
  have hrequired₂ : f₂.required = f.required := hbranches.required.trans hplace₁
  rw [← fillContainer_model] at hmodel₁
  have hmodel₂ : f₂.model.required = f₂.required ∧ (f₂.required = true ∨ f₂.schema.Still) := by
    rcases hwhy with hrequired | hstill
    · have htrue := hrequired₂.trans hrequired
      exact ⟨(buildAllOf_required hall (hmodel₁.trans hrequired)).trans htrue.symm, .inl htrue⟩
    · -- without branches there is nothing to lift and nothing to build
      obtain ⟨-, ⟨rfl, -⟩ | ⟨b, hl, -⟩⟩ := liftBranch_cases hlift
      swap
      · have hmem : b ∈ f.schema.allOf := hl.mem
        exact absurd hmem (by rw [hstill.allOf]; exact List.not_mem_nil)
      have hschema : (f.start setting k).fillContainer.schema = f.schema := fillContainer_schema _
      rcases buildAllOf_cases hall with ⟨-, rfl, -⟩ | ⟨hne, -⟩
      · exact ⟨hmodel₁.trans hrequired₂.symm, .inr (hschema ▸ hstill)⟩
      · exact absurd ((congrArg Schema.allOf hschema).trans hstill.allOf) hne
  exact (steps_required hb ihr ((hbranches.named.trans hnamed₁).trans hnamed) hmodel₂.1 hmodel₂.2
    hextra hprops hadd hitems).trans hrequired₂

/-- **A place without a name is left with what it says**, unless something is lifted to it. -/
theorem buildIn_required (setting : Setting) (depth : Nat) :
    BuildsRequired (buildIn setting depth) := by
  induction depth with
  | zero =>
    intro g s g' s' _ h
    rw [buildIn, gives_throw] at h
    exact h.elim
  | succ depth ih =>
    intro g s g' s' hnamed h
    have hstep := fun hwhy => buildStep_required (fun g s g' s' hg => ⟨depth, hg⟩) ih hnamed hwhy h
    exact ⟨fun hstill => hstep (.inr hstill), fun hrequired => (hstep (.inl hrequired)).trans hrequired⟩

theorem Builds.required (h : f.Builds setting s f' s') (hnamed : f.named = false) :
    (f.schema.Still → f'.model.required = f.required) ∧
      (f.required = true → f'.model.required = true) :=
  h.elim fun depth hbuild => buildIn_required setting depth _ _ _ _ hnamed hbuild

/-! ## Properties -/

theorem decorated_required (h : Decorated setting f f') :
    f'.model.required = f.model.required := by
  have hrole : ∀ reference, (f.markRole setting reference).model.required = f.model.required := by
    intro reference
    unfold markRole
    dsimp only
    split <;> split <;> rfl
  rcases h with rfl | ⟨reference, rfl | ⟨c, rfl⟩⟩
  · rfl
  · exact hrole reference
  · exact hrole reference

/-- **What is asked of a property its model says.** -/
theorem buildProperty_askedFor (hb : BuildsBelow setting build) {position : Nat}
    {e : String × Schema} (h : (f.buildProperty setting build position e.1 e.2).Gives s f' s') :
    ∃ p, f'.model.properties = f.model.properties ++ [p] ∧ p.AskedFor (f.demands e.1) e := by
  obtain ⟨t, ht, ⟨hneeds, _, made, s₁, hoisted, s₂, property, property', hm, hh, hp, hd, rfl⟩ |
    ⟨hno, property, property', hp, hd, rfl⟩⟩ := buildProperty_steps (rfl : f.demands e.1 = _) h
  all_goals
    have hd := hd.decorated
    have hname : property'.model.name = e.1 :=
      (decorated_name hd).trans (hb.names _ _ _ _ ⟨rfl, rfl, rfl⟩ hp)
    have hlisted : (f.schema.required.contains e.1 || f.demands e.1) = f.demands e.1 := by
      rw [demands]
      cases f.schema.required.contains e.1 <;> cases f.tuple <;> rfl
    obtain ⟨hstill, hpresent⟩ := (hb _ _ _ _ hp).required rfl
  · have hinline : e.2.isInline = true := (propertyNeedsName_iff ht).symm.trans hneeds
    have hrequired : property'.model.required = f.demands e.1 := by
      refine (decorated_required hd).trans ((hstill (Schema.still_referenceTo _)).trans ?_)
      -- the reference that is left has no default
      show ((f.schema.required.contains e.1 || false) || f.demands e.1) = _
      rw [Bool.or_false, hlisted]
    refine ⟨_, rfl, hname, fun _ => hrequired, fun hno => ?_, fun hno => ?_⟩
    · exact absurd (hinline.symm.trans hno) (by decide)
    · exact absurd (hinline.symm.trans hno) (by decide)
  · have hinline : e.2.isInline = false := (propertyNeedsName_iff ht).symm.trans hno
    have hplace : (f.propertyPlace e.1 e.2 (f.demands e.1)).required =
        (f.demands e.1 || e.2.isPreset) := by
      show ((f.schema.required.contains e.1 || (e.2.defaultValue.isSome && e.2.readOnly)) ||
        f.demands e.1) = _
      rw [Schema.isPreset, Bool.and_comm, Bool.or_right_comm, hlisted]
    refine ⟨_, rfl, hname, fun hyes => ?_, fun _ hc => ?_, fun _ hasked => ?_⟩
    · exact absurd (hinline.symm.trans hyes) (by decide)
    · exact (decorated_required hd).trans ((hstill hc).trans hplace)
    · exact (decorated_required hd).trans (hpresent (hplace.trans hasked))

/-- A frame without branches has its properties, asked for as it says, unless it is made a definition. -/
theorem Builds.asksFor_or (h : f.Builds setting s f' s')
    (hplace : f.named = false ∨ f.schema.reference = none) (hall : f.schema.allOf = [])
    (hnil : f.model.properties = []) :
    f'.model.AsksFor f.tuple f.schema ∨ (f.named = false ∧ f'.model.properties = []) := by
  obtain ⟨depth, hbuild⟩ := h
  have heach : ∀ depth, BuildsEach setting s.registry
      (fun asked _ e p => p.AskedFor asked e) (buildIn setting depth) :=
    fun depth g position e s₁ g' s₁' _ hproperty =>
      buildProperty_askedFor (fun g s g' s' hg => ⟨depth, hg⟩) hproperty
  exact (buildIn_each (fun _ _ _ _ _ _ hp => hp) heach depth _ _ _ _ (.refl _) hplace hall hnil
    hbuild).imp_left Model.HasEach.asksFor

/-- **The properties of a definition without branches are asked for as its schema says.** -/
theorem Builds.asksFor (h : f.Builds setting s f' s') (hnamed : f.named = true)
    (href : f.schema.reference = none) (hall : f.schema.allOf = []) (hnil : f.model.properties = []) :
    f'.model.AsksFor f.tuple f.schema := by
  rcases h.asksFor_or (.inr href) hall hnil with hasks | ⟨hunnamed, -⟩
  · exact hasks
  · exact absurd (hnamed.symm.trans hunnamed) (by decide)

/-! ## Branches -/

/-- Branches are built one after the other, in the place of the frame. -/
theorem buildBranches_askFor (hb : BuildsBelow setting build) {branches : List Schema} :
    ∀ {index : Nat} {arrays : List Bool} {f f' : Frame} {s s' : Session},
    (f.buildBranches setting build index branches).Gives s (f', arrays) s' →
    ∃ l, f'.model.allOf = f.model.allOf ++ l ∧ List.Forall₂ (fun b m => m.reference = none →
      b.allOf = [] → b.tupleItems? = none → m.AsksForSome f.tuple b) branches l := by
  induction branches with
  | nil =>
    intro index arrays f f' s s' h
    rw [buildBranches, gives_pure, Prod.mk.injEq] at h
    exact ⟨[], by rw [h.1.1, List.append_nil], .nil⟩
  | cons branch rest ih =>
    intro index arrays f f' s s' h
    obtain ⟨f₁, array, s₁, arrays', h₁, h₂⟩ := buildBranches_cons_cases h
    obtain ⟨l, hl, hrest⟩ := ih h₂
    obtain ⟨t, -, ⟨-, _, _, _, hoisted, _, composed, -, -, hc, rfl⟩ | ⟨-, composed, hc, rfl⟩⟩ :=
      buildBranch_cases h₁
    · -- what is left of a branch that is made a definition is a reference
      obtain ⟨-, -, -, n, -, hlinks⟩ :=
        (hb _ _ _ _ hc).solitary rfl (Schema.solitary_referenceTo _) ⟨rfl, rfl⟩
      refine ⟨(composed.addExtra hoisted).model :: l, hl.trans (List.append_assoc _ [_] l),
        .cons (fun hnone => ?_) hrest⟩
      exact absurd (hlinks.reference.symm.trans hnone) (by simp)
    · refine ⟨composed.pointMap.model :: l, hl.trans (List.append_assoc _ [_] l),
        .cons (fun _ hall hplaceless p hp => ?_) hrest⟩
      rw [(pointMap_sameParts composed).properties] at hp
      rcases (hb _ _ _ _ hc).asksFor_or (.inl rfl) hall rfl with hasks | ⟨-, hnone⟩
      · exact hasks.some hplaceless p hp
      · rw [hnone] at hp
        exact absurd hp List.not_mem_nil

/-- **What inline branches of a definition declare is asked for as they say.** -/
theorem Builds.branchesAskFor (h : f.Builds setting s f' s') (hnamed : f.named = true)
    (href : f.schema.reference = none) (hlift : f.schema.Unlifted) (hitems : f.schema.items = none)
    (hnil : f.model.allOf = []) : f'.model.BranchesAskFor f.tuple f.schema := by
  obtain ⟨build, hb, hstep⟩ := h.step
  obtain ⟨k, s₀, -, ⟨-, hsome, -⟩ | ⟨-, f₁, f₂, s₂, t, f₃, s₃, t', f₄, s₄, f₅, s₅, required, hlifted,
    hall, -, hextra, -, hprops, hadd, hrest⟩⟩ := buildStep_cases hstep
  · rw [href] at hsome
    exact absurd hsome (by decide)
  obtain ⟨-, ⟨rfl, -⟩ | ⟨b, hl, -⟩⟩ := liftBranch_cases hlifted
  swap
  · exact absurd hl.sole (hlift.not_sole b)
  have hschema : (f.start setting k).fillContainer.schema = f.schema := fillContainer_schema _
  have hmodels : (f.start setting k).fillContainer.model.allOf = [] :=
    (congrArg Model.allOf (fillContainer_model _)).trans hnil
  have hplace : Persists (f.start setting k) f₂ :=
    (fillContainer_persists _).trans (buildAllOf_persists hall)
  have hbranches : List.Forall₂ (fun b m => m.reference = none → b.allOf = [] →
      b.tupleItems? = none → m.AsksForSome f.tuple b) f.schema.allOf f₂.model.allOf := by
    rcases buildAllOf_cases hall with ⟨hnone, rfl, -⟩ | ⟨-, arrays, s₁, hlist, -⟩
    · rw [hmodels, ← hschema, hnone]
      exact .nil
    · obtain ⟨l, hl, hforall⟩ := buildBranches_askFor hb hlist
      rw [hmodels, List.nil_append] at hl
      rw [hschema, (fillContainer_persists _).tuple] at hforall
      exact hl ▸ hforall
  have hnamed₂ : f₂.named = true := hplace.named.trans hnamed
  rcases buildAdditionalProperties_parts hextra with hsame | ⟨-, hunnamed, -⟩
  swap
  · exact absurd (hnamed₂.symm.trans hunnamed) (by decide)
  have hkept := buildParts_retains hprops hadd
  have hitems₅ : f₅.schema.items = none := by
    obtain ⟨extra, hextra₅⟩ := hkept.schema
    have hitems₃ : f₃.schema.items = none :=
      (hsame.items.trans (hplace.schema.items :)).trans hitems
    rw [hextra₅]
    exact (congrArg Schema.items pointMap_schema).trans hitems₃
  -- no step after the branches changes them, as there are no items to build
  have hallOf : f'.model.allOf = f₂.model.allOf := by
    rcases buildItems_cases hrest with ⟨-, rfl, -⟩ | ⟨item, hsome, -⟩ | ⟨places, hsome, -⟩
    · exact hkept.allOf.trans ((pointMap_sameParts f₃).allOf.trans hsame.allOf)
    · exact absurd (hitems₅.symm.trans hsome) (by simp)
    · exact absurd (hitems₅.symm.trans hsome) (by simp)
  intro i b' hb' hnone
  rw [hallOf] at hb'
  obtain ⟨b, hget, hasks⟩ := forall₂_getElem? hbranches.flip hb'
  exact ⟨b, hget, hasks hnone⟩

end Frame

end KclModels
