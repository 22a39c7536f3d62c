import KclModels.Proofs.Build.Bounding

/-!
# The places of tuples

A tuple is declared as a record with one property for each place. If it has a name, its places are
built one after the other and become properties of its model. If it has none, a definition is made
of it: an object that declares the places, built as any object is. There the properties are put in
order, and a property whose place refers to a definition takes its constraints over.

What both ways have in common is said of a place by `IsSlot`, and of the items past the places by
`Rests`. Both rest on what a place without a name is left with (`Conveys`), whether it is built of
its own schema or of a reference to the definition that was made of it.
-/

namespace KclModels

variable {tr : Text.Transliteration}

/-- The schema of the items past the places of a tuple. -/
def Schema.extraItem (c : Schema) : Schema := (c.additionalItems.bind (·.schema?)).getD {}

/-- The places of a tuple from number `index` on, with their names. -/
def Schema.slots (index : Nat) (places : List Schema) : List (String × Schema) :=
  (places.zipIdx index).map fun e => (Frame.placeName e.2, e.1)

/--
The definition that is left of a property has no constraints, so that the property takes none over.
-/
def Definitions.LendsNothing (defs : Definitions) (c : Schema) : Prop :=
  c.form = .reference ∨ c.form = .record → ∃ d, defs.Ends c d ∧ d.isConstrained = false

namespace Model

/-- The model has the type of the schema and its limits, and asks for no place that it does not. -/
structure Conveys [Text.Transliteration] (o : Options) (r : Registry) (c : Schema) (m : Model) :
    Prop where
  type : m.Translates o r c
  limits : m.limits = c.limits
  order : m.order = none ∨ m.order = c.hints.order

/-- The model is that of a place of a tuple. -/
structure IsSlot [Text.Transliteration] (defs : Definitions) (o : Options) (r : Registry)
    (e : String × Schema) (p : Model) : Prop where
  name : p.name = e.1
  required : p.required = true
  type : e.2.Structural → p.Translates o r e.2
  limits : e.2.Structural → defs.LendsNothing e.2 → p.limits = e.2.limits
  order : e.2.Structural → e.2.hints.order = none → p.order = none

/-- The model allows the items past the places of a tuple that the schema allows. -/
structure Rests [Text.Transliteration] (o : Options) (r : Registry) (c : Schema) (m : Model) :
    Prop where
  allowed : m.hasAdditionalItems = c.hasAdditionalItems
  items : c.hasAdditionalItems = true → ∃ p, m.additionalItems = some p ∧
    (c.extraItem.Structural → p.Conveys o r c.extraItem)

/-- The model is that of a tuple with the places, for which there are the properties `own`. -/
structure HasSlots [Text.Transliteration] (defs : Definitions) (o : Options) (r : Registry)
    (places : List Schema) (c : Schema) (own : List Model) (m : Model) : Prop where
  tuple : m.type.tuple = true
  slots : List.Forall₂ (IsSlot defs o r) (Schema.slots 0 places) own
  positions : own.map (·.position) = List.range own.length
  rests : m.Rests o r c

variable {defs : Definitions} {o : Options} {r r' : Registry} {c d : Schema} {m m' : Model}
variable {e : String × Schema} {n : String}

theorem Conveys.mono (h : m.Conveys o r c) (hr : r.Grows r') : m.Conveys o r' c :=
  ⟨h.type.mono hr, h.limits, h.order⟩

theorem IsSlot.mono (h : m.IsSlot defs o r e) (hr : r.Grows r') : m.IsSlot defs o r' e where
  name := h.name
  required := h.required
  type hc := (h.type hc).mono hr
  limits := h.limits
  order := h.order

theorem Rests.mono (h : m.Rests o r c) (hr : r.Grows r') : m.Rests o r' c where
  allowed := h.allowed
  items hsome := by
    obtain ⟨p, hp, hconveys⟩ := h.items hsome
    exact ⟨p, hp, fun hc => (hconveys hc).mono hr⟩

theorem limits_congr (ht : SameType m m') (hk : m'.constraints.values = m.constraints.values) :
    m'.limits = m.limits := by
  rw [Model.limits, Model.limits, hk, ht.items, ht.value]

theorem Conveys.same (h : m.Conveys o r c) (ht : SameType m m')
    (hk : m'.constraints.values = m.constraints.values) (ho : m'.order = m.order) :
    m'.Conveys o r c :=
  ⟨h.type.same ht, (limits_congr ht hk).trans h.limits, ho ▸ h.order⟩

/-- What is left of an object that declares something conveys it. -/
theorem Conveys.made (h : m.Conveys o r (.referenceTo n)) (hc : c.IsRecord)
    (hget : r.get? n = some c) (hmade : n ∈ r.hoisted) : m.Conveys o r c where
  type := by
    have hreference := h.type.by_form
    rw [(Schema.isReference_referenceTo n).form] at hreference
    obtain ⟨n', hn', hm⟩ := hreference
    obtain rfl : n' = n := Reference.eq_of_name?_toDefinition hn'
    exact .record hc hget hmade hm
  limits := by
    rw [h.limits, Schema.limits, Schema.limits, hc.form, (Schema.isReference_referenceTo n).form]
    rfl
  order := .inl (h.order.elim id id)

end Model

namespace Frame

open Build Model

variable {setting : Setting} {build : Frame → Build Frame} {s s' s₁ s₂ : Session}
variable {f f' g place element : Frame} {defs : Definitions} {c d item value : Schema} {n : String}
variable {places : List Schema} {extra : Option (Extra Schema)}

/-! ## Places without a name -/

/-- **What a place without a name is left with conveys its schema.** -/
theorem Builds.conveys (h : f.Builds setting s f' s') (hnamed : f.named = false) (hopen : f.Open)
    (hc : f.schema.Structural) (hrec : ¬ f.schema.IsRecord) :
    f'.model.Conveys setting.options s'.registry f.schema where
  type := h.elim fun depth hbuild =>
    buildIn_translates setting depth f s f' s' hnamed hopen hc hrec hbuild
  limits := h.limits hnamed hopen hc hrec
  order := by
    have hsaid : f'.model.order = _ :=
      congrArg (fun said => said.metadata.order) (h.keptSaid hnamed hc hrec)
    rw [hsaid, Schema.keptSaid]
    split
    · exact .inl rfl
    · exact .inr rfl

/-- A place that was left with a reference to the definition that was made of an object conveys it. -/
theorem Builds.conveys_made (h : f.Builds setting s f' s') (hnamed : f.named = false)
    (hopen : f.Open) (hf : f.schema = .referenceTo n) (hc : c.IsRecord)
    (hget : s.registry.get? n = some c) (hmade : n ∈ s.registry.hoisted) :
    f'.model.Conveys setting.options s'.registry c := by
  have href := Schema.isReference_referenceTo n
  have hgrows := h.adds
  have hconveys := h.conveys hnamed hopen (hf ▸ .reference href)
    (hf ▸ Schema.not_isRecord_of_reference href)
  rw [hf] at hconveys
  exact hconveys.made hc (hgrows.keeps _ _ hget) (hgrows.hoisted _ hmade)

/-! ## What properties take over -/

/-- What the schema of the frame refers to has no constraints. -/
def Unlent (r : Registry) (f : Frame) : Prop :=
  ∀ reference target, f.schema.reference = some reference → r.resolve reference = .ok target →
    target.isConstrained = false

/-- A definition without a reference is where a reference to it leads. -/
theorem unlent_of_get? {r : Registry} (hf : f.schema = .referenceTo n) (hget : r.get? n = some d)
    (href : d.reference = none) (hd : d.isConstrained = false) : f.Unlent r := by
  intro reference target hsome htarget
  rw [hf] at hsome
  obtain rfl := Option.some.inj hsome
  have hleads := Registry.resolve_leads htarget
  obtain ⟨n', hn'⟩ := hleads.exists_name
  obtain rfl : n' = n := Reference.eq_of_name?_toDefinition hn'
  obtain rfl := hleads.unique (.stop hn' hget href)
  exact hd

/-- A place of whose schema nothing is lent is left with a schema of which nothing is lent. -/
theorem Builds.unlent (h : f.Builds setting s f' s') (hdefs : Knowing defs s)
    (hnamed : f.named = false) (hc : f.schema.Structural) (hrec : ¬ f.schema.IsRecord)
    (hlends : defs.LendsNothing f.schema) : f'.Unlent s'.registry := by
  have hgrows := h.adds
  -- what is not made again keeps its reference, which leads where `defs` says
  have hkept : f.schema.allOf = [] → f.schema.form.isMade = false → f'.Unlent s'.registry := by
    intro hall hmade reference target hsome htarget
    have hsame := (h.said hdefs hnamed (hc.intact hmade defs)).2 hall
    have href := hsame.symm.trans hsome
    have hform : f.schema.form = .reference := by rw [Schema.form, href]; rfl
    obtain ⟨d, hd, hfree⟩ := hlends (.inl hform)
    obtain rfl := (hd.leads (hdefs.grown hgrows) href).unique (Registry.resolve_leads htarget)
    exact hfree
  cases hc with
  | scalar hc => exact hkept hc.allOf (by rw [(Schema.IsPlain.scalar hc).form]; rfl)
  | empty hc => exact hkept hc.allOf (by rw [(Schema.IsPlain.empty hc).form]; rfl)
  | list hc => exact hkept hc.allOf (by rw [(Schema.IsPlain.list hc).form]; rfl)
  | reference hc => exact hkept hc.allOf (by rw [hc.form]; rfl)
  | array hc => exact hkept hc.allOf (by rw [hc.form]; rfl)
  | map hc => exact hkept hc.allOf (by rw [hc.form]; rfl)
  | record hc => exact absurd hc hrec
  | tuple hc =>
    -- a tuple refers to the record that was made of it, and that has no reference
    obtain ⟨build, hb, hstep⟩ := h.step
    obtain ⟨-, g, made, hoisted, inner, base, -, s₅, s₁, s₂, -, -, -, hunnamed, hm, hh, hi, rfl⟩ :=
      buildStep_tuple_record hb hnamed hc hstep
    have hfresh := made_fresh hm
    obtain ⟨-, hstored, -⟩ :=
      stored_of_hoist hb hm hh ⟨hfresh.model, hfresh.dependencies, hfresh.extras⟩ rfl
    obtain ⟨-, hschema⟩ := (hb _ _ _ _ hi).bare hunnamed ⟨rfl, rfl⟩ rfl
    exact unlent_of_get? (f := inner.addExtra hoisted.asTuple) hschema
      ((hb _ _ _ _ hi).adds.keeps _ _ hstored) rfl rfl

/-- A property takes over no constraints if what it refers to has none. -/
theorem DecoratedBy.constraints {r : Registry} (h : DecoratedBy setting r f f') (hf : f.Unlent r) :
    f'.model.constraints = f.model.constraints := by
  rcases h with ⟨-, rfl⟩ | ⟨reference, target, href, htarget, ⟨-, rfl⟩ | ⟨hyes, -⟩⟩
  · rfl
  · unfold markRole
    dsimp only
    split <;> split <;> rfl
  · exact absurd ((hf reference target href htarget).symm.trans hyes) (by decide)

/-- A built property is a slot if it conveys the schema and takes over no constraints. -/
theorem DecoratedBy.isSlot {r : Registry} {e : String × Schema} {o : Options}
    (h : DecoratedBy setting r f f') {position : Nat} (hname : f'.model.name = e.1)
    (hrequired : f'.model.required = true) (hconveys : e.2.Structural → f.model.Conveys o r e.2)
    (hunlent : e.2.Structural → defs.LendsNothing e.2 → f.Unlent r) :
    Model.IsSlot defs o r e { f'.model with position } := by
  have htype : SameType f.model { f'.model with position } :=
    { decorated_sameType h.decorated with }
  have horder : f'.model.order = f.model.order :=
    congrArg Metadata.order (decorated_metadata h.decorated)
  refine ⟨hname, hrequired, fun hc => (hconveys hc).type.same htype, fun hc hlends => ?_,
    fun hc hnone => horder.trans ((hconveys hc).order.elim id (·.trans hnone))⟩
  have hsame : f'.model.constraints = f.model.constraints := h.constraints (hunlent hc hlends)
  exact (limits_congr htype (congrArg Constraints.values hsame)).trans (hconveys hc).limits

/-- **A property of which everything is asked is a slot.** -/
theorem buildProperty_isSlot (hb : BuildsBelow setting build) (hdefs : Knowing defs s)
    {position : Nat} {e : String × Schema} (hdemands : f.demands e.1 = true)
    (h : (f.buildProperty setting build position e.1 e.2).Gives s f' s') :
    ∃ p, f'.model.properties = f.model.properties ++ [p] ∧
      p.IsSlot defs setting.options s'.registry e := by
  obtain ⟨p, hp, hasked⟩ := buildProperty_askedFor hb h
  have hrequired : p.required = true := by
    cases hinline : e.2.isInline with
    | true => exact (hasked.inline hinline).trans hdemands
    | false => exact hasked.present hinline (by rw [hdemands, Bool.true_or])
  obtain ⟨t, ht, ⟨hneeds, _, made, s₁, hoisted, s₂, property, property', hm, hh, hbuild, hd, rfl⟩ |
    ⟨hno, property, property', hbuild, hd, rfl⟩⟩ := buildProperty_steps (rfl : f.demands e.1 = _) h
  all_goals
    obtain rfl : _ = p := List.singleton_inj.mp (List.append_cancel_left hp)
    have hbuilt := hb _ _ _ _ hbuild
  · have hfresh := made_fresh hm
    obtain ⟨-, hstored, hmade⟩ :=
      stored_of_hoist hb hm hh ⟨hfresh.model, hfresh.dependencies, hfresh.extras⟩ rfl
    -- only a record is hoisted
    have hrecord : e.2.Structural → e.2.IsRecord := fun hc => by
      rw [propertyNeedsName, Bool.and_eq_true] at hneeds
      exact (Resolver.complex_anonymous_iff hc (.inl rfl) ht).mp hneeds.1
    refine ⟨_, hp, hd.isSlot hasked.name hrequired
      (fun hc => hbuilt.conveys_made rfl ⟨rfl, rfl⟩ rfl (hrecord hc) hstored hmade) fun hc hlends => ?_⟩
    obtain ⟨d, hends, hfree⟩ := hlends (.inr (hrecord hc).form)
    have hnoref := (hrecord hc).toHasKind.reference
    obtain rfl := hends.of_inline hnoref
    exact unlent_of_get? (hbuilt.bare rfl ⟨rfl, rfl⟩ rfl).2 (hbuilt.adds.keeps _ _ hstored) hnoref hfree
  · have hrecord : ¬ e.2.IsRecord := fun hrec => by
      rw [propertyNeedsName_iff ht, Schema.isInline, hrec.toHasKind.reference, hrec.isRecord] at hno
      exact absurd hno (by decide)
    exact ⟨_, hp, hd.isSlot hasked.name hrequired
      (fun hc => hbuilt.conveys rfl ⟨rfl, rfl⟩ hc hrecord)
      fun hc => hbuilt.unlent hdefs rfl hc hrecord⟩

/-! ## Places of a tuple with a name -/

theorem slots_cons (index : Nat) (c : Schema) (rest : List Schema) :
    Schema.slots index (c :: rest) = (placeName index, c) :: Schema.slots (index + 1) rest := rfl

/-- **A place of a tuple is left with what conveys it**, and has to be present. -/
theorem buildPlace_conveys (hb : BuildsBelow setting build) {index : Nat}
    (hplace : (f.hoistPlace setting build index c).Gives s place s₁)
    (h : (build place).Gives s₁ element s₂) :
    s.registry.Grows s₂.registry ∧ element.model.required = true ∧
      (c.Structural → element.model.Conveys setting.options s₂.registry c) := by
  have hbuilt := hb _ _ _ _ h
  rcases hoistPlace_cases hplace with ⟨rfl, rfl, hwhy⟩ |
    ⟨hnone, t, ht, hneeds, base, made, s₀, hoisted, hm, hh, rfl⟩
  · refine ⟨hbuilt.adds, (hbuilt.required rfl).2 rfl, fun hc => ?_⟩
    refine hbuilt.conveys rfl ⟨rfl, rfl⟩ hc fun hrec => ?_
    rcases hwhy with href | ⟨t, ht, hno⟩
    · have hrec : c.IsRecord := hrec
      exact absurd (hrec.toHasKind.reference ▸ href) (by decide)
    · have hneeds := (Resolver.complex_anonymous_iff hc (.inl rfl) ht).mpr hrec
      exact absurd (hneeds.symm.trans hno) (by decide)
  · obtain ⟨hgrows, hstored, hmade⟩ := stored_of_hoist hb hm hh (made_fresh hm) rfl
    refine ⟨hgrows.trans hbuilt.adds, (hbuilt.required rfl).2 rfl, fun hc => ?_⟩
    have hrec := (Resolver.complex_anonymous_iff hc (.inl rfl) ht).mp hneeds
    exact hbuilt.conveys_made rfl ⟨rfl, rfl⟩ rfl hrec hstored hmade

/-- **The places of a tuple with a name become slots, in order.** -/
theorem buildPlaces_slots (defs : Definitions) (hb : BuildsBelow setting build)
    {places : List Schema} : ∀ {index : Nat} {f f' : Frame} {s s' : Session},
    (f.buildPlaces setting build index places).Gives s f' s' →
    s.registry.Grows s'.registry ∧ ∃ own, f'.model.properties = f.model.properties ++ own ∧
      List.Forall₂ (IsSlot defs setting.options s'.registry) (Schema.slots index places) own ∧
      own.map (·.position) = List.range' index places.length := by
  induction places with
  | nil =>
    intro index f f' s s' h
    rw [buildPlaces, gives_pure] at h
    obtain ⟨rfl, rfl⟩ := h
    exact ⟨.refl _, [], (List.append_nil _).symm, .nil, rfl⟩
  | cons c rest ih =>
    intro index f f' s s' h
    obtain ⟨place, s₁, element, s₂, hplace, helement, h⟩ := buildPlaces_cons_cases h
    obtain ⟨hgrows, hrequired, hconveys⟩ := buildPlace_conveys hb hplace helement
    obtain ⟨hgrows', own, hown, hslots, hpositions⟩ := ih h
    -- the name and the position are set on the element, so its type and limits are its own
    have hslot : IsSlot defs setting.options s'.registry (placeName index, c)
        { element.model with
          name := placeName index, declaredName := placeName index, position := index } :=
      { name := rfl
        required := hrequired
        type := fun hc => ((hconveys hc).type.mono hgrows').same ⟨rfl, rfl, rfl, rfl⟩
        limits := fun hc _ => (hconveys hc).limits
        order := fun hc hnone => (hconveys hc).order.elim id (·.trans hnone) }
    refine ⟨hgrows.trans hgrows', _ :: own, ?_, .cons hslot hslots, ?_⟩
    · exact hown.trans (List.append_assoc _ [_] own)
    · rw [List.map_cons, hpositions]
      rfl

/-- The places of a tuple leave the type of the model and what it says of the items past them. -/
theorem buildPlaces_kept {index : Nat} {places : List Schema}
    (h : (f.buildPlaces setting build index places).Gives s f' s') :
    f'.model.type = f.model.type ∧ f'.model.hasAdditionalItems = f.model.hasAdditionalItems ∧
      f'.model.additionalItems = f.model.additionalItems :=
  buildPlaces_run (R := fun f _ f' _ => f'.model.type = f.model.type ∧
      f'.model.hasAdditionalItems = f.model.hasAdditionalItems ∧
      f'.model.additionalItems = f.model.additionalItems)
    (fun _ _ => ⟨rfl, rfl, rfl⟩)
    (fun h h' => ⟨h'.1.trans h.1, h'.2.1.trans h.2.1, h'.2.2.trans h.2.2⟩)
    (fun _ _ => ⟨rfl, rfl, rfl⟩) h

/-! ## Items past the places -/

/-- The schema of the items past the places stays, or a reference takes its place. -/
def Repoints (r : Registry) (c c' : Schema) : Prop :=
  c'.additionalItems = c.additionalItems ∨ ∃ item n, c.additionalItems = some (.schema item) ∧
    c'.additionalItems = some (.schema (.referenceTo n)) ∧ (item.Structural → item.IsRecord) ∧
    r.get? n = some item ∧ n ∈ r.hoisted

/-- The items past the places of a tuple, with the schema that they are left with. -/
theorem buildExtraItems_conveys (hb : BuildsBelow setting build) {c? : Option Schema}
    (h : (f.buildExtraItems setting build c?).Gives s f' s') :
    f'.model.hasAdditionalItems = f.model.hasAdditionalItems ∧
      (∃ p, f'.model.additionalItems = some p ∧ ((c?.getD {}).Structural →
        p.Conveys setting.options s'.registry (c?.getD {}))) ∧
      (f'.schema = f.schema ∨ ∃ item n, c? = some item ∧
        f'.schema.additionalItems = some (.schema (.referenceTo n)) ∧
        (item.Structural → item.IsRecord) ∧ s'.registry.get? n = some item ∧
        n ∈ s'.registry.hoisted) := by
  obtain ⟨t, ht, ⟨c, rfl, hneeds, base, made, s₁, hoisted, s₂, items, hm, hh, hi, rfl⟩ |
    ⟨hno, items, hi, rfl⟩⟩ := buildExtraItems_cases h
  · obtain ⟨hfresh, hschema, hnamed⟩ := extraItemsPlace_facts
      (f.mapExtraItem (.referenceTo hoisted.name)) (.referenceTo hoisted.name) t.array
    obtain ⟨-, hstored, hmade⟩ := stored_of_hoist hb hm hh (made_fresh hm) rfl
    have hrecord : c.Structural → c.IsRecord := fun hc =>
      (Resolver.complex_anonymous_iff hc (.inl rfl) ht).mp hneeds
    have hbuilt := hb _ _ _ _ hi
    refine ⟨rfl, ⟨_, rfl, fun hc => ?_⟩, .inr ⟨c, _, rfl, rfl, hrecord,
      hbuilt.adds.keeps _ _ hstored, hbuilt.adds.hoisted _ hmade⟩⟩
    exact (hbuilt.conveys_made hnamed hfresh.open hschema (hrecord hc) hstored hmade).same
      ⟨rfl, rfl, rfl, rfl⟩ rfl rfl
  · obtain ⟨hfresh, hschema, hnamed⟩ := extraItemsPlace_facts f (c?.getD {}) t.array
    refine ⟨rfl, ⟨_, rfl, fun hc => ?_⟩, .inl rfl⟩
    -- the schema that allows anything is no record, any other would have been hoisted
    have hrecord : ¬ (c?.getD {}).IsRecord := by
      intro hrec
      cases c? with
      | none => exact hrec.declares.elim (· rfl) (· rfl)
      | some c =>
        have hneeds := (Resolver.complex_anonymous_iff hc (.inl rfl) ht).mpr hrec
        exact absurd (hneeds.symm.trans hno) (by decide)
    have hconveys := (hb _ _ _ _ hi).conveys hnamed hfresh.open
    rw [hschema] at hconveys
    exact hconveys hc hrecord

/-- **A model allows the items past the places that the schema of its frame allows.** -/
theorem buildAdditionalItems_rests (hb : BuildsBelow setting build)
    (hno : f.model.hasAdditionalItems = false)
    (h : (f.buildAdditionalItems setting build).Gives s f' s') :
    f'.model.Rests setting.options s'.registry f.schema := by
  have hdenied : f.schema.hasAdditionalItems = false → f'.model.hasAdditionalItems = false →
      f'.model.Rests setting.options s'.registry f.schema := fun hoff hmodel =>
    ⟨hmodel.trans hoff.symm, fun hon => absurd (hoff.symm.trans hon) (by decide)⟩
  rcases buildAdditionalItems_cases h with ⟨hnone, rfl, -⟩ | ⟨extra, hextra, hcases⟩
  · exact hdenied (by rw [Schema.hasAdditionalItems, hnone]; rfl) hno
  have hallowed : f.schema.hasAdditionalItems = extra.isEnabled := by
    rw [Schema.hasAdditionalItems, hextra, Option.any_some]
  rcases hcases with ⟨hoff, rfl, -⟩ | ⟨hon, -, h⟩
  · exact hdenied (hallowed.trans hoff) hoff
  · obtain ⟨hkept, ⟨p, hp, hconveys⟩, -⟩ := buildExtraItems_conveys hb h
    have hitem : f.schema.extraItem = extra.schema?.getD {} := by
      rw [Schema.extraItem, hextra, Option.bind_some]
    exact ⟨hkept.trans hallowed.symm, fun _ => ⟨p, hp, hitem ▸ hconveys⟩⟩

/-- The schema of a frame still says of the items past the places what it said. -/
theorem buildAdditionalItems_repoints (hb : BuildsBelow setting build)
    (h : (f.buildAdditionalItems setting build).Gives s f' s') :
    Repoints s'.registry f.schema f'.schema := by
  rcases buildAdditionalItems_cases h with ⟨-, rfl, -⟩ | ⟨extra, hextra, ⟨-, rfl, -⟩ | ⟨-, -, h⟩⟩
  · exact .inl rfl
  · exact .inl rfl
  · obtain ⟨-, -, heq | ⟨item, n, hsome, hrest⟩⟩ := buildExtraItems_conveys hb h
    · exact .inl (congrArg Schema.additionalItems heq)
    · cases extra with
      | flag => exact absurd hsome (by simp [Extra.schema?])
      | schema c =>
        obtain rfl : c = item := Option.some.inj hsome
        exact .inr ⟨c, n, hextra, hrest⟩

theorem Repoints.mono {r r' : Registry} {c c' : Schema} (h : Repoints r c c') (hr : r.Grows r') :
    Repoints r' c c' := by
  refine h.imp_right ?_
  rintro ⟨item, n, hc, hc', hrecord, hget, hmade⟩
  exact ⟨item, n, hc, hc', hrecord, hr.keeps _ _ hget, hr.hoisted _ hmade⟩

/-! ## Tuples -/

/-- The later schema allows the items that the earlier one does, made a definition or not. -/
theorem Repoints.rests {o : Options} {r : Registry} {c c' : Schema} {m : Model}
    (h : Repoints r c c') (hm : m.Rests o r c') : m.Rests o r c := by
  rcases h with hsame | ⟨item, n, hc, hc', hrecord, hget, hmade⟩
  · have hallowed : c'.hasAdditionalItems = c.hasAdditionalItems := by
      rw [Schema.hasAdditionalItems, hsame, Schema.hasAdditionalItems]
    have hitem : c'.extraItem = c.extraItem := by rw [Schema.extraItem, hsame, Schema.extraItem]
    exact ⟨hm.allowed.trans hallowed, fun hon => hitem ▸ hm.items (hallowed.trans hon)⟩
  · have hitem : c.extraItem = item := by rw [Schema.extraItem, hc]; rfl
    have hitem' : c'.extraItem = .referenceTo n := by rw [Schema.extraItem, hc']; rfl
    have hallowed : c.hasAdditionalItems = true := by rw [Schema.hasAdditionalItems, hc]; rfl
    have hallowed' : c'.hasAdditionalItems = true := by rw [Schema.hasAdditionalItems, hc']; rfl
    obtain ⟨p, hp, hconveys⟩ := hm.items hallowed'
    refine ⟨hm.allowed.trans (hallowed'.trans hallowed.symm), fun _ => ⟨p, hp, fun hstructural => ?_⟩⟩
    rw [hitem] at hstructural ⊢
    rw [hitem'] at hconveys
    exact (hconveys (.reference (Schema.isReference_referenceTo n))).made (hrecord hstructural) hget
      hmade

/-- The steps that add properties number them. -/
theorem buildPropertyList_positions {properties : List (String × Schema)} :
    ∀ {position : Nat} {f f' : Frame} {s s' : Session},
    (f.buildPropertyList setting build position properties).Gives s f' s' →
    f'.model.properties.map (·.position) =
      f.model.properties.map (·.position) ++ List.range' position properties.length := by
  induction properties with
  | nil =>
    intro position f f' s s' h
    rw [buildPropertyList, gives_pure] at h
    rw [h.1]
    exact (List.append_nil _).symm
  | cons e rest ih =>
    intro position f f' s s' h
    obtain ⟨f₁, s₁, h₁, h₂⟩ := buildPropertyList_cons_cases h
    have hone : f₁.model.properties.map (·.position) =
        f.model.properties.map (·.position) ++ [position] := by
      obtain ⟨t, -, ⟨-, _, _, _, _, _, _, _, _, -, -, -, -, rfl⟩ | ⟨-, _, _, _, -, -, rfl⟩⟩ :=
        buildProperty_cases h₁
      all_goals exact List.map_append
    rw [ih h₂, hone, List.append_assoc]
    rfl

/-- Properties leave what the model says of the items past the places. -/
theorem buildPropertyList_allowsItems {position : Nat} {properties : List (String × Schema)}
    (h : (f.buildPropertyList setting build position properties).Gives s f' s') :
    f'.model.hasAdditionalItems = f.model.hasAdditionalItems := by
  refine buildPropertyList_run
    (R := fun f _ f' _ => f'.model.hasAdditionalItems = f.model.hasAdditionalItems)
    (fun _ _ => rfl) (fun h h' => h'.trans h) (fun h => ?_) h
  obtain ⟨t, -, ⟨-, _, _, _, _, _, _, _, _, -, -, -, -, rfl⟩ | ⟨-, _, _, _, -, -, rfl⟩⟩ :=
    buildProperty_cases h <;> rfl

/-- **A tuple with a name has a slot for each place.** -/
theorem Builds.slots_of_tuple (h : f.Builds setting s f' s') (defs : Definitions) (hf : f.Fresh)
    (hnamed : f.named = true) (hc : f.schema.IsTuple places) (hnone : f.schema.properties = []) :
    f'.model.HasSlots defs setting.options s'.registry places f.schema f'.model.properties := by
  obtain ⟨build, hb, hstep⟩ := h.step
  obtain ⟨g, _, s₃, t, f₄, s₄, f₅, s₅, -, -, hbegun, hprops, hadd, hitems⟩ :=
    buildStep_begun (.inr hc.toHasKind.reference) hc.allOf hc.values hstep
  have hschema₄ : f₄.schema = f.schema := (buildProperties_schema hprops).trans hbegun.schema
  have hkept₅ := buildAdditionalItems_parts hadd
  obtain ⟨f₆, hlist, rfl⟩ := buildProperties_cases hprops
  have hempty : g.schema.properties = [] := hbegun.schema ▸ hnone
  -- a tuple declares no properties, so its slots are all there is
  rw [hempty, buildPropertyList, gives_pure] at hlist
  obtain ⟨rfl, rfl⟩ := hlist
  have hproperties : g.model.properties = [] := by rw [hbegun.properties, hf.model]
  have hdenied : g.model.hasAdditionalItems = false := by rw [hbegun.allowsItems, hf.model]
  have hrests := buildAdditionalItems_rests (f := g.orderProperties setting) hb hdenied hadd
  have hnamed₅ : f₅.named = true := hkept₅.named.trans (hbegun.named.trans hnamed)
  have hitems₅ : f₅.schema.items = some (.tuple places) :=
    hkept₅.items.trans ((congrArg Schema.items hschema₄).trans hc.items)
  have hproperties₅ : f₅.model.properties = [] := by
    refine hkept₅.properties.trans ?_
    show sortProperties g.model.properties setting.options.keepOrder = []
    rw [hproperties]
    rfl
  rcases buildItems_cases hitems with ⟨hno, -⟩ | ⟨item, hsingle, -⟩ |
    ⟨places', hsome, ⟨-, hplaces⟩ | ⟨hunnamed, -⟩⟩
  · exact absurd (hno.symm.trans hitems₅) (by simp)
  · exact absurd (hsingle.symm.trans hitems₅) (by simp)
  · obtain rfl : places' = places := by simpa using hsome.symm.trans hitems₅
    obtain ⟨hgrows, own, hown, hslots, hpositions⟩ := buildPlaces_slots defs hb hplaces
    obtain ⟨htype, hallows, hextra⟩ := buildPlaces_kept hplaces
    have hall : f'.model.properties = own := by
      rw [hown]
      exact congrArg (· ++ own) hproperties₅
    -- as many slots as places: their positions are counted
    have hlength : own.length = places'.length := by
      rw [← List.length_map, hpositions, List.length_range']
    rw [hall]
    refine ⟨congrArg TypeInfo.tuple htype, hslots, ?_, ?_⟩
    · rw [hpositions, hlength, List.range_eq_range']
    · have hrests₅ := hrests.mono hgrows
      rw [hschema₄] at hrests₅
      refine ⟨hallows.trans hrests₅.allowed, fun hon => ?_⟩
      obtain ⟨p, hp, hconveys⟩ := hrests₅.items hon
      exact ⟨p, hextra.trans hp, hconveys⟩
  · exact absurd (hunnamed.symm.trans hnamed₅) (by decide)

/-- **The record of a tuple has a slot for each place**, and puts them in order. -/
theorem Builds.slots_of_record (h : f.Builds setting s f' s') (hdefs : Knowing defs s)
    (hf : f.Fresh) (htuple : f.tuple = true) (hc : f.schema = tupleRecord places extra) :
    ∃ own, f'.model.properties = sortProperties own setting.options.keepOrder ∧
      f'.asTuple.model.HasSlots defs setting.options s'.registry places f.schema own := by
  obtain ⟨build, hb, hstep⟩ := h.step
  obtain ⟨g, _, s₃, t, f₄, s₄, f₅, s₅, hreg, -, hbegun, hprops, hadd, hitems⟩ :=
    buildStep_begun (.inr (by rw [hc]; rfl)) (by rw [hc]; rfl) (by rw [hc]; rfl) hstep
  have hschema₄ : f₄.schema = f.schema := (buildProperties_schema hprops).trans hbegun.schema
  have hkept₅ := buildAdditionalItems_parts hadd
  have hrefers : ¬ g.Refers := by
    rw [Refers, hbegun.schema, hc]
    exact fun hrefers => absurd hrefers.2 (by simp [tupleRecord])
  obtain ⟨-, hgrows₄, hgrows₅⟩ := finish_adds hb hrefers hprops hadd hitems
  -- an object has no items
  obtain rfl : f' = f₅ := by
    have hnone : f₅.schema.items = none := by
      rw [hkept₅.items, hschema₄, hc]
      rfl
    rcases buildItems_cases hitems with ⟨-, rfl, -⟩ | ⟨_, hsome, -⟩ | ⟨_, hsome, -⟩
    · rfl
    · exact absurd (hnone.symm.trans hsome) (by simp)
    · exact absurd (hnone.symm.trans hsome) (by simp)
  obtain ⟨f₆, hlist, rfl⟩ := buildProperties_cases hprops
  have hdemands : ∀ name, g.demands name = true := fun name => by
    rw [demands, hbegun.tuple, htuple, Bool.true_or]
  have hnil : g.model.properties = [] := by rw [hbegun.properties, hf.model]
  have hslots : g.schema.properties = Schema.slots 0 places := by rw [hbegun.schema, hc]; rfl
  have hbase : s.registry.Grows s₃.registry := hreg ▸ .refl _
  have hlasts : Lasts fun demanded r e p => demanded = true → IsSlot defs setting.options r e p :=
    fun _ _ _ _ _ hr hp hdemanded => (hp hdemanded).mono hr
  have heach : BuildsEach setting s.registry
      (fun demanded r e p => demanded = true → IsSlot defs setting.options r e p) build := by
    intro f position e s₁ f' s₁' hgrows hproperty
    cases hdemanded : f.demands e.1 with
    | true =>
      obtain ⟨p, hp, hslot⟩ := buildProperty_isSlot hb (hdefs.grown hgrows) hdemanded hproperty
      exact ⟨p, hp, fun _ => hslot⟩
    | false =>
      obtain ⟨p, hp, -⟩ := buildProperty_askedFor hb hproperty
      exact ⟨p, hp, fun hyes => absurd hyes (by decide)⟩
  obtain ⟨-, own, hown, hall⟩ := buildPropertyList_each hb hlasts heach hbase hlist
  have hpositions := buildPropertyList_positions hlist
  have hdenied : f₆.model.hasAdditionalItems = false := by
    rw [buildPropertyList_allowsItems hlist, hbegun.allowsItems, hf.model]
  have hrests := buildAdditionalItems_rests (f := f₆.orderProperties setting) hb hdenied hadd
  rw [hnil, List.nil_append] at hown
  rw [hslots] at hall
  rw [hnil, hown, List.map_nil, List.nil_append, hslots, hall.length_eq,
    ← List.range_eq_range'] at hpositions
  have hgrows := hgrows₄.trans hgrows₅
  refine ⟨own, hkept₅.properties.trans ?_, rfl, hall.imp fun e p hp => ?_, hpositions, ?_⟩
  · rw [← hown]
    rfl
  · exact (hp (hdemands e.1)).mono hgrows
  · rw [hschema₄] at hrests
    have hrests' := hrests.mono hgrows₅
    exact ⟨hrests'.allowed, hrests'.items⟩

/--
**A tuple without a name refers to a record that was made of it.** The record is taken out, and has
a slot for each place.
-/
theorem Builds.tuple_apart (h : f.Builds setting s f' s') (hdefs : Knowing defs s)
    (hnamed : f.named = false) (hc : f.schema.IsTuple places) :
    ∃ n e own, f'.model.StandsFor setting.options s'.registry n ∧ f'.extras.lookup n = some e ∧
      e.properties = sortProperties own setting.options.keepOrder ∧
      e.HasSlots defs setting.options s'.registry places f.schema own := by
  obtain ⟨build, hb, hstep⟩ := h.step
  obtain ⟨f₄, g, made, hoisted, inner, base, s₄, s₅, s₁, s₂, hschema₄, hadd, hgrows₅, hunnamed, hm, hh,
    hi, rfl⟩ := buildStep_tuple_record hb hnamed hc hstep
  have hfresh := made_fresh hm
  obtain ⟨-, hschema⟩ := made_parts hm
  have hgrows₁ : s₅.registry.Grows s₁.registry := by
    rw [gives_hoist] at hm
    rw [← hm.2]
    exact Registry.hoist_grows _ _ _
  have hbuilt := hb _ _ _ _ hh
  have hinner := hb _ _ _ _ hi
  have hgrows := hbuilt.adds.trans hinner.adds
  obtain ⟨own, hown, hslots⟩ := hbuilt.slots_of_record (hdefs.grown (hgrows₅.trans hgrows₁))
    ⟨hfresh.model, hfresh.dependencies, hfresh.extras⟩ rfl hschema
  -- the record has the additional items of the tuple, repointed if they were hoisted
  have hrepoints : Repoints s'.registry f.schema (tupleRecord places g.schema.additionalItems) := by
    have hrepoints := buildAdditionalItems_repoints hb hadd
    rw [hschema₄] at hrepoints
    exact (hrepoints.mono hgrows₁).mono hgrows
  refine ⟨hoisted.name, hoisted.asTuple.model, own,
    (hinner.referTo hunnamed ⟨rfl, rfl⟩ rfl).same ⟨rfl, rfl, rfl, rfl⟩, ?_, hown, ?_⟩
  · exact (Assoc.lookup_putSorted _ _ _ _).trans (if_pos rfl)
  · refine ⟨hslots.tuple, hslots.slots.imp fun _ _ hslot => hslot.mono hinner.adds, hslots.positions, ?_⟩
    have hrests := hslots.rests.mono hinner.adds
    exact hrepoints.rests (hschema ▸ hrests)

/-- **A property that is a tuple refers to the record that was made of it.** -/
theorem buildProperty_tuple (hb : BuildsBelow setting build) (hdefs : Knowing defs s)
    (hc : c.IsTuple places) {position : Nat} {name : String}
    (h : (f.buildProperty setting build position name c).Gives s f' s') :
    ∃ p n e own, f'.model.properties = f.model.properties ++ [p] ∧ p.name = name ∧
      p.StandsFor setting.options s'.registry n ∧ f'.extras.lookup n = some e ∧
      e.properties = sortProperties own setting.options.keepOrder ∧
      e.HasSlots defs setting.options s'.registry places c own := by
  obtain ⟨t, ht, ⟨hneeds, -⟩ | ⟨-, _, property, property', hbuild, hd, rfl⟩⟩ := buildProperty_cases h
  · have hinline := (propertyNeedsName_iff ht).symm.trans hneeds
    rw [Schema.isInline, Schema.isRecord, hc.toHasKind.saysObject_array, Bool.false_and,
      Bool.and_false] at hinline
    exact absurd hinline (by decide)
  · have hbuilt := hb _ _ _ _ hbuild
    obtain ⟨n, e, own, hstands, he, hown, hslots⟩ := hbuilt.tuple_apart hdefs rfl hc
    have hsorted := (hbuilt.built ⟨rfl, rfl, rfl⟩).linked.sorted
    refine ⟨_, n, e, own, rfl, (decorated_name hd).trans (hb.names _ _ _ _ ⟨rfl, rfl, rfl⟩ hbuild),
      (hstands.same (decorated_sameType hd)).same ⟨rfl, rfl, rfl, rfl⟩, ?_, hown, hslots⟩
    show (Assoc.mergeSorted f.extras property'.extras).lookup n = some e
    rw [(decorated_same hd).1.extras, Assoc.lookup_mergeSorted hsorted.nodup, he, Option.some_or]

end Frame

end KclModels
