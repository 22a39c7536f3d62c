import KclModels.Proofs.Build.FileStanding

/-!
# Which models are marked as bases

Building a place marks its model as that of a base if the schema there ends at an object with a
discriminator, and an array if its elements are marked. A place may be built anew once a part of it
was made a definition; the mark stays the same, since a definition that was made ends where the part
does. This is shown for all places at once, by the depth of building.
-/

namespace KclModels

variable {tr : Text.Transliteration}

/--
The schema, or what stands for it, comes down to a base: it ends at one, its items come down to one, or
the one branch that is put in its place does. So does a composition, for all that is known, that is built
once more because a definition was made of its elements, and may then give way to a branch.
-/
inductive Schema.Bears (ends : Schema → Schema → Prop) : Schema → Prop
  | ends {c d : Schema} : ends c d → d.discriminator.isSome = true → Bears ends c
  | items {c item : Schema} : c.items = some (.single item) → Bears ends item → Bears ends c
  | lifted {c b : Schema} : c.Sole b → b.reference.isSome = true ∨ b.isScalar = true →
      Bears ends b → Bears ends c
  | mixed {c item : Schema} : c.items = some (.single item) → item.isInline = true → ¬ c.Steady →
      Bears ends c

/-- Where a schema ends depends on the schemas in it only. -/
theorem Schema.Bears.mono {ends ends' : Schema → Schema → Prop} {c : Schema} (h : c.Bears ends)
    (hends : ∀ t : Schema, t.Within c → ∀ d, ends t d → ends' t d) : c.Bears ends' := by
  induction h with
  | ends hd hbase => exact .ends (hends _ (.refl _) _ hd) hbase
  | items hitem _ ih =>
    refine .items hitem (ih fun t ht => hends t (.child (mem_children_iff.mpr ?_) ht))
    exact .inr (.inr (.inl hitem))
  | lifted hb hkind _ ih =>
    refine .lifted hb hkind (ih fun t ht => hends t (.child (mem_children_iff.mpr ?_) ht))
    exact .inr (.inl hb.mem)
  | mixed hitem hinline hmixed => exact .mixed hitem hinline hmixed

namespace Registry

variable {r r' : Registry} {c c' d : Schema} {n : String}

/-- The schema at the end of the references that begin with the schema `c`. -/
inductive Ends (r : Registry) (c : Schema) : Schema → Prop
  | here : c.reference = none → Ends r c c
  | leads {reference : String} {d : Schema} : c.reference = some reference → r.Leads reference d →
      Ends r c d

/-- The schema comes down to a base among the definitions that are known. -/
def Bears (r : Registry) : Schema → Prop := Schema.Bears r.Ends

theorem Ends.grown (h : r.Ends c d) (hr : r.Grows r') : r'.Ends c d := by
  cases h with
  | here href => exact .here href
  | leads href hd => exact .leads href (hd.mono hr.keeps)

theorem Bears.grown (h : r.Bears c) (hr : r.Grows r') : r'.Bears c :=
  h.mono fun _ _ _ hd => hd.grown hr

/-- Which base a schema ends at depends on its plain keywords alone. -/
theorem bears_of_keywords (hk : c'.toKeywords = c.toKeywords) (hd : r.Ends c' d)
    (hbase : d.discriminator.isSome = true) : r.Bears c := by
  have hreference : c'.reference = c.reference := congrArg Keywords.reference hk
  cases hd with
  | here href =>
    rw [show c'.discriminator = c.discriminator from congrArg Keywords.discriminator hk] at hbase
    exact .ends (.here (hreference ▸ href)) hbase
  | leads href hd => exact .ends (.leads (hreference ▸ href) hd) hbase

/-- A definition that is stored ends where its schema does. -/
theorem ends_of_stored (hget : r.get? n = some c) (h : r.Ends (.referenceTo n) d) : r.Ends c d := by
  cases h with
  | here href => exact absurd href (by simp [Schema.referenceTo])
  | leads href hd =>
    obtain rfl := Option.some.inj href
    cases hd with
    | stop hn hc hnone =>
      obtain rfl := Reference.eq_of_name?_toDefinition hn
      obtain rfl := Option.some.inj (hget.symm.trans hc)
      exact .here hnone
    | next hn hc hnext hrest =>
      obtain rfl := Reference.eq_of_name?_toDefinition hn
      obtain rfl := Option.some.inj (hget.symm.trans hc)
      exact .leads hnext hrest

/-- What comes down to a base through a reference ends at one. -/
theorem Bears.ends_of_referenceTo (h : r.Bears (.referenceTo n)) :
    ∃ d, r.Ends (.referenceTo n) d ∧ d.discriminator.isSome = true := by
  cases h with
  | ends hd hbase => exact ⟨_, hd, hbase⟩
  | items hitem => exact absurd hitem (by simp [Schema.referenceTo])
  | lifted hb => exact absurd hb.mem List.not_mem_nil
  | mixed hitem => exact absurd hitem (by simp [Schema.referenceTo])

/-- An array comes down to a base if it does with a definition in place of its elements. -/
theorem bears_of_mapItem {item : Schema} (hr : c.Revises c') (hitem : c.items = some (.single item))
    (hinline : item.isInline = true) (hget : r.get? n = some item)
    (h : r.Bears { c' with items := some (.single (.referenceTo n)) }) : r.Bears c := by
  cases h with
  | ends hd hbase =>
    refine bears_of_keywords ?_ hd hbase
    exact hr.keywords
  | items hitem' hb =>
    obtain rfl := Items.single.inj (Option.some.inj hitem')
    obtain ⟨d, hd, hbase⟩ := Bears.ends_of_referenceTo hb
    exact .items hitem (.ends (ends_of_stored hget hd) hbase)
  | @lifted _ b hb hkind _ =>
    refine .mixed hitem hinline fun hsteady => ?_
    have hb' : c'.Sole b := hb
    obtain ⟨href, hobject, -⟩ := (hsteady.rename hr.branches).plain_of_sole hb'
    rcases hkind with hsome | hscalar
    · exact absurd (hsome.symm.trans (congrArg Option.isSome href)) (by decide)
    · exact absurd (hscalar.symm.trans (Schema.isScalar_of_saysObject hobject)) (by decide)
  | mixed hitem' hinline' =>
    obtain rfl := Items.single.inj (Option.some.inj hitem')
    exact absurd hinline' (by simp [Schema.isInline, Schema.referenceTo])

end Registry

namespace Frame

open Build

variable {setting : Setting} {build : Frame → Build Frame} {s s' s₁ : Session} {f f' : Frame}
variable {c d : Schema} {t : TypeInfo} {anonymous required : Bool}

/-- A model that is marked as one of a base comes down to one, and none is marked as a subtype. -/
structure Bearing (r : Registry) (c : Schema) (m : Model) : Prop where
  base : m.isBase = true → r.Bears c
  subtype : m.isSubtype = false

/-- The way to build frames marks those that come down to bases. -/
def BuildsBearing (build : Frame → Build Frame) : Prop :=
  ∀ g s g' s', g.model = {} → (build g).Gives s g' s' → Bearing s'.registry g.schema g'.model

/-- The type of a schema that ends at a base says so. -/
theorem resolve_ends {r : Resolver} (h : r.resolve c anonymous required = .ok t)
    (hbase : t.discriminated = true) :
    ∃ d, r.registry.Ends c d ∧ d.discriminator.isSome = true := by
  cases href : c.reference with
  | none => exact ⟨c, .here href, Resolver.resolveWith_discriminated href h hbase⟩
  | some reference =>
    obtain ⟨d, hd, hbase⟩ := Resolver.resolve_reference_discriminated href h hbase
    exact ⟨d, .leads href hd, hbase⟩

/-- A definition that is a reference is marked if it ends at a base. -/
theorem buildReference_bears (hb : BuildsBelow setting build) (ih : BuildsBearing build)
    (href : f.schema.reference.isSome = true) (hblank : f.model.standing = ({} : Model).standing)
    (h : (f.buildReference setting build).Gives s f' s') :
    Bearing s'.registry f.schema f'.model := by
  obtain ⟨reference, href⟩ := Option.isSome_iff_exists.mp href
  rcases buildReference_cases h with ⟨shape, target, alias_, ht, ha, rfl⟩ | ⟨branch, -, rfl⟩
  · refine ⟨fun hbase => ?_, (ih _ _ _ _ rfl ha).subtype⟩
    obtain ⟨d, deref, known, t, hd, htarget, rfl⟩ := Resolver.resolve_reference_ok href ht
    have hdiscriminated := Resolver.resolveWith_discriminated hd.reference_eq_none htarget hbase
    exact .ends (.leads href (hd.mono (hb _ _ _ _ ha).adds.keeps)) hdiscriminated
  · refine ⟨fun hbase => ?_, congrArg Standing.isSubtype hblank⟩
    have hno : f.model.isBase = false := congrArg Standing.isBase hblank
    exact absurd (hno.symm.trans hbase) (by decide)

/-- An object that is taken apart becomes a reference to a definition that is stored. -/
theorem hoistExtended_bears (hb : BuildsBelow setting build) (ih : BuildsBearing build)
    (hnamed : f.named = false) (h : (f.hoistExtended build).Gives s f' s') :
    f'.model.isSubtype = false ∧
      ∃ n, f'.schema = .referenceTo n ∧ s'.registry.get? n = some f.schema := by
  obtain ⟨_, made, _, hoisted, s₂, inner, hm, hh, hi, rfl⟩ := hoistExtended_cases h
  obtain ⟨-, hschema⟩ := (hb _ _ _ _ hi).bare hnamed ⟨rfl, rfl⟩ rfl
  obtain ⟨-, hstored, -⟩ := stored_of_hoist hb hm hh (made_fresh hm) rfl
  exact ⟨(ih (f.referTo hoisted.name).restart _ _ _ rfl hi).subtype, hoisted.name, hschema,
    (hb _ _ _ _ hi).adds.keeps _ _ hstored⟩

/-- The frame of a tuple that was made has nothing built. -/
theorem asTuplePlace_fresh {made : Frame} (h : made.Fresh) :
    ({ made with tuple := true } : Frame).Fresh :=
  ⟨h.model, h.dependencies, h.extras⟩

/-- The places of a tuple only add to the registry. -/
theorem buildPlaces_grows (hb : BuildsBelow setting build) {places : List Schema} :
    ∀ {index : Nat} {f f' : Frame} {s s' : Session},
    (f.buildPlaces setting build index places).Gives s f' s' → s.registry.Grows s'.registry := by
  induction places with
  | nil =>
    intro index f f' s s' h
    rw [buildPlaces, gives_pure] at h
    exact h.2 ▸ .refl _
  | cons c rest ih =>
    intro index f f' s s' h
    obtain ⟨place, s₁, element, s₂, hplace, he, hrest⟩ := buildPlaces_cons_cases h
    have hfirst : s.registry.Grows s₁.registry := by
      rcases hoistPlace_cases hplace with ⟨-, rfl, -⟩ | ⟨-, _, -, -, _, made, _, hoisted, hm, hh, -⟩
      · exact .refl _
      · exact (stored_of_hoist hb hm hh (made_fresh hm) rfl).1
    exact (hfirst.trans (hb _ _ _ _ he).adds).trans (ih hrest)

/-- The items decide whether an array is marked; else the mark stays. -/
theorem buildItems_bears (hb : BuildsBelow setting build) (ih : BuildsBearing build) {c : Schema}
    (hr : c.Revises f.schema) (hown : f.model.isBase = true → s.registry.Bears c)
    (hsubtype : f.model.isSubtype = false) (hgrows : s.registry.Grows s'.registry)
    (h : (f.buildItems setting build).Gives s f' s') : Bearing s'.registry c f'.model := by
  rcases buildItems_cases h with ⟨-, rfl, -⟩ | ⟨item, hitem, harray⟩ |
    ⟨places, -, ⟨-, hplaces⟩ | ⟨-, htuple⟩⟩
  · exact ⟨fun hbase => (hown hbase).grown hgrows, hsubtype⟩
  · have hitem' : c.items = some (.single item) := hr.items.symm.trans hitem
    obtain ⟨_, ht, ⟨hneeds, _, made, _, hoisted, s₂, inner, hm, hh, hi, rfl⟩ |
      ⟨-, element, he, rfl⟩⟩ := buildArray_cases harray
    · have hinline := (Resolver.complex_anonymous_eq (.inr rfl) ht).symm.trans hneeds
      have hinner := ih (f.mapItem (.referenceTo hoisted.name)).makeVirtual.restart _ _ _ rfl hi
      obtain ⟨-, hstored, -⟩ := stored_of_hoist hb hm hh (made_fresh hm) rfl
      have hget := (hb _ _ _ _ hi).adds.keeps _ _ hstored
      refine ⟨fun hbase => ?_, hinner.subtype⟩
      exact Registry.bears_of_mapItem hr hitem' hinline hget (hinner.base hbase)
    · refine ⟨fun hbase => .items hitem' ((ih _ _ _ _ rfl he).base hbase), ?_⟩
      refine Eq.trans ?_ hsubtype
      unfold markElements
      split <;> rfl
  · have hkept := buildPlaces_standing hplaces
    have hisBase : f'.model.isBase = f.model.isBase := congrArg Standing.isBase hkept
    have hisSubtype : f'.model.isSubtype = f.model.isSubtype := congrArg Standing.isSubtype hkept
    exact ⟨fun hbase => (hown (hisBase.symm.trans hbase)).grown hgrows, hisSubtype.trans hsubtype⟩
  · -- the tuple becomes a reference to an object that is no base
    obtain ⟨_, made, _, hoisted, s₂, inner, hm, hh, hi, rfl⟩ := hoistTuple_cases htuple
    have hinner := ih (f.referTo hoisted.name).restart _ _ _ rfl hi
    obtain ⟨-, hstored, -⟩ := stored_of_hoist hb hm hh (asTuplePlace_fresh (made_fresh hm)) rfl
    have hget := (hb _ _ _ _ hi).adds.keeps _ _ hstored
    refine ⟨fun hbase => ?_, hinner.subtype⟩
    obtain ⟨d, hd, hdiscriminator⟩ := Registry.Bears.ends_of_referenceTo (hinner.base hbase)
    have hend := Registry.ends_of_stored hget hd
    cases hend with
    | here => exact absurd hdiscriminator (by simp [tupleRecord])
    | leads href => exact absurd href (by simp [tupleRecord])

/-- The elements or places of a schema only add to the registry, also where it refers to another. -/
theorem buildItems_grows (hb : BuildsBelow setting build)
    (h : (f.buildItems setting build).Gives s f' s') : s.registry.Grows s'.registry := by
  rcases buildItems_cases h with ⟨-, -, rfl⟩ | ⟨item, -, harray⟩ |
    ⟨places, -, ⟨-, hplaces⟩ | ⟨-, htuple⟩⟩
  · exact .refl _
  · obtain ⟨_, -, ⟨-, _, made, _, hoisted, s₂, inner, hm, hh, hi, -⟩ | ⟨-, element, he, -⟩⟩ :=
      buildArray_cases harray
    · exact (stored_of_hoist hb hm hh (made_fresh hm) rfl).1.trans (hb _ _ _ _ hi).adds
    · exact (hb _ _ _ _ he).adds
  · exact buildPlaces_grows hb hplaces
  · obtain ⟨_, made, _, hoisted, s₂, inner, hm, hh, hi, -⟩ := hoistTuple_cases htuple
    exact (stored_of_hoist hb hm hh (asTuplePlace_fresh (made_fresh hm)) rfl).1.trans
      (hb _ _ _ _ hi).adds

/-- The steps after a branch was lifted, if one was, mark what comes down to a base. -/
theorem steps_bears {f₂ f₃ f₄ f₅ : Frame} {s₂ s₃ s₄ s₅ : Session} {t t' : TypeInfo}
    (hb : BuildsBelow setting build) (ih : BuildsBearing build)
    (hblank : f.model.standing = ({} : Model).standing)
    (hall : (f.fillContainer.buildAllOf setting build).Gives s f₂ s₂)
    (hextra : ((f₂.setType t t.baseType).buildAdditionalProperties setting build).Gives s₂ f₃ s₃)
    (ht' : (resolverAt setting f₃ s₃).resolve f₃.schema anonymous required = .ok t')
    (hprops : ((f₃.pointMap.retype t').buildProperties setting build).Gives s₃ f₄ s₄)
    (hadd : (f₄.buildAdditionalItems setting build).Gives s₄ f₅ s₅)
    (hitems : (f₅.buildItems setting build).Gives s₅ f' s') :
    Bearing s'.registry f.schema f'.model := by
  obtain ⟨hstanding₂, hredone₂⟩ := buildAllOf_standing hall
  rw [fillContainer_schema] at hredone₂
  rw [fillContainer_model, hblank] at hstanding₂
  have hsubtype₂ : (f₂.setType t t.baseType).model.isSubtype = false :=
    congrArg Standing.isSubtype hstanding₂
  have hlast := buildParts_standing hprops hadd
  have hbase₅ : f₅.model.isBase = t'.discriminated := congrArg Standing.isBase hlast
  have hsubtype₅ : f₅.model.isSubtype = f₃.model.isSubtype := congrArg Standing.isSubtype hlast
  have hgrows₅ : s₃.registry.Grows s₅.registry :=
    ((buildProperties_meets fits_free (hb.descends _) (kept_refl _ s₃)).1 f₄ s₄ hprops).grows.trans
      ((buildAdditionalItems_meets fits_free (hb.descends f₄) (kept_refl f₄ s₄)).1 f₅ s₅ hadd).grows
  have hgrows := buildItems_grows hb hitems
  obtain ⟨extra, hschema₅⟩ := (buildParts_retains hprops hadd).schema
  rw [show (f₃.pointMap.retype t').schema = f₃.schema from pointMap_schema] at hschema₅
  -- what the type says of bases, the schema that it was looked up for says
  have hends : f₅.model.isBase = true → ∃ d, s₃.registry.Ends f₃.schema d ∧
      d.discriminator.isSome = true := fun hbase => resolve_ends ht' (hbase₅.symm.trans hbase)
  rcases buildAdditionalProperties_persists hextra with ⟨hkept, -⟩ | ⟨-, hnamed, -, g, hg, hapart⟩
  · have hrevises : f.schema.Revises f₃.schema := hredone₂.toRevises.trans hkept.schema
    have hsubtype₃ : f₃.model.isSubtype = false := by
      rcases buildAdditionalProperties_standing hextra with ⟨hstanding, -⟩ | ⟨hnamed, _, hapart⟩
      · refine (congrArg Standing.isSubtype hstanding).trans (Eq.trans ?_ hsubtype₂)
        unfold extendBy
        split
        · rfl
        · split <;> rfl
      · exact (hoistExtended_bears hb ih hnamed hapart).1
    refine buildItems_bears hb ih (s := s₅) (c := f.schema) ?_ (fun hbase => ?_)
      (hsubtype₅.trans hsubtype₃) hgrows hitems
    · rw [hschema₅]
      exact hrevises.trans ⟨rfl, rfl, rfl, rfl, .refl _⟩
    · obtain ⟨d, hd, hdiscriminator⟩ := hends hbase
      exact Registry.bears_of_keywords hrevises.keywords (hd.grown hgrows₅) hdiscriminator
  · obtain ⟨hsubtype₃, n, hschema₃, hget⟩ :=
      hoistExtended_bears hb ih (hg.named.trans hnamed) hapart
    have hf' : f' = f₅ := by
      have hnone : f₅.schema.items = none := by
        rw [hschema₅, hschema₃]
        rfl
      rcases buildItems_cases hitems with ⟨-, rfl, -⟩ | ⟨_, hsome, -⟩ | ⟨_, hsome, -⟩
      · rfl
      · exact absurd (hnone.symm.trans hsome) (by simp)
      · exact absurd (hnone.symm.trans hsome) (by simp)
    refine hf' ▸ ⟨fun hbase => ?_, hsubtype₅.trans hsubtype₃⟩
    obtain ⟨d, hd, hdiscriminator⟩ := hends hbase
    rw [hschema₃] at hd
    have hend := (Registry.ends_of_stored hget hd).grown (hgrows₅.trans hgrows)
    exact Registry.bears_of_keywords (hredone₂.toRevises.trans hg.schema).keywords hend hdiscriminator

/-- **What is marked as a base comes down to one**, at any depth of building. -/
theorem buildIn_bears (setting : Setting) (depth : Nat) : BuildsBearing (buildIn setting depth) := by
  induction depth with
  | zero =>
    intro g s g' s' _ h
    rw [buildIn, gives_throw] at h
    exact h.elim
  | succ depth ih =>
    intro g s g' s' hmodel h
    have hb : BuildsBelow setting (buildIn setting depth) := fun g s g' s' hg => ⟨depth, hg⟩
    obtain ⟨k, s₀, hk, ⟨-, hsome, href⟩ | ⟨-, f₁, f₂, s₂, t, f₃, s₃, t', f₄, s₄, f₅, s₅, required, hlift,
      hall, -, hextra, ht', hprops, hadd, hitems⟩⟩ := buildStep_steps h
    · have hblank : (g.start setting k).model.standing = ({} : Model).standing := by
        show g.model.standing = _
        rw [hmodel]
      exact buildReference_bears (f := g.start setting k) hb ih hsome hblank href
    · have hblank : (g.start setting k).model.standing = ({} : Model).standing := by
        show g.model.standing = _
        rw [hmodel]
      obtain ⟨-, ⟨rfl, -⟩ | ⟨b, hl, rfl⟩⟩ := liftBranch_cases hlift
      · exact steps_bears (f := g.start setting k) hb ih hblank hall hextra ht' hprops hadd hitems
      · -- the one branch that says anything stands for the whole composition
        obtain ⟨hbears, hsubtype⟩ := steps_bears (f := (g.start setting k).lift b) hb ih hblank hall
          hextra ht' hprops hadd hitems
        exact ⟨fun hbase => .lifted hl.sole hl.kind (hbears hbase), hsubtype⟩

end Frame

/-- The definition comes down to a base. -/
def Definitions.Bears (defs : Definitions) : Schema → Prop := Schema.Bears defs.Ends

open KclModels.Frame in
/-- **A definition that is marked as a base comes down to one**, and none is marked as a subtype. -/
theorem Frame.Builds.bears {setting : Setting} {s s' : Session} {f f' : Frame} {defs : Definitions}
    (h : f.Builds setting s f' s') (hmodel : f.model = {}) (hr : s.registry.Holds defs)
    (hknown : f.schema.Known (fun n => (defs.lookup n).isSome = true) unasked) :
    (f'.model.isBase = true → defs.Bears f.schema) ∧ f'.model.isSubtype = false := by
  have hholds := hr.mono h.adds
  obtain ⟨depth, h⟩ := h
  obtain ⟨hbears, hsubtype⟩ := buildIn_bears setting depth _ _ _ _ hmodel h
  refine ⟨fun hbase => (hbears hbase).mono fun t ht d hd => ?_, hsubtype⟩
  cases hd with
  | here href => exact .here href
  | leads href hd => exact hholds.ends hd href (hknown t ht).1

end KclModels
