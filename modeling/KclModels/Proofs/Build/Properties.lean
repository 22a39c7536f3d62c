import KclModels.Proofs.Build.Persisting
import KclModels.Proofs.Build.Translating

/-!
# The properties of a frame

A frame without branches has one model for each of its properties, in the order in which they are
declared to stand; if it has no name, it may have none at all. Only the places of a tuple add others.
Where the elements of the frame were made a definition, all its properties are built once more, with
the same outcome. What a model has of its property is a relation `R`, which may depend on whether
everything is asked for, and which it is enough to show of the step that builds one property; the
first such relation is that the model follows the structure of the schema.
-/

namespace KclModels

variable {tr : Text.Transliteration}

/-- The model is that of the property, and follows the structure of its schema if it has one. -/
structure Model.IsProperty [Text.Transliteration] (o : Options) (r : Registry) (e : String × Schema)
    (p : Model) : Prop where
  name : p.name = e.1
  structural : e.2.Structural → p.Translates o r e.2

/-- The model has the properties of the schema, and no others unless the schema is that of a tuple. -/
def Model.HasProperties [Text.Transliteration] (o : Options) (r : Registry) (c : Schema)
    (m : Model) : Prop :=
  ∃ own places, m.properties.Perm (own ++ places) ∧
    List.Forall₂ (Model.IsProperty o r) c.properties own ∧ (c.tupleItems? = none → places = [])

/-- Each property of the schema has a model `R`, in order, before the places of a tuple. -/
def Model.HasEach (R : String × Schema → Model → Prop) (keepOrder : Bool) (c : Schema)
    (m : Model) : Prop :=
  ∃ own places, m.properties = Model.sortProperties own keepOrder ++ places ∧
    List.Forall₂ R c.properties own ∧ (c.tupleItems? = none → places = [])

variable {o : Options} {r r' : Registry} {c : Schema} {m m' : Model}

theorem Model.IsProperty.mono {e : String × Schema} (h : m.IsProperty o r e) (hr : r.Grows r') :
    m.IsProperty o r' e :=
  ⟨h.name, fun hc => (h.structural hc).mono hr⟩

theorem Model.HasProperties.mono (h : m.HasProperties o r c) (hr : r.Grows r') :
    m.HasProperties o r' c := by
  obtain ⟨own, places, hperm, hown, hplaces⟩ := h
  exact ⟨own, places, hperm, hown.imp fun _ _ hp => hp.mono hr, hplaces⟩

theorem Model.HasEach.congr {R : String × Schema → Model → Prop} {keepOrder : Bool} {c' : Schema}
    (h : m.HasEach R keepOrder c) (hproperties : c'.properties = c.properties)
    (hitems : c'.items = c.items) : m.HasEach R keepOrder c' := by
  obtain ⟨own, places, heq, hown, hplaces⟩ := h
  refine ⟨own, places, heq, hproperties ▸ hown, fun hnone => hplaces ?_⟩
  rwa [Schema.tupleItems?, ← hitems]

theorem Model.HasEach.hasProperties {keepOrder : Bool}
    (h : m.HasEach (Model.IsProperty o r) keepOrder c) : m.HasProperties o r c := by
  obtain ⟨own, places, heq, hown, hplaces⟩ := h
  refine ⟨own, places, ?_, hown, hplaces⟩
  rw [heq]
  exact (sortBy_perm _ _).append_right places

namespace Frame

open Build Model

variable {setting : Setting} {build : Frame → Build Frame} {s s' s₁ s₂ s₃ s₄ s₅ : Session}
variable {f f' g : Frame} {item value : Schema} {n : String} {t t' : TypeInfo}

/-! ## One property after the other -/

theorem decorated_sameType (h : Decorated setting f f') : SameType f.model f'.model := by
  obtain ⟨hsame, htype⟩ := decorated_same h
  exact ⟨htype, hsame.reference, hsame.items, hsame.value⟩

/-- Building a property only adds to the registry. -/
theorem buildProperty_grows (hb : BuildsBelow setting build) {position : Nat} {name : String}
    (h : (f.buildProperty setting build position name c).Gives s f' s') :
    s.registry.Grows s'.registry := by
  obtain ⟨t, -, ⟨-, base, made, s₁, hoisted, s₂, required, property, property', hm, hh, hp, -, -⟩ |
    ⟨-, required, property, property', hp, -, -⟩⟩ := buildProperty_cases h
  · have hfresh := made_fresh hm
    exact (stored_of_hoist hb hm hh ⟨hfresh.model, hfresh.dependencies, hfresh.extras⟩ rfl).1.trans
      (hb _ _ _ _ hp).adds
  · exact (hb _ _ _ _ hp).adds

/-- **A property has a model that follows its structure.** -/
theorem buildProperty_isProperty (hb : BuildsBelow setting build)
    (ih : BuildsTranslating setting build) {position : Nat} {name : String}
    (h : (f.buildProperty setting build position name c).Gives s f' s') :
    ∃ p, f'.model.properties = f.model.properties ++ [p] ∧
      p.IsProperty setting.options s'.registry (name, c) := by
  obtain ⟨t, ht, ⟨hneeds, base, made, s₁, hoisted, s₂, required, property, property', hm, hh, hp, hd,
    rfl⟩ | ⟨hno, required, property, property', hp, hd, rfl⟩⟩ := buildProperty_cases h
  all_goals
    have hname : property'.model.name = name :=
      (decorated_name hd).trans (hb.names _ _ _ _ ⟨rfl, rfl, rfl⟩ hp)
    have hgrows := (hb _ _ _ _ hp).adds
  · have hfresh := made_fresh hm
    obtain ⟨-, hstored, hmade⟩ :=
      stored_of_hoist hb hm hh ⟨hfresh.model, hfresh.dependencies, hfresh.extras⟩ rfl
    refine ⟨_, rfl, hname, fun hc => ?_⟩
    -- definitions are made of records only, and of a record in any case
    have hrec : c.IsRecord := by
      rw [propertyNeedsName, Bool.and_eq_true] at hneeds
      exact (Resolver.complex_anonymous_iff hc (.inl rfl) ht).mp hneeds.1
    have hstands := (hb _ _ _ _ hp).referTo rfl ⟨rfl, rfl⟩ rfl
    refine .record hrec (hgrows.keeps _ _ hstored) (hgrows.hoisted _ hmade) ?_
    exact (hstands.same (decorated_sameType hd)).same ⟨rfl, rfl, rfl, rfl⟩
  · refine ⟨_, rfl, hname, fun hc => ?_⟩
    have hrec : ¬ c.IsRecord := by
      intro hrec
      have hneeds := (Resolver.complex_anonymous_iff hc (.inl rfl) ht).mpr hrec
      rw [propertyNeedsName, hneeds, Bool.true_and] at hno
      have hdeclares := hrec.declares
      simp only [ne_eq, Bool.or_eq_false_iff, Bool.not_eq_false', List.isEmpty_iff] at hno hdeclares
      exact hdeclares.elim (· hno.1) (· hno.2)
    have htranslates := ih (f.propertyPlace name c required) s property s' rfl ⟨rfl, rfl⟩ hc hrec hp
    exact (htranslates.same (decorated_sameType hd)).same ⟨rfl, rfl, rfl, rfl⟩

section Each

/-- What a frame asks of a property with the name: all of them have to be present in a tuple. -/
def demands (f : Frame) (name : String) : Bool := f.tuple || f.schema.required.contains name

theorem Persists.demands (h : Persists f f') : f'.demands = f.demands := by
  funext name
  have hrequired := congrArg Keywords.required h.schema.keywords
  rw [Frame.demands, Frame.demands, h.tuple, hrequired]

variable {R : Bool → Registry → String × Schema → Model → Prop} {base : Registry}

/-- What the model of a property has, it keeps when the registry grows. -/
def Lasts (R : Bool → Registry → String × Schema → Model → Prop) : Prop :=
  ∀ demanded r r' e p, r.Grows r' → R demanded r e p → R demanded r' e p

/--
The way to build frames gives each property a model `R`, once all of `base` is known. What that is
may depend on whether the property is demanded.
-/
def BuildsEach [Text.Transliteration] (setting : Setting) (base : Registry)
    (R : Bool → Registry → String × Schema → Model → Prop) (build : Frame → Build Frame) : Prop :=
  ∀ (f : Frame) (position : Nat) (e : String × Schema) (s : Session) (f' : Frame) (s' : Session),
    base.Grows s.registry → (f.buildProperty setting build position e.1 e.2).Gives s f' s' →
    ∃ p, f'.model.properties = f.model.properties ++ [p] ∧ R (f.demands e.1) s'.registry e p

theorem buildPropertyList_each (hb : BuildsBelow setting build) (hR : Lasts R)
    (heach : BuildsEach setting base R build) {properties : List (String × Schema)} :
    ∀ {position : Nat} {f f' : Frame} {s s' : Session}, base.Grows s.registry →
    (f.buildPropertyList setting build position properties).Gives s f' s' →
    s.registry.Grows s'.registry ∧ ∃ own, f'.model.properties = f.model.properties ++ own ∧
      List.Forall₂ (fun e p => R (f.demands e.1) s'.registry e p) properties own := by
  induction properties with
  | nil =>
    intro position f f' s s' _ h
    rw [buildPropertyList, gives_pure] at h
    obtain ⟨rfl, rfl⟩ := h
    exact ⟨.refl _, [], (List.append_nil _).symm, .nil⟩
  | cons e rest ih =>
    intro position f f' s s' hbase h
    obtain ⟨f₁, s₁, h₁, h₂⟩ := buildPropertyList_cons_cases h
    obtain ⟨p, hp, hproperty⟩ := heach _ _ e _ _ _ hbase h₁
    have hgrows := buildProperty_grows hb h₁
    obtain ⟨hgrows', own, hown, hall⟩ := ih (hbase.trans hgrows) h₂
    -- what the frame asks of its properties is not changed by building one
    rw [(buildProperty_persists h₁).demands] at hall
    refine ⟨hgrows.trans hgrows', p :: own, ?_, .cons (hR _ _ _ _ _ hgrows' hproperty) hall⟩
    rw [hown, hp, List.append_assoc]
    rfl

/-- The places of a tuple are added after the properties. -/
theorem buildPlaces_properties {index : Nat} {places : List Schema}
    (h : (f.buildPlaces setting build index places).Gives s f' s') :
    ∃ rest, f'.model.properties = f.model.properties ++ rest := by
  refine buildPlaces_run
    (R := fun f _ f' _ => ∃ rest, f'.model.properties = f.model.properties ++ rest)
    (fun _ _ => ⟨[], (List.append_nil _).symm⟩) ?_ (fun _ _ => ⟨[_], rfl⟩) h
  rintro f s f₁ s₁ f₂ s₂ ⟨rest, hrest⟩ ⟨more, hmore⟩
  exact ⟨rest ++ more, by rw [hmore, hrest, List.append_assoc]⟩

/-! ## Frames without branches -/

/--
The way to build frames gives one without branches its properties, unless a definition is made of it
where it has no name.
-/
def BuildsProperties (setting : Setting) (base : Registry)
    (R : Bool → Registry → String × Schema → Model → Prop) (build : Frame → Build Frame) : Prop :=
  ∀ g s g' s', base.Grows s.registry → (g.named = false ∨ g.schema.reference = none) →
    g.schema.allOf = [] → g.model.properties = [] → (build g).Gives s g' s' →
    g'.model.HasEach (fun e p => R (g.demands e.1) s'.registry e p) setting.options.keepOrder
        g.schema ∨ (g.named = false ∧ g'.model.properties = [])

/-- The items of a frame leave its properties and add the places of a tuple that has a name. -/
theorem buildItems_each (hb : BuildsBelow setting build)
    (ihp : BuildsProperties setting base R build) {own : List Model}
    (hbase : base.Grows s.registry) (hplace : f.named = false ∨ f.schema.reference = none)
    (hall : f.schema.allOf = [])
    (hordered : f.model.properties = sortProperties own setting.options.keepOrder)
    (hown : List.Forall₂ (fun e p => R (f.demands e.1) s'.registry e p) f.schema.properties own)
    (h : (f.buildItems setting build).Gives s f' s') :
    f'.model.HasEach (fun e p => R (f.demands e.1) s'.registry e p) setting.options.keepOrder
        f.schema ∨ (f.named = false ∧ f'.model.properties = []) := by
  have hsame : f'.model.properties = f.model.properties → f'.model.HasEach
      (fun e p => R (f.demands e.1) s'.registry e p) setting.options.keepOrder f.schema := by
    intro heq
    refine ⟨own, [], ?_, hown, fun _ => rfl⟩
    rw [heq, hordered, List.append_nil]
  rcases buildItems_cases h with ⟨-, rfl, -⟩ | ⟨item, hitem, harray⟩ |
    ⟨places, hplaces, ⟨-, htuple⟩ | ⟨hunnamed, htuple⟩⟩
  · exact .inl (hsame rfl)
  · obtain ⟨t, -, ⟨-, _, made, s₁, hoisted, s₂, inner, hm, hh, hi, rfl⟩ | ⟨-, element, -, rfl⟩⟩ :=
      buildArray_cases harray
    · -- the frame is built once more, with the same properties
      have hgrows := (stored_of_hoist hb hm hh (made_fresh hm) rfl).1
      refine (ihp (f.mapItem (.referenceTo hoisted.name)).makeVirtual.restart _ _ _
        (hbase.trans hgrows) hplace hall rfl hi).imp_left ?_
      rintro ⟨own', places, hordered', hown', hplaces⟩
      exact ⟨own', places, hordered', hown', fun _ => hplaces rfl⟩
    · refine .inl (hsame ?_)
      show (f.markElements item setting.polymorphism).model.properties = _
      unfold markElements
      split <;> rfl
  · obtain ⟨rest, hrest⟩ := buildPlaces_properties htuple
    refine .inl ⟨own, rest, ?_, hown, fun hnone => ?_⟩
    · rw [hrest, ← hordered]
      rfl
    · rw [Schema.tupleItems?, hplaces] at hnone
      exact absurd hnone (by simp)
  · obtain ⟨_, _, _, hoisted, _, inner, -, -, hi, rfl⟩ := hoistTuple_cases htuple
    obtain ⟨-, -, -, n, -, hlinks⟩ :=
      (hb _ _ _ _ hi).solitary hunnamed (Schema.solitary_referenceTo _) ⟨rfl, rfl⟩
    exact .inr ⟨hunnamed, hlinks.properties⟩

/-- The last steps for a frame that has no properties yet give it those of its schema. -/
theorem finish_each {s₁ s₂ : Session} {f₁ f₂ : Frame} (hb : BuildsBelow setting build)
    (hR : Lasts R) (heach : BuildsEach setting base R build)
    (ihp : BuildsProperties setting base R build) (hbase : base.Grows s.registry)
    (hplace : f.named = false ∨ f.schema.reference = none) (hall : f.schema.allOf = [])
    (hnil : f.model.properties = []) (hprops : (f.buildProperties setting build).Gives s f₁ s₁)
    (hadd : (f₁.buildAdditionalItems setting build).Gives s₁ f₂ s₂)
    (hitems : (f₂.buildItems setting build).Gives s₂ f' s') :
    f'.model.HasEach (fun e p => R (f.demands e.1) s'.registry e p) setting.options.keepOrder
        f.schema ∨ (f.named = false ∧ f'.model.properties = []) := by
  have hkept : Persists f f₂ :=
    (buildProperties_persists hprops).trans (buildAdditionalItems_persists hadd)
  have hrefers : ¬ f.Refers := fun h => by
    rcases hplace with hnamed | href
    · exact absurd (h.1.symm.trans hnamed) (by decide)
    · rw [Refers, href] at h
      exact absurd h.2 (by decide)
  -- what holds of a property when it is built still holds when the frame is done
  obtain ⟨-, hgrows₁, hgrows₂⟩ := finish_adds hb hrefers hprops hadd hitems
  obtain ⟨f₆, hlist, rfl⟩ := buildProperties_cases hprops
  obtain ⟨hgrows, own, hadded, hown⟩ := buildPropertyList_each hb hR heach hbase hlist
  rw [hnil, List.nil_append] at hadded
  have hordered : f₂.model.properties = sortProperties own setting.options.keepOrder := by
    rw [(buildAdditionalItems_parts hadd).properties, ← hadded]
    rfl
  have hplace₂ : f₂.named = false ∨ f₂.schema.reference = none :=
    hplace.imp hkept.named.trans hkept.schema.reference.trans
  have hall₂ : f₂.schema.allOf = [] := by
    rw [← List.length_eq_zero_iff, hkept.schema.length, hall, List.length_nil]
  have hwhole := buildItems_each hb ihp ((hbase.trans hgrows).trans hgrows₁) hplace₂ hall₂ hordered
    (by
      rw [hkept.schema.properties, hkept.demands]
      exact hown.imp fun _ _ hp => hR _ _ _ _ _ (hgrows₁.trans hgrows₂) hp) hitems
  rw [hkept.demands] at hwhole
  rcases hwhole with heach | ⟨hnamed, hnone⟩
  · exact .inl (heach.congr hkept.schema.properties.symm hkept.schema.items.symm)
  · exact .inr ⟨hkept.named.symm.trans hnamed, hnone⟩

/-- What is left of a frame that is taken apart is a reference, and gets no properties any more. -/
theorem hoistExtended_properties {s₁ s₂ s₃ : Session} {h f₁ f₂ f₃ : Frame} {t : TypeInfo}
    (hb : BuildsBelow setting build) (hunnamed : h.named = false)
    (hapart : (h.hoistExtended build).Gives s f₁ s₁)
    (hprops : ((f₁.pointMap.retype t).buildProperties setting build).Gives s₁ f₂ s₂)
    (hadd : (f₂.buildAdditionalItems setting build).Gives s₂ f₃ s₃)
    (hitems : (f₃.buildItems setting build).Gives s₃ f' s') : f'.model.properties = [] := by
  obtain ⟨_, _, _, hoisted, _, inner, -, -, hi, rfl⟩ := hoistExtended_cases hapart
  obtain ⟨-, -, hschema, n, -, hlinks⟩ := (hb _ _ _ _ hi).solitary hunnamed
    (Schema.solitary_referenceTo _) ⟨rfl, rfl⟩
  have hrest : ((inner.addExtra hoisted).pointMap.retype t).schema = .referenceTo hoisted.name :=
    pointMap_schema.trans hschema
  have hnone : ((inner.addExtra hoisted).pointMap.retype t).model.properties = [] :=
    (pointMap_sameParts (inner.addExtra hoisted)).properties.trans hlinks.properties
  obtain ⟨rfl, -⟩ := childless_rest
    (hrest ▸ (Schema.solitary_referenceTo hoisted.name).childless) hprops hadd hitems
  exact (orderProperties_nil setting hnone).properties.trans hnone

/-- A step of building gives a frame its properties, if building the frames below does. -/
theorem buildStep_each (hb : BuildsBelow setting build) (hR : Lasts R)
    (heach : BuildsEach setting base R build) (ihp : BuildsProperties setting base R build)
    (hbase : base.Grows s.registry) (hplace : f.named = false ∨ f.schema.reference = none)
    (hall : f.schema.allOf = []) (hnil : f.model.properties = [])
    (hs : (f.buildStep setting build).Gives s f' s') :
    f'.model.HasEach (fun e p => R (f.demands e.1) s'.registry e p) setting.options.keepOrder
        f.schema ∨ (f.named = false ∧ f'.model.properties = []) := by
  obtain ⟨g, s₂, t, f₃, s₃, t', f₄, s₄, f₅, s₅, required, hfilled, hreg, -, hextra, -, hprops, hadd,
    hitems⟩ := buildStep_branchless hplace hall hs
  rcases buildAdditionalProperties_persists hextra with ⟨hkept, hvalueless⟩ |
    ⟨-, hunnamed, -, h, hh, hapart⟩
  swap
  · exact .inr ⟨hfilled.named.symm.trans hunnamed,
      hoistExtended_properties hb (hh.named.trans hunnamed) hapart hprops hadd hitems⟩
  have hsame : SameParts (g.setType t t.baseType) f₃ := by
    rcases buildAdditionalProperties_parts hextra with hsame | ⟨hcomplex, hunnamed, hvalue, -⟩
    · exact hsame
    · exact absurd (hvalue.symm.trans (hvalueless hcomplex hunnamed)) (by decide)
  -- what the first steps do leaves the frame such that the last ones give it its properties
  have hkept₃ : Persists (g.setType t t.baseType) (f₃.pointMap.retype t') :=
    (hkept.trans (pointMap_persists f₃)).trans (retype_persists _ t')
  have hnil₃ : (f₃.pointMap.retype t').model.properties = [] :=
    ((pointMap_sameParts f₃).properties.trans hsame.properties).trans (hfilled.properties.trans hnil)
  generalize f₃.pointMap.retype t' = g₃ at *
  have hschema : (g.setType t t.baseType).schema = f.schema := hfilled.schema
  have hnamed : g₃.named = f.named := hkept₃.named.trans hfilled.named
  have hdemands : g₃.demands = f.demands := by
    refine hkept₃.demands.trans (funext fun name => ?_)
    exact congrArg₂ (fun tuple (c : Schema) => tuple || c.required.contains name) hfilled.tuple
      hfilled.schema
  have hplace₃ : g₃.named = false ∨ g₃.schema.reference = none :=
    hplace.imp hnamed.trans
      (hkept₃.schema.reference.trans (congrArg (fun c : Schema => c.reference) hschema)).trans
  have hall₃ : g₃.schema.allOf = [] := by
    rw [← List.length_eq_zero_iff, hkept₃.schema.length, hschema, hall, List.length_nil]
  have hbase₃ : base.Grows s₃.registry :=
    (hreg ▸ hbase).trans (buildAdditionalProperties_grows hb hextra)
  have hwhole := finish_each hb hR heach ihp hbase₃ hplace₃ hall₃ hnil₃ hprops hadd hitems
  rw [hdemands] at hwhole
  rcases hwhole with heach | ⟨hunnamed, hnone⟩
  · exact .inl (heach.congr (hkept₃.schema.properties.trans (congrArg _ hschema)).symm
      (hkept₃.schema.items.trans (congrArg _ hschema)).symm)
  · exact .inr ⟨hnamed.symm.trans hunnamed, hnone⟩

/-- **A frame without branches has its properties**, as building one property gives them. -/
theorem buildIn_each (hR : Lasts R)
    (heach : ∀ depth, BuildsEach setting base R (buildIn setting depth)) (depth : Nat) :
    BuildsProperties setting base R (buildIn setting depth) := by
  induction depth with
  | zero =>
    intro g s g' s' _ _ _ _ h
    rw [buildIn, gives_throw] at h
    exact h.elim
  | succ depth ih =>
    intro g s g' s' hbase hplace hall hnil h
    exact buildStep_each (fun g s g' s' hg => ⟨depth, hg⟩) hR (heach depth) ih hbase hplace hall hnil
      h

/-- A definition has its properties in any case. -/
theorem BuildsProperties.definition (h : BuildsProperties setting base R build)
    (hbase : base.Grows s.registry) (hnamed : g.named = true) (href : g.schema.reference = none)
    (hall : g.schema.allOf = []) (hnil : g.model.properties = []) (hg : (build g).Gives s f s') :
    f.model.HasEach (fun e p => R (g.demands e.1) s'.registry e p) setting.options.keepOrder
      g.schema := by
  rcases h g s f s' hbase (.inr href) hall hnil hg with heach | ⟨hunnamed, -⟩
  · exact heach
  · exact absurd (hnamed.symm.trans hunnamed) (by decide)

end Each

/-- **A definition without branches has its properties**, each following the structure of its schema. -/
theorem buildIn_properties (setting : Setting) (depth : Nat) (hnamed : g.named = true)
    (href : g.schema.reference = none) (hall : g.schema.allOf = []) (hnil : g.model.properties = [])
    (h : (buildIn setting depth g).Gives s f s') :
    f.model.HasProperties setting.options s'.registry g.schema := by
  have heach : ∀ depth, BuildsEach setting s.registry (fun _ => IsProperty setting.options)
      (buildIn setting depth) := fun depth f position e s₁ f' s₁' _ hproperty =>
    buildProperty_isProperty (fun g s g' s' hg => ⟨depth, hg⟩) (buildIn_translates setting depth)
      hproperty
  exact HasEach.hasProperties ((buildIn_each (fun _ _ _ _ _ hr hp => hp.mono hr) heach depth).definition
    (.refl _) hnamed href hall hnil h)

end Frame

end KclModels
