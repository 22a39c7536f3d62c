import KclModels.Proofs.Build.Persisting
import KclModels.Proofs.Build.Properties

/-!
# What is said of a property

A property has the texts, the values and the constraints that its schema says, and stands where the
schema asks it to stand, if the model of the property is built of that schema. It is built of a bare
reference instead where a definition is made of the schema: of an object that declares something, of
a tuple, and of a reference to an object that says of what schema further values are. A reference
says nothing, so that all is lost with the property that was said of it. Where only the elements of
an array are made a definition, the array is built once more of its own schema, and nothing is lost.
-/

namespace KclModels

variable {tr : Text.Transliteration}

/-- No branch of the schema is put in its place. -/
def Schema.Unlifted (c : Schema) : Prop :=
  c.allOf.length < 2 ∨ (c.allOf.filter Frame.isSubstantive).length ≠ 1

instance (c : Schema) : Decidable c.Unlifted := inferInstanceAs (Decidable (_ ∨ _))

theorem Schema.Unlifted.not_sole {c : Schema} (h : c.Unlifted) (b : Schema) : ¬ c.Sole b := by
  rcases h with hlen | hfilter
  · exact fun hb => absurd hb.1 (by omega)
  · exact fun hb => hfilter (congrArg List.length hb.2)

namespace Definitions

variable {defs : Definitions} {c c' d : Schema}

/-- The schema is no tuple, and no object that declares something and describes further values. -/
structure Untaken (defs : Definitions) (c : Schema) : Prop where
  placeless : c.tupleItems? = none
  values : c.extraValue?.isSome = true → ∃ d, defs.Ends c d ∧ d.isRecord = false

/-- No definition is made of the schema where it has no name. -/
structure Intact (defs : Definitions) (c : Schema) : Prop extends Untaken defs c where
  plain : c.reference = none → c.isRecord = false
  /-- Nor is one made of the branch that may be put in place of the schema, or of its elements. -/
  branches : ∀ b, c.Sole b → defs.Untaken b ∧
    ∀ item, b.items = some (.single item) → item.isInline = false

/-- A definition is made of the schema where it has no name, and a reference is left. -/
inductive Detached (defs : Definitions) : Schema → Prop
  | record {c : Schema} : c.reference = none → c.isRecord = true → Detached defs c
  | tuple {c : Schema} : c.Unlifted → c.tupleItems?.isSome = true → Detached defs c
  | extended {c d : Schema} : c.Unlifted → c.extraValue?.isSome = true → defs.Ends c d →
      d.isRecord = true → Detached defs c

/-- A schema that gives way to no branch is either left as it is or made a definition. -/
theorem intact_iff_not_detached (hunlifted : c.Unlifted) (hd : defs.Ends c d) :
    defs.Intact c ↔ ¬ defs.Detached c := by
  constructor
  · rintro h (⟨href, hrec⟩ | ⟨-, hplaces⟩ | ⟨-, hvalue, he, hrec⟩)
    · exact absurd ((h.plain href).symm.trans hrec) (by decide)
    · rw [h.placeless] at hplaces
      exact absurd hplaces (by decide)
    · obtain ⟨d', hd', hplain⟩ := h.values hvalue
      exact absurd ((hd'.unique he ▸ hplain).symm.trans hrec) (by decide)
  · intro h
    refine ⟨⟨?_, fun hvalue => ⟨d, hd, ?_⟩⟩, fun href => ?_, fun b hb => ?_⟩
    · exact Option.not_isSome_iff_eq_none.mp fun hplaces => h (.tuple hunlifted hplaces)
    · exact Bool.eq_false_iff.mpr fun hrec => h (.extended hunlifted hvalue hd hrec)
    · exact Bool.eq_false_iff.mpr fun hrec => h (.record href hrec)
    · exact absurd hb (hunlifted.not_sole b)

theorem untaken_referenceTo (defs : Definitions) (n : String) : defs.Untaken (.referenceTo n) where
  placeless := rfl
  values := fun hvalue => absurd hvalue (by simp [Schema.extraValue?, Schema.referenceTo])

theorem intact_referenceTo (defs : Definitions) (n : String) : defs.Intact (.referenceTo n) where
  toUntaken := untaken_referenceTo defs n
  plain := fun href => absurd href (by simp [Schema.referenceTo])
  branches := fun _ hb => absurd hb.mem List.not_mem_nil

/-- A schema that refers to the same and declares as much ends at a schema of the same kind. -/
theorem Ends.similar (h : defs.Ends c d) (href : c'.reference = c.reference)
    (hrec : c'.isRecord = c.isRecord) : ∃ d', defs.Ends c' d' ∧ d'.isRecord = d.isRecord := by
  cases h with
  | here hnone => exact ⟨c', .here (href.trans hnone), hrec⟩
  | next hsome hn hget htail => exact ⟨d, .next (href.trans hsome) hn hget htail, rfl⟩

/-- A schema is still intact with a definition in place of its elements. -/
theorem Intact.again (h : defs.Intact c) (hr : c.Revises c') (n : String) :
    defs.Intact { c' with items := some (.single (.referenceTo n)) } where
  plain hnone := hr.isRecord.trans (h.plain (hr.reference.symm.trans hnone))
  placeless := rfl
  values hvalue := by
    obtain ⟨d, hd, hplain⟩ := h.values (hr.value.symm.trans hvalue)
    have hends : ∃ d', defs.Ends { c' with items := some (.single (.referenceTo n)) } d' ∧
        d'.isRecord = d.isRecord := hd.similar hr.reference hr.isRecord
    obtain ⟨d', hd', hsame⟩ := hends
    exact ⟨d', hd', hsame.trans hplain⟩
  branches b hb := by
    have hb' : c'.Sole b := hb
    rcases hb'.of_renamed hr.branches with hb' | ⟨n, rfl⟩
    · exact h.branches b hb'
    · exact ⟨untaken_referenceTo defs n, fun item hitem => absurd hitem (by simp [Schema.referenceTo])⟩

end Definitions

/-- Whether the type of a schema is that of an object that declares something, its end says. -/
theorem Resolver.complex_of_ends {r : Resolver} {defs : Definitions} {c d : Schema} {t : TypeInfo}
    {required : Bool} (hkeeps : ∀ n d, defs.lookup n = some d → r.registry.get? n = some d)
    (hd : defs.Ends c d) (h : r.resolve c true required = .ok t) : t.complex = d.isRecord := by
  cases href : c.reference with
  | none =>
    obtain rfl := hd.of_inline href
    exact (resolveWith_kind href h).1
  | some reference =>
    obtain ⟨e, he, hcomplex, -⟩ := resolve_reference_kind href h
    obtain rfl := he.unique (hd.leads hkeeps href)
    exact hcomplex

namespace Frame

open Build

variable {setting : Setting} {build : Frame → Build Frame} {s s' s₂ s₃ s₄ s₅ : Session}
variable {f f' f₂ f₃ f₄ f₅ g : Frame} {defs : Definitions} {c : Schema} {n : String} {t t' : TypeInfo}
variable {required : Bool}

/-! ## Schemas that are left as they are -/

/-- All definitions are known. -/
def Knowing (defs : Definitions) (s : Session) : Prop :=
  ∀ n d, defs.lookup n = some d → s.registry.get? n = some d

theorem Knowing.grown (h : Knowing defs s) (hs : s.registry.Grows s'.registry) : Knowing defs s' :=
  fun n d hd => hs.keeps n d (h n d hd)

/-- Without branches the frame still refers to what it did. -/
def SameReference (f f' : Frame) : Prop :=
  f.schema.allOf = [] → f'.schema.reference = f.schema.reference

theorem Persists.sameReference (h : Persists f f') : SameReference f f' := fun _ => h.schema.reference

/--
The way to build frames gives the model of an intact schema what the schema says, and the schema
still refers to what it did.
-/
def BuildsSaid (setting : Setting) (defs : Definitions) (build : Frame → Build Frame) : Prop :=
  ∀ g s g' s', Knowing defs s → g.named = false → defs.Intact g.schema → (build g).Gives s g' s' →
    g'.model.said = g.schema.said setting.options.keepOrder ∧ SameReference g g'

/-- Items leave what the model says, if an array is built once more of a schema that says the same. -/
theorem buildItems_said (hb : BuildsBelow setting build)
    (ih : BuildsSaid setting defs build) (hdefs : Knowing defs s) (hnamed : f.named = false)
    (hplaceless : f.schema.tupleItems? = none)
    (hagain : ∀ n item, f.schema.items = some (.single item) → item.isInline = true →
      defs.Intact { f.schema with items := some (.single (.referenceTo n)) } ∧
        f.model.said = f.schema.said setting.options.keepOrder)
    (h : (f.buildItems setting build).Gives s f' s') :
    f'.model.said = f.model.said ∧ SameReference f f' := by
  rcases buildItems_cases h with ⟨-, rfl, -⟩ | ⟨item, hitem, harray⟩ | ⟨places, hplaces, -⟩
  · exact ⟨rfl, fun _ => rfl⟩
  · obtain ⟨t, ht, ⟨hneeds, _, made, s₁, hoisted, s₂, inner, hm, hh, hi, rfl⟩ |
      ⟨-, element, -, rfl⟩⟩ := buildArray_cases harray
    · have hinline := (Resolver.complex_anonymous_eq (.inr rfl) ht).symm.trans hneeds
      obtain ⟨hintact, hsaid⟩ := hagain hoisted.name item hitem hinline
      have hgrows := (stored_of_hoist hb hm hh (made_fresh hm) rfl).1
      obtain ⟨hinner, hsame⟩ := ih (f.mapItem (.referenceTo hoisted.name)).makeVirtual.restart _ _ _
        (hdefs.grown hgrows) hnamed hintact hi
      exact ⟨hinner.trans hsaid.symm, hsame⟩
    · have hkept := setElement_persists f element item setting.polymorphism
      exact ⟨hkept.said, hkept.sameReference⟩
  · rw [Schema.tupleItems?, hplaces] at hplaceless
    exact absurd hplaceless (by simp)

/-- The steps after a branch was lifted, if one was, leave what the model says. -/
theorem steps_said (hb : BuildsBelow setting build) (ih : BuildsSaid setting defs build)
    (hdefs : Knowing defs s) (hnamed : f.named = false) (huntaken : defs.Untaken f.schema)
    (hagain : ∀ item, f.schema.items = some (.single item) → item.isInline = true →
      defs.Intact f.schema ∧ f.model.said = f.schema.said setting.options.keepOrder)
    (hall : (f.fillContainer.buildAllOf setting build).Gives s f₂ s₂)
    (ht : (resolverAt setting f₂ s₂).resolve f₂.schema (!f₂.named) required = .ok t)
    (hextra : ((f₂.setType t t.baseType).buildAdditionalProperties setting build).Gives s₂ f₃ s₃)
    (hprops : ((f₃.pointMap.retype t').buildProperties setting build).Gives s₃ f₄ s₄)
    (hadd : (f₄.buildAdditionalItems setting build).Gives s₄ f₅ s₅)
    (hitems : (f₅.buildItems setting build).Gives s₅ f' s') :
    f'.model.said = f.model.said ∧ SameReference f f' := by
  have hbranches := (fillContainer_persists f).trans (buildAllOf_persists hall)
  have hdefs₂ : Knowing defs s₂ := hdefs.grown (buildAllOf_grows hb hall)
  have hnamed₂ : f₂.named = false := hbranches.named.trans hnamed
  have hextra' : Persists (f₂.setType t t.baseType) f₃ := by
    rcases buildAdditionalProperties_persists hextra with ⟨hkept, -⟩ | ⟨hcomplex, -, hvalue, -⟩
    · exact hkept
    · -- an object that declares something has no schema for further values
      obtain ⟨d, hd, hplain⟩ := huntaken.values (hbranches.schema.value.symm.trans hvalue)
      obtain ⟨d', hd', hsame⟩ := hd.similar hbranches.schema.reference hbranches.schema.isRecord
      rw [hnamed₂] at ht
      have hrec := (Resolver.complex_of_ends (r := resolverAt setting f₂ s₂) hdefs₂ hd' ht).symm.trans
        hcomplex
      exact absurd ((hsame.trans hplain).symm.trans hrec) (by decide)
  have hkept := (hbranches.trans (setType_persists f₂ t t.baseType)).trans
    (hextra'.trans (finish_persists hprops hadd))
  have hrefers : ¬ (f₃.pointMap.retype t').Refers := by
    have hnamed₃ : (f₃.pointMap.retype t').named = false :=
      ((pointMap_persists f₃).named.trans hextra'.named).trans hnamed₂
    rw [Refers, hnamed₃]
    simp
  obtain ⟨hgrows₄, hgrows₅, -⟩ := finish_adds hb hrefers hprops hadd hitems
  have hdefs₅ : Knowing defs s₅ := ((hdefs₂.grown (buildAdditionalProperties_grows hb hextra)).grown
    hgrows₄).grown hgrows₅
  have hplaceless₅ : f₅.schema.tupleItems? = none := by
    rw [Schema.tupleItems?, hkept.schema.items]
    exact huntaken.placeless
  obtain ⟨hsaid, hsame⟩ := buildItems_said hb ih hdefs₅ (hkept.named.trans hnamed) hplaceless₅
    (fun n item hitem hinline => by
      obtain ⟨hintact, hsaid⟩ := hagain item (hkept.schema.items.symm.trans hitem) hinline
      refine ⟨hintact.again hkept.schema n, ?_⟩
      rw [hkept.said, hsaid, Schema.said_congr hkept.schema.keywords]) hitems
  refine ⟨hsaid.trans hkept.said, fun hnone => (hsame ?_).trans hkept.schema.reference⟩
  rw [← List.length_eq_zero_iff, hkept.schema.length, hnone, List.length_nil]

theorem buildStep_said (hb : BuildsBelow setting build)
    (ih : BuildsSaid setting defs build) (hdefs : Knowing defs s) (hnamed : f.named = false)
    (hc : defs.Intact f.schema) (h : (f.buildStep setting build).Gives s f' s') :
    f'.model.said = f.schema.said setting.options.keepOrder ∧ SameReference f f' := by
  obtain ⟨k, s₀, hk, ⟨hsome, -⟩ | ⟨-, f₁, f₂, s₂, t, f₃, s₃, t', f₄, s₄, f₅, s₅, required, hlift,
    hall, ht, hextra, -, hprops, hadd, hitems⟩⟩ := buildStep_steps h
  · exact absurd (hsome.symm.trans hnamed) (by decide)
  have hdefs₀ : Knowing defs s₀ := fun n d hd => constraints_registry hk ▸ hdefs n d hd
  have hsaid : (f.start setting k).model.said = f.schema.said setting.options.keepOrder := by
    rw [Schema.said, ← constraints_values hk]
    rfl
  obtain ⟨-, ⟨rfl, -⟩ | ⟨b, hl, rfl⟩⟩ := liftBranch_cases hlift
  · obtain ⟨hkept, hsame⟩ := steps_said (f := f.start setting k) hb ih hdefs₀ hnamed hc.toUntaken
      (fun _ _ _ => ⟨hc, hsaid⟩) hall ht hextra hprops hadd hitems
    exact ⟨hkept.trans hsaid, hsame⟩
  · -- of a branch that is lifted nothing is taken apart
    obtain ⟨huntaken, helements⟩ := hc.branches b hl.sole
    obtain ⟨hkept, -⟩ := steps_said (f := (f.start setting k).lift b) hb ih hdefs₀ hnamed huntaken
      (fun item hitem hinline => absurd ((helements item hitem).symm.trans hinline) (by decide)) hall
      ht hextra hprops hadd hitems
    refine ⟨hkept.trans hsaid, fun hnone => ?_⟩
    exact absurd hl.mem (hnone ▸ List.not_mem_nil)

/-- **The model of an intact schema says what the schema says.** -/
theorem buildIn_said (setting : Setting) (defs : Definitions) (depth : Nat) :
    BuildsSaid setting defs (buildIn setting depth) := by
  induction depth with
  | zero =>
    intro g s g' s' _ _ _ h
    rw [buildIn, gives_throw] at h
    exact h.elim
  | succ depth ih =>
    intro g s g' s' hdefs hnamed hc h
    exact buildStep_said (fun g s g' s' hg => ⟨depth, hg⟩) ih hdefs hnamed hc h

theorem Builds.said (h : f.Builds setting s f' s') (hdefs : Knowing defs s)
    (hnamed : f.named = false) (hc : defs.Intact f.schema) :
    f'.model.said = f.schema.said setting.options.keepOrder ∧ SameReference f f' :=
  h.elim fun depth hbuild => buildIn_said setting defs depth _ _ _ _ hdefs hnamed hc hbuild

/-! ## Schemas of which definitions are made -/

/-- A frame that has become a reference says nothing, and has nothing left to build. -/
theorem Builds.bare (h : f.Builds setting s f' s') (hnamed : f.named = false) (hf : f.Bare)
    (hc : f.schema = .referenceTo n) :
    f'.model.said = {} ∧ f'.schema = .referenceTo n := by
  obtain ⟨-, -, hschema, -⟩ := h.solitary hnamed (hc ▸ Schema.solitary_referenceTo n) hf
  refine ⟨?_, hschema.trans hc⟩
  have hdefs : Knowing [] s := fun _ _ hd => absurd hd (by simp)
  obtain ⟨hsaid, -⟩ := h.said hdefs hnamed (hc ▸ Definitions.intact_referenceTo [] n)
  rw [hsaid, hc, Schema.said_referenceTo]

/-- **A frame that is taken apart says nothing.** -/
theorem buildStep_bare (hb : BuildsBelow setting build) (hdefs : Knowing defs s)
    (hnamed : f.named = false) (hlift : f.schema.Unlifted)
    (hwhy : f.schema.tupleItems?.isSome = true ∨ (f.schema.extraValue?.isSome = true ∧
      ∃ d, defs.Ends f.schema d ∧ d.isRecord = true))
    (h : (f.buildStep setting build).Gives s f' s') : f'.model.said = {} := by
  obtain ⟨k, s₀, hreg, ⟨hsome, -⟩ | ⟨-, f₁, f₂, s₂, t, f₃, s₃, t', f₄, s₄, f₅, s₅, required, hlifted,
    hall, ht, hextra, -, hprops, hadd, hitems⟩⟩ := buildStep_cases h
  · exact absurd (hsome.symm.trans hnamed) (by decide)
  obtain ⟨-, ⟨rfl, -⟩ | ⟨b, hl, -⟩⟩ := liftBranch_cases hlifted
  swap
  · exact absurd hl.sole (hlift.not_sole b)
  have hbranches : Persists (f.start setting k) f₂ :=
    (fillContainer_persists _).trans (buildAllOf_persists hall)
  have hnamed₂ : f₂.named = false := hbranches.named.trans hnamed
  have hfinish := finish_persists hprops hadd
  rcases buildAdditionalProperties_persists hextra with ⟨hkept, hvalueless⟩ |
    ⟨-, -, -, g, hg, hapart⟩
  · have hpersists := (hbranches.trans (setType_persists f₂ t t.baseType)).trans
      (hkept.trans hfinish)
    -- it is a tuple: an object with schemas for further values would not have persisted
    have hplaces : f.schema.tupleItems?.isSome = true := by
      rcases hwhy with hplaces | ⟨hvalue, d, hd, hrec⟩
      · exact hplaces
      · have hdefs₂ : Knowing defs s₂ :=
          Knowing.grown (fun n d hd => hreg ▸ hdefs n d hd) (buildAllOf_grows hb hall)
        obtain ⟨d', hd', hsame⟩ :=
          Definitions.Ends.similar hd hbranches.schema.reference hbranches.schema.isRecord
        rw [hnamed₂] at ht
        have hcomplex := (Resolver.complex_of_ends (r := resolverAt setting f₂ s₂) hdefs₂ hd' ht).trans
          (hsame.trans hrec)
        have hnone := (hvalueless hcomplex hnamed₂).symm.trans (hbranches.schema.value.trans hvalue)
        exact absurd hnone (by decide)
    rcases buildItems_cases hitems with ⟨hnone, -⟩ | ⟨item, hitem, -⟩ |
      ⟨places, -, ⟨hsome, -⟩ | ⟨-, htuple⟩⟩
    · have hnone : f.schema.items = none := hpersists.schema.items.symm.trans hnone
      rw [Schema.tupleItems?, hnone] at hplaces
      exact absurd hplaces (by decide)
    · have hitem : f.schema.items = some (.single item) := hpersists.schema.items.symm.trans hitem
      rw [Schema.tupleItems?, hitem] at hplaces
      exact absurd hplaces (by simp)
    · exact absurd ((hpersists.named.trans hnamed).symm.trans hsome) (by decide)
    · obtain ⟨_, _, _, hoisted, _, inner, -, -, hi, rfl⟩ := hoistTuple_cases htuple
      exact ((hb _ _ _ _ hi).bare (hpersists.named.trans hnamed) ⟨rfl, rfl⟩ rfl).1
  · obtain ⟨_, _, _, hoisted, _, inner, -, -, hi, rfl⟩ := hoistExtended_cases hapart
    obtain ⟨hsaid, hschema⟩ := (hb _ _ _ _ hi).bare (hg.named.trans hnamed₂) ⟨rfl, rfl⟩ rfl
    have hrest := (addExtra_persists inner hoisted).trans hfinish
    have hitemless : f₅.schema.items = none := hrest.schema.items.trans (by rw [hschema]; rfl)
    rcases buildItems_cases hitems with ⟨-, rfl, -⟩ | ⟨item, hitem, -⟩ | ⟨places, hplaces, -⟩
    · exact hrest.said.trans hsaid
    · exact absurd (hitemless.symm.trans hitem) (by simp)
    · exact absurd (hitemless.symm.trans hplaces) (by simp)

/-! ## Properties -/

/-- The property has its name, and says what its schema says, or nothing if that was detached. -/
structure Describes (defs : Definitions) (keepOrder : Bool) (e : String × Schema) (p : Model) :
    Prop where
  name : p.name = e.1
  intact : defs.Intact e.2 → p.metadata = e.2.metadata keepOrder
  detached : defs.Detached e.2 → p.metadata = {}

theorem decorated_metadata (h : Decorated setting f f') : f'.model.metadata = f.model.metadata := by
  have hrole : ∀ reference, (f.markRole setting reference).model.metadata = f.model.metadata := by
    intro reference
    unfold markRole
    dsimp only
    split <;> split <;> rfl
  rcases h with rfl | ⟨reference, rfl | ⟨c, rfl⟩⟩
  · rfl
  · exact hrole reference
  · exact hrole reference

/-- **What is said of a property its model says**, unless a definition is made of the schema. -/
theorem buildProperty_describes (hb : BuildsBelow setting build) (hdefs : Knowing defs s)
    {position : Nat} {e : String × Schema}
    (h : (f.buildProperty setting build position e.1 e.2).Gives s f' s') :
    ∃ p, f'.model.properties = f.model.properties ++ [p] ∧
      Describes defs setting.options.keepOrder e p := by
  obtain ⟨t, ht, ⟨hneeds, _, made, s₁, hoisted, s₂, required, property, property', hm, hh, hp, hd,
    rfl⟩ | ⟨hno, required, property, property', hp, hd, rfl⟩⟩ := buildProperty_cases h
  all_goals
    have hname : property'.model.name = e.1 :=
      (decorated_name hd).trans (hb.names _ _ _ _ ⟨rfl, rfl, rfl⟩ hp)
  · have hbare := ((hb _ _ _ _ hp).bare rfl ⟨rfl, rfl⟩ rfl).1
    refine ⟨_, rfl, hname, fun hintact => ?_, fun _ => (decorated_metadata hd).trans
      (congrArg Said.metadata hbare)⟩
    -- a definition is made of records that stand in the place only, and intact schemas are none
    rw [propertyNeedsName, Bool.and_eq_true, Bool.and_eq_true] at hneeds
    cases href : e.2.reference with
    | some reference =>
      have hanonymous := Resolver.resolve_named (.inl (by rw [href]; rfl)) ht
      exact absurd (hanonymous.symm.trans hneeds.1.2) (by decide)
    | none =>
      have hrec := (Resolver.resolveWith_kind href ht).1.symm.trans hneeds.1.1
      exact absurd ((hintact.plain href).symm.trans hrec) (by decide)
  · have hbuilds := hb _ _ _ _ hp
    refine ⟨_, rfl, hname, fun hintact => ?_, fun hdetached => ?_⟩
    · exact (decorated_metadata hd).trans
        (congrArg Said.metadata (hbuilds.said hdefs rfl hintact).1)
    · refine (decorated_metadata hd).trans ?_
      obtain ⟨build', hb', hstep⟩ := hbuilds.step
      generalize hc : e.2 = c at hdetached
      cases hdetached with
      | record href hrec =>
        rw [hc] at ht hno
        -- a record would have become a definition
        rw [propertyNeedsName_iff ht, Schema.isInline, href, hrec] at hno
        exact absurd hno (by decide)
      | tuple hlift hplaces =>
        exact congrArg Said.metadata
          (buildStep_bare hb' hdefs rfl (hc ▸ hlift) (.inl (hc ▸ hplaces)) hstep)
      | extended hlift hvalue hends hrec =>
        exact congrArg Said.metadata
          (buildStep_bare hb' hdefs rfl (hc ▸ hlift) (.inr (hc ▸ ⟨hvalue, _, hends, hrec⟩)) hstep)

/-- **The properties of a definition say what their schemas say**, and stand in order. -/
theorem Builds.describes (h : f.Builds setting s f' s') (hdefs : Knowing defs s)
    (hnamed : f.named = true) (href : f.schema.reference = none) (hall : f.schema.allOf = [])
    (hnil : f.model.properties = []) :
    f'.model.HasEach (Describes defs setting.options.keepOrder) setting.options.keepOrder
      f.schema := by
  obtain ⟨depth, hbuild⟩ := h
  have heach : ∀ depth, BuildsEach setting s.registry
      (fun _ _ => Describes defs setting.options.keepOrder) (buildIn setting depth) :=
    fun depth g position e s₁ g' s₁' hgrows hproperty => buildProperty_describes
      (fun g s g' s' hg => ⟨depth, hg⟩) (hdefs.grown hgrows) hproperty
  exact (buildIn_each (fun _ _ _ _ _ _ hp => hp) heach depth).definition (.refl _) hnamed href hall
    hnil hbuild

end Frame

end KclModels
