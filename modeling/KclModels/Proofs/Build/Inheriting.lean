import KclModels.Proofs.Build.Examining
import KclModels.Proofs.Build.SharingOut

/-!
# What a subtype inherits

A subtype inherits from the first branch that refers to a base. What that base declares is left to
its branch when properties are shared out, whatever the other branches are. It can come back in one
way only: a branch that is left without properties and refers to something gets the properties of
what it refers to. That does not happen to a branch that is an object of its own, nor to a base with a
property that no base before it declares.
-/

namespace KclModels

open Build KclModels.Frame

variable {tr : Text.Transliteration}

/--
The subtype is a composition, and the first base that one of its branches ends at is that of branch
number `i`, the schema `b`.
-/
structure Definitions.InheritsFrom (defs : Definitions) (c : Schema) (i : Nat) (b base : Schema) :
    Prop where
  composes : defs.Composes c
  whole : c.Whole
  branch : c.allOf[i]? = some b
  refers : b.reference.isSome = true
  ends : defs.Ends b base
  discriminator : base.discriminator.isSome = true
  record : base.isRecord = true
  wholeBase : base.Whole
  /-- No branch before it ends at a base. -/
  first : ∀ (j : Nat) b' d, j < i → c.allOf[j]? = some b' → defs.Ends b' d → d.discriminator = none

/-- Branch number `j` has properties in any case, so none are declared for it once more. -/
inductive Definitions.Furnished (defs : Definitions) (c : Schema) (j : Nat) (b : Schema) : Prop
  | own : b.Plain → b.extraValue? = none → Furnished defs c j b
  | base {d : Schema} {y : String} : b.reference.isSome = true → defs.Ends b d →
      d.discriminator.isSome = true → d.Whole → y ∈ Assoc.keys d.properties →
      (∀ (k : Nat) b' d', k < j → c.allOf[k]? = some b' → defs.Ends b' d' →
        d'.discriminator.isSome = true → ¬ defs.Declares b' y) → Furnished defs c j b

/--
What the base declares is left to it: the subtype declares none of it beside its branches, and a
branch that declares some of it has properties in any case.
-/
structure Definitions.LeavesFields (defs : Definitions) (c : Schema) (i : Nat) (b base : Schema) :
    Prop extends defs.InheritsFrom c i b base where
  own : ∀ x ∈ Assoc.keys base.properties, x ∉ Assoc.keys c.properties
  others : ∀ (j : Nat) b', j ≠ i → c.allOf[j]? = some b' →
    (∃ x ∈ Assoc.keys base.properties, defs.Declares b' x) → defs.Furnished c j b'

variable {setting : Setting} {defs : Definitions} {r : Registry} {s s' : Session} {f : Frame}
variable {b c d base : Schema} {m m' : Model} {x name container : String} {i j : Nat}
variable {subtype : Subtype} {parent : Option Nat}

/-! ## The branch that is inherited from -/

/-- The first reference to a base is the parent. -/
theorem Model.parentBranch_of_first (hi : m.allOf[i]? = some m')
    (hm' : (m'.isReferenced && m'.isBase) = true)
    (hfirst : ∀ j k, j < i → m.allOf[j]? = some k → k.isBase = false) :
    m.parentBranch = some i := by
  have hidx : m.allOf.findIdx? (fun k => k.isReferenced && k.isBase) = some i := by
    obtain ⟨hlt, rfl⟩ := List.getElem?_eq_some_iff.mp hi
    refine List.findIdx?_eq_some_iff_getElem.mpr ⟨hlt, hm', fun j hj => ?_⟩
    rw [hfirst j _ hj (List.getElem?_eq_getElem (by omega)), Bool.and_false]
    simp
  rw [parentBranch, hidx]
  rfl

/-- The full model of a base is a reference to it and declares all that it declares. -/
theorem ExpandsTo.full (h : ExpandsTo setting container r b m) (hr : r.Holds defs)
    (hends : defs.Ends b d) (hcomposed : d.Composed) (hwhole : d.Whole) :
    m.reference = b.referenceName ∧ m.isReferenced = d.isRecord ∧
      ∀ x ∈ Assoc.keys d.properties, x ∈ names m.properties := by
  obtain ⟨reference, name, target, built, s, s', href, hname, hleads, -, hbuilt, rfl⟩ := h
  obtain rfl := (hr.leads hends href).unique hleads
  obtain ⟨hmref, -, hnames, htype⟩ := expanded_facts setting reference name built.model
  obtain ⟨-, -, ⟨-, -, ho⟩ | ⟨⟨b', hlift⟩, -⟩⟩ :=
    (builds_of_definition hbuilt).outline root_fresh rfl hcomposed
  swap
  · exact absurd hlift (not_lifts_of_steady hwhole.branches b')
  refine ⟨?_, ?_, fun x hx => ?_⟩
  · rw [hmref, Schema.referenceName_eq href hname]
  · rw [Model.isReferenced, hmref, htype, ho.complex]
    rfl
  · rw [hnames]
    exact ho.properties.mem_iff.mpr hx

/-! ## The other branches -/

/-- What is built of a composition declares nothing else. -/
theorem Schema.Composed.declares_built {built : Frame} (hd : d.Composed)
    (h : (definition setting name d container).Gives s built s') :
    ∀ x ∈ names (built.model.properties ++ built.model.allOf.flatMap (·.properties)),
      defs.Declares d x := by
  intro x hx
  rw [names, List.map_append, List.mem_append, List.map_flatMap, List.mem_flatMap] at hx
  rcases hx with hx | ⟨k, hk, hx⟩
  · exact .own hd.reference (hd.names_built h x hx)
  obtain ⟨-, -, ⟨-, -, ho⟩ | ⟨-, -, -, hnil⟩⟩ :=
    (builds_of_definition h).outline root_fresh rfl hd
  · obtain ⟨j, hj⟩ := List.mem_iff_getElem?.mp hk
    obtain ⟨b, hb, hout⟩ := forall₂_getElem? (List.Forall₂.flip ho.branches) hj
    exact .branch hd.reference (List.mem_of_getElem? hb) (hout.sound x hx)
  · rw [hnil] at hk
    exact absurd hk List.not_mem_nil

/-- A branch with the properties of what it refers to declares nothing else. -/
theorem Fills.sound (h : Fills setting parent container r i m m') (hm : Tells defs r b m)
    (hcomposed : ∀ d, defs.Ends b d → d.Composed) : ∀ x ∈ names m'.properties, defs.Declares b x := by
  cases h with
  | kept => exact hm.sound
  | filled _ href hleads hbuilt =>
    intro x hx
    have hends := hm.leads _ _ href hleads
    exact hends.declares ((hcomposed _ hends).declares_built hbuilt x hx)

/-- A branch with properties of its own gets no others. -/
theorem Fills.eq_of_properties (h : Fills setting parent container r i m m')
    (hx : x ∈ names m.properties) : m' = m := by
  cases h with
  | kept => rfl
  | filled hneeds =>
    rw [(needsInlining_iff.mp hneeds).2.1] at hx
    exact absurd hx List.not_mem_nil

/-! ## Bases in place -/

/-- A name stands in one of the branches that properties are shared out among. -/
theorem Model.SharedOut.unique {places : Nat → Prop} {before after : List Model} {k k' : Model}
    (h : SharedOut places before after) (hi : after[i]? = some k) (hj : after[j]? = some k')
    (hx : x ∈ names k.properties) (hx' : x ∈ names k'.properties) : i = j := by
  obtain ⟨hlti, rfl⟩ := List.getElem?_eq_some_iff.mp hi
  obtain ⟨hltj, rfl⟩ := List.getElem?_eq_some_iff.mp hj
  have hdisjoint := List.pairwise_iff_getElem.mp (List.nodup_flatMap.mp h.once).2
  rcases Nat.lt_trichotomy i j with hlt | heq | hlt
  · exact (hdisjoint i j hlti hltj hlt hx hx').elim
  · exact heq
  · exact (hdisjoint j i hltj hlti hlt hx' hx).elim

/--
The branch of a base holds its full model, with every property that no base before it declares. No
other branch has such a property.
-/
theorem expandSubtype_keeps {m₀ : Model} (hr : s'.registry.Holds defs)
    (hlen : m₀.allOf.length = c.allOf.length)
    (h : (expandSubtype setting m₀ c subtype).Gives s m s')
    (htells : ∀ (j : Nat) b k, c.allOf[j]? = some b → m.allOf[j]? = some k →
      Tells defs s'.registry b k)
    (hb : c.allOf[j]? = some b) (hrefers : b.reference.isSome = true) (hends : defs.Ends b d)
    (hdisc : d.discriminator.isSome = true) (hcomposed : d.Composed) (hwhole : d.Whole) :
    ∃ k, m.allOf[j]? = some k ∧ k.reference = b.referenceName ∧ k.isReferenced = d.isRecord ∧
      k.isBase = true ∧ ∀ y ∈ Assoc.keys d.properties,
        (∀ (i : Nat) b' d', i < j → c.allOf[i]? = some b' → defs.Ends b' d' →
          d'.discriminator.isSome = true → ¬ defs.Declares b' y) →
        y ∈ names k.properties ∧
          ∀ (j' : Nat) k', m.allOf[j']? = some k' → y ∈ names k'.properties → j' = j := by
  obtain ⟨allOf, ofBases, hex, rfl⟩ := expandSubtype_cases h
  obtain ⟨hplaced, hof⟩ := expandBranches_placed
    (fun i b hb _ => hlen ▸ (List.getElem?_eq_some_iff.mp hb).1) hex
  have hmarked : ∀ (i : Nat) (k : Model),
      (∃ b, c.allOf[i]? = some b ∧ RefersToBase s'.registry b) → allOf[i]? = some k →
      k.isBase = true := by
    rintro i k ⟨b, hb, hbase⟩ hk
    obtain ⟨e, he, hexpands⟩ := hplaced.bases i b hb hbase
    obtain rfl := Option.some.inj (hk.symm.trans he)
    exact hexpands.isBase
  have hshared := Model.dedupBranches_sharedOut hmarked hof
  obtain ⟨reference, href⟩ := Option.isSome_iff_exists.mp hrefers
  have hbase : RefersToBase s'.registry b := ⟨reference, d, href, hr.leads hends href, hdisc⟩
  obtain ⟨e, he, hexpands⟩ := hplaced.bases j b hb hbase
  obtain ⟨hname, hrecord, hkeys⟩ := hexpands.full hr hends hcomposed hwhole
  obtain ⟨k, hk, hthin⟩ := forall₂_getElem? hshared.thinned he
  have hsame : k.isBase = e.isBase ∧ k.reference = e.reference ∧
      k.isReferenced = e.isReferenced := by
    rw [hthin.same]
    exact ⟨rfl, rfl, rfl⟩
  refine ⟨k, hk, hsame.2.1.trans hname, hsame.2.2.trans hrecord, hsame.1.trans hexpands.isBase,
    fun y hy hfirst => ?_⟩
  obtain ⟨i, k', hle, hk', hisBase, hyk'⟩ := hshared.bases j e y ⟨b, hb, hbase⟩ he (hkeys y hy)
  -- a base before it that kept the property would declare it
  have heq : i = j := by
    refine (Nat.lt_or_eq_of_le hle).resolve_left fun hlt => ?_
    have hi : i < c.allOf.length := hlt.trans (List.getElem?_eq_some_iff.mp hb).1
    have htell := htells i _ k' (List.getElem?_eq_getElem hi) hk'
    obtain ⟨d', hd', hdisc'⟩ := htell.marked hisBase
    exact hfirst i _ d' hlt (List.getElem?_eq_getElem hi) hd' hdisc' (htell.sound y hyk')
  subst heq
  obtain rfl := Option.some.inj (hk.symm.trans hk')
  exact ⟨hyk', fun j' k' hj' hy' => hshared.unique hj' hk hy' hyk'⟩

/-! ## Files -/

/-- What the frame of the file of a subtype has of its branches. -/
structure Model.Inherits (defs : Definitions) (c : Schema) (i : Nat) (b base : Schema)
    (m : Model) : Prop where
  tuple : m.type.tuple = false
  properties : (names m.properties).Perm (Assoc.keys c.properties)
  parent : m.parentBranch = some i
  branch : ∃ k, m.allOf[i]? = some k ∧ k.reference = b.referenceName
  /-- Another branch tells of its schema only, and has what the base declares only if filled up. -/
  others : ∀ (j : Nat) k, j ≠ i → m.allOf[j]? = some k → ∃ b', c.allOf[j]? = some b' ∧
    (∀ x ∈ names k.properties, defs.Declares b' x) ∧
    (defs.Furnished c j b' → ∀ x ∈ names k.properties, x ∉ Assoc.keys base.properties)

/-- The branch that is inherited from is the parent: no branch before it is marked as a base. -/
theorem Definitions.InheritsFrom.parentBranch {k : Model} (hi : defs.InheritsFrom c i b base)
    (hlength : m.allOf.length = c.allOf.length)
    (htells : ∀ (j : Nat) b k, c.allOf[j]? = some b → m.allOf[j]? = some k → Tells defs r b k)
    (hk : m.allOf[i]? = some k) (hrecord : k.isReferenced = base.isRecord) (hbase : k.isBase = true) :
    m.parentBranch = some i := by
  refine Model.parentBranch_of_first hk ?_ fun j k' hj hk' => ?_
  · rw [hrecord, hbase, hi.record]
    rfl
  · have hlt : j < c.allOf.length := hlength ▸ (List.getElem?_eq_some_iff.mp hk').1
    by_contra hmarked
    obtain ⟨d, hd, hdisc⟩ :=
      (htells j _ k' (List.getElem?_eq_getElem hlt) hk').marked (by simpa using hmarked)
    exact absurd hdisc (by simp [hi.first j _ d hj (List.getElem?_eq_getElem hlt) hd])

/-- A branch with properties in any case stays as it is, if bases keep what is theirs first. -/
theorem Fills.eq_of_furnished (h : Fills setting parent container s.registry i m m')
    (htell : Tells defs r b m) (hfurnished : defs.Furnished c j b)
    (hkeeps : ∀ d y, b.reference.isSome = true → defs.Ends b d → d.discriminator.isSome = true →
      d.Whole → y ∈ Assoc.keys d.properties →
      (∀ (k : Nat) b' d', k < j → c.allOf[k]? = some b' → defs.Ends b' d' →
        d'.discriminator.isSome = true → ¬ defs.Declares b' y) → y ∈ names m.properties) :
    m' = m := by
  cases hfurnished with
  | own hplain hvalue =>
    cases h with
    | kept => rfl
    | filled _ href => exact absurd ((htell.plain hplain hvalue).symm.trans href) (by simp)
  | base hrefers hends hdisc hwhole hy hnew =>
    exact h.eq_of_properties (hkeeps _ _ hrefers hends hdisc hwhole hy hnew)

/-- **A subtype inherits from its first base**, and leaves to it what the base declares. -/
theorem fileFrame_inherits (hr : s.registry.Holds defs) (hc : defs.lookup name = some c)
    (hknown : ∀ b ∈ c.allOf, ∀ n, b.referenceName = some n → (defs.lookup n).isSome = true)
    (hsub : setting.polymorphism.subtypes.lookup (Reference.toDefinition name) = some subtype)
    (hi : defs.InheritsFrom c i b base) (h : (fileFrame setting name).Gives s f s') :
    f.model.Inherits defs c i b base ∧ f.model.isSubtype = true ∧
      f.model.discriminatorField = some subtype.fieldName ∧
      f.model.discriminatorValue = some subtype.fieldValue := by
  obtain ⟨c', built, s₁, s₂, m, hc', hbuilt, he, hinline⟩ := fileFrame_subtype hsub h
  obtain rfl := Option.some.inj ((hr.keeps name c hc).symm.trans hc')
  have hcomposed := hi.composes.branches
  obtain ⟨-, htuple, ⟨-, -, ho⟩ | ⟨⟨b', hlift⟩, -⟩⟩ :=
    (builds_of_definition hbuilt).outline root_fresh rfl hi.composes.own
  swap
  · exact absurd hlift (not_lifts_of_steady hi.whole.branches b')
  obtain ⟨hproperties, hgrows, hspread⟩ := expanded_spread hr hi.composes hknown
    (not_lifts_of_steady hi.whole.branches) hbuilt
    (Or.inr ⟨subtype, by rw [Polymorphism.isSubtype, Assoc.has, hsub]; rfl, he⟩)
  obtain ⟨hgrows', hsame, hfacts, hlen, hparent, hat⟩ := inlined_facts hinline
  have htells := (hspread s₂.registry (.refl _)).tells
  have hlength : m.allOf.length = c.allOf.length := (hspread s₂.registry (.refl _)).length
  have hlen₀ : (asBase setting name built).model.allOf.length = c.allOf.length := by
    obtain ⟨m₀, hbase, -, -, -, -, -, hallOf, -⟩ := asBase_facts setting name built
    rw [hbase]
    exact (congrArg List.length hallOf).trans ho.branches.length_eq.symm
  have hkeeps := fun {j b d} hb hrefers hends hdisc hwhole =>
    expandSubtype_keeps (j := j) (b := b) (d := d) (hr.mono hgrows) hlen₀ he htells hb hrefers hends
      hdisc (hcomposed b (List.mem_of_getElem? hb) d hends) hwhole
  obtain ⟨k, hk, hkref, hkrecord, hkbase, hkkeys⟩ :=
    hkeeps hi.branch hi.refers hi.ends hi.discriminator hi.wholeBase
  have hfirst : m.parentBranch = some i := hi.parentBranch hlength htells hk hkrecord hkbase
  obtain ⟨allOf, ofBases, -, hm⟩ := expandSubtype_cases he
  have hmodel : f.model.toModelFacts =
      (subtypeModel (asBase setting name built).model subtype []).toModelFacts := by
    rw [hfacts, hm]
    rfl
  refine ⟨⟨?_, hsame ▸ hproperties, hparent.trans hfirst, ?_, fun j k' hj hk' => ?_⟩,
    congrArg ModelFacts.isSubtype hmodel, congrArg ModelFacts.discriminatorField hmodel,
    congrArg ModelFacts.discriminatorValue hmodel⟩
  · rw [congrArg ModelFacts.type hmodel]
    exact (congrArg TypeInfo.tuple (asBase_type setting name built)).trans htuple
  · obtain ⟨k', hk', hfills⟩ := hat i k hk
    exact ⟨k', hk', (congrArg ModelFacts.reference hfills.facts).trans hkref⟩
  · have hlt : j < m.allOf.length := hlen ▸ (List.getElem?_eq_some_iff.mp hk').1
    have hb' := List.getElem?_eq_getElem (hlength ▸ hlt : j < c.allOf.length)
    obtain ⟨k'', hk'', hfills⟩ := hat j _ (List.getElem?_eq_getElem hlt)
    obtain rfl := Option.some.inj (hk''.symm.trans hk')
    have hmono : Tells defs s'.registry _ _ := (hspread s'.registry hgrows').tells j _ _ hb'
      (List.getElem?_eq_getElem hlt)
    refine ⟨_, hb', hfills.sound hmono (hcomposed _ (List.mem_of_getElem? hb')),
      fun hfurnished x hx hmem => hj ?_⟩
    -- the branch stayed as it was, and there the base has the property for itself
    have hkept : k'' = m.allOf[j] := by
      refine hfills.eq_of_furnished (htells j _ _ hb' (List.getElem?_eq_getElem hlt)) hfurnished
        fun d y hrefers hends hdisc hwhole hy hnew => ?_
      obtain ⟨l, hl, -, -, -, hkeys⟩ := hkeeps hb' hrefers hends hdisc hwhole
      obtain rfl := Option.some.inj ((List.getElem?_eq_getElem hlt).symm.trans hl)
      exact (hkeys y hy hnew).1
    subst hkept
    refine (hkkeys x hmem fun l b₀ d₀ hl hb₀ hends hdisc => ?_).2 j _
      (List.getElem?_eq_getElem hlt) hx
    exact absurd hdisc (by simp [hi.first l b₀ d₀ hl hb₀ hends])

/-- **No attribute of a subtype is a field that is left to the base.** -/
theorem Definitions.LeavesFields.free (hl : defs.LeavesFields c i b base)
    (h : m.Inherits defs c i b base) :
    ∀ x ∈ names (Kcl.ownAttributes m m.parentBranch), x ∉ Assoc.keys base.properties := by
  intro x hx hmem
  rcases Kcl.mem_names_ownAttributes.mp hx with hx | ⟨j, k, hk, hne, hx⟩
  · exact hl.own x hmem (h.properties.mem_iff.mp hx)
  · obtain ⟨b', hb', hsound, hleft⟩ := h.others j k (fun heq => hne (heq ▸ h.parent)) hk
    have hji : j ≠ i := fun heq => hne (heq ▸ h.parent)
    exact hleft (hl.others j b' hji hb' ⟨x, hmem, hsound x hx⟩) x hx hmem

end KclModels
