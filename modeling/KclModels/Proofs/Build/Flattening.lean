import KclModels.Proofs.Build.FileLinks
import KclModels.Proofs.Build.Outline
import KclModels.Proofs.Kcl.Places
import KclModels.Proofs.Schema.Examined

/-!
# Composition in a file

A schema inherits from one branch of its composition and declares the properties of the others. What
a branch declares it has from the model that was built for it, from the full model of a base, or from
what is built once more of the definition that it refers to. Of the latter two only the properties
and those of the branches are taken, so nothing is lost of a schema that is shallow; of a schema that
composes further references, what those declare is lost.
-/

namespace KclModels

open Build KclModels.Frame

variable {tr : Text.Transliteration}
variable {setting : Setting} {defs : Definitions} {r r' : Registry} {s s' : Session}
variable {b c d : Schema} {m m' : Model} {x name n container : String} {bases : Prop}

/-! ## Definitions and what is known -/

/-- All definitions are known, and they refer to nothing but definitions. -/
structure Registry.Holds (r : Registry) (defs : Definitions) : Prop where
  keeps : ∀ n d, defs.lookup n = some d → r.get? n = some d
  closed : ∀ n d, defs.lookup n = some d → ∀ m, d.referenceName = some m →
    (defs.lookup m).isSome = true

theorem Registry.Holds.mono (h : r.Holds defs) (hr : r.Grows r') : r'.Holds defs :=
  ⟨fun n d hd => hr.keeps n d (h.keeps n d hd), h.closed⟩

/-- What a reference ends at is found at the end of the chain that is followed. -/
theorem Registry.Holds.leads (h : r.Holds defs) {reference : String} (hd : defs.Ends c d)
    (href : c.reference = some reference) : r.Leads reference d :=
  hd.leads h.keeps href

/-- A chain that starts in the definitions stays in them. -/
theorem Registry.Holds.ends (h : r.Holds defs) {reference : String} (hl : r.Leads reference d)
    (href : c.reference = some reference)
    (hknown : ∀ n, c.referenceName = some n → (defs.lookup n).isSome = true) : defs.Ends c d := by
  have hback : ∀ {c : Schema} {reference n : String} {e : Schema}, c.reference = some reference →
      Reference.name? reference = some n → r.get? n = some e →
      (∀ n, c.referenceName = some n → (defs.lookup n).isSome = true) → defs.lookup n = some e := by
    intro c reference n e href hn he hknown
    obtain ⟨e', he'⟩ := Option.isSome_iff_exists.mp
      (hknown n (Schema.referenceName_eq href hn))
    rw [he', ← h.keeps n e' he', he]
  induction hl generalizing c with
  | stop hn hc hnone => exact .next href hn (hback href hn hc hknown) (.here hnone)
  | next hn hc hnext _ ih =>
    have hget := hback href hn hc hknown
    exact .next href hn hget (ih hnext (h.closed _ _ hget))

theorem forall₂_getElem? {α β : Type} {R : α → β → Prop} {l : List α} {l' : List β} {a : α}
    (h : List.Forall₂ R l l') : ∀ {i : Nat}, l[i]? = some a → ∃ a', l'[i]? = some a' ∧ R a a' := by
  induction h with
  | nil => exact fun hi => absurd hi (by simp)
  | cons hab _ ih =>
    intro i hi
    cases i with
    | zero => exact ⟨_, rfl, Option.some.inj hi ▸ hab⟩
    | succ i => exact ih hi

/-! ## Models that stand for branches -/

/-- The model refers to a definition that ends at `d`, and declares nothing itself. -/
structure Waits (r : Registry) (m : Model) (d : Schema) : Prop where
  properties : m.properties = []
  complex : m.type.complex = true
  reference : ∃ n, m.reference = some n ∧ r.Leads (Reference.toDefinition n) d

/-- What is needed of a schema for all it declares to be found with it: a base is without branches. -/
structure Flat (bases : Prop) (d : Schema) : Prop where
  shallow : d.Shallow
  base : bases → d.discriminator.isSome = true → d.allOf = []

/-- A model says nothing of a branch but what the document says. -/
structure Tells (defs : Definitions) (r : Registry) (b : Schema) (m : Model) : Prop where
  /-- It declares nothing else. -/
  sound : ∀ x ∈ names m.properties, defs.Declares b x
  /-- What it refers to declares what the branch declares. -/
  refers : ∀ n, m.reference = some n → ∀ x, defs.Declares b x →
    ∃ d, r.get? n = some d ∧ defs.Declares d x
  /-- What it refers to ends where the branch ends. -/
  leads : ∀ n d, m.reference = some n → r.Leads (Reference.toDefinition n) d → defs.Ends b d
  /-- It is a base only if the branch ends at a schema with a discriminator. -/
  marked : m.isBase = true → ∃ d, defs.Ends b d ∧ d.discriminator.isSome = true
  /-- It refers to nothing if the branch is an object of its own. -/
  plain : b.Plain → b.extraValue? = none → m.reference = none

/-- A model stands for a branch of a composition. -/
structure Stands (defs : Definitions) (r : Registry) (bases : Prop) (b : Schema) (m : Model) :
    Prop extends Tells defs r b m where
  /-- It declares what the branch declares, or waits for the properties of what it refers to. -/
  covers : ∀ d, defs.Ends b d → Flat bases d → ∀ x, defs.Declares d x →
    x ∈ names m.properties ∨ Waits r m d

/-- Of the properties some may be left out. -/
theorem Tells.fewer {properties : List Model} (h : Tells defs r b m)
    (hp : ∀ p ∈ properties, p ∈ m.properties) : Tells defs r b { m with properties } where
  sound x hx := by
    obtain ⟨p, hp', rfl⟩ := List.mem_map.mp hx
    exact h.sound p.name (List.mem_map_of_mem (hp p hp'))
  refers := h.refers
  leads := h.leads
  marked := h.marked
  plain := h.plain

/-- A reference to a definition that is none itself leads there. -/
theorem Frame.Links.leads_stored (h : Links r n m) (hget : r.get? n = some b)
    (href : b.reference = none) :
    r.Leads (Reference.toDefinition n) b ∧ m.type.complex = b.isRecord := by
  obtain ⟨e, he, hcomplex⟩ := h.kind
  have hname := he
  cases he with
  | stop hn hc _ =>
    obtain rfl := Reference.eq_of_name?_toDefinition hn
    obtain rfl := Option.some.inj (hc.symm.trans hget)
    exact ⟨hname, hcomplex⟩
  | next hn hc hnext _ =>
    obtain rfl := Reference.eq_of_name?_toDefinition hn
    obtain rfl := Option.some.inj (hc.symm.trans hget)
    exact absurd (href.symm.trans hnext) (by simp)

/-- What became of a branch declares nothing but what the branch declares. -/
theorem Frame.Outcome.sound (h : Outcome r b m) : ∀ x ∈ names m.properties, defs.Declares b x := by
  intro x hx
  cases h with
  | declares href _ _ hnames _ _ => exact .own href (hnames.mem_iff.mp hx)
  | refers _ _ hl =>
    rw [hl.properties] at hx
    exact absurd hx List.not_mem_nil
  | apart _ _ hapart =>
    obtain ⟨n, -, hl⟩ := hapart
    rw [hl.properties] at hx
    exact absurd hx List.not_mem_nil

/-- **What became of a branch tells of it.** -/
theorem Frame.Outcome.tells (h : Outcome r b m) (hr : r.Holds defs)
    (hknown : ∀ n, b.referenceName = some n → (defs.lookup n).isSome = true) :
    Tells defs r b m := by
  have hsound : ∀ x ∈ names m.properties, defs.Declares b x := h.sound
  cases h with
  | declares href _ hnone hnames _ hbase =>
    refine ⟨hsound, fun n hn => ?_, fun n d hn => ?_,
      fun hmarked => ⟨b, .here href, hbase hmarked⟩, fun _ _ => hnone⟩
    all_goals exact absurd (hnone.symm.trans hn) (by simp)
  | @refers n hsol hn hl =>
    obtain ⟨reference, href, hname⟩ := Option.bind_eq_some_iff.mp hn
    -- the model refers to what the branch refers to, so both end at the same schema
    have hends : ∀ d, r.Leads (Reference.toDefinition n) d → defs.Ends b d := by
      intro d hd
      rw [← Reference.eq_toDefinition hname] at hd
      exact hr.ends hd href hknown
    refine ⟨hsound, fun n' hn' x hx => ?_, fun n' d hn' => ?_, fun hmarked => ?_,
      fun hplain _ => absurd (hplain.reference.symm.trans href) (by simp)⟩
    · obtain rfl := Option.some.inj (hl.reference.symm.trans hn')
      cases hx with
      | own hnone _ => exact absurd (hnone.symm.trans href) (by simp)
      | branch hnone _ _ => exact absurd (hnone.symm.trans href) (by simp)
      | target href' hname' hget hx =>
        obtain rfl := Option.some.inj (href.symm.trans href')
        obtain rfl := Option.some.inj (hname.symm.trans hname')
        exact ⟨_, hr.keeps _ _ hget, hx⟩
    · obtain rfl := Option.some.inj (hl.reference.symm.trans hn')
      exact hends d
    · exact (hl.base hmarked).imp fun d hd => ⟨hends d hd.1, hd.2⟩
  | apart href hwhy hapart =>
    obtain ⟨n, hget, hl⟩ := hapart
    -- the branch became a definition, at which the reference of the model ends
    have hstored := (hl.leads_stored hget href).1
    refine ⟨hsound, fun n' hn' x hx => ?_, fun n' d hn' hd => ?_, fun hmarked => ?_,
      fun hplain hvalue => absurd hwhy (by simp [hplain.allOf, hvalue])⟩
    · obtain rfl := Option.some.inj (hl.reference.symm.trans hn')
      exact ⟨b, hget, hx⟩
    · obtain rfl := Option.some.inj (hl.reference.symm.trans hn')
      exact hstored.unique hd ▸ .here href
    · obtain ⟨d, hd, hdisc⟩ := hl.base hmarked
      exact ⟨d, hstored.unique hd ▸ .here href, hdisc⟩

/-- **What became of a branch stands for it.** -/
theorem Frame.Outcome.stands (h : Outcome r b m) (hr : r.Holds defs)
    (hknown : ∀ n, b.referenceName = some n → (defs.lookup n).isSome = true) :
    Stands defs r bases b m where
  toTells := h.tells hr hknown
  covers d hd hflat x hx := by
    cases h with
    | declares href hall _ hnames _ _ =>
      rw [hd.of_inline href] at hx
      cases hx with
      | own _ hx => exact .inl (hnames.mem_iff.mpr hx)
      | branch _ hb _ => exact absurd hb (by simp [hall])
      | target href' => exact absurd (href.symm.trans href') (by simp)
    | @refers n hsol hn hl =>
      obtain ⟨reference, href, hname⟩ := Option.bind_eq_some_iff.mp hn
      have hleads := hr.leads hd href
      rw [Reference.eq_toDefinition hname] at hleads
      obtain ⟨e, he, hcomplex⟩ := hl.kind
      obtain rfl := he.unique hleads
      -- it declares nothing yet, and waits for the properties of the record that it refers to
      exact .inr ⟨hl.properties, hcomplex.trans (hx.isRecord hflat.shallow.toComposed), n,
        hl.reference, hleads⟩
    | apart href hwhy hapart =>
      obtain ⟨n, hget, hl⟩ := hapart
      obtain rfl := hd.of_inline href
      obtain ⟨hleads, hcomplex⟩ := hl.leads_stored hget href
      exact .inr ⟨hl.properties, hcomplex.trans (hx.isRecord hflat.shallow.toComposed), n,
        hl.reference, hleads⟩

/-! ## Bases in place of branches -/

theorem Frame.builds_of_definition {f : Frame}
    (h : (definition setting name c container).Gives s f s') :
    (Frame.root name c container).Builds setting s f s' := ⟨_, h⟩

theorem Frame.root_fresh : (Frame.root name c container).Fresh := ⟨rfl, rfl, rfl⟩

/-- No branch is lifted where none or several branches say something. -/
theorem Frame.not_lifts_of_length {resolver : Resolver}
    (h : (c.allOf.filter isSubstantive).length ≠ 1) : ∀ b, ¬ Lifts resolver c b :=
  fun _ hl => h (congrArg List.length hl.2.1)

/-- No branch is lifted out of a schema whose branches are objects. -/
theorem Schema.Shallow.not_lifts (h : d.Shallow) (resolver : Resolver) :
    ∀ b, ¬ Lifts resolver d b := by
  intro b hl
  have href := (hl.solitary (h.branches b hl.mem)).reference
  rw [(h.flat b hl.mem).1] at href
  exact absurd href (by decide)

/-- The names of the properties that are built of a definition are among those that it has. -/
theorem Schema.Composed.names_built {f : Frame} (hd : d.Composed)
    (h : (definition setting name d container).Gives s f s') :
    ∀ x ∈ names f.model.properties, x ∈ Assoc.keys d.properties := by
  intro x hx
  obtain ⟨-, -, ⟨-, -, ho⟩ | ⟨-, -, hnil, -⟩⟩ := (builds_of_definition h).outline root_fresh rfl hd
  · exact ho.properties.mem_iff.mp hx
  · rw [hnil] at hx
    exact absurd hx List.not_mem_nil

theorem Schema.Shallow.built {f : Frame} (hd : d.Shallow)
    (h : (definition setting name d container).Gives s f s') : Outline s'.registry d f.model := by
  obtain ⟨-, -, ⟨-, -, ho⟩ | ⟨⟨b, hl⟩, -⟩⟩ :=
    (builds_of_definition h).outline root_fresh rfl hd.toComposed
  · exact ho
  · exact absurd hl (hd.not_lifts _ b)

/-- **All that a shallow schema declares is found with what is built of it.** -/
theorem Frame.Outline.declares (h : Outline r d m) (hd : d.Shallow) (hx : defs.Declares d x) :
    x ∈ names (m.properties ++ m.allOf.flatMap (·.properties)) := by
  rw [names, List.map_append, List.mem_append]
  rcases hx.of_shallow hd with hx | ⟨b, hb, hx⟩
  · exact .inl (h.properties.mem_iff.mpr hx)
  · refine .inr ?_
    obtain ⟨i, hi⟩ := List.mem_iff_getElem?.mp hb
    obtain ⟨m', hm, hout⟩ := forall₂_getElem? h.branches hi
    obtain ⟨href, hall, hvalue⟩ := hd.flat b hb
    cases hout with
    | declares _ _ _ hnames _ _ =>
      obtain ⟨p, hp, rfl⟩ := List.mem_map.mp (hnames.mem_iff.mpr hx)
      exact List.mem_map_of_mem (List.mem_flatMap.mpr ⟨m', List.mem_of_getElem? hm, hp⟩)
    | refers hsol => exact absurd hsol.reference (by simp [href])
    | apart _ hwhy => exact absurd hwhy (by simp [hall, hvalue])

theorem expanded_facts (setting : Setting) (reference name : String) (built : Model) :
    (expanded setting reference name built).reference = some name ∧
      (expanded setting reference name built).isBase = true ∧
      names (expanded setting reference name built).properties = names built.properties ∧
      (expanded setting reference name built).type = built.type := by
  have hnames : ∀ l : List Model, names (l.map fun p => { p with isBase := true }) = names l := by
    intro l
    rw [names, List.map_map]
    rfl
  unfold expanded
  split <;> exact ⟨rfl, rfl, hnames _, rfl⟩

/-- A model is the full model of the base that a branch refers to. -/
def ExpandsTo [Text.Transliteration] (setting : Setting) (container : String) (r : Registry)
    (b : Schema) (m : Model) : Prop :=
  ∃ reference name target built s s', b.reference = some reference ∧
    Reference.name? reference = some name ∧ r.Leads reference target ∧
    target.discriminator.isSome = true ∧
    (definition setting name target container).Gives s built s' ∧
    m = expanded setting reference name built.model

theorem ExpandsTo.mono (h : ExpandsTo setting container r b m) (hr : r.Grows r') :
    ExpandsTo setting container r' b m := by
  obtain ⟨reference, name, target, built, s, s', href, hname, hleads, hrest⟩ := h
  exact ⟨reference, name, target, built, s, s', href, hname, hleads.mono hr.keeps, hrest⟩

/-- **The full model of a base stands for the branch that refers to it.** -/
theorem ExpandsTo.stands (h : ExpandsTo setting container r b m) (hr : r.Holds defs)
    (hknown : ∀ n, b.referenceName = some n → (defs.lookup n).isSome = true)
    (hcomposed : ∀ d, defs.Ends b d → d.Composed) : Stands defs r True b m := by
  obtain ⟨reference, name, target, built, s, s', href, hname, hleads, hdisc, hbuilt, rfl⟩ := h
  obtain ⟨hmref, -, hnames, -⟩ := expanded_facts setting reference name built.model
  have hend := hr.ends hleads href hknown
  refine ⟨⟨fun x hx => ?_, fun n hn x hx => ?_, fun n d hn hd => ?_, fun _ => ⟨target, hend, hdisc⟩,
    fun hplain _ => absurd (hplain.reference.symm.trans href) (by simp)⟩,
    fun d hd hflat x hx => .inl ?_⟩
  · rw [hnames] at hx
    exact hend.declares (.own hend.reference ((hcomposed _ hend).names_built hbuilt x hx))
  · obtain rfl := Option.some.inj (hmref.symm.trans hn)
    cases hx with
    | own hnone _ => exact absurd (hnone.symm.trans href) (by simp)
    | branch hnone _ _ => exact absurd (hnone.symm.trans href) (by simp)
    | target href' hname' hget hx =>
      obtain rfl := Option.some.inj (href.symm.trans href')
      obtain rfl := Option.some.inj (hname.symm.trans hname')
      exact ⟨_, hr.keeps _ _ hget, hx⟩
  · obtain rfl := Option.some.inj (hmref.symm.trans hn)
    rw [← Reference.eq_toDefinition hname] at hd
    exact hd.unique hleads ▸ hend
  · obtain rfl := hd.unique hend
    -- a base that is flat has no branches, so all it declares are its own properties
    have hnil := hflat.base trivial hdisc
    rw [hnames, (hflat.shallow.built hbuilt).properties.mem_iff]
    cases hx with
    | own _ hx => exact hx
    | branch _ hb _ => exact absurd hb (by simp [hnil])
    | target href' => exact absurd (hend.reference.symm.trans href') (by simp)

/-- The model of a branch is kept if the branch is no reference to a base, else it is that of one. -/
inductive Expands [Text.Transliteration] (setting : Setting) (container : String) (r : Registry)
    (ofBases : List String) (b : Schema) (m m' : Option Model) : Prop
  | kept : m' = m → (∀ reference, b.reference = some reference →
      ∃ d, r.Leads reference d ∧ d.discriminator = none) → Expands setting container r ofBases b m m'
  | expanded {base : Model} : m' = some base → ExpandsTo setting container r b base →
      (∀ x ∈ names base.properties, x ∈ ofBases) → Expands setting container r ofBases b m m'

theorem Expands.more {ofBases : List String} {m m' : Option Model} (more : List String)
    (h : Expands setting container r ofBases b m m') :
    Expands setting container r (more ++ ofBases) b m m' := by
  cases h with
  | kept heq hno => exact .kept heq hno
  | expanded heq hexpands hnames =>
    exact .expanded heq hexpands fun x hx => List.mem_append_right _ (hnames x hx)

/-- A branch that the full model of a base has to stand for. -/
def RefersToBase (r : Registry) (b : Schema) : Prop :=
  ∃ reference d, b.reference = some reference ∧ r.Leads reference d ∧ d.discriminator.isSome = true

theorem ExpandsTo.refersToBase (h : ExpandsTo setting container r b m) : RefersToBase r b := by
  obtain ⟨reference, name, target, built, s, s', href, hname, hleads, hdisc, -⟩ := h
  exact ⟨reference, target, href, hleads, hdisc⟩

/-- The full model of a base is marked as one. -/
theorem ExpandsTo.isBase (h : ExpandsTo setting container r b m) : m.isBase = true := by
  obtain ⟨reference, name, target, built, s, s', -, -, -, -, -, rfl⟩ := h
  exact (expanded_facts setting reference name built.model).2.1

/--
Bases are put in place of the branches that refer to them, the first of which stands at the place
`index`. The names that are given beside the models are those of the properties of the bases.
-/
structure Expansion [Text.Transliteration] (setting : Setting) (container : String) (r : Registry)
    (branches : List Schema) (index : Nat) (before after : List Model) (ofBases : List String) :
    Prop where
  length : after.length = before.length
  others : ∀ i, i < index ∨ index + branches.length ≤ i → after[i]? = before[i]?
  places : ∀ (i : Nat) b, branches[i]? = some b →
    Expands setting container r ofBases b before[index + i]? after[index + i]?
  names : ∀ x ∈ ofBases, ∃ (i : Nat) (b : Schema) (m : Model), branches[i]? = some b ∧
    after[index + i]? = some m ∧ ExpandsTo setting container r b m ∧ x ∈ names m.properties

section Expansion

variable {branches : List Schema} {index : Nat} {before after : List Model} {ofBases : List String}

theorem Expansion.nil : Expansion setting container r [] index before before [] :=
  ⟨rfl, fun _ _ => rfl, fun _ _ hb => absurd hb (by simp), fun _ hx => absurd hx List.not_mem_nil⟩

/-- A branch that is no reference to a base keeps its model. -/
theorem Expansion.keep
    (h : Expansion setting container r branches (index + 1) before after ofBases)
    (hno : ∀ reference, b.reference = some reference →
      ∃ d, r.Leads reference d ∧ d.discriminator = none) :
    Expansion setting container r (b :: branches) index before after ofBases := by
  have hnext : ∀ i, index + 1 + i = index + (i + 1) := fun i => by omega
  refine ⟨h.length, fun i hi => h.others i ?_, fun i b' hb => ?_, fun x hx => ?_⟩
  · rw [List.length_cons] at hi
    omega
  · cases i with
    | zero =>
      obtain rfl := Option.some.inj hb
      exact .kept (h.others index (by omega)) hno
    | succ i => exact hnext i ▸ h.places i b' hb
  · obtain ⟨i, b', m, hb, hm, hx⟩ := h.names x hx
    exact ⟨i + 1, b', m, hb, hnext i ▸ hm, hx⟩

/-- The full model of a base takes the place of a branch that refers to it. -/
theorem Expansion.put {base : Model} (hbase : ExpandsTo setting container r b base)
    (hplace : index < before.length)
    (h : Expansion setting container r branches (index + 1) (before.set index base) after ofBases) :
    Expansion setting container r (b :: branches) index before after
      (base.properties.map (·.name) ++ ofBases) := by
  have hnext : ∀ i, index + 1 + i = index + (i + 1) := fun i => by omega
  -- no later branch touches the place again
  have hplaced : after[index]? = some base := by
    rw [h.others index (by omega)]
    exact List.getElem?_set_self hplace
  refine ⟨h.length.trans List.length_set, fun i hi => ?_, fun i b' hb => ?_, fun x hx => ?_⟩
  · rw [List.length_cons] at hi
    rw [h.others i (by omega)]
    exact List.getElem?_set_ne (by omega)
  · cases i with
    | zero =>
      obtain rfl := Option.some.inj hb
      exact .expanded hplaced hbase fun x hx => List.mem_append_left _ hx
    | succ i =>
      have hrest := (h.places i b' hb).more (base.properties.map (·.name))
      rw [hnext i, List.getElem?_set_ne (by omega)] at hrest
      exact hrest
  · rcases List.mem_append.mp hx with hx | hx
    · exact ⟨0, b, base, rfl, hplaced, hbase, hx⟩
    · obtain ⟨i, b', m, hb, hm, hx⟩ := h.names x hx
      exact ⟨i + 1, b', m, hb, hnext i ▸ hm, hx⟩

end Expansion

/-- **Bases are put in place of the branches that refer to them**, and their names are given. -/
theorem expandBranches_expands {branches : List Schema} :
    ∀ {index : Nat} {allOf : List Model} {s s' : Session} {result : List Model × List String},
    (∀ (i : Nat) b, branches[i]? = some b → RefersToBase s'.registry b → index + i < allOf.length) →
    (expandBranches setting container index allOf branches).Gives s result s' →
    s.registry.Grows s'.registry ∧
      Expansion setting container s'.registry branches index allOf result.1 result.2 := by
  induction branches with
  | nil =>
    intro index allOf s s' result _ h
    simp only [expandBranches, gives_pure] at h
    obtain ⟨rfl, rfl⟩ := h
    exact ⟨.refl _, .nil⟩
  | cons branch rest ih =>
    intro index allOf s s' result hplace h
    have hrest : ∀ (i : Nat) b, rest[i]? = some b → RefersToBase s'.registry b →
        index + 1 + i < allOf.length := by
      intro i b hb hbase
      have := hplace (i + 1) b hb hbase
      omega
    rcases expandBranches_cons_cases h with ⟨hno, h⟩ | ⟨reference, name, target, built, s₁, names',
      href, hname, htarget, hdisc, hbuilt, h, hresult⟩
    · obtain ⟨hgrows, hexpansion⟩ := ih hrest h
      refine ⟨hgrows, hexpansion.keep fun reference href => ?_⟩
      obtain ⟨d, hd, hunnamed⟩ := hno reference href
      have hleads := Registry.resolve_leads hd
      obtain ⟨n, hn⟩ := hleads.exists_name
      refine ⟨d, hleads.mono hgrows.keeps, Option.not_isSome_iff_eq_none.mp fun hsome => ?_⟩
      -- a base without a name is not put in place, but every reference that leads has one
      exact absurd (hn.symm.trans (hunnamed hsome)) (by simp)
    · generalize hbase : expanded setting reference name built.model = base at *
      obtain ⟨hgrows, hexpansion⟩ := ih (by rwa [List.length_set]) h
      have hgrows' := ((builds_of_definition hbuilt).grows root_fresh).trans hgrows
      have hexpands : ExpandsTo setting container s'.registry branch base :=
        ⟨reference, name, target, built, _, _, href, hname,
          (Registry.resolve_leads htarget).mono hgrows'.keeps, hdisc, hbuilt, hbase.symm⟩
      rw [hresult]
      exact ⟨hgrows', hexpansion.put hexpands (hplace 0 branch rfl hexpands.refersToBase)⟩

/-! ## Properties that several branches declare -/

namespace Model

variable {ofBases seen : List String} {fromBase : Bool}

/-- A property is kept, unless its name was seen or it is left to a base. -/
theorem keepProperties_names (ofBases : List String) (fromBase : Bool) {properties : List Model} :
    ∀ seen,
    (∀ x, x ∈ (keepProperties ofBases fromBase seen properties).2 ↔
      x ∈ seen ∨ x ∈ names (keepProperties ofBases fromBase seen properties).1) ∧
    ∀ x ∈ names properties, (fromBase = true ∨ x ∉ ofBases) →
      x ∈ (keepProperties ofBases fromBase seen properties).2 := by
  induction properties with
  | nil => exact fun _ => ⟨fun x => by simp [keepProperties, names], fun x hx => absurd hx List.not_mem_nil⟩
  | cons p rest ih =>
    intro seen
    rw [keepProperties]
    split
    · obtain ⟨hseen, hkept⟩ := ih (p.name :: seen)
      refine ⟨fun x => ?_, fun x hx hleft => ?_⟩
      · show x ∈ (keepProperties ofBases fromBase (p.name :: seen) rest).2 ↔ _
        rw [hseen]
        simp only [names, List.map_cons, List.mem_cons]
        tauto
      · show x ∈ (keepProperties ofBases fromBase (p.name :: seen) rest).2
        rcases List.mem_cons.mp hx with rfl | hx
        · exact (hseen _).mpr (.inl List.mem_cons_self)
        · exact hkept x hx hleft
    · rename_i hdrop
      obtain ⟨hseen, hkept⟩ := ih seen
      refine ⟨hseen, fun x hx hleft => ?_⟩
      rcases List.mem_cons.mp hx with rfl | hx
      · -- what is neither kept nor left to a base was seen before
        refine (hseen _).mpr (.inl ?_)
        by_contra hnew
        refine hdrop ?_
        rcases hleft with hleft | hleft <;> simp [hleft, hnew]
      · exact hkept x hx hleft

theorem length_dedupBranches (ofBases : List String) (seen : List String) (branches : List Model) :
    (dedupBranches ofBases seen branches).length = branches.length := by
  induction branches generalizing seen with
  | nil => rfl
  | cons branch rest ih => exact congrArg (· + 1) (ih _)

/-- What a base declares is kept by bases only. -/
theorem not_mem_of_keepProperties {ofBases : List String} {properties : List Model} : ∀ {seen},
    ∀ p ∈ (keepProperties ofBases false seen properties).1, p.name ∉ ofBases := by
  induction properties with
  | nil => exact fun p hp => absurd hp List.not_mem_nil
  | cons q rest ih =>
    intro seen p hp
    rw [keepProperties] at hp
    split at hp
    · rename_i hkept
      rcases List.mem_cons.mp hp with rfl | hp
      · simp only [Bool.false_or, Bool.and_eq_true, Bool.not_eq_true'] at hkept
        simpa using hkept.1
      · exact ih p hp
    · exact ih p hp

/-- Of each branch some of the properties are kept; of one that is no base none that a base has. -/
theorem dedupBranches_at (ofBases : List String) {branches : List Model} : ∀ seen {i : Nat},
    branches[i]? = some m → ∃ properties,
      (dedupBranches ofBases seen branches)[i]? = some { m with properties } ∧
        (∀ p ∈ properties, p ∈ m.properties) ∧
        (m.isBase = false → ∀ p ∈ properties, p.name ∉ ofBases) := by
  induction branches with
  | nil => exact fun _ _ hi => absurd hi (by simp)
  | cons branch rest ih =>
    intro seen i hi
    rw [dedupBranches]
    cases i with
    | zero =>
      obtain rfl := Option.some.inj hi
      refine ⟨_, rfl, fun p hp => mem_keepProperties hp, fun hbase p hp => ?_⟩
      rw [hbase] at hp
      exact not_mem_of_keepProperties p hp
    | succ i => exact ih _ hi

/-- **No name is lost when properties are left to one branch.** -/
theorem dedupBranches_names {branches : List Model} : ∀ {seen} {i : Nat},
    branches[i]? = some m → x ∈ names m.properties → (m.isBase = true ∨ x ∉ ofBases) →
    x ∈ seen ∨ ∃ (j : Nat) (m' : Model), (dedupBranches ofBases seen branches)[j]? = some m' ∧
      x ∈ names m'.properties := by
  induction branches with
  | nil => exact fun hi => absurd hi (by simp)
  | cons branch rest ih =>
    intro seen i hi hx hleft
    rw [dedupBranches]
    obtain ⟨hseen, hkept⟩ := keepProperties_names ofBases branch.isBase seen
    -- what was seen after the first branch was seen before it, or the branch declares it
    have hfirst : x ∈ (keepProperties ofBases branch.isBase seen branch.properties).2 → x ∈ seen ∨
        ∃ (j : Nat) (m' : Model),
          ({ branch with properties := (keepProperties ofBases branch.isBase seen
            branch.properties).1 } :: dedupBranches ofBases (keepProperties ofBases branch.isBase
              seen branch.properties).2 rest)[j]? = some m' ∧ x ∈ names m'.properties := by
      intro hmem
      exact ((hseen x).mp hmem).imp_right fun hx => ⟨0, _, rfl, hx⟩
    cases i with
    | zero =>
      obtain rfl := Option.some.inj hi
      exact hfirst (hkept x hx hleft)
    | succ i =>
      rcases ih hi hx hleft with hmem | ⟨j, m', hj, hx⟩
      · exact hfirst hmem
      · exact .inr ⟨j + 1, m', hj, hx⟩

end Model

/-! ## Compositions as a whole -/

/-- The models stand for the branches, together: what one branch declares may stand in another. -/
structure Spread (defs : Definitions) (r : Registry) (bases : Prop) (branches : List Schema)
    (models : List Model) : Prop where
  length : models.length = branches.length
  tells : ∀ (i : Nat) b m, branches[i]? = some b → models[i]? = some m → Tells defs r b m
  covers : ∀ (i : Nat) b m, branches[i]? = some b → models[i]? = some m →
    ∀ d, defs.Ends b d → Flat bases d → ∀ x, defs.Declares d x →
      (∃ (j : Nat) (m' : Model), models[j]? = some m' ∧ x ∈ names m'.properties) ∨ Waits r m d

theorem spread_of_stands {branches : List Schema} {models : List Model}
    (hlen : models.length = branches.length)
    (h : ∀ (i : Nat) b m, branches[i]? = some b → models[i]? = some m →
      Stands defs r bases b m) : Spread defs r bases branches models where
  length := hlen
  tells i b m hb hm := (h i b m hb hm).toTells
  covers i b m hb hm d hd hflat x hx :=
    ((h i b m hb hm).covers d hd hflat x hx).imp_left fun hx => ⟨i, m, hm, hx⟩

/-- The models still stand for the branches when properties are left to one of them. -/
theorem spread_dedup {branches : List Schema} {models : List Model} {ofBases : List String}
    (hlen : models.length = branches.length)
    (h : ∀ (i : Nat) b m, branches[i]? = some b → models[i]? = some m → Stands defs r bases b m)
    (hbases : ∀ x ∈ ofBases, ∃ (i : Nat) (m : Model), models[i]? = some m ∧ m.isBase = true ∧
      x ∈ names m.properties) :
    Spread defs r bases branches (Model.dedupBranches ofBases [] models) := by
  have hat : ∀ (i : Nat) m', (Model.dedupBranches ofBases [] models)[i]? = some m' →
      ∃ m, models[i]? = some m ∧ m' = { m with properties := m'.properties } ∧
        ∀ p ∈ m'.properties, p ∈ m.properties := by
    intro i m' hm'
    have hlt : i < models.length := by
      rw [← Model.length_dedupBranches ofBases [] models]
      exact (List.getElem?_eq_some_iff.mp hm').1
    obtain ⟨properties, hi, hkept, -⟩ :=
      Model.dedupBranches_at ofBases [] (List.getElem?_eq_getElem hlt)
    obtain rfl := Option.some.inj (hm'.symm.trans hi)
    exact ⟨models[i], List.getElem?_eq_getElem hlt, rfl, hkept⟩
  refine ⟨(Model.length_dedupBranches ..).trans hlen, fun i b m' hb hm' => ?_,
    fun i b m' hb hm' d hd hflat x hx => ?_⟩
  · obtain ⟨m, hm, heq, hkept⟩ := hat i m' hm'
    rw [heq]
    exact (h i b m hb hm).toTells.fewer hkept
  · obtain ⟨m, hm, heq, hkept⟩ := hat i m' hm'
    rcases (h i b m hb hm).covers d hd hflat x hx with hx | ⟨hnil, hcomplex, href⟩
    · -- a base that declares the name keeps it, else the branch itself or one before it
      refine .inl ?_
      by_cases hbase : x ∈ ofBases
      · obtain ⟨j, base, hj, hisBase, hx⟩ := hbases x hbase
        exact (Model.dedupBranches_names hj hx (.inl hisBase)).resolve_left List.not_mem_nil
      · exact (Model.dedupBranches_names hm hx (.inr hbase)).resolve_left List.not_mem_nil
    · refine .inr ⟨?_, ?_, ?_⟩
      · rw [hnil] at hkept
        exact List.eq_nil_iff_forall_not_mem.mpr fun p hp => absurd (hkept p hp) List.not_mem_nil
      · rw [heq]
        exact hcomplex
      · rw [heq]
        exact href

/-! ## Properties of what branches refer to -/

/-- What becomes of branch number `i` when properties of what branches refer to are declared. -/
inductive Fills [Text.Transliteration] (setting : Setting) (parent : Option Nat)
    (container : String) (r : Registry) (i : Nat) (m : Model) : Model → Prop
  | kept : needsInlining parent i m = false ∨ m.reference = none → Fills setting parent container r i m m
  | filled {n : String} {target : Schema} {built : Frame} {s s' : Session} :
      needsInlining parent i m = true → m.reference = some n → r.Leads (Reference.toDefinition n) target →
      (definition setting n target container).Gives s built s' →
      Fills setting parent container r i m { m with
        properties := built.model.properties ++ built.model.allOf.flatMap (·.properties) }

variable {parent : Option Nat}

theorem needsInlining_iff {i : Nat} : needsInlining parent i m = true ↔
    parent ≠ some i ∧ m.properties = [] ∧ m.type.complex = true := by
  simp [needsInlining, and_assoc]

theorem Fills.facts {i : Nat} (h : Fills setting parent container r i m m') :
    m'.toModelFacts = m.toModelFacts := by
  cases h with
  | kept => rfl
  | filled => rfl

/-- **Each branch is kept or filled with properties**, and the properties of the model stay. -/
theorem inlineBranches_fills {branches : List Model} : ∀ {index : Nat} {f f' : Frame}
    {s s' : Session}, (∀ i : Nat, branches[i]? = f.model.allOf[index + i]?) →
    (inlineBranches setting parent f index branches).Gives s f' s' →
    s.registry.Grows s'.registry ∧ f'.model.properties = f.model.properties ∧
      f'.model.toModelFacts = f.model.toModelFacts ∧ f'.model.allOf.length = f.model.allOf.length ∧
      (∀ i < index, f'.model.allOf[i]? = f.model.allOf[i]?) ∧
      ∀ (i : Nat) m, f.model.allOf[index + i]? = some m → ∃ m',
        f'.model.allOf[index + i]? = some m' ∧
          Fills setting parent f.model.name s'.registry (index + i) m m' := by
  induction branches with
  | nil =>
    intro index f f' s s' hsame h
    simp only [inlineBranches, gives_pure] at h
    obtain ⟨rfl, rfl⟩ := h
    refine ⟨.refl _, rfl, rfl, rfl, fun _ _ => rfl, fun i m hm => ?_⟩
    exact absurd ((hsame i).trans hm) (by simp)
  | cons branch rest ih =>
    intro index f f' s s' hsame h
    have hnext : ∀ i, index + 1 + i = index + (i + 1) := fun i => by omega
    have hbranch : f.model.allOf[index]? = some branch := (hsame 0).symm
    have hlt : index < f.model.allOf.length := (List.getElem?_eq_some_iff.mp hbranch).1
    -- the invariant: what is left of the branches are those of the frame from `index` on
    have hrest : ∀ i : Nat, rest[i]? = f.model.allOf[index + 1 + i]? := fun i => by
      rw [hnext i, ← hsame (i + 1)]
      rfl
    rcases inlineBranches_cons_cases h with ⟨hkept, h⟩ |
      ⟨n, target, built, s₁, hneeds, hn, ht, hb, h⟩
    · obtain ⟨hgrows, hmodel, hfacts, hlen, hbefore, hat⟩ := ih hrest h
      refine ⟨hgrows, hmodel, hfacts, hlen, fun i hi => hbefore i (by omega), fun i m hm => ?_⟩
      cases i with
      | zero =>
        obtain rfl := Option.some.inj (hbranch.symm.trans hm)
        exact ⟨branch, (hbefore index (by omega)).trans hbranch, .kept hkept⟩
      | succ i => exact hnext i ▸ hat i m (hnext i ▸ hm)
    · -- filling a branch changes its own place only
      have hset : ∀ {i : Nat}, index ≠ i →
          (inlined f index branch built).model.allOf[i]? = f.model.allOf[i]? :=
        fun hne => List.getElem?_set_ne hne
      obtain ⟨hgrows, hmodel, hfacts, hlen, hbefore, hat⟩ := ih (f := inlined f index branch built)
        (fun i => (hrest i).trans (hset (by omega)).symm) h
      have hgrows' := ((builds_of_definition hb).grows root_fresh).trans hgrows
      refine ⟨hgrows', hmodel, hfacts, hlen.trans List.length_set,
        fun i hi => (hbefore i (by omega)).trans (hset (by omega)), fun i m hm => ?_⟩
      cases i with
      | zero =>
        obtain rfl := Option.some.inj (hbranch.symm.trans hm)
        refine ⟨_, (hbefore index (by omega)).trans (List.getElem?_set_self hlt), ?_⟩
        exact .filled hneeds hn ((Registry.resolve_leads ht).mono hgrows'.keeps) hb
      | succ i =>
        rw [← hnext i] at hm ⊢
        exact hat i m ((hset (by omega)).trans hm)

/-- The parent depends on what the branches refer to and on which are bases. -/
theorem parentBranch_congr (hlen : m'.allOf.length = m.allOf.length)
    (h : ∀ (i : Nat) b, m.allOf[i]? = some b →
      ∃ b', m'.allOf[i]? = some b' ∧ b'.toModelFacts = b.toModelFacts) :
    m'.parentBranch = m.parentBranch := by
  have hfacts : m'.allOf.map (·.toModelFacts) = m.allOf.map (·.toModelFacts) := by
    refine List.ext_getElem? fun i => ?_
    rw [List.getElem?_map, List.getElem?_map]
    cases hb : m.allOf[i]? with
    | none =>
      have hnone : m'.allOf[i]? = none := by
        rw [List.getElem?_eq_none_iff] at hb ⊢
        omega
      rw [hnone]
    | some b =>
      obtain ⟨b', hb', heq⟩ := h i b hb
      rw [hb']
      exact congrArg some heq
  -- both searches for a parent look at the facts of the branches alone
  have hidx : ∀ p : ModelFacts → Bool, m'.allOf.findIdx? (fun b => p b.toModelFacts) =
      m.allOf.findIdx? (fun b => p b.toModelFacts) := by
    intro p
    have := congrArg (List.findIdx? p) hfacts
    rwa [List.findIdx?_map, List.findIdx?_map] at this
  exact congrArg₂ Option.or (hidx fun b => (b.reference.isSome && b.type.complex) && b.isBase)
    (hidx fun b => b.reference.isSome && b.type.complex)

/-- The parent is a branch that refers to something. -/
theorem exists_reference_of_parent {i : Nat} (h : m.parentBranch = some i) :
    ∃ b n, m.allOf[i]? = some b ∧ b.reference = some n := by
  have hidx : ∀ p : Model → Bool, (∀ b, p b = true → b.reference.isSome = true) →
      m.allOf.findIdx? p = some i → ∃ b n, m.allOf[i]? = some b ∧ b.reference = some n := by
    intro p hp hi
    obtain ⟨hlt, hpi, -⟩ := List.findIdx?_eq_some_iff_getElem.mp hi
    obtain ⟨n, hn⟩ := Option.isSome_iff_exists.mp (hp _ hpi)
    exact ⟨m.allOf[i], n, List.getElem?_eq_getElem hlt, hn⟩
  rcases Option.or_eq_some_iff.mp h with h | ⟨-, h⟩
  · exact hidx _ (fun b hb => by simp [Model.isReferenced] at hb; exact hb.1.1) h
  · exact hidx _ (fun b hb => by simp [Model.isReferenced] at hb; exact hb.1) h

/-- What becomes of the model of a file when properties of what branches refer to are declared. -/
theorem inlined_facts {f f' : Frame}
    (h : (inlineBranches setting parent f 0 f.model.allOf).Gives s f' s') :
    s.registry.Grows s'.registry ∧ f'.model.properties = f.model.properties ∧
      f'.model.toModelFacts = f.model.toModelFacts ∧
      f'.model.allOf.length = f.model.allOf.length ∧
      f'.model.parentBranch = f.model.parentBranch ∧
      ∀ (i : Nat) m, f.model.allOf[i]? = some m → ∃ m', f'.model.allOf[i]? = some m' ∧
        Fills setting parent f.model.name s'.registry i m m' := by
  obtain ⟨hgrows, hproperties, hfacts, hlen, -, hat⟩ :=
    inlineBranches_fills (fun i => by rw [Nat.zero_add]) h
  simp only [Nat.zero_add] at hat
  refine ⟨hgrows, hproperties, hfacts, hlen, parentBranch_congr hlen fun i m hi => ?_, hat⟩
  obtain ⟨m', hm', hfills⟩ := hat i m hi
  exact ⟨m', hm', hfills.facts⟩

/-- The name is that of an attribute, or the definition that the model inherits from declares it. -/
def Shows (defs : Definitions) (r : Registry) (m : Model) (x : String) : Prop :=
  x ∈ names (Kcl.ownAttributes m m.parentBranch) ∨
    ∃ (i : Nat) (branch : Model) (n : String) (d : Schema), m.parentBranch = some i ∧
      m.allOf[i]? = some branch ∧ branch.reference = some n ∧ r.get? n = some d ∧
      defs.Declares d x

/-- **What the branches declare is shown** once the properties of what they refer to are declared. -/
theorem Spread.shows {branches : List Schema} {f f' : Frame}
    (hspread : Spread defs s'.registry bases branches f.model.allOf)
    (h : (inlineBranches setting f.model.parentBranch f 0 f.model.allOf).Gives s f' s')
    {i : Nat} (hb : branches[i]? = some b) (hx : defs.Declares b x)
    (hflat : f.model.parentBranch ≠ some i → ∀ d, defs.Ends b d → Flat bases d) :
    Shows defs s'.registry f'.model x := by
  obtain ⟨-, -, -, -, hparent, hat'⟩ := inlined_facts h
  -- what the branch that is the parent declares, is inherited
  have hinherits : ∀ {j : Nat} {b}, f.model.parentBranch = some j → branches[j]? = some b →
      defs.Declares b x → Shows defs s'.registry f'.model x := by
    intro j b hj hb hx
    obtain ⟨m, n, hm, hn⟩ := exists_reference_of_parent hj
    obtain ⟨m', hm', hfills⟩ := hat' j m hm
    obtain ⟨d, hd, hdx⟩ := (hspread.tells j b m hb hm).refers n hn x hx
    have hn' : m'.reference = some n := by
      have := congrArg ModelFacts.reference hfills.facts
      exact this.trans hn
    exact .inr ⟨j, m', n, d, hparent.trans hj, hm', hn', hd, hdx⟩
  have hshown : ∀ {j : Nat} {m' : Model}, f.model.parentBranch ≠ some j →
      f'.model.allOf[j]? = some m' → x ∈ names m'.properties →
      Shows defs s'.registry f'.model x := by
    intro j m' hj hm' hx
    refine .inl (Kcl.mem_names_ownAttributes.mpr (.inr ⟨j, m', hm', ?_, hx⟩))
    exact hparent ▸ hj
  by_cases hi : f.model.parentBranch = some i
  · exact hinherits hi hb hx
  obtain ⟨m, hm⟩ : ∃ m, f.model.allOf[i]? = some m := by
    have hlt := (List.getElem?_eq_some_iff.mp hb).1
    exact ⟨_, List.getElem?_eq_getElem (hspread.length ▸ hlt)⟩
  obtain ⟨d, hd, hdx⟩ := hx.exists_end
  have hdflat := hflat hi d hd
  rcases hspread.covers i b m hb hm d hd hdflat x hdx with ⟨j, mj, hj, hxj⟩ | hwaits
  · by_cases hjp : f.model.parentBranch = some j
    · have hlt := (List.getElem?_eq_some_iff.mp hj).1
      obtain ⟨bj, hbj⟩ : ∃ b, branches[j]? = some b :=
        ⟨_, List.getElem?_eq_getElem (hspread.length ▸ hlt)⟩
      exact hinherits hjp hbj ((hspread.tells j _ mj hbj hj).sound x hxj)
    · obtain ⟨m', hm', hfills⟩ := hat' j mj hj
      cases hfills with
      | kept => exact hshown hjp hm' hxj
      | filled hneeds =>
        rw [(needsInlining_iff.mp hneeds).2.1] at hxj
        exact absurd hxj List.not_mem_nil
  · obtain ⟨hnil, hcomplex, n, hn, hleads⟩ := hwaits
    obtain ⟨m', hm', hfills⟩ := hat' i m hm
    cases hfills with
    | kept hkept =>
      rcases hkept with hkept | hkept
      · rw [needsInlining_iff.mpr ⟨hi, hnil, hcomplex⟩] at hkept
        exact absurd hkept (by decide)
      · exact absurd (hkept.symm.trans hn) (by simp)
    | @filled n' target built s₀ s₁ _ hn' hleads' hbuilt =>
      obtain rfl := Option.some.inj (hn.symm.trans hn')
      obtain rfl := hleads.unique hleads'
      exact hshown hi hm' ((hdflat.shallow.built hbuilt).declares hdflat.shallow hdx)

/-! ## Files -/

/-- The schema is composed of objects, and so are those that its branches refer to. -/
structure Definitions.Composes (defs : Definitions) (c : Schema) : Prop where
  own : c.Composed
  branches : ∀ b ∈ c.allOf, ∀ d, defs.Ends b d → d.Composed

/-- What is known once a definition is built and, for a subtype, bases are put in place. -/
theorem expanded_spread {built : Frame} {s₁ s₂ : Session} (hr : s.registry.Holds defs)
    (hcomposes : defs.Composes c)
    (hknown : ∀ b ∈ c.allOf, ∀ n, b.referenceName = some n → (defs.lookup n).isSome = true)
    (hlift : ∀ b, ¬ Lifts (resolverAt setting (Frame.root name c name) s) c b)
    (hbuilt : (definition setting name c name).Gives s built s₁)
    (hexpand : (setting.polymorphism.isSubtype (Reference.toDefinition name) = false ∧
        m = (asBase setting name built).model ∧ s₂ = s₁) ∨
      ∃ subtype, setting.polymorphism.isSubtype (Reference.toDefinition name) = true ∧
        (expandSubtype setting (asBase setting name built).model c subtype).Gives s₁ m s₂) :
    (names m.properties).Perm (Assoc.keys c.properties) ∧ s.registry.Grows s₂.registry ∧
      ∀ r, s₂.registry.Grows r → Spread defs r
        (setting.polymorphism.isSubtype (Reference.toDefinition name) = true) c.allOf m.allOf := by
  have hgrows := (builds_of_definition hbuilt).grows root_fresh
  obtain ⟨-, -, ⟨-, -, ho⟩ | ⟨⟨b, hl⟩, -⟩⟩ :=
    (builds_of_definition hbuilt).outline root_fresh rfl hcomposes.own
  swap
  · exact absurd hl (hlift b)
  obtain ⟨m₀, hbase, -, -, -, -, hproperties, hallOf, -⟩ := asBase_facts setting name built
  rw [hbase] at hexpand
  -- before bases are put in place each branch stands for itself
  have hstands : ∀ {r : Registry} {bases : Prop}, s₁.registry.Grows r → ∀ (i : Nat) b m,
      c.allOf[i]? = some b → built.model.allOf[i]? = some m → Stands defs r bases b m := by
    intro r bases hgrow i b m hb hm
    obtain ⟨m', hm', hout⟩ := forall₂_getElem? ho.branches hb
    obtain rfl := Option.some.inj (hm.symm.trans hm')
    exact (hout.mono hgrow).stands (hr.mono (hgrows.trans hgrow))
      (hknown b (List.mem_of_getElem? hb))
  have hlen : built.model.allOf.length = c.allOf.length := ho.branches.length_eq.symm
  rcases hexpand with ⟨-, rfl, rfl⟩ | ⟨subtype, hsub, he⟩
  · refine ⟨?_, hgrows, fun r hgrow => ?_⟩
    · show (names m.properties).Perm _
      rw [hproperties]
      exact ho.properties
    · show Spread defs r _ c.allOf m.allOf
      rw [hallOf]
      exact spread_of_stands hlen (hstands hgrow)
  · obtain ⟨allOf, ofBases, hex, rfl⟩ := expandSubtype_cases he
    change (expandBranches setting m₀.name 0 m₀.allOf c.allOf).Gives s₁ (allOf, ofBases) s₂ at hex
    rw [hallOf] at hex
    have hplaced : ∀ i < c.allOf.length, 0 + i < built.model.allOf.length := by omega
    obtain ⟨hgrows', hexpansion⟩ := expandBranches_expands
      (fun i b hb _ => hplaced i (List.getElem?_eq_some_iff.mp hb).1) hex
    refine ⟨?_, hgrows.trans hgrows', fun r hgrow => ?_⟩
    · show (names m₀.properties).Perm _
      rw [hproperties]
      exact ho.properties
    · have hholds := hr.mono (hgrows.trans (hgrows'.trans hgrow))
      refine spread_dedup (hexpansion.length.trans hlen) (fun i b m hb hm => ?_) fun x hx => ?_
      swap
      · obtain ⟨i, b, m, -, hm, hexpands, hx⟩ := hexpansion.names x hx
        exact ⟨0 + i, m, hm, hexpands.isBase, hx⟩
      have hmem := List.mem_of_getElem? hb
      have hi := hexpansion.places i b hb
      rw [Nat.zero_add] at hi
      cases hi with
      | kept heq => exact hstands (hgrows'.trans hgrow) i b m hb (heq.symm.trans hm)
      | expanded heq hexpands _ =>
        -- the branch has the full model of a base, and for a subtype bases have to be flat
        obtain rfl := Option.some.inj (hm.symm.trans heq)
        have hstand := (hexpands.mono hgrow).stands hholds (hknown b hmem)
          (hcomposes.branches b hmem)
        exact { hstand with
          covers := fun d hd hflat => hstand.covers d hd ⟨hflat.shallow, fun _ => hflat.base hsub⟩ }

/-- **What a definition declares is shown by the frame of its file.** -/
theorem fileFrame_shows {f : Frame} (hr : s.registry.Holds defs) (hc : defs.lookup name = some c)
    (hcomposes : defs.Composes c)
    (hknown : ∀ b ∈ c.allOf, ∀ n, b.referenceName = some n → (defs.lookup n).isSome = true)
    (hlift : ∀ b, ¬ Lifts (resolverAt setting (Frame.root name c name) s) c b)
    (h : (fileFrame setting name).Gives s f s')
    (hflat : ∀ (i : Nat) b, c.allOf[i]? = some b → f.model.parentBranch ≠ some i →
      ∀ d, defs.Ends b d →
        Flat (setting.polymorphism.isSubtype (Reference.toDefinition name) = true) d)
    (hx : defs.Declares c x) : Shows defs s'.registry f.model x := by
  obtain ⟨c', built, s₁, s₂, m, hc', hbuilt, hexpand, hinline⟩ := fileFrame_cases h
  obtain rfl := Option.some.inj ((hr.keeps name c hc).symm.trans hc')
  obtain ⟨hproperties, -, hspread⟩ :=
    expanded_spread hr hcomposes hknown hlift hbuilt hexpand
  obtain ⟨hgrows, hsame, -, -, hparent, -⟩ := inlined_facts hinline
  cases hx with
  | own _ hx =>
    refine .inl (Kcl.mem_names_ownAttributes.mpr (.inl ?_))
    rw [hsame]
    exact hproperties.mem_iff.mpr hx
  | branch _ hb hx =>
    -- the parent shows what it declares itself, any other branch has to be flat
    obtain ⟨i, hi⟩ := List.mem_iff_getElem?.mp hb
    exact (hspread s'.registry hgrows).shows hinline hi hx fun hne => hflat i _ hi (hparent ▸ hne)
  | target href => exact absurd (hcomposes.own.reference.symm.trans href) (by simp)

end KclModels
