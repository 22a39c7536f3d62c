import KclModels.Proofs.Build.Cases
import KclModels.Proofs.Build.Descent
import KclModels.Proofs.Registry.Growth
import KclModels.Proofs.Resolve.References

/-!
# What building keeps, and how it fails

Every step of building is followed through once for three things together: the frames that it builds
are `Below` the frame it started from, the schema that it leaves has become no larger, and what is
asked of schemas and of the registry holds for it again. What that is, and which errors go with it,
is left open: a property `Ok` of schemas `Fits` if it holds of the parts of schemas, is not lost when
the registry grows, and makes resolving and following references fail with the errors `E` only.

So each use of this file is a choice of `Ok` and `E`: that building ends is one, that it meets no
reference that leads nowhere is another.
-/

namespace KclModels.Frame

open Build

variable {tr : Text.Transliteration}

/-- What is asked of a property of schemas, and of errors, so that building keeps to them. -/
structure Fits [Text.Transliteration] (setting : Setting) (Sound : Registry → Prop)
    (Ok : Registry → Schema → Prop) (E : GenerationError → Prop) : Prop where
  child {r : Registry} {c d : Schema} : Ok r c → d ∈ c.children → Ok r d
  grows {r r' : Registry} {c : Schema} : Ok r c → r.Grows r' → Ok r' c
  plain {r : Registry} {c : Schema} : c.reference = none → (∀ d ∈ c.children, Ok r d) → Ok r c
  /-- Parts may change, but a reference does not get a schema for further values. -/
  rewrite {r : Registry} {c d : Schema} : Ok r c → d.reference = c.reference →
    (∀ v, d.additionalProperties = some (.schema v) →
      ∃ w, c.additionalProperties = some (.schema w)) →
    (∀ e ∈ d.children, e ∈ c.children ∨ Ok r e) → Ok r d
  hoist {r : Registry} {c : Schema} (f : Frame) (base : String) : Sound r → Ok r c →
    Sound (r.hoist (hoistBase f base) c).2 ∧
      Ok (r.hoist (hoistBase f base) c).2 (.referenceTo (r.hoist (hoistBase f base) c).1)
  type {r : Resolver} {c : Schema} {anonymous required : Bool} {e : TypeError} :
    Sound r.registry → Ok r.registry c → r.resolve c anonymous required = .error e → E (.type e)
  shape {r : Registry} {c : Schema} {e : ReferenceError} : Sound r → Ok r c →
    Shape.ofSchema r c = .error e → E (.type (.reference e))
  follow {r : Registry} {c : Schema} {reference : String} {e : ReferenceError} : Sound r →
    Ok r c → c.reference = some reference → r.resolve reference = .error e →
    E (.type (.reference e))
  target {r : Resolver} {c d : Schema} {reference : String} {anonymous required : Bool}
    {e : TypeError} : Sound r.registry → Ok r.registry c → c.reference = some reference →
    r.registry.resolve reference = .ok d → r.resolve d anonymous required = .error e → E (.type e)
  mixedItems (path : String) : E (.mixedItems path)
  complexEnumValue (path : String) : E (.complexEnumValue path)

/-- The later frame is at the same place, with a schema that is no larger and still `Ok`. -/
structure Kept (Sound : Registry → Prop) (Ok : Registry → Schema → Prop) (f : Frame)
    (s : Session) (f' : Frame) (s' : Session) : Prop where
  name : f'.name = f.name
  named : f'.named = f.named
  schema : f.schema.Shrinks f'.schema
  grows : s.registry.Grows s'.registry
  sound : Sound s'.registry
  ok : Ok s'.registry f'.schema

/-- A schema that is smaller than that of a frame, and `Ok`. -/
structure Part (Ok : Registry → Schema → Prop) (f : Frame) (s : Session) (c : Schema) : Prop where
  size : c.size < f.schema.size
  ok : Ok s.registry c

/-- Whatever is built below the frame is kept to. -/
def Descends (Sound : Registry → Prop) (Ok : Registry → Schema → Prop)
    (E : GenerationError → Prop) (build : Frame → Build Frame) (f : Frame) : Prop :=
  ∀ g s, Below f g → Sound s.registry → Ok s.registry g.schema →
    (build g).Meets s E (Kept Sound Ok g s)

variable {setting : Setting} {Sound : Registry → Prop} {Ok : Registry → Schema → Prop}
variable {E : GenerationError → Prop} {build : Frame → Build Frame}
variable {f₀ f f' g g' : Frame} {s₀ s s' s₁ : Session} {c d : Schema} {base n : String}

theorem Kept.trans (h : Kept Sound Ok f₀ s₀ f s) (h' : Kept Sound Ok f s f' s') :
    Kept Sound Ok f₀ s₀ f' s' where
  name := h'.name.trans h.name
  named := h'.named.trans h.named
  schema := h.schema.trans h'.schema
  grows := h.grows.trans h'.grows
  sound := h'.sound
  ok := h'.ok

/-- A change that is none for the schema. -/
theorem Kept.same (h : Kept Sound Ok f₀ s₀ f s) (hname : f'.name = f.name)
    (hnamed : f'.named = f.named) (hschema : f'.schema = f.schema)
    (hs : s'.registry = s.registry) : Kept Sound Ok f₀ s₀ f' s' where
  name := hname.trans h.name
  named := hnamed.trans h.named
  schema := hschema ▸ h.schema
  grows := hs ▸ h.grows
  sound := hs ▸ h.sound
  ok := by
    rw [hs, hschema]
    exact h.ok

theorem Kept.rewrite (h : Kept Sound Ok f₀ s₀ f s) (hname : f'.name = f.name)
    (hnamed : f'.named = f.named) (hschema : f.schema.Shrinks f'.schema)
    (hok : Ok s.registry f'.schema) : Kept Sound Ok f₀ s₀ f' s :=
  h.trans ⟨hname, hnamed, hschema, .refl _, h.sound, hok⟩

theorem Kept.not_inert (h : Kept Sound Ok f₀ s₀ f s) (hf : ¬ f.schema.Inert) :
    ¬ f₀.schema.Inert := fun h₀ => hf (h.schema.inert h₀)

theorem below_reference (hnamed : g.named = false) (hg : g.schema = .referenceTo n)
    (hf : ¬ f₀.schema.Inert) : Below f₀ g := by
  refine .leaf ?_ (fun hr => by simp [hr.1] at hnamed) (Or.inl hf)
  rw [hg]
  exact Schema.inert_referenceTo n

theorem Part.below (h : Part Ok f₀ s c) (hg : g.schema = c) : Below f₀ g :=
  .smaller (hg ▸ h.size)

theorem Part.not_inert (h : Part Ok f₀ s c) : ¬ f₀.schema.Inert :=
  Schema.not_inert_of_size_lt h.size

section Steps

variable (hfit : Fits setting Sound Ok E)

include hfit

/-- What was built below a frame takes nothing from the frame. -/
theorem Kept.later (h : Kept Sound Ok f₀ s₀ f s) (hg : Kept Sound Ok g s g' s') :
    Kept Sound Ok f₀ s₀ f s' where
  name := h.name
  named := h.named
  schema := h.schema
  grows := h.grows.trans hg.grows
  sound := hg.sound
  ok := hfit.grows h.ok hg.grows

theorem Kept.part (h : Kept Sound Ok f₀ s₀ f s) (hc : c ∈ f.schema.children) :
    Part Ok f₀ s c where
  size := by
    have hlt := Schema.size_lt_of_child hc
    have hle := h.schema.size_le
    omega
  ok := hfit.child h.ok hc

theorem Part.later (h : Part Ok f₀ s c) (hg : s.registry.Grows s'.registry) :
    Part Ok f₀ s' c where
  size := h.size
  ok := hfit.grows h.ok hg

theorem Kept.setBranch (index : Nat) (h : Kept Sound Ok f₀ s₀ f s)
    (hn : Ok s.registry (.referenceTo n)) :
    Kept Sound Ok f₀ s₀ (f.mapBranch index (.referenceTo n)) s := by
  refine h.rewrite rfl rfl (Schema.shrinks_branch _ _ _) ?_
  refine hfit.rewrite h.ok rfl (fun v hv => ⟨v, hv⟩) fun e he => ?_
  rcases Schema.mem_children_setBranch he with he | rfl
  · exact Or.inl he
  · exact Or.inr hn

/-- A schema that is no larger in place of that of the values. -/
theorem Kept.setValue {v w : Schema} (h : Kept Sound Ok f₀ s₀ f s)
    (hv : f.schema.additionalProperties = some (.schema v)) (hsize : w.size ≤ v.size)
    (hw : Ok s.registry w) : Kept Sound Ok f₀ s₀ (f.mapExtraValue w) s := by
  refine h.rewrite rfl rfl (Schema.shrinks_value hv hsize) ?_
  refine hfit.rewrite h.ok rfl (fun _ _ => ⟨v, hv⟩) fun e he => ?_
  rcases Schema.mem_children_setValue he with he | rfl
  · exact Or.inl he
  · exact Or.inr hw

theorem Kept.setItem {item : Schema} (h : Kept Sound Ok f₀ s₀ f s)
    (hi : f.schema.items = some (.single item)) (hn : Ok s.registry (.referenceTo n)) :
    Kept Sound Ok f₀ s₀ (f.mapItem (.referenceTo n)) s := by
  refine h.rewrite rfl rfl (Schema.shrinks_item hi) ?_
  refine hfit.rewrite h.ok rfl (fun v hv => ⟨v, hv⟩) fun e he => ?_
  rcases Schema.mem_children_setItem he with he | rfl
  · exact Or.inl he
  · exact Or.inr hn

theorem Kept.setExtraItem {item : Schema} (h : Kept Sound Ok f₀ s₀ f s)
    (hi : f.schema.additionalItems = some (.schema item)) (hn : Ok s.registry (.referenceTo n)) :
    Kept Sound Ok f₀ s₀ (f.mapExtraItem (.referenceTo n)) s := by
  refine h.rewrite rfl rfl (Schema.shrinks_extraItem hi) ?_
  refine hfit.rewrite h.ok rfl (fun v hv => ⟨v, hv⟩) fun e he => ?_
  rcases Schema.mem_children_setExtraItem he with he | rfl
  · exact Or.inl he
  · exact Or.inr hn

omit hfit in
/-- A reference in place of the whole schema. -/
theorem Kept.refer (h : Kept Sound Ok f₀ s₀ f s) (hn : Ok s.registry (.referenceTo n)) :
    Kept Sound Ok f₀ s₀ (f.referTo n).restart s := by
  refine h.rewrite rfl rfl (Schema.shrinks_of_inert ?_ (Schema.inert_referenceTo n)) hn
  exact f.schema.size_pos

theorem populate_meets (f : Frame) : (f.populate setting).Meets s E fun f' s' =>
    f'.toPlace = f.toPlace ∧ f'.schema = f.schema ∧ s'.registry = s.registry := by
  unfold populate
  refine meets_bind (Q := fun _ s' => s'.registry = s.registry) ?_ fun c s' hs =>
    meets_pure ⟨rfl, rfl, hs⟩
  unfold constraints
  dsimp only
  split
  · exact meets_pure rfl
  · split
    · exact meets_throw (hfit.complexEnumValue _)
    · split
      · exact meets_bind (Q := fun _ s' => s'.registry = s.registry) (meets_warnAll rfl)
          fun _ _ hs => meets_pure hs
      · exact meets_pure rfl

/-- The type of a schema that is `Ok`. -/
theorem type_meets {anonymous required : Bool} (hs : Sound s.registry) (hc : Ok s.registry c) :
    (resolve setting f c anonymous required).Meets s E fun t s' =>
      s = s' ∧ (resolverAt setting f s).resolve c anonymous required = .ok t :=
  meets_resolve (fun _ ht => ⟨rfl, ht⟩) fun _ he => hfit.type (r := resolverAt setting f s) hs hc he

/-- The shape of a schema that is `Ok`. -/
theorem shape_meets {k : Shape → Build Frame} {Q : Frame → Session → Prop}
    (hs : Sound s.registry) (hc : Ok s.registry c) (hk : ∀ shape, (k shape).Meets s E Q) :
    (registry >>= fun r => ofReference (Shape.ofSchema r c) >>= k).Meets s E Q := by
  refine meets_bind (Q := fun r s' => r = s.registry ∧ s' = s) (meets_registry ⟨rfl, rfl⟩) ?_
  rintro r s' ⟨rfl, rfl⟩
  refine meets_bind (Q := fun _ t => t = s') ?_ fun shape t ht => ht ▸ hk shape
  exact meets_ofReference (fun _ _ => rfl) fun _ he => hfit.shape hs hc he

variable (hb : Descends Sound Ok E build f₀)

include hb

/-- A definition is made of a schema that is `Ok`, and built. -/
theorem meets_made {α : Type} {j : Frame → Frame} {k : Frame → Build α}
    {Q : α → Session → Prop} (hf : Kept Sound Ok f₀ s₀ f s) (hok : Ok s.registry c)
    (hj : ∀ m, (j m).name = m.name ∧ (j m).named = m.named ∧ (j m).schema = m.schema)
    (hbelow : ∀ h : Frame, h.named = true → h.schema = c → Below f₀ h)
    (hk : ∀ h s₁, Kept Sound Ok f₀ s₀ f s₁ → s.registry.Grows s₁.registry →
      Ok s₁.registry (.referenceTo h.name) → (k h).Meets s₁ E Q) :
    (hoist g base c >>= fun m => build (j m) >>= k).Meets s E Q := by
  refine meets_bind (Q := fun m s₁ => m = g.hoisted (s.registry.hoist (hoistBase g base) c).1 c ∧
      s₁.registry = (s.registry.hoist (hoistBase g base) c).2) (meets_hoist ⟨rfl, rfl⟩) ?_
  rintro m s₁ ⟨rfl, hs₁⟩
  obtain ⟨hname, hnamed, hschema⟩ := hj (g.hoisted (s.registry.hoist (hoistBase g base) c).1 c)
  obtain ⟨hsound, href⟩ := hfit.hoist g base hf.sound hok
  have hgrows : s.registry.Grows s₁.registry := hs₁ ▸ Registry.hoist_grows _ _ _
  have hc : Ok s₁.registry c := hfit.grows hok hgrows
  rw [← hs₁] at hsound href
  -- the frame has the name of the definition, and its schema is below the one that is built
  refine meets_bind (hb _ s₁ (hbelow _ hnamed hschema) hsound (by rw [hschema]; exact hc)) ?_
  intro h s₂ hh
  have hgrows₂ := hgrows.trans hh.grows
  refine hk h s₂ ⟨hf.name, hf.named, hf.schema, hf.grows.trans hgrows₂, hh.sound,
    hfit.grows hf.ok hgrows₂⟩ hgrows₂ ?_
  rw [hh.name, hname]
  exact hfit.grows href hh.grows

/-! ## Definitions that are references -/

theorem buildReference_meets (hf : Kept Sound Ok f₀ s₀ f s) (hrefers : f₀.Refers)
    (hschema : f.schema = f₀.schema) :
    (f.buildReference setting build).Meets s E (Kept Sound Ok f₀ s₀) := by
  unfold buildReference
  refine shape_meets hfit hf.sound hf.ok fun shape => ?_
  split
  · refine meets_bind (type_meets hfit hf.sound hf.ok) ?_
    rintro target _ ⟨rfl, -⟩
    have hbelow : Below f₀ f.aliasOf :=
      .leaf ⟨rfl, rfl, rfl, rfl⟩ (fun hr => by simpa [aliasOf] using hr.2) (Or.inr hrefers)
    refine meets_bind (hb _ _ hbelow hf.sound (hfit.plain rfl fun d hd => ?_)) fun g s₁ hg =>
      meets_pure ?_
    · exact absurd hd List.not_mem_nil
    exact (hf.later hfit hg).same rfl rfl rfl rfl
  · refine meets_bind (Q := fun _ s' => s' = s) (meets_resolver rfl) ?_
    rintro r _ rfl
    have hbelow : Below f₀ (f.branch f.schema 0) := .branch hrefers rfl hschema
    refine meets_bind (hb _ _ hbelow hf.sound hf.ok) fun g s₁ hg => meets_pure ?_
    exact (hf.later hfit hg).same rfl rfl rfl rfl

/-! ## Compositions -/

omit hb in
theorem liftBranch_meets (hf : Kept Sound Ok f₀ s₀ f s) :
    (f.liftBranch setting).Meets s E (Kept Sound Ok f₀ s₀) := by
  unfold liftBranch
  split
  · exact meets_pure hf
  · split
    · exact meets_pure hf
    · rename_i branch others hbranches
      have hmem : branch ∈ f.schema.allOf :=
        (List.mem_filter.mp (hbranches ▸ List.mem_cons_self)).1
      have hchild := Schema.branch_mem_children hmem
      have hok := hfit.child hf.ok hchild
      refine meets_bind (type_meets hfit hf.sound hok) ?_
      rintro t _ ⟨rfl, -⟩
      split
      · exact meets_pure (hf.rewrite rfl rfl (Schema.shrinks_child hchild) hok)
      · exact meets_pure hf

theorem buildBranch_meets {index : Nat} {branch : Schema} (hf : Kept Sound Ok f₀ s₀ f s)
    (hc : Part Ok f₀ s branch) : (f.buildBranch setting build index branch).Meets s E
      fun p s' => Kept Sound Ok f₀ s₀ p.1 s' ∧ s.registry.Grows s'.registry := by
  unfold buildBranch
  refine meets_bind (type_meets hfit hf.sound hc.ok) ?_
  rintro t _ ⟨rfl, -⟩
  split
  · refine meets_made hfit hb (j := fun m => m) hf hc.ok (fun _ => ⟨rfl, rfl, rfl⟩)
      (fun _ _ hh => hc.below hh) fun h s₁ hf₁ hgrows hn => ?_
    have hbelow : Below f₀ ((f.mapBranch index (.referenceTo h.name)).branch
        (.referenceTo h.name) index) := below_reference rfl rfl hc.not_inert
    refine meets_bind (hb _ s₁ hbelow hf₁.sound hn) fun g s₂ hg => meets_pure ?_
    have hset := (hf₁.later hfit hg).setBranch hfit index (hfit.grows hn hg.grows)
    exact ⟨hset.same rfl rfl rfl rfl, hgrows.trans hg.grows⟩
  · refine meets_bind (hb _ _ (hc.below rfl) hf.sound hc.ok) fun g s₁ hg => meets_pure ?_
    exact ⟨(hf.later hfit hg).same rfl rfl rfl rfl, hg.grows⟩

theorem buildBranches_meets {branches : List Schema} : ∀ {index : Nat} {f : Frame} {s : Session},
    Kept Sound Ok f₀ s₀ f s → (∀ c ∈ branches, Part Ok f₀ s c) →
    (f.buildBranches setting build index branches).Meets s E
      fun p s' => Kept Sound Ok f₀ s₀ p.1 s' := by
  induction branches with
  | nil => exact fun hf _ => meets_pure hf
  | cons branch rest ih =>
    intro index f s hf hc
    unfold buildBranches
    refine meets_bind (buildBranch_meets hfit hb hf (hc branch List.mem_cons_self)) ?_
    rintro ⟨f₁, array⟩ s₁ ⟨hf₁, hgrows⟩
    refine meets_bind (ih hf₁ fun c hm => (hc c (List.mem_cons_of_mem _ hm)).later hfit hgrows) ?_
    rintro ⟨f₂, arrays⟩ s₂ hf₂
    exact meets_pure hf₂

theorem buildAllOf_meets (hf : Kept Sound Ok f₀ s₀ f s) :
    (f.buildAllOf setting build).Meets s E (Kept Sound Ok f₀ s₀) := by
  unfold buildAllOf
  split
  · exact meets_pure hf
  · refine meets_bind (buildBranches_meets hfit hb hf fun c hc =>
      hf.part hfit (Schema.branch_mem_children hc)) ?_
    rintro ⟨f₁, arrays⟩ s₁ hf₁
    dsimp only
    split
    · refine meets_bind (Q := fun _ t => t.registry = s₁.registry) (meets_warnAll rfl) ?_
      exact fun _ t ht => meets_pure (hf₁.same rfl rfl rfl ht)
    · exact meets_pure hf₁

/-! ## Additional properties -/

omit hfit hb in
/-- What is built of the values of a map: a frame with a schema that is no larger than theirs. -/
structure Leaves (Sound : Registry → Prop) (Ok : Registry → Schema → Prop) (f : Frame)
    (s : Session) (v : Schema) (g : Frame) (s' : Session) : Prop where
  frame : Kept Sound Ok f s f s'
  ok : Ok s'.registry g.schema
  size : g.schema.size ≤ v.size

theorem buildMapLeaf_meets {parent level : Frame} {t : TypeInfo} (hf : Kept Sound Ok f₀ s₀ f s)
    (hnamed : level.named = false) (hc : Part Ok f₀ s level.schema) :
    (buildMapLeaf build parent level t).Meets s E fun g s' =>
      Leaves Sound Ok f s level.schema g s' := by
  -- what is built in the end is the value, or a reference to a definition made of it
  have hrest : ∀ (l : Frame) s₁, Leaves Sound Ok f s level.schema l s₁ →
      (∀ g : Frame, g.named = l.named → g.schema = l.schema → Below f₀ g) →
      (registry >>= fun r => ofReference (Shape.ofSchema r l.schema) >>= fun shape =>
        build (l.require (valueRequired shape))).Meets s₁ E fun g s' =>
          Leaves Sound Ok f s level.schema g s' := by
    rintro l s₁ ⟨hf₁, hok, hsize⟩ hbelow
    refine shape_meets hfit hf₁.sound hok fun shape => ?_
    have hlevel : Below f₀ (l.require (valueRequired shape)) := hbelow _ rfl rfl
    refine (hb _ s₁ hlevel hf₁.sound hok).mono fun g s₂ hg => ?_
    exact ⟨hf₁.later hfit hg, hg.ok, Nat.le_trans hg.schema.size_le hsize⟩
  unfold buildMapLeaf
  dsimp only
  split
  · refine meets_made hfit hb (j := fun m => m) hf hc.ok (fun _ => ⟨rfl, rfl, rfl⟩)
      (fun _ _ hh => hc.below hh) fun h s₁ hf₁ hgrows hn => ?_
    refine meets_bind (Q := fun l s' => l = (level.referTo h.name).addExtra h ∧ s' = s₁)
      (meets_pure ⟨rfl, rfl⟩) ?_
    rintro l s' ⟨rfl, rfl⟩
    refine hrest _ _ ⟨⟨rfl, rfl, .refl _, hgrows, hf₁.sound, hf₁.ok⟩, hn, ?_⟩ fun g hg hs => ?_
    · exact level.schema.size_pos
    · exact below_reference (hg.trans hnamed) hs hc.not_inert
  · refine meets_bind (Q := fun l s' => l = level ∧ s' = s) (meets_pure ⟨rfl, rfl⟩) ?_
    rintro l s' ⟨rfl, rfl⟩
    refine hrest _ _ ⟨?_, hc.ok, Nat.le_refl _⟩ fun g _ hs => hc.below hs
    exact ⟨rfl, rfl, .refl _, .refl _, hf.sound, hf.ok⟩

omit hb in
theorem joinMapLevel_meets {level child : Frame} {v : Schema} (hlevel : Ok s₁.registry level.schema)
    (hv : level.schema.additionalProperties = some (.schema v))
    (hchild : Leaves Sound Ok f s v child s₁) :
    (level.joinMapLevel setting child).Meets s₁ E fun g s' =>
      Leaves Sound Ok f s level.schema g s' := by
  unfold joinMapLevel
  obtain ⟨hf, hok, hsize⟩ := hchild
  have hset : Kept Sound Ok level s₁ (level.mapExtraValue child.schema) s₁ :=
    (Kept.setValue hfit ⟨rfl, rfl, .refl _, .refl _, hf.sound, hlevel⟩ hv hsize hok)
  refine meets_bind (populate_meets hfit _) ?_
  rintro g s₂ ⟨hplace, hschema, hs⟩
  have hg : Kept Sound Ok level s₁ g s₂ :=
    hset.same (by rw [hplace]) (by rw [hplace]) hschema hs
  refine meets_bind (type_meets hfit hg.sound hg.ok) ?_
  rintro t _ ⟨rfl, -⟩
  exact meets_pure ⟨hf.same rfl rfl rfl hs, hg.ok, hg.schema.size_le⟩

theorem buildMapLevel_meets (v : Schema) : ∀ {parent : Frame} {s : Session},
    Kept Sound Ok f₀ s₀ f s → Part Ok f₀ s v →
    (buildMapLevel setting build parent v).Meets s E fun g s' => Leaves Sound Ok f s v g s' := by
  induction v using Schema.value_induction with
  | step v ih =>
    intro parent s hf hc
    -- the level is taken apart so that the recursion unfolds
    obtain ⟨keywords, properties, allOf, items, value, extraItems⟩ := v
    rw [buildMapLevel]
    refine meets_bind (type_meets hfit hf.sound hc.ok) ?_
    rintro t _ ⟨rfl, -⟩
    rcases value with _ | allowed | next
    · exact buildMapLeaf_meets hfit hb hf rfl hc
    · exact buildMapLeaf_meets hfit hb hf rfl hc
    · dsimp only
      split
      · have hnext := Schema.size_lt_of_value (v := ⟨keywords, properties, allOf, items,
          some (.schema next), extraItems⟩) rfl
        have hok := hfit.child hc.ok (Schema.value_mem_children rfl)
        refine meets_bind (ih next rfl hf ⟨Nat.lt_trans hnext hc.size, hok⟩) ?_
        intro child s₁ hchild
        exact joinMapLevel_meets hfit (hfit.grows hc.ok hchild.frame.grows) rfl hchild
      · exact buildMapLeaf_meets hfit hb hf rfl hc

theorem buildMap_meets {value : Schema} (hf : Kept Sound Ok f₀ s₀ f s)
    (hv : f.schema.additionalProperties = some (.schema value)) :
    (f.buildMap setting build value).Meets s E (Kept Sound Ok f₀ s₀) := by
  unfold buildMap
  have hpart := hf.part hfit (Schema.value_mem_children hv)
  refine meets_bind (buildMapLevel_meets hfit hb value hf hpart) ?_
  rintro child s₁ ⟨hf₁, hok, hsize⟩
  exact meets_pure (((hf.trans hf₁).setValue hfit hv hsize hok).same rfl rfl rfl rfl)

theorem hoistExtended_meets {value : Schema} (hf : Kept Sound Ok f₀ s₀ f s)
    (hv : f.schema.additionalProperties = some (.schema value)) (hnamed : f.named = false) :
    (f.hoistExtended build).Meets s E (Kept Sound Ok f₀ s₀) := by
  unfold hoistExtended
  have hchild := Schema.value_mem_children hv
  have hinert := hf.not_inert (Schema.not_inert_of_child hchild)
  refine meets_made hfit hb (j := fun m => m) hf hf.ok (fun _ => ⟨rfl, rfl, rfl⟩) ?_
    fun h s₁ hf₁ hgrows hn => ?_
  · -- the schema of the frame itself gets a name
    intro h hh hs
    rcases Nat.lt_or_eq_of_le hf.schema.size_le with hlt | heq
    · exact .smaller (hs ▸ hlt)
    · obtain ⟨href, -⟩ := hf.schema.same heq (Schema.not_inert_of_child hchild)
      refine .made (hf.named ▸ hnamed) hh hinert (hs ▸ hf.schema.size_le) (Or.inl ?_)
      rw [hs]
      exact ⟨href, value, hv⟩
  · have hbelow : Below f₀ (f.referTo h.name).restart := below_reference hnamed rfl hinert
    refine meets_bind (hb _ s₁ hbelow hf₁.sound hn) fun g s₂ hg => meets_pure ?_
    exact ((hf₁.refer hn).trans hg).same rfl rfl rfl rfl

theorem buildExtraValues_meets {value : Schema} (hf : Kept Sound Ok f₀ s₀ f s)
    (hv : f.schema.additionalProperties = some (.schema value)) :
    (f.buildExtraValues setting build value).Meets s E (Kept Sound Ok f₀ s₀) := by
  unfold buildExtraValues
  have hpart := hf.part hfit (Schema.value_mem_children hv)
  refine meets_bind (type_meets hfit hf.sound hpart.ok) ?_
  rintro t _ ⟨rfl, -⟩
  -- whether or not a definition was made, what is built in its place is below the frame
  refine meets_bind (Q := fun (p : Frame × Schema × Option Frame) s' =>
    Kept Sound Ok f₀ s₀ p.1 s' ∧ Ok s'.registry p.2.1 ∧
    ∀ g : Frame, g.named = false → g.schema = p.2.1 → Below f₀ g) ?_ ?_
  · have hsize : ∀ n, (Schema.referenceTo n).size ≤ value.size := fun _ => value.size_pos
    unfold hoistExtraValue
    split
    · refine meets_made hfit hb (j := fun m => m) hf hpart.ok (fun _ => ⟨rfl, rfl, rfl⟩)
        (fun _ _ hh => hpart.below hh) fun h s₁ hf₁ hgrows hn => meets_pure ⟨?_, hn, ?_⟩
      · exact (hf₁.setValue hfit hv (hsize h.name) hn).same rfl rfl rfl rfl
      · exact fun g hg hs => below_reference hg hs hpart.not_inert
    · exact meets_pure ⟨hf, hpart.ok, fun g _ hs => hpart.below hs⟩
  · rintro ⟨f₁, v, made⟩ s₁ ⟨hf₁, hok, hbelow⟩
    refine shape_meets hfit hf₁.sound hok fun shape => ?_
    refine meets_bind (hb _ s₁ (hbelow _ rfl rfl) hf₁.sound hok) fun g s₂ hg => meets_pure ?_
    exact (hf₁.later hfit hg).same rfl rfl rfl rfl

theorem buildAnyValues_meets {declared : Bool} (hf : Kept Sound Ok f₀ s₀ f s)
    (hhas : f.schema.hasAdditionalProperties = true) :
    (f.buildAnyValues build declared).Meets s E (Kept Sound Ok f₀ s₀) := by
  unfold buildAnyValues
  have hallow : (f.allowAny declared).toPlace = f.toPlace ∧
      (f.allowAny declared).schema = f.schema := by
    unfold allowAny
    split <;> exact ⟨rfl, rfl⟩
  have hinert := hf.not_inert fun hi => by simp [hi.values] at hhas
  have hbelow : Below f₀ ((f.allowAny declared).mapValue (.typed "object")) :=
    .leaf (Schema.inert_typed _) (fun hr => by simpa [mapValue] using hr.1) (Or.inl hinert)
  have hok : Ok s.registry (.typed "object") :=
    hfit.plain rfl fun d hd => absurd hd List.not_mem_nil
  refine meets_bind (hb _ s hbelow hf.sound hok) fun g s₁ hg => meets_pure ?_
  exact (hf.later hfit hg).same (congrArg Place.name hallow.1) (congrArg Place.named hallow.1)
    hallow.2 rfl

theorem buildAdditionalProperties_meets (hf : Kept Sound Ok f₀ s₀ f s) :
    (f.buildAdditionalProperties setting build).Meets s E (Kept Sound Ok f₀ s₀) := by
  unfold buildAdditionalProperties
  split
  · exact meets_pure hf
  · rename_i extra hextra
    dsimp only
    -- to note what is known of the values changes neither the place nor the schema
    have hmark : ∀ declared, ((f.deny extra).markExtra declared).toPlace = f.toPlace ∧
        ((f.deny extra).markExtra declared).schema = f.schema := by
      intro declared
      unfold markExtra
      split <;> exact ⟨rfl, rfl⟩
    have hf₁ : ∀ declared, Kept Sound Ok f₀ s₀ ((f.deny extra).markExtra declared) s :=
      fun declared => hf.same (congrArg Place.name (hmark declared).1)
        (congrArg Place.named (hmark declared).1) (hmark declared).2 rfl
    split
    · exact meets_pure (hf.same rfl rfl rfl rfl)
    · rename_i hon
      split
      · refine buildAnyValues_meets hfit hb (hf₁ _) ?_
        rw [(hmark _).2, Schema.hasAdditionalProperties, hextra, Option.any_some]
        simpa using hon
      · rename_i value
        have hv : ∀ declared, ((f.deny (.schema value)).markExtra
            declared).schema.additionalProperties = some (.schema value) :=
          fun declared => (congrArg _ (hmark declared).2).trans hextra
        split
        · exact buildMap_meets hfit hb (hf₁ _) (hv _)
        · split
          · rename_i hnamed
            exact hoistExtended_meets hfit hb (hf₁ _) (hv _) (by simpa using hnamed)
          · exact buildExtraValues_meets hfit hb (hf₁ _) (hv _)

/-! ## Properties -/

omit hb in
theorem decorate_meets {reference : String} (hf : Kept Sound Ok f₀ s₀ f s)
    (href : f.schema.reference = some reference) :
    (f.decorate setting reference).Meets s E fun _ s' => s' = s := by
  unfold decorate
  dsimp only
  refine meets_bind (Q := fun r s' => r = s.registry ∧ s' = s) (meets_registry ⟨rfl, rfl⟩) ?_
  rintro r s' ⟨rfl, rfl⟩
  refine meets_bind (Q := fun d s₁ => s'.registry.resolve reference = .ok d ∧ s₁ = s')
    (meets_ofReference (fun d hd => ⟨hd, rfl⟩) fun e he => hfit.follow hf.sound hf.ok href he) ?_
  rintro d s₁ ⟨hd, rfl⟩
  refine meets_bind (Q := fun _ s₂ => s₂ = s₁) (meets_ofType (fun _ _ => rfl) fun e he => ?_) ?_
  · exact hfit.target (r := ⟨s₁.registry, _, _, _⟩) hf.sound hf.ok href hd he
  · rintro t _ rfl
    split
    · split
      · exact meets_throw (hfit.complexEnumValue _)
      · exact meets_pure rfl
    · exact meets_pure rfl

theorem buildProperty_meets {position : Nat} {name : String} (hf : Kept Sound Ok f₀ s₀ f s)
    (hc : Part Ok f₀ s c) : (f.buildProperty setting build position name c).Meets s E
      fun g s' => Kept Sound Ok f₀ s₀ g s' ∧ s.registry.Grows s'.registry := by
  unfold buildProperty
  dsimp only
  refine meets_bind (type_meets hfit hf.sound hc.ok) ?_
  rintro t _ ⟨rfl, -⟩
  -- the property itself, or the reference to the definition that was made of it
  refine meets_bind (Q := fun (p : Frame × Schema) s' => Kept Sound Ok f₀ s₀ p.1 s' ∧
    s.registry.Grows s'.registry ∧ Ok s'.registry p.2 ∧
    ∀ g : Frame, g.named = false → g.schema = p.2 → Below f₀ g) ?_ ?_
  · unfold hoistProperty
    dsimp only
    split
    · refine meets_made hfit hb (j := fun m => m.within f name) hf hc.ok
        (fun _ => ⟨rfl, rfl, rfl⟩) (fun _ _ hh => hc.below hh) fun h s₁ hf₁ hgrows hn =>
          meets_pure ⟨hf₁.same rfl rfl rfl rfl, hgrows, hn, fun g hg hs => ?_⟩
      exact below_reference hg hs hc.not_inert
    · exact meets_pure ⟨hf, .refl _, hc.ok, fun g _ hs => hc.below hs⟩
  · rintro ⟨f₁, d⟩ s₁ ⟨hf₁, hgrows, hok, hbelow⟩
    refine meets_bind (hb _ s₁ (hbelow _ rfl rfl) hf₁.sound hok) fun g s₂ hg => ?_
    have hf₂ := hf₁.later hfit hg
    have hgrows₂ := hgrows.trans hg.grows
    split
    · rename_i reference href
      refine meets_bind (decorate_meets hfit hg href) ?_
      rintro g' _ rfl
      exact meets_pure ⟨hf₂.same rfl rfl rfl rfl, hgrows₂⟩
    · refine meets_bind (Q := fun _ s₃ => s₃ = s₂) (meets_pure rfl) ?_
      rintro g' _ rfl
      exact meets_pure ⟨hf₂.same rfl rfl rfl rfl, hgrows₂⟩

theorem buildPropertyList_meets {properties : List (String × Schema)} : ∀ {position : Nat}
    {f : Frame} {s : Session}, Kept Sound Ok f₀ s₀ f s →
    (∀ p ∈ properties, Part Ok f₀ s p.2) →
    (f.buildPropertyList setting build position properties).Meets s E (Kept Sound Ok f₀ s₀) := by
  induction properties with
  | nil => exact fun hf _ => meets_pure hf
  | cons p rest ih =>
    intro position f s hf hc
    unfold buildPropertyList
    refine meets_bind (buildProperty_meets hfit hb hf (hc p List.mem_cons_self)) ?_
    rintro f₁ s₁ ⟨hf₁, hgrows⟩
    exact ih hf₁ fun q hq => (hc q (List.mem_cons_of_mem _ hq)).later hfit hgrows

theorem buildProperties_meets (hf : Kept Sound Ok f₀ s₀ f s) :
    (f.buildProperties setting build).Meets s E (Kept Sound Ok f₀ s₀) := by
  unfold buildProperties
  refine meets_bind (buildPropertyList_meets hfit hb hf fun p hp =>
    hf.part hfit (Schema.property_mem_children hp)) fun f₁ s₁ hf₁ => meets_pure ?_
  exact hf₁.same rfl rfl rfl rfl

/-! ## Items -/

theorem buildArray_meets {item : Schema} (hplain : ¬ f₀.Refers) (hf : Kept Sound Ok f₀ s₀ f s)
    (hi : f.schema.items = some (.single item)) :
    (f.buildArray setting build item).Meets s E (Kept Sound Ok f₀ s₀) := by
  unfold buildArray
  have hpart := hf.part hfit (Schema.item_mem_children hi)
  refine meets_bind (type_meets hfit hf.sound hpart.ok) ?_
  rintro t _ ⟨rfl, ht⟩
  split
  · rename_i hneeds
    -- only elements that are no reference have a type without a name
    have hopens : f.schema.Opens := by
      refine ⟨item, hi, ?_⟩
      by_contra hsome
      have hnamed := Resolver.resolve_named (Or.inl (Option.isSome_iff_ne_none.mpr hsome)) ht
      rw [hnamed] at hneeds
      exact absurd hneeds (by simp)
    refine meets_made hfit hb (j := fun m => m) hf hpart.ok (fun _ => ⟨rfl, rfl, rfl⟩)
      (fun _ _ hh => hpart.below hh) fun h s₁ hf₁ hgrows hn => ?_
    have hset := hf₁.setItem hfit hi hn
    have hbelow : Below f₀ (f.mapItem (.referenceTo h.name)).makeVirtual.restart := by
      rcases Nat.lt_or_eq_of_le hf.schema.size_le with hlt | heq
      · exact .smaller (Nat.lt_of_le_of_lt (Schema.shrinks_item hi).size_le hlt)
      · obtain ⟨href, hopen⟩ := hf.schema.same heq hopens.not_inert
        refine .again hplain hset.named hset.schema.size_le href (hopen hopens) ?_
        rintro ⟨item', hitem', hnone⟩
        obtain rfl : Schema.referenceTo h.name = item' := by
          simpa [mapItem, mapSchema, makeVirtual, restart] using hitem'
        exact absurd hnone (by simp [Schema.referenceTo])
    refine meets_bind (hb _ s₁ hbelow hset.sound hset.ok) fun g s₂ hg => meets_pure ?_
    exact (hset.trans ⟨hg.name, hg.named, hg.schema, hg.grows, hg.sound, hg.ok⟩).same rfl rfl rfl rfl
  · refine meets_bind (hb _ _ (hpart.below rfl) hf.sound hpart.ok) fun g s₁ hg => meets_pure ?_
    have hmark : (f.markElements item setting.polymorphism).toPlace = f.toPlace ∧
        (f.markElements item setting.polymorphism).schema = f.schema := by
      unfold markElements
      split <;> exact ⟨rfl, rfl⟩
    exact (hf.later hfit hg).same (congrArg Place.name hmark.1) (congrArg Place.named hmark.1)
      hmark.2 rfl

theorem hoistPlace_meets {index : Nat} (hf : Kept Sound Ok f₀ s₀ f s) (hc : Part Ok f₀ s c) :
    (f.hoistPlace setting build index c).Meets s E fun g s' => Kept Sound Ok f₀ s₀ f s' ∧
      s.registry.Grows s'.registry ∧ Ok s'.registry g.schema ∧ Below f₀ g := by
  unfold hoistPlace
  dsimp only
  split
  · exact meets_pure ⟨hf, .refl _, hc.ok, hc.below rfl⟩
  · refine meets_bind (type_meets hfit hf.sound hc.ok) ?_
    rintro t _ ⟨rfl, -⟩
    split
    · refine meets_made hfit hb (j := fun m => m) hf hc.ok (fun _ => ⟨rfl, rfl, rfl⟩)
        (fun _ _ hh => hc.below hh) fun h s₁ hf₁ hgrows hn => meets_pure ⟨hf₁, hgrows, hn, ?_⟩
      exact below_reference rfl rfl hc.not_inert
    · exact meets_pure ⟨hf, .refl _, hc.ok, hc.below rfl⟩

theorem buildPlaces_meets {places : List Schema} : ∀ {index : Nat} {f : Frame} {s : Session},
    Kept Sound Ok f₀ s₀ f s → (∀ c ∈ places, Part Ok f₀ s c) →
    (f.buildPlaces setting build index places).Meets s E (Kept Sound Ok f₀ s₀) := by
  induction places with
  | nil => exact fun hf _ => meets_pure hf
  | cons c rest ih =>
    intro index f s hf hc
    unfold buildPlaces
    refine meets_bind (hoistPlace_meets hfit hb hf (hc c List.mem_cons_self)) ?_
    rintro place s₁ ⟨hf₁, hgrows, hok, hbelow⟩
    refine meets_bind (hb _ s₁ hbelow hf₁.sound hok) fun g s₂ hg => ?_
    have hf₂ := hf₁.later hfit hg
    refine ih (hf₂.same rfl rfl rfl rfl) fun d hd => ?_
    exact (hc d (List.mem_cons_of_mem _ hd)).later hfit (hgrows.trans hg.grows)

omit hb in
/-- The record of a tuple holds what the tuple holds. -/
theorem tupleRecord_facts {places : List Schema} (hf : Kept Sound Ok f₀ s₀ f s)
    (hp : f.schema.items = some (.tuple places)) :
    Ok s.registry (tupleRecord places f.schema.additionalItems) ∧
      (tupleRecord places f.schema.additionalItems).size ≤ f.schema.size := by
  constructor
  · refine hfit.plain rfl fun d hd => hfit.child hf.ok ?_
    rw [Schema.mem_children_iff] at hd
    rcases hd with ⟨n, hd⟩ | hd | hd | ⟨l, hl, -⟩ | hd | hd
    · obtain ⟨e, he, heq⟩ := List.mem_map.mp hd
      obtain rfl : e.1 = d := (Prod.mk.inj heq).2
      exact Schema.place_mem_children hp (List.fst_mem_of_mem_zipIdx he)
    · exact absurd hd List.not_mem_nil
    · exact absurd hd (by simp [tupleRecord])
    · exact absurd hl (by simp [tupleRecord])
    · exact absurd hd (by simp [tupleRecord])
    · exact Schema.extraItem_mem_children hd
  · -- the places have become properties, and weigh what they weighed
    have hplaces : Schema.propertiesSize (tupleRecord places f.schema.additionalItems).properties =
        Schema.listSize places := by
      have hmap : (tupleRecord places f.schema.additionalItems).properties.map Prod.snd = places := by
        show (places.zipIdx.map _).map Prod.snd = places
        rw [List.map_map]
        exact List.zipIdx_map_fst 0 places
      rw [Schema.propertiesSize_eq, hmap]
    rw [Schema.size_eq_parts, Schema.size_eq_parts f.schema, hp, hplaces]
    simp only [tupleRecord, Schema.listSize, Schema.itemsSize, Schema.extraSize]
    omega

theorem hoistTuple_meets {places : List Schema} (hf : Kept Sound Ok f₀ s₀ f s)
    (hp : f.schema.items = some (.tuple places)) (hnamed : f.named = false) :
    (f.hoistTuple build places).Meets s E (Kept Sound Ok f₀ s₀) := by
  unfold hoistTuple
  dsimp only
  obtain ⟨hok, hsize⟩ := tupleRecord_facts hfit hf hp
  have hinert := hf.not_inert fun hi => by simp [hi.items] at hp
  refine meets_made hfit hb (j := fun m => { m with tuple := true }) hf hok
    (fun _ => ⟨rfl, rfl, rfl⟩) ?_ fun h s₁ hf₁ hgrows hn => ?_
  · intro h hh hs
    refine .made (hf.named ▸ hnamed) hh hinert ?_ (Or.inr ⟨hs ▸ rfl, ?_⟩)
    · rw [hs]
      exact Nat.le_trans hsize hf.schema.size_le
    · rw [hs]
      exact Schema.not_opens_of_items fun _ hitem => by simp [tupleRecord] at hitem
  · have hbelow : Below f₀ (f.referTo h.name).restart := below_reference hnamed rfl hinert
    refine meets_bind (hb _ s₁ hbelow hf₁.sound hn) fun g s₂ hg => meets_pure ?_
    exact ((hf₁.refer hn).trans hg).same rfl rfl rfl rfl

theorem buildItems_meets (hplain : ¬ f₀.Refers) (hf : Kept Sound Ok f₀ s₀ f s) :
    (f.buildItems setting build).Meets s E (Kept Sound Ok f₀ s₀) := by
  unfold buildItems
  split
  · exact meets_pure hf
  · rename_i item hi
    exact buildArray_meets hfit hb hplain hf hi
  · rename_i places hp
    split
    · unfold buildTuple
      refine meets_bind (Q := fun _ s' => s' = s) (meets_resolver rfl) ?_
      rintro r _ rfl
      refine buildPlaces_meets hfit hb (hf.same rfl rfl rfl rfl) fun c hc => ?_
      exact hf.part hfit (Schema.place_mem_children hp hc)
    · rename_i hnamed
      exact hoistTuple_meets hfit hb hf hp (by simpa using hnamed)

theorem buildExtraItems_meets {c? : Option Schema} (hf : Kept Sound Ok f₀ s₀ f s)
    (hc : ∀ c, c? = some c → f.schema.additionalItems = some (.schema c))
    (hhas : f.schema.hasAdditionalItems = true) :
    (f.buildExtraItems setting build c?).Meets s E (Kept Sound Ok f₀ s₀) := by
  have hinert := hf.not_inert fun hi => by simp [hi.extraItems] at hhas
  -- lists among the items change the index of the place only
  have hplace : ∀ (f : Frame) (c : Schema) (array : Bool),
      (f.extraItemsPlace c array).named = false ∧ (f.extraItemsPlace c array).schema = c := by
    intro f c array
    unfold extraItemsPlace
    split <;> exact ⟨rfl, rfl⟩
  unfold buildExtraItems
  refine meets_bind (Q := fun r s' => r = resolverAt setting f s ∧ s = s')
    (meets_resolver ⟨rfl, rfl⟩) ?_
  rintro r _ ⟨rfl, rfl⟩
  refine meets_bind (Q := fun _ s' => s = s') (meets_ofType (fun _ _ => rfl) fun e he => ?_) ?_
  · cases c? with
    | none => exact absurd he (by simp [Resolver.resolveOptional])
    | some c =>
      have hpart := hf.part hfit (Schema.extraItem_mem_children (hc c rfl))
      exact hfit.type (r := resolverAt setting f s) hf.sound hpart.ok he
  rintro t _ rfl
  refine meets_bind (Q := fun (p : Frame × Option Schema × Option Frame) s' =>
    Kept Sound Ok f₀ s₀ p.1 s' ∧ Ok s'.registry (p.2.1.getD {}) ∧
    ∀ g : Frame, g.named = false → g.schema = p.2.1.getD {} → Below f₀ g) ?_ ?_
  · unfold hoistExtraItems
    cases c? with
    | none =>
      -- nothing is said of the items: the empty schema is below any frame that is not inert
      refine meets_pure ⟨hf, hfit.plain rfl fun d hd => absurd hd List.not_mem_nil, ?_⟩
      intro g hg hs
      refine .leaf ?_ (fun hr => by simp [hr.1] at hg) (Or.inl hinert)
      rw [hs]
      exact ⟨rfl, rfl, rfl, rfl⟩
    | some c =>
      have hpart := hf.part hfit (Schema.extraItem_mem_children (hc c rfl))
      dsimp only
      split
      · refine meets_made hfit hb (j := fun m => m) hf hpart.ok (fun _ => ⟨rfl, rfl, rfl⟩)
          (fun _ _ hh => hpart.below hh) fun h s₁ hf₁ hgrows hn => meets_pure ⟨?_, hn, ?_⟩
        · exact hf₁.setExtraItem hfit (hc c rfl) hn
        · exact fun g hg hs => below_reference hg hs hinert
      · exact meets_pure ⟨hf, hpart.ok, fun g _ hs => hpart.below hs⟩
  · rintro ⟨f₁, c₁, made⟩ s₁ ⟨hf₁, hok, hbelow⟩
    obtain ⟨hnamed, hschema⟩ := hplace f₁ (c₁.getD {}) t.array
    refine meets_bind (hb _ s₁ (hbelow _ hnamed hschema) hf₁.sound (by rw [hschema]; exact hok)) ?_
    exact fun g s₂ hg => meets_pure ((hf₁.later hfit hg).same rfl rfl rfl rfl)

theorem buildAdditionalItems_meets (hf : Kept Sound Ok f₀ s₀ f s) :
    (f.buildAdditionalItems setting build).Meets s E (Kept Sound Ok f₀ s₀) := by
  unfold buildAdditionalItems
  split
  · exact meets_pure hf
  · rename_i extra hextra
    have hf₁ : Kept Sound Ok f₀ s₀ (f.allowItems extra) s := hf.same rfl rfl rfl rfl
    split
    · exact meets_pure hf₁
    · rename_i hon
      split
      · exact meets_throw (hfit.mixedItems _)
      · refine buildExtraItems_meets hfit hb hf₁ (fun c hc => ?_) ?_
        · match extra with
          | .flag allowed => simp [Extra.schema?] at hc
          | .schema d =>
            obtain rfl : d = c := by simpa [Extra.schema?] using hc
            exact hextra
        · show f.schema.hasAdditionalItems = true
          rw [Schema.hasAdditionalItems, hextra, Option.any_some]
          simpa using hon

/-! ## Schemas -/

/-- **A step of building keeps to its frame**, if what it builds below does. -/
theorem buildStep_meets (hs : Sound s.registry) (hok : Ok s.registry f₀.schema) :
    (f₀.buildStep setting build).Meets s E (Kept Sound Ok f₀ s) := by
  have hf₀ : Kept Sound Ok f₀ s f₀ s := ⟨rfl, rfl, .refl _, .refl _, hs, hok⟩
  unfold buildStep
  refine meets_bind (populate_meets hfit f₀) ?_
  rintro f s₁ ⟨hplace, hschema, hs₁⟩
  have hf : Kept Sound Ok f₀ s (f.dependOn f.schema.referenceName.toList) s₁ :=
    hf₀.same (congrArg Place.name hplace) (congrArg Place.named hplace) hschema hs₁
  have hrefers : (f.named && f.schema.reference.isSome) = true ↔ f₀.Refers := by
    rw [Bool.and_eq_true, hschema, congrArg Place.named hplace]
    rfl
  dsimp only
  split
  · rename_i hyes
    exact buildReference_meets hfit hb hf (hrefers.mp hyes) hschema
  · rename_i hno
    have hplain : ¬ f₀.Refers := fun hr => hno (hrefers.mpr hr)
    refine meets_bind (liftBranch_meets hfit hf) fun f₁ s₂ hf₁ => ?_
    -- from here on each step is given what the one before it kept
    have hfill : Kept Sound Ok f₀ s f₁.fillContainer s₂ := by
      unfold fillContainer
      split <;> exact hf₁.same rfl rfl rfl rfl
    refine meets_bind (buildAllOf_meets hfit hb hfill) fun f₂ s₃ hf₂ => ?_
    refine meets_bind (type_meets hfit hf₂.sound hf₂.ok) ?_
    rintro t _ ⟨rfl, -⟩
    refine meets_bind (buildAdditionalProperties_meets hfit hb
      (hf₂.same rfl rfl rfl rfl)) fun f₃ s₄ hf₃ => ?_
    have hpoint : Kept Sound Ok f₀ s f₃.pointMap s₄ :=
      hf₃.same (congrArg Place.name pointMap_toPlace) (congrArg Place.named pointMap_toPlace)
        pointMap_schema rfl
    refine meets_bind (type_meets hfit hpoint.sound hpoint.ok) ?_
    rintro t' _ ⟨rfl, -⟩
    refine meets_bind (buildProperties_meets hfit hb
      (hpoint.same rfl rfl rfl rfl)) fun f₄ s₅ hf₄ => ?_
    refine meets_bind (buildAdditionalItems_meets hfit hb hf₄) fun f₅ s₆ hf₅ => ?_
    exact buildItems_meets hfit hb hplain hf₅

end Steps

/--
**Building keeps to its frame**, at a depth that is more than the rank. If the depth may be used up,
any depth will do.
-/
theorem buildIn_meets (hfit : Fits setting Sound Ok E) {depth : Nat} : ∀ {f : Frame} {s : Session},
    (E .endless ∨ (f.rank < depth ∧ ∀ r c, Ok r c → c.Lone)) → Sound s.registry →
    Ok s.registry f.schema → (buildIn setting depth f).Meets s E (Kept Sound Ok f s) := by
  induction depth with
  | zero =>
    rintro f s (hend | ⟨hrank, -⟩) hs hc
    · exact meets_throw hend
    · exact absurd hrank (Nat.not_lt_zero _)
  | succ depth ih =>
    intro f s hdepth hs hc
    refine buildStep_meets hfit (fun g s hg hs hcg => ih ?_ hs hcg) hs hc
    refine hdepth.imp_right fun ⟨hrank, hlone⟩ => ⟨?_, hlone⟩
    have hlt := rank_lt_of_below hg (hlone _ _ hcg)
    omega

end KclModels.Frame
