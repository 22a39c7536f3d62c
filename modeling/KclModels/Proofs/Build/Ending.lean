import KclModels.Proofs.Build.Keeping
import KclModels.Proofs.Registry.Grounded
import KclModels.Text.AsciiTable

/-!
# Building ends

A step of building only builds frames that are `Below` its own, whatever the schema. The rank goes
down along them if every reference in the schema is `Lone`, so then the depth that building allows
itself, which goes by the size of the schema alone, is never used up.

A reference to an object that has a schema for further values beside it is not a lone one, and
nothing is built of it at any depth: it is an object with both kinds of properties, so it becomes a
definition; that is a reference, so its schema is built once more as a branch; the branch has no
name, and becomes a definition again.
-/

namespace KclModels

namespace Frame

open Build

variable {setting : Setting} {build : Frame → Build Frame} {f : Frame} {s : Session}

section

variable {tr : Text.Transliteration}

/-- Nothing is asked of schemas to say which frames are built. -/
theorem fits_any (setting : Setting) :
    Fits setting (fun _ => True) (fun _ _ => True) (· ≠ .endless) where
  child _ _ := trivial
  grows _ _ := trivial
  plain _ _ := trivial
  rewrite _ _ _ _ := trivial
  hoist _ _ _ _ := ⟨trivial, trivial⟩
  type _ _ _ := by simp
  shape _ _ _ := by simp
  follow _ _ _ _ := by simp
  target _ _ _ _ _ := by simp
  mixedItems _ := by simp
  complexEnumValue _ := by simp

/-- The parts of a schema without extended references are such schemas. -/
theorem fits_unextended (setting : Setting) :
    Fits setting (fun _ => True) (fun _ c => c.Unextended) (· ≠ .endless) where
  child hc hd := Schema.Everywhere.child hc hd
  grows hc _ := hc
  plain href hc := by
    refine Schema.everywhere_of_children (fun hsome => ?_) hc
    rw [href] at hsome
    exact absurd hsome (by simp)
  -- a schema that takes the place of another one has a schema for values only if that one has
  rewrite hc href hvalue hchildren := by
    refine Schema.everywhere_of_children (fun hsome v hv => ?_) fun e he => ?_
    · obtain ⟨w, hw⟩ := hvalue v hv
      exact Schema.Everywhere.here hc (href ▸ hsome) w hw
    · exact (hchildren e he).elim (Schema.Everywhere.child hc) id
  hoist f base _ _ := by
    refine ⟨trivial, Schema.everywhere_of_children (fun _ v hv => ?_) fun d hd => ?_⟩
    · exact absurd hv (by simp [Schema.referenceTo])
    · exact absurd hd (by rw [Schema.children_referenceTo]; exact List.not_mem_nil)
  type _ _ _ := by simp
  shape _ _ _ := by simp
  follow _ _ _ _ := by simp
  target _ _ _ _ _ := by simp
  mixedItems _ := by simp
  complexEnumValue _ := by simp

/-- The step does not use up the depth, and leaves a frame whose schema is no larger. -/
abbrev EndsAt (build : Frame → Build Frame) (f : Frame) (s : Session) : Prop :=
  (build f).Meets s (· ≠ .endless) (Kept (fun _ => True) (fun _ _ => True) f s)

/-- **A step builds only frames below its own**: of other frames building may do anything. -/
theorem buildStep_ends (hb : ∀ g s, Below f g → EndsAt build g s) :
    EndsAt (buildStep setting build) f s :=
  buildStep_meets (fits_any setting) (fun g s hg _ _ => hb g s hg) trivial trivial

/--
**Building ends**: if no reference in a schema has a schema for further values beside it, a depth
that goes by the size of the schema alone is never used up, whatever the definitions are. Each step
builds only frames below its own, and along these the rank, which the depth bounds, goes down.
-/
theorem buildIn_ends (setting : Setting) (f : Frame) (s : Session) (depth : Nat)
    (hc : f.schema.Unextended) (hdepth : depthBound f.schema ≤ depth) :
    (∀ s', ((buildIn setting depth f).run s).run ≠ (.error .endless, s')) ∧
    (∀ build, (∀ g t, Below f g → EndsAt build g t) → EndsAt (buildStep setting build) f s) ∧
    ∀ g, Below f g → g.schema.Lone → g.rank < f.rank := by
  refine ⟨fun s' hrun => ?_, fun build hb => buildStep_ends hb, fun g => rank_lt_of_below⟩
  have hrank := f.rank_lt_depthBound
  exact (buildIn_meets (fits_unextended setting) (Or.inr ⟨Nat.lt_of_lt_of_le hrank hdepth,
    fun _ _ => Schema.Everywhere.here⟩) trivial hc).2 .endless s' hrun rfl

end

/-- An object with a text. -/
def labelSchema : Schema := { types := ["object"], properties := [("text", .typed "string")] }

/-- A schema with a reference that stands alone is built within the depth that goes by its size. -/
theorem labelled_ends :
    Schema.Unextended { properties := [("label", .referenceTo "Label")] } ∧
    depthBound { properties := [("label", .referenceTo "Label")] } ≤ 16 ∧
    ∀ s', ((buildIn {} 16 { schema := { properties := [("label", .referenceTo "Label")] } }).run
      { registry := .ofDefinitions [("Label", labelSchema)] }).run ≠ (.error .endless, s') := by
  have hc : Schema.Unextended { properties := [("label", .referenceTo "Label")] } := by
    refine Schema.everywhere_of_children (fun hsome => absurd hsome (by simp)) fun c hmem => ?_
    obtain rfl : c = .referenceTo "Label" := by simpa [Schema.children, Schema.itemSchemas] using hmem
    refine Schema.everywhere_of_children (fun _ v hv => ?_) fun d hd => absurd hd List.not_mem_nil
    exact absurd hv (by simp [Schema.referenceTo])
  have hdepth : depthBound { properties := [("label", .referenceTo "Label")] } ≤ 16 := by
    decide +kernel
  exact ⟨hc, hdepth, (buildIn_ends {} _ _ 16 hc hdepth).1⟩

/-! ## A reference with a schema for further values -/

/-- A reference to that object with a schema for further values beside it. -/
def extendedLabel : Schema :=
  { Schema.referenceTo "Label" with additionalProperties := some (.schema (.typed "string")) }

variable {r : Registry}

theorem name?_label : Reference.name? (Reference.toDefinition "Label") = some "Label" := by
  decide +kernel

theorem resolve_label (h : r.get? "Label" = some labelSchema) :
    r.resolve (Reference.toDefinition "Label") = .ok labelSchema :=
  Registry.resolve_of_leads (.stop name?_label h rfl)

section

variable {tr : Text.Transliteration}

theorem resolve_extendedLabel (r : Resolver) (h : r.registry.get? "Label" = some labelSchema)
    (a q : Bool) : ∃ t, r.resolve extendedLabel a q = .ok t ∧ t.complex = true := by
  unfold Resolver.resolve extendedLabel
  rw [Resolver.resolveWith]
  cases hn : r.registry.definitions with
  | nil =>
    unfold Registry.get? at h
    rw [hn] at h
    exact absurd h (by simp)
  | cons d rest =>
    obtain ⟨t, ht, hcomplex⟩ : ∃ t, Resolver.resolveWith r (r.derefIn rest.length
        [Reference.toDefinition "Label"]) false q labelSchema = .ok t ∧ t.complex = true :=
      ⟨_, rfl, rfl⟩
    rw [List.length_cons]
    simp only [Schema.referenceTo, Resolver.derefIn, List.contains_nil, Bool.false_eq_true,
      if_false, Resolver.enter, Resolver.knownAs, Registry.lookup_of_name? name?_label h, resolve_label h,
      Except.mapError, bind, Except.bind]
    rw [ht]
    refine ⟨_, rfl, ?_⟩
    -- anonymous or not, a reference to a record is complex
    unfold Resolver.ofTarget
    cases a
    · rfl
    · exact hcomplex

theorem shape_extendedLabel (h : r.get? "Label" = some labelSchema) :
    Shape.ofSchema r extendedLabel = .ok { simple := false } := by
  have hbehind : Shape.behind r extendedLabel = .ok labelSchema := by
    unfold Shape.behind extendedLabel
    exact resolve_label h
  unfold Shape.ofSchema
  rw [Shape.ofSchemaIn, hbehind]
  show Except.ok (Shape.ofParts labelSchema true true) = _
  decide +kernel

theorem populate_extendedLabel (hf : f.schema = extendedLabel) :
    (f.populate setting).Meets s (· = .endless) fun g t =>
      g.toPlace = f.toPlace ∧ g.schema = extendedLabel ∧ t = s := by
  have hc : f.constraints = pure (Constraints.ofSchema extendedLabel) := by
    unfold constraints
    rw [hf]
    rfl
  unfold populate
  rw [hc]
  exact meets_bind (Q := fun _ t => t = s) (meets_pure rfl) fun c t ht =>
    meets_pure ⟨rfl, hf, ht⟩

/-- Nothing is built of any frame that holds the reference. -/
def Endless (build : Frame → Build Frame) : Prop :=
  ∀ (f : Frame) (s : Session), f.schema = extendedLabel →
    s.registry.get? "Label" = some labelSchema → (build f).Meets s (· = .endless) fun _ _ => False

theorem Endless.bind (hb : Endless build) {k : Frame → Build Frame}
    (hf : f.schema = extendedLabel) (hs : s.registry.get? "Label" = some labelSchema) :
    (build f >>= k).Meets s (· = .endless) fun _ _ => False :=
  meets_bind (hb f s hf hs) fun _ _ hfalse => hfalse.elim

/-- A definition that is the reference is built as a branch. -/
theorem buildReference_endless (hb : Endless build) (hf : f.schema = extendedLabel)
    (hs : s.registry.get? "Label" = some labelSchema) :
    (f.buildReference setting build).Meets s (· = .endless) fun _ _ => False := by
  unfold buildReference
  refine meets_bind (Q := fun r t => r = s.registry ∧ t = s) (meets_registry ⟨rfl, rfl⟩) ?_
  rintro r t ⟨rfl, rfl⟩
  rw [hf, shape_extendedLabel hs]
  refine meets_bind (Q := fun shape s => shape = {} ∧ s = t)
    (meets_ofReference (fun _ h => ⟨(Except.ok.inj h).symm, rfl⟩) fun _ h => by simp at h) ?_
  rintro shape s ⟨rfl, rfl⟩
  rw [if_neg (by decide)]
  refine meets_bind (Q := fun _ t => t = s) (meets_resolver rfl) ?_
  rintro _ t rfl
  exact hb.bind rfl hs

/-- Without a name the reference becomes a definition. -/
theorem buildAdditionalProperties_endless (hb : Endless build) (hf : f.schema = extendedLabel)
    (hnamed : f.named = false) (hcomplex : f.model.type.complex = true)
    (hs : s.registry.get? "Label" = some labelSchema) :
    (f.buildAdditionalProperties setting build).Meets s (· = .endless) fun _ _ => False := by
  have hvalue : f.schema.additionalProperties = some (.schema (.typed "string")) := by
    rw [hf]
    rfl
  have hmark : ((f.deny (.schema (.typed "string"))).markExtra true).named = false := hnamed
  have hdeny : (f.deny (.schema (.typed "string"))).model.type.complex = true := hcomplex
  unfold buildAdditionalProperties
  rw [hvalue]
  dsimp only
  rw [hdeny, hmark, if_neg (by decide), if_neg (by decide), if_pos (by decide)]
  unfold hoistExtended
  refine meets_bind (Q := fun g t => g.schema = extendedLabel ∧
    t.registry.get? "Label" = some labelSchema) (meets_hoist ⟨hf, ?_⟩) fun g t ht => hb.bind ht.1 ht.2
  exact (Registry.hoist_grows _ _ _).keeps _ _ hs

/-- A place without a name with the reference. -/
theorem buildStep_endless (hb : Endless build) : Endless (buildStep setting build) := by
  intro f s hf hs
  unfold buildStep
  refine meets_bind (populate_extendedLabel hf) ?_
  rintro g t ⟨-, hg, rfl⟩
  dsimp only
  split
  · exact buildReference_endless hb hg hs
  · rename_i hno
    generalize hstart : g.dependOn g.schema.referenceName.toList = f₁ at hno
    have hf₁ : f₁.schema = extendedLabel := by rw [← hstart]; exact hg
    have hnamed : f₁.named = false := by
      rw [hf₁, Bool.and_eq_true, not_and] at hno
      by_contra htrue
      exact hno (by simpa using htrue) rfl
    -- there are no branches, to lift or to build
    refine meets_bind (Q := fun f₂ t' => f₂ = f₁ ∧ t' = t) ?_ ?_
    · unfold liftBranch
      rw [hf₁]
      exact meets_pure ⟨rfl, rfl⟩
    rintro f₂ t' ⟨rfl, rfl⟩
    have hfill : f₂.fillContainer.schema = extendedLabel ∧ f₂.fillContainer.named = false := by
      unfold fillContainer
      split <;> exact ⟨hf₁, hnamed⟩
    generalize f₂.fillContainer = f₃ at hfill
    obtain ⟨hf₃, hnamed₃⟩ := hfill
    refine meets_bind (Q := fun f₄ t => f₄ = f₃ ∧ t = t') ?_ ?_
    · unfold buildAllOf
      rw [hf₃]
      exact meets_pure ⟨rfl, rfl⟩
    rintro f₄ t ⟨rfl, rfl⟩
    refine meets_bind (Q := fun u t' => u.complex = true ∧ t' = t) ?_ ?_
    · rw [hf₃]
      obtain ⟨u, hu, hcomplex⟩ := resolve_extendedLabel (resolverAt setting f₄ t) hs (!f₄.named)
        (f₄.tuple || f₄.required || f₄.model.required)
      refine meets_resolve (fun v hv => ⟨?_, rfl⟩) fun e he => ?_
      · obtain rfl := Except.ok.inj (hu.symm.trans hv)
        exact hcomplex
      · rw [hu] at he
        exact absurd he (by simp)
    rintro u t' ⟨hcomplex, rfl⟩
    exact meets_bind (buildAdditionalProperties_endless hb hf₃ hnamed₃ hcomplex hs)
      fun _ _ hfalse => hfalse.elim

/-- **Of a reference with a schema for further values nothing is built**, at any depth. -/
theorem buildIn_endless [Text.Transliteration] (setting : Setting) (depth : Nat) :
    Endless (buildIn setting depth) := by
  induction depth with
  | zero => exact fun f s _ _ => meets_throw rfl
  | succ depth ih => exact buildStep_endless ih

end

/-- So not every schema is built at some depth, however small it is. -/
theorem exists_endless : ∃ (setting : Setting) (f : Frame) (s : Session), ∀ depth, ∃ s',
    ((buildIn setting depth f).run s).run = (.error .endless, s') := by
  refine ⟨{}, { schema := extendedLabel },
    { registry := .ofDefinitions [("Label", labelSchema)] }, fun depth => ?_⟩
  have hmeets := buildIn_endless {} depth { schema := extendedLabel }
    { registry := .ofDefinitions [("Label", labelSchema)] } rfl rfl
  rcases hrun : ((buildIn {} depth { schema := extendedLabel }).run
    { registry := .ofDefinitions [("Label", labelSchema)] }).run with ⟨result, s'⟩
  cases result with
  | ok g => exact (hmeets.1 g s' hrun).elim
  | error e => exact ⟨s', by rw [hmeets.2 e s' hrun]⟩

end Frame

end KclModels
