import KclModels.Proofs.Build.Outcome
import KclModels.Proofs.Registry.Agreement

/-!
# Building in sessions that agree

A step is steady if it ends alike in sessions that agree: with the same result and sessions that
agree again, or with the same error. Steps ask the registry and nothing else, so each is steady if
the steps below it are, and with them the building of a whole file.
-/

namespace KclModels

variable {tr : Text.Transliteration}

/-- The registries agree, and the same was warned of. -/
structure Session.Agrees (s s' : Session) : Prop where
  registry : s.registry.Agrees s'.registry
  warnings : s.warnings = s'.warnings

namespace Build

variable {α β : Type}

/-- In sessions that agree the step ends with the same result, and the sessions agree again. -/
def Steady (m : Build α) : Prop :=
  ∀ s s', s.Agrees s' → m.Pairs s m s' Eq fun a t b t' => a = b ∧ t.Agrees t'

theorem steady_pure (a : α) : Steady (pure a) := fun _ _ h => pairs_pure ⟨rfl, h⟩

theorem steady_throw (e : GenerationError) : Steady (throw e : Build α) :=
  fun _ _ _ => pairs_throw rfl

theorem steady_bind {m : Build α} {k : α → Build β} (hm : Steady m) (hk : ∀ a, Steady (k a)) :
    Steady (m >>= k) := by
  intro s s' h
  refine (hm s s' h).bind ?_
  rintro a t _ t' ⟨rfl, ht⟩
  exact hk a t t' ht

/-- A step that goes on from the registry is steady if registries that agree make it go on alike. -/
theorem steady_registry {k : Registry → Build α} (hk : ∀ r, Steady (k r))
    (hagree : ∀ r r', r.Agrees r' → k r = k r') : Steady (registry >>= k) := by
  intro s s' h
  refine Pairs.bind (Q := fun r t r' t' => r.Agrees r' ∧ t.Agrees t')
    (pairs_registry ⟨h.registry, h⟩) ?_
  rintro r t r' t' ⟨hr, ht⟩
  rw [← hagree r r' hr]
  exact hk r t t' ht

theorem steady_resolver {setting : Setting} {f : Frame} {k : Resolver → Build α}
    (hk : ∀ r, Steady (k r)) (hagree : ∀ r r', r.Agrees r' → k r = k r') :
    Steady (resolver setting f >>= k) := by
  intro s s' h
  refine Pairs.bind (Q := fun r t r' t' => r.Agrees r' ∧ t.Agrees t')
    (pairs_resolver ⟨⟨h.registry, rfl, rfl, rfl⟩, h⟩) ?_
  rintro r t r' t' ⟨hr, ht⟩
  rw [← hagree r r' hr]
  exact hk r t t' ht

theorem steady_ofType (r : Except TypeError α) : Steady (ofType r) := by
  cases r with
  | error e => exact steady_throw _
  | ok a => exact steady_pure a

theorem steady_ofReference (r : Except ReferenceError α) : Steady (ofReference r) := by
  cases r with
  | error e => exact steady_throw _
  | ok a => exact steady_pure a

theorem steady_warnAll (ws : List Warning) : Steady (warnAll ws) := fun _ _ h =>
  pairs_warnAll ⟨rfl, h.registry, congrArg (· ++ ws) h.warnings⟩

theorem steady_resolve {setting : Setting} {f : Frame} {s : Schema} {anonymous required : Bool} :
    Steady (resolve setting f s anonymous required) :=
  steady_resolver (fun _ => steady_ofType _) fun _ _ h => congrArg ofType (h.resolve ..)

theorem steady_shape (s : Schema) {k : Shape → Build α} (hk : ∀ shape, Steady (k shape)) :
    Steady (do
      let shape ← ofReference (Shape.ofSchema (← registry) s)
      k shape) :=
  steady_registry (fun _ => steady_bind (steady_ofReference _) hk) fun _ _ h => by
    rw [Shape.ofSchema_agrees h]

/-- **Sessions that agree give a definition the same name.** -/
theorem steady_hoist {f : Frame} {base : String} {c : Schema} : Steady (hoist f base c) := by
  intro s s' h
  obtain ⟨hname, hr⟩ := h.registry.hoist (hoistBase f base) c
  exact pairs_hoist ⟨congrArg (f.hoisted · c) hname, hr, h.warnings⟩

end Build

namespace Frame

open Build

theorem steady_constraints (f : Frame) : Steady f.constraints := by
  unfold constraints
  dsimp only
  split
  · exact steady_pure _
  · split
    · exact steady_throw _
    · split
      · exact steady_bind (steady_warnAll _) fun _ => steady_pure _
      · exact steady_pure _

variable {setting : Setting} {build : Frame → Build Frame}

theorem steady_populate (f : Frame) : Steady (f.populate setting) :=
  steady_bind (steady_constraints f) fun _ => steady_pure _

theorem steady_liftBranch (f : Frame) : Steady (f.liftBranch setting) := by
  unfold liftBranch
  split
  · exact steady_pure f
  · split
    · exact steady_pure f
    · refine steady_bind steady_resolve fun t => ?_
      split <;> exact steady_pure _

section Steps

variable (hbuild : ∀ g, Steady (build g))

include hbuild

theorem steady_buildReference (f : Frame) : Steady (f.buildReference setting build) := by
  refine steady_shape f.schema fun shape => ?_
  split
  · exact steady_bind steady_resolve fun target =>
      steady_bind (hbuild _) fun _ => steady_pure _
  · exact steady_resolver (fun _ => steady_bind (hbuild _) fun _ => steady_pure _)
      fun _ _ h => by rw [h.modelTypeName]

theorem steady_buildBranch (f : Frame) (index : Nat) (branch : Schema) :
    Steady (f.buildBranch setting build index branch) := by
  refine steady_bind steady_resolve fun t => ?_
  split
  · exact steady_bind steady_hoist fun _ => steady_bind (hbuild _) fun _ =>
      steady_bind (hbuild _) fun _ => steady_pure _
  · exact steady_bind (hbuild _) fun _ => steady_pure _

theorem steady_buildBranches (branches : List Schema) :
    ∀ (f : Frame) (index : Nat), Steady (f.buildBranches setting build index branches) := by
  induction branches with
  | nil => exact fun f _ => steady_pure (f, [])
  | cons branch rest ih =>
    exact fun f index => steady_bind (steady_buildBranch hbuild f index branch) fun _ =>
      steady_bind (ih _ _) fun _ => steady_pure _

theorem steady_buildAllOf (f : Frame) : Steady (f.buildAllOf setting build) := by
  unfold buildAllOf
  split
  · exact steady_pure f
  · refine steady_bind (steady_buildBranches hbuild _ f 0) fun _ => ?_
    dsimp only
    split
    · exact steady_bind (steady_warnAll _) fun _ => steady_pure _
    · exact steady_pure _

theorem steady_buildMapLeaf (parent level : Frame) (t : TypeInfo) :
    Steady (buildMapLeaf build parent level t) := by
  unfold buildMapLeaf
  have hrest : ∀ level : Frame, Steady (do
      let shape ← ofReference (Shape.ofSchema (← registry) level.schema)
      build (level.require (valueRequired shape))) :=
    fun level => steady_shape level.schema fun _ => hbuild _
  split
  · exact steady_bind steady_hoist fun _ => steady_bind (hbuild _) fun _ =>
      steady_bind (steady_pure _) hrest
  · exact steady_bind (steady_pure level) hrest

omit hbuild in
theorem steady_joinMapLevel (level child : Frame) : Steady (level.joinMapLevel setting child) :=
  steady_bind (steady_populate _) fun _ => steady_bind steady_resolve fun _ => steady_pure _

theorem steady_buildMapLevel (value : Schema) :
    ∀ parent : Frame, Steady (parent.buildMapLevel setting build value) := by
  induction value using Schema.children_induction with
  | step value ih =>
    intro parent
    obtain ⟨keywords, properties, allOf, items, extra, extraItems⟩ := value
    unfold buildMapLevel
    refine steady_bind steady_resolve fun t => ?_
    split
    · split
      · exact steady_bind (ih _ (Schema.value_mem_children rfl) _) fun _ =>
          steady_joinMapLevel _ _
      · exact steady_buildMapLeaf hbuild _ _ t
    · exact steady_buildMapLeaf hbuild _ _ t

theorem steady_buildMap (f : Frame) (value : Schema) : Steady (f.buildMap setting build value) :=
  steady_bind (steady_buildMapLevel hbuild value f) fun _ => steady_pure _

theorem steady_hoistExtended (f : Frame) : Steady (f.hoistExtended build) :=
  steady_bind steady_hoist fun _ => steady_bind (hbuild _) fun _ =>
    steady_bind (hbuild _) fun _ => steady_pure _

theorem steady_buildExtraValues (f : Frame) (value : Schema) :
    Steady (f.buildExtraValues setting build value) := by
  unfold buildExtraValues hoistExtraValue
  refine steady_bind steady_resolve fun t => steady_bind ?_ fun _ =>
    steady_shape _ fun _ => steady_bind (hbuild _) fun _ => steady_pure _
  split
  · exact steady_bind steady_hoist fun _ => steady_bind (hbuild _) fun _ => steady_pure _
  · exact steady_pure _

theorem steady_buildAdditionalProperties (f : Frame) :
    Steady (f.buildAdditionalProperties setting build) := by
  unfold buildAdditionalProperties
  split
  · exact steady_pure f
  · dsimp only
    split
    · exact steady_pure _
    · split
      · exact steady_bind (hbuild _) fun _ => steady_pure _
      · split
        · exact steady_buildMap hbuild _ _
        · split
          · exact steady_hoistExtended hbuild _
          · exact steady_buildExtraValues hbuild _ _

omit hbuild in
theorem steady_decorate (f : Frame) (reference : String) : Steady (f.decorate setting reference) := by
  unfold decorate
  refine steady_registry (fun r => ?_) fun r r' h => ?_
  · refine steady_bind (steady_ofReference _) fun target => steady_bind (steady_ofType _) fun _ => ?_
    split
    · dsimp only
      split
      · exact steady_throw _
      · exact steady_pure _
    · exact steady_pure _
  · have hresolver : Resolver.Agrees
        { registry := r, options := setting.options
          modelName := (Reference.name? reference).getD "", path := (f.markRole setting reference).path }
        { registry := r', options := setting.options
          modelName := (Reference.name? reference).getD "", path := (f.markRole setting reference).path } :=
      ⟨h, rfl, rfl, rfl⟩
    simp only [h.resolve, hresolver.resolve]

theorem steady_buildProperty (f : Frame) (position : Nat) (name : String) (s : Schema) :
    Steady (f.buildProperty setting build position name s) := by
  unfold buildProperty hoistProperty
  refine steady_bind steady_resolve fun t => steady_bind ?_ fun _ =>
    steady_bind (hbuild _) fun property => ?_
  · split
    · exact steady_bind steady_hoist fun _ => steady_bind (hbuild _) fun _ => steady_pure _
    · exact steady_pure _
  · split
    · exact steady_bind (steady_decorate _ _) fun _ => steady_pure _
    · exact steady_pure _

theorem steady_buildProperties (f : Frame) : Steady (f.buildProperties setting build) := by
  have hlist : ∀ (properties : List (String × Schema)) (f : Frame) (position : Nat),
      Steady (f.buildPropertyList setting build position properties) := by
    intro properties
    induction properties with
    | nil => exact fun f _ => steady_pure f
    | cons p rest ih =>
      exact fun f position => steady_bind (steady_buildProperty hbuild f position p.1 p.2) fun _ =>
        ih _ _
  exact steady_bind (hlist _ f 0) fun _ => steady_pure _

theorem steady_buildArray (f : Frame) (item : Schema) : Steady (f.buildArray setting build item) := by
  refine steady_bind steady_resolve fun t => ?_
  split
  · exact steady_bind steady_hoist fun _ => steady_bind (hbuild _) fun _ =>
      steady_bind (hbuild _) fun _ => steady_pure _
  · exact steady_bind (hbuild _) fun _ => steady_pure _

theorem steady_hoistPlace (f : Frame) (index : Nat) (s : Schema) :
    Steady (f.hoistPlace setting build index s) := by
  unfold hoistPlace
  dsimp only
  split
  · exact steady_pure _
  · refine steady_bind steady_resolve fun t => ?_
    split
    · exact steady_bind steady_hoist fun _ => steady_bind (hbuild _) fun _ => steady_pure _
    · exact steady_pure _

theorem steady_buildPlaces (places : List Schema) :
    ∀ (f : Frame) (index : Nat), Steady (f.buildPlaces setting build index places) := by
  induction places with
  | nil => exact fun f _ => steady_pure f
  | cons s rest ih =>
    exact fun f index => steady_bind (steady_hoistPlace hbuild f index s) fun _ =>
      steady_bind (hbuild _) fun _ => ih _ _

theorem steady_buildItems (f : Frame) : Steady (f.buildItems setting build) := by
  unfold buildItems
  split
  · exact steady_pure f
  · exact steady_buildArray hbuild f _
  · split
    · exact steady_resolver (fun _ => steady_buildPlaces hbuild _ _ 0) fun _ _ h => by
        rw [h.modelTypeName]
    · exact steady_bind steady_hoist fun _ => steady_bind (hbuild _) fun _ =>
        steady_bind (hbuild _) fun _ => steady_pure _

theorem steady_buildExtraItems (f : Frame) (s : Option Schema) :
    Steady (f.buildExtraItems setting build s) := by
  unfold buildExtraItems hoistExtraItems
  refine steady_resolver (fun r => steady_bind (steady_ofType _) fun t => steady_bind ?_ fun _ =>
    steady_bind (hbuild _) fun _ => steady_pure _) fun r r' h => by rw [h.resolveOptional]
  split
  · split
    · exact steady_bind steady_hoist fun _ => steady_bind (hbuild _) fun _ => steady_pure _
    · exact steady_pure _
  · exact steady_pure _

theorem steady_buildAdditionalItems (f : Frame) :
    Steady (f.buildAdditionalItems setting build) := by
  unfold buildAdditionalItems
  split
  · exact steady_pure f
  · split
    · exact steady_pure _
    · split
      · exact steady_throw _
      · exact steady_buildExtraItems hbuild _ _

/-- **A frame is built alike** if the frames below it are. -/
theorem steady_buildStep (f : Frame) : Steady (f.buildStep setting build) := by
  refine steady_bind (steady_populate f) fun f => ?_
  dsimp only
  split
  · exact steady_buildReference hbuild _
  · exact steady_bind (steady_liftBranch _) fun f => steady_bind (steady_buildAllOf hbuild _) fun f =>
      steady_bind steady_resolve fun t =>
      steady_bind (steady_buildAdditionalProperties hbuild _) fun f =>
      steady_bind steady_resolve fun t => steady_bind (steady_buildProperties hbuild _) fun f =>
      steady_bind (steady_buildAdditionalItems hbuild f) fun f => steady_buildItems hbuild f

end Steps

end Frame

namespace Build

variable {setting : Setting}

theorem steady_buildIn (depth : Nat) : ∀ f : Frame, Steady (buildIn setting depth f) := by
  induction depth with
  | zero => exact fun _ => steady_throw _
  | succ depth ih => exact fun f => Frame.steady_buildStep ih f

theorem steady_definition {name : String} {s : Schema} {container : String} :
    Steady (definition setting name s container) :=
  steady_buildIn _ _

theorem steady_baseOfBranch (branch : Schema) : Steady (baseOfBranch branch) := by
  unfold baseOfBranch
  split
  · exact steady_pure _
  · refine steady_registry (fun r => steady_bind (steady_ofReference _) fun target => ?_)
      fun r r' h => by rw [h.resolve]
    split <;> exact steady_pure _

theorem steady_expandBranches (container : String) (branches : List Schema) :
    ∀ (index : Nat) (allOf : List Model),
      Steady (expandBranches setting container index allOf branches) := by
  induction branches with
  | nil => exact fun _ allOf => steady_pure (allOf, [])
  | cons branch rest ih =>
    intro index allOf
    refine steady_bind (steady_baseOfBranch branch) fun base => ?_
    split
    · exact ih _ _
    · exact steady_bind steady_definition fun _ => steady_bind (ih _ _) fun _ => steady_pure _

theorem steady_expandSubtype {m : Model} {s : Schema} {subtype : Subtype} :
    Steady (expandSubtype setting m s subtype) :=
  steady_bind (steady_expandBranches _ _ 0 m.allOf) fun _ => steady_pure _

theorem steady_inlineBranches (parent : Option Nat) (branches : List Model) :
    ∀ (f : Frame) (index : Nat), Steady (inlineBranches setting parent f index branches) := by
  induction branches with
  | nil => exact fun f _ => steady_pure f
  | cons branch rest ih =>
    intro f index
    unfold inlineBranches
    dsimp only
    generalize (if needsInlining parent index branch then branch.reference else none) = named
    cases named with
    | none => exact ih _ _
    | some name =>
      exact steady_registry (fun r => steady_bind (steady_ofReference _) fun target =>
        steady_bind steady_definition fun _ => ih _ _) fun r r' h => by rw [h.resolve]

theorem steady_fileFrame (name : String) : Steady (fileFrame setting name) := by
  refine steady_registry (fun r => ?_) fun r r' h => by rw [h.get?]
  split
  · exact steady_throw _
  · refine steady_bind steady_definition fun f => ?_
    dsimp only
    split
    · exact steady_bind steady_expandSubtype fun _ => steady_bind (steady_pure _) fun _ =>
        steady_inlineBranches _ _ _ 0
    · exact steady_bind (steady_pure _) fun _ => steady_inlineBranches _ _ _ 0

theorem assemble_agrees {r r' : Registry} (h : r.Agrees r') (name : String) (f : Frame) :
    assemble setting name r f = assemble setting name r' f := by
  have hresolver : Resolver.Agrees
      { registry := r, options := setting.options, modelName := name, path := name }
      { registry := r', options := setting.options, modelName := name, path := name } :=
    ⟨h, rfl, rfl, rfl⟩
  simp only [assemble, declare, hresolver.modelTypeName, h.hoisted]

/-- **The file of a definition is built alike in sessions that agree.** -/
theorem steady_file (name : String) : Steady (file setting name) :=
  steady_bind (steady_fileFrame name) fun f =>
    steady_registry (fun _ => steady_bind (steady_warnAll _) fun _ => steady_pure _)
      fun r r' h => by rw [assemble_agrees h]

end Build

end KclModels
