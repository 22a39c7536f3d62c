import KclModels.Proofs.Build.FileCases
import KclModels.Proofs.Registry.Agreement
import KclModels.Proofs.Model.Strictness

/-!
# Building with another choice for closed objects

What the choice for objects that deny additional properties is, no step of building asks: the step
that fills in a model copies it into the node, and that is all. So with another choice each step does
the same, and comes to the same frames with the other choice in their nodes. A frame that is not
filled in yet has the choice in the nodes below its own only.
-/

namespace KclModels

variable {tr : Text.Transliteration}

/-! ## Types -/

/-- The options with a choice for objects that deny additional properties. -/
def Options.withStrict (strict : Bool) (o : Options) : Options :=
  { o with strictAdditionalProperties := strict }

def Setting.withStrict (strict : Bool) (setting : Setting) : Setting :=
  { setting with options := setting.options.withStrict strict }

namespace Resolver

def withStrict (strict : Bool) (r : Resolver) : Resolver :=
  { r with options := r.options.withStrict strict }

variable (strict : Bool) (r : Resolver)

theorem resolveWith_withStrict (deref : Deref) (s : Schema) (anonymous required : Bool) :
    resolveWith (r.withStrict strict) deref anonymous required s =
      resolveWith r deref anonymous required s := by
  -- nothing that is read off a schema goes by the choice
  refine resolveWith_congr deref ?_ ?_ ?_ ?_ s anonymous required
  all_goals rfl

theorem enter_withStrict (deref : Deref) : (r.withStrict strict).enter deref = r.enter deref := by
  funext anonymous required reference
  unfold Resolver.enter
  simp only [resolveWith_withStrict]
  rfl

theorem derefIn_withStrict (unvisited : Nat) :
    ∀ visiting, (r.withStrict strict).derefIn unvisited visiting = r.derefIn unvisited visiting := by
  induction unvisited with
  | zero => exact fun _ => rfl
  | succ unvisited ih =>
    intro visiting
    funext anonymous required reference
    rw [Resolver.derefIn, Resolver.derefIn, ih, enter_withStrict]
    rfl

/-- **The types of schemas do not go by the choice.** -/
theorem resolve_withStrict [Text.Transliteration] (s : Schema) (anonymous required : Bool) :
    (r.withStrict strict).resolve s anonymous required = r.resolve s anonymous required := by
  rw [Resolver.resolve, Resolver.resolve, resolveWith_withStrict, derefIn_withStrict]
  rfl

theorem resolveOptional_withStrict (s : Option Schema) (anonymous required : Bool) :
    (r.withStrict strict).resolveOptional s anonymous required =
      r.resolveOptional s anonymous required := by
  cases s with
  | none => rfl
  | some s => exact resolve_withStrict strict r s anonymous required

end Resolver

/-! ## Steps that go along with a change of their results -/

namespace Build

variable {α α' β β' : Type} {φ : α → α'} {ψ : β → β'} {m : Build α} {m' : Build α'}
variable {k : α → Build β} {k' : α' → Build β'}

/-- The step `m'` does what `m` does, and gives `φ a` where `m` gives `a`. -/
def Along (φ : α → α') (m : Build α) (m' : Build α') : Prop := m' = φ <$> m

theorem along_pure {a : α} {a' : α'} (h : φ a = a') : Along φ (pure a) (pure a') := by
  rw [Along, map_pure, h]

theorem along_throw (e : GenerationError) : Along φ (throw e : Build α) (throw e) := rfl

theorem along_refl (m : Build α) : Along id m m := (id_map m).symm

theorem along_bind (hm : Along φ m m') (hk : ∀ a, Along ψ (k a) (k' (φ a))) :
    Along ψ (m >>= k) (m' >>= k') := by
  rw [Along, hm, bind_map_left, map_bind]
  exact congrArg (m >>= ·) (funext hk)

/-- What comes of the same first step goes along. -/
theorem along_same {k' : α → Build β'} (hk : ∀ a, Along ψ (k a) (k' a)) :
    Along ψ (m >>= k) (m >>= k') := by
  rw [Along, map_bind]
  exact congrArg (m >>= ·) (funext hk)

theorem along_ite {c : Prop} [Decidable c] {n : Build α} {n' : Build α'} (hm : c → Along φ m m')
    (hn : ¬c → Along φ n n') : Along φ (if c then m else n) (if c then m' else n') := by
  split
  · exact hm ‹_›
  · exact hn ‹_›

variable {setting : Setting} {strict : Bool} {f f' : Frame}

/-- The same is resolved where frames are in the same place. -/
theorem resolve_withStrict [Text.Transliteration] (hname : f'.modelName = f.modelName)
    (hpath : f'.path = f.path) (s : Schema) (anonymous required : Bool) :
    resolve (setting.withStrict strict) f' s anonymous required =
      resolve setting f s anonymous required := by
  have hresolver : resolver (setting.withStrict strict) f' =
      Resolver.withStrict strict <$> resolver setting f := by
    unfold resolver
    rw [map_bind, hname, hpath]
    rfl
  unfold resolve
  rw [hresolver, bind_map_left]
  exact congrArg (resolver setting f >>= ·)
    (funext fun r => congrArg ofType (Resolver.resolve_withStrict strict r s anonymous required))

end Build

/-! ## Frames -/

namespace Frame

open Build

/-- The frame with a choice in the nodes below that of its model. -/
def withStrictBelow (strict : Bool) (f : Frame) : Frame :=
  { f with
    model := f.model.withStrictBelow strict
    extras := f.extras.map (Prod.map id (Model.withStrict strict)) }

/-- The frame with a choice in all nodes. -/
def withStrict (strict : Bool) (f : Frame) : Frame :=
  (f.withStrictBelow strict).mapModel (Model.withStrictHere strict)

variable (strict : Bool) (f g : Frame)

theorem withStrict_model : (f.withStrict strict).model = f.model.withStrict strict :=
  (Model.withStrict_eq strict f.model).symm

/-- What is taken over from a frame below is not the choice. -/
theorem merge_withStrictBelow (lifts : Bool) :
    (f.withStrictBelow strict).merge (g.withStrict strict) lifts =
      (f.merge g lifts).withStrictBelow strict := by
  have hconstraints : (g.withStrict strict).model.carriesConstraints =
      g.model.carriesConstraints := by
    rw [withStrict_model, Model.carriesConstraints_withStrict]
  have hrequired : (g.withStrict strict).model.additionalProperties.any (·.required) =
      g.model.additionalProperties.any (·.required) := by
    rw [withStrict_model]
    rw [Model.withStrict_additionalProperties, Option.any_map]
    have hfact : ∀ m : Model, (m.withStrict strict).required = m.required := fun m => by
      rw [Model.withStrict_toModelFacts]
    exact congrArg (g.model.additionalProperties.any ·) (funext hfact)
  have hextras : Assoc.mergeSorted (f.withStrictBelow strict).extras (g.withStrict strict).extras =
      (Assoc.mergeSorted f.extras g.extras).map (Prod.map id (Model.withStrict strict)) :=
    Assoc.mergeSorted_map _ _ _
  unfold merge
  rw [hconstraints, hrequired, hextras]
  rfl

theorem merge_withStrict (lifts : Bool) :
    (f.withStrict strict).merge (g.withStrict strict) lifts = (f.merge g lifts).withStrict strict :=
  congrArg (mapModel · (Model.withStrictHere strict)) (merge_withStrictBelow strict f g lifts)

theorem addExtra_withStrictBelow :
    (f.withStrictBelow strict).addExtra (g.withStrict strict) =
      (f.addExtra g).withStrictBelow strict := by
  unfold addExtra
  rw [merge_withStrictBelow, withStrict_model]
  have hextras :=
    Assoc.putSorted_map (Model.withStrict strict) (f.merge g false).extras g.name g.model
  exact congrArg (fun extras => { (f.merge g false).withStrictBelow strict with extras }) hextras

theorem addExtra_withStrict :
    (f.withStrict strict).addExtra (g.withStrict strict) = (f.addExtra g).withStrict strict :=
  congrArg (mapModel · (Model.withStrictHere strict)) (addExtra_withStrictBelow strict f g)

theorem addExtra?_withStrict (g : Option Frame) :
    (f.withStrict strict).addExtra? (g.map (withStrict strict)) =
      (f.addExtra? g).withStrict strict := by
  cases g with
  | none => rfl
  | some g => exact addExtra_withStrict strict f g

variable {strict f g}

theorem mapModel_withStrict {k k' : Model → Model}
    (h : k' (f.model.withStrict strict) = (k f.model).withStrict strict) :
    (f.withStrict strict).mapModel k' = (f.mapModel k).withStrict strict := by
  rw [← withStrict_model, Model.withStrict_eq] at h
  exact congrArg (fun model => { f.withStrict strict with model }) h

variable (strict f g)

theorem takeAlias_withStrict (shape : Shape) (target : TypeInfo) :
    (f.withStrict strict).takeAlias (g.withStrict strict) shape target =
      (f.takeAlias g shape target).withStrict strict := by
  unfold takeAlias
  rw [merge_withStrict]
  rfl

theorem addBranch_withStrict :
    (f.withStrict strict).addBranch (g.withStrict strict) = (f.addBranch g).withStrict strict := by
  have hallOf : ((f.merge g true).model.withStrict strict).allOf ++ [g.model.withStrict strict] =
      ((f.merge g true).model.allOf ++ [g.model]).map (Model.withStrict strict) := by
    rw [Model.withStrict_allOf, List.map_append, List.map_singleton]
  unfold addBranch
  rw [merge_withStrict, withStrict_model]
  refine mapModel_withStrict ?_
  rw [hallOf]
  exact Model.withAllOf_withStrict _ _

theorem setValue_withStrict :
    (f.withStrict strict).setValue (g.withStrict strict) = (f.setValue g).withStrict strict := by
  unfold setValue
  rw [merge_withStrict, withStrict_model]
  rfl

theorem pointMap_withStrict : (f.withStrict strict).pointMap = f.pointMap.withStrict strict := by
  have hvalue : ∀ (parent : String) (value : Option Model),
      (value.map (Model.withStrict strict)).map (pointValue parent) =
        (value.map (pointValue parent)).map (Model.withStrict strict) := by
    intro parent value
    rw [Option.map_map, Option.map_map]
    exact congrArg (value.map ·) (funext fun m => Model.pointValue_withStrict m parent)
  unfold pointMap
  show (if f.model.type.map && f.model.hasAdditionalProperties then _ else _) = _
  split
  · refine mapModel_withStrict ?_
    rw [Model.withStrict_additionalProperties, Model.withStrict_toModelFacts, hvalue,
      Model.withStrict_eq strict { f.model with additionalProperties := _ }, Model.withStrict_eq]
    rfl
  · rfl

theorem setStore_withStrict :
    (f.withStrict strict).setStore (g.withStrict strict) = (f.setStore g).withStrict strict := by
  let store := f.model.valueExpression ++ "." ++ Naming.pascalize f.model.name
  exact setValue_withStrict strict (f.mapModel fun m => { m with valueExpression := store })
    (g.mapModel fun m => { m with valueExpression := store ++ "[" ++ g.keyVar ++ "]" })

theorem addProperty_withStrict (position : Nat) :
    (f.withStrict strict).addProperty (g.withStrict strict) position =
      (f.addProperty g position).withStrict strict := by
  have hproperty : { g.model.withStrict strict with position } =
      ({ g.model with position } : Model).withStrict strict := by
    rw [Model.withStrict_eq, Model.withStrict_eq]
    rfl
  have hproperties : ((f.merge g false).model.withStrict strict).properties ++
      [{ g.model.withStrict strict with position }] = ((f.merge g false).model.properties ++
        [{ g.model with position }]).map (Model.withStrict strict) := by
    rw [hproperty, Model.withStrict_properties, List.map_append, List.map_singleton]
  unfold addProperty
  rw [merge_withStrict, withStrict_model]
  refine mapModel_withStrict ?_
  rw [hproperties, Model.withStrict_eq strict (f.merge g false).model,
    Model.withStrict_eq strict g.model, Model.withStrict_eq]
  rfl

theorem orderProperties_withStrict (setting : Setting) :
    (f.withStrict strict).orderProperties (setting.withStrict strict) =
      (f.orderProperties setting).withStrict strict := by
  refine mapModel_withStrict ?_
  rw [Model.withStrict_properties, Model.sortProperties_withStrict]
  exact Model.withProperties_withStrict _ _

theorem setElement_withStrict :
    (f.withStrict strict).setElement (g.withStrict strict) = (f.setElement g).withStrict strict := by
  have hitems : { (g.withStrict strict).model with
        suffix := "Items"
        required := false
        constraints := { g.model.constraints with
          present := g.model.constraints.present || g.schema.isConstrained } } =
      ({ g.model with
        suffix := "Items"
        required := false
        constraints := { g.model.constraints with
          present := g.model.constraints.present || g.schema.isConstrained } } : Model).withStrict
            strict := by
    rw [Model.withStrict_eq]
    rfl
  unfold setElement
  rw [merge_withStrict]
  refine mapModel_withStrict ?_
  rw [Model.withStrict_eq strict (f.merge g false).model, Model.withStrict_eq]
  exact Model.eq_of_parts rfl (congrArg some hitems) rfl rfl rfl rfl

theorem addPlace_withStrict (index : Nat) :
    (f.withStrict strict).addPlace (g.withStrict strict) index =
      (f.addPlace g index).withStrict strict := by
  have hplace : { g.model.withStrict strict with
        name := placeName index, declaredName := placeName index, position := index } =
      ({ g.model with
        name := placeName index, declaredName := placeName index, position := index } :
          Model).withStrict strict := by
    rw [Model.withStrict_eq, Model.withStrict_eq]
    rfl
  unfold addPlace
  rw [merge_withStrict, withStrict_model]
  refine mapModel_withStrict ?_
  rw [hplace, Model.withStrict_properties, ← List.map_singleton, ← List.map_append]
  exact Model.withProperties_withStrict _ _

theorem setExtraItems_withStrict :
    (f.withStrict strict).setExtraItems (g.withStrict strict) =
      (f.setExtraItems g).withStrict strict := by
  unfold setExtraItems
  rw [merge_withStrict, withStrict_model]
  rfl

/-! ## Steps -/

variable {strict : Bool} {setting : Setting} {build build' : Frame → Build Frame}

/-- The choice is copied into the node that is filled in. -/
theorem filled_withStrict (f : Frame) (c : Constraints) :
    (f.withStrictBelow strict).filled (setting.withStrict strict) c =
      (f.filled setting c).withStrict strict := by
  unfold filled withStrict withStrictBelow
  dsimp only [mapModel, Model.withStrictHere, Model.withStrictBelow, Setting.withStrict,
    Options.withStrict]

theorem along_populate (f : Frame) :
    Along (withStrict strict) (f.populate setting)
      ((f.withStrictBelow strict).populate (setting.withStrict strict)) := by
  have hconstraints : (f.withStrictBelow strict).constraints = f.constraints := rfl
  unfold populate
  rw [hconstraints]
  exact along_same fun c => along_pure (filled_withStrict f c).symm

/-- A definition is made alike for frames in the same place; nothing is built of it yet. -/
theorem along_hoist {f f' : Frame} (hplace : f'.toPlace = f.toPlace) (base : String) (s : Schema) :
    Along (withStrictBelow strict) (hoist f base s) (hoist f' base s) := by
  obtain ⟨place, _, _, _, _⟩ := f
  obtain ⟨place', _, _, _, _⟩ := f'
  obtain rfl : place' = place := hplace
  exact along_same fun session => along_same fun _ => along_pure rfl

theorem along_resolver {φ : Frame → Frame} {k k' : Resolver → Build Frame} (f : Frame)
    (hk : ∀ r, Along φ (k r) (k' (r.withStrict strict))) :
    Along φ (resolver setting f >>= k)
      (resolver (setting.withStrict strict) (f.withStrict strict) >>= k') := by
  unfold resolver
  exact along_bind (along_same fun r => along_pure rfl) hk

theorem along_liftBranch (f : Frame) :
    Along (withStrict strict) (f.liftBranch setting)
      ((f.withStrict strict).liftBranch (setting.withStrict strict)) := by
  unfold liftBranch
  refine along_ite (fun _ => along_pure rfl) fun _ => ?_
  have hschema : (f.withStrict strict).schema = f.schema := rfl
  rw [hschema]
  cases f.schema.allOf.filter isSubstantive with
  | nil => exact along_pure rfl
  | cons branch others =>
    dsimp only
    rw [resolve_withStrict rfl rfl]
    exact along_same fun t => along_ite (fun _ => along_pure rfl) fun _ => along_pure rfl

section Steps

variable (hbuild : ∀ g : Frame,
  Along (withStrict strict) (build g) (build' (g.withStrictBelow strict)))

include hbuild

theorem along_buildReference (f : Frame) :
    Along (withStrict strict) (f.buildReference setting build)
      ((f.withStrict strict).buildReference (setting.withStrict strict) build') := by
  unfold buildReference
  refine along_same fun registry => along_same fun shape => along_ite (fun _ => ?_) fun _ => ?_
  · rw [resolve_withStrict rfl rfl]
    refine along_same fun target => along_bind (hbuild _) fun alias_ => along_pure ?_
    exact (takeAlias_withStrict strict f alias_ shape target).symm
  · exact along_resolver f fun r => along_bind (hbuild _) fun branch =>
      along_pure (addBranch_withStrict strict _ _).symm

/-! ### Compositions -/

theorem along_buildBranch (f : Frame) (index : Nat) (branch : Schema) :
    Along (Prod.map (withStrict strict) id) (f.buildBranch setting build index branch)
      ((f.withStrict strict).buildBranch (setting.withStrict strict) build' index branch) := by
  unfold buildBranch
  rw [resolve_withStrict rfl rfl]
  refine along_same fun t => along_ite (fun _ => ?_) fun _ => ?_
  · refine along_bind (along_hoist rfl _ branch) fun made => along_bind (hbuild made) fun hoisted =>
      along_bind (hbuild _) fun composed => along_pure (Prod.ext ?_ rfl)
    have hadd := addBranch_withStrict strict (f.mapBranch index (.referenceTo hoisted.name))
      (composed.addExtra hoisted)
    rw [← addExtra_withStrict] at hadd
    exact hadd.symm
  · refine along_bind (hbuild _) fun composed => along_pure (Prod.ext ?_ rfl)
    have hadd := addBranch_withStrict strict f composed.pointMap
    rw [← pointMap_withStrict] at hadd
    exact hadd.symm

theorem along_buildBranches (branches : List Schema) : ∀ (f : Frame) (index : Nat),
    Along (Prod.map (withStrict strict) id) (f.buildBranches setting build index branches)
      ((f.withStrict strict).buildBranches (setting.withStrict strict) build' index branches) := by
  induction branches with
  | nil => exact fun f _ => along_pure rfl
  | cons branch rest ih =>
    exact fun f index => along_bind (along_buildBranch hbuild f index branch) fun built =>
      along_bind (ih built.1 (index + 1)) fun _ => along_pure rfl

theorem along_buildAllOf (f : Frame) :
    Along (withStrict strict) (f.buildAllOf setting build)
      ((f.withStrict strict).buildAllOf (setting.withStrict strict) build') := by
  unfold buildAllOf
  refine along_ite (fun _ => along_pure rfl) fun _ =>
    along_bind (along_buildBranches hbuild _ f 0) fun built => along_ite (fun _ => ?_) fun _ => ?_
  · exact along_same fun _ => along_pure rfl
  · exact along_pure rfl

/-! ### Additional properties -/

theorem along_buildMapLeaf {parent parent' : Frame} (hplace : parent'.toPlace = parent.toPlace)
    (level : Frame) (t : TypeInfo) :
    Along (withStrict strict) (buildMapLeaf build parent level t)
      (buildMapLeaf build' parent' (level.withStrictBelow strict) t) := by
  have hname : parent'.name = parent.name := congrArg Place.name hplace
  have hrest : ∀ level : Frame, Along (withStrict strict)
      (do
        let shape ← ofReference (Shape.ofSchema (← registry) level.schema)
        build (level.require (valueRequired shape)))
      (do
        let shape ← ofReference (Shape.ofSchema (← registry) (level.withStrictBelow strict).schema)
        build' ((level.withStrictBelow strict).require (valueRequired shape))) :=
    fun level => along_same fun _ => along_same fun _ => hbuild _
  unfold buildMapLeaf
  rw [hname]
  refine along_ite (fun _ => ?_) fun _ => along_bind (along_pure rfl) hrest
  refine along_bind (along_hoist hplace _ _) fun made => along_bind (hbuild made) fun hoisted =>
    along_bind (along_pure ?_) hrest
  exact (addExtra_withStrictBelow strict (level.referTo hoisted.name) hoisted).symm

omit hbuild in
theorem along_joinMapLevel (level child : Frame) :
    Along (withStrict strict) (level.joinMapLevel setting child)
      ((level.withStrictBelow strict).joinMapLevel (setting.withStrict strict)
        (child.withStrict strict)) := by
  unfold joinMapLevel
  refine along_bind (along_populate _) fun level => ?_
  rw [resolve_withStrict rfl rfl]
  exact along_same fun t => along_pure (setValue_withStrict strict (level.makeMap t) child).symm

/-- Levels of maps are built below a place, whatever was built there. -/
theorem along_buildMapLevel (value : Schema) : ∀ {parent parent' : Frame},
    parent'.toPlace = parent.toPlace →
    Along (withStrict strict) (parent.buildMapLevel setting build value)
      (parent'.buildMapLevel (setting.withStrict strict) build' value) := by
  induction value using Schema.children_induction with
  | step value ih =>
    rintro ⟨place, _, _, _, _⟩ ⟨place', _, _, _, _⟩ hplace
    obtain rfl : place' = place := hplace
    -- The levels are those of the value schema: each but the innermost has the next in its own.
    obtain ⟨keywords, properties, allOf, items, extra, extraItems⟩ := value
    unfold buildMapLevel
    dsimp only
    rw [resolve_withStrict rfl rfl]
    refine along_same fun t => ?_
    rcases extra with _ | _ | next
    · exact along_buildMapLeaf hbuild rfl _ t
    · exact along_buildMapLeaf hbuild rfl _ t
    · refine along_ite (fun _ => ?_) fun _ => along_buildMapLeaf hbuild rfl _ t
      exact along_bind (ih next (Schema.value_mem_children rfl) rfl) fun child =>
        along_joinMapLevel _ child

theorem along_buildMap (f : Frame) (value : Schema) :
    Along (withStrict strict) (f.buildMap setting build value)
      ((f.withStrict strict).buildMap (setting.withStrict strict) build' value) :=
  along_bind (along_buildMapLevel hbuild value rfl) fun child =>
    along_pure (setValue_withStrict strict (f.mapExtraValue child.schema) child).symm

theorem along_hoistExtended (f : Frame) :
    Along (withStrict strict) (f.hoistExtended build)
      ((f.withStrict strict).hoistExtended build') :=
  along_bind (along_hoist rfl _ _) fun made => along_bind (hbuild made) fun hoisted =>
    along_bind (hbuild _) fun again => along_pure (addExtra_withStrict strict again hoisted).symm

theorem along_hoistExtraValue (f : Frame) (value : Schema) (t : TypeInfo) :
    Along (Prod.map (withStrict strict) (Prod.map id (Option.map (withStrict strict))))
      (f.hoistExtraValue build value t) ((f.withStrict strict).hoistExtraValue build' value t) :=
  along_ite (fun _ => along_bind (along_hoist rfl _ value) fun made =>
    along_bind (hbuild made) fun _ => along_pure rfl) fun _ => along_pure rfl

theorem along_buildExtraValues (f : Frame) (value : Schema) :
    Along (withStrict strict) (f.buildExtraValues setting build value)
      ((f.withStrict strict).buildExtraValues (setting.withStrict strict) build' value) := by
  unfold buildExtraValues
  rw [resolve_withStrict rfl rfl]
  refine along_same fun t => along_bind (along_hoistExtraValue hbuild f value t) ?_
  rintro ⟨f, value, hoisted⟩
  refine along_same fun _ => along_same fun shape => along_bind (hbuild _) fun child =>
    along_pure ?_
  rw [addExtra?_withStrict]
  exact (setStore_withStrict strict f (child.addExtra? hoisted)).symm

theorem along_buildAnyValues (f : Frame) (declared : Bool) :
    Along (withStrict strict) (f.buildAnyValues build declared)
      ((f.withStrict strict).buildAnyValues build' declared) := by
  have hallow : (f.withStrict strict).allowAny declared =
      (f.allowAny declared).withStrict strict := by
    cases declared <;> rfl
  unfold buildAnyValues
  rw [hallow]
  exact along_bind (hbuild _) fun value =>
    along_pure (setValue_withStrict strict (f.allowAny declared) value).symm

theorem along_buildAdditionalProperties (f : Frame) :
    Along (withStrict strict) (f.buildAdditionalProperties setting build)
      ((f.withStrict strict).buildAdditionalProperties (setting.withStrict strict) build') := by
  have hmark : ∀ (f : Frame) (declared : Bool), (f.withStrict strict).markExtra declared =
      (f.markExtra declared).withStrict strict := by
    intro f declared
    cases declared <;> rfl
  have hschema : (f.withStrict strict).schema = f.schema := rfl
  unfold buildAdditionalProperties
  rw [hschema]
  cases f.schema.additionalProperties with
  | none => exact along_pure rfl
  | some extra =>
    refine along_ite (fun _ => along_pure rfl) fun _ => ?_
    have hdeclared : ((f.withStrict strict).deny extra).model.type.complex =
        (f.deny extra).model.type.complex := rfl
    have hmarked := hmark (f.deny extra) (f.deny extra).model.type.complex
    dsimp only
    -- What was denied and marked is the same, so the frame below stands for any.
    rw [hdeclared]
    rw [show (f.withStrict strict).deny extra = (f.deny extra).withStrict strict from rfl, hmarked]
    generalize (f.deny extra).model.type.complex = declared
    generalize (f.deny extra).markExtra declared = f
    cases extra with
    | flag _ => exact along_buildAnyValues hbuild f declared
    | schema value =>
      exact along_ite (fun _ => along_buildMap hbuild f value) fun _ =>
        along_ite (fun _ => along_hoistExtended hbuild f) fun _ =>
          along_buildExtraValues hbuild f value

/-! ### Properties -/

omit hbuild in
theorem along_decorate (f : Frame) (reference : String) :
    Along (withStrict strict) (f.decorate setting reference)
      ((f.withStrict strict).decorate (setting.withStrict strict) reference) := by
  have hmark : (f.withStrict strict).markRole (setting.withStrict strict) reference =
      (f.markRole setting reference).withStrict strict := by
    have hpolymorphism : (setting.withStrict strict).polymorphism = setting.polymorphism := rfl
    unfold markRole
    rw [hpolymorphism]
    cases setting.polymorphism.isBase reference <;>
      cases setting.polymorphism.isSubtype reference <;> rfl
  unfold decorate
  dsimp only
  rw [hmark]
  generalize f.markRole setting reference = f
  refine along_same fun registry => along_same fun target => ?_
  -- The target is resolved to see that it can be; the resolver is made here, with the options.
  let resolver : Resolver :=
    { registry, options := setting.options
      modelName := (Reference.name? reference).getD ""
      path := f.path }
  have hresolve := resolver.resolve_withStrict strict target false true
  have hcheck : Along id (ofType (resolver.resolve target false true))
      (ofType ((resolver.withStrict strict).resolve target false true)) := by
    rw [hresolve]
    exact along_refl _
  refine along_bind hcheck fun _ => along_ite (fun _ => ?_) fun _ => along_pure rfl
  cases Constraints.pruneEnum (Constraints.ofSchema target).enumValues with
  | none => exact along_throw _
  | some kept => exact along_pure rfl

theorem along_hoistProperty (f : Frame) (name : String) (s : Schema) (t : TypeInfo) :
    Along (Prod.map (withStrict strict) id) (f.hoistProperty build name s t)
      ((f.withStrict strict).hoistProperty build' name s t) := by
  unfold hoistProperty
  refine along_ite (fun _ => ?_) fun _ => along_pure rfl
  refine along_bind (along_hoist rfl _ s) fun made => along_bind (hbuild (made.within f name))
    fun hoisted => along_pure (Prod.ext ?_ rfl)
  have hmark : (hoisted.withStrict strict).markDiscriminated s =
      (hoisted.markDiscriminated s).withStrict strict := by
    unfold markDiscriminated
    cases s.discriminator.isSome <;> rfl
  rw [hmark]
  exact (addExtra_withStrict strict f _).symm

theorem along_buildProperty (f : Frame) (position : Nat) (name : String) (s : Schema) :
    Along (withStrict strict) (f.buildProperty setting build position name s)
      ((f.withStrict strict).buildProperty (setting.withStrict strict) build' position name s) := by
  unfold buildProperty
  dsimp only
  rw [resolve_withStrict rfl rfl]
  refine along_same fun t => along_bind (along_hoistProperty hbuild f name s t) ?_
  rintro ⟨f, s⟩
  refine along_bind (hbuild _) fun property => ?_
  have hschema : (property.withStrict strict).schema = property.schema := rfl
  rw [hschema]
  cases property.schema.reference with
  | none =>
    exact along_bind (along_pure rfl) fun property =>
      along_pure (addProperty_withStrict strict f property position).symm
  | some reference =>
    exact along_bind (along_decorate property reference) fun property =>
      along_pure (addProperty_withStrict strict f property position).symm

theorem along_buildPropertyList (properties : List (String × Schema)) :
    ∀ (f : Frame) (position : Nat),
      Along (withStrict strict) (f.buildPropertyList setting build position properties)
        ((f.withStrict strict).buildPropertyList (setting.withStrict strict) build' position
          properties) := by
  induction properties with
  | nil => exact fun f _ => along_pure rfl
  | cons p rest ih =>
    exact fun f position => along_bind (along_buildProperty hbuild f position p.1 p.2) fun f =>
      ih f (position + 1)

theorem along_buildProperties (f : Frame) :
    Along (withStrict strict) (f.buildProperties setting build)
      ((f.withStrict strict).buildProperties (setting.withStrict strict) build') :=
  along_bind (along_buildPropertyList hbuild _ f 0) fun f =>
    along_pure (orderProperties_withStrict strict f setting).symm

/-! ### Items -/

theorem along_buildArray (f : Frame) (item : Schema) :
    Along (withStrict strict) (f.buildArray setting build item)
      ((f.withStrict strict).buildArray (setting.withStrict strict) build' item) := by
  have hmark : (f.withStrict strict).markElements item (setting.withStrict strict).polymorphism =
      (f.markElements item setting.polymorphism).withStrict strict := by
    unfold markElements
    show (if refersToBase setting.polymorphism item then _ else _) = _
    cases refersToBase setting.polymorphism item <;> rfl
  unfold buildArray
  rw [resolve_withStrict rfl rfl, hmark]
  refine along_same fun t => along_ite (fun _ => ?_) fun _ => ?_
  · exact along_bind (along_hoist rfl _ item) fun made => along_bind (hbuild made) fun hoisted =>
      along_bind (hbuild _) fun again => along_pure (addExtra_withStrict strict again hoisted).symm
  · exact along_bind (hbuild _) fun element =>
      along_pure (setElement_withStrict strict _ element).symm

omit hbuild in
theorem markTuple_withStrict (f : Frame) (kclType : String) :
    (f.withStrict strict).markTuple kclType = (f.markTuple kclType).withStrict strict := by
  unfold markTuple withStrict withStrictBelow
  dsimp only [mapModel, mapType, Model.withStrictHere, Model.withStrictBelow]

theorem along_hoistPlace (f : Frame) (index : Nat) (s : Schema) :
    Along (withStrictBelow strict) (f.hoistPlace setting build index s)
      ((f.withStrict strict).hoistPlace (setting.withStrict strict) build' index s) := by
  unfold hoistPlace
  rw [resolve_withStrict rfl rfl]
  refine along_ite (fun _ => along_pure rfl) fun _ => along_same fun t =>
    along_ite (fun _ => ?_) fun _ => along_pure rfl
  refine along_bind (along_hoist rfl _ s) fun made => along_bind (hbuild made) fun hoisted =>
    along_pure ?_
  exact (addExtra_withStrictBelow strict ((f.tuplePlace s index).referTo hoisted.name) hoisted).symm

theorem along_buildPlaces (places : List Schema) : ∀ (f : Frame) (index : Nat),
    Along (withStrict strict) (f.buildPlaces setting build index places)
      ((f.withStrict strict).buildPlaces (setting.withStrict strict) build' index places) := by
  induction places with
  | nil => exact fun f _ => along_pure rfl
  | cons s rest ih =>
    intro f index
    refine along_bind (along_hoistPlace hbuild f index s) fun place =>
      along_bind (hbuild place) fun element => ?_
    rw [addPlace_withStrict]
    exact ih _ _

theorem along_buildItems (f : Frame) :
    Along (withStrict strict) (f.buildItems setting build)
      ((f.withStrict strict).buildItems (setting.withStrict strict) build') := by
  have hschema : (f.withStrict strict).schema = f.schema := rfl
  unfold buildItems
  rw [hschema]
  rcases f.schema.items with _ | item | places
  · exact along_pure rfl
  · exact along_buildArray hbuild f item
  · refine along_ite (fun _ => ?_) fun _ => ?_
    · refine along_resolver f fun r => ?_
      have hplaces : Along (withStrict strict)
          ((f.markTuple r.modelTypeName).buildPlaces setting build 0 places) _ :=
        along_buildPlaces hbuild places _ 0
      rw [← markTuple_withStrict] at hplaces
      exact hplaces
    · refine along_bind (along_hoist rfl _ _) fun made =>
        along_bind (hbuild { made with tuple := true }) fun hoisted =>
          along_bind (hbuild _) fun again => along_pure ?_
      exact (addExtra_withStrict strict again hoisted.asTuple).symm

theorem along_hoistExtraItems (f : Frame) (s : Option Schema) (t : TypeInfo) :
    Along (Prod.map (withStrict strict) (Prod.map id (Option.map (withStrict strict))))
      (f.hoistExtraItems build s t) ((f.withStrict strict).hoistExtraItems build' s t) := by
  unfold hoistExtraItems
  cases s with
  | none => exact along_pure rfl
  | some s =>
    exact along_ite (fun _ => along_bind (along_hoist rfl _ s) fun made =>
      along_bind (hbuild made) fun _ => along_pure rfl) fun _ => along_pure rfl

theorem along_buildExtraItems (f : Frame) (s : Option Schema) :
    Along (withStrict strict) (f.buildExtraItems setting build s)
      ((f.withStrict strict).buildExtraItems (setting.withStrict strict) build' s) := by
  have hplace : ∀ (f : Frame) (s : Schema) (array : Bool),
      (f.withStrict strict).extraItemsPlace s array =
        (f.extraItemsPlace s array).withStrictBelow strict := by
    intro f s array
    cases array <;> rfl
  unfold buildExtraItems
  refine along_resolver f fun r => ?_
  rw [Resolver.resolveOptional_withStrict]
  refine along_same fun t => along_bind (along_hoistExtraItems hbuild f s t) ?_
  rintro ⟨f, s, hoisted⟩
  dsimp only [Prod.map]
  rw [hplace]
  refine along_bind (hbuild _) fun items => along_pure ?_
  rw [addExtra?_withStrict]
  exact (setExtraItems_withStrict strict f _).symm

theorem along_buildAdditionalItems (f : Frame) :
    Along (withStrict strict) (f.buildAdditionalItems setting build)
      ((f.withStrict strict).buildAdditionalItems (setting.withStrict strict) build') := by
  have hschema : (f.withStrict strict).schema = f.schema := rfl
  unfold buildAdditionalItems
  rw [hschema]
  cases f.schema.additionalItems with
  | none => exact along_pure rfl
  | some extra =>
    exact along_ite (fun _ => along_pure rfl) fun _ =>
      along_ite (fun _ => along_throw _) fun _ => along_buildExtraItems hbuild _ _

/-! ### Schemas -/

/-- **A frame is built alike with another choice** if the frames below it are. -/
theorem along_buildStep (f : Frame) :
    Along (withStrict strict) (f.buildStep setting build)
      ((f.withStrictBelow strict).buildStep (setting.withStrict strict) build') := by
  have hfill : ∀ f : Frame,
      (f.withStrict strict).fillContainer = f.fillContainer.withStrict strict := by
    intro f
    unfold fillContainer
    show (if f.container.isEmpty then _ else _) = _
    cases f.container.isEmpty <;> rfl
  unfold buildStep
  refine along_bind (along_populate f) fun f => along_ite (fun _ => ?_) fun _ => ?_
  · exact along_buildReference hbuild (f.dependOn f.schema.referenceName.toList)
  · refine along_bind (along_liftBranch (f.dependOn f.schema.referenceName.toList)) fun f => ?_
    rw [hfill]
    refine along_bind (along_buildAllOf hbuild f.fillContainer) fun f => ?_
    dsimp only
    rw [resolve_withStrict rfl rfl]
    refine along_same fun t =>
      along_bind (along_buildAdditionalProperties hbuild (f.setType t t.baseType)) fun f => ?_
    rw [pointMap_withStrict, resolve_withStrict rfl rfl]
    exact along_same fun t => along_bind (along_buildProperties hbuild (f.pointMap.retype t)) fun f =>
      along_bind (along_buildAdditionalItems hbuild f) fun f => along_buildItems hbuild f

end Steps

end Frame

/-! ## Files -/

namespace Build

variable {strict : Bool} {setting : Setting}

open KclModels.Frame (withStrict withStrictBelow)

theorem along_buildIn (depth : Nat) : ∀ f : Frame,
    Along (withStrict strict) (buildIn setting depth f)
      (buildIn (setting.withStrict strict) depth (f.withStrictBelow strict)) := by
  induction depth with
  | zero => exact fun _ => along_throw _
  | succ depth ih => exact fun f => Frame.along_buildStep ih f

theorem along_definition (name : String) (s : Schema) (container : String) :
    Along (withStrict strict) (definition setting name s container)
      (definition (setting.withStrict strict) name s container) :=
  along_buildIn _ (Frame.root name s container)

theorem expanded_withStrict (reference name : String) (m : Model) :
    expanded (setting.withStrict strict) reference name (m.withStrict strict) =
      (expanded setting reference name m).withStrict strict := by
  have hpolymorphism : (setting.withStrict strict).polymorphism = setting.polymorphism := rfl
  unfold expanded
  rw [hpolymorphism]
  cases setting.polymorphism.bases.lookup reference with
  | none => exact Model.asBaseBranch_withStrict m name
  | some base =>
    dsimp only
    rw [Model.markBase_withStrict, Model.asBaseBranch_withStrict]

theorem along_expandBranches (container : String) (branches : List Schema) :
    ∀ (index : Nat) (allOf : List Model),
      Along (Prod.map (List.map (Model.withStrict strict)) id)
        (expandBranches setting container index allOf branches)
        (expandBranches (setting.withStrict strict) container index
          (allOf.map (Model.withStrict strict)) branches) := by
  induction branches with
  | nil => exact fun _ _ => along_pure rfl
  | cons branch rest ih =>
    intro index allOf
    refine along_same fun base => ?_
    rcases base with _ | ⟨reference, name, target⟩
    · exact ih (index + 1) allOf
    · refine along_bind (along_definition name target container) fun built => ?_
      -- the expanded branch of the other choice is the expanded branch, with that choice
      have hexpanded : expanded (setting.withStrict strict) reference name
          (built.withStrict strict).model =
            (expanded setting reference name built.model).withStrict strict := by
        rw [Frame.withStrict_model, expanded_withStrict]
      have hrest := ih (index + 1) (allOf.set index (expanded setting reference name built.model))
      rw [List.map_set, ← hexpanded] at hrest
      refine along_bind hrest fun p => along_pure (Prod.ext rfl ?_)
      -- the names of the properties do not depend on the choice
      have hnames : ((expanded setting reference name built.model).withStrict strict).properties.map
          (·.name) = (expanded setting reference name built.model).properties.map (·.name) :=
        Model.names_withStrict _
      rw [← hexpanded] at hnames
      exact congrArg (· ++ p.2) hnames.symm

theorem along_expandSubtype (m : Model) (s : Schema) (subtype : Subtype) :
    Along (Model.withStrict strict) (expandSubtype setting m s subtype)
      (expandSubtype (setting.withStrict strict) (m.withStrict strict) s subtype) := by
  have hname : (m.withStrict strict).name = m.name := by rw [Model.withStrict_toModelFacts]
  unfold expandSubtype
  rw [hname, Model.withStrict_allOf]
  refine along_bind (along_expandBranches m.name s.allOf 0 m.allOf) fun expanded => along_pure ?_
  rw [Model.withStrict_eq strict m, Model.withStrict_eq]
  exact Model.eq_of_parts rfl rfl rfl rfl (Model.dedupBranches_withStrict _ _ _).symm rfl

theorem needsInlining_withStrict (parent : Option Nat) (index : Nat) (branch : Model) :
    needsInlining parent index (branch.withStrict strict) = needsInlining parent index branch := by
  simp only [needsInlining, Model.withStrict_properties, Model.withStrict_toModelFacts,
    List.isEmpty_map]

theorem inlined_withStrict (f : Frame) (index : Nat) (branch : Model) (built : Frame) :
    inlined (f.withStrict strict) index (branch.withStrict strict) (built.withStrict strict) =
      (inlined f index branch built).withStrict strict := by
  have hproperties : (built.withStrict strict).model.properties ++
      (built.withStrict strict).model.allOf.flatMap (·.properties) =
        (built.model.properties ++ built.model.allOf.flatMap (·.properties)).map
          (Model.withStrict strict) := by
    rw [Frame.withStrict_model, Model.withStrict_properties, Model.withStrict_allOf,
      List.map_append, List.flatMap_map, List.map_flatMap]
    simp only [Model.withStrict_properties]
  have hextras : Assoc.mergeSorted (f.withStrict strict).extras (built.withStrict strict).extras =
      (Assoc.mergeSorted f.extras built.extras).map (Prod.map id (Model.withStrict strict)) :=
    Assoc.mergeSorted_map _ _ _
  have hallOf : ∀ properties : List Model,
      (f.withStrict strict).model.allOf.set index
          { branch.withStrict strict with properties := properties.map (Model.withStrict strict) } =
        (f.model.allOf.set index { branch with properties }).map (Model.withStrict strict) := by
    intro properties
    rw [Frame.withStrict_model, Model.withStrict_allOf, Model.withProperties_withStrict,
      List.map_set]
  -- the properties, the branches and the extras are all that is put in
  unfold inlined
  rw [hproperties, hallOf, hextras]
  rfl

theorem along_inlineBranches (parent : Option Nat) (branches : List Model) :
    ∀ (f : Frame) (index : Nat),
      Along (withStrict strict) (inlineBranches setting parent f index branches)
        (inlineBranches (setting.withStrict strict) parent (f.withStrict strict) index
          (branches.map (Model.withStrict strict))) := by
  induction branches with
  | nil => exact fun _ _ => along_pure rfl
  | cons branch rest ih =>
    intro f index
    have hreference : (branch.withStrict strict).reference = branch.reference := by
      rw [Model.withStrict_toModelFacts]
    rw [List.map_cons]
    unfold inlineBranches
    rw [needsInlining_withStrict, hreference]
    -- which branch is put in is read off a reference, which both sides share
    cases (if needsInlining parent index branch then branch.reference else none) with
    | none => exact ih f (index + 1)
    | some name =>
      refine along_same fun registry => along_same fun target =>
        along_bind (along_definition name target f.model.name) fun built => ?_
      have hrest := ih (inlined f index branch built) (index + 1)
      rw [← inlined_withStrict] at hrest
      exact hrest

theorem along_inlineAll (f : Frame) :
    Along (withStrict strict) (inlineBranches setting f.model.parentBranch f 0 f.model.allOf)
      (inlineBranches (setting.withStrict strict) (f.withStrict strict).model.parentBranch
        (f.withStrict strict) 0 (f.withStrict strict).model.allOf) := by
  rw [Frame.withStrict_model, Model.parentBranch_withStrict, Model.withStrict_allOf]
  exact along_inlineBranches _ _ f 0

theorem along_subtypeInline (name : String) (s : Schema) (f : Frame) :
    Along (withStrict strict)
      (match setting.polymorphism.subtypes.lookup (Reference.toDefinition name) with
        | some subtype => do
          let m ← expandSubtype setting f.model s subtype
          let f ← pure { f with model := m }
          inlineBranches setting f.model.parentBranch f 0 f.model.allOf
        | none => do
          let f ← pure f
          inlineBranches setting f.model.parentBranch f 0 f.model.allOf)
      (match setting.polymorphism.subtypes.lookup (Reference.toDefinition name) with
        | some subtype => do
          let m ← expandSubtype (setting.withStrict strict) (f.withStrict strict).model s subtype
          let f ← pure { f.withStrict strict with model := m }
          inlineBranches (setting.withStrict strict) f.model.parentBranch f 0 f.model.allOf
        | none => do
          let f ← pure (f.withStrict strict)
          inlineBranches (setting.withStrict strict) f.model.parentBranch f 0 f.model.allOf) := by
  cases setting.polymorphism.subtypes.lookup (Reference.toDefinition name) with
  | none => exact along_bind (along_pure rfl) along_inlineAll
  | some subtype =>
    dsimp only
    rw [Frame.withStrict_model]
    refine along_bind (along_expandSubtype _ s subtype) fun m =>
      along_bind (along_pure ?_) along_inlineAll
    rw [Frame.withStrict, Model.withStrict_eq]
    rfl

theorem along_fileFrame (name : String) :
    Along (withStrict strict) (fileFrame setting name)
      (fileFrame (setting.withStrict strict) name) := by
  have hpolymorphism : (setting.withStrict strict).polymorphism = setting.polymorphism := rfl
  unfold fileFrame
  refine along_same fun registry => ?_
  cases registry.get? name with
  | none => exact along_throw _
  | some s =>
    refine along_bind (along_definition name s name) fun f => ?_
    dsimp only
    rw [hpolymorphism]
    -- A base is marked before it is seen whether it is a subtype as well.
    cases setting.polymorphism.bases.lookup (Reference.toDefinition name) with
    | none => exact along_subtypeInline name s f
    | some base => exact along_subtypeInline name s (f.mapModel (·.markBase name base))

theorem declare_withStrict (name : String) (registry : Registry) (m : Model) :
    declare (setting.withStrict strict) name registry (m.withStrict strict) =
      (declare setting name registry m).withStrict strict := by
  rw [Model.withStrict_eq, Model.withStrict_eq]
  rfl

theorem dependsOn_withStrict (f : Frame) (name : String) (hoisted : List String) :
    dependsOn (f.withStrict strict) name hoisted = dependsOn f name hoisted := by
  have hextras : ∀ other, Assoc.has (f.withStrict strict).extras other = Assoc.has f.extras other :=
    Assoc.has_map _ _
  unfold dependsOn
  simp only [hextras]
  rfl

theorem assemble_withStrict (name : String) (registry : Registry) (f : Frame) :
    assemble (setting.withStrict strict) name registry (f.withStrict strict) =
      ((assemble setting name registry f).1.withStrict strict,
        (assemble setting name registry f).2) := by
  have hpackage : (setting.withStrict strict).options.packageOf name =
      setting.options.packageOf name := rfl
  have hextras : (f.withStrict strict).extras.map Prod.snd =
      (f.extras.map Prod.snd).map (Model.withStrict strict) := by
    show (f.extras.map _).map Prod.snd = _
    rw [List.map_map, List.map_map]
    rfl
  unfold assemble
  dsimp only
  rw [Frame.withStrict_model, declare_withStrict, hpackage, hextras, dependsOn_withStrict,
    Imports.collectRendered_withStrict, Imports.collectAllRendered_withStrict]
  dsimp only [ModelFile.withStrict]

/-- **The file of a definition is built alike with another choice.** -/
theorem along_file (name : String) :
    Along (ModelFile.withStrict strict) (file setting name)
      (file (setting.withStrict strict) name) := by
  refine along_bind (along_fileFrame name) fun f => along_same fun registry => ?_
  rw [assemble_withStrict]
  exact along_same fun _ => along_pure rfl

end Build

end KclModels
