import KclModels.Proofs.Build.Outline
import KclModels.Proofs.Build.Worlds

/-!
# Frames that are counterparts

In a world the frames of the one run have counterparts in the other: they stand at the same place
below the definition that is built, hold schemas that match, and have come to models that agree in
what later steps go by. That is little. Names that were made, and what is written with them, differ;
the names of properties, the definitions that branches refer to and the kinds of branches do not.

Most changes of a frame concern none of this (`Matches.stays`).
-/

namespace KclModels

variable {tr : Text.Transliteration}
variable {docs : List String} {W W₁ : World docs} {top top' : String}

/-! ## Models -/

namespace Model

variable {m m' b b' : Model}

/-- What counts of models where they are branches is the same. -/
structure BranchMatches (W : World docs) (m m' : Model) : Prop where
  complex : m'.type.complex = m.type.complex
  isBase : m'.isBase = m.isBase
  reference : Option.Rel W.Named m.reference m'.reference
  names : (Frame.names m'.properties).Perm (Frame.names m.properties)

/-- What counts of models is the same, for themselves and for their branches. -/
structure Matches (W : World docs) (m m' : Model) : Prop extends BranchMatches W m m' where
  branches : List.Forall₂ (BranchMatches W) m.allOf m'.allOf

theorem BranchMatches.mono (h : m.BranchMatches W m') (hW : W.Before W₁) :
    m.BranchMatches W₁ m' where
  complex := h.complex
  isBase := h.isBase
  reference := by
    have href := h.reference
    generalize m.reference = reference, m'.reference = reference' at href ⊢
    cases href with
    | some h => exact .some (h.mono hW)
    | none => exact .none
  names := h.names

theorem Matches.mono (h : m.Matches W m') (hW : W.Before W₁) : m.Matches W₁ m' where
  toBranchMatches := h.toBranchMatches.mono hW
  branches := h.branches.imp fun _ _ h => h.mono hW

/-- Models of which nothing is filled in. -/
theorem matches_empty (W : World docs) : Matches W {} {} where
  complex := rfl
  isBase := rfl
  reference := .none
  names := .refl _
  branches := .nil

end Model

/-! ## Places -/

/-- The places are the same below `top` and below `top'`. -/
structure Place.Matches (top top' : String) (p p' : Place) : Prop where
  path : ∃ below, p.path = rootOf top ++ below ∧ p'.path = rootOf top' ++ below
  named : p'.named = p.named
  indexVar : p'.indexVar = p.indexVar
  keyVar : p'.keyVar = p.keyVar

namespace Frame

variable {f f' g g' : Frame} {c c' : Schema} {n n' name : String} {t t' : TypeInfo}

/-- The frames are at the same place, hold schemas that match and have models that match. -/
structure Matches (W : World docs) (top top' : String) (f f' : Frame) : Prop where
  place : f.toPlace.Matches top top' f'.toPlace
  schema : f.schema.Matches W f'.schema
  model : f.model.Matches W f'.model

theorem Matches.mono (h : f.Matches W top top' f') (hW : W.Before W₁) :
    f.Matches W₁ top top' f' :=
  ⟨h.place, h.schema.mono hW, h.model.mono hW⟩

/-- Frames where nothing is built yet. -/
theorem matches_fresh (hp : g.toPlace.Matches top top' g'.toPlace)
    (hc : g.schema.Matches W g'.schema) (hg : g.model = {}) (hg' : g'.model = {}) :
    g.Matches W top top' g' := by
  refine ⟨hp, hc, ?_⟩
  rw [hg, hg']
  exact Model.matches_empty W

theorem matches_root (top top' : String) (hc : c.Matches W c') (container container' : String) :
    (root top c container).Matches W top top' (root top' c' container') :=
  matches_fresh ⟨⟨"", String.append_empty.symm, String.append_empty.symm⟩, rfl, rfl, rfl⟩ hc rfl rfl

/-! ### Changes that do not count -/

/-- What counts of a frame beside its schema. -/
structure Gist where
  path : String
  named : Bool
  indexVar : String
  keyVar : String
  complex : Bool
  isBase : Bool
  reference : Option String
  properties : List Model
  allOf : List Model

/-- What counts of the frame beside its schema. -/
def gist (f : Frame) : Gist where
  path := f.path
  named := f.named
  indexVar := f.indexVar
  keyVar := f.keyVar
  complex := f.model.type.complex
  isBase := f.model.isBase
  reference := f.model.reference
  properties := f.model.properties
  allOf := f.model.allOf

/-- Frames match as long as what counts of them stays. -/
theorem Matches.stays (h : f.Matches W top top' f') (hf : g.gist = f.gist)
    (hf' : g'.gist = f'.gist) (hc : g.schema.Matches W g'.schema) : g.Matches W top top' g' := by
  obtain ⟨hpath, hnamed, hindex, hkey, hcomplex, hbase, href, hproperties, hallOf⟩ :=
    Gist.mk.inj hf
  obtain ⟨hpath', hnamed', hindex', hkey', hcomplex', hbase', href', hproperties', hallOf'⟩ :=
    Gist.mk.inj hf'
  refine ⟨⟨?_, ?_, ?_, ?_⟩, hc, ⟨?_, ?_, ?_, ?_⟩, ?_⟩
  · rw [hpath, hpath']
    exact h.place.path
  · rw [hnamed, hnamed', h.place.named]
  · rw [hindex, hindex', h.place.indexVar]
  · rw [hkey, hkey', h.place.keyVar]
  · rw [hcomplex, hcomplex', h.model.complex]
  · rw [hbase, hbase', h.model.isBase]
  · rw [href, href']
    exact h.model.reference
  · rw [hproperties, hproperties']
    exact h.model.names
  · rw [hallOf, hallOf']
    exact h.model.branches

theorem Matches.dependOn (h : f.Matches W top top' f') (names names' : List String) :
    (f.dependOn names).Matches W top top' (f'.dependOn names') :=
  ⟨h.place, h.schema, h.model⟩

theorem Matches.addExtra (h : f.Matches W top top' f') (g g' : Frame) :
    (f.addExtra g).Matches W top top' (f'.addExtra g') :=
  h.stays rfl rfl h.schema

theorem Matches.setValue (h : f.Matches W top top' f') (g g' : Frame) :
    (f.setValue g).Matches W top top' (f'.setValue g') :=
  h.stays rfl rfl h.schema

theorem Matches.setStore (h : f.Matches W top top' f') (g g' : Frame) :
    (f.setStore g).Matches W top top' (f'.setStore g') :=
  h.stays rfl rfl h.schema

theorem Matches.setExtraItems (h : f.Matches W top top' f') (g g' : Frame) :
    (f.setExtraItems g).Matches W top top' (f'.setExtraItems g') :=
  h.stays rfl rfl h.schema

theorem Matches.allowItems (h : f.Matches W top top' f') (extra extra' : Extra Schema) :
    (f.allowItems extra).Matches W top top' (f'.allowItems extra') :=
  h.stays rfl rfl h.schema

theorem Matches.require (h : f.Matches W top top' f') (required required' : Bool) :
    (f.require required).Matches W top top' (f'.require required') :=
  h.stays rfl rfl h.schema

theorem Matches.markTuple (h : f.Matches W top top' f') (kclType kclType' : String) :
    (f.markTuple kclType).Matches W top top' (f'.markTuple kclType') :=
  h.stays rfl rfl h.schema

theorem Matches.deny (h : f.Matches W top top' f') (extra extra' : Extra Schema) :
    (f.deny extra).Matches W top top' (f'.deny extra') :=
  h.stays rfl rfl h.schema

theorem Matches.markExtra (h : f.Matches W top top' f') (declared : Bool) :
    (f.markExtra declared).Matches W top top' (f'.markExtra declared) := by
  cases declared <;>
    exact h.stays rfl rfl h.schema

theorem Matches.allowAny (h : f.Matches W top top' f') (declared : Bool) :
    (f.allowAny declared).Matches W top top' (f'.allowAny declared) := by
  cases declared
  · exact h.stays rfl rfl h.schema
  · exact h

theorem pointMap_gist (f : Frame) : f.pointMap.gist = f.gist := by
  unfold pointMap
  split <;> rfl

theorem Matches.pointMap (h : f.Matches W top top' f') :
    f.pointMap.Matches W top top' f'.pointMap :=
  h.stays (pointMap_gist f) (pointMap_gist f') (by
    rw [pointMap_schema, pointMap_schema]
    exact h.schema)

theorem fillContainer_gist (f : Frame) :
    f.fillContainer.gist = f.gist ∧ f.fillContainer.schema = f.schema := by
  unfold fillContainer
  split <;> exact ⟨rfl, rfl⟩

theorem Matches.fillContainer (h : f.Matches W top top' f') :
    f.fillContainer.Matches W top top' f'.fillContainer :=
  h.stays (fillContainer_gist f).1 (fillContainer_gist f').1 (by
    rw [(fillContainer_gist f).2, (fillContainer_gist f').2]
    exact h.schema)

/-! ### Other schemas -/

theorem Matches.referTo (h : f.Matches W top top' f') (hn : W.Named n n') :
    (f.referTo n).Matches W top top' (f'.referTo n') :=
  ⟨h.place, Schema.matches_referenceTo hn, h.model⟩

theorem Matches.restart (h : f.Matches W top top' f') :
    f.restart.Matches W top top' f'.restart :=
  matches_fresh h.place h.schema rfl rfl

theorem Matches.lift (h : f.Matches W top top' f') (hc : c.Matches W c') :
    (f.lift c).Matches W top top' (f'.lift c') :=
  ⟨h.place, hc, h.model⟩

theorem Matches.mapBranch (h : f.Matches W top top' f') (hc : c.Matches W c') (index : Nat) :
    (f.mapBranch index c).Matches W top top' (f'.mapBranch index c') :=
  ⟨h.place, h.schema.setBranch hc index, h.model⟩

theorem Matches.mapExtraValue (h : f.Matches W top top' f') (hc : c.Matches W c') :
    (f.mapExtraValue c).Matches W top top' (f'.mapExtraValue c') :=
  ⟨h.place, h.schema.setValue hc, h.model⟩

theorem Matches.referValue (h : f.Matches W top top' f') (hn : W.Named n n') :
    (f.referValue n).Matches W top top' (f'.referValue n') :=
  h.stays rfl rfl (h.schema.setValue (Schema.matches_referenceTo hn))

theorem Matches.mapItem (h : f.Matches W top top' f') (hc : c.Matches W c') :
    (f.mapItem c).makeVirtual.Matches W top top' (f'.mapItem c').makeVirtual :=
  h.stays rfl rfl (h.schema.setItem hc)

theorem Matches.mapExtraItem (h : f.Matches W top top' f') (hc : c.Matches W c') :
    (f.mapExtraItem c).Matches W top top' (f'.mapExtraItem c') :=
  ⟨h.place, h.schema.setExtraItem hc, h.model⟩

/-- The records of tuples match if the tuples do. -/
theorem Matches.tupleRecord (h : f.Matches W top top' f') {places places' : List Schema}
    (hitems : f.schema.items = some (.tuple places))
    (hitems' : f'.schema.items = some (.tuple places')) :
    (Frame.tupleRecord places f.schema.additionalItems).Matches W
      (Frame.tupleRecord places' f'.schema.additionalItems) where
  eq := by
    have hplaces : places' = places.map (Schema.rename W.name) := by
      rw [h.schema.eq, Schema.items_rename, hitems, Schema.tuple_rename] at hitems'
      exact (Items.tuple.inj (Option.some.inj hitems')).symm
    rw [Schema.rename_eq, h.schema.eq, Schema.additionalItems_rename, hplaces]
    simp only [Frame.tupleRecord, List.zipIdx_map, List.map_map]
    rfl
  known := known_tupleRecord h.schema.known hitems

/-! ### The model -/

theorem Matches.filled (h : f.Matches W top top' f') (setting : Setting) (k k' : Constraints) :
    (f.filled setting k).Matches W top top' (f'.filled setting k') where
  place := h.place
  schema := h.schema
  model := {
    complex := h.model.complex
    isBase := h.model.isBase
    reference := by
      obtain ⟨heq, hnamed⟩ := h.schema.referenceName
      show Option.Rel W.Named f.schema.referenceName f'.schema.referenceName
      rw [heq]
      cases hn : f.schema.referenceName with
      | none => exact .none
      | some n => exact .some (hnamed n hn)
    names := h.model.names
    branches := h.model.branches }

theorem Matches.setType (h : f.Matches W top top' f') {isBase isBase' : Bool}
    (ht : t'.complex = t.complex) (hbase : isBase' = isBase) :
    (f.setType t isBase).Matches W top top' (f'.setType t' isBase') :=
  ⟨h.place, h.schema, ⟨ht, hbase, h.model.reference, h.model.names⟩, h.model.branches⟩

theorem Matches.retype (h : f.Matches W top top' f') (ht : t.Matches t') :
    (f.retype t).Matches W top top' (f'.retype t') :=
  h.setType h.model.complex ht.discriminated

theorem Matches.mapType (h : f.Matches W top top' f') {k k' : TypeInfo → TypeInfo}
    (hk : (k' f'.model.type).complex = (k f.model.type).complex) :
    (f.mapType k).Matches W top top' (f'.mapType k') :=
  ⟨h.place, h.schema, ⟨hk, h.model.isBase, h.model.reference, h.model.names⟩, h.model.branches⟩

theorem Matches.makeMap (h : f.Matches W top top' f') (ht : t.Matches t') :
    (f.makeMap t).Matches W top top' (f'.makeMap t') :=
  ⟨h.place, h.schema, ⟨ht.complex, h.model.isBase, h.model.reference, h.model.names⟩,
    h.model.branches⟩

theorem Matches.takeAlias (h : f.Matches W top top' f') (hg : g.Matches W top top' g')
    (shape : Shape) (ht : t.Matches t') :
    (f.takeAlias g shape t).Matches W top top' (f'.takeAlias g' shape t') :=
  ⟨h.place, h.schema, ⟨rfl, ht.baseType, hg.model.reference, hg.model.names⟩, hg.model.branches⟩

theorem Matches.addBranch (h : f.Matches W top top' f') (hg : g.Matches W top top' g') :
    (f.addBranch g).Matches W top top' (f'.addBranch g') :=
  ⟨h.place, h.schema, ⟨h.model.complex, h.model.isBase, h.model.reference, h.model.names⟩,
    List.rel_append h.model.branches (.cons hg.model.toBranchMatches .nil)⟩

/-- Whether an array was marked as one of bases is overwritten by its elements. -/
theorem Matches.markElements (h : f.Matches W top top' f') (hg : g.Matches W top top' g')
    {p : Polymorphism} : ((f.markElements c p).setElement g).Matches W top top'
      ((f'.markElements c' p).setElement g') := by
  have hset : ∀ f₁ f₁' : Frame, f₁.toPlace.Matches top top' f₁'.toPlace →
      f₁.schema.Matches W f₁'.schema → f₁'.model.type.complex = f₁.model.type.complex →
      Option.Rel W.Named f₁.model.reference f₁'.model.reference →
      (names f₁'.model.properties).Perm (names f₁.model.properties) →
      List.Forall₂ (Model.BranchMatches W) f₁.model.allOf f₁'.model.allOf →
      (f₁.setElement g).Matches W top top' (f₁'.setElement g') :=
    fun _ _ hplace hschema hcomplex href hnames hbranches =>
      ⟨hplace, hschema, ⟨hcomplex, hg.model.isBase, href, hnames⟩, hbranches⟩
  unfold Frame.markElements
  split <;> split <;>
    exact hset _ _ h.place h.schema h.model.complex h.model.reference h.model.names h.model.branches

/-- A property is added under its name. -/
theorem Matches.addProperty (h : f.Matches W top top' f') {position : Nat}
    (hname : g'.model.name = g.model.name) :
    (f.addProperty g position).Matches W top top' (f'.addProperty g' position) :=
  ⟨h.place, h.schema, ⟨h.model.complex, h.model.isBase, h.model.reference, by
    show (names (f'.model.properties ++ _)).Perm (names (f.model.properties ++ _))
    rw [names, names, List.map_append, List.map_append]
    exact h.model.names.append (.of_eq (congrArg ([·]) hname))⟩, h.model.branches⟩

theorem Matches.addPlace (h : f.Matches W top top' f') (g g' : Frame) (index : Nat) :
    (f.addPlace g index).Matches W top top' (f'.addPlace g' index) :=
  ⟨h.place, h.schema, ⟨h.model.complex, h.model.isBase, h.model.reference, by
    show (names (f'.model.properties ++ _)).Perm (names (f.model.properties ++ _))
    rw [names, names, List.map_append, List.map_append]
    exact h.model.names.append_right _⟩, h.model.branches⟩

theorem Matches.orderProperties (h : f.Matches W top top' f') (setting : Setting) :
    (f.orderProperties setting).Matches W top top' (f'.orderProperties setting) :=
  ⟨h.place, h.schema, ⟨h.model.complex, h.model.isBase, h.model.reference,
    ((sortBy_perm _ _).map _).trans (h.model.names.trans ((sortBy_perm _ _).map _).symm)⟩,
    h.model.branches⟩

/-! ### Frames below -/

theorem Matches.hoisted (h : f.Matches W top top' f') (hc : c.Matches W c') (n n' : String) :
    (f.hoisted n c).Matches W top top' (f'.hoisted n' c') :=
  matches_fresh ⟨h.place.path, rfl, rfl, rfl⟩ hc rfl rfl

theorem Matches.aliasOf (h : f.Matches W top top' f') :
    f.aliasOf.Matches W top top' f'.aliasOf := by
  have hsame : f'.aliasOf.schema = f.aliasOf.schema := by
    simp only [Frame.aliasOf, h.schema.eq, Schema.keywords_rename]
  refine matches_fresh ⟨h.place.path, rfl, h.place.indexVar, h.place.keyVar⟩ ?_ rfl rfl
  rw [hsame]
  exact Schema.matches_of_childless rfl rfl

theorem Matches.branch (h : f.Matches W top top' f') (hc : c.Matches W c') (index : Nat) :
    (f.branch c index).Matches W top top' (f'.branch c' index) :=
  matches_fresh ⟨h.place.path, rfl, h.place.indexVar, h.place.keyVar⟩ hc rfl rfl

theorem Matches.mapValue (h : f.Matches W top top' f') (hc : c.Matches W c') :
    (f.mapValue c).Matches W top top' (f'.mapValue c') := by
  have hkey : f'.keyVar ++ "k" = f.keyVar ++ "k" := congrArg (· ++ "k") h.place.keyVar
  obtain ⟨below, hpath, hpath'⟩ := h.place.path
  refine matches_fresh ⟨⟨below ++ "." ++ (f.keyVar ++ "k"), ?_, ?_⟩, rfl, h.place.indexVar, hkey⟩ hc
    rfl rfl
  · show f.path ++ "." ++ (f.keyVar ++ "k") = _
    rw [hpath]
    simp only [String.append_assoc]
  · show f'.path ++ "." ++ (f'.keyVar ++ "k") = _
    rw [hpath', hkey]
    simp only [String.append_assoc]

theorem Matches.element (h : f.Matches W top top' f') (hc : c.Matches W c') (p : Polymorphism) :
    (f.element c p).Matches W top top' (f'.element c' p) := by
  obtain ⟨below, hpath, hpath'⟩ := h.place.path
  refine matches_fresh ⟨⟨below ++ "." ++ f.indexVar, ?_, ?_⟩, rfl,
    congrArg (· ++ "i") h.place.indexVar, h.place.keyVar⟩ hc rfl rfl
  · show f.path ++ "." ++ f.indexVar = _
    rw [hpath]
    simp only [String.append_assoc]
  · show f'.path ++ "." ++ f'.indexVar = _
    rw [hpath', h.place.indexVar]
    simp only [String.append_assoc]

theorem Matches.tuplePlace (h : f.Matches W top top' f') (hc : c.Matches W c') (index : Nat) :
    (f.tuplePlace c index).Matches W top top' (f'.tuplePlace c' index) := by
  obtain ⟨below, hpath, hpath'⟩ := h.place.path
  refine matches_fresh ⟨⟨below ++ "." ++ toString index, ?_, ?_⟩, rfl, h.place.indexVar,
    h.place.keyVar⟩ hc rfl rfl
  · show f.path ++ "." ++ toString index = _
    rw [hpath]
    simp only [String.append_assoc]
  · show f'.path ++ "." ++ toString index = _
    rw [hpath']
    simp only [String.append_assoc]

/-- A property is below the place of its object. -/
theorem joinPath_root (top below name : String) :
    joinPath (rootOf top ++ below) name = rootOf top ++ (below ++ ".\"" ++ name ++ "\"") := by
  have hne : (rootOf top ++ below).isEmpty = false := by
    rw [String.isEmpty_eq_false_iff]
    intro h
    exact rootOf_ne_empty top (String.append_eq_empty_iff.mp h).1
  rw [joinPath, hne]
  simp only [Bool.false_eq_true, if_false, String.append_assoc]

theorem Matches.propertyPlace (h : f.Matches W top top' f') (hc : c.Matches W c') (name : String)
    (required required' : Bool) : (f.propertyPlace name c required).Matches W top top'
      (f'.propertyPlace name c' required') := by
  obtain ⟨below, hpath, hpath'⟩ := h.place.path
  refine matches_fresh ⟨⟨below ++ ".\"" ++ name ++ "\"", ?_, ?_⟩, rfl, h.place.indexVar,
    h.place.keyVar⟩ hc rfl rfl
  · show joinPath f.path name = _
    rw [hpath, joinPath_root]
  · show joinPath f'.path name = _
    rw [hpath', joinPath_root]

theorem Matches.within (h : f.Matches W top top' f') (hg : g.Matches W top top' g')
    (name : String) : (g.within f name).Matches W top top' (g'.within f' name) := by
  obtain ⟨below, hpath, hpath'⟩ := h.place.path
  refine ⟨⟨⟨below ++ ".\"" ++ name ++ "\"", ?_, ?_⟩, hg.place.named, hg.place.indexVar,
    hg.place.keyVar⟩, hg.schema, hg.model⟩
  · show f.path ++ ".\"" ++ name ++ "\"" = _
    rw [hpath]
    simp only [String.append_assoc]
  · show f'.path ++ ".\"" ++ name ++ "\"" = _
    rw [hpath']
    simp only [String.append_assoc]

theorem Matches.extraItemsPlace (h : f.Matches W top top' f') (hc : c.Matches W c')
    (array : Bool) :
    (f.extraItemsPlace c array).Matches W top top' (f'.extraItemsPlace c' array) := by
  -- more items are counted from behind the places, of which there are as many in both schemas
  have hoffset : (f'.schema.tupleItems?.getD []).length =
      (f.schema.tupleItems?.getD []).length := by
    rw [h.schema.eq, Schema.tupleItems?_rename]
    cases f.schema.tupleItems? with
    | none => rfl
    | some places => exact List.length_map ..
  have hplace : (f.additionalItems c).Matches W top top' (f'.additionalItems c') := by
    obtain ⟨below, hpath, hpath'⟩ := h.place.path
    refine matches_fresh ⟨?_, rfl, h.place.indexVar, h.place.keyVar⟩ hc rfl rfl
    unfold Frame.additionalItems
    dsimp only
    rw [hoffset, hpath, hpath', h.place.indexVar]
    generalize (f.schema.tupleItems?.getD []).length = offset
    split
    · exact ⟨below ++ ".(" ++ f.indexVar ++ "+" ++ toString offset ++ ")",
        by simp only [String.append_assoc], by simp only [String.append_assoc]⟩
    · exact ⟨below ++ "." ++ f.indexVar, by simp only [String.append_assoc],
        by simp only [String.append_assoc]⟩
  unfold Frame.extraItemsPlace
  cases array
  · exact hplace
  · -- items that are lists have an index of their own, one letter longer
    exact ⟨⟨hplace.place.path, hplace.place.named, congrArg (· ++ "i") hplace.place.indexVar,
      hplace.place.keyVar⟩, hplace.schema, hplace.model⟩

end Frame

end KclModels
