import KclModels.Build.File

/-!
# Models with another choice for closed objects

Every node of a model carries the choice that was made for objects that deny additional properties.
Putting another choice into all nodes changes nothing else, and everything that is done with models
between building and writing is done alike with the other choice: none of it reads the choice.
-/

namespace KclModels

variable {tr : Text.Transliteration}

/-! ## Maps of models -/

namespace Assoc

variable {α β : Type} (g : α → β)

theorem has_map (m : List (String × α)) (k : String) :
    has (m.map (Prod.map id g)) k = has m k := by
  induction m with
  | nil => rfl
  | cons e rest ih =>
    obtain ⟨l, v⟩ := e
    unfold has at ih ⊢
    rw [List.map_cons, Prod.map_apply, id_eq, lookup_pair, lookup_pair]
    by_cases h : k = l
    · rw [if_pos h, if_pos h]
      rfl
    · rw [if_neg h, if_neg h, ih]

theorem putSorted_map (m : List (String × α)) (k : String) (v : α) :
    putSorted (m.map (Prod.map id g)) k (g v) = (putSorted m k v).map (Prod.map id g) := by
  induction m with
  | nil => rfl
  | cons e rest ih =>
    obtain ⟨l, w⟩ := e
    simp only [List.map_cons, Prod.map_apply, id_eq, putSorted]
    split
    · rfl
    · split
      · rfl
      · rw [ih]
        rfl

theorem mergeSorted_map (other : List (String × α)) : ∀ m : List (String × α),
    mergeSorted (m.map (Prod.map id g)) (other.map (Prod.map id g)) =
      (mergeSorted m other).map (Prod.map id g) := by
  induction other with
  | nil => exact fun _ => rfl
  | cons e rest ih =>
    intro m
    have hput := putSorted_map g m e.1 e.2
    show mergeSorted (putSorted (m.map (Prod.map id g)) e.1 (g e.2)) (rest.map (Prod.map id g)) = _
    rw [hput, ih]
    rfl

end Assoc

theorem insertBy_map {α : Type} {le : α → α → Bool} {g : α → α}
    (hg : ∀ a b, le (g a) (g b) = le a b) (a : α) (l : List α) :
    insertBy le (g a) (l.map g) = (insertBy le a l).map g := by
  induction l with
  | nil => rfl
  | cons b rest ih =>
    simp only [List.map_cons, insertBy, hg]
    split
    · rfl
    · rw [ih]
      rfl

/-- Sorting goes by what the order reads. -/
theorem sortBy_map {α : Type} {le : α → α → Bool} {g : α → α}
    (hg : ∀ a b, le (g a) (g b) = le a b) (l : List α) :
    sortBy le (l.map g) = (sortBy le l).map g := by
  induction l with
  | nil => rfl
  | cons a rest ih => rw [List.map_cons, sortBy, sortBy, ih, insertBy_map hg]

/-! ## Models -/

namespace Model

mutual

/-- The model with a choice for objects that deny additional properties in all nodes. -/
def withStrict (strict : Bool) : Model → Model
  | ⟨facts, items, extraItems, properties, allOf, value⟩ =>
    ⟨{ facts with strictAdditionalProperties := strict }, withStrictOption strict items,
      withStrictOption strict extraItems, withStrictList strict properties,
      withStrictList strict allOf, withStrictOption strict value⟩

def withStrictOption (strict : Bool) : Option Model → Option Model
  | none => none
  | some m => some (withStrict strict m)

def withStrictList (strict : Bool) : List Model → List Model
  | [] => []
  | m :: rest => withStrict strict m :: withStrictList strict rest

end

/-- The model with a choice in the nodes below it. -/
def withStrictBelow (strict : Bool) (m : Model) : Model :=
  { m with
    items := m.items.map (withStrict strict)
    additionalItems := m.additionalItems.map (withStrict strict)
    properties := m.properties.map (withStrict strict)
    allOf := m.allOf.map (withStrict strict)
    additionalProperties := m.additionalProperties.map (withStrict strict) }

/-- The model with a choice in its own node. -/
def withStrictHere (strict : Bool) (m : Model) : Model :=
  { m with strictAdditionalProperties := strict }

variable {strict : Bool}

theorem withStrictOption_eq_map (m : Option Model) :
    withStrictOption strict m = m.map (withStrict strict) := by
  cases m <;> rfl

theorem withStrictList_eq_map (l : List Model) :
    withStrictList strict l = l.map (withStrict strict) := by
  induction l with
  | nil => rfl
  | cons m rest ih => rw [withStrictList, ih, List.map_cons]

theorem withStrict_eq (strict : Bool) (m : Model) :
    m.withStrict strict = (m.withStrictBelow strict).withStrictHere strict := by
  obtain ⟨facts, items, extraItems, properties, allOf, value⟩ := m
  simp only [withStrict, withStrictOption_eq_map, withStrictList_eq_map]
  rfl

theorem eq_of_parts {m n : Model} (hfacts : m.toModelFacts = n.toModelFacts)
    (hitems : m.items = n.items) (hextraItems : m.additionalItems = n.additionalItems)
    (hproperties : m.properties = n.properties) (hallOf : m.allOf = n.allOf)
    (hvalue : m.additionalProperties = n.additionalProperties) : m = n := by
  cases m
  cases n
  exact (Model.mk.injEq ..).mpr ⟨hfacts, hitems, hextraItems, hproperties, hallOf, hvalue⟩

@[simp]
theorem withStrict_toModelFacts (strict : Bool) (m : Model) : (m.withStrict strict).toModelFacts =
    { m.toModelFacts with strictAdditionalProperties := strict } := by
  rw [withStrict_eq]
  rfl

@[simp]
theorem withStrict_items (strict : Bool) (m : Model) :
    (m.withStrict strict).items = m.items.map (withStrict strict) := by
  rw [withStrict_eq]
  rfl

@[simp]
theorem withStrict_additionalItems (strict : Bool) (m : Model) :
    (m.withStrict strict).additionalItems = m.additionalItems.map (withStrict strict) := by
  rw [withStrict_eq]
  rfl

@[simp]
theorem withStrict_properties (strict : Bool) (m : Model) :
    (m.withStrict strict).properties = m.properties.map (withStrict strict) := by
  rw [withStrict_eq]
  rfl

@[simp]
theorem withStrict_allOf (strict : Bool) (m : Model) :
    (m.withStrict strict).allOf = m.allOf.map (withStrict strict) := by
  rw [withStrict_eq]
  rfl

@[simp]
theorem withStrict_additionalProperties (strict : Bool) (m : Model) :
    (m.withStrict strict).additionalProperties =
      m.additionalProperties.map (withStrict strict) := by
  rw [withStrict_eq]
  rfl

mutual

/-- The last choice counts. -/
theorem withStrict_withStrict (strict strict' : Bool) :
    ∀ m : Model, (m.withStrict strict).withStrict strict' = m.withStrict strict'
  | ⟨facts, items, extraItems, properties, allOf, value⟩ => by
    simp only [withStrict, withStrictOption_withStrictOption, withStrictList_withStrictList]

theorem withStrictOption_withStrictOption (strict strict' : Bool) : ∀ m : Option Model,
    withStrictOption strict' (withStrictOption strict m) = withStrictOption strict' m
  | none => rfl
  | some m => congrArg some (withStrict_withStrict strict strict' m)

theorem withStrictList_withStrictList (strict strict' : Bool) : ∀ l : List Model,
    withStrictList strict' (withStrictList strict l) = withStrictList strict' l
  | [] => rfl
  | m :: rest => by
    rw [withStrictList, withStrictList, withStrictList, withStrict_withStrict strict strict' m,
      withStrictList_withStrictList strict strict' rest]

end

/-! ### Changes of a node -/

theorem withType_withStrict (m : Model) (type : TypeInfo) :
    { m.withStrict strict with type } = ({ m with type } : Model).withStrict strict := by
  rw [withStrict_eq, withStrict_eq]
  rfl

theorem withAllOf_withStrict (m : Model) (allOf : List Model) :
    { m.withStrict strict with allOf := allOf.map (withStrict strict) } =
      ({ m with allOf } : Model).withStrict strict := by
  rw [withStrict_eq, withStrict_eq]
  rfl

theorem withProperties_withStrict (m : Model) (properties : List Model) :
    { m.withStrict strict with properties := properties.map (withStrict strict) } =
      ({ m with properties } : Model).withStrict strict := by
  rw [withStrict_eq, withStrict_eq]
  rfl

/-! ### What is asked of models -/

theorem carriesConstraints_withStrict (m : Model) :
    (m.withStrict strict).carriesConstraints = m.carriesConstraints := by
  simp only [carriesConstraints, withStrict_toModelFacts, withStrict_additionalProperties,
    withStrict_additionalItems, withStrict_allOf, Option.any_map, List.any_map, Function.comp_def]

theorem isReferenced_withStrict (m : Model) :
    (m.withStrict strict).isReferenced = m.isReferenced := by
  simp only [isReferenced, withStrict_toModelFacts]

theorem parentBranch_withStrict (m : Model) :
    (m.withStrict strict).parentBranch = m.parentBranch := by
  simp only [parentBranch, withStrict_allOf, List.findIdx?_map, Function.comp_def,
    isReferenced_withStrict, withStrict_toModelFacts]

theorem names_withStrict (m : Model) :
    (m.withStrict strict).properties.map (·.name) = m.properties.map (·.name) := by
  rw [withStrict_properties, List.map_map]
  exact List.map_congr_left fun p _ => by rw [Function.comp_apply, withStrict_toModelFacts]

theorem propertyLE_withStrict (keepOrder : Bool) (m n : Model) :
    propertyLE keepOrder (m.withStrict strict) (n.withStrict strict) = propertyLE keepOrder m n := by
  simp only [propertyLE, fallbackLE, withStrict_toModelFacts]

theorem sortProperties_withStrict (keepOrder : Bool) (properties : List Model) :
    sortProperties (properties.map (withStrict strict)) keepOrder =
      (sortProperties properties keepOrder).map (withStrict strict) :=
  sortBy_map (propertyLE_withStrict keepOrder) properties

theorem pointValue_withStrict : ∀ (m : Model) (parent : String),
    pointValue parent (m.withStrict strict) = (pointValue parent m).withStrict strict
  | ⟨facts, items, extraItems, properties, allOf, none⟩, parent => by
    simp only [withStrict, pointValue, withStrictOption]
  | ⟨facts, items, extraItems, properties, allOf, some value⟩, parent => by
    simp only [withStrict, pointValue, withStrictOption, pointValue_withStrict value]

/-! ## Models in a file -/

theorem markBase_withStrict (m : Model) (name : String) (base : Base) :
    (m.withStrict strict).markBase name base = (m.markBase name base).withStrict strict := by
  rw [withStrict_eq, withStrict_eq]
  rfl

theorem asBase_withStrict (m : Model) : { m.withStrict strict with isBase := true } =
    ({ m with isBase := true } : Model).withStrict strict := by
  rw [withStrict_eq, withStrict_eq]
  rfl

theorem asBaseBranch_withStrict (m : Model) (name : String) :
    (m.withStrict strict).asBaseBranch name = (m.asBaseBranch name).withStrict strict := by
  have hoption : ∀ o : Option Model,
      (o.map (withStrict strict)).map (fun p => { p with isBase := true }) =
        (o.map fun p => { p with isBase := true }).map (withStrict strict) := by
    intro o
    rw [Option.map_map, Option.map_map]
    exact congrArg (o.map ·) (funext asBase_withStrict)
  have hlist : ∀ l : List Model,
      (l.map (withStrict strict)).map (fun p => { p with isBase := true }) =
        (l.map fun p => { p with isBase := true }).map (withStrict strict) := by
    intro l
    rw [List.map_map, List.map_map]
    exact congrArg (l.map ·) (funext asBase_withStrict)
  rw [withStrict_eq, withStrict_eq]
  exact eq_of_parts rfl rfl (hoption _) (hlist _) rfl (hoption _)

theorem keepProperties_withStrict (ofBases : List String) (fromBase : Bool) (l : List Model) :
    ∀ seen, keepProperties ofBases fromBase seen (l.map (withStrict strict)) =
      ((keepProperties ofBases fromBase seen l).1.map (withStrict strict),
        (keepProperties ofBases fromBase seen l).2) := by
  induction l with
  | nil => exact fun _ => rfl
  | cons p rest ih =>
    intro seen
    simp only [List.map_cons, keepProperties, withStrict_toModelFacts]
    split
    · rw [ih]
      rfl
    · exact ih seen

theorem dedupBranches_withStrict (ofBases : List String) (l : List Model) :
    ∀ seen, dedupBranches ofBases seen (l.map (withStrict strict)) =
      (dedupBranches ofBases seen l).map (withStrict strict) := by
  induction l with
  | nil => exact fun _ => rfl
  | cons branch rest ih =>
    intro seen
    have hbase : (branch.withStrict strict).isBase = branch.isBase := by
      rw [withStrict_toModelFacts]
    rw [List.map_cons, dedupBranches, dedupBranches, hbase, withStrict_properties,
      keepProperties_withStrict]
    simp only [withProperties_withStrict]
    rw [ih]
    rfl

end Model

/-! ## Imports -/

namespace Imports

open Model

variable {strict : Bool} {target : String}

theorem rebracket_withStrict (t : TypeInfo) (item value : Option Model) :
    rebracket t (item.map (withStrict strict)) (value.map (withStrict strict)) =
      rebracket t item value := by
  cases item <;> cases value <;>
    simp only [rebracket, Option.map_some, Option.map_none, withStrict_toModelFacts]

mutual

theorem collect_withStrict : ∀ (m : Model) (i : Imports),
    collect target (m.withStrict strict) i =
      ((collect target m i).1.withStrict strict, (collect target m i).2)
  | ⟨facts, items, extraItems, properties, allOf, value⟩, i => by
    simp only [withStrict, collect, collectOption_withStrict, collectList_withStrict]
    simp only [withStrictOption_eq_map, rebracket_withStrict]

theorem collectOption_withStrict : ∀ (m : Option Model) (i : Imports),
    collectOption target (withStrictOption strict m) i =
      (withStrictOption strict (collectOption target m i).1, (collectOption target m i).2)
  | none, i => rfl
  | some m, i => by simp only [withStrictOption, collectOption, collect_withStrict m]

theorem collectList_withStrict : ∀ (l : List Model) (i : Imports),
    collectList target (withStrictList strict l) i =
      (withStrictList strict (collectList target l i).1, (collectList target l i).2)
  | [], i => rfl
  | m :: rest, i => by
    simp only [withStrictList, collectList, collect_withStrict m, collectList_withStrict rest]

end

theorem collectNew_withStrict (l : List Model) : ∀ (declared : List String) (i : Imports),
    collectNew target declared (l.map (withStrict strict)) i =
      ((collectNew target declared l i).1.map (withStrict strict),
        (collectNew target declared l i).2) := by
  induction l with
  | nil => exact fun _ _ => rfl
  | cons m rest ih =>
    intro declared i
    simp only [List.map_cons, collectNew, withStrict_toModelFacts]
    split
    · rw [ih]
      rfl
    · rw [collect_withStrict, ih]
      rfl

theorem collectBranches_withStrict (parent : Option Nat) (l : List Model) :
    ∀ (declared : List String) (index : Nat) (i : Imports),
      collectBranches target parent declared index (l.map (withStrict strict)) i =
        ((collectBranches target parent declared index l i).1.map (withStrict strict),
          (collectBranches target parent declared index l i).2) := by
  induction l with
  | nil => exact fun _ _ _ => rfl
  | cons branch rest ih =>
    intro declared index i
    have htype : (branch.withStrict strict).type = branch.type := by rw [withStrict_toModelFacts]
    rw [List.map_cons, collectBranches, collectBranches]
    split
    · -- only the type of the parent is read, and the choice does not touch it
      rw [htype]
      obtain ⟨type, i⟩ := qualify target branch.type i
      dsimp only
      rw [ih]
      exact Prod.ext (congrArg (· :: _) (withType_withStrict branch type)) rfl
    · rw [withStrict_properties, collectNew_withStrict]
      obtain ⟨properties, declared, i⟩ := collectNew target declared branch.properties i
      dsimp only
      rw [ih]
      exact Prod.ext (congrArg (· :: _) (withProperties_withStrict branch properties)) rfl

/-- The types that a model spells out are written alike. -/
theorem collectRendered_withStrict (m : Model) (i : Imports) :
    collectRendered target (m.withStrict strict) i =
      ((collectRendered target m i).1.withStrict strict, (collectRendered target m i).2) := by
  have hown : { m.withStrict strict with allOf := [] } =
      ({ m with allOf := [] } : Model).withStrict strict := withAllOf_withStrict m []
  unfold collectRendered
  rw [hown, collect_withStrict, parentBranch_withStrict, withStrict_allOf]
  obtain ⟨own, i⟩ := collect target { m with allOf := [] } i
  dsimp only
  rw [names_withStrict, collectBranches_withStrict]
  exact Prod.ext (withAllOf_withStrict own _) rfl

theorem collectAllRendered_withStrict (l : List Model) : ∀ i : Imports,
    collectAllRendered target (l.map (withStrict strict)) i =
      ((collectAllRendered target l i).1.map (withStrict strict),
        (collectAllRendered target l i).2) := by
  induction l with
  | nil => exact fun _ => rfl
  | cons m rest ih =>
    intro i
    rw [List.map_cons, collectAllRendered, collectAllRendered, collectRendered_withStrict]
    obtain ⟨m, i⟩ := collectRendered target m i
    dsimp only
    rw [ih]
    rfl

end Imports

/-! ## Files -/

/-- The file with a choice in all nodes of its models. -/
def ModelFile.withStrict (strict : Bool) (file : ModelFile) : ModelFile :=
  { file with
    model := file.model.withStrict strict
    extras := file.extras.map (Model.withStrict strict) }

end KclModels
