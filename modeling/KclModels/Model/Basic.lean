import KclModels.Model.Constraints
import KclModels.Model.TypeInfo

/-!
# Generation models

What is generated, before it is written: a tree of models, one for each schema, attribute, element
or branch, and the files that hold them.
-/

namespace KclModels

/-- What a model is apart from the models below it. -/
structure ModelFacts where
  type : TypeInfo := {}
  constraints : Constraints := {}
  /-- The definition that the model refers to if it stands for a reference. -/
  reference : Option String := none
  /-- The name in the document. -/
  documentName : String := ""
  name : String := ""
  /-- The name that the model is declared under. -/
  declaredName : String := ""
  suffix : String := ""
  path : String := ""
  valueExpression : String := ""
  indexVar : String := ""
  keyVar : String := ""
  receiverName : String := ""
  title : Option String := none
  description : Option String := none
  required : Bool := false
  readOnly : Bool := false
  exported : Bool := false
  virtual : Bool := false
  hasAdditionalItems : Bool := false
  hasAdditionalProperties : Bool := false
  /-- Whether the model has additional properties beside declared ones. -/
  isAdditionalProperties : Bool := false
  additionalPropertiesDenied : Bool := false
  strictAdditionalProperties : Bool := false
  isBase : Bool := false
  hasBase : Bool := false
  isSubtype : Bool := false
  discriminatorField : Option String := none
  discriminatorValue : Option String := none
  /-- The type for each value of the discriminator, sorted by value. -/
  discriminates : List (String × String) := []
  defaultValue : Option Value := none
  exampleValue : Option Value := none
  itemsEnum : List Value := []
  extensions : List (String × Value) := []
  order : Option Double := none
  position : Nat := 0
deriving Inhabited, Repr

/-- A node of what is generated. -/
structure Model extends ModelFacts where
  items : Option Model := none
  additionalItems : Option Model := none
  properties : List Model := []
  allOf : List Model := []
  additionalProperties : Option Model := none
deriving Inhabited, Repr

namespace Model

/-- Whether there are constraints here or on a part of the structure. -/
def carriesConstraints (m : Model) : Bool :=
  m.constraints.present || m.additionalProperties.any (·.constraints.present) ||
    m.additionalItems.any (·.constraints.present) || m.allOf.any (·.constraints.present)

/-- Whether a branch refers to an object. -/
def isReferenced (branch : Model) : Bool := branch.reference.isSome && branch.type.complex

/--
The branch that is rendered as the parent: the first reference to a polymorphic base, else the first
reference to an object.
-/
def parentBranch (m : Model) : Option Nat :=
  (m.allOf.findIdx? fun b => b.isReferenced && b.isBase).or (m.allOf.findIdx? isReferenced)

/-- Whether `a` may stand before `b` where no order is asked for. -/
def fallbackLE (keepOrder : Bool) (a b : Model) : Bool :=
  if keepOrder then a.position ≤ b.position else decide (a.name ≤ b.name)

/-- Whether `a` may stand before `b`: models with an order come first, by their orders. -/
def propertyLE (keepOrder : Bool) (a b : Model) : Bool :=
  match a.order, b.order with
  | some x, some y =>
    if x.rank = y.rank then fallbackLE keepOrder a b else x.rank < y.rank
  | some _, none => true
  | none, some _ => false
  | none, none => fallbackLE keepOrder a b

/-- The properties in the order in which they are declared. -/
def sortProperties (properties : List Model) (keepOrder : Bool) : List Model :=
  sortBy (propertyLE keepOrder) properties

end Model

/-- An import of a package under a name. -/
structure Import where
  path : String := ""
  asName : String := ""
  /-- Whether the name differs from the one that the path implies. -/
  renamed : Bool := false
deriving DecidableEq, Inhabited, Repr

/-- What one output file holds. -/
structure ModelFile where
  packageName : String := ""
  /-- The package path that the file belongs to. -/
  package : String := ""
  model : Model := {}
  /-- The models that were taken out of the main one, by name. -/
  extras : List Model := []
  dependsOn : List String := []
  imports : List Import := []
deriving Inhabited, Repr

end KclModels
