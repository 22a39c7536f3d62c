import KclModels.Reference
import KclModels.Schema.Hints

/-!
# Schemas

A schema object of a document: the keywords with a plain content, and the keywords that hold schemas
in turn.
-/

namespace KclModels

/-- The keywords of a schema that hold no schemas. -/
structure Keywords where
  reference : Option String := none
  types : List String := []
  format : Option String := none
  title : Option String := none
  description : Option String := none
  defaultValue : Option Value := none
  exampleValue : Option Value := none
  discriminator : Option String := none
  readOnly : Bool := false
  required : List String := []
  maximum : Option Double := none
  exclusiveMaximum : Bool := false
  minimum : Option Double := none
  exclusiveMinimum : Bool := false
  multipleOf : Option Double := none
  maxLength : Option Nat := none
  minLength : Option Nat := none
  pattern : Option String := none
  maxItems : Option Nat := none
  minItems : Option Nat := none
  uniqueItems : Bool := false
  enumValues : List Value := []
  /-- The members whose names begin with `x-`, sorted by name. -/
  extensions : List (String × Value) := []
  hints : Hints := {}
deriving Inhabited, Repr

/-- The items of an array: one schema for all of them, or one for each place. -/
inductive Items (α : Type)
  | single (schema : α)
  | tuple (schemas : List α)
deriving Repr

/-- What is allowed beyond the declared parts: a yes or no, or a schema. -/
inductive Extra (α : Type)
  | flag (allowed : Bool)
  | schema (schema : α)
deriving Repr

/-- A schema. -/
structure Schema extends Keywords where
  properties : List (String × Schema) := []
  allOf : List Schema := []
  items : Option (Items Schema) := none
  additionalProperties : Option (Extra Schema) := none
  additionalItems : Option (Extra Schema) := none
deriving Inhabited

/-- The named schemas of a document, in its order. -/
abbrev Definitions := List (String × Schema)

namespace Extra

variable {α : Type}

/-- Whether more is allowed, of any kind or of one. -/
def isEnabled : Extra α → Bool
  | .flag allowed => allowed
  | .schema _ => true

def isDenied : Extra α → Bool
  | .flag allowed => !allowed
  | .schema _ => false

def schema? : Extra α → Option α
  | .flag _ => none
  | .schema s => some s

end Extra

namespace Schema

/-- The schema that only refers to a definition. -/
def referenceTo (name : String) : Schema := { reference := some (Reference.toDefinition name) }

/-- The schema that only has a type. -/
def typed (type : String) : Schema := { types := [type] }

/-- The definition that a schema refers to. -/
def referenceName (s : Schema) : Option String := s.reference.bind Reference.name?

theorem referenceName_eq {s : Schema} {reference name : String} (href : s.reference = some reference)
    (hname : Reference.name? reference = some name) : s.referenceName = some name := by
  rw [referenceName, href, Option.bind_some, hname]

theorem referenceName_eq_none {s : Schema} (href : s.reference = none) : s.referenceName = none := by
  rw [referenceName, href, Option.bind_none]

def hasType (s : Schema) (type : String) : Bool := s.types.contains type

/-- Whether a schema describes objects: it has no type, or objects are one of its types. -/
def isObject (s : Schema) : Bool := s.reference.isNone && (s.types.isEmpty || s.hasType "object")

def hasAdditionalProperties (s : Schema) : Bool := s.additionalProperties.any Extra.isEnabled

def hasAdditionalItems (s : Schema) : Bool := s.additionalItems.any Extra.isEnabled

/-- The schemas of the places of a tuple. -/
def tupleItems? (s : Schema) : Option (List Schema) :=
  match s.items with
  | some (.tuple schemas) => some schemas
  | _ => none

/-- The schema of all items of an array. -/
def singleItem? (s : Schema) : Option Schema :=
  match s.items with
  | some (.single schema) => some schema
  | _ => none

/-- The schema of the values beyond the declared properties. -/
def extraValue? (s : Schema) : Option Schema := s.additionalProperties.bind Extra.schema?

/-- The name that the schema asks for, or `fallback`. -/
def nameOr (s : Schema) (fallback : String) : String := s.hints.kclName.getD fallback

mutual

/-- The count of schemas in a schema, with itself. -/
def size : Schema → Nat
  | ⟨_, properties, allOf, items, extraProperties, extraItems⟩ =>
    1 + propertiesSize properties + listSize allOf + itemsSize items + extraSize extraProperties +
      extraSize extraItems

def propertiesSize : List (String × Schema) → Nat
  | [] => 0
  | (_, s) :: rest => size s + propertiesSize rest

def listSize : List Schema → Nat
  | [] => 0
  | s :: rest => size s + listSize rest

def itemsSize : Option (Items Schema) → Nat
  | none => 0
  | some (.single s) => size s
  | some (.tuple schemas) => listSize schemas

def extraSize : Option (Extra Schema) → Nat
  | some (.schema s) => size s
  | _ => 0

end

/-- The schemas of the items, be it one for all of them or one for each place. -/
def itemSchemas (s : Schema) : List Schema :=
  match s.items with
  | some (.single item) => [item]
  | some (.tuple items) => items
  | none => []

/-- The schemas directly in a schema, in the order in which they are visited. -/
def children (s : Schema) : List Schema :=
  s.properties.map Prod.snd ++ s.allOf ++ s.itemSchemas ++
    (s.additionalProperties.bind Extra.schema?).toList ++
    (s.additionalItems.bind Extra.schema?).toList

end Schema

end KclModels
