import KclModels.Format

/-!
# What is known of a type

The type that a schema stands for: its text in the generated language, where it is declared, and the
facts of its structure that generation goes by.
-/

namespace KclModels

/-- The structural kinds of types. -/
inductive Category
  | primitive
  | array
  | tuple
  | map
  | object
deriving DecidableEq, Inhabited, Repr

def Category.text : Category → String
  | .primitive => "primitive"
  | .array => "array"
  | .tuple => "tuple"
  | .map => "map"
  | .object => "object"

/-- What is known of the type of a schema. -/
structure TypeInfo where
  /-- Whether the type has no name of its own. -/
  anonymous : Bool := false
  array : Bool := false
  map : Bool := false
  tuple : Bool := false
  primitive : Bool := false
  /-- Whether the type has declared parts. -/
  complex : Bool := false
  baseType : Bool := false
  discriminated : Bool := false
  additionalItems : Bool := false
  nullable : Bool := false
  /-- The type as the generated language writes it. -/
  kclType : String := ""
  /-- The package that declares the type; empty for built-in types and types of the same file. -/
  package : String := ""
  packageAlias : String := ""
  module : String := ""
  swaggerType : String := ""
  swaggerFormat : String := ""
  element : Option TypeInfo := none
deriving Inhabited, Repr

namespace TypeInfo

/-- The type of which nothing is known. -/
def any : TypeInfo := { kclType := Format.anyType }

/-- The structural kind. Tuple, array and map come before the scalar and object facts. -/
def category (t : TypeInfo) : Category :=
  if t.tuple then .tuple
  else if t.array then .array
  else if t.map then .map
  else if t.primitive then .primitive
  else .object

end TypeInfo

end KclModels
