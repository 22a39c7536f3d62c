import KclModels.Format
import KclModels.Registry

/-!
# The shape of a schema

A few facts about what a schema comes down to when references are followed. They decide whether a
definition that is only a reference becomes an alias or a composition, and whether the values of a
map have to be present.
-/

namespace KclModels

/-- What a schema comes down to. -/
structure Shape where
  /-- A built-in type, or an object of which nothing is known. -/
  known : Bool := false
  array : Bool := false
  tuple : Bool := false
  map : Bool := false
  base : Bool := false
  /-- A known type, or arrays and maps of simple schemas. -/
  simple : Bool := false
deriving DecidableEq, Inhabited, Repr

namespace Shape

/-- The depth of arrays and maps beyond which nothing is known of a schema. -/
def maxDepth : Nat := 32

/-- Whether a schema is a built-in type, or an object of which nothing is known. -/
def isKnown (s : Schema) : Bool :=
  s.hints.intOrString || ["boolean", "integer", "number", "string"].any s.hasType ||
    s.format.any (fun f => (Format.ofFormat? "string" f).isSome) ||
    (s.isObject && s.properties.isEmpty && s.allOf.isEmpty && !s.hasAdditionalProperties &&
      s.additionalItems.isNone)

/-- The shape of a schema that is no reference, given whether the parts of it are simple. -/
def ofParts (s : Schema) (simpleItem simpleValue : Bool) : Shape :=
  let tuple := s.hasType "array" && s.tupleItems?.isSome
  let array := s.hasType "array" && !tuple
  let map := s.isObject && s.properties.isEmpty && s.allOf.isEmpty && s.hasAdditionalProperties
  { known := isKnown s, array, tuple, map
    base := s.discriminator.isSome
    simple := isKnown s || (array && simpleItem) || (map && simpleValue) }

/-- The schema itself, or what it refers to in the end. -/
def behind (r : Registry) (s : Schema) : Except ReferenceError Schema :=
  match s.reference with
  | some reference => r.resolve reference
  | none => .ok s

/-- Whether a part is simple, given the shapes of parts; one that has no say is not looked at. -/
def simplePart (shape : Schema → Except ReferenceError Shape) (counts : Bool) :
    Option Schema → Except ReferenceError Bool
  | some part => if counts then (·.simple) <$> shape part else .ok false
  | none => .ok true

/-- The shape of a schema at a depth that leaves `levels` more. -/
def ofSchemaIn (r : Registry) : (levels : Nat) → Schema → Except ReferenceError Shape
  | 0, s => (fun _ => {}) <$> behind r s
  | levels + 1, s => do
    let s ← behind r s
    let outline := ofParts s false false
    let simpleItem ← simplePart (ofSchemaIn r levels) outline.array s.singleItem?
    let simpleValue ← simplePart (ofSchemaIn r levels) outline.map s.extraValue?
    return ofParts s simpleItem simpleValue

/-- The shape of a schema. -/
def ofSchema (r : Registry) (s : Schema) : Except ReferenceError Shape :=
  ofSchemaIn r (maxDepth + 1) s

end Shape

end KclModels
