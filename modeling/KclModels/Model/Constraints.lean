import KclModels.Format
import KclModels.Schema.Basic

/-!
# Constraints

The constraints of a schema on its values, as generation carries them on, and how one set of them is
completed by another.
-/

namespace KclModels

/-- Constraints on values. -/
structure Constraints where
  maximum : Option Double := none
  exclusiveMaximum : Bool := false
  minimum : Option Double := none
  exclusiveMinimum : Bool := false
  multipleOf : Option Double := none
  maxLength : Option Nat := none
  minLength : Option Nat := none
  pattern : Option String := none
  maxItems : Option Nat := none
  minItems : Option Nat := none
  uniqueItems : Bool := false
  enumValues : List Value := []
  /-- Whether there is any constraint here or below. -/
  present : Bool := false
  /-- Whether there is a constraint on items. -/
  presentOnItems : Bool := false
deriving Inhabited, Repr

namespace Constraints

/-- Whether a value of its own, not its items, is constrained. -/
def hasScalar (c : Constraints) : Bool :=
  c.maximum.isSome || c.minimum.isSome || c.multipleOf.isSome || c.maxLength.isSome ||
    c.minLength.isSome || c.pattern.isSome

/-- Whether the items or the choice of values are constrained. -/
def hasItems (c : Constraints) : Bool :=
  c.maxItems.isSome || c.minItems.isSome || c.uniqueItems || !c.enumValues.isEmpty

/-- The constraints with the flags that follow from them. -/
def refresh (c : Constraints) : Constraints :=
  { c with presentOnItems := c.hasItems, present := c.hasScalar || c.hasItems }

/-- The constraints of a schema. Length and pattern are dropped for opaque formats. -/
def ofSchema (s : Schema) : Constraints :=
  let checked := !s.format.any Format.isOpaque
  refresh {
    maximum := s.maximum
    exclusiveMaximum := s.exclusiveMaximum
    minimum := s.minimum
    exclusiveMinimum := s.exclusiveMinimum
    multipleOf := s.multipleOf
    maxLength := s.maxLength.filter fun _ => checked
    minLength := s.minLength.filter fun _ => checked
    pattern := s.pattern.filter fun _ => checked
    maxItems := s.maxItems
    minItems := s.minItems
    uniqueItems := s.uniqueItems
    enumValues := s.enumValues }

/-- Fills every constraint that is not set from `other`; a bound brings its exclusiveness along. -/
def inherit (c other : Constraints) : Constraints where
  maximum := c.maximum.or other.maximum
  exclusiveMaximum := if c.maximum.isNone then other.exclusiveMaximum else c.exclusiveMaximum
  minimum := c.minimum.or other.minimum
  exclusiveMinimum := if c.minimum.isNone then other.exclusiveMinimum else c.exclusiveMinimum
  multipleOf := c.multipleOf.or other.multipleOf
  maxLength := c.maxLength.or other.maxLength
  minLength := c.minLength.or other.minLength
  pattern := c.pattern.or other.pattern
  maxItems := c.maxItems.or other.maxItems
  minItems := c.minItems.or other.minItems
  uniqueItems := c.uniqueItems || other.uniqueItems
  enumValues := if c.enumValues.isEmpty then other.enumValues else c.enumValues
  present := c.present || other.present
  presentOnItems := c.presentOnItems || other.presentOnItems

/-- The enum values without nulls, and whether there was one; none if one is an array or object. -/
def pruneEnum : List Value → Option (List Value × Bool)
  | [] => some ([], false)
  | v :: rest =>
    match v with
    | .null => (pruneEnum rest).map fun (kept, _) => (kept, true)
    | .arr _ | .obj _ => none
    | v => (pruneEnum rest).map fun (kept, dropped) => (v :: kept, dropped)

end Constraints

namespace Schema

/-- Whether a schema constrains its values. -/
def isConstrained (s : Schema) : Bool := (Constraints.ofSchema s).present

/-- Whether a schema constrains the items or the choice of its values. -/
def constrainsItems (s : Schema) : Bool :=
  s.maxItems.isSome || s.minItems.isSome || s.uniqueItems || !s.enumValues.isEmpty

end Schema

end KclModels
