import KclModels.Kcl.Literal
import KclModels.Model.Basic
import KclModels.Naming.Identifier

/-!
# Checks

The conditions of a schema on its attributes, on the elements of an attribute that is an array, and
on the values of one that is a map. What an enum asks for is part of the type and needs no
condition.
-/

namespace KclModels.Kcl

/-- The condition for a bound that may be exclusive. -/
def boundCheck (subject strict weak : String) (bound : Double) (exclusive : Bool) : String :=
  subject ++ (if exclusive then strict else weak) ++ boundLiteral bound

/-- The conditions on one value. -/
def valueChecks (subject : String) (c : Constraints) : List String :=
  let length := "len(" ++ subject ++ ")"
  let most := fun n : Nat => length ++ " <= " ++ toString n
  let least := fun n : Nat => length ++ " >= " ++ toString n
  c.maxLength.toList.map most ++
    c.minLength.toList.map least ++
    c.pattern.toList.map (fun p => "regex.match(" ++ subject ++ ", " ++ regexLiteral p ++ ")") ++
    c.maximum.toList.map (boundCheck subject " < " " <= " · c.exclusiveMaximum) ++
    c.minimum.toList.map (boundCheck subject " > " " >= " · c.exclusiveMinimum) ++
    (c.multipleOf.toList.filter (·.isIntegral)).map
      (fun x => "multiplyof(int(" ++ subject ++ "), " ++ boundLiteral x ++ ")") ++
    c.maxItems.toList.map most ++
    c.minItems.toList.map least ++
    (if c.uniqueItems then ["isunique(" ++ subject ++ ")"] else [])

/-- Whether the conditions on a value match a pattern. -/
def usesRegex (c : Constraints) : Bool := c.pattern.isSome

/-- The conditions on the parts of a value, all in one. -/
def partCheck (subject : String) (binder name : String) (part : Option Model) : List String :=
  match part with
  | none => []
  | some m =>
    let checks := valueChecks subject m.constraints
    if checks.isEmpty then []
    else ["all " ++ binder ++ " in " ++ name ++ " \x7b " ++ " and ".intercalate checks ++ " \x7d"]

/-- Whether an attribute can be named in a condition. -/
def isNameable (m : Model) : Bool := Naming.isIdentifier m.name

/-- The conditions on an attribute; one that may be absent is checked only if it is there. -/
def attributeChecks (m : Model) : List String :=
  if !isNameable m then []
  else
    let name := Naming.attributeName m.name
    let guard := if m.required then "" else " if " ++ name ++ " is not None"
    (valueChecks name m.constraints ++ partCheck "item" "item" name m.items ++
      partCheck "value" "_, value" name m.additionalProperties).map (· ++ guard)

/-- Whether the conditions on an attribute match a pattern. -/
def attributeUsesRegex (m : Model) : Bool :=
  isNameable m && (usesRegex m.constraints || m.items.any (usesRegex ·.constraints) ||
    m.additionalProperties.any (usesRegex ·.constraints))

/-- The conditions on attributes. -/
def checkLines (attributes : List Model) : List String := attributes.flatMap attributeChecks

/-- Whether the conditions on attributes match a pattern. -/
def checksUseRegex (attributes : List Model) : Bool := attributes.any attributeUsesRegex

end KclModels.Kcl
