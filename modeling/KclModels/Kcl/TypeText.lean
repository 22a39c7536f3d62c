import KclModels.Kcl.Literal
import KclModels.Model.Basic

/-!
# The text of types

What is written for the type of an attribute, and which models are written as an alias of a type.
-/

namespace KclModels.Kcl

/-- Whether a type is one of the built-in types of single values. -/
def isScalar (kclType : String) : Bool :=
  ["str", "int", "float", "bool", Format.intOrStringType].contains kclType

/-- The type of a model; `any` if nothing is known of it. -/
def typeText (m : Model) : String :=
  if m.type.kclType.isEmpty then Format.anyType else m.type.kclType

/-- The text that a read-only attribute is pinned to. -/
def pinned? (m : Model) : Option String :=
  if m.readOnly then m.defaultValue.bind Value.asString? else none

/--
The type of an attribute: the text it is pinned to, else the choice between the values of an enum of
scalars, else the type of the model.
-/
def attributeType (m : Model) : String :=
  match pinned? m with
  | some text => quote text
  | none =>
    if !m.constraints.enumValues.isEmpty && isScalar m.type.kclType then
      union m.constraints.enumValues
    else if m.type.array && !m.itemsEnum.isEmpty && m.items.any (isScalar ·.type.kclType) then
      "[" ++ union m.itemsEnum ++ "]"
    else typeText m

/-- What an alias stands for. -/
def aliasTarget (m : Model) : String :=
  if !m.constraints.enumValues.isEmpty && isScalar m.type.kclType then
    union m.constraints.enumValues
  else attributeType m

/-- Whether a model is declared as an alias of a type and not as a schema. -/
def isAlias (m : Model) (declaredName : String) : Bool :=
  m.properties.isEmpty && m.allOf.isEmpty && !m.isAdditionalProperties && !m.type.tuple &&
    !m.type.kclType.isEmpty && m.type.kclType != declaredName

end KclModels.Kcl
