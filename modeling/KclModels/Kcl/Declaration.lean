import KclModels.Kcl.Check
import KclModels.Kcl.Doc

/-!
# Declarations

A model is declared as an alias of a type or as a schema. A schema inherits from one branch of its
composition and declares the properties of the others itself.
-/

namespace KclModels.Kcl

/-- The models of a list whose names do not come before, neither in it nor among `seen`. -/
def firstOfEachName (seen : List String) : List Model → List Model
  | [] => []
  | m :: rest =>
    if seen.contains m.name then firstOfEachName seen rest
    else m :: firstOfEachName (m.name :: seen) rest

/-- The branches of a composition other than the parent. -/
def otherBranches (m : Model) (parent : Option Nat) : List Model :=
  (m.allOf.zipIdx.filter fun (_, i) => parent != some i).map Prod.fst

/--
The attributes that a schema declares for its properties: its own, then those of all branches but
the parent. Of several with one name the first counts.
-/
def ownAttributes (m : Model) (parent : Option Nat) : List Model :=
  firstOfEachName [] (m.properties ++ (otherBranches m parent).flatMap (·.properties))

/-- The attribute that holds the items past the places of a tuple. -/
def restAttribute? (m : Model) : Option Model :=
  if m.type.tuple && m.hasAdditionalItems then
    let items := m.additionalItems.getD {}
    some {
      name := "rest"
      declaredName := "rest"
      description := some "Items past the positional fields."
      position := m.properties.length
      type := { array := true, kclType := "[" ++ typeText items ++ "]" }
      items := some items }
  else none

/-- All attributes that a schema declares. -/
def attributes (m : Model) (parent : Option Nat) : List Model :=
  ownAttributes m parent ++ (restAttribute? m).toList

/-- The type of the attributes that a schema accepts beyond those it declares, if it accepts any. -/
def indexSignature? (m : Model) : Option String :=
  if m.isAdditionalProperties then
    some (match m.additionalProperties with
      | some value => typeText value
      | none => Format.anyType)
  else if m.additionalPropertiesDenied then
    if m.strictAdditionalProperties then none else some Format.anyType
  else if m.properties.isEmpty && m.allOf.isEmpty && !m.type.tuple then some Format.anyType
  else none

/-- The line that declares an attribute. -/
def attributeLine (m : Model) : String :=
  let value := match m.defaultValue with
    | some v => " = " ++ literal v
    | none => ""
  Naming.attributeName m.name ++ (if m.required then "" else "?") ++ ": " ++ attributeType m ++
    value

/-- The line that pins the discriminator of a subtype, unless an attribute declares it. -/
def discriminatorLine? (m : Model) (attributes : List Model) : Option String :=
  match m.discriminatorField, m.discriminatorValue with
  | some field, some value =>
    if m.isSubtype && !attributes.any (·.name == field) then
      some (Naming.attributeName field ++ ": str = " ++ quote value)
    else none
  | _, _ => none

/-- The first line of a schema. -/
def header (m : Model) (name : String) (parent : Option Nat) : String :=
  match parent.bind (m.allOf[·]?) with
  | some branch => "schema " ++ name ++ "(" ++ typeText branch ++ "):"
  | none => "schema " ++ name ++ ":"

/-- The conditions of a schema. -/
def checkBlock (attributes : List Model) : List Block :=
  let lines := checkLines attributes
  if lines.isEmpty then [] else [.line "", .line "check:", .indented (lines.map .line)]

/-- A schema. -/
def schemaBlocks (m : Model) (name : String) : List Block :=
  let parent := m.parentBranch
  let attributes := attributes m parent
  [.line (header m name parent),
    .indented (schemaDoc m name attributes ++ [.line ""] ++
      ((discriminatorLine? m attributes).toList.map .line) ++
      ((indexSignature? m).toList.map fun type => .line ("[...str]: " ++ type)) ++
      (attributes.map fun a => .line (attributeLine a)) ++ checkBlock attributes)]

/-- An alias of a type, after its text as a comment. -/
def aliasBlocks (m : Model) (name : String) : List Block :=
  (summary m).map (fun text => .line (Text.trimRight ("# " ++ text))) ++
    [.line ("type " ++ name ++ " = " ++ aliasTarget m)]

/-- The declaration of a model. -/
def declaration (m : Model) : List Block :=
  if isAlias m m.declaredName then aliasBlocks m m.declaredName else schemaBlocks m m.declaredName

/-- Whether the declaration of a model matches patterns. -/
def declarationUsesRegex (m : Model) : Bool :=
  !isAlias m m.declaredName && checksUseRegex (attributes m m.parentBranch)

end KclModels.Kcl
