import KclModels.Model.Basic
import KclModels.Naming.Word
import KclModels.Polymorphism

/-!
# Frames

A frame is one place of the tree that is being built: where it is, the schema there, and what was
built of it so far. Frames below it start with its place and nothing built; what they come to
reaches the frame above only through `merge`.
-/

namespace KclModels

variable [Text.Transliteration]

/-- Where a frame is. -/
structure Place where
  required : Bool := false
  /-- Whether the schema has a name of its own. -/
  named : Bool := false
  virtual : Bool := false
  /-- Whether the frame is in a place of a tuple. -/
  tuple : Bool := false
  index : Nat := 0
  path : String := ""
  name : String := ""
  /-- The definition that is being generated. -/
  modelName : String := ""
  receiver : String := ""
  indexVar : String := ""
  keyVar : String := ""
  valueExpression : String := ""
  container : String := ""
deriving DecidableEq, Inhabited, Repr

/-- A place with its schema and what was built there. -/
structure Frame extends Place where
  schema : Schema := {}
  model : Model := {}
  /-- The definitions that were referred to, in order, with repetitions. -/
  dependencies : List String := []
  /-- The models that were taken out, by name. -/
  extras : List (String × Model) := []
deriving Inhabited

namespace Frame

/-- The frame of a definition. -/
def root (name : String) (schema : Schema) (container : String) : Frame where
  path := "\"" ++ name ++ "\""
  name := name
  modelName := name
  receiver := "m"
  indexVar := "i"
  valueExpression := "m"
  container := container
  named := true
  schema := schema

/-- The frame of a definition made for a schema in this frame. -/
def hoisted (f : Frame) (name : String) (schema : Schema) : Frame where
  modelName := if schema.reference.isNone then name else f.modelName
  path := f.path
  name := name
  receiver := f.receiver
  indexVar := "i"
  valueExpression := f.receiver
  container := f.container
  named := true
  schema := schema

/-- The same place with nothing built. -/
def blank (f : Frame) : Frame := { toPlace := f.toPlace, schema := f.schema }

/--
The place of a definition that stands for another: nothing is left of the schema but its texts.
-/
def aliasOf (f : Frame) : Frame :=
  { f.blank with
    named := true
    schema := {
      title := f.schema.title
      description := f.schema.description
      extensions := f.schema.extensions
      hints := f.schema.hints } }

/-- The branch of a composition. -/
def branch (f : Frame) (schema : Schema) (index : Nat) : Frame :=
  let number := "AO" ++ toString index
  { f.blank with
    schema, index
    name := if f.name = f.modelName then number else f.name ++ number
    named := false }

/-- A path with one more quoted name. -/
def joinPath (parent name : String) : String :=
  if parent.isEmpty then "\"" ++ name ++ "\"" else parent ++ ".\"" ++ name ++ "\""

/-- A property. -/
def property (f : Frame) (name : String) (schema : Schema) : Frame :=
  { f.blank with
    path := joinPath f.path name
    name
    valueExpression := f.valueExpression ++ "." ++ Naming.pascalize name
    required := f.schema.required.contains name || (schema.defaultValue.isSome && schema.readOnly)
    schema
    named := false }

/-- The values of a map. Each level of maps adds a `k` to the name of the key. -/
def mapValue (f : Frame) (schema : Schema) : Frame :=
  let keyVar := f.keyVar ++ "k"
  { f.blank with
    schema, keyVar
    path := f.path ++ "." ++ keyVar
    valueExpression := f.valueExpression ++ "[" ++ keyVar ++ "]"
    name := f.name ++ "Value"
    named := false
    required := false }

/-- Whether a schema refers to a polymorphic base. -/
def refersToBase (p : Polymorphism) (schema : Schema) : Bool := schema.reference.any p.isBase

/-- The elements of an array. Each level of arrays adds an `i` to the name of the index. -/
def element (f : Frame) (schema : Schema) (p : Polymorphism) : Frame :=
  let value := f.valueExpression ++ "[" ++ f.indexVar ++ "]"
  { f.blank with
    path := f.path ++ "." ++ f.indexVar
    indexVar := f.indexVar ++ "i"
    valueExpression :=
      if refersToBase p schema then value ++ "." ++ Naming.pascalize f.name ++ "()" else value
    required := true
    named := false
    schema }

/-- What an array becomes when its elements are bases. -/
def markElements (f : Frame) (schema : Schema) (p : Polymorphism) : Frame :=
  if refersToBase p schema then { f with model := { f.model with isBase := true } } else f

/-- A place of a tuple. -/
def tuplePlace (f : Frame) (schema : Schema) (index : Nat) : Frame :=
  { f.blank with
    path := f.path ++ "." ++ toString index
    valueExpression := f.valueExpression ++ ".p" ++ toString index
    required := true
    tuple := true
    named := false
    index, schema }

/-- The items past the places of a tuple. -/
def additionalItems (f : Frame) (schema : Schema) : Frame :=
  let name := f.name ++ " items"
  let offset := (f.schema.tupleItems?.getD []).length
  { f.blank with
    name
    path :=
      if 0 < offset then f.path ++ ".(" ++ f.indexVar ++ "+" ++ toString offset ++ ")"
      else f.path ++ "." ++ f.indexVar
    valueExpression :=
      f.valueExpression ++ "." ++ Naming.pascalize name ++ "[" ++ f.indexVar ++ "]"
    required := false
    named := false
    schema }

/--
Takes over what a frame below came to. That there are constraints and bases, what was taken out and
what is referred to always counts above; that it is required only if `liftsRequired`.
-/
def merge (f child : Frame) (liftsRequired : Bool) : Frame :=
  let constraints := { f.model.constraints with
    present := f.model.constraints.present || child.model.carriesConstraints }
  let required := f.model.required ||
    (liftsRequired && (child.model.required || child.model.additionalProperties.any (·.required)))
  { f with
    model := { f.model with
      constraints, required
      hasBase := f.model.hasBase || child.model.hasBase }
    dependencies := f.dependencies ++ child.dependencies
    extras := Assoc.mergeSorted f.extras child.extras }

/-- Takes over a frame of a definition that was made, with its model under its name. -/
def addExtra (f hoisted : Frame) : Frame :=
  let f := f.merge hoisted false
  { f with extras := Assoc.putSorted f.extras hoisted.name hoisted.model }

end Frame

end KclModels
