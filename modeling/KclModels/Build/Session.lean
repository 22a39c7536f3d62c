import KclModels.Build.Frame
import KclModels.Resolve
import KclModels.Shape
import KclModels.Text.Escaped
import KclModels.Warning

/-!
# Build sessions

What the building of one definition reads and changes: the definitions, which grow as schemas
without a name get one, and the warnings. A build that fails leaves what was made so far.
-/

namespace KclModels

variable [Text.Transliteration]

/-- Why a definition cannot be generated. -/
inductive GenerationError
  | type (e : TypeError)
  | mixedItems (path : String)
  | complexEnumValue (path : String)
  | unknownDefinition (name : String)
  /-- The schema was taken apart further than its size allows. -/
  | endless
deriving DecidableEq, Inhabited, Repr

/-- The text of the error. -/
def GenerationError.message : GenerationError → String
  | .type (.reference e) => e.message
  | .type (.unsupported path types format) =>
    "unsupported type list " ++ Text.escapedList types ++
      " (format " ++ Text.escapedOption format ++ ") at '" ++ path ++ "'"
  | .mixedItems path => "single schema '" ++ path ++ "' can't have additional items"
  | .complexEnumValue path =>
    "enum values in '" ++ path ++ "' contain a complex value which has no KCL literal form"
  | .unknownDefinition name => "definition '" ++ name ++ "' does not exist"
  | .endless => "schema cannot be taken apart"

/-- What does not change while a definition is built. -/
structure Setting where
  polymorphism : Polymorphism := {}
  options : Options := {}
deriving Inhabited

/-- What changes while a definition is built. -/
structure Session where
  registry : Registry := {}
  warnings : List Warning := []
deriving Inhabited

/-- A step of building. -/
abbrev Build := ExceptT GenerationError (StateM Session)

namespace Build

/-- The definitions as they are now. -/
def registry : Build Registry := return (← get).registry

def warnAll (ws : List Warning) : Build Unit :=
  modify fun s => { s with warnings := s.warnings ++ ws }

def warn (w : Warning) : Build Unit := warnAll [w]

/-- The result of something that may fail for a type. -/
def ofType {α : Type} (r : Except TypeError α) : Build α :=
  match r with
  | .ok a => pure a
  | .error e => throw (.type e)

/-- The result of something that may fail for a reference. -/
def ofReference {α : Type} (r : Except ReferenceError α) : Build α :=
  match r with
  | .ok a => pure a
  | .error e => throw (.type (.reference e))

/-- Where the types of a frame are looked for. -/
def resolver (setting : Setting) (f : Frame) : Build Resolver := do
  return {
    registry := ← registry
    options := setting.options
    modelName := f.modelName
    path := f.path }

/-- The type of a schema in a frame. -/
def resolve (setting : Setting) (f : Frame) (s : Schema) (anonymous required : Bool) :
    Build TypeInfo := do
  ofType ((← resolver setting f).resolve s anonymous required)

/-- The name that a schema found in a frame asks for. -/
def hoistBase (f : Frame) (base : String) : String :=
  let name := Naming.pascalize base
  if f.modelName = f.name then name else Naming.pascalize (f.modelName ++ " " ++ name)

/-- Makes a definition for a schema found in a frame, and gives the frame of the definition. -/
def hoist (f : Frame) (base : String) (s : Schema) : Build Frame := do
  let session ← get
  let (name, registry) := session.registry.hoist (hoistBase f base) s
  set { session with registry }
  return f.hoisted name s

end Build

end KclModels
