import KclModels.Assoc
import KclModels.Naming.Identifier
import KclModels.Text.Blank
import KclModels.Text.Cut

/-!
# Options of a run

What can be chosen for a run, and the package that a definition goes to.
-/

namespace KclModels

/-- What can be chosen for a run. -/
structure Options where
  /-- Keep properties, defaults and examples in document order instead of sorting by name. -/
  keepOrder : Bool := true
  /-- Render objects that allow no additional properties as closed schemas. -/
  strictAdditionalProperties : Bool := false
  /-- The root package of all generated definitions. -/
  modelPackage : String := "models"
  /-- The package path for a namespace of definitions, sorted by namespace. -/
  packageMap : List (String × String) := []
  /-- The definitions to generate; none means all. -/
  names : List String := []
deriving DecidableEq, Inhabited, Repr

namespace Options

/-- The model package that is used when none is given. -/
def defaultPackage : String := "models"

/-- The package of a definition: the model package joined with the mapped namespace. -/
def packageOf (o : Options) (definition : String) : String :=
  let space := Naming.namespaceOf definition
  let mapped := (o.packageMap.lookup space).getD space
  if o.modelPackage.isEmpty then mapped
  else if mapped.isEmpty then o.modelPackage
  else o.modelPackage ++ "." ++ mapped

end Options

/-! ## Package mappings -/

/-- A text that is no mapping of a namespace to a package. -/
structure BadMapping where
  entry : String
deriving DecidableEq, Repr

def BadMapping.message (e : BadMapping) : String :=
  "Invalid package format '" ++ e.entry ++
    "': expected NS=PKG (e.g., io.k8s.api.core.v1=k8s.api.core.v1)"

/-- Reads `NS=PKG`, which both have to be there. Blanks around them do not belong to them. -/
def readMapping (entry : String) : Except BadMapping (String × String) :=
  match Text.cutFirst? '=' entry with
  | some (space, package) =>
    if space.isEmpty || package.isEmpty then .error ⟨entry⟩
    else .ok (Text.trim space, Text.trim package)
  | none => .error ⟨entry⟩

/-- Reads mappings as a map that is sorted by namespace; of a repeated namespace the last counts. -/
def readMappings (entries : List String) : Except BadMapping (List (String × String)) :=
  (entries.mapM readMapping).map Assoc.sortedOfPairs

end KclModels
