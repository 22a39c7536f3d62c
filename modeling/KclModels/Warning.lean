/-!
# Warnings

Findings that do not stop a run.
-/

namespace KclModels

/-- A finding that does not stop a run. -/
inductive Warning
  /-- A composition has branches of arrays and of other types. -/
  | arrayConflict (container : String)
  | nullEnumValue (path : String)
  | aliasMangled (package aliasName : String)
  | nameMangled (name mangled : String)
deriving DecidableEq, Inhabited, Repr

namespace Warning

/-- The text of a warning. -/
def message : Warning → String
  | .arrayConflict container =>
    "'" ++ container ++
      "': allOf mixes array and non-array branches; the result may not be satisfiable"
  | .nullEnumValue path => path ++ ": null enum value dropped"
  | .aliasMangled package aliasName =>
    "import alias for package '" ++ package ++ "' mangled to '" ++ aliasName ++ "'"
  | .nameMangled name mangled =>
    "model name '" ++ name ++ "' is not a valid KCL identifier and was mangled to '" ++ mangled ++
      "'"

/-- Whether the models may refuse data that the document accepts. -/
def isLossy : Warning → Bool
  | .arrayConflict _ | .nullEnumValue _ => true
  | .aliasMangled _ _ | .nameMangled _ _ => false

end Warning

end KclModels
