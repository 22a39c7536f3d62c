import KclModels.Model.Basic
import KclModels.Warning

/-!
# Statistics

What a run counts.
-/

namespace KclModels

/-- What a run counts. -/
structure Statistics where
  definitions : Nat := 0
  extraSchemas : Nat := 0
  typeAliases : Nat := 0
  imports : Nat := 0
  bases : Nat := 0
  subtypes : Nat := 0
  /-- The groups of definitions that need each other. -/
  cycles : List (List String) := []
  warnings : List Warning := []
deriving DecidableEq, Inhabited, Repr

namespace Statistics

/-- Whether a model counts as an alias of a type. -/
def countsAsAlias (m : Model) : Bool := m.properties.isEmpty && m.allOf.isEmpty && !m.type.complex

/-- Counts a file. -/
def addFile (s : Statistics) (f : ModelFile) : Statistics :=
  { s with
    definitions := s.definitions + 1
    extraSchemas := s.extraSchemas + f.extras.length
    imports := s.imports + f.imports.length
    typeAliases := s.typeAliases + (countsAsAlias f.model).toNat
    bases := s.bases + f.model.isBase.toNat
    subtypes := s.subtypes + f.model.isSubtype.toNat }

def addCycle (s : Statistics) (cycle : List String) : Statistics :=
  { s with cycles := s.cycles ++ [cycle] }

/-- Adds a warning that is not there yet; a schema that is built again may raise one again. -/
def addWarning (s : Statistics) (w : Warning) : Statistics :=
  if s.warnings.contains w then s else { s with warnings := s.warnings ++ [w] }

def addWarnings (s : Statistics) (ws : List Warning) : Statistics := ws.foldl addWarning s

/-- The count of all schemas. -/
def total (s : Statistics) : Nat := s.definitions + s.extraSchemas

end Statistics

end KclModels
