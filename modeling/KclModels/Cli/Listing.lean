import KclModels.Cli.Generate
import KclModels.Cli.Table

/-!
# The command `list definitions`

The definitions of a document as a table.
-/

namespace KclModels.Cli

variable [Text.Transliteration]

/-- The columns of a listing. -/
def listingColumns : List Column :=
  [{ title := "DEFINITION" }, { title := "KCL TYPE" }, { title := "CATEGORY" }, { title := "ROLE" },
    { title := "FIELDS", rightAligned := true }]

/-- The row of a definition. -/
def listingRow (s : Summary) : List String :=
  [s.name, if s.external then s.kclType ++ " (external)" else s.kclType, s.category.text,
    s.role.text, toString s.fields]

/-- The table of definitions. -/
def listing (summaries : List Summary) : Table where
  columns := listingColumns
  rows := summaries.map listingRow

/-- The width of a terminal that does not say it. -/
def terminalWidth : Nat := 80

/-- Prints the definitions of a document. -/
def Script.listDefinitions (input : String) (crd : Bool) (content : Except OpenError String) :
    Script Unit := do
  let document ← loadDocument input crd content
  let run ← Script.orFail RunError.chain (Run.prepare document {})
  let summaries ← Script.orFail RunError.chain run.summaries
  Script.emitAll (((listing summaries).lines (some terminalWidth)).map .print)

end KclModels.Cli
