import KclModels.Kcl.Layout
import KclModels.Kcl.TypeText
import KclModels.Naming.Identifier
import KclModels.Text.Blank

/-!
# Documentation

The documentation of a schema: its own text, and a line with its text for each attribute.
-/

namespace KclModels.Kcl

/-- Writes three quotes, which would end the documentation, as three apostrophes. -/
def softenQuotes : List Char → List Char
  | '"' :: '"' :: '"' :: cs => '\'' :: '\'' :: '\'' :: softenQuotes cs
  | c :: cs => c :: softenQuotes cs
  | [] => []

/-- A line of documentation without blanks at its end. -/
def docLine (line : String) : String := String.ofList (softenQuotes (Text.trimRight line).toList)

/-- The lines of the text of a model: its description, or its title if it has none. -/
def summary (m : Model) : List String :=
  match m.description.or m.title with
  | some text => (Text.lines (Text.trim text)).map docLine
  | none => []

/-- The line for an attribute: name, type, default and how it may be used. -/
def attributeSummary (m : Model) : String :=
  let name := Naming.attributeName m.name ++ " : " ++ attributeType m
  let fallback := m.defaultValue.toList.map fun v => "default is " ++ literal v
  let readOnly := if m.readOnly then ["readOnly"] else []
  let use := if m.required then "required" else "optional"
  ", ".intercalate ([name] ++ fallback ++ readOnly ++ [use])

/-- The documentation of an attribute. -/
def attributeDoc (m : Model) : List Block :=
  let text := summary m
  .line (attributeSummary m) ::
    (if text.isEmpty then [] else [.indented (text.map .line)])

/-- What stands between the quotes of the documentation of a schema. -/
def docBody (m : Model) (name : String) (attributes : List Model) : List Block :=
  let text := summary m
  (if text.isEmpty then [.line name] else text.map .line) ++
    (if attributes.isEmpty then []
      else [.line "", .line "Attributes", .line "----------"] ++ attributes.flatMap attributeDoc)

/-- The documentation of a schema. -/
def schemaDoc (m : Model) (name : String) (attributes : List Model) : List Block :=
  [.line "r\"\"\""] ++ docBody m name attributes ++ [.line "\"\"\""]

end KclModels.Kcl
