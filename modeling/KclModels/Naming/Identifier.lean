import KclModels.Naming.Word

/-!
# Identifiers

How the names of a document become names that the generated language accepts: schema names,
attribute names, package names and import aliases. Attribute names are never changed beyond
recognition, so two properties never share one.
-/

namespace KclModels.Naming

variable [Text.Transliteration]

/-- Keywords and built-in names, which cannot be used bare as identifiers. -/
def reservedWords : List String :=
  ["import", "as", "rule", "schema", "mixin", "protocol", "relaxed", "check", "for", "assert", "if",
    "elif", "else", "or", "and", "not", "in", "is", "final", "lambda", "all", "filter", "map",
    "type"]

/-- Whether a name is a reserved word. -/
def isReserved (name : String) : Bool := reservedWords.contains name

/-- Whether a text is a letter or underscore, then letters, digits and underscores. -/
def isIdentifier (name : String) : Bool :=
  match name.toList with
  | [] => false
  | c :: cs => (c.isAlpha || c = '_') && cs.all isIdentChar

/-- The part of `group.version.Kind` before the last dot, empty if there is none. -/
def namespaceOf (name : String) : String :=
  match Text.cutLast? '.' name with
  | some (before, _) => before
  | none => ""

/-- The part of `group.version.Kind` after the last dot. -/
def shortName (name : String) : String := Text.afterLast '.' name

/-- Whether the short name holds a character that no schema name may have. -/
def needsMangling (name : String) : Bool := (shortName name).toList.contains '-'

/-- A name as it is written where a bare identifier is expected: reserved words take a `$`. -/
def escapeReserved (name : String) : String := if isReserved name then "$" ++ name else name

/-- The schema name of a definition: its short name with `_` for `-`, escaped if reserved. -/
def schemaName (name : String) : String :=
  escapeReserved (Text.replaceChar '-' ['_'] (shortName name))

/-- The body of a quoted attribute name: backslashes and quotes are escaped. -/
def quoteAttribute (name : String) : List Char :=
  name.toList.flatMap fun c =>
    if c = '\\' then ['\\', '\\'] else if c = '"' then ['\\', '"'] else [c]

/-- The attribute name of a property; one that is no identifier is quoted. -/
def attributeName (name : String) : String :=
  if isIdentifier name then escapeReserved name
  else String.ofList ('"' :: quoteAttribute name ++ ['"'])

/-- Puts an underscore in place of every run of characters that no identifier has. -/
def cleanIdentifier (name : String) : String :=
  String.ofList (Text.replaceOthers isIdentChar '_' (Text.toAscii name).toList)

/-- An identifier from any text; one that would start with a digit takes an underscore. -/
def sanitize (name : String) : String :=
  let cleaned := cleanIdentifier name
  match cleaned.toList with
  | c :: _ => if c.isDigit then "_" ++ cleaned else cleaned
  | [] => cleaned

/-- A text without the underscores around it. -/
def trimUnderscores (s : String) : String :=
  let inner := s.toList.dropWhile (· = '_')
  String.ofList (inner.reverse.dropWhile (· = '_')).reverse

/--
The package name of a path: its last segment in `snake_case`, or `fallback` if nothing is left.
-/
def packageName (path fallback : String) : String :=
  let last := Text.afterLast '/' (Text.afterLast '.' path)
  let cleaned := trimUnderscores (snakeCase (cleanIdentifier last))
  if cleaned.isEmpty then fallback else cleaned

end KclModels.Naming
