/-!
# Types and formats

The type and format names of a schema and the types of the generated language they stand for.
-/

namespace KclModels.Format

def anyType : String := "any"

/-- The type of a value that may be an integer or a string. -/
def intOrStringType : String := "int | str"

/-- The format of a value that may be an integer or a string. -/
def intOrStringFormat : String := "intorstring"

/-- Formats of strings that are opaque, so that checks of length and pattern have no meaning. -/
def opaqueFormats : List String := ["date", "datetime", "uuid", "bsonobjectid", "base64", "duration"]

def stringFormats : List String :=
  ["date", "datetime", "time", "duration", "uuid", "byte", "binary", "password", "email", "hostname",
    "ipv4", "ipv6", "uri", "bsonobjectid", "base64"]

def integerFormats : List String :=
  ["int", "int8", "int16", "int32", "int64", "uint", "uint8", "uint16", "uint32", "uint64"]

/-- A format name as it is looked up: without dashes, in lowercase. -/
def normalize (format : String) : String :=
  String.ofList ((format.toList.filter (· ≠ '-')).map Char.toLower)

/-- The type for a plain type name. -/
def ofType? (type : String) : Option String :=
  match type with
  | "string" => some "str"
  | "boolean" => some "bool"
  | "integer" => some "int"
  | "number" => some "float"
  | "intorstring" => some intOrStringType
  | _ => none

/--
The type for a type name with a format that has a meaning for it. A format that is itself the name
of a type, such as `int-or-string`, stands for that type whatever the type name says.
-/
def ofFormat? (type format : String) : Option String :=
  let format := normalize format
  if type = "number" && (format = "float" || format = "double") then some "float"
  else if (type = "number" || type = "integer") && integerFormats.contains format then some "int"
  else if type = "string" && stringFormats.contains format then some "str"
  else ofType? format

/-- Whether checks of length and pattern are dropped for a format. -/
def isOpaque (format : String) : Bool := opaqueFormats.contains (normalize format)

end KclModels.Format
