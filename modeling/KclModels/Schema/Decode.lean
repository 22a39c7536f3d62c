import KclModels.Schema.Basic

/-!
# Decoding schemas

A schema is read out of a mapping. Members that are no keywords are read as values; those that begin
with `x-` are kept as extensions and the rest has no effect. The order of the members does not
matter to the result, only to which problem of several is found first.
-/

namespace KclModels.Schema

/-- The keywords that hold schemas. -/
def nestingKeywords : List String :=
  ["properties", "allOf", "items", "additionalProperties", "additionalItems"]

/-- Reads a text or a list of texts. -/
def readTypes (n : Node) : Except Fault (List String) := do
  let _ ← n.value .forms
  match n with
  | .arr _ _ =>
    match n.list .forms (Node.string .forms) with
    | .ok types => return types
    | .error _ => throw (.here (.noForm "OneOrMany"))
  | n =>
    match n.string .forms with
    | .ok type => return [type]
    | .error _ => throw (.here (.noForm "OneOrMany"))

/-- Reads a keyword that holds no schemas, and says what it sets; none for other names. -/
def plainKeyword (how : Reading) (name : String) (n : Node) :
    Option (Except Fault (Schema → Schema)) :=
  let text := n.option how (Node.string how)
  let number := n.option how (Node.double how)
  let count := n.option how (Node.nat how)
  let flag := n.bool how
  match name with
  | "$ref" => some (text.map fun v s => { s with reference := v })
  | "type" => some ((readTypes n).map fun v s => { s with types := v })
  | "format" => some (text.map fun v s => { s with format := v.filter (!·.isEmpty) })
  | "title" => some (text.map fun v s => { s with title := v })
  | "description" => some (text.map fun v s => { s with description := v })
  | "default" => some ((n.option how (Node.value how)).map fun v s => { s with defaultValue := v })
  | "example" => some ((n.option how (Node.value how)).map fun v s => { s with exampleValue := v })
  | "discriminator" => some (text.map fun v s => { s with discriminator := v.filter (!·.isEmpty) })
  | "readOnly" => some (flag.map fun v s => { s with readOnly := v })
  | "required" => some ((n.list how (Node.string how)).map fun v s => { s with required := v })
  | "maximum" => some (number.map fun v s => { s with maximum := v })
  | "exclusiveMaximum" => some (flag.map fun v s => { s with exclusiveMaximum := v })
  | "minimum" => some (number.map fun v s => { s with minimum := v })
  | "exclusiveMinimum" => some (flag.map fun v s => { s with exclusiveMinimum := v })
  | "multipleOf" => some (number.map fun v s => { s with multipleOf := v })
  | "maxLength" => some (count.map fun v s => { s with maxLength := v })
  | "minLength" => some (count.map fun v s => { s with minLength := v })
  | "pattern" => some (text.map fun v s => { s with pattern := v.filter (!·.isEmpty) })
  | "maxItems" => some (count.map fun v s => { s with maxItems := v })
  | "minItems" => some (count.map fun v s => { s with minItems := v })
  | "uniqueItems" => some (flag.map fun v s => { s with uniqueItems := v })
  | "enum" => some ((n.list how (Node.value how)).map fun v s => { s with enumValues := v })
  | _ => none

/-- What is read of a schema so far. -/
structure Draft where
  schema : Schema := {}
  /-- The keywords that were read. -/
  seen : List String := []
  /-- The other members, sorted by name. -/
  others : List (String × Value) := []

/-- The schema of a draft whose members are all read: the extensions are decoded last. -/
def Draft.finish (d : Draft) (closed : Bool) : Except Fault Schema := do
  if !closed then throw .malformed
  let extensions := d.others.filter fun (name, _) => Text.begins "x-" name
  match Hints.ofExtensions extensions with
  | .ok hints => return { d.schema with extensions, hints }
  | .error e => throw (.here (.badExtension e))

/-- Takes what was read of a keyword; a keyword is read once. -/
def Draft.set (d : Draft) (name : String) (f : Schema → Schema) : Draft :=
  { d with schema := f d.schema, seen := name :: d.seen }

/-- Whether a name is a keyword. -/
def isKeyword (name : String) : Bool :=
  nestingKeywords.contains name || (plainKeyword .value name .broken).isSome

mutual

/-- Reads a schema. -/
def decode (how : Reading) : Node → Except Fault Schema
  | .obj members closed => do (← decodeMembers how {} members).finish closed
  | .tagged n => if how = .forms then .error .malformed else decode how n
  | .scalar s =>
    if s.isEmptyCollection && how != .forms then .ok {}
    else .error ((Node.scalar s).unexpected "struct RawSchema")
  | n => .error (n.unexpected "struct RawSchema")

/-- Reads the members of a schema in document order. -/
def decodeMembers (how : Reading) (d : Draft) : List (Node × Node) → Except Fault Draft
  | [] => .ok d
  | (key, n) :: rest => do
    let name ← key.string how
    if isKeyword name then
      if d.seen.contains name then throw (.here (.duplicateField name))
      let f ← within (.key name) (decodeKeyword how name n)
      decodeMembers how (d.set name f) rest
    else
      let v ← n.value .forms
      decodeMembers how { d with others := Assoc.putSorted d.others name v } rest

/-- Reads one keyword and says what it sets. -/
def decodeKeyword (how : Reading) (name : String) : Node → Except Fault (Schema → Schema)
  | .arr items closed =>
    match plainKeyword how name (.arr items closed) with
    | some read => read
    | none =>
      match name with
      | "allOf" => do
        let schemas ← decodeList how 0 items
        Node.finish closed fun s => { s with allOf := schemas }
      | "items" => do
        let _ ← (Node.arr items closed).value .forms
        match decodeList .forms 0 items with
        | .ok schemas => return fun s => { s with items := some (.tuple schemas) }
        | .error _ => throw (.here (.noForm "SchemaItems"))
      | "properties" => .error ((Node.arr items closed).unexpected "a map")
      | _ => do
        let _ ← (Node.arr items closed).value .forms
        throw (.here (.noForm "SchemaOrBool"))
  | .obj members closed =>
    match plainKeyword how name (.obj members closed) with
    | some read => read
    | none =>
      match name with
      | "allOf" => .error ((Node.obj members closed).unexpected "a sequence")
      | "properties" => do
        let properties ← decodeProperties how [] members
        Node.finish closed fun s => { s with properties }
      | "items" => do
        let _ ← (Node.obj members closed).value .forms
        match decodeMembers .forms {} members >>= (Draft.finish · closed) with
        | .ok schema => return fun s => { s with items := some (.single schema) }
        | .error _ => throw (.here (.noForm "SchemaItems"))
      | _ => do
        let _ ← (Node.obj members closed).value .forms
        match decodeMembers .forms {} members >>= (Draft.finish · closed) with
        | .ok schema =>
          if name = "additionalProperties" then
            return fun s => { s with additionalProperties := some (.schema schema) }
          else return fun s => { s with additionalItems := some (.schema schema) }
        | .error _ => throw (.here (.noForm "SchemaOrBool"))
  | .tagged n =>
    match plainKeyword how name (.tagged n) with
    | some read => read
    | none =>
      if how = .forms || !(name = "allOf" || name = "properties") then .error .malformed
      else decodeKeyword how name n
  | n =>
    match plainKeyword how name n with
    | some read => read
    | none =>
      match name with
      | "allOf" => do
        let _ ← n.items how
        return fun s => { s with allOf := [] }
      | "properties" => do
        let _ ← n.fields how "a map"
        return fun s => { s with properties := [] }
      | "items" => do
        match ← n.option how (Node.value .forms) with
        | none => return fun s => { s with items := none }
        | some _ => throw (.here (.noForm "SchemaItems"))
      | _ => do
        match ← n.option how (Node.value .forms) with
        | none =>
          if name = "additionalProperties" then return fun s => { s with additionalProperties := none }
          else return fun s => { s with additionalItems := none }
        | some (.bool allowed) =>
          if name = "additionalProperties" then
            return fun s => { s with additionalProperties := some (.flag allowed) }
          else return fun s => { s with additionalItems := some (.flag allowed) }
        | some _ => throw (.here (.noForm "SchemaOrBool"))

/-- Reads named schemas: of a repeated name the last schema, in the place of the first. -/
def decodeProperties (how : Reading) (acc : List (String × Schema)) :
    List (Node × Node) → Except Fault (List (String × Schema))
  | [] => .ok acc
  | (key, n) :: rest => do
    let name ← key.string how
    let schema ← within (.key name) (decode how n)
    decodeProperties how (Assoc.put acc name schema) rest

/-- Reads a list of schemas whose first has the place `i`. -/
def decodeList (how : Reading) (i : Nat) : List Node → Except Fault (List Schema)
  | [] => .ok []
  | n :: rest => do
    let schema ← within (.index i) (decode how n)
    return schema :: (← decodeList how (i + 1) rest)

end

/-- Reads the named schemas of a document or schema. -/
def decodeMap (how : Reading) (n : Node) : Except Fault Definitions := do
  let (members, closed) ← n.fields how "a map"
  let named ← decodeProperties how [] members
  Node.finish closed named

/-- The schema that a value describes. -/
def ofValue (v : Value) : Except Fault Schema := decode .value (Node.ofValue v)

end KclModels.Schema
