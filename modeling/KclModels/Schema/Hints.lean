import KclModels.Document.Decode

/-!
# Hints of the vendor extensions

What the extensions of a schema that this library knows say, decoded once when the schema is read.
-/

namespace KclModels

/-- A type that exists already and stands in place of a generated one. -/
structure ExistingType where
  name : String := ""
  importPath : Option String := none
  importAlias : Option String := none
deriving DecidableEq, Inhabited, Repr

/-- What the extensions of a schema say. -/
structure Hints where
  kclName : Option String := none
  discriminatorValue : Option String := none
  order : Option Double := none
  omitEmpty : Option Bool := none
  intOrString : Bool := false
  existing : Option ExistingType := none
deriving DecidableEq, Inhabited, Repr

namespace Hints

def kclNameKey : String := "x-kcl-name"
def kclTypeKey : String := "x-kcl-type"
def discriminatorValueKey : String := "x-schema"
def orderKey : String := "x-order"
def omitEmptyKey : String := "x-omitempty"
def intOrStringKey : String := "x-kubernetes-int-or-string"

/-- Where an existing type is imported from: a package path and perhaps an alias. -/
structure ImportSource where
  package : String := ""
  alias_ : Option String := none

/-- The fields of the import of an existing type. -/
def importSlots : List (Node.Slot ImportSource) :=
  [{ name := "package", required := true
     read := fun n => (n.string .value).map fun p s => { s with package := p } },
   { name := "alias"
     read := fun n => (n.option .value (Node.string .value)).map fun a s => { s with alias_ := a } }]

/-- The fields of an existing type. -/
def existingSlots : List (Node.Slot ExistingType) :=
  [{ name := "type", required := true
     read := fun n => (n.string .value).map fun t e => { e with name := t } },
   { name := "import"
     read := fun n =>
      (n.option .value (Node.record .value "KclImportExtension" importSlots {})).map fun source e =>
        { e with importPath := source.map (·.package), importAlias := source.bind (·.alias_) } }]

/-- Reads the existing type that stands for a schema. -/
def readExisting (v : Value) : Except ExtensionError (Option ExistingType) :=
  match v with
  | .null => .ok none
  | v =>
    match Node.record .value "KclTypeExtension" existingSlots {} (Node.ofValue v) with
    | .ok e => .ok (some e)
    | .error (.misfit _ why) => .error ⟨kclTypeKey, why.message⟩
    | .error .malformed => .error ⟨kclTypeKey, ""⟩

/-- Reads the order of a property: a number, or a text that is one. -/
def readOrder (v : Value) : Except ExtensionError (Option Double) :=
  match v with
  | .num n => .ok (some n.toDouble)
  | .str s =>
    match Double.read s with
    | .ok x => .ok (some x)
    | .error e => .error ⟨orderKey, e.message⟩
  | v => .error ⟨orderKey, "expected a number, found " ++ v.text⟩

/-- An extension that holds a text; an empty one counts as absent. -/
def text? (extensions : List (String × Value)) (key : String) : Option String :=
  match (extensions.lookup key).bind Value.asString? with
  | some s => if s.isEmpty then none else some s
  | none => none

/-- An extension that holds a truth value. -/
def flag? (extensions : List (String × Value)) (key : String) : Option Bool :=
  (extensions.lookup key).bind Value.asBool?

/-- Reads the hints; the existing type is read before the order. -/
def ofExtensions (extensions : List (String × Value)) : Except ExtensionError Hints := do
  let existing ← match extensions.lookup kclTypeKey with
    | some v => readExisting v
    | none => .ok none
  let order ← match extensions.lookup orderKey with
    | some v => readOrder v
    | none => .ok none
  return {
    kclName := text? extensions kclNameKey
    discriminatorValue := text? extensions discriminatorValueKey
    order := order
    omitEmpty := flag? extensions omitEmptyKey
    intOrString := (flag? extensions intOrStringKey).getD false
    existing := existing }

end Hints

end KclModels
