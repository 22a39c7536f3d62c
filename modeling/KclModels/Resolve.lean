import KclModels.Model.TypeInfo
import KclModels.Naming.Identifier
import KclModels.Options
import KclModels.Registry

/-!
# The types of schemas

Which type a schema stands for. References are followed through the definitions; a definition that
is met again inside itself is known by its name. Each definition is entered at most once along a
chain of references, so the count of definitions bounds the depth.
-/

namespace KclModels

variable [Text.Transliteration]

/-- Why a schema has no type. -/
inductive TypeError
  | reference (e : ReferenceError)
  | unsupported (path : String) (types : List String) (format : Option String)
deriving DecidableEq, Inhabited, Repr

/-- The name and package of a definition. -/
structure DeclaredType where
  kclType : String := ""
  package : String := ""
  packageAlias : String := ""
  module : String := ""
deriving DecidableEq, Inhabited, Repr

/-- Puts the name and package of a definition in place of those of a type. -/
def DeclaredType.apply (d : DeclaredType) (t : TypeInfo) : TypeInfo :=
  { t with
    kclType := d.kclType, package := d.package, packageAlias := d.packageAlias, module := d.module }

/-- Where types are looked for: the definitions, the options, and what is being generated. -/
structure Resolver where
  registry : Registry
  options : Options
  /-- The definition that is being generated. -/
  modelName : String
  /-- The place that errors report. -/
  path : String

namespace Resolver

/-- The name and package of a type that exists already. -/
def existing (e : ExistingType) : DeclaredType :=
  match e.importPath with
  | some path =>
    let package := match Text.cutLast? '.' path with
      | some (before, _) => before
      | none => path
    { kclType := e.name, package
      packageAlias := Text.afterLast '.' package
      module := e.importAlias.getD (Text.afterLast '.' path) }
  | none => { kclType := e.name }

/-- The declared name and package of a definition, as it says itself or as its name implies. -/
def declared (r : Resolver) (name : String) (s : Schema) : DeclaredType :=
  match s.hints.existing with
  | some e => existing e
  | none =>
    let kclType := Naming.schemaName (s.nameOr name)
    if r.registry.isHoisted name || name.isEmpty then { kclType }
    else
      let package := r.options.packageOf name
      { kclType, package
        packageAlias := Text.afterLast '.' package
        module := Naming.fileStem (Naming.shortName name) }

/-- The type name of the definition that is being generated. -/
def modelTypeName (r : Resolver) : String :=
  match r.registry.get? r.modelName with
  | some s => (r.declared r.modelName s).kclType
  | none => Naming.schemaName r.modelName

def unsupported (r : Resolver) (s : Schema) : TypeError := .unsupported r.path s.types s.format

/-- The type that a format implies. -/
def byFormat? (s : Schema) : Option TypeInfo := do
  let format ← s.format
  let swaggerType := s.types.head?.getD "string"
  let kclType ← Format.ofFormat? swaggerType format
  return { primitive := true, kclType, swaggerType, swaggerFormat := format }

/-- The type of integers or strings. -/
def intOrString (s : Schema) : TypeInfo where
  primitive := true
  kclType := Format.intOrStringType
  swaggerType := s.types.head?.getD "string"
  swaggerFormat := s.format.getD ""

/--
The one type name of a schema: no type means objects, a string or integer is a type of its own.
-/
def typeName (r : Resolver) (s : Schema) : Except TypeError String :=
  match s.types with
  | [] => .ok "object"
  | [type] => .ok type
  | [a, b] =>
    if (a = "string" && b = "integer") || (a = "integer" && b = "string") then
      .ok Format.intOrStringFormat
    else .error (r.unsupported s)
  | _ => .error (r.unsupported s)

/-- The type of an array, given that of its elements. -/
def arrayOf (s : Schema) (anonymous : Bool) (element : TypeInfo) : TypeInfo where
  anonymous := anonymous
  array := true
  additionalItems := s.hasAdditionalItems
  swaggerType := "array"
  kclType := "[" ++ element.kclType ++ "]"
  element := some element

/-- The type of a tuple. -/
def tupleOf (s : Schema) (anonymous : Bool) : TypeInfo where
  anonymous := anonymous
  tuple := true
  additionalItems := s.hasAdditionalItems
  swaggerType := "array"

/-- The type of an object, before anything is known of its parts. -/
def objectOf (r : Resolver) (s : Schema) (anonymous : Bool) : TypeInfo :=
  let t : TypeInfo := {
    anonymous
    baseType := s.discriminator.isSome
    discriminated := s.discriminator.isSome
    swaggerType := "object" }
  if anonymous then t else (r.declared r.modelName s).apply t

/--
The type of an object with values of one type beyond its properties; without properties, a map.
-/
def withValues (t : TypeInfo) (hasProperties : Bool) (value : TypeInfo) : TypeInfo :=
  if hasProperties then { t with complex := true, element := some value }
  else
    { t with
      map := true
      kclType := "\x7bstr:" ++ value.kclType ++ "\x7d"
      package := ""
      packageAlias := ""
      module := ""
      element := some value }

/-- The type of an array, or of a tuple if there is no one type of its elements. -/
def sequenceOf (s : Schema) (anonymous : Bool) : Option TypeInfo → TypeInfo
  | some element => arrayOf s anonymous element
  | none => tupleOf s anonymous

/-- The type of a composition. -/
def composed (r : Resolver) (s : Schema) (anonymous : Bool) : TypeInfo :=
  let t := r.objectOf s anonymous
  { t with
    complex := true
    kclType := if anonymous then Naming.schemaName r.modelName else t.kclType }

/-- The type of an object, given that of the values beyond its properties if a schema says it. -/
def objectWith (r : Resolver) (s : Schema) (anonymous : Bool) : Option TypeInfo → TypeInfo
  | some value => withValues (r.objectOf s anonymous) (!s.properties.isEmpty) value
  | none =>
    let t := r.objectOf s anonymous
    if !s.properties.isEmpty then { t with complex := true }
    else if anonymous then { t with kclType := Format.anyType, map := true }
    else t

/-- The type for the name of a type without structure. -/
def scalarOf (r : Resolver) (s : Schema) (type : String) : Except TypeError TypeInfo :=
  if type = Format.intOrStringFormat then .ok (intOrString s)
  else
    match Format.ofType? type with
    | some kclType => .ok { primitive := true, kclType, swaggerType := type }
    | none => .error (r.unsupported s)

/-- What a type becomes for the schema that has it: all but primitive types may be absent. -/
def settle (required : Bool) (t : TypeInfo) : TypeInfo :=
  { t with nullable := !required && !t.primitive }

/--
How references are resolved: whether the type is to be anonymous and required, and the reference.
-/
abbrev Deref := (anonymous required : Bool) → String → Except TypeError TypeInfo

mutual

/-- The type of a schema, given how references are resolved. -/
def resolveWith (r : Resolver) (deref : Deref) (anonymous required : Bool) :
    Schema → Except TypeError TypeInfo
  | ⟨keywords, properties, allOf, items, extraProperties, extraItems⟩ =>
    let s : Schema := ⟨keywords, properties, allOf, items, extraProperties, extraItems⟩
    match keywords.reference with
    | some reference => deref anonymous required reference
    | none =>
      match byFormat? s with
      | some t => .ok t
      | none =>
        if keywords.hints.intOrString then .ok (intOrString s)
        else do
          let type ← r.typeName s
          if type = "array" then
            return settle required (sequenceOf s anonymous (← resolveItems r deref items))
          else if type = "object" then
            if !allOf.isEmpty then return settle required (r.composed s anonymous)
            return settle required
              (r.objectWith s anonymous (← resolveValue r deref extraProperties))
          else return settle required (← r.scalarOf s type)

/-- The type of the elements of an array; none for a tuple. -/
def resolveItems (r : Resolver) (deref : Deref) :
    Option (Items Schema) → Except TypeError (Option TypeInfo)
  | none => .ok (some .any)
  | some (.single item) => some <$> resolveWith r deref true false item
  | some (.tuple _) => .ok none

/-- The type of the values beyond the properties; none if no schema says it. -/
def resolveValue (r : Resolver) (deref : Deref) :
    Option (Extra Schema) → Except TypeError (Option TypeInfo)
  | some (.schema value) => some <$> resolveWith r deref value.reference.isNone false value
  | _ => .ok none

end

/-- The type of a definition met inside itself. -/
def recursive (known : DeclaredType) : TypeInfo :=
  known.apply { complex := true, swaggerType := "object" }

/-- The type of a reference, given that of what it refers to in the end. -/
def ofTarget (known : DeclaredType) (anonymous : Bool) (target : TypeInfo) : TypeInfo :=
  let t := known.apply target
  let t := { t with baseType := t.discriminated }
  if anonymous then t else { t with map := false, complex := true }

/-- The definition that a reference names, with the name and package that it is declared under. -/
def knownAs (r : Resolver) (reference : String) : Except TypeError DeclaredType := do
  let direct ← (r.registry.lookup reference).mapError .reference
  return r.declared ((Reference.name? reference).getD "") direct

/-- Resolves a reference that is met inside itself. -/
def meetAgain (r : Resolver) (reference : String) : Except TypeError TypeInfo :=
  recursive <$> r.knownAs reference

/-- Resolves a reference through what it refers to, given how the references there are resolved. -/
def enter (r : Resolver) (deref : Deref) : Deref := fun anonymous required reference => do
  let known ← r.knownAs reference
  let target ← (r.registry.resolve reference).mapError .reference
  let t ← resolveWith r deref false required target
  return ofTarget known anonymous t

/--
Resolves a reference inside the references of `visiting`. When all `unvisited` definitions are in
`visiting`, so is this one.
-/
def derefIn (r : Resolver) : (unvisited : Nat) → (visiting : List String) → Deref
  | 0, _, _, _, reference => r.meetAgain reference
  | unvisited + 1, visiting, anonymous, required, reference =>
    if visiting.contains reference then r.meetAgain reference
    else r.enter (derefIn r unvisited (reference :: visiting)) anonymous required reference

/-- The type of a schema. -/
def resolve (r : Resolver) (s : Schema) (anonymous required : Bool) : Except TypeError TypeInfo :=
  resolveWith r (r.derefIn r.registry.definitions.length []) anonymous required s

/-- The type of a schema that may be absent; without one, nothing is known. -/
def resolveOptional (r : Resolver) (s : Option Schema) (anonymous required : Bool) :
    Except TypeError TypeInfo :=
  match s with
  | some s => r.resolve s anonymous required
  | none => .ok .any

end Resolver

end KclModels
