import KclModels.Fresh
import KclModels.Naming.Word
import KclModels.Schema.Basic

/-!
# Canonical definitions

Before generation every reference is made to name a definition. A reference that points into a
definition gets a definition of its own, a copy of the schema it points at; a reference that points
nowhere, or out of the document, is refused. So is a definition that is nothing but a reference back
to itself, directly or through others.
-/

namespace KclModels

variable [Text.Transliteration]

/-- What is wrong with a reference. -/
inductive ReferenceError
  | unresolved (reference : String)
  | cyclic (reference : String)
  | remote (reference : String)
deriving DecidableEq, Inhabited, Repr

def ReferenceError.message : ReferenceError → String
  | .unresolved r => "reference '" ++ r ++ "' does not resolve to a definition"
  | .cyclic r => "reference chain starting at '" ++ r ++ "' loops back on itself"
  | .remote r =>
    "remote reference '" ++ r ++ "' is not supported, only local '#/definitions/' references are"

namespace Canonical

/-- The tokens of a pointer that name a keyword and not a key of the document's choice. -/
def keywordTokens : List String :=
  ["properties", "items", "allOf", "additionalProperties", "additionalItems"]

/-- A place in a list, as a pointer writes it. -/
def index? (token : String) : Option Nat :=
  let digits := match token.toList with
    | '+' :: rest => rest
    | cs => cs
  match Scalar.natIn? 10 digits with
  | some i => if i < twoPow 64 then some i else none
  | none => none

/-- The schema that tokens lead to from a schema, keyword by keyword. -/
def follow (s : Schema) : List String → Option Schema
  | [] => some s
  | "items" :: rest =>
    match s.items, rest with
    | some (.single item), rest => follow item rest
    | some (.tuple items), i :: rest => do follow (← items[← index? i]?) rest
    | _, _ => none
  | "properties" :: name :: rest => do follow (← s.properties.lookup name) rest
  | "allOf" :: i :: rest => do follow (← s.allOf[← index? i]?) rest
  | "additionalProperties" :: rest => do follow (← s.additionalProperties.bind Extra.schema?) rest
  | "additionalItems" :: rest => do follow (← s.additionalItems.bind Extra.schema?) rest
  | _ => none

/-- The definitions that pointers were given so far. -/
structure Relocation where
  /-- The name of the definition made for a pointer. -/
  moved : List (String × String) := []
  /-- The names in use. -/
  taken : List String := []
  /-- The definitions that are still to be redirected, in the order they were made. -/
  pending : List (String × Schema) := []

/-- Redirecting either fails at a reference or goes on with what was relocated. -/
abbrev Redirect := StateT Relocation (Except ReferenceError)

/-- The name of the definition for what tokens below a definition lead to. -/
def relocatedName (owner : String) (path : List String) : String :=
  owner ++ String.join ((path.filter (!keywordTokens.contains ·)).map Naming.pascalize)

/-- Makes a definition for the schema that a pointer leads to. -/
def relocate (document : Definitions) (reference : String) : Redirect String := do
  match Reference.tokens reference with
  | "definitions" :: owner :: first :: path =>
    match (document.lookup owner).bind (follow · (first :: path)) with
    | none => throw (.unresolved reference)
    | some target =>
      let state ← get
      let base := relocatedName owner (first :: path)
      let name := freshName state.taken.contains state.taken.length base
      set { moved := (reference, name) :: state.moved
            taken := name :: state.taken
            pending := state.pending ++ [(name, target)] : Relocation }
      return Reference.toDefinition name
  | _ => throw (.unresolved reference)

/-- The reference that names a definition in place of any reference. -/
def redirectReference (document : Definitions) (reference : String) : Redirect String := do
  if !Reference.isLocal reference then throw (.remote reference)
  match Reference.name? reference with
  | some name => if Assoc.has document name then return reference else throw (.unresolved reference)
  | none =>
    match (← get).moved.lookup reference with
    | some name => return Reference.toDefinition name
    | none => relocate document reference

mutual

/-- Redirects every reference in a schema. -/
def redirect (document : Definitions) : Schema → Redirect Schema
  | ⟨keywords, properties, allOf, items, extraProperties, extraItems⟩ => do
    let reference ← match keywords.reference with
      | some r => some <$> redirectReference document r
      | none => pure none
    let properties ← redirectProperties document properties
    let allOf ← redirectList document allOf
    let items ← redirectItems document items
    let extraProperties ← redirectExtra document extraProperties
    let extraItems ← redirectExtra document extraItems
    return ⟨{ keywords with reference }, properties, allOf, items, extraProperties, extraItems⟩

def redirectProperties (document : Definitions) :
    List (String × Schema) → Redirect (List (String × Schema))
  | [] => return []
  | (name, s) :: rest => do
    let s ← redirect document s
    return (name, s) :: (← redirectProperties document rest)

def redirectList (document : Definitions) : List Schema → Redirect (List Schema)
  | [] => return []
  | s :: rest => do
    let s ← redirect document s
    return s :: (← redirectList document rest)

def redirectItems (document : Definitions) :
    Option (Items Schema) → Redirect (Option (Items Schema))
  | none => return none
  | some (.single s) => do return some (.single (← redirect document s))
  | some (.tuple schemas) => do return some (.tuple (← redirectList document schemas))

def redirectExtra (document : Definitions) :
    Option (Extra Schema) → Redirect (Option (Extra Schema))
  | some (.schema s) => do return some (.schema (← redirect document s))
  | extra => return extra

end

/-- Redirects definitions in their order. -/
def redirectAll (document : Definitions) (definitions : Definitions) : Redirect Definitions :=
  redirectProperties document definitions

/--
Redirects the relocated definitions in the order they were made. `rounds` bounds their count: each
belongs to a reference of the document, and a copy brings no new references.
-/
def redirectPending (document : Definitions) : (rounds : Nat) → Redirect Definitions
  | 0 => return []
  | rounds + 1 => do
    let state ← get
    match state.pending with
    | [] => return []
    | (name, s) :: rest =>
      set { state with pending := rest }
      let s ← redirect document s
      return (name, s) :: (← redirectPending document rounds)

/-- Whether a chain of definitions that are references comes back to one it went through. -/
def loops (definitions : Definitions) (visited : List String) (s : Schema) : (steps : Nat) → Bool
  | 0 => true
  | steps + 1 =>
    match s.referenceName with
    | none => false
    | some next =>
      if visited.contains next then true
      else
        match definitions.lookup next with
        | none => false
        | some target => loops definitions (next :: visited) target steps

/-- Refuses definitions in a loop made of references only, and those that lead into one. -/
def checkLoops (definitions : Definitions) : Except ReferenceError Unit :=
  match definitions.find? fun (name, s) => loops definitions [name] s (definitions.length + 1) with
  | some (name, _) => .error (.cyclic (Reference.toDefinition name))
  | none => .ok ()

end Canonical

/-- Definitions in which every reference names a definition and no definition loops on itself. -/
def canonicalize (definitions : Definitions) : Except ReferenceError Definitions := do
  let start : Canonical.Relocation := { taken := Assoc.keys definitions }
  let (redirected, state) ← (Canonical.redirectAll definitions definitions).run start
  let rounds := Schema.propertiesSize definitions
  let (relocated, _) ← (Canonical.redirectPending definitions rounds).run state
  let output := redirected ++ relocated
  Canonical.checkLoops output
  return output

end KclModels
