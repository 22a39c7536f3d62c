import KclModels.Naming.Identifier
import KclModels.Schema.Basic

/-!
# Bases and subtypes

A definition with a discriminator is a polymorphic base, and a definition that composes a base
through `allOf` is a subtype of it. Both are kept by their references. The definitions are visited
by name, so the order of the document has no influence.
-/

namespace KclModels

/-- A definition that composes a base. -/
structure Subtype where
  fieldName : String := ""
  fieldValue : String := ""
  kclType : String := ""
  jsonName : String := ""
  reference : String := ""
  parentReference : String := ""
deriving DecidableEq, Inhabited, Repr

/-- A definition with a discriminator. -/
structure Base where
  fieldName : String := ""
  kclType : String := ""
  jsonName : String := ""
  children : List Subtype := []
deriving DecidableEq, Inhabited, Repr

/-- The bases and subtypes of a document, each sorted by reference. -/
structure Polymorphism where
  bases : List (String × Base) := []
  subtypes : List (String × Subtype) := []
deriving DecidableEq, Inhabited, Repr

namespace Polymorphism

/-- The type name of a definition as it stands in the document. -/
def typeName (name : String) (s : Schema) : String := Naming.schemaName (s.nameOr name)

/-- The definitions in the order of their names. -/
def byName (definitions : Definitions) : Definitions :=
  sortBy (fun a b => decide (a.1 ≤ b.1)) definitions

/-- The base that a definition is, if it has a discriminator. -/
def base? (name : String) (s : Schema) : Option Base :=
  s.discriminator.map fun field =>
    { fieldName := field, kclType := typeName name s, jsonName := name }

/-- The subtype that a definition is through a branch with a reference to a base. -/
def subtypeOf (name : String) (s : Schema) (parentReference : String) (parent : Base) : Subtype where
  fieldName := parent.fieldName
  fieldValue := s.hints.discriminatorValue.getD name
  kclType := typeName name s
  jsonName := name
  reference := Reference.toDefinition name
  parentReference := parentReference

/-- Registers a definition with the base that one of its branches refers to, if it does. -/
def register (name : String) (s : Schema) (p : Polymorphism) (branch : Schema) : Polymorphism :=
  match branch.reference with
  | none => p
  | some reference =>
    match p.bases.lookup reference with
    | none => p
    | some parent =>
      let child := subtypeOf name s reference parent
      { bases := Assoc.putSorted p.bases reference
          { parent with children := parent.children ++ [child] }
        subtypes := Assoc.putSorted p.subtypes child.reference child }

/-- The bases and subtypes among definitions. -/
def ofDefinitions (definitions : Definitions) : Polymorphism :=
  let sorted := byName definitions
  let bases := sorted.filterMap fun (name, s) =>
    (base? name s).map fun b => (Reference.toDefinition name, b)
  sorted.foldl (fun p (name, s) => s.allOf.foldl (register name s) p)
    { bases := Assoc.sortedOfPairs bases }

def isBase (p : Polymorphism) (reference : String) : Bool := Assoc.has p.bases reference

def isSubtype (p : Polymorphism) (reference : String) : Bool := Assoc.has p.subtypes reference

end Polymorphism

end KclModels
