import KclModels.Build.File
import KclModels.Dependencies
import KclModels.Kcl.File
import KclModels.Statistics
import KclModels.Swagger

/-!
# Runs

A run takes a document and options to files. The definitions are made canonical once; each selected
definition is then generated on its own, except that names given to schemas without one are not used
again in the run.
-/

namespace KclModels

variable [Text.Transliteration]

/-- Why a run fails. -/
inductive RunError
  | notCanonical (e : ReferenceError)
  | badSelection (name : String)
  | notClassified (name : String) (e : TypeError)
  | notGenerated (name : String) (e : GenerationError)
deriving DecidableEq, Inhabited, Repr

/-- The texts of an error of one definition, outermost first. -/
def GenerationError.chain (name : String) (e : GenerationError) : List String :=
  ["could not generate schema for '" ++ name ++ "'", e.message]

/-- The texts of an error, outermost first. -/
def RunError.chain : RunError → List String
  | .notCanonical e => ["failed to canonicalize definitions", e.message]
  | .badSelection name =>
    ["invalid --model selection", (GenerationError.unknownDefinition name).message]
  | .notClassified name e =>
    ["failed to classify '" ++ name ++ "'", (GenerationError.type e).message]
  | .notGenerated name e => ("failed to generate model '" ++ name ++ "'") :: e.chain name

/-- The part of a definition in polymorphism. -/
inductive Role
  | base
  | subtype
  | none
deriving DecidableEq, Inhabited, Repr

def Role.text : Role → String
  | .base => "base"
  | .subtype => "subtype"
  | .none => "-"

/-- What a listing says of a definition. -/
structure Summary where
  name : String
  kclType : String
  category : Category
  role : Role
  fields : Nat
  /-- Whether an existing type stands for the definition, so that it is not generated. -/
  external : Bool
deriving DecidableEq, Inhabited, Repr

/-- A document made ready, with the options. -/
structure Run where
  definitions : Definitions
  polymorphism : Polymorphism
  dependencies : Dependencies
  options : Options
  info : Option Info
deriving Inhabited

namespace Run

/-- Makes a document ready. -/
def prepare (document : Swagger) (options : Options) : Except RunError Run := do
  let definitions ← (canonicalize document.definitions).mapError .notCanonical
  return {
    definitions, options
    polymorphism := Polymorphism.ofDefinitions definitions
    dependencies := Dependencies.ofDefinitions definitions
    info := document.info }

/-- What the document says about itself. -/
def about (r : Run) : Info := r.info.getD {}

/-- Whether an existing type stands for a definition. -/
def isExternal (r : Run) (name : String) : Bool :=
  (r.definitions.lookup name).any (·.hints.existing.isSome)

/-- All names of definitions, sorted. -/
def sortedNames (r : Run) : List String := Assoc.nameSet (Assoc.keys r.definitions)

/-- The definitions that the options ask for, with all that those need, sorted. -/
def selection (r : Run) : Except RunError (List String) :=
  if r.options.names.isEmpty then .ok r.sortedNames
  else
    match r.options.names.find? (!Assoc.has r.definitions ·) with
    | some name => .error (.badSelection name)
    | none => .ok (r.dependencies.closure r.options.names)

/-- The definitions to generate, sorted: the selected ones for which no existing type stands. -/
def definitionNames (r : Run) : Except RunError (List String) :=
  r.selection.map fun names => names.filter (!r.isExternal ·)

/-- What all definitions are built with. -/
def setting (r : Run) : Setting := { polymorphism := r.polymorphism, options := r.options }

/-- The warning for a name that cannot be declared as it is. -/
def nameWarning (name : String) (f : ModelFile) : List Warning :=
  if Naming.needsMangling name then [.nameMangled name f.model.declaredName] else []

/-- What is known when a definition is built, with names that are not given out. -/
def session (r : Run) (taken : List String) : Session where
  registry := (Registry.ofDefinitions r.definitions).reserve taken

/-- What building the file of a definition comes to, and what is known then. -/
def buildFile (r : Run) (name : String) (taken : List String) :
    Except GenerationError ModelFile × Session :=
  ((Build.file r.setting name).run (r.session taken)).run

/--
Generates a definition without using the names in `taken` for schemas without one; gives the file,
the warnings and the names that were used.
-/
def generateReserving (r : Run) (name : String) (taken : List String) :
    Except GenerationError (ModelFile × List Warning × List String) :=
  match r.buildFile name taken with
  | (.ok f, session) => .ok (f, session.warnings ++ nameWarning name f, session.registry.hoisted)
  | (.error e, _) => .error e

/-- Generates a definition by itself. -/
def generateDefinition (r : Run) (name : String) :
    Except GenerationError (ModelFile × List Warning) :=
  (r.generateReserving name []).map fun (f, warnings, _) => (f, warnings)

/-- Generates definitions one after the other, given the names used and the statistics so far. -/
def generateAll (r : Run) (taken : List String) (stats : Statistics) :
    List String → Except RunError (List ModelFile × Statistics)
  | [] => .ok ([], stats)
  | name :: rest => do
    let (f, warnings, hoisted) ← (r.generateReserving name taken).mapError (.notGenerated name)
    let stats := (stats.addFile f).addWarnings warnings
    let (files, stats) ← generateAll r (taken ++ hoisted) stats rest
    return (f :: files, stats)

/-- Generates all selected definitions. The first failure ends the run. -/
def generate (r : Run) : Except RunError (List ModelFile × Statistics) := do
  let stats := r.dependencies.cycles.foldl Statistics.addCycle {}
  r.generateAll [] stats (← r.definitionNames)

/-- Generates all selected definitions and writes their files. -/
def render (r : Run) : Except RunError (List Kcl.SourceFile × Statistics) :=
  r.generate.map fun (files, stats) => (files.map Kcl.render, stats)

/-- The part of a definition in polymorphism; a base that is a subtype too counts as a base. -/
def roleOf (r : Run) (name : String) : Role :=
  let reference := Reference.toDefinition name
  if r.polymorphism.isBase reference then .base
  else if r.polymorphism.isSubtype reference then .subtype
  else .none

/-- What a listing says of a definition. -/
def summary (r : Run) (name : String) (s : Schema) : Except RunError Summary := do
  let resolver : Resolver := {
    registry := Registry.ofDefinitions r.definitions
    options := r.options
    modelName := name
    path := name }
  let t ← (resolver.resolve s false true).mapError (.notClassified name)
  return {
    name
    kclType := resolver.modelTypeName
    category := t.category
    role := r.roleOf name
    fields := s.properties.length + (s.allOf.flatMap (·.properties)).length
    external := r.isExternal name }

/-- What a listing says of all definitions, by name. -/
def summaries (r : Run) : Except RunError (List Summary) :=
  (Polymorphism.byName r.definitions).mapM fun (name, s) => r.summary name s

end Run

end KclModels
