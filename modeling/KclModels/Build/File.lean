import KclModels.Build.Schema
import KclModels.Imports

/-!
# Building files

The file of a definition: its model, the models taken out of it, what it depends on and what it
imports. A subtype gets the full models of the bases it composes. A file inherits from one parent
only, so the properties of every other branch that is a reference are declared in the file itself.
-/

namespace KclModels

variable [Text.Transliteration]

namespace Model

/-- Marks a model as a polymorphic base, with the type for each value of its discriminator. -/
def markBase (m : Model) (name : String) (base : Base) : Model :=
  let own := Assoc.putSorted m.discriminates name base.kclType
  { m with
    isBase := true
    exported := true
    discriminatorField := some base.fieldName
    discriminatorValue := some name
    discriminates := base.children.foldl
      (fun types child => Assoc.putSorted types child.fieldValue child.kclType) own }

/--
The full model of a base that stands for a branch: all its parts are marked as those of a base.
-/
def asBaseBranch (m : Model) (name : String) : Model :=
  { m with
    isBase := true
    reference := some name
    additionalItems := m.additionalItems.map fun i => { i with isBase := true }
    additionalProperties := m.additionalProperties.map fun v => { v with isBase := true }
    properties := m.properties.map fun p => { p with isBase := true } }

/-- The properties that stay in a branch: those not declared before, nor by a base if it is none. -/
def keepProperties (ofBases : List String) (fromBase : Bool) (seen : List String) :
    List Model → List Model × List String
  | [] => ([], seen)
  | p :: rest =>
    if (fromBase || !ofBases.contains p.name) && !seen.contains p.name then
      let (kept, seen) := keepProperties ofBases fromBase (p.name :: seen) rest
      (p :: kept, seen)
    else keepProperties ofBases fromBase seen rest

/--
Leaves each property in one branch: in that of a base if a base declares it, else in the first.
-/
def dedupBranches (ofBases seen : List String) : List Model → List Model
  | [] => []
  | branch :: rest =>
    let (properties, seen) := keepProperties ofBases branch.isBase seen branch.properties
    { branch with properties } :: dedupBranches ofBases seen rest

end Model

namespace Build

/-- Builds a definition as it is below another. -/
def definition (setting : Setting) (name : String) (s : Schema) (container : String) :
    Build Frame :=
  (Frame.root name s container).build setting

/-- The polymorphic base that a branch of a composition refers to, with its definition. -/
def baseOfBranch (branch : Schema) : Build (Option (String × String × Schema)) := do
  match branch.reference with
  | none => return none
  | some reference =>
    let target ← ofReference ((← registry).resolve reference)
    if target.discriminator.isNone then return none
    else return (Reference.name? reference).map fun name => (reference, name, target)

/--
Puts the full models of bases in place of the branches that refer to them, from number `index` on;
also gives the names of the properties of the bases.
-/
def expandBranches (setting : Setting) (container : String) (index : Nat) (allOf : List Model) :
    List Schema → Build (List Model × List String)
  | [] => return (allOf, [])
  | branch :: rest => do
    match ← baseOfBranch branch with
    | none => expandBranches setting container (index + 1) allOf rest
    | some (reference, name, target) =>
      let built := (← definition setting name target container).model
      let marked := match setting.polymorphism.bases.lookup reference with
        | some base => built.markBase name base
        | none => built
      let base := marked.asBaseBranch name
      let (allOf, names) ← expandBranches setting container (index + 1) (allOf.set index base) rest
      return (allOf, base.properties.map (·.name) ++ names)

/-- Makes a model the model of a subtype. -/
def expandSubtype (setting : Setting) (m : Model) (s : Schema) (subtype : Subtype) :
    Build Model := do
  let (allOf, ofBases) ← expandBranches setting m.name 0 m.allOf s.allOf
  return { m with
    discriminatorField := some subtype.fieldName
    discriminatorValue := some subtype.fieldValue
    isSubtype := true
    allOf := Model.dedupBranches ofBases [] allOf }

/-- Whether the properties of a branch have to be declared with the model itself. -/
def needsInlining (parent : Option Nat) (index : Nat) (branch : Model) : Bool :=
  parent != some index && branch.properties.isEmpty && branch.type.complex

/-- Declares the properties of the definitions that branches refer to, from number `index` on. -/
def inlineBranches (setting : Setting) (parent : Option Nat) (f : Frame) (index : Nat) :
    List Model → Build Frame
  | [] => return f
  | branch :: rest => do
    match if needsInlining parent index branch then branch.reference else none with
    | none => inlineBranches setting parent f (index + 1) rest
    | some name =>
      let target ← ofReference ((← registry).resolve (Reference.toDefinition name))
      let built ← definition setting name target f.model.name
      let properties := built.model.properties ++ built.model.allOf.flatMap (·.properties)
      let f := f.dependOn built.dependencies
      let f := { f with extras := Assoc.mergeSorted f.extras built.extras }
      let f := f.mapModel fun m => { m with allOf := m.allOf.set index { branch with properties } }
      inlineBranches setting parent f (index + 1) rest

/--
What the file of a definition depends on: other definitions that it refers to and does not hold.
-/
def dependsOn (f : Frame) (name : String) (hoisted : List String) : List String :=
  Assoc.nameSet <| f.dependencies.filter fun other =>
    other != name && !hoisted.contains other && !Assoc.has f.extras other

/-- The frame of a definition with everything that its file needs. -/
def fileFrame (setting : Setting) (name : String) : Build Frame := do
  match (← registry).get? name with
  | none => throw (.unknownDefinition name)
  | some s =>
    let f ← definition setting name s name
    let reference := Reference.toDefinition name
    let f := match setting.polymorphism.bases.lookup reference with
      | some base => f.mapModel (·.markBase name base)
      | none => f
    let f ← match setting.polymorphism.subtypes.lookup reference with
      | some subtype => do
        let m ← expandSubtype setting f.model s subtype
        pure { f with model := m }
      | none => pure f
    inlineBranches setting f.model.parentBranch f 0 f.model.allOf

/-- The model of a definition under the name that it is declared under. -/
def declare (setting : Setting) (name : String) (registry : Registry) (m : Model) : Model :=
  let resolver : Resolver :=
    { registry, options := setting.options, modelName := name, path := name }
  { m with declaredName := resolver.modelTypeName }

/-- Puts together the file of a definition, and says what there is to warn of. -/
def assemble (setting : Setting) (name : String) (registry : Registry) (f : Frame) :
    ModelFile × List Warning :=
  let package := setting.options.packageOf name
  let main := Imports.collectRendered package (declare setting name registry f.model) {}
  let others := Imports.collectAllRendered package (f.extras.map Prod.snd) main.2
  ({ packageName := Naming.packageName package Options.defaultPackage
     package
     model := main.1
     extras := others.1
     dependsOn := dependsOn f name registry.hoisted
     imports := others.2.statements }, others.2.warnings)

/-- Builds the file of a definition. -/
def file (setting : Setting) (name : String) : Build ModelFile := do
  let f ← fileFrame setting name
  let (file, warnings) := assemble setting name (← registry) f
  warnAll warnings
  return file

end Build

end KclModels
