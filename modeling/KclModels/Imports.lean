import KclModels.Fresh
import KclModels.Model.Basic
import KclModels.Naming.Identifier
import KclModels.Warning

/-!
# Imports of a file

A type of another package is written with the name that its package is imported under. The first
visit to a package picks that name, and every later visit uses it again, so within a file a package
has one name and a name one package.
-/

namespace KclModels

variable [Text.Transliteration]

/-- The path by which a package is imported from another; a root they share is left out. -/
def importPath (package target : String) : String :=
  match Text.cutFirst? '.' package, Text.cutFirst? '.' target with
  | some (root, rest), some (targetRoot, _) => if root = targetRoot then rest else package
  | _, _ => package

/-- The imports collected so far. -/
structure Imports where
  /-- The import of each path, sorted by path. -/
  byPath : List (String × Import) := []
  /-- The path of each name. -/
  byName : List (String × String) := []
  warnings : List Warning := []
deriving Inhabited

namespace Imports

/-- Whether a name can be given to a package. -/
def isFree (i : Imports) (name : String) : Bool :=
  !name.isEmpty && !Naming.isReserved name && !Assoc.has i.byName name

/--
The names that the segments of a path suggest, the last segment first: it alone, then with its
parents in front of it one by one.
-/
def candidates (segments : List String) : List String :=
  match segments.reverse with
  | [] => []
  | last :: parents =>
    let longer := fun (name parent : String) =>
      if name.isEmpty then parent else parent ++ Text.capitalize name
    (parents.foldl (fun (name, names) parent =>
      let next := longer name parent
      (next, names ++ [next])) (last, [last])).2

/-- The name that a path is given when none of the suggested ones is free. -/
def mangledName (i : Imports) (segments : List String) : String :=
  let base := "kclMangled" ++ Text.capitalize (segments.getLast?.getD "")
  freshName (fun name => !i.isFree name) (i.byName.length + Naming.reservedWords.length + 1) base

/-- Picks the name for a path, with a warning if it has nothing of the path but the end. -/
def pickName (i : Imports) (path : String) : String × List Warning :=
  let segments := (Text.split '.' path).map Naming.sanitize
  match (candidates segments).find? i.isFree with
  | some name => (name, [])
  | none =>
    let name := i.mangledName segments
    (name, [.aliasMangled path name])

/-- The name that a package is imported under; the first visit imports it. -/
def nameFor (i : Imports) (target package : String) : String × Imports :=
  let path := importPath package target
  match i.byPath.lookup path with
  | some stmt => (stmt.asName, i)
  | none =>
    let (name, warnings) := i.pickName path
    let stmt : Import := { path, asName := name, renamed := name != Text.afterLast '.' path }
    (name, {
      byPath := Assoc.putSorted i.byPath path stmt
      byName := Assoc.putSorted i.byName name path
      warnings := i.warnings ++ warnings })

/-- Writes a type of another package with the name of the package. -/
def qualify (target : String) (t : TypeInfo) (i : Imports) : TypeInfo × Imports :=
  if t.package.isEmpty || t.package = target then (t, i)
  else
    let (name, i) := i.nameFor target t.package
    ({ t with packageAlias := name, kclType := name ++ "." ++ t.kclType }, i)

/-- The type of a container written anew with the qualified types of its parts. -/
def rebracket (t : TypeInfo) (item value : Option Model) : TypeInfo :=
  let t := match item with
    | some item =>
      if t.array && t.package.isEmpty then { t with kclType := "[" ++ item.type.kclType ++ "]" }
      else t
    | none => t
  match value with
  | some value =>
    if t.package.isEmpty && Text.begins "\x7bstr:" t.kclType then
      { t with kclType := "\x7bstr:" ++ value.type.kclType ++ "\x7d" }
    else t
  | none => t

mutual

/-- Qualifies the types of a model and of all models below it. -/
def collect (target : String) : Model → Imports → Model × Imports
  | ⟨facts, items, extraItems, properties, allOf, value⟩, i =>
    let (items, i) := collectOption target items i
    let (extraItems, i) := collectOption target extraItems i
    let (properties, i) := collectList target properties i
    let (value, i) := collectOption target value i
    let (allOf, i) := collectList target allOf i
    let (type, i) := qualify target (rebracket facts.type items value) i
    (⟨{ facts with type }, items, extraItems, properties, allOf, value⟩, i)

def collectOption (target : String) : Option Model → Imports → Option Model × Imports
  | none, i => (none, i)
  | some m, i =>
    let (m, i) := collect target m i
    (some m, i)

def collectList (target : String) : List Model → Imports → List Model × Imports
  | [], i => ([], i)
  | m :: rest, i =>
    let (m, i) := collect target m i
    let (rest, i) := collectList target rest i
    (m :: rest, i)

end

/-- Qualifies the properties that are not declared already, given the names that are. -/
def collectNew (target : String) (declared : List String) :
    List Model → Imports → List Model × List String × Imports
  | [], i => ([], declared, i)
  | m :: rest, i =>
    if declared.contains m.name then
      let (rest, declared, i) := collectNew target declared rest i
      (m :: rest, declared, i)
    else
      let (m', i) := collect target m i
      let (rest, declared, i) := collectNew target (m.name :: declared) rest i
      (m' :: rest, declared, i)

/--
Qualifies what a rendered composition spells out: the name of its parent, and the properties of the
other branches that are not declared already. `index` is the number of the first branch.
-/
def collectBranches (target : String) (parent : Option Nat) (declared : List String) (index : Nat) :
    List Model → Imports → List Model × Imports
  | [], i => ([], i)
  | branch :: rest, i =>
    if parent = some index then
      let (type, i) := qualify target branch.type i
      let (rest, i) := collectBranches target parent declared (index + 1) rest i
      ({ branch with type } :: rest, i)
    else
      let (properties, declared, i) := collectNew target declared branch.properties i
      let (rest, i) := collectBranches target parent declared (index + 1) rest i
      ({ branch with properties } :: rest, i)

/-- Qualifies the types that a rendered model spells out. -/
def collectRendered (target : String) (m : Model) (i : Imports) : Model × Imports :=
  let (own, i) := collect target { m with allOf := [] } i
  let declared := own.properties.map (·.name)
  let (allOf, i) := collectBranches target m.parentBranch declared 0 m.allOf i
  ({ own with allOf }, i)

/-- Qualifies the types that rendered models spell out, one after the other. -/
def collectAllRendered (target : String) : List Model → Imports → List Model × Imports
  | [], i => ([], i)
  | m :: rest, i =>
    let (m, i) := collectRendered target m i
    let (rest, i) := collectAllRendered target rest i
    (m :: rest, i)

/-- The imports, sorted by path. -/
def statements (i : Imports) : List Import := i.byPath.map Prod.snd

end Imports

end KclModels
