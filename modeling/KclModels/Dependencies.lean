import KclModels.Schema.Basic

/-!
# Which definitions need which

The references of each definition to others, what is reachable along them, and the groups of
definitions that need each other.
-/

namespace KclModels

namespace Schema

mutual

/-- The definitions that a schema refers to at any depth, with repetitions. -/
def references : Schema → List String
  | ⟨keywords, properties, allOf, items, extraProperties, extraItems⟩ =>
    (keywords.reference.bind Reference.name?).toList ++ propertyReferences properties ++
      listReferences allOf ++ itemReferences items ++ extraReferences extraProperties ++
      extraReferences extraItems

def propertyReferences : List (String × Schema) → List String
  | [] => []
  | (_, s) :: rest => references s ++ propertyReferences rest

def listReferences : List Schema → List String
  | [] => []
  | s :: rest => references s ++ listReferences rest

def itemReferences : Option (Items Schema) → List String
  | none => []
  | some (.single s) => references s
  | some (.tuple schemas) => listReferences schemas

def extraReferences : Option (Extra Schema) → List String
  | some (.schema s) => references s
  | _ => []

end

end Schema

/-- For each definition, by name, the definitions it refers to, by name. -/
structure Dependencies where
  edges : List (String × List String)
deriving DecidableEq, Inhabited, Repr

namespace Dependencies

/-- The references between definitions; references to anything else do not count. -/
def ofDefinitions (definitions : Definitions) : Dependencies where
  edges := Assoc.sortedOfPairs <| definitions.map fun (name, s) =>
    (name, Assoc.nameSet (s.references.filter (Assoc.has definitions)))

/-- The definitions that a definition refers to. -/
def successors (d : Dependencies) (name : String) : List String := (d.edges.lookup name).getD []

/-- All definitions. -/
def nodes (d : Dependencies) : List String := Assoc.keys d.edges

/-- Visits what is reachable from `todo` and was not visited before. -/
def visit (d : Dependencies) : (fuel : Nat) → (visited todo : List String) → List String
  | 0, visited, _ => visited
  | _, visited, [] => visited
  | fuel + 1, visited, name :: todo =>
    if visited.contains name then visit d fuel visited todo
    else visit d fuel (name :: visited) (d.successors name ++ todo)

/--
A bound on the steps of a visit: each definition is entered once, each reference followed once.
-/
def visitBound (d : Dependencies) (todo : List String) : Nat :=
  todo.length + d.nodes.length + (d.edges.flatMap Prod.snd).length

/-- The definitions reachable from `todo`, in no particular order. -/
def reachable (d : Dependencies) (todo : List String) : List String :=
  d.visit (d.visitBound todo) [] todo

/-- The roots that are definitions, and every definition reachable from them, sorted. -/
def closure (d : Dependencies) (roots : List String) : List String :=
  Assoc.nameSet (d.reachable (roots.filter d.nodes.contains))

/-- For each definition, the definitions that it needs, directly or through others. -/
def needs (d : Dependencies) : List (String × List String) :=
  d.nodes.map fun name => (name, d.reachable (d.successors name))

/--
The definitions that a definition needs and that need it, sorted; empty if it is in no cycle. What
each definition needs is given.
-/
def groupOf (needs : List (String × List String)) (name : String) : List String :=
  let neededBy := fun other => (needs.lookup other).getD []
  let needed := neededBy name
  if needed.contains name then
    Assoc.nameSet (needed.filter fun other => (neededBy other).contains name)
  else []

/--
The groups of definitions that need each other, each sorted, sorted by their first names. A
definition that refers to itself is a group.
-/
def cycles (d : Dependencies) : List (List String) :=
  let needs := d.needs
  d.nodes.filterMap fun name =>
    let group := groupOf needs name
    if group.head? = some name then some group else none

end Dependencies

end KclModels
