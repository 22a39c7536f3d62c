import KclModels.Canonical

/-!
# The definitions of a run

The definitions that are known while one definition is generated: those of the document, and those
that are made on the way for schemas without a name. A name is given out once.
-/

namespace KclModels

/-- The definitions of a run. -/
structure Registry where
  definitions : Definitions := []
  /-- Names that are not given out, sorted. -/
  reserved : List String := []
  /-- The definitions that were made, in the order they were made. -/
  hoisted : List String := []
deriving Inhabited

namespace Registry

/-- The definitions of a document. -/
def ofDefinitions (definitions : Definitions) : Registry := { definitions }

/-- Keeps names from being given out. -/
def reserve (r : Registry) (names : List String) : Registry :=
  { r with reserved := names.foldl Assoc.insertName r.reserved }

def get? (r : Registry) (name : String) : Option Schema := r.definitions.lookup name

/-- Whether a name is in use or kept. -/
def contains (r : Registry) (name : String) : Bool :=
  Assoc.has r.definitions name || r.reserved.contains name

/-- Whether a definition was made on the way. -/
def isHoisted (r : Registry) (name : String) : Bool := r.hoisted.contains name

/-- A bound on the count of names in use. -/
def size (r : Registry) : Nat := r.definitions.length + r.reserved.length

/-- Gives out the first free name of `base`, `base1`, `base2`, … -/
def allocate (r : Registry) (base : String) : String × Registry :=
  let name := freshName r.contains r.size base
  (name, { r with reserved := Assoc.insertName r.reserved name })

/-- Adds a definition under a name that was given out. -/
def insert (r : Registry) (name : String) (s : Schema) : Registry :=
  { r with definitions := Assoc.put r.definitions name s, reserved := r.reserved.erase name }

/-- Makes a definition for a schema without a name. -/
def hoist (r : Registry) (base : String) (s : Schema) : String × Registry :=
  let (name, r) := r.allocate base
  let r := r.insert name s
  (name, { r with hoisted := r.hoisted ++ [name] })

/-- The definition that a reference names. -/
def lookup (r : Registry) (reference : String) : Except ReferenceError Schema :=
  if !Reference.isLocal reference then .error (.remote reference)
  else
    match (Reference.name? reference).bind r.get? with
    | some s => .ok s
    | none => .error (.unresolved reference)

/-- Follows references from `current`, which were started from `start`. -/
def followFrom (r : Registry) (start : String) (visited : List String) (current : String) :
    (steps : Nat) → Except ReferenceError Schema
  | 0 => .error (.cyclic start)
  | steps + 1 =>
    if visited.contains current then .error (.cyclic start)
    else do
      let s ← r.lookup current
      match s.reference with
      | some next => followFrom r start (current :: visited) next steps
      | none => .ok s

/--
Follows references until a schema that is none. A chain that goes through more references than there
are definitions has come to one of them twice.
-/
def resolve (r : Registry) (reference : String) : Except ReferenceError Schema :=
  r.followFrom reference [] reference (r.definitions.length + 2)

end Registry

end KclModels
