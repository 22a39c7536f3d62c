import KclModels.Document.Value
import KclModels.Document.Scalar

/-!
# Documents as they are read

A text is read into a tree of nodes before anything is known about what the document should hold.
Reading never fails: where the text stops being well formed the tree stops too, so that whoever
decodes the tree meets the first problem of the document, be it a misfit or malformed text, in the
order of the document.
-/

namespace KclModels

/-- A node of a document. -/
inductive Node
  /-- A null, truth value, number or string. -/
  | scalar (s : Scalar)
  /-- A sequence. It is not `closed` if the text is malformed after the last item. -/
  | arr (items : List Node) (closed : Bool)
  /--
  A mapping, with repeated keys. It is not `closed` if the text is malformed after the last field.
  -/
  | obj (fields : List (Node × Node)) (closed : Bool)
  /-- A collection with a tag of its own, which no value has. -/
  | tagged (n : Node)
  /-- The text is malformed here. -/
  | broken
  /-- Well formed, and no data: it can be skipped and not be used. -/
  | refused (n : Node)
deriving Inhabited

namespace Node

mutual

/-- The node of a value. -/
def ofValue : Value → Node
  | .null => .scalar .null
  | .bool b => .scalar (.bool b)
  | .num n => .scalar (.num n)
  | .str s => .scalar (.str s)
  | .arr items => .arr (ofItems items) true
  | .obj fields => .obj (ofFields fields) true

def ofItems : List Value → List Node
  | [] => []
  | v :: rest => ofValue v :: ofItems rest

def ofFields : List (String × Value) → List (Node × Node)
  | [] => []
  | (name, v) :: rest => (.scalar (.str name), ofValue v) :: ofFields rest

end

mutual

/-- Whether a node is well formed to its end, which is all that skipping it asks. -/
def isWhole : Node → Bool
  | .scalar _ => true
  | .arr items closed => itemsWhole items && closed
  | .obj fields closed => fieldsWhole fields && closed
  | .tagged n => isWhole n
  | .broken => false
  | .refused n => isWhole n

def itemsWhole : List Node → Bool
  | [] => true
  | n :: rest => isWhole n && itemsWhole rest

def fieldsWhole : List (Node × Node) → Bool
  | [] => true
  | (key, n) :: rest => isWhole key && isWhole n && fieldsWhole rest

end

end Node

end KclModels
