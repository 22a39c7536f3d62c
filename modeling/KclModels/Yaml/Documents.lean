import KclModels.Document.Node
import KclModels.Yaml.Tree

/-!
# YAML documents as nodes

A mention becomes a copy of the part it stands for. Copies can hold mentions again, even of
themselves, so both their number and the depth of the tree are limited. What is beyond a limit is
well formed and refused: it can be skipped, not used.
-/

namespace KclModels.Yaml

namespace Tree

/-- The number of the anchor of a part. -/
def anchor? : Tree → Option Nat
  | .scalar a _ _ _ | .seq a _ _ | .map a _ _ => a
  | .mention _ => none

mutual

/-- The parts of a tree in the order of the document. -/
def parts : Tree → List Tree
  | .seq a own items => .seq a own items :: partsOfItems items
  | .map a own fields => .map a own fields :: partsOfFields fields
  | t => [t]

def partsOfItems : List Tree → List Tree
  | [] => []
  | t :: rest => parts t ++ partsOfItems rest

def partsOfFields : List (Tree × Tree) → List Tree
  | [] => []
  | (key, t) :: rest => parts key ++ parts t ++ partsOfFields rest

end

/-- The parts with an anchor, by its number; the last one first where several have the same. -/
def anchored (t : Tree) : List (Nat × Tree) :=
  (t.parts.filterMap fun p => p.anchor?.map (·, p)).reverse

/-- How much a part counts towards the number of copies that its document may make. -/
def weight : Tree → Nat
  | .seq _ _ _ | .map _ _ _ => 2
  | _ => 1

/-- The number of copies that a document may make. -/
def copyLimit (t : Tree) : Nat := 100 * t.parts.foldl (fun n part => n + weight part) 0

/-- The deepest nesting of collections. -/
def maxDepth : Nat := 128

/-- What may not be used. -/
def tooMuch : Node := .refused (.scalar .null)

/-- A collection, tagged or not. -/
def collection (own : Bool) (n : Node) : Node := if own then .tagged n else n

/--
The node of a part that may hold collections nested `depth` times, given the parts with anchors. The
state is the number of copies that may still be made.
-/
def expand (anchored : List (Nat × Tree)) (depth : Nat) (t : Tree) : StateM Nat Node := do
  let t ← match t with
    | .mention n => do
      let left ← get
      set (left - 1)
      pure (if left = 0 then none else anchored.lookup n)
    | t => pure (some t)
  match depth, t with
  | _, some (.scalar _ text style tag) => return .scalar (.written text style tag)
  | depth + 1, some (.seq _ own items) =>
    return collection own (.arr (← items.mapM (expand anchored depth)) true)
  | depth + 1, some (.map _ own fields) =>
    let fields ← fields.mapM fun (key, value) => do
      return (← expand anchored depth key, ← expand anchored depth value)
    return collection own (.obj fields true)
  | _, _ => return tooMuch

/-- The node of a document. -/
def toNode (t : Tree) : Node := (expand t.anchored maxDepth t t.copyLimit).1

end Tree

/-- The documents of a text; none if it is not well formed. -/
def documents? (s : String) : Option (List Node) := (trees? s).map (·.map Tree.toNode)

end KclModels.Yaml
