import KclModels.Document.Node
import KclModels.Document.Printer
import KclModels.Text.Escaped

/-!
# Decoding

How the parts of a document are read out of its nodes. The first problem in the order of the
document is the error: malformed text, or a misfit together with the path to it. Strings, truth
values and numbers are read by what is asked of them, so a YAML scalar can be text in one place and
a number in another; inside a part that may have several forms, scalars stand for themselves only.
-/

namespace KclModels

/-- A step of a path into a document. -/
inductive Step
  | key (name : String)
  | index (i : Nat)
deriving DecidableEq, Repr

/-- The text of a path: keys with points between, positions in brackets, the top as a point. -/
def pathText : List Step → String
  | [] => "."
  | first :: rest =>
    let step := fun (dot : String) (s : Step) => match s with
      | .key name => dot ++ name
      | .index i => "[" ++ toString i ++ "]"
    step "" first ++ String.join (rest.map (step "."))

/-- Why a vendor extension is not accepted. -/
structure ExtensionError where
  extension : String
  reason : String
deriving DecidableEq, Repr

def ExtensionError.message (e : ExtensionError) : String :=
  "invalid " ++ e.extension ++ " extension: " ++ e.reason

/-- Why a well-formed part does not fit. -/
inductive Misfit
  | wrongType (found expected : String)
  | wrongValue (found expected : String)
  | missingField (name : String)
  | duplicateField (name : String)
  | noForm (name : String)
  | wrongLength (length : Nat) (expected : String)
  | badExtension (e : ExtensionError)
deriving DecidableEq, Repr

/-- The text of a misfit. -/
def Misfit.message : Misfit → String
  | .wrongType found expected => "invalid type: " ++ found ++ ", expected " ++ expected
  | .wrongValue found expected => "invalid value: " ++ found ++ ", expected " ++ expected
  | .missingField name => "missing field `" ++ name ++ "`"
  | .duplicateField name => "duplicate field `" ++ name ++ "`"
  | .noForm name => "data did not match any variant of untagged enum " ++ name
  | .wrongLength n expected => "invalid length " ++ toString n ++ ", expected " ++ expected
  | .badExtension e => e.message

/-- Why a document is not accepted. -/
inductive Fault
  | malformed
  | misfit (path : List Step) (why : Misfit)
deriving DecidableEq, Repr

namespace Fault

/-- A misfit of the part that is being read. -/
def here (why : Misfit) : Fault := .misfit [] why

/-- The fault of a part, as a fault of what holds it. -/
def under (step : Step) : Fault → Fault
  | .malformed => .malformed
  | .misfit path why => .misfit (step :: path) why

end Fault

/-- Reads a part at a step below the one that holds it. -/
def within {α : Type} (step : Step) (r : Except Fault α) : Except Fault α :=
  r.mapError (Fault.under step)

theorem bind_eq_ok {ε α β : Type} {m : Except ε α} {k : α → Except ε β} {b : β} :
    m >>= k = .ok b ↔ ∃ a, m = .ok a ∧ k a = .ok b := by
  cases m with
  | error e => simp [bind, Except.bind]
  | ok a => simp [bind, Except.bind]

theorem map_eq_ok {ε α β : Type} {m : Except ε α} {f : α → β} {b : β} :
    f <$> m = .ok b ↔ ∃ a, m = .ok a ∧ f a = b := by
  cases m with
  | error e => exact ⟨nofun, fun ⟨_, h, _⟩ => nomatch h⟩
  | ok a => simp [Functor.map, Except.map]

theorem mapError_ok {α ε ε' : Type} {f : ε → ε'} {e : Except ε α} {a : α}
    (h : e.mapError f = .ok a) : e = .ok a := by
  cases e with
  | error e =>
    have h : Except.error (f e) = .ok a := h
    cases h
  | ok b => rw [Except.ok.inj h]

theorem eq_ok_of_toOption {ε α : Type} {e : Except ε α} {a : α} (h : e.toOption = some a) :
    e = .ok a := by
  cases e with
  | error e => simp [Except.toOption] at h
  | ok b => rw [Option.some.inj h]

/-- Where the nodes come from, which decides how they are read. -/
inductive Reading
  /-- From a JSON text. -/
  | json
  /-- From a YAML text. -/
  | yaml
  /-- From a value. -/
  | value
  /-- Inside a part that may have several forms. -/
  | forms
deriving DecidableEq, Repr

namespace Scalar

/-- How a message names a scalar. -/
def described : Scalar → String
  | .null => "null"
  | .bool b => "boolean `" ++ (if b then "true" else "false") ++ "`"
  | .num (.int n) => "integer `" ++ toString n ++ "`"
  | .num (.float x) => "floating point `" ++ x.documentText ++ "`"
  | .str s | .written s _ _ => "string " ++ Text.escaped s

end Scalar

namespace Node

/-- What a node is when it is not what was asked for. -/
def described : Node → String
  | .scalar s => s.described
  | .arr _ _ => "sequence"
  | .obj _ _ => "map"
  | .tagged n => described n
  | .broken | .refused _ => ""

/-- The fault of a node that is not what was asked for. -/
def unexpected (n : Node) (expected : String) : Fault :=
  match n with
  | .broken | .refused _ => .malformed
  | n => .here (.wrongType n.described expected)

/-- The scalar as it is seen in this reading. -/
def seen (how : Reading) (s : Scalar) : Option Scalar :=
  if how = .forms then s.resolve else some s

/-- Reads a string. -/
def string (how : Reading) (n : Node) : Except Fault String :=
  match n with
  | .scalar s =>
    match seen how s with
    | some (.str t) => .ok t
    | some (.written t _ _) => .ok t
    | _ => .error (n.unexpected "a string")
  | n => .error (n.unexpected "a string")

/--
The text of a scalar that is read as a truth value or number: a plain one, or a block with the tag.
-/
def spelled? (tag : ScalarTag) : Scalar → Option String
  | .written t .plain _ => some t
  | .written t .literal (some given) => if given = tag then some t else none
  | _ => none

/-- Reads a truth value. -/
def bool (how : Reading) (n : Node) : Except Fault Bool :=
  match n with
  | .scalar s =>
    match seen how s with
    | some (.bool b) => .ok b
    | some s =>
      match (spelled? .bool s).bind Scalar.spelledBool? with
      | some b => .ok b
      | none => .error (n.unexpected "a boolean")
    | none => .error (n.unexpected "a boolean")
  | n => .error (n.unexpected "a boolean")

/-- Reads a number as binary64. -/
def double (how : Reading) (n : Node) : Except Fault Double :=
  match n with
  | .scalar s =>
    match seen how s with
    | some (.num x) => .ok x.toDouble
    | some s =>
      match (spelled? .float s).bind Scalar.spelledDouble? with
      | some x => .ok x
      | none => .error (n.unexpected "f64")
    | none => .error (n.unexpected "f64")
  | n => .error (n.unexpected "f64")

/-- Reads a natural of 64 bits. -/
def nat (how : Reading) (n : Node) : Except Fault Nat :=
  match n with
  | .scalar s =>
    match seen how s with
    | some (.num (.int i)) =>
      if i < 0 then .error (.here (.wrongValue s.described "u64")) else .ok i.toNat
    | some s =>
      match (spelled? .int s).bind Scalar.spelledNat? with
      | some i => if i < twoPow 64 then .ok i else .error (n.unexpected "u64")
      | none => .error (n.unexpected "u64")
    | none => .error (n.unexpected "u64")
  | n => .error (n.unexpected "u64")

/-- Reads a part that may be absent. -/
def option {α : Type} (how : Reading) (read : Node → Except Fault α) (n : Node) :
    Except Fault (Option α) :=
  match n with
  | .scalar s =>
    match seen how s with
    | none => .error .malformed
    | some s =>
      if s.isAbsent then .ok none
      else if s.isFalseNull then .error .malformed
      else (read n).map some
  | n => (read n).map some

/-- The items of a sequence, and whether the text is well formed after them. -/
def items (how : Reading) (n : Node) : Except Fault (List Node × Bool) :=
  match n with
  | .arr items closed => .ok (items, closed)
  | .tagged (.arr items closed) =>
    if how = .forms then .error .malformed else .ok (items, closed)
  | .scalar s =>
    if s.isEmptyCollection && how != .forms then .ok ([], true)
    else .error (n.unexpected "a sequence")
  | n => .error (n.unexpected "a sequence")

/-- The fields of a mapping, and whether the text is well formed after them. -/
def fields (how : Reading) (expected : String) (n : Node) :
    Except Fault (List (Node × Node) × Bool) :=
  match n with
  | .obj fields closed => .ok (fields, closed)
  | .tagged (.obj fields closed) =>
    if how = .forms then .error .malformed else .ok (fields, closed)
  | .scalar s =>
    if s.isEmptyCollection && how != .forms then .ok ([], true)
    else .error (n.unexpected expected)
  | n => .error (n.unexpected expected)

/-- Reads the items of a list, numbered from `i` on. -/
def readAll {α : Type} (read : Node → Except Fault α) (i : Nat) :
    List Node → Except Fault (List α)
  | [] => .ok []
  | n :: rest => do
    let a ← within (.index i) (read n)
    let more ← readAll read (i + 1) rest
    return a :: more

/-- Reads a list. -/
def list {α : Type} (how : Reading) (read : Node → Except Fault α) (n : Node) :
    Except Fault (List α) := do
  let (items, closed) ← items how n
  let values ← readAll read 0 items
  if closed then return values else throw .malformed

/-- Whether the end of a collection is as it should be. -/
def finish {α : Type} (closed : Bool) (a : α) : Except Fault α :=
  if closed then .ok a else .error .malformed

/-- Goes past a part without using it. -/
def skip (n : Node) : Except Fault Unit := finish n.isWhole ()

mutual

/-- Reads a value as it stands. Inside a part with several forms the keys have to be strings. -/
def value (how : Reading) : Node → Except Fault Value
  | .scalar s => match s.value? with
    | some v => .ok v
    | none => .error .malformed
  | .arr items closed => do finish closed (.arr (← valueItems how items))
  | .obj fields closed => do finish closed (.obj (Assoc.ofPairs (← valueFields how fields)))
  | .tagged _ | .broken | .refused _ => .error .malformed

def valueItems (how : Reading) : List Node → Except Fault (List Value)
  | [] => .ok []
  | n :: rest => do return (← value how n) :: (← valueItems how rest)

def valueFields (how : Reading) : List (Node × Node) → Except Fault (List (String × Value))
  | [] => .ok []
  | (key, n) :: rest => do
    let name ← string how key
    let v ← value how n
    return (name, v) :: (← valueFields how rest)

end

/-! ## Records -/

/-- A field of a record: its name, how it is read and set, and whether it may be left out. -/
structure Slot (σ : Type) where
  name : String
  read : Node → Except Fault (σ → σ)
  required : Bool := false

/-- Reads the fields of a record in document order; fields it does not have are skipped. -/
def recordFields {σ : Type} (how : Reading) (slots : List (Slot σ)) (seen : List String) (acc : σ) :
    List (Node × Node) → Except Fault (List String × σ)
  | [] => .ok (seen, acc)
  | (key, n) :: rest => do
    let name ← string how key
    match slots.find? (·.name == name) with
    | none =>
      skip n
      recordFields how slots seen acc rest
    | some slot =>
      if seen.contains name then throw (.here (.duplicateField name))
      let set ← within (.key name) (slot.read n)
      recordFields how slots (name :: seen) (set acc) rest

/-- Reads the fields of a record that is written as a sequence of them. -/
def recordItems {σ : Type} (how : Reading) (expected : String) (slots : List (Slot σ)) (i : Nat)
    (acc : σ) (all : Nat) (closed : Bool) : List Node → Except Fault σ
  | [] =>
    match slots with
    | [] => finish closed acc
    | slot :: others =>
      if !closed then .error .malformed
      else if (slot :: others).any (·.required) then
        .error (.here (.wrongLength (i + ((slot :: others).takeWhile (!·.required)).length) expected))
      else .ok acc
  | n :: rest =>
    match slots with
    | [] =>
      .error (if how = .json then .malformed
        else .here (.wrongLength all "fewer elements in array"))
    | slot :: others => do
      let set ← within (.index i) (slot.read n)
      recordItems how expected others (i + 1) (set acc) all closed rest

/-- Reads a record: a mapping, or outside YAML also a sequence of its fields. -/
def record {σ : Type} (how : Reading) (name : String) (slots : List (Slot σ)) (init : σ) (n : Node) :
    Except Fault σ := do
  match n with
  | .arr items closed =>
    if how = .yaml then throw (n.unexpected ("struct " ++ name))
    let count := toString slots.length ++ if slots.length = 1 then " element" else " elements"
    recordItems how ("struct " ++ name ++ " with " ++ count) slots 0 init items.length closed items
  | n =>
    let (fields, closed) ← fields how ("struct " ++ name) n
    let (seen, acc) ← recordFields how slots [] init fields
    if !closed then throw .malformed
    match slots.find? fun slot => slot.required && !seen.contains slot.name with
    | some slot => throw (.here (.missingField slot.name))
    | none => return acc

end Node

end KclModels
