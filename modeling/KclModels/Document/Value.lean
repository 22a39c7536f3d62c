import KclModels.Assoc
import KclModels.Decimal.Double
import KclModels.Sorting

/-!
# Values of a document

What a document holds where the schema language leaves the form open: defaults, examples, enum
values and extensions. The fields of an object keep the order of the document.
-/

namespace KclModels

/-- A number of a document: an integer that fits 64 bits, signed or not, or a binary64 number. -/
inductive Number
  | int (n : Int)
  | float (x : Double)
deriving DecidableEq, Inhabited, Repr

/-- A number as binary64. -/
def Number.toDouble : Number → Double
  | .int n => Double.ofInt n
  | .float x => x

/-- A value of a document. -/
inductive Value
  | null
  | bool (b : Bool)
  | num (n : Number)
  | str (s : String)
  | arr (items : List Value)
  | obj (fields : List (String × Value))
deriving Inhabited, Repr

namespace Value

/-- Values are made from those below them. -/
theorem induct {P : Value → Prop} (null : P .null) (bool : ∀ b, P (.bool b))
    (num : ∀ n, P (.num n)) (str : ∀ s, P (.str s))
    (arr : ∀ items, (∀ v ∈ items, P v) → P (.arr items))
    (obj : ∀ fields, (∀ f ∈ fields, P f.2) → P (.obj fields)) : ∀ v, P v
  | .null => null
  | .bool b => bool b
  | .num n => num n
  | .str s => str s
  | .arr items => arr items fun v _ => induct null bool num str arr obj v
  | .obj fields => obj fields fun f _ => induct null bool num str arr obj f.2
termination_by v => sizeOf v
decreasing_by
  · rename_i hv
    have := List.sizeOf_lt_of_mem hv
    simp only [Value.arr.sizeOf_spec]
    omega
  · rename_i hf
    have := List.sizeOf_lt_of_mem hf
    obtain ⟨name, v⟩ := f
    simp only [Value.obj.sizeOf_spec, Prod.mk.sizeOf_spec] at *
    omega

/-- The value of a field; only objects have fields. -/
def field? (v : Value) (name : String) : Option Value :=
  match v with
  | .obj fields => fields.lookup name
  | _ => none

/-- Whether the value is null. -/
def isNull : Value → Bool
  | .null => true
  | _ => false

def asString? : Value → Option String
  | .str s => some s
  | _ => none

def asBool? : Value → Option Bool
  | .bool b => some b
  | _ => none

/-- The order of fields by name. -/
def fieldLE (a b : String × Value) : Bool := decide (a.1 ≤ b.1)

mutual

/-- The value with the fields of every object in it sorted by name. -/
def sorted : Value → Value
  | .arr items => .arr (sortedItems items)
  | .obj fields => .obj (sortBy fieldLE (sortedFields fields))
  | v => v

def sortedItems : List Value → List Value
  | [] => []
  | v :: rest => sorted v :: sortedItems rest

def sortedFields : List (String × Value) → List (String × Value)
  | [] => []
  | (name, v) :: rest => (name, sorted v) :: sortedFields rest

end

/-- A value in document order, or with the fields of objects sorted. -/
def ordered (keepOrder : Bool) (v : Value) : Value := if keepOrder then v else v.sorted

end Value

end KclModels
