import KclModels.Decimal.Layout
import KclModels.Document.Value

/-!
# Scalars

A scalar of a JSON text has its type by its form. A scalar of a YAML text is a text with a style and
perhaps a tag, and what it stands for depends on what is asked of it: a description may be `5`, and
a bound may be `5` too.
-/

namespace KclModels

/-- How a YAML scalar is written. -/
inductive ScalarStyle
  | plain
  | quoted
  | literal
  | folded
deriving DecidableEq, Repr

/-- The tags of scalars. -/
inductive ScalarTag
  | null
  | bool
  | int
  | float
  /-- A tag of the document's own, such as `!mine`. -/
  | own
  /-- Any other tag. -/
  | other
deriving DecidableEq, Repr

/-- A scalar as it is written. -/
inductive Scalar
  | null
  | bool (b : Bool)
  | num (n : Number)
  | str (s : String)
  | written (text : String) (style : ScalarStyle) (tag : Option ScalarTag)
deriving Inhabited, Repr

namespace Scalar

/-! ## The forms of plain scalars -/

/-- Whether a text spells null. -/
def spellsNull (s : String) : Bool := ["null", "Null", "NULL", "~"].contains s

/-- The truth value that a text spells. -/
def spelledBool? (s : String) : Option Bool :=
  if ["true", "True", "TRUE"].contains s then some true
  else if ["false", "False", "FALSE"].contains s then some false
  else none

/-- The value of a digit in a base. -/
def digitIn? (base : Nat) (c : Char) : Option Nat :=
  let d :=
    if c.isDigit then c.toNat - '0'.toNat
    else if 'a' ≤ c && c ≤ 'z' then c.toNat - 'a'.toNat + 10
    else if 'A' ≤ c && c ≤ 'Z' then c.toNat - 'A'.toNat + 10
    else base
  if d < base then some d else none

/-- The value of a row of at least one digit in a base. -/
def natIn? (base : Nat) (cs : List Char) : Option Nat :=
  if cs.isEmpty then none
  else cs.foldlM (fun n c => (digitIn? base c).map (base * n + ·)) 0

/-- Whether digits with a needless leading zero are what a text has after its sign. -/
def isZeroPadded (cs : List Char) : Bool :=
  let digits := match cs with
    | '-' :: rest => rest
    | '+' :: rest => rest
    | rest => rest
  match digits with
  | '0' :: d :: more => (d :: more).all Char.isDigit
  | _ => false

/-- The naturals: decimal digits, or digits after `0x`, `0o` or `0b`, with or without a plus. -/
def spelledNat? (s : String) : Option Nat :=
  let cs := s.toList
  let body := match cs with
    | '+' :: rest => rest
    | rest => rest
  let decimal := if isZeroPadded cs then none else natIn? 10 body
  match body with
  | '0' :: 'x' :: digits => natIn? 16 digits
  | '0' :: 'o' :: digits => natIn? 8 digits
  | '0' :: 'b' :: digits => natIn? 2 digits
  | _ => decimal

/-- The integers with a minus; the value is given without it. -/
def spelledMinus? (s : String) : Option Nat :=
  match s.toList with
  | '-' :: '0' :: 'x' :: digits => natIn? 16 digits
  | '-' :: '0' :: 'o' :: digits => natIn? 8 digits
  | '-' :: '0' :: 'b' :: digits => natIn? 2 digits
  | '-' :: digits => if isZeroPadded ('-' :: digits) then none else natIn? 10 digits
  | _ => none

/-- What an integer form stands for. -/
inductive IntForm
  /-- An integer of 64 bits, signed or not. -/
  | fits (n : Int)
  /-- An integer of 65 to 128 bits. -/
  | tooWide
  /-- No integer form, or one beyond 128 bits. -/
  | none

/-- The integer that a text spells. -/
def spelledInt (s : String) : IntForm :=
  match spelledNat? s with
  | some n => if n < twoPow 64 then .fits n else if n < twoPow 128 then .tooWide else .none
  | none =>
    match spelledMinus? s with
    | some n => if n ≤ twoPow 63 then .fits (-n) else if n ≤ twoPow 127 then .tooWide else .none
    | none => .none

/-- The binary64 number that a text spells: decimal and finite, or a dotted word. -/
def spelledDouble? (s : String) : Option Double :=
  let unsigned := match s.toList with
    | '+' :: rest => String.ofList rest
    | _ => s
  let next := unsigned.toList.head?
  if s.toList.head? = some '+' && (next = some '+' || next = some '-') then
    none
  else if [".inf", ".Inf", ".INF"].contains unsigned then some (Double.infinity false)
  else if ["-.inf", "-.Inf", "-.INF"].contains s then some (Double.infinity true)
  else if [".nan", ".NaN", ".NAN"].contains s then some (Double.nan false)
  else match Double.read unsigned with
    | .ok x => if x.isFinite then some x else none
    | .error _ => none

/-! ## What a scalar stands for when nothing is asked of it -/

/-- The scalar that a plain text without tag stands for; none for an integer that is too wide. -/
def resolvePlain (s : String) : Option Scalar :=
  if s.isEmpty || spellsNull s then some .null
  else match spelledBool? s with
    | some b => some (.bool b)
    | none =>
      match spelledInt s with
      | .fits n => some (.num (.int n))
      | .tooWide => none
      | .none =>
        if isZeroPadded s.toList then some (.str s)
        else match spelledDouble? s with
          | some x => some (.num (.float x))
          | none => some (.str s)

/-- The scalar of a text with a tag; none if the text does not fit the tag. -/
def resolveTagged (s : String) : ScalarTag → Option Scalar
  | .null => if spellsNull s then some .null else none
  | .bool => (spelledBool? s).map .bool
  | .int =>
    match spelledInt s with
    | .fits n => some (.num (.int n))
    | _ => none
  | .float => (spelledDouble? s).map fun x => .num (.float x)
  | .own => none
  | .other => some (.str s)

/-- The null, truth value, number or string that a scalar stands for, if it stands for one. -/
def resolve : Scalar → Option Scalar
  | .written s style tag =>
    match tag with
    | some t => resolveTagged s t
    | none => if style = .plain then resolvePlain s else some (.str s)
  | s => some s

/-- The value of a scalar. A number without a form in JSON, such as infinity, becomes null. -/
def value? (s : Scalar) : Option Value :=
  match s.resolve with
  | some .null => some .null
  | some (.bool b) => some (.bool b)
  | some (.num (.int n)) => some (.num (.int n))
  | some (.num (.float x)) => some (if x.isFinite then .num (.float x) else .null)
  | some (.str t) => some (.str t)
  | _ => none

/-- Whether a scalar is read as nothing where a part is optional. -/
def isAbsent : Scalar → Bool
  | .null => true
  | .written s .plain none => s.isEmpty || spellsNull s
  | .written s .plain (some .null) => spellsNull s
  | _ => false

/-- Whether a scalar is tagged as null and spells something else. -/
def isFalseNull : Scalar → Bool
  | .written s .plain (some .null) => !spellsNull s
  | _ => false

/-- Whether a scalar stands for an empty collection where a collection is asked for. -/
def isEmptyCollection : Scalar → Bool
  | .written s .plain _ => s.isEmpty
  | _ => false

end Scalar

end KclModels
