import KclModels.Decimal.Shortest

/-!
# The text of a number

How the shortest decimal of a binary64 number is laid out. Documents and literals use an exponent
for large and small numbers and mark integral ones with `.0`; bounds are written out in full.
-/

namespace KclModels.Double

/-- A way to write numbers. -/
structure Layout where
  /-- The exponents of the first digit for which digits are written in their places. -/
  positional : Int → Bool
  /-- What follows an integral number written in its places. -/
  integralMark : String

/-- How documents and literals write numbers: in places from `1e-5` up to below `1e16`. -/
def Layout.document : Layout := ⟨fun e => -5 ≤ e && e < 16, ".0"⟩

/-- How bounds are written: always in places. -/
def Layout.plain : Layout := ⟨fun _ => true, ""⟩

/-- The digits without the zeros at their end, and the count of those. -/
def dropZeros (digits : List Char) : List Char × Nat :=
  let zeros := digits.reverse.takeWhile (· = '0')
  (digits.take (digits.length - zeros.length), zeros.length)

/-- Digits in their places, the last of them at `10 ^ e`. -/
def inPlaces (mark : String) (digits : List Char) (e : Int) : String :=
  if 0 ≤ e then String.ofList (digits ++ List.replicate e.toNat '0') ++ mark
  else
    let places := (-e).toNat
    if places < digits.length then
      let whole := digits.length - places
      String.ofList (digits.take whole) ++ "." ++ String.ofList (digits.drop whole)
    else "0." ++ String.ofList (List.replicate (places - digits.length) '0' ++ digits)

/-- Digits as one digit, the others after a point, and a signed exponent. -/
def withExponent (digits : List Char) (first : Int) : String :=
  let fraction := digits.drop 1
  let power := if first < 0 then "e-" else "e+"
  String.ofList (digits.take 1) ++ (if fraction.isEmpty then "" else "." ++ String.ofList fraction) ++
    power ++ toString first.natAbs

/-- The text of a number in a layout. -/
def render (layout : Layout) (x : Double) : String :=
  let sign := if x.negative then "-" else ""
  if x.isNaN then "NaN"
  else if x.isInfinite then sign ++ "inf"
  else if x.significand = 0 then sign ++ "0" ++ layout.integralMark
  else
    let (d, e) := x.shortest
    let (digits, zeros) := dropZeros (Nat.toDigits 10 d)
    let last := e + zeros
    let first := last + digits.length - 1
    sign ++ (if layout.positional first then inPlaces layout.integralMark digits last
      else withExponent digits first)

/-- The text of a number in a document or literal. -/
def documentText (x : Double) : String := render .document x

/-- The text of a bound. -/
def plainText (x : Double) : String := render .plain x

/-! ## Reading -/

/-- Why a text is no number. -/
inductive ReadError
  | emptyText
  | noNumber
deriving DecidableEq, Repr

/-- The text of the error. -/
def ReadError.message : ReadError → String
  | .emptyText => "cannot parse float from empty string"
  | .noNumber => "invalid float literal"

/-- The value of a row of digits. -/
def digitsValue (digits : List Char) : Nat :=
  digits.foldl (fun n c => 10 * n + (c.toNat - '0'.toNat)) 0

/-- The exponent after an `e`; an exponent of more than six digits is as good as one of six. -/
def exponent? (cs : List Char) : Option Int :=
  let (neg, digits) := match cs with
    | '-' :: rest => (true, rest)
    | '+' :: rest => (false, rest)
    | rest => (false, rest)
  if digits.isEmpty || !digits.all Char.isDigit then none
  else
    let significant := digits.dropWhile (· = '0')
    let n := if 6 < significant.length then 999999 else digitsValue significant
    some (if neg then -n else n)

/-- A number without sign: digits with at most one point among them, and an exponent. -/
def unsigned? (neg : Bool) (cs : List Char) : Option Double :=
  let whole := cs.takeWhile Char.isDigit
  let rest := cs.dropWhile Char.isDigit
  let (fraction, rest) := match rest with
    | '.' :: more => (more.takeWhile Char.isDigit, more.dropWhile Char.isDigit)
    | _ => ([], rest)
  if whole.isEmpty && fraction.isEmpty then none
  else
    let number := fun (e : Int) =>
      ofDecimal neg (digitsValue (whole ++ fraction)) (e - fraction.length)
    match rest with
    | [] => some (number 0)
    | c :: more => if c = 'e' || c = 'E' then (exponent? more).map number else none

/-- Reads a number: a sign, then digits with point and exponent, or `inf`, `infinity` or `nan`. -/
def read (s : String) : Except ReadError Double :=
  if s.isEmpty then .error .emptyText
  else
    let (neg, cs) := match s.toList with
      | '-' :: rest => (true, rest)
      | '+' :: rest => (false, rest)
      | rest => (false, rest)
    let word := String.ofList (cs.map Char.toLower)
    if word = "inf" || word = "infinity" then .ok (infinity neg)
    else if word = "nan" then .ok (nan neg)
    else match unsigned? neg cs with
      | some x => .ok x
      | none => .error .noNumber

end KclModels.Double
