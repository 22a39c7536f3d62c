import KclModels.Document.Node

/-!
# Reading JSON

A JSON text as a tree of nodes. Strings with half of a surrogate pair, numbers out of range and
collections nested too deep are well formed and refused: they can be skipped, not used.

A number with fraction or exponent is read as its first digits, as far as they fit 64 bits, times a
power of ten, with a rounding after each of the two steps.
-/

namespace KclModels.Json

/-- White space between tokens. -/
def isSpace (c : Char) : Bool := c = ' ' || c = '\n' || c = '\t' || c = '\r'

/-- A text without the white space it starts with. -/
def skipSpace (cs : List Char) : List Char := cs.dropWhile isSpace

/-! ## Numbers -/

/-- The largest natural of 64 bits. -/
def maxNat : Nat := twoPow 64 - 1

/-- The first digits of a number as far as they fit 64 bits, and what became of the others. -/
structure Digits where
  value : Nat := 0
  /-- Whether a digit of the integral part did not fit. -/
  full : Bool := false
  /-- The power of ten that the value is to be multiplied by. -/
  power : Int := 0

/-- Takes one more digit of the integral part; one that does not fit makes the power larger. -/
def Digits.pushWhole (d : Digits) (c : Char) : Digits :=
  let next := 10 * d.value + (c.toNat - '0'.toNat)
  if d.full || maxNat < next then { d with full := true, power := d.power + 1 }
  else { d with value := next }

/-- Takes the digits of the fraction up to the first that does not fit. -/
def Digits.pushFraction (d : Digits) : List Char → Digits
  | [] => d
  | c :: rest =>
    let next := 10 * d.value + (c.toNat - '0'.toNat)
    if maxNat < next then d
    else Digits.pushFraction { d with value := next, power := d.power - 1 } rest

/-- A power of ten up to `1e308` as binary64. -/
def tenTo (e : Nat) : Double := Double.ofInt (tenPow e)

/-- Multiplies a number by a power of ten, in steps of `1e308` if it is small; none on overflow. -/
def timesTen (x : Double) (e : Int) : (steps : Nat) → Option Double
  | 0 => some x
  | steps + 1 =>
    if e.natAbs ≤ 308 then
      if 0 ≤ e then
        let y := x.mul (tenTo e.toNat)
        if y.isInfinite then none else some y
      else some (x.div (tenTo e.natAbs))
    else if x.significand = 0 then some x
    else if 0 ≤ e then none
    else timesTen (x.div (tenTo 308)) (e + 308) steps

/-- Digits times the power of ten; three steps make any 64-bit number zero. -/
def Digits.toDouble? (d : Digits) (neg : Bool) (exponent : Int) : Option Double :=
  (timesTen (Double.ofInt d.value) (d.power + exponent) 4).map fun x => if neg then x.neg else x

/-- The explicit exponent of a number. -/
inductive Exponent
  | some (e : Int)
  /-- Larger than 31 bits. -/
  | huge (neg : Bool)

/-- What is read of an exponent: none if no digit follows. -/
def exponent? (cs : List Char) : Option (Exponent × List Char) :=
  let (neg, cs) := match cs with
    | '-' :: rest => (true, rest)
    | '+' :: rest => (false, rest)
    | rest => (false, rest)
  let digits := cs.takeWhile Char.isDigit
  let rest := cs.dropWhile Char.isDigit
  if digits.isEmpty then none
  else
    let n := Double.digitsValue digits
    if twoPow 31 ≤ n then some (.huge neg, rest)
    else some (.some (if neg then -n else n), rest)

/-- The number of an integral literal. -/
def integer (neg : Bool) (whole : List Char) (d : Digits) : Number :=
  let n := Double.digitsValue whole
  if !neg && n ≤ maxNat then .int n
  else if neg && n ≠ 0 && n ≤ twoPow 63 then .int (-n)
  else .float ((d.toDouble? neg 0).getD Double.zero)

/-- The number of a literal without fraction and exponent; none if it is out of range. -/
def unscaled (neg : Bool) (whole : List Char) (d : Digits) : Option Number :=
  if d.full then (d.toDouble? neg 0).map .float else some (integer neg whole d)

/-- The number of a literal with an exponent; none if it is out of range. -/
def withExponent (neg : Bool) (d : Digits) : Exponent → Option Number
  | .some e => (d.toDouble? neg e).map .float
  | .huge small =>
    if d.value ≠ 0 && !small then none else some (.float (Double.ofMagnitude neg 0))

/-- The node of a number, refused if there is none. -/
def numberNode : Option Number → Node
  | some n => .scalar (.num n)
  | none => .refused (.scalar .null)

/-- Reads a number after its minus. -/
def number (neg : Bool) (cs : List Char) : Option (Node × List Char) :=
  let whole := cs.takeWhile Char.isDigit
  let rest := cs.dropWhile Char.isDigit
  -- a number has a digit before the point, and no zero before another digit
  if whole.isEmpty || (whole.head? = some '0' && 1 < whole.length) then none
  else
    let d := whole.foldl Digits.pushWhole {}
    let power := fun (d : Digits) (rest : List Char) =>
      (exponent? rest).map fun (e, rest) => (numberNode (withExponent neg d e), rest)
    match rest with
    | '.' :: more =>
      let fraction := more.takeWhile Char.isDigit
      let rest := more.dropWhile Char.isDigit
      if fraction.isEmpty then none
      else
        let d := d.pushFraction fraction
        match rest with
        | c :: more =>
          if c = 'e' || c = 'E' then power d more
          else some (numberNode ((d.toDouble? neg 0).map .float), rest)
        | [] => some (numberNode ((d.toDouble? neg 0).map .float), rest)
    | c :: more =>
      if c = 'e' || c = 'E' then power d more else some (numberNode (unscaled neg whole d), rest)
    | [] => some (numberNode (unscaled neg whole d), rest)

/-! ## Strings -/

/-- The value of four hexadecimal digits. -/
def hex4? (a b c d : Char) : Option Nat := Scalar.natIn? 16 [a, b, c, d]

/-- Whether a code unit is the first half of a surrogate pair. -/
def isHigh (n : Nat) : Bool := 0xD800 ≤ n && n ≤ 0xDBFF

/-- Whether a code unit is the second half of a surrogate pair. -/
def isLow (n : Nat) : Bool := 0xDC00 ≤ n && n ≤ 0xDFFF

/-- The character that a letter after a backslash stands for. -/
def escape? : Char → Option Char
  | '"' => some '"'
  | '\\' => some '\\'
  | '/' => some '/'
  | 'b' => some '\x08'
  | 'f' => some '\x0c'
  | 'n' => some '\n'
  | 'r' => some '\r'
  | 't' => some '\t'
  | _ => none

/-- What is read of a string so far. -/
structure Partial where
  /-- The characters, last first. -/
  chars : List Char := []
  /-- The first half of a surrogate pair if that is what came last. -/
  pending : Option Nat := none
  /-- Whether every surrogate was one of a pair. -/
  sound : Bool := true

/-- Takes a character that is no surrogate. -/
def Partial.push (p : Partial) (c : Char) : Partial :=
  ⟨c :: p.chars, none, p.sound && p.pending.isNone⟩

/-- Takes a code unit. -/
def Partial.pushUnit (p : Partial) (n : Nat) : Partial :=
  match p.pending with
  | some high =>
    if isLow n then
      ⟨Char.ofNat (0x10000 + (high - 0xD800) * 0x400 + (n - 0xDC00)) :: p.chars, none, p.sound⟩
    else ⟨p.chars, none, false⟩
  | none =>
    if isHigh n then ⟨p.chars, some n, p.sound⟩
    else if isLow n then ⟨p.chars, none, false⟩
    else p.push (Char.ofNat n)

/-- The text that was read, and whether it can be used. -/
def Partial.finish (p : Partial) : String × Bool :=
  (String.ofList p.chars.reverse, p.sound && p.pending.isNone)

/-- Reads a string after its opening quote. -/
def stringBody (p : Partial) : List Char → Option ((String × Bool) × List Char)
  | [] => none
  | '"' :: rest => some (p.finish, rest)
  | '\\' :: 'u' :: a :: b :: c :: d :: rest =>
    match hex4? a b c d with
    | some n => stringBody (p.pushUnit n) rest
    | none => none
  | '\\' :: c :: rest =>
    match escape? c with
    | some d => stringBody (p.push d) rest
    | none => none
  | c :: rest => if c.toNat < 0x20 || c = '\\' then none else stringBody (p.push c) rest

/-- The node of a string. -/
def stringNode : String × Bool → Node
  | (s, true) => .scalar (.str s)
  | (s, false) => .refused (.scalar (.str s))

/-! ## Values -/

/-- The deepest nesting of collections. -/
def maxDepth : Nat := 127

/-- A collection, refused if `depth` others hold it and that is too deep. -/
def atDepth (depth : Nat) (n : Node) : Node := if maxDepth ≤ depth then .refused n else n

mutual

/-- Reads a value; what follows it is none if the text is malformed in it. -/
def value (fuel depth : Nat) (cs : List Char) : Node × Option (List Char) :=
  match fuel with
  | 0 => (.broken, none)
  | fuel + 1 =>
    match skipSpace cs with
    | 'n' :: 'u' :: 'l' :: 'l' :: rest => (.scalar .null, some rest)
    | 't' :: 'r' :: 'u' :: 'e' :: rest => (.scalar (.bool true), some rest)
    | 'f' :: 'a' :: 'l' :: 's' :: 'e' :: rest => (.scalar (.bool false), some rest)
    | '"' :: rest =>
      match stringBody {} rest with
      | some (s, rest) => (stringNode s, some rest)
      | none => (.broken, none)
    | '[' :: rest =>
      match skipSpace rest with
      | ']' :: rest => (atDepth depth (.arr [] true), some rest)
      | rest =>
        let (items, after) := items fuel (depth + 1) [] rest
        (atDepth depth (.arr items after.isSome), after)
    | '\x7b' :: rest =>
      match skipSpace rest with
      | '\x7d' :: rest => (atDepth depth (.obj [] true), some rest)
      | rest =>
        let (fields, after) := fields fuel (depth + 1) [] rest
        (atDepth depth (.obj fields after.isSome), after)
    | '-' :: rest =>
      match number true rest with
      | some (n, rest) => (n, some rest)
      | none => (.broken, none)
    | cs =>
      match number false cs with
      | some (n, rest) => (n, some rest)
      | none => (.broken, none)

/-- Reads the items of an array up to its end, given those so far, last first. -/
def items (fuel depth : Nat) (acc : List Node) (cs : List Char) : List Node × Option (List Char) :=
  match fuel with
  | 0 => (acc.reverse, none)
  | fuel + 1 =>
    match value fuel depth cs with
    | (n, none) => ((n :: acc).reverse, none)
    | (n, some rest) =>
      match skipSpace rest with
      | ',' :: rest =>
        match skipSpace rest with
        | ']' :: _ => ((n :: acc).reverse, none)
        | rest => items fuel depth (n :: acc) rest
      | ']' :: rest => ((n :: acc).reverse, some rest)
      | _ => ((n :: acc).reverse, none)

/-- Reads the fields of an object up to its end, given those so far, last first. -/
def fields (fuel depth : Nat) (acc : List (Node × Node)) (cs : List Char) :
    List (Node × Node) × Option (List Char) :=
  match fuel with
  | 0 => (acc.reverse, none)
  | fuel + 1 =>
    match skipSpace cs with
    | '"' :: rest =>
      match stringBody {} rest with
      | none => (acc.reverse, none)
      | some (s, rest) =>
        let key := stringNode s
        match skipSpace rest with
        | ':' :: rest =>
          match value fuel depth rest with
          | (n, none) => (((key, n) :: acc).reverse, none)
          | (n, some rest) =>
            match skipSpace rest with
            | ',' :: rest => fields fuel depth ((key, n) :: acc) rest
            | '\x7d' :: rest => (((key, n) :: acc).reverse, some rest)
            | _ => (((key, n) :: acc).reverse, none)
        -- a name without a value
        | _ => (((key, .broken) :: acc).reverse, none)
    | _ => (acc.reverse, none)

end

/--
Reads a JSON text: the node of the value it starts with, and whether nothing but white space
follows. Each step reads a character, so the length of the text bounds the steps.
-/
def read (s : String) : Node × Bool :=
  let cs := s.toList
  let (n, after) := value (cs.length + 1) 0 cs
  (n, after.any fun rest => (skipSpace rest).isEmpty)

end KclModels.Json
