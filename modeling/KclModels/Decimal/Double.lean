/-!
# Binary64 numbers

The numbers of a document that are not integers are binary64 numbers. They are kept by their bits
and every operation on them is exact arithmetic on naturals, followed by at most one rounding.
-/

namespace KclModels

/-- The power of two with exponent `n`. -/
def twoPow (n : Nat) : Nat := Nat.pow 2 n

/-- The power of ten with exponent `n`. -/
def tenPow (n : Nat) : Nat := Nat.pow 10 n

/-- A binary64 number, by its bits. -/
structure Double where
  bits : UInt64
deriving DecidableEq, Inhabited, Repr

namespace Double

/-- Whether the sign bit is set. -/
def negative (x : Double) : Bool := twoPow 63 ≤ x.bits.toNat

/-- The bits without the sign: larger ones belong to larger absolute values. -/
def magnitude (x : Double) : Nat := x.bits.toNat % twoPow 63

/-- The magnitude of infinity; those above it are no numbers. -/
def infinite : Nat := 0x7ff * twoPow 52

/-- The number with a sign and a magnitude. -/
def ofMagnitude (neg : Bool) (mag : Nat) : Double :=
  ⟨UInt64.ofNat (if neg then twoPow 63 + mag else mag)⟩

def zero : Double := ofMagnitude false 0

def infinity (neg : Bool) : Double := ofMagnitude neg infinite

/-- The number that stands for no number. -/
def nan (neg : Bool) : Double := ofMagnitude neg (infinite + twoPow 51)

def isNaN (x : Double) : Bool := infinite < x.magnitude

def isInfinite (x : Double) : Bool := x.magnitude == infinite

def isFinite (x : Double) : Bool := x.magnitude < infinite

/-- A finite number is `significand * 2 ^ scale`, up to its sign. -/
def significand (x : Double) : Nat :=
  if x.magnitude < twoPow 52 then x.magnitude else twoPow 52 + x.magnitude % twoPow 52

/-- The power of two of a finite number. -/
def scale (x : Double) : Int :=
  if x.magnitude < twoPow 52 then -1074 else (x.magnitude / twoPow 52 : Nat) - 1075

/-- The absolute value of a finite number as a quotient. -/
def ratio (x : Double) : Nat × Nat :=
  if 0 ≤ x.scale then (x.significand * twoPow x.scale.toNat, 1)
  else (x.significand, twoPow (-x.scale).toNat)

/-- The natural nearest to a quotient, of two the even one. -/
def roundDiv (num den : Nat) : Nat :=
  let q := num / den
  let r := num % den
  if 2 * r < den then q else if den < 2 * r then q + 1 else if q % 2 = 0 then q else q + 1

/-- The quotient in units of `2 ^ e`, rounded. -/
def roundScaled (num den : Nat) (e : Int) : Nat :=
  if 0 ≤ e then roundDiv num (den * twoPow e.toNat) else roundDiv (num * twoPow (-e).toNat) den

/-- Whether the quotient is at least `2 ^ 53` units of `2 ^ e`. -/
def exceeds (num den : Nat) (e : Int) : Bool :=
  if 0 ≤ e then twoPow 53 * (den * twoPow e.toNat) ≤ num
  else twoPow 53 * den ≤ num * twoPow (-e).toNat

/-- The binary64 number nearest to a quotient, of two the one with an even significand. -/
def ofRatio (neg : Bool) (num den : Nat) : Double :=
  if num = 0 then ofMagnitude neg 0
  else
    let guess : Int := (num.log2 : Int) - den.log2 - 53
    let e := max (-1074) (if exceeds num den guess then guess + 1 else guess)
    let mag := (e + 1074).toNat * twoPow 52 + roundScaled num den e
    ofMagnitude neg (min mag infinite)

/-- The number nearest to an integer. -/
def ofInt (n : Int) : Double := ofRatio (n < 0) n.natAbs 1

/-- The number nearest to `digits * 10 ^ e`. -/
def ofDecimal (neg : Bool) (digits : Nat) (e : Int) : Double :=
  if digits = 0 then ofMagnitude neg 0
  else if 310 < e then infinity neg
  else if 0 ≤ e then ofRatio neg (digits * tenPow e.toNat) 1
  else if (digits.log2 : Int) / 3 + 1 + e < -400 then ofMagnitude neg 0
  else ofRatio neg digits (tenPow (-e).toNat)

/-- The rounded product of two finite numbers. -/
def mul (x y : Double) : Double :=
  let (a, b) := x.ratio
  let (c, d) := y.ratio
  ofRatio (x.negative != y.negative) (a * c) (b * d)

/-- The rounded quotient of two finite numbers, the second not zero. -/
def div (x y : Double) : Double :=
  let (a, b) := x.ratio
  let (c, d) := y.ratio
  ofRatio (x.negative != y.negative) (a * d) (b * c)

/-- The number with the other sign. -/
def neg (x : Double) : Double := ofMagnitude (!x.negative) x.magnitude

/--
The place of a number in the total order: `-0` comes before `0`, what is no number at the ends.
-/
def rank (x : Double) : Int :=
  if x.negative then -(x.magnitude : Int) - 1 else x.magnitude

/-- Whether a number is finite and has no fractional part. -/
def isIntegral (x : Double) : Bool :=
  x.isFinite && x.ratio.1 % x.ratio.2 == 0

/-- The value of an integral number. -/
def toInt (x : Double) : Int :=
  let n : Int := x.ratio.1 / x.ratio.2
  if x.negative then -n else n

end Double

end KclModels
