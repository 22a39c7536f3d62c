import KclModels.Decimal.Double

/-!
# Shortest decimals

The decimal with the fewest digits among those that read back as a given binary64 number, and of
those the one nearest to it. A number reads back from every decimal in the interval of reals that
round to it; for each count of digits it is enough to look at the two decimals next to the number.
-/

namespace KclModels.Double

/-- The count of decimal digits of a natural. -/
def digitCount (n : Nat) : Nat := (Nat.toDigits 10 n).length

/--
The bounds of the reals that round to a finite number, as two numerators and their denominator. They
lie half a unit of the lowest bit away; below a power of two the units are half as large.
-/
def interval (x : Double) : (Nat × Nat) × Nat :=
  let (num, den) := x.ratio
  let unit := if 0 ≤ x.scale then twoPow x.scale.toNat else 1
  let below := if x.significand = twoPow 52 && -1074 < x.scale then unit else 2 * unit
  ((4 * num - below, 4 * num + 2 * unit), 4 * den)

/-- The exponent of ten of the first digit of a positive quotient. -/
def leadingExponent (num den : Nat) : Int :=
  (digitCount (num * tenPow 400 / den) : Int) - 401

/-- Whether `d * 10 ^ e` reads back as `x`. -/
def readsBack (x : Double) (d : Nat) (e : Int) : Bool :=
  let ((low, high), den) := x.interval
  let (a, b) := if 0 ≤ e then (d * tenPow e.toNat * den, 1) else (d * den, tenPow (-e).toNat)
  if x.significand % 2 = 0 then low * b ≤ a && a ≤ high * b else low * b < a && a < high * b

/-- Of the two decimals with last place `10 ^ e` next to `x`, the nearest one that reads back. -/
def nearestOn (x : Double) (e : Int) : Option Nat :=
  let (num, den) := x.ratio
  let (a, b) := if 0 ≤ e then (num, den * tenPow e.toNat) else (num * tenPow (-e).toNat, den)
  let d := a / b
  match readsBack x d e, readsBack x (d + 1) e with
  | true, true => some (roundDiv a b)
  | true, false => some d
  | false, true => some (d + 1)
  | false, false => none

/-- The first hit when one more digit is tried each time, at most `tries` times. -/
def shortestFrom (x : Double) : (tries : Nat) → (e : Int) → Nat × Int
  | 0, e => (x.ratio.1, e)
  | tries + 1, e =>
    match nearestOn x e with
    | some d => (d, e)
    | none => shortestFrom x tries (e - 1)

/--
The shortest decimal of a finite number as its digits and the exponent of ten of the last one.
Seventeen digits are always enough.
-/
def shortest (x : Double) : Nat × Int :=
  if x.significand = 0 then (0, 0)
  else shortestFrom x 17 (leadingExponent x.ratio.1 x.ratio.2)

end KclModels.Double
