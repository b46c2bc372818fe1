/-
**Numbers with a point or an exponent.**

Where a text must show that a number is not an integer, it is written with at least one place after
the point, and with an exponent if it is very large or very small.

Main definitions:

* `MacroForest.Number.times`, `MacroForest.Number.dividedBy` — products and quotients, correctly
  rounded;
* `MacroForest.Number.scaled?` — a number times a power of ten, in one or few rounded steps;
* `MacroForest.Number.pointText` — the written form with a point or an exponent.
-/

import MacroForest.Number.Text

set_option relaxedAutoImplicit false
set_option autoImplicit false

namespace MacroForest.Number

/-! ### Scaling by powers of ten -/

/-- The product of two finite numbers that are not negative. -/
def times (x y : Number) : Number := ofUnits false (x.magnitude * y.magnitude) unitsPerOne

/-- The quotient of two finite numbers that are not negative, of which the second is not zero. -/
def dividedBy (x y : Number) : Number := ofUnits false (x.magnitude * unitsPerOne) y.magnitude

/-- The greatest power of ten that is a finite double. -/
def maxPower : Nat := 308

/-- The double nearest to a power of ten. -/
def power (exponent : Nat) : Number := ofDecimal false 1 exponent

/-- A finite number times a power of ten, where each step is rounded: one step if the power is a
double, and else divisions by the greatest power until it is.  Fails if the result is too large. -/
def scaled? (x : Number) (exponent : Int) : Option Number :=
  if exponent.natAbs ≤ maxPower then
    if 0 ≤ exponent then
      let y := x.times (power exponent.natAbs)
      if y.isFinite then some y else none
    else some (x.dividedBy (power exponent.natAbs))
  else if x.isZero then some x
  else if 0 ≤ exponent then none
  else scaled? (x.dividedBy (power maxPower)) (exponent + maxPower)
termination_by exponent.natAbs
decreasing_by
  unfold maxPower at *
  omega

/-! ### Written form -/

/-- The exponents of the leading digit with which a number is written positionally. -/
def isPositional (leading : Int) : Bool := decide (-5 ≤ leading) && decide (leading ≤ 15)

/-- A decimal written positionally with at least one place after the point. -/
def withPlaces (d : Decimal) : List Char :=
  if 0 ≤ d.exponent then d.positional ++ ['.', '0'] else d.positional

/-- A decimal written as one digit, its further digits after a point, and an exponent with its sign
and at least two digits. -/
def withExponent (digits : List Char) (leading : Int) : List Char :=
  let fraction := digits.drop 1
  let exponent := decimalDigits leading.natAbs
  digits.take 1 ++ (if fraction.isEmpty then [] else '.' :: fraction) ++
    ['e', if leading < 0 then '-' else '+'] ++ List.replicate (2 - exponent.length) '0' ++ exponent

/-- The written form of a finite number with a point or an exponent. -/
def pointText (x : Number) : String :=
  let d := x.shortest
  let digits := decimalDigits d.digits
  let leading := d.exponent + digits.length - 1
  String.ofList ((if x.negative then ['-'] else []) ++
    if isPositional leading then withPlaces d else withExponent digits leading)

end MacroForest.Number
