/-
**The shortest decimal of a number.**

The reals that round to a finite double form an interval around it.  The text of a number is the
decimal with the fewest digits in that interval, and of two such decimals the one nearer to the
number, so the text reads back as the same number and no shorter one does.

Main definitions:

* `MacroForest.Decimal` — a decimal `digits * 10 ^ exponent`;
* `MacroForest.Number.Span` — the interval of reals that round to a number;
* `MacroForest.Number.shortest` — **the shortest decimal** of a finite number.
-/

import MacroForest.Number.Basic

set_option relaxedAutoImplicit false
set_option autoImplicit false

namespace MacroForest

/-- The decimal `digits * 10 ^ exponent`. -/
structure Decimal where
  /-- The digits, as one natural number. -/
  digits : Nat
  /-- The power of ten of the last digit. -/
  exponent : Int
deriving DecidableEq

namespace Number

/-! ### The interval of a number -/

/-- The reals that round to a number, in units of `2 ^ (-1076)`. -/
structure Span where
  /-- The lower end. -/
  low : Nat
  /-- The number itself. -/
  value : Nat
  /-- The upper end. -/
  high : Nat
  /-- Whether the ends round to the number too. -/
  closed : Bool

/-- The interval of a finite number.  It reaches halfway to the neighbours, of which the lower one
is at half the distance when the significand is the least of its binade; a tie rounds to the even
significand, so the ends belong to the interval of an even one. -/
def span (x : Number) : Span :=
  let m := x.significand
  let unit := pow2 x.unitExponent
  let below := if m = pow2 52 ∧ 0 < x.unitExponent then 1 else 2
  { low := (4 * m - below) * unit, value := 4 * m * unit, high := (4 * m + 2) * unit,
    closed := m % 2 == 0 }

/-- Whether `a` lies in the interval scaled by `s`. -/
def Span.holds (i : Span) (s a : Nat) : Bool :=
  if i.closed then i.low * s ≤ a && a ≤ i.high * s else i.low * s < a && a < i.high * s

/-! ### The search -/

/-- The power of ten of the leading digit of `value` units of `2 ^ (-1076)`, for a value of at
least the least double: scaled by `10 ^ 324` every such value has a digit before the point. -/
def leadingExponent (value : Nat) : Int :=
  (Nat.toDigits 10 (value * pow10 324 / (4 * unitsPerOne))).length - 325

/-- The scale on which the decimals of the search are integers: no digit has a lower power of ten
than the last of seventeen digits of the least double. -/
def searchScale : Nat := pow10 341

/-- The decimal nearest to the number among those of the interval whose last digit has the given
power of ten, if there is one.  Only the two multiples around the number can be, and if both are
at the same distance the larger one is taken. -/
def Span.nearest? (i : Span) (exponent : Int) : Option Decimal :=
  let scale := searchScale
  let unit := pow10 (exponent + 341).toNat * (4 * unitsPerOne)
  let v := i.value * scale
  let q := v / unit
  match i.holds scale (q * unit), i.holds scale ((q + 1) * unit) with
  | true, true => some ⟨if 2 * (v % unit) < unit then q else q + 1, exponent⟩
  | true, false => some ⟨q, exponent⟩
  | false, true => some ⟨q + 1, exponent⟩
  | false, false => none

/-- Moves trailing zeros of the digits into the exponent, at most `fuel` of them. -/
def trimZeros : Nat → Decimal → Decimal
  | 0, d => d
  | fuel + 1, d =>
    if d.digits ≠ 0 ∧ d.digits % 10 = 0 then trimZeros fuel ⟨d.digits / 10, d.exponent + 1⟩ else d

/-- The shortest decimal that reads back as the magnitude of a finite number.  Seventeen digits
tell any two doubles apart, so the search ends within the range. -/
def shortest (x : Number) : Decimal :=
  if x.isZero then ⟨0, 0⟩
  else
    let i := x.span
    let lead := leadingExponent i.value
    let hit := (List.range 17).findSome? fun (k : Nat) => i.nearest? (lead - k)
    trimZeros 18 (hit.getD ⟨0, 0⟩)

end Number

end MacroForest
