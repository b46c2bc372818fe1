/-
**Numbers as text.**

Numbers are written positionally, with the digits of their shortest decimal and never an exponent.
They are read from a sign, digits, an optional fraction and an optional power of ten.

Main definitions:

* `MacroForest.Number.text` — the written form of a number;
* `MacroForest.digitsValue` — the value of a string of decimal digits;
* `MacroForest.Number.ofParts` — the number that a sign, digits and exponent denote.
-/

import MacroForest.Number.Shortest

set_option relaxedAutoImplicit false
set_option autoImplicit false

namespace MacroForest

/-- The decimal digits of a natural number. -/
def decimalDigits (n : Nat) : List Char := Nat.toDigits 10 n

/-- The value of a string of decimal digits. -/
def digitsValue (digits : List Char) : Nat :=
  digits.foldl (fun n c => 10 * n + (c.toNat - '0'.toNat)) 0

/-- A decimal written positionally: zeros fill the places between its digits and the point, and
there is no point without digits after it. -/
def Decimal.positional (d : Decimal) : List Char :=
  let digits := decimalDigits d.digits
  if 0 ≤ d.exponent then digits ++ List.replicate d.exponent.toNat '0'
  else
    let places := (-d.exponent).toNat
    let padded := List.replicate (places + 1 - digits.length) '0' ++ digits
    padded.take (padded.length - places) ++ '.' :: padded.drop (padded.length - places)

namespace Number

/-- The characters of a number: `NaN`, a signed `inf`, or a sign and a positional decimal. -/
def chars (x : Number) : List Char :=
  let sign := if x.negative then ['-'] else []
  if x.isNaN then "NaN".toList
  else if x.isFinite then sign ++ x.shortest.positional
  else sign ++ "inf".toList

/-- The written form of a number. -/
def text (x : Number) : String := String.ofList x.chars

/-- The number written as a sign, the digits before and after the point, and a power of ten. -/
def ofParts (negative : Bool) (whole fraction : List Char) (exponent : Int) : Number :=
  ofDecimal negative (digitsValue (whole ++ fraction)) (exponent - fraction.length)

end Number

end MacroForest
