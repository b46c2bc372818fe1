/-
**Numbers: double-precision values with exact arithmetic.**

A number literal holds an IEEE-754 double, kept as its 64-bit word.  Every finite double is an
integer multiple of `2 ^ (-1074)`, so its magnitude is a natural number of these units, and the
questions the notation asks of a number (is it the same number, which decimal reads back as it,
which double is nearest to a decimal) are questions about natural numbers.

A NaN is not equal to any number, itself included.  Still, a literal that is compared with itself is
found to be the same without a look at its value.  So a NaN is told apart by the cell of memory that
its literal is kept in, and the cell is part of the NaN.  Other numbers have no cell to speak of.

Main definitions:

* `MacroForest.pow2`, `MacroForest.pow10` — the powers of two and of ten;
* `MacroForest.Cell` — a place in memory;
* `MacroForest.Number` — a double, by its word, and the cell of a NaN;
* `MacroForest.Number.magnitude` — the size of a finite double in units of `2 ^ (-1074)`;
* `MacroForest.Number.same` — equality: a NaN is the same only as itself, the two zeros agree;
* `MacroForest.Number.ofUnits` — **rounding**: the double nearest to a fraction of units, a tie
  going to the even significand.
-/

set_option relaxedAutoImplicit false
set_option autoImplicit false

namespace MacroForest

/-- The powers of two. -/
@[irreducible] def pow2 (n : Nat) : Nat := Nat.pow 2 n

/-- The powers of ten. -/
@[irreducible] def pow10 (n : Nat) : Nat := Nat.pow 10 n

/-- A place in memory. -/
inductive Cell where
  /-- What is kept there was made by somebody else: who read the tree, or a macro. -/
  | given (index : Nat)
  /-- What is kept there was made in an expansion, when it expanded the children of a node.  The
  expansion numbers the nodes for which it does so. -/
  | opening (index : Nat)
deriving DecidableEq

instance : Inhabited Cell := ⟨.given 0⟩

/-- Whether a word is that of a NaN: the exponent field is full, and the fraction is not zero. -/
def isNaNWord (bits : UInt64) : Bool :=
  bits.toNat / pow2 52 % 2048 == 2047 && bits.toNat % pow2 52 != 0

/-- A double-precision number, given by its IEEE-754 word.  Only a NaN has a cell of its own. -/
structure Number where
  /-- Sign, biased exponent and fraction, from the highest bit down. -/
  bits : UInt64
  /-- The cell that the literal is kept in. -/
  cell : Cell
  cell_eq : isNaNWord bits = false → cell = default
deriving DecidableEq

namespace Number

/-- The number with a word; a NaN is in the first cell. -/
def ofBits (bits : UInt64) : Number := ⟨bits, default, fun _ => rfl⟩

instance : Inhabited Number := ⟨ofBits 0⟩

/-! ### The parts of a word -/

/-- The word as a natural number. -/
def word (x : Number) : Nat := x.bits.toNat

/-- The sign bit. -/
def negative (x : Number) : Bool := decide (pow2 63 ≤ x.word)

/-- The biased exponent field, `2047` for infinities and NaNs. -/
def exponentField (x : Number) : Nat := x.word / pow2 52 % 2048

/-- The fraction field. -/
def fraction (x : Number) : Nat := x.word % pow2 52

/-- Neither an infinity nor a NaN. -/
def isFinite (x : Number) : Bool := x.exponentField != 2047

/-- Not a number. -/
def isNaN (x : Number) : Bool := x.exponentField == 2047 && x.fraction != 0

/-- The significand of a finite number: the fraction, with its leading one unless subnormal. -/
def significand (x : Number) : Nat :=
  if x.exponentField = 0 then x.fraction else pow2 52 + x.fraction

/-- The exponent of the unit of the significand, counted from `2 ^ (-1074)`. -/
def unitExponent (x : Number) : Nat := x.exponentField - 1

/-- The magnitude of a finite number, in units of `2 ^ (-1074)`. -/
def magnitude (x : Number) : Nat := x.significand * pow2 x.unitExponent

/-- Either of the two zeros. -/
def isZero (x : Number) : Bool := x.word % pow2 63 == 0

/-! ### Equality of values -/

/-- The number in another cell, which makes a difference for a NaN only. -/
def inCell (cell : Cell) (x : Number) : Number where
  bits := x.bits
  cell := if isNaNWord x.bits then cell else default
  cell_eq h := by simp [h]

/-- Two numbers are the same: they have one word, or both are zeros.  Two NaNs are the same only if
they are in one cell. -/
def same (x y : Number) : Bool := decide (x = y) || (x.isZero && y.isZero)

instance : BEq Number := ⟨same⟩

/-! ### Construction -/

/-- The number with the given sign, significand below `2 ^ 53` and unit exponent. -/
def make (negative : Bool) (significand unit : Nat) : Number :=
  let magnitude :=
    if significand < pow2 52 then significand
    else (unit + 1) * pow2 52 + (significand - pow2 52)
  ofBits ((if negative then pow2 63 else 0) + magnitude).toUInt64

/-- Zero with the given sign. -/
def zero (negative : Bool) : Number := make negative 0 0

/-- The infinity with the given sign. -/
def infinity (negative : Bool) : Number :=
  ofBits ((if negative then pow2 63 else 0) + 2047 * pow2 52).toUInt64

/-- The quotient `a / d` rounded to the nearest integer, a tie going to the even one. -/
def roundQuotient (a d : Nat) : Nat :=
  let q := a / d
  let r := a % d
  if 2 * r < d then q
  else if d < 2 * r then q + 1
  else if q % 2 = 0 then q else q + 1

/-- The double nearest to `a / d` units of `2 ^ (-1074)`.  The unit of the result is the least one
that leaves a significand of at most 53 bits; rounding up to `2 ^ 53` moves to the next unit. -/
def ofUnits (negative : Bool) (a d : Nat) : Number :=
  let unit := (a / d).log2 - 52
  let m := roundQuotient a (d * pow2 unit)
  let (m, unit) := if m = pow2 53 then (pow2 52, unit + 1) else (m, unit)
  if 2045 < unit then infinity negative else make negative m unit

/-- The units of `2 ^ (-1074)` in one. -/
def unitsPerOne : Nat := pow2 1074

/-- The double nearest to a natural number. -/
def ofNat (n : Nat) : Number := ofUnits false (n * unitsPerOne) 1

/-- The double nearest to `± digits * 10 ^ exponent`.  Decimals far outside the range of doubles
are settled by their length alone, so the powers of ten stay small. -/
def ofDecimal (negative : Bool) (digits : Nat) (exponent : Int) : Number :=
  let length : Int := (Nat.toDigits 10 digits).length
  if digits = 0 ∨ exponent + length < -323 then zero negative
  else if 310 ≤ exponent + length then infinity negative
  else if 0 ≤ exponent then ofUnits negative (digits * pow10 exponent.toNat * unitsPerOne) 1
  else ofUnits negative (digits * unitsPerOne) (pow10 (-exponent).toNat)

end Number

end MacroForest
