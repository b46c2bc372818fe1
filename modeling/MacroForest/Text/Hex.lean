/-
**Hexadecimal digits.**

Main definitions:

* `MacroForest.Text.hexValue?` — the value of a digit in either case.
-/

set_option relaxedAutoImplicit false
set_option autoImplicit false

namespace MacroForest.Text

/-- The value of a hexadecimal digit. -/
def hexValue? (c : Char) : Option Nat :=
  if c.isDigit then some (c.toNat - '0'.toNat)
  else if 'a' ≤ c ∧ c ≤ 'f' then some (c.toNat - 'a'.toNat + 10)
  else if 'A' ≤ c ∧ c ≤ 'F' then some (c.toNat - 'A'.toNat + 10)
  else none

end MacroForest.Text
