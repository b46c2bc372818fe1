/-
**Text within quotes, for inspection.**

The inspected form of a text stands within double quotes.  In it, a quote and a backslash follow a
backslash, some controls have a letter, and any other character that cannot be seen is its code
point in hexadecimal digits.

Main definitions:

* `MacroForest.Text.spell` — one character within quotes;
* `MacroForest.Text.quoted` — **the inspected form of a text**;
* `MacroForest.Text.optional`, `MacroForest.Text.sequence` — of an optional thing and of several.
-/

import MacroForest.Text.Visible

set_option relaxedAutoImplicit false
set_option autoImplicit false

namespace MacroForest.Text

/-- The code point of a character, spelled out. -/
def codePoint (c : Char) : List Char :=
  ['\\', 'u', '\x7b'] ++ Nat.toDigits 16 c.toNat ++ ['\x7d']

/-- A character as it is spelled within quotes. -/
def spell (c : Char) : List Char :=
  match c with
  | '"' => ['\\', '"']
  | '\\' => ['\\', '\\']
  | '\n' => ['\\', 'n']
  | '\r' => ['\\', 'r']
  | '\t' => ['\\', 't']
  | '\x00' => ['\\', '0']
  | c => if isVisible c then [c] else codePoint c

/-- The inspected form of a text. -/
def quoted (s : String) : String := String.ofList ('"' :: s.toList.flatMap spell ++ ['"'])

/-- The inspected form of something optional. -/
def optional {α : Type} (inspect : α → String) : Option α → String
  | some a => "Some(" ++ inspect a ++ ")"
  | none => "None"

/-- The inspected form of several things. -/
def sequence {α : Type} (inspect : α → String) (items : List α) : String :=
  "[" ++ ", ".intercalate (items.map inspect) ++ "]"

end MacroForest.Text
