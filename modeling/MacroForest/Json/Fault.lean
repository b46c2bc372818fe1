/-
**Why a text is refused as settings.**

Main definitions:

* `MacroForest.Json.Found`, `MacroForest.Json.Wanted` — what stands in the text, and what should;
* `MacroForest.Json.Fault` — the causes;
* `MacroForest.Json.Fault.message` — **their wording**.
-/

import MacroForest.Number.Scientific
import MacroForest.Text.Quoted

set_option relaxedAutoImplicit false
set_option autoImplicit false

namespace MacroForest.Json

/-- What stands in a text where something else should. -/
inductive Found where
  | null
  | boolean (value : Bool)
  | integer (value : Int)
  | real (value : Number)
  | string (value : String)
  | sequence
  | map

/-- What should stand there. -/
inductive Wanted where
  /-- An integer of 32 bits. -/
  | word32
  /-- An integer of 64 bits. -/
  | word64
  /-- A number of things. -/
  | size
  | string
  | sequence
  | unit
  | variant
  | settings

/-- The cause of a refusal. -/
inductive Fault where
  | endInValue
  | endInList
  | endInMap
  | endInString
  | expectedColon
  | expectedListEnd
  | expectedMapEnd
  | expectedWord
  | expectedValue
  | badEscape
  | badNumber
  | numberRange
  | controlInString
  | expectedKey
  | loneSurrogate
  | trailingComma
  | trailingText
  | endOfHex
  | mismatch (found : Found) (wanted : Wanted)
  | outOfRange (value : Int) (wanted : Wanted)
  | unknownField (name : String) (known : List String)
  | duplicateField (name : String)
  | unknownVariant (name : String) (first second : String)

/-- A text between grave accents. -/
def graved (s : String) : String := "`" ++ s ++ "`"

/-- The wording for what stands in a text. -/
def Found.text : Found → String
  | .null => "null"
  | .boolean value => "boolean " ++ graved (if value then "true" else "false")
  | .integer value => "integer " ++ graved (toString value)
  | .real value => "floating point " ++ graved value.pointText
  | .string value => "string " ++ Text.quoted value
  | .sequence => "sequence"
  | .map => "map"

/-- The wording for what should stand there. -/
def Wanted.text : Wanted → String
  | .word32 => "u32"
  | .word64 => "u64"
  | .size => "usize"
  | .string => "a string"
  | .sequence => "a sequence"
  | .unit => "unit"
  | .variant => "variant identifier"
  | .settings => "struct ProcessorConfig"

/-- The wording of a refusal. -/
def Fault.message : Fault → String
  | .endInValue => "EOF while parsing a value"
  | .endInList => "EOF while parsing a list"
  | .endInMap => "EOF while parsing an object"
  | .endInString => "EOF while parsing a string"
  | .expectedColon => "expected " ++ graved ":"
  | .expectedListEnd => "expected " ++ graved "," ++ " or " ++ graved "]"
  | .expectedMapEnd => "expected " ++ graved "," ++ " or " ++ graved "\x7d"
  | .expectedWord => "expected ident"
  | .expectedValue => "expected value"
  | .badEscape => "invalid escape"
  | .badNumber => "invalid number"
  | .numberRange => "number out of range"
  | .controlInString => "control character (\\u0000-\\u001F) found while parsing a string"
  | .expectedKey => "key must be a string"
  | .loneSurrogate => "lone leading surrogate in hex escape"
  | .trailingComma => "trailing comma"
  | .trailingText => "trailing characters"
  | .endOfHex => "unexpected end of hex escape"
  | .mismatch found wanted => "invalid type: " ++ found.text ++ ", expected " ++ wanted.text
  | .outOfRange value wanted =>
    "invalid value: " ++ (Found.integer value).text ++ ", expected " ++ wanted.text
  | .unknownField name known =>
    "unknown field " ++ graved name ++ ", expected one of " ++ ", ".intercalate (known.map graved)
  | .duplicateField name => "duplicate field " ++ graved name
  | .unknownVariant name first second =>
    "unknown variant " ++ graved name ++ ", expected " ++ graved first ++ " or " ++ graved second

end MacroForest.Json
