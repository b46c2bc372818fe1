/-
**Settings in YAML.**

Settings are a map of fields, all of them optional.  Numbers are plain scalars; any scalar is a
string.

Main definitions:

* `MacroForest.Yaml.natural?` — the number of a plain scalar;
* `MacroForest.Settings.ofYaml?` — **the settings of a YAML text**, unless it is refused.
-/

import MacroForest.Settings.Json
import MacroForest.Yaml.Node

set_option relaxedAutoImplicit false
set_option autoImplicit false

namespace MacroForest

namespace Yaml

/-! ### Scalars -/

/-- The value of digits in a base, of which there is at least one. -/
def digits? (base : Nat) (cs : List Char) : Option Nat :=
  if cs.isEmpty then none
  else
    cs.foldlM (fun n c =>
      (Text.hexValue? c).bind fun d => if d < base then some (base * n + d) else none) 0

/-- The number of a plain scalar: decimal without leading zeros, or in another base behind its
mark. -/
def natural? (text : String) : Option Nat :=
  let unsigned := match text.toList with
    | '+' :: cs => cs
    | cs => cs
  match unsigned with
  | '0' :: 'x' :: cs => digits? 16 cs
  | '0' :: 'o' :: cs => digits? 8 cs
  | '0' :: 'b' :: cs => digits? 2 cs
  | '0' :: _ :: _ => none
  | cs => digits? 10 cs

/-- Whether a plain scalar stands for null. -/
def isNull (text : String) : Bool :=
  text == "null" || text == "Null" || text == "NULL" || text == "~"

/-- The tag of integers. -/
def integerTag : String := "tag:yaml.org,2002:int"

/-- The tag of null. -/
def nullTag : String := "tag:yaml.org,2002:null"

namespace Node

/-- A natural number up to a bound. -/
def toNat? (bound : Nat) : Node → Option Nat
  | .scalar style tag text =>
    if style = .plain ∨ (style = .literal ∧ tag = some integerTag) then
      (natural? text).filter (· ≤ bound)
    else none
  | _ => none

/-- A natural number up to a bound, or null. -/
def toOptional? (bound : Nat) (n : Node) : Option (Option Nat) :=
  match n with
  | .scalar .plain none text =>
    if text.isEmpty || isNull text then some none else (n.toNat? bound).map some
  | .scalar .plain (some tag) text =>
    if tag = nullTag then (if isNull text then some none else none)
    else (n.toNat? bound).map some
  | _ => (n.toNat? bound).map some

/-- The text of a scalar. -/
def toText? : Node → Option String
  | .scalar _ _ text => some text
  | _ => none

/-- A list of strings.  Nothing is a list without items. -/
def toTexts? : Node → Option (List String)
  | .list items => items.mapM toText?
  | .scalar .plain _ "" => some []
  | _ => none

/-- A mode: its word, or its word as a tag of nothing. -/
def toMode? : Node → Option BatchMode
  | .scalar style (some tag) text =>
    match tag.toList with
    | '!' :: word =>
      if style = .plain ∧ (text.isEmpty ∨ isNull text) then
        BatchMode.ofWord? (String.ofList word)
      else none
    | _ => BatchMode.ofWord? text
  | .scalar _ none text => BatchMode.ofWord? text
  | _ => none

end Node

/-! ### Settings -/

/-- Reads the value of a field into some settings. -/
def readField (field : Settings.Field) (s : Settings) (n : Node) : Option Settings :=
  match field with
  | .maxExpansions => (n.toNat? (UInt32.size - 1)).map fun value => { s with maxExpansions := value }
  | .timeoutMs => (n.toOptional? (UInt64.size - 1)).map fun value => { s with timeoutMs := value }
  | .preOpened => n.toTexts?.map fun value => { s with preOpened := value }
  | .mode => n.toMode?.map fun value => { s with mode := value }
  | .workers => (n.toOptional? (UInt64.size - 1)).map fun value => { s with workers := value }

/-- The fields of a map, of which none may be repeated; `left` are the fields not read yet. -/
def readFields : List (Node × Node) → List Settings.Field → Settings → Option Settings
  | [], _, s => some s
  | (key, value) :: pairs, left, s => do
    let field ← Settings.Field.ofName? (← key.toText?)
    if !left.contains field then none
    readFields pairs (left.erase field) (← readField field s value)

/-- The settings of a tree. -/
def settings? : Node → Option Settings
  | .map pairs => readFields pairs Settings.Field.all {}
  | .scalar .plain _ "" => some {}
  | _ => none

end Yaml

/-- The settings of a YAML text.  A text without a document leaves all fields at their
defaults. -/
def Settings.ofYaml? (text : String) : Option Settings := do
  match ← Yaml.document? text with
  | none => return {}
  | some node => Yaml.settings? node

end MacroForest
