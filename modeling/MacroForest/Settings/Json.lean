/-
**Settings in JSON.**

Settings are a map of fields, all of them optional, or a list of the fields' values in their order.
The first fault from the left decides: a field is refused at its name, before its value is looked
at.

Main definitions:

* `MacroForest.Settings.Field` — the fields, in their order;
* `MacroForest.Json.readField` — the value of a field;
* `MacroForest.Settings.ofJson` — **the settings of a JSON text**.
-/

import MacroForest.Error
import MacroForest.Json.Token
import MacroForest.Settings.Basic

set_option relaxedAutoImplicit false
set_option autoImplicit false

namespace MacroForest

/-! ### Fields -/

/-- The fields of settings. -/
inductive Settings.Field where
  | maxExpansions
  | timeoutMs
  | preOpened
  | mode
  | workers
deriving DecidableEq

namespace Settings.Field

/-- All fields, in their order. -/
def all : List Field := [.maxExpansions, .timeoutMs, .preOpened, .mode, .workers]

/-- The name of a field. -/
def name : Field → String
  | .maxExpansions => "max_expansions"
  | .timeoutMs => "timeout_ms"
  | .preOpened => "pre_opened_namespaces"
  | .mode => "mode"
  | .workers => "workers"

/-- The field of a name. -/
def ofName? (name : String) : Option Field := all.find? (·.name == name)

end Settings.Field

namespace Json

/-- A reader of the front of some tokens. -/
abbrev Read (α : Type) := List Token → Except Fault (α × List Token)

/-! ### Values -/

/-- The fault of a token in the place of something else. -/
def mismatch (wanted : Wanted) : Token → Fault
  | .word (.ok none) => .mismatch .null wanted
  | .word (.ok (some value)) => .mismatch (.boolean value) wanted
  | .word (.error fault) => fault
  | .number (.ok value) => .mismatch value.found wanted
  | .number (.error fault) => fault
  | .string (.ok value) => .mismatch (.string value) wanted
  | .string (.error fault) => fault
  | .listOpen => .mismatch .sequence wanted
  | .mapOpen => .mismatch .map wanted
  | _ => .expectedValue

/-- A natural number up to a bound. -/
def readNat (wanted : Wanted) (bound : Nat) : Read Nat
  | [] => .error .endInValue
  | .number (.ok (.integer value)) :: rest =>
    if 0 ≤ value ∧ value ≤ bound then .ok (value.toNat, rest) else .error (.outOfRange value wanted)
  | token :: _ => .error (mismatch wanted token)

/-- A natural number up to a bound, or null. -/
def readOptional (wanted : Wanted) (bound : Nat) : Read (Option Nat)
  | .word (.ok none) :: rest => .ok (none, rest)
  | tokens => (readNat wanted bound tokens).map fun (value, rest) => (some value, rest)

/-- The strings of a list behind its first one, up to its end. -/
def readMoreStrings : Read (List String)
  | [] => .error .endInList
  | .listClose :: rest => .ok ([], rest)
  | [.comma] => .error .endInValue
  | .comma :: .listClose :: _ => .error .trailingComma
  | .comma :: .string (.ok value) :: rest =>
    (readMoreStrings rest).map fun (values, rest) => (value :: values, rest)
  | .comma :: token :: _ => .error (mismatch .string token)
  | _ :: _ => .error .expectedListEnd

/-- A list of strings. -/
def readStrings : Read (List String)
  | [] => .error .endInValue
  | [.listOpen] => .error .endInList
  | .listOpen :: .listClose :: rest => .ok ([], rest)
  | .listOpen :: .string (.ok value) :: rest =>
    (readMoreStrings rest).map fun (values, rest) => (value :: values, rest)
  | .listOpen :: token :: _ => .error (mismatch .string token)
  | token :: _ => .error (mismatch .sequence token)

/-- The mode of a word. -/
def modeOf (word : String) : Except Fault BatchMode :=
  match BatchMode.ofWord? word with
  | some mode => .ok mode
  | none =>
    .error (.unknownVariant word BatchMode.sequential.word BatchMode.concurrent.word)

/-- What follows the word in a mode that is written as a map: a null and the end of the map. -/
def readModeEnd (mode : BatchMode) : Read BatchMode
  | [] => .error .endInMap
  | [.colon] => .error .endInValue
  | [.colon, .word (.ok none)] => .error .endInMap
  | .colon :: .word (.ok none) :: .mapClose :: rest => .ok (mode, rest)
  | .colon :: .word (.ok none) :: _ :: _ => .error .expectedValue
  | .colon :: token :: _ => .error (mismatch .unit token)
  | _ :: _ => .error .expectedColon

/-- A mode: its word, or a map from its word to null. -/
def readMode : Read BatchMode
  | [] => .error .endInValue
  | .string (.ok word) :: rest => (modeOf word).map fun mode => (mode, rest)
  | .string (.error fault) :: _ => .error fault
  | [.mapOpen] => .error .endInValue
  | .mapOpen :: .string (.ok word) :: rest => do readModeEnd (← modeOf word) rest
  | .mapOpen :: token :: _ => .error (mismatch .variant token)
  | _ :: _ => .error .expectedValue

/-- Reads the value of a field into some settings. -/
def readField (field : Settings.Field) (s : Settings) : Read Settings := fun tokens =>
  match field with
  | .maxExpansions =>
    (readNat .word32 (UInt32.size - 1) tokens).map fun (value, rest) =>
      ({ s with maxExpansions := value }, rest)
  | .timeoutMs =>
    (readOptional .word64 (UInt64.size - 1) tokens).map fun (value, rest) =>
      ({ s with timeoutMs := value }, rest)
  | .preOpened =>
    (readStrings tokens).map fun (value, rest) => ({ s with preOpened := value }, rest)
  | .mode => (readMode tokens).map fun (value, rest) => ({ s with mode := value }, rest)
  | .workers =>
    (readOptional .size (UInt64.size - 1) tokens).map fun (value, rest) =>
      ({ s with workers := value }, rest)

/-! ### Settings -/

/-- The field of a key that is not among those read already. -/
def fieldOf (left : List Settings.Field) (key : String) :
    Except Fault { field : Settings.Field // field ∈ left } :=
  match Settings.Field.ofName? key with
  | none => .error (.unknownField key (Settings.Field.all.map (·.name)))
  | some field => if h : field ∈ left then .ok ⟨field, h⟩ else .error (.duplicateField key)

/-- The colon behind a key. -/
def readColon : List Token → Except Fault (List Token)
  | .colon :: rest => .ok rest
  | [] => .error .endInMap
  | _ :: _ => .error .expectedColon

/-- The key of the next field of a map, or none at its end; `first` tells that no field has been
read. -/
def readKey (first : Bool) : Read (Option String)
  | [] => .error .endInMap
  | .mapClose :: rest => .ok (none, rest)
  | .comma :: rest =>
    if first then .error .expectedKey
    else
      match rest with
      | .string (.ok key) :: rest => .ok (some key, rest)
      | .string (.error fault) :: _ => .error fault
      | .mapClose :: _ => .error .trailingComma
      | _ :: _ => .error .expectedKey
      | [] => .error .endInValue
  | .string content :: rest =>
    if first then content.map fun key => (some key, rest) else .error .expectedMapEnd
  | _ :: _ => .error (if first then .expectedKey else .expectedMapEnd)

/-- The fields of a map; `left` are the fields not read yet. -/
def readFields (left : List Settings.Field) (first : Bool) (s : Settings) : Read Settings :=
  fun tokens => do
    match ← readKey first tokens with
    | (none, rest) => return (s, rest)
    | (some key, rest) =>
      let ⟨field, _⟩ ← fieldOf left key
      let (s, rest) ← readField field s (← readColon rest)
      readFields (left.erase field) false s rest
termination_by left.length
decreasing_by
  rename_i h
  have := List.length_pos_of_mem h
  rw [List.length_erase_of_mem h]
  omega

/-- The values of the fields of a list, in their order. -/
def readValues : List Settings.Field → Bool → Settings → Read Settings
  | [], _, s => fun
    | [] => .error .endInList
    | .listClose :: rest => .ok (s, rest)
    | .comma :: .listClose :: _ => .error .trailingComma
    | _ :: _ => .error .trailingText
  | field :: left, first, s => fun
    | [] => .error .endInList
    | .listClose :: rest => .ok (s, rest)
    | .comma :: rest => do
      if first then throw (mismatch .settings .comma)
      match rest with
      | [] => throw .endInValue
      | .listClose :: _ => throw .trailingComma
      | rest =>
        let (s, rest) ← readField field s rest
        readValues left false s rest
    | token :: rest => do
      if !first then throw .expectedListEnd
      let (s, rest) ← readField field s (token :: rest)
      readValues left false s rest

/-- Settings. -/
def readSettings : Read Settings
  | [] => .error .endInValue
  | .listOpen :: rest => readValues Settings.Field.all true {} rest
  | .mapOpen :: rest => readFields Settings.Field.all true {} rest
  | token :: _ => .error (mismatch .settings token)

end Json

/-- The settings of a JSON text. -/
def Settings.ofJson (text : String) : Except Json.Fault Settings := do
  match ← Json.readSettings (Json.tokens text.toList) with
  | (s, []) => return s
  | (_, _ :: _) => throw .trailingText

end MacroForest
