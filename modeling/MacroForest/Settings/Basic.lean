/-
**Settings.**

The settings of a batch: the budget of each input, the time each may take, the namespaces that are
open at the start, and how the inputs are scheduled.

Main definitions:

* `MacroForest.Settings` — the settings with their defaults;
* `MacroForest.Settings.timeout?` — the time an input may take, if there is a limit.
-/

import MacroForest.Scope

set_option relaxedAutoImplicit false
set_option autoImplicit false

namespace MacroForest

/-- How the inputs of a batch are scheduled. -/
inductive BatchMode where
  /-- One after another. -/
  | sequential
  /-- On several workers. -/
  | concurrent
deriving DecidableEq, Inhabited

/-- The word for a mode. -/
def BatchMode.word : BatchMode → String
  | .sequential => "sequential"
  | .concurrent => "concurrent"

/-- The mode of a word. -/
def BatchMode.ofWord? : String → Option BatchMode
  | "sequential" => some .sequential
  | "concurrent" => some .concurrent
  | _ => none

/-- The settings of a batch. -/
structure Settings where
  /-- The budget of each input. -/
  maxExpansions : Nat := 65535
  /-- The milliseconds each input may take; none or zero is no limit. -/
  timeoutMs : Option Nat := some 30000
  /-- The namespaces open at the start of each input. -/
  preOpened : List String := []
  /-- How the inputs are scheduled. -/
  mode : BatchMode := .sequential
  /-- The number of workers; none or zero leaves it open. -/
  workers : Option Nat := none
deriving DecidableEq, Inhabited

namespace Settings

/-- The milliseconds each input may take, if there is a limit. -/
def timeout? (s : Settings) : Option Nat := s.timeoutMs.filter (0 < ·)

/-- The set of namespaces open at the start. -/
def openSet (s : Settings) : NameSet := NameSet.ofList s.preOpened

end Settings

end MacroForest
