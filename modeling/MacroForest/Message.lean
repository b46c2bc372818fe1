/-
**Messages: what an expansion has to say.**

A message has a severity, the node that it is about, and a text.  A holder keeps the messages that
are at least as severe as its threshold, in the order in which they arrive.

Main definitions:

* `MacroForest.Severity`, `MacroForest.Message` — messages and their order of severity;
* `MacroForest.Holder` — a threshold and the messages that passed it;
* `MacroForest.TraceEvent` — a message as an event of a log.
-/

import MacroForest.Node.Printer

set_option relaxedAutoImplicit false
set_option autoImplicit false

namespace MacroForest

/-! ### Severities -/

/-- The severity of a message, from the least to the most severe. -/
inductive Severity where
  | detail
  | verbose
  | debug
  | warning
  | error
deriving DecidableEq, Inhabited

namespace Severity

/-- The place in the order of severities. -/
def rank : Severity → Nat
  | .detail => 0
  | .verbose => 1
  | .debug => 2
  | .warning => 3
  | .error => 4

instance : LE Severity := ⟨fun a b => a.rank ≤ b.rank⟩

instance : LT Severity := ⟨fun a b => a.rank < b.rank⟩

instance (a b : Severity) : Decidable (a ≤ b) := inferInstanceAs (Decidable (a.rank ≤ b.rank))

instance (a b : Severity) : Decidable (a < b) := inferInstanceAs (Decidable (a.rank < b.rank))

/-- The word for a severity. -/
def word : Severity → String
  | .detail => "detail"
  | .verbose => "verbose"
  | .debug => "debug"
  | .warning => "warning"
  | .error => "error"

/-- The severity of a word. -/
def ofWord? : String → Option Severity
  | "detail" => some .detail
  | "verbose" => some .verbose
  | "debug" => some .debug
  | "warning" => some .warning
  | "error" => some .error
  | _ => none

/-- The more severe of two. -/
def max (a b : Severity) : Severity := if a < b then b else a

/-- The most severe of a list. -/
def maximum? : List Severity → Option Severity
  | [] => none
  | s :: ss => some (ss.foldl max s)

end Severity

/-! ### Messages -/

/-- A message about a node. -/
structure Message where
  /-- How severe it is. -/
  severity : Severity
  /-- The node that it is about. -/
  context : Node
  /-- What it says. -/
  text : String

/-- A message on one line. -/
def Message.line (m : Message) : String := m.severity.word ++ ": " ++ m.text

/-! ### Holders -/

/-- The messages that reached a threshold, in the order of arrival. -/
structure Holder where
  /-- The least severity that is kept. -/
  least : Severity
  /-- The messages kept. -/
  messages : Array Message

namespace Holder

/-- A holder without messages. -/
def empty (least : Severity) : Holder := ⟨least, #[]⟩

/-- Whether messages of a severity are kept. -/
def enabled (h : Holder) (s : Severity) : Bool := decide (h.least ≤ s)

/-- Keeps a message if it is severe enough. -/
def write (h : Holder) (m : Message) : Holder :=
  if h.enabled m.severity then { h with messages := h.messages.push m } else h

/-- Writes some messages in order. -/
def writeAll (h : Holder) (ms : List Message) : Holder := ms.foldl write h

/-- The messages from index `a` up to index `b`, if there are that many. -/
def slice? (h : Holder) (a b : Nat) : Option (List Message) :=
  if a ≤ b ∧ b ≤ h.messages.size then some ((h.messages.toList.take b).drop a) else none

/-- The greatest severity from index `a` up to index `b`, if there are that many messages. -/
def maxSeverity? (h : Holder) (a b : Nat) : Option (Option Severity) :=
  (h.slice? a b).map fun ms => Severity.maximum? (ms.map (·.severity))

/-- The number of messages of exactly one severity. -/
def count (h : Holder) (s : Severity) : Nat := h.messages.toList.countP (·.severity == s)

/-- Removes all messages. -/
def clear (h : Holder) : Holder := { h with messages := #[] }

end Holder

/-! ### Log events -/

/-- The level of a log event. -/
inductive TraceLevel where
  | error
  | warn
  | debug
  | trace

/-- The name of a level. -/
def TraceLevel.name : TraceLevel → String
  | .error => "ERROR"
  | .warn => "WARN"
  | .debug => "DEBUG"
  | .trace => "TRACE"

/-- A message as an event of a log.  Two severities share the lowest level, and their events name
the severity. -/
structure TraceEvent where
  /-- The level of the event. -/
  level : TraceLevel
  /-- The text of the message. -/
  text : String
  /-- The written form of its node. -/
  context : String
  /-- The severity, where the level does not tell it. -/
  severity : Option Severity

/-- The event of a message. -/
def TraceEvent.of (m : Message) : TraceEvent :=
  let level : TraceLevel × Option Severity :=
    match m.severity with
    | .error => (.error, none)
    | .warning => (.warn, none)
    | .debug => (.debug, none)
    | s => (.trace, some s)
  ⟨level.1, m.text, m.context.text, level.2⟩

/-- A log takes warnings and errors unless it is told otherwise. -/
def TraceEvent.defaultLeast : Severity := .warning

/-- The events of some messages, for a log with a threshold. -/
def traceEvents (least : Severity) (ms : List Message) : List TraceEvent :=
  (ms.filter fun m => decide (least ≤ m.severity)).map TraceEvent.of

end MacroForest
