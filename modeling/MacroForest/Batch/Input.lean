/-
**Inputs of a batch, and what becomes of them.**

An input is a text or a forest under a file name.  It can bring a parser and a printer of its own.
What becomes of it is a forest and the way in which the work on it ended.

Main definitions:

* `MacroForest.Parser`, `MacroForest.Printer` — between texts and forests;
* `MacroForest.Input` — one unit of work;
* `MacroForest.Status`, `MacroForest.Processed` — the result for one input.
-/

import MacroForest.Error
import MacroForest.Macro.Inspect

set_option relaxedAutoImplicit false
set_option autoImplicit false

namespace MacroForest

/-! ### Parsers and printers -/

/-- How a parser ends. -/
inductive ParserOutcome where
  /-- With a forest. -/
  | parsed (forest : Forest)
  /-- With an error. -/
  | refused (error : PipelineError)
  /-- It breaks down. -/
  | crashed

/-- All that a parser does: it writes its messages and then takes its time. -/
structure ParserReply where
  /-- The messages written. -/
  messages : List Message := []
  /-- The end. -/
  outcome : ParserOutcome
  /-- How long it takes, in ticks. -/
  elapsed : Nat := 0

/-- A parser: from a text and the name of its file. -/
abbrev Parser := String → String → ParserReply

/-- A printer of forests. -/
abbrev Printer := Forest → String

/-- The parser of the notation. -/
def Parser.standard : Parser := fun text _ =>
  match parse text with
  | .ok forest => { outcome := .parsed forest }
  | .error e => { outcome := .refused (.parse e) }

/-- The printer of the notation. -/
def Printer.standard : Printer := forestText

/-! ### Inputs -/

/-- What an input starts from. -/
inductive Source where
  | text (content : String)
  | nodes (forest : Forest)

/-- One unit of work. -/
structure Input where
  /-- The name that messages and results carry. -/
  fileName : String
  /-- What it starts from. -/
  source : Source
  /-- Its own parser. -/
  parser? : Option Parser := none
  /-- Its own printer. -/
  printer? : Option Printer := none
  /-- Anything that its result is to carry. -/
  tag : Option String := none

/-- The inspected form of a source. -/
def Source.inspect : Source → String
  | .text content => "Text(" ++ Text.quoted content ++ ")"
  | .nodes forest => "Nodes(" ++ Text.sequence Node.inspect forest ++ ")"

/-- The inspected form of an input. -/
def Input.inspect (i : Input) : String :=
  inspectRecord "InputOutput"
    [ ("file_name", Text.quoted i.fileName),
      ("source", i.source.inspect),
      ("output_tag", Text.optional Text.quoted i.tag) ]

/-! ### Results -/

/-- How the work on an input ended. -/
inductive Status where
  | completed
  /-- It took too long. -/
  | timedOut
  /-- A macro asked to stop. -/
  | cancelled
  /-- There is no forest. -/
  | parseFailed
deriving DecidableEq, Inhabited

/-- The name of a status. -/
def Status.name : Status → String
  | .completed => "Completed"
  | .timedOut => "TimedOut"
  | .cancelled => "Cancelled"
  | .parseFailed => "ParseFailed"

/-- The result for one input. -/
structure Processed where
  /-- The name of the input. -/
  fileName : String
  /-- What the input asked to carry. -/
  tag : Option String
  /-- The forest before expansion. -/
  input : Forest
  /-- The forest after expansion. -/
  output : Forest
  /-- How the work ended. -/
  status : Status
  /-- The printer for both forests. -/
  printer : Printer

namespace Processed

/-- The text of the output. -/
def text (p : Processed) : String := p.printer p.output

/-- The text of the forest before expansion. -/
def inputText (p : Processed) : String := p.printer p.input

/-- Whether the work was completed. -/
def isCompleted (p : Processed) : Bool := p.status == .completed

/-- The inspected form of a result. -/
def inspect (p : Processed) : String :=
  inspectRecord "ProcessedInput"
    [ ("file_name", Text.quoted p.fileName),
      ("status", p.status.name),
      ("output", Text.sequence Node.inspect p.output) ]

end Processed

end MacroForest
