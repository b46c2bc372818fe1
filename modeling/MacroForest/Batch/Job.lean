/-
**The work on one input.**

A job turns the source of an input into a forest and expands it.  It starts at some time of the
clock, and if it may take only so long it finds itself cancelled from its deadline on.  A parser and
a macro may take any time, but they are taken to come to an end.

Main definitions:

* `MacroForest.Processor` — what all jobs have in common;
* `MacroForest.JobOutcome` — what a job finds out;
* `MacroForest.JobRun` — the outcome with the time at which it is there, and the messages sent;
* `MacroForest.Processor.run` — **the work on one input**.
-/

import MacroForest.Batch.Input
import MacroForest.Expansion.Expander
import MacroForest.Settings.Basic

set_option relaxedAutoImplicit false
set_option autoImplicit false

namespace MacroForest

variable {σ : Type}

/-! ### Processors -/

/-- The macros, the settings, and the parser and printer of inputs that do not bring their own. -/
structure Processor (σ : Type) where
  /-- The macros, without the built-in ones. -/
  table : Table σ
  /-- The settings. -/
  settings : Settings
  /-- The parser. -/
  parser : Parser
  /-- The printer. -/
  printer : Printer

namespace Processor

/-- A processor without macros. -/
def ofSettings (settings : Settings) : Processor σ :=
  { table := .empty, settings, parser := .standard, printer := .standard }

/-- The message on a batch of macros that holds none. -/
def noMacros : Message := ⟨.warning, .ident "add_macros", "No macros found"⟩

/-- Registers a macro.  Tells whether it was new. -/
def addMacro (p : Processor σ) (e : Entry σ) : Bool × Processor σ :=
  let (new, table) := p.table.register e
  (new, { p with table })

/-- Registers some macros.  Tells whether any was new, and writes a message if there are none. -/
def addMacros (p : Processor σ) (es : List (Entry σ)) : Bool × List Message × Processor σ :=
  let (new, table) := p.table.addAll es
  (new, if es.isEmpty then [noMacros] else [], { p with table })

/-- The expander over the macros of a processor. -/
def expander (p : Processor σ) (token : CancelToken) : Expander σ :=
  .create p.table p.settings.openSet p.settings.maxExpansions token

/-- The ticks that a job may take, if there is a limit. -/
def limit? (p : Processor σ) : Option Nat := p.settings.timeout?.map (· * ticksPerMs)

/-- The parser for an input. -/
def parserFor (p : Processor σ) (i : Input) : Parser := i.parser?.getD p.parser

/-- The printer for an input. -/
def printerFor (p : Processor σ) (i : Input) : Printer := i.printer?.getD p.printer

end Processor

/-! ### Jobs -/

/-- What stands in the place of an output that took too long. -/
def timedOutNode : Node := .ident Reserved.timedOut

/-- What a job finds out. -/
structure JobOutcome where
  /-- The forest before expansion. -/
  input : Forest
  /-- The forest after expansion. -/
  output : Forest
  /-- How the work ended. -/
  status : Status

/-- The outcome of a job that took too long. -/
def JobOutcome.timedOut (input : Forest) : JobOutcome := ⟨input, [timedOutNode], .timedOut⟩

/-- The outcome of a job without a forest. -/
def JobOutcome.nothing (status : Status) : JobOutcome := ⟨[], [], status⟩

/-- The result for an input. -/
def JobOutcome.result (o : JobOutcome) (i : Input) (printer : Printer) : Processed :=
  ⟨i.fileName, i.tag, o.input, o.output, o.status, printer⟩

/-- A job from its start to its end. -/
structure JobRun (σ : Type) where
  /-- What the macros share, afterwards. -/
  shared : σ
  /-- The messages sent. -/
  records : List Record
  /-- The time at which the job ends. -/
  finish : Nat
  /-- What it finds out; nothing if its parser breaks down. -/
  outcome : Option JobOutcome

namespace Processor

/-- The outcome of an expansion that ended at a time. -/
def outcomeOf (token : CancelToken) (now : Nat) (forest : Forest) :
    Except Cancelled Forest → JobOutcome
  | .ok output => ⟨forest, output, .completed⟩
  | .error _ =>
    if token.isCancelled now then .timedOut forest else ⟨forest, [], .cancelled⟩

/-- The forest of an input, or how its parser ended otherwise, with the messages written. -/
def forestOf (p : Processor σ) (i : Input) : ParserReply :=
  match i.source with
  | .nodes forest => { outcome := .parsed forest }
  | .text text => p.parserFor i text i.fileName

/-- The time at which the parser is done with an input whose work starts at a time. -/
def parsedAt (p : Processor σ) (i : Input) (start : Nat) : Nat := start + (p.forestOf i).elapsed

/-- The work on an input that starts at a time. -/
def run (p : Processor σ) (least : Severity) (i : Input) (start : Nat) (shared : σ) : JobRun σ :=
  let token : CancelToken := { deadline := p.limit?.map (start + ·) }
  let reply := p.forestOf i
  let sink := (Sink.empty least).writeAll start reply.messages
  let now := p.parsedAt i start
  match reply.outcome with
  | .crashed => ⟨shared, sink.records, now, none⟩
  | .refused error =>
    let sink := sink.write now ⟨.error, .ident i.fileName, error.message⟩
    ⟨shared, sink.records, now, some (.nothing .parseFailed)⟩
  | .parsed forest =>
    let expander := p.expander token
    let (result, s) := expander.expandForest forest { expander.initial shared sink with now }
    ⟨s.shared, s.sink.records, s.now, some (outcomeOf token s.now forest result)⟩

end Processor

end MacroForest
