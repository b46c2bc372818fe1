/-
**Carrying out a request.**

A request is carried out on the files that its paths lead to.  What comes of it is a text for the
standard output, one for the error output, and an exit code: zero if all went well, one if an input
failed or an error was told, and two if the arguments make no sense.

Main definitions:

* `MacroForest.Report` — what comes of a request;
* `MacroForest.Request.run` — **carrying out a request**;
* `MacroForest.runArguments` — from the arguments on.
-/

import MacroForest.Batch.Schedule
import MacroForest.Console.Arguments
import MacroForest.Console.Changes
import MacroForest.Files.Discovery

set_option relaxedAutoImplicit false
set_option autoImplicit false

namespace MacroForest

/-- What comes of a request. -/
structure Report where
  /-- The exit code. -/
  exit : Nat
  /-- The text for the standard output. -/
  output : String
  /-- The text for the error output. -/
  told : String := ""
  /-- The error that ended the work. -/
  error : Option PipelineError := none

namespace Report

/-- The work was ended by an error, after some output. -/
def failure (output : String) (error : PipelineError) : Report :=
  { exit := 1, output, error := some error }

end Report

/-- The least severity that is told. -/
def leastTold : Nat → Severity
  | 0 => .warning
  | 1 => .debug
  | 2 => .verbose
  | _ => .detail

namespace ExpandOptions

/-- Settings as changed by the options. -/
def applyTo (o : ExpandOptions) (s : Settings) : Settings :=
  { maxExpansions := o.maxExpansions.getD s.maxExpansions,
    timeoutMs := o.timeoutMs <|> s.timeoutMs,
    preOpened := s.preOpened ++ o.opened,
    mode := if o.parallel then .concurrent else s.mode,
    workers := o.workers <|> s.workers }

/-- The settings for some options. -/
def settings (o : ExpandOptions) (files : Files) : Except PipelineError Settings := do
  let base ← match o.config with
    | some path => files.settings path
    | none => pure {}
  return o.applyTo base

end ExpandOptions

namespace Request

/-- The line that names a file, if there are several. -/
def headerFor (p : Paint) (several : Bool) (fileName : String) : String :=
  if several then p.header fileName else ""

/-- The results of an expansion, as they are shown. -/
def showResults (p : Paint) (diff : Bool) (results : List Processed) : String :=
  String.join (results.map fun r =>
    headerFor p (decide (1 < results.length)) r.fileName ++
      if diff then Changes.render p r.inputText r.text else r.text)

/-- Expands the source files of some paths. -/
def expand (files : Files) (paths : List String) (o : ExpandOptions) (least : Severity)
    (p : Paint) : Except PipelineError Report := do
  let settings ← o.settings files
  let inputs ← (← files.discover paths).mapM SourceFile.input
  match (Processor.ofSettings settings : Processor Unit).process least [] inputs () with
  | .error .parserCrashed => return { exit := 101, output := "" }
  | .ok batch =>
    let failed := batch.results.any (!·.isCompleted) ||
      batch.messages.any (·.severity == .error)
    return { exit := if failed then 1 else 0,
             output := showResults p o.diff batch.results,
             told := String.join (batch.messages.map p.message) }

/-- Writes source files in their normal form, up to one that cannot be read. -/
def normalise (p : Paint) (several : Bool) : List SourceFile → String → Report
  | [], output => { exit := 0, output }
  | f :: fs, output =>
    match f.text with
    | .error e => .failure output e
    | .ok text =>
      match MacroForest.parse text with
      | .error e => .failure output (.parse e)
      | .ok forest =>
        normalise p several fs (output ++ headerFor p several f.path ++ forestText forest)

/-- Writes the source files of some paths in their normal form. -/
def parse (files : Files) (paths : List String) (p : Paint) : Except PipelineError Report := do
  let found ← files.discover paths
  return normalise p (decide (1 < found.length)) found ""

/-- Carries out a request.  `colours` tells whether the terminal shows colours. -/
def run (r : Request) (files : Files) (colours : Bool) : Report :=
  let p : Paint := ⟨colours && !r.noColour⟩
  let outcome : Except PipelineError Report :=
    match r.command with
    | .expand paths options => expand files paths options (leastTold r.verbosity) p
    | .parse paths => parse files paths p
    | .listMacros => .ok { exit := 0, output := String.join ((builtins Unit).map p.macroLine) }
  match outcome with
  | .ok report => report
  | .error e => .failure "" e

end Request

/-- The name and the version of the program. -/
def versionLine : String := "lexmac 0.1.0\n"

/-- The usage of the program. -/
def usageText : String :=
  "Usage: lexmac [-v]... [--no-color] <expand|parse|list-macros> [OPTIONS] [PATHS]...\n"

/-- Carries out what some arguments ask for. -/
def runArguments (arguments : List String) (files : Files) (colours : Bool) : Report :=
  match Request.ofArguments arguments with
  | .ok request => request.run files colours
  | .error .version => { exit := 0, output := versionLine }
  | .error .help => { exit := 0, output := usageText }
  | .error .usage => { exit := 2, output := "", told := usageText }

end MacroForest
