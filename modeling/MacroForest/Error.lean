/-
**Errors of the work around an expansion.**

A text that cannot be read, a file that cannot be had, and settings that make no sense end the work
on an input.  An error names its cause; the wording is here.

Main definitions:

* `MacroForest.PipelineError` — the causes;
* `MacroForest.PipelineError.message`, `MacroForest.PipelineError.code` — the wording, and a code
  for each kind of cause.
-/

import MacroForest.Source.Parse

set_option relaxedAutoImplicit false
set_option autoImplicit false

namespace MacroForest

/-- The cause of an error. -/
inductive PipelineError where
  /-- The text is not in the notation. -/
  | parse (error : ParseError)
  /-- The file cannot be read. -/
  | io (path reason : String)
  /-- The settings are refused. -/
  | config (reason : String)
  /-- The expansion was cancelled. -/
  | cancelled

namespace PipelineError

/-- The wording of an error. -/
def message : PipelineError → String
  | .parse error => "Parse error: " ++ error.fault.message
  | .io path reason => "Failed to read '" ++ path ++ "': " ++ reason
  | .config reason => "Configuration error: " ++ reason
  | .cancelled => "Expansion cancelled"

/-- The code of the kind of cause. -/
def code : PipelineError → String
  | .parse _ => "lexmac::parse"
  | .io _ _ => "lexmac::io"
  | .config _ => "lexmac::config"
  | .cancelled => "lexmac::cancelled"

end PipelineError

end MacroForest
