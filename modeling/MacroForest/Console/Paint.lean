/-
**Coloured text.**

Main definitions:

* `MacroForest.Paint` — whether colours are used;
* `MacroForest.Paint.begin`, `MacroForest.Paint.reset` — the codes that begin and end a style;
* `MacroForest.Paint.message` — **a message on two lines**.
-/

import MacroForest.Macro.Entry

set_option relaxedAutoImplicit false
set_option autoImplicit false

namespace MacroForest

/-- The colours. -/
inductive Colour where
  | red
  | green
  | yellow
  | cyan
  | white

/-- The number of a colour in its code. -/
def Colour.number : Colour → String
  | .red => "1"
  | .green => "2"
  | .yellow => "3"
  | .cyan => "6"
  | .white => "7"

/-- The look of a text. -/
structure Look where
  /-- The colour. -/
  colour : Option Colour := none
  /-- In bold. -/
  bold : Bool := false
  /-- Dimmed. -/
  dimmed : Bool := false

/-- Whether colours are used. -/
structure Paint where
  /-- They are. -/
  enabled : Bool

namespace Paint

/-- A code. -/
def code (n : String) : String := "\x1b[" ++ n ++ "m"

/-- Ends a look. -/
def reset (p : Paint) : String := if p.enabled then code "0" else ""

/-- Begins a look, after ending the one before. -/
def begin (p : Paint) (look : Look) : String :=
  if p.enabled then
    code "0" ++ (if look.bold then code "1" else "") ++ (if look.dimmed then code "2" else "") ++
      (look.colour.map fun c => code ("3" ++ c.number)).getD ""
  else ""

/-- A text in a look. -/
def apply (p : Paint) (look : Look) (text : String) : String := p.begin look ++ text ++ p.reset

/-- The colour of a severity. -/
def severityColour : Severity → Colour
  | .error => .red
  | .warning => .yellow
  | .debug => .cyan
  | .verbose => .white
  | .detail => .white

/-- A message on two lines. -/
def message (p : Paint) (m : Message) : String :=
  p.apply { colour := some (severityColour m.severity), bold := true } m.severity.word ++
    ": " ++ m.text ++ "\n" ++ p.apply { dimmed := true } ("  at " ++ m.context.text ++ "\n")

/-- The line that names a file. -/
def header (p : Paint) (fileName : String) : String :=
  p.apply { colour := some .yellow, bold := true } ("// " ++ fileName ++ "\n")

/-- A text filled with spaces to a width. -/
def padded (width : Nat) (text : String) : String :=
  text ++ String.ofList (List.replicate (width - text.length) ' ')

/-- What a list of macros says of the treatment of an output. -/
def reprocessFlag : Reprocess → String
  | .normal => "normal"
  | .childrenAfter => "childrenafter"
  | .never => "none"

/-- What a list of macros says of a mode. -/
def modeFlags (m : Mode) : List String :=
  [reprocessFlag m.reprocess] ++ (if m.childrenBefore then ["children-before"] else []) ++
    (if m.passive then ["passive"] else []) ++
    (if m.allowDuplicates then ["allow-duplicates"] else [])

/-- The line of a macro in a list of macros. -/
def macroLine {σ : Type} (p : Paint) (e : Entry σ) : String :=
  p.apply { colour := some .green, bold := true } (padded 18 e.name) ++
    " " ++ padded 10 (e.space.getD "(global)") ++ " " ++ e.mode.priority.name ++
    " [" ++ ", ".intercalate (modeFlags e.mode) ++ "] " ++ e.label ++ "\n"

end Paint

end MacroForest
