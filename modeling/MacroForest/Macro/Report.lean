/-
**What is reported of a tier of macros.**

When the macros of one tier have seen a node, it is decided what of it is told.  Several acceptors
are an ambiguity: an error if their outputs differ, a warning if they agree, and nothing if one of
them allows duplicates.  A bang-style call that nobody accepted names those who declined.  A macro's
own messages are passed on behind its label if it accepted, if the call is in bang style, or if they
are severe enough; details follow the message that they belong to.

Main definitions:

* `MacroForest.Attempt` — one macro's turn;
* `MacroForest.labelsOf` — labels that tell macros of one label apart;
* `MacroForest.report` — **the messages that a tier gives rise to**.
-/

import MacroForest.Macro.Entry

set_option relaxedAutoImplicit false
set_option autoImplicit false

namespace MacroForest

/-- One macro's turn on a node. -/
structure Attempt (σ : Type) where
  /-- The macro. -/
  entry : Entry σ
  /-- Its output, if it accepted. -/
  output : Option Node
  /-- The messages it wrote, and the report of its failure. -/
  messages : List Message

namespace Attempt

variable {σ : Type}

/-- The macro accepted. -/
def accepted (a : Attempt σ) : Bool := a.output.isSome

/-- The macro did not accept, though it was expected to. -/
def refused (a : Attempt σ) : Bool := a.output.isNone && !a.entry.mode.passive

end Attempt

variable {σ : Type}

/-- The label of the attempt of index `i`: followed by its place among the attempts if another
attempt has the same label. -/
def labelAt (attempts : List (Attempt σ)) (i : Nat) (a : Attempt σ) : String :=
  let label := a.entry.label
  if 1 < attempts.countP (·.entry.label == label) then label ++ "#" ++ toString (i + 1) else label

/-- The labels of the attempts that pass a test. -/
def labelsOf (attempts : List (Attempt σ)) (keep : Attempt σ → Bool) : List String :=
  (attempts.zipIdx.filter (keep ·.1)).map fun (a, i) => labelAt attempts i a

/-- Whether all outputs of the acceptors are equal. -/
def outputsAgree (outputs : List Node) : Bool :=
  match outputs with
  | [] => true
  | first :: rest => rest.all (· == first)

/-- The report of an ambiguity. -/
def reportAmbiguity (attempts : List (Attempt σ)) (input : Node) : List Message :=
  let acceptors := attempts.filter (·.accepted)
  let count := acceptors.length
  if count ≤ 1 then []
  else
    let agree := outputsAgree (acceptors.filterMap (·.output))
    let labels := ", ".intercalate (labelsOf attempts (·.accepted))
    if agree then
      if acceptors.any (·.entry.mode.allowDuplicates) then []
      else
        [⟨.warning, input, "Ambiguous macro call. " ++ toString count ++
          " macros accepted the input and produced identical results: " ++ labels⟩]
    else
      [⟨.error, input, "Ambiguous macro call. " ++ toString count ++
        " macros accepted the input: " ++ labels⟩]

/-- The report of a bang-style call that nobody accepted. -/
def reportRefusal (attempts : List (Attempt σ)) (input : Node) (severity : Severity) :
    List Message :=
  let labels := labelsOf attempts (·.refused)
  if labels.isEmpty then []
  else
    [⟨severity, input, toString attempts.length ++
      " macro(s) saw the input and declined to process it: " ++ ", ".intercalate labels⟩]

/-- The messages of one macro that are passed on; `follows` tells that the last one was. -/
def passedOn (enabled : Severity → Bool) (all follows : Bool) : List Message → List Message
  | [] => []
  | m :: ms =>
    let wanted := all || decide (.warning ≤ m.severity) || (m.severity == .detail && follows)
    if wanted && enabled m.severity then m :: passedOn enabled all true ms
    else passedOn enabled all false ms

/-- What is told of a tier: an ambiguity, a refusal, and the macros' own messages.  `worst` is the
greatest severity of these, and `enabled` tells which severities are heard. -/
def report (enabled : Severity → Bool) (attempts : List (Attempt σ)) (input : Node)
    (worst : Option Severity) : List Message :=
  let bang := input.style == .bang
  let severity := worst.getD .detail
  let noneAccepted := attempts.all (!·.accepted)
  reportAmbiguity attempts input ++
    if noneAccepted && !bang && decide (severity < .warning) then []
    else
      let severity := if bang then severity.max .warning else severity
      (if noneAccepted && bang && enabled severity then reportRefusal attempts input severity
        else []) ++
      attempts.flatMap fun a =>
        (passedOn enabled (a.accepted || bang) true a.messages).map fun m =>
          { m with text := a.entry.label ++ ": " ++ m.text }

end MacroForest
