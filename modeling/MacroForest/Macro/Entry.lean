/-
**Macros: what is registered, and what an invocation does.**

A macro is a callable registered under a name, globally or in a namespace, with a mode that says
how its output is treated.  Invoked on a node, a callable sees the open namespaces and a state that
all callables share; it can write messages, change the scopes and the state, take time, and it ends
in one of five ways: it accepts the node with an output, declines it, fails, crashes, or asks for
the expansion to be cancelled.

Main definitions:

* `MacroForest.Priority`, `MacroForest.Reprocess`, `MacroForest.Mode` — how a macro is treated;
* `MacroForest.Outcome`, `MacroForest.Reply` — the end and the effects of an invocation;
* `MacroForest.Callable` — a behaviour with an identity;
* `MacroForest.Entry` — a registration.
-/

import MacroForest.Message
import MacroForest.Scope

set_option relaxedAutoImplicit false
set_option autoImplicit false

namespace MacroForest

/-! ### Modes -/

/-- The tiers of macros; a higher one is tried first. -/
inductive Priority where
  | fallbackMin
  | fallback
  | internalFallback
  | normal
  | internalOverride
  | override
  | overrideMax
deriving DecidableEq, Inhabited

/-- The place in the order of priorities. -/
def Priority.rank : Priority → Nat
  | .fallbackMin => 0
  | .fallback => 1
  | .internalFallback => 2
  | .normal => 3
  | .internalOverride => 4
  | .override => 5
  | .overrideMax => 6

/-- The name of a priority. -/
def Priority.name : Priority → String
  | .fallbackMin => "FallbackMin"
  | .fallback => "Fallback"
  | .internalFallback => "InternalFallback"
  | .normal => "Normal"
  | .internalOverride => "InternalOverride"
  | .override => "Override"
  | .overrideMax => "OverrideMax"

/-- What happens to the output of a macro. -/
inductive Reprocess where
  /-- It is dispatched again, unless it equals the input: then only its children are expanded. -/
  | normal
  /-- Its children are expanded. -/
  | childrenAfter
  /-- It stays as it is. -/
  | never
deriving DecidableEq, Inhabited

/-- The name of a treatment. -/
def Reprocess.name : Reprocess → String
  | .normal => "Normal"
  | .childrenAfter => "ChildrenAfter"
  | .never => "None"

/-- How a macro is treated. -/
structure Mode where
  /-- What happens to the output. -/
  reprocess : Reprocess := .normal
  /-- The macro sees its input with the children expanded. -/
  childrenBefore : Bool := false
  /-- The macro is not expected to accept, so it is not named when nobody does. -/
  passive : Bool := false
  /-- Equal outputs of this macro and others are no cause for a warning. -/
  allowDuplicates : Bool := false
  /-- The tier of the macro. -/
  priority : Priority := .normal
deriving DecidableEq, Inhabited

/-- The units of budget that an accepted output costs: one, and one more if the children were
expanded before. -/
def Mode.cost (m : Mode) : Nat := if m.childrenBefore then 2 else 1

theorem Mode.cost_pos (m : Mode) : 0 < m.cost := by
  unfold cost
  split <;> omega

/-! ### Invocations -/

/-- How an invocation ends. -/
inductive Outcome where
  /-- The macro replaces its input. -/
  | accepted (output : Node)
  /-- The macro has no use for its input. -/
  | declined
  /-- The macro reports a failure. -/
  | failed (reason : String)
  /-- The macro breaks down, with a reason if it left one. -/
  | crashed (reason : Option String)
  /-- The macro asks for the expansion to stop. -/
  | cancelled

/-- The output of an invocation that accepts. -/
def Outcome.output? : Outcome → Option Node
  | .accepted output => some output
  | _ => none

/-- The text of an invocation that fails or breaks down. -/
def Outcome.failure? : Outcome → Option String
  | .failed reason => some reason
  | .crashed reason => some ("macro panicked: " ++ reason.getD "unknown panic")
  | _ => none

/-- All that an invocation does.  Its effects stand however it ends. -/
structure Reply (σ : Type) where
  /-- The shared state afterwards. -/
  state : σ
  /-- The scopes afterwards. -/
  scopes : ScopeStack
  /-- The messages written, in order. -/
  messages : List Message
  /-- The time taken, in ticks of the clock. -/
  elapsed : Nat
  /-- The end. -/
  outcome : Outcome

/-- A reply without effects. -/
def Reply.quiet {σ : Type} (state : σ) (scopes : ScopeStack) (outcome : Outcome) : Reply σ :=
  ⟨state, scopes, [], 0, outcome⟩

/-- What tells one callable from another. -/
inductive CallableId where
  /-- A callable that comes with the library. -/
  | builtin (name : String)
  /-- Any other callable. -/
  | custom (index : Nat)
deriving DecidableEq

/-- A behaviour with an identity: a function of the shared state, the node and the scopes. -/
structure Callable (σ : Type) where
  /-- Two callables of one identity are the same callable. -/
  id : CallableId
  /-- What an invocation does. -/
  run : σ → Node → ScopeStack → Reply σ

/-! ### Registrations -/

/-- A macro as it is registered. -/
structure Entry (σ : Type) where
  /-- The namespace of the macro; a global one has none. -/
  space : Option String
  /-- The name of the heads that it is offered. -/
  name : String
  /-- How it is treated. -/
  mode : Mode
  /-- The label given to it. -/
  givenLabel : Option String
  /-- Where its callable comes from, if that has a name. -/
  origin : Option String
  /-- What it does. -/
  callable : Callable σ

namespace Entry

variable {σ : Type}

/-- The name with the namespace in front. -/
def qualifiedName (e : Entry σ) : String :=
  match e.space with
  | some space => space ++ "." ++ e.name
  | none => e.name

/-- What messages call the macro: its label, else where it comes from, else its qualified name. -/
def label (e : Entry σ) : String := (e.givenLabel <|> e.origin).getD e.qualifiedName

/-- Whether the macro can be seen when some namespaces are open. -/
def visible (e : Entry σ) (open_ : NameSet) : Bool :=
  match e.space with
  | none => true
  | some space => open_.contains space

end Entry

end MacroForest
