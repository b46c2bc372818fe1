/-
**The state of an expansion.**

An expansion carries along the state that the macros share, the scopes, the messages that it has
sent, and a clock.  The clock is the expansion's own: it advances by one tick with every dispatch
and by the time that a macro says it takes.  It also counts the nodes whose children it expands, so
that a literal that is made anew on such an occasion gets a cell of its own.

Main definitions:

* `MacroForest.Sink` — a threshold, and the messages sent with the time of each;
* `MacroForest.State` — the state between two steps of an expansion;
* `MacroForest.Expander` — what stays the same during an expansion.
-/

import MacroForest.Cancellation
import MacroForest.Macro.Builtin

set_option relaxedAutoImplicit false
set_option autoImplicit false

namespace MacroForest

/-- The ticks of the clock in a millisecond. -/
def ticksPerMs : Nat := 1000

/-- A message and the time at which it was sent. -/
structure Record where
  /-- The time. -/
  time : Nat
  /-- The message. -/
  message : Message

/-- Where messages are sent: those below the threshold are dropped. -/
structure Sink where
  /-- The least severity that is kept. -/
  least : Severity
  /-- The messages kept, last first. -/
  kept : List Record

namespace Sink

/-- A sink to which nothing has been sent. -/
def empty (least : Severity) : Sink := ⟨least, []⟩

/-- Whether messages of a severity are kept. -/
def enabled (k : Sink) (s : Severity) : Bool := decide (k.least ≤ s)

/-- Sends a message at a time. -/
def write (k : Sink) (now : Nat) (m : Message) : Sink :=
  if k.enabled m.severity then { k with kept := ⟨now, m⟩ :: k.kept } else k

/-- Sends some messages in order. -/
def writeAll (k : Sink) (now : Nat) (ms : List Message) : Sink := ms.foldl (·.write now ·) k

/-- The messages kept with their times, in the order of arrival. -/
def records (k : Sink) : List Record := k.kept.reverse

/-- The messages kept, in the order of arrival. -/
def messages (k : Sink) : List Message := k.records.map (·.message)

end Sink

/-- The state of an expansion. -/
structure State (σ : Type) where
  /-- What the macros share. -/
  shared : σ
  /-- The open namespaces. -/
  scopes : ScopeStack
  /-- The messages sent. -/
  sink : Sink
  /-- The clock. -/
  now : Nat
  /-- The number of the nodes whose children have been expanded. -/
  openings : Nat

namespace State

variable {σ : Type}

/-- Sends some messages. -/
def writeAll (s : State σ) (ms : List Message) : State σ :=
  { s with sink := s.sink.writeAll s.now ms }

/-- One dispatch takes one tick. -/
def tick (s : State σ) : State σ := { s with now := s.now + 1 }

/-- The children of one more node are expanded. -/
def opening (s : State σ) : State σ := { s with openings := s.openings + 1 }

/-- The effects of an invocation, its messages apart. -/
def after (s : State σ) (r : Reply σ) : State σ :=
  { s with shared := r.state, scopes := r.scopes, now := s.now + r.elapsed }

end State

/-- An expansion's surroundings. -/
structure Expander (σ : Type) where
  /-- The macros, with the built-in ones. -/
  table : Table σ
  /-- The namespaces that are open at the start of a forest. -/
  preOpened : NameSet
  /-- The budget of a forest. -/
  budget : Nat
  /-- What tells the expansion to stop. -/
  token : CancelToken

namespace Expander

variable {σ : Type}

/-- An expander over some macros, to which the built-in ones are added. -/
def create (table : Table σ) (preOpened : NameSet) (budget : Nat) (token : CancelToken) :
    Expander σ :=
  { table := table.withBuiltins, preOpened, budget, token }

/-- The scopes at the start of a forest. -/
def rootScopes (t : Expander σ) : ScopeStack := .ofOpen t.preOpened

/-- The state at the start of an expansion. -/
def initial (t : Expander σ) (shared : σ) (sink : Sink) : State σ :=
  { shared, scopes := t.rootScopes, sink, now := 0, openings := 0 }

end Expander

/-- The namespace and the name of a qualified name. -/
def Node.qualified? (n : Node) : Option (String × String) :=
  match n.args with
  | [left, right] =>
    if n.calls Reserved.dot then right.identName?.map fun name => (left.namespaceName, name)
    else none
  | _ => none

/-- The macros that the head of a node can mean: by its name among the global ones and those in
open namespaces, or by its qualified name in exactly that namespace. -/
def Expander.candidates {σ : Type} (t : Expander σ) (scopes : ScopeStack) (n : Node) :
    List (Entry σ) :=
  if n.hasSimpleHead then
    match n.headName? with
    | some name => t.table.lookup scopes.current name
    | none => []
  else
    match n.target?.bind (·.qualified?) with
    | some (space, name) => t.table.lookupIn space name
    | none => []

end MacroForest
