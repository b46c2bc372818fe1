/-
**Scripted macros.**

A script is a list of instructions that a macro carries out on its input: it writes messages,
changes the scopes, checks conditions, and ends by giving a node, failing, or declining.  The node
given is a template in which placeholders stand for the input and its parts.  Every callable counts
its invocations, and all invocations are logged.

Main definitions:

* `MacroForest.Template.fill` — a template with its placeholders filled;
* `MacroForest.Instruction`, `MacroForest.Script.run` — instructions, and carrying them out;
* `MacroForest.Ledger` — the counts and the log, which all scripted macros share;
* `MacroForest.Script.callable` — **the macro of a script**.
-/

import MacroForest.Expansion.State

set_option relaxedAutoImplicit false
set_option autoImplicit false

namespace MacroForest

/-! ### Templates -/

namespace Template

/-- What a template is filled with. -/
structure Filling where
  /-- The input of the macro. -/
  node : Node
  /-- The number of invocations, this one included. -/
  runs : Nat

/-- Stands for a part that the input does not have. -/
def missing : Node := .ident "#none"

/-- The index in a placeholder for an argument. -/
def argIndex? (name : String) : Option Nat :=
  match name.toList with
  | '#' :: 'a' :: 'r' :: 'g' :: d :: ds =>
    if (d :: ds).all Char.isDigit then some (digitsValue (d :: ds)) else none
  | _ => none

/-- The nodes that a placeholder for several nodes stands for. -/
def many? (f : Filling) (name : String) : Option (List Node) :=
  if name = "#args" then some f.node.args
  else if name = "#attrs" then some f.node.attrs
  else none

/-- The node that a placeholder for one node stands for. -/
def single? (f : Filling) (name : String) : Option Node :=
  if name = "#node" then some f.node
  else if name = "#head" then some (f.node.target?.getD missing)
  else if name = "#argc" then some (.number (.ofNat f.node.args.length))
  else if name = "#runs" then some (.number (.ofNat f.runs))
  else (argIndex? name).map fun i => f.node.args.getD i missing

/-- A placeholder is an identifier without attributes. -/
def placeholder? : Node → Option String
  | .atom [] _ (.ident name) => some name
  | _ => none

/-- The node that a placeholder stands for where one node is expected: several nodes are a
splice. -/
def placed? (f : Filling) (n : Node) : Option Node :=
  (placeholder? n).bind fun name => single? f name <|> (many? f name).map Node.splice

mutual

/-- Fills a template. -/
def fill (f : Filling) : Node → Node
  | .atom attrs style value =>
    (placed? f (.atom attrs style value)).getD (.atom (fillList f attrs) style value)
  | .call attrs style target args =>
    .call (fillList f attrs) style (fill f target) (fillList f args)

/-- Fills the templates of a list, in which a placeholder for several nodes stands for all of
them. -/
def fillList (f : Filling) : List Node → List Node
  | [] => []
  | n :: ns =>
    ((placeholder? n).bind (many? f)).getD [fill f n] ++ fillList f ns

end

end Template

/-! ### Instructions -/

/-- The kinds of nodes. -/
inductive NodeKind where
  | ident
  | call
  | literal
deriving DecidableEq

/-- The kind of a node. -/
def Node.kind (n : Node) : NodeKind :=
  if n.isCall then .call else if n.isIdent then .ident else .literal

/-- An instruction of a script. -/
inductive Instruction where
  /-- Writes a message on the input. -/
  | say (severity : Severity) (text : String)
  /-- Writes a message on a filled template. -/
  | sayOn (template : Node) (severity : Severity) (text : String)
  | openName (name : String)
  | closeName (name : String)
  | pushScope
  | popScope
  /-- Declines unless the input has so many arguments. -/
  | whenArgs (count : Nat)
  /-- Declines unless the input has at least so many arguments. -/
  | whenArgsMin (count : Nat)
  /-- Declines unless the input is of the kind. -/
  | whenKind (kind : NodeKind)
  /-- Declines unless the namespace is open. -/
  | whenOpen (name : String)
  /-- Declines unless the input is in bang style. -/
  | whenBang
  /-- Declines after so many invocations. -/
  | whenRunsMax (count : Nat)
  /-- Declines unless the first argument equals the node. -/
  | whenFirstArg (node : Node)
  /-- Accepts with the filled template. -/
  | give (template : Node)
  | fail (text : String)
  | crash (reason : Option String)
  | cancel
  /-- Lets some milliseconds pass. -/
  | wait (ms : Nat)

namespace Script

/-- The effects of a script so far. -/
structure Progress where
  /-- The scopes. -/
  scopes : ScopeStack
  /-- The messages written, last first. -/
  written : List Message := []
  /-- The ticks that have passed. -/
  elapsed : Nat := 0

/-- Carries out a script.  At its end it declines. -/
def run (f : Template.Filling) : List Instruction → Progress → Progress × Outcome
  | [], p => (p, .declined)
  | i :: is, p =>
    let goOnIf (condition : Bool) : Progress × Outcome :=
      if condition then run f is p else (p, .declined)
    match i with
    | .say severity text => run f is { p with written := ⟨severity, f.node, text⟩ :: p.written }
    | .sayOn template severity text =>
      run f is { p with written := ⟨severity, Template.fill f template, text⟩ :: p.written }
    | .openName name => run f is { p with scopes := p.scopes.openName name }
    | .closeName name => run f is { p with scopes := (p.scopes.closeName name).2 }
    | .pushScope => run f is { p with scopes := p.scopes.push }
    | .popScope => run f is { p with scopes := p.scopes.pop }
    | .whenArgs count => goOnIf (f.node.args.length == count)
    | .whenArgsMin count => goOnIf (decide (count ≤ f.node.args.length))
    | .whenKind kind => goOnIf (f.node.kind == kind)
    | .whenOpen name => goOnIf (p.scopes.isOpen name)
    | .whenBang => goOnIf (f.node.style == .bang)
    | .whenRunsMax count => goOnIf (decide (f.runs ≤ count))
    | .whenFirstArg node => goOnIf (f.node.args.head?.any (· == node))
    | .give template => (p, .accepted (Template.fill f template))
    | .fail text => (p, .failed text)
    | .crash reason => (p, .crashed reason)
    | .cancel => (p, .cancelled)
    | .wait ms => run f is { p with elapsed := p.elapsed + ms * ticksPerMs }

end Script

/-! ### Counts and logs -/

/-- An invocation in the log. -/
structure Invocation where
  /-- The index of the callable. -/
  index : Nat
  /-- The input. -/
  node : Node
  /-- The namespaces open at the start. -/
  open_ : NameSet

/-- What scripted macros share. -/
structure Ledger where
  /-- The number of invocations of each callable. -/
  runs : Array Nat
  /-- All invocations, last first. -/
  log : List Invocation

/-- The ledger before any invocation, for callables of indices below a bound. -/
def Ledger.empty (count : Nat) : Ledger := ⟨Array.replicate count 0, []⟩

/-- Enters an invocation. -/
def Ledger.enter (l : Ledger) (i : Invocation) : Ledger :=
  ⟨l.runs.modify i.index (· + 1), i :: l.log⟩

/-- All invocations, in order. -/
def Ledger.calls (l : Ledger) : List Invocation := l.log.reverse

/-- The number of invocations of a callable. -/
def Ledger.count (l : Ledger) (index : Nat) : Nat := l.runs.getD index 0

/-- The callable of the given index that carries out a script. -/
def Script.callable (index : Nat) (body : List Instruction) : Callable Ledger where
  id := .custom index
  run ledger node scopes :=
    let ledger := ledger.enter ⟨index, node, scopes.current⟩
    let (p, outcome) := Script.run ⟨node, ledger.count index⟩ body { scopes }
    ⟨ledger, p.scopes, p.written.reverse, p.elapsed, outcome⟩

/-- The callable of the given index that leaves no trace in the ledger and always ends alike. -/
def Script.constant (index : Nat) (outcome : Outcome) : Callable Ledger where
  id := .custom index
  run ledger _ scopes := .quiet ledger scopes outcome

end MacroForest
