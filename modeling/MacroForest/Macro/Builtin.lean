/-
**The macros that come with the library.**

Five global macros handle scopes: one marks blocks, two open namespaces, one closes them, and one
hands its arguments on without expanding them.  The namespace that an argument means is its written
form.

Main definitions:

* `MacroForest.builtins` — the entries, in the order in which they are registered;
* `MacroForest.Table.withBuiltins` — a table with these macros added.
-/

import MacroForest.Macro.Table

set_option relaxedAutoImplicit false
set_option autoImplicit false

namespace MacroForest

namespace Builtin

variable {σ : Type}

/-- The scopes with the namespaces of some nodes opened. -/
def openAll (scopes : ScopeStack) (nodes : List Node) : ScopeStack :=
  nodes.foldl (fun s n => s.openName n.namespaceName) scopes

/-- The scopes with the namespaces of some nodes closed, and a message on each that was not open. -/
def closeAll (scopes : ScopeStack) : List Node → List Message × ScopeStack
  | [] => ([], scopes)
  | n :: ns =>
    let (wasOpen, scopes) := scopes.closeName n.namespaceName
    let (messages, scopes) := closeAll scopes ns
    if wasOpen then (messages, scopes)
    else
      (⟨.debug, n, "Namespace not found to remove: " ++ n.namespaceName⟩ :: messages, scopes)

/-- Declines every block. -/
def onBlock (state : σ) (_node : Node) (scopes : ScopeStack) : Reply σ :=
  .quiet state scopes .declined

/-- Opens the namespaces of the arguments and declines. -/
def onOpenScope (state : σ) (node : Node) (scopes : ScopeStack) : Reply σ :=
  .quiet state (openAll scopes node.args) .declined

/-- Opens the namespaces of the arguments and vanishes. -/
def onOpenMacros (state : σ) (node : Node) (scopes : ScopeStack) : Reply σ :=
  .quiet state (openAll scopes node.args) (.accepted (.splice []))

/-- Closes the namespaces of the arguments and declines. -/
def onCloseMacros (state : σ) (node : Node) (scopes : ScopeStack) : Reply σ :=
  let (messages, scopes) := closeAll scopes node.args
  ⟨state, scopes, messages, 0, .declined⟩

/-- Becomes a splice of the arguments. -/
def onVerbatim (state : σ) (node : Node) (scopes : ScopeStack) : Reply σ :=
  .quiet state scopes
    (if node.isCall then .accepted (node.withTarget (.ident Reserved.splice)) else .declined)

/-- A built-in entry. -/
def entry (name label : String) (mode : Mode) (run : σ → Node → ScopeStack → Reply σ) : Entry σ :=
  { space := none, name, mode, givenLabel := some label, origin := none,
    callable := ⟨.builtin label, run⟩ }

end Builtin

/-- The built-in macros. -/
def builtins (σ : Type) : List (Entry σ) :=
  [ Builtin.entry Reserved.block "builtin.braces" { passive := true } Builtin.onBlock,
    Builtin.entry Reserved.openScope "builtin.import" { passive := true } Builtin.onOpenScope,
    Builtin.entry Reserved.openMacros "builtin.importMacros" {} Builtin.onOpenMacros,
    Builtin.entry Reserved.closeMacros "builtin.unimportMacros" { passive := true }
      Builtin.onCloseMacros,
    Builtin.entry Reserved.verbatim "builtin.noLexicalMacros" { reprocess := .never }
      Builtin.onVerbatim ]

/-- Adds the built-in macros. -/
def Table.withBuiltins {σ : Type} (t : Table σ) : Table σ := (t.addAll (builtins σ)).2

end MacroForest
