/-
**Macros and nodes, for inspection.**

The inspected form of a value names its type and its fields.  It is meant for logs and test reports,
not for reading back.

Main definitions:

* `MacroForest.Node.inspect` — of a node;
* `MacroForest.Mode.inspect`, `MacroForest.Entry.inspect` — of a macro.
-/

import MacroForest.Macro.Entry
import MacroForest.Text.Quoted

set_option relaxedAutoImplicit false
set_option autoImplicit false

namespace MacroForest

/-- The inspected form of a node. -/
def Node.inspect (n : Node) : String := "Node(" ++ n.text ++ ")"

/-- The inspected form of a record: the name of its type, and its fields with their values. -/
def inspectRecord (type : String) (fields : List (String × String)) : String :=
  type ++ " \x7b " ++ ", ".intercalate (fields.map fun (name, value) => name ++ ": " ++ value) ++
    " \x7d"

/-- The inspected form of a mode. -/
def Mode.inspect (m : Mode) : String :=
  inspectRecord "MacroMode"
    [ ("reprocess", m.reprocess.name),
      ("children_before", booleanWord m.childrenBefore),
      ("passive", booleanWord m.passive),
      ("allow_duplicates", booleanWord m.allowDuplicates),
      ("priority", m.priority.name) ]

/-- The inspected form of a registered macro. -/
def Entry.inspect {σ : Type} (e : Entry σ) : String :=
  inspectRecord "MacroEntry"
    [ ("namespace", Text.optional ("'" ++ ·) e.space),
      ("name", "'" ++ e.name),
      ("label", Text.quoted e.label),
      ("mode", e.mode.inspect) ]

end MacroForest
