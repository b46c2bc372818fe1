/-
**Expansion.**

A node is dispatched to the macros that its head can mean.  If one accepts, its output takes the
node's place and, depending on the macro's mode, is dispatched in turn, has its children expanded,
or stays.  If none does, the children of the node are expanded: its attributes, its target unless
that is a plain name, and its arguments.  In a list of nodes a splice stands for its arguments.

Every output costs budget, and nothing is done without budget, so an expansion ends.  A block opens
a frame of scopes that ends with the expansion of the block, whatever macros made of it.

An expansion that changes nothing answers `none`, and the node it was given stays in use.

Main definitions:

* `MacroForest.Expander.dispatch` — the loop of outputs of one node;
* `MacroForest.Expander.expandNode` — **the expansion of a node**;
* `MacroForest.Expander.expandList`, `MacroForest.Expander.expandChildren` — of a list, and of the
  parts of a node;
* `MacroForest.Expander.expandForest` — of a forest, from fresh scopes and with the expander's
  budget.
-/

import MacroForest.Expansion.Consult

set_option relaxedAutoImplicit false
set_option autoImplicit false

namespace MacroForest

/-- A node in a list: a splice stands for its arguments. -/
def Node.spliced (n : Node) : List Node := if n.calls Reserved.splice then n.args else [n]

/-- A node in the place of a target: a splice of one node stands for that node. -/
def Node.asTarget (n : Node) : Node :=
  match n.args with
  | [item] => if n.calls Reserved.splice then item else n
  | _ => n

namespace Expander

variable {σ : Type}

mutual

/-- Dispatches a node until no macro accepts it, its output stays, or the budget is used up.
`changed` tells that the node is an output already, and `frames` counts the frames that blocks have
opened. -/
def dispatch (t : Expander σ) (budget : Nat) (node : Node) (changed : Bool) (frames : Nat)
    (s : State σ) : Step σ (Option Node) × Nat :=
  let kept : Option Node := if changed then some node else none
  if _hb : budget = 0 then ((.ok kept, s), frames)
  else if t.token.isCancelled s.now then ((.error .cancelled, s), frames)
  else
    let s := s.tick
    match t.candidates s.scopes node with
    | [] =>
      match expandChildren t budget node s with
      | (.ok expanded, s) => ((.ok (expanded <|> kept), s), frames)
      | (.error c, s) => ((.error c, s), frames)
    | found =>
      -- the frame is removed by the expansion of the node, however this ends
      let isBlock := node.calls Reserved.block
      let frames := if isBlock then frames + 1 else frames
      let s := if isBlock then { s with scopes := s.scopes.push } else s
      match consult budget (fun s => expandChildren t budget node s) node (tiersOf found) .notYet s with
      | (.error c, s) => ((.error c, s), frames)
      | (.ok (.unclaimed (.changed prepared)), s) => ((.ok (some prepared), s), frames)
      | (.ok (.unclaimed .unchanged), s) => ((.ok kept, s), frames)
      | (.ok (.unclaimed .notYet), s) =>
        match expandChildren t budget node s with
        | (.ok expanded, s) => ((.ok (expanded <|> kept), s), frames)
        | (.error c, s) => ((.error c, s), frames)
      | (.ok (.claimed output mode), s) =>
        let next := budget - mode.cost
        if mode.reprocess = .normal && !(output == node) then
          dispatch t next output true frames s
        else if mode.reprocess = .never then ((.ok (some output), s), frames)
        else
          match expandChildren t next output s with
          | (.ok expanded, s) => ((.ok (some (expanded.getD output)), s), frames)
          | (.error c, s) => ((.error c, s), frames)
termination_by (budget, node.size, 2)
decreasing_by
  all_goals first
    | (apply Prod.Lex.left; have := Mode.cost_pos mode; omega)
    | (apply Prod.Lex.right; apply Prod.Lex.right; omega)

/-- Expands a node; `none` if it stays as it is. -/
def expandNode (t : Expander σ) (budget : Nat) (node : Node) (s : State σ) : Step σ (Option Node) :=
  let ((result, s), frames) := dispatch t budget node false 0 s
  (result, { s with scopes := s.scopes.popMany frames })
termination_by (budget, node.size, 3)

/-- Expands each node of a list and replaces splices by their arguments; `none` if the list stays
as it is. -/
def expandList (t : Expander σ) (budget : Nat) (nodes : List Node) (s : State σ) :
    Step σ (Option (List Node)) :=
  match nodes with
  | [] => (.ok none, s)
  | n :: ns =>
    match expandNode t budget n s with
    | (.error c, s) => (.error c, s)
    | (.ok expanded, s) =>
      match expandList t budget ns s with
      | (.error c, s) => (.error c, s)
      | (.ok rest, s) =>
        -- a splice has to go even where nothing else has changed
        if expanded.isNone && !n.calls Reserved.splice then (.ok (rest.map (n :: ·)), s)
        else (.ok (some ((expanded.getD n).spliced ++ rest.getD ns)), s)
termination_by (budget, Node.sizeList nodes, 0)
decreasing_by
  all_goals (apply Prod.Lex.right; apply Prod.Lex.left; simp only [Node.sizeList]; omega)

/-- Expands the attributes, the target unless the head is simple, and the arguments of a node, but
not the node itself; `none` if they stay as they are. -/
def expandChildren (t : Expander σ) (budget : Nat) (node : Node) (s : State σ) :
    Step σ (Option Node) :=
  if budget = 0 then (.ok none, s)
  else
    -- the node is a new one if its attributes have changed
    let cell := Cell.opening s.openings
    match expandList t budget node.attrs s.opening with
    | (.error c, s) => (.error c, s)
    | (.ok attrs, s) =>
      let withAttrs := attrs.map fun attrs => (node.withAttrs attrs).inCell cell
      let expandedTarget : Step σ (Option Node) :=
        match _h : node.target? with
        | some target =>
          if node.hasSimpleHead then (.ok none, s) else expandNode t budget target s
        | none => (.ok none, s)
      match expandedTarget with
      | (.error c, s) => (.error c, s)
      | (.ok target, s) =>
        let withTarget :=
          match target with
          | some target => some ((withAttrs.getD node).withTarget target.asTarget)
          | none => withAttrs
        match expandList t budget node.args s with
        | (.error c, s) => (.error c, s)
        | (.ok (some args), s) => (.ok (some ((withTarget.getD node).withArgs args)), s)
        | (.ok none, s) => (.ok withTarget, s)
termination_by (budget, node.size, 1)
decreasing_by
  all_goals (apply Prod.Lex.right; apply Prod.Lex.left)
  · exact Node.sizeList_attrs_lt node
  · exact Node.size_target_lt _h
  · exact Node.sizeList_args_lt node

end

/-- Expands a forest from fresh scopes. -/
def expandForest (t : Expander σ) (nodes : Forest) (s : State σ) : Step σ Forest :=
  match t.expandList t.budget nodes { s with scopes := t.rootScopes } with
  | (.ok expanded, s) => (.ok (expanded.getD nodes), s)
  | (.error c, s) => (.error c, s)

end Expander

end MacroForest
