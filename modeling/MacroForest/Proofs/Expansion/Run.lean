/-
**Runs of an expansion, step by step and with a log.**

An expansion is a total function of its input: it ends because its recursion does, and all that it
shows is its answer.  Two kinds of questions are not about the answer: whether a loop that nobody
bounds would end, and which macros were invoked on the way, on what, and with which budget.  For
these, this module unfolds expansions into *runs*.  A run has fuel, one unit for each dispatch in
depth, and gives no answer when the fuel is used up.  It keeps a log of its events: the dispatches,
the nodes whose children are expanded, the invocations and the accepted outputs.

Each event knows the *chain* of dispatches that led to it.  A dispatch leads on to the dispatches of
the children that it expands, and, if a macro accepts, to the dispatch of the output.

A run also leaves a block where it entered it: each frame is removed when what was done inside is
done, instead of all frames together at the end.  That the two come to the same is part of
`MacroForest/Proofs/Expansion/Adequacy.lean`.

Main definitions:

* `MacroForest.Link`, `MacroForest.Chain` — the dispatches that lead to an event;
* `MacroForest.Event` — what a run logs;
* `MacroForest.Run` — computations with fuel, a state and a log;
* `MacroForest.Run.tier`, `MacroForest.Run.consult`, `MacroForest.Run.list`,
  `MacroForest.Run.children` — the parts of an expansion, given what is done with a single node;
* `MacroForest.Run.dispatch` — one dispatch, given what is done with the nodes that it leads to;
* `MacroForest.Expander.nodeRun` — **the run of a dispatch**, by recursion on the fuel alone.

Main results:

* `MacroForest.Run.bind_eq_some`, `MacroForest.Run.within_eq_some` — how a sequence of two runs and
  a run inside a block answer;
* `MacroForest.Run.dispatch_cases` — **what one dispatch can do**.
-/

import MacroForest.Expansion.Expander

set_option relaxedAutoImplicit false
set_option autoImplicit false

namespace MacroForest

/-! ### Logs -/

/-- A dispatch that led on to another one. -/
structure Link where
  /-- The node that was dispatched. -/
  node : Node
  /-- The budget that the dispatch had. -/
  budget : Nat
  /-- The mode of the macro whose output led on; none if a child of the node itself did. -/
  rewrite : Option Mode

/-- The dispatches that lead to an event, the last one first. -/
abbrev Chain := List Link

/-- What happens in a run. -/
inductive Action (σ : Type) where
  /-- A node is dispatched. -/
  | entered (node : Node)
  /-- The children of a node are expanded. -/
  | opened (node : Node)
  /-- A macro is invoked on a node, in a state. -/
  | invoked (entry : Entry σ) (input : Node) (state : State σ)
  /-- The output of a macro is accepted. -/
  | rewrote (output : Node) (mode : Mode)

/-- An entry of the log. -/
structure Event (σ : Type) where
  /-- How the run came here. -/
  chain : Chain
  /-- The budget here. -/
  budget : Nat
  /-- What happens. -/
  action : Action σ

/-! ### Computations with fuel and a log -/

/-- A computation: a step and the log of what happened, or nothing if the fuel was too little. -/
def Run (σ α : Type) := State σ → Option (Step σ α × List (Event σ))

namespace Run

variable {σ α β : Type}

/-- Answers without doing anything. -/
def done (a : α) : Run σ α := fun s => some ((.ok a, s), [])

/-- One computation after the other, unless the first one is told to stop. -/
def andThen (m : Run σ α) (f : α → Run σ β) : Run σ β := fun s =>
  match m s with
  | none => none
  | some ((.error c, s), log) => some ((.error c, s), log)
  | some ((.ok a, s), log) => (f a s).map fun (r, more) => (r, log ++ more)

instance : Monad (Run σ) where
  pure := done
  bind := andThen

/-- There is no fuel. -/
def exhausted : Run σ α := fun _ => none

/-- Stops the expansion. -/
def stop : Run σ α := fun s => some ((.error .cancelled, s), [])

/-- Logs an event. -/
def note (e : Event σ) : Run σ Unit := fun s => some ((.ok (), s), [e])

/-- Logs that the children of a node are expanded, and gives the cell for the node if it is made
anew on this occasion. -/
def openNode (chain : Chain) (budget : Nat) (node : Node) : Run σ Cell := fun s =>
  some ((.ok (.opening s.openings), s.opening), [⟨chain, budget, .opened node⟩])

/-- Sends messages, which can depend on the state. -/
def tell (f : State σ → List Message) : Run σ Unit := fun s => some ((.ok (), s.writeAll (f s)), [])

/-- Stops if the token says so, and takes a tick of the clock otherwise. -/
def checkpoint (token : CancelToken) : Run σ Unit := fun s =>
  if token.isCancelled s.now then some ((.error .cancelled, s), [])
  else some ((.ok (), s.tick), [])

/-- Invokes a macro. -/
def invoke (chain : Chain) (budget : Nat) (e : Entry σ) (input : Node) : Run σ (Reply σ) := fun s =>
  let reply := e.callable.run s.shared input s.scopes
  some ((.ok reply, s.after reply), [⟨chain, budget, .invoked e input s⟩])

/-- The macros that the head of a node can mean here. -/
def findMacros (t : Expander σ) (node : Node) : Run σ (List (Entry σ)) := fun s =>
  some ((.ok (t.candidates s.scopes node), s), [])

/-- Inside a block, a frame of scopes is there for as long as the computation takes, however that
ends. -/
def within (isBlock : Bool) (m : Run σ α) : Run σ α := fun s =>
  if isBlock then
    (m { s with scopes := s.scopes.push }).map fun ((r, s), log) =>
      ((r, { s with scopes := s.scopes.pop }), log)
  else m s

/-! ### The parts of an expansion -/

/-- What is known of the prepared node when a macro has its turn, and the node that it is given. -/
def input {π : Type} (prepare : π → Run σ (π × Node)) (node : Node) (e : Entry σ) (p : π) :
    Run σ (π × Node) :=
  if e.mode.childrenBefore then prepare p else pure (p, node)

/-- The turns of one tier.  `prepare` gives the node with its children expanded, and `p` is what is
known of it. -/
def tier {π : Type} (chain : Chain) (budget : Nat) (prepare : π → Run σ (π × Node)) (node : Node) :
    List (Entry σ) → List (Attempt σ) → π → Run σ (List (Attempt σ) × π)
  | [], attempts, p => pure (attempts.reverse, p)
  | e :: es, attempts, p =>
    if e.mode.childrenBefore && budget == 1 then tier chain budget prepare node es attempts p
    else do
      let ready ← input prepare node e p
      let reply ← invoke chain budget e ready.2
      let attempts := attemptOf e node reply.messages reply.outcome :: attempts
      match reply.outcome with
      | .cancelled => do
        tell fun s =>
          cancelMessage e node :: report s.sink.enabled attempts.reverse node (some .error)
        stop
      | _ => tier chain budget prepare node es attempts ready.1

/-- What the macros make of a node; `p` is what is known of the node with its children expanded. -/
inductive Ruling (π : Type) where
  | unclaimed (p : π)
  | claimed (output : Node) (mode : Mode)

/-- The tiers in turn, until a macro accepts. -/
def consult {π : Type} (chain : Chain) (budget : Nat) (prepare : π → Run σ (π × Node))
    (node : Node) : List (List (Entry σ)) → π → Run σ (Ruling π)
  | [], p => pure (.unclaimed p)
  | es :: tiers, p => do
    let turn ← tier chain budget prepare node es [] p
    tell fun s => report s.sink.enabled turn.1 node (worstOf turn.1)
    match firstAccepted? turn.1 with
    | some (output, mode) => pure (.claimed output mode)
    | none => consult chain budget prepare node tiers turn.2

/-- The nodes of a list, each expanded in its turn. -/
def list (expand : Node → Run σ (Option Node)) : List Node → Run σ (Option (List Node))
  | [] => pure none
  | n :: ns => do
    let expanded ← expand n
    let rest ← list expand ns
    pure <|
      if expanded.isNone && !n.calls Reserved.splice then rest.map (n :: ·)
      else some ((expanded.getD n).spliced ++ rest.getD ns)

/-- The target of a node, unless the head is simple. -/
def target (expand : Node → Run σ (Option Node)) (node : Node) : Run σ (Option Node) :=
  match node.target? with
  | some target => if node.hasSimpleHead then pure none else expand target
  | none => pure none

end Run

/-- A node with those of its parts replaced that have changed.  If its attributes have, it is made
anew in the cell. -/
def Node.replaceParts (node : Node) (cell : Cell) (attrs : Option (List Node))
    (target : Option Node) (args : Option (List Node)) : Option Node :=
  let withAttrs := attrs.map fun attrs => (node.withAttrs attrs).inCell cell
  let withTarget :=
    match target with
    | some target => some ((withAttrs.getD node).withTarget target.asTarget)
    | none => withAttrs
  match args with
  | some args => some ((withTarget.getD node).withArgs args)
  | none => withTarget

namespace Run

variable {σ α β : Type}

/-- The attributes, the target and the arguments of a node. -/
def parts (expand : Node → Run σ (Option Node)) (node : Node) (cell : Cell) :
    Run σ (Option Node) := do
  let attrs ← list expand node.attrs
  let newTarget ← target expand node
  let args ← list expand node.args
  pure (node.replaceParts cell attrs newTarget args)

/-- The parts of a node, if there is budget. -/
def children (chain : Chain) (budget : Nat) (expand : Node → Run σ (Option Node)) (node : Node) :
    Run σ (Option Node) :=
  if budget = 0 then pure none
  else do
    let cell ← openNode chain budget node
    parts expand node cell

/-- The node with its children expanded, unless that is known already. -/
def prepare (children : Run σ (Option Node)) (node : Node) : Prepared → Run σ (Prepared × Node)
  | .notYet => do
    match ← children with
    | some prepared => pure (.changed prepared, prepared)
    | none => pure (.unchanged, node)
  | p => pure (p, p.get node)

end Run

/-! ### The run of an expansion -/

namespace Run

variable {σ : Type} (again : Chain → Nat → Node → Bool → Run σ (Option Node))

/-- The children of a node that is dispatched, each dispatched by `again`. -/
def ownChildren (chain : Chain) (budget : Nat) (node : Node) : Run σ (Option Node) :=
  children chain budget (fun n => again (⟨node, budget, none⟩ :: chain) budget n false) node

/-- What is done with an accepted output, depending on the macro's mode. -/
def reprocess (chain : Chain) (budget : Nat) (node output : Node) (mode : Mode) :
    Run σ (Option Node) :=
  let next := budget - mode.cost
  let longer := ⟨node, budget, some mode⟩ :: chain
  if mode.reprocess = .normal && !(output == node) then again longer next output true
  else if mode.reprocess = .never then pure (some output)
  else do
    let expanded ← children longer next (fun n => again longer next n false) output
    pure (some (expanded.getD output))

/-- What is done with a node for which macros have been found.  `kept` is the answer if nothing
becomes of the node. -/
def found (chain : Chain) (budget : Nat) (node : Node) (kept : Option Node)
    (entries : List (Entry σ)) : Run σ (Option Node) := do
  let nodeChildren := ownChildren again chain budget node
  match ← consult chain budget (prepare nodeChildren node) node (tiersOf entries) .notYet with
  | .unclaimed (.changed prepared) => pure (some prepared)
  | .unclaimed .unchanged => pure kept
  | .unclaimed .notYet => do
    let expanded ← nodeChildren
    pure (expanded <|> kept)
  | .claimed output mode => do
    note ⟨chain, budget, .rewrote output mode⟩
    reprocess again chain budget node output mode

/-- One dispatch of a node; `changed` tells that the node is an output already. -/
def dispatch (t : Expander σ) (chain : Chain) (budget : Nat) (node : Node) (changed : Bool) :
    Run σ (Option Node) := do
  let kept : Option Node := if changed then some node else none
  note ⟨chain, budget, .entered node⟩
  if budget = 0 then pure kept
  else do
    checkpoint t.token
    let entries ← findMacros t node
    if entries.isEmpty then do
      let expanded ← ownChildren again chain budget node
      pure (expanded <|> kept)
    else within (node.calls Reserved.block) (found again chain budget node kept entries)

end Run

namespace Expander

variable {σ : Type}

/-- The run of a dispatch: with a unit of fuel for it, what it leads to is done with the rest. -/
def nodeRun (t : Expander σ) : Nat → Chain → Nat → Node → Bool → Run σ (Option Node)
  | 0 => fun _ _ _ _ => Run.exhausted
  | fuel + 1 => Run.dispatch (t.nodeRun fuel) t

/-- The run of a list, from the start of a chain. -/
def listRun (t : Expander σ) (fuel budget : Nat) (nodes : List Node) : Run σ (Option (List Node)) :=
  Run.list (fun n => t.nodeRun fuel [] budget n false) nodes

/-- The run of the children of a node, from the start of a chain. -/
def childrenRun (t : Expander σ) (fuel budget : Nat) (node : Node) : Run σ (Option Node) :=
  Run.children [] budget (fun n => t.nodeRun fuel [] budget n false) node

/-- The run of a forest, from fresh scopes and with the expander's budget. -/
def forestRun (t : Expander σ) (fuel : Nat) (nodes : Forest) : Run σ Forest := fun s =>
  (do
    let expanded ← t.listRun fuel t.budget nodes
    pure (expanded.getD nodes) : Run σ Forest) { s with scopes := t.rootScopes }

end Expander

/-! ### Sequences of runs -/

namespace Run

variable {σ α β : Type}

/-- How a sequence of two runs answers: the first one stops, or both have their turn. -/
theorem bind_eq_some {m : Run σ α} {f : α → Run σ β} {s : State σ} {r : Step σ β}
    {log : List (Event σ)} (h : (m >>= f) s = some (r, log)) :
    (∃ c s', m s = some ((.error c, s'), log) ∧ r = (.error c, s')) ∨
      ∃ a s' log₁ log₂, m s = some ((.ok a, s'), log₁) ∧ f a s' = some (r, log₂) ∧
        log = log₁ ++ log₂ := by
  change andThen m f s = _ at h
  unfold andThen at h
  split at h
  · simp at h
  · rename_i c s' log' hm
    obtain ⟨rfl, rfl⟩ := Prod.mk.inj (Option.some.inj h)
    exact .inl ⟨c, s', hm, rfl⟩
  · rename_i a s' log' hm
    obtain ⟨⟨r', more⟩, hf, heq⟩ := Option.map_eq_some_iff.1 h
    obtain ⟨rfl, rfl⟩ := Prod.mk.inj heq
    exact .inr ⟨a, s', log', more, hm, hf, rfl⟩

theorem bind_of_ok {m : Run σ α} {f : α → Run σ β} {s s' : State σ} {a : α} {r : Step σ β}
    {log₁ log₂ : List (Event σ)} (hm : m s = some ((.ok a, s'), log₁))
    (hf : f a s' = some (r, log₂)) : (m >>= f) s = some (r, log₁ ++ log₂) := by
  change andThen m f s = _
  simp only [andThen, hm, hf, Option.map_some]

theorem bind_of_error {m : Run σ α} (f : α → Run σ β) {s s' : State σ} {c : Cancelled}
    {log : List (Event σ)} (hm : m s = some ((.error c, s'), log)) :
    (m >>= f) s = some ((.error c, s'), log) := by
  change andThen m f s = _
  simp only [andThen, hm]

theorem note_bind_eq_some {e : Event σ} {f : Unit → Run σ β} {s : State σ} {r : Step σ β}
    {log : List (Event σ)} (h : (note e >>= f) s = some (r, log)) :
    ∃ more, f () s = some (r, more) ∧ log = e :: more := by
  rcases bind_eq_some h with ⟨c, s', hnote, -⟩ | ⟨_, s', log₁, log₂, hnote, hrest, rfl⟩
  · simp [note] at hnote
  · obtain ⟨⟩ := hnote
    exact ⟨log₂, hrest, rfl⟩

theorem openNode_bind_eq_some {chain : Chain} {budget : Nat} {node : Node} {f : Cell → Run σ β}
    {s : State σ} {r : Step σ β} {log : List (Event σ)}
    (h : (openNode chain budget node >>= f) s = some (r, log)) :
    ∃ more, f (.opening s.openings) s.opening = some (r, more) ∧
      log = ⟨chain, budget, .opened node⟩ :: more := by
  rcases bind_eq_some h with ⟨c, s', hopen, -⟩ | ⟨_, s', log₁, log₂, hopen, hrest, rfl⟩
  · simp [openNode] at hopen
  · obtain ⟨⟩ := hopen
    exact ⟨log₂, hrest, rfl⟩

/-- How a run inside a block answers: like the run from the scopes with one frame more, which is
removed in the end. -/
theorem within_eq_some {isBlock : Bool} {m : Run σ α} {s s' : State σ} {r : Except Cancelled α}
    {log : List (Event σ)} (h : within isBlock m s = some ((r, s'), log)) :
    (isBlock = false ∧ m s = some ((r, s'), log)) ∨
      (isBlock = true ∧ ∃ s₁, m { s with scopes := s.scopes.push } = some ((r, s₁), log) ∧
        s' = { s₁ with scopes := s₁.scopes.pop }) := by
  cases isBlock with
  | false => exact .inl ⟨rfl, h⟩
  | true =>
      obtain ⟨⟨⟨r₁, s₁⟩, log₁⟩, hinner, heq⟩ := Option.map_eq_some_iff.1 h
      obtain ⟨⟩ := heq
      exact .inr ⟨rfl, s₁, hinner, rfl⟩

theorem within_of_block {m : Run σ α} {s s₁ : State σ} {r : Except Cancelled α}
    {log : List (Event σ)} (h : m { s with scopes := s.scopes.push } = some ((r, s₁), log)) :
    within true m s = some ((r, { s₁ with scopes := s₁.scopes.pop }), log) := by
  unfold within
  rw [if_pos rfl, h]
  rfl

/-- What one dispatch can do: nothing without budget, stop, expand the children if no macros are
found, and otherwise ask the macros, inside a frame if the node is a block. -/
theorem dispatch_cases {again : Chain → Nat → Node → Bool → Run σ (Option Node)} {t : Expander σ}
    {chain : Chain} {budget : Nat} {node : Node} {changed : Bool} {s : State σ}
    {r : Step σ (Option Node)} {log : List (Event σ)}
    (h : dispatch again t chain budget node changed s = some (r, log)) :
    ∃ more, log = ⟨chain, budget, .entered node⟩ :: more ∧
      ((budget = 0 ∧ r = (.ok (if changed then some node else none), s) ∧ more = []) ∨
        (budget ≠ 0 ∧ t.token.isCancelled s.now = true ∧ r = (.error .cancelled, s) ∧ more = []) ∨
        (budget ≠ 0 ∧ t.token.isCancelled s.now = false ∧ t.candidates s.scopes node = [] ∧
          (ownChildren again chain budget node >>= fun expanded =>
            pure (expanded <|> if changed then some node else none)) s.tick = some (r, more)) ∨
        (budget ≠ 0 ∧ t.token.isCancelled s.now = false ∧ t.candidates s.scopes node ≠ [] ∧
          within (node.calls Reserved.block) (found again chain budget node
            (if changed then some node else none) (t.candidates s.scopes node)) s.tick =
              some (r, more))) := by
  obtain ⟨more, hrest, hlog⟩ := note_bind_eq_some h
  refine ⟨more, hlog, ?_⟩
  split at hrest
  · rename_i hzero
    obtain ⟨⟩ := hrest
    exact .inl ⟨hzero, rfl, rfl⟩
  rename_i hpos
  rcases bind_eq_some hrest with ⟨c, s₁, hstop, heq⟩ | ⟨_, s₁, log₁, log₂, hgo, hafter, hmore⟩
  · unfold checkpoint at hstop
    split at hstop
    · rename_i hcancel
      obtain ⟨⟩ := hstop
      exact .inr (.inl ⟨hpos, hcancel, heq, rfl⟩)
    · simp at hstop
  unfold checkpoint at hgo
  split at hgo
  · simp at hgo
  rename_i hcancel
  obtain ⟨⟩ := hgo
  rcases bind_eq_some hafter with ⟨c, s₂, hfind, -⟩ | ⟨entries, s₂, log₃, log₄, hfind, hlast, hlog₂⟩
  · simp [findMacros] at hfind
  obtain ⟨⟩ := hfind
  -- neither the checkpoint nor the look at the table has logged anything
  obtain rfl : more = log₄ := by rw [hmore, hlog₂]; rfl
  have hgoing : t.token.isCancelled s.now = false := Bool.eq_false_iff.2 hcancel
  split at hlast
  · rename_i hempty
    exact .inr (.inr (.inl ⟨hpos, hgoing, List.isEmpty_iff.1 hempty, hlast⟩))
  · rename_i hempty
    exact .inr (.inr (.inr ⟨hpos, hgoing, fun hnil => hempty (List.isEmpty_iff.2 hnil), hlast⟩))

end Run

/-- A tier holds the macros of one priority. -/
theorem exists_priority_of_mem_tiersOf {σ : Type} {found es : List (Entry σ)}
    (h : es ∈ tiersOf found) :
    ∃ p ∈ Priority.descending, es = found.filter (·.mode.priority == p) := by
  obtain ⟨p, hp, rfl⟩ := List.mem_map.1 (List.mem_filter.1 h).1
  exact ⟨p, hp, rfl⟩

end MacroForest
