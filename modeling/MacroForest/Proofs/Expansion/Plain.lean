/-
**Expansion without sharing.**

An expansion answers `none` for what stays as it is, and rebuilds of a node only the parts that have
changed.  This is about memory, and nobody should have to think of it.  So there is a *plain*
expansion here, which knows nothing of it: a node is always rebuilt from its expanded attributes,
its expanded target and its expanded arguments, and a list is the concatenation of what its nodes
expand to.  Macros are found, asked and paid for as before.

The two do the same, event by event, with two exceptions.  A splice of one node in the place of a
target stands for that node, but this is looked at when the target has changed only; the plain
expansion always does it (`MacroForest.Expander.spliced_target_stays`).  And a NaN that is made anew
is not the NaN that it was, so that a macro which keeps such a literal is asked once where it is
shared, and again and again where it is rebuilt (`MacroForest.Expander.nan_shows_sharing`).  A log
is *direct* if no node was opened that has such a target or is a NaN, and a direct run of the
expansion is a plain run: the answer with `none` read as the input, the state, the messages and the
signal to stop are the same, and so are all invocations in their order.

Main definitions:

* `MacroForest.Plain.nodeRun`, `MacroForest.Plain.listRun`, `MacroForest.Plain.childrenRun` — the
  plain expansion;
* `MacroForest.Event.direct` — no node is opened whose target is a splice of one node, and no NaN;
* `MacroForest.Run.Simulated` — a direct run is matched by another one.

Main results:

* `MacroForest.Run.dispatch_simulated` — one dispatch, given what it leads to;
* `MacroForest.Expander.nodeRun_simulated` — **a direct run is a plain run**;
* `MacroForest.Expander.refines_plain` — the expansion of a node, of a list and of children.
-/

import MacroForest.Proofs.Expansion.Adequacy

set_option relaxedAutoImplicit false
set_option autoImplicit false

namespace MacroForest

/-! ### The plain expansion -/

namespace Plain

section Parts

variable {σ : Type} (expand : Node → Run σ Node)

/-- The nodes of a list, each expanded in its turn and splices replaced by their arguments. -/
def list : List Node → Run σ (List Node)
  | [] => pure []
  | n :: ns => do
    let expanded ← expand n
    let rest ← list ns
    pure (expanded.spliced ++ rest)

/-- The target of a call; a plain name stays. -/
def target (simple : Bool) (n : Node) : Run σ Node :=
  if simple then pure n
  else do
    let expanded ← expand n
    pure expanded.asTarget

/-- A node built from its expanded attributes, target and arguments; a literal is made anew in the
cell. -/
def rebuild (node : Node) (cell : Cell) : Run σ Node :=
  match node with
  | .atom attrs style value => do
    let attrs ← list expand attrs
    pure ((Node.atom attrs style value).inCell cell)
  | .call attrs style callee args => do
    let attrs ← list expand attrs
    let callee ← target expand node.hasSimpleHead callee
    let args ← list expand args
    pure (.call attrs style callee args)

/-- The node with its children expanded; without budget it stays. -/
def children (chain : Chain) (budget : Nat) (node : Node) : Run σ Node :=
  if budget = 0 then pure node
  else do
    let cell ← Run.openNode chain budget node
    rebuild expand node cell

end Parts

/-- The node with its children expanded, unless that is known already. -/
def prepare {σ : Type} (children : Run σ Node) : Option Node → Run σ (Option Node × Node)
  | none => do
    let prepared ← children
    pure (some prepared, prepared)
  | some prepared => pure (some prepared, prepared)

section Dispatch

variable {σ : Type} (again : Chain → Nat → Node → Run σ Node)

/-- The children of a node that is dispatched, each dispatched by `again`. -/
def ownChildren (chain : Chain) (budget : Nat) (node : Node) : Run σ Node :=
  children (again (⟨node, budget, none⟩ :: chain) budget) chain budget node

/-- What is done with an accepted output, depending on the macro's mode. -/
def reprocess (chain : Chain) (budget : Nat) (node output : Node) (mode : Mode) : Run σ Node :=
  let next := budget - mode.cost
  let longer := ⟨node, budget, some mode⟩ :: chain
  if mode.reprocess = .normal && !(output == node) then again longer next output
  else if mode.reprocess = .never then pure output
  else children (again longer next) longer next output

/-- What is done with a node for which macros have been found. -/
def found (chain : Chain) (budget : Nat) (node : Node) (entries : List (Entry σ)) : Run σ Node := do
  let nodeChildren := ownChildren again chain budget node
  match ← Run.consult chain budget (prepare nodeChildren) node (tiersOf entries) none with
  | .unclaimed (some prepared) => pure prepared
  | .unclaimed none => nodeChildren
  | .claimed output mode => do
    Run.note ⟨chain, budget, .rewrote output mode⟩
    reprocess again chain budget node output mode

/-- One dispatch of a node. -/
def dispatch (t : Expander σ) (chain : Chain) (budget : Nat) (node : Node) : Run σ Node := do
  Run.note ⟨chain, budget, .entered node⟩
  if budget = 0 then pure node
  else do
    Run.checkpoint t.token
    let entries ← Run.findMacros t node
    if entries.isEmpty then ownChildren again chain budget node
    else Run.within (node.calls Reserved.block) (found again chain budget node entries)

end Dispatch

variable {σ : Type}

/-- The plain run of a dispatch: with a unit of fuel for it, what it leads to is done with the
rest. -/
def nodeRun (t : Expander σ) : Nat → Chain → Nat → Node → Run σ Node
  | 0 => fun _ _ _ => Run.exhausted
  | fuel + 1 => dispatch (nodeRun t fuel) t

/-- The plain run of a list. -/
def listRun (t : Expander σ) (fuel budget : Nat) (nodes : List Node) : Run σ (List Node) :=
  list (nodeRun t fuel [] budget) nodes

/-- The plain run of the children of a node. -/
def childrenRun (t : Expander σ) (fuel budget : Nat) (node : Node) : Run σ Node :=
  children (nodeRun t fuel [] budget) [] budget node

end Plain

/-! ### Direct runs -/

/-- No node is opened whose target is a splice of one node. -/
def Event.unspliced {σ : Type} (e : Event σ) : Bool :=
  match e.action with
  | .opened node => !node.target?.any (·.callsWith Reserved.splice 1)
  | _ => true

/-- No NaN is opened. -/
def Event.withoutNaN {σ : Type} (e : Event σ) : Bool :=
  match e.action with
  | .opened node => !node.isNaN
  | _ => true

/-- Nothing is opened that a plain expansion would treat in another way. -/
def Event.direct {σ : Type} (e : Event σ) : Bool := e.unspliced && e.withoutNaN

theorem Node.asTarget_of_direct {n : Node} (h : n.callsWith Reserved.splice 1 = false) :
    n.asTarget = n := by
  unfold asTarget
  split
  · rename_i item hargs
    have : n.calls Reserved.splice = false := by simpa [callsWith, hargs] using h
    rw [if_neg (by simp [this])]
  · rfl

/-- The parts that have changed, put in the place of those that were there. -/
theorem Node.replaceParts_call (attrs : List Node) (style : Style) (callee : Node)
    (args : List Node) (newAttrs : Option (List Node)) (newCallee : Option Node)
    (newArgs : Option (List Node)) (cell : Cell) :
    ((Node.call attrs style callee args).replaceParts cell newAttrs newCallee newArgs).getD
        (.call attrs style callee args) =
      .call (newAttrs.getD attrs) style ((newCallee.map Node.asTarget).getD callee)
        (newArgs.getD args) := by
  cases newAttrs <;> cases newCallee <;> cases newArgs <;> rfl

theorem Node.replaceParts_atom {attrs : List Node} {style : Style} {value : Atom}
    (hvalue : (Node.atom attrs style value).isNaN = false) (newAttrs : Option (List Node))
    (cell : Cell) :
    ((Node.atom attrs style value).replaceParts cell newAttrs none none).getD
        (.atom attrs style value) =
      (Node.atom (newAttrs.getD attrs) style value).inCell cell := by
  cases newAttrs with
  | none => exact (Node.inCell_of_value hvalue cell).symm
  | some newAttrs => rfl

namespace Run

variable {σ α β γ δ : Type}

/-- Whatever the first run does, if its log is direct then the second one does the same from the
same state: it logs the same events and leaves the same state, and its answer is `f` of that of the
first. -/
def Simulated (m : Run σ α) (p : Run σ β) (f : α → β) : Prop :=
  ∀ s r s' log, m s = some ((r, s'), log) → log.all Event.direct = true →
    p s = some ((r.map f, s'), log)

theorem Simulated.refl (m : Run σ α) : m.Simulated m id := by
  intro s r s' log hr _
  rw [hr]
  cases r <;> rfl

theorem simulated_done {f : α → β} {a : α} {b : β} (h : f a = b) :
    (pure a : Run σ α).Simulated (pure b) f := by
  rintro s r s' log ⟨⟩ _
  rw [← h]
  rfl

theorem simulated_stop {f : α → β} : (stop : Run σ α).Simulated stop f := by
  rintro s r s' log ⟨⟩ _
  rfl

theorem Simulated.note {e : Event σ} {m : Run σ α} {p : Run σ β} {f : α → β}
    (h : e.direct = true → m.Simulated p f) :
    (Run.note e >>= fun _ => m).Simulated (Run.note e >>= fun _ => p) f := by
  intro s r s' log hr hdirect
  obtain ⟨more, hrest, rfl⟩ := note_bind_eq_some hr
  rw [List.all_cons, Bool.and_eq_true] at hdirect
  have hnote : Run.note e s = some ((.ok (), s), [e]) := rfl
  exact bind_of_ok hnote (h hdirect.1 _ _ _ _ hrest hdirect.2)

theorem Simulated.openNode {chain : Chain} {budget : Nat} {node : Node} {m : Cell → Run σ α}
    {p : Cell → Run σ β} {f : α → β}
    (h : Event.direct (σ := σ) ⟨chain, budget, .opened node⟩ = true →
      ∀ cell, (m cell).Simulated (p cell) f) :
    (Run.openNode chain budget node >>= m).Simulated (Run.openNode chain budget node >>= p) f := by
  intro s r s' log hr hdirect
  obtain ⟨more, hrest, rfl⟩ := openNode_bind_eq_some hr
  rw [List.all_cons, Bool.and_eq_true] at hdirect
  have hopen : Run.openNode chain budget node s = some ((.ok (.opening s.openings), s.opening),
      [⟨chain, budget, .opened node⟩]) := rfl
  exact bind_of_ok hopen (h hdirect.1 _ _ _ _ _ hrest hdirect.2)

theorem Simulated.bind {m : Run σ α} {p : Run σ β} {f : α → β} {k : α → Run σ γ} {l : β → Run σ δ}
    {g : γ → δ} (hm : m.Simulated p f) (hk : ∀ a, (k a).Simulated (l (f a)) g) :
    (m >>= k).Simulated (p >>= l) g := by
  intro s r s' log hr hdirect
  rcases bind_eq_some hr with ⟨c, s₁, hstop, heq⟩ | ⟨a, s₁, log₁, log₂, hok, hrest, rfl⟩
  · obtain ⟨rfl, rfl⟩ := Prod.mk.inj heq
    exact bind_of_error l (hm _ _ _ _ hstop hdirect)
  · rw [List.all_append, Bool.and_eq_true] at hdirect
    exact bind_of_ok (hm _ _ _ _ hok hdirect.1) (hk a _ _ _ _ hrest hdirect.2)

/-- What is made of the answer in the end can be left to the reading of it. -/
theorem Simulated.bind_done {m : Run σ α} {p : Run σ β} {f : α → β} {h : α → γ} {g : γ → β}
    (hm : m.Simulated p f) (hread : ∀ a, g (h a) = f a) :
    (m >>= fun a => pure (h a)).Simulated p g := by
  intro s r s' log hr hdirect
  rcases bind_eq_some hr with ⟨c, s₁, hstop, heq⟩ | ⟨a, s₁, log₁, log₂, hok, hrest, rfl⟩
  · obtain ⟨rfl, rfl⟩ := Prod.mk.inj heq
    exact hm _ _ _ _ hstop hdirect
  · obtain ⟨⟩ := hrest
    rw [List.append_nil] at hdirect ⊢
    rw [hm _ _ _ _ hok hdirect, Except.map, Except.map, hread]

theorem Simulated.then_done {m : Run σ α} {p : Run σ β} {f : α → β} {h : β → γ} {g : α → γ}
    (hm : m.Simulated p f) (hread : ∀ a, h (f a) = g a) :
    m.Simulated (p >>= fun b => pure (h b)) g := by
  intro s r s' log hr hdirect
  have hsim := hm _ _ _ _ hr hdirect
  cases r with
  | error c => exact bind_of_error _ hsim
  | ok a =>
      have := bind_of_ok (f := fun b => pure (h b)) hsim rfl
      rwa [List.append_nil, hread] at this

theorem Simulated.within {m : Run σ α} {p : Run σ β} {f : α → β} (hm : m.Simulated p f)
    (isBlock : Bool) : (m.within isBlock).Simulated (p.within isBlock) f := by
  intro s r s' log hr hdirect
  rcases within_eq_some hr with ⟨rfl, hr⟩ | ⟨rfl, s₁, hinner, rfl⟩
  · exact hm _ _ _ _ hr hdirect
  · exact within_of_block (hm _ _ _ _ hinner hdirect)

/-! ### The parts of an expansion -/

section Parts

variable {expand : Node → Run σ (Option Node)} {plain : Node → Run σ Node}

theorem list_simulated (h : ∀ n, (expand n).Simulated (plain n) (·.getD n)) (ns : List Node) :
    (list expand ns).Simulated (Plain.list plain ns) (·.getD ns) := by
  induction ns with
  | nil => exact simulated_done rfl
  | cons n ns ih =>
      refine (h n).bind fun expanded => ?_
      refine ih.bind fun rest => simulated_done ?_
      cases expanded with
      | some expanded => rfl
      | none =>
          -- a node that stays is a member itself, unless it is a splice
          cases hsplice : n.calls Reserved.splice with
          | true => rfl
          | false => cases rest <;> simp [Node.spliced, hsplice]

theorem target_simulated (h : ∀ n, (expand n).Simulated (plain n) (·.getD n)) {node callee : Node}
    (htarget : node.target? = some callee) (hdirect : callee.callsWith Reserved.splice 1 = false) :
    (target expand node).Simulated (Plain.target plain node.hasSimpleHead callee)
      fun new => (new.map Node.asTarget).getD callee := by
  unfold target Plain.target
  rw [htarget]
  dsimp only
  split
  · exact simulated_done rfl
  · refine (h callee).then_done fun new => ?_
    cases new with
    | some new => rfl
    | none => exact Node.asTarget_of_direct hdirect

theorem children_simulated (h : ∀ n, (expand n).Simulated (plain n) (·.getD n)) (chain : Chain)
    (budget : Nat) (node : Node) :
    (children chain budget expand node).Simulated (Plain.children plain chain budget node)
      (·.getD node) := by
  unfold children Plain.children
  split
  · exact simulated_done rfl
  -- the node is opened, so the log tells that it is no NaN and its target no splice of one node
  refine Simulated.openNode fun hdirect cell => ?_
  cases node with
  | atom attrs style value =>
      have hvalue : (Node.atom attrs style value).isNaN = false := by
        simpa [Event.direct, Event.unspliced, Event.withoutNaN, Node.target?] using hdirect
      refine (list_simulated h attrs).bind fun newAttrs => ?_
      -- an atom has neither target nor arguments to expand
      rintro s r s' log ⟨⟩ _
      exact congrArg (fun n => some ((Except.ok n, s), []))
        (Node.replaceParts_atom hvalue newAttrs cell).symm
  | call attrs style callee args =>
      have hcallee : callee.callsWith Reserved.splice 1 = false := by
        simpa [Event.direct, Event.unspliced, Event.withoutNaN, Node.target?, Node.isNaN]
          using hdirect
      refine (list_simulated h attrs).bind fun newAttrs => ?_
      refine (target_simulated h rfl hcallee).bind fun newCallee => ?_
      refine (list_simulated h args).bind fun newArgs => simulated_done ?_
      exact Node.replaceParts_call attrs style callee args newAttrs newCallee newArgs cell

end Parts

/-! ### Tiers -/

section Tiers

variable {π ρ : Type} {ready : π → Run σ (π × Node)} {plainReady : ρ → Run σ (ρ × Node)}
  {view : π → ρ} {chain : Chain} {budget : Nat} {node : Node}

theorem tier_simulated
    (h : ∀ p, (ready p).Simulated (plainReady (view p)) fun r => (view r.1, r.2))
    (es : List (Entry σ)) (attempts : List (Attempt σ)) (p : π) :
    (tier chain budget ready node es attempts p).Simulated
      (tier chain budget plainReady node es attempts (view p)) fun turn => (turn.1, view turn.2) := by
  induction es generalizing attempts p with
  | nil => exact simulated_done rfl
  | cons e es ih =>
      unfold tier
      split
      · exact ih attempts p
      have hinput : (input ready node e p).Simulated (input plainReady node e (view p))
          fun r => (view r.1, r.2) := by
        unfold input
        split
        · exact h p
        · exact simulated_done rfl
      refine hinput.bind fun r => ?_
      refine (Simulated.refl (invoke chain budget e r.2)).bind fun reply => ?_
      dsimp only [id]
      cases reply.outcome with
      | cancelled => exact (Simulated.refl _).bind fun _ => simulated_stop
      | accepted | declined | failed | crashed => exact ih _ r.1

/-- A ruling in view of what is known of the prepared node. -/
def Ruling.map (view : π → ρ) : Ruling π → Ruling ρ
  | .unclaimed p => .unclaimed (view p)
  | .claimed output mode => .claimed output mode

theorem consult_simulated
    (h : ∀ p, (ready p).Simulated (plainReady (view p)) fun r => (view r.1, r.2))
    (tiers : List (List (Entry σ))) (p : π) :
    (Run.consult chain budget ready node tiers p).Simulated
      (Run.consult chain budget plainReady node tiers (view p)) (Ruling.map view) := by
  induction tiers generalizing p with
  | nil => exact simulated_done rfl
  | cons es tiers ih =>
      unfold Run.consult
      refine (tier_simulated h es [] p).bind fun turn => ?_
      refine (Simulated.refl _).bind fun _ => ?_
      dsimp only
      cases firstAccepted? turn.1 with
      | none => exact ih turn.2
      | some accepted => exact simulated_done rfl

end Tiers

end Run

/-- What the plain expansion knows of a prepared node. -/
def Prepared.known (p : Prepared) (node : Node) : Option Node :=
  match p with
  | .notYet => none
  | .unchanged => some node
  | .changed prepared => some prepared

namespace Run

variable {σ : Type}

theorem prepare_simulated {nodeChildren : Run σ (Option Node)} {plainChildren : Run σ Node}
    {node : Node} (h : nodeChildren.Simulated plainChildren (·.getD node)) (p : Prepared) :
    (prepare nodeChildren node p).Simulated (Plain.prepare plainChildren (p.known node))
      fun r => (r.1.known node, r.2) := by
  cases p with
  | unchanged | changed => exact simulated_done rfl
  | notYet =>
      refine h.bind fun expanded => ?_
      cases expanded <;> exact simulated_done rfl

/-! ### Dispatches -/

/-- A dispatch is simulated by a plain one.  The answer for a node that is an output already is
never `none`, so it does not matter what `none` would be read as. -/
def AgainSimulated (again : Chain → Nat → Node → Bool → Run σ (Option Node))
    (plain : Chain → Nat → Node → Run σ Node) : Prop :=
  ∀ chain budget node changed other, (changed = false → other = node) →
    (again chain budget node changed).Simulated (plain chain budget node) (·.getD other)

section Dispatch

variable {again : Chain → Nat → Node → Bool → Run σ (Option Node)}
  {plain : Chain → Nat → Node → Run σ Node} {changed : Bool} {node other : Node}

theorem getD_kept (h : changed = false → other = node) :
    (if changed then some node else none : Option Node).getD other = node := by
  cases changed with
  | true => rfl
  | false => exact h rfl

theorem getD_orElse_kept (h : changed = false → other = node) (expanded : Option Node) :
    (expanded <|> if changed then some node else none).getD other = expanded.getD node := by
  cases expanded with
  | some expanded => rfl
  | none => exact getD_kept h

theorem ownChildren_simulated (hagain : AgainSimulated again plain) (chain : Chain) (budget : Nat)
    (node : Node) :
    (ownChildren again chain budget node).Simulated (Plain.ownChildren plain chain budget node)
      (·.getD node) :=
  children_simulated (fun n => hagain _ budget n false n fun _ => rfl) chain budget node

theorem reprocess_simulated (hagain : AgainSimulated again plain) (chain : Chain) (budget : Nat)
    (node output other : Node) (mode : Mode) :
    (reprocess again chain budget node output mode).Simulated
      (Plain.reprocess plain chain budget node output mode) (·.getD other) := by
  unfold reprocess Plain.reprocess
  dsimp only
  split
  · exact hagain _ _ output true other (by simp)
  · split
    · exact simulated_done rfl
    · refine (children_simulated (fun n => hagain _ _ n false n fun _ => rfl) _ _ output).bind_done ?_
      exact fun expanded => rfl

theorem found_simulated (hagain : AgainSimulated again plain) (h : changed = false → other = node)
    (chain : Chain) (budget : Nat) (entries : List (Entry σ)) :
    (found again chain budget node (if changed then some node else none) entries).Simulated
      (Plain.found plain chain budget node entries) (·.getD other) := by
  have hchildren := ownChildren_simulated hagain chain budget node
  unfold found Plain.found
  refine (consult_simulated (prepare_simulated hchildren) (tiersOf entries) .notYet).bind
    fun ruling => ?_
  cases ruling with
  | claimed output mode =>
      exact Simulated.note fun _ => reprocess_simulated hagain chain budget node output other mode
  | unclaimed p =>
      cases p with
      | changed prepared => exact simulated_done rfl
      | unchanged => exact simulated_done (getD_kept h)
      | notYet => exact hchildren.bind_done (getD_orElse_kept h)

/-- One dispatch is simulated by the plain one, if what it leads to is. -/
theorem dispatch_simulated (t : Expander σ) (hagain : AgainSimulated again plain) :
    AgainSimulated (dispatch again t) (Plain.dispatch plain t) := by
  intro chain budget node changed other h
  unfold dispatch Plain.dispatch
  refine Simulated.note fun _ => ?_
  split
  · exact simulated_done (getD_kept h)
  refine (Simulated.refl (checkpoint t.token)).bind fun _ => ?_
  refine (Simulated.refl (findMacros t node)).bind fun entries => ?_
  dsimp only [id]
  split
  · exact (ownChildren_simulated hagain chain budget node).bind_done (getD_orElse_kept h)
  · exact (found_simulated hagain h chain budget entries).within _

end Dispatch

end Run

/-! ### Expansions -/

/-- The answer of a step, `none` read as the input. -/
def Step.orInput {σ α : Type} (r : Step σ (Option α)) (input : α) : Step σ α :=
  (r.1.map (·.getD input), r.2)

namespace Expander

variable {σ : Type} (t : Expander σ)

/-- **A direct run is a plain run.** -/
theorem nodeRun_simulated (fuel : Nat) :
    Run.AgainSimulated (t.nodeRun fuel) (Plain.nodeRun t fuel) := by
  induction fuel with
  | zero =>
      intro chain budget node changed other _ s r s' log hr
      simp [nodeRun, Run.exhausted] at hr
  | succ fuel ih => exact Run.dispatch_simulated t ih

/-- The runs of an expansion end with its answer, and each of them that is direct is a plain run:
with the same fuel, the plain expansion logs the same events, leaves the same state, and answers the
same with `none` read as the input. -/
def Refines {α : Type} (run : Nat → Run σ (Option α)) (plain : Nat → Run σ α) (input : α)
    (s : State σ) (answer : Step σ (Option α)) : Prop :=
  (∃ log enough, ∀ fuel, enough ≤ fuel → run fuel s = some (answer, log)) ∧
    ∀ fuel log, run fuel s = some (answer, log) → log.all Event.direct = true →
      plain fuel s = some (answer.orInput input, log) ∧
        (answer.1 = .ok none → plain fuel s = some ((.ok input, answer.2), log))

theorem Refines.intro {α : Type} {run : Nat → Run σ (Option α)} {plain : Nat → Run σ α} {input : α}
    {s : State σ} {answer : Step σ (Option α)}
    (hruns : ∃ log enough, ∀ fuel, enough ≤ fuel → run fuel s = some (answer, log))
    (hsim : ∀ fuel, (run fuel).Simulated (plain fuel) (·.getD input)) :
    Refines run plain input s answer := by
  refine ⟨hruns, fun fuel log hrun hdirect => ?_⟩
  have hplain := hsim fuel _ _ _ _ hrun hdirect
  refine ⟨hplain, fun hnone => ?_⟩
  rw [hplain, hnone]
  rfl

/-- **The expansion refines the plain one**, for a node, a list and the children of a node.  What is
the same is all that macros and their callers can see: the invocations in their order and the states
in which they happen, the scopes, the messages, and the signal to stop. -/
theorem refines_plain (budget : Nat) (s : State σ) :
    (∀ node, Refines (t.nodeRun · [] budget node false) (Plain.nodeRun t · [] budget node) node s
      (t.expandNode budget node s)) ∧
    (∀ nodes, Refines (t.listRun · budget nodes) (Plain.listRun t · budget nodes) nodes s
      (t.expandList budget nodes s)) ∧
    (∀ node, Refines (t.childrenRun · budget node) (Plain.childrenRun t · budget node) node s
      (t.expandChildren budget node s)) := by
  have hnodes : ∀ fuel n, (t.nodeRun fuel [] budget n false).Simulated
      (Plain.nodeRun t fuel [] budget n) (·.getD n) :=
    fun fuel n => t.nodeRun_simulated fuel [] budget n false n fun _ => rfl
  refine ⟨fun node => ?_, fun nodes => ?_, fun node => ?_⟩
  · exact .intro (t.exists_nodeRun budget node s) fun fuel => hnodes fuel node
  · exact .intro (t.exists_listRun budget nodes s) fun fuel =>
      Run.list_simulated (hnodes fuel) nodes
  · exact .intro (t.exists_childrenRun budget node s) fun fuel =>
      Run.children_simulated (hnodes fuel) [] budget node

/-- A macro that counts its invocations and puts two copies of its arguments, as they are expanded
before, in the place of the call. -/
def doubling : Entry Nat where
  space := none
  name := "double"
  mode := { childrenBefore := true, reprocess := .childrenAfter }
  givenLabel := none
  origin := none
  callable := ⟨.custom 0, fun count node scopes =>
    .quiet (count + 1) scopes (.accepted (.splice (node.args ++ node.args)))⟩

theorem refines_plain_doubling :
    let t := Expander.create ⟨[⟨"double", [doubling]⟩]⟩ [] 100 {}
    let s := t.initial 0 (.empty .debug)
    let node := Node.block [.invokeName "double" [.invokeName "double" [.ident "a"], .ident "b"]]
    ∃ log, t.nodeRun 5 [] 9 node false s = some (t.expandNode 9 node s, log) ∧
      log.all Event.direct = true ∧ (t.expandNode 9 node s).2.shared = 2 ∧
      Plain.nodeRun t 5 [] 9 node s = some ((t.expandNode 9 node s).orInput node, log) := by
  intro t s node
  have hrun : (t.nodeRun 5 [] 9 node false s).map (fun r => (r.2.all Event.direct, r.1.2.shared)) =
      some (true, 2) := by
    decide +kernel
  obtain ⟨⟨r, log⟩, hr, heq⟩ := Option.map_eq_some_iff.1 hrun
  obtain ⟨hdirect, hshared⟩ := Prod.mk.inj heq
  have hanswer := t.nodeRun_answers 5 [] 9 node s r log hr
  rw [← hanswer] at hr hshared
  obtain ⟨-, hplain⟩ := (refines_plain t 9 s).1 node
  exact ⟨log, hr, hdirect, hshared, (hplain 5 log hr hdirect).1⟩

/-- **The exception.**  A target that is a splice of one node and does not change stays, but the
plain expansion puts that node in its place. -/
theorem spliced_target_stays :
    let t := Expander.create (Table.empty : Table Unit) [] 100 {}
    let s := t.initial () (.empty .debug)
    let node := Node.call [] .plain (.splice [.ident "f"]) [.ident "x"]
    (t.expandNode 9 node s).1 = .ok none ∧
      (Plain.nodeRun t 5 [] 9 node s).map (·.1.1) = some (.ok (.invokeName "f" [.ident "x"])) := by
  intro t s node
  have hrun : (t.nodeRun 5 [] 9 node false s).map (·.1.1) = some (.ok none) := rfl
  obtain ⟨⟨r, log⟩, hr, hnone⟩ := Option.map_eq_some_iff.1 hrun
  refine ⟨?_, rfl⟩
  rw [t.nodeRun_answers 5 [] 9 node s r log hr]
  exact hnone

/-- A macro that counts its invocations and keeps its call, with the arguments expanded before. -/
def keeping : Entry Nat where
  space := none
  name := "keep"
  mode := { childrenBefore := true }
  givenLabel := none
  origin := none
  callable := ⟨.custom 0, fun count node scopes => .quiet (count + 1) scopes (.accepted node)⟩

/-- **A NaN shows whether it is shared.**  The macro is given the call as it was dispatched, and
what it keeps is the same node.  In the plain expansion the literal is made anew each time, so what
the macro keeps is another node, and is dispatched as long as there is budget. -/
theorem nan_shows_sharing :
    let t := Expander.create ⟨[⟨"keep", [keeping]⟩]⟩ [] 10 {}
    let s := t.initial 0 (.empty .debug)
    let node := Node.invokeName "keep" [.number (.ofBits 0x7FF8000000000000)]
    ∃ log, t.nodeRun 9 [] 10 node false s = some (t.expandNode 10 node s, log) ∧
      log.all Event.unspliced = true ∧ (t.expandNode 10 node s).2.shared = 1 ∧
      ∃ r log', Plain.nodeRun t 9 [] 10 node s = some (r, log') ∧ r.2.shared = 5 := by
  intro t s node
  have hrun : (t.nodeRun 9 [] 10 node false s).map
      (fun r => (r.2.all Event.unspliced, r.1.2.shared)) = some (true, 1) := by
    decide +kernel
  have hplain : (Plain.nodeRun t 9 [] 10 node s).map (·.1.2.shared) = some 5 := by decide +kernel
  obtain ⟨⟨r, log⟩, hr, heq⟩ := Option.map_eq_some_iff.1 hrun
  obtain ⟨hunspliced, hshared⟩ := Prod.mk.inj heq
  obtain ⟨⟨r', log'⟩, hr', hshared'⟩ := Option.map_eq_some_iff.1 hplain
  have hanswer := t.nodeRun_answers 9 [] 10 node s r log hr
  rw [← hanswer] at hr hshared
  exact ⟨log, hr, hunspliced, hshared, r', log', hr', hshared'⟩

end Expander

end MacroForest
