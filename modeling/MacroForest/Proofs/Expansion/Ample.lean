/-
**More budget than needed.**

The budget of an expansion is there to end what would not end by itself.  An expansion that ends by
itself should not notice how much of it there is.  There are only three places where it can: a node
is dispatched without budget, an output is left as it is because no budget remains for it or for its
children, and a macro that wants the children of its node expanded before, which costs twice as
much, is passed over with a budget of one.  A run in which none of this happens is *ample*, and with
any larger budget it is the same run.

The second run pursues the first one (`MacroForest/Proofs/Expansion/Pursuit.lean`) in the very same
states, with the difference of the budgets as extra budget in every event.

Main definitions:

* `MacroForest.Event.ample` — the event has the budget that it needs;
* `MacroForest.Expander.passesNone` — a guard: no macro is passed over;
* `MacroForest.Expander.Ample` — the budget of an expansion never shows;
* `MacroForest.Event.raise` — the same event with more budget.

Main results:

* `MacroForest.Expander.forestRun_withBudget` — an ample run, with more budget;
* `MacroForest.Expander.budget_unobservable` — **more budget than needed is not observable**.
-/

import MacroForest.Proofs.Expansion.Adequacy
import MacroForest.Proofs.Expansion.Pursuit

set_option relaxedAutoImplicit false
set_option autoImplicit false

namespace MacroForest

variable {σ : Type}

/-! ### Ample runs -/

/-- The event has the budget that it needs: some for a dispatch, and some to go on with an output,
unless the output stays as it is. -/
def Event.ample (event : Event σ) : Bool :=
  match event.action with
  | .entered _ => 0 < event.budget
  | .rewrote _ mode => mode.reprocess = .never || mode.cost < event.budget
  | .opened _ => true
  | .invoked .. => true

/-- The same event with more budget, here and in the dispatches that led to it. -/
def Event.raise (extra : Nat) (event : Event σ) : Event σ :=
  ⟨event.chain.raise extra, event.budget + extra, event.action⟩

theorem Event.raise_zero (event : Event σ) : event.raise 0 = event := by
  have hchain : event.chain.raise 0 = event.chain := List.map_id event.chain
  rw [Event.raise, hchain]
  rfl

namespace Expander

/-- The same expander with another budget. -/
def withBudget (t : Expander σ) (budget : Nat) : Expander σ := { t with budget := budget }

/-- A guard: no macro is passed over because the budget is one. -/
def passesNone (t : Expander σ) : Guard σ := fun budget node s =>
  budget != 1 || t.token.isCancelled s.now || t.Serves node s.tick

/-- The budget never shows in the expansion of a forest: no node is dispatched and no children are
expanded without budget, and no macro is passed over because the budget is one. -/
def Ample (t : Expander σ) (nodes : Forest) (s : State σ) : Prop :=
  ∃ fuel r log, t.guardedForestRun t.passesNone fuel nodes s = some (r, log) ∧
    ∀ event ∈ log, event.ample = true

/-! ### The pursuit -/

theorem budget_ne_zero_of_ample {chain : Chain} {budget : Nat} {node : Node}
    (h : (⟨chain, budget, .entered node⟩ : Event σ).ample = true) : budget ≠ 0 := by
  have hpos : 0 < budget := of_decide_eq_true h
  omega

theorem cost_lt_of_ample {chain : Chain} {budget : Nat} {output : Node} {mode : Mode}
    (h : (⟨chain, budget, .rewrote output mode⟩ : Event σ).ample = true) :
    mode.reprocess = .never ∨ mode.cost < budget := by
  simpa [Event.ample] using h

theorem serves_of_passesNone {t : Expander σ} {node : Node} {s : State σ}
    (h : t.passesNone 1 node s = true) (hgoing : t.token.isCancelled s.now = false) :
    t.Serves node s.tick = true := by
  simpa [passesNone, hgoing] using h

/-- With more budget, an ample run is pursued in the same states. -/
def richer (t : Expander σ) (extra : Nat) : Pursuit t (t.withBudget (t.budget + extra)) :=
  .inStep extra t.passesNone (fun event => event.ample = true) rfl (fun _ => rfl)
    (fun _ hample => budget_ne_zero_of_ample hample) (fun _ hample => cost_lt_of_ample hample)
    (fun _ hallows hgoing => serves_of_passesNone hallows hgoing)

theorem raise_of_matches {t : Expander σ} {extra : Nat} {event event' : Event σ}
    (h : (t.richer extra).Matches event event') : event' = event.raise extra := by
  obtain ⟨chain, budget, action⟩ := event
  obtain ⟨chain', budget', action'⟩ := event'
  obtain ⟨rfl, rfl, haction⟩ := h
  have hsame : action' = action := Action.Matches.eq haction
  rw [hsame]
  rfl

theorem map_raise_of_matches {t : Expander σ} {extra : Nat} {log log' : List (Event σ)}
    (h : List.Forall₂ (t.richer extra).Matches log log') : log' = log.map (·.raise extra) := by
  induction h with
  | nil => rfl
  | cons hevent _ ih => rw [List.map_cons, raise_of_matches hevent, ih]

/-- **An ample run, with more budget**: the same answer, the same state in the end, and the same
events with the extra budget. -/
theorem forestRun_withBudget {t : Expander σ} {fuel : Nat} {nodes : Forest} {s : State σ}
    {r : Step σ Forest} {log : List (Event σ)}
    (hr : t.guardedForestRun t.passesNone fuel nodes s = some (r, log))
    (hample : ∀ event ∈ log, event.ample = true) (extra : Nat) :
    (t.withBudget (t.budget + extra)).forestRun fuel nodes s =
      some (r, log.map (·.raise extra)) := by
  obtain ⟨s₂, log', hr', rfl, hlog⟩ := forestRun_pursued (t.richer extra) rfl rfl hr hample
  rw [hr', map_raise_of_matches hlog]

/-- **More budget than needed is not observable.**  If the budget never shows in the expansion of a
forest, then with any larger budget the answer is the same, and so are the messages, the scopes,
the shared state and the clock in the end.  The runs are the same event by event: the same
dispatches and the same invocations in the same states, in the same order, each with the extra
budget. -/
theorem budget_unobservable (t : Expander σ) (nodes : Forest) (s : State σ)
    (hample : t.Ample nodes s) (budget : Nat) (hle : t.budget ≤ budget) :
    (t.withBudget budget).expandForest nodes s = t.expandForest nodes s ∧
      ∃ fuel log, t.forestRun fuel nodes s = some (t.expandForest nodes s, log) ∧
        (t.withBudget budget).forestRun fuel nodes s =
          some (t.expandForest nodes s, log.map (·.raise (budget - t.budget))) := by
  obtain ⟨fuel, r, log, hr, hevents⟩ := hample
  obtain ⟨extra, rfl⟩ : ∃ extra, budget = t.budget + extra := ⟨budget - t.budget, by omega⟩
  have hmore := forestRun_withBudget hr hevents extra
  -- without extra budget, this is the run itself
  have hself : t.forestRun fuel nodes s = some (r, log) := by
    have hsame := forestRun_withBudget hr hevents 0
    simp only [Event.raise_zero, List.map_id'] at hsame
    exact hsame
  have hanswer := t.forestRun_answers fuel nodes s r log hself
  have hanswer' := forestRun_answers _ fuel nodes s r _ hmore
  rw [hanswer, hanswer', Nat.add_sub_cancel_left]
  exact ⟨rfl, fuel, log, hself, hmore⟩

/-- A macro that counts its invocations and replaces the call. -/
def replacing (index : Nat) (name : String) (mode : Mode) (output : Node) : Entry Nat where
  space := none
  name := name
  mode := mode
  givenLabel := none
  origin := none
  callable := ⟨.custom index, fun count _ scopes => .quiet (count + 1) scopes (.accepted output)⟩

/-- A budget of two is used up to the last unit here, by the call of `first`.  The call of `second`
is dispatched with a budget of one, and the macro of a lower tier that wants the arguments expanded
before does not have its turn. -/
theorem budget_unobservable_replacing :
    let t := create ⟨[⟨"first", [replacing 0 "first" {} (.invokeName "second" [.ident "first"])]⟩,
      ⟨"second",
        [replacing 1 "second" { priority := .override, reprocess := .never } (.ident "end"),
        replacing 2 "second" { childrenBefore := true } (.ident "other")]⟩]⟩ [] 2 {}
    let s := t.initial 0 (.empty .detail)
    let forest := [Node.invokeName "first" [.ident "x"]]
    t.Ample forest s ∧ t.budget ≤ 100 ∧
      (t.withBudget 100).expandForest forest s = t.expandForest forest s ∧
      ∃ fuel log, t.forestRun fuel forest s = some (t.expandForest forest s, log) ∧
        (t.withBudget 100).forestRun fuel forest s =
          some (t.expandForest forest s, log.map (·.raise 98)) := by
  intro t s forest
  have hrun :
      (t.guardedForestRun t.passesNone 3 forest s).map (·.2.all Event.ample) = some true := by
    decide +kernel
  have hample : t.Ample forest s := by
    obtain ⟨⟨r, log⟩, hr, hall⟩ := Option.map_eq_some_iff.1 hrun
    exact ⟨3, r, log, hr, List.all_eq_true.1 hall⟩
  have hle : t.budget ≤ 100 := by decide
  exact ⟨hample, hle, budget_unobservable t forest s hample 100 hle⟩

end Expander

end MacroForest
