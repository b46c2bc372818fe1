/-
**Why an expansion stops.**

A run that is told to stop does nothing more: its last event is the one that told it.  There are two
such events.  Either a macro of the table was invoked and asked to stop, or a node was dispatched
with budget and the token was found cancelled.  In particular an expansion always answers if no
macro asks to stop and the token never counts as cancelled.  And a request to stop is not lost: the
message on it is the last thing that the expansion sends.

Main definitions:

* `MacroForest.Event.AsksToStop`, `MacroForest.Event.FindsCancelled` — the two causes;
* `MacroForest.Cause` — what is left by a run that stops for either of them.

Main results:

* `MacroForest.Expander.listRun_stopsFor` — **a run stops for a cause, and at once**;
* `MacroForest.Expander.listRun_answers_ok` — a list is expanded if there is no cause to stop;
* `MacroForest.Expander.expandForest_reports` — a request to stop is reported.
-/

import MacroForest.Proofs.Expansion.Adequacy
import MacroForest.Proofs.Expansion.Contract
import MacroForest.Proofs.Macro.Report

set_option relaxedAutoImplicit false
set_option autoImplicit false

namespace MacroForest

/-! ### Causes -/

/-- A macro is invoked on a node that it is for, and asks to stop. -/
def Event.AsksToStop {σ : Type} (t : Expander σ) (event : Event σ) : Prop :=
  ∃ e input s, event.action = .invoked e input s ∧ t.Offers e input ∧
    (e.callable.run s.shared input s.scopes).outcome = .cancelled

/-- A node is dispatched with budget, and at the given time the token counts as cancelled. -/
def Event.FindsCancelled {σ : Type} (t : Expander σ) (now : Nat) (event : Event σ) : Prop :=
  (∃ node, event.action = .entered node) ∧ event.budget ≠ 0 ∧ t.token.isCancelled now = true

/-- What is left by a run that is told to stop: something about its events and its final state,
which both causes bring about and which no earlier event undoes. -/
structure Cause {σ : Type} (t : Expander σ) where
  /-- What is left. -/
  Holds : List (Event σ) → State σ → Prop
  append : ∀ {log s} more, Holds log s → Holds (more ++ log) s
  pop : ∀ {log s}, Holds log s → Holds log { s with scopes := s.scopes.pop }
  /-- A macro asks to stop, and this is reported. -/
  asked : ∀ {e : Entry σ} {input : Node}, t.Offers e input →
    ∀ chain budget s node (attempts : List (Attempt σ)),
    (e.callable.run s.shared input s.scopes).outcome = .cancelled →
    Holds [⟨chain, budget, .invoked e input s⟩]
      ((s.after (e.callable.run s.shared input s.scopes)).writeAll
        (cancelMessage e node :: report s.sink.enabled attempts node (some .error)))
  /-- A node is dispatched with budget, and the token is found cancelled. -/
  cancelled : ∀ {budget s} chain node, budget ≠ 0 → t.token.isCancelled s.now = true →
    Holds [⟨chain, budget, .entered node⟩] s

namespace Cause

/-- The last event is the cause. -/
def last {σ : Type} (t : Expander σ) : Cause t where
  Holds log s := ∃ event, log.getLast? = some event ∧
    (event.AsksToStop t ∨ event.FindsCancelled t s.now)
  append := by
    rintro log s more ⟨event, hlast, hcause⟩
    exact ⟨event, by simp [List.getLast?_append, hlast], hcause⟩
  pop := by
    rintro log s ⟨event, hlast, hcause⟩
    exact ⟨event, hlast, hcause⟩
  asked := by
    intro e input he chain budget s node attempts hasks
    exact ⟨_, rfl, .inl ⟨e, input, s, rfl, he, hasks⟩⟩
  cancelled := by
    intro budget s chain node hpos hcancelled
    exact ⟨_, rfl, .inr ⟨⟨node, rfl⟩, hpos, hcancelled⟩⟩

/-- The token is cancelled, or the sink has the message on a macro that asked to stop. -/
def reported {σ : Type} (t : Expander σ) : Cause t where
  Holds _ s := t.token.isCancelled s.now = true ∨
    ∃ (e : Entry σ) (node : Node), cancelMessage e node ∈ s.sink.messages
  append := fun _ h => h
  pop := fun h => h
  asked := by
    intro e input he chain budget s node attempts hasks
    refine .inr ⟨e, node, ?_⟩
    have hkept : s.sink.enabled .error = true := decide_eq_true (Severity.le_error s.sink.least)
    simp only [State.writeAll, State.after, Sink.messages_writeAll, List.mem_append,
      List.mem_filter]
    exact .inr ⟨by simp, hkept⟩
  cancelled := fun _ _ _ hcancelled => .inl hcancelled

end Cause

/-- The contract of a run that stops for a cause. -/
def Cause.contract {σ : Type} {t : Expander σ} (C : Cause t) : Contract t :=
  { Contract.any t with
    Halts := fun _ log s => C.Holds log s
    halt := fun {_ _ _ log _} _ h => C.append log h
    heard := fun {budget chain} _ =>
      { goes := fun _ _ _ _ => trivial
        halts := fun he _ => C.asked he chain budget }
    cancelled := fun {_ chain} _ hpos node _ => C.cancelled chain node hpos
    haltBlock := C.pop }

namespace Expander

variable {σ : Type} (t : Expander σ)

/-- **A run stops for a cause, and at once**: for a macro's request or a dispatch at which the token
counts as cancelled. -/
theorem listRun_stopsFor (C : Cause t) (fuel budget : Nat) (nodes : List Node) :
    (t.listRun fuel budget nodes).Keeps C.contract.toCourse
      (Knowledge.nothing.Members nodes) :=
  Run.list_keeps (fun n => nodeRun_keeps C.contract (Knowledge.closed_nothing t) fuel [] budget n
    false trivial) nodes

/-- Without a cause to stop, the run of a list answers. -/
theorem listRun_answers_ok (htoken : ∀ now, t.token.isCancelled now = false)
    (hmacros : ∀ e input, t.Offers e input → ∀ shared scopes,
      (e.callable.run shared input scopes).outcome ≠ .cancelled)
    {fuel budget : Nat} {nodes : List Node} {s s' : State σ}
    {r : Except Cancelled (Option (List Node))} {log : List (Event σ)}
    (hr : t.listRun fuel budget nodes s = some ((r, s'), log)) : ∃ expanded, r = .ok expanded := by
  cases r with
  | ok expanded => exact ⟨expanded, rfl⟩
  | error c =>
      obtain ⟨event, -, ⟨e, input, s₁, -, he, hcancelled⟩ | ⟨-, -, hcancelled⟩⟩ :=
        (t.listRun_stopsFor (.last t) fuel budget nodes).halts hr
      · exact absurd hcancelled (hmacros e input he _ _)
      · rw [htoken] at hcancelled
        exact absurd hcancelled (by simp)

/-- **A request to stop is reported.**  An expansion that has no answer ends with its token
cancelled, or its sink has the message on a macro that asked to stop. -/
theorem expandForest_reports {nodes : Forest} {s : State σ} {c : Cancelled}
    (h : (t.expandForest nodes s).1 = .error c) :
    t.token.isCancelled (t.expandForest nodes s).2.now = true ∨
      ∃ (e : Entry σ) (node : Node),
        cancelMessage e node ∈ (t.expandForest nodes s).2.sink.messages := by
  obtain ⟨log, fuel, hfuel⟩ := t.exists_forestRun nodes s
  have hrun := hfuel fuel (Nat.le_refl fuel)
  have hanswer : t.expandForest nodes s = (.error c, (t.expandForest nodes s).2) := Prod.ext h rfl
  rw [hanswer] at hrun
  have hforest := (t.listRun_stopsFor (.reported t) fuel t.budget nodes).map
    (fun expanded => expanded.getD nodes) (P := fun _ _ => True) fun _ _ _ => trivial
  exact hforest.halts hrun

end Expander

end MacroForest
