/-
**Budgets along the chains of a run.**

Every accepted output costs budget, and the budget is handed down a run along its chains: children
are dispatched with the budget of their node, an output with what the macro has left of it.  So on
each chain the budget and what has been spent on it are together the budget of the whole.  That the
subtraction behind this is always possible is due to another rule: a macro that wants its children
expanded before would cost two, and is passed over when the budget is one.

The budget is one thing that is handed down, and which states a run can come to is another question
about all its steps.  Both are answered together: a relation of states that single steps respect is
respected by whole runs, and what is handed down along the chains holds at all events.

Main definitions:

* `MacroForest.Chain.spent`, `MacroForest.Chain.rewrites` — the cost and the number of the outputs
  accepted on a chain;
* `MacroForest.Chain.Accounted` — the budget is what a chain has left;
* `MacroForest.Event.Follows` — what is handed down holds, and the budget is enough;
* `MacroForest.Expander.Respects` — a relation of states that single steps respect.

Main results:

* `MacroForest.Expander.nodeRun_follows` — **a run respects what its steps respect, and what is
  handed down holds at its events**;
* `MacroForest.Expander.forestRun_follows` — with it, its budget is accounted for;
* `MacroForest.Expander.forest_budget` — a forest: every run ends, and no chain has more outputs
  than the budget.
-/

import MacroForest.Proofs.Expansion.Adequacy
import MacroForest.Proofs.Expansion.Contract

set_option relaxedAutoImplicit false
set_option autoImplicit false

namespace MacroForest

/-! ### What a chain has spent -/

/-- What the output that led on has cost. -/
def Link.cost (link : Link) : Nat :=
  match link.rewrite with
  | some mode => mode.cost
  | none => 0

namespace Chain

/-- The cost of the outputs that were accepted on a chain. -/
def spent : Chain → Nat
  | [] => 0
  | link :: links => link.cost + spent links

/-- The number of the outputs that were accepted on a chain. -/
def rewrites (chain : Chain) : Nat := chain.countP (·.rewrite.isSome)

theorem rewrites_le_spent (chain : Chain) : chain.rewrites ≤ chain.spent := by
  induction chain with
  | nil => exact Nat.le_refl 0
  | cons link links ih =>
      unfold rewrites at ih
      rw [rewrites, List.countP_cons, spent, Link.cost]
      cases link.rewrite with
      | none => simpa using ih
      | some mode =>
          have := mode.cost_pos
          simp only [Option.isSome_some, if_true]
          omega

/-- The budgets of the dispatches on a chain, down to the given one: each is what the dispatch
before it has left, and the first is the whole budget. -/
def Accounted (whole : Nat) : Nat → Chain → Prop
  | budget, [] => budget = whole
  | budget, link :: links => budget + link.cost = link.budget ∧ Accounted whole link.budget links

theorem Accounted.add_spent {whole budget : Nat} {chain : Chain}
    (h : Accounted whole budget chain) : budget + chain.spent = whole := by
  induction chain generalizing budget with
  | nil => exact h
  | cons link links ih =>
      have := ih h.2
      have := h.1
      rw [spent]
      omega

/-- An output is paid for, so nothing is cut off in the subtraction. -/
theorem accounted_inherited (whole : Nat) : Inherited (Accounted whole) where
  child := fun h _ => ⟨rfl, h⟩
  output := fun h _ _ hcost => ⟨Nat.sub_add_cancel hcost, h⟩

end Chain

/-- The budget that an action needs: an invocation one unit, or two if the children come first, and
an accepted output what it costs. -/
def Action.needs {σ : Type} : Action σ → Nat
  | .entered _ => 0
  | .opened _ => 1
  | .invoked e _ _ => e.mode.cost
  | .rewrote _ mode => mode.cost

/-- The dispatch has the property, and its budget is enough. -/
def Event.Follows {σ : Type} (I : Nat → Chain → Prop) (e : Event σ) : Prop :=
  I e.budget e.chain ∧ e.action.needs ≤ e.budget

/-! ### What a run respects -/

/-- A relation of states that is respected by the single steps of an expansion, and by a block if it
is respected inside. -/
structure Expander.Respects {σ : Type} (t : Expander σ) (R : State σ → State σ → Prop) : Prop where
  refl : ∀ s, R s s
  trans : ∀ {s s' s''}, R s s' → R s' s'' → R s s''
  tick : ∀ s, R s s.tick
  opening : ∀ s, R s s.opening
  tell : ∀ s ms, R s (s.writeAll ms)
  invoke : ∀ {name e}, e ∈ t.table.named name → ∀ s input,
    R s (s.after (e.callable.run s.shared input s.scopes))
  block : ∀ {s s' : State σ}, R { s with scopes := s.scopes.push } s' →
    R s { s' with scopes := s'.scopes.pop }

section Respects

variable {σ : Type} {t : Expander σ} {R : State σ → State σ → Prop} {I : Nat → Chain → Prop}

/-- Some events between related states, at which what is handed down holds. -/
def FollowedBy (R : State σ → State σ → Prop) (I : Nat → Chain → Prop) (s : State σ)
    (log : List (Event σ)) (s' : State σ) : Prop :=
  R s s' ∧ ∀ e ∈ log, e.Follows I

theorem FollowedBy.append (hR : t.Respects R) {s s' s'' : State σ} {log more : List (Event σ)}
    (h : FollowedBy R I s log s') (hmore : FollowedBy R I s' more s'') :
    FollowedBy R I s (log ++ more) s'' :=
  ⟨hR.trans h.1 hmore.1, List.forall_mem_append.2 ⟨h.2, hmore.2⟩⟩

theorem FollowedBy.quiet {s s' : State σ} (h : R s s') : FollowedBy R I s [] s' := ⟨h, by simp⟩

theorem FollowedBy.event {s s' : State σ} {e : Event σ} (h : R s s') (he : e.Follows I) :
    FollowedBy R I s [e] s' := ⟨h, by simpa using he⟩

/-- The contract of a run that respects a relation, however it ends. -/
def Expander.Respects.contract (hR : t.Respects R) (hI : Chain.Inherited I) : Contract t where
  Goes := FollowedBy R I
  Halts := FollowedBy R I
  Inherits := I
  inherited := hI
  nil s := .quiet (hR.refl s)
  append h hmore := h.append hR hmore
  halt h hmore := h.append hR hmore
  tick s := .quiet (hR.tick s)
  tell s ms := .quiet (hR.tell s ms)
  entered hchain _ s := .event (hR.refl s) ⟨hchain, Nat.zero_le _⟩
  opened hchain hpos _ s := .event (hR.opening s) ⟨hchain, Nat.one_le_iff_ne_zero.2 hpos⟩
  rewrote hchain _ hcost _ s := .event (hR.refl s) ⟨hchain, hcost⟩
  heard hchain :=
    { goes := fun he hcost s _ =>
        he.mem_table.elim fun _ hname => .event (hR.invoke hname s _) ⟨hchain, hcost⟩
      halts := fun he hcost s _ _ _ =>
        he.mem_table.elim fun _ hname =>
          .event (hR.trans (hR.invoke hname s _) (hR.tell _ _)) ⟨hchain, hcost⟩ }
  cancelled hchain _ _ s _ := .event (hR.refl s) ⟨hchain, Nat.zero_le _⟩
  block h := ⟨hR.block h.1, h.2⟩
  haltBlock h := ⟨hR.block h.1, h.2⟩

/-- However a run ends that keeps the contract, it respects the relation. -/
theorem Run.Keeps.followed {α : Type} {hR : t.Respects R} {hI : Chain.Inherited I} {m : Run σ α}
    {Q : α → List (Event σ) → Prop} (hm : m.Keeps (hR.contract hI).toCourse Q) {s s' : State σ}
    {r : Except Cancelled α} {log : List (Event σ)} (hr : m s = some ((r, s'), log)) :
    FollowedBy R I s log s' := by
  cases r with
  | error c => exact hm.halts hr
  | ok a => exact (hm.goes hr).1

end Respects

namespace Expander

variable {σ : Type} {t : Expander σ} {R : State σ → State σ → Prop}

/-- **A run respects what its steps respect, and what is handed down holds at its events.** -/
theorem nodeRun_follows (hR : t.Respects R) {I : Nat → Chain → Prop} (hI : Chain.Inherited I)
    (fuel : Nat) : Run.AgainKeeps (hR.contract hI) Knowledge.nothing (t.nodeRun fuel) :=
  nodeRun_keeps _ (Knowledge.closed_nothing t) fuel

theorem respects_any (t : Expander σ) : t.Respects fun _ _ => True :=
  ⟨fun _ => trivial, fun _ _ => trivial, fun _ => trivial, fun _ => trivial, fun _ _ => trivial,
    fun _ _ _ => trivial, fun _ => trivial⟩

/-- The run of a forest from fresh scopes. -/
theorem forestRun_follows (hR : t.Respects R) (fuel : Nat) (nodes : Forest) {s s' : State σ}
    {r : Except Cancelled Forest} {log : List (Event σ)}
    (hrun : t.forestRun fuel nodes s = some ((r, s'), log)) :
    FollowedBy R (Chain.Accounted t.budget) { s with scopes := t.rootScopes } log s' := by
  have hnode := nodeRun_follows hR (Chain.accounted_inherited t.budget) fuel
  have hlist := Run.list_keeps (fun n => hnode [] t.budget n false rfl) nodes
  have hforest := hlist.map (fun expanded => expanded.getD nodes) (P := fun _ _ => True)
    fun _ _ _ => trivial
  exact hforest.followed hrun

/-- The expansion of a forest respects what its steps respect. -/
theorem expandForest_respects (hR : t.Respects R) (nodes : Forest) (s : State σ) :
    R { s with scopes := t.rootScopes } (t.expandForest nodes s).2 := by
  obtain ⟨log, enough, hrun⟩ := t.exists_forestRun nodes s
  exact (forestRun_follows hR enough nodes (hrun enough (Nat.le_refl enough))).1

/-! ### The budget of a forest -/

/-- **A forest is expanded in a run that ends, and its budget is accounted for on every chain.**
At each event the budget is the whole less what the outputs accepted before it on its chain have
cost; no macro is invoked without budget, and none that wants its children expanded before with less
than two; an accepted output costs no more than there is; and with it there are never more outputs
on the chain than the whole budget. -/
theorem forest_budget (t : Expander σ) (nodes : Forest) (s : State σ) :
    ∃ log enough,
      (∀ fuel, enough ≤ fuel → t.forestRun fuel nodes s = some (t.expandForest nodes s, log)) ∧
      ∀ event ∈ log,
        event.budget = t.budget - event.chain.spent ∧ event.chain.spent ≤ t.budget ∧
        event.chain.rewrites ≤ t.budget ∧
        (∀ e input state, event.action = .invoked e input state →
          0 < event.budget ∧ (e.mode.childrenBefore = true → 2 ≤ event.budget)) ∧
        ∀ output mode, event.action = .rewrote output mode →
          mode.cost ≤ event.budget ∧ event.chain.rewrites + 1 ≤ t.budget := by
  obtain ⟨log, enough, hrun⟩ := t.exists_forestRun nodes s
  refine ⟨log, enough, hrun, fun event hevent => ?_⟩
  obtain ⟨-, haccounted⟩ :=
    forestRun_follows t.respects_any enough nodes (hrun enough (Nat.le_refl enough))
  obtain ⟨hchain, hneeds⟩ := haccounted event hevent
  have hspent := hchain.add_spent
  have hrewrites := event.chain.rewrites_le_spent
  refine ⟨by omega, by omega, by omega, ?_, ?_⟩
  · intro e input state haction
    rw [haction] at hneeds
    have hpos := e.mode.cost_pos
    refine ⟨by simp only [Action.needs] at hneeds; omega, fun hbefore => ?_⟩
    simpa [Action.needs, Mode.cost, hbefore] using hneeds
  · intro output mode haction
    rw [haction] at hneeds
    have hpos := mode.cost_pos
    simp only [Action.needs] at hneeds
    exact ⟨hneeds, by omega⟩

end Expander

end MacroForest
