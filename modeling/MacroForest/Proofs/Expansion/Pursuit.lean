/-
**One run pursues another.**

`MacroForest/Proofs/Expansion/Lockstep.lean` compares two expansions whose steps correspond whatever
happens.  Some comparisons hold of a single run only, because of what that run happens not to do: it
never runs short of budget, it never invokes a macro of a certain kind, it never dispatches a node
in a certain place.  Here the first run is given, with its log, and the second one *pursues* it: as
long as the first run does only what is fair, the second one does the same, from a state that is
related and with the same amount of extra budget everywhere.

Of one thing the log does not tell.  With a budget of one a macro that wants the children of the
node expanded before is passed over, and nothing is logged.  The first run is therefore a *guarded*
one, which gives no answer where it dispatches a node that the guard does not allow.  A node that is
dispatched with a budget of one is *served* if none of the macros that have their turn wants the
children; the guard can ask for it.

Main definitions:

* `MacroForest.Expander.guardedRun` — the run of a dispatch, under guard;
* `MacroForest.Expander.Serves` — no macro that has its turn wants the children of the node;
* `MacroForest.Pursuit` — what the second run has to keep up with the first one;
* `MacroForest.Pursuit.Matches` — corresponding events;
* `MacroForest.Pursuit.inStep` — pursuits in the same states;
* `MacroForest.Run.Pursued` — a computation that is pursued by another one.

Main results:

* `MacroForest.Run.consult_served` — macros that are served do not depend on the budget;
* `MacroForest.Run.dispatch_pursuedFrom` — one dispatch, if what it leads to is pursued;
* `MacroForest.Expander.forestRun_pursued` — **runs of forests are pursued**.
-/

import Mathlib.Data.List.Forall2
import MacroForest.Proofs.Expansion.Run

set_option relaxedAutoImplicit false
set_option autoImplicit false

namespace MacroForest

variable {σ α β : Type}

/-! ### Guarded runs -/

/-- The macros of a node, inside its block, if those of them that want the children of the node
expanded before would have their turn; no answer is given when one of them has it. -/
def Expander.unpreparedRun (t : Expander σ) (node : Node) : Run σ (Run.Ruling Prepared) := fun s =>
  Run.within (node.calls Reserved.block)
    (Run.consult [] 2 (fun _ => Run.exhausted) node (tiersOf (t.candidates s.scopes node))
      .notYet) s

/-- No macro of the node that has its turn wants the children of the node expanded before. -/
def Expander.Serves (t : Expander σ) (node : Node) (s : State σ) : Bool :=
  (t.unpreparedRun node s).isSome

/-- When a dispatch is allowed: with this budget, of this node and in this state. -/
abbrev Guard (σ : Type) := Nat → Node → State σ → Bool

/-- A dispatch that the guard does not allow gives no answer. -/
def Guard.watch (allows : Guard σ) (budget : Nat) (node : Node) (m : Run σ α) : Run σ α := fun s =>
  if allows budget node s then m s else none

namespace Expander

/-- The run of a dispatch, in which every dispatch is guarded. -/
def guardedRun (t : Expander σ) (allows : Guard σ) :
    Nat → Chain → Nat → Node → Bool → Run σ (Option Node)
  | 0 => fun _ _ _ _ => Run.exhausted
  | fuel + 1 => fun chain budget node changed =>
    allows.watch budget node (Run.dispatch (t.guardedRun allows fuel) t chain budget node changed)

/-- The run of a forest, in which every dispatch is guarded. -/
def guardedForestRun (t : Expander σ) (allows : Guard σ) (fuel : Nat) (nodes : Forest) :
    Run σ Forest := fun s =>
  (do
    let expanded ← Run.list (fun n => t.guardedRun allows fuel [] t.budget n false) nodes
    pure (expanded.getD nodes) : Run σ Forest) { s with scopes := t.rootScopes }

/-- A guard that allows everything changes nothing. -/
theorem guardedRun_true (t : Expander σ) (fuel : Nat) :
    t.guardedRun (fun _ _ _ => true) fuel = t.nodeRun fuel := by
  induction fuel with
  | zero => rfl
  | succ fuel ih =>
      funext chain budget node changed s
      simp only [guardedRun, nodeRun, Guard.watch, ih, if_true]

theorem guardedForestRun_true (t : Expander σ) (fuel : Nat) (nodes : Forest) :
    t.guardedForestRun (fun _ _ _ => true) fuel nodes = t.forestRun fuel nodes := by
  funext s
  simp only [guardedForestRun, forestRun, listRun, guardedRun_true]

end Expander

/-! ### Macros that are served -/

/-- The event, at another place of the run. -/
def Event.moved (chain : Chain) (budget : Nat) (event : Event σ) : Event σ :=
  ⟨chain, budget, event.action⟩

namespace Run

variable {node : Node} {p : Prepared} {s : State σ} {log : List (Event σ)}

theorem note_apply (event : Event σ) (s : State σ) :
    note event s = some ((.ok (), s), [event]) := rfl

theorem done_bind (a : α) (f : α → Run σ β) : (pure a >>= f) = f a := by
  funext s
  change (f a s).map _ = f a s
  cases f a s <;> rfl

/-- As long as no macro of a tier wants the children of the node, it does not matter how they are
expanded, and with what budget. -/
theorem tier_served {es : List (Entry σ)} {attempts : List (Attempt σ)}
    {r : Step σ (List (Attempt σ) × Prepared)}
    (h : tier [] 2 (fun _ => exhausted) node es attempts p s = some (r, log)) (chain : Chain)
    (budget : Nat) (prepare : Prepared → Run σ (Prepared × Node)) :
    tier chain budget prepare node es attempts p s = some (r, log.map (·.moved chain budget)) := by
  induction es generalizing attempts s log with
  | nil =>
      obtain ⟨⟩ := h
      rfl
  | cons e es ih =>
      unfold tier at h ⊢
      cases hbefore : e.mode.childrenBefore with
      | true =>
          -- its turn would wait for the children
          simp only [hbefore, input, Bool.true_and, if_true] at h
          simp [bind, andThen, exhausted] at h
      | false =>
          simp only [hbefore, input, Bool.false_and, Bool.false_eq_true, if_false] at h ⊢
          rw [done_bind] at h ⊢
          rcases bind_eq_some h with ⟨c, s₁, hstop, -⟩ | ⟨reply, s₁, log₁, log₂, hok, h', rfl⟩
          · simp [invoke] at hstop
          obtain ⟨⟩ := hok
          rw [List.map_append]
          refine bind_of_ok rfl ?_
          dsimp only at h' ⊢
          generalize e.callable.run s.shared node s.scopes = reply at h' ⊢
          cases houtcome : reply.outcome with
          | cancelled =>
              rw [houtcome] at h'
              obtain ⟨⟩ := h'
              rfl
          | accepted | declined | failed | crashed =>
              rw [houtcome] at h'
              exact ih h'

/-- **Macros that are served do not depend on the budget**: what they make of the node is what they
make of it elsewhere. -/
theorem consult_served {tiers : List (List (Entry σ))} {r : Step σ (Ruling Prepared)}
    (h : consult [] 2 (fun _ => exhausted) node tiers p s = some (r, log)) (chain : Chain)
    (budget : Nat) (prepare : Prepared → Run σ (Prepared × Node)) :
    consult chain budget prepare node tiers p s = some (r, log.map (·.moved chain budget)) := by
  induction tiers generalizing p s log with
  | nil =>
      obtain ⟨⟩ := h
      rfl
  | cons es tiers ih =>
      unfold consult at h ⊢
      rcases bind_eq_some h with ⟨c, s₁, hstop, rfl⟩ | ⟨turn, s₁, log₁, log₂, htier, htold, rfl⟩
      · exact bind_of_error _ (tier_served hstop chain budget prepare)
      rcases bind_eq_some htold with ⟨c, s₂, hstop, -⟩ | ⟨_, s₂, log₃, log₄, hok, hrest, rfl⟩
      · simp [tell] at hstop
      obtain ⟨⟩ := hok
      rw [List.map_append]
      refine bind_of_ok (tier_served htier chain budget prepare) ?_
      rw [List.map_append]
      refine bind_of_ok rfl ?_
      cases haccepted : firstAccepted? turn.1 with
      | some accepted =>
          rw [haccepted] at hrest
          obtain ⟨⟩ := hrest
          rfl
      | none =>
          rw [haccepted] at hrest
          exact ih hrest

end Run

/-! ### Pursuits -/

/-- The dispatches of a chain, each with more budget. -/
def Chain.raise (extra : Nat) (chain : Chain) : Chain :=
  chain.map fun link => { link with budget := link.budget + extra }

/-- Actions that are the same, except that macros are invoked in related states. -/
inductive Action.Matches (Rel : State σ → State σ → Prop) : Action σ → Action σ → Prop where
  | entered (node : Node) : Matches Rel (.entered node) (.entered node)
  | opened (node : Node) : Matches Rel (.opened node) (.opened node)
  | invoked (e : Entry σ) (input : Node) {s s' : State σ} (h : Rel s s') :
      Matches Rel (.invoked e input s) (.invoked e input s')
  | rewrote (output : Node) (mode : Mode) :
      Matches Rel (.rewrote output mode) (.rewrote output mode)

/-- Actions in the same states are the same. -/
theorem Action.Matches.eq {action action' : Action σ}
    (h : Action.Matches (fun s s' => s' = s) action action') : action' = action := by
  cases h with
  | entered | opened | rewrote => rfl
  | invoked e input hstate => rw [hstate]

/-- What a run needs to keep up with another one that does only what is allowed and fair. -/
structure Pursuit (t₁ t₂ : Expander σ) where
  /-- The budget that the second run has more than the first one. -/
  extra : Nat
  /-- The states that the two runs are in at the same time. -/
  Rel : State σ → State σ → Prop
  /-- The dispatches that are allowed in the first run. -/
  allows : Guard σ
  /-- The events that are fair in the first run. -/
  Fair : Event σ → Prop
  token : ∀ {s s'}, Rel s s' → t₂.token.isCancelled s'.now = t₁.token.isCancelled s.now
  found : ∀ {s s' budget node}, Rel s s' → allows budget node s = true →
    t₂.candidates s'.scopes node = t₁.candidates s.scopes node
  tick : ∀ {s s'}, Rel s s' → Rel s.tick s'.tick
  openings : ∀ {s s'}, Rel s s' → s'.openings = s.openings
  opening : ∀ {s s'}, Rel s s' → Rel s.opening s'.opening
  push : ∀ {s s'}, Rel s s' →
    Rel { s with scopes := s.scopes.push } { s' with scopes := s'.scopes.push }
  pop : ∀ {s s'}, Rel s s' →
    Rel { s with scopes := s.scopes.pop } { s' with scopes := s'.scopes.pop }
  enabled : ∀ {s s'}, Rel s s' → s'.sink.enabled = s.sink.enabled
  tell : ∀ {s s'}, Rel s s' → ∀ messages, Rel (s.writeAll messages) (s'.writeAll messages)
  messages : ∀ {s s' chain budget e input}, Rel s s' → Fair ⟨chain, budget, .invoked e input s⟩ →
    (e.callable.run s'.shared input s'.scopes).messages =
      (e.callable.run s.shared input s.scopes).messages
  outcome : ∀ {s s' chain budget e input}, Rel s s' → Fair ⟨chain, budget, .invoked e input s⟩ →
    (e.callable.run s'.shared input s'.scopes).outcome =
      (e.callable.run s.shared input s.scopes).outcome
  after : ∀ {s s' chain budget e input}, Rel s s' → Fair ⟨chain, budget, .invoked e input s⟩ →
    Rel (s.after (e.callable.run s.shared input s.scopes))
      (s'.after (e.callable.run s'.shared input s'.scopes))
  /-- With extra budget, no dispatch of the first run is without. -/
  entered : ∀ {chain budget node}, extra ≠ 0 → Fair ⟨chain, budget, .entered node⟩ → budget ≠ 0
  /-- With extra budget, the first run is not without where it goes on with an output. -/
  rewrote : ∀ {chain budget output mode}, extra ≠ 0 → Fair ⟨chain, budget, .rewrote output mode⟩ →
    mode.reprocess = .never ∨ mode.cost < budget
  /-- With extra budget, nothing is passed over in the first run. -/
  served : ∀ {node s}, extra ≠ 0 → allows 1 node s = true → t₁.token.isCancelled s.now = false →
    t₁.Serves node s.tick = true

namespace Pursuit

variable {t₁ t₂ : Expander σ}

/-- Corresponding events: the same actions, with the extra budget. -/
structure Matches (L : Pursuit t₁ t₂) (event event' : Event σ) : Prop where
  chain : event'.chain = event.chain.raise L.extra
  budget : event'.budget = event.budget + L.extra
  action : event.action.Matches L.Rel event'.action

/-- The same pursuit without extra budget, for events that are at one place of the run. -/
def inPlace (L : Pursuit t₁ t₂) (chain : Chain) (budget : Nat) : Pursuit t₁ t₂ :=
  { L with
    extra := 0
    Fair := fun event => L.Fair (event.moved chain budget)
    messages := fun hrel hfair => L.messages hrel hfair
    outcome := fun hrel hfair => L.outcome hrel hfair
    after := fun hrel hfair => L.after hrel hfair
    entered := fun hextra => absurd rfl hextra
    rewrote := fun hextra => absurd rfl hextra
    served := fun hextra => absurd rfl hextra }

/-- A pursuit in the same states, of an expander with the same token.  It is left to say what is
found, and what extra budget asks for. -/
def inStep (extra : Nat) (allows : Guard σ) (Fair : Event σ → Prop) (token : t₂.token = t₁.token)
    (found : ∀ {s budget node}, allows budget node s = true →
      t₂.candidates s.scopes node = t₁.candidates s.scopes node)
    (entered : ∀ {chain budget node}, extra ≠ 0 → Fair ⟨chain, budget, .entered node⟩ → budget ≠ 0)
    (rewrote : ∀ {chain budget output mode}, extra ≠ 0 →
      Fair ⟨chain, budget, .rewrote output mode⟩ → mode.reprocess = .never ∨ mode.cost < budget)
    (served : ∀ {node s}, extra ≠ 0 → allows 1 node s = true →
      t₁.token.isCancelled s.now = false → t₁.Serves node s.tick = true) : Pursuit t₁ t₂ where
  extra := extra
  Rel s s' := s' = s
  allows := allows
  Fair := Fair
  token := by
    rintro s _ rfl
    rw [token]
  found := by
    rintro s _ budget node rfl hallows
    exact found hallows
  tick := by
    rintro s _ rfl
    rfl
  openings := by
    rintro s _ rfl
    rfl
  opening := by
    rintro s _ rfl
    rfl
  push := by
    rintro s _ rfl
    rfl
  pop := by
    rintro s _ rfl
    rfl
  enabled := by
    rintro s _ rfl
    rfl
  tell := by
    rintro s _ rfl messages
    rfl
  messages := by
    rintro s _ chain budget e input rfl -
    rfl
  outcome := by
    rintro s _ chain budget e input rfl -
    rfl
  after := by
    rintro s _ chain budget e input rfl -
    rfl
  entered := entered
  rewrote := rewrote
  served := served

/-- What matches in place matches at that place. -/
theorem Matches.moved {L : Pursuit t₁ t₂} {chain : Chain} {budget : Nat} {event event' : Event σ}
    (h : (L.inPlace chain budget).Matches event event') :
    L.Matches (event.moved chain budget)
      (event'.moved (chain.raise L.extra) (budget + L.extra)) :=
  ⟨rfl, rfl, h.action⟩

end Pursuit

namespace Run

variable {t₁ t₂ : Expander σ} {L : Pursuit t₁ t₂}

/-- The second computation pursues the first one from a pair of states: it gives the same answer,
with the same events, if the first one does only what is fair. -/
def PursuedFrom (L : Pursuit t₁ t₂) (s s' : State σ) (m₁ m₂ : Run σ α) : Prop :=
  ∀ r s₁ log, m₁ s = some ((r, s₁), log) → (∀ event ∈ log, L.Fair event) →
    ∃ s₂ log', m₂ s' = some ((r, s₂), log') ∧ L.Rel s₁ s₂ ∧ List.Forall₂ L.Matches log log'

/-- The second computation pursues the first one from all related states. -/
def Pursued (L : Pursuit t₁ t₂) (m₁ m₂ : Run σ α) : Prop :=
  ∀ s s', L.Rel s s' → PursuedFrom L s s' m₁ m₂

/-! ### Steps -/

theorem done_pursued (a : α) : Pursued L (pure a) (pure a) := by
  rintro s s' hrel r s₁ log ⟨⟩ -
  exact ⟨s', [], rfl, hrel, .nil⟩

theorem exhausted_pursued (m : Run σ α) : Pursued L exhausted m := by
  rintro s s' - r s₁ log ⟨⟩

theorem PursuedFrom.bind {s s' : State σ} {m₁ m₂ : Run σ α} {f₁ f₂ : α → Run σ β}
    (hm : PursuedFrom L s s' m₁ m₂) (hf : ∀ a, Pursued L (f₁ a) (f₂ a)) :
    PursuedFrom L s s' (m₁ >>= f₁) (m₂ >>= f₂) := by
  intro r s₁ log hr hfair
  rcases bind_eq_some hr with ⟨c, s₂, hstop, heq⟩ | ⟨a, s₂, log₁, log₂, hok, hrest, rfl⟩
  · obtain ⟨rfl, rfl⟩ := Prod.mk.inj heq
    obtain ⟨s₃, log', hm₂, hrel', hlog⟩ := hm _ _ _ hstop hfair
    exact ⟨s₃, log', bind_of_error f₂ hm₂, hrel', hlog⟩
  · obtain ⟨s₃, log₃, hm₂, hrel', hlog⟩ := hm _ _ _ hok
      fun event hevent => hfair event (List.mem_append_left _ hevent)
    obtain ⟨s₄, log₄, hf₂, hrel'', hlog'⟩ := hf a s₂ s₃ hrel' _ _ _ hrest
      fun event hevent => hfair event (List.mem_append_right _ hevent)
    exact ⟨s₄, log₃ ++ log₄, bind_of_ok hm₂ hf₂, hrel'', List.rel_append hlog hlog'⟩

theorem Pursued.bind {m₁ m₂ : Run σ α} {f₁ f₂ : α → Run σ β} (hm : Pursued L m₁ m₂)
    (hf : ∀ a, Pursued L (f₁ a) (f₂ a)) : Pursued L (m₁ >>= f₁) (m₂ >>= f₂) :=
  fun s s' hrel => (hm s s' hrel).bind hf

/-- An event is logged, and what follows can use that it is fair. -/
theorem Pursued.note {event event' : Event σ} (hevent : L.Matches event event') {m₁ m₂ : Run σ β}
    (h : L.Fair event → Pursued L m₁ m₂) :
    Pursued L (note event >>= fun _ => m₁) (note event' >>= fun _ => m₂) := by
  intro s s' hrel r s₁ log hr hfair
  obtain ⟨more, hrest, rfl⟩ := note_bind_eq_some hr
  obtain ⟨s₂, more', hm₂, hrel', hlog⟩ := h (hfair event (by simp)) s s' hrel _ _ _ hrest
    fun event' hevent' => hfair event' (List.mem_cons_of_mem event hevent')
  exact ⟨s₂, event' :: more', bind_of_ok (note_apply event' s') hm₂, hrel', .cons hevent hlog⟩

/-- Messages are sent that depend on what the sink keeps. -/
theorem tell_pursued (f : (Severity → Bool) → List Message) :
    Pursued L (tell fun s => f s.sink.enabled) (tell fun s => f s.sink.enabled) := by
  rintro s s' hrel r s₁ log ⟨⟩ -
  refine ⟨s'.writeAll (f s.sink.enabled), [], ?_, L.tell hrel _, .nil⟩
  rw [tell, L.enabled hrel]

/-- The children of a node are opened, on the same occasion. -/
theorem openNode_pursued (chain : Chain) (budget : Nat) (node : Node) :
    Pursued L (openNode chain budget node)
      (openNode (chain.raise L.extra) (budget + L.extra) node) := by
  rintro s s' hrel r s₁ log ⟨⟩ -
  have hmatch : L.Matches ⟨chain, budget, .opened node⟩
      ⟨chain.raise L.extra, budget + L.extra, .opened node⟩ := ⟨rfl, rfl, .opened node⟩
  refine ⟨s'.opening, _, ?_, L.opening hrel, .cons hmatch .nil⟩
  rw [openNode, L.openings hrel]

theorem stop_pursued : Pursued L (stop : Run σ α) stop := by
  rintro s s' hrel r s₁ log ⟨⟩ -
  exact ⟨s', [], rfl, hrel, .nil⟩

/-- A macro is invoked.  What follows depends on its messages and its outcome only. -/
theorem Pursued.invoke {chain : Chain} {budget : Nat} {e : Entry σ} {input : Node}
    {f₁ f₂ : Reply σ → Run σ β}
    (h : ∀ reply reply' : Reply σ, reply'.messages = reply.messages →
      reply'.outcome = reply.outcome → Pursued L (f₁ reply) (f₂ reply')) :
    Pursued L (invoke chain budget e input >>= f₁)
      (invoke (chain.raise L.extra) (budget + L.extra) e input >>= f₂) := by
  intro s s' hrel r s₁ log hr hfair
  rcases bind_eq_some hr with ⟨c, s₂, hstop, -⟩ | ⟨reply, s₂, log₁, log₂, hok, hrest, rfl⟩
  · simp [Run.invoke] at hstop
  obtain ⟨⟩ := hok
  have hinvoked : L.Fair ⟨chain, budget, .invoked e input s⟩ := hfair _ (by simp)
  obtain ⟨s₃, log₃, hf₂, hrel', hlog⟩ := h _ _ (L.messages hrel hinvoked) (L.outcome hrel hinvoked)
    _ _ (L.after hrel hinvoked) _ _ _ hrest
    fun event hevent => hfair event (List.mem_append_right _ hevent)
  exact ⟨s₃, _, bind_of_ok rfl hf₂, hrel', .cons ⟨rfl, rfl, .invoked e input hrel⟩ hlog⟩

/-- Inside a block, the pursuit goes on from the states with one frame more. -/
theorem PursuedFrom.within {s s' : State σ} {m₁ m₂ : Run σ α} {isBlock : Bool}
    (h : isBlock = false → PursuedFrom L s s' m₁ m₂)
    (hblock : isBlock = true → PursuedFrom L { s with scopes := s.scopes.push }
      { s' with scopes := s'.scopes.push } m₁ m₂) :
    PursuedFrom L s s' (m₁.within isBlock) (m₂.within isBlock) := by
  intro r s₁ log hr hfair
  rcases within_eq_some hr with ⟨rfl, hr⟩ | ⟨rfl, s₂, hinner, rfl⟩
  · exact h rfl _ _ _ hr hfair
  · obtain ⟨s₃, log', hm₂, hrel', hlog⟩ := hblock rfl _ _ _ hinner hfair
    exact ⟨_, log', within_of_block hm₂, L.pop hrel', hlog⟩

/-! ### Lists and children -/

theorem list_pursued {expand₁ expand₂ : Node → Run σ (Option Node)}
    (h : ∀ n, Pursued L (expand₁ n) (expand₂ n)) (ns : List Node) :
    Pursued L (list expand₁ ns) (list expand₂ ns) := by
  induction ns with
  | nil => exact done_pursued none
  | cons n ns ih =>
      refine (h n).bind fun expanded => ?_
      exact ih.bind fun rest => done_pursued _

/-- Children are expanded without budget only if there is no extra budget either. -/
theorem children_pursued {expand₁ expand₂ : Node → Run σ (Option Node)}
    (h : ∀ n, Pursued L (expand₁ n) (expand₂ n)) (chain : Chain) {budget : Nat}
    (hpos : L.extra ≠ 0 → budget ≠ 0) (node : Node) :
    Pursued L (children chain budget expand₁ node)
      (children (chain.raise L.extra) (budget + L.extra) expand₂ node) := by
  have htarget : Pursued L (target expand₁ node) (target expand₂ node) := by
    unfold target
    cases node.target? with
    | none => exact done_pursued none
    | some callee =>
        dsimp only
        split
        · exact done_pursued none
        · exact h callee
  unfold children
  by_cases hzero : budget = 0
  · have hextra : L.extra = 0 := by
      by_contra hne
      exact hpos hne hzero
    rw [if_pos hzero, if_pos (by omega)]
    exact done_pursued none
  · rw [if_neg hzero, if_neg (by omega)]
    refine (openNode_pursued chain budget node).bind fun cell => ?_
    refine (list_pursued h _).bind fun attrs => ?_
    refine htarget.bind fun newTarget => ?_
    exact (list_pursued h _).bind fun args => done_pursued _

theorem prepare_pursued {children₁ children₂ : Run σ (Option Node)}
    (h : Pursued L children₁ children₂) (node : Node) (p : Prepared) :
    Pursued L (prepare children₁ node p) (prepare children₂ node p) := by
  cases p with
  | unchanged | changed => exact done_pursued _
  | notYet =>
      refine h.bind fun expanded => ?_
      cases expanded <;> exact done_pursued _

/-! ### Tiers -/

section Tiers

variable {chain : Chain} {budget : Nat} {node : Node}
  {prepare₁ prepare₂ : Prepared → Run σ (Prepared × Node)}

/-- The turns of one tier, if the two runs pass over the same macros. -/
theorem tier_pursued (hprepare : ∀ p, Pursued L (prepare₁ p) (prepare₂ p))
    (hone : budget + L.extra = 1 ↔ budget = 1) (es : List (Entry σ)) (attempts : List (Attempt σ))
    (p : Prepared) :
    Pursued L (tier chain budget prepare₁ node es attempts p)
      (tier (chain.raise L.extra) (budget + L.extra) prepare₂ node es attempts p) := by
  induction es generalizing attempts p with
  | nil => exact done_pursued _
  | cons e es ih =>
      have hskip : (budget + L.extra == 1) = (budget == 1) := by
        rw [Bool.eq_iff_iff, beq_iff_eq, beq_iff_eq]
        exact hone
      have hinput : Pursued L (input prepare₁ node e p) (input prepare₂ node e p) := by
        unfold input
        split
        · exact hprepare p
        · exact done_pursued _
      unfold tier
      rw [hskip]
      split
      · exact ih attempts p
      refine hinput.bind fun ready => ?_
      refine Pursued.invoke fun reply reply' hmessages houtcome => ?_
      dsimp only
      rw [hmessages, houtcome]
      cases reply.outcome with
      | cancelled =>
          refine Pursued.bind ?_ fun _ => stop_pursued
          exact tell_pursued fun enabled => cancelMessage e node :: report enabled _ node _
      | accepted | declined | failed | crashed => exact ih _ ready.1

theorem consult_pursued (hprepare : ∀ p, Pursued L (prepare₁ p) (prepare₂ p))
    (hone : budget + L.extra = 1 ↔ budget = 1) (tiers : List (List (Entry σ))) (p : Prepared) :
    Pursued L (consult chain budget prepare₁ node tiers p)
      (consult (chain.raise L.extra) (budget + L.extra) prepare₂ node tiers p) := by
  induction tiers generalizing p with
  | nil => exact done_pursued _
  | cons es tiers ih =>
      refine (tier_pursued hprepare hone es [] p).bind fun turn => ?_
      refine (tell_pursued fun enabled => report enabled turn.1 node (worstOf turn.1)).bind
        fun _ => ?_
      cases firstAccepted? turn.1 with
      | some accepted => exact done_pursued _
      | none => exact ih turn.2

/-- The macros that one run asks are asked by the other one: the two pass over the same of them, or
those that the first one asks are served. -/
theorem consult_pursuedFrom (hprepare : ∀ p, Pursued L (prepare₁ p) (prepare₂ p))
    {tiers : List (List (Entry σ))} {p : Prepared} {s s' : State σ} (hrel : L.Rel s s')
    (hserved : (budget + L.extra = 1 ↔ budget = 1) ∨
      (consult [] 2 (fun _ => exhausted) node tiers p s).isSome = true) :
    PursuedFrom L s s' (consult chain budget prepare₁ node tiers p)
      (consult (chain.raise L.extra) (budget + L.extra) prepare₂ node tiers p) := by
  rcases hserved with hone | hserved
  · exact consult_pursued hprepare hone tiers p s s' hrel
  · intro r s₁ log hr hfair
    obtain ⟨⟨⟨r₀, s₀⟩, log₀⟩, hserved⟩ := Option.isSome_iff_exists.1 hserved
    -- the first run is the served one, at another place
    rw [consult_served hserved chain budget prepare₁] at hr
    obtain ⟨⟩ := hr
    have hinPlace : Pursued (L.inPlace chain budget)
        (consult [] 2 (fun _ => exhausted) node tiers p)
        (consult [] 2 (fun _ => exhausted) node tiers p) :=
      consult_pursued (fun _ => exhausted_pursued _) Iff.rfl tiers p
    obtain ⟨s₂, log', hr', hrel', hlog⟩ := hinPlace s s' hrel _ _ _ hserved
      fun event hevent => hfair _ (List.mem_map_of_mem hevent)
    refine ⟨s₂, _, consult_served hr' _ _ prepare₂, hrel', ?_⟩
    rw [List.forall₂_map_left_iff, List.forall₂_map_right_iff]
    exact hlog.imp fun _ _ h => h.moved

end Tiers

/-! ### Dispatches -/

section Dispatch

variable {again₁ again₂ : Chain → Nat → Node → Bool → Run σ (Option Node)}

/-- A way to run dispatches that is pursued by another one, with the extra budget. -/
def AgainPursued (L : Pursuit t₁ t₂)
    (again₁ again₂ : Chain → Nat → Node → Bool → Run σ (Option Node)) : Prop :=
  ∀ (chain : Chain) budget node changed, Pursued L (again₁ chain budget node changed)
    (again₂ (chain.raise L.extra) (budget + L.extra) node changed)

theorem ownChildren_pursued (hagain : AgainPursued L again₁ again₂) (chain : Chain) {budget : Nat}
    (hpos : L.extra ≠ 0 → budget ≠ 0) (node : Node) :
    Pursued L (ownChildren again₁ chain budget node)
      (ownChildren again₂ (chain.raise L.extra) (budget + L.extra) node) :=
  children_pursued (fun n => hagain (⟨node, budget, none⟩ :: chain) budget n false) chain hpos node

/-- What is done with an output, if there is budget left for it where extra budget could show. -/
theorem reprocess_pursued (hagain : AgainPursued L again₁ again₂) (chain : Chain) {budget : Nat}
    (node output : Node) {mode : Mode}
    (hleft : L.extra ≠ 0 → mode.reprocess = .never ∨ mode.cost < budget) :
    Pursued L (reprocess again₁ chain budget node output mode)
      (reprocess again₂ (chain.raise L.extra) (budget + L.extra) node output mode) := by
  have hagain' := hagain (⟨node, budget, some mode⟩ :: chain) (budget - mode.cost)
  unfold reprocess
  dsimp only
  by_cases hnever : mode.reprocess = .never
  · simp only [hnever, if_true]
    exact done_pursued _
  have hlt : L.extra ≠ 0 → mode.cost < budget := fun hextra => (hleft hextra).resolve_left hnever
  have hnext : budget + L.extra - mode.cost = budget - mode.cost + L.extra := by omega
  rw [hnext]
  split
  · exact hagain' output true
  · refine Pursued.bind ?_ fun expanded => done_pursued _
    refine children_pursued (fun n => hagain' n false) (⟨node, budget, some mode⟩ :: chain) ?_
      output
    intro hextra
    have := hlt hextra
    omega

/-- What is done with a node for which macros have been found, if these are asked alike. -/
theorem found_pursuedFrom (hagain : AgainPursued L again₁ again₂) (chain : Chain) {budget : Nat}
    (hpos : L.extra ≠ 0 → budget ≠ 0) {node : Node} (kept : Option Node)
    {entries : List (Entry σ)} {s s' : State σ} (hrel : L.Rel s s')
    (hserved : (budget + L.extra = 1 ↔ budget = 1) ∨
      (consult [] 2 (fun _ => exhausted) node (tiersOf entries) Prepared.notYet s).isSome = true) :
    PursuedFrom L s s' (found again₁ chain budget node kept entries)
      (found again₂ (chain.raise L.extra) (budget + L.extra) node kept entries) := by
  have hchildren := ownChildren_pursued hagain chain hpos node
  unfold found
  refine (consult_pursuedFrom (prepare_pursued hchildren node) hrel hserved).bind fun ruling => ?_
  cases ruling with
  | claimed output mode =>
      refine Pursued.note ⟨rfl, rfl, .rewrote output mode⟩ fun hfair => ?_
      exact reprocess_pursued hagain chain node output fun hextra => L.rewrote hextra hfair
  | unclaimed p =>
      cases p with
      | changed | unchanged => exact done_pursued _
      | notYet => exact hchildren.bind fun expanded => done_pursued _

/-- A dispatch that has budget and is not told to stop: the macros are looked up after one tick. -/
theorem dispatch_of_going {again : Chain → Nat → Node → Bool → Run σ (Option Node)}
    {t : Expander σ} (chain : Chain) {budget : Nat} (hpos : budget ≠ 0) {node : Node}
    {changed : Bool} {s : State σ} (hgoing : t.token.isCancelled s.now = false)
    {entries : List (Entry σ)} (hentries : t.candidates s.scopes node = entries)
    {r : Step σ (Option Node)} {more : List (Event σ)}
    (h : (if entries.isEmpty then do
        let expanded ← ownChildren again chain budget node
        pure (expanded <|> if changed then some node else none)
      else within (node.calls Reserved.block)
        (found again chain budget node (if changed then some node else none) entries) :
      Run σ (Option Node)) s.tick = some (r, more)) :
    dispatch again t chain budget node changed s =
      some (r, ⟨chain, budget, .entered node⟩ :: more) := by
  have hcheck : checkpoint t.token s = some ((.ok (), s.tick), []) := by
    unfold checkpoint
    rw [if_neg (by simp [hgoing])]
  have hfind : findMacros t node s.tick = some ((.ok entries, s.tick), []) := by
    rw [← hentries]
    rfl
  unfold dispatch
  rw [if_neg hpos]
  exact bind_of_ok (note_apply _ s) (bind_of_ok hcheck (bind_of_ok hfind h))

/-- A dispatch that has budget and is told to stop. -/
theorem dispatch_of_cancelled {again : Chain → Nat → Node → Bool → Run σ (Option Node)}
    {t : Expander σ} (chain : Chain) {budget : Nat} (hpos : budget ≠ 0) (node : Node)
    (changed : Bool) {s : State σ} (hcancel : t.token.isCancelled s.now = true) :
    dispatch again t chain budget node changed s =
      some ((.error .cancelled, s), [⟨chain, budget, .entered node⟩]) := by
  have hcheck : checkpoint t.token s = some ((.error .cancelled, s), []) := by
    unfold checkpoint
    rw [if_pos hcancel]
  unfold dispatch
  rw [if_neg hpos]
  exact bind_of_ok (note_apply _ s) (bind_of_error _ hcheck)

/-- **One dispatch** that is allowed, if what it leads to is pursued. -/
theorem dispatch_pursuedFrom (hagain : AgainPursued L again₁ again₂) (chain : Chain) {budget : Nat}
    {node : Node} (changed : Bool) {s s' : State σ} (hrel : L.Rel s s')
    (hallows : L.allows budget node s = true) :
    PursuedFrom L s s' (dispatch again₁ t₁ chain budget node changed)
      (dispatch again₂ t₂ (chain.raise L.extra) (budget + L.extra) node changed) := by
  intro r s₁ log hr hfair
  obtain ⟨more, rfl, hcases⟩ := dispatch_cases hr
  have hentered : L.Fair ⟨chain, budget, .entered node⟩ := hfair _ (by simp)
  have hmore : ∀ event ∈ more, L.Fair event := fun event h => hfair event (List.mem_cons_of_mem _ h)
  have hmatch : L.Matches ⟨chain, budget, .entered node⟩
      ⟨chain.raise L.extra, budget + L.extra, .entered node⟩ := ⟨rfl, rfl, .entered node⟩
  have hpos : L.extra ≠ 0 → budget ≠ 0 := fun hextra => L.entered hextra hentered
  have htick := L.tick hrel
  have hfound := L.found hrel hallows
  have htoken := L.token hrel
  rcases hcases with ⟨rfl, hkept, rfl⟩ | ⟨hne, hcancel, hstop, rfl⟩ | ⟨hne, hgoing, hnone, hbody⟩ |
    ⟨hne, hgoing, hsome, hbody⟩
  · -- without budget, and without extra budget
    have hextra : L.extra = 0 := by
      by_contra hextra
      exact hpos hextra rfl
    obtain ⟨⟩ := hkept
    refine ⟨s', [_], ?_, hrel, .cons hmatch .nil⟩
    rw [hextra]
    rfl
  · obtain ⟨⟩ := hstop
    exact ⟨s', [_], dispatch_of_cancelled _ (by omega) node changed (htoken.trans hcancel), hrel,
      .cons hmatch .nil⟩
  · have hchildren := ownChildren_pursued hagain chain hpos node
    obtain ⟨s₂, more', hbody', hrel', hlog⟩ :=
      (hchildren.bind fun expanded => done_pursued _) _ _ htick _ _ _ hbody hmore
    refine ⟨s₂, _, dispatch_of_going _ (by omega) (htoken.trans hgoing) (hfound.trans hnone) ?_,
      hrel', .cons hmatch hlog⟩
    exact hbody'
  · have hserved : (budget + L.extra = 1 ↔ budget = 1) ∨ t₁.Serves node s.tick = true := by
      by_cases hextra : L.extra = 0
      · exact .inl (by omega)
      · by_cases hone : budget = 1
        · rw [hone] at hallows
          exact .inr (L.served hextra hallows hgoing)
        · have := hpos hextra
          exact .inl (by omega)
    have hpursued : PursuedFrom L s.tick s'.tick
        (within (node.calls Reserved.block) (found again₁ chain budget node
          (if changed then some node else none) (t₁.candidates s.scopes node)))
        (within (node.calls Reserved.block) (found again₂ (chain.raise L.extra) (budget + L.extra)
          node (if changed then some node else none) (t₁.candidates s.scopes node))) := by
      have hscopes : s.tick.scopes = s.scopes := rfl
      refine PursuedFrom.within (fun hblock => ?_) fun hblock => ?_
      · refine found_pursuedFrom hagain chain hpos _ htick (hserved.imp_right fun hserved => ?_)
        simpa only [Expander.Serves, Expander.unpreparedRun, within, hblock, hscopes,
          Bool.false_eq_true, if_false] using hserved
      · refine found_pursuedFrom hagain chain hpos _ (L.push htick)
          (hserved.imp_right fun hserved => ?_)
        simpa only [Expander.Serves, Expander.unpreparedRun, within, hblock, hscopes, if_true,
          Option.isSome_map] using hserved
    obtain ⟨s₂, more', hbody', hrel', hlog⟩ := hpursued _ _ _ hbody hmore
    refine ⟨s₂, _, dispatch_of_going _ (by omega) (htoken.trans hgoing) hfound ?_, hrel',
      .cons hmatch hlog⟩
    rwa [if_neg fun hempty => hsome (List.isEmpty_iff.1 hempty)]

end Dispatch

end Run

/-! ### Forests -/

namespace Expander

variable {t₁ t₂ : Expander σ} (L : Pursuit t₁ t₂)

/-- Dispatches under guard are pursued. -/
theorem guardedRun_pursued (fuel : Nat) :
    Run.AgainPursued L (t₁.guardedRun L.allows fuel) (t₂.nodeRun fuel) := by
  induction fuel with
  | zero => exact fun _ _ _ _ => Run.exhausted_pursued _
  | succ fuel ih =>
      intro chain budget node changed s s' hrel r s₁ log hr
      unfold guardedRun Guard.watch at hr
      split at hr
      · rename_i hallows
        exact Run.dispatch_pursuedFrom ih chain changed hrel hallows _ _ _ hr
      · simp at hr

/-- **Runs of forests are pursued.** -/
theorem forestRun_pursued {fuel : Nat} {nodes : Forest} {s s' : State σ}
    (hbudget : t₂.budget = t₁.budget + L.extra)
    (hstart : L.Rel { s with scopes := t₁.rootScopes } { s' with scopes := t₂.rootScopes })
    {r : Except Cancelled Forest} {s₁ : State σ} {log : List (Event σ)}
    (hr : t₁.guardedForestRun L.allows fuel nodes s = some ((r, s₁), log))
    (hfair : ∀ event ∈ log, L.Fair event) :
    ∃ s₂ log', t₂.forestRun fuel nodes s' = some ((r, s₂), log') ∧ L.Rel s₁ s₂ ∧
      List.Forall₂ L.Matches log log' := by
  have hlist : Run.Pursued L
      (Run.list (fun n => t₁.guardedRun L.allows fuel [] t₁.budget n false) nodes)
      (t₂.listRun fuel t₂.budget nodes) := by
    rw [hbudget]
    exact Run.list_pursued (fun n => guardedRun_pursued L fuel [] t₁.budget n false) nodes
  exact (hlist.bind fun expanded => Run.done_pursued _) _ _ hstart _ _ _ hr hfair

end Expander

end MacroForest
