/-
**Who is asked, and who wins.**

A dispatch has one step of its own before it goes on with children or with an output: the macros are
asked.  This module says what that step does, for every node, table, stack of scopes and budget.
Which macros there are to ask is settled when the step begins, by the head of the node and the
namespaces that are open then; what macros do to the scopes in their turns has no part in it.  They
are asked by descending priority and in the order of registration, those apart that the budget
cannot pay for, down to the end of the first tier in which one accepts.  The first one that accepts
wins.

The log of a run has the turns of the step among the turns of all other steps that it leads to.
They are told apart by their chains: what a step leads to has a longer one.

A step is a sequence of turns, and at one place in it the children of the node may be expanded.
`MacroForest.Run.Progress` is what holds of the log at every point of the sequence, and each turn
keeps it.

Main definitions:

* `MacroForest.Node.Means` — the head of a node can mean a macro;
* `MacroForest.byPriority`, `MacroForest.Expander.queue` — **the order in which macros are asked**;
* `MacroForest.ownTurns`, `MacroForest.ownOutputs`, `MacroForest.ownOpenings` — the turns of one
  step, the output that it goes on with, and how often it expands the children of its node;
* `MacroForest.Expander.Stopped`, `MacroForest.Expander.Unclaimed`, `MacroForest.Expander.Claimed` —
  how a step can go.

Main results:

* `MacroForest.Expander.candidates_eq_filter` — the macros to ask, out of all that were registered;
* `MacroForest.flatten_tiersOf` — the tiers are a stable sort;
* `MacroForest.Run.consult_ok` — **what asking the tiers does**;
* `MacroForest.Expander.asked_in_order` — how the step of a dispatch goes.
-/

import MacroForest.Proofs.Expansion.Budget
import MacroForest.Proofs.Expansion.Turns
import MacroForest.Proofs.Macro.Registry

set_option relaxedAutoImplicit false
set_option autoImplicit false

namespace MacroForest

variable {σ : Type}

/-! ### The macros that a head can mean -/

/-- The head of a node can mean a macro: by its name, if the macro is global or in an open
namespace, or by its qualified name, if the macro is in exactly that namespace. -/
def Node.Means (open_ : NameSet) (node : Node) (e : Entry σ) : Prop :=
  if node.hasSimpleHead then
    node.headName? = some e.name ∧ (e.space = none ∨ ∃ space ∈ open_, e.space = some space)
  else ∃ q ∈ node.target?.bind (·.qualified?), e.name = q.2 ∧ e.space = some q.1

instance (open_ : NameSet) (node : Node) (e : Entry σ) : Decidable (node.Means open_ e) := by
  dsimp only [Node.Means]
  infer_instance

/-- **The macros to ask are those that the head can mean**, in the order of registration. -/
theorem Expander.candidates_eq_filter {t : Expander σ} {all : List (Entry σ)}
    (h : t.table.KeepsLog all) (scopes : ScopeStack) (node : Node) :
    t.candidates scopes node = all.filter fun e => decide (node.Means scopes.current e) := by
  unfold candidates
  split
  · rename_i hsimple
    split
    · rename_i name hname
      rw [h.answersFrom.lookup]
      refine List.filter_congr fun e _ => decide_eq_decide.2 ?_
      simp [Node.Means, hsimple, hname, eq_comm]
    · rename_i hname
      refine (List.filter_eq_nil_iff.2 fun e _ => ?_).symm
      simp [Node.Means, hsimple, hname]
  · rename_i hsimple
    split
    · rename_i space name hqualified
      rw [h.answersFrom.lookupIn]
      refine List.filter_congr fun e _ => decide_eq_decide.2 ?_
      simp [Node.Means, hsimple, hqualified]
    · rename_i hqualified
      refine (List.filter_eq_nil_iff.2 fun e _ => ?_).symm
      simp [Node.Means, hsimple, hqualified]

/-! ### Priorities -/

/-- The place of a macro in the order of priorities. -/
def Entry.rank (e : Entry σ) : Nat := e.mode.priority.rank

/-- The macros by descending priority; those of one priority stay in their order. -/
def byPriority (es : List (Entry σ)) : List (Entry σ) :=
  es.mergeSort fun a b => decide (b.rank ≤ a.rank)

theorem byPriority_eq (es : List (Entry σ)) :
    byPriority es = es.mergeSort fun a b => decide (-(a.rank : Int) ≤ -(b.rank : Int)) := by
  unfold byPriority
  congr 1
  funext a b
  exact decide_eq_decide.2 (by omega)

theorem Priority.eq_of_rank_eq {p q : Priority} (h : p.rank = q.rank) : p = q := by
  cases p <;> cases q <;> first | rfl | cases h

/-- All macros of a tier have the same priority. -/
theorem rank_eq_of_mem_tier {found es : List (Entry σ)} (h : es ∈ tiersOf found) {a b : Entry σ}
    (ha : a ∈ es) (hb : b ∈ es) : a.rank = b.rank := by
  obtain ⟨p, -, rfl⟩ := exists_priority_of_mem_tiersOf h
  have ha := eq_of_beq (List.mem_filter.1 ha).2
  have hb := eq_of_beq (List.mem_filter.1 hb).2
  rw [Entry.rank, Entry.rank, ha, hb]

/-- The macros of a tier have a higher priority than those of the tiers after it. -/
theorem tiersOf_pairwise (found : List (Entry σ)) :
    (tiersOf found).Pairwise fun es es' => ∀ a ∈ es, ∀ b ∈ es', b.rank < a.rank := by
  have hdescending : Priority.descending.Pairwise fun p q => q.rank < p.rank := by decide
  refine List.Pairwise.filter _ (List.pairwise_map.2 (hdescending.imp ?_))
  intro p q hpq a ha b hb
  have ha := eq_of_beq (List.mem_filter.1 ha).2
  have hb := eq_of_beq (List.mem_filter.1 hb).2
  rw [Entry.rank, Entry.rank, ha, hb]
  exact hpq

/-- The macros of one priority are one tier at most. -/
theorem filter_tier (found : List (Entry σ)) (p q : Priority) :
    (found.filter (·.mode.priority == q)).filter (fun e => -(e.rank : Int) == -(p.rank : Int)) =
      if q = p then found.filter fun e => -(e.rank : Int) == -(p.rank : Int) else [] := by
  have hsame : ∀ e : Entry σ, (-(e.rank : Int) == -(p.rank : Int)) = (e.mode.priority == p) := by
    intro e
    rw [Bool.eq_iff_iff, beq_iff_eq, beq_iff_eq]
    constructor
    · intro h
      exact Priority.eq_of_rank_eq (by unfold Entry.rank at h; omega)
    · intro h
      rw [Entry.rank, h]
  simp only [hsame, List.filter_filter]
  split
  · rename_i hpq
    simp [hpq]
  · rename_i hpq
    refine List.filter_eq_nil_iff.2 fun e _ he => hpq ?_
    simp only [Bool.and_eq_true, beq_iff_eq] at he
    exact he.2.symm.trans he.1

/-- **The tiers are the macros by priority**, cut where the priority falls. -/
theorem flatten_tiersOf (found : List (Entry σ)) : (tiersOf found).flatten = byPriority found := by
  rw [byPriority_eq]
  refine eq_mergeSort_of_classes ?_ fun n => ?_
  · refine List.pairwise_flatten.2 ⟨fun es hes => ?_, (tiersOf_pairwise found).imp ?_⟩
    · refine List.pairwise_of_forall_mem_list fun a ha b hb => ?_
      have := rank_eq_of_mem_tier hes ha hb
      omega
    · intro es es' hlt a ha b hb
      have := hlt a ha b hb
      omega
  · by_cases hn : ∃ p : Priority, n = -(p.rank : Int)
    · obtain ⟨p, rfl⟩ := hn
      rw [tiersOf, List.flatten_filter_not_isEmpty, List.filter_flatten, List.map_map]
      have hparts : (List.filter (fun e : Entry σ => -(e.rank : Int) == -(p.rank : Int)) ∘
          fun q => found.filter (·.mode.priority == q)) =
          fun q => if q = p then found.filter fun e => -(e.rank : Int) == -(p.rank : Int) else [] :=
        funext (filter_tier found p)
      rw [hparts]
      cases p <;> simp [Priority.descending]
    · have hnone : ∀ e : Entry σ, ¬ (-(e.rank : Int) == n) = true :=
        fun e he => hn ⟨e.mode.priority, (eq_of_beq he).symm⟩
      rw [List.filter_eq_nil_iff.2 fun e _ => hnone e, List.filter_eq_nil_iff.2 fun e _ => hnone e]

/-- The tiers down to one of them are the macros of its priority and above. -/
theorem flatten_upto_tier {found es : List (Entry σ)} {above below : List (List (Entry σ))}
    (h : tiersOf found = above ++ es :: below) {e : Entry σ} (he : e ∈ es) :
    (above ++ [es]).flatten = (byPriority found).filter fun x => decide (e.rank ≤ x.rank) := by
  have hsame : ∀ x ∈ es, x.rank = e.rank :=
    fun x hx => rank_eq_of_mem_tier (by rw [h]; simp) hx he
  have hpairwise := tiersOf_pairwise found
  rw [h, List.pairwise_append] at hpairwise
  obtain ⟨-, hbelow, habove⟩ := hpairwise
  have hkept : ∀ x ∈ (above ++ [es]).flatten, decide (e.rank ≤ x.rank) = true := by
    intro x hx
    rw [List.flatten_append, List.mem_append, List.flatten_singleton] at hx
    refine decide_eq_true ?_
    rcases hx with hx | hx
    · obtain ⟨xs, hxs, hx⟩ := List.mem_flatten.1 hx
      exact Nat.le_of_lt (habove xs hxs es (by simp) x hx e he)
    · exact Nat.le_of_eq (hsame x hx).symm
  have hleft : ∀ x ∈ below.flatten, ¬ decide (e.rank ≤ x.rank) = true := by
    intro x hx hle
    obtain ⟨xs, hxs, hx⟩ := List.mem_flatten.1 hx
    have := (List.pairwise_cons.1 hbelow).1 xs hxs e he x hx
    have := of_decide_eq_true hle
    omega
  have hsplit : (above ++ es :: below).flatten = (above ++ [es]).flatten ++ below.flatten := by simp
  rw [← flatten_tiersOf, h, hsplit, List.filter_append, List.filter_eq_self.2 hkept,
    List.filter_eq_nil_iff.2 hleft, List.append_nil]

/-- The macros that are asked about a node if none of them accepts, in their order. -/
def Expander.queue (t : Expander σ) (budget : Nat) (scopes : ScopeStack) (node : Node) :
    List (Entry σ) :=
  (byPriority (t.candidates scopes node)).filter (·.payable budget)

/-! ### The events of one step -/

/-- The events of a dispatch itself: all that it leads to has a longer chain. -/
def ownEvents (chain : Chain) (log : List (Event σ)) : List (Event σ) :=
  log.filter fun event => event.chain.length == chain.length

/-- The turns of macros in the dispatch of a node. -/
def ownTurns (chain : Chain) (node : Node) (log : List (Event σ)) : List (Turn σ) :=
  (ownEvents chain log).filterMap (Event.turn? fun _ => node)

/-- How often a dispatch expands the children of its node. -/
def ownOpenings (chain : Chain) (log : List (Event σ)) : Nat :=
  (ownEvents chain log).countP fun event => event.action matches .opened _

/-- The outputs that a dispatch goes on with, and the modes of their macros. -/
def ownOutputs (chain : Chain) (log : List (Event σ)) : List (Node × Mode) :=
  (ownEvents chain log).filterMap fun event =>
    match event.action with
    | .rewrote output mode => some (output, mode)
    | _ => none

section Own

variable {chain : Chain} {node : Node} {log more : List (Event σ)}

@[simp] theorem ownTurns_append :
    ownTurns chain node (log ++ more) = ownTurns chain node log ++ ownTurns chain node more := by
  simp [ownTurns, ownEvents]

theorem ownTurns_append_of_nil (h : ownTurns chain node more = []) :
    ownTurns chain node (log ++ more) = ownTurns chain node log := by
  rw [ownTurns_append, h, List.append_nil]

@[simp] theorem ownOutputs_append :
    ownOutputs chain (log ++ more) = ownOutputs chain log ++ ownOutputs chain more := by
  simp [ownOutputs, ownEvents]

@[simp] theorem ownOpenings_append :
    ownOpenings chain (log ++ more) = ownOpenings chain log + ownOpenings chain more := by
  simp [ownOpenings, ownEvents]

theorem ownEvents_of_deeper (h : ∀ event ∈ log, chain.length < event.chain.length) :
    ownEvents chain log = [] := by
  refine List.filter_eq_nil_iff.2 fun event hevent heq => ?_
  have := h event hevent
  have := eq_of_beq heq
  omega

theorem ownTurns_of_deeper (h : ∀ event ∈ log, chain.length < event.chain.length) :
    ownTurns chain node log = [] := by
  rw [ownTurns, ownEvents_of_deeper h, List.filterMap_nil]

theorem ownOpenings_of_deeper (h : ∀ event ∈ log, chain.length < event.chain.length) :
    ownOpenings chain log = 0 := by
  rw [ownOpenings, ownEvents_of_deeper h, List.countP_nil]

/-- No output that the dispatch with a chain goes on with. -/
def Event.NoOutput (chain : Chain) (event : Event σ) : Prop :=
  event.chain.length = chain.length → ∀ output mode, event.action ≠ .rewrote output mode

theorem ownOutputs_of_none (h : ∀ event ∈ log, event.NoOutput chain) :
    ownOutputs chain log = [] := by
  refine List.filterMap_eq_nil_iff.2 fun event hevent => ?_
  obtain ⟨hevent, hlength⟩ := List.mem_filter.1 hevent
  have hnone := h event hevent (eq_of_beq hlength)
  cases haction : event.action with
  | entered | opened | invoked => rfl
  | rewrote output mode => exact absurd haction (hnone output mode)

theorem ownEvents_cons {budget : Nat} (action : Action σ) :
    ownEvents chain (⟨chain, budget, action⟩ :: log) =
      ⟨chain, budget, action⟩ :: ownEvents chain log := by simp [ownEvents]

theorem ownTurns_cons {budget : Nat} (action : Action σ) :
    ownTurns chain node (⟨chain, budget, action⟩ :: log) =
      (Event.turn? (fun _ => node) ⟨chain, budget, action⟩).toList ++ ownTurns chain node log := by
  rw [ownTurns, ownEvents_cons, List.filterMap_cons]
  cases Event.turn? (fun _ => node) (⟨chain, budget, action⟩ : Event σ) <;> rfl

theorem ownOutputs_cons {budget : Nat} (action : Action σ) :
    ownOutputs chain (⟨chain, budget, action⟩ :: log) =
      (match action with | .rewrote output mode => [(output, mode)] | _ => []) ++
        ownOutputs chain log := by
  rw [ownOutputs, ownEvents_cons, List.filterMap_cons]
  cases action <;> rfl

theorem ownOpenings_cons {budget : Nat} (action : Action σ) :
    ownOpenings chain (⟨chain, budget, action⟩ :: log) =
      ownOpenings chain log + if action matches .opened _ then 1 else 0 := by
  rw [ownOpenings, ownEvents_cons, List.countP_cons]
  rfl

end Own

/-! ### What turns leave -/

/-- The shared state and the scopes that some turns leave, which begin with the given ones. -/
def leftBy (start : σ × ScopeStack) (turns : List (Turn σ)) : σ × ScopeStack :=
  turns.foldl (fun _ u => (u.reply.state, u.reply.scopes)) start

theorem leftBy_append (start : σ × ScopeStack) (turns more : List (Turn σ)) :
    leftBy start (turns ++ more) = leftBy (leftBy start turns) more := List.foldl_append

/-- The children of a node are expanded in the course of some turns: after those that do not want
it, in the state that these have left. -/
def ExpandedAmong (children : State σ → Step σ (Option Node)) (start : σ × ScopeStack)
    (turns : List (Turn σ)) (expanded : Option Node) : Prop :=
  ∃ before after s s', turns = before ++ after ∧
    (∀ u ∈ before, u.entry.mode.childrenBefore = false) ∧
    (s.shared, s.scopes) = leftBy start before ∧ children s = (.ok expanded, s')

theorem ExpandedAmong.append {children : State σ → Step σ (Option Node)} {start : σ × ScopeStack}
    {turns : List (Turn σ)} {expanded : Option Node}
    (h : ExpandedAmong children start turns expanded) (more : List (Turn σ)) :
    ExpandedAmong children start (turns ++ more) expanded := by
  obtain ⟨before, after, s, s', rfl, hbefore, hs, hchildren⟩ := h
  exact ⟨before, after ++ more, s, s', List.append_assoc _ _ _, hbefore, hs, hchildren⟩

/-! ### While macros are asked -/

/-- The node's children as they were expanded, if that has been done. -/
def Prepared.expanded? : Prepared → Option (Option Node)
  | .notYet => none
  | .unchanged => some none
  | .changed prepared => some (some prepared)

theorem Prepared.get_of_expanded {p : Prepared} {expanded : Option Node}
    (h : p.expanded? = some expanded) (node : Node) : p.get node = expanded.getD node := by
  cases p with
  | notYet => cases h
  | unchanged | changed =>
      obtain rfl := Option.some.inj h
      rfl

namespace Run

/-- A run of the children of a dispatched node: it answers like the function, none of its turns is
one of the dispatch, and it counts as one expansion of the children. -/
structure OwnChildren (children : State σ → Step σ (Option Node)) (chain : Chain) (node : Node)
    (run : Run σ (Option Node)) : Prop where
  answers : run.Answers children
  turns : ∀ {s r log}, run s = some (r, log) → ownTurns chain node log = []
  once : ∀ {s r log}, run s = some (r, log) → ownOpenings chain log = 1

/-- What holds of the log of a dispatch while macros are asked, when as much is known of the
expanded children as is said. -/
structure Progress (children : State σ → Step σ (Option Node)) (start : σ × ScopeStack)
    (chain : Chain) (node : Node) (p : Prepared) (log : List (Event σ)) : Prop where
  /-- The children have been expanded once or not at all. -/
  opened : ownOpenings chain log = if p.expanded?.isSome then 1 else 0
  source : ∀ expanded, p.expanded? = some expanded →
    ExpandedAmong children start (ownTurns chain node log) expanded
  /-- All macros that want the children expanded before were given the same node. -/
  input : ∀ u ∈ ownTurns chain node log,
    u.input = if u.entry.mode.childrenBefore then p.get node else node
  unprepared : p.expanded? = none → ∀ u ∈ ownTurns chain node log,
    u.entry.mode.childrenBefore = false
  heard : ∀ u ∈ ownTurns chain node log, u.reply.outcome ≠ .cancelled

section Asking

variable {children : State σ → Step σ (Option Node)} {start : σ × ScopeStack} {chain : Chain}
  {budget : Nat} {node : Node} {kids : Run σ (Option Node)} {p : Prepared}
  {log more : List (Event σ)}

/-- The children are expanded where they had not been. -/
theorem Progress.prepare (h : Progress children start chain node .notYet log) {p : Prepared}
    {expanded : Option Node} (hp : p.expanded? = some expanded) {s s' : State σ}
    (hs : (s.shared, s.scopes) = leftBy start (ownTurns chain node log))
    (hchildren : children s = (.ok expanded, s')) (hturns : ownTurns chain node more = [])
    (hopened : ownOpenings chain more = 1) : Progress children start chain node p (log ++ more) where
  opened := by rw [ownOpenings_append, h.opened, hopened, hp]; rfl
  source := by
    intro expanded' hp'
    rw [hp] at hp'
    obtain rfl := Option.some.inj hp'
    rw [ownTurns_append, hturns]
    exact ⟨_, [], s, s', rfl, h.unprepared rfl, hs, hchildren⟩
  input := by
    intro u hu
    rw [ownTurns_append_of_nil hturns] at hu
    rw [h.input u hu, h.unprepared rfl u hu]
    rfl
  unprepared := by
    intro hnone
    rw [hp] at hnone
    cases hnone
  heard := by
    intro u hu
    rw [ownTurns_append_of_nil hturns] at hu
    exact h.heard u hu

/-- What is no part of the step changes nothing. -/
theorem Progress.append (h : Progress children start chain node p log)
    (hturns : ownTurns chain node more = []) (hopened : ownOpenings chain more = 0) :
    Progress children start chain node p (log ++ more) := by
  have hsame : ownTurns chain node (log ++ more) = ownTurns chain node log :=
    ownTurns_append_of_nil hturns
  refine ⟨?_, ?_, ?_, ?_, ?_⟩
  · rw [ownOpenings_append, hopened, Nat.add_zero, h.opened]
  · rw [hsame]
    exact h.source
  · rw [hsame]
    exact h.input
  · rw [hsame]
    exact h.unprepared
  · rw [hsame]
    exact h.heard

/-- A macro that is given the node that it wants has its turn. -/
theorem Progress.turn (h : Progress children start chain node p log) {e : Entry σ} {input : Node}
    {s : State σ} (hinput : input = if e.mode.childrenBefore then p.get node else node)
    (hprepared : p.expanded? = none → e.mode.childrenBefore = false)
    (hheard : (e.callable.run s.shared input s.scopes).outcome ≠ .cancelled) :
    Progress children start chain node p (log ++ [⟨chain, budget, .invoked e input s⟩]) := by
  have hturns : ownTurns chain node (log ++ [⟨chain, budget, .invoked e input s⟩]) =
      ownTurns chain node log ++ [⟨e, node, input, s.shared, s.scopes⟩] := by
    rw [ownTurns_append, ownTurns_cons]
    rfl
  constructor
  · rw [ownOpenings_append, ownOpenings_cons, h.opened]
    rfl
  · rw [hturns]
    exact fun expanded hp => (h.source expanded hp).append _
  · rw [hturns]
    exact List.forall_mem_append.2 ⟨h.input, by simpa using hinput⟩
  · intro hnone
    rw [hturns]
    exact List.forall_mem_append.2 ⟨h.unprepared hnone, by simpa using hprepared hnone⟩
  · rw [hturns]
    exact List.forall_mem_append.2 ⟨h.heard, by simpa [Turn.reply] using hheard⟩

/-- Before its turn a macro is given the node that it wants, for which no macro is asked. -/
theorem input_turns (hkids : OwnChildren children chain node kids) {e : Entry σ} {s : State σ}
    {r : Step σ (Prepared × Node)}
    (hrun : Run.input (Run.prepare kids node) node e p s = some (r, more)) :
    ownTurns chain node more = [] := by
  unfold Run.input at hrun
  split at hrun
  · cases p with
    | unchanged | changed =>
        obtain ⟨⟩ := hrun
        rfl
    | notYet =>
        rcases bind_eq_some hrun with ⟨c, s₁, hstop, -⟩ | ⟨expanded, s₁, log₁, log₂, hok, hrest, rfl⟩
        · exact hkids.turns hstop
        · cases expanded with
          | none | some =>
              obtain ⟨⟩ := hrest
              rw [List.append_nil]
              exact hkids.turns hok
  · obtain ⟨⟩ := hrun
    rfl

theorem input_ok (hkids : OwnChildren children chain node kids) {e : Entry σ} {s s' : State σ}
    {ready : Prepared × Node} (h : Progress children start chain node p log)
    (hs : (s.shared, s.scopes) = leftBy start (ownTurns chain node log))
    (hrun : Run.input (Run.prepare kids node) node e p s = some ((.ok ready, s'), more)) :
    Progress children start chain node ready.1 (log ++ more) ∧
      ready.2 = (if e.mode.childrenBefore then ready.1.get node else node) ∧
      (ready.1.expanded? = none → e.mode.childrenBefore = false) := by
  unfold Run.input at hrun
  split at hrun
  · rename_i hbefore
    rw [if_pos hbefore]
    cases p with
    | unchanged | changed =>
        obtain ⟨⟩ := hrun
        rw [List.append_nil]
        exact ⟨h, rfl, by simp [Prepared.expanded?]⟩
    | notYet =>
        rcases bind_eq_some hrun with ⟨c, s₁, -, heq⟩ | ⟨expanded, s₁, log₁, log₂, hok, hrest, rfl⟩
        · cases (Prod.mk.inj heq).1
        have hanswer := hkids.answers _ _ _ hok
        cases expanded with
        | none | some =>
            obtain ⟨⟩ := hrest
            rw [List.append_nil]
            exact ⟨h.prepare rfl hs hanswer (hkids.turns hok) (hkids.once hok), rfl,
              by simp [Prepared.expanded?]⟩
  · rename_i hbefore
    obtain ⟨⟩ := hrun
    rw [List.append_nil, if_neg hbefore]
    exact ⟨h, rfl, fun _ => Bool.eq_false_iff.2 hbefore⟩

/-- A macro is given nothing if the expansion of the children is stopped. -/
theorem input_error (hkids : OwnChildren children chain node kids) {e : Entry σ} {s s' : State σ}
    {c : Cancelled}
    (hrun : Run.input (Run.prepare kids node) node e p s = some ((.error c, s'), more)) :
    children s = (.error c, s') := by
  unfold Run.input at hrun
  split at hrun
  · cases p with
    | unchanged | changed => simp [Run.prepare, pure, done] at hrun
    | notYet =>
        rcases bind_eq_some hrun with ⟨c', s₁, hstop, heq⟩ | ⟨expanded, s₁, _, _, -, hrest, -⟩
        · obtain ⟨⟩ := heq
          exact hkids.answers _ _ _ hstop
        · cases expanded with
          | none | some => simp [pure, done] at hrest
  · simp [pure, done] at hrun

theorem ownTurns_of_turn (hkids : OwnChildren children chain node kids) {e : Entry σ}
    {ready : Prepared × Node} {s s₁ : State σ}
    (hready : Run.input (Run.prepare kids node) node e p s = some ((.ok ready, s₁), log)) :
    ownTurns chain node (log ++ ⟨chain, budget, .invoked e ready.2 s₁⟩ :: more) =
      ⟨e, node, ready.2, s₁.shared, s₁.scopes⟩ :: ownTurns chain node more := by
  rw [ownTurns_append, input_turns hkids hready, ownTurns_cons]
  rfl

/-- What one part of a step leaves is what all turns so far have left. -/
theorem leftBy_of_step {s s' : State σ}
    (hs : (s.shared, s.scopes) = leftBy start (ownTurns chain node log))
    (hleft : (s'.shared, s'.scopes) = leftBy (s.shared, s.scopes) (ownTurns chain node more)) :
    (s'.shared, s'.scopes) = leftBy start (ownTurns chain node (log ++ more)) := by
  rw [ownTurns_append, leftBy_append, ← hs, hleft]

/-- **The turns of a tier that is not stopped**: all its macros that can be paid for, in order. -/
theorem tier_ok (hkids : OwnChildren children chain node kids) {es : List (Entry σ)}
    {attempts attempts' : List (Attempt σ)} {p' : Prepared} {s s' : State σ}
    (h : Progress children start chain node p log)
    (hs : (s.shared, s.scopes) = leftBy start (ownTurns chain node log))
    (hrun : tier chain budget (Run.prepare kids node) node es attempts p s =
      some ((.ok (attempts', p'), s'), more)) :
    Progress children start chain node p' (log ++ more) ∧
      attempts' = attempts.reverse ++ (ownTurns chain node more).map Turn.attempt ∧
      (ownTurns chain node more).map (·.entry) = es.filter (·.payable budget) ∧
      (s'.shared, s'.scopes) = leftBy (s.shared, s.scopes) (ownTurns chain node more) := by
  induction es generalizing attempts p s log more with
  | nil =>
      obtain ⟨⟩ := hrun
      rw [List.append_nil]
      exact ⟨h, by simp [ownTurns, ownEvents], rfl, rfl⟩
  | cons e es ih =>
      cases hturn : e.payable budget with
      | false =>
          rw [tier, if_pos ((Bool.not_eq_false' _).mp hturn)] at hrun
          rw [List.filter_cons_of_neg (by simp [hturn])]
          exact ih h hs hrun
      | true =>
          rcases tier_cons_cases hturn hrun with ⟨c, -, heq⟩ |
            ⟨ready, s₁, log₁, log₂, u, hready, hu, rfl, ⟨-, heq, -⟩ | ⟨hheard, hrest⟩⟩
          · cases heq
          · cases heq
          subst hu
          obtain ⟨hprogress, hinput, hprepared⟩ := input_ok hkids h hs hready
          have hmine : Progress children start chain node ready.1
              (log ++ log₁ ++ [⟨chain, budget, .invoked e ready.2 s₁⟩]) :=
            hprogress.turn hinput hprepared hheard
          obtain ⟨hlast, hattempts, hentries, hleft⟩ := ih hmine
            (by rw [ownTurns_append, leftBy_append, ownTurns_cons]; rfl) hrest
          rw [ownTurns_of_turn hkids hready]
          refine ⟨?_, ?_, ?_, ?_⟩
          · simpa using hlast
          · simpa using hattempts
          · rw [List.map_cons, hentries, List.filter_cons_of_pos hturn]
          · rw [hleft]
            rfl

/-- The turns of a tier that is stopped, and why it is. -/
theorem tier_error (hkids : OwnChildren children chain node kids) {es : List (Entry σ)}
    {attempts : List (Attempt σ)} {c : Cancelled} {s s' : State σ}
    (hrun : tier chain budget (Run.prepare kids node) node es attempts p s =
      some ((.error c, s'), more)) :
    (ownTurns chain node more).map (·.entry) <+: es.filter (·.payable budget) ∧
      ((∃ u ∈ ownTurns chain node more, u.reply.outcome = .cancelled) ∨
        ∃ s₁ c s₂, (s₁.shared, s₁.scopes) =
          leftBy (s.shared, s.scopes) (ownTurns chain node more) ∧
          children s₁ = (.error c, s₂)) := by
  induction es generalizing attempts p s more with
  | nil => simp [tier, pure, done] at hrun
  | cons e es ih =>
      cases hturn : e.payable budget with
      | false =>
          rw [tier, if_pos ((Bool.not_eq_false' _).mp hturn)] at hrun
          rw [List.filter_cons_of_neg (by simp [hturn])]
          exact ih hrun
      | true =>
          rw [List.filter_cons_of_pos hturn]
          rcases tier_cons_cases hturn hrun with ⟨c, hstop, -⟩ |
            ⟨ready, s₁, log₁, log₂, u, hready, hu, rfl, hcases⟩
          · rw [input_turns hkids hstop]
            exact ⟨List.nil_prefix, .inr ⟨s, c, s', rfl, input_error hkids hstop⟩⟩
          subst hu
          rw [ownTurns_of_turn hkids hready, List.map_cons]
          rcases hcases with ⟨hcancelled, -, rfl, -⟩ | ⟨-, hrest⟩
          · refine ⟨?_, .inl ⟨_, List.mem_cons_self, hcancelled⟩⟩
            exact List.cons_prefix_cons.2 ⟨rfl, List.nil_prefix⟩
          · obtain ⟨hentries, hcause⟩ := ih hrest
            refine ⟨List.cons_prefix_cons.2 ⟨rfl, hentries⟩, hcause.imp_left ?_⟩
            rintro ⟨u, hu, hcancelled⟩
            exact ⟨u, List.mem_cons_of_mem _ hu, hcancelled⟩

/-- **The turns of tiers that are not stopped.**  If nobody accepts, these are all macros that can
be paid for; otherwise they are those of the tiers down to the first in which one accepts. -/
theorem consult_ok (hkids : OwnChildren children chain node kids) {tiers : List (List (Entry σ))}
    {ruling : Ruling Prepared} {s s' : State σ} (h : Progress children start chain node p log)
    (hs : (s.shared, s.scopes) = leftBy start (ownTurns chain node log))
    (hrun : Run.consult chain budget (Run.prepare kids node) node tiers p s =
      some ((.ok ruling, s'), more)) :
    (s'.shared, s'.scopes) = leftBy (s.shared, s.scopes) (ownTurns chain node more) ∧
      ((∃ p', ruling = .unclaimed p' ∧ Progress children start chain node p' (log ++ more) ∧
        (ownTurns chain node more).map (·.entry) = tiers.flatten.filter (·.payable budget) ∧
        ∀ u ∈ ownTurns chain node more, u.output? = none) ∨
      ∃ output p' above es below, ∃ winner : Turn σ,
        ruling = .claimed output winner.entry.mode ∧
        Progress children start chain node p' (log ++ more) ∧
        FirstToAccept (ownTurns chain node more) winner output ∧
        tiers = above ++ es :: below ∧ winner.entry ∈ es ∧
        (ownTurns chain node more).map (·.entry) =
          (above ++ [es]).flatten.filter (·.payable budget)) := by
  induction tiers generalizing p s log more with
  | nil =>
      obtain ⟨⟩ := hrun
      rw [List.append_nil]
      exact ⟨rfl, .inl ⟨p, rfl, h, rfl, by simp [ownTurns, ownEvents]⟩⟩
  | cons es tiers ih =>
      rcases bind_eq_some hrun with ⟨c, s₁, -, heq⟩ | ⟨turn, s₁, log₁, log₂, htier, hrest, rfl⟩
      · cases (Prod.mk.inj heq).1
      obtain ⟨attempts, p₁⟩ := turn
      obtain ⟨hprogress, rfl, hentries, hleft⟩ := tier_ok hkids h hs htier
      rcases bind_eq_some hrest with ⟨c, s₂, htell, -⟩ | ⟨_, s₂, log₃, log₄, htell, hruling, rfl⟩
      · cases htell
      obtain ⟨⟩ := htell
      rw [List.nil_append, ownTurns_append]
      rw [List.reverse_nil, List.nil_append] at hruling
      cases haccepted : firstAccepted? ((ownTurns chain node log₁).map Turn.attempt) with
      | some accepted =>
          obtain ⟨output, mode⟩ := accepted
          rw [haccepted] at hruling
          obtain ⟨⟩ := hruling
          obtain ⟨winner, hfirst, rfl⟩ := firstAccepted?_eq_some haccepted
          have hnil : ownTurns chain node ([] : List (Event σ)) = [] := rfl
          rw [hnil, List.append_nil, List.append_nil]
          refine ⟨hleft, .inr
            ⟨output, p₁, [], es, tiers, winner, rfl, hprogress, hfirst, rfl, ?_, ?_⟩⟩
          · have hmem := List.mem_map_of_mem (f := (·.entry)) hfirst.mem
            rw [hentries] at hmem
            exact (List.mem_filter.1 hmem).1
          · simpa using hentries
      | none =>
          rw [haccepted] at hruling
          have hdeclined := firstAccepted?_eq_none haccepted
          obtain ⟨hleft₂, hcases⟩ := ih hprogress (by exact leftBy_of_step hs hleft) hruling
          rw [List.append_assoc] at hcases
          refine ⟨?_, ?_⟩
          · rw [leftBy_append, ← hleft]
            exact hleft₂
          rcases hcases with ⟨p', hp', hlast, hothers, hdeclined₂⟩ |
            ⟨output, p', above, es', below, winner, hwins, hlast, hfirst, rfl, hmem, hothers⟩
          · refine .inl ⟨p', hp', hlast, ?_, List.forall_mem_append.2 ⟨hdeclined, hdeclined₂⟩⟩
            rw [List.map_append, hentries, hothers, List.flatten_cons, List.filter_append]
          · refine .inr ⟨output, p', es :: above, es', below, winner, hwins, hlast,
              hfirst.append_left hdeclined, rfl, hmem, ?_⟩
            rw [List.map_append, hentries, hothers]
            simp

/-- The turns of tiers that are stopped, and why they are. -/
theorem consult_error (hkids : OwnChildren children chain node kids) {tiers : List (List (Entry σ))}
    {c : Cancelled} {s s' : State σ} (h : Progress children start chain node p log)
    (hs : (s.shared, s.scopes) = leftBy start (ownTurns chain node log))
    (hrun : Run.consult chain budget (Run.prepare kids node) node tiers p s =
      some ((.error c, s'), more)) :
    (ownTurns chain node more).map (·.entry) <+: tiers.flatten.filter (·.payable budget) ∧
      ((∃ u ∈ ownTurns chain node more, u.reply.outcome = .cancelled) ∨
        ∃ s₁ c s₂, (s₁.shared, s₁.scopes) =
          leftBy (s.shared, s.scopes) (ownTurns chain node more) ∧
          children s₁ = (.error c, s₂)) := by
  induction tiers generalizing p s log more with
  | nil => cases hrun
  | cons es tiers ih =>
      rw [List.flatten_cons, List.filter_append]
      rcases bind_eq_some hrun with ⟨c, s₁, hstop, -⟩ | ⟨turn, s₁, log₁, log₂, htier, hrest, rfl⟩
      · obtain ⟨hentries, hcause⟩ := tier_error hkids hstop
        exact ⟨hentries.trans (List.prefix_append _ _), hcause⟩
      obtain ⟨attempts, p₁⟩ := turn
      obtain ⟨hprogress, -, hentries, hleft⟩ := tier_ok hkids h hs htier
      rcases bind_eq_some hrest with ⟨c, s₂, htell, -⟩ | ⟨_, s₂, log₃, log₄, htell, hruling, rfl⟩
      · cases htell
      obtain ⟨⟩ := htell
      rw [List.nil_append, ownTurns_append, List.map_append, hentries]
      cases haccepted : firstAccepted? attempts with
      | some accepted =>
          rw [haccepted] at hruling
          cases hruling
      | none =>
          rw [haccepted] at hruling
          obtain ⟨hothers, hcause⟩ := ih hprogress (by exact leftBy_of_step hs hleft) hruling
          refine ⟨(List.prefix_append_right_inj _).2 hothers, hcause.imp ?_ ?_⟩
          · rintro ⟨u, hu, hcancelled⟩
            exact ⟨u, List.mem_append_right _ hu, hcancelled⟩
          · rintro ⟨s₁, c, s₂, hs₁, hchildren⟩
            refine ⟨s₁, c, s₂, ?_, hchildren⟩
            rw [leftBy_append, ← hleft]
            exact hs₁

end Asking

/-! ### Chains of a step and of what it leads to -/

section Depth

variable {t : Expander σ} {chain : Chain} {budget fuel : Nat} {node : Node} {log : List (Event σ)}

/-- What a dispatch leads to has its chain behind its own. -/
theorem suffix_inherited (start : Chain) : Chain.Inherited fun _ chain => start <:+ chain where
  child := fun h _ => h.trans (List.suffix_cons _ _)
  output := fun h _ _ _ => h.trans (List.suffix_cons _ _)

/-- Events whose chains have a link on top of the given one. -/
theorem deeper_of_followed {R : State σ → State σ → Prop} {link : Link} {s s' : State σ}
    (h : FollowedBy R (fun _ c => (link :: chain) <:+ c) s log s') :
    ∀ event ∈ log, chain.length < event.chain.length :=
  fun event hevent => (h.2 event hevent).1.length_le

/-- The dispatches that a link leads to. -/
theorem nodeRun_behind (t : Expander σ) (fuel : Nat) (link : Link) (chain : Chain) :
    AgainKeeps (t.respects_any.contract (suffix_inherited (link :: chain))) Knowledge.nothing
      (t.nodeRun fuel) :=
  Expander.nodeRun_follows t.respects_any (suffix_inherited (link :: chain)) fuel

/-- The children of a dispatched node are expanded by dispatches with a longer chain. -/
theorem ownChildren_log (hpos : budget ≠ 0) {s : State σ} {r : Step σ (Option Node)}
    (hrun : ownChildren (t.nodeRun fuel) chain budget node s = some (r, log)) :
    ∃ more, log = ⟨chain, budget, .opened node⟩ :: more ∧
      ∀ event ∈ more, chain.length < event.chain.length := by
  unfold ownChildren children at hrun
  rw [if_neg hpos] at hrun
  obtain ⟨more, hrest, rfl⟩ := openNode_bind_eq_some hrun
  have hparts := parts_keeps (fun n => nodeRun_behind t fuel ⟨node, budget, none⟩ chain
    (⟨node, budget, none⟩ :: chain) budget n false List.suffix_rfl) node (.opening s.openings)
  exact ⟨more, rfl, deeper_of_followed (hparts.followed hrest)⟩

theorem ownChildren_own (t : Expander σ) (fuel : Nat) (chain : Chain) (hpos : budget ≠ 0)
    (node : Node) :
    OwnChildren (t.expandChildren budget node) chain node
      (ownChildren (t.nodeRun fuel) chain budget node) where
  answers := (t.nodeRun_leaves fuel).children_answers _ chain budget node
  turns := by
    intro s r log hrun
    obtain ⟨more, rfl, hdeeper⟩ := ownChildren_log hpos hrun
    rw [ownTurns_cons, ownTurns_of_deeper hdeeper]
    rfl
  once := by
    intro s r log hrun
    obtain ⟨more, rfl, hdeeper⟩ := ownChildren_log hpos hrun
    rw [ownOpenings_cons, ownOpenings_of_deeper hdeeper]
    rfl

theorem noOutput_of_deeper (h : ∀ event ∈ log, chain.length < event.chain.length) :
    ∀ event ∈ log, event.NoOutput chain :=
  fun event hevent hlength => absurd hlength (Nat.ne_of_gt (h event hevent))

theorem ownChildren_noOutput (hpos : budget ≠ 0) {s : State σ} {r : Step σ (Option Node)}
    (hrun : ownChildren (t.nodeRun fuel) chain budget node s = some (r, log)) :
    ∀ event ∈ log, event.NoOutput chain := by
  obtain ⟨more, rfl, hdeeper⟩ := ownChildren_log hpos hrun
  refine List.forall_mem_cons.2 ⟨?_, noOutput_of_deeper hdeeper⟩
  rintro - output mode ⟨⟩

/-- The course of what leads to no output of the dispatch with a chain. -/
def noOutput (σ : Type) (chain : Chain) : Course σ where
  Goes _ log _ := ∀ event ∈ log, event.NoOutput chain
  Halts _ log _ := ∀ event ∈ log, event.NoOutput chain
  nil _ := by simp
  append h hmore := List.forall_mem_append.2 ⟨h, hmore⟩
  halt h hmore := List.forall_mem_append.2 ⟨h, hmore⟩

/-- An invocation is no output. -/
theorem heard_noOutput (t : Expander σ) (chain : Chain) (budget : Nat) :
    (noOutput σ chain).Heard t chain budget :=
  ⟨fun _ _ _ _ => by simp [noOutput, Event.NoOutput],
    fun _ _ _ _ _ _ => by simp [noOutput, Event.NoOutput]⟩

/-- While macros are asked, there is no output to go on with. -/
theorem consult_noOutput (hpos : budget ≠ 0) {scopes : ScopeStack} {s : State σ}
    {r : Step σ (Ruling Prepared)}
    (hrun : Run.consult chain budget (Run.prepare (ownChildren (t.nodeRun fuel) chain budget node)
      node) node (tiersOf (t.candidates scopes node)) .notYet s = some (r, log)) :
    ∀ event ∈ log, event.NoOutput chain := by
  have hkids : (ownChildren (t.nodeRun fuel) chain budget node).Keeps (noOutput σ chain)
      (Knowledge.nothing.Opened chain budget node) := by
    have hopened : (ownChildren (t.nodeRun fuel) chain budget node).Keeps (Contract.any t).toCourse
        (Knowledge.nothing.Opened chain budget node) :=
      ownChildren_keeps (Expander.nodeRun_keeps _ (Knowledge.closed_nothing t) fuel) trivial
    exact ⟨ownChildren_noOutput hpos, fun hr => ⟨ownChildren_noOutput hpos hr, (hopened.goes hr).2⟩⟩
  have hconsult := consult_keeps hpos (heard_noOutput t chain budget) (by simp [noOutput]) hkids
    (mem_candidates_of_tiersOf t scopes node) .start
  obtain ⟨r | ruling, s'⟩ := r
  · exact hconsult.halts hrun
  · exact (hconsult.goes hrun).1

/-- What is done with an output has a longer chain. -/
theorem reprocess_deeper {output : Node} {mode : Mode} {s : State σ} {r : Step σ (Option Node)}
    (hrun : reprocess (t.nodeRun fuel) chain budget node output mode s = some (r, log)) :
    ∀ event ∈ log, chain.length < event.chain.length := by
  have hbehind := nodeRun_behind t fuel ⟨node, budget, some mode⟩ chain
  have hmore := reprocess_keeps (fun n changed => hbehind _ _ n changed List.suffix_rfl)
    fun hleft => Contract.opened _ List.suffix_rfl hleft output
  exact deeper_of_followed (hmore.followed hrun)

end Depth

end Run

/-! ### How a step goes -/

/-- The frame of a block is removed when all is done inside. -/
def Node.leaveBlock (node : Node) (r : Step σ (Option Node)) : Step σ (Option Node) :=
  if node.calls Reserved.block then (r.1, { r.2 with scopes := r.2.scopes.pop }) else r

namespace Expander

/-- What a dispatch does with an accepted output, depending on the mode of the macro. -/
def goOn (t : Expander σ) (budget : Nat) (node output : Node) (mode : Mode) (frames : Nat)
    (s : State σ) : Step σ (Option Node) × Nat :=
  if mode.reprocess = .normal && !(output == node) then
    t.dispatch (budget - mode.cost) output true frames s
  else if mode.reprocess = .never then ((.ok (some output), s), frames)
  else
    (Step.andThen (t.expandChildren (budget - mode.cost) output)
      (fun e => Step.done (some (e.getD output))) s, frames)

/-- The shared state and the scopes with which the turns of a step begin.  A block for which macros
are found has a frame of its own. -/
def setting (t : Expander σ) (node : Node) (s : State σ) : σ × ScopeStack :=
  (s.shared, if node.calls Reserved.block && !(t.candidates s.scopes node).isEmpty then s.scopes.push
    else s.scopes)

section Course

variable (t : Expander σ) (chain : Chain) (budget : Nat) (node : Node) (s : State σ)
  (r : Step σ (Option Node)) (log : List (Event σ))

/-- The step is stopped, by the token, by a macro or while the children of the node are expanded. -/
structure Stopped : Prop where
  result : ∃ c, r.1 = .error c
  outputs : ownOutputs chain log = []
  asked : (ownTurns chain node log).map (·.entry) <+: t.queue budget s.scopes node
  cause : t.token.isCancelled s.now = true ∨
    (∃ u ∈ ownTurns chain node log, u.reply.outcome = .cancelled) ∨
    ∃ s₁ c s₂, (s₁.shared, s₁.scopes) = leftBy (t.setting node s) (ownTurns chain node log) ∧
      t.expandChildren budget node s₁ = (.error c, s₂)

/-- All macros are asked and nobody accepts.  The answer is the node with its children expanded,
which is done once; `changed` tells that the node is an output already. -/
structure Unclaimed (changed : Bool) : Prop where
  asked : (ownTurns chain node log).map (·.entry) = t.queue budget s.scopes node
  declined : ∀ u ∈ ownTurns chain node log, u.output? = none ∧ u.reply.outcome ≠ .cancelled
  outputs : ownOutputs chain log = []
  once : ownOpenings chain log = 1
  result : ∃ expanded, ExpandedAmong (t.expandChildren budget node) (t.setting node s)
      (ownTurns chain node log) expanded ∧
    (∀ u ∈ ownTurns chain node log,
      u.input = if u.entry.mode.childrenBefore then expanded.getD node else node) ∧
    r.1 = .ok (expanded <|> if changed then some node else none)

/-- The macros are asked down to the tier of the winner, who is the first to accept. -/
structure Claimed (winner : Turn σ) (output : Node) : Prop where
  asked : (ownTurns chain node log).map (·.entry) =
    (t.queue budget s.scopes node).filter fun e => decide (winner.entry.rank ≤ e.rank)
  heard : ∀ u ∈ ownTurns chain node log, u.reply.outcome ≠ .cancelled
  first : FirstToAccept (ownTurns chain node log) winner output
  outputs : ownOutputs chain log = [(output, winner.entry.mode)]
  atMostOnce : ownOpenings chain log ≤ 1
  /-- All macros that want the children expanded before are given the same node. -/
  input : ∃ prepared,
    (∀ u ∈ ownTurns chain node log,
      u.input = if u.entry.mode.childrenBefore then prepared else node) ∧
    ((∃ u ∈ ownTurns chain node log, u.entry.mode.childrenBefore = true) →
      ∃ expanded, ExpandedAmong (t.expandChildren budget node) (t.setting node s)
        (ownTurns chain node log) expanded ∧ prepared = expanded.getD node)
  /-- The dispatch goes on with the output, in the state that the turns have left. -/
  goesOn : ∃ s₁ r₁,
    (s₁.shared, s₁.scopes) = leftBy (t.setting node s) (ownTurns chain node log) ∧
    (∀ frames, Leaves (t.goOn budget node output winner.entry.mode frames s₁) frames r₁) ∧
    r = node.leaveBlock r₁

end Course

variable {t : Expander σ} {chain : Chain} {budget fuel : Nat} {node : Node} {s : State σ}
  {log : List (Event σ)}

/-- Nobody accepts, and the children have been expanded. -/
theorem Unclaimed.of_progress {p : Prepared} {expanded : Option Node} {changed : Bool}
    {r : Step σ (Option Node)}
    (h : Run.Progress (t.expandChildren budget node) (t.setting node s) chain node p log)
    (hp : p.expanded? = some expanded)
    (hasked : (ownTurns chain node log).map (·.entry) = t.queue budget s.scopes node)
    (hdeclined : ∀ u ∈ ownTurns chain node log, u.output? = none)
    (houtputs : ownOutputs chain log = [])
    (hr : r.1 = .ok (expanded <|> if changed then some node else none)) :
    t.Unclaimed chain budget node s r log changed := by
  refine ⟨hasked, fun u hu => ⟨hdeclined u hu, h.heard u hu⟩, houtputs, ?_, ?_⟩
  · rw [h.opened, hp]
    rfl
  · refine ⟨expanded, h.source expanded hp, fun u hu => ?_, hr⟩
    rw [h.input u hu, Prepared.get_of_expanded hp]

/-- Some macro accepts, and the dispatch goes on with its output. -/
theorem Claimed.of_progress {p : Prepared} {winner : Turn σ} {output : Node} {s₁ : State σ}
    {r : Step σ (Option Node)} {more : List (Event σ)}
    (h : Run.Progress (t.expandChildren budget node) (t.setting node s) chain node p log)
    (hasked : (ownTurns chain node log).map (·.entry) =
      (t.queue budget s.scopes node).filter fun e => decide (winner.entry.rank ≤ e.rank))
    (hfirst : FirstToAccept (ownTurns chain node log) winner output)
    (hnone : ∀ event ∈ log, event.NoOutput chain)
    (hleft : (s₁.shared, s₁.scopes) = leftBy (t.setting node s) (ownTurns chain node log))
    (hmore : Run.reprocess (t.nodeRun fuel) chain budget node output winner.entry.mode s₁ =
      some (r, more)) :
    t.Claimed chain budget node s (node.leaveBlock r)
      (log ++ ⟨chain, budget, .rewrote output winner.entry.mode⟩ :: more) winner output := by
  have hdeeper := Run.reprocess_deeper hmore
  have hafter : ownTurns chain node
      (⟨chain, budget, .rewrote output winner.entry.mode⟩ :: more) = [] := by
    rw [ownTurns_cons, ownTurns_of_deeper hdeeper]
    rfl
  have hopened : ownOpenings chain
      (⟨chain, budget, .rewrote output winner.entry.mode⟩ :: more) = 0 := by
    rw [ownOpenings_cons, ownOpenings_of_deeper hdeeper]
    rfl
  have hturns : ownTurns chain node
      (log ++ ⟨chain, budget, .rewrote output winner.entry.mode⟩ :: more) =
      ownTurns chain node log := ownTurns_append_of_nil hafter
  have h := h.append hafter hopened
  constructor
  · rw [hturns, hasked]
  · exact h.heard
  · rw [hturns]
    exact hfirst
  · rw [ownOutputs_append, ownOutputs_of_none hnone, ownOutputs_cons,
      ownOutputs_of_none (Run.noOutput_of_deeper hdeeper)]
    rfl
  · rw [h.opened]
    split <;> omega
  · refine ⟨p.get node, h.input, ?_⟩
    rintro ⟨u, hu, hbefore⟩
    cases hp : p.expanded? with
    | none =>
        have hnot := h.unprepared hp u hu
        rw [hbefore] at hnot
        cases hnot
    | some expanded =>
        exact ⟨expanded, h.source expanded hp, Prepared.get_of_expanded hp node⟩
  · rw [hturns]
    exact ⟨s₁, r, hleft, reprocess_leaves (t.nodeRun_leaves fuel) hmore, rfl⟩

/-- How the step of a dispatch goes. -/
def Course (t : Expander σ) (chain : Chain) (budget : Nat) (node : Node) (changed : Bool)
    (s : State σ) (r : Step σ (Option Node)) (log : List (Event σ)) : Prop :=
  t.Stopped chain budget node s r log ∨ t.Unclaimed chain budget node s r log changed ∨
    ∃ winner output, t.Claimed chain budget node s r log winner output

@[simp] theorem leaveBlock_fst (node : Node) (r : Step σ (Option Node)) :
    (node.leaveBlock r).1 = r.1 := by
  unfold Node.leaveBlock
  split <;> rfl

theorem leaveBlock_of_within {m : Run σ (Option Node)} {r : Step σ (Option Node)}
    (h : Run.within (node.calls Reserved.block) m s = some (r, log)) :
    ∃ s₀ r₁, m s₀ = some (r₁, log) ∧ r = node.leaveBlock r₁ ∧ (s₀.shared, s₀.scopes) =
      (s.shared, if node.calls Reserved.block then s.scopes.push else s.scopes) := by
  obtain ⟨r, s'⟩ := r
  rcases Run.within_eq_some h with ⟨hblock, hinner⟩ | ⟨hblock, s₁, hinner, rfl⟩
  · refine ⟨s, (r, s'), hinner, ?_⟩
    simp [Node.leaveBlock, hblock]
  · refine ⟨_, (r, s₁), hinner, ?_⟩
    simp [Node.leaveBlock, hblock]

/-- When a node is dispatched, nobody has been asked yet. -/
theorem progress_entered (children : State σ → Step σ (Option Node)) (start : σ × ScopeStack)
    (chain : Chain) (budget : Nat) (node : Node) :
    Run.Progress children start chain node .notYet [⟨chain, budget, .entered node⟩] := by
  have hturns : ownTurns chain node [(⟨chain, budget, .entered node⟩ : Event σ)] = [] :=
    ownTurns_cons _
  refine ⟨ownOpenings_cons _, by simp [Prepared.expanded?], ?_, fun _ => ?_, ?_⟩ <;> rw [hturns] <;>
    exact List.forall_mem_nil _

/-- Nobody has accepted, and the children have still to be expanded. -/
theorem children_course (hpos : budget ≠ 0) {changed : Bool} {more : List (Event σ)}
    (h : Run.Progress (t.expandChildren budget node) (t.setting node s) chain node .notYet log)
    (hasked : (ownTurns chain node log).map (·.entry) = t.queue budget s.scopes node)
    (hdeclined : ∀ u ∈ ownTurns chain node log, u.output? = none)
    (hnone : ∀ event ∈ log, event.NoOutput chain) {s₁ : State σ} {r r' : Step σ (Option Node)}
    (hleft : (s₁.shared, s₁.scopes) = leftBy (t.setting node s) (ownTurns chain node log))
    (hrun : (Run.ownChildren (t.nodeRun fuel) chain budget node >>= fun expanded =>
      pure (expanded <|> if changed then some node else none)) s₁ = some (r, more))
    (hr : r'.1 = r.1) : t.Course chain budget node changed s r' (log ++ more) := by
  have hkids := Run.ownChildren_own t fuel chain hpos node
  rcases Run.bind_eq_some hrun with ⟨c, s₂, hstop, rfl⟩ | ⟨expanded, s₂, log₁, log₂, hok, hdone, rfl⟩
  · have hturns : ownTurns chain node (log ++ more) = ownTurns chain node log :=
      ownTurns_append_of_nil (hkids.turns hstop)
    rw [← hturns] at hleft
    refine .inl ⟨⟨c, hr⟩, ?_, ?_, .inr (.inr ⟨s₁, c, s₂, hleft, hkids.answers _ _ _ hstop⟩)⟩
    · exact ownOutputs_of_none
        (List.forall_mem_append.2 ⟨hnone, Run.ownChildren_noOutput hpos hstop⟩)
    · rw [hturns]
      exact hasked ▸ List.prefix_rfl
  · obtain ⟨⟩ := hdone
    rw [List.append_nil]
    obtain ⟨p, hp⟩ : ∃ p : Prepared, p.expanded? = some expanded := by
      cases expanded with
      | none => exact ⟨.unchanged, rfl⟩
      | some prepared => exact ⟨.changed prepared, rfl⟩
    have hturns : ownTurns chain node (log ++ log₁) = ownTurns chain node log :=
      ownTurns_append_of_nil (hkids.turns hok)
    have hprogress := h.prepare hp hleft (hkids.answers _ _ _ hok) (hkids.turns hok) (hkids.once hok)
    rw [← hturns] at hasked hdeclined
    refine .inr (.inl (.of_progress hprogress hp hasked hdeclined ?_ hr))
    exact ownOutputs_of_none
      (List.forall_mem_append.2 ⟨hnone, Run.ownChildren_noOutput hpos hok⟩)

/-- What is done with a node for which macros have been found. -/
theorem found_course (hpos : budget ≠ 0) {changed : Bool} {s₀ : State σ}
    {r : Step σ (Option Node)} (hs₀ : (s₀.shared, s₀.scopes) = t.setting node s)
    (hrun : Run.found (t.nodeRun fuel) chain budget node (if changed then some node else none)
      (t.candidates s.scopes node) s₀ = some (r, log)) :
    t.Course chain budget node changed s (node.leaveBlock r)
      (⟨chain, budget, .entered node⟩ :: log) := by
  have hkids := Run.ownChildren_own t fuel chain hpos node
  have hstart := progress_entered (t.expandChildren budget node) (t.setting node s) chain budget node
  have hentered : ∀ log : List (Event σ), ownTurns chain node
      (⟨chain, budget, .entered node⟩ :: log) = ownTurns chain node log := fun log => ownTurns_cons _
  have hbegin : (s₀.shared, s₀.scopes) = leftBy (t.setting node s)
      (ownTurns chain node [⟨chain, budget, .entered node⟩]) := by
    rw [hentered]
    exact hs₀
  have hnone : ∀ {ruling log}, Run.consult chain budget (Run.prepare (Run.ownChildren
      (t.nodeRun fuel) chain budget node) node) node (tiersOf (t.candidates s.scopes node)) .notYet
      s₀ = some (ruling, log) → ∀ event ∈ (⟨chain, budget, .entered node⟩ :: log : List (Event σ)),
      event.NoOutput chain := by
    intro ruling log hconsult
    refine List.forall_mem_cons.2 ⟨?_, Run.consult_noOutput hpos hconsult⟩
    rintro - output mode ⟨⟩
  rcases Run.bind_eq_some hrun with ⟨c, s₁, hstop, rfl⟩ |
    ⟨ruling, s₁, log₁, log₂, hruling, hrest, rfl⟩
  · obtain ⟨hasked, hcause⟩ := Run.consult_error hkids hstart hbegin hstop
    rw [flatten_tiersOf, ← hentered] at hasked
    rw [hs₀, ← hentered] at hcause
    exact .inl ⟨⟨c, leaveBlock_fst _ _⟩, ownOutputs_of_none (hnone hstop), hasked, .inr hcause⟩
  obtain ⟨hleft, hcases⟩ := Run.consult_ok hkids hstart hbegin hruling
  rw [hs₀, ← hentered] at hleft
  have hnone := hnone hruling
  rw [← List.cons_append]
  rcases hcases with ⟨p, rfl, hprogress, hasked, hdeclined⟩ |
    ⟨output, p, above, es, below, winner, rfl, hprogress, hfirst, htiers, hmem, hasked⟩
  · rw [flatten_tiersOf, ← hentered] at hasked
    rw [← hentered] at hdeclined
    cases p with
    | notYet =>
        exact children_course hpos hprogress hasked hdeclined hnone hleft hrest (leaveBlock_fst _ _)
    | unchanged | changed =>
        obtain ⟨⟩ := hrest
        rw [List.append_nil]
        exact .inr (.inl (.of_progress hprogress rfl hasked hdeclined (ownOutputs_of_none hnone)
          (leaveBlock_fst _ _)))
  · obtain ⟨more, hmore, rfl⟩ := Run.note_bind_eq_some hrest
    rw [flatten_upto_tier htiers hmem, List.filter_comm, ← hentered] at hasked
    rw [← hentered] at hfirst
    exact .inr (.inr ⟨winner, output, .of_progress hprogress hasked hfirst hnone hleft hmore⟩)

theorem dispatch_course (hpos : budget ≠ 0) {changed : Bool} {r : Step σ (Option Node)}
    (hrun : t.nodeRun (fuel + 1) chain budget node changed s = some (r, log)) :
    t.Course chain budget node changed s r log := by
  have hstart := progress_entered (t.expandChildren budget node) (t.setting node s) chain budget node
  obtain ⟨more, rfl, ⟨hzero, -, -⟩ | ⟨-, hcancel, rfl, rfl⟩ | ⟨-, -, hempty, hchildren⟩ |
    ⟨-, -, hsome, hfound⟩⟩ := Run.dispatch_cases hrun
  · exact absurd hzero hpos
  · refine .inl ⟨⟨_, rfl⟩, ownOutputs_cons _, ?_, .inl hcancel⟩
    rw [ownTurns_cons]
    exact List.nil_prefix
  · have hturns : ownTurns chain node [(⟨chain, budget, .entered node⟩ : Event σ)] = [] :=
      ownTurns_cons _
    refine children_course hpos hstart ?_ ?_ ?_ ?_ hchildren rfl
    · rw [hturns, queue, hempty]
      simp [byPriority]
    · rw [hturns]
      exact List.forall_mem_nil _
    · exact List.forall_mem_singleton.2 (by rintro - output mode ⟨⟩)
    · rw [hturns, setting, hempty]
      simp [leftBy, State.tick]
  · obtain ⟨s₀, r₁, hinner, rfl, hs₀⟩ := leaveBlock_of_within hfound
    refine found_course hpos ?_ hinner
    rw [hs₀, setting]
    simp [State.tick, hsome]

/-- A macro for the same head as others, with its index in the order of registration. -/
def rival (index : Nat) (priority : Priority) (childrenBefore : Bool) (outcome : Outcome) :
    Entry Unit where
  space := none
  name := "m"
  mode := { reprocess := .never, childrenBefore, priority }
  givenLabel := none
  origin := none
  callable := ⟨.custom index, fun shared _ scopes => .quiet shared scopes outcome⟩

/-- Five macros for one head: the one with the lowest priority comes first, and two of those that
accept come after others. -/
def rivals : Expander Unit :=
  .create (Table.empty.addAll [rival 0 .fallback false (.accepted (.ident "a")),
    rival 1 .normal false .declined, rival 2 .override true .declined,
    rival 3 .normal false (.accepted (.ident "b")),
    rival 4 .normal true (.accepted (.ident "c"))]).2 [] 2 {}

end Expander

end MacroForest
