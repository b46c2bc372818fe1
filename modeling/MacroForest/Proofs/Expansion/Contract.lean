/-
**What holds of every run.**

A run is put together from few kinds of steps in few ways.  Whatever is to hold of all runs holds of
the steps and is kept by these ways, and they are gone through once, here.

There are two questions to ask about a run.  One is how it comes from the state in which it begins
to the one in which it ends, and by which events.  Its parts follow each other on a *course*: what
goes on between two states, and what is left by a run that is told to stop.  A *contract* is a
course that all steps of a run keep to, with what the dispatches hand down along the chains.  The
other is what an answer has to do with the log.  For this a *knowledge* of dispatches is assumed,
and relations that follow the parts of a dispatch say what the knowledge of those that it leads to
comes to.  If that is the knowledge again, it holds of all dispatches.

Main definitions:

* `MacroForest.Chain.Inherited` — what a dispatch hands down to those that it leads to;
* `MacroForest.Course`, `MacroForest.Contract` — what the parts of a run come to, and **what its
  steps keep to**;
* `MacroForest.Knowledge`, `MacroForest.Knowledge.Dispatched` — **what one dispatch makes of what is
  known of others**;
* `MacroForest.Run.Keeps` — a run takes a course, and its answer is one of those known.

Main results:

* `MacroForest.Run.tier_cons_cases` — what one turn can do;
* `MacroForest.Run.dispatch_keeps` — one dispatch keeps what those that it leads to keep;
* `MacroForest.Expander.nodeRun_keeps` — **every run keeps its contract, and what is known holds**;
* `MacroForest.Expander.nodeRun_known`, `MacroForest.Expander.listRun_known` — what is known of a
  run that answers.
-/

import MacroForest.Proofs.Expansion.Turns

set_option relaxedAutoImplicit false
set_option autoImplicit false

namespace MacroForest

variable {σ : Type}

/-! ### Courses and contracts -/

/-- A property of the budget and the chain of a dispatch that is handed down: to the children of the
node with the same budget, and to an output with what it leaves of the budget. -/
structure Chain.Inherited (I : Nat → Chain → Prop) : Prop where
  child : ∀ {budget chain}, I budget chain → ∀ node, I budget (⟨node, budget, none⟩ :: chain)
  output : ∀ {budget chain}, I budget chain → ∀ node {mode : Mode}, mode.cost ≤ budget →
    I (budget - mode.cost) (⟨node, budget, some mode⟩ :: chain)

/-- The macros found for a node are in the table. -/
theorem Expander.mem_table_of_candidates {t : Expander σ} {scopes : ScopeStack} {node : Node}
    {e : Entry σ} (h : e ∈ t.candidates scopes node) : ∃ name, e ∈ t.table.named name := by
  unfold Expander.candidates at h
  split at h
  · split at h
    · exact ⟨_, (List.mem_filter.1 h).1⟩
    · simp at h
  · split at h
    · exact ⟨_, (List.mem_filter.1 h).1⟩
    · simp at h

/-- A macro can be given a node: it is one of those for this node, or for one whose children it
wants expanded before. -/
def Expander.Offers (t : Expander σ) (e : Entry σ) (input : Node) : Prop :=
  ∃ scopes node, e ∈ t.candidates scopes node ∧ (e.mode.childrenBefore = false → input = node)

theorem Expander.Offers.mem_table {t : Expander σ} {e : Entry σ} {input : Node}
    (h : t.Offers e input) : ∃ name, e ∈ t.table.named name := by
  obtain ⟨scopes, node, he, -⟩ := h
  exact mem_table_of_candidates he

/-- What the parts of a run come to, one after the other. -/
structure Course (σ : Type) where
  /-- What lies between two states of a run, with the events. -/
  Goes : State σ → List (Event σ) → State σ → Prop
  /-- What lies between the beginning of a run that is told to stop and its end. -/
  Halts : State σ → List (Event σ) → State σ → Prop
  nil : ∀ s, Goes s [] s
  append : ∀ {s s' s'' log more}, Goes s log s' → Goes s' more s'' → Goes s (log ++ more) s''
  halt : ∀ {s s' s'' log more}, Goes s log s' → Halts s' more s'' → Halts s (log ++ more) s''

/-- What the turns of the macros in one dispatch come to: a macro that is heard goes on, and one
that asks to stop has this reported. -/
structure Course.Heard (C : Course σ) (t : Expander σ) (chain : Chain) (budget : Nat) : Prop where
  goes : ∀ {e : Entry σ} {input : Node}, t.Offers e input → e.mode.cost ≤ budget → ∀ s,
    (e.callable.run s.shared input s.scopes).outcome ≠ .cancelled →
    C.Goes s [⟨chain, budget, .invoked e input s⟩]
      (s.after (e.callable.run s.shared input s.scopes))
  halts : ∀ {e : Entry σ} {input : Node}, t.Offers e input → e.mode.cost ≤ budget →
    ∀ s node (attempts : List (Attempt σ)),
    (e.callable.run s.shared input s.scopes).outcome = .cancelled →
    C.Halts s [⟨chain, budget, .invoked e input s⟩]
      ((s.after (e.callable.run s.shared input s.scopes)).writeAll
        (cancelMessage e node :: report s.sink.enabled attempts node (some .error)))

/-- What the steps of a run keep to. -/
structure Contract (t : Expander σ) extends Course σ where
  /-- What is handed down along the chains. -/
  Inherits : Nat → Chain → Prop
  inherited : Chain.Inherited Inherits
  tick : ∀ s, Goes s [] s.tick
  tell : ∀ s ms, Goes s [] (s.writeAll ms)
  entered : ∀ {budget chain}, Inherits budget chain → ∀ node s,
    Goes s [⟨chain, budget, .entered node⟩] s
  opened : ∀ {budget chain}, Inherits budget chain → budget ≠ 0 → ∀ node s,
    Goes s [⟨chain, budget, .opened node⟩] s.opening
  rewrote : ∀ {budget chain}, Inherits budget chain → ∀ {mode : Mode}, mode.cost ≤ budget →
    ∀ output s, Goes s [⟨chain, budget, .rewrote output mode⟩] s
  heard : ∀ {budget chain}, Inherits budget chain → toCourse.Heard t chain budget
  /-- A dispatch finds the token cancelled. -/
  cancelled : ∀ {budget chain}, Inherits budget chain → budget ≠ 0 → ∀ node {s : State σ},
    t.token.isCancelled s.now = true → Halts s [⟨chain, budget, .entered node⟩] s
  block : ∀ {s s' : State σ} {log}, Goes { s with scopes := s.scopes.push } log s' →
    Goes s log { s' with scopes := s'.scopes.pop }
  haltBlock : ∀ {s s' : State σ} {log}, Halts { s with scopes := s.scopes.push } log s' →
    Halts s log { s' with scopes := s'.scopes.pop }

/-- The contract that says nothing. -/
def Contract.any (t : Expander σ) : Contract t where
  Goes _ _ _ := True
  Halts _ _ _ := True
  Inherits _ _ := True
  inherited := ⟨fun _ _ => trivial, fun _ _ _ _ => trivial⟩
  nil _ := trivial
  append _ _ := trivial
  halt _ _ := trivial
  tick _ := trivial
  tell _ _ := trivial
  entered _ _ _ := trivial
  opened _ _ _ _ := trivial
  rewrote _ _ _ _ _ := trivial
  heard _ := ⟨fun _ _ _ _ => trivial, fun _ _ _ _ _ _ => trivial⟩
  cancelled _ _ _ _ _ := trivial
  block _ := trivial
  haltBlock _ := trivial

/-! ### What answers have to do with logs -/

/-- What is known of dispatches that answer: of the node, whether it was an output already, the
answer and the log. -/
abbrev Knowledge (σ : Type) := Node → Bool → Option Node → List (Event σ) → Prop

namespace Knowledge

variable (K : Knowledge σ)

/-- The members of a list are dispatched one after the other. -/
inductive Members : List Node → Option (List Node) → List (Event σ) → Prop
  | nil : Members [] none []
  | cons {n : Node} {ns : List Node} {expanded : Option Node} {rest : Option (List Node)}
      {log more : List (Event σ)} (first : K n false expanded log) (others : Members ns rest more) :
      Members (n :: ns)
        (if expanded.isNone && !n.calls Reserved.splice then rest.map (n :: ·)
          else some ((expanded.getD n).spliced ++ rest.getD ns)) (log ++ more)

/-- The target of a node is dispatched, unless the head is simple. -/
inductive Aimed (node : Node) : Option Node → List (Event σ) → Prop
  | kept (simple : ∀ target, node.target? = some target → node.hasSimpleHead = true) :
      Aimed node none []
  | expanded {target : Node} {r : Option Node} {log : List (Event σ)}
      (target_eq : node.target? = some target) (complex : node.hasSimpleHead = false)
      (known : K target false r log) : Aimed node r log

/-- The parts of a node are dispatched. -/
inductive Rebuilt (node : Node) (cell : Cell) : Option Node → List (Event σ) → Prop
  | parts {attrs args : Option (List Node)} {target : Option Node} {log₁ log₂ log₃ : List (Event σ)}
      (attrs_known : Members K node.attrs attrs log₁) (target_known : Aimed K node target log₂)
      (args_known : Members K node.args args log₃) :
      Rebuilt node cell (node.replaceParts cell attrs target args) (log₁ ++ (log₂ ++ log₃))

/-- The children of a node are expanded, if there is budget. -/
inductive Opened (chain : Chain) (budget : Nat) (node : Node) :
    Option Node → List (Event σ) → Prop
  | unpaid (zero : budget = 0) : Opened chain budget node none []
  | paid {r : Option Node} {log : List (Event σ)} (pos : budget ≠ 0) (cell : Cell)
      (rebuilt : Rebuilt K node cell r log) :
      Opened chain budget node r (⟨chain, budget, .opened node⟩ :: log)

/-- While the macros are asked about a node: the turns so far, and what is known of the node with
its children expanded, which happens between two turns. -/
inductive Asked (chain : Chain) (budget : Nat) (node : Node) :
    List (Turn σ) → Prepared → List (Event σ) → Prop
  | start : Asked chain budget node [] .notYet []
  | prepared {us : List (Turn σ)} {expanded : Option Node} {log more : List (Event σ)}
      (before : Asked chain budget node us .notYet log)
      (children : Opened K chain budget node expanded more) :
      Asked chain budget node us (expanded.elim .unchanged .changed) (log ++ more)
  | turn {us : List (Turn σ)} {p : Prepared} {log : List (Event σ)} {e : Entry σ} {input : Node}
      (s : State σ) (before : Asked chain budget node us p log)
      (given : input = if e.mode.childrenBefore then p.get node else node)
      (heard : (e.callable.run s.shared input s.scopes).outcome ≠ .cancelled) :
      Asked chain budget node (us ++ [⟨e, node, input, s.shared, s.scopes⟩]) p
        (log ++ [⟨chain, budget, .invoked e input s⟩])

/-- A dispatch goes on with an output, depending on the mode of the macro. -/
inductive GoesOn (chain : Chain) (budget : Nat) (node output : Node) (mode : Mode) :
    Option Node → List (Event σ) → Prop
  | again {r : Option Node} {log : List (Event σ)} (normal : mode.reprocess = .normal)
      (differs : (output == node) = false) (known : K output true r log) :
      GoesOn chain budget node output mode r log
  | never (never : mode.reprocess = .never) : GoesOn chain budget node output mode (some output) []
  | children {expanded : Option Node} {log : List (Event σ)} (proceeds : mode.reprocess ≠ .never)
      (repeats : mode.reprocess = .normal → (output == node) = true)
      (children : Opened K (⟨node, budget, some mode⟩ :: chain) (budget - mode.cost) output
        expanded log) :
      GoesOn chain budget node output mode (some (expanded.getD output)) log

/-- What one dispatch does: without budget nothing; if all macros that can be paid for pass, its
children are expanded, before a turn or after all of them; and if one accepts, it goes on with the
output. -/
inductive Dispatched (t : Expander σ) (chain : Chain) (budget : Nat) (node : Node)
    (changed : Bool) : Option Node → List (Event σ) → Prop
  | unpaid (zero : budget = 0) :
      Dispatched t chain budget node changed (if changed then some node else none)
        [⟨chain, budget, .entered node⟩]
  | unclaimed {us : List (Turn σ)} {expanded : Option Node} {log : List (Event σ)}
      (scopes : ScopeStack) (pos : budget ≠ 0)
      (asked : Asked K chain budget node us (expanded.elim .unchanged .changed) log)
      (entries : us.map (·.entry) =
        (tiersOf (t.candidates scopes node)).flatten.filter (·.payable budget))
      (passed : ∀ u ∈ us, u.output? = none) :
      Dispatched t chain budget node changed (expanded <|> if changed then some node else none)
        (⟨chain, budget, .entered node⟩ :: log)
  | claimed {us : List (Turn σ)} {p : Prepared} {u : Turn σ} {output : Node} {r : Option Node}
      {log more : List (Event σ)} (scopes : ScopeStack) (pos : budget ≠ 0)
      (asked : Asked K chain budget node us p log) (mem : u ∈ us)
      (entry : u.entry ∈ t.candidates scopes node) (accepted : u.output? = some output)
      (goesOn : GoesOn K chain budget node output u.entry.mode r more) :
      Dispatched t chain budget node changed r (⟨chain, budget, .entered node⟩ ::
        (log ++ ⟨chain, budget, .rewrote output u.entry.mode⟩ :: more))

/-- What one dispatch does is known, if it is of those that it leads to. -/
def Closed (t : Expander σ) : Prop :=
  ∀ ⦃chain budget node changed r log⦄, K.Dispatched t chain budget node changed r log →
    K node changed r log

/-- Nothing is known. -/
def nothing : Knowledge σ := fun _ _ _ _ => True

theorem closed_nothing (t : Expander σ) : (nothing : Knowledge σ).Closed t :=
  fun _ _ _ _ _ _ _ => trivial

section Asked

variable {K} {chain : Chain} {budget : Nat} {node : Node} {us : List (Turn σ)} {p : Prepared}
  {log : List (Event σ)}

/-- What a macro has been given that takes a node as it is. -/
theorem Asked.input_eq (h : K.Asked chain budget node us p log) {u : Turn σ} (hu : u ∈ us)
    (hdirect : u.entry.mode.childrenBefore = false) : u.input = node := by
  induction h with
  | start => cases hu
  | prepared _ _ ih => exact ih hu
  | turn s _ hgiven _ ih =>
      rcases List.mem_append.1 hu with hold | hnew
      · exact ih hold
      · obtain rfl := List.mem_singleton.1 hnew
        dsimp only at hdirect ⊢
        rw [hgiven, hdirect]
        rfl

/-- What happens while the macros are asked: turns, and what the expansion of the children brings.
-/
theorem Asked.forall_mem (h : K.Asked chain budget node us p log) {P : Event σ → Prop}
    (hturns : ∀ u ∈ us, ∀ s, P ⟨chain, budget, .invoked u.entry u.input s⟩)
    (hchildren : ∀ expanded more, K.Opened chain budget node expanded more → ∀ e ∈ more, P e) :
    ∀ e ∈ log, P e := by
  induction h with
  | start => exact List.forall_mem_nil _
  | prepared _ hopened ih =>
      exact List.forall_mem_append.2 ⟨ih hturns, hchildren _ _ hopened⟩
  | turn s _ _ _ ih =>
      rw [List.forall_mem_append, List.forall_mem_singleton] at hturns ⊢
      exact ⟨ih hturns.1, hturns.2 s⟩

/-- The children of a prepared node have been expanded, and the events of this are in the log. -/
theorem Asked.opened (h : K.Asked chain budget node us p log) {expanded : Option Node}
    (hp : p = expanded.elim .unchanged .changed) :
    ∃ more, K.Opened chain budget node expanded more ∧ ∀ e ∈ more, e ∈ log := by
  induction h with
  | start => cases expanded <;> cases hp
  | @prepared _ expanded' log more _ hchildren _ =>
      obtain rfl : expanded' = expanded := by
        cases expanded' with
        | none | some =>
            cases expanded with
            | none | some => cases hp <;> rfl
      exact ⟨more, hchildren, fun e he => List.mem_append_right _ he⟩
  | turn _ _ _ _ ih =>
      obtain ⟨more, hchildren, hmem⟩ := ih hp
      exact ⟨more, hchildren, fun e he => List.mem_append_left _ (hmem e he)⟩

end Asked

end Knowledge

/-! ### Runs that take a course -/

namespace Run

variable {α β : Type} {t : Expander σ} {C : Course σ} {K : Knowledge σ}

/-- The run takes the course, however it ends, and if it answers then the answer and the log have to
do with each other. -/
structure Keeps (C : Course σ) (m : Run σ α) (Q : α → List (Event σ) → Prop) : Prop where
  halts : ∀ {s c s' log}, m s = some ((.error c, s'), log) → C.Halts s log s'
  goes : ∀ {s a s' log}, m s = some ((.ok a, s'), log) → C.Goes s log s' ∧ Q a log

theorem done_keeps {Q : α → List (Event σ) → Prop} {a : α} (h : Q a []) :
    (pure a : Run σ α).Keeps C Q := by
  constructor
  · rintro s c s' log ⟨⟩
  · rintro s b s' log ⟨⟩
    exact ⟨C.nil s, h⟩

theorem tell_keeps {f : State σ → List Message} (h : ∀ s, C.Goes s [] (s.writeAll (f s))) :
    (tell f).Keeps C fun _ log => log = [] := by
  constructor
  · rintro s c s' log ⟨⟩
  · rintro s _ s' log ⟨⟩
    exact ⟨h s, rfl⟩

theorem note_keeps {e : Event σ} (h : ∀ s, C.Goes s [e] s) :
    (note e).Keeps C fun _ log => log = [e] := by
  constructor
  · rintro s c s' log ⟨⟩
  · rintro s _ s' log ⟨⟩
    exact ⟨h s, rfl⟩

theorem openNode_keeps {chain : Chain} {budget : Nat} {node : Node}
    (h : ∀ s, C.Goes s [⟨chain, budget, .opened node⟩] s.opening) :
    (openNode chain budget node).Keeps C fun _ log => log = [⟨chain, budget, .opened node⟩] := by
  constructor
  · rintro s c s' log ⟨⟩
  · rintro s _ s' log ⟨⟩
    exact ⟨h s, rfl⟩

theorem Keeps.bind {m : Run σ α} {f : α → Run σ β} {Q : α → List (Event σ) → Prop}
    {Q' : β → List (Event σ) → Prop} (hm : m.Keeps C Q)
    (hf : ∀ a log, Q a log → (f a).Keeps C fun b more => Q' b (log ++ more)) :
    (m >>= f).Keeps C Q' := by
  constructor
  · intro s c s' log hr
    rcases bind_eq_some hr with ⟨c', s₁, hstop, heq⟩ | ⟨a, s₁, log₁, log₂, hok, hrest, rfl⟩
    · obtain ⟨⟩ := heq
      exact hm.halts hstop
    · obtain ⟨hgoes, ha⟩ := hm.goes hok
      exact C.halt hgoes ((hf a log₁ ha).halts hrest)
  · intro s b s' log hr
    rcases bind_eq_some hr with ⟨c', s₁, -, heq⟩ | ⟨a, s₁, log₁, log₂, hok, hrest, rfl⟩
    · cases (Prod.mk.inj heq).1
    · obtain ⟨hgoes, ha⟩ := hm.goes hok
      obtain ⟨hmore, hb⟩ := (hf a log₁ ha).goes hrest
      exact ⟨C.append hgoes hmore, hb⟩

theorem Keeps.imp {m : Run σ α} {Q Q' : α → List (Event σ) → Prop} (hm : m.Keeps C Q)
    (h : ∀ a log, Q a log → Q' a log) : m.Keeps C Q' := by
  refine ⟨hm.halts, fun hr => ?_⟩
  obtain ⟨hgoes, ha⟩ := hm.goes hr
  exact ⟨hgoes, h _ _ ha⟩

/-- The answer of a run is worked out further. -/
theorem Keeps.map {m : Run σ α} {Q : α → List (Event σ) → Prop} (hm : m.Keeps C Q) (f : α → β)
    {P : β → List (Event σ) → Prop} (h : ∀ a log, Q a log → P (f a) log) :
    (m >>= fun a => pure (f a)).Keeps C P := by
  refine hm.bind fun a log ha => done_keeps ?_
  rw [List.append_nil]
  exact h a log ha

theorem Keeps.within {C : Contract t} {m : Run σ α} {Q : α → List (Event σ) → Prop}
    (hm : m.Keeps C.toCourse Q) (isBlock : Bool) : (m.within isBlock).Keeps C.toCourse Q := by
  constructor
  · intro s c s' log hr
    rcases within_eq_some hr with ⟨-, hr⟩ | ⟨-, s₁, hinner, rfl⟩
    · exact hm.halts hr
    · exact C.haltBlock (hm.halts hinner)
  · intro s a s' log hr
    rcases within_eq_some hr with ⟨-, hr⟩ | ⟨-, s₁, hinner, rfl⟩
    · exact hm.goes hr
    · obtain ⟨hgoes, ha⟩ := hm.goes hinner
      exact ⟨C.block hgoes, ha⟩

/-! ### The parts of a node -/

section Parts

variable {expand : Node → Run σ (Option Node)}

theorem list_keeps (h : ∀ n, (expand n).Keeps C (K n false)) (ns : List Node) :
    (list expand ns).Keeps C (K.Members ns) := by
  induction ns with
  | nil => exact done_keeps .nil
  | cons n ns ih =>
      refine (h n).bind fun expanded log hn => ?_
      exact ih.map _ fun rest more hrest => .cons hn hrest

theorem target_keeps (h : ∀ n, (expand n).Keeps C (K n false)) (node : Node) :
    (target expand node).Keeps C (K.Aimed node) := by
  unfold target
  cases htarget : node.target? with
  | none => exact done_keeps (.kept (by simp [htarget]))
  | some n =>
      dsimp only
      cases hsimple : node.hasSimpleHead with
      | true => exact done_keeps (.kept fun _ _ => hsimple)
      | false => exact (h n).imp fun r log hn => .expanded htarget hsimple hn

theorem parts_keeps (h : ∀ n, (expand n).Keeps C (K n false)) (node : Node) (cell : Cell) :
    (parts expand node cell).Keeps C (K.Rebuilt node cell) := by
  refine (list_keeps h node.attrs).bind fun attrs log₁ hattrs => ?_
  refine (target_keeps h node).bind fun newTarget log₂ htarget => ?_
  exact (list_keeps h node.args).map _ fun args log₃ hargs => .parts hattrs htarget hargs

theorem children_keeps (h : ∀ n, (expand n).Keeps C (K n false)) {chain : Chain} {budget : Nat}
    {node : Node} (hopened : budget ≠ 0 → ∀ s, C.Goes s [⟨chain, budget, .opened node⟩] s.opening) :
    (children chain budget expand node).Keeps C (K.Opened chain budget node) := by
  unfold children
  split
  · rename_i hzero
    exact done_keeps (.unpaid hzero)
  · rename_i hpos
    refine (openNode_keeps (hopened hpos)).bind fun cell log hlog => ?_
    subst hlog
    exact (parts_keeps h node cell).imp fun r more hmore => .paid hpos cell hmore

end Parts

/-! ### Turns -/

section Turns

variable {chain : Chain} {budget : Nat} {node : Node} {kids : Run σ (Option Node)} {p : Prepared}
  {log : List (Event σ)}

/-- A macro that has its turn can be paid for, whatever it accepts: one that would cost two is
passed over if the budget is one. -/
theorem cost_le_of_payable {e : Entry σ} (hpos : budget ≠ 0) (hturn : e.payable budget = true) :
    e.mode.cost ≤ budget := by
  unfold Mode.cost
  split
  · rename_i hbefore
    have : budget ≠ 1 := by simpa [Entry.payable, hbefore] using hturn
    omega
  · omega

/-- What one turn of a tier can do: the macro is given nothing, it asks for the expansion to stop,
or the next one has its turn. -/
theorem tier_cons_cases {e : Entry σ} {es : List (Entry σ)} {attempts : List (Attempt σ)}
    {s s' : State σ} {r : Except Cancelled (List (Attempt σ) × Prepared)}
    (hturn : e.payable budget = true)
    (h : tier chain budget (Run.prepare kids node) node (e :: es) attempts p s =
      some ((r, s'), log)) :
    (∃ c, Run.input (Run.prepare kids node) node e p s = some ((.error c, s'), log) ∧
      r = .error c) ∨
    ∃ ready s₁ log₁ log₂, ∃ u : Turn σ,
      Run.input (Run.prepare kids node) node e p s = some ((.ok ready, s₁), log₁) ∧
      u = ⟨e, node, ready.2, s₁.shared, s₁.scopes⟩ ∧
      log = log₁ ++ ⟨chain, budget, .invoked e ready.2 s₁⟩ :: log₂ ∧
      ((u.reply.outcome = .cancelled ∧ r = .error .cancelled ∧ log₂ = [] ∧
          s' = (s₁.after u.reply).writeAll (cancelMessage e node ::
            report s₁.sink.enabled (u.attempt :: attempts).reverse node (some .error))) ∨
        (u.reply.outcome ≠ .cancelled ∧
          tier chain budget (Run.prepare kids node) node es (u.attempt :: attempts) ready.1
            (s₁.after u.reply) = some ((r, s'), log₂))) := by
  rw [tier, if_neg (Bool.eq_false_iff.1 ((Bool.not_eq_true' _).mp hturn))] at h
  rcases bind_eq_some h with ⟨c, s₁, hstop, heq⟩ | ⟨ready, s₁, log₁, rest, hready, hinvoked, rfl⟩
  · obtain ⟨rfl, rfl⟩ := Prod.mk.inj heq
    exact .inl ⟨c, hstop, rfl⟩
  rcases bind_eq_some hinvoked with ⟨c, s₂, hinvoke, -⟩ |
    ⟨reply, s₂, log₂, log₃, hinvoke, hafter, rfl⟩
  · cases hinvoke
  obtain ⟨⟩ := hinvoke
  refine .inr ⟨ready, s₁, log₁, log₃, ⟨e, node, ready.2, s₁.shared, s₁.scopes⟩, hready, rfl, rfl, ?_⟩
  unfold Turn.attempt Turn.reply
  dsimp only at hafter ⊢
  generalize e.callable.run s₁.shared ready.2 s₁.scopes = reply at hafter ⊢
  cases houtcome : reply.outcome with
  | cancelled =>
      rw [houtcome] at hafter
      rcases bind_eq_some hafter with ⟨c, s₃, htell, -⟩ | ⟨_, s₃, log₄, log₅, htell, hstop, rfl⟩
      · cases htell
      · obtain ⟨⟩ := htell
        obtain ⟨⟩ := hstop
        exact .inl ⟨rfl, rfl, rfl, rfl⟩
  | accepted | declined | failed | crashed =>
      rw [houtcome] at hafter
      exact .inr ⟨by simp, hafter⟩

/-- Before its turn a macro is given the node that it wants.  For this the children are expanded,
unless they have been before. -/
theorem input_keeps {Q : Option Node → List (Event σ) → Prop} (hkids : kids.Keeps C Q) (e : Entry σ)
    (p : Prepared) :
    (Run.input (Run.prepare kids node) node e p).Keeps C fun ready more =>
      (ready.1 = p ∧ more = [] ∨ p = .notYet ∧
        ∃ expanded, ready.1 = expanded.elim .unchanged .changed ∧ Q expanded more) ∧
      ready.2 = if e.mode.childrenBefore then ready.1.get node else node := by
  unfold Run.input
  split
  · cases p with
    | unchanged | changed => exact done_keeps ⟨.inl ⟨rfl, rfl⟩, rfl⟩
    | notYet =>
        refine hkids.bind fun expanded more hmore => ?_
        cases expanded with
        | none =>
            refine done_keeps ⟨.inr ⟨rfl, none, rfl, ?_⟩, rfl⟩
            rw [List.append_nil]
            exact hmore
        | some n =>
            refine done_keeps ⟨.inr ⟨rfl, some n, rfl, ?_⟩, rfl⟩
            rw [List.append_nil]
            exact hmore
  · exact done_keeps ⟨.inl ⟨rfl, rfl⟩, rfl⟩

/-- With the turns so far. -/
theorem input_asked (hkids : kids.Keeps C (K.Opened chain budget node)) {us : List (Turn σ)}
    (hp : K.Asked chain budget node us p log) (e : Entry σ) :
    (Run.input (Run.prepare kids node) node e p).Keeps C fun ready more =>
      K.Asked chain budget node us ready.1 (log ++ more) ∧
        ready.2 = if e.mode.childrenBefore then ready.1.get node else node := by
  refine (input_keeps hkids e p).imp ?_
  rintro ⟨q, input⟩ more ⟨⟨rfl, rfl⟩ | ⟨rfl, expanded, rfl, hmore⟩, hinput⟩
  · rw [List.append_nil]
    exact ⟨hp, hinput⟩
  · exact ⟨hp.prepared hmore, hinput⟩

/-- The macros of a tier that can be paid for have their turns, in order. -/
theorem tier_keeps (hpos : budget ≠ 0) (hheard : C.Heard t chain budget)
    (hkids : kids.Keeps C (K.Opened chain budget node)) {es : List (Entry σ)}
    (hes : ∀ e ∈ es, ∃ scopes, e ∈ t.candidates scopes node) {us : List (Turn σ)}
    (attempts : List (Attempt σ)) (hp : K.Asked chain budget node us p log) :
    (tier chain budget (Run.prepare kids node) node es attempts p).Keeps C fun turn more =>
      ∃ new : List (Turn σ), turn.1 = attempts.reverse ++ new.map Turn.attempt ∧
        new.map (·.entry) = es.filter (·.payable budget) ∧
        K.Asked chain budget node (us ++ new) turn.2 (log ++ more) := by
  induction es generalizing attempts us p log with
  | nil =>
      refine done_keeps ⟨[], by simp, rfl, ?_⟩
      rw [List.append_nil, List.append_nil]
      exact hp
  | cons e es ih =>
      have hothers : ∀ e' ∈ es, ∃ scopes, e' ∈ t.candidates scopes node :=
        fun e' he' => hes e' (List.mem_cons_of_mem e he')
      cases hturn : e.payable budget with
      | false =>
          rw [tier, if_pos ((Bool.not_eq_false' _).mp hturn),
            List.filter_cons_of_neg (by simp [hturn])]
          exact ih hothers attempts hp
      | true =>
          have hinput := input_asked hkids hp e
          have hoffers : ∀ {input prepared},
              input = (if e.mode.childrenBefore then prepared else node) → t.Offers e input := by
            intro input prepared hinput
            obtain ⟨scopes, he⟩ := hes e (by simp)
            refine ⟨scopes, node, he, fun hdirect => ?_⟩
            rw [hinput, hdirect]
            rfl
          have hcost := cost_le_of_payable hpos hturn
          constructor
          · intro s c s' more hr
            rcases tier_cons_cases hturn hr with ⟨c', hstop, -⟩ |
              ⟨ready, s₁, log₁, log₂, u, hready, rfl, rfl, hcases⟩
            · exact hinput.halts hstop
            obtain ⟨hgoes, hasked, hgiven⟩ := hinput.goes hready
            rcases hcases with ⟨hcancelled, -, rfl, rfl⟩ | ⟨hgo, hrest⟩
            · exact C.halt hgoes (hheard.halts (hoffers hgiven) hcost s₁ node _ hcancelled)
            · refine C.halt hgoes ?_
              rw [← List.singleton_append]
              exact C.halt (hheard.goes (hoffers hgiven) hcost s₁ hgo)
                ((ih hothers _ (hasked.turn s₁ hgiven hgo)).halts hrest)
          · intro s turn s' more hr
            rcases tier_cons_cases hturn hr with ⟨c', -, heq⟩ |
              ⟨ready, s₁, log₁, log₂, u, hready, rfl, rfl, ⟨-, heq, -⟩ | ⟨hgo, hrest⟩⟩
            · cases heq
            · cases heq
            obtain ⟨hgoes, hasked, hgiven⟩ := hinput.goes hready
            obtain ⟨hmore, new, hattempts, hentries, hlast⟩ :=
              (ih hothers _ (hasked.turn s₁ hgiven hgo)).goes hrest
            refine ⟨?_, ⟨e, node, ready.2, s₁.shared, s₁.scopes⟩ :: new, ?_, ?_, ?_⟩
            · rw [← List.singleton_append]
              exact C.append hgoes (C.append (hheard.goes (hoffers hgiven) hcost s₁ hgo) hmore)
            · simpa using hattempts
            · rw [List.filter_cons_of_pos hturn, List.map_cons, hentries]
            · simpa using hlast

/-- What is known once the macros of some tiers have been asked: all of them have passed, or one of
them has accepted. -/
def Ruling.Known (K : Knowledge σ) (chain : Chain) (budget : Nat) (node : Node)
    (us : List (Turn σ)) (entries : List (Entry σ)) (log : List (Event σ)) : Ruling Prepared → Prop
  | .unclaimed p => ∃ new : List (Turn σ), K.Asked chain budget node (us ++ new) p log ∧
      new.map (·.entry) = entries.filter (·.payable budget) ∧ ∀ u ∈ new, u.output? = none
  | .claimed output mode => ∃ new : List (Turn σ), ∃ p u,
      K.Asked chain budget node (us ++ new) p log ∧ u ∈ new ∧ u.entry ∈ entries ∧
      u.entry.payable budget = true ∧ u.output? = some output ∧ u.entry.mode = mode

theorem consult_keeps (hpos : budget ≠ 0) (hheard : C.Heard t chain budget)
    (htell : ∀ s ms, C.Goes s [] (s.writeAll ms))
    (hkids : kids.Keeps C (K.Opened chain budget node)) {tiers : List (List (Entry σ))}
    (htiers : ∀ es ∈ tiers, ∀ e ∈ es, ∃ scopes, e ∈ t.candidates scopes node)
    {us : List (Turn σ)} (hp : K.Asked chain budget node us p log) :
    (Run.consult chain budget (Run.prepare kids node) node tiers p).Keeps C fun ruling more =>
      ruling.Known K chain budget node us tiers.flatten (log ++ more) := by
  induction tiers generalizing us p log with
  | nil =>
      refine done_keeps ⟨[], ?_, rfl, by simp⟩
      rw [List.append_nil, List.append_nil]
      exact hp
  | cons es tiers ih =>
      have hbelow : ∀ es' ∈ tiers, ∀ e ∈ es', ∃ scopes, e ∈ t.candidates scopes node :=
        fun es' hes' => htiers es' (List.mem_cons_of_mem es hes')
      refine (tier_keeps hpos hheard hkids (htiers es (by simp)) [] hp).bind
        fun turn more hturn => ?_
      obtain ⟨new, hattempts, hentries, hasked⟩ := hturn
      rw [List.reverse_nil, List.nil_append] at hattempts
      refine (tell_keeps fun s => htell s _).bind fun _ told htold => ?_
      subst htold
      rw [hattempts]
      cases haccepted : firstAccepted? (new.map Turn.attempt) with
      | some accepted =>
          obtain ⟨u, hfirst, hmode⟩ := firstAccepted?_eq_some haccepted
          have hmem := List.mem_map_of_mem (f := (·.entry)) hfirst.mem
          rw [hentries, List.mem_filter] at hmem
          have haccepts := hfirst.accepts
          refine done_keeps ⟨new, turn.2, u, ?_, hfirst.mem, ?_, hmem.2, haccepts, hmode⟩
          · simpa using hasked
          · exact List.mem_append_left _ hmem.1
      | none =>
          have hpassed := firstAccepted?_eq_none haccepted
          refine (ih hbelow hasked).imp fun ruling rest hruling => ?_
          rw [List.nil_append, ← List.append_assoc]
          cases ruling with
          | unclaimed q =>
              obtain ⟨others, hlast, hothers, hothersPassed⟩ := hruling
              refine ⟨new ++ others, ?_, ?_, List.forall_mem_append.2 ⟨hpassed, hothersPassed⟩⟩
              · simpa using hlast
              · rw [List.map_append, hentries, hothers, List.flatten_cons, List.filter_append]
          | claimed output mode =>
              obtain ⟨others, q, u, hlast, hu, hentry, hpayable, haccepts, hmode⟩ := hruling
              refine ⟨new ++ others, q, u, ?_, List.mem_append_right _ hu,
                List.mem_append_right _ hentry, hpayable, haccepts, hmode⟩
              simpa using hlast

end Turns

/-! ### Dispatches -/

section Dispatch

variable {again : Chain → Nat → Node → Bool → Run σ (Option Node)} {chain : Chain} {budget : Nat}
  {node : Node}

/-- What is done with an output, if what it leads to takes the course. -/
theorem reprocess_keeps {output : Node} {mode : Mode}
    (hagain : ∀ n changed, (again (⟨node, budget, some mode⟩ :: chain) (budget - mode.cost) n
      changed).Keeps C (K n changed))
    (hopened : budget - mode.cost ≠ 0 → ∀ s, C.Goes s
      [⟨⟨node, budget, some mode⟩ :: chain, budget - mode.cost, .opened output⟩] s.opening) :
    (reprocess again chain budget node output mode).Keeps C
      (K.GoesOn chain budget node output mode) := by
  unfold reprocess
  dsimp only
  split
  · rename_i hagainst
    obtain ⟨hnormal, hdiffers⟩ : mode.reprocess = .normal ∧ (output == node) = false := by
      simpa using hagainst
    exact (hagain output true).imp fun r log hr => .again hnormal hdiffers hr
  · rename_i hsame
    split
    · rename_i hnever
      exact done_keeps (.never hnever)
    · rename_i hproceeds
      refine (children_keeps (fun n => hagain n false) hopened).map _
        fun expanded log hexpanded => .children hproceeds (fun hnormal => ?_) hexpanded
      simpa [hnormal] using hsame

variable {C : Contract t}

/-- Some way to run dispatches, which keeps the contract and of which the knowledge holds. -/
def AgainKeeps (C : Contract t) (K : Knowledge σ)
    (again : Chain → Nat → Node → Bool → Run σ (Option Node)) : Prop :=
  ∀ chain budget n changed, C.Inherits budget chain →
    (again chain budget n changed).Keeps C.toCourse (K n changed)

theorem ownChildren_keeps (hagain : AgainKeeps C K again) (hchain : C.Inherits budget chain) :
    (ownChildren again chain budget node).Keeps C.toCourse (K.Opened chain budget node) :=
  children_keeps (fun n => hagain _ _ n false (C.inherited.child hchain node))
    fun hpos => C.opened hchain hpos node

theorem mem_of_mem_tiersOf {entries es : List (Entry σ)} {e : Entry σ} (hes : es ∈ tiersOf entries)
    (he : e ∈ es) : e ∈ entries := by
  obtain ⟨p, -, rfl⟩ := exists_priority_of_mem_tiersOf hes
  exact (List.mem_filter.1 he).1

theorem mem_candidates_of_tiersOf (t : Expander σ) (scopes : ScopeStack) (node : Node) :
    ∀ es ∈ tiersOf (t.candidates scopes node), ∀ e ∈ es, ∃ scopes, e ∈ t.candidates scopes node :=
  fun _ hes _ he => ⟨scopes, mem_of_mem_tiersOf hes he⟩

theorem found_keeps (hagain : AgainKeeps C K again) (hchain : C.Inherits budget chain)
    (hpos : budget ≠ 0) (node : Node) (scopes : ScopeStack) (changed : Bool) :
    (found again chain budget node (if changed then some node else none)
      (t.candidates scopes node)).Keeps C.toCourse fun r more =>
        K.Dispatched t chain budget node changed r (⟨chain, budget, .entered node⟩ :: more) := by
  have hchildren : (ownChildren again chain budget node).Keeps C.toCourse
      (K.Opened chain budget node) :=
    ownChildren_keeps hagain hchain
  refine (consult_keeps hpos (C.heard hchain) C.tell hchildren
    (mem_candidates_of_tiersOf t scopes node) .start).bind fun ruling log hruling => ?_
  rw [List.nil_append] at hruling
  cases ruling with
  | claimed output mode =>
      obtain ⟨us, p, u, hasked, hu, hentry, hpayable, haccepts, rfl⟩ := hruling
      have hcost := cost_le_of_payable hpos hpayable
      obtain ⟨es, hes, he⟩ := List.mem_flatten.1 hentry
      refine (note_keeps (C.rewrote hchain hcost output)).bind fun _ noted hnoted => ?_
      subst hnoted
      have hlonger := C.inherited.output hchain node hcost
      have hgoesOn := reprocess_keeps (fun n changed => hagain _ _ n changed hlonger)
        fun hleft => C.opened hlonger hleft output
      exact hgoesOn.imp fun r more hmore =>
        .claimed scopes hpos hasked hu (mem_of_mem_tiersOf hes he) haccepts hmore
  | unclaimed p =>
      obtain ⟨us, hasked, hentries, hpassed⟩ := hruling
      cases p with
      | changed prepared =>
          have hknown : K.Dispatched t chain budget node changed
              (some prepared <|> if changed then some node else none) _ :=
            .unclaimed scopes hpos hasked hentries hpassed
          refine done_keeps ?_
          rw [List.append_nil]
          exact hknown
      | unchanged =>
          have hknown : K.Dispatched t chain budget node changed
              (none <|> if changed then some node else none) _ :=
            .unclaimed scopes hpos hasked hentries hpassed
          refine done_keeps ?_
          rw [List.append_nil]
          exact hknown
      | notYet =>
          exact hchildren.map _ fun expanded more hmore =>
            .unclaimed scopes hpos (hasked.prepared hmore) hentries hpassed

/-- **One dispatch keeps what those that it leads to keep.** -/
theorem dispatch_keeps (hagain : AgainKeeps C K again) (hchain : C.Inherits budget chain)
    (changed : Bool) :
    (dispatch again t chain budget node changed).Keeps C.toCourse
      (K.Dispatched t chain budget node changed) := by
  have hentered : ∀ {s s' : State σ} {more : List (Event σ)}, C.Goes s.tick more s' →
      C.Goes s (⟨chain, budget, .entered node⟩ :: more) s' :=
    fun hmore => C.append (C.entered hchain node _) (C.append (C.tick _) hmore)
  have hstopped : ∀ {s s' : State σ} {more : List (Event σ)}, C.Halts s.tick more s' →
      C.Halts s (⟨chain, budget, .entered node⟩ :: more) s' :=
    fun hmore => C.halt (C.entered hchain node _) (C.halt (C.tick _) hmore)
  have hunclaimed : budget ≠ 0 → ∀ scopes, t.candidates scopes node = [] →
      (ownChildren again chain budget node >>= fun expanded =>
        pure (expanded <|> if changed then some node else none)).Keeps C.toCourse fun r more =>
          K.Dispatched t chain budget node changed r (⟨chain, budget, .entered node⟩ :: more) := by
    intro hpos scopes hnone
    refine (ownChildren_keeps hagain hchain).map _ fun expanded more hmore =>
      .unclaimed scopes hpos (Knowledge.Asked.start.prepared hmore) ?_ (by simp)
    rw [hnone]
    rfl
  constructor
  · intro s c s' log hr
    obtain ⟨more, rfl, ⟨-, heq, -⟩ | ⟨hpos, hcancelled, heq, rfl⟩ | ⟨hpos, -, hnone, hr⟩ |
      ⟨hpos, -, -, hr⟩⟩ := dispatch_cases hr
    · cases heq
    · obtain ⟨⟩ := heq
      exact C.cancelled hchain hpos node hcancelled
    · exact hstopped ((hunclaimed hpos _ hnone).halts hr)
    · exact hstopped (((found_keeps hagain hchain hpos node s.scopes changed).within _).halts hr)
  · intro s r s' log hr
    obtain ⟨more, rfl, ⟨hzero, heq, rfl⟩ | ⟨-, -, heq, -⟩ | ⟨hpos, -, hnone, hr⟩ |
      ⟨hpos, -, -, hr⟩⟩ := dispatch_cases hr
    · obtain ⟨⟩ := heq
      exact ⟨C.entered hchain node s, .unpaid hzero⟩
    · cases heq
    · obtain ⟨hgoes, hknown⟩ := (hunclaimed hpos _ hnone).goes hr
      exact ⟨hentered hgoes, hknown⟩
    · obtain ⟨hgoes, hknown⟩ :=
        ((found_keeps hagain hchain hpos node s.scopes changed).within _).goes hr
      exact ⟨hentered hgoes, hknown⟩

end Dispatch

end Run

namespace Expander

variable {t : Expander σ}

/-- **Every run keeps its contract, and what is known holds**: by induction on the fuel, from what
one dispatch makes of it. -/
theorem nodeRun_keeps (C : Contract t) {K : Knowledge σ} (hK : K.Closed t) (fuel : Nat) :
    Run.AgainKeeps C K (t.nodeRun fuel) := by
  induction fuel with
  | zero => exact fun _ _ _ _ _ => ⟨nofun, nofun⟩
  | succ fuel ih =>
      intro chain budget n changed hchain
      exact (Run.dispatch_keeps ih hchain changed).imp fun r log hr => hK hr

section Known

variable {K : Knowledge σ} {fuel budget : Nat} {s s' : State σ} {log : List (Event σ)}

/-- What is known of a dispatch that answers. -/
theorem nodeRun_known (hK : K.Closed t) {chain : Chain} {node : Node} {changed : Bool}
    {r : Option Node} (h : t.nodeRun fuel chain budget node changed s = some ((.ok r, s'), log)) :
    K node changed r log :=
  ((nodeRun_keeps (.any t) hK fuel chain budget node changed trivial).goes h).2

/-- What is known of the dispatches in a list. -/
theorem listRun_known (hK : K.Closed t) {nodes : List Node} {r : Option (List Node)}
    (h : t.listRun fuel budget nodes s = some ((.ok r, s'), log)) : K.Members nodes r log := by
  have hnodes := fun n => nodeRun_keeps (.any t) hK fuel [] budget n false trivial
  exact ((Run.list_keeps hnodes nodes).goes h).2

end Known

end Expander

end MacroForest
