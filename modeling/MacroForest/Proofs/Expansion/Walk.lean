/-
**Runs as walks.**

The log of a run says who was invoked, and not what was reported of it.  In a *walk* the reports
have their places among the events.  A walk is inside a dispatch, or outside of all of them.  There
it takes small steps, a turn of a macro or the report of the turns so far, and it *visits*: a
dispatch further down is entered, a walk is made inside, and the first dispatch goes on where it was
left.  A run that is told to stop comes to a *halt* instead, at a macro that asks for it or at a
dispatch at which the token is found cancelled, and leaves all dispatches that are under way.

What runs do is put together from functions, and what is to be shown of them would have to be put
together each time in the same way.  Here it is shown once that every run is a walk.  What holds of
a walk is then shown by induction on it, with a case for each kind of step.

Main definitions:

* `MacroForest.Mark` — an event or a report;
* `MacroForest.Sitting` — a dispatch under way, with the turns that are not reported yet;
* `MacroForest.Walk`, `MacroForest.Halt` — **what a run can do, step by step**;
* `MacroForest.Walk.course`, `MacroForest.Run.Walks` — a computation whose runs are walks;
* `MacroForest.Hearing.Of`, `MacroForest.Consulted` — a tier that has been heard, and what a
  dispatch has heard in all.

Main results:

* `MacroForest.Run.tier_walk`, `MacroForest.Run.consult_walk` — the turns of a tier and of all
  tiers, and their reports;
* `MacroForest.Expander.nodeRun_walks` — **every run is a walk**.
-/

import Mathlib.Data.List.Forall2
import MacroForest.Proofs.Expansion.Order

set_option relaxedAutoImplicit false
set_option autoImplicit false

namespace MacroForest

variable {σ : Type}

/-! ### Marks -/

/-- What happens in a run, its reports included. -/
inductive Mark (σ : Type) where
  /-- An event of the log. -/
  | event (event : Event σ)
  /-- A report, in the dispatch with a chain. -/
  | hearing (chain : Chain) (hearing : Hearing σ)

namespace Mark

/-- The dispatches that lead to a mark. -/
def chain : Mark σ → Chain
  | .event e => e.chain
  | .hearing c _ => c

def event? : Mark σ → Option (Event σ)
  | .event e => some e
  | .hearing .. => none

def hearing? : Mark σ → Option (Hearing σ)
  | .event _ => none
  | .hearing _ h => some h

/-- The hearing of a tier in the dispatch with a chain, if the tier has come to its end. -/
def tier? (chain : Chain) : Mark σ → Option (Hearing σ)
  | .event _ => none
  | .hearing c h => if c.length = chain.length ∧ h.stoppedBy.isNone then some h else none

end Mark

/-- The log of a walk. -/
def eventsOf (marks : List (Mark σ)) : List (Event σ) := marks.filterMap Mark.event?

/-- All that is reported. -/
def hearingsOf (marks : List (Mark σ)) : List (Hearing σ) := marks.filterMap Mark.hearing?

/-- The hearings of the tiers that have come to their end, in the dispatch with a chain. -/
def heardTiers (chain : Chain) (marks : List (Mark σ)) : List (Hearing σ) :=
  marks.filterMap (Mark.tier? chain)

section Marks

variable {chain : Chain} {marks more : List (Mark σ)}

@[simp] theorem eventsOf_append : eventsOf (marks ++ more) = eventsOf marks ++ eventsOf more :=
  List.filterMap_append

@[simp] theorem hearingsOf_append :
    hearingsOf (marks ++ more) = hearingsOf marks ++ hearingsOf more := List.filterMap_append

@[simp] theorem heardTiers_append :
    heardTiers chain (marks ++ more) = heardTiers chain marks ++ heardTiers chain more :=
  List.filterMap_append

@[simp] theorem eventsOf_event (event : Event σ) :
    eventsOf (.event event :: marks) = event :: eventsOf marks := rfl

@[simp] theorem hearingsOf_event (event : Event σ) :
    hearingsOf (.event event :: marks) = hearingsOf marks := rfl

@[simp] theorem heardTiers_event (event : Event σ) :
    heardTiers chain (.event event :: marks) = heardTiers chain marks := rfl

theorem mem_eventsOf {event : Event σ} : event ∈ eventsOf marks ↔ .event event ∈ marks := by
  unfold eventsOf
  rw [List.mem_filterMap]
  constructor
  · rintro ⟨mark, hmark, heq⟩
    cases mark with
    | event => cases heq; exact hmark
    | hearing => cases heq
  · intro h
    exact ⟨_, h, rfl⟩

/-- What is further down is no tier of the dispatch. -/
theorem heardTiers_of_deeper
    (h : ∀ c h, .hearing c h ∈ marks → chain.length < c.length) : heardTiers chain marks = [] := by
  refine List.filterMap_eq_nil_iff.2 fun mark hmark => ?_
  cases mark with
  | event => rfl
  | hearing c hearing =>
      have hdeeper := h c hearing hmark
      exact if_neg fun heq => absurd heq.1 (Nat.ne_of_gt hdeeper)

end Marks

/-! ### Walks and halts -/

/-- A dispatch under way. -/
structure Sitting (σ : Type) where
  /-- The dispatches that led to it. -/
  chain : Chain
  /-- Its budget. -/
  budget : Nat
  /-- The node that is dispatched. -/
  node : Node
  /-- The turns that are not reported yet. -/
  turns : List (Turn σ)

namespace Sitting

/-- The turn that a macro has now. -/
def turn (f : Sitting σ) (e : Entry σ) (input : Node) (s : State σ) : Turn σ :=
  ⟨e, f.node, input, s.shared, s.scopes⟩

/-- One more turn has to be reported. -/
def add (f : Sitting σ) (u : Turn σ) : Sitting σ := { f with turns := f.turns ++ [u] }

/-- All turns are reported. -/
def clear (f : Sitting σ) : Sitting σ := { f with turns := [] }

end Sitting

/-- All dispatches under way are further up than a chain. -/
def Above (x : Option (Sitting σ)) (chain : Chain) : Prop :=
  ∀ f, x = some f → f.chain.length < chain.length

/-- What a run can do that is not told to stop: from a dispatch under way, if any, and a state, it
makes its marks and comes to another state, with other turns to report. -/
inductive Walk (t : Expander σ) :
    Option (Sitting σ) → State σ → List (Mark σ) → Option (Sitting σ) → State σ → Prop
  | nil (x : Option (Sitting σ)) (s : State σ) : Walk t x s [] x s
  | append {x y z : Option (Sitting σ)} {s s₁ s₂ : State σ} {marks more : List (Mark σ)} :
      Walk t x s marks y s₁ → Walk t y s₁ more z s₂ → Walk t x s (marks ++ more) z s₂
  | push (x : Option (Sitting σ)) (s : State σ) :
      Walk t x s [] x { s with scopes := s.scopes.push }
  | pop (x : Option (Sitting σ)) (s : State σ) : Walk t x s [] x { s with scopes := s.scopes.pop }
  /-- Children are expanded, in the dispatch or of its output. -/
  | opened (x : Option (Sitting σ)) (s : State σ) (chain : Chain) (budget : Nat) (node : Node)
      (inside : ∀ f, x = some f → f.chain.length ≤ chain.length) :
      Walk t x s [.event ⟨chain, budget, .opened node⟩] x s.opening
  | rewrote (f : Sitting σ) (s : State σ) (output : Node) (mode : Mode) :
      Walk t (some f) s [.event ⟨f.chain, f.budget, .rewrote output mode⟩] (some f) s
  /-- A macro has its turn. -/
  | ask (f : Sitting σ) (e : Entry σ) (input : Node) (s : State σ)
      (heard : (f.turn e input s).reply.outcome ≠ .cancelled) :
      Walk t (some f) s [.event ⟨f.chain, f.budget, .invoked e input s⟩]
        (some (f.add (f.turn e input s))) (s.after (f.turn e input s).reply)
  /-- The turns so far are reported. -/
  | hear (f : Sitting σ) (s : State σ) :
      Walk t (some f) s [.hearing f.chain ⟨f.node, f.turns, none⟩] (some f.clear)
        (s.writeAll (Hearing.told s.sink.enabled ⟨f.node, f.turns, none⟩))
  /-- A node is dispatched without budget. -/
  | pass (x : Option (Sitting σ)) (s : State σ) (chain : Chain) (node : Node)
      (above : Above x chain) : Walk t x s [.event ⟨chain, 0, .entered node⟩] x s
  /-- A node is dispatched, and the dispatch comes to its end. -/
  | visit {x : Option (Sitting σ)} {s s' : State σ} {chain : Chain} {budget : Nat} {node : Node}
      {marks : List (Mark σ)} (above : Above x chain) (paid : budget ≠ 0)
      (going : t.token.isCancelled s.now = false)
      (inside : Walk t (some ⟨chain, budget, node, []⟩) s.tick marks
        (some ⟨chain, budget, node, []⟩) s') :
      Walk t x s (.event ⟨chain, budget, .entered node⟩ :: marks) x s'

/-- What a run can do that is told to stop. -/
inductive Halt (t : Expander σ) :
    Option (Sitting σ) → State σ → List (Mark σ) → State σ → Prop
  | after {x y : Option (Sitting σ)} {s s₁ s₂ : State σ} {marks more : List (Mark σ)} :
      Walk t x s marks y s₁ → Halt t y s₁ more s₂ → Halt t x s (marks ++ more) s₂
  | pop {x : Option (Sitting σ)} {s s' : State σ} {marks : List (Mark σ)} :
      Halt t x s marks s' → Halt t x s marks { s' with scopes := s'.scopes.pop }
  /-- A macro asks to stop.  The turns so far are reported with this one. -/
  | asked (f : Sitting σ) (e : Entry σ) (input : Node) (s : State σ)
      (stops : (f.turn e input s).reply.outcome = .cancelled) :
      Halt t (some f) s
        [.event ⟨f.chain, f.budget, .invoked e input s⟩,
          .hearing f.chain ⟨f.node, f.turns ++ [f.turn e input s], some e⟩]
        ((s.after (f.turn e input s).reply).writeAll
          (Hearing.told s.sink.enabled ⟨f.node, f.turns ++ [f.turn e input s], some e⟩))
  /-- The token is found cancelled when a node is dispatched. -/
  | found (x : Option (Sitting σ)) (s : State σ) (chain : Chain) {budget : Nat} (node : Node)
      (above : Above x chain) (paid : budget ≠ 0) (cancelled : t.token.isCancelled s.now = true) :
      Halt t x s [.event ⟨chain, budget, .entered node⟩] s
  /-- A dispatch further down comes to a halt. -/
  | inside {x : Option (Sitting σ)} {s s' : State σ} {chain : Chain} {budget : Nat} {node : Node}
      {marks : List (Mark σ)} (above : Above x chain) (paid : budget ≠ 0)
      (going : t.token.isCancelled s.now = false)
      (halt : Halt t (some ⟨chain, budget, node, []⟩) s.tick marks s') :
      Halt t x s (.event ⟨chain, budget, .entered node⟩ :: marks) s'

section Depth

variable {t : Expander σ} {x y : Option (Sitting σ)} {s s' : State σ} {marks : List (Mark σ)}

/-- A walk comes back to the dispatch that it is inside. -/
theorem Walk.sitting (h : Walk t x s marks y s') : y.map Sitting.clear = x.map Sitting.clear := by
  induction h with
  | nil | push | pop | opened | rewrote | ask | hear | pass | visit => rfl
  | append _ _ ih ih' => exact ih'.trans ih

theorem Walk.exists_sitting (h : Walk t x s marks y s') {f : Sitting σ} (hf : x = some f) :
    ∃ us, y = some { f with turns := us } := by
  obtain ⟨chain, budget, node, us⟩ := f
  have hsitting := h.sitting
  rw [hf] at hsitting
  obtain ⟨⟨chain', budget', node', us'⟩, hy, heq⟩ := Option.map_eq_some_iff.1 hsitting
  obtain ⟨rfl, rfl, rfl, -⟩ := Sitting.mk.inj heq
  exact ⟨us', hy⟩

/-- What is done in a dispatch has its chain or a longer one. -/
theorem Walk.inside (h : Walk t x s marks y s') :
    ∀ f, x = some f → ∀ mark ∈ marks, f.chain.length ≤ mark.chain.length := by
  induction h with
  | nil | push | pop =>
      intro f hf
      exact List.forall_mem_nil _
  | append hfirst _ ih ih' =>
      intro f hf
      obtain ⟨us, hy⟩ := hfirst.exists_sitting hf
      have hmore := ih' _ hy
      exact List.forall_mem_append.2 ⟨ih f hf, hmore⟩
  | opened x s chain budget node hinside =>
      intro f hf
      exact List.forall_mem_singleton.2 (hinside f hf)
  | rewrote | ask | hear =>
      rintro g ⟨⟩
      exact List.forall_mem_singleton.2 (Nat.le_refl _)
  | pass x s chain node habove =>
      intro f hf
      exact List.forall_mem_singleton.2 (Nat.le_of_lt (habove f hf))
  | visit habove _ _ _ ih =>
      intro f hf
      have hlt := habove f hf
      refine List.forall_mem_cons.2 ⟨Nat.le_of_lt hlt, fun mark hmark => ?_⟩
      exact Nat.le_trans (Nat.le_of_lt hlt) (ih _ rfl mark hmark)

/-- What is done in a dispatch further down has no turns and no tiers of this one. -/
theorem own_of_inside {f : Sitting σ} {chain : Chain} (habove : f.chain.length < chain.length)
    (budget : Nat) (node : Node) {marks : List (Mark σ)}
    (hmarks : ∀ mark ∈ marks, chain.length ≤ mark.chain.length) :
    ownTurns f.chain f.node (eventsOf (.event ⟨chain, budget, .entered node⟩ :: marks)) = [] ∧
      heardTiers f.chain (.event ⟨chain, budget, .entered node⟩ :: marks) = [] := by
  have hdeeper : ∀ mark ∈ marks, f.chain.length < mark.chain.length :=
    fun mark hmark => Nat.lt_of_lt_of_le habove (hmarks mark hmark)
  constructor
  · refine ownTurns_of_deeper (List.forall_mem_cons.2 ⟨habove, fun event hevent => ?_⟩)
    exact hdeeper _ (mem_eventsOf.1 hevent)
  · rw [heardTiers_event]
    exact heardTiers_of_deeper fun c h hmem => hdeeper (.hearing c h) hmem

theorem Halt.inside_chain (h : Halt t x s marks s') :
    ∀ f, x = some f → ∀ mark ∈ marks, f.chain.length ≤ mark.chain.length := by
  induction h with
  | after hwalk _ ih =>
      intro f hf
      obtain ⟨us, hy⟩ := hwalk.exists_sitting hf
      have hmore := ih _ hy
      exact List.forall_mem_append.2 ⟨hwalk.inside f hf, hmore⟩
  | pop _ ih => exact ih
  | asked f e input s =>
      rintro g ⟨⟩
      simp [Mark.chain]
  | found x s chain node habove =>
      intro f hf
      exact List.forall_mem_singleton.2 (Nat.le_of_lt (habove f hf))
  | inside habove _ _ _ ih =>
      intro f hf
      have hlt := habove f hf
      refine List.forall_mem_cons.2 ⟨Nat.le_of_lt hlt, fun mark hmark => ?_⟩
      exact Nat.le_trans (Nat.le_of_lt hlt) (ih _ rfl mark hmark)

/-- **The turns of a dispatch are reported or still to be reported**, in their order. -/
theorem Walk.turns (h : Walk t x s marks y s') :
    ∀ f g, x = some f → y = some g → f.turns ++ ownTurns f.chain f.node (eventsOf marks) =
      (heardTiers f.chain marks).flatMap (·.turns) ++ g.turns := by
  induction h with
  | nil | push | pop =>
      intro f g hf hg
      obtain rfl := Option.some.inj (hf.symm.trans hg)
      exact List.append_nil _
  | append hfirst _ ih ih' =>
      intro f h hf hh
      obtain ⟨us, hg⟩ := hfirst.exists_sitting hf
      have hfirst := ih f _ hf hg
      have hsecond := ih' _ h hg hh
      rw [eventsOf_append, ownTurns_append, ← List.append_assoc, hfirst, List.append_assoc,
        hsecond, heardTiers_append, List.flatMap_append, List.append_assoc]
  | opened x s chain budget node _ =>
      intro f g hf hg
      obtain rfl := Option.some.inj (hf.symm.trans hg)
      have hnone : ownTurns f.chain f.node
          (eventsOf [.event (⟨chain, budget, .opened node⟩ : Event σ)]) = [] := by
        refine List.filterMap_eq_nil_iff.2 fun event hevent => ?_
        obtain rfl := List.mem_singleton.1 (List.mem_filter.1 hevent).1
        rfl
      rw [hnone]
      exact List.append_nil _
  | rewrote f s output mode =>
      rintro g h ⟨⟩ ⟨⟩
      rw [eventsOf_event, ownTurns_cons]
      exact List.append_nil _
  | ask f e input s =>
      rintro g h ⟨⟩ ⟨⟩
      rw [eventsOf_event, ownTurns_cons]
      rfl
  | hear f s =>
      rintro g h ⟨⟩ ⟨⟩
      have hheard : heardTiers f.chain [.hearing f.chain (⟨f.node, f.turns, none⟩ : Hearing σ)] =
          [⟨f.node, f.turns, none⟩] := by simp [heardTiers, Mark.tier?]
      rw [hheard, List.flatMap_singleton]
      rfl
  | pass x s chain node habove =>
      intro f g hf hg
      obtain rfl := Option.some.inj (hf.symm.trans hg)
      have hnone : ownTurns f.chain f.node
          (eventsOf [.event (⟨chain, 0, .entered node⟩ : Event σ)]) = [] :=
        ownTurns_of_deeper (List.forall_mem_singleton.2 (habove f hf))
      rw [hnone]
      exact List.append_nil _
  | @visit x s s' chain budget node marks habove _ _ hwalk _ =>
      intro f g hf hg
      obtain rfl := Option.some.inj (hf.symm.trans hg)
      obtain ⟨hevents, hheard⟩ := own_of_inside (habove f hf) budget node (hwalk.inside _ rfl)
      rw [hevents, hheard]
      exact List.append_nil _

/-- If a dispatch halts, some turns may never be reported. -/
theorem Halt.turns (h : Halt t x s marks s') :
    ∀ f, x = some f → ∃ unheard, f.turns ++ ownTurns f.chain f.node (eventsOf marks) =
      (heardTiers f.chain marks).flatMap (·.turns) ++ unheard := by
  induction h with
  | after hwalk _ ih =>
      intro f hf
      obtain ⟨us, hg⟩ := hwalk.exists_sitting hf
      have hfirst := hwalk.turns f _ hf hg
      obtain ⟨unheard, hsecond⟩ := ih _ hg
      refine ⟨unheard, ?_⟩
      rw [eventsOf_append, ownTurns_append, ← List.append_assoc, hfirst, List.append_assoc,
        hsecond, heardTiers_append, List.flatMap_append, List.append_assoc]
  | pop _ ih => exact ih
  | asked f e input s =>
      rintro g ⟨⟩
      refine ⟨f.turns ++ [f.turn e input s], ?_⟩
      have hheard : heardTiers f.chain [.event ⟨f.chain, f.budget, .invoked e input s⟩,
          .hearing f.chain ⟨f.node, f.turns ++ [f.turn e input s], some e⟩] = [] := by
        simp [heardTiers, Mark.tier?]
      rw [hheard, eventsOf_event, ownTurns_cons]
      rfl
  | found x s chain node habove =>
      intro f hf
      refine ⟨f.turns, ?_⟩
      obtain ⟨hevents, hheard⟩ := own_of_inside (habove f hf) _ node (List.forall_mem_nil _)
      rw [hevents, hheard]
      exact List.append_nil _
  | inside habove _ _ hhalt _ =>
      intro f hf
      refine ⟨f.turns, ?_⟩
      obtain ⟨hevents, hheard⟩ := own_of_inside (habove f hf) _ _ (hhalt.inside_chain _ rfl)
      rw [hevents, hheard]
      exact List.append_nil _

end Depth

/-! ### Tiers that have come to their end -/

/-- The hearing of a tier: all its macros that can be paid for have had a turn on the node, in
order, and none has asked to stop. -/
structure Hearing.Of (budget : Nat) (node : Node) (es : List (Entry σ)) (h : Hearing σ) : Prop where
  about : h.node = node
  stoppedBy : h.stoppedBy = none
  entries : h.turns.map (·.entry) = es.filter (·.payable budget)
  turns : ∀ u ∈ h.turns, u.node = node ∧ u.reply.outcome ≠ .cancelled

/-- Nobody has accepted. -/
def Hearing.Declined (h : Hearing σ) : Prop := ∀ u ∈ h.turns, u.output? = none

/-- The tiers that have come to their end in a dispatch are the first ones, and the rest is left. -/
def Upto (budget : Nat) (node : Node) (tiers rest : List (List (Entry σ)))
    (hs : List (Hearing σ)) : Prop :=
  ∃ asked, tiers = asked ++ rest ∧ List.Forall₂ (Hearing.Of budget node) asked hs

theorem exists_of_heard {budget : Nat} {node : Node} {asked : List (List (Entry σ))}
    {hs : List (Hearing σ)} (h : List.Forall₂ (Hearing.Of budget node) asked hs) {hearing : Hearing σ}
    (hmem : hearing ∈ hs) : ∃ es ∈ asked, hearing.Of budget node es := by
  induction h with
  | nil => cases hmem
  | @cons es _ asked _ hof _ ih =>
      rcases List.mem_cons.1 hmem with rfl | hmem
      · exact ⟨es, List.mem_cons_self, hof⟩
      · obtain ⟨es', hes', hof'⟩ := ih hmem
        exact ⟨es', List.mem_cons_of_mem _ hes', hof'⟩

/-- What the macros for a node have been asked, when the dispatch has come to a result.  The first
tiers have been heard, in all but the last of these everybody has declined, and the dispatch goes on
with the first output that is accepted.  All turns have been heard, unless the dispatch stops before
it has an output. -/
structure Consulted (chain : Chain) (budget : Nat) (node : Node) (tiers : List (List (Entry σ)))
    (marks : List (Mark σ)) (r : Except Cancelled (Option Node)) : Prop where
  upto : ∃ rest, Upto budget node tiers rest (heardTiers chain marks)
  declined : ∀ above last, heardTiers chain marks = above ++ [last] → ∀ h ∈ above, h.Declined
  outputs : ownOutputs chain (eventsOf marks) =
    (firstAccepted? ((heardTiers chain marks).flatMap (·.attempts))).toList
  turns : ∃ unheard, ownTurns chain node (eventsOf marks) =
      (heardTiers chain marks).flatMap (·.turns) ++ unheard ∧
    (unheard = [] ∨ (∃ c, r = .error c) ∧ ownOutputs chain (eventsOf marks) = [])

theorem firstAccepted?_of_declined {hs : List (Hearing σ)} (h : ∀ h ∈ hs, h.Declined) :
    firstAccepted? (hs.flatMap (·.attempts)) = none := by
  refine List.findSome?_eq_none_iff.2 fun a ha => ?_
  obtain ⟨hearing, hmem, ha⟩ := List.mem_flatMap.1 ha
  obtain ⟨u, hu, rfl⟩ := List.mem_map.1 ha
  exact Option.map_eq_none_iff.2 (h hearing hmem u hu)

theorem firstAccepted?_of_above {above : List (Hearing σ)} (h : ∀ h ∈ above, h.Declined)
    (last : Hearing σ) :
    firstAccepted? ((above ++ [last]).flatMap (·.attempts)) = firstAccepted? last.attempts := by
  have hnone := firstAccepted?_of_declined h
  unfold firstAccepted? at hnone ⊢
  rw [List.flatMap_append, List.findSome?_append, hnone, List.flatMap_singleton]
  rfl

/-- Everybody has declined, and there is no output. -/
theorem Consulted.of_declined {chain : Chain} {budget : Nat} {node : Node}
    {tiers rest : List (List (Entry σ))} {marks : List (Mark σ)} {r : Except Cancelled (Option Node)}
    {hs : List (Hearing σ)} (hheard : heardTiers chain marks = hs)
    (hupto : Upto budget node tiers rest hs) (hdeclined : ∀ h ∈ hs, h.Declined)
    (hnone : ∀ event ∈ eventsOf marks, event.NoOutput chain)
    (hturns : ∃ unheard, ownTurns chain node (eventsOf marks) = hs.flatMap (·.turns) ++ unheard ∧
      (unheard = [] ∨ ∃ c, r = .error c)) :
    Consulted chain budget node tiers marks r := by
  subst hheard
  have houtputs := ownOutputs_of_none hnone
  refine ⟨⟨rest, hupto⟩, fun above last hsplit h hmem => ?_, ?_, ?_⟩
  · exact hdeclined h (by rw [hsplit]; exact List.mem_append_left _ hmem)
  · rw [houtputs, firstAccepted?_of_declined hdeclined]
    rfl
  · obtain ⟨unheard, hturns, hend⟩ := hturns
    exact ⟨unheard, hturns, hend.imp_right fun herror => ⟨herror, houtputs⟩⟩

/-! ### Computations whose runs are walks -/

/-- How a run ends: it answers and has nothing more to report than before, or it halts. -/
def Arrives (t : Expander σ) {α : Type} (x : Option (Sitting σ)) (s : State σ)
    (marks : List (Mark σ)) (r : Except Cancelled α) (s' : State σ) : Prop :=
  (∃ a, r = .ok a ∧ Walk t x s marks x s') ∨ ∃ c, r = .error c ∧ Halt t x s marks s'

theorem Arrives.visit {t : Expander σ} {α : Type} {x : Option (Sitting σ)} {s s' : State σ}
    {chain : Chain} {budget : Nat} {node : Node} {marks : List (Mark σ)} {r : Except Cancelled α}
    (h : Arrives t (some ⟨chain, budget, node, []⟩) s.tick marks r s') (habove : Above x chain)
    (hpos : budget ≠ 0) (hgoing : t.token.isCancelled s.now = false) :
    Arrives t x s (.event ⟨chain, budget, .entered node⟩ :: marks) r s' := by
  rcases h with ⟨a, rfl, hwalk⟩ | ⟨c, rfl, hhalt⟩
  · exact .inl ⟨a, rfl, .visit habove hpos hgoing hwalk⟩
  · exact .inr ⟨c, rfl, .inside habove hpos hgoing hhalt⟩

theorem Arrives.after {t : Expander σ} {α : Type} {x : Option (Sitting σ)} {s s₁ s' : State σ}
    {marks more : List (Mark σ)} {r : Except Cancelled α} (h : Arrives t x s₁ more r s')
    (hwalk : Walk t x s marks x s₁) : Arrives t x s (marks ++ more) r s' := by
  rcases h with ⟨a, rfl, hwalk'⟩ | ⟨c, rfl, hhalt⟩
  · exact .inl ⟨a, rfl, hwalk.append hwalk'⟩
  · exact .inr ⟨c, rfl, .after hwalk hhalt⟩

/-- Inside a block there is a frame of scopes, which is removed in the end. -/
theorem Arrives.block {t : Expander σ} {α : Type} {x : Option (Sitting σ)} {s s' : State σ}
    {marks : List (Mark σ)} {r : Except Cancelled α}
    (h : Arrives t x { s with scopes := s.scopes.push } marks r s') :
    Arrives t x s marks r { s' with scopes := s'.scopes.pop } := by
  rcases h.after (.push x s) with ⟨a, rfl, hwalk⟩ | ⟨c, rfl, hhalt⟩
  · have hpopped := hwalk.append (.pop x s')
    rw [List.append_nil] at hpopped
    exact .inl ⟨a, rfl, hpopped⟩
  · exact .inr ⟨c, rfl, hhalt.pop⟩

theorem Arrives.inside_chain {t : Expander σ} {α : Type} {f : Sitting σ} {s s' : State σ}
    {marks : List (Mark σ)} {r : Except Cancelled α} (h : Arrives t (some f) s marks r s') :
    ∀ mark ∈ marks, f.chain.length ≤ mark.chain.length := by
  rcases h with ⟨a, -, hwalk⟩ | ⟨c, -, hhalt⟩
  · exact hwalk.inside f rfl
  · exact hhalt.inside_chain f rfl

/-- Some events are those of marks, in which all reports have some depth at least. -/
def Marked (depth : Nat) (log : List (Event σ)) (P : List (Mark σ) → Prop) : Prop :=
  ∃ marks, eventsOf marks = log ∧ (∀ c h, .hearing c h ∈ marks → depth ≤ c.length) ∧ P marks

theorem Marked.append {depth : Nat} {log more : List (Event σ)} {P P' Q : List (Mark σ) → Prop}
    (h : Marked depth log P) (h' : Marked depth more P')
    (hQ : ∀ {marks marks'}, P marks → P' marks' → Q (marks ++ marks')) :
    Marked depth (log ++ more) Q := by
  obtain ⟨marks, rfl, hdepth, hmarks⟩ := h
  obtain ⟨marks', rfl, hdepth', hmarks'⟩ := h'
  refine ⟨marks ++ marks', eventsOf_append, fun c h hmem => ?_, hQ hmarks hmarks'⟩
  exact (List.mem_append.1 hmem).elim (hdepth c h) (hdepth' c h)

/-- The course of walks from a dispatch under way back to it. -/
def Walk.course (t : Expander σ) (depth : Nat) (x : Option (Sitting σ)) : Course σ where
  Goes s log s' := Marked depth log fun marks => Walk t x s marks x s'
  Halts s log s' := Marked depth log fun marks => Halt t x s marks s'
  nil s := ⟨[], rfl, by simp, .nil x s⟩
  append h hmore := h.append hmore .append
  halt h hmore := h.append hmore .after

namespace Run

variable {α β : Type} {t : Expander σ} {depth : Nat} {x : Option (Sitting σ)}

/-- The runs are walks from a dispatch under way, in which all reports have some depth at least. -/
def Walks (t : Expander σ) (depth : Nat) (x : Option (Sitting σ)) (m : Run σ α) : Prop :=
  m.Keeps (Walk.course t depth x) fun _ _ => True

theorem Keeps.walks {m : Run σ α} {Q : α → List (Event σ) → Prop}
    (hm : m.Keeps (Walk.course t depth x) Q) : m.Walks t depth x := hm.imp fun _ _ _ => trivial

theorem Walks.arrives {m : Run σ α} (hm : m.Walks t depth x) {s s' : State σ}
    {r : Except Cancelled α} {log : List (Event σ)} (hrun : m s = some ((r, s'), log)) :
    Marked depth log fun marks => Arrives t x s marks r s' := by
  cases r with
  | error c =>
      obtain ⟨marks, hlog, hdepth, hhalt⟩ := hm.halts hrun
      exact ⟨marks, hlog, hdepth, .inr ⟨c, rfl, hhalt⟩⟩
  | ok a =>
      obtain ⟨⟨marks, hlog, hdepth, hwalk⟩, -⟩ := hm.goes hrun
      exact ⟨marks, hlog, hdepth, .inl ⟨a, rfl, hwalk⟩⟩

theorem walks_of_arrives {m : Run σ α} (h : ∀ {s r s' log}, m s = some ((r, s'), log) →
    Marked depth log fun marks => Arrives t x s marks r s') : m.Walks t depth x := by
  constructor
  · intro s c s' log hrun
    obtain ⟨marks, hlog, hdepth, ⟨a, heq, -⟩ | ⟨c', -, hhalt⟩⟩ := h hrun
    · cases heq
    · exact ⟨marks, hlog, hdepth, hhalt⟩
  · intro s a s' log hrun
    obtain ⟨marks, hlog, hdepth, ⟨a', -, hwalk⟩ | ⟨c, heq, -⟩⟩ := h hrun
    · exact ⟨⟨marks, hlog, hdepth, hwalk⟩, trivial⟩
    · cases heq

/-- Children are opened in a dispatch, or further down. -/
theorem opened_goes {chain : Chain} (h : ∀ f, x = some f → f.chain.length ≤ chain.length)
    (budget : Nat) (node : Node) (s : State σ) :
    (Walk.course t depth x).Goes s [⟨chain, budget, .opened node⟩] s.opening :=
  ⟨[.event ⟨chain, budget, .opened node⟩], rfl, by simp, .opened x s chain budget node h⟩

/-! ### Tiers -/

section Tiers

variable {chain : Chain} {budget : Nat} {node : Node} {kids : Run σ (Option Node)}

/-- The children of a node are expanded further down, whatever turns there are to report. -/
def Kids (t : Expander σ) (chain : Chain) (budget : Nat) (node : Node)
    (kids : Run σ (Option Node)) : Prop :=
  ∀ us, kids.Walks t (chain.length + 1) (some ⟨chain, budget, node, us⟩)

/-- How the turns of a tier end.  All its macros that can be paid for have had a turn, in order, and
the turns are added to those that have still to be reported; or the tier has come to a halt. -/
def TierEnds (t : Expander σ) (f : Sitting σ) (es : List (Entry σ)) (s : State σ)
    (marks : List (Mark σ)) (r : Except Cancelled (List (Attempt σ) × Prepared))
    (s' : State σ) : Prop :=
  heardTiers f.chain marks = [] ∧
    ((∃ more p, r = .ok ((f.turns ++ more).map Turn.attempt, p) ∧
      more.map (·.entry) = es.filter (·.payable f.budget) ∧
      (∀ u ∈ more, u.node = f.node ∧ u.reply.outcome ≠ .cancelled) ∧
      Walk t (some f) s marks (some { f with turns := f.turns ++ more }) s') ∨
    ∃ c, r = .error c ∧ Halt t (some f) s marks s')

/-- A macro has had its turn, and then the rest of the tier. -/
theorem TierEnds.turn {f : Sitting σ} {u : Turn σ} {es : List (Entry σ)} {s s₁ s' : State σ}
    {marks later : List (Mark σ)} {r : Except Cancelled (List (Attempt σ) × Prepared)}
    (hwalk : Walk t (some f) s marks (some (f.add u)) s₁) (hnone : heardTiers f.chain marks = [])
    (hnode : u.node = f.node) (hheard : u.reply.outcome ≠ .cancelled)
    (hpayable : u.entry.payable f.budget = true) (h : TierEnds t (f.add u) es s₁ later r s') :
    TierEnds t f (u.entry :: es) s (marks ++ later) r s' := by
  obtain ⟨hlater, hcases⟩ := h
  refine ⟨by rw [heardTiers_append, hnone]; exact hlater, ?_⟩
  rcases hcases with ⟨more, p, rfl, hentries, hmore, hrest⟩ | ⟨c, rfl, hhalt⟩
  · have hadded : (f.add u).turns ++ more = f.turns ++ u :: more := by simp [Sitting.add]
    rw [hadded] at hrest ⊢
    refine .inl ⟨u :: more, p, rfl, ?_, List.forall_mem_cons.2 ⟨⟨hnode, hheard⟩, hmore⟩,
      hwalk.append hrest⟩
    rw [List.map_cons, hentries, List.filter_cons_of_pos hpayable]
    rfl
  · exact .inr ⟨c, rfl, .after hwalk hhalt⟩

/-- **The turns of a tier.** -/
theorem tier_walk (hkids : Kids t chain budget node kids) {es : List (Entry σ)} {p : Prepared}
    (us : List (Turn σ)) {s s' : State σ} {r : Except Cancelled (List (Attempt σ) × Prepared)}
    {log : List (Event σ)}
    (hrun : tier chain budget (Run.prepare kids node) node es (us.map Turn.attempt).reverse p s =
      some ((r, s'), log)) :
    ∃ marks, eventsOf marks = log ∧ TierEnds t ⟨chain, budget, node, us⟩ es s marks r s' := by
  induction es generalizing p us s log with
  | nil =>
      obtain ⟨⟩ := hrun
      refine ⟨[], rfl, rfl, .inl ⟨[], p, by simp, rfl, by simp, ?_⟩⟩
      rw [List.append_nil]
      exact .nil _ _
  | cons e es ih =>
      cases hturn : e.payable budget with
      | false =>
          rw [tier, if_pos ((Bool.not_eq_false' _).mp hturn)] at hrun
          unfold TierEnds
          rw [List.filter_cons_of_neg (by simp [hturn])]
          exact ih us hrun
      | true =>
          rcases tier_cons_cases hturn hrun with ⟨c, hstop, rfl⟩ |
            ⟨ready, s₁, log₁, log₂, u, hready, rfl, rfl, hcases⟩
          · obtain ⟨marks, hlog, hdepth, hhalt⟩ := (input_keeps (hkids us) e p).halts hstop
            exact ⟨marks, hlog, heardTiers_of_deeper hdepth, .inr ⟨c, rfl, hhalt⟩⟩
          obtain ⟨⟨marks, rfl, hdepth, hwalk⟩, -⟩ := (input_keeps (hkids us) e p).goes hready
          have hnone := heardTiers_of_deeper hdepth
          have hadded : ∀ u : Turn σ, u.attempt :: (us.map Turn.attempt).reverse =
              ((us ++ [u]).map Turn.attempt).reverse := by simp
          rw [hadded] at hcases
          rcases hcases with ⟨hcancelled, rfl, rfl, rfl⟩ | ⟨hheard, hrest⟩
          · rw [List.reverse_reverse]
            have hhalt := Halt.asked (t := t) ⟨chain, budget, node, us⟩ e ready.2 s₁ hcancelled
            refine ⟨_, ?_, ?_, .inr ⟨.cancelled, rfl, .after hwalk hhalt⟩⟩
            · rw [eventsOf_append]
              rfl
            · rw [heardTiers_append, hnone]
              simp [heardTiers, Mark.tier?]
          · have hask := hwalk.append (.ask ⟨chain, budget, node, us⟩ e ready.2 s₁ hheard)
            obtain ⟨later, rfl, hlater⟩ := ih _ hrest
            refine ⟨_, ?_, TierEnds.turn hask ?_ rfl hheard hturn hlater⟩
            · simp
            · rw [heardTiers_append, hnone]
              rfl

/-- How the tiers of a dispatch end.  Those that have come to their end are the first ones, and in
all of them but the last everybody has declined.  If somebody accepts in the last one, the first to
do so wins; otherwise all tiers have been asked, or they have come to a halt. -/
def ConsultEnds (t : Expander σ) (f : Sitting σ) (tiers : List (List (Entry σ))) (s : State σ)
    (marks : List (Mark σ)) (r : Except Cancelled (Ruling Prepared)) (s' : State σ) : Prop :=
  (∃ p, r = .ok (.unclaimed p) ∧ Walk t (some f) s marks (some f) s' ∧
    Upto f.budget f.node tiers [] (heardTiers f.chain marks) ∧
    ∀ h ∈ heardTiers f.chain marks, h.Declined) ∨
  (∃ output mode rest above last, r = .ok (.claimed output mode) ∧
    Walk t (some f) s marks (some f) s' ∧
    Upto f.budget f.node tiers rest (heardTiers f.chain marks) ∧
    heardTiers f.chain marks = above ++ [last] ∧ (∀ h ∈ above, h.Declined) ∧
    firstAccepted? last.attempts = some (output, mode)) ∨
  ∃ c rest, r = .error c ∧ Halt t (some f) s marks s' ∧
    Upto f.budget f.node tiers rest (heardTiers f.chain marks) ∧
    ∀ h ∈ heardTiers f.chain marks, h.Declined

/-- A tier in which everybody has declined, and then the others. -/
theorem ConsultEnds.next {f : Sitting σ} {es : List (Entry σ)} {tiers : List (List (Entry σ))}
    {s s₁ s' : State σ} {marks later : List (Mark σ)} {r : Except Cancelled (Ruling Prepared)}
    {h : Hearing σ} (hwalk : Walk t (some f) s marks (some f) s₁)
    (hheard : heardTiers f.chain marks = [h]) (hof : h.Of f.budget f.node es) (hdeclined : h.Declined)
    (hrest : ConsultEnds t f tiers s₁ later r s') :
    ConsultEnds t f (es :: tiers) s (marks ++ later) r s' := by
  have hheard' : heardTiers f.chain (marks ++ later) = h :: heardTiers f.chain later := by
    rw [heardTiers_append, hheard]
    rfl
  have hupto : ∀ rest, Upto f.budget f.node tiers rest (heardTiers f.chain later) →
      Upto f.budget f.node (es :: tiers) rest (h :: heardTiers f.chain later) := by
    rintro rest ⟨asked, rfl, hasked⟩
    exact ⟨es :: asked, rfl, .cons hof hasked⟩
  unfold ConsultEnds
  rw [hheard']
  rcases hrest with ⟨p, rfl, hlater, hall, hnone⟩ |
    ⟨output, mode, rest, above, last, rfl, hlater, hfirst, hlast, habove, haccepted⟩ |
    ⟨c, rest, rfl, hhalt, hfirst, hnone⟩
  · exact .inl ⟨p, rfl, hwalk.append hlater, hupto _ hall,
      List.forall_mem_cons.2 ⟨hdeclined, hnone⟩⟩
  · refine .inr (.inl ⟨output, mode, rest, h :: above, last, rfl, hwalk.append hlater,
      hupto _ hfirst, ?_, List.forall_mem_cons.2 ⟨hdeclined, habove⟩, haccepted⟩)
    rw [hlast]
    rfl
  · exact .inr (.inr ⟨c, rest, rfl, .after hwalk hhalt, hupto _ hfirst,
      List.forall_mem_cons.2 ⟨hdeclined, hnone⟩⟩)

/-- **The turns of all tiers**, each reported at its end. -/
theorem consult_walk (hkids : Kids t chain budget node kids) {tiers : List (List (Entry σ))}
    {p : Prepared} {s s' : State σ} {r : Except Cancelled (Ruling Prepared)} {log : List (Event σ)}
    (hrun : Run.consult chain budget (Run.prepare kids node) node tiers p s =
      some ((r, s'), log)) :
    ∃ marks, eventsOf marks = log ∧
      ConsultEnds t ⟨chain, budget, node, []⟩ tiers s marks r s' := by
  induction tiers generalizing p s log with
  | nil =>
      obtain ⟨⟩ := hrun
      exact ⟨[], rfl, .inl ⟨p, rfl, .nil _ _, ⟨[], rfl, .nil⟩, List.forall_mem_nil _⟩⟩
  | cons es tiers ih =>
      rcases bind_eq_some hrun with ⟨c, s₁, hstop, heq⟩ | ⟨turn, s₁, log₁, log₂, htier, hrest, rfl⟩
      · obtain ⟨rfl, rfl⟩ := Prod.mk.inj heq
        obtain ⟨marks, hlog, hnone, ⟨more, p', heq, -⟩ | ⟨c', -, hhalt⟩⟩ :=
          tier_walk hkids [] hstop
        · cases heq
        · refine ⟨marks, hlog, .inr (.inr ⟨c, es :: tiers, rfl, hhalt, ?_, ?_⟩)⟩ <;> rw [hnone]
          · exact ⟨[], rfl, .nil⟩
          · exact List.forall_mem_nil _
      obtain ⟨marks, rfl, hnone, ⟨us, p', heq, hentries, hus, hwalk⟩ | ⟨c, heq, -⟩⟩ :=
        tier_walk hkids [] htier
      case inr => cases heq
      obtain rfl := Except.ok.inj heq
      rw [List.nil_append] at hwalk
      rcases bind_eq_some hrest with ⟨c, s₂, htell, -⟩ | ⟨_, s₂, log₃, log₄, htell, hruling, rfl⟩
      · cases htell
      obtain ⟨⟩ := htell
      have hof : Hearing.Of budget node es ⟨node, us, none⟩ := ⟨rfl, rfl, hentries, hus⟩
      have hreport := hwalk.append (.hear ⟨chain, budget, node, us⟩ s₁)
      have hheard : heardTiers chain (marks ++ [.hearing chain ⟨node, us, none⟩]) =
          [⟨node, us, none⟩] := by
        rw [heardTiers_append, hnone]
        simp [heardTiers, Mark.tier?]
      have hlog : eventsOf (marks ++ [.hearing chain ⟨node, us, none⟩]) = eventsOf marks := by
        rw [eventsOf_append]
        exact List.append_nil _
      rw [List.nil_append] at hruling
      rw [List.nil_append, ← hlog]
      dsimp only at hruling
      cases haccepted : firstAccepted? (us.map Turn.attempt) with
      | some accepted =>
          rw [haccepted] at hruling
          obtain ⟨⟩ := hruling
          rw [List.append_nil]
          refine ⟨_, rfl, .inr (.inl ⟨accepted.1, accepted.2, tiers, [], _, rfl, hreport, ?_, hheard,
            List.forall_mem_nil _, haccepted⟩)⟩
          dsimp only
          rw [hheard]
          exact ⟨[es], rfl, .cons hof .nil⟩
      | none =>
          rw [haccepted] at hruling
          obtain ⟨later, rfl, hlater⟩ := ih hruling
          exact ⟨_, eventsOf_append, .next hreport hheard hof (firstAccepted?_eq_none haccepted)
            hlater⟩

end Tiers

/-! ### Dispatches -/

/-- The runs of dispatches are walks. -/
def Again (t : Expander σ) (again : Chain → Nat → Node → Bool → Run σ (Option Node)) : Prop :=
  ∀ (chain : Chain) budget n changed depth x, Above x chain → depth ≤ chain.length →
    (again chain budget n changed).Walks t depth x

section Dispatch

variable {chain : Chain} {budget fuel : Nat} {node : Node}
  {again : Chain → Nat → Node → Bool → Run σ (Option Node)}

theorem above_cons (link : Link) (us : List (Turn σ)) :
    Above (some ⟨chain, budget, node, us⟩) (link :: chain) := by
  rintro f ⟨⟩
  exact Nat.lt_succ_self chain.length

theorem ownChildren_kids (hagain : Again t again) (chain : Chain) (budget : Nat) (node : Node) :
    Kids t chain budget node (ownChildren again chain budget node) := by
  intro us
  have hsame : ∀ f, some (⟨chain, budget, node, us⟩ : Sitting σ) = some f →
      f.chain.length ≤ chain.length := by
    rintro f ⟨⟩
    exact Nat.le_refl _
  have hchildren := children_keeps (K := Knowledge.nothing)
    (fun n => hagain _ budget n false _ _ (above_cons ⟨node, budget, none⟩ us) (Nat.le_refl _))
    fun _ => opened_goes hsame budget node
  exact hchildren.walks

theorem reprocess_walks (hagain : Again t again) (chain : Chain) (budget : Nat)
    (node output : Node) (mode : Mode) :
    (reprocess again chain budget node output mode).Walks t (chain.length + 1)
      (some ⟨chain, budget, node, []⟩) := by
  have habove : Above (some (⟨chain, budget, node, []⟩ : Sitting σ))
      (⟨node, budget, some mode⟩ :: chain) := above_cons _ []
  have hmore := reprocess_keeps (K := Knowledge.nothing)
    (fun n changed => hagain _ _ n changed _ _ habove (Nat.le_refl _))
    fun _ => opened_goes (fun f hf => Nat.le_of_lt (habove f hf)) _ output
  exact hmore.walks

/-- The children are expanded, for which nobody is asked and which has no output. -/
theorem lastChildren_own (hpos : budget ≠ 0) {kept : Option Node} {s : State σ}
    {r : Step σ (Option Node)} {log : List (Event σ)}
    (hrun : (ownChildren (t.nodeRun fuel) chain budget node >>= fun expanded =>
      pure (expanded <|> kept)) s = some (r, log)) :
    (∀ event ∈ log, event.NoOutput chain) ∧ ownTurns chain node log = [] := by
  have hown := ownChildren_own t fuel chain hpos node
  rcases bind_eq_some hrun with ⟨c, s₁, hstop, -⟩ | ⟨expanded, s₁, log₁, log₂, hok, hdone, rfl⟩
  · exact ⟨ownChildren_noOutput hpos hstop, hown.turns hstop⟩
  · obtain ⟨⟩ := hdone
    rw [List.append_nil]
    exact ⟨ownChildren_noOutput hpos hok, hown.turns hok⟩

theorem lastChildren_walks (hagain : Again t again) (kept : Option Node) :
    (ownChildren again chain budget node >>= fun expanded => pure (expanded <|> kept)).Walks t
      (chain.length + 1) (some ⟨chain, budget, node, []⟩) :=
  (ownChildren_kids hagain chain budget node []).map _ fun _ _ _ => trivial

/-- What is done with an output that is accepted in the last of the tiers that are heard. -/
theorem claimed_walk (hagain : Again t (t.nodeRun fuel)) {tiers rest : List (List (Entry σ))}
    {marks : List (Mark σ)} {above : List (Hearing σ)} {last : Hearing σ} {output : Node}
    {mode : Mode} {s s₁ s' : State σ} {r : Except Cancelled (Option Node)} {log : List (Event σ)}
    (hwalk : Walk t (some ⟨chain, budget, node, []⟩) s marks (some ⟨chain, budget, node, []⟩) s₁)
    (hupto : Upto budget node tiers rest (heardTiers chain marks))
    (hlast : heardTiers chain marks = above ++ [last]) (habove : ∀ h ∈ above, h.Declined)
    (haccepted : firstAccepted? last.attempts = some (output, mode))
    (hnone : ∀ event ∈ eventsOf marks, event.NoOutput chain)
    (hmore : reprocess (t.nodeRun fuel) chain budget node output mode s₁ = some ((r, s'), log)) :
    ∃ more, eventsOf more = ⟨chain, budget, .rewrote output mode⟩ :: log ∧
      Arrives t (some ⟨chain, budget, node, []⟩) s (marks ++ more) r s' ∧
      Consulted chain budget node tiers (marks ++ more) r := by
  obtain ⟨more, rfl, hdepth, hends⟩ :=
    (reprocess_walks hagain chain budget node output mode).arrives hmore
  have hdeeper := reprocess_deeper hmore
  have hheard : heardTiers chain
      (marks ++ .event ⟨chain, budget, .rewrote output mode⟩ :: more) = above ++ [last] := by
    rw [heardTiers_append, heardTiers_event, heardTiers_of_deeper hdepth, List.append_nil, hlast]
  refine ⟨.event ⟨chain, budget, .rewrote output mode⟩ :: more, rfl,
    (hends.after (.rewrote _ s₁ output mode)).after hwalk, ?_, ?_, ?_, ?_⟩
  · rw [hheard, ← hlast]
    exact ⟨rest, hupto⟩
  · intro above' last' hsplit
    rw [hheard] at hsplit
    rw [← (List.append_inj' hsplit rfl).1]
    exact habove
  · rw [hheard, firstAccepted?_of_above habove, haccepted, eventsOf_append, eventsOf_event,
      ownOutputs_append, ownOutputs_of_none hnone, ownOutputs_cons,
      ownOutputs_of_none (noOutput_of_deeper hdeeper)]
    rfl
  · have hturns := hwalk.turns _ _ rfl rfl
    refine ⟨[], ?_, .inl rfl⟩
    rw [hheard, ← hlast, eventsOf_append, eventsOf_event, ownTurns_append, ownTurns_cons,
      ownTurns_of_deeper hdeeper]
    exact (List.append_nil _).trans hturns

/-- What is done with a node for which macros have been found. -/
theorem found_walk (hagain : Again t (t.nodeRun fuel)) (hpos : budget ≠ 0) {scopes : ScopeStack}
    {kept : Option Node} {s s' : State σ} {r : Except Cancelled (Option Node)}
    {log : List (Event σ)}
    (hrun : Run.found (t.nodeRun fuel) chain budget node kept (t.candidates scopes node) s =
      some ((r, s'), log)) :
    ∃ marks, eventsOf marks = log ∧ Arrives t (some ⟨chain, budget, node, []⟩) s marks r s' ∧
      Consulted chain budget node (tiersOf (t.candidates scopes node)) marks r := by
  have hkids := ownChildren_kids hagain chain budget node
  rcases bind_eq_some hrun with ⟨c, s₁, hstop, heq⟩ | ⟨ruling, s₁, log₁, log₂, hruling, hrest, rfl⟩
  · obtain ⟨rfl, rfl⟩ := Prod.mk.inj heq
    obtain ⟨marks, rfl, ⟨p, heq, -⟩ | ⟨output, mode, rest, above, last, heq, -⟩ |
      ⟨c', rest, -, hhalt, hupto, hdeclined⟩⟩ := consult_walk hkids hstop
    · cases heq
    · cases heq
    · obtain ⟨unheard, hturns⟩ := hhalt.turns _ rfl
      exact ⟨marks, rfl, .inr ⟨c, rfl, hhalt⟩, .of_declined rfl hupto hdeclined
        (consult_noOutput hpos hstop) ⟨unheard, hturns, .inr ⟨c, rfl⟩⟩⟩
  obtain ⟨marks, rfl, hcases⟩ := consult_walk hkids hruling
  have hnone := consult_noOutput hpos hruling
  rcases hcases with ⟨p, heq, hwalk, hupto, hdeclined⟩ |
    ⟨output, mode, rest, above, last, heq, hwalk, hupto, hlast, habove, haccepted⟩ |
    ⟨c, rest, heq, -⟩
  · obtain rfl := Except.ok.inj heq
    have hturns := hwalk.turns _ _ rfl rfl
    cases p with
    | unchanged | changed =>
        obtain ⟨⟩ := hrest
        exact ⟨marks, (List.append_nil _).symm, .inl ⟨_, rfl, hwalk⟩,
          .of_declined rfl hupto hdeclined hnone ⟨[], hturns, .inl rfl⟩⟩
    | notYet =>
        obtain ⟨more, rfl, hdepth, hends⟩ := (lastChildren_walks hagain kept).arrives hrest
        obtain ⟨hnone', hturns'⟩ := lastChildren_own hpos hrest
        have hheard : heardTiers chain (marks ++ more) = heardTiers chain marks := by
          rw [heardTiers_append, heardTiers_of_deeper hdepth, List.append_nil]
        refine ⟨marks ++ more, eventsOf_append, hends.after hwalk,
          .of_declined hheard hupto hdeclined ?_ ⟨[], ?_, .inl rfl⟩⟩ <;> rw [eventsOf_append]
        · exact List.forall_mem_append.2 ⟨hnone, hnone'⟩
        · rw [ownTurns_append_of_nil hturns']
          exact hturns
  · obtain rfl := Except.ok.inj heq
    obtain ⟨log₃, hmore, rfl⟩ := note_bind_eq_some hrest
    obtain ⟨more, hlog, hends, hconsulted⟩ :=
      claimed_walk hagain hwalk hupto hlast habove haccepted hnone hmore
    exact ⟨marks ++ more, by rw [eventsOf_append, hlog], hends, hconsulted⟩
  · cases heq

/-- **One dispatch with budget.**  Unless the token is found cancelled, all that is done after the
dispatch is entered is done inside it. -/
theorem dispatch_walk (hagain : Again t (t.nodeRun fuel)) (hpos : budget ≠ 0) {changed : Bool}
    {s s' : State σ} {r : Except Cancelled (Option Node)} {log : List (Event σ)}
    (hrun : t.nodeRun (fuel + 1) chain budget node changed s = some ((r, s'), log)) :
    ∃ marks, log = ⟨chain, budget, .entered node⟩ :: eventsOf marks ∧
      ((t.token.isCancelled s.now = true ∧ marks = [] ∧ r = .error .cancelled ∧ s' = s) ∨
      (t.token.isCancelled s.now = false ∧
        Arrives t (some ⟨chain, budget, node, []⟩) s.tick marks r s' ∧
        Consulted chain budget node (tiersOf (t.candidates s.scopes node)) marks r)) := by
  obtain ⟨more, rfl, ⟨hzero, -, -⟩ | ⟨-, hcancel, heq, rfl⟩ | ⟨-, hgoing, hempty, hchildren⟩ |
    ⟨-, hgoing, -, hfound⟩⟩ := dispatch_cases hrun
  · exact absurd hzero hpos
  · obtain ⟨rfl, rfl⟩ := Prod.mk.inj heq
    exact ⟨[], rfl, .inl ⟨hcancel, rfl, rfl, rfl⟩⟩
  · obtain ⟨marks, rfl, hdepth, hends⟩ := (lastChildren_walks hagain _).arrives hchildren
    obtain ⟨hnone, hturns⟩ := lastChildren_own hpos hchildren
    have hupto : Upto budget node (tiersOf (t.candidates s.scopes node)) []
        ([] : List (Hearing σ)) := by
      rw [hempty]
      exact ⟨[], rfl, .nil⟩
    exact ⟨marks, rfl, .inr ⟨hgoing, hends, .of_declined (heardTiers_of_deeper hdepth) hupto
      (List.forall_mem_nil _) hnone ⟨[], hturns, .inl rfl⟩⟩⟩
  · rcases within_eq_some hfound with ⟨-, hinner⟩ | ⟨-, s₁, hinner, rfl⟩
    · obtain ⟨marks, rfl, hends, hconsulted⟩ := found_walk hagain hpos hinner
      exact ⟨marks, rfl, .inr ⟨hgoing, hends, hconsulted⟩⟩
    · obtain ⟨marks, rfl, hends, hconsulted⟩ := found_walk hagain hpos hinner
      exact ⟨marks, rfl, .inr ⟨hgoing, hends.block, hconsulted⟩⟩

end Dispatch

end Run

namespace Expander

/-- **Every run of a dispatch is a walk.** -/
theorem nodeRun_walks (t : Expander σ) (fuel : Nat) : Run.Again t (t.nodeRun fuel) := by
  induction fuel with
  | zero =>
      intro chain budget node changed depth x _ _
      exact ⟨nofun, nofun⟩
  | succ fuel ih =>
      intro chain budget node changed depth x habove hdepth
      refine Run.walks_of_arrives fun {s r s' log} hrun => ?_
      by_cases hpos : budget = 0
      · subst hpos
        obtain ⟨more, rfl, ⟨-, heq, rfl⟩ | ⟨hpos, -⟩ | ⟨hpos, -⟩ | ⟨hpos, -⟩⟩ :=
          Run.dispatch_cases hrun
        · obtain ⟨rfl, rfl⟩ := Prod.mk.inj heq
          exact ⟨[.event ⟨chain, 0, .entered node⟩], rfl, by simp,
            .inl ⟨_, rfl, .pass x s' chain node habove⟩⟩
        all_goals exact absurd rfl hpos
      · obtain ⟨marks, rfl, ⟨hcancel, rfl, rfl, rfl⟩ | ⟨hgoing, hends, -⟩⟩ :=
          Run.dispatch_walk ih hpos hrun
        · exact ⟨[.event ⟨chain, budget, .entered node⟩], rfl, by simp,
            .inr ⟨_, rfl, .found x s' chain node habove hpos hcancel⟩⟩
        · refine ⟨.event ⟨chain, budget, .entered node⟩ :: marks, rfl, fun c h hmem => ?_,
            hends.visit habove hpos hgoing⟩
          have hmem : .hearing c h ∈ marks := by simpa using hmem
          exact Nat.le_trans hdepth (hends.inside_chain _ hmem)

/-- The run of a forest is a walk outside of all dispatches. -/
theorem forestRun_walk (t : Expander σ) {fuel : Nat} {nodes : Forest} {s : State σ}
    {r : Step σ Forest} {log : List (Event σ)} (hrun : t.forestRun fuel nodes s = some (r, log)) :
    ∃ marks, eventsOf marks = log ∧
      Arrives t none { s with scopes := t.rootScopes } marks r.1 r.2 := by
  have hlist : (t.listRun fuel t.budget nodes).Walks t 0 none :=
    (Run.list_keeps (K := Knowledge.nothing) (fun n => t.nodeRun_walks fuel [] t.budget n false 0 none
      (by simp [Above]) (Nat.zero_le _)) nodes).walks
  have hforest : (t.listRun fuel t.budget nodes >>= fun expanded =>
      pure (expanded.getD nodes)).Walks t 0 none := hlist.map _ fun _ _ _ => trivial
  obtain ⟨marks, hlog, -, hends⟩ := hforest.arrives hrun
  exact ⟨marks, hlog, hends⟩

end Expander

end MacroForest
