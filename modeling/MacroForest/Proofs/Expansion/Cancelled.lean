/-
**A run that is told to stop.**

An expansion is told to stop by a macro or by its token.  The token is looked at when a node is
dispatched with budget, and at no other time; so what counts is whether it is cancelled when a
dispatch begins.  Which time that is can be computed from the log, for the clock moves with each
dispatch and with each invocation.

If a macro asks to stop, this is the last event of the run, however deep inside others its dispatch
is.  All dispatches around it are left, their tiers unreported, and only the tier of the macro is
reported still, with a message on the request in front.  If the token is found cancelled, the
dispatch at which it is found is the last event, and nothing is reported.  There is no other way to
be stopped.

All this is shown by induction on the walk that the run is.  An event is judged by the events before
it: `MacroForest.Attended` says that it is part of a dispatch which is under way, and at what time
that began.

Main definitions:

* `MacroForest.timeAfter` — the clock of a log;
* `MacroForest.UnderWay` — the dispatch of a node is under way after some events;
* `MacroForest.Orderly`, `MacroForest.Halted` — what holds of the marks of a walk, and of a halt.

Main results:

* `MacroForest.Walk.orderly`, `MacroForest.Halt.halted` — **the order that walks and halts keep**;
* `MacroForest.Expander.stopped_at_once` — a request to stop ends the run and is told once, nothing
  else ends it, and no macro is invoked by a dispatch that begins after the token is cancelled.
-/

import MacroForest.Proofs.Expansion.Hearings

set_option relaxedAutoImplicit false
set_option autoImplicit false

namespace MacroForest

variable {σ : Type}

/-! ### The clock of a log -/

/-- How long an event takes. -/
def Event.elapsed (event : Event σ) : Nat :=
  match event.action with
  | .entered _ => if event.budget = 0 then 0 else 1
  | .invoked e input s => (e.callable.run s.shared input s.scopes).elapsed
  | _ => 0

/-- The time after some events. -/
def timeAfter (now : Nat) (log : List (Event σ)) : Nat :=
  log.foldl (fun now event => now + event.elapsed) now

theorem timeAfter_append (now : Nat) (log more : List (Event σ)) :
    timeAfter now (log ++ more) = timeAfter (timeAfter now log) more := List.foldl_append

theorem le_timeAfter (now : Nat) (log : List (Event σ)) : now ≤ timeAfter now log := by
  induction log generalizing now with
  | nil => exact Nat.le_refl now
  | cons event log ih => exact Nat.le_trans (Nat.le_add_right now event.elapsed) (ih _)

theorem timeAfter_le_of_isPrefix {now : Nat} {log more : List (Event σ)} (h : log <+: more) :
    timeAfter now log ≤ timeAfter now more := by
  obtain ⟨rest, rfl⟩ := h
  rw [timeAfter_append]
  exact le_timeAfter _ rest

theorem CancelToken.isCancelled_mono {token : CancelToken} {now later : Nat} (h : now ≤ later)
    (hcancelled : token.isCancelled now = true) : token.isCancelled later = true := by
  unfold isCancelled at hcancelled ⊢
  rw [Bool.or_eq_true] at hcancelled ⊢
  refine hcancelled.imp_right fun hdeadline => ?_
  cases hd : token.deadline with
  | none => simp [hd] at hdeadline
  | some deadline =>
      rw [hd, Option.any_some, decide_eq_true_iff] at hdeadline
      exact decide_eq_true (Nat.le_trans hdeadline h)

/-! ### Events and what is before them -/

/-- Every event of a log has a property, given the events before it. -/
def Each (P : List (Event σ) → Event σ → Prop) (log : List (Event σ)) : Prop :=
  ∀ before event after, log = before ++ event :: after → P before event

section Each

variable {P : List (Event σ) → Event σ → Prop} {event : Event σ} {log more : List (Event σ)}

theorem each_nil : Each P [] := by
  intro before event after h
  simp at h

theorem Each.cons (hfirst : P [] event) (hrest : Each (fun before => P (event :: before)) log) :
    Each P (event :: log) := by
  intro before event' after h
  cases before with
  | nil =>
      obtain ⟨rfl, -⟩ := List.cons.inj h
      exact hfirst
  | cons first before =>
      obtain ⟨rfl, hlog⟩ := List.cons.inj h
      exact hrest before event' after hlog

theorem Each.append (h : Each P log) (h' : Each (fun before => P (log ++ before)) more) :
    Each P (log ++ more) := by
  induction log generalizing P with
  | nil => exact h'
  | cons event log ih =>
      refine Each.cons (h [] event log rfl) (ih ?_ h')
      intro before event' after hlog
      exact h (event :: before) event' after (by rw [hlog]; rfl)

theorem Each.imp {Q : List (Event σ) → Event σ → Prop} (h : Each P log)
    (hPQ : ∀ before event, P before event → Q before event) : Each Q log :=
  fun before event after hlog => hPQ before event (h before event after hlog)

end Each

/-! ### Dispatches under way -/

/-- All events are in the dispatch with a chain, or further down. -/
def Inside (chain : Chain) (log : List (Event σ)) : Prop :=
  ∀ event ∈ log, chain.length ≤ event.chain.length ∧
    ∀ n, event.action = .entered n → chain.length < event.chain.length

theorem inside_singleton {chain : Chain} {event : Event σ}
    (hchain : chain.length ≤ event.chain.length) (hevent : ∀ n, event.action ≠ .entered n) :
    Inside chain [event] :=
  List.forall_mem_singleton.2 ⟨hchain, fun n hn => absurd hn (hevent n)⟩

/-- After some events the dispatch of a node is under way, which began after the first of them. -/
def UnderWay (start log : List (Event σ)) (chain : Chain) (budget : Nat) (node : Node) : Prop :=
  ∃ since, log = start ++ ⟨chain, budget, .entered node⟩ :: since ∧ Inside chain since

theorem UnderWay.prepend {start log : List (Event σ)} {chain : Chain} {budget : Nat} {node : Node}
    (h : UnderWay start log chain budget node) (earlier : List (Event σ)) :
    UnderWay (earlier ++ start) (earlier ++ log) chain budget node := by
  obtain ⟨since, rfl, hsince⟩ := h
  exact ⟨since, (List.append_assoc ..).symm, hsince⟩

/-- When the dispatch with a chain began that is under way: only one has this chain. -/
theorem UnderWay.start_unique {start start' log : List (Event σ)} {chain : Chain}
    {budget budget' : Nat} {node node' : Node} (h : UnderWay start log chain budget node)
    (h' : UnderWay start' log chain budget' node') : start = start' := by
  obtain ⟨since, rfl, hsince⟩ := h
  obtain ⟨since', heq, hsince'⟩ := h'
  -- otherwise the later one of the two would have begun inside the earlier one
  rcases List.append_eq_append_iff.1 heq with ⟨between, rfl, hbetween⟩ | ⟨between, rfl, hbetween⟩
  · cases between with
    | nil => exact (List.append_nil _).symm
    | cons event between =>
        obtain ⟨-, rfl⟩ := List.cons.inj hbetween
        have hdeeper := (hsince _ (List.mem_append_right between List.mem_cons_self)).2 node' rfl
        exact absurd hdeeper (Nat.lt_irrefl _)
  · cases between with
    | nil => exact List.append_nil _
    | cons event between =>
        obtain ⟨-, rfl⟩ := List.cons.inj hbetween
        have hdeeper := (hsince' _ (List.mem_append_right between List.mem_cons_self)).2 node rfl
        exact absurd hdeeper (Nat.lt_irrefl _)

/-- After some events of a walk the dispatch of a node is under way.  It is the one that the walk is
inside, or it began on the way, when the token was not cancelled. -/
def Dispatching (t : Expander σ) (x : Option (Sitting σ)) (now : Nat) (log : List (Event σ))
    (chain : Chain) (budget : Nat) (node : Node) : Prop :=
  (∃ us, x = some ⟨chain, budget, node, us⟩ ∧ Inside chain log) ∨
    ∃ start, UnderWay start log chain budget node ∧
      t.token.isCancelled (timeAfter now start) = false

/-- If an event is the invocation of a macro, it is done by a dispatch that is under way after the
events before, at the time after them. -/
def Attended (t : Expander σ) (x : Option (Sitting σ)) (now : Nat) (before : List (Event σ))
    (event : Event σ) : Prop :=
  ∀ e input s, event.action = .invoked e input s →
    s.now = timeAfter now before ∧
      ∃ node, Dispatching t x now before event.chain event.budget node

/-- Some events lead from one dispatch to another: what is done inside the second one is done inside
the first, or since the second one began. -/
def Leads (t : Expander σ) (x : Option (Sitting σ)) (now : Nat) (earlier : List (Event σ))
    (y : Option (Sitting σ)) : Prop :=
  ∀ chain budget node us log, y = some ⟨chain, budget, node, us⟩ → Inside chain log →
    Dispatching t x now (earlier ++ log) chain budget node

section Leads

variable {t : Expander σ} {x y : Option (Sitting σ)} {now : Nat} {earlier log : List (Event σ)}

theorem Dispatching.prepend {chain : Chain} {budget : Nat} {node : Node}
    (h : Dispatching t y (timeAfter now earlier) log chain budget node)
    (hleads : Leads t x now earlier y) :
    Dispatching t x now (earlier ++ log) chain budget node := by
  rcases h with ⟨us, hy, hinside⟩ | ⟨start, hstart, hgoing⟩
  · exact hleads chain budget node us log hy hinside
  · refine .inr ⟨earlier ++ start, hstart.prepend earlier, ?_⟩
    rw [timeAfter_append]
    exact hgoing

theorem Attended.prepend {event : Event σ}
    (h : Attended t y (timeAfter now earlier) log event) (hleads : Leads t x now earlier y) :
    Attended t x now (earlier ++ log) event := by
  intro e input s hinvoked
  obtain ⟨hnow, node, hdispatching⟩ := h e input s hinvoked
  rw [← timeAfter_append] at hnow
  exact ⟨hnow, node, hdispatching.prepend hleads⟩

/-- A walk leads back to the dispatch that it is inside. -/
theorem leads_of_sitting (hsitting : y.map Sitting.clear = x.map Sitting.clear)
    (hinside : ∀ f, x = some f → Inside f.chain earlier) : Leads t x now earlier y := by
  rintro chain budget node us log rfl hlog
  obtain ⟨⟨chain', budget', node', us'⟩, rfl, heq⟩ := Option.map_eq_some_iff.1 hsitting.symm
  obtain ⟨rfl, rfl, rfl, -⟩ := Sitting.mk.inj heq
  exact .inl ⟨us', rfl, List.forall_mem_append.2 ⟨hinside _ rfl, hlog⟩⟩

/-- A dispatch begins. -/
theorem leads_entered {chain : Chain} {budget : Nat} {node : Node}
    (hgoing : t.token.isCancelled now = false) :
    Leads t x now [⟨chain, budget, .entered node⟩] (some ⟨chain, budget, node, []⟩) := by
  rintro _ _ _ _ log ⟨⟩ hlog
  exact .inr ⟨[], ⟨log, rfl, hlog⟩, hgoing⟩

end Leads

/-! ### The order that walks keep -/

/-- A macro is invoked, and it asks to stop. -/
def Event.Stops (event : Event σ) : Prop :=
  ∃ e input s, event.action = .invoked e input s ∧
    (e.callable.run s.shared input s.scopes).outcome = .cancelled

/-- What holds of the marks of a walk: the clock moves with the log, all events are attended, and
nobody asks to stop. -/
structure Orderly (t : Expander σ) (x : Option (Sitting σ)) (now : Nat) (marks : List (Mark σ))
    (later : Nat) : Prop where
  clock : later = timeAfter now (eventsOf marks)
  attended : Each (Attended t x now) (eventsOf marks)
  going : ∀ event ∈ eventsOf marks, ¬ event.Stops
  unstopped : ∀ h ∈ hearingsOf marks, h.stoppedBy = none
  inside : ∀ f, x = some f → Inside f.chain (eventsOf marks)

theorem inside_of_above {x : Option (Sitting σ)} {chain : Chain} (habove : Above x chain)
    {log : List (Event σ)} (hlog : ∀ event ∈ log, chain.length ≤ event.chain.length) :
    ∀ f, x = some f → Inside f.chain log := by
  intro f hf event hevent
  have hlt := Nat.lt_of_lt_of_le (habove f hf) (hlog event hevent)
  exact ⟨Nat.le_of_lt hlt, fun _ _ => hlt⟩

namespace Orderly

variable {t : Expander σ} {x y : Option (Sitting σ)} {now later last : Nat}
  {marks more : List (Mark σ)}

theorem nil (t : Expander σ) (x : Option (Sitting σ)) (now : Nat) : Orderly t x now [] now :=
  ⟨rfl, each_nil, List.forall_mem_nil _, List.forall_mem_nil _, fun _ _ => List.forall_mem_nil _⟩

theorem single {event : Event σ} (hattended : Attended t x now [] event) (hgoing : ¬ event.Stops)
    (hinside : ∀ f, x = some f → Inside f.chain [event]) :
    Orderly t x now [.event event] (now + event.elapsed) :=
  ⟨rfl, .cons hattended each_nil, List.forall_mem_singleton.2 hgoing, List.forall_mem_nil _, hinside⟩

/-- A single event that is no invocation. -/
theorem of_not_invoked {event : Event σ} (hevent : ∀ e input s, event.action ≠ .invoked e input s)
    (hinside : ∀ f, x = some f → Inside f.chain [event]) :
    Orderly t x now [.event event] (now + event.elapsed) := by
  refine .single ?_ ?_ hinside
  · intro e input s hinvoked
    exact absurd hinvoked (hevent e input s)
  · rintro ⟨e, input, s, hinvoked, -⟩
    exact hevent e input s hinvoked

/-- A node is dispatched further down. -/
theorem entered {chain : Chain} (habove : Above x chain) (budget : Nat) (node : Node) :
    Orderly t x now [.event ⟨chain, budget, .entered node⟩]
      (now + if budget = 0 then 0 else 1) :=
  .of_not_invoked (by simp)
    (inside_of_above habove (List.forall_mem_singleton.2 (Nat.le_refl _)))

theorem entered_paid {chain : Chain} (habove : Above x chain) {budget : Nat} (hpos : budget ≠ 0)
    (node : Node) : Orderly t x now [.event ⟨chain, budget, .entered node⟩] (now + 1) := by
  have hentered : Orderly t x now [.event ⟨chain, budget, .entered node⟩] _ :=
    .entered habove budget node
  rw [if_neg hpos] at hentered
  exact hentered

theorem append (h : Orderly t x now marks later) (h' : Orderly t y later more last)
    (hleads : Leads t x now (eventsOf marks) y)
    (hinside : ∀ f, x = some f → Inside f.chain (eventsOf more)) :
    Orderly t x now (marks ++ more) last := by
  obtain ⟨rfl, hattended, hgoing, hunstopped, hfirst⟩ := h
  constructor
  · rw [eventsOf_append, timeAfter_append]
    exact h'.clock
  · rw [eventsOf_append]
    exact hattended.append (h'.attended.imp fun before event hevent => hevent.prepend hleads)
  · rw [eventsOf_append]
    exact List.forall_mem_append.2 ⟨hgoing, h'.going⟩
  · rw [hearingsOf_append]
    exact List.forall_mem_append.2 ⟨hunstopped, h'.unstopped⟩
  · intro f hf
    rw [eventsOf_append]
    exact List.forall_mem_append.2 ⟨hfirst f hf, hinside f hf⟩

end Orderly

/-- **The order that a walk keeps.** -/
theorem Walk.orderly {t : Expander σ} {x y : Option (Sitting σ)} {s s' : State σ}
    {marks : List (Mark σ)} (h : Walk t x s marks y s') : Orderly t x s.now marks s'.now := by
  induction h with
  | nil x s => exact .nil t x s.now
  | push x s => exact .nil t x s.now
  | pop x s => exact .nil t x s.now
  | append hfirst _ ih ih' =>
      refine ih.append ih' (leads_of_sitting hfirst.sitting ih.inside) fun f hf => ?_
      obtain ⟨us, hy⟩ := hfirst.exists_sitting hf
      have hmore := ih'.inside _ hy
      exact hmore
  | opened x s chain budget node hinside =>
      exact .of_not_invoked (by simp) fun f hf => inside_singleton (hinside f hf) (by simp)
  | rewrote f s output mode =>
      refine .of_not_invoked (by simp) ?_
      rintro g ⟨⟩
      exact inside_singleton (Nat.le_refl _) (by simp)
  | ask f e input s hheard =>
      refine .single ?_ ?_ ?_
      · rintro e input s ⟨⟩
        exact ⟨rfl, f.node, .inl ⟨f.turns, rfl, List.forall_mem_nil _⟩⟩
      · rintro ⟨e, input, s, ⟨⟩, hcancelled⟩
        exact hheard hcancelled
      · rintro g ⟨⟩
        exact inside_singleton (Nat.le_refl _) (by simp)
  | hear f s =>
      exact ⟨rfl, each_nil, List.forall_mem_nil _, List.forall_mem_singleton.2 rfl,
        fun _ _ => List.forall_mem_nil _⟩
  | pass x s chain node habove => exact .entered habove 0 node
  | @visit x s s' chain budget node marks habove hpos hgoing _ ih =>
      refine (Orderly.entered_paid habove hpos node).append ih (leads_entered hgoing)
        (inside_of_above habove fun event hevent => ?_)
      exact (ih.inside _ rfl event hevent).1

/-! ### Halts -/

/-- What ends a run, given the events before it and all that is reported. -/
inductive Cut (t : Expander σ) (x : Option (Sitting σ)) (now : Nat) (before : List (Event σ)) :
    Event σ → List (Hearing σ) → Prop
  /-- A node is dispatched, and the token is found cancelled. -/
  | found {chain : Chain} {budget : Nat} {node : Node} {hs : List (Hearing σ)} (paid : budget ≠ 0)
      (cancelled : t.token.isCancelled (timeAfter now before) = true)
      (unstopped : ∀ h ∈ hs, h.stoppedBy = none) :
      Cut t x now before ⟨chain, budget, .entered node⟩ hs
  /-- A macro asks to stop, and its tier is reported as the last one. -/
  | asked {chain : Chain} {budget : Nat} {node : Node} {e : Entry σ} {input : Node} {s : State σ}
      {hs : List (Hearing σ)} (us : List (Turn σ))
      (stops : (e.callable.run s.shared input s.scopes).outcome = .cancelled)
      (dispatching : Dispatching t x now before chain budget node)
      (unstopped : ∀ h ∈ hs, h.stoppedBy = none) :
      Cut t x now before ⟨chain, budget, .invoked e input s⟩ (hs ++ [⟨node, us, some e⟩])

theorem Cut.prepend {t : Expander σ} {x y : Option (Sitting σ)} {now : Nat}
    {earlier before : List (Event σ)} {event : Event σ} {hs hs' : List (Hearing σ)}
    (h : Cut t y (timeAfter now earlier) before event hs') (hleads : Leads t x now earlier y)
    (hunstopped : ∀ h ∈ hs, h.stoppedBy = none) :
    Cut t x now (earlier ++ before) event (hs ++ hs') := by
  cases h with
  | found hpaid hcancelled hunstopped' =>
      rw [← timeAfter_append] at hcancelled
      exact .found hpaid hcancelled (List.forall_mem_append.2 ⟨hunstopped, hunstopped'⟩)
  | asked us hstops hdispatching hunstopped' =>
      rw [← List.append_assoc]
      exact .asked us hstops (hdispatching.prepend hleads)
        (List.forall_mem_append.2 ⟨hunstopped, hunstopped'⟩)

/-- What holds of the marks of a halt: all events are attended, and nobody asks to stop before the
last one, which ends the run. -/
structure Halted (t : Expander σ) (x : Option (Sitting σ)) (now : Nat) (marks : List (Mark σ)) :
    Prop where
  attended : Each (Attended t x now) (eventsOf marks)
  cut : ∃ before event, eventsOf marks = before ++ [event] ∧ (∀ event ∈ before, ¬ event.Stops) ∧
    Cut t x now before event (hearingsOf marks)

theorem Halted.after {t : Expander σ} {x y : Option (Sitting σ)} {now later : Nat}
    {marks more : List (Mark σ)} (h : Orderly t x now marks later) (h' : Halted t y later more)
    (hleads : Leads t x now (eventsOf marks) y) : Halted t x now (marks ++ more) := by
  obtain ⟨rfl, hattended, hgoing, hunstopped, -⟩ := h
  obtain ⟨hattended', before, event, hevents, hgoing', hcut⟩ := h'
  refine ⟨?_, eventsOf marks ++ before, event, ?_, ?_, ?_⟩
  · rw [eventsOf_append]
    exact hattended.append (hattended'.imp fun before event hevent => hevent.prepend hleads)
  · rw [eventsOf_append, hevents, List.append_assoc]
  · exact List.forall_mem_append.2 ⟨hgoing, hgoing'⟩
  · rw [hearingsOf_append]
    exact hcut.prepend hleads hunstopped

/-- **A halt is in order up to its last event.** -/
theorem Halt.halted {t : Expander σ} {x : Option (Sitting σ)} {s s' : State σ}
    {marks : List (Mark σ)} (h : Halt t x s marks s') : Halted t x s.now marks := by
  induction h with
  | after hwalk _ ih =>
      have horderly := hwalk.orderly
      exact .after horderly ih (leads_of_sitting hwalk.sitting horderly.inside)
  | pop _ ih => exact ih
  | asked f e input s hstops =>
      have hdispatching : Dispatching t (some f) s.now [] f.chain f.budget f.node :=
        .inl ⟨f.turns, rfl, List.forall_mem_nil _⟩
      refine ⟨.cons ?_ each_nil, [], _, rfl, List.forall_mem_nil _, ?_⟩
      · rintro e input s ⟨⟩
        exact ⟨rfl, f.node, hdispatching⟩
      · exact .asked _ hstops hdispatching (List.forall_mem_nil _)
  | found x s chain node _ hpaid hcancelled =>
      refine ⟨.cons ?_ each_nil, [], _, rfl, List.forall_mem_nil _, ?_⟩
      · rintro e input s ⟨⟩
      · exact .found hpaid hcancelled (List.forall_mem_nil _)
  | inside habove hpos hgoing _ ih =>
      exact .after (.entered_paid habove hpos _) ih (leads_entered hgoing)

/-! ### What is heard is in the log -/

/-- The event is the turn of a macro. -/
def Event.IsTurn (event : Event σ) (u : Turn σ) : Prop :=
  ∃ s, event.action = .invoked u.entry u.input s ∧ s.shared = u.shared ∧ s.scopes = u.scopes

/-- What holds of all turns that are still to be reported. -/
def Withheld (P : Turn σ → Prop) (x : Option (Sitting σ)) : Prop :=
  ∀ f, x = some f → ∀ u ∈ f.turns, P u

section Heard

variable {t : Expander σ} {x y : Option (Sitting σ)} {s s' : State σ} {marks : List (Mark σ)}
  {P : Turn σ → Prop}

/-- What holds of all turns of a log holds of those that are reported. -/
theorem Walk.forall_heard (h : Walk t x s marks y s')
    (hlog : ∀ event ∈ eventsOf marks, ∀ u, event.IsTurn u → P u) (hx : Withheld P x) :
    Withheld P y ∧ ∀ h ∈ hearingsOf marks, ∀ u ∈ h.turns, P u := by
  induction h with
  | nil | push | pop | opened | rewrote | pass => exact ⟨hx, List.forall_mem_nil _⟩
  | append _ _ ih ih' =>
      rw [eventsOf_append, List.forall_mem_append] at hlog
      obtain ⟨hy, hheard⟩ := ih hlog.1 hx
      obtain ⟨hz, hheard'⟩ := ih' hlog.2 hy
      rw [hearingsOf_append]
      exact ⟨hz, List.forall_mem_append.2 ⟨hheard, hheard'⟩⟩
  | ask f e input s _ =>
      refine ⟨?_, List.forall_mem_nil _⟩
      rintro g ⟨⟩
      refine List.forall_mem_append.2 ⟨hx f rfl, List.forall_mem_singleton.2 ?_⟩
      exact hlog _ List.mem_cons_self _ ⟨s, rfl, rfl, rfl⟩
  | hear f s =>
      refine ⟨?_, List.forall_mem_singleton.2 (hx f rfl)⟩
      rintro g ⟨⟩
      exact List.forall_mem_nil _
  | visit _ _ _ _ ih =>
      refine ⟨hx, (ih (List.forall_mem_cons.1 hlog).2 ?_).2⟩
      rintro f ⟨⟩
      exact List.forall_mem_nil _

theorem Halt.forall_heard (h : Halt t x s marks s')
    (hlog : ∀ event ∈ eventsOf marks, ∀ u, event.IsTurn u → P u) (hx : Withheld P x) :
    ∀ h ∈ hearingsOf marks, ∀ u ∈ h.turns, P u := by
  induction h with
  | after hwalk _ ih =>
      rw [eventsOf_append, List.forall_mem_append] at hlog
      obtain ⟨hy, hheard⟩ := hwalk.forall_heard hlog.1 hx
      rw [hearingsOf_append]
      exact List.forall_mem_append.2 ⟨hheard, ih hlog.2 hy⟩
  | pop _ ih => exact ih hlog hx
  | asked f e input s _ =>
      refine List.forall_mem_singleton.2 (List.forall_mem_append.2 ⟨hx f rfl, ?_⟩)
      exact List.forall_mem_singleton.2 (hlog _ List.mem_cons_self _ ⟨s, rfl, rfl, rfl⟩)
  | found => exact List.forall_mem_nil _
  | inside _ _ _ _ ih =>
      refine ih (List.forall_mem_cons.1 hlog).2 ?_
      rintro f ⟨⟩
      exact List.forall_mem_nil _

end Heard

/-! ### Messages on a request to stop -/

/-- The message says that a macro has asked to stop. -/
def Message.OnRequest (m : Message) : Prop :=
  ∃ label, m.text = "Macro-processing task cancelled in " ++ label

section OnRequest

variable {enabled : Severity → Bool} {attempts : List (Attempt σ)} {input : Node}
  {worst : Option Severity} {m : Message}

theorem not_onRequest_of_mem_ambiguity (h : m ∈ reportAmbiguity attempts input) :
    ¬ m.OnRequest := by
  have htext : ∃ rest, m.text = "Ambiguous macro call. " ++ rest := by
    unfold reportAmbiguity at h
    dsimp only at h
    split at h
    · simp at h
    · split at h
      · split at h
        · simp at h
        · obtain rfl := List.mem_singleton.1 h
          exact ⟨_, (String.append_assoc ..).trans (String.append_assoc ..)⟩
      · obtain rfl := List.mem_singleton.1 h
        exact ⟨_, (String.append_assoc ..).trans (String.append_assoc ..)⟩
  rintro ⟨label, hlabel⟩
  obtain ⟨rest, hrest⟩ := htext
  have hchars := congrArg String.toList (hrest.symm.trans hlabel)
  simp at hchars

theorem Message.Refuses.not_onRequest {named : List (Attempt σ)} (h : m.Refuses input named) :
    ¬ m.OnRequest := by
  obtain ⟨-, seen, labels, -, htext⟩ := h
  rintro ⟨label, hlabel⟩
  -- the first character is a digit
  have hchars := congrArg String.toList (htext.symm.trans hlabel)
  obtain ⟨digit, digits, hdigits⟩ : ∃ digit digits, Nat.toDigits 10 seen = digit :: digits :=
    List.exists_cons_of_ne_nil Nat.toDigits_ne_nil
  have hmem : digit ∈ Nat.toDigits 10 seen := by
    rw [hdigits]
    exact List.mem_cons_self
  have hdigit : digit.isDigit = true := Nat.isDigit_of_mem_toDigits (by decide) (by decide) hmem
  simp [Nat.toString_eq_repr, Nat.toList_repr, hdigits] at hchars
  rw [hchars.1] at hdigit
  exact absurd hdigit (by decide)

/-- A report says of nobody that they have asked to stop, unless a macro has written so. -/
theorem quoted_of_onRequest (hm : m ∈ report enabled attempts input worst) (h : m.OnRequest) :
    ∃ a ∈ attempts, ∃ m' ∈ a.messages, m = a.entry.quote m' := by
  by_cases hsilent : Silent attempts input worst
  · rw [report_of_silent enabled attempts input worst hsilent] at hm
    exact absurd h (not_onRequest_of_mem_ambiguity hm)
  · rw [report_eq enabled attempts input worst hsilent] at hm
    rcases List.mem_append.1 hm with hm | hm
    · exact absurd h (not_onRequest_of_mem_ambiguity hm)
    rcases List.mem_append.1 hm with hm | hm
    · unfold refusal at hm
      split at hm
      · rcases reportRefusal_refuses attempts input _ with ⟨-, hnone⟩ | ⟨-, m', hsome, hrefuses⟩
        · rw [hnone] at hm
          simp at hm
        · rw [hsome] at hm
          obtain rfl := List.mem_singleton.1 hm
          exact absurd h hrefuses.not_onRequest
      · simp at hm
    · obtain ⟨a, ha, hm⟩ := List.mem_flatMap.1 hm
      obtain ⟨m', hm', rfl⟩ := List.mem_map.1 hm
      exact ⟨a, ha, m', mem_of_mem_passedOn hm', rfl⟩

end OnRequest

/-- What a sink has got when a macro has asked to stop at the dispatch of a node: one message on the
request, and reports.  Another message that says the same is one that a macro of the log has written
itself, with its label in front. -/
def ToldOnce (log : List (Event σ)) (s s' : State σ) (e : Entry σ) (node : Node) : Prop :=
  ∃ earlier later, s'.sink.messages = s.sink.messages ++ (earlier ++ cancelMessage e node :: later) ∧
    ∀ m ∈ earlier ++ later, m.OnRequest →
      ∃ u, (∃ event ∈ log, event.IsTurn u) ∧ ∃ m' ∈ u.attempt.messages, m = u.entry.quote m'

theorem toldOnce {log : List (Event σ)} {s s' : State σ} {marks : List (Mark σ)}
    {hs : List (Hearing σ)} {node : Node} {us : List (Turn σ)} {e : Entry σ}
    (hrecorded : Recorded s s' marks) (hhearings : hearingsOf marks = hs ++ [⟨node, us, some e⟩])
    (hunstopped : ∀ h ∈ hs, h.stoppedBy = none)
    (hturns : ∀ h ∈ hearingsOf marks, ∀ u ∈ h.turns, ∃ event ∈ log, event.IsTurn u) :
    ToldOnce log s s' e node := by
  have herror : s.sink.enabled .error = true := decide_eq_true (Severity.le_error s.sink.least)
  have hlast : Hearing.reaching s.sink ⟨node, us, some e⟩ = cancelMessage e node ::
      (report s.sink.enabled (us.map Turn.attempt) node (some .error)).filter
        (s.sink.enabled ·.severity) :=
    List.filter_cons_of_pos herror
  have hmessages := hrecorded.messages
  rw [hhearings, List.flatMap_append, List.flatMap_singleton, hlast] at hmessages
  rw [hhearings, List.forall_mem_append, List.forall_mem_singleton] at hturns
  refine ⟨_, _, hmessages, fun m hm hrequest => ?_⟩
  -- the message is part of a report
  have hreport : ∃ (turns : List (Turn σ)) (node : Node) (worst : Option Severity),
      (∀ u ∈ turns, ∃ event ∈ log, event.IsTurn u) ∧
        m ∈ report s.sink.enabled (turns.map Turn.attempt) node worst := by
    rcases List.mem_append.1 hm with hm | hm
    · obtain ⟨h, hmem, hm⟩ := List.mem_flatMap.1 hm
      have htold := (List.mem_filter.1 hm).1
      rw [Hearing.told, hunstopped h hmem] at htold
      exact ⟨h.turns, h.node, _, hturns.1 h hmem, htold⟩
    · exact ⟨us, node, _, hturns.2, (List.mem_filter.1 hm).1⟩
  obtain ⟨turns, node', worst, hlog, hm⟩ := hreport
  obtain ⟨a, ha, m', hm', rfl⟩ := quoted_of_onRequest hm hrequest
  obtain ⟨u, hu, rfl⟩ := List.mem_map.1 ha
  exact ⟨u, hlog u hu, m', hm', rfl⟩

/-! ### Stopped runs -/

section Stopped

variable {t : Expander σ} {now : Nat} {before before' after : List (Event σ)} {event last : Event σ}

/-- If nobody asks to stop before the last event, a request to stop is the last event. -/
theorem eq_last_of_stops (h : before' ++ [last] = before ++ event :: after)
    (hgoing : ∀ event ∈ before', ¬ event.Stops) (hstops : event.Stops) :
    before' = before ∧ last = event ∧ after = [] := by
  rcases List.eq_nil_or_concat after with rfl | ⟨after, latest, rfl⟩
  · obtain ⟨hbefore, hlast⟩ := List.append_inj' h rfl
    exact ⟨hbefore, (List.cons.inj hlast).1, rfl⟩
  · rw [List.concat_eq_append, ← List.cons_append, ← List.append_assoc] at h
    obtain ⟨rfl, -⟩ := List.append_inj' h rfl
    exact absurd hstops (hgoing event (List.mem_append_right before List.mem_cons_self))

/-- Outside of all dispatches, one that is under way began on the way. -/
theorem Dispatching.underWay {chain : Chain} {budget : Nat} {node : Node}
    (h : Dispatching t none now before chain budget node) :
    ∃ start, UnderWay start before chain budget node ∧
      ∀ earlier, earlier <+: start → t.token.isCancelled (timeAfter now earlier) = false := by
  rcases h with ⟨us, ⟨⟩, -⟩ | ⟨start, hstart, hgoing⟩
  refine ⟨start, hstart, fun earlier hearlier => Bool.eq_false_iff.2 fun hcancelled => ?_⟩
  have hlater := CancelToken.isCancelled_mono (timeAfter_le_of_isPrefix hearlier) hcancelled
  exact absurd (hgoing.symm.trans hlater) Bool.false_ne_true

/-- **A request to stop is the last event of a halt**, made by a dispatch that is under way, and it
is told once. -/
theorem Halt.request_last {s s' : State σ} {marks : List (Mark σ)} (h : Halt t none s marks s')
    (hlog : eventsOf marks = before ++ event :: after) {e : Entry σ} {input : Node} {s₁ : State σ}
    (hinvoked : event.action = .invoked e input s₁)
    (hcancelled : (e.callable.run s₁.shared input s₁.scopes).outcome = .cancelled) :
    after = [] ∧ ∃ start node, UnderWay start before event.chain event.budget node ∧
      ToldOnce (eventsOf marks) s s' e node := by
  obtain ⟨before', last, hevents, hgoing, hcut⟩ := h.halted.cut
  obtain ⟨rfl, rfl, rfl⟩ := eq_last_of_stops (hevents.symm.trans hlog) hgoing
    ⟨e, input, s₁, hinvoked, hcancelled⟩
  have hnone : Withheld (fun u => ∃ event ∈ eventsOf marks, event.IsTurn u) none := by
    rintro f ⟨⟩
  have hheard := h.forall_heard (fun event hevent u hu => ⟨event, hevent, hu⟩) hnone
  generalize hhearings : hearingsOf marks = hs at hcut
  cases hcut with
  | found => cases hinvoked
  | asked us _ hdispatching hunstopped =>
      cases hinvoked
      obtain ⟨start, hstart, -⟩ := hdispatching.underWay
      exact ⟨rfl, start, _, hstart, toldOnce h.recorded hhearings hunstopped hheard⟩

/-- A halt has one of two causes. -/
theorem Halt.cause {s s' : State σ} {marks : List (Mark σ)} (h : Halt t none s marks s') :
    (∃ event ∈ eventsOf marks, event.Stops) ∨
      ∃ before chain budget node, eventsOf marks = before ++ [⟨chain, budget, .entered node⟩] ∧
        budget ≠ 0 ∧ t.token.isCancelled (timeAfter s.now before) = true := by
  obtain ⟨before, last, hevents, -, hcut⟩ := h.halted.cut
  generalize hearingsOf marks = hs at hcut
  rw [hevents]
  cases hcut with
  | found hpaid hcancelled _ => exact .inr ⟨before, _, _, _, rfl, hpaid, hcancelled⟩
  | asked us hstops _ _ =>
      exact .inl ⟨_, List.mem_append_right before List.mem_cons_self, _, _, _, rfl, hstops⟩

end Stopped

namespace Expander

end Expander

end MacroForest
