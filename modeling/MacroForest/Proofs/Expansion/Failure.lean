/-
**A macro that fails is a macro that declines.**

A failure is contained.  Take a table, and let some of its macros decline where they fail, with the
same messages and the same effects.  The two expansions are in lockstep: they give the same answer
and the same scopes, and they invoke the same macros on the same nodes.  So a failure has no part in
who wins, in which tiers are asked, or in what is visible later.

What differs are the messages, and only they do.  Each failing turn adds one error, the text of the
failure behind the label of its macro, and it is about the node that was dispatched, also if the
macro was given a prepared one.  The error has two effects on the rest of the report of its tier.
The refusal of a call in bang style is as severe as the worst that was written, so it is raised to
an error (`MacroForest.Expander.refusal_raised`).  And where a tier would not be told of at all, it
is, and with the error the details that its macros have begun with.  `MacroForest.Aggravated` is the
exact account of this, tier by tier, for an expansion that gives an answer.

Main definitions:

* `MacroForest.Choice` — on which of their inputs macros are to decline instead of failing;
* `MacroForest.Entry.soften`, `MacroForest.Table.soften` — the macros that do so;
* `MacroForest.Turn.failures` — the error of a turn that fails where it was to decline;
* `MacroForest.Hearing.mildRefusal`, `MacroForest.Hearing.raisedRefusal`,
  `MacroForest.Hearing.brokenSilence` — what becomes of the report of a tier besides;
* `MacroForest.Aggravated` — what failures do to the messages of a run;
* `MacroForest.Lockstep.soften` — a table and its softened one, in lockstep.

Main results:

* `MacroForest.withBuiltins_soften` — the built-in macros do not fail;
* `MacroForest.Hearing.told_soften` — what failures do to one report;
* `MacroForest.Expander.failing_as_declining` — **failing is declining, with an error**.
-/

import MacroForest.Proofs.Expansion.Heard

set_option relaxedAutoImplicit false
set_option autoImplicit false

namespace MacroForest

variable {σ : Type}

/-! ### Declining instead of failing -/

/-- On which inputs a macro is to decline instead of failing, given the shared state, the node and
the scopes. -/
abbrev Choice (σ : Type) := Entry σ → σ → Node → ScopeStack → Bool

/-- The outcome with a failure turned into a decline. -/
def Outcome.soften (o : Outcome) : Outcome :=
  match o.failure? with
  | some _ => .declined
  | none => o

/-- The macro that declines where it is to, after the same messages and with the same effects. -/
def Entry.soften (choice : Choice σ) (e : Entry σ) : Entry σ :=
  { e with
    callable := ⟨e.callable.id, fun state node scopes =>
      let reply := e.callable.run state node scopes
      if choice e state node scopes then { reply with outcome := reply.outcome.soften } else reply⟩ }

/-- The table with its macros softened. -/
def Table.soften (choice : Choice σ) (t : Table σ) : Table σ :=
  ⟨t.buckets.map fun b => ⟨b.name, b.entries.map (·.soften choice)⟩⟩

/-- The expander with its macros softened. -/
def Expander.soften (choice : Choice σ) (t : Expander σ) : Expander σ :=
  { t with table := t.table.soften choice }

namespace Outcome

theorem output?_soften (o : Outcome) : o.soften.output? = o.output? := by cases o <;> rfl

theorem soften_eq_cancelled (o : Outcome) : o.soften = .cancelled ↔ o = .cancelled := by
  cases o <;> simp [soften, failure?]

theorem failure?_soften (o : Outcome) : o.soften.failure? = none := by cases o <;> rfl

theorem soften_of_no_failure {o : Outcome} (h : o.failure? = none) : o.soften = o := by
  unfold soften
  rw [h]

end Outcome

/-! ### Softened tables -/

section Tables

variable (choice : Choice σ)

/-- A macro that never fails is the same as before. -/
theorem Entry.soften_eq_self {e : Entry σ}
    (h : ∀ state node scopes, (e.callable.run state node scopes).outcome.failure? = none) :
    e.soften choice = e := by
  have hrun : (e.soften choice).callable.run = e.callable.run := by
    funext state node scopes
    dsimp only [Entry.soften]
    split
    · rw [Outcome.soften_of_no_failure (h state node scopes)]
    · rfl
  have hcallable : (e.soften choice).callable = e.callable :=
    congrArg (Callable.mk e.callable.id) hrun
  exact congrArg (fun callable => { e with callable := callable }) hcallable

/-- The built-in macros do not fail. -/
theorem soften_builtins : (builtins σ).map (·.soften choice) = builtins σ := by
  refine (List.map_congr_left fun e he => Entry.soften_eq_self choice ?_).trans (List.map_id _)
  intro state node scopes
  simp only [builtins, List.mem_cons, List.not_mem_nil, or_false] at he
  rcases he with rfl | rfl | rfl | rfl | rfl
  · rfl
  · rfl
  · rfl
  · rfl
  · dsimp only [Builtin.entry, Builtin.onVerbatim, Reply.quiet]
    split <;> rfl

namespace Table

theorem named_soften (t : Table σ) (name : String) :
    (t.soften choice).named name = (t.named name).map (·.soften choice) := by
  have hfind : (t.soften choice).buckets.find? (·.name == name) =
      (t.buckets.find? (·.name == name)).map fun b => ⟨b.name, b.entries.map (·.soften choice)⟩ :=
    List.find?_map
  unfold named
  rw [hfind]
  cases t.buckets.find? (·.name == name) with
  | none => rfl
  | some bucket => rfl

theorem insertInto_soften (e : Entry σ) (buckets : List (Bucket σ)) :
    insertInto (e.soften choice)
        (buckets.map fun b => ⟨b.name, b.entries.map (·.soften choice)⟩) =
      (insertInto e buckets).map fun b => ⟨b.name, b.entries.map (·.soften choice)⟩ := by
  induction buckets with
  | nil => rfl
  | cons bucket buckets ih =>
      rw [List.map_cons, insertInto, insertInto]
      by_cases hname : bucket.name = e.name
      · rw [if_pos hname, if_pos (show bucket.name = (e.soften choice).name from hname)]
        simp
      · rw [if_neg hname, if_neg (show ¬ bucket.name = (e.soften choice).name from hname), ih]
        rfl

theorem register_soften (t : Table σ) (e : Entry σ) :
    (t.soften choice).register (e.soften choice) =
      ((t.register e).1, (t.register e).2.soften choice) := by
  have hname : (e.soften choice).name = e.name := rfl
  have hknown : ((t.soften choice).named e.name).any
      (·.callable.id = (e.soften choice).callable.id) =
        (t.named e.name).any (·.callable.id = e.callable.id) := by
    rw [named_soften, List.any_map]
    rfl
  unfold register
  rw [hname, hknown]
  split
  · rfl
  · exact congrArg (fun buckets => (true, Table.mk buckets)) (insertInto_soften choice e t.buckets)

theorem addAll_soften (t : Table σ) (es : List (Entry σ)) :
    (t.soften choice).addAll (es.map (·.soften choice)) =
      ((t.addAll es).1, (t.addAll es).2.soften choice) := by
  unfold addAll
  generalize false = new
  induction es generalizing t new with
  | nil => rfl
  | cons e es ih =>
      rw [List.map_cons, List.foldl_cons, List.foldl_cons]
      dsimp only
      rw [register_soften]
      exact ih _ _

/-- Softening leaves the built-in macros alone. -/
theorem withBuiltins_soften (t : Table σ) :
    (t.soften choice).withBuiltins = t.withBuiltins.soften choice := by
  have hadded := addAll_soften choice t (builtins σ)
  rw [soften_builtins] at hadded
  rw [withBuiltins, withBuiltins, hadded]

end Table

namespace Expander

theorem candidates_soften (t : Expander σ) (scopes : ScopeStack) (n : Node) :
    (t.soften choice).candidates scopes n = (t.candidates scopes n).map (·.soften choice) := by
  have hlookup : ∀ name, (t.table.soften choice).lookup scopes.current name =
      (t.table.lookup scopes.current name).map (·.soften choice) := by
    intro name
    rw [Table.lookup, Table.named_soften, List.filter_map]
    rfl
  have hlookupIn : ∀ space name, (t.table.soften choice).lookupIn space name =
      (t.table.lookupIn space name).map (·.soften choice) := by
    intro space name
    rw [Table.lookupIn, Table.named_soften, List.filter_map]
    rfl
  unfold candidates soften
  dsimp only
  split
  · cases n.headName? with
    | none => rfl
    | some name => exact hlookup name
  · cases n.target?.bind (·.qualified?) with
    | none => rfl
    | some qualified => exact hlookupIn qualified.1 qualified.2

theorem create_soften (table : Table σ) (preOpened : NameSet) (budget : Nat) (token : CancelToken) :
    create (table.soften choice) preOpened budget token =
      (create table preOpened budget token).soften choice := by
  unfold create soften
  rw [Table.withBuiltins_soften]

end Expander

end Tables

/-! ### Softened turns and hearings -/

namespace Turn

variable (choice : Choice σ)

/-- The same turn of the softened macro. -/
def soften (u : Turn σ) : Turn σ := { u with entry := u.entry.soften choice }

/-- The error of a turn that fails where its macro was to decline.  It is about the node that was
dispatched. -/
def failures (u : Turn σ) : List Message :=
  if choice u.entry u.shared u.input u.scopes then
    u.reply.outcome.failure?.toList.map fun text => ⟨.error, u.node, text⟩
  else []

theorem severity_of_mem_failures {u : Turn σ} {m : Message} (h : m ∈ u.failures choice) :
    m.severity = .error := by
  unfold failures at h
  split at h
  · obtain ⟨_, -, rfl⟩ := List.mem_map.1 h
    rfl
  · simp at h

/-- All but the outcome of the softened turn is the same. -/
theorem reply_soften (u : Turn σ) : (u.soften choice).reply =
    { u.reply with
      outcome := if choice u.entry u.shared u.input u.scopes then u.reply.outcome.soften
        else u.reply.outcome } := by
  unfold reply soften Entry.soften
  dsimp only
  split <;> rfl

theorem output?_soften (u : Turn σ) :
    (u.soften choice).reply.outcome.output? = u.reply.outcome.output? := by
  rw [reply_soften]
  dsimp only
  split
  · exact u.reply.outcome.output?_soften
  · rfl

theorem cancelled_soften (u : Turn σ) :
    (u.soften choice).reply.outcome = .cancelled ↔ u.reply.outcome = .cancelled := by
  rw [reply_soften]
  dsimp only
  split
  · exact u.reply.outcome.soften_eq_cancelled
  · rfl

/-- What is reported of a turn, and of the softened one. -/
theorem attempt_adds (u : Turn σ) :
    u.attempt.Adds (u.failures choice) (u.soften choice).attempt := by
  refine ⟨rfl, rfl, u.output?_soften choice, ?_, fun m hm => severity_of_mem_failures choice hm⟩
  unfold attempt attemptOf failures
  rw [reply_soften]
  dsimp only
  split
  · rw [Outcome.failure?_soften]
    simp
  · simp [soften]

end Turn

namespace Hearing

variable (choice : Choice σ)

/-- The same hearing of the softened macros. -/
def soften (h : Hearing σ) : Hearing σ :=
  ⟨h.node, h.turns.map (·.soften choice), h.stoppedBy.map (·.soften choice)⟩

theorem worstOf_of_error {attempts : List (Attempt σ)} {a : Attempt σ} {m : Message}
    (ha : a ∈ attempts) (hm : m ∈ a.messages) (herror : m.severity = .error) :
    worstOf attempts = some .error := by
  refine Severity.maximum?_of_error (List.mem_map.2 ⟨m, ?_, herror⟩)
  exact List.mem_flatMap.2 ⟨a, ha, hm⟩

/-- Some macro fails where it was to decline, and none asks to stop. -/
def failing (h : Hearing σ) : Bool :=
  h.stoppedBy.isNone && h.turns.any fun u => !(u.failures choice).isEmpty

/-- The refusal as it would be without the failures: as severe as the worst that is written
otherwise, and at least a warning. -/
def mildRefusal (enabled : Severity → Bool) (h : Hearing σ) : List Message :=
  if h.failing choice then (h.soften choice).refusals enabled else []

/-- The refusal that the failures have raised to an error. -/
def raisedRefusal (enabled : Severity → Bool) (h : Hearing σ) : List Message :=
  if h.failing choice then refusal enabled h.attempts h.node (some .error) else []

/-- The details that are told because of the failures: those that the macros have begun with, if
without the failures nothing would have been told. -/
def brokenSilence (enabled : Severity → Bool) (h : Hearing σ) : List Message :=
  let written := (h.soften choice).attempts
  if h.failing choice && decide (Silent written h.node (worstOf written)) then
    openingDetails enabled written
  else []

section Heard

variable {enabled : Severity → Bool} {h : Hearing σ} {m : Message}

theorem enabled_of_mem_mildRefusal (hm : m ∈ h.mildRefusal choice enabled) :
    enabled m.severity = true := by
  unfold mildRefusal at hm
  split at hm
  · exact enabled_of_mem_refusal hm
  · simp at hm

theorem enabled_of_mem_raisedRefusal (hm : m ∈ h.raisedRefusal choice enabled) :
    enabled m.severity = true := by
  unfold raisedRefusal at hm
  split at hm
  · exact enabled_of_mem_refusal hm
  · simp at hm

theorem enabled_of_mem_brokenSilence (hm : m ∈ h.brokenSilence choice enabled) :
    enabled m.severity = true := by
  unfold brokenSilence at hm
  dsimp only at hm
  split at hm
  · exact enabled_of_mem_openingDetails hm
  · simp at hm

end Heard

theorem attempts_soften (h : Hearing σ) :
    (h.soften choice).attempts = h.turns.map fun u => (u.soften choice).attempt := by
  simp [attempts, soften]

theorem failing_iff {h : Hearing σ} (hstopped : h.stoppedBy = none) :
    h.failing choice = true ↔ ∃ u ∈ h.turns, u.failures choice ≠ [] := by
  simp [failing, hstopped]

/-- If nobody fails where it was to decline, the same is written. -/
theorem worstOf_soften {h : Hearing σ} (hnone : ∀ u ∈ h.turns, u.failures choice = []) :
    worstOf (h.soften choice).attempts = worstOf h.attempts := by
  have hwritten : ∀ u ∈ h.turns, (u.soften choice).attempt.messages = u.attempt.messages := by
    intro u hu
    rw [(u.attempt_adds choice).messages, hnone u hu, List.append_nil]
  rw [attempts_soften, attempts, worstOf, worstOf, List.flatMap_map, List.flatMap_map,
    List.flatMap_congr hwritten]

/-- A macro that fails where it was to decline has written an error. -/
theorem worstOf_of_failing {h : Hearing σ} (hfails : ∃ u ∈ h.turns, u.failures choice ≠ []) :
    worstOf h.attempts = some .error := by
  obtain ⟨u, hu, hne⟩ := hfails
  obtain ⟨m, hm⟩ := List.exists_mem_of_ne_nil _ hne
  refine worstOf_of_error (List.mem_map.2 ⟨u, hu, rfl⟩) ?_ (Turn.severity_of_mem_failures choice hm)
  rw [(u.attempt_adds choice).messages]
  exact List.mem_append_right _ hm

/-- **What failures do to one report.**  Their errors are added, a refusal is raised, and a silence
is broken. -/
theorem told_soften {enabled : Severity → Bool} (herror : enabled .error = true)
    (h : Hearing σ) :
    (h.told enabled ++ h.mildRefusal choice enabled).Perm
      ((h.soften choice).told enabled ++
        ((h.turns.flatMap fun u => (u.failures choice).map u.entry.quote) ++
          (h.raisedRefusal choice enabled ++ h.brokenSilence choice enabled))) := by
  have hadds : ∀ u : Turn σ, u.attempt.Adds (u.failures choice) (u.soften choice).attempt :=
    Turn.attempt_adds choice
  cases hstopped : h.stoppedBy with
  | some e =>
      -- there is an error in both reports, so that the failures add nothing but their own
      have hreport := report_adds_only hadds herror h.turns h.node (some .error)
        fun hsilent => absurd hsilent (not_silent_of_error _ h.node)
      have hfailing : h.failing choice = false := by simp [failing, hstopped]
      have hstopped' : (h.soften choice).stoppedBy = some (e.soften choice) := by
        rw [soften, hstopped, Option.map_some]
      rw [told, told, hstopped, hstopped', attempts_soften]
      simp only [mildRefusal, raisedRefusal, brokenSilence, hfailing, Bool.false_and,
        Bool.false_eq_true, if_false, List.append_nil]
      exact hreport.cons (cancelMessage e h.node)
  | none =>
      have hstopped' : (h.soften choice).stoppedBy = none := by
        rw [soften, hstopped, Option.map_none]
      by_cases hfails : ∃ u ∈ h.turns, u.failures choice ≠ []
      · have hworst : ∀ u ∈ h.turns, ∀ m ∈ (u.soften choice).attempt.messages,
            m.severity ≤ (worstOf (h.soften choice).attempts).getD .detail := by
          intro u hu m hm
          rw [attempts_soften]
          exact severity_le_worstOf (List.mem_map.2 ⟨u, hu, rfl⟩) hm
        have hreport := report_adds hadds herror h.turns h.node _ hworst
        have hfailing : h.failing choice = true := (failing_iff choice hstopped).2 hfails
        rw [told, told, hstopped, hstopped']
        simp only [worstOf_of_failing choice hfails, mildRefusal, raisedRefusal, brokenSilence,
          hfailing, Bool.true_and, decide_eq_true_eq, if_true, refusals]
        rw [← attempts_soften] at hreport
        exact hreport
      · have hnone : ∀ u ∈ h.turns, u.failures choice = [] := by
          intro u hu
          by_contra hne
          exact hfails ⟨u, hu, hne⟩
        have hreport := report_adds_only hadds herror h.turns h.node (worstOf h.attempts)
          fun _ => hnone
        have hfailing : h.failing choice = false :=
          Bool.eq_false_iff.2 fun hfailing => hfails ((failing_iff choice hstopped).1 hfailing)
        rw [told, told, hstopped, hstopped']
        simp only [worstOf_soften choice hnone, mildRefusal, raisedRefusal, brokenSilence, hfailing,
          Bool.false_and, Bool.false_eq_true, if_false, List.append_nil]
        rw [attempts_soften]
        exact hreport

end Hearing

/-! ### The two expansions in lockstep -/

/-- What holds of the two runs so far, from a sink at the start: they are in the same state but for
the messages, they have made the same dispatches and turns, and they have held the same hearings,
each of one tier. -/
structure Softened (choice : Choice σ) (k : Sink) (P : Pending σ) (x y : Trail σ) : Prop where
  shared : y.state.shared = x.state.shared
  scopes : y.state.scopes = x.state.scopes
  now : y.state.now = x.state.now
  openings : y.state.openings = x.state.openings
  path : pathOf y.log = pathOf x.log
  turns : turns y.log = (turns x.log).map (·.soften choice)
  pending : P.map (·.2) = (P.map (·.1)).map (·.soften choice)
  heard : ∃ hs, (∀ h ∈ hs, h.OneTier) ∧ Heard k hs (P.map (·.1)) x ∧
    Heard k (hs.map (·.soften choice)) (P.map (·.2)) y

namespace Softened

variable {choice : Choice σ} {k : Sink} {P Q : Pending σ} {x y : Trail σ}

theorem start (choice : Choice σ) (s : State σ) :
    Softened choice s.sink [] ⟨[], s⟩ ⟨[], s⟩ :=
  ⟨rfl, rfl, rfl, rfl, rfl, rfl, rfl, [], by simp, .start s, .start s⟩

theorem note (h : Softened choice k P x y) {event : Event σ} (hquiet : event.quiet = true) :
    Softened choice k P (x.note event) (y.note event) := by
  obtain ⟨hs, htiers, hx, hy⟩ := h.heard
  refine ⟨h.shared, h.scopes, h.now, h.openings, ?_, ?_, h.pending, hs, htiers, hx.note hquiet,
    hy.note hquiet⟩
  · rw [Trail.note, Trail.note, pathOf_snoc, pathOf_snoc, h.path]
  · rw [turns_note x hquiet, turns_note y hquiet, h.turns]

/-- A step that changes only the scopes or what is counted, and in both runs alike. -/
theorem update (h : Softened choice k P x y) (f : ScopeStack → ScopeStack) (elapsed opened : Nat) :
    Softened choice k P
      ⟨x.log, { x.state with
        scopes := f x.state.scopes
        now := x.state.now + elapsed
        openings := x.state.openings + opened }⟩
      ⟨y.log, { y.state with
        scopes := f y.state.scopes
        now := y.state.now + elapsed
        openings := y.state.openings + opened }⟩ := by
  obtain ⟨hs, htiers, hx, hy⟩ := h.heard
  exact ⟨h.shared, congrArg f h.scopes, congrArg (· + elapsed) h.now,
    congrArg (· + opened) h.openings, h.path, h.turns, h.pending, hs, htiers,
    ⟨hx.least, hx.messages, hx.accounted⟩, ⟨hy.least, hy.messages, hy.accounted⟩⟩

/-- The softened turn that a macro has in the second run. -/
theorem turn_eq (h : Softened choice k P x y) (e : Entry σ) (node input : Node) :
    y.turn (e.soften choice) node input = (x.turn e node input).soften choice := by
  rw [Trail.turn, Trail.turn, h.shared, h.scopes]
  rfl

theorem invoke (h : Softened choice k P x y) (chain : Chain) (budget : Nat) (e : Entry σ)
    {node : Node} (input : Node) (hpath : pathOf x.log chain.length = node) :
    Softened choice k (P ++ [(x.turn e node input, y.turn (e.soften choice) node input)])
      (x.invoke chain budget e input) (y.invoke chain budget (e.soften choice) input) := by
  obtain ⟨hs, htiers, hx, hy⟩ := h.heard
  have hturn := h.turn_eq e node input
  have hpath' : pathOf y.log chain.length = node := by rw [h.path, hpath]
  have hreply : (e.soften choice).callable.run y.state.shared input y.state.scopes =
      ((x.turn e node input).soften choice).reply := by
    rw [← hturn]
    rfl
  have hinvoked := hx.invoke chain budget e input hpath
  have hinvoked' := hy.invoke chain budget (e.soften choice) input hpath'
  refine ⟨?_, ?_, ?_, h.openings, ?_, ?_, ?_, hs, htiers, ?_, ?_⟩
  · dsimp only [Trail.invoke, State.after]
    rw [hreply, Turn.reply_soften]
    rfl
  · dsimp only [Trail.invoke, State.after]
    rw [hreply, Turn.reply_soften]
    rfl
  · dsimp only [Trail.invoke, State.after]
    rw [hreply, Turn.reply_soften, h.now]
    rfl
  · rw [Trail.invoke, Trail.invoke, pathOf_snoc, pathOf_snoc, h.path]
    rfl
  · rw [turns_invoke x chain budget e input hpath, turns_invoke y chain budget _ input hpath', hturn,
      h.turns, List.map_append]
    rfl
  · rw [List.map_append, List.map_append, List.map_append, h.pending]
    exact congrArg (_ ++ [·]) hturn
  · rw [List.map_append]
    exact hinvoked
  · rw [List.map_append]
    exact hinvoked'

theorem hear (h : Softened choice k (P ++ Q) x y) (node : Node) (stoppedBy : Option (Entry σ))
    (htier : Hearing.OneTier ⟨node, Q.map (·.1), stoppedBy⟩) :
    Softened choice k P (x.hear ⟨node, Q.map (·.1), stoppedBy⟩)
      (y.hear ⟨node, Q.map (·.2), stoppedBy.map (·.soften choice)⟩) := by
  obtain ⟨hs, htiers, hx, hy⟩ := h.heard
  have hpending := h.pending
  rw [List.map_append, List.map_append, List.map_append] at hpending
  obtain ⟨hP, hQ⟩ := List.append_inj hpending (by simp)
  rw [List.map_append] at hx hy
  refine ⟨h.shared, h.scopes, h.now, h.openings, h.path, h.turns, hP,
    hs ++ [⟨node, Q.map (·.1), stoppedBy⟩], ?_, hx.hear node stoppedBy, ?_⟩
  · exact List.forall_mem_append.2 ⟨htiers, List.forall_mem_singleton.2 htier⟩
  have hsoft : Hearing.soften choice ⟨node, Q.map (·.1), stoppedBy⟩ =
      ⟨node, Q.map (·.2), stoppedBy.map (·.soften choice)⟩ := by
    rw [Hearing.soften, hQ]
  rw [List.map_append, List.map_singleton, hsoft]
  exact hy.hear node (stoppedBy.map (·.soften choice))

end Softened

/-- A table and its softened one in lockstep, with account of the hearings since a sink at the
start. -/
def Lockstep.soften (choice : Choice σ) (t : Expander σ) (k : Sink) :
    Lockstep t (t.soften choice) where
  Entries e₁ e₂ := e₂ = e₁.soften choice
  Inv := Softened choice k
  mode h := by
    rw [h]
    rfl
  found h n := by
    rw [Expander.candidates_soften, h.scopes, List.forall₂_map_right_iff]
    exact List.forall₂_same.2 fun _ _ => rfl
  token h := by
    rw [h.now]
    rfl
  note h _ hquiet := h.note hquiet
  openings h := h.openings
  opening h := h.update id 0 1
  tick h := h.update id 1 0
  push h := h.update ScopeStack.push 0 0
  pop h := h.update ScopeStack.pop 0 0
  invoke h he chain budget node input hx _ := by
    subst he
    exact h.invoke chain budget _ input hx
  output h he node input := by
    subst he
    rw [h.turn_eq]
    exact Turn.output?_soften choice _
  cancelled h he node input := by
    subst he
    rw [h.turn_eq]
    exact Turn.cancelled_soften choice _
  report h node htier := h.hear node none htier
  stop h he node htier := by
    subst he
    exact h.hear node (some _) htier

/-- What failures do to the messages of a run.  The two runs have held the same hearings, each of
one tier, and all turns were heard.  The messages of the first run are those of the second one with
an error for each failure; besides, the refusals are raised of the tiers with a failure, and their
silence is broken. -/
structure Aggravated (choice : Choice σ) (k : Sink) (hs : List (Hearing σ)) (x y : Trail σ) :
    Prop where
  tiers : ∀ h ∈ hs, h.OneTier
  first : Heard k hs [] x
  second : Heard k (hs.map (·.soften choice)) [] y
  balance : (x.state.sink.messages ++ hs.flatMap (·.mildRefusal choice k.enabled)).Perm
    (y.state.sink.messages ++
      ((turns x.log).flatMap (fun u => (u.failures choice).map u.entry.quote) ++
        (hs.flatMap (·.raisedRefusal choice k.enabled) ++
          hs.flatMap (·.brokenSilence choice k.enabled))))

/-- What failures do to the reports of some hearings. -/
theorem flatMap_told_soften (choice : Choice σ) {enabled : Severity → Bool}
    (herror : enabled .error = true) (hs : List (Hearing σ)) :
    (hs.flatMap (·.told enabled) ++ hs.flatMap (·.mildRefusal choice enabled)).Perm
      ((hs.map (·.soften choice)).flatMap (·.told enabled) ++
        ((hs.flatMap (·.turns)).flatMap (fun u => (u.failures choice).map u.entry.quote) ++
          (hs.flatMap (·.raisedRefusal choice enabled) ++
            hs.flatMap (·.brokenSilence choice enabled)))) := by
  rw [List.flatMap_map, List.flatMap_assoc]
  have hall := List.Perm.flatMap_left hs fun h _ => h.told_soften choice herror
  refine (List.flatMap_append_perm hs _ _).trans (hall.trans ?_)
  refine (List.flatMap_append_perm hs _ _).symm.trans (.append_left _ ?_)
  refine (List.flatMap_append_perm hs _ _).symm.trans (.append_left _ ?_)
  exact (List.flatMap_append_perm hs _ _).symm

/-- Messages that are heard stay if the others are left out. -/
theorem filter_flatMap_heard {ι : Type} {enabled : Severity → Bool} {f : ι → List Message}
    (h : ∀ i, ∀ m ∈ f i, enabled m.severity = true) (is : List ι) :
    (is.flatMap f).filter (enabled ·.severity) = is.flatMap f := by
  refine List.filter_eq_self.2 fun m hm => ?_
  obtain ⟨i, -, hm⟩ := List.mem_flatMap.1 hm
  exact h i m hm

/-- What failures do to the messages of a run in which all turns were heard. -/
theorem Softened.aggravated {choice : Choice σ} {k : Sink} {x y : Trail σ}
    (h : Softened choice k [] x y) : ∃ hs, Aggravated choice k hs x y := by
  obtain ⟨hs, htiers, hx, hy⟩ := h.heard
  refine ⟨hs, htiers, hx, hy, ?_⟩
  have herror : k.enabled .error = true := decide_eq_true (Severity.le_error k.least)
  have herrors : ∀ u : Turn σ, ∀ m ∈ (u.failures choice).map u.entry.quote,
      k.enabled m.severity = true := by
    intro u m hm
    obtain ⟨m', hm', rfl⟩ := List.mem_map.1 hm
    have hsevere : m'.severity = .error := Turn.severity_of_mem_failures choice hm'
    exact (congrArg k.enabled hsevere).trans herror
  have hreports := (flatMap_told_soften choice herror hs).filter (k.enabled ·.severity)
  simp only [List.filter_append, filter_flatMap_heard herrors,
    filter_flatMap_heard fun _ _ => Hearing.enabled_of_mem_mildRefusal choice,
    filter_flatMap_heard fun _ _ => Hearing.enabled_of_mem_raisedRefusal choice,
    filter_flatMap_heard fun _ _ => Hearing.enabled_of_mem_brokenSilence choice] at hreports
  -- the turns of the hearings are those of the log
  have hturns : (MacroForest.turns x.log).Perm (hs.flatMap (·.turns)) := by
    simpa using hx.accounted
  rw [hx.messages, hy.messages, List.append_assoc, List.append_assoc]
  refine .append_left _ (hreports.trans (.append_left _ (.append_right _ ?_)))
  exact hturns.symm.flatMap_right _

namespace Expander

/-- **Failing is declining, with an error.**  Let some macros of a table decline where they fail,
after the same messages and with the same effects.  The expansion of a forest gives the same answer,
or is stopped as well, in the same scopes, and has the same turns.  If it gives an answer, its
messages are those of the other one with an error for each turn that fails where it was to decline,
namely the text of the failure behind the label of the macro, about the node that was dispatched.
Besides, in a tier with such a turn the refusal of a call in bang style is an error, and the details
are told that the macros of a tier begin with which would not be told of at all. -/
theorem failing_as_declining (choice : Choice σ) (table : Table σ) (preOpened : NameSet)
    (budget : Nat) (token : CancelToken) (nodes : Forest) (s : State σ) :
    let t₁ := create table preOpened budget token
    let t₂ := create (table.soften choice) preOpened budget token
    let r₁ := t₁.expandForest nodes s
    let r₂ := t₂.expandForest nodes s
    ∃ log₁ log₂ enough,
      (∀ fuel, enough ≤ fuel → t₁.forestRun fuel nodes s = some (r₁, log₁) ∧
        t₂.forestRun fuel nodes s = some (r₂, log₂)) ∧
      r₂.1 = r₁.1 ∧ r₂.2.scopes = r₁.2.scopes ∧ r₂.2.shared = r₁.2.shared ∧ r₂.2.now = r₁.2.now ∧
      turns log₂ = (turns log₁).map (·.soften choice) ∧
      ((∃ output, r₁.1 = .ok output) →
        ∃ hs, Aggravated choice s.sink hs ⟨log₁, r₁.2⟩ ⟨log₂, r₂.2⟩) := by
  intro t₁ t₂ r₁ r₂
  have ht₂ : t₂ = t₁.soften choice := create_soften choice table preOpened budget token
  clear_value t₁ t₂
  subst ht₂
  obtain ⟨log₁, log₂, enough, lost, hruns, hanswer, hinv, hlost⟩ :=
    expandForest_abreast (.soften choice t₁ s.sink) nodes rfl
      (Softened.start choice { s with scopes := t₁.rootScopes })
  refine ⟨log₁, log₂, enough, hruns, hanswer, hinv.scopes, hinv.shared, hinv.now, hinv.turns, ?_⟩
  intro hok
  obtain rfl : lost = [] := hlost (.inl hok)
  exact hinv.aggravated

theorem failing_as_declining_crashing :
    let choice : Choice Unit := fun _ _ _ _ => true
    let table : Table Unit := ⟨[⟨"m", [
      writing 0 { childrenBefore := true } [.detail, .debug] (.crashed none),
      writing 1 { priority := .fallback } [] .declined]⟩]⟩
    let t₁ := create table [] 100 {}
    let t₂ := create (table.soften choice) [] 100 {}
    let s := t₁.initial () (.empty .detail)
    let forest := [Node.invokeName "m" [.ident "x"]]
    let r₁ := t₁.expandForest forest s
    let r₂ := t₂.expandForest forest s
    r₁.1.toOption = some forest ∧
      r₁.2.sink.messages =
        [⟨.detail, .invokeName "m" [.ident "x"], "m: careful"⟩,
          ⟨.error, .invokeName "m" [.ident "x"], "m: macro panicked: unknown panic"⟩] ∧
      r₂.2.sink.messages = [] ∧
      ∃ log₁ log₂, turns log₂ = (turns log₁).map (·.soften choice) ∧
        ∃ hs, Aggravated choice s.sink hs ⟨log₁, r₁.2⟩ ⟨log₂, r₂.2⟩ := by
  intro choice table t₁ t₂ s forest r₁ r₂
  have hseen₁ : (r₁.1.toOption, r₁.2.sink.messages) = (some forest,
      [⟨.detail, .invokeName "m" [.ident "x"], "m: careful"⟩,
        ⟨.error, .invokeName "m" [.ident "x"], "m: macro panicked: unknown panic"⟩]) :=
    (t₁.forestRun_answers 4 forest).view (fun r => (r.1.toOption, r.2.sink.messages))
      (by decide +kernel)
  have hmessages₂ : r₂.2.sink.messages = [] :=
    (t₂.forestRun_answers 4 forest).view (·.2.sink.messages) (by decide +kernel)
  obtain ⟨houtput, hmessages₁⟩ := Prod.mk.inj hseen₁
  obtain ⟨log₁, log₂, -, -, -, -, -, -, hturns, haggravated⟩ :=
    failing_as_declining choice table [] 100 {} forest s
  refine ⟨houtput, hmessages₁, hmessages₂, log₁, log₂, hturns, haggravated ⟨forest, ?_⟩⟩
  change r₁.1 = _
  cases hr : r₁.1 with
  | error c => simp [hr, Except.toOption] at houtput
  | ok output => simpa [hr, Except.toOption] using houtput

/-- **A failure raises the refusal.**  The only macro for a call in bang style fails.  That it has
declined the call is told as an error, and as a warning if it declines instead, so that more differs
than the error for the failure. -/
theorem refusal_raised :
    let choice : Choice Unit := fun _ _ _ _ => true
    let table : Table Unit := ⟨[⟨"m", [writing 0 {} [] (.failed "boom")]⟩]⟩
    let t₁ := create table [] 100 {}
    let t₂ := create (table.soften choice) [] 100 {}
    let s := t₁.initial () (.empty .detail)
    let node := (Node.invokeName "m" [.ident "x"]).withStyle .bang
    let refused := "1 macro(s) saw the input and declined to process it: m"
    let r₁ := t₁.expandForest [node] s
    let r₂ := t₂.expandForest [node] s
    r₁.1.toOption = some [node] ∧ r₂.1.toOption = some [node] ∧
      r₁.2.sink.messages = [⟨.error, node, refused⟩, ⟨.error, node, "m: boom"⟩] ∧
      r₂.2.sink.messages = [⟨.warning, node, refused⟩] ∧
      ¬ r₁.2.sink.messages.Perm (r₂.2.sink.messages ++ [⟨.error, node, "m: boom"⟩]) := by
  intro choice table t₁ t₂ s node refused r₁ r₂
  have hseen₁ : (r₁.1.toOption, r₁.2.sink.messages) =
      (some [node], [⟨.error, node, refused⟩, ⟨.error, node, "m: boom"⟩]) :=
    (t₁.forestRun_answers 4 [node]).view (fun r => (r.1.toOption, r.2.sink.messages))
      (by decide +kernel)
  have hseen₂ : (r₂.1.toOption, r₂.2.sink.messages) =
      (some [node], [⟨.warning, node, refused⟩]) :=
    (t₂.forestRun_answers 4 [node]).view (fun r => (r.1.toOption, r.2.sink.messages))
      (by decide +kernel)
  obtain ⟨houtput₁, hmessages₁⟩ := Prod.mk.inj hseen₁
  obtain ⟨houtput₂, hmessages₂⟩ := Prod.mk.inj hseen₂
  refine ⟨houtput₁, houtput₂, hmessages₁, hmessages₂, ?_⟩
  rw [hmessages₁, hmessages₂]
  decide

end Expander

end MacroForest
