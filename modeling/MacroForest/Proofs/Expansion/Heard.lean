/-
**Nothing severe is lost, unless the expansion is stopped while a tier waits.**

A run holds hearings, and what its sink gets are their reports.  Each turn of the log is part of one
hearing, with the exception of turns that are lost: those of a tier that is left without a report
because the expansion is told to stop while the children of the node are expanded for one of its
macros.  A report passes on every warning and every error, so these reach the sink once.

The exception is real (`MacroForest.Expander.warning_lost`): a macro warns, the next one of its tier
wants the children expanded before, and a macro inside asks to stop.  The warning is never seen.  It
cannot happen in a run that gives an answer, nor if every tier with a macro that wants the children
expanded before has such a macro in front (`MacroForest.Expander.PreparesFirst`).

Main definitions:

* `MacroForest.Heard` — the hearings that a run so far has held;
* `MacroForest.Lockstep.self` — a run in lockstep with itself, its hearings kept account of;
* `MacroForest.Turn.severe` — the warnings and errors of a turn, and its failure.

Main results:

* `MacroForest.Expander.exists_hearings` — **the sink gets the reports of hearings**;
* `MacroForest.Expander.severe_heard` — every severe message reaches the sink once.
-/

import MacroForest.Proofs.Expansion.Lockstep
import MacroForest.Proofs.Macro.Report

set_option relaxedAutoImplicit false
set_option autoImplicit false

namespace MacroForest

variable {σ : Type}

/-! ### The hearings of a run so far -/

/-- The run so far has held some hearings, from a sink at the start: the sink has got their reports,
and the turns of the log are those of the hearings and those that are pending. -/
structure Heard (k : Sink) (hs : List (Hearing σ)) (pending : List (Turn σ)) (x : Trail σ) :
    Prop where
  least : x.state.sink.least = k.least
  messages : x.state.sink.messages =
    k.messages ++ (hs.flatMap (·.told k.enabled)).filter (k.enabled ·.severity)
  accounted : (turns x.log).Perm (hs.flatMap (·.turns) ++ pending)

namespace Heard

variable {k : Sink} {hs : List (Hearing σ)} {us vs : List (Turn σ)} {x y : Trail σ}

theorem start (s : State σ) : Heard s.sink [] [] ⟨[], s⟩ :=
  ⟨rfl, by simp, by simp [turns, turnsFrom]⟩

theorem note (h : Heard k hs us x) {event : Event σ} (hquiet : event.quiet = true) :
    Heard k hs us (x.note event) := by
  refine ⟨h.least, h.messages, ?_⟩
  rw [turns_note x hquiet]
  exact h.accounted

theorem invoke (h : Heard k hs us x) (chain : Chain) (budget : Nat) (e : Entry σ)
    {node : Node} (input : Node) (hpath : pathOf x.log chain.length = node) :
    Heard k hs (us ++ [x.turn e node input]) (x.invoke chain budget e input) := by
  refine ⟨h.least, h.messages, ?_⟩
  rw [turns_invoke x chain budget e input hpath, ← List.append_assoc]
  exact h.accounted.append_right _

/-- A hearing about turns that were pending. -/
theorem hear (h : Heard k hs (us ++ vs) x) (node : Node) (stoppedBy : Option (Entry σ)) :
    Heard k (hs ++ [⟨node, vs, stoppedBy⟩]) us (x.hear ⟨node, vs, stoppedBy⟩) := by
  have henabled : x.state.sink.enabled = k.enabled := by
    funext severity
    rw [Sink.enabled, Sink.enabled, h.least]
  refine ⟨?_, ?_, ?_⟩
  · exact (Sink.least_writeAll ..).trans h.least
  · refine (Sink.messages_writeAll ..).trans ?_
    rw [h.messages, henabled]
    simp
  · rw [List.flatMap_append, List.flatMap_singleton, List.append_assoc]
    exact h.accounted.trans (.append_left _ List.perm_append_comm)

end Heard

/-! ### A run in lockstep with itself -/

/-- A run in lockstep with itself, with account of its hearings since a sink at the start. -/
def Lockstep.self (t : Expander σ) (k : Sink) : Lockstep t t where
  Entries e₁ e₂ := e₂ = e₁
  Inv P x y := y = x ∧ P.map (·.2) = P.map (·.1) ∧ ∃ hs, Heard k hs (P.map (·.1)) x
  mode h := by rw [h]
  found h n := by
    rw [h.1]
    exact List.forall₂_same.2 fun _ _ => rfl
  token h := by rw [h.1]
  openings h := by rw [h.1]
  opening h := by
    obtain ⟨rfl, hP, hs, hheard⟩ := h
    exact ⟨rfl, hP, hs, hheard.least, hheard.messages, hheard.accounted⟩
  note h event hquiet := by
    obtain ⟨rfl, hP, hs, hheard⟩ := h
    exact ⟨rfl, hP, hs, hheard.note hquiet⟩
  tick h := by
    obtain ⟨rfl, hP, hs, hheard⟩ := h
    exact ⟨rfl, hP, hs, hheard.least, hheard.messages, hheard.accounted⟩
  push h := by
    obtain ⟨rfl, hP, hs, hheard⟩ := h
    exact ⟨rfl, hP, hs, hheard.least, hheard.messages, hheard.accounted⟩
  pop h := by
    obtain ⟨rfl, hP, hs, hheard⟩ := h
    exact ⟨rfl, hP, hs, hheard.least, hheard.messages, hheard.accounted⟩
  invoke h he chain budget node input hpath _ := by
    obtain ⟨rfl, hP, hs, hheard⟩ := h
    subst he
    refine ⟨rfl, by simp [hP], hs, ?_⟩
    rw [List.map_append]
    exact hheard.invoke chain budget _ input hpath
  output h he node input := by rw [h.1, he]
  cancelled h he node input := by rw [h.1, he]
  report h node _ := by
    obtain ⟨rfl, hP, hs, hheard⟩ := h
    rw [List.map_append, List.map_append] at hP
    obtain ⟨hP, hQ⟩ := List.append_inj hP (by simp)
    rw [List.map_append] at hheard
    exact ⟨by rw [hQ], hP, _, hheard.hear node none⟩
  stop h he node _ := by
    obtain ⟨rfl, hP, hs, hheard⟩ := h
    subst he
    rw [List.map_append, List.map_append] at hP
    obtain ⟨hP, hQ⟩ := List.append_inj hP (by simp)
    rw [List.map_append] at hheard
    exact ⟨by rw [hQ], hP, _, hheard.hear node _⟩

/-- What is told on a refusal in the report of a hearing. -/
def Hearing.refusals (enabled : Severity → Bool) (h : Hearing σ) : List Message :=
  refusal enabled h.attempts h.node (worstOf h.attempts)

/-! ### Severe messages -/

/-- The warnings and errors that the macro writes in its turn, and its failure if it fails, which is
about the node that was dispatched; all with the macro's label. -/
def Turn.severe (u : Turn σ) : List Message :=
  (u.reply.messages.filter Message.severe ++
    u.reply.outcome.failure?.toList.map fun text => (⟨.error, u.node, text⟩ : Message)).map
      u.entry.quote

theorem Turn.severe_eq (u : Turn σ) :
    u.severe = (u.attempt.messages.filter Message.severe).map u.attempt.entry.quote := by
  have hfailure : ∀ text : List String,
      (text.map fun text => (⟨.error, u.node, text⟩ : Message)).filter Message.severe =
        text.map fun text => ⟨.error, u.node, text⟩ := by
    intro text
    refine List.filter_eq_self.2 fun m hm => ?_
    obtain ⟨_, -, rfl⟩ := List.mem_map.1 hm
    rfl
  rw [severe, attempt, attemptOf, List.filter_append, hfailure]

/-- What is severe in the report of a hearing. -/
theorem Hearing.severe_told {enabled : Severity → Bool}
    (henabled : ∀ s, .warning ≤ s → enabled s = true) (h : Hearing σ) :
    ∃ own : List Message, (∀ m ∈ own, m.FromEngine σ) ∧
      ((h.told enabled).filter Message.severe).Perm (h.turns.flatMap Turn.severe ++ own) := by
  have hturns : (h.attempts.flatMap fun a =>
      (a.messages.filter Message.severe).map a.entry.quote) = h.turns.flatMap Turn.severe := by
    rw [attempts, List.flatMap_map]
    exact List.flatMap_congr fun u _ => u.severe_eq.symm
  cases hstopped : h.stoppedBy with
  | none =>
      rw [told, hstopped, ← hturns]
      exact severe_report henabled fun a ha m hm => severity_le_worstOf ha hm
  | some e =>
      have hall : ∀ a ∈ h.attempts, ∀ m ∈ a.messages,
          m.severity ≤ (some Severity.error).getD .detail :=
        fun a _ m _ => Severity.le_error m.severity
      obtain ⟨own, hown, hperm⟩ := severe_report henabled hall
      rw [told, hstopped, ← hturns]
      refine ⟨cancelMessage e h.node :: own, ?_, ?_⟩
      · intro m hm
        rcases List.mem_cons.1 hm with rfl | hm
        · exact .inr (.inr ⟨e, h.node, rfl⟩)
        · exact hown m hm
      · have hcancel : (cancelMessage e h.node).severe = true := rfl
        rw [List.filter_cons_of_pos hcancel]
        exact (hperm.cons _).trans List.perm_middle.symm

theorem severe_flatMap_told {enabled : Severity → Bool}
    (henabled : ∀ s, .warning ≤ s → enabled s = true) (hs : List (Hearing σ)) :
    ∃ own : List Message, (∀ m ∈ own, m.FromEngine σ) ∧
      ((hs.flatMap (·.told enabled)).filter Message.severe).Perm
        ((hs.flatMap (·.turns)).flatMap Turn.severe ++ own) := by
  induction hs with
  | nil => exact ⟨[], by simp, by simp⟩
  | cons h hs ih =>
      obtain ⟨own, hown, hperm⟩ := h.severe_told henabled
      obtain ⟨own', hown', hperm'⟩ := ih
      refine ⟨own ++ own', ?_, ?_⟩
      · intro m hm
        rcases List.mem_append.1 hm with hm | hm
        · exact hown m hm
        · exact hown' m hm
      · rw [List.flatMap_cons, List.filter_append, List.flatMap_cons, List.flatMap_append]
        refine List.perm_iff_count.2 fun m => ?_
        have hm := hperm.count_eq m
        have hm' := hperm'.count_eq m
        simp only [List.count_append] at hm hm' ⊢
        omega

namespace Expander

/-- **The sink gets the reports of hearings.**  All turns are heard in a run that gives an answer,
and in any run if no tier has a turn before the children of its node are expanded for one. -/
theorem exists_hearings (t : Expander σ) (nodes : Forest) (s : State σ) :
    ∃ log enough hs lost,
      (∀ fuel, enough ≤ fuel → t.forestRun fuel nodes s = some (t.expandForest nodes s, log)) ∧
      Heard s.sink hs lost ⟨log, (t.expandForest nodes s).2⟩ ∧
      ((∃ output, (t.expandForest nodes s).1 = .ok output) ∨ t.PreparesFirst → lost = []) := by
  obtain ⟨log, _, enough, lost, hruns, -, ⟨-, -, hs, hheard⟩, hlost⟩ :=
    expandForest_abreast (.self t s.sink) nodes rfl
      ⟨rfl, rfl, [], Heard.start { s with scopes := t.rootScopes }⟩
  exact ⟨log, enough, hs, lost.map (·.1), fun fuel hfuel => (hruns fuel hfuel).1, hheard,
    fun h => by rw [hlost h, List.map_nil]⟩

/-- **Every severe message reaches the sink once.**  Let the sink keep warnings and errors.  If the
expansion of a forest gives an answer, or if no tier has a turn before the children of its node are
expanded for one, then the severe messages that the sink gets are, up to their order, all warnings,
errors and failures of the turns, each with the label of its macro, and some messages of the
expansion's own. -/
theorem severe_heard (t : Expander σ) (nodes : Forest) (s : State σ)
    (hsink : s.sink.least ≤ .warning) :
    ∃ log enough,
      (∀ fuel, enough ≤ fuel → t.forestRun fuel nodes s = some (t.expandForest nodes s, log)) ∧
      ((∃ output, (t.expandForest nodes s).1 = .ok output) ∨ t.PreparesFirst →
        ∃ own : List Message, (∀ m ∈ own, m.FromEngine σ) ∧
          ((t.expandForest nodes s).2.sink.messages.filter Message.severe).Perm
            (s.sink.messages.filter Message.severe ++
              ((turns log).flatMap Turn.severe ++ own))) := by
  obtain ⟨log, enough, hs, lost, hruns, hheard, hlost⟩ := t.exists_hearings nodes s
  refine ⟨log, enough, hruns, fun hends => ?_⟩
  obtain rfl : lost = [] := hlost hends
  have henabled : ∀ severity, .warning ≤ severity → s.sink.enabled severity = true :=
    fun severity hsevere => decide_eq_true (Severity.le_trans hsink hsevere)
  obtain ⟨own, hown, hperm⟩ := severe_flatMap_told henabled hs
  refine ⟨own, hown, ?_⟩
  have hmessages := hheard.messages
  dsimp only at hmessages
  rw [hmessages, List.filter_append, List.filter_filter]
  -- what is severe is kept, so the threshold of the sink makes no difference
  have hkept : ∀ m : Message, (m.severe && s.sink.enabled m.severity) = m.severe := by
    intro m
    cases hsevere : m.severe with
    | false => rfl
    | true => rw [henabled m.severity (of_decide_eq_true hsevere), Bool.and_self]
  simp only [hkept]
  refine .append_left _ (hperm.trans (.append_right own ?_))
  have haccounted := hheard.accounted
  rw [List.append_nil] at haccounted
  exact haccounted.symm.flatMap_right _

/-- A macro for calls of `m` that writes some messages in the way it is treated, and ends somehow.
-/
def writing (index : Nat) (mode : Mode) (severities : List Severity) (outcome : Outcome) :
    Entry Unit where
  space := none
  name := "m"
  mode := mode
  givenLabel := none
  origin := none
  callable := ⟨.custom index, fun state node scopes =>
    ⟨state, scopes, severities.map fun severity => ⟨severity, node, "careful"⟩, 0, outcome⟩⟩

/-- A macro that asks for the expansion to stop. -/
def stopping : Entry Unit where
  space := none
  name := "stop"
  mode := {}
  givenLabel := none
  origin := none
  callable := ⟨.custom 2, fun state _ scopes => .quiet state scopes .cancelled⟩

theorem severe_heard_writing :
    let table : Table Unit := ⟨[⟨"m", [writing 0 {} [.warning, .debug] .declined,
      writing 1 { childrenBefore := true } [.error] (.failed "no")]⟩]⟩
    let t := create table [] 100 {}
    let s := t.initial () (.empty .detail)
    let forest := [Node.invokeName "m" [.ident "x"]]
    s.sink.least ≤ .warning ∧ (∃ output, (t.expandForest forest s).1 = .ok output) ∧
      ∃ log enough,
        (∀ fuel, enough ≤ fuel → t.forestRun fuel forest s = some (t.expandForest forest s, log)) ∧
        ∃ own : List Message, (∀ m ∈ own, m.FromEngine Unit) ∧
          ((t.expandForest forest s).2.sink.messages.filter Message.severe).Perm
            (s.sink.messages.filter Message.severe ++
              ((turns log).flatMap Turn.severe ++ own)) := by
  intro table t s forest
  have hsink : s.sink.least ≤ .warning := by decide
  have hrun : (t.forestRun 4 forest s).map (·.1.1.toOption) = some (some forest) := by
    decide +kernel
  have hok : ∃ output, (t.expandForest forest s).1 = .ok output := by
    obtain ⟨⟨⟨r, s₁⟩, log⟩, hr, houtput⟩ := Option.map_eq_some_iff.1 hrun
    rw [t.forestRun_answers 4 forest s _ log hr]
    cases r with
    | error c => simp [Except.toOption] at houtput
    | ok output => exact ⟨output, rfl⟩
  obtain ⟨log, enough, hruns, hheard⟩ := severe_heard t forest s hsink
  exact ⟨hsink, hok, log, enough, hruns, hheard (.inl hok)⟩

/-- **A warning that is lost.**  The first macro warns, the second one wants the children expanded
before, and a macro inside asks to stop: the sink keeps all severities, but the warning is not among
its messages. -/
theorem warning_lost :
    let table : Table Unit := ⟨[⟨"m", [writing 0 {} [.warning] .declined,
      writing 1 { childrenBefore := true } [] .declined]⟩, ⟨"stop", [stopping]⟩]⟩
    let t := create table [] 100 {}
    let s := t.initial () (.empty .detail)
    let forest := [Node.invokeName "m" [.ident "stop"]]
    let warning : Message := ⟨.warning, .invokeName "m" [.ident "stop"], "m: careful"⟩
    ∃ log, t.forestRun 4 forest s = some (t.expandForest forest s, log) ∧
      (t.expandForest forest s).1 = .error .cancelled ∧
      warning ∈ (turns log).flatMap Turn.severe ∧
      warning ∉ (t.expandForest forest s).2.sink.messages := by
  intro table t s forest warning
  have hrun : (t.forestRun 4 forest s).map (fun r => (r.1.1.toOption,
      decide (warning ∈ (turns r.2).flatMap Turn.severe), decide (warning ∈ r.1.2.sink.messages))) =
        some (none, true, false) := by
    decide +kernel
  obtain ⟨⟨r, log⟩, hr, heq⟩ := Option.map_eq_some_iff.1 hrun
  obtain ⟨hstopped, hsevere, hmissing⟩ : r.1.toOption = none ∧
      decide (warning ∈ (turns log).flatMap Turn.severe) = true ∧
      decide (warning ∈ r.2.sink.messages) = false := by
    simpa using heq
  have hanswer := t.forestRun_answers 4 forest s r log hr
  rw [hanswer]
  refine ⟨log, hr, ?_, of_decide_eq_true hsevere, of_decide_eq_false hmissing⟩
  cases hr₁ : r.1 with
  | error c => rfl
  | ok output => simp [hr₁, Except.toOption] at hstopped

end Expander

end MacroForest
