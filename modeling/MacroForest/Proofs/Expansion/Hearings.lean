/-
**What a step tells of its macros.**

A step of an expansion asks the macros for its node tier by tier, and each tier that comes to its
end is reported.  Between two of these reports others may be sent, for the children of the node are
expanded in between.  All of them are marks of the walk that the run is, so its *minutes* say
exactly what has reached the sink: the reports of all marks, one after the other, and which of them
are those of the step.

From this the rules for what is told follow for every tier of every step.  They are about one report
each, and a report is a function of the turns that it is about.

Main definitions:

* `MacroForest.Recorded` — the sink has got the reports of a walk;
* `MacroForest.Expander.Minutes` — **the walk of a step, and the tiers it has heard**.

Main results:

* `MacroForest.Walk.recorded`, `MacroForest.Halt.recorded` — nothing but reports reaches the sink;
* `MacroForest.Expander.exists_minutes` — every step has minutes;
* `MacroForest.Expander.told_by_policy` — what is told of a tier follows the policy;
* `MacroForest.Expander.ambiguity_told` — what is told if several macros accept, and who wins.
-/

import MacroForest.Proofs.Expansion.Heard
import MacroForest.Proofs.Expansion.Walk
import MacroForest.Proofs.Macro.Policy

set_option relaxedAutoImplicit false
set_option autoImplicit false

namespace MacroForest

variable {σ : Type}

/-! ### The sink after a walk -/

/-- What of a report reaches a sink. -/
def Hearing.reaching (k : Sink) (h : Hearing σ) : List Message :=
  (h.told k.enabled).filter (k.enabled ·.severity)

/-- Between two states the sink has got the reports of some marks, one after the other. -/
structure Recorded (s s' : State σ) (marks : List (Mark σ)) : Prop where
  least : s'.sink.least = s.sink.least
  messages : s'.sink.messages =
    s.sink.messages ++ (hearingsOf marks).flatMap (·.reaching s.sink)

namespace Recorded

variable {s s₁ s' : State σ} {marks more : List (Mark σ)}

theorem of_sink (h : s'.sink = s.sink) (hmarks : hearingsOf marks = []) : Recorded s s' marks := by
  refine ⟨by rw [h], ?_⟩
  rw [h, hmarks]
  exact (List.append_nil _).symm

theorem append (h : Recorded s s₁ marks) (h' : Recorded s₁ s' more) :
    Recorded s s' (marks ++ more) := by
  have henabled : s₁.sink.enabled = s.sink.enabled := by
    funext severity
    rw [Sink.enabled, Sink.enabled, h.least]
  have hreaching : (Hearing.reaching s₁.sink : Hearing σ → List Message) =
      Hearing.reaching s.sink := by
    funext hearing
    rw [Hearing.reaching, Hearing.reaching, henabled]
  refine ⟨h'.least.trans h.least, ?_⟩
  rw [h'.messages, h.messages, hreaching, hearingsOf_append, List.flatMap_append, List.append_assoc]

/-- A report is sent. -/
theorem hear (s : State σ) (chain : Chain) (h : Hearing σ) :
    Recorded s (s.writeAll (h.told s.sink.enabled)) [.hearing chain h] := by
  refine ⟨Sink.least_writeAll .., ?_⟩
  refine (Sink.messages_writeAll ..).trans ?_
  rw [show hearingsOf [Mark.hearing chain h] = [h] from rfl, List.flatMap_singleton]
  rfl

end Recorded

section Sinks

variable {t : Expander σ} {x y : Option (Sitting σ)} {s s' : State σ} {marks : List (Mark σ)}

/-- **Nothing but reports reaches the sink.** -/
theorem Walk.recorded (h : Walk t x s marks y s') : Recorded s s' marks := by
  induction h with
  | nil | push | pop | opened | rewrote | ask | pass => exact .of_sink rfl rfl
  | append _ _ ih ih' => exact ih.append ih'
  | hear f s => exact .hear s f.chain _
  | visit _ _ _ _ ih => exact ⟨ih.least, ih.messages⟩

theorem Halt.recorded (h : Halt t x s marks s') : Recorded s s' marks := by
  induction h with
  | after hwalk _ ih => exact hwalk.recorded.append ih
  | pop _ ih => exact ⟨ih.least, ih.messages⟩
  | asked f e input s =>
      have hreport := Recorded.hear (s.after (f.turn e input s).reply) f.chain
        ⟨f.node, f.turns ++ [f.turn e input s], some e⟩
      exact ⟨hreport.least, hreport.messages⟩
  | found => exact .of_sink rfl rfl
  | inside _ _ _ _ ih => exact ⟨ih.least, ih.messages⟩

theorem Arrives.recorded {α : Type} {r : Except Cancelled α} (h : Arrives t x s marks r s') :
    Recorded s s' marks := by
  rcases h with ⟨a, -, hwalk⟩ | ⟨c, -, hhalt⟩
  · exact hwalk.recorded
  · exact hhalt.recorded

end Sinks

/-! ### Minutes -/

/-- The dispatch is entered before anything else happens. -/
theorem Consulted.entered {chain : Chain} {budget : Nat} {node : Node}
    {tiers : List (List (Entry σ))} {marks : List (Mark σ)} {r : Except Cancelled (Option Node)}
    (h : Consulted chain budget node tiers marks r) :
    Consulted chain budget node tiers (.event ⟨chain, budget, .entered node⟩ :: marks) r := by
  obtain ⟨hupto, hdeclined, houtputs, hturns⟩ := h
  have houtputs' : ownOutputs chain (eventsOf (.event ⟨chain, budget, .entered node⟩ :: marks)) =
      ownOutputs chain (eventsOf marks) := by
    rw [eventsOf_event, ownOutputs_cons]
    rfl
  have hturns' : ownTurns chain node (eventsOf (.event ⟨chain, budget, .entered node⟩ :: marks)) =
      ownTurns chain node (eventsOf marks) := by
    rw [eventsOf_event, ownTurns_cons]
    rfl
  exact ⟨hupto, hdeclined, houtputs'.trans houtputs, by rw [houtputs', hturns']; exact hturns⟩

theorem FirstToAccept.append_right {turns : List (Turn σ)} {winner : Turn σ} {output : Node}
    (h : FirstToAccept turns winner output) (later : List (Turn σ)) :
    FirstToAccept (turns ++ later) winner output := by
  obtain ⟨before, after, rfl, hbefore, hwinner⟩ := h
  exact ⟨before, after ++ later, by simp, hbefore, hwinner⟩

theorem FirstToAccept.unique {turns : List (Turn σ)} {winner winner' : Turn σ} {output output' : Node}
    (h : FirstToAccept turns winner output) (h' : FirstToAccept turns winner' output') :
    winner = winner' ∧ output = output' := by
  obtain ⟨before, after, rfl, hbefore, hwinner⟩ := h
  obtain ⟨before', after', hturns, hbefore', hwinner'⟩ := h'
  induction before generalizing before' with
  | nil =>
      cases before' with
      | nil =>
          obtain ⟨rfl, -⟩ := List.cons.inj hturns
          exact ⟨rfl, Option.some.inj (hwinner.symm.trans hwinner')⟩
      | cons u before' =>
          obtain ⟨rfl, -⟩ := List.cons.inj hturns
          cases hwinner.symm.trans (hbefore' winner List.mem_cons_self)
  | cons u before ih =>
      obtain ⟨hu, hbefore⟩ := List.forall_mem_cons.1 hbefore
      cases before' with
      | nil =>
          obtain ⟨rfl, -⟩ := List.cons.inj hturns
          cases hu.symm.trans hwinner'
      | cons u' before' =>
          obtain ⟨rfl, hrest⟩ := List.cons.inj hturns
          exact ih hbefore before' hrest (List.forall_mem_cons.1 hbefore').2

namespace Expander

/-- The minutes of a step: the log with the reports at their places, which are all that has reached
the sink, and the tiers that have been heard. -/
structure Minutes (t : Expander σ) (chain : Chain) (budget : Nat) (node : Node) (s : State σ)
    (r : Step σ (Option Node)) (log : List (Event σ)) (marks : List (Mark σ)) : Prop where
  log : eventsOf marks = log
  recorded : Recorded s r.2 marks
  consulted : Consulted chain budget node (tiersOf (t.candidates s.scopes node)) marks r.1

variable {t : Expander σ} {chain : Chain} {budget : Nat} {node : Node} {s : State σ}
  {r : Step σ (Option Node)} {log : List (Event σ)} {marks : List (Mark σ)}

theorem nodeRun_minutes (hpos : budget ≠ 0) {fuel : Nat} {changed : Bool}
    (hrun : t.nodeRun (fuel + 1) chain budget node changed s = some (r, log)) :
    ∃ marks, t.Minutes chain budget node s r log marks := by
  obtain ⟨marks, rfl, ⟨-, rfl, hr, hs⟩ | ⟨hgoing, hends, hconsulted⟩⟩ :=
    Run.dispatch_walk (t.nodeRun_walks fuel) hpos hrun
  · refine ⟨[.event ⟨chain, budget, .entered node⟩], rfl, .of_sink (by rw [hs]) rfl, ?_⟩
    refine Consulted.entered (.of_declined rfl ⟨[], rfl, .nil⟩ (List.forall_mem_nil _)
      (List.forall_mem_nil _) ⟨[], rfl, .inl rfl⟩)
  · have hwalk := hends.visit (x := none) (by simp [Above]) hpos hgoing
    exact ⟨_, rfl, hwalk.recorded, hconsulted.entered⟩

/-- **Every step has minutes.** -/
theorem exists_minutes (t : Expander σ) (chain : Chain) {budget : Nat} (hpos : 1 ≤ budget)
    (node : Node) (changed : Bool) (s : State σ) :
    ∃ r log marks, (∃ enough, ∀ fuel, enough ≤ fuel →
        t.nodeRun fuel chain budget node changed s = some (r, log)) ∧
      (∀ frames, Leaves (t.dispatch budget node changed frames s) frames r) ∧
      t.Minutes chain budget node s r log marks ∧ t.Course chain budget node changed s r log := by
  have hpos := Nat.one_le_iff_ne_zero.1 hpos
  obtain ⟨⟨r, log⟩, enough, hrun⟩ := t.nodeRun_converges budget node chain changed s
  have hrun' := hrun (enough + 1) (Nat.le_succ enough)
  obtain ⟨marks, hminutes⟩ := nodeRun_minutes hpos hrun'
  exact ⟨r, log, marks, ⟨enough, hrun⟩, t.nodeRun_leaves _ _ _ _ _ _ _ _ hrun', hminutes,
    dispatch_course hpos hrun'⟩

/-- A tier that has been heard is a tier of the step. -/
theorem Minutes.of_heard (h : t.Minutes chain budget node s r log marks) {hearing : Hearing σ}
    (hmem : hearing ∈ heardTiers chain marks) :
    ∃ es ∈ tiersOf (t.candidates s.scopes node), hearing.Of budget node es := by
  obtain ⟨rest, asked, htiers, hasked⟩ := h.consulted.upto
  obtain ⟨es, hes, hof⟩ := exists_of_heard hasked hmem
  exact ⟨es, by rw [htiers]; exact List.mem_append_left _ hes, hof⟩

/-- All turns of a step have been heard, unless it is stopped. -/
theorem Minutes.turns_of_not_stopped (h : t.Minutes chain budget node s r log marks) {changed : Bool}
    (hcourse : t.Course chain budget node changed s r log)
    (hgoing : ¬ t.Stopped chain budget node s r log) :
    ownTurns chain node log = (heardTiers chain marks).flatMap (·.turns) := by
  obtain ⟨unheard, hturns, rfl | ⟨⟨c, herror⟩, hnone⟩⟩ := h.consulted.turns
  · rw [h.log, List.append_nil] at hturns
    exact hturns
  · rw [h.log] at hnone
    rcases hcourse with hstopped | hunclaimed | ⟨winner, output, hclaimed⟩
    · exact absurd hstopped hgoing
    · obtain ⟨expanded, -, -, hr⟩ := hunclaimed.result
      cases herror.symm.trans hr
    · cases hnone.symm.trans hclaimed.outputs

theorem mem_hearingsOf_of_heard {h : Hearing σ} (hmem : h ∈ heardTiers chain marks) :
    h ∈ hearingsOf marks := by
  obtain ⟨mark, hmark, htier⟩ := List.mem_filterMap.1 hmem
  refine List.mem_filterMap.2 ⟨mark, hmark, ?_⟩
  cases mark with
  | event e => cases htier
  | hearing c h' => exact (Option.ite_none_right_eq_some.1 htier).2

/-- What is told of a tier that has been heard. -/
theorem Minutes.told_eq (h : t.Minutes chain budget node s r log marks) {hearing : Hearing σ}
    (hmem : hearing ∈ heardTiers chain marks) (enabled : Severity → Bool) :
    hearing.told enabled = report enabled hearing.attempts node (worstOf hearing.attempts) := by
  obtain ⟨es, -, hof⟩ := h.of_heard hmem
  rw [Hearing.told, hof.stoppedBy, hof.about]

/-! ### The policy -/

/-- A sink that keeps details keeps everything. -/
theorem enabled_of_least {k : Sink} (h : k.least = .detail) (severity : Severity) :
    k.enabled severity = true := by
  rw [Sink.enabled, h]
  cases severity <;> rfl

theorem reaching_of_least {k : Sink} (h : k.least = .detail) :
    (Hearing.reaching k : Hearing σ → List Message) = Hearing.told k.enabled := by
  funext hearing
  exact List.filter_eq_self.2 fun m _ => enabled_of_least h m.severity

/-- **What is told of a tier follows the policy.**  Let the sink keep everything.  In the run of any
step with budget, the sink gets the reports of all tiers that come to their end, and of one that a
macro stops, each of them at one go and in the order in which they end.  The report of a tier of the
step itself is what the policy makes of the turns of its macros. -/
theorem told_by_policy (t : Expander σ) (chain : Chain) {budget : Nat} (hpos : 1 ≤ budget)
    (node : Node) (changed : Bool) (s : State σ) (hsink : s.sink.least = .detail) :
    ∃ r log marks, (∃ enough, ∀ fuel, enough ≤ fuel →
        t.nodeRun fuel chain budget node changed s = some (r, log)) ∧
      (∀ frames, Leaves (t.dispatch budget node changed frames s) frames r) ∧
      t.Minutes chain budget node s r log marks ∧
      r.2.sink.messages =
        s.sink.messages ++ (hearingsOf marks).flatMap (·.told s.sink.enabled) ∧
      ∀ h ∈ heardTiers chain marks, h ∈ hearingsOf marks ∧
        h.told s.sink.enabled = policy h.attempts node := by
  obtain ⟨r, log, marks, hruns, hleaves, hminutes, -⟩ := t.exists_minutes chain hpos node changed s
  refine ⟨r, log, marks, hruns, hleaves, hminutes, ?_, fun h hmem => ?_⟩
  · rw [hminutes.recorded.messages, reaching_of_least hsink]
  · refine ⟨mem_hearingsOf_of_heard hmem, ?_⟩
    rw [hminutes.told_eq hmem, report_eq_policy (enabled_of_least hsink)]

/-- A run with some fuel has the answer of the runs with enough of it. -/
theorem answer_of_run {t : Expander σ} {budget enough fuel : Nat} {node : Node} {s : State σ}
    {r : Step σ (Option Node)} {log : List (Event σ)} {x : Step σ (Option Node) × List (Event σ)}
    (hruns : ∀ fuel, enough ≤ fuel → t.nodeRun fuel [] budget node false s = some (r, log))
    (hx : t.nodeRun fuel [] budget node false s = some x) : r = x.1 :=
  (t.nodeRun_answers _ _ _ _ _ _ _ (hruns enough (Nat.le_refl _))).symm.trans
    (t.nodeRun_answers _ _ _ _ _ _ _ hx)

/-- A macro that writes messages of all kinds and declines, and one that writes a message and
accepts. -/
def chattering : Expander Unit :=
  create ⟨[⟨"m", [
    writing 0 {} [.detail, .verbose, .detail, .warning, .detail, .debug, .detail] .declined,
    writing 1 { reprocess := .never } [.debug] (.accepted (.ident "x"))]⟩]⟩ [] 100 {}

theorem told_by_policy_chattering :
    let s := chattering.initial () (.empty .detail)
    1 ≤ 100 ∧ s.sink.least = .detail ∧
      ∃ r log marks, (∃ enough, ∀ fuel, enough ≤ fuel →
          chattering.nodeRun fuel [] 100 (.ident "m") false s = some (r, log)) ∧
        chattering.Minutes [] 100 (.ident "m") s r log marks ∧
        (∀ h ∈ heardTiers [] marks, h.told s.sink.enabled = policy h.attempts (.ident "m")) ∧
        r.2.sink.messages.map (·.severity) = [.detail, .warning, .detail, .debug] := by
  intro s
  refine ⟨by decide, rfl, ?_⟩
  obtain ⟨r, log, marks, ⟨enough, hruns⟩, -, hminutes, -, hpolicy⟩ :=
    told_by_policy chattering [] (by decide : 1 ≤ 100) (.ident "m") false s rfl
  refine ⟨r, log, marks, ⟨enough, hruns⟩, hminutes, fun h hmem => (hpolicy h hmem).2, ?_⟩
  have heval : (chattering.nodeRun 2 [] 100 (.ident "m") false s).map
      (fun x => x.1.2.sink.messages.map (·.severity)) =
        some [.detail, .warning, .detail, .debug] := by decide +kernel
  obtain ⟨x, hx, heq⟩ := Option.map_eq_some_iff.1 heval
  rw [answer_of_run hruns hx]
  exact heq

/-! ### Ambiguities -/

/-- If somebody accepts in a tier, it is the last one that is heard, and the first to accept wins
the step. -/
theorem Minutes.claimed (h : t.Minutes chain budget node s r log marks) {changed : Bool}
    (hcourse : t.Course chain budget node changed s r log) {hearing : Hearing σ}
    (hmem : hearing ∈ heardTiers chain marks) (haccepts : ∃ u ∈ hearing.turns, u.output? ≠ none) :
    ∃ winner output, FirstToAccept hearing.turns winner output ∧
      t.Claimed chain budget node s r log winner output := by
  obtain ⟨above, below, hsplit⟩ := List.append_of_mem hmem
  -- a tier below this one would have been asked in vain
  obtain rfl : below = [] := by
    rcases List.eq_nil_or_concat below with rfl | ⟨below, last, rfl⟩
    · rfl
    · have hdeclined := h.consulted.declined (above ++ hearing :: below) last (by simp [hsplit])
        hearing (by simp)
      obtain ⟨u, hu, haccepted⟩ := haccepts
      exact absurd (hdeclined u hu) haccepted
  have habove := h.consulted.declined above hearing hsplit
  have hturns := h.consulted.turns
  have houtputs := h.consulted.outputs
  rw [hsplit, firstAccepted?_of_above habove, h.log] at houtputs
  rw [hsplit, h.log] at hturns
  cases hfirst : firstAccepted? hearing.attempts with
  | none =>
      obtain ⟨u, hu, haccepted⟩ := haccepts
      exact absurd (firstAccepted?_eq_none hfirst u hu) haccepted
  | some accepted =>
      obtain ⟨output, mode⟩ := accepted
      obtain ⟨winner, hwinner, rfl⟩ := firstAccepted?_eq_some hfirst
      obtain ⟨unheard, hturns, -⟩ := hturns
      have hown : FirstToAccept (ownTurns chain node log) winner output := by
        rw [hturns, List.flatMap_append, List.flatMap_singleton]
        refine (hwinner.append_left fun u hu => ?_).append_right unheard
        obtain ⟨other, hother, hu⟩ := List.mem_flatMap.1 hu
        exact habove other hother u hu
      rw [hfirst] at houtputs
      rcases hcourse with hstopped | hunclaimed | ⟨winner', output', hclaimed⟩
      · cases houtputs.symm.trans hstopped.outputs
      · cases houtputs.symm.trans hunclaimed.outputs
      · obtain ⟨rfl, rfl⟩ := hown.unique hclaimed.first
        exact ⟨winner, output, hwinner, hclaimed⟩

/-- **What is told if several macros accept, and who wins.**  In the run of any step with budget,
the report of a tier begins with what is said of those that have accepted, and nothing else in it is
a word on an ambiguity.  Whatever is said, the step goes on with the output of the first one to
accept, as its mode asks for. -/
theorem ambiguity_told (t : Expander σ) (chain : Chain) {budget : Nat} (hpos : 1 ≤ budget)
    (node : Node) (changed : Bool) (s : State σ) :
    ∃ r log marks, (∃ enough, ∀ fuel, enough ≤ fuel →
        t.nodeRun fuel chain budget node changed s = some (r, log)) ∧
      (∀ frames, Leaves (t.dispatch budget node changed frames s) frames r) ∧
      t.Minutes chain budget node s r log marks ∧
      ∀ h ∈ heardTiers chain marks,
        (∃ ambiguity others, h.told s.sink.enabled = ambiguity ++ others ∧
          AmbiguityTold h.attempts node ambiguity ∧
          ∀ m ∈ others, m.IsRefusal σ ∨
            ∃ a ∈ h.attempts, ∃ m' ∈ a.messages, m = a.entry.quote m') ∧
        ((∃ u ∈ h.turns, u.output? ≠ none) → ∃ winner output,
          FirstToAccept h.turns winner output ∧
          t.Claimed chain budget node s r log winner output) := by
  obtain ⟨r, log, marks, hruns, hleaves, hminutes, hcourse⟩ :=
    t.exists_minutes chain hpos node changed s
  refine ⟨r, log, marks, hruns, hleaves, hminutes, fun h hmem => ⟨?_, hminutes.claimed hcourse hmem⟩⟩
  obtain ⟨others, htold, hothers⟩ :=
    report_ambiguity_first s.sink.enabled h.attempts node (worstOf h.attempts)
  exact ⟨_, others, (hminutes.told_eq hmem _).trans htold, reportAmbiguity_told h.attempts node,
    hothers⟩

theorem ambiguity_told_rivals :
    let s := rivals.initial () (.empty .warning)
    1 ≤ 2 ∧ ∃ r log marks, (∃ enough, ∀ fuel, enough ≤ fuel →
        rivals.nodeRun fuel [] 2 (.ident "m") false s = some (r, log)) ∧
      rivals.Minutes [] 2 (.ident "m") s r log marks ∧
      (∀ h ∈ heardTiers [] marks, (∃ u ∈ h.turns, u.output? ≠ none) → ∃ winner output,
        FirstToAccept h.turns winner output ∧
        rivals.Claimed [] 2 (.ident "m") s r log winner output) ∧
      r.2.sink.messages = [⟨.error, .ident "m",
        "Ambiguous macro call. 2 macros accepted the input: m#2, m#3"⟩] := by
  intro s
  refine ⟨by decide, ?_⟩
  obtain ⟨r, log, marks, ⟨enough, hruns⟩, -, hminutes, htold⟩ :=
    ambiguity_told rivals [] (by decide : 1 ≤ 2) (.ident "m") false s
  refine ⟨r, log, marks, ⟨enough, hruns⟩, hminutes, fun h hmem => (htold h hmem).2, ?_⟩
  have heval : (rivals.nodeRun 2 [] 2 (.ident "m") false s).map (·.1.2.sink.messages) =
      some [⟨.error, .ident "m",
        "Ambiguous macro call. 2 macros accepted the input: m#2, m#3"⟩] := by decide +kernel
  obtain ⟨x, hx, heq⟩ := Option.map_eq_some_iff.1 heval
  rw [answer_of_run hruns hx]
  exact heq

end Expander

end MacroForest
