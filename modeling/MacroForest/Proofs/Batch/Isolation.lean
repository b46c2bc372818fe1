/-
**A job depends on its input only.**

What is different when the same input is worked on again, or among other inputs, is the time at
which the work starts and what the macros share by then.  Macros that do not look at what is shared
cannot tell, and without a limit of time nothing else can.  So the outcome of a job and the messages
that it sends are functions of its input.

The times of the messages do differ.  Of them it is only known that they do not decrease, and that
the last one is no later than the end of the job.

Main definitions:

* `MacroForest.Entry.Oblivious` — a macro that does not look at what is shared;
* `MacroForest.Lockstep.oblivious` — an expansion in lockstep with itself, from another state;
* `MacroForest.State.Later` — the messages sent since a state, by their times;
* `MacroForest.JobRun.messages` — the messages of a job.

Main results:

* `MacroForest.Processor.run_alike` — **the outcome and the messages of a job depend on its input
  only**;
* `MacroForest.Processor.exists_outcome` — a job has an outcome;
* `MacroForest.Processor.run_sorted` — the times of the messages of a job.
-/

import MacroForest.Batch.Job
import MacroForest.Proofs.Expansion.Budget
import MacroForest.Proofs.Expansion.Lockstep
import MacroForest.Proofs.Expansion.Scopes

set_option relaxedAutoImplicit false
set_option autoImplicit false

namespace MacroForest

variable {σ : Type}

/-! ### Oblivious macros -/

/-- The macro does not look at what is shared.  Apart from the time that it takes and from what it
leaves shared, all that it does is a function of the node and the scopes. -/
def Entry.Oblivious (e : Entry σ) : Prop :=
  ∀ a b node scopes,
    (e.callable.run b node scopes).scopes = (e.callable.run a node scopes).scopes ∧
    (e.callable.run b node scopes).messages = (e.callable.run a node scopes).messages ∧
    (e.callable.run b node scopes).outcome = (e.callable.run a node scopes).outcome

theorem oblivious_of_mem_builtins {e : Entry σ} (h : e ∈ builtins σ) : e.Oblivious := by
  simp only [builtins, List.mem_cons, List.not_mem_nil, or_false] at h
  rcases h with rfl | rfl | rfl | rfl | rfl <;> exact fun _ _ _ _ => ⟨rfl, rfl, rfl⟩

/-- All macros of the table are oblivious. -/
def Table.Oblivious (t : Table σ) : Prop := ∀ name, ∀ e ∈ t.named name, e.Oblivious

theorem Table.Oblivious.withBuiltins {t : Table σ} (h : t.Oblivious) : t.withBuiltins.Oblivious := by
  intro name e he
  rcases Table.mem_named_of_addAll he with hold | hnew
  · exact h name e hold
  · exact oblivious_of_mem_builtins hnew

/-! ### Expansions from different states -/

/-- What holds of two runs from states that differ in the clock and in what is shared. -/
structure Alike (P : Pending σ) (x y : Trail σ) : Prop where
  scopes : y.state.scopes = x.state.scopes
  openings : y.state.openings = x.state.openings
  least : y.state.sink.least = x.state.sink.least
  messages : y.state.sink.messages = x.state.sink.messages
  attempts : ∀ q ∈ P, q.2.attempt = q.1.attempt

namespace Alike

variable {P Q : Pending σ} {x y : Trail σ}

/-- Oblivious macros reply alike. -/
theorem reply (h : Alike P x y) {e : Entry σ} (he : e.Oblivious) (node input : Node) :
    (y.turn e node input).reply.scopes = (x.turn e node input).reply.scopes ∧
    (y.turn e node input).reply.messages = (x.turn e node input).reply.messages ∧
    (y.turn e node input).reply.outcome = (x.turn e node input).reply.outcome := by
  have hscopes := h.scopes
  unfold Turn.reply Trail.turn
  dsimp only
  rw [hscopes]
  exact he x.state.shared y.state.shared input x.state.scopes

theorem attempt (h : Alike P x y) {e : Entry σ} (he : e.Oblivious) (node input : Node) :
    (y.turn e node input).attempt = (x.turn e node input).attempt := by
  obtain ⟨-, hmessages, houtcome⟩ := h.reply he node input
  rw [Turn.attempt, Turn.attempt, hmessages, houtcome]
  rfl

theorem invoke (h : Alike P x y) {e : Entry σ} (he : e.Oblivious) (chain : Chain) (budget : Nat)
    (node input : Node) :
    Alike (P ++ [(x.turn e node input, y.turn e node input)]) (x.invoke chain budget e input)
      (y.invoke chain budget e input) := by
  refine ⟨(h.reply he node input).1, h.openings, h.least, h.messages, fun q hq => ?_⟩
  rcases List.mem_append.1 hq with hq | hq
  · exact h.attempts q hq
  · rw [List.mem_singleton.1 hq]
    exact h.attempt he node input

theorem hear (h : Alike (P ++ Q) x y) (node : Node) (stoppedBy : Option (Entry σ)) :
    Alike P (x.hear ⟨node, Q.map (·.1), stoppedBy⟩) (y.hear ⟨node, Q.map (·.2), stoppedBy⟩) := by
  have hattempts : (⟨node, Q.map (·.2), stoppedBy⟩ : Hearing σ).attempts =
      (⟨node, Q.map (·.1), stoppedBy⟩ : Hearing σ).attempts := by
    simp only [Hearing.attempts, List.map_map]
    exact List.map_congr_left fun q hq => h.attempts q (List.mem_append_right P hq)
  have henabled : y.state.sink.enabled = x.state.sink.enabled := by
    funext severity
    rw [Sink.enabled, Sink.enabled, h.least]
  have htold : (⟨node, Q.map (·.2), stoppedBy⟩ : Hearing σ).told y.state.sink.enabled =
      (⟨node, Q.map (·.1), stoppedBy⟩ : Hearing σ).told x.state.sink.enabled := by
    rw [Hearing.told, Hearing.told, hattempts, henabled]
  rw [henabled] at htold
  refine ⟨h.scopes, h.openings, ?_, ?_, fun q hq => h.attempts q (List.mem_append_left Q hq)⟩
  · simp only [Trail.hear, State.writeAll, Sink.least_writeAll, h.least]
  · simp only [Trail.hear, State.writeAll, Sink.messages_writeAll, h.messages, henabled, htold]

end Alike

/-- An expansion in lockstep with itself from another state, if its macros are oblivious and nothing
tells it to stop from outside. -/
def Lockstep.oblivious {t : Expander σ} (hoblivious : t.table.Oblivious)
    (htoken : ∀ now, t.token.isCancelled now = false) : Lockstep t t where
  Entries e₁ e₂ := e₂ = e₁ ∧ e₁.Oblivious
  Inv := Alike
  mode h := by rw [h.1]
  found h n := by
    rw [h.scopes]
    refine List.forall₂_same.2 fun e he => ⟨rfl, ?_⟩
    obtain ⟨name, hmem⟩ := Expander.mem_table_of_candidates he
    exact hoblivious name e hmem
  token h := by rw [htoken, htoken]
  openings h := h.openings
  opening h := ⟨h.scopes, congrArg (· + 1) h.openings, h.least, h.messages, h.attempts⟩
  note h _ _ := ⟨h.scopes, h.openings, h.least, h.messages, h.attempts⟩
  tick h := ⟨h.scopes, h.openings, h.least, h.messages, h.attempts⟩
  push h := ⟨congrArg ScopeStack.push h.scopes, h.openings, h.least, h.messages, h.attempts⟩
  pop h := ⟨congrArg ScopeStack.pop h.scopes, h.openings, h.least, h.messages, h.attempts⟩
  invoke h he chain budget node input _ _ := by
    obtain ⟨rfl, he⟩ := he
    exact h.invoke he chain budget node input
  output h he node input := by
    obtain ⟨rfl, he⟩ := he
    rw [(h.reply he node input).2.2]
  cancelled h he node input := by
    obtain ⟨rfl, he⟩ := he
    rw [(h.reply he node input).2.2]
  report h node _ := h.hear node none
  stop h he node _ := by
    obtain ⟨rfl, -⟩ := he
    exact h.hear node (some _)

/-! ### The times of messages -/

/-- The clock has not gone back, and the messages that were sent since have times in between, which
do not decrease. -/
structure State.Later (s s' : State σ) : Prop where
  now : s.now ≤ s'.now
  kept : ∃ new : List Record, s'.sink.kept = new ++ s.sink.kept ∧
    new.Pairwise (fun a b => b.time ≤ a.time) ∧ ∀ r ∈ new, s.now ≤ r.time ∧ r.time ≤ s'.now

namespace State.Later

variable {s s' s'' : State σ}

theorem of_sink_eq (hnow : s.now ≤ s'.now) (hsink : s'.sink = s.sink) : s.Later s' :=
  ⟨hnow, [], by rw [hsink, List.nil_append], .nil, by simp⟩

theorem trans (h : s.Later s') (h' : s'.Later s'') : s.Later s'' := by
  obtain ⟨new, hkept, hsorted, htimes⟩ := h.kept
  obtain ⟨new', hkept', hsorted', htimes'⟩ := h'.kept
  refine ⟨Nat.le_trans h.now h'.now, new' ++ new, by rw [hkept', hkept, List.append_assoc], ?_, ?_⟩
  · refine List.pairwise_append.2 ⟨hsorted', hsorted, fun a ha b hb => ?_⟩
    exact Nat.le_trans (htimes b hb).2 (htimes' a ha).1
  · intro r hr
    rcases List.mem_append.1 hr with hr | hr
    · exact ⟨Nat.le_trans h.now (htimes' r hr).1, (htimes' r hr).2⟩
    · exact ⟨(htimes r hr).1, Nat.le_trans (htimes r hr).2 h'.now⟩

end State.Later

/-- What is sent at a time is kept with that time. -/
theorem Sink.kept_writeAll (k : Sink) (now : Nat) (ms : List Message) :
    ∃ new : List Record, (k.writeAll now ms).kept = new ++ k.kept ∧ ∀ r ∈ new, r.time = now := by
  induction ms generalizing k with
  | nil => exact ⟨[], rfl, by simp⟩
  | cons m ms ih =>
      obtain ⟨new, hkept, htimes⟩ := ih (k.write now m)
      by_cases hsevere : k.enabled m.severity = true
      · refine ⟨new ++ [⟨now, m⟩], ?_, ?_⟩
        · refine hkept.trans ?_
          simp [write, hsevere]
        · intro r hr
          rcases List.mem_append.1 hr with hr | hr
          · exact htimes r hr
          · rw [List.mem_singleton.1 hr]
      · refine ⟨new, hkept.trans ?_, htimes⟩
        simp [write, hsevere]

theorem State.later_writeAll (s : State σ) (ms : List Message) : s.Later (s.writeAll ms) := by
  obtain ⟨new, hkept, htimes⟩ := s.sink.kept_writeAll s.now ms
  refine ⟨Nat.le_refl s.now, new, hkept, ?_, fun r hr => ?_⟩
  · refine List.pairwise_of_forall_mem_list fun a ha b hb => ?_
    exact Nat.le_of_eq ((htimes b hb).trans (htimes a ha).symm)
  · rw [htimes r hr]
    exact ⟨Nat.le_refl _, Nat.le_refl _⟩

/-- The messages since a state without any, in the order in which they were sent. -/
theorem State.Later.sorted {s s' : State σ} (h : s.Later s') (hnone : s.sink.kept = []) :
    s'.sink.records.Pairwise (fun a b => a.time ≤ b.time) ∧
      ∀ r ∈ s'.sink.records, r.time ≤ s'.now := by
  obtain ⟨new, hkept, hsorted, htimes⟩ := h.kept
  rw [hnone, List.append_nil] at hkept
  rw [Sink.records, hkept]
  refine ⟨List.pairwise_reverse.2 hsorted, fun r hr => ?_⟩
  exact (htimes r (List.mem_reverse.1 hr)).2

/-- The times of the messages of an expansion. -/
theorem Expander.respects_later (t : Expander σ) : t.Respects State.Later where
  refl _ := .of_sink_eq (Nat.le_refl _) rfl
  trans h h' := h.trans h'
  tick _ := .of_sink_eq (Nat.le_succ _) rfl
  opening _ := .of_sink_eq (Nat.le_refl _) rfl
  tell s ms := s.later_writeAll ms
  invoke _ _ _ := .of_sink_eq (Nat.le_add_right ..) rfl
  block h := ⟨h.now, h.kept⟩

/-! ### Jobs -/

/-- The messages of a job, in the order in which they are sent. -/
def JobRun.messages (r : JobRun σ) : List Message := r.records.map (·.message)

namespace Processor

variable (p : Processor σ) (least : Severity) (i : Input) (start : Nat) (shared : σ)

/-- The token of a job that starts at a time. -/
def tokenAt : CancelToken := { deadline := p.limit?.map (start + ·) }

/-- The messages of the parser, sent at a time. -/
def parserSink : Sink := (Sink.empty least).writeAll start (p.forestOf i).messages

/-- The state in which a job begins to expand its forest. -/
def stateAt : State σ :=
  ⟨shared, (p.expander (p.tokenAt start)).rootScopes, p.parserSink least i start,
    p.parsedAt i start, 0⟩

variable {p least i}

theorem run_of_crashed (h : (p.forestOf i).outcome = .crashed) :
    p.run least i start shared =
      ⟨shared, (p.parserSink least i start).records, p.parsedAt i start, none⟩ := by
  simp only [run, parserSink, h]

theorem run_of_refused {error : PipelineError} (h : (p.forestOf i).outcome = .refused error) :
    p.run least i start shared =
      ⟨shared, ((p.parserSink least i start).writeAll (p.parsedAt i start)
        [⟨.error, .ident i.fileName, error.message⟩]).records, p.parsedAt i start,
        some (.nothing .parseFailed)⟩ := by
  simp only [run, parserSink, h]
  rfl

theorem run_of_parsed {forest : Forest} (h : (p.forestOf i).outcome = .parsed forest) :
    p.run least i start shared =
      let r := (p.expander (p.tokenAt start)).expandForest forest (p.stateAt least i start shared)
      ⟨r.2.shared, r.2.sink.records, r.2.now,
        some (outcomeOf (p.tokenAt start) r.2.now forest r.1)⟩ := by
  simp only [run, h]
  rfl

theorem messages_parserSink (start' : Nat) :
    (p.parserSink least i start').messages = (p.parserSink least i start).messages := by
  rw [parserSink, parserSink, Sink.messages_writeAll, Sink.messages_writeAll]

theorem least_parserSink : (p.parserSink least i start).least = least := by
  rw [parserSink, Sink.least_writeAll]
  rfl

/-- Without a limit of time, nothing tells a job to stop from outside. -/
theorem isCancelled_tokenAt (hlimit : p.limit? = none) (now : Nat) :
    (p.tokenAt start).isCancelled now = false := by
  simp [tokenAt, hlimit, CancelToken.isCancelled]

theorem tokenAt_of_no_limit (hlimit : p.limit? = none) (start' : Nat) :
    p.tokenAt start' = p.tokenAt start := by
  simp [tokenAt, hlimit]

theorem outcomeOf_of_not_cancelled {token : CancelToken}
    (h : ∀ now, token.isCancelled now = false) (now now' : Nat) (forest : Forest)
    (r : Except Cancelled Forest) :
    outcomeOf token now' forest r = outcomeOf token now forest r := by
  cases r with
  | ok output => rfl
  | error c => simp [outcomeOf, h]

/-- **The outcome and the messages of a job depend on its input only**, if the macros are oblivious
and there is no limit of time. -/
theorem run_alike (hoblivious : p.table.Oblivious) (hlimit : p.limit? = none) (start' : Nat)
    (shared' : σ) :
    (p.run least i start' shared').outcome = (p.run least i start shared).outcome ∧
      (p.run least i start' shared').messages = (p.run least i start shared).messages := by
  have hmessages : (p.parserSink least i start').messages = (p.parserSink least i start).messages :=
    messages_parserSink start start'
  cases hparser : (p.forestOf i).outcome with
  | crashed =>
      rw [run_of_crashed start shared hparser, run_of_crashed start' shared' hparser]
      exact ⟨rfl, hmessages⟩
  | refused error =>
      rw [run_of_refused start shared hparser, run_of_refused start' shared' hparser]
      refine ⟨rfl, ?_⟩
      change Sink.messages _ = Sink.messages _
      rw [Sink.messages_writeAll, Sink.messages_writeAll, hmessages]
      congr 3
      funext m
      rw [Sink.enabled, Sink.enabled, least_parserSink, least_parserSink]
  | parsed forest =>
      rw [run_of_parsed start shared hparser, run_of_parsed start' shared' hparser,
        tokenAt_of_no_limit start hlimit start']
      have htoken := isCancelled_tokenAt (p := p) start hlimit
      have htable : (p.expander (p.tokenAt start)).table.Oblivious := by
        rw [expander, Expander.create_table]
        exact hoblivious.withBuiltins
      have hstart : Alike [] ⟨[], { p.stateAt least i start shared with
            scopes := (p.expander (p.tokenAt start)).rootScopes }⟩
          ⟨[], { p.stateAt least i start' shared' with
            scopes := (p.expander (p.tokenAt start)).rootScopes }⟩ :=
        ⟨rfl, rfl, (least_parserSink start').trans (least_parserSink start).symm, hmessages,
          by simp⟩
      obtain ⟨log₁, log₂, enough, lost, -, hanswer, hinv, -⟩ :=
        Expander.expandForest_abreast (.oblivious htable htoken) forest rfl hstart
      refine ⟨?_, hinv.messages⟩
      dsimp only
      rw [hanswer]
      exact congrArg some (outcomeOf_of_not_cancelled htoken ..)

variable (p least i)

/-- The times of the messages of a job do not decrease, and the job ends after them. -/
theorem run_sorted :
    (p.run least i start shared).records.Pairwise (fun a b => a.time ≤ b.time) ∧
      ∀ r ∈ (p.run least i start shared).records, r.time ≤ (p.run least i start shared).finish := by
  -- a job without messages at its start, to which those of the parser are the first that are added
  let s : State σ := ⟨shared, (p.expander (p.tokenAt start)).rootScopes, .empty least, start, 0⟩
  have hparser : s.Later (p.stateAt least i start shared) :=
    (s.later_writeAll (p.forestOf i).messages).trans (.of_sink_eq (Nat.le_add_right ..) rfl)
  cases houtcome : (p.forestOf i).outcome with
  | crashed =>
      rw [run_of_crashed start shared houtcome]
      exact hparser.sorted rfl
  | refused error =>
      rw [run_of_refused start shared houtcome]
      exact (hparser.trans (State.later_writeAll _ _)).sorted rfl
  | parsed forest =>
      rw [run_of_parsed start shared houtcome]
      have hexpanded := Expander.expandForest_respects
        (p.expander (p.tokenAt start)).respects_later forest (p.stateAt least i start shared)
      exact (hparser.trans hexpanded).sorted rfl

variable {p i}

/-- A job whose parser does not break down has an outcome, and without a limit of time it does not
take too long. -/
theorem exists_outcome (hlimit : p.limit? = none) (hparser : (p.forestOf i).outcome ≠ .crashed) :
    ∃ o, (p.run least i start shared).outcome = some o ∧ o.status ≠ .timedOut := by
  cases houtcome : (p.forestOf i).outcome with
  | crashed => exact absurd houtcome hparser
  | refused error =>
      rw [run_of_refused start shared houtcome]
      exact ⟨_, rfl, by simp [JobOutcome.nothing]⟩
  | parsed forest =>
      rw [run_of_parsed start shared houtcome]
      refine ⟨_, rfl, ?_⟩
      unfold outcomeOf
      rw [isCancelled_tokenAt start hlimit]
      split <;> simp

end Processor

end MacroForest
