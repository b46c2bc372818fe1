/-
**No failure is silent.**

An expansion has no answer for two causes: its token is cancelled, or a macro asked to stop.  A job
without an answer looks at its token to tell which it was, and the supervisor makes results of its
own when it gives up on a job or finds that a worker has vanished.  So what a result says is decided
in several places.  Whichever it was, somebody has sent an error about the input by then: the
expansion for the macro, the job for a parser that refuses, the supervisor for the rest.

This is shown of batches as they are processed, and of workers and a supervisor that take their
steps in any order (`MacroForest/Proofs/Batch/Floor.lean`).  A worker may vanish at any point of its
job.

Main definitions:

* `MacroForest.Processor.Concerns` — a message is about an input;
* `MacroForest.Processor.Accounts` — how a result is accounted for by the messages about its input;
* `MacroForest.Processor.work` — what workers do, also those that vanish;
* `MacroForest.Floor.Voiced` — what holds at all times.

Main results:

* `MacroForest.Processor.accounts_job` — the outcome of a job is accounted for;
* `MacroForest.Supervised.accounted` — so are the results of a batch;
* `MacroForest.Floor.Voiced.shifts` — and those that come in in any order;
* `MacroForest.Processor.failures_accounted` — **no failure is silent**.
-/

import MacroForest.Proofs.Batch.Deadline
import MacroForest.Proofs.Expansion.Stop

set_option relaxedAutoImplicit false
set_option autoImplicit false

namespace MacroForest

variable {σ : Type}

/-! ### Results and messages -/

namespace Processor

/-- The message is about the input: its job sends it, or the supervisor does when the worker has
vanished or the job took too long. -/
def Concerns (p : Processor σ) (least : Severity) (i : Input) (m : Message) : Prop :=
  (∃ start shared, m ∈ (p.run least i start shared).messages) ∨
    m = Supervision.crashMessage i.fileName ∨ m = Floor.notice p i

/-- How a result is accounted for by the messages about its input.  Completed work is the answer of
the expansion.  In place of any other answer there is a single node or nothing, and a message says
why: there is a limit of time, the worker vanished or a macro asked to stop, or the parser refused.
-/
structure Accounts (p : Processor σ) (least : Severity) (i : Input) (heard : List Message)
    (r : Processed) : Prop where
  completed : r.status = .completed → ∃ start shared, (p.forestOf i).outcome = .parsed r.input ∧
    ((p.expander (p.tokenAt start)).expandForest r.input (p.stateAt least i start shared)).1 =
      .ok r.output
  timedOut : r.status = .timedOut → r.output = [timedOutNode] ∧ Floor.notice p i ∈ heard ∧
    ∃ ms, p.settings.timeoutMs = some ms ∧ 0 < ms
  cancelled : r.status = .cancelled → r.output = [] ∧
    (Supervision.crashMessage i.fileName ∈ heard ∨
      ∃ (e : Entry σ) (node : Node), cancelMessage e node ∈ heard)
  parseFailed : r.status = .parseFailed → r.output = [] ∧
    ∃ error, (p.forestOf i).outcome = .refused error ∧
      (⟨.error, .ident i.fileName, error.message⟩ : Message) ∈ heard

variable {p : Processor σ} {least : Severity} {i : Input} {heard : List Message} {r : Processed}

/-- What accounts for a result that is not completed is an error. -/
theorem Accounts.exists_error (h : p.Accounts least i heard r) (hstatus : r.status ≠ .completed) :
    ∃ m ∈ heard, m.severity = .error := by
  cases hr : r.status with
  | completed => exact absurd hr hstatus
  | timedOut => exact ⟨_, (h.timedOut hr).2.1, rfl⟩
  | parseFailed =>
      obtain ⟨-, error, -, hmem⟩ := h.parseFailed hr
      exact ⟨_, hmem, rfl⟩
  | cancelled =>
      obtain ⟨-, hmem | ⟨e, node, hmem⟩⟩ := h.cancelled hr
      · exact ⟨_, hmem, rfl⟩
      · exact ⟨_, hmem, rfl⟩

/-- More messages account for a result as well. -/
theorem Accounts.mono (h : p.Accounts least i heard r) {heard' : List Message}
    (hsub : heard ⊆ heard') : p.Accounts least i heard' r where
  completed := h.completed
  timedOut hr := by
    obtain ⟨houtput, hmem, hlimit⟩ := h.timedOut hr
    exact ⟨houtput, hsub hmem, hlimit⟩
  cancelled hr := by
    obtain ⟨houtput, hmem | ⟨e, node, hmem⟩⟩ := h.cancelled hr
    · exact ⟨houtput, .inl (hsub hmem)⟩
    · exact ⟨houtput, .inr ⟨e, node, hsub hmem⟩⟩
  parseFailed hr := by
    obtain ⟨houtput, error, herror, hmem⟩ := h.parseFailed hr
    exact ⟨houtput, error, herror, hsub hmem⟩

theorem exists_timeoutMs {ticks : Nat} (h : p.limit? = some ticks) :
    ∃ ms, p.settings.timeoutMs = some ms ∧ 0 < ms := by
  unfold limit? Settings.timeout? at h
  obtain ⟨ms, hms, -⟩ := Option.map_eq_some_iff.1 h
  obtain ⟨hsome, hpos⟩ := Option.filter_eq_some_iff.1 hms
  exact ⟨ms, hsome, of_decide_eq_true hpos⟩

/-! ### Jobs -/

/-- The supervisor gives up on a job. -/
theorem accounts_timedOut {ticks : Nat} (hlimit : p.limit? = some ticks) {forest : Forest}
    (hnotice : Floor.notice p i ∈ heard) (printer : Printer) :
    p.Accounts least i heard ((JobOutcome.timedOut forest).result i printer) where
  completed := nofun
  timedOut _ := ⟨rfl, hnotice, exists_timeoutMs hlimit⟩
  cancelled := nofun
  parseFailed := nofun

/-- The supervisor finds that a worker has vanished. -/
theorem accounts_vanished (hcrash : Supervision.crashMessage i.fileName ∈ heard)
    (printer : Printer) :
    p.Accounts least i heard ((JobOutcome.nothing .cancelled).result i printer) where
  completed := nofun
  timedOut := nofun
  cancelled _ := ⟨rfl, .inl hcrash⟩
  parseFailed := nofun

/-- The outcome of an expansion is accounted for. -/
theorem accounts_outcomeOf {start : Nat} {shared : σ} {forest : Forest}
    (hparser : (p.forestOf i).outcome = .parsed forest) {answer : Except Cancelled Forest}
    {s : State σ} (hanswer : (p.expander (p.tokenAt start)).expandForest forest
      (p.stateAt least i start shared) = (answer, s))
    (hmessages : (outcomeOf (p.tokenAt start) s.now forest answer).status ≠ .timedOut →
      s.sink.messages ⊆ heard)
    (hnotice : (outcomeOf (p.tokenAt start) s.now forest answer).status = .timedOut →
      Floor.notice p i ∈ heard) (printer : Printer) :
    p.Accounts least i heard
      ((outcomeOf (p.tokenAt start) s.now forest answer).result i printer) := by
  cases answer with
  | ok output =>
      exact ⟨fun _ => ⟨start, shared, hparser, congrArg Prod.fst hanswer⟩, nofun, nofun, nofun⟩
  | error c =>
      by_cases hcancelled : (p.tokenAt start).isCancelled s.now = true
      · have houtcome : outcomeOf (p.tokenAt start) s.now forest (.error c) = .timedOut forest :=
          if_pos hcancelled
        rw [houtcome] at hnotice ⊢
        have hlimit : p.limit? ≠ none := by
          intro hnone
          rw [isCancelled_tokenAt start hnone] at hcancelled
          exact Bool.false_ne_true hcancelled
        obtain ⟨ticks, hticks⟩ := Option.ne_none_iff_exists'.1 hlimit
        exact accounts_timedOut hticks (hnotice rfl) printer
      · -- the token tells that it was a macro, which the expansion has reported
        have houtcome : outcomeOf (p.tokenAt start) s.now forest (.error c) =
            ⟨forest, [], .cancelled⟩ := if_neg hcancelled
        rw [houtcome] at hmessages ⊢
        have hreports := (p.expander (p.tokenAt start)).expandForest_reports
          (congrArg Prod.fst hanswer)
        rw [hanswer] at hreports
        obtain ⟨e, node, hmem⟩ := hreports.resolve_left hcancelled
        exact ⟨nofun, nofun, fun _ => ⟨rfl, .inr ⟨e, node, hmessages nofun hmem⟩⟩, nofun⟩

/-- **The outcome of a job is accounted for** by its messages, and by the notice of the supervisor
if it took too long. -/
theorem accounts_job {start finish : Nat} {messages : List Message} {outcome : JobOutcome}
    (h : p.job least i start finish messages outcome)
    (hmessages : outcome.status ≠ .timedOut → messages ⊆ heard)
    (hnotice : outcome.status = .timedOut → Floor.notice p i ∈ heard) (printer : Printer) :
    p.Accounts least i heard (outcome.result i printer) := by
  obtain ⟨shared, -, rfl, houtcome⟩ := h
  cases hparser : (p.forestOf i).outcome with
  | crashed =>
      rw [run_of_crashed start shared hparser] at houtcome
      simp at houtcome
  | refused error =>
      rw [run_of_refused start shared hparser] at houtcome hmessages
      obtain ⟨⟩ := houtcome
      have hsent : (⟨.error, .ident i.fileName, error.message⟩ : Message) ∈
          ((p.parserSink least i start).writeAll (p.parsedAt i start)
            [⟨.error, .ident i.fileName, error.message⟩]).messages := by
        rw [Sink.messages_writeAll, List.mem_append, List.mem_filter]
        exact .inr ⟨by simp, decide_eq_true (Severity.le_error _)⟩
      refine ⟨nofun, nofun, nofun, fun _ => ⟨rfl, error, hparser, ?_⟩⟩
      exact hmessages nofun hsent
  | parsed forest =>
      rw [run_of_parsed start shared hparser] at houtcome hmessages
      obtain ⟨⟩ := houtcome
      exact accounts_outcomeOf hparser rfl hmessages hnotice printer

/-- What workers do: a job, or a part of one until they vanish, for which the supervisor has a
message and a result. -/
def work (p : Processor σ) (least : Severity) : Behaviour :=
  fun i start finish messages outcome =>
    p.job least i start finish messages outcome ∨
      ∃ shared said, said <+: (p.run least i start shared).messages ∧
        messages = said ++ [Supervision.crashMessage i.fileName] ∧ outcome = .nothing .cancelled

theorem accounts_work {start finish : Nat} {messages : List Message} {outcome : JobOutcome}
    (h : p.work least i start finish messages outcome)
    (hmessages : outcome.status ≠ .timedOut → messages ⊆ heard)
    (hnotice : outcome.status = .timedOut → Floor.notice p i ∈ heard) (printer : Printer) :
    p.Accounts least i heard (outcome.result i printer) := by
  rcases h with hjob | ⟨shared, said, -, rfl, rfl⟩
  · exact accounts_job hjob hmessages hnotice printer
  · exact accounts_vanished (hmessages nofun (by simp)) printer

theorem concerns_work {start finish : Nat} {messages : List Message} {outcome : JobOutcome}
    (h : p.work least i start finish messages outcome) : ∀ m ∈ messages, p.Concerns least i m := by
  intro m hm
  rcases h with ⟨shared, -, rfl, -⟩ | ⟨shared, said, hsaid, rfl, -⟩
  · exact .inl ⟨start, shared, hm⟩
  · rcases List.mem_append.1 hm with hm | hm
    · exact .inl ⟨start, shared, hsaid.subset hm⟩
    · exact .inr (.inl (List.mem_singleton.1 hm))

/-! ### Batches as they are processed -/

/-- What the supervisor says of a job that it has waited for. -/
def remarks (p : Processor σ) (i : Input) (start : Nat) (run : JobRun σ) : List Message :=
  (if p.limit?.all (fun ticks => run.finish ≤ start + ticks) && run.outcome.isNone then
    [Supervision.crashMessage i.fileName] else []) ++
  if (p.awaited start run).status = .timedOut then [Floor.notice p i] else []

end Processor

namespace Supervision

variable {p : Processor σ} {least : Severity} {s : Supervision} {i : Input} {start : Nat}
  {run : JobRun σ}

/-- The messages of the job are there, and the remarks of the supervisor after them. -/
theorem collect_remarks (h : s.Punctual p start) :
    (s.collect p least i start run).records =
      ((Sink.empty least).writeAll (s.collect p least i start run).now
        (p.remarks i start run)).records :: run.records :: s.records := by
  unfold collect Processor.remarks Processor.awaited
  dsimp only
  rw [le_patience h]
  cases p.limit?.all fun ticks => run.finish ≤ start + ticks with
  | false => rfl
  | true => cases run.outcome <;> rfl

end Supervision

namespace Processor

variable {p : Processor σ} {least : Severity} {i : Input}

/-- Remarks are kept, as they are errors. -/
theorem mem_remarks_kept {m : Message} {start : Nat} {run : JobRun σ} (least : Severity) (now : Nat)
    (h : m ∈ p.remarks i start run) :
    ∃ r ∈ ((Sink.empty least).writeAll now (p.remarks i start run)).records,
      r.time = now ∧ r.message = m := by
  have hsevere : m.severity = .error := by
    unfold remarks at h
    rcases List.mem_append.1 h with h | h
    · split at h
      · rw [List.mem_singleton.1 h]
        rfl
      · simp at h
    · split at h
      · rw [List.mem_singleton.1 h]
        rfl
      · simp at h
  have hmem : m ∈ ((Sink.empty least).writeAll now (p.remarks i start run)).messages := by
    rw [Sink.messages_writeAll, List.mem_append, List.mem_filter]
    refine .inr ⟨h, ?_⟩
    rw [hsevere]
    exact decide_eq_true (Severity.le_error _)
  obtain ⟨r, hr, rfl⟩ := List.mem_map.1 hmem
  obtain ⟨new, hkept, htimes⟩ := (Sink.empty least).kept_writeAll now (p.remarks i start run)
  refine ⟨r, hr, htimes r ?_, rfl⟩
  rw [Sink.records, hkept] at hr
  simpa [Sink.empty] using hr

/-- Remarks are about the input. -/
theorem concerns_of_mem_remarks {start now : Nat} {run : JobRun σ} {r : Record}
    (h : r ∈ ((Sink.empty least).writeAll now (p.remarks i start run)).records) :
    p.Concerns least i r.message := by
  have hmem : r.message ∈ ((Sink.empty least).writeAll now (p.remarks i start run)).messages :=
    List.mem_map.2 ⟨r, h, rfl⟩
  rw [Sink.messages_writeAll, List.mem_append, List.mem_filter] at hmem
  rcases hmem with hmem | ⟨hmem, -⟩
  · simp [Sink.empty, Sink.messages, Sink.records] at hmem
  unfold remarks at hmem
  rcases List.mem_append.1 hmem with hmem | hmem
  · split at hmem
    · exact .inr (.inl (List.mem_singleton.1 hmem))
    · simp at hmem
  · split at hmem
    · exact .inr (.inr (List.mem_singleton.1 hmem))
    · simp at hmem

/-- What the supervisor makes of a job is accounted for, by the messages that the job sends until
its end and by the remarks. -/
theorem accounts_awaited {start : Nat} {shared : σ} {heard : List Message}
    (hremarks : p.remarks i start (p.run least i start shared) ⊆ heard)
    (hmessages : (p.awaited start (p.run least i start shared)).status ≠ .timedOut →
      (p.run least i start shared).messages ⊆ heard) (printer : Printer) :
    p.Accounts least i heard
      ((p.awaited start (p.run least i start shared)).result i printer) := by
  have hnotice : (p.awaited start (p.run least i start shared)).status = .timedOut →
      Floor.notice p i ∈ heard := by
    intro hlate
    exact hremarks (List.mem_append_right _ (by rw [if_pos hlate]; simp))
  cases hintime : p.limit?.all fun ticks => (p.run least i start shared).finish ≤ start + ticks with
  | false =>
      have hawaited : p.awaited start (p.run least i start shared) = .timedOut [] := by
        rw [awaited, hintime]
        rfl
      rw [hawaited] at hnotice ⊢
      cases hlimit : p.limit? with
      | none => simp [hlimit] at hintime
      | some ticks => exact accounts_timedOut hlimit (hnotice rfl) printer
  | true =>
      have hawaited : p.awaited start (p.run least i start shared) =
          (p.run least i start shared).outcome.getD (.nothing .cancelled) := if_pos hintime
      rw [hawaited] at hnotice hmessages ⊢
      cases houtcome : (p.run least i start shared).outcome with
      | some outcome =>
          rw [houtcome] at hnotice hmessages
          exact accounts_job ⟨shared, rfl, rfl, houtcome⟩ hmessages hnotice printer
      | none =>
          refine accounts_vanished (hremarks (List.mem_append_left _ ?_)) printer
          rw [hintime, houtcome]
          simp

end Processor

/-- **The results of a batch are accounted for**, each by the messages about its input that have
arrived. -/
theorem Supervised.accounted {p : Processor σ} {least : Severity} {s s' : Supervision}
    {inputs : List Input} (h : Supervised p least s inputs s') :
    ∃ accounts : List (Processed × List Record),
      List.Forall₂ (fun i a => (∀ r ∈ a.2, p.Concerns least i r.message) ∧
        p.Accounts least i ((a.2.filter (decide <| ·.time ≤ s'.now)).map (·.message)) a.1)
        inputs accounts ∧
      s'.results = (accounts.map (·.1)).reverse ++ s.results ∧
      s'.records.reverse.flatten = s.records.reverse.flatten ++ accounts.flatMap (·.2) := by
  induction h with
  | nil s => exact ⟨[], .nil, rfl, by simp⟩
  | @cons s s' i is start shared hpunctual hrest ih =>
      obtain ⟨accounts, haccounts, hresults, hrecords⟩ := ih
      let run := p.run least i start shared
      let now := (s.collect p least i start run).now
      let remarks := ((Sink.empty least).writeAll now (p.remarks i start run)).records
      have hnow : now ≤ s'.now := hrest.now_le
      refine ⟨((p.awaited start run).result i (p.printerFor i), run.records ++ remarks) :: accounts,
        .cons ⟨?_, Processor.accounts_awaited ?_ ?_ _⟩ haccounts, ?_, ?_⟩
      · intro r hr
        rcases List.mem_append.1 hr with hr | hr
        · exact .inl ⟨start, shared, List.mem_map.2 ⟨r, hr, rfl⟩⟩
        · exact Processor.concerns_of_mem_remarks hr
      · intro m hm
        obtain ⟨r, hr, htime, rfl⟩ := Processor.mem_remarks_kept least now hm
        refine List.mem_map.2 ⟨r, List.mem_filter.2 ⟨List.mem_append_right _ hr, ?_⟩, rfl⟩
        exact decide_eq_true (htime ▸ hnow)
      · intro hstatus m hm
        obtain ⟨r, hr, rfl⟩ := List.mem_map.1 hm
        have htime := (p.run_sorted least i start shared).2 r hr
        have hover : run.finish ≤ now := Supervision.finish_le_collect hpunctual hstatus
        refine List.mem_map.2 ⟨r, List.mem_filter.2 ⟨List.mem_append_left _ hr, ?_⟩, rfl⟩
        exact decide_eq_true (Nat.le_trans htime (Nat.le_trans hover hnow))
      · rw [hresults, Supervision.collect_results hpunctual]
        simp [run]
      · rw [hrecords, Supervision.collect_remarks hpunctual]
        simp [run, remarks, now]

/-- The messages of a batch are those about its inputs, and those that were there before. -/
theorem Processor.process_accounted {p : Processor σ} {least : Severity} {told : List Message}
    {inputs : List Input} {shared : σ} {b : BatchResult σ}
    (h : p.process least told inputs shared = .ok b) :
    ∃ accounts : List (Processed × List Message),
      List.Forall₂ (fun i a => (∀ m ∈ a.2, p.Concerns least i m) ∧ p.Accounts least i a.2 a.1)
        inputs accounts ∧
      b.results = accounts.map (·.1) ∧
      b.messages.Perm (((Sink.empty least).writeAll 0 told).messages ++ accounts.flatMap (·.2)) := by
  have hshields : p.Shields inputs := by
    by_contra hnot
    simp [process_unshielded least hnot] at h
  obtain ⟨b', s, hprocess, hsupervised, hresults, -, hmessages⟩ :=
    process_supervised least hshields told shared
  obtain rfl : b' = b := Except.ok.inj (hprocess.symm.trans h)
  obtain ⟨accounts, haccounts, hresults', hrecords⟩ := hsupervised.accounted
  refine ⟨accounts.map fun a => (a.1, (a.2.filter (decide <| ·.time ≤ s.now)).map (·.message)), ?_,
    ?_, ?_⟩
  · refine List.forall₂_map_right_iff.2 (haccounts.imp fun i a ha => ⟨fun m hm => ?_, ha.2⟩)
    obtain ⟨r, hr, rfl⟩ := List.mem_map.1 hm
    exact ha.1 r (List.mem_filter.1 hr).1
  · rw [hresults, hresults']
    simp [Supervision.initial]
  · -- what was there before has the time at which the batch starts
    have htold : ∀ r ∈ ((Sink.empty least).writeAll 0 told).records, r.time = 0 := by
      obtain ⟨new, hkept, htimes⟩ := (Sink.empty least).kept_writeAll 0 told
      intro r hr
      rw [Sink.records, hkept] at hr
      exact htimes r (by simpa [Sink.empty] using hr)
    have hkept : ((Sink.empty least).writeAll 0 told).records.filter (decide <| ·.time ≤ s.now) =
        ((Sink.empty least).writeAll 0 told).records := by
      refine List.filter_eq_self.2 fun r hr => decide_eq_true ?_
      rw [htold r hr]
      exact Nat.zero_le s.now
    rw [hmessages, Supervision.messages, hrecords]
    refine ((List.mergeSort_perm _ _).map _).trans ?_
    rw [List.filter_append, List.map_append, List.filter_flatMap, List.map_flatMap,
      List.flatMap_map]
    refine .append_right _ ?_
    simp only [Supervision.initial, List.reverse_singleton, List.flatten_singleton, hkept]
    exact .refl _

/-! ### Workers and a supervisor in any order -/

namespace Floor

/-- What holds at all times: the worker on an input has done something that workers do, what has
been sent is what it said and perhaps a notice, and results are accounted for by what has been sent.
-/
structure Voiced (p : Processor σ) (least : Severity) (inputs : List Input) (f : Floor) : Prop where
  idle : ∀ k, inputs[k]? = none → f.stage k = .idle
  waiting : ∀ k, f.next ≤ k → f.raised k = false
  worked : ∀ k i, inputs[k]? = some i →
    Worked p (p.work least) i f.now (f.raised k) (f.sent k) (f.stage k)
  settled : ∀ k r, f.results[k]? = some r → ∃ i, inputs[k]? = some i ∧ p.Accounts least i (f.sent k) r

namespace Voiced

variable {p : Processor σ} {least : Severity} {inputs : List Input} {f f' : Floor}

theorem initial : Voiced p least inputs .initial where
  idle _ _ := rfl
  waiting _ _ := rfl
  worked _ _ _ := ⟨[], [], rfl, rfl⟩
  settled k r h := by simp [Floor.initial] at h

theorem later (h : Voiced p least inputs f) (passed : Nat) :
    Voiced p least inputs (f.later passed) where
  idle := h.idle
  waiting := h.waiting
  worked k i hi := by
    obtain ⟨before, after, hsent, hdoes⟩ := h.worked k i hi
    exact ⟨before, after, hsent, hdoes.later (Nat.le_add_right ..)⟩
  settled := h.settled

/-- The work on one input proceeds, and perhaps a message about it is sent.  Nothing is said of
other inputs. -/
theorem proceed (h : Voiced p least inputs f) {k : Nat} {stage : Stage} {g : Floor}
    (hk : inputs[k]? ≠ none) (hstage : g.stage = Function.update f.stage k stage)
    (hother : ∀ j, j ≠ k → g.sent j = f.sent j) (hself : f.sent k ⊆ g.sent k)
    (hrest : g.now = f.now ∧ g.raised = f.raised ∧ g.results = f.results)
    (hworked : ∀ i, inputs[k]? = some i →
      Worked p (p.work least) i f.now (f.raised k) (g.sent k) stage) :
    Voiced p least inputs g := by
  obtain ⟨hnow, hraised, hresults⟩ := hrest
  have hnext : g.next = f.next := congrArg List.length hresults
  have hstage' : ∀ j, j ≠ k → g.stage j = f.stage j := fun j hj => by
    rw [hstage, Function.update_of_ne hj]
  refine ⟨fun j hj => ?_, fun j hj => ?_, fun j i hi => ?_, fun j r hr => ?_⟩
  · have hjk : j ≠ k := by
      rintro rfl
      exact hk hj
    rw [hstage' j hjk, h.idle j hj]
  · rw [hraised]
    exact h.waiting j (hnext ▸ hj)
  · rw [hnow, hraised]
    by_cases hjk : j = k
    · subst hjk
      rw [hstage, Function.update_self]
      exact hworked i hi
    · rw [hstage' j hjk, hother j hjk]
      exact h.worked j i hi
  · rw [hresults] at hr
    obtain ⟨i, hi, haccounts⟩ := h.settled j r hr
    refine ⟨i, hi, haccounts.mono ?_⟩
    by_cases hjk : j = k
    · rw [hjk]
      exact hself
    · rw [hother j hjk]
      exact fun _ hm => hm

/-- The supervisor takes an outcome that is accounted for, with its own notice if it took too long.
-/
theorem collect (h : Voiced p least inputs f) {i : Input} {outcome : JobOutcome}
    (hi : inputs[f.next]? = some i)
    (haccounts : ∀ heard, f.sent f.next ⊆ heard →
      (outcome.status = .timedOut → notice p i ∈ heard) →
      p.Accounts least i heard (outcome.result i (p.printerFor i))) :
    Voiced p least inputs (f.collect p i outcome) := by
  unfold Floor.collect
  dsimp only
  split
  · rename_i hlate
    refine ⟨h.idle, fun k hk => ?_, fun k j hj => ?_, fun k r hr => ?_⟩
    · have hk' : f.next < k := lt_of_next_add_le hk
      change Function.update f.raised f.next true k = false
      rw [Function.update_of_ne (by omega), h.waiting k (by omega)]
    · change Worked p _ j f.now (Function.update f.raised f.next true k)
        ((f.send f.next (notice p i)).sent k) (f.stage k)
      by_cases hk : k = f.next
      · -- so far only the worker has said something
        subst hk
        obtain rfl : i = j := Option.some.inj (hi.symm.trans hj)
        obtain ⟨before, after, hsent, hdoes⟩ := h.worked f.next i hi
        rw [h.waiting f.next (Nat.le_refl _)] at hsent
        rw [Function.update_self, sent_send_self, hsent]
        refine ⟨before ++ after, [], by simp, ?_⟩
        rw [List.append_nil]
        exact hdoes.raise
      · rw [Function.update_of_ne hk, sent_send_of_ne _ _ _ hk]
        exact h.worked k j hj
    · change ∃ j, inputs[k]? = some j ∧
        p.Accounts least j ((f.send f.next (notice p i)).sent k) r
      rcases getElem?_snoc hr with ⟨hlt, hr⟩ | ⟨rfl, rfl⟩
      · have hne : k ≠ f.next := Nat.ne_of_lt hlt
        rw [sent_send_of_ne _ _ _ hne]
        exact h.settled k r hr
      · change ∃ j, inputs[f.next]? = some j ∧
          p.Accounts least j ((f.send f.next (notice p i)).sent f.next) _
        rw [sent_send_self]
        exact ⟨i, hi, haccounts _ (List.subset_append_left ..) fun _ => by simp⟩
  · rename_i hstatus
    refine ⟨h.idle, fun k hk => h.waiting k (lt_of_next_add_le hk).le, h.worked, fun k r hr => ?_⟩
    rcases getElem?_snoc hr with ⟨-, hr⟩ | ⟨rfl, rfl⟩
    · exact h.settled k r hr
    · exact ⟨i, hi, haccounts _ (fun _ hm => hm) fun hlate => absurd hlate hstatus⟩

/-- **Every step keeps the invariant**, also if there are more inputs than the supervisor knows. -/
theorem step (h : Voiced p least inputs f) {known : List Input}
    (hknown : ∀ (k : Nat) i, known[k]? = some i → inputs[k]? = some i) {workers : Nat}
    (hstep : Step p (p.work least) known workers f f') : Voiced p least inputs f' := by
  have hsome : ∀ k, f.stage k ≠ .idle → inputs[k]? ≠ none := fun k hk hnone => hk (h.idle k hnone)
  cases hstep with
  | queue => exact ⟨h.idle, h.waiting, h.worked, h.settled⟩
  | hear => exact ⟨h.idle, h.waiting, h.worked, h.settled⟩
  | @take k finish i messages outcome _ hi hidle _ hjob =>
      have hi' := hknown k i hi
      refine h.proceed (by simp [hi']) rfl (fun _ _ => rfl) (fun _ hm => hm) ⟨rfl, rfl, rfl⟩
        fun j hj => ?_
      obtain rfl : i = j := Option.some.inj (hi'.symm.trans hj)
      obtain ⟨before, after, hsent, hdoes⟩ := h.worked k i hi'
      rw [hidle] at hdoes
      refine ⟨before, after, hsent, ?_⟩
      rw [show before ++ after = [] from hdoes]
      exact hjob
  | @write k start finish m left outcome hbusy =>
      have hsent' : ((f.proceed k (.busy start left finish outcome)).send k m).sent k =
          f.sent k ++ [m] := sent_send_self ..
      refine h.proceed (hsome k (by simp [hbusy])) rfl (fun j hj => sent_send_of_ne _ _ _ hj m) ?_
        ⟨rfl, rfl, rfl⟩ fun i hi => ?_
      · rw [hsent']
        exact List.subset_append_left ..
      · obtain ⟨before, after, hsent, hdoes⟩ := h.worked k i hi
        rw [hbusy] at hdoes
        refine ⟨before, after ++ [m], ?_, ?_⟩
        · rw [hsent', hsent, List.append_assoc _ after]
        · change p.work least i start finish (before ++ (after ++ [m]) ++ left) outcome
          simpa [Does] using hdoes
  | @finish k start finish outcome hbusy hfinish =>
      refine h.proceed (hsome k (by simp [hbusy])) rfl (fun _ _ => rfl) (fun _ hm => hm)
        ⟨rfl, rfl, rfl⟩ fun i hi => ?_
      obtain ⟨before, after, hsent, hdoes⟩ := h.worked k i hi
      rw [hbusy] at hdoes
      have hjob : p.work least i start finish (before ++ after) outcome := by
        simpa [Does] using hdoes
      exact ⟨before, after, hsent, finish, _, outcome, hjob, List.prefix_rfl,
        .inr ⟨rfl, rfl, hfinish⟩⟩
  | @cut k start finish left outcome forest hbusy hraised =>
      refine h.proceed (hsome k (by simp [hbusy])) rfl (fun _ _ => rfl) (fun _ hm => hm)
        ⟨rfl, rfl, rfl⟩ fun i hi => ?_
      obtain ⟨before, after, hsent, hdoes⟩ := h.worked k i hi
      rw [hbusy] at hdoes
      exact ⟨before, after, hsent, finish, _, outcome, hdoes, List.prefix_append .., .inl hraised⟩
  | @collect start i outcome _ hi hended =>
      have hi' := hknown f.next i hi
      refine h.collect hi' fun heard hheard hnotice => ?_
      -- the token is not raised, so the outcome that is there is that of the worker
      have hwaiting := h.waiting f.next (Nat.le_refl _)
      obtain ⟨before, after, hsent, hdoes⟩ := h.worked f.next i hi'
      rw [hended] at hdoes
      obtain ⟨finish, messages, outcome', hjob, -, hdone⟩ := hdoes
      obtain ⟨rfl, hsaid, -⟩ := hdone.resolve_left (by simp [hwaiting])
      refine Processor.accounts_work hjob (fun _ m hm => hheard ?_) hnotice _
      rw [hsent, hwaiting]
      simpa [← hsaid] using hm
  | @expire start ticks i hlimit _ hi _ _ =>
      exact h.collect (hknown f.next i hi) fun heard _ hnotice =>
        Processor.accounts_timedOut hlimit (hnotice rfl) _

/-- **Every run keeps the invariant**, in either mode. -/
theorem shifts (h : Voiced p least inputs f) {workers extra : Nat} {mode : BatchMode}
    (hshifts : Shifts p (p.work least) inputs workers mode extra f f') :
    Voiced p least inputs f' := by
  induction hshifts with
  | refl => exact h
  | tail _ hshift ih =>
      obtain ⟨passed, hstep, -⟩ := hshift
      have hlater := ih.later passed
      cases mode with
      | concurrent => exact hlater.step (fun _ _ hi => hi) hstep
      | sequential =>
          rcases hstep with ⟨-, -, rfl⟩ | hstep
          · exact ⟨hlater.idle, hlater.waiting, hlater.worked, hlater.settled⟩
          · refine hlater.step (fun k i hi => ?_) hstep
            rw [List.getElem?_take] at hi
            split at hi
            · exact hi
            · simp at hi

/-- What has been sent about an input concerns it. -/
theorem concerns (h : Voiced p least inputs f) {k : Nat} {i : Input} (hi : inputs[k]? = some i) :
    ∀ m ∈ f.sent k, p.Concerns least i m := by
  obtain ⟨before, after, hsent, hdoes⟩ := h.worked k i hi
  have hsaid : ∀ m ∈ before ++ after, p.Concerns least i m := by
    intro m hm
    rcases hdoes.said with hnone | ⟨start, finish, messages, outcome, hwork, hfirst⟩
    · simp [hnone] at hm
    · exact Processor.concerns_work hwork m (hfirst.subset hm)
  intro m hm
  rw [hsent] at hm
  rcases List.mem_append.1 hm with hm | hm
  · rcases List.mem_append.1 hm with hm | hm
    · exact hsaid m (List.mem_append_left _ hm)
    · split at hm
      · exact .inr (.inr (List.mem_singleton.1 hm))
      · simp at hm
  · exact hsaid m (List.mem_append_right _ hm)

end Voiced

end Floor

/-! ### The account -/

namespace Processor

/-- **No failure is silent.**  For each result of a batch, as it is processed, and for each result
that workers and a supervisor come to in any order of their steps, in either mode, there are
messages about its input that account for it.

Completed work is the answer of the expansion of the forest.  An input that took too long is
reported so only if there is a limit of time, and its output is a single node.  Cancelled work and a
parser that refuses have no output.  A result that is not completed has an error among these
messages. -/
theorem failures_accounted (p : Processor σ) (inputs : List Input) :
    (∀ least told shared b, p.process least told inputs shared = .ok b →
      ∃ accounts : List (Processed × List Message),
        List.Forall₂ (fun i a => (∀ m ∈ a.2, p.Concerns least i m) ∧ p.Accounts least i a.2 a.1 ∧
          (a.1.status ≠ .completed → ∃ m ∈ a.2, m.severity = .error)) inputs accounts ∧
        b.results = accounts.map (·.1) ∧
        b.messages.Perm
          (((Sink.empty least).writeAll 0 told).messages ++ accounts.flatMap (·.2))) ∧
    ∀ least workers mode extra f,
      Floor.Shifts p (p.work least) inputs workers mode extra .initial f →
      ∀ k r, f.results[k]? = some r → ∃ i, inputs[k]? = some i ∧
        (∀ m ∈ f.sent k, p.Concerns least i m) ∧ p.Accounts least i (f.sent k) r ∧
        (r.status ≠ .completed → ∃ m ∈ f.sent k, m.severity = .error) := by
  refine ⟨fun least told shared b h => ?_, fun least workers mode extra f hshifts k r hr => ?_⟩
  · obtain ⟨accounts, haccounts, hresults, hmessages⟩ := process_accounted h
    refine ⟨accounts, haccounts.imp fun i a ha => ?_, hresults, hmessages⟩
    exact ⟨ha.1, ha.2, ha.2.exists_error⟩
  · have hvoiced := Floor.Voiced.initial.shifts hshifts
    obtain ⟨i, hi, haccounts⟩ := hvoiced.settled k r hr
    exact ⟨i, hi, hvoiced.concerns hi, haccounts, haccounts.exists_error⟩

/-- The parser of one input breaks down and that of another one refuses, as the batch is processed;
and on the floor the first worker vanishes. -/
theorem failures_accounted_vanishing :
    let p : Processor Unit := .ofSettings { timeoutMs := some 1 }
    let crashing : Input := ⟨"a", .text "", some fun _ _ => { outcome := .crashed }, none, none⟩
    let refusing : Input :=
      ⟨"b", .text "", some fun _ _ => { outcome := .refused .cancelled }, none, none⟩
    let inputs := [crashing, refusing]
    (∃ b, p.process .error [] inputs () = .ok b ∧
      ∃ accounts : List (Processed × List Message),
        List.Forall₂ (fun i a => p.Accounts .error i a.2 a.1) inputs accounts ∧
        b.results = accounts.map (·.1)) ∧
    ∃ f r, Floor.Shifts p (p.work .error) inputs 1 .sequential 0 .initial f ∧
      f.results[0]? = some r ∧ r.status = .cancelled ∧ ∃ m ∈ f.sent 0, m.severity = .error := by
  intro p crashing refusing inputs
  obtain ⟨hprocess, hfloor⟩ := failures_accounted p inputs
  constructor
  · have hshields : p.Shields inputs := .inl ⟨rfl, nofun⟩
    obtain ⟨b, -, hb, -⟩ := process_supervised .error hshields [] ()
    obtain ⟨accounts, haccounts, hresults, -⟩ := hprocess .error [] () b hb
    exact ⟨b, hb, accounts, haccounts.imp fun _ _ h => h.2.1, hresults⟩
  -- the floor after each step
  let o : JobOutcome := .nothing .cancelled
  let m := Supervision.crashMessage "a"
  let f₁ : Floor := { Floor.initial with queued := 1 }
  let f₂ : Floor := f₁.proceed 0 (.busy 0 [m] 0 o)
  let f₃ : Floor := (f₂.proceed 0 (.busy 0 [] 0 o)).send 0 m
  let f₄ : Floor := f₃.proceed 0 (.ended 0 o)
  let f₅ : Floor := { f₄ with heard := some 0 }
  let f₆ : Floor := f₅.collect p crashing o
  have hpatient : ∀ f f' : Floor, f'.results = f.results → ∀ ticks, p.limit? = some ticks →
      Floor.Patient ticks 0 f f' := by
    intro f f' hresults ticks _ start _ hlt
    unfold Floor.next at hlt
    rw [hresults] at hlt
    omega
  have h₁ : Floor.Shift p (p.work .error) inputs 1 .sequential 0 .initial f₁ :=
    ⟨0, .inl ⟨rfl, by decide, rfl⟩, hpatient _ _ rfl⟩
  have h₂ : Floor.Shift p (p.work .error) inputs 1 .sequential 0 f₁ f₂ :=
    ⟨0, .inr (.take (by decide) rfl rfl (by decide)
      (.inr ⟨(), [], List.nil_prefix, rfl, rfl⟩)), hpatient _ _ rfl⟩
  have h₃ : Floor.Shift p (p.work .error) inputs 1 .sequential 0 f₂ f₃ :=
    ⟨0, .inr (.write rfl), hpatient _ _ rfl⟩
  have h₄ : Floor.Shift p (p.work .error) inputs 1 .sequential 0 f₃ f₄ :=
    ⟨0, .inr (.finish rfl (Nat.le_refl 0)), hpatient _ _ rfl⟩
  have h₅ : Floor.Shift p (p.work .error) inputs 1 .sequential 0 f₄ f₅ :=
    ⟨0, .inr (.hear rfl (by decide) rfl rfl), hpatient _ _ rfl⟩
  have h₆ : Floor.Shift p (p.work .error) inputs 1 .sequential 0 f₅ f₆ := by
    refine ⟨0, .inr (.collect rfl rfl rfl), ?_⟩
    rintro ticks - start ⟨⟩ - hopen
    exact absurd rfl (hopen o)
  have hrun : Floor.Shifts p (p.work .error) inputs 1 .sequential 0 .initial f₆ :=
    (((((Relation.ReflTransGen.refl.tail h₁).tail h₂).tail h₃).tail h₄).tail h₅).tail h₆
  obtain ⟨-, -, -, -, herror⟩ := hfloor .error 1 .sequential 0 f₆ hrun 0 _ rfl
  exact ⟨f₆, _, hrun, rfl, rfl, herror nofun⟩

end Processor

end MacroForest
