/-
**Deadlines.**

With a limit of time, each job has a deadline, which counts from the moment in which a worker takes
the input.  The deadline is kept twice: the job asks its token, which counts as cancelled from the
deadline on, and the supervisor waits for the outcome until the deadline and then gives up.  Workers
come to their ends in any order, the supervisor comes to the inputs in theirs, and the two need not
agree on an input whose time is just over.

`MacroForest/Proofs/Batch/Floor.lean` has the steps of the workers and of the supervisor on several
workers.  One after another, the supervisor puts an input in the queue only when it has collected
the one before, and a worker that it has given up on goes on by itself.  Of the jobs only what their
token tells them is known; everything else, also the time that they take, is left open.

The invariant says of each input what its worker has done and sent, whether its token is raised,
and how its result came about.  What a state says of a later one is kept apart from it: an outcome
that is there stays, and so does a result.

Main definitions:

* `MacroForest.Processor.Possible` — what a job can do at all;
* `MacroForest.Floor.Shift` — some time and a step, in either mode;
* `MacroForest.Floor.Timely` — what holds at all times with a limit of time.

Main results:

* `MacroForest.Floor.Timely.step` — every step keeps the invariant;
* `MacroForest.Floor.exists_take` — a worker took each input that has been started;
* `MacroForest.Floor.Timely.reported` — an outcome that is there in time is reported;
* `MacroForest.Processor.deadlines_kept` — **deadlines are kept**.
-/

import MacroForest.Proofs.Batch.Floor
import MacroForest.Proofs.Batch.Supervised

set_option relaxedAutoImplicit false
set_option autoImplicit false

namespace MacroForest

variable {σ : Type}

/-! ### Jobs and their tokens -/

namespace Processor

/-- What a job can do at all: it has no forest, since its parser refuses or breaks down, or it comes
to an end with its expansion somehow and then asks its token. -/
def Possible (p : Processor σ) : Behaviour := fun _ start finish _ outcome =>
  (∃ status, status ≠ .timedOut ∧ outcome = .nothing status) ∨
    ∃ now forest answer, now ≤ finish ∧ outcome = outcomeOf (p.tokenAt start) now forest answer

variable {p : Processor σ}

/-- The jobs of a processor are possible. -/
theorem job_le_possible (p : Processor σ) (least : Severity) : p.job least ≤ p.Possible := by
  rintro i start finish messages outcome ⟨shared, rfl, -, houtcome⟩
  cases hparser : (p.forestOf i).outcome with
  | crashed =>
      rw [run_of_crashed start shared hparser] at houtcome
      simp at houtcome
  | refused error =>
      rw [run_of_refused start shared hparser] at houtcome
      exact .inl ⟨.parseFailed, by decide, (Option.some.inj houtcome).symm⟩
  | parsed forest =>
      rw [run_of_parsed start shared hparser] at houtcome ⊢
      exact .inr ⟨_, forest, _, Nat.le_refl _, (Option.some.inj houtcome).symm⟩

/-- A job that finds itself out of time is past its deadline, and stands for its output with a
single node. -/
theorem Possible.late {ticks : Nat} (hlimit : p.limit? = some ticks) {i : Input}
    {start finish : Nat} {messages : List Message} {outcome : JobOutcome}
    (h : p.Possible i start finish messages outcome) (hlate : outcome.status = .timedOut) :
    outcome.output = [timedOutNode] ∧ start + ticks ≤ finish := by
  rcases h with ⟨status, hstatus, rfl⟩ | ⟨now, forest, answer, hnow, rfl⟩
  · exact absurd hlate hstatus
  · cases answer with
    | ok output => simp [outcomeOf] at hlate
    | error c =>
        by_cases hcancelled : (p.tokenAt start).isCancelled now = true
        · have hpast : start + ticks ≤ now := by
            simpa [tokenAt, hlimit, CancelToken.isCancelled] using hcancelled
          simp only [outcomeOf, if_pos hcancelled]
          exact ⟨rfl, Nat.le_trans hpast hnow⟩
        · simp [outcomeOf, if_neg hcancelled] at hlate

end Processor

namespace Floor

/-! ### Steps in either mode -/

/-- The steps if the inputs are worked on one after another: the next input is put in the queue when
the one before has been collected, and the supervisor then waits as if there were no more inputs. -/
def StepAlone (p : Processor σ) (jobs : Behaviour) (inputs : List Input) (f f' : Floor) : Prop :=
  (f.queued = f.next ∧ f.queued < inputs.length ∧ f' = { f with queued := f.queued + 1 }) ∨
    Step p jobs (inputs.take f.queued) (f.queued + 1) f f'

/-- The steps in a mode. -/
def StepIn (p : Processor σ) (jobs : Behaviour) (inputs : List Input) (workers : Nat) :
    BatchMode → Floor → Floor → Prop
  | .sequential => StepAlone p jobs inputs
  | .concurrent => Step p jobs inputs workers

/-- If the supervisor gives up on an input, it does so no sooner than some ticks after the time that
the input has. -/
def Patient (ticks extra : Nat) (f f' : Floor) : Prop :=
  ∀ start, f.heard = some start → f.next < f'.next →
    (∀ outcome, f.stage f.next ≠ .ended start outcome) → start + ticks + extra ≤ f.now

/-- Some time passes, and there is a step in a mode, by a supervisor that gives up no sooner than
some ticks after a deadline. -/
def Shift (p : Processor σ) (jobs : Behaviour) (inputs : List Input) (workers : Nat)
    (mode : BatchMode) (extra : Nat) (f f' : Floor) : Prop :=
  ∃ passed, StepIn p jobs inputs workers mode (f.later passed) f' ∧
    ∀ ticks, p.limit? = some ticks → Patient ticks extra (f.later passed) f'

/-- Any number of them. -/
abbrev Shifts (p : Processor σ) (jobs : Behaviour) (inputs : List Input) (workers : Nat)
    (mode : BatchMode) (extra : Nat) : Floor → Floor → Prop :=
  Relation.ReflTransGen (Shift p jobs inputs workers mode extra)

/-! ### What holds at all times -/

/-- What a worker has done by a time: it has said some of the messages of a job, and it is in the
middle of that job, or done with it unless the token is raised. -/
def Does (jobs : Behaviour) (i : Input) (now : Nat) (raised : Bool) (said : List Message) :
    Stage → Prop
  | .idle => said = []
  | .busy start left finish outcome => jobs i start finish (said ++ left) outcome
  | .ended start outcome => ∃ finish messages outcome', jobs i start finish messages outcome' ∧
      said <+: messages ∧ (raised = true ∨ (outcome' = outcome ∧ said = messages ∧ finish ≤ now))

/-- What the supervisor says of an input that took too long. -/
def notice (p : Processor σ) (i : Input) : Message :=
  Supervision.timeoutMessage i.fileName (p.settings.timeout?.getD 0)

/-- The worker on an input has done something possible, and what has been sent about the input is
what the worker has said, and one message more if the token is raised. -/
def Worked (p : Processor σ) (jobs : Behaviour) (i : Input) (now : Nat) (raised : Bool)
    (sent : List Message) (stage : Stage) : Prop :=
  ∃ before after, sent = before ++ (if raised then [notice p i] else []) ++ after ∧
    Does jobs i now raised (before ++ after) stage

/-- How the result of an input that started at a time came about: the outcome that is there, or the
time was over.  In the latter case the supervisor gave up, or it found just that. -/
def Settled (p : Processor σ) (ticks extra : Nat) (i : Input) (start now : Nat) (raised : Bool)
    (result : Processed) (stage : Stage) : Prop :=
  (result.status = .timedOut ∧ raised = true ∧ result.output = [timedOutNode] ∧
    start + ticks ≤ now ∧ (start + ticks + extra ≤ now ∨
      ∃ outcome, stage = .ended start outcome ∧ outcome.status = .timedOut)) ∨
  (result.status ≠ .timedOut ∧ raised = false ∧
    ∃ outcome, stage = .ended start outcome ∧ result = outcome.result i (p.printerFor i))

/-- What holds at all times, with a limit of time. -/
structure Timely (p : Processor σ) (jobs : Behaviour) (inputs : List Input) (ticks extra : Nat)
    (f : Floor) : Prop where
  idle : ∀ k, inputs[k]? = none → f.stage k = .idle
  heard : ∀ start, f.heard = some start → (f.stage f.next).start? = some start
  waiting : ∀ k, f.next ≤ k → f.raised k = false
  worked : ∀ k i, inputs[k]? = some i → Worked p jobs i f.now (f.raised k) (f.sent k) (f.stage k)
  settled : ∀ k r, f.results[k]? = some r → ∃ i start, inputs[k]? = some i ∧
    (f.stage k).start? = some start ∧ Settled p ticks extra i start f.now (f.raised k) r (f.stage k)
  announced : f.announced = f.results.filter (·.status ≠ .timedOut)

section Timely

variable {p : Processor σ} {jobs : Behaviour} {inputs : List Input} {ticks extra : Nat}
  {f f' : Floor}

theorem Does.later {i : Input} {now now' : Nat} {raised : Bool} {said : List Message}
    {stage : Stage} (h : Does jobs i now raised said stage) (hle : now ≤ now') :
    Does jobs i now' raised said stage := by
  cases stage with
  | idle | busy => exact h
  | ended start outcome =>
      obtain ⟨finish, messages, outcome', hjob, hsaid, hdone⟩ := h
      refine ⟨finish, messages, outcome', hjob, hsaid, hdone.imp_right ?_⟩
      rintro ⟨houtcome, hall, hfinish⟩
      exact ⟨houtcome, hall, Nat.le_trans hfinish hle⟩

/-- A raised token does not undo anything. -/
theorem Does.raise {i : Input} {now : Nat} {said : List Message} {stage : Stage} {raised : Bool}
    (h : Does jobs i now raised said stage) : Does jobs i now true said stage := by
  cases stage with
  | idle | busy => exact h
  | ended start outcome =>
      obtain ⟨finish, messages, outcome', hjob, hsaid, -⟩ := h
      exact ⟨finish, messages, outcome', hjob, hsaid, .inl rfl⟩

/-- What a worker has said are the first messages of a job. -/
theorem Does.said {i : Input} {now : Nat} {raised : Bool} {said : List Message} {stage : Stage}
    (h : Does jobs i now raised said stage) :
    said = [] ∨ ∃ start finish messages outcome,
      jobs i start finish messages outcome ∧ said <+: messages := by
  cases stage with
  | idle => exact .inl h
  | busy start left finish outcome =>
      exact .inr ⟨start, finish, _, outcome, h, List.prefix_append ..⟩
  | ended start outcome =>
      obtain ⟨finish, messages, outcome', hjob, hsaid, -⟩ := h
      exact .inr ⟨start, finish, messages, outcome', hjob, hsaid⟩

theorem Settled.later {i : Input} {start now now' : Nat} {raised : Bool} {result : Processed}
    {stage : Stage} (h : Settled p ticks extra i start now raised result stage) (hle : now ≤ now') :
    Settled p ticks extra i start now' raised result stage := by
  rcases h with ⟨hstatus, hraised, houtput, hpast, hwhy⟩ | h
  · refine .inl ⟨hstatus, hraised, houtput, by omega, hwhy.imp_left fun _ => by omega⟩
  · exact .inr h

/-- An input of which the supervisor has a result goes on only if it took too long. -/
theorem Settled.proceed {i : Input} {start now : Nat} {raised : Bool} {result : Processed}
    {stage : Stage} (h : Settled p ticks extra i start now raised result stage)
    (hended : ∀ start outcome, stage ≠ .ended start outcome) (stage' : Stage) :
    Settled p ticks extra i start now raised result stage' := by
  rcases h with ⟨hstatus, hraised, houtput, hpast, hover | ⟨outcome, hstage, -⟩⟩ |
    ⟨-, -, outcome, hstage, -⟩
  · exact .inl ⟨hstatus, hraised, houtput, hpast, .inl hover⟩
  · exact absurd hstage (hended start outcome)
  · exact absurd hstage (hended start outcome)

theorem getElem?_snoc {results : List Processed} {r r' : Processed} {k : Nat}
    (h : (results ++ [r])[k]? = some r') :
    (k < results.length ∧ results[k]? = some r') ∨ (k = results.length ∧ r' = r) := by
  rcases Nat.lt_trichotomy k results.length with hlt | rfl | hgt
  · rw [List.getElem?_append_left hlt] at h
    exact .inl ⟨hlt, h⟩
  · rw [List.getElem?_concat_length] at h
    exact .inr ⟨rfl, (Option.some.inj h).symm⟩
  · rw [List.getElem?_eq_none (by rw [List.length_append, List.length_singleton]; exact hgt)] at h
    simp at h

theorem lt_of_next_add_le {r : Processed} {k : Nat} (h : (f.add r).next ≤ k) : f.next < k := by
  simpa [next, add, Nat.succ_le_iff] using h

namespace Timely

theorem initial : Timely p jobs inputs ticks extra .initial where
  idle _ _ := rfl
  heard start h := by simp [Floor.initial] at h
  waiting _ _ := rfl
  worked _ _ _ := ⟨[], [], rfl, rfl⟩
  settled k r h := by simp [Floor.initial] at h
  announced := rfl

theorem later (h : Timely p jobs inputs ticks extra f) (passed : Nat) :
    Timely p jobs inputs ticks extra (f.later passed) where
  idle := h.idle
  heard := h.heard
  waiting := h.waiting
  worked k i hi := by
    obtain ⟨before, after, hsent, hdoes⟩ := h.worked k i hi
    exact ⟨before, after, hsent, hdoes.later (Nat.le_add_right ..)⟩
  settled k r hr := by
    obtain ⟨i, start, hi, hstart, hsettled⟩ := h.settled k r hr
    exact ⟨i, start, hi, hstart, hsettled.later (Nat.le_add_right ..)⟩
  announced := h.announced

/-- The work on one input proceeds, and perhaps a message about it is sent.  Nothing is said of
other inputs. -/
theorem proceed (h : Timely p jobs inputs ticks extra f) {k : Nat} {stage : Stage} {g : Floor}
    (hk : inputs[k]? ≠ none) (hstage : g.stage = Function.update f.stage k stage)
    (hother : ∀ j, j ≠ k → g.sent j = f.sent j)
    (hrest : g.now = f.now ∧ g.raised = f.raised ∧ g.heard = f.heard ∧ g.results = f.results ∧
      g.announced = f.announced)
    (hworked : ∀ i, inputs[k]? = some i → Worked p jobs i f.now (f.raised k) (g.sent k) stage)
    (hstart : ∀ start, (f.stage k).start? = some start → stage.start? = some start)
    (hended : ∀ start outcome, f.stage k ≠ .ended start outcome) :
    Timely p jobs inputs ticks extra g := by
  obtain ⟨hnow, hraised, hheard, hresults, hannounced⟩ := hrest
  have hnext : g.next = f.next := congrArg List.length hresults
  have hself : g.stage k = stage := by rw [hstage, Function.update_self]
  have hstage' : ∀ j, j ≠ k → g.stage j = f.stage j := fun j hj => by
    rw [hstage, Function.update_of_ne hj]
  refine ⟨fun j hj => ?_, fun start hstarted => ?_, fun j hj => ?_, fun j i hi => ?_,
    fun j r hr => ?_, by rw [hannounced, hresults, h.announced]⟩
  · have hjk : j ≠ k := by
      rintro rfl
      exact hk hj
    rw [hstage' j hjk, h.idle j hj]
  · rw [hheard] at hstarted
    rw [hnext]
    by_cases hk' : f.next = k
    · rw [hk', hself]
      exact hstart start (hk' ▸ h.heard start hstarted)
    · rw [hstage' _ hk', h.heard start hstarted]
  · rw [hraised]
    exact h.waiting j (hnext ▸ hj)
  · rw [hnow, hraised]
    by_cases hjk : j = k
    · subst hjk
      rw [hself]
      exact hworked i hi
    · rw [hstage' j hjk, hother j hjk]
      exact h.worked j i hi
  · rw [hresults] at hr
    obtain ⟨i, start, hi, hstarted, hsettled⟩ := h.settled j r hr
    rw [hnow, hraised]
    by_cases hjk : j = k
    · subst hjk
      rw [hself]
      exact ⟨i, start, hi, hstart start hstarted, hsettled.proceed hended stage⟩
    · rw [hstage' j hjk]
      exact ⟨i, start, hi, hstarted, hsettled⟩

/-- The supervisor gives up on the next input, or finds that it took too long. -/
theorem collect_late (h : Timely p jobs inputs ticks extra f) {i : Input} {start : Nat}
    {outcome : JobOutcome} (hheard : f.heard = some start) (hi : inputs[f.next]? = some i)
    (hstatus : outcome.status = .timedOut) (houtput : outcome.output = [timedOutNode])
    (hpast : start + ticks ≤ f.now)
    (hwhy : start + ticks + extra ≤ f.now ∨
      ∃ o, f.stage f.next = .ended start o ∧ o.status = .timedOut) :
    Timely p jobs inputs ticks extra (f.collect p i outcome) := by
  unfold Floor.collect
  dsimp only
  rw [if_pos hstatus]
  refine ⟨h.idle, by simp [add], fun k hk => ?_, fun k j hj => ?_, fun k r hr => ?_, ?_⟩
  · have hk' : f.next < k := lt_of_next_add_le hk
    change Function.update f.raised f.next true k = false
    rw [Function.update_of_ne (by omega), h.waiting k (by omega)]
  · change Worked p jobs j f.now (Function.update f.raised f.next true k)
      ((f.send f.next (notice p i)).sent k) (f.stage k)
    by_cases hk : k = f.next
    · -- so far only the worker has said something
      subst hk
      obtain rfl : i = j := Option.some.inj (hi.symm.trans hj)
      obtain ⟨before, after, hsent, hdoes⟩ := h.worked f.next i hi
      rw [h.waiting f.next (Nat.le_refl _)] at hsent
      rw [Function.update_self, sent_send_self, hsent]
      refine ⟨before ++ after, [], by simp, ?_⟩
      rw [List.append_nil]
      exact hdoes.raise
    · rw [Function.update_of_ne hk, sent_send_of_ne _ _ _ hk]
      exact h.worked k j hj
  · rcases getElem?_snoc hr with ⟨hlt, hr⟩ | ⟨rfl, rfl⟩
    · obtain ⟨j, start', hj, hstart', hsettled⟩ := h.settled k r hr
      refine ⟨j, start', hj, hstart', ?_⟩
      change Settled p ticks extra j start' f.now (Function.update f.raised f.next true k) r
        (f.stage k)
      have hne : k ≠ f.next := Nat.ne_of_lt hlt
      rw [Function.update_of_ne hne]
      exact hsettled
    · refine ⟨i, start, hi, h.heard start hheard, .inl ⟨hstatus, ?_, houtput, hpast, hwhy⟩⟩
      exact Function.update_self ..
  · change f.announced = (f.results ++ [_]).filter _
    rw [List.filter_append, h.announced]
    simp [JobOutcome.result, hstatus]

/-- The supervisor takes the outcome that is there. -/
theorem collect_there (h : Timely p jobs inputs ticks extra f) {i : Input} {start : Nat}
    {outcome : JobOutcome} (hheard : f.heard = some start) (hi : inputs[f.next]? = some i)
    (hstatus : outcome.status ≠ .timedOut) (hthere : f.stage f.next = .ended start outcome) :
    Timely p jobs inputs ticks extra (f.collect p i outcome) := by
  unfold Floor.collect
  dsimp only
  rw [if_neg hstatus]
  refine ⟨h.idle, by simp [add], fun k hk => h.waiting k (lt_of_next_add_le hk).le, h.worked,
    fun k r hr => ?_, ?_⟩
  · rcases getElem?_snoc hr with ⟨-, hr⟩ | ⟨rfl, rfl⟩
    · exact h.settled k r hr
    · exact ⟨i, start, hi, h.heard start hheard,
        .inr ⟨hstatus, h.waiting _ (Nat.le_refl _), outcome, hthere, rfl⟩⟩
  · change f.announced ++ [_] = (f.results ++ [_]).filter _
    rw [List.filter_append, h.announced]
    simp [JobOutcome.result, hstatus]

/-- What is there of an input that is still to be collected is the outcome of a possible job. -/
theorem possible_of_ended (h : Timely p jobs inputs ticks extra f)
    (hjobs : jobs ≤ p.Possible)
    {k start : Nat} {i : Input} {outcome : JobOutcome} (hi : inputs[k]? = some i)
    (hraised : f.raised k = false) (hended : f.stage k = .ended start outcome) :
    ∃ finish messages, p.Possible i start finish messages outcome ∧ finish ≤ f.now := by
  obtain ⟨before, after, -, hdoes⟩ := h.worked k i hi
  rw [hended] at hdoes
  obtain ⟨finish, messages, outcome', hjob, -, hdone⟩ := hdoes
  obtain ⟨rfl, -, hfinish⟩ := hdone.resolve_left (by simp [hraised])
  exact ⟨finish, messages, hjobs _ _ _ _ _ hjob, hfinish⟩

/-- **Every step keeps the invariant**, also if there are more inputs than the supervisor knows. -/
theorem step (h : Timely p jobs inputs ticks extra f) (hlimit : p.limit? = some ticks)
    (hjobs : jobs ≤ p.Possible) {known : List Input}
    (hknown : ∀ (k : Nat) i, known[k]? = some i → inputs[k]? = some i) {workers : Nat}
    (hstep : Step p jobs known workers f f') (hpatient : Patient ticks extra f f') :
    Timely p jobs inputs ticks extra f' := by
  have hsome : ∀ k, f.stage k ≠ .idle → inputs[k]? ≠ none := fun k hk hnone => hk (h.idle k hnone)
  cases hstep with
  | queue => exact ⟨h.idle, h.heard, h.waiting, h.worked, h.settled, h.announced⟩
  | hear _ _ _ hstart =>
      refine ⟨h.idle, ?_, h.waiting, h.worked, h.settled, h.announced⟩
      rintro start' ⟨⟩
      exact hstart
  | @take k finish i messages outcome _ hi hidle _ hjob =>
      have hi' := hknown k i hi
      refine h.proceed (by simp [hi']) rfl (fun _ _ => rfl) ⟨rfl, rfl, rfl, rfl, rfl⟩
        (fun j hj => ?_) (by simp [hidle, Stage.start?]) (by simp [hidle])
      obtain rfl : i = j := Option.some.inj (hi'.symm.trans hj)
      obtain ⟨before, after, hsent, hdoes⟩ := h.worked k i hi'
      rw [hidle] at hdoes
      refine ⟨before, after, hsent, ?_⟩
      rw [show before ++ after = [] from hdoes]
      exact hjob
  | @write k start finish m left outcome hbusy =>
      refine h.proceed (hsome k (by simp [hbusy])) rfl (fun j hj => sent_send_of_ne _ _ _ hj m)
        ⟨rfl, rfl, rfl, rfl, rfl⟩ (fun i hi => ?_) (by simp [hbusy, Stage.start?]) (by simp [hbusy])
      obtain ⟨before, after, hsent, hdoes⟩ := h.worked k i hi
      rw [hbusy] at hdoes
      refine ⟨before, after ++ [m], ?_, ?_⟩
      · rw [sent_send_self]
        change f.sent k ++ [m] = _
        rw [hsent, List.append_assoc _ after]
      · change jobs i start finish (before ++ (after ++ [m]) ++ left) outcome
        simpa [Does] using hdoes
  | @finish k start finish outcome hbusy hfinish =>
      refine h.proceed (hsome k (by simp [hbusy])) rfl (fun _ _ => rfl) ⟨rfl, rfl, rfl, rfl, rfl⟩
        (fun i hi => ?_) (by simp [hbusy, Stage.start?]) (by simp [hbusy])
      obtain ⟨before, after, hsent, hdoes⟩ := h.worked k i hi
      rw [hbusy] at hdoes
      have hjob : jobs i start finish (before ++ after) outcome := by simpa [Does] using hdoes
      exact ⟨before, after, hsent, finish, _, outcome, hjob, List.prefix_rfl,
        .inr ⟨rfl, rfl, hfinish⟩⟩
  | @cut k start finish left outcome forest hbusy hraised =>
      refine h.proceed (hsome k (by simp [hbusy])) rfl (fun _ _ => rfl) ⟨rfl, rfl, rfl, rfl, rfl⟩
        (fun i hi => ?_) (by simp [hbusy, Stage.start?]) (by simp [hbusy])
      obtain ⟨before, after, hsent, hdoes⟩ := h.worked k i hi
      rw [hbusy] at hdoes
      exact ⟨before, after, hsent, finish, _, outcome, hdoes, List.prefix_append .., .inl hraised⟩
  | @collect start i outcome hheard hi hended =>
      have hi' := hknown f.next i hi
      by_cases hstatus : outcome.status = .timedOut
      · obtain ⟨finish, messages, hpossible, hfinish⟩ :=
          h.possible_of_ended hjobs hi' (h.waiting _ (Nat.le_refl _)) hended
        obtain ⟨houtput, hpast⟩ := hpossible.late hlimit hstatus
        exact h.collect_late hheard hi' hstatus houtput (Nat.le_trans hpast hfinish)
          (.inr ⟨outcome, hended, hstatus⟩)
      · exact h.collect_there hheard hi' hstatus hended
  | @expire start _ i _ hheard hi hnone _ =>
      have hover : start + ticks + extra ≤ f.now := by
        refine hpatient start hheard ?_ hnone
        simp [Floor.collect, JobOutcome.timedOut, next, add, send]
      exact h.collect_late hheard (hknown f.next i hi) rfl rfl (by omega) (.inl hover)

/-- Every step in a mode keeps the invariant. -/
theorem stepIn (h : Timely p jobs inputs ticks extra f) (hlimit : p.limit? = some ticks)
    (hjobs : jobs ≤ p.Possible) {workers : Nat} {mode : BatchMode}
    (hstep : StepIn p jobs inputs workers mode f f') (hpatient : Patient ticks extra f f') :
    Timely p jobs inputs ticks extra f' := by
  cases mode with
  | concurrent => exact h.step hlimit hjobs (fun _ _ hi => hi) hstep hpatient
  | sequential =>
      rcases hstep with ⟨-, -, rfl⟩ | hstep
      · exact ⟨h.idle, h.heard, h.waiting, h.worked, h.settled, h.announced⟩
      · refine h.step hlimit hjobs (fun k i hi => ?_) hstep hpatient
        rw [List.getElem?_take] at hi
        split at hi
        · exact hi
        · simp at hi

theorem shifts (h : Timely p jobs inputs ticks extra f) (hlimit : p.limit? = some ticks)
    (hjobs : jobs ≤ p.Possible) {workers : Nat} {mode : BatchMode}
    (hshifts : Shifts p jobs inputs workers mode extra f f') :
    Timely p jobs inputs ticks extra f' := by
  induction hshifts with
  | refl => exact h
  | tail _ hshift ih =>
      obtain ⟨passed, hstep, hpatient⟩ := hshift
      exact (ih.later passed).stepIn hlimit hjobs hstep (hpatient ticks hlimit)

/-- A token is raised if the input is reported to have taken too long, and only then. -/
theorem raised_iff (h : Timely p jobs inputs ticks extra f) (k : Nat) :
    f.raised k = true ↔ ∃ r, f.results[k]? = some r ∧ r.status = .timedOut := by
  constructor
  · intro hraised
    have hk : k < f.results.length := by
      by_contra hge
      simp [h.waiting k (Nat.le_of_not_lt hge)] at hraised
    have hr : f.results[k]? = some f.results[k] := List.getElem?_eq_getElem hk
    obtain ⟨i, start, -, -, ⟨hlate, -⟩ | ⟨-, hdown, -⟩⟩ := h.settled k _ hr
    · exact ⟨_, hr, hlate⟩
    · simp [hdown] at hraised
  · rintro ⟨r, hr, hlate⟩
    obtain ⟨i, start, -, -, ⟨-, hraised, -⟩ | ⟨hne, -⟩⟩ := h.settled k r hr
    · exact hraised
    · exact absurd hlate hne

end Timely

end Timely

/-! ### Earlier and later -/

section Later

variable {p : Processor σ} {jobs : Behaviour} {inputs : List Input} {workers : Nat}
  {mode : BatchMode} {extra : Nat} {f f' : Floor}

/-- What one step does to the inputs: it is about one of them, and of that one it can only change
what is not there yet. -/
structure Advance (f f' : Floor) : Prop where
  now : f'.now = f.now
  others : ∃ k, ∀ j, j ≠ k → f'.stage j = f.stage j ∧ f'.raised j = f.raised j ∧
    f'.sent j = f.sent j ∧ f'.results[j]? = f.results[j]?
  started : ∀ k start, (f'.stage k).start? = some start →
    (f.stage k).start? = some start ∨ (f.stage k = .idle ∧ start = f.now)
  ended : ∀ k start outcome, f.stage k = .ended start outcome → f'.stage k = .ended start outcome
  results : f.results <+: f'.results

/-- A step that leaves everything about the inputs as it is. -/
theorem Advance.of_same {f f' : Floor} (hnow : f'.now = f.now) (hstage : f'.stage = f.stage)
    (hraised : f'.raised = f.raised) (hsink : f'.sink = f.sink)
    (hresults : f'.results = f.results) : Advance f f' where
  now := hnow
  others := ⟨0, fun j _ => ⟨by rw [hstage], by rw [hraised], by rw [sent, hsink]; rfl,
    by rw [hresults]⟩⟩
  started k start h := .inl (by rw [← hstage]; exact h)
  ended k start outcome h := by rw [hstage, h]
  results := by rw [hresults]

/-- The work on one input proceeds. -/
theorem Advance.of_proceed {k : Nat} {stage : Stage} {g : Floor} (hnow : g.now = f.now)
    (hstage : g.stage = Function.update f.stage k stage) (hraised : g.raised = f.raised)
    (hsent : ∀ j, j ≠ k → g.sent j = f.sent j) (hresults : g.results = f.results)
    (hstart : ∀ start, stage.start? = some start →
      (f.stage k).start? = some start ∨ (f.stage k = .idle ∧ start = f.now))
    (hended : ∀ start outcome, f.stage k ≠ .ended start outcome) : Advance f g where
  now := hnow
  others := ⟨k, fun j hj => ⟨by rw [hstage, Function.update_of_ne hj], by rw [hraised], hsent j hj,
    by rw [hresults]⟩⟩
  started j start h := by
    rw [hstage] at h
    by_cases hj : j = k
    · subst hj
      rw [Function.update_self] at h
      exact hstart start h
    · rw [Function.update_of_ne hj] at h
      exact .inl h
  ended j start outcome h := by
    have hj : j ≠ k := by
      rintro rfl
      exact hended start outcome h
    rw [hstage, Function.update_of_ne hj, h]
  results := by rw [hresults]

/-- The next input is collected. -/
theorem Advance.of_collect (p : Processor σ) (f : Floor) (i : Input) (outcome : JobOutcome) :
    Advance f (f.collect p i outcome) := by
  have hother : ∀ (r : Processed) j, j ≠ f.next → (f.results ++ [r])[j]? = f.results[j]? := by
    intro r j hj
    rcases Nat.lt_or_gt_of_ne hj with hlt | hgt
    · rw [List.getElem?_append_left hlt]
    · unfold next at hgt
      rw [List.getElem?_eq_none (by simp; omega), List.getElem?_eq_none (by omega)]
  unfold Floor.collect
  dsimp only
  split
  · refine ⟨rfl, ⟨f.next, fun j hj => ⟨rfl, Function.update_of_ne hj .., ?_, hother _ j hj⟩⟩,
      fun k start h => .inl h, fun k start outcome h => h, List.prefix_append ..⟩
    exact sent_send_of_ne _ _ _ hj _
  · exact ⟨rfl, ⟨f.next, fun j hj => ⟨rfl, rfl, rfl, hother _ j hj⟩⟩, fun k start h => .inl h,
      fun k start outcome h => h, List.prefix_append ..⟩

theorem Step.advance {known : List Input} (h : Step p jobs known workers f f') : Advance f f' := by
  cases h with
  | queue => exact .of_same rfl rfl rfl rfl rfl
  | hear => exact .of_same rfl rfl rfl rfl rfl
  | take _ _ hidle =>
      refine .of_proceed rfl rfl rfl (fun _ _ => rfl) rfl (fun start h => .inr ⟨hidle, ?_⟩)
        (by simp [hidle])
      exact (Option.some.inj h).symm
  | write hbusy =>
      exact .of_proceed rfl rfl rfl (fun j hj => sent_send_of_ne _ _ _ hj _) rfl
        (fun start h => .inl (by rw [hbusy]; exact h)) (by simp [hbusy])
  | finish hbusy =>
      exact .of_proceed rfl rfl rfl (fun _ _ => rfl) rfl
        (fun start h => .inl (by rw [hbusy]; exact h)) (by simp [hbusy])
  | cut hbusy =>
      exact .of_proceed rfl rfl rfl (fun _ _ => rfl) rfl
        (fun start h => .inl (by rw [hbusy]; exact h)) (by simp [hbusy])
  | collect => exact .of_collect ..
  | expire => exact .of_collect ..

theorem StepIn.advance (h : StepIn p jobs inputs workers mode f f') : Advance f f' := by
  cases mode with
  | concurrent => exact Step.advance h
  | sequential =>
      rcases h with ⟨-, -, rfl⟩ | h
      · exact .of_same rfl rfl rfl rfl rfl
      · exact h.advance

/-- If the result of an input comes in whose outcome is there, it is that outcome. -/
theorem Step.status_of_ended {known : List Input} (h : Step p jobs known workers f f')
    (hheard : ∀ start, f.heard = some start → (f.stage f.next).start? = some start) {k start : Nat}
    {outcome : JobOutcome} (hended : f.stage k = .ended start outcome) (hk : f.next ≤ k)
    {r : Processed} (hr : f'.results[k]? = some r) : r.status = outcome.status := by
  have hnone : f.results[k]? = none := List.getElem?_eq_none hk
  have hcollect : ∀ i o,
      (f.collect p i o).results = f.results ++ [o.result i (p.printerFor i)] := by
    intro i o
    unfold Floor.collect
    dsimp only
    split <;> rfl
  cases h with
  | queue | hear | take | write | finish | cut => exact absurd (hnone.symm.trans hr) (by simp)
  | @collect start' i o _ _ hended' =>
      rw [hcollect] at hr
      rcases getElem?_snoc hr with ⟨hlt, -⟩ | ⟨rfl, rfl⟩
      · exact absurd hk (Nat.not_le.2 hlt)
      · have hsame : Stage.ended start outcome = .ended start' o := hended.symm.trans hended'
        obtain ⟨-, rfl⟩ := Stage.ended.inj hsame
        rfl
  | @expire start' ticks i _ hstart' _ hopen _ =>
      rw [hcollect] at hr
      rcases getElem?_snoc hr with ⟨hlt, -⟩ | ⟨rfl, rfl⟩
      · exact absurd hk (Nat.not_le.2 hlt)
      · have hstarted : (f.stage f.results.length).start? = some start' := hheard start' hstart'
        rw [hended] at hstarted
        obtain rfl : start = start' := Option.some.inj hstarted
        exact absurd hended (hopen outcome)

theorem StepIn.status_of_ended (h : StepIn p jobs inputs workers mode f f')
    (hheard : ∀ start, f.heard = some start → (f.stage f.next).start? = some start) {k start : Nat}
    {outcome : JobOutcome} (hended : f.stage k = .ended start outcome) (hk : f.next ≤ k)
    {r : Processed} (hr : f'.results[k]? = some r) : r.status = outcome.status := by
  cases mode with
  | concurrent => exact Step.status_of_ended h hheard hended hk hr
  | sequential =>
      rcases h with ⟨-, -, rfl⟩ | h
      · have hnone : f.results[k]? = none := List.getElem?_eq_none hk
        exact absurd (hnone.symm.trans hr) (by simp)
      · exact h.status_of_ended hheard hended hk hr

/-- **A worker took each input that has been started**, at the time that counts as its start. -/
theorem exists_take (h : Shifts p jobs inputs workers mode extra .initial f)
    {k start : Nat} (hstart : (f.stage k).start? = some start) :
    ∃ g g', Shifts p jobs inputs workers mode extra .initial g ∧
      Shift p jobs inputs workers mode extra g g' ∧
      Shifts p jobs inputs workers mode extra g' f ∧
      g.stage k = .idle ∧ (g'.stage k).start? = some start ∧ g'.now = start := by
  induction h with
  | refl => simp [Floor.initial, Stage.start?] at hstart
  | @tail f f' hshifts hshift ih =>
      obtain ⟨passed, hstep, hpatient⟩ := hshift
      have hadvance := hstep.advance
      rcases hadvance.started k start hstart with hbefore | ⟨hidle, hnow⟩
      · obtain ⟨g, g', hg, hgg', hg', hrest⟩ := ih hbefore
        exact ⟨g, g', hg, hgg', hg'.tail ⟨passed, hstep, hpatient⟩, hrest⟩
      · exact ⟨f, f', hshifts, ⟨passed, hstep, hpatient⟩, .refl, hidle, hstart,
          hadvance.now.trans hnow.symm⟩

/-- An outcome that is there stays, and no other result comes in for it, if it is there before the
deadline has passed for the supervisor, or before the supervisor has come to the input. -/
theorem Timely.ended_shifts {ticks : Nat} {g : Floor} (h : Timely p jobs inputs ticks extra g)
    (hlimit : p.limit? = some ticks) (hjobs : jobs ≤ p.Possible) {k start : Nat}
    {outcome : JobOutcome} (hended : g.stage k = .ended start outcome)
    (hstatus : outcome.status ≠ .timedOut)
    (hintime : g.now < start + ticks + extra ∨ g.next ≤ k)
    (hshifts : Shifts p jobs inputs workers mode extra g f) :
    f.stage k = .ended start outcome ∧ ∀ r, f.results[k]? = some r → r.status ≠ .timedOut := by
  induction hshifts with
  | refl =>
      refine ⟨hended, fun r hr hlate => ?_⟩
      obtain ⟨j, start', -, hstart', hsettled⟩ := h.settled k r hr
      rw [hended] at hstart' hsettled
      obtain rfl : start = start' := Option.some.inj hstart'
      rcases hsettled with ⟨-, -, -, -, hover | ⟨o, hsame, ho⟩⟩ | ⟨hne, -⟩
      · have hlt : k < g.results.length := (List.getElem?_eq_some_iff.1 hr).1
        unfold next at hintime
        omega
      · obtain ⟨-, rfl⟩ := Stage.ended.inj hsame
        exact hstatus ho
      · exact hne hlate
  | @tail f f' hbefore hshift ih =>
      obtain ⟨hstage, hresults⟩ := ih
      obtain ⟨passed, hstep, -⟩ := hshift
      have hadvance := hstep.advance
      refine ⟨hadvance.ended k start outcome hstage, fun r hr => ?_⟩
      by_cases hk : k < f.next
      · -- it has come in before
        have hold : f.results[k]? = some r := by
          have hk' : k < (f.later passed).results.length := hk
          obtain ⟨more, hmore⟩ := hadvance.results
          rw [← hmore, List.getElem?_append_left hk'] at hr
          exact hr
        exact hresults r hold
      · have hheard := ((h.shifts hlimit hjobs hbefore).later passed).heard
        rw [hstep.status_of_ended hheard hstage (Nat.le_of_not_lt hk) hr]
        exact hstatus

/-- **An outcome that is there in time is reported.** -/
theorem Timely.reported {ticks : Nat} {g : Floor} (h : Timely p jobs inputs ticks extra g)
    (hlimit : p.limit? = some ticks) (hjobs : jobs ≤ p.Possible) {k start : Nat} {i : Input}
    {outcome : JobOutcome} (hi : inputs[k]? = some i)
    (hended : g.stage k = .ended start outcome) (hstatus : outcome.status ≠ .timedOut)
    (hintime : g.now < start + ticks + extra ∨ g.next ≤ k)
    (hshifts : Shifts p jobs inputs workers mode extra g f) {r : Processed}
    (hr : f.results[k]? = some r) : r = outcome.result i (p.printerFor i) := by
  obtain ⟨hstage, hresults⟩ := h.ended_shifts hlimit hjobs hended hstatus hintime hshifts
  obtain ⟨j, start', hj, -, hsettled⟩ := (h.shifts hlimit hjobs hshifts).settled k r hr
  obtain rfl : i = j := Option.some.inj (hi.symm.trans hj)
  rcases hsettled with ⟨hlate, -⟩ | ⟨-, -, o, hsame, rfl⟩
  · exact absurd hlate (hresults r hr)
  · obtain ⟨-, rfl⟩ := Stage.ended.inj (hstage.symm.trans hsame)
    rfl

end Later

end Floor

/-! ### Batches -/

namespace Processor

/-- What the deadline means for the result of an input whose job starts at a time: it took too long
only if the time is over, and an outcome that is there in time is the result. -/
def OnTime (p : Processor σ) (ticks : Nat) (i : Input) (start : Nat) (run : JobRun σ)
    (r : Processed) : Prop :=
  (r.status = .timedOut → r.output = [timedOutNode] ∧ start + ticks ≤ run.finish) ∧
    ∀ o, run.outcome = some o → o.status ≠ .timedOut → run.finish ≤ start + ticks →
      r = o.result i (p.printerFor i)

variable {p : Processor σ} {ticks : Nat}

/-- A job that is awaited is on time. -/
theorem onTime_of_gives (hlimit : p.limit? = some ticks) {least : Severity} {s : Supervision}
    {i : Input} {r : Processed} (h : p.Gives least s i r) :
    ∃ start shared, p.OnTime ticks i start (p.run least i start shared) r := by
  obtain ⟨start, shared, rfl, -⟩ := h
  have hall : ∀ finish, p.limit?.all (fun ticks => decide (finish ≤ start + ticks)) =
      decide (finish ≤ start + ticks) := by simp [hlimit]
  refine ⟨start, shared, fun hlate => ?_, fun o ho hstatus hfinish => ?_⟩
  · unfold awaited at hlate ⊢
    rw [hall] at hlate ⊢
    split at hlate
    · rename_i hintime
      rw [if_pos hintime]
      cases houtcome : (p.run least i start shared).outcome with
      | none => simp [houtcome, JobOutcome.result, JobOutcome.nothing] at hlate
      | some o =>
          rw [houtcome] at hlate
          have hpossible := p.job_le_possible least i start _ _ o ⟨shared, rfl, rfl, houtcome⟩
          exact hpossible.late hlimit hlate
    · rename_i hover
      rw [if_neg hover]
      exact ⟨rfl, by simp at hover; omega⟩
  · rw [awaited, hall, if_pos (decide_eq_true hfinish), ho]
    rfl

/-- The results of a batch are on time. -/
theorem process_onTime (hlimit : p.limit? = some ticks) {least : Severity} {told : List Message}
    {inputs : List Input} {shared : σ} {b : BatchResult σ}
    (h : p.process least told inputs shared = .ok b) :
    List.Forall₂ (fun i r => ∃ start shared',
      p.OnTime ticks i start (p.run least i start shared') r) inputs b.results ∧
    b.announced = b.results.filter (·.status ≠ .timedOut) := by
  have hshields : p.Shields inputs := by
    by_contra hnot
    simp [process_unshielded least hnot] at h
  obtain ⟨b', s, hprocess, hsupervised, hresults, hannounced, -⟩ :=
    process_supervised least hshields told shared
  obtain rfl : b' = b := Except.ok.inj (hprocess.symm.trans h)
  obtain ⟨results, hgives, hresults', hannounced'⟩ := hsupervised.collected
  rw [hresults, hannounced, hresults', hannounced']
  simp only [Supervision.initial, List.append_nil, List.reverse_reverse]
  exact ⟨hgives.imp fun _ _ h => onTime_of_gives hlimit h, trivial⟩

/-- **Deadlines are kept**, by batches as they are processed, and in either mode by workers and a
supervisor that take their steps in any order, whatever the jobs do that is possible, and however
much later than at the deadline the supervisor gives up.

An input is reported to have taken too long only if a worker took it and its time has passed since;
the output is then a single node.  The token of an input is raised if it is so reported, and only
then; what has been sent about an input are the first messages of a job, and one notice if the
token is raised; and all results are handed on but those.  An outcome that is there before the
deadline has passed for the supervisor, or before the supervisor has come to the input, is the one
that is reported.  And every step is about one input and changes nothing about the others. -/
theorem deadlines_kept (p : Processor σ) {ticks : Nat} (hlimit : p.limit? = some ticks)
    (inputs : List Input) :
    (∀ least told shared b, p.process least told inputs shared = .ok b →
      List.Forall₂ (fun i r => ∃ start shared',
        p.OnTime ticks i start (p.run least i start shared') r) inputs b.results ∧
      b.announced = b.results.filter (·.status ≠ .timedOut)) ∧
    (∀ least, p.job least ≤ p.Possible) ∧
    ∀ jobs ≤ p.Possible, ∀ workers mode extra f,
      Floor.Shifts p jobs inputs workers mode extra .initial f →
      (∀ k r, f.results[k]? = some r → r.status = .timedOut → r.output = [timedOutNode] ∧
        ∃ g g', Floor.Shifts p jobs inputs workers mode extra .initial g ∧
          Floor.Shift p jobs inputs workers mode extra g g' ∧
          Floor.Shifts p jobs inputs workers mode extra g' f ∧
          g.stage k = .idle ∧ (g'.stage k).start? = some g'.now ∧ g'.now + ticks ≤ f.now) ∧
      (∀ k, f.raised k = true ↔ ∃ r, f.results[k]? = some r ∧ r.status = .timedOut) ∧
      (∀ k i, inputs[k]? = some i → ∃ before after,
        f.sent k = before ++ (if f.raised k then [Floor.notice p i] else []) ++ after ∧
        (before ++ after = [] ∨ ∃ start finish messages outcome,
          jobs i start finish messages outcome ∧ before ++ after <+: messages)) ∧
      f.announced = f.results.filter (·.status ≠ .timedOut) ∧
      (∀ g k i start outcome, Floor.Shifts p jobs inputs workers mode extra .initial g →
        Floor.Shifts p jobs inputs workers mode extra g f →
        inputs[k]? = some i → g.stage k = .ended start outcome → outcome.status ≠ .timedOut →
        g.now < start + ticks + extra ∨ g.results.length ≤ k →
        ∀ r, f.results[k]? = some r → r = outcome.result i (p.printerFor i)) ∧
      ∀ f', Floor.Shift p jobs inputs workers mode extra f f' → ∃ k, ∀ j, j ≠ k →
        f'.stage j = f.stage j ∧ f'.raised j = f.raised j ∧ f'.sent j = f.sent j ∧
        f'.results[j]? = f.results[j]? := by
  refine ⟨fun least told shared b h => process_onTime hlimit h, p.job_le_possible,
    fun jobs hjobs workers mode extra f hrun => ?_⟩
  have htimely := Floor.Timely.initial.shifts hlimit hjobs hrun
  refine ⟨fun k r hr hlate => ?_, htimely.raised_iff, fun k i hi => ?_, htimely.announced,
    fun g k i start outcome hg hgf hi hended hstatus hintime r hr => ?_, fun f' hshift => ?_⟩
  · obtain ⟨i, start, -, hstart, ⟨-, -, houtput, hpast, -⟩ | ⟨hne, -⟩⟩ := htimely.settled k r hr
    · obtain ⟨g, g', hg, hgg', hg', hidle, hstart', rfl⟩ := Floor.exists_take hrun hstart
      exact ⟨houtput, g, g', hg, hgg', hg', hidle, hstart', hpast⟩
    · exact absurd hlate hne
  · obtain ⟨before, after, hsent, hdoes⟩ := htimely.worked k i hi
    exact ⟨before, after, hsent, hdoes.said⟩
  · have hbefore := Floor.Timely.initial.shifts hlimit hjobs hg
    exact hbefore.reported hlimit hjobs hi hended hstatus hintime hgf hr
  · obtain ⟨passed, hstep, -⟩ := hshift
    exact hstep.advance.others

/-- The first of two inputs is given up, and the supervisor comes to the outcome of the second one
long after its deadline. -/
theorem deadlines_kept_givenUp :
    let p : Processor Unit := .ofSettings { timeoutMs := some 1 }
    let inputs : List Input :=
      [⟨"a", .nodes [], none, none, none⟩, ⟨"b", .nodes [], none, none, none⟩]
    p.limit? = some 1000 ∧ p.job .detail ≤ p.Possible ∧
      ∃ f, Floor.Shifts p (p.job .detail) inputs 2 .concurrent 1 .initial f ∧
        f.results.map (·.status) = [.timedOut, .completed] ∧ f.now = 5001 ∧
        (∀ k, f.raised k = true ↔ ∃ r, f.results[k]? = some r ∧ r.status = .timedOut) ∧
        f.announced = f.results.filter (·.status ≠ .timedOut) ∧
        ∃ g g', Floor.Shifts p (p.job .detail) inputs 2 .concurrent 1 .initial g ∧
          Floor.Shift p (p.job .detail) inputs 2 .concurrent 1 g g' ∧
          Floor.Shifts p (p.job .detail) inputs 2 .concurrent 1 g' f ∧
          g.stage 0 = .idle ∧ (g'.stage 0).start? = some g'.now ∧ g'.now + 1000 ≤ f.now := by
  intro p inputs
  have hlimit : p.limit? = some 1000 := rfl
  have hjob : ∀ i ∈ inputs, ∀ start, p.job .detail i start start [] ⟨[], [], .completed⟩ := by
    intro i hi start
    have hparser : (p.forestOf i).outcome = .parsed [] := by
      simp only [inputs, List.mem_cons, List.not_mem_nil, or_false] at hi
      rcases hi with rfl | rfl <;> rfl
    have hnone : (p.forestOf i).messages = [] ∧ (p.forestOf i).elapsed = 0 := by
      simp only [inputs, List.mem_cons, List.not_mem_nil, or_false] at hi
      rcases hi with rfl | rfl <;> exact ⟨rfl, rfl⟩
    refine ⟨(), ?_⟩
    rw [run_of_parsed start () hparser]
    simp only [Expander.expandForest, Expander.expandList_nil, JobRun.messages, stateAt, parserSink,
      parsedAt, hnone]
    exact ⟨rfl, rfl, rfl⟩
  -- the floor after each step
  let o : JobOutcome := ⟨[], [], .completed⟩
  let f₁ : Floor := { Floor.initial with queued := 1 }
  let f₂ : Floor := { f₁ with queued := 2 }
  let f₃ : Floor := f₂.proceed 0 (.busy 0 [] 0 o)
  let f₄ : Floor := f₃.proceed 1 (.busy 0 [] 0 o)
  let f₅ : Floor := f₄.proceed 1 (.ended 0 o)
  let f₆ : Floor := { f₅ with heard := some 0 }
  let f₇ : Floor := (f₆.later 1001).collect p ⟨"a", .nodes [], none, none, none⟩ (.timedOut [])
  let f₈ : Floor := { f₇ with heard := some 0 }
  let f₉ : Floor := (f₈.later 4000).collect p ⟨"b", .nodes [], none, none, none⟩ o
  have hpatient : ∀ f f' : Floor, f'.results = f.results → ∀ ticks, p.limit? = some ticks →
      Floor.Patient ticks 1 f f' := by
    intro f f' hresults ticks _ start _ hlt
    unfold Floor.next at hlt
    rw [hresults] at hlt
    omega
  have h₁ : Floor.Shift p (p.job .detail) inputs 2 .concurrent 1 .initial f₁ :=
    ⟨0, .queue (by decide), hpatient _ _ rfl⟩
  have h₂ : Floor.Shift p (p.job .detail) inputs 2 .concurrent 1 f₁ f₂ :=
    ⟨0, .queue (by decide), hpatient _ _ rfl⟩
  have h₃ : Floor.Shift p (p.job .detail) inputs 2 .concurrent 1 f₂ f₃ :=
    ⟨0, .take (by decide) rfl rfl (by decide) (hjob _ (by simp [inputs]) 0), hpatient _ _ rfl⟩
  have h₄ : Floor.Shift p (p.job .detail) inputs 2 .concurrent 1 f₃ f₄ :=
    ⟨0, .take (by decide) rfl rfl (by decide) (hjob _ (by simp [inputs]) 0), hpatient _ _ rfl⟩
  have h₅ : Floor.Shift p (p.job .detail) inputs 2 .concurrent 1 f₄ f₅ :=
    ⟨0, .finish rfl (Nat.le_refl 0), hpatient _ _ rfl⟩
  have h₆ : Floor.Shift p (p.job .detail) inputs 2 .concurrent 1 f₅ f₆ :=
    ⟨0, .hear rfl (by decide) rfl rfl, hpatient _ _ rfl⟩
  have h₇ : Floor.Shift p (p.job .detail) inputs 2 .concurrent 1 f₆ f₇ := by
    refine ⟨1001, .expire hlimit rfl rfl (fun outcome h => by cases h) (by decide), ?_⟩
    rintro ticks ⟨⟩ start ⟨⟩ - -
    exact Nat.le_refl 1001
  have h₈ : Floor.Shift p (p.job .detail) inputs 2 .concurrent 1 f₇ f₈ :=
    ⟨0, .hear rfl (by decide) rfl rfl, hpatient _ _ rfl⟩
  have h₉ : Floor.Shift p (p.job .detail) inputs 2 .concurrent 1 f₈ f₉ := by
    refine ⟨4000, .collect rfl rfl rfl, ?_⟩
    rintro ticks - start ⟨⟩ - hopen
    exact absurd rfl (hopen o)
  have hrun : Floor.Shifts p (p.job .detail) inputs 2 .concurrent 1 .initial f₉ :=
    (((((((((Relation.ReflTransGen.refl.tail h₁).tail h₂).tail h₃).tail h₄).tail h₅).tail h₆).tail
      h₇).tail h₈).tail h₉)
  obtain ⟨-, hpossible, hall⟩ := deadlines_kept p hlimit inputs
  obtain ⟨hlate, hraised, -, hannounced, -⟩ := hall _ (hpossible .detail) 2 .concurrent 1 f₉ hrun
  obtain ⟨-, htaken⟩ := hlate 0 _ rfl rfl
  exact ⟨hlimit, hpossible .detail, f₉, hrun, rfl, rfl, hraised, hannounced, htaken⟩

end Processor

end MacroForest
