/-
**Workers in any order.**

The schedule of a batch on several workers is one of many.  Here are all of them: a supervisor puts
the inputs in a queue, one by one, and then collects the outcomes in the order of the inputs.  A
worker that is free takes any input from the queue, tells that it has started, sends its messages
one by one to a sink that all workers share, and leaves its outcome.  The supervisor waits for an
input until it has started, and then for its outcome or, if there is a limit of time, until this has
passed since the start.  It raises the token of an input that took too long.

Time passes between any two steps as it likes.  What a job does is not looked into: it starts at
some time, and it has some messages and an outcome by some later time.

If what a job does is determined by its input, then nothing depends on the order of the steps.  The
results and the messages of an input are always the same, no step leads into a state in which all
wait for each other, and there are only so many steps.

Main definitions:

* `MacroForest.Behaviour` — what jobs may do;
* `MacroForest.Floor`, `MacroForest.Floor.Step` — the supervisor and the workers, and their steps;
* `MacroForest.Floor.Move` — some time and a step;
* `MacroForest.Floor.Sound` — an invariant of batches without a limit of time;
* `MacroForest.Floor.effort` — the steps that are left.

Main results:

* `MacroForest.Floor.Sound.move` — **every move keeps the invariant**;
* `MacroForest.Floor.Sound.effort_move`, `MacroForest.Floor.Sound.exists_move` — every move brings
  the end nearer, and there is one before the end;
* `MacroForest.Processor.batches_agree` — **one result for each input, however the batch is worked
  on**.
-/

import Mathlib.Algebra.BigOperators.Group.Finset.Basic
import Mathlib.Algebra.Order.BigOperators.Group.Finset
import Mathlib.Logic.Function.Basic
import Mathlib.Logic.Relation
import MacroForest.Proofs.Batch.Modes

set_option relaxedAutoImplicit false
set_option autoImplicit false

namespace MacroForest

variable {σ : Type}

/-! ### The floor -/

/-- What jobs may do: a job on an input that starts at a time sends some messages and has an outcome
by another time. -/
abbrev Behaviour := Input → (start finish : Nat) → List Message → JobOutcome → Prop

/-- How far the work on an input has come. -/
inductive Stage where
  /-- No worker has taken it. -/
  | idle
  /-- A worker took it at a time.  Some messages are left to be sent, and there is an outcome from
  another time on. -/
  | busy (start : Nat) (left : List Message) (finish : Nat) (outcome : JobOutcome)
  /-- The outcome is there. -/
  | ended (start : Nat) (outcome : JobOutcome)

namespace Stage

/-- The time at which the work started. -/
def start? : Stage → Option Nat
  | idle => none
  | busy start .. => some start
  | ended start _ => some start

/-- Whether a worker is occupied with it. -/
def isBusy : Stage → Bool
  | busy .. => true
  | _ => false

end Stage

/-- The supervisor and the workers between two steps.  Inputs are meant by their places. -/
structure Floor where
  /-- The time. -/
  now : Nat
  /-- The number of inputs that are in the queue or have been taken from it. -/
  queued : Nat
  /-- How far the work on each input has come. -/
  stage : Nat → Stage
  /-- The tokens that have been raised. -/
  raised : Nat → Bool
  /-- The messages sent, each with the input it is about. -/
  sink : List (Nat × Message)
  /-- The start of the input that the supervisor waits for, once it has heard of it. -/
  heard : Option Nat
  /-- The results collected. -/
  results : List Processed
  /-- The results handed on. -/
  announced : List Processed

namespace Floor

/-- Nothing has happened. -/
def initial : Floor := ⟨0, 0, fun _ => .idle, fun _ => false, [], none, [], []⟩

/-- Some time passes. -/
def later (f : Floor) (ticks : Nat) : Floor := { f with now := f.now + ticks }

/-- The work on an input comes to a stage. -/
def proceed (f : Floor) (k : Nat) (stage : Stage) : Floor :=
  { f with stage := Function.update f.stage k stage }

/-- A message about an input is sent. -/
def send (f : Floor) (k : Nat) (m : Message) : Floor := { f with sink := f.sink ++ [(k, m)] }

/-- The place of the input that is to be collected next. -/
def next (f : Floor) : Nat := f.results.length

/-- A result is collected. -/
def add (f : Floor) (result : Processed) : Floor :=
  { f with heard := none, results := f.results ++ [result] }

/-- The supervisor takes an outcome for the next input: it hands on the result, or, if the input
took too long, it raises the token and sends a message. -/
def collect (f : Floor) (p : Processor σ) (i : Input) (outcome : JobOutcome) : Floor :=
  let result := outcome.result i (p.printerFor i)
  if outcome.status = .timedOut then
    { (f.send f.next (Supervision.timeoutMessage i.fileName (p.settings.timeout?.getD 0))).add result
      with raised := Function.update f.raised f.next true }
  else { f.add result with announced := f.announced ++ [result] }

/-- The number of workers that are occupied with one of some inputs. -/
def busyCount (f : Floor) (count : Nat) : Nat :=
  (List.range count).countP fun k => (f.stage k).isBusy

/-- The messages sent about an input. -/
def sent (f : Floor) (k : Nat) : List Message := (f.sink.filter (·.1 == k)).map (·.2)

/-- The steps of the supervisor and of the workers. -/
inductive Step (p : Processor σ) (jobs : Behaviour) (inputs : List Input) (workers : Nat) :
    Floor → Floor → Prop where
  /-- The supervisor puts an input in the queue. -/
  | queue {f : Floor} : f.queued < inputs.length →
      Step p jobs inputs workers f { f with queued := f.queued + 1 }
  /-- A free worker takes an input from the queue. -/
  | take {f : Floor} {k finish : Nat} {i : Input} {messages : List Message} {outcome : JobOutcome} :
      k < f.queued → inputs[k]? = some i → f.stage k = .idle → f.busyCount inputs.length < workers →
      jobs i f.now finish messages outcome →
      Step p jobs inputs workers f (f.proceed k (.busy f.now messages finish outcome))
  /-- A worker sends a message. -/
  | write {f : Floor} {k start finish : Nat} {m : Message} {left : List Message}
      {outcome : JobOutcome} :
      f.stage k = .busy start (m :: left) finish outcome →
      Step p jobs inputs workers f ((f.proceed k (.busy start left finish outcome)).send k m)
  /-- A worker is done and leaves its outcome. -/
  | finish {f : Floor} {k start finish : Nat} {outcome : JobOutcome} :
      f.stage k = .busy start [] finish outcome → finish ≤ f.now →
      Step p jobs inputs workers f (f.proceed k (.ended start outcome))
  /-- A worker finds the token of its input raised and gives up. -/
  | cut {f : Floor} {k start finish : Nat} {left : List Message} {outcome : JobOutcome}
      {forest : Forest} :
      f.stage k = .busy start left finish outcome → f.raised k = true →
      Step p jobs inputs workers f (f.proceed k (.ended start (.timedOut forest)))
  /-- The supervisor has put all inputs in the queue, and hears that the next one has started. -/
  | hear {f : Floor} {start : Nat} :
      f.queued = inputs.length → f.next < inputs.length → f.heard = none →
      (f.stage f.next).start? = some start →
      Step p jobs inputs workers f { f with heard := some start }
  /-- The supervisor finds the outcome of the next input. -/
  | collect {f : Floor} {start : Nat} {i : Input} {outcome : JobOutcome} :
      f.heard = some start → inputs[f.next]? = some i → f.stage f.next = .ended start outcome →
      Step p jobs inputs workers f (f.collect p i outcome)
  /-- The supervisor does not find the outcome of the next input, and its time is over. -/
  | expire {f : Floor} {start ticks : Nat} {i : Input} :
      p.limit? = some ticks → f.heard = some start → inputs[f.next]? = some i →
      (∀ outcome, f.stage f.next ≠ .ended start outcome) → start + ticks ≤ f.now →
      Step p jobs inputs workers f (f.collect p i (.timedOut []))

/-- Some time passes, and there is a step. -/
def Move (p : Processor σ) (jobs : Behaviour) (inputs : List Input) (workers : Nat) (f f' : Floor) :
    Prop :=
  ∃ ticks, Step p jobs inputs workers (f.later ticks) f'

/-! ### What holds at all times -/

/-- What a job does is determined by its input, there is always a way to do it, and it does not take
too long. -/
structure Determines (p : Processor σ) (jobs : Behaviour) (inputs : List Input)
    (words : Input → List Message) (verdict : Input → Processed) : Prop where
  words : ∀ {i start finish messages outcome}, i ∈ inputs → jobs i start finish messages outcome →
    messages = words i
  verdict : ∀ {i start finish messages outcome}, i ∈ inputs → jobs i start finish messages outcome →
    outcome.status ≠ .timedOut ∧ outcome.result i (p.printerFor i) = verdict i
  exists_job : ∀ {i}, i ∈ inputs → ∀ start, ∃ finish messages outcome,
    jobs i start finish messages outcome

/-- The stage fits an input with some messages, of which some have been sent. -/
def Fits (p : Processor σ) (words : Input → List Message) (verdict : Input → Processed) (i : Input)
    (sent : List Message) : Stage → Prop
  | .idle => sent = []
  | .busy _ left _ outcome => sent ++ left = words i ∧ outcome.status ≠ .timedOut ∧
      outcome.result i (p.printerFor i) = verdict i
  | .ended _ outcome => sent = words i ∧ outcome.status ≠ .timedOut ∧
      outcome.result i (p.printerFor i) = verdict i

/-- What holds at all times, if there is no limit of time. -/
structure Sound (p : Processor σ) (inputs : List Input) (words : Input → List Message)
    (verdict : Input → Processed) (f : Floor) : Prop where
  tokens : ∀ k, f.raised k = false
  fits : ∀ k i, inputs[k]? = some i → Fits p words verdict i (f.sent k) (f.stage k)
  beyond : ∀ k, inputs.length ≤ k → f.stage k = .idle ∧ f.sent k = []
  queued : f.queued ≤ inputs.length
  heard : ∀ start, f.heard = some start →
    f.queued = inputs.length ∧ (f.stage f.next).start? = some start
  results : f.results = (inputs.take f.next).map verdict
  announced : f.announced = f.results
  collected : ∀ k, k < f.next → ∃ start outcome, f.stage k = .ended start outcome

section Sent

variable (f : Floor) (k j : Nat)

theorem sent_send_self (m : Message) : (f.send k m).sent k = f.sent k ++ [m] := by
  simp [sent, send]

theorem sent_send_of_ne (h : j ≠ k) (m : Message) : (f.send k m).sent j = f.sent j := by
  simp [sent, send, h.symm]

end Sent

section Sound

variable {p : Processor σ} {jobs : Behaviour} {inputs : List Input} {words : Input → List Message}
  {verdict : Input → Processed} {workers : Nat} {f f' : Floor}

namespace Sound

theorem initial : Sound p inputs words verdict .initial :=
  ⟨fun _ => rfl, fun _ _ _ => rfl, fun _ _ => ⟨rfl, rfl⟩, Nat.zero_le _, by simp [Floor.initial],
    rfl, rfl, fun k hk => absurd hk (Nat.not_lt_zero k)⟩

theorem later (h : Sound p inputs words verdict f) (ticks : Nat) :
    Sound p inputs words verdict (f.later ticks) :=
  ⟨h.tokens, h.fits, h.beyond, h.queued, h.heard, h.results, h.announced, h.collected⟩

/-- An input that is not idle is one of the batch. -/
theorem lt_of_stage (h : Sound p inputs words verdict f) {k : Nat} (hstage : f.stage k ≠ .idle) :
    k < inputs.length := by
  by_contra hge
  exact hstage (h.beyond k (by omega)).1

/-- The work on one input proceeds, and perhaps a message about it is sent.  Nothing is said of
other inputs. -/
theorem proceed (h : Sound p inputs words verdict f) {k : Nat} {i : Input} {stage : Stage}
    {new : List Message} {g : Floor} (hi : inputs[k]? = some i)
    (hstage : g.stage = Function.update f.stage k stage)
    (hsent : ∀ j, g.sent j = if j = k then f.sent k ++ new else f.sent j)
    (hrest : g.queued = f.queued ∧ g.raised = f.raised ∧ g.heard = f.heard ∧ g.results = f.results ∧
      g.announced = f.announced)
    (hfits : Fits p words verdict i (f.sent k ++ new) stage)
    (hstart : ∀ start, (f.stage k).start? = some start → stage.start? = some start)
    (hended : ∀ start outcome, f.stage k ≠ .ended start outcome) :
    Sound p inputs words verdict g := by
  obtain ⟨hqueued, hraised, hheard, hresults, hannounced⟩ := hrest
  have hnext : g.next = f.next := congrArg List.length hresults
  have hself : g.stage k = stage := by rw [hstage, Function.update_self]
  have hother : ∀ j, j ≠ k → g.stage j = f.stage j := fun j hj => by
    rw [hstage, Function.update_of_ne hj]
  have hk : k < inputs.length := (List.getElem?_eq_some_iff.1 hi).1
  refine ⟨fun j => by rw [hraised, h.tokens], fun j i' hi' => ?_, fun j hj => ?_,
    by rw [hqueued]; exact h.queued, fun start hstarted => ?_, by rw [hresults, hnext, h.results],
    by rw [hannounced, hresults, h.announced], fun j hj => ?_⟩
  · by_cases hjk : j = k
    · subst hjk
      obtain rfl : i = i' := Option.some.inj (hi.symm.trans hi')
      rw [hself, hsent, if_pos rfl]
      exact hfits
    · rw [hother j hjk, hsent, if_neg hjk]
      exact h.fits j i' hi'
  · have hjk : j ≠ k := by omega
    rw [hother j hjk, hsent, if_neg hjk]
    exact h.beyond j hj
  · rw [hheard] at hstarted
    obtain ⟨hall, hheld⟩ := h.heard start hstarted
    refine ⟨by rw [hqueued, hall], ?_⟩
    rw [hnext]
    by_cases hk' : f.next = k
    · rw [hk', hself]
      exact hstart start (hk' ▸ hheld)
    · rw [hother _ hk', hheld]
  · rw [hnext] at hj
    obtain ⟨start, outcome, hj'⟩ := h.collected j hj
    have hjk : j ≠ k := by
      rintro rfl
      exact hended start outcome hj'
    exact ⟨start, outcome, by rw [hother j hjk, hj']⟩

/-- The next result is collected. -/
theorem collect (h : Sound p inputs words verdict f) {i : Input} {start : Nat} {outcome : JobOutcome}
    (hi : inputs[f.next]? = some i) (hended : f.stage f.next = .ended start outcome) :
    Sound p inputs words verdict (f.collect p i outcome) := by
  have hfits := h.fits f.next i hi
  rw [hended] at hfits
  obtain ⟨-, hstatus, hverdict⟩ := hfits
  unfold Floor.collect
  rw [if_neg hstatus, hverdict]
  have hnext : (f.add (verdict i)).next = f.next + 1 := by simp [next, add]
  refine ⟨h.tokens, h.fits, h.beyond, h.queued, by simp [add], ?_, ?_, ?_⟩
  · change f.results ++ [verdict i] = (inputs.take (f.add (verdict i)).next).map verdict
    rw [hnext, List.take_add_one, hi, List.map_append, ← h.results]
    rfl
  · change f.announced ++ [verdict i] = f.results ++ [verdict i]
    rw [h.announced]
  · intro k hk
    change k < (f.add (verdict i)).next at hk
    rw [hnext] at hk
    by_cases hlast : k = f.next
    · exact ⟨start, outcome, hlast ▸ hended⟩
    · exact h.collected k (by omega)

theorem step (h : Sound p inputs words verdict f) (hlimit : p.limit? = none)
    (hjobs : Determines p jobs inputs words verdict) (hstep : Step p jobs inputs workers f f') :
    Sound p inputs words verdict f' := by
  have hsame : ∀ k j, f.sent j = if j = k then f.sent k ++ [] else f.sent j := by
    intro k j
    by_cases hjk : j = k
    · rw [if_pos hjk, hjk, List.append_nil]
    · rw [if_neg hjk]
  cases hstep with
  | queue hmore =>
      refine ⟨h.tokens, h.fits, h.beyond, hmore, fun start hstart => ?_, h.results, h.announced,
        h.collected⟩
      obtain ⟨hall, -⟩ := h.heard start hstart
      omega
  | @take k finish i messages outcome hk hi hidle _ hjob =>
      have hmem : i ∈ inputs := List.mem_of_getElem? hi
      have hnone : f.sent k = [] := by simpa [Fits, hidle] using h.fits k i hi
      refine h.proceed hi rfl (hsame k) ⟨rfl, rfl, rfl, rfl, rfl⟩ ?_ (by simp [hidle, Stage.start?])
        (by simp [hidle])
      refine ⟨?_, hjobs.verdict hmem hjob⟩
      rw [hnone, hjobs.words hmem hjob]
      rfl
  | @write k start finish m left outcome hbusy =>
      have hk : k < inputs.length := h.lt_of_stage (by simp [hbusy])
      have hi : inputs[k]? = some inputs[k] := List.getElem?_eq_getElem hk
      have hfits := h.fits k _ hi
      rw [hbusy] at hfits
      have hsent : ∀ j, ((f.proceed k (.busy start left finish outcome)).send k m).sent j =
          if j = k then f.sent k ++ [m] else f.sent j := by
        intro j
        by_cases hjk : j = k
        · rw [if_pos hjk, hjk]
          exact sent_send_self ..
        · rw [if_neg hjk]
          exact sent_send_of_ne _ _ _ hjk m
      refine h.proceed hi rfl hsent ⟨rfl, rfl, rfl, rfl, rfl⟩ ⟨?_, hfits.2⟩
        (by simp [hbusy, Stage.start?]) (by simp [hbusy])
      rw [← hfits.1, List.append_assoc]
      rfl
  | @finish k start finish outcome hbusy _ =>
      have hk : k < inputs.length := h.lt_of_stage (by simp [hbusy])
      have hi : inputs[k]? = some inputs[k] := List.getElem?_eq_getElem hk
      have hfits := h.fits k _ hi
      rw [hbusy] at hfits
      exact h.proceed hi rfl (hsame k) ⟨rfl, rfl, rfl, rfl, rfl⟩ hfits
        (by simp [hbusy, Stage.start?]) (by simp [hbusy])
  | @cut k start finish left outcome forest _ hraised =>
      rw [h.tokens k] at hraised
      simp at hraised
  | @hear start hall hlt _ hstarted =>
      refine ⟨h.tokens, h.fits, h.beyond, h.queued, ?_, h.results, h.announced, h.collected⟩
      rintro start' ⟨⟩
      exact ⟨hall, hstarted⟩
  | collect _ hi hended => exact h.collect hi hended
  | expire hticks =>
      rw [hlimit] at hticks
      simp at hticks

/-- **Every move keeps the invariant.** -/
theorem move (h : Sound p inputs words verdict f) (hlimit : p.limit? = none)
    (hjobs : Determines p jobs inputs words verdict) (hmove : Move p jobs inputs workers f f') :
    Sound p inputs words verdict f' := by
  obtain ⟨ticks, hstep⟩ := hmove
  exact (h.later ticks).step hlimit hjobs hstep

theorem moves (h : Sound p inputs words verdict f) (hlimit : p.limit? = none)
    (hjobs : Determines p jobs inputs words verdict)
    (hmoves : Relation.ReflTransGen (Move p jobs inputs workers) f f') :
    Sound p inputs words verdict f' := by
  induction hmoves with
  | refl => exact h
  | tail _ hmove ih => exact ih.move hlimit hjobs hmove

/-- All results have been collected. -/
theorem complete (h : Sound p inputs words verdict f) (hall : f.next = inputs.length) :
    f.results = inputs.map verdict ∧ Interleaves (inputs.map words) (f.sink.map (·.2)) := by
  refine ⟨by rw [h.results, hall, List.take_length], f.sink, rfl, fun k => ?_⟩
  change f.sent k = _
  rw [List.getD_eq_getElem?_getD, List.getElem?_map]
  cases hi : inputs[k]? with
  | none => exact (h.beyond k (List.getElem?_eq_none_iff.1 hi)).2
  | some i =>
      obtain ⟨start, outcome, hended⟩ := h.collected k (by
        rw [hall]
        exact (List.getElem?_eq_some_iff.1 hi).1)
      have hfits := h.fits k i hi
      rw [hended] at hfits
      exact hfits.1

end Sound

end Sound

/-! ### No step is in vain -/

/-- The steps that are left on an input with a number of messages. -/
def stageEffort (count : Nat) : Stage → Nat
  | .idle => count + 2
  | .busy _ left _ _ => left.length + 1
  | .ended .. => 0

/-- The number of messages of the input at a place. -/
def countAt (inputs : List Input) (words : Input → List Message) (k : Nat) : Nat :=
  (inputs[k]?.map fun i => (words i).length).getD 0

/-- The steps that are left: to fill the queue, to work on the inputs, and to collect each. -/
def effort (inputs : List Input) (words : Input → List Message) (f : Floor) : Nat :=
  (inputs.length - f.queued) +
    (∑ k ∈ Finset.range inputs.length, stageEffort (countAt inputs words k) (f.stage k)) +
    (2 * (inputs.length - f.next) + if f.heard.isNone then 1 else 0)

section Effort

variable {p : Processor σ} {jobs : Behaviour} {inputs : List Input} {words : Input → List Message}
  {verdict : Input → Processed} {workers : Nat} {f f' : Floor}

/-- If the work on one input comes nearer to its end, so does that on all. -/
theorem effort_lt_of_stage {g : Floor} {k : Nat} (hk : k < inputs.length) {stage : Stage}
    (hstage : g.stage = Function.update f.stage k stage)
    (hrest : g.queued = f.queued ∧ g.heard = f.heard ∧ g.results = f.results)
    (hless : stageEffort (countAt inputs words k) stage <
      stageEffort (countAt inputs words k) (f.stage k)) :
    g.effort inputs words < f.effort inputs words := by
  obtain ⟨hqueued, hheard, hresults⟩ := hrest
  have hsum : ∑ j ∈ Finset.range inputs.length, stageEffort (countAt inputs words j) (g.stage j) <
      ∑ j ∈ Finset.range inputs.length, stageEffort (countAt inputs words j) (f.stage j) := by
    rw [hstage]
    refine Finset.sum_lt_sum (fun j _ => ?_) ⟨k, Finset.mem_range.2 hk, ?_⟩
    · by_cases hjk : j = k
      · subst hjk
        rw [Function.update_self]
        exact Nat.le_of_lt hless
      · rw [Function.update_of_ne hjk]
    · rw [Function.update_self]
      exact hless
  unfold effort next
  rw [hqueued, hheard, hresults]
  omega

theorem Sound.effort_step (h : Sound p inputs words verdict f) (hlimit : p.limit? = none)
    (hjobs : Determines p jobs inputs words verdict) (hstep : Step p jobs inputs workers f f') :
    f'.effort inputs words < f.effort inputs words := by
  cases hstep with
  | queue hmore =>
      unfold effort next
      dsimp only
      omega
  | @take k finish i messages outcome hk hi hidle _ hjob =>
      refine effort_lt_of_stage (List.getElem?_eq_some_iff.1 hi).1 rfl ⟨rfl, rfl, rfl⟩ ?_
      rw [hidle, hjobs.words (List.mem_of_getElem? hi) hjob]
      simp [stageEffort, countAt, hi]
  | @write k start finish m left outcome hbusy =>
      refine effort_lt_of_stage (h.lt_of_stage (by simp [hbusy])) rfl ⟨rfl, rfl, rfl⟩ ?_
      rw [hbusy]
      simp [stageEffort]
  | @finish k start finish outcome hbusy _ =>
      refine effort_lt_of_stage (h.lt_of_stage (by simp [hbusy])) rfl ⟨rfl, rfl, rfl⟩ ?_
      rw [hbusy]
      simp [stageEffort]
  | @cut k start finish left outcome forest _ hraised =>
      rw [h.tokens k] at hraised
      simp at hraised
  | @hear start hall hlt hnone hstarted =>
      unfold effort next
      simp [hnone]
  | @collect start i outcome hheard hi hended =>
      have hfits := h.fits f.next i hi
      rw [hended] at hfits
      have hlt : f.next < inputs.length := (List.getElem?_eq_some_iff.1 hi).1
      unfold Floor.collect
      rw [if_neg hfits.2.1]
      -- one input less to collect, and the start of the next one is still to be heard
      have hheard' : (if f.heard.isNone = true then 1 else 0) = 0 := by simp [hheard]
      have hnone : (if (none : Option Nat).isNone = true then 1 else 0) = 1 := rfl
      unfold effort next add
      unfold next at hlt
      dsimp only
      rw [List.length_append, List.length_singleton, hheard', hnone]
      omega
  | expire hticks =>
      rw [hlimit] at hticks
      simp at hticks

/-- Every move brings the end nearer. -/
theorem Sound.effort_move (h : Sound p inputs words verdict f) (hlimit : p.limit? = none)
    (hjobs : Determines p jobs inputs words verdict) (hmove : Move p jobs inputs workers f f') :
    f'.effort inputs words < f.effort inputs words := by
  obtain ⟨ticks, hstep⟩ := hmove
  exact (h.later ticks).effort_step hlimit hjobs hstep

/-- A worker that is occupied can always go on. -/
theorem exists_move_of_busy {k start finish : Nat} {left : List Message} {outcome : JobOutcome}
    (hbusy : f.stage k = .busy start left finish outcome) :
    ∃ f', Move p jobs inputs workers f f' := by
  cases left with
  | nil => exact ⟨_, finish, .finish (f := f.later finish) hbusy (Nat.le_add_left ..)⟩
  | cons m left => exact ⟨_, 0, .write (f := f.later 0) hbusy⟩

/-- Before the end, there is a move. -/
theorem Sound.exists_move (h : Sound p inputs words verdict f)
    (hjobs : Determines p jobs inputs words verdict) (hworkers : 0 < workers)
    (hlt : f.next < inputs.length) : ∃ f', Move p jobs inputs workers f f' := by
  by_cases hmore : f.queued < inputs.length
  · exact ⟨_, 0, .queue (f := f.later 0) hmore⟩
  have hall : f.queued = inputs.length := Nat.le_antisymm h.queued (Nat.le_of_not_lt hmore)
  have hi : inputs[f.next]? = some inputs[f.next] := List.getElem?_eq_getElem hlt
  cases hstage : f.stage f.next with
  | busy start left finish outcome => exact exists_move_of_busy hstage
  | ended start outcome =>
      cases hheard : f.heard with
      | none =>
          exact ⟨_, 0, .hear (f := f.later 0) hall hlt hheard (by
            change (f.stage f.next).start? = _
            rw [hstage]
            rfl)⟩
      | some start' =>
          have hstart := (h.heard start' hheard).2
          rw [hstage] at hstart
          obtain rfl : start = start' := Option.some.inj hstart
          exact ⟨_, 0, .collect (f := f.later 0) hheard hi hstage⟩
  | idle =>
      by_cases hfree : f.busyCount inputs.length < workers
      · obtain ⟨finish, messages, outcome, hjob⟩ :=
          hjobs.exists_job (List.mem_of_getElem? hi) (f.now + 0)
        exact ⟨_, 0, .take (f := f.later 0) (hall ▸ hlt) hi hstage hfree hjob⟩
      · -- some worker is occupied, and goes on
        have hpos : 0 < f.busyCount inputs.length := by omega
        obtain ⟨k, -, hbusy⟩ := List.countP_pos_iff.1 hpos
        cases hk : f.stage k with
        | busy start left finish outcome => exact exists_move_of_busy hk
        | idle => simp [hk, Stage.isBusy] at hbusy
        | ended start outcome => simp [hk, Stage.isBusy] at hbusy

end Effort

end Floor

/-! ### The jobs of a processor -/

namespace Processor

/-- What the jobs of a processor do, whatever is shared when they start. -/
def job (p : Processor σ) (least : Severity) : Behaviour :=
  fun i start finish messages outcome =>
    ∃ shared, (p.run least i start shared).finish = finish ∧
      (p.run least i start shared).messages = messages ∧
      (p.run least i start shared).outcome = some outcome

variable {p : Processor σ} {inputs : List Input}

theorem determines_job (least : Severity) (hoblivious : p.table.Oblivious) (hlimit : p.limit? = none)
    (hparsers : ∀ i ∈ inputs, (p.forestOf i).outcome ≠ .crashed) (shared : σ) :
    Floor.Determines p (p.job least) inputs (p.words least shared) (p.verdict least shared) where
  words {i start finish messages outcome} hi hjob := by
    obtain ⟨shared', -, rfl, -⟩ := hjob
    obtain ⟨-, -, -, -, hwords⟩ :=
      run_eq_alone shared hoblivious hlimit (hparsers i hi) start shared'
    exact hwords
  verdict {i start finish messages outcome} hi hjob := by
    obtain ⟨shared', -, -, houtcome⟩ := hjob
    obtain ⟨o, ho, hstatus, hverdict, -⟩ : ∃ o, (p.run least i start shared').outcome = some o ∧
        o.status ≠ .timedOut ∧ o.result i (p.printerFor i) = p.verdict least shared i ∧ _ :=
      run_eq_alone shared hoblivious hlimit (hparsers i hi) start shared'
    obtain rfl : o = outcome := Option.some.inj (ho.symm.trans houtcome)
    exact ⟨hstatus, hverdict⟩
  exists_job {i} hi start := by
    obtain ⟨o, ho, -⟩ := exists_outcome least start shared hlimit (hparsers i hi)
    exact ⟨_, _, o, shared, rfl, rfl, ho⟩

/-- **One result for each input, however the batch is worked on.**  Let the macros of a processor be
oblivious, let there be no limit of time, and let no parser break down.  An input that is processed
alone gives its verdict and its words.  A batch gives the verdicts of its inputs in their order, and
hands them on in this order, and its messages are an interleaving of their words: in either mode,
with any number of workers, and in any order of the steps of the workers and the supervisor.  These
always come to an end, and only when all results have been collected. -/
theorem batches_agree (p : Processor σ) (least : Severity) (inputs : List Input) (shared : σ)
    (hoblivious : p.table.Oblivious) (hlimit : p.limit? = none)
    (hparsers : ∀ i ∈ inputs, (p.forestOf i).outcome ≠ .crashed) :
    (∀ i ∈ inputs, ∀ mode workers told shared', ∃ r,
      (p.scheduled mode workers).process least told [i] shared' = .ok r ∧
      r.results = [p.verdict least shared i] ∧ r.announced = [p.verdict least shared i] ∧
      Interleaves [((Sink.empty least).writeAll 0 told).messages, p.words least shared i]
        r.messages) ∧
    (∀ mode workers told shared', ∃ r,
      (p.scheduled mode workers).process least told inputs shared' = .ok r ∧
      r.results = inputs.map (p.verdict least shared) ∧
      r.announced = inputs.map (p.verdict least shared) ∧
      Interleaves (((Sink.empty least).writeAll 0 told).messages ::
        inputs.map (p.words least shared)) r.messages) ∧
    ∀ workers f, 0 < workers →
      Relation.ReflTransGen (Floor.Move p (p.job least) inputs workers) .initial f →
      f.results <+: inputs.map (p.verdict least shared) ∧ f.announced = f.results ∧
      (f.results.length = inputs.length →
        f.results = inputs.map (p.verdict least shared) ∧
        Interleaves (inputs.map (p.words least shared)) (f.sink.map (·.2))) ∧
      (f.results.length < inputs.length → ∃ f', Floor.Move p (p.job least) inputs workers f f') ∧
      ∀ f', Floor.Move p (p.job least) inputs workers f f' →
        f'.effort inputs (p.words least shared) < f.effort inputs (p.words least shared) := by
  refine ⟨fun i hi mode workers told shared' => ?_, fun mode workers told shared' => ?_,
    fun workers f hworkers hmoves => ?_⟩
  · have halone : ∀ j ∈ [i], (p.forestOf j).outcome ≠ .crashed := by
      intro j hj
      rw [List.mem_singleton.1 hj]
      exact hparsers i hi
    exact process_scheduled least hoblivious hlimit halone mode workers told shared shared'
  · exact process_scheduled least hoblivious hlimit hparsers mode workers told shared shared'
  · have hjobs := determines_job least hoblivious hlimit hparsers shared
    have hsound := Floor.Sound.initial.moves hlimit hjobs hmoves
    refine ⟨?_, hsound.announced, hsound.complete, hsound.exists_move hjobs hworkers, ?_⟩
    · rw [hsound.results, List.map_take]
      exact List.take_prefix ..
    · intro f' hmove
      exact hsound.effort_move hlimit hjobs hmove

/-- A macro for calls of `count` that leaves a number behind, takes ever longer, and warns. -/
def counting : Entry Nat where
  space := none
  name := "count"
  mode := {}
  givenLabel := none
  origin := none
  callable := ⟨.custom 0, fun state node scopes =>
    ⟨state + 1, scopes, [⟨.warning, node, "counted"⟩], state, .declined⟩⟩

/-- A macro for calls of `halt` that asks for the expansion to stop. -/
def halting : Entry Nat where
  space := none
  name := "halt"
  mode := {}
  givenLabel := none
  origin := none
  callable := ⟨.custom 1, fun state _ scopes => .quiet state scopes .cancelled⟩

theorem batches_agree_counting :
    let p : Processor Nat :=
      { table := ⟨[⟨"count", [counting]⟩, ⟨"halt", [halting]⟩]⟩,
        settings := { timeoutMs := none },
        parser := fun _ _ => { outcome := .refused .cancelled },
        printer := .standard }
    let inputs : List Input :=
      [⟨"a", .nodes [.invokeName "count" [.ident "halt"]], none, none, none⟩,
        ⟨"b", .text "unreadable", none, none, none⟩,
        ⟨"c", .nodes [.invokeName "count" [.ident "x"]], none, none, some "tag"⟩]
    p.table.Oblivious ∧ p.limit? = none ∧ (∀ i ∈ inputs, (p.forestOf i).outcome ≠ .crashed) ∧
      (∃ r, (p.scheduled .sequential none).process .detail [] inputs 0 = .ok r ∧
        r.results = inputs.map (p.verdict .detail 0)) ∧
      (∃ r, (p.scheduled .concurrent (some 2)).process .detail [] inputs 7 = .ok r ∧
        r.results = inputs.map (p.verdict .detail 0)) ∧
      ∀ f, Relation.ReflTransGen (Floor.Move p (p.job .detail) inputs 2) .initial f →
        f.results.length = 3 → f.results = inputs.map (p.verdict .detail 0) := by
  intro p inputs
  have hoblivious : p.table.Oblivious := by
    intro name e he
    have hknown : e = counting ∨ e = halting := by
      unfold Table.named at he
      split at he
      · rename_i bucket hfound
        have hbucket := List.mem_of_find?_eq_some hfound
        simp only [p, List.mem_cons, List.not_mem_nil, or_false] at hbucket
        rcases hbucket with rfl | rfl
        · exact .inl (List.mem_singleton.1 he)
        · exact .inr (List.mem_singleton.1 he)
      · simp at he
    rcases hknown with rfl | rfl <;> exact fun _ _ _ _ => ⟨rfl, rfl, rfl⟩
  have hparsers : ∀ i ∈ inputs, (p.forestOf i).outcome ≠ .crashed := by
    intro i hi
    simp only [inputs, List.mem_cons, List.not_mem_nil, or_false] at hi
    rcases hi with rfl | rfl | rfl <;> simp [forestOf, parserFor, p]
  obtain ⟨-, hmodes, hfloor⟩ := batches_agree p .detail inputs 0 hoblivious rfl hparsers
  obtain ⟨r, hr, hresults, -⟩ := hmodes .sequential none [] 0
  obtain ⟨r', hr', hresults', -⟩ := hmodes .concurrent (some 2) [] 7
  refine ⟨hoblivious, rfl, hparsers, ⟨r, hr, hresults⟩, ⟨r', hr', hresults'⟩, ?_⟩
  intro f hmoves hall
  obtain ⟨-, -, hcomplete, -⟩ := hfloor 2 f (by decide) hmoves
  exact (hcomplete hall).1

end Processor

end MacroForest
