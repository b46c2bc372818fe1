/-
**One input does not harm the others.**

A batch has one result for each input, in the order of the inputs, if the breakdown of a parser is
kept from the batch.  It is so kept in one case only, that of a worker of its own for each input:
one after another and with a limit of time.  The input is then reported to have been cancelled, or,
if the parser breaks down too late for that, to have taken too long.
Without a limit of time the parser runs where the supervisor does, and on several workers its
breakdown ends the whole program.

Whatever the other inputs do, an input whose own parser and macros *behave* has the result that it
has by itself.  Macros behave if they do not look at what they share with other macros, and, if
there is a limit of time, the time they take does not depend on it either.  Only those macros count
that are invoked for the input.  So the comparison is between two runs of which the first one is
given, and the second one pursues it (`MacroForest/Proofs/Expansion/Pursuit.lean`) from another
start and with other things shared.

Main definitions:

* `MacroForest.Entry.Steady` — the time a macro takes does not depend on what is shared;
* `MacroForest.Processor.Behaves` — the parser and the macros of an input behave;
* `MacroForest.Processor.crashOutcome` — what an input counts as whose parser breaks down.

Main results:

* `MacroForest.Processor.run_behaves` — the run of an input that behaves, from any start;
* `MacroForest.Processor.batch_contained` — **a batch has all its results, or none, and each input
  that behaves has its own**;
* `MacroForest.Processor.crash_takes_batch` — a breakdown that takes the batch with it.
-/

import MacroForest.Proofs.Batch.Floor
import MacroForest.Proofs.Batch.Supervised
import MacroForest.Proofs.Expansion.Pursuit

set_option relaxedAutoImplicit false
set_option autoImplicit false

namespace MacroForest

variable {σ : Type}

/-- Messages that are there, in the order of their times and not too late, are among all messages in
this order. -/
theorem Supervision.sublist_messages {s : Supervision} {records : List Record}
    (hthere : records.Sublist s.records.reverse.flatten)
    (hsorted : records.Pairwise fun a b => a.time ≤ b.time)
    (htimes : ∀ r ∈ records, r.time ≤ s.now) :
    (records.map (·.message)).Sublist s.messages := by
  have hkept : records.filter (decide <| ·.time ≤ s.now) = records :=
    List.filter_eq_self.2 fun r hr => decide_eq_true (htimes r hr)
  have hsub := hthere.filter (decide <| ·.time ≤ s.now)
  rw [hkept] at hsub
  exact (List.sublist_mergeSort (keyOrder_trans Record.time) (keyOrder_total Record.time)
    (hsorted.imp decide_eq_true) hsub).map _

/-! ### Inputs that behave -/

/-- The time a macro takes does not depend on what is shared. -/
def Entry.Steady (e : Entry σ) : Prop :=
  ∀ a b node scopes,
    (e.callable.run b node scopes).elapsed = (e.callable.run a node scopes).elapsed

namespace Processor

/-- The event is no invocation, or that of a macro that does not look at what is shared, and does
not take its time from it if there is a limit. -/
def Tame (p : Processor σ) (event : Event σ) : Prop :=
  ∀ e input s, event.action = .invoked e input s → e.Oblivious ∧ (p.limit? ≠ none → e.Steady)

/-- The parser of an input does not break down, and the macros that are invoked for the input by
itself are tame. -/
def Behaves (p : Processor σ) (least : Severity) (i : Input) (shared : σ) : Prop :=
  (p.forestOf i).outcome ≠ .crashed ∧
    ∀ forest, (p.forestOf i).outcome = .parsed forest → ∃ fuel r log,
      (p.expander (p.tokenAt 0)).forestRun fuel forest (p.stateAt least i 0 shared) =
        some (r, log) ∧
      ∀ event ∈ log, p.Tame event

/-! ### The run of an input that behaves -/

/-- States that differ in what is shared, and by the start of the job in the clock if there is a
limit of time. -/
structure Shifted (p : Processor σ) (start : Nat) (s s' : State σ) : Prop where
  scopes : s'.scopes = s.scopes
  openings : s'.openings = s.openings
  least : s'.sink.least = s.sink.least
  messages : s'.sink.messages = s.sink.messages
  now : p.limit? ≠ none → s'.now = s.now + start

variable {p : Processor σ}

namespace Shifted

variable {start : Nat} {s s' : State σ}

theorem isCancelled (h : p.Shifted start s s') :
    (p.tokenAt start).isCancelled s'.now = (p.tokenAt 0).isCancelled s.now := by
  cases hlimit : p.limit? with
  | none => rw [isCancelled_tokenAt start hlimit, isCancelled_tokenAt 0 hlimit]
  | some ticks =>
      have hnow := h.now (by simp [hlimit])
      simp only [CancelToken.isCancelled, tokenAt, hlimit, Option.map_some, Option.any_some,
        Bool.false_or, hnow, Nat.zero_add]
      rw [decide_eq_decide]
      omega

theorem enabled (h : p.Shifted start s s') : s'.sink.enabled = s.sink.enabled := by
  funext severity
  simp only [Sink.enabled, h.least]

theorem tell (h : p.Shifted start s s') (messages : List Message) :
    p.Shifted start (s.writeAll messages) (s'.writeAll messages) where
  scopes := h.scopes
  openings := h.openings
  least := by
    simp only [State.writeAll, Sink.least_writeAll]
    exact h.least
  messages := by
    simp only [State.writeAll, Sink.messages_writeAll]
    rw [h.messages, h.enabled]
  now := h.now

/-- A macro that is tame does the same in both states. -/
theorem after (h : p.Shifted start s s') {chain : Chain} {budget : Nat} {e : Entry σ} {input : Node}
    (htame : p.Tame ⟨chain, budget, .invoked e input s⟩) :
    (e.callable.run s'.shared input s'.scopes).messages =
        (e.callable.run s.shared input s.scopes).messages ∧
      (e.callable.run s'.shared input s'.scopes).outcome =
        (e.callable.run s.shared input s.scopes).outcome ∧
      p.Shifted start (s.after (e.callable.run s.shared input s.scopes))
        (s'.after (e.callable.run s'.shared input s'.scopes)) := by
  obtain ⟨hoblivious, hsteady⟩ := htame e input s rfl
  obtain ⟨hscopes, hmessages, houtcome⟩ := hoblivious s.shared s'.shared input s.scopes
  rw [h.scopes]
  refine ⟨hmessages, houtcome, hscopes, h.openings, h.least, h.messages, fun hlimit => ?_⟩
  have helapsed := hsteady hlimit s.shared s'.shared input s.scopes
  have hnow := h.now hlimit
  change s'.now + _ = s.now + _ + start
  rw [helapsed, hnow]
  omega

end Shifted

/-- An input that behaves is pursued from another start. -/
def restarted (p : Processor σ) (start : Nat) :
    Pursuit (p.expander (p.tokenAt 0)) (p.expander (p.tokenAt start)) where
  extra := 0
  Rel := p.Shifted start
  allows _ _ _ := true
  Fair := p.Tame
  token h := h.isCancelled
  found h _ := by
    rw [h.scopes]
    rfl
  openings h := h.openings
  opening h := ⟨h.scopes, congrArg (· + 1) h.openings, h.least, h.messages, h.now⟩
  tick h := by
    refine ⟨h.scopes, h.openings, h.least, h.messages, fun hlimit => ?_⟩
    have hnow := h.now hlimit
    simp only [State.tick]
    omega
  push h := ⟨by dsimp only; rw [h.scopes], h.openings, h.least, h.messages, h.now⟩
  pop h := ⟨by dsimp only; rw [h.scopes], h.openings, h.least, h.messages, h.now⟩
  enabled h := h.enabled
  tell h messages := h.tell messages
  messages h htame := (h.after htame).1
  outcome h htame := (h.after htame).2.1
  after h htame := (h.after htame).2.2
  entered h := absurd rfl h
  rewrote h := absurd rfl h
  served h := absurd rfl h

theorem outcomeOf_shifted {start : Nat} {s s' : State σ} (h : p.Shifted start s s')
    (forest : Forest) (r : Except Cancelled Forest) :
    outcomeOf (p.tokenAt start) s'.now forest r = outcomeOf (p.tokenAt 0) s.now forest r := by
  cases r with
  | ok output => rfl
  | error c => simp only [outcomeOf, h.isCancelled]

variable {least : Severity} {i : Input} {shared : σ}

/-- The jobs on an input begin alike. -/
theorem shifted_stateAt (least : Severity) (i : Input) (start : Nat) (shared shared' : σ) :
    p.Shifted start (p.stateAt least i 0 shared) (p.stateAt least i start shared') where
  scopes := rfl
  openings := rfl
  least := (least_parserSink start).trans (least_parserSink 0).symm
  messages := messages_parserSink 0 start
  now _ := by
    simp only [stateAt, parsedAt]
    omega

/-- **The run of an input that behaves, from any start**: it has the same outcome and the same
messages, and, if there is a limit of time, it takes the same time. -/
theorem run_behaves (h : p.Behaves least i shared) (start : Nat) (shared' : σ) :
    (p.run least i start shared').outcome = (p.run least i 0 shared).outcome ∧
      (p.run least i start shared').messages = (p.run least i 0 shared).messages ∧
      (p.limit? ≠ none →
        (p.run least i start shared').finish = (p.run least i 0 shared).finish + start) := by
  have hstart := p.shifted_stateAt least i start shared shared'
  cases hparser : (p.forestOf i).outcome with
  | crashed => exact absurd hparser h.1
  | refused error =>
      rw [run_of_refused start shared' hparser, run_of_refused 0 shared hparser]
      exact ⟨rfl, (hstart.tell [_]).messages, hstart.now⟩
  | parsed forest =>
      obtain ⟨fuel, ⟨r, s₁⟩, log, hr, htame⟩ := h.2 forest hparser
      have hanswer := Expander.forestRun_answers _ fuel forest _ _ _ hr
      rw [← Expander.guardedForestRun_true] at hr
      have hroot : (p.restarted start).Rel
          { p.stateAt least i 0 shared with scopes := (p.expander (p.tokenAt 0)).rootScopes }
          { p.stateAt least i start shared' with
            scopes := (p.expander (p.tokenAt start)).rootScopes } := hstart
      obtain ⟨s₂, log', hr', hend, -⟩ :=
        Expander.forestRun_pursued (p.restarted start) rfl hroot hr htame
      have hanswer' := Expander.forestRun_answers _ fuel forest _ _ _ hr'
      rw [run_of_parsed start shared' hparser, run_of_parsed 0 shared hparser, hanswer, hanswer']
      exact ⟨congrArg some (outcomeOf_shifted hend forest r), hend.messages, hend.now⟩

/-- What a supervisor waits for does not depend on the start either. -/
theorem awaited_behaves (h : p.Behaves least i shared) (start : Nat) (shared' : σ) :
    p.awaited start (p.run least i start shared') = p.awaited 0 (p.run least i 0 shared) := by
  obtain ⟨houtcome, -, hfinish⟩ := run_behaves h start shared'
  unfold awaited
  rw [houtcome]
  cases hlimit : p.limit? with
  | none => rfl
  | some ticks =>
      have hfinish := hfinish (by simp [hlimit])
      simp only [Option.all_some, hfinish, decide_eq_true_eq]
      congr 1
      rw [eq_iff_iff]
      omega

/-! ### Batches -/

variable {s : Supervision} {r : Processed}

theorem gives_behaves (hgives : p.Gives least s i r) (h : p.Behaves least i shared) :
    r = (p.awaited 0 (p.run least i 0 shared)).result i (p.printerFor i) := by
  obtain ⟨start, shared', rfl, -⟩ := hgives
  rw [awaited_behaves h start shared']

/-- The messages of an input that behaves are among those of the batch, in their order, unless it
took too long. -/
theorem words_sublist (hgives : p.Gives least s i r) (h : p.Behaves least i shared)
    (hstatus : r.status ≠ .timedOut) : (p.words least shared i).Sublist s.messages := by
  obtain ⟨start, shared', -, hrecords, hover⟩ := hgives
  obtain ⟨-, hmessages, -⟩ := run_behaves h start shared'
  obtain ⟨hsorted, htimes⟩ := p.run_sorted least i start shared'
  rw [words, ← hmessages]
  refine Supervision.sublist_messages hrecords hsorted fun r hr => ?_
  exact Nat.le_trans (htimes r hr) (hover hstatus)

/-- What an input counts as whose parser breaks down, if the batch is shielded from it: as
cancelled, unless the limit of time is over by then. -/
def crashOutcome (p : Processor σ) (i : Input) : JobOutcome :=
  if p.limit?.all ((p.forestOf i).elapsed ≤ ·) then .nothing .cancelled else .timedOut []

theorem gives_crashed (hgives : p.Gives least s i r)
    (hcrashed : (p.forestOf i).outcome = .crashed) :
    r = (p.crashOutcome i).result i (p.printerFor i) := by
  obtain ⟨start, shared', rfl, -⟩ := hgives
  have hintime : p.limit?.all (p.parsedAt i start ≤ start + ·) =
      p.limit?.all ((p.forestOf i).elapsed ≤ ·) := by
    simp [parsedAt]
  rw [run_of_crashed start shared' hcrashed, awaited, hintime]
  rfl

/-- An input that behaves, in a batch by itself. -/
theorem process_alone (h : p.Behaves least i shared) (told : List Message) (shared' : σ) :
    ∃ b, p.process least told [i] shared' = .ok b ∧
      b.results = [(p.awaited 0 (p.run least i 0 shared)).result i (p.printerFor i)] := by
  have hshields : p.Shields [i] := .inr fun j hj => by
    rw [List.mem_singleton.1 hj]
    exact h.1
  obtain ⟨b, s, hprocess, hsupervised, hresults, -⟩ :=
    process_supervised least hshields told shared'
  obtain ⟨results, hgives, hresults', -⟩ := hsupervised.collected
  obtain ⟨r, rest, hgiven, hrest, rfl⟩ := List.forall₂_cons_left_iff.1 hgives
  refine ⟨b, hprocess, ?_⟩
  rw [hresults, hresults', List.forall₂_nil_left_iff.1 hrest, gives_behaves hgiven h]
  rfl

/-- The results of some inputs carry their names and tags. -/
theorem names_of_gives {inputs : List Input} {results : List Processed}
    (h : List.Forall₂ (p.Gives least s) inputs results) :
    results.map (fun r => (r.fileName, r.tag)) = inputs.map (fun i => (i.fileName, i.tag)) := by
  induction h with
  | nil => rfl
  | cons hgives _ ih =>
      obtain ⟨start, shared', rfl, -⟩ := hgives
      rw [List.map_cons, List.map_cons, ih]
      rfl

end Processor

end MacroForest
