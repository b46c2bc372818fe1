/-
**Verbosity.**

How much of what happens is told is a matter of taste, and must not change what happens.  A batch
that is processed with a threshold has the same results as one that is processed with none, and its
messages are those of the other one that are severe enough, in the same order.

Expansions are so by `MacroForest/Proofs/Expansion/Threshold.lean`.  The rest of the work on a batch
does not ask what is heard, but it sorts the messages by their times, those of all jobs and of the
supervisor together.  To leave out some messages before they are sorted is the same as to leave them
out afterwards, because sorting keeps the order of messages that have the same time.

Main definitions:

* `MacroForest.JobRun.muted`, `MacroForest.Supervision.muted`, `MacroForest.BatchResult.muted` — the
  same with a higher threshold.

Main results:

* `MacroForest.Processor.run_muted` — a job with a threshold;
* `MacroForest.Processor.verbosity_transparent` — **a threshold does not change the results**.
-/

import MacroForest.Proofs.Batch.Modes
import MacroForest.Proofs.Expansion.Threshold

set_option relaxedAutoImplicit false
set_option autoImplicit false

namespace MacroForest

variable {σ α : Type}

/-! ### Jobs -/

/-- The same job with a higher threshold. -/
def JobRun.muted (least : Severity) (run : JobRun σ) : JobRun σ :=
  { run with records := run.records.filter (·.message.reaches least) }

/-- What is written to an empty sink with a threshold. -/
theorem Sink.writeAll_empty (least : Severity) (now : Nat) (ms : List Message) :
    (Sink.empty least).writeAll now ms = ((Sink.empty .detail).writeAll now ms).muted least := by
  have hempty : Sink.empty least = (Sink.empty .detail).muted least := rfl
  rw [hempty]
  exact muted_writeAll least rfl now rfl

namespace Processor

variable (p : Processor σ) (least : Severity) (i : Input) (start : Nat) (shared : σ)

theorem parserSink_muted :
    p.parserSink least i start = (p.parserSink .detail i start).muted least :=
  Sink.writeAll_empty least start _

/-- **A job with a threshold.** -/
theorem run_muted : p.run least i start shared = (p.run .detail i start shared).muted least := by
  have hall : (p.parserSink .detail i start).least = .detail := least_parserSink start
  cases hparser : (p.forestOf i).outcome with
  | crashed =>
      rw [run_of_crashed start shared hparser, run_of_crashed start shared hparser,
        parserSink_muted, Sink.records_muted, JobRun.muted]
  | refused error =>
      rw [run_of_refused start shared hparser, run_of_refused start shared hparser,
        parserSink_muted, Sink.muted_writeAll least hall _ rfl, Sink.records_muted,
        JobRun.muted]
  | parsed forest =>
      have hstate : p.stateAt least i start shared =
          (p.stateAt .detail i start shared).muted least := by
        rw [stateAt, parserSink_muted]
        rfl
      have hrecords := Sink.records_muted least
        ((p.expander (p.tokenAt start)).expandForest forest
          (p.stateAt .detail i start shared)).2.sink
      rw [run_of_parsed start shared hparser, run_of_parsed start shared hparser, hstate,
        Expander.expandForest_muted _ least forest hall]
      dsimp only [State.muted, JobRun.muted]
      rw [hrecords]

end Processor

/-! ### Batches -/

namespace Supervision

variable (least : Severity)

/-- The same collection with a higher threshold. -/
def muted (s : Supervision) : Supervision :=
  { s with records := s.records.map (·.filter (·.message.reaches least)) }

theorem initial_muted (records : List Record) :
    initial (records.filter (·.message.reaches least)) = (initial records).muted least :=
  rfl

theorem collect_muted (s : Supervision) (p : Processor σ) (i : Input) (start : Nat)
    (run : JobRun σ) :
    (s.muted least).collect p least i start (run.muted least) =
      (s.collect p .detail i start run).muted least := by
  simp only [collect, muted, JobRun.muted, Sink.writeAll_empty least, Sink.records_muted,
    List.map_cons]
  rfl

/-- The messages of a collection with a higher threshold. -/
theorem messages_muted (s : Supervision) :
    (s.muted least).messages = s.messages.filter (·.reaches least) := by
  have hrecords : (s.muted least).records.reverse.flatten =
      s.records.reverse.flatten.filter (·.message.reaches least) := by
    rw [muted, ← List.map_reverse, List.filter_flatten]
  have hcomp : (Message.reaches least ∘ Record.message) = (·.message.reaches least) := rfl
  rw [messages, messages, hrecords, List.filter_map, hcomp, filter_mergeSort_comm, List.filter_comm]
  rfl

end Supervision

/-- The same results with a higher threshold. -/
def BatchResult.muted (least : Severity) (b : BatchResult σ) : BatchResult σ :=
  { b with messages := b.messages.filter (·.reaches least) }

namespace Processor

variable (p : Processor σ) (least : Severity)

theorem sequentially_muted (inputs : List Input) (shared : σ) (s : Supervision) :
    p.sequentially least inputs shared (s.muted least) =
      (p.sequentially .detail inputs shared s).map (Prod.map id (Supervision.muted least)) := by
  induction inputs generalizing shared s with
  | nil => rfl
  | cons i inputs ih =>
      have hstart : (s.muted least).now = s.now := rfl
      rw [sequentially, sequentially, hstart, run_muted, Supervision.collect_muted,
        apply_ite (Except.map _)]
      have hrest := ih (p.run .detail i s.now shared).shared
        (s.collect p .detail i s.now (p.run .detail i s.now shared))
      exact congrArg (ite _ _) hrest

theorem concurrently_muted (inputs : List Input) (workers : Workers) (shared : σ)
    (s : Supervision) :
    p.concurrently least inputs workers shared (s.muted least) =
      (p.concurrently .detail inputs workers shared s).map
        (Prod.map id (Supervision.muted least)) := by
  induction inputs generalizing workers shared s with
  | nil => rfl
  | cons i inputs ih =>
      rw [concurrently, concurrently, run_muted, Supervision.collect_muted,
        apply_ite (Except.map _)]
      have hrest := ih (workers.occupy (p.run .detail i workers.next shared).finish)
        (p.run .detail i workers.next shared).shared
        (s.collect p .detail i workers.next (p.run .detail i workers.next shared))
      exact congrArg (ite _ _) hrest

/-- **Verbosity is transparent**: a batch that is processed with a threshold has the same results as
one that is processed with none, and of its messages those that are severe enough, in the same
order. -/
theorem verbosity_transparent (told : List Message) (inputs : List Input) (shared : σ) :
    p.process least told inputs shared =
      (p.process .detail told inputs shared).map (BatchResult.muted least) := by
  -- what is made of a collection in the end has the threshold of the collection
  have hfinal : ∀ {muted all : Except BatchFault (σ × Supervision)}
      (finish : σ × Supervision → BatchResult σ),
      muted = all.map (Prod.map id (Supervision.muted least)) →
      (∀ shared s, finish (shared, s.muted least) = (finish (shared, s)).muted least) →
      muted.map finish = (all.map finish).map (BatchResult.muted least) := by
    rintro _ all finish rfl hfinish
    cases all with
    | error fault => rfl
    | ok found => exact congrArg Except.ok (hfinish found.1 found.2)
  unfold process
  rw [Sink.writeAll_empty, Sink.records_muted, Supervision.initial_muted]
  refine hfinal _ ?_ fun shared s => ?_
  · cases p.settings.mode with
    | sequential => exact sequentially_muted ..
    | concurrent => exact concurrently_muted ..
  · dsimp only [BatchResult.muted]
    rw [Supervision.messages_muted]
    rfl

end Processor

end MacroForest
