/-
**The work on a batch.**

The inputs of a batch are worked on one after another, or on several workers, each of which takes
the next input when it is free.  A supervisor collects the outcomes in the order of the inputs.  It
waits for an input until its deadline, which counts from the start of the work on it; an outcome
that is not there by then is given up, whatever the worker goes on to do.

Main definitions:

* `MacroForest.Workers` — the times at which workers are free;
* `MacroForest.Supervision` — the collection so far;
* `MacroForest.Supervision.collect` — waiting for one input;
* `MacroForest.Processor.process` — **the results of a batch**.
-/

import MacroForest.Batch.Job

set_option relaxedAutoImplicit false
set_option autoImplicit false

namespace MacroForest

variable {σ : Type}

/-! ### Workers -/

/-- The times at which workers are free, in increasing order. -/
abbrev Workers := List Nat

namespace Workers

/-- Some workers, all free at the start. -/
def create (count : Nat) : Workers := List.replicate count 0

/-- Puts a time in its place. -/
def insert (time : Nat) : Workers → Workers
  | [] => [time]
  | free :: rest => if time ≤ free then time :: free :: rest else free :: insert time rest

/-- The time at which the next input is taken. -/
def next (w : Workers) : Nat := w.headD 0

/-- The worker that took the next input is free again at a time. -/
def occupy (w : Workers) (until_ : Nat) : Workers := insert until_ (w.drop 1)

end Workers

/-! ### Supervision -/

/-- The breakdown of a parser where nothing shields the batch from it. -/
inductive BatchFault where
  | parserCrashed

/-- What has been collected of a batch. -/
structure Supervision where
  /-- The time. -/
  now : Nat
  /-- The results, last first. -/
  results : List Processed
  /-- The results handed on as they came in, last first. -/
  announced : List Processed
  /-- The messages of the jobs and the supervisor, latest chunk first. -/
  records : List (List Record)

namespace Supervision

/-- Nothing has been collected. -/
def initial (records : List Record) : Supervision := ⟨0, [], [], [records]⟩

/-- The message on an input that took too long. -/
def timeoutMessage (fileName : String) (ms : Nat) : Message :=
  ⟨.error, timedOutNode,
    "Processing of '" ++ fileName ++ "' timed out after " ++ toString ms ++ " ms"⟩

/-- The message on a worker that broke down. -/
def crashMessage (fileName : String) : Message :=
  ⟨.error, .ident fileName, "Processing thread stopped without producing output"⟩

/-- The time up to which an input that started at a time is waited for, from a time on. -/
def patience (limit : Option Nat) (start now finish : Nat) : Nat :=
  match limit with
  | some ticks => max now (start + ticks)
  | none => max now finish

/-- Waits for an input whose work started at a time. -/
def collect (s : Supervision) (p : Processor σ) (least : Severity) (i : Input) (start : Nat)
    (run : JobRun σ) : Supervision :=
  let now := max s.now start
  let last := patience p.limit? start now run.finish
  let arrived := decide (run.finish ≤ last)
  let now := if arrived then max now run.finish else last
  let outcome : JobOutcome :=
    match arrived, run.outcome with
    | true, some outcome => outcome
    | true, none => .nothing .cancelled
    | false, _ => .timedOut []
  let told : List Message :=
    (if arrived && run.outcome.isNone then [crashMessage i.fileName] else []) ++
    (if outcome.status = .timedOut then
      [timeoutMessage i.fileName (p.settings.timeout?.getD 0)] else [])
  let result := outcome.result i (p.printerFor i)
  { now,
    results := result :: s.results,
    announced := if result.status = .timedOut then s.announced else result :: s.announced,
    records := ((Sink.empty least).writeAll now told).records :: run.records :: s.records }

/-- The messages that have arrived by now, in the order of their times. -/
def messages (s : Supervision) : List Message :=
  ((s.records.reverse.flatten.filter (decide <| ·.time ≤ s.now)).mergeSort
    (fun a b => decide (a.time ≤ b.time))).map (·.message)

end Supervision

/-! ### Batches -/

/-- The results of a batch. -/
structure BatchResult (σ : Type) where
  /-- The results, in the order of the inputs. -/
  results : List Processed
  /-- The results as they were handed on when they came in. -/
  announced : List Processed
  /-- The messages, in the order of their times. -/
  messages : List Message
  /-- What the macros share, afterwards. -/
  shared : σ

namespace Processor

/-- Works on some inputs one after another.  Without a limit of time nothing shields the batch from
a parser that breaks down. -/
def sequentially (p : Processor σ) (least : Severity) :
    List Input → σ → Supervision → Except BatchFault (σ × Supervision)
  | [], shared, s => .ok (shared, s)
  | i :: is, shared, s =>
    let run := p.run least i s.now shared
    if run.outcome.isNone && p.limit?.isNone then .error .parserCrashed
    else p.sequentially least is run.shared (s.collect p least i s.now run)

/-- Works on some inputs with several workers.  A parser that breaks down takes the batch with
it. -/
def concurrently (p : Processor σ) (least : Severity) :
    List Input → Workers → σ → Supervision → Except BatchFault (σ × Supervision)
  | [], _, shared, s => .ok (shared, s)
  | i :: is, workers, shared, s =>
    let start := workers.next
    let run := p.run least i start shared
    if run.outcome.isNone then .error .parserCrashed
    else
      p.concurrently least is (workers.occupy run.finish) run.shared (s.collect p least i start run)

/-- The number of workers for some inputs: one for each unless it is set. -/
def workerCount (p : Processor σ) (inputs : List Input) : Nat :=
  (p.settings.workers.filter (0 < ·)).getD inputs.length

/-- Works on a batch.  `told` are the messages written before, and `least` is the least severity
that is kept. -/
def process (p : Processor σ) (least : Severity) (told : List Message) (inputs : List Input)
    (shared : σ) : Except BatchFault (BatchResult σ) :=
  let s := Supervision.initial ((Sink.empty least).writeAll 0 told).records
  let outcome :=
    match p.settings.mode with
    | .sequential => p.sequentially least inputs shared s
    | .concurrent => p.concurrently least inputs (.create (p.workerCount inputs)) shared s
  outcome.map fun (shared, s) =>
    ⟨s.results.reverse, s.announced.reverse, s.messages, shared⟩

end Processor

end MacroForest
