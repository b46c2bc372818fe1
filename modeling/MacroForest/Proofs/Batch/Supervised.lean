/-
**What the supervisor makes of each job.**

A batch is worked on in one of two modes, and its results are collected by one supervisor.  Whatever
the mode, an input is taken at some time, when something is shared, and the supervisor is there
before the deadline of the input has passed: in one mode it has just come to the input, and in the
other one the inputs before this one were taken earlier and had the same time.  So the result of an
input is a function of the run of its job, and of nothing else.

Without a limit of time, or on several workers, a parser that breaks down takes the batch with it.
That is the only way in which a batch has no results.

Main definitions:

* `MacroForest.Processor.awaited` — the outcome of a job for a supervisor that waits for it;
* `MacroForest.Supervised` — some inputs are collected one after the other;
* `MacroForest.Processor.Shields` — no parser breaks down where nothing shields the batch from it.

Main results:

* `MacroForest.Supervised.collected` — **the results, input by input**;
* `MacroForest.Processor.process_supervised`, `MacroForest.Processor.process_unshielded` — when a
  batch has results.
-/

import MacroForest.Batch.Schedule
import MacroForest.Proofs.Batch.Isolation

set_option relaxedAutoImplicit false
set_option autoImplicit false

namespace MacroForest

variable {σ : Type}

/-! ### Workers -/

namespace Workers

theorem le_headD_insert {bound time : Nat} {w : Workers} (htime : bound ≤ time)
    (hw : ∀ free ∈ w, bound ≤ free) : bound ≤ (insert time w).headD 0 := by
  cases w with
  | nil => exact htime
  | cons free rest =>
      unfold insert
      split
      · exact htime
      · exact hw free (by simp)

theorem mem_insert {time free : Nat} {w : Workers} (h : free ∈ insert time w) :
    free = time ∨ free ∈ w := by
  induction w with
  | nil => exact .inl (List.mem_singleton.1 h)
  | cons first rest ih =>
      unfold insert at h
      split at h
      · exact List.mem_cons.1 h
      · rcases List.mem_cons.1 h with rfl | h
        · exact .inr (by simp)
        · exact (ih h).imp_right (List.mem_cons_of_mem first)

theorem pairwise_insert {w : Workers} (h : w.Pairwise (· ≤ ·)) (time : Nat) :
    (insert time w).Pairwise (· ≤ ·) := by
  induction w with
  | nil => exact List.pairwise_singleton ..
  | cons first rest ih =>
      obtain ⟨hfirst, hrest⟩ := List.pairwise_cons.1 h
      unfold insert
      split
      · rename_i hle
        refine List.pairwise_cons.2 ⟨fun free hfree => ?_, h⟩
        rcases List.mem_cons.1 hfree with rfl | hfree
        · exact hle
        · exact Nat.le_trans hle (hfirst free hfree)
      · refine List.pairwise_cons.2 ⟨fun free hfree => ?_, ih hrest⟩
        rcases mem_insert hfree with rfl | hfree
        · omega
        · exact hfirst free hfree

/-- The next input is not taken before the last one was. -/
theorem next_le_next_occupy {w : Workers} (h : w.Pairwise (· ≤ ·)) {until_ : Nat}
    (hle : w.next ≤ until_) : w.next ≤ (w.occupy until_).next := by
  refine le_headD_insert hle fun free hfree => ?_
  cases w with
  | nil => exact Nat.zero_le free
  | cons first rest => exact (List.pairwise_cons.1 h).1 free hfree

theorem pairwise_occupy {w : Workers} (h : w.Pairwise (· ≤ ·)) (until_ : Nat) :
    (w.occupy until_).Pairwise (· ≤ ·) :=
  pairwise_insert (h.sublist (List.drop_sublist 1 w)) until_

theorem pairwise_create (count : Nat) : (create count).Pairwise (· ≤ ·) :=
  List.pairwise_replicate.2 (.inr (Nat.le_refl 0))

end Workers

/-! ### Waiting for one job -/

namespace Processor

variable {p : Processor σ} {least : Severity} {i : Input}

theorem run_outcome_eq_none (start : Nat) (shared : σ) :
    (p.run least i start shared).outcome = none ↔ (p.forestOf i).outcome = .crashed := by
  cases h : (p.forestOf i).outcome with
  | crashed => simp [run_of_crashed start shared h]
  | refused error => simp [run_of_refused start shared h]
  | parsed forest => simp [run_of_parsed start shared h]

theorem start_le_finish (p : Processor σ) (least : Severity) (i : Input) (start : Nat)
    (shared : σ) : start ≤ (p.run least i start shared).finish := by
  have hparsed : start ≤ p.parsedAt i start := Nat.le_add_right ..
  cases h : (p.forestOf i).outcome with
  | crashed =>
      rw [run_of_crashed start shared h]
      exact hparsed
  | refused error =>
      rw [run_of_refused start shared h]
      exact hparsed
  | parsed forest =>
      rw [run_of_parsed start shared h]
      exact Nat.le_trans hparsed (Expander.expandForest_respects
        (p.expander (p.tokenAt start)).respects_later forest (p.stateAt least i start shared)).now

/-- The outcome of a job for a supervisor that waits until its deadline: that of the job, nothing if
the job breaks down, or that it took too long. -/
def awaited (p : Processor σ) (start : Nat) (run : JobRun σ) : JobOutcome :=
  if p.limit?.all (fun ticks => run.finish ≤ start + ticks) then
    run.outcome.getD (.nothing .cancelled)
  else .timedOut []

end Processor

namespace Supervision

variable {p : Processor σ} {least : Severity} {s : Supervision} {i : Input} {start : Nat}
  {run : JobRun σ}

/-- The supervisor is there before the deadline of an input that is taken at a time. -/
def Punctual (p : Processor σ) (start : Nat) (s : Supervision) : Prop :=
  ∀ ticks, p.limit? = some ticks → s.now ≤ start + ticks

/-- A supervisor that is punctual waits until the deadline, and for ever if there is none. -/
theorem le_patience (h : s.Punctual p start) :
    decide (run.finish ≤ patience p.limit? start (max s.now start) run.finish) =
      p.limit?.all fun ticks => run.finish ≤ start + ticks := by
  cases hlimit : p.limit? with
  | none => exact decide_eq_true (Nat.le_max_right ..)
  | some ticks =>
      have hnow := h ticks hlimit
      have hmax : max (max s.now start) (start + ticks) = start + ticks := by omega
      simp only [patience, hmax, Option.all_some]

/-- A punctual supervisor collects the outcome that it waits for. -/
theorem collect_results (h : s.Punctual p start) :
    (s.collect p least i start run).results =
      (p.awaited start run).result i (p.printerFor i) :: s.results := by
  unfold collect Processor.awaited
  dsimp only
  rw [le_patience h]
  cases p.limit?.all fun ticks => run.finish ≤ start + ticks with
  | false => rfl
  | true => cases run.outcome <;> rfl

/-- The result is handed on unless the input took too long. -/
theorem collect_announced (h : s.Punctual p start) :
    (s.collect p least i start run).announced =
      if (p.awaited start run).status = .timedOut then s.announced
      else (p.awaited start run).result i (p.printerFor i) :: s.announced := by
  obtain ⟨result, hresults, hannounced⟩ : ∃ result : Processed,
      (s.collect p least i start run).results = result :: s.results ∧
      (s.collect p least i start run).announced =
        if result.status = .timedOut then s.announced else result :: s.announced := ⟨_, rfl, rfl⟩
  rw [collect_results h] at hresults
  obtain ⟨rfl, -⟩ := List.cons.inj hresults
  exact hannounced

theorem collect_now_le (h : s.Punctual p start) {ticks : Nat} (hlimit : p.limit? = some ticks) :
    (s.collect p least i start run).now ≤ start + ticks := by
  have hnow := h ticks hlimit
  unfold collect patience
  rw [hlimit]
  dsimp only
  split
  · rename_i harrived
    have := of_decide_eq_true harrived
    omega
  · omega

/-- Time does not go back while the supervisor waits. -/
theorem now_le_collect (s : Supervision) (p : Processor σ) (least : Severity) (i : Input)
    (start : Nat) (run : JobRun σ) : s.now ≤ (s.collect p least i start run).now := by
  unfold collect patience
  dsimp only
  cases p.limit? <;> dsimp only <;> split <;> omega

/-- The messages of the job are there, and those of the supervisor after them. -/
theorem collect_records (s : Supervision) (p : Processor σ) (least : Severity) (i : Input)
    (start : Nat) (run : JobRun σ) : ∃ notes,
    (s.collect p least i start run).records.reverse.flatten =
      s.records.reverse.flatten ++ run.records ++ notes := by
  obtain ⟨notes, hnotes⟩ : ∃ notes, (s.collect p least i start run).records =
      notes :: run.records :: s.records := ⟨_, rfl⟩
  exact ⟨notes, by simp [hnotes]⟩

/-- A job that did not take too long is over when it has been awaited. -/
theorem finish_le_collect (h : s.Punctual p start)
    (hstatus : (p.awaited start run).status ≠ .timedOut) :
    run.finish ≤ (s.collect p least i start run).now := by
  have harrived : decide (run.finish ≤ patience p.limit? start (max s.now start) run.finish) =
      true := by
    rw [le_patience h]
    by_contra hlate
    exact hstatus (by rw [Processor.awaited, if_neg hlate]; rfl)
  unfold collect
  dsimp only
  rw [if_pos harrived]
  exact Nat.le_max_right ..

end Supervision

/-! ### Batches -/

/-- Some inputs are collected one after the other, each by a supervisor that is punctual. -/
inductive Supervised (p : Processor σ) (least : Severity) :
    Supervision → List Input → Supervision → Prop where
  | nil (s : Supervision) : Supervised p least s [] s
  | cons {s s' : Supervision} {i : Input} {is : List Input} {start : Nat} {shared : σ}
      (hpunctual : s.Punctual p start)
      (hrest : Supervised p least (s.collect p least i start (p.run least i start shared)) is s') :
      Supervised p least s (i :: is) s'

/-- The result of an input in a batch that has been collected: its job was awaited from some start,
the messages of the job are there, and the job is over unless it took too long. -/
def Processor.Gives (p : Processor σ) (least : Severity) (s : Supervision) (i : Input)
    (result : Processed) : Prop :=
  ∃ start shared, let run := p.run least i start shared
    result = (p.awaited start run).result i (p.printerFor i) ∧
      run.records.Sublist s.records.reverse.flatten ∧
      (result.status ≠ .timedOut → run.finish ≤ s.now)

theorem Supervised.now_le {p : Processor σ} {least : Severity} {s s' : Supervision}
    {inputs : List Input} (h : Supervised p least s inputs s') : s.now ≤ s'.now := by
  induction h with
  | nil s => exact Nat.le_refl s.now
  | cons _ _ ih => exact Nat.le_trans (Supervision.now_le_collect ..) ih

theorem Supervised.records_before {p : Processor σ} {least : Severity} {s s' : Supervision}
    {inputs : List Input} (h : Supervised p least s inputs s') :
    s.records.reverse.flatten <+: s'.records.reverse.flatten := by
  induction h with
  | nil s => exact List.prefix_rfl
  | cons _ _ ih =>
      refine List.IsPrefix.trans ?_ ih
      obtain ⟨notes, hnotes⟩ := Supervision.collect_records ..
      rw [hnotes, List.append_assoc]
      exact List.prefix_append ..

/-- **The results, input by input.** -/
theorem Supervised.collected {p : Processor σ} {least : Severity} {s s' : Supervision}
    {inputs : List Input} (h : Supervised p least s inputs s') :
    ∃ results, List.Forall₂ (p.Gives least s') inputs results ∧
      s'.results = results.reverse ++ s.results ∧
      s'.announced = (results.filter (·.status ≠ .timedOut)).reverse ++ s.announced := by
  induction h with
  | nil s => exact ⟨[], .nil, rfl, rfl⟩
  | @cons s s' i is start shared hpunctual hrest ih =>
      obtain ⟨results, hgives, hresults, hannounced⟩ := ih
      refine ⟨_ :: results, .cons ⟨start, shared, rfl, ?_, fun hstatus => ?_⟩ hgives, ?_, ?_⟩
      · refine List.Sublist.trans ?_ hrest.records_before.sublist
        obtain ⟨notes, hnotes⟩ := s.collect_records p least i start (p.run least i start shared)
        rw [hnotes]
        exact (List.sublist_append_right ..).trans (List.sublist_append_left ..)
      · exact Nat.le_trans (Supervision.finish_le_collect hpunctual hstatus) hrest.now_le
      · rw [hresults, Supervision.collect_results hpunctual, List.reverse_cons, List.append_assoc]
        rfl
      · rw [hannounced, Supervision.collect_announced hpunctual]
        have hstatus : ∀ o : JobOutcome, (o.result i (p.printerFor i)).status = o.status :=
          fun _ => rfl
        split
        · rename_i htimedOut
          simp [hstatus, htimedOut]
        · rename_i htimedOut
          simp [hstatus, htimedOut]

namespace Processor

/-- No parser breaks down where nothing shields the batch from it: the inputs are worked on one
after another with a limit of time, or no parser breaks down at all. -/
def Shields (p : Processor σ) (inputs : List Input) : Prop :=
  (p.settings.mode = .sequential ∧ p.limit? ≠ none) ∨
    ∀ i ∈ inputs, (p.forestOf i).outcome ≠ .crashed

variable {p : Processor σ} (least : Severity)

/-- One after another, each job starts when the supervisor comes to it. -/
theorem sequentially_supervised {inputs : List Input}
    (h : p.limit? ≠ none ∨ ∀ i ∈ inputs, (p.forestOf i).outcome ≠ .crashed) (shared : σ)
    (s : Supervision) :
    ∃ shared' s', p.sequentially least inputs shared s = .ok (shared', s') ∧
      Supervised p least s inputs s' := by
  induction inputs generalizing shared s with
  | nil => exact ⟨shared, s, rfl, .nil s⟩
  | cons i is ih =>
      have hgo : ¬ ((p.run least i s.now shared).outcome.isNone && p.limit?.isNone) = true := by
        rw [Bool.and_eq_true, Option.isNone_iff_eq_none, Option.isNone_iff_eq_none,
          run_outcome_eq_none]
        rintro ⟨hcrashed, hnone⟩
        rcases h with hlimit | hparsers
        · exact hlimit hnone
        · exact hparsers i (by simp) hcrashed
      have hrest := h.imp_right fun hparsers j hj => hparsers j (List.mem_cons_of_mem i hj)
      obtain ⟨shared', s', hrun, hsupervised⟩ := ih hrest (p.run least i s.now shared).shared
        (s.collect p least i s.now (p.run least i s.now shared))
      refine ⟨shared', s', ?_, .cons (fun ticks _ => Nat.le_add_right ..) hsupervised⟩
      rw [sequentially, if_neg hgo, hrun]

/-- On several workers, an input is not taken before those that are collected before it. -/
theorem concurrently_supervised {inputs : List Input}
    (h : ∀ i ∈ inputs, (p.forestOf i).outcome ≠ .crashed) {workers : Workers}
    (hworkers : workers.Pairwise (· ≤ ·)) (shared : σ) {s : Supervision}
    (hpunctual : s.Punctual p workers.next) :
    ∃ shared' s', p.concurrently least inputs workers shared s = .ok (shared', s') ∧
      Supervised p least s inputs s' := by
  induction inputs generalizing workers shared s with
  | nil => exact ⟨shared, s, rfl, .nil s⟩
  | cons i is ih =>
      have hgo : ¬ (p.run least i workers.next shared).outcome.isNone = true := by
        rw [Option.isNone_iff_eq_none, run_outcome_eq_none]
        exact h i (by simp)
      have hlater := Workers.next_le_next_occupy hworkers
        (p.start_le_finish least i workers.next shared)
      have hpunctual' : Supervision.Punctual p
          (workers.occupy (p.run least i workers.next shared).finish).next
          (s.collect p least i workers.next (p.run least i workers.next shared)) := by
        intro ticks hlimit
        have hnow :
            (s.collect p least i workers.next (p.run least i workers.next shared)).now ≤ _ :=
          Supervision.collect_now_le hpunctual hlimit
        omega
      obtain ⟨shared', s', hrun, hsupervised⟩ := ih
        (fun j hj => h j (List.mem_cons_of_mem i hj)) (Workers.pairwise_occupy hworkers _)
        (p.run least i workers.next shared).shared hpunctual'
      refine ⟨shared', s', ?_, .cons hpunctual hsupervised⟩
      rw [concurrently, if_neg hgo, hrun]

/-- **A batch that is shielded has results**, and they are collected input by input. -/
theorem process_supervised {inputs : List Input} (h : p.Shields inputs)
    (told : List Message) (shared : σ) :
    ∃ r s, p.process least told inputs shared = .ok r ∧
      Supervised p least (.initial ((Sink.empty least).writeAll 0 told).records) inputs s ∧
      r.results = s.results.reverse ∧ r.announced = s.announced.reverse ∧
      r.messages = s.messages := by
  let s := Supervision.initial ((Sink.empty least).writeAll 0 told).records
  have hruns : ∃ shared' s', p.process least told inputs shared =
      .ok ⟨s'.results.reverse, s'.announced.reverse, s'.messages, shared'⟩ ∧
        Supervised p least s inputs s' := by
    unfold process
    dsimp only
    cases hmode : p.settings.mode with
    | sequential =>
        have hparsers : p.limit? ≠ none ∨ ∀ i ∈ inputs, (p.forestOf i).outcome ≠ .crashed :=
          h.imp_left (·.2)
        obtain ⟨shared', s', hrun, hsupervised⟩ :=
          sequentially_supervised least hparsers shared s
        exact ⟨shared', s', by rw [hrun]; rfl, hsupervised⟩
    | concurrent =>
        have hparsers : ∀ i ∈ inputs, (p.forestOf i).outcome ≠ .crashed :=
          h.resolve_left fun hsequential => by simp [hmode] at hsequential
        obtain ⟨shared', s', hrun, hsupervised⟩ :=
          concurrently_supervised least hparsers
            (Workers.pairwise_create (p.workerCount inputs)) shared (s := s)
            fun ticks _ => Nat.zero_le _
        exact ⟨shared', s', by rw [hrun]; rfl, hsupervised⟩
  obtain ⟨shared', s', hprocess, hsupervised⟩ := hruns
  exact ⟨_, s', hprocess, hsupervised, rfl, rfl, rfl⟩

theorem sequentially_unshielded {inputs : List Input} (hlimit : p.limit? = none) {i : Input}
    (hi : i ∈ inputs) (hcrashed : (p.forestOf i).outcome = .crashed) (shared : σ)
    (s : Supervision) : p.sequentially least inputs shared s = .error .parserCrashed := by
  induction inputs generalizing shared s with
  | nil => simp at hi
  | cons j js ih =>
      rw [sequentially]
      split
      · rfl
      rename_i hgo
      rcases List.mem_cons.1 hi with rfl | hi
      · exact absurd (by simp [(run_outcome_eq_none s.now shared).2 hcrashed, hlimit]) hgo
      · exact ih hi _ _

theorem concurrently_unshielded {inputs : List Input} {i : Input} (hi : i ∈ inputs)
    (hcrashed : (p.forestOf i).outcome = .crashed) (workers : Workers) (shared : σ)
    (s : Supervision) :
    p.concurrently least inputs workers shared s = .error .parserCrashed := by
  induction inputs generalizing workers shared s with
  | nil => simp at hi
  | cons j js ih =>
      rw [concurrently]
      split
      · rfl
      rename_i hgo
      rcases List.mem_cons.1 hi with rfl | hi
      · exact absurd (by simp [(run_outcome_eq_none workers.next shared).2 hcrashed]) hgo
      · exact ih hi _ _ _

/-- **A batch that is not shielded has no results.** -/
theorem process_unshielded {inputs : List Input} (h : ¬ p.Shields inputs)
    (told : List Message) (shared : σ) :
    p.process least told inputs shared = .error .parserCrashed := by
  simp only [Shields, not_or, not_and, not_forall, not_not] at h
  obtain ⟨hmodes, i, hi, hcrashed⟩ := h
  unfold process
  dsimp only
  cases hmode : p.settings.mode with
  | sequential => rw [sequentially_unshielded least (hmodes hmode) hi hcrashed]; rfl
  | concurrent => rw [concurrently_unshielded least hi hcrashed]; rfl

end Processor

end MacroForest
