/-
**The two modes of a batch agree.**

One after another or on several workers, a batch of inputs gives the results that its inputs give
alone, in the order of the inputs.  The times differ, and with them the order in which the messages
of several inputs reach the sink.  But the messages of one input keep their order: what the sink
holds is an interleaving of the messages that the inputs give alone.

Main definitions:

* `MacroForest.Interleaves` — a list that is made by interleaving some lists;
* `MacroForest.Processor.verdict`, `MacroForest.Processor.words` — the result and the messages of an
  input by itself;
* `MacroForest.Supervision.Gathered` — what has been collected between two moments.

Main results:

* `MacroForest.interleaves_mergeSort` — sorting by time interleaves chunks that are sorted;
* `MacroForest.Processor.sequentially_gathers`, `MacroForest.Processor.concurrently_gathers` — the
  modes;
* `MacroForest.Processor.process_scheduled` — **a batch in either mode**.
-/

import MacroForest.Batch.Schedule
import MacroForest.Proofs.Batch.Isolation
import MacroForest.Proofs.Sorting

set_option relaxedAutoImplicit false
set_option autoImplicit false

namespace MacroForest

variable {σ α β : Type}

/-! ### Interleavings -/

/-- The list is made by interleaving some lists: each of its items belongs to one of them, and those
that belong to one are in their order. -/
def Interleaves (parts : List (List α)) (whole : List α) : Prop :=
  ∃ tagged : List (Nat × α), tagged.map (·.2) = whole ∧
    ∀ k, (tagged.filter (·.1 == k)).map (·.2) = parts.getD k []

theorem Interleaves.map {parts : List (List α)} {whole : List α} (h : Interleaves parts whole)
    (f : α → β) : Interleaves (parts.map (·.map f)) (whole.map f) := by
  obtain ⟨tagged, rfl, hparts⟩ := h
  refine ⟨tagged.map fun x => (x.1, f x.2), by simp, fun k => ?_⟩
  have hpart : (parts.map (·.map f)).getD k [] = (parts.getD k []).map f := by
    simp only [List.getD_eq_getElem?_getD, List.getElem?_map]
    cases parts[k]? <;> rfl
  rw [hpart, ← hparts k, List.filter_map, List.map_map, List.map_map]
  rfl

/-- The items of some lists, with the place of the list that each one comes from. -/
def tagFrom (n : Nat) (parts : List (List α)) : List (Nat × α) :=
  (parts.zipIdx n).flatMap fun (part, k) => part.map (k, ·)

theorem map_tagFrom (n : Nat) (parts : List (List α)) :
    (tagFrom n parts).map (·.2) = parts.flatten := by
  induction parts generalizing n with
  | nil => rfl
  | cons part parts ih =>
      have ih := ih (n + 1)
      unfold tagFrom at ih ⊢
      simp [ih, Function.comp_def]

theorem le_of_mem_tagFrom {n : Nat} {parts : List (List α)} {x : Nat × α}
    (h : x ∈ tagFrom n parts) : n ≤ x.1 := by
  obtain ⟨⟨part, k⟩, hpart, hx⟩ := List.mem_flatMap.1 h
  obtain ⟨_, -, rfl⟩ := List.mem_map.1 hx
  exact List.le_snd_of_mem_zipIdx hpart

theorem filter_tagFrom (n : Nat) (parts : List (List α)) (k : Nat) :
    (tagFrom n parts).filter (·.1 == n + k) = (parts.getD k []).map (n + k, ·) := by
  induction parts generalizing n k with
  | nil => simp [tagFrom]
  | cons part parts ih =>
      have hcons : tagFrom n (part :: parts) = part.map (n, ·) ++ tagFrom (n + 1) parts := rfl
      rw [hcons, List.filter_append, List.filter_map]
      cases k with
      | zero =>
          have hrest : (tagFrom (n + 1) parts).filter (·.1 == n + 0) = [] := by
            refine List.filter_eq_nil_iff.2 fun x hx => ?_
            have := le_of_mem_tagFrom hx
            simp only [beq_iff_eq]
            omega
          rw [hrest]
          simp [Function.comp_def]
      | succ k =>
          have hrest := ih (n + 1) k
          rw [Nat.add_assoc, Nat.add_comm 1 k] at hrest
          rw [hrest]
          simp [Function.comp_def]

/-- **Sorting interleaves.** -/
theorem interleaves_mergeSort {le : α → α → Bool} (htrans : ∀ a b c, le a b → le b c → le a c)
    (htotal : ∀ a b, le a b || le b a) {parts : List (List α)}
    (hsorted : ∀ part ∈ parts, part.Pairwise (le · ·)) :
    Interleaves parts (parts.flatten.mergeSort le) := by
  let leTagged : Nat × α → Nat × α → Bool := fun a b => le a.2 b.2
  refine ⟨(tagFrom 0 parts).mergeSort leTagged, ?_, fun k => ?_⟩
  · rw [List.map_mergeSort (s := le) fun _ _ _ _ => rfl, map_tagFrom]
  · have hpart := filter_tagFrom 0 parts k
    rw [Nat.zero_add] at hpart
    have hsortedPart : ((tagFrom 0 parts).filter (·.1 == k)).Pairwise (leTagged · ·) := by
      rw [hpart, List.pairwise_map]
      cases hk : parts[k]? with
      | none => simp [hk]
      | some part => simpa [hk, leTagged] using hsorted part (List.mem_of_getElem? hk)
    rw [filter_mergeSort (fun a b c => htrans a.2 b.2 c.2) (fun a b => htotal a.2 b.2) hsortedPart,
      hpart]
    simp [Function.comp_def]

/-! ### What an input gives by itself -/

namespace Processor

variable (p : Processor σ) (least : Severity) (shared : σ) (i : Input)

/-- The result of an input by itself. -/
def verdict : Processed :=
  ((p.run least i 0 shared).outcome.getD (.nothing .cancelled)).result i (p.printerFor i)

/-- The messages of an input by itself. -/
def words : List Message := (p.run least i 0 shared).messages

variable {p least i}

/-- The result and the messages of an input, whenever the work on it starts and whatever is shared
by then. -/
theorem run_eq_alone (hoblivious : p.table.Oblivious) (hlimit : p.limit? = none)
    (hparser : (p.forestOf i).outcome ≠ .crashed) (start : Nat) (shared' : σ) :
    ∃ o, (p.run least i start shared').outcome = some o ∧ o.status ≠ .timedOut ∧
      o.result i (p.printerFor i) = p.verdict least shared i ∧
      (p.run least i start shared').messages = p.words least shared i := by
  obtain ⟨houtcome, hmessages⟩ := run_alike 0 shared hoblivious hlimit start shared'
  obtain ⟨o, ho, hstatus⟩ := exists_outcome least start shared' hlimit hparser
  refine ⟨o, ho, hstatus, ?_, hmessages⟩
  rw [verdict, ← houtcome, ho, Option.getD_some]

end Processor

/-! ### Collecting -/

namespace Supervision

variable {p : Processor σ} {least : Severity} {shared : σ}

/-- Waiting for an outcome without a limit of time. -/
theorem collect_eq (hlimit : p.limit? = none) (s : Supervision) (i : Input) (start : Nat)
    {run : JobRun σ} {o : JobOutcome} (houtcome : run.outcome = some o)
    (hstatus : o.status ≠ .timedOut) :
    s.collect p least i start run =
      { now := max (max s.now start) run.finish,
        results := o.result i (p.printerFor i) :: s.results,
        announced := o.result i (p.printerFor i) :: s.announced,
        records := [] :: run.records :: s.records } := by
  have harrived : decide (run.finish ≤ max (max s.now start) run.finish) = true :=
    decide_eq_true (Nat.le_max_right ..)
  have hstatus' : (o.result i (p.printerFor i)).status ≠ .timedOut := hstatus
  simp only [collect, patience, hlimit, houtcome, harrived]
  simp [hstatus, hstatus', Sink.writeAll, Sink.records, Sink.empty]

/-- Between two moments, some inputs have been collected: their results are those that they give by
themselves, and so are their messages, which are there in chunks. -/
structure Gathered (p : Processor σ) (least : Severity) (shared : σ) (s : Supervision)
    (inputs : List Input) (chunks : List (List Record)) (s' : Supervision) : Prop where
  results : s'.results = (inputs.map (p.verdict least shared)).reverse ++ s.results
  announced : s'.announced = (inputs.map (p.verdict least shared)).reverse ++ s.announced
  records : s'.records.reverse.flatten = s.records.reverse.flatten ++ chunks.flatten
  words : chunks.map (·.map (·.message)) = inputs.map (p.words least shared)
  sorted : ∀ chunk ∈ chunks, chunk.Pairwise (fun a b => a.time ≤ b.time)
  now : s.now ≤ s'.now
  past : ∀ chunk ∈ chunks, ∀ r ∈ chunk, r.time ≤ s'.now

namespace Gathered

variable {s s' s'' : Supervision} {inputs inputs' : List Input} {chunks chunks' : List (List Record)}

theorem refl (s : Supervision) : Gathered p least shared s [] [] s :=
  ⟨rfl, rfl, by simp, rfl, by simp, Nat.le_refl _, by simp⟩

theorem append (h : Gathered p least shared s inputs chunks s')
    (h' : Gathered p least shared s' inputs' chunks' s'') :
    Gathered p least shared s (inputs ++ inputs') (chunks ++ chunks') s'' where
  results := by simp [h'.results, h.results]
  announced := by simp [h'.announced, h.announced]
  records := by simp [h'.records, h.records]
  words := by simp only [List.map_append, h.words, h'.words]
  sorted chunk hchunk := by
    rcases List.mem_append.1 hchunk with hchunk | hchunk
    · exact h.sorted chunk hchunk
    · exact h'.sorted chunk hchunk
  now := Nat.le_trans h.now h'.now
  past chunk hchunk r hr := by
    rcases List.mem_append.1 hchunk with hchunk | hchunk
    · exact Nat.le_trans (h.past chunk hchunk r hr) h'.now
    · exact h'.past chunk hchunk r hr

/-- One input is collected. -/
theorem collect (hoblivious : p.table.Oblivious) (hlimit : p.limit? = none) {i : Input}
    (hparser : (p.forestOf i).outcome ≠ .crashed) (s : Supervision) (start : Nat) (shared' : σ) :
    Gathered p least shared s [i] [(p.run least i start shared').records]
      (s.collect p least i start (p.run least i start shared')) := by
  obtain ⟨o, ho, hstatus, hverdict, hwords⟩ :=
    Processor.run_eq_alone shared hoblivious hlimit hparser start shared'
  obtain ⟨hsorted, htimes⟩ := p.run_sorted least i start shared'
  rw [collect_eq hlimit s i start ho hstatus, hverdict]
  refine ⟨rfl, rfl, by simp, congrArg ([·]) hwords, by simpa using hsorted, ?_, ?_⟩
  · dsimp only
    omega
  · intro chunk hchunk r hr
    rw [List.mem_singleton.1 hchunk] at hr
    exact Nat.le_trans (htimes r hr) (Nat.le_max_right ..)

/-- The messages of a batch that has been collected. -/
theorem interleaves {told : List Record} (h : Gathered p least shared (.initial told) inputs chunks s)
    (htold : ∀ r ∈ told, r.time = 0) :
    Interleaves (told.map (·.message) :: inputs.map (p.words least shared)) s.messages := by
  have hrecords : s.records.reverse.flatten = (told :: chunks).flatten := by
    rw [h.records]
    simp [initial]
  have hpast : (told :: chunks).flatten.filter (decide <| ·.time ≤ s.now) =
      (told :: chunks).flatten := by
    refine List.filter_eq_self.2 fun r hmem => decide_eq_true ?_
    obtain ⟨chunk, hchunk, hr⟩ := List.mem_flatten.1 hmem
    rcases List.mem_cons.1 hchunk with htold' | hchunk
    · rw [htold r (htold' ▸ hr)]
      exact Nat.zero_le _
    · exact h.past chunk hchunk r hr
  have hsorted : ∀ chunk ∈ told :: chunks,
      chunk.Pairwise fun a b => decide (a.time ≤ b.time) = true := by
    intro chunk hchunk
    simp only [decide_eq_true_eq]
    rcases List.mem_cons.1 hchunk with rfl | hchunk
    · refine List.pairwise_of_forall_mem_list fun a ha b hb => ?_
      exact Nat.le_of_eq ((htold a ha).trans (htold b hb).symm)
    · exact h.sorted chunk hchunk
  have hmessages := (interleaves_mergeSort (keyOrder_trans Record.time)
    (keyOrder_total Record.time) hsorted).map (·.message)
  rw [List.map_cons, h.words] at hmessages
  rw [messages, hrecords, hpast]
  exact hmessages

end Gathered

end Supervision

/-! ### The modes -/

namespace Processor

variable {p : Processor σ} (least : Severity) {inputs : List Input}

/-- The same processor with another way of scheduling. -/
def scheduled (p : Processor σ) (mode : BatchMode) (workers : Option Nat) : Processor σ :=
  { p with settings := { p.settings with mode, workers } }

theorem sequentially_gathers (hoblivious : p.table.Oblivious) (hlimit : p.limit? = none)
    (hparsers : ∀ i ∈ inputs, (p.forestOf i).outcome ≠ .crashed) (shared shared' : σ)
    (s : Supervision) :
    ∃ shared'' chunks s', p.sequentially least inputs shared' s = .ok (shared'', s') ∧
      Supervision.Gathered p least shared s inputs chunks s' := by
  induction inputs generalizing shared' s with
  | nil => exact ⟨shared', [], s, rfl, .refl s⟩
  | cons i inputs ih =>
      have hparser := hparsers i (by simp)
      obtain ⟨o, ho, -⟩ := exists_outcome least s.now shared' hlimit hparser
      obtain ⟨shared'', chunks, s', hrest, hgathered⟩ :=
        ih (fun j hj => hparsers j (List.mem_cons_of_mem i hj)) _
          (s.collect p least i s.now (p.run least i s.now shared'))
      refine ⟨shared'', _, s', ?_,
        (Supervision.Gathered.collect hoblivious hlimit hparser s s.now shared').append hgathered⟩
      rw [sequentially, ho]
      exact hrest

theorem concurrently_gathers (hoblivious : p.table.Oblivious) (hlimit : p.limit? = none)
    (hparsers : ∀ i ∈ inputs, (p.forestOf i).outcome ≠ .crashed) (shared shared' : σ)
    (workers : Workers) (s : Supervision) :
    ∃ shared'' chunks s', p.concurrently least inputs workers shared' s = .ok (shared'', s') ∧
      Supervision.Gathered p least shared s inputs chunks s' := by
  induction inputs generalizing shared' workers s with
  | nil => exact ⟨shared', [], s, rfl, .refl s⟩
  | cons i inputs ih =>
      have hparser := hparsers i (by simp)
      obtain ⟨o, ho, -⟩ := exists_outcome least workers.next shared' hlimit hparser
      obtain ⟨shared'', chunks, s', hrest, hgathered⟩ :=
        ih (fun j hj => hparsers j (List.mem_cons_of_mem i hj)) _ _
          (s.collect p least i workers.next (p.run least i workers.next shared'))
      refine ⟨shared'', _, s', ?_,
        (Supervision.Gathered.collect hoblivious hlimit hparser s workers.next shared').append
          hgathered⟩
      rw [concurrently, ho]
      exact hrest

/-- **A batch in either mode**, with any number of workers: the results are those that the inputs
give by themselves, they are handed on in this order, and the messages of each input keep theirs. -/
theorem process_scheduled (hoblivious : p.table.Oblivious) (hlimit : p.limit? = none)
    (hparsers : ∀ i ∈ inputs, (p.forestOf i).outcome ≠ .crashed) (mode : BatchMode)
    (workers : Option Nat) (told : List Message) (shared shared' : σ) :
    ∃ r, (p.scheduled mode workers).process least told inputs shared' = .ok r ∧
      r.results = inputs.map (p.verdict least shared) ∧
      r.announced = inputs.map (p.verdict least shared) ∧
      Interleaves (((Sink.empty least).writeAll 0 told).messages ::
        inputs.map (p.words least shared)) r.messages := by
  have htold : ∀ r ∈ ((Sink.empty least).writeAll 0 told).records, r.time = 0 := by
    obtain ⟨new, hkept, htimes⟩ := (Sink.empty least).kept_writeAll 0 told
    intro r hr
    rw [Sink.records, hkept] at hr
    exact htimes r (by simpa [Sink.empty] using hr)
  -- the schedule is no part of the work on one input
  let q := p.scheduled mode workers
  have hverdict : q.verdict least shared = p.verdict least shared := rfl
  have hwords : q.words least shared = p.words least shared := rfl
  rw [← hverdict, ← hwords]
  let s := Supervision.initial ((Sink.empty least).writeAll 0 told).records
  have hgathers : ∃ shared'' chunks s', q.process least told inputs shared' =
        .ok ⟨s'.results.reverse, s'.announced.reverse, s'.messages, shared''⟩ ∧
      Supervision.Gathered q least shared s inputs chunks s' := by
    cases mode with
    | sequential =>
        obtain ⟨shared'', chunks, s', hrun, hgathered⟩ :=
          sequentially_gathers (p := q) least hoblivious hlimit hparsers shared shared' s
        refine ⟨shared'', chunks, s', ?_, hgathered⟩
        change (q.sequentially least inputs shared' s).map _ = _
        rw [hrun]
        rfl
    | concurrent =>
        obtain ⟨shared'', chunks, s', hrun, hgathered⟩ :=
          concurrently_gathers (p := q) least hoblivious hlimit hparsers shared shared'
            (.create (q.workerCount inputs)) s
        refine ⟨shared'', chunks, s', ?_, hgathered⟩
        change (q.concurrently least inputs (.create (q.workerCount inputs)) shared' s).map _ = _
        rw [hrun]
        rfl
  obtain ⟨shared'', chunks, s', hprocess, hgathered⟩ := hgathers
  refine ⟨_, hprocess, ?_, ?_, hgathered.interleaves htold⟩
  · rw [hgathered.results]
    simp [s, Supervision.initial]
  · rw [hgathered.announced]
    simp [s, Supervision.initial]

end Processor

end MacroForest
