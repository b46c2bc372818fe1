/-
**The threshold of a sink.**

A report asks its sink which severities are heard, in the middle of its decisions: whether to tell
of a refusal at all, and whether a detail follows a message that was passed on.  So it is not clear
that a sink with a higher threshold gets just the messages that are severe enough.

It does.  A detail that is missing because the message before it was not heard is below the
threshold itself, and nothing else depends on what was heard.  A sink of a higher threshold is
*muted*: it holds the messages of the other one that are severe enough.  Two expansions that differ
in this only are in lockstep, and the state of one of them is that of the other one, muted.

Main definitions:

* `MacroForest.Message.reaches` — the message is severe enough for a threshold;
* `MacroForest.Sink.muted`, `MacroForest.State.muted` — the same with a higher threshold;
* `MacroForest.Lockstep.muted` — an expansion in lockstep with itself, muted.

Main results:

* `MacroForest.Hearing.filter_told` — **reports are the same above the threshold**;
* `MacroForest.Expander.expandForest_muted` — **a threshold changes only the messages heard**.
-/

import MacroForest.Proofs.Expansion.Lockstep
import MacroForest.Proofs.Macro.Report

set_option relaxedAutoImplicit false
set_option autoImplicit false

namespace MacroForest

variable {σ : Type}

/-! ### Reports -/

/-- The severities that a threshold lets pass. -/
def Severity.passes (least s : Severity) : Bool := decide (least ≤ s)

/-- The message is severe enough for a threshold. -/
def Message.reaches (least : Severity) (m : Message) : Bool := least.passes m.severity

theorem Severity.passes_detail : Severity.passes .detail = fun _ => true := by
  funext s
  exact decide_eq_true (Nat.zero_le s.rank)

/-- A threshold lets details pass only if it lets everything pass. -/
theorem Severity.eq_detail_of_passes {least : Severity} (h : least.passes .detail = true) :
    least = .detail := by
  have hle : least.rank ≤ 0 := of_decide_eq_true h
  cases least with
  | detail => rfl
  | verbose | debug | warning | error => exact absurd hle (by decide)

section Reports

variable (least : Severity)

/-- Above a threshold that stops details, it does not matter which messages a detail follows. -/
theorem filter_passedOn_of_stops (hdetail : least.passes .detail = false)
    (all follows follows' : Bool) (ms : List Message) :
    (passedOn (fun _ => true) all follows ms).filter (·.reaches least) =
      (passedOn least.passes all follows' ms).filter (·.reaches least) := by
  induction ms generalizing follows follows' with
  | nil => rfl
  | cons m ms ih =>
      unfold passedOn
      dsimp only
      by_cases hm : m.severity = .detail
      · -- the message itself is stopped
        have hstopped : m.reaches least = false := by rw [Message.reaches, hm, hdetail]
        rw [hm, hdetail, Bool.and_false, if_neg Bool.false_ne_true]
        split
        · rw [List.filter_cons_of_neg (by simp [hstopped])]
          exact ih true false
        · exact ih false false
      · have hfollows : ∀ follows, (m.severity == .detail && follows) = false := by simp [hm]
        rw [hfollows, hfollows, Bool.and_true]
        cases hwanted : all || decide (.warning ≤ m.severity) || false with
        | false => exact ih false false
        | true =>
            rw [Bool.true_and, if_pos rfl]
            cases hheard : least.passes m.severity with
            | false =>
                rw [List.filter_cons_of_neg (by simp [Message.reaches, hheard])]
                exact ih true false
            | true =>
                have hreaches : m.reaches least = true := hheard
                rw [if_pos rfl, List.filter_cons_of_pos hreaches, List.filter_cons_of_pos hreaches,
                  ih true true]

theorem filter_passedOn (all : Bool) (ms : List Message) :
    (passedOn (fun _ => true) all true ms).filter (·.reaches least) =
      (passedOn least.passes all true ms).filter (·.reaches least) := by
  cases hdetail : least.passes .detail with
  | false => exact filter_passedOn_of_stops least hdetail all true true ms
  | true => rw [Severity.eq_detail_of_passes hdetail, Severity.passes_detail]

variable (attempts : List (Attempt σ)) (input : Node) (worst : Option Severity)

theorem filter_refusal :
    (refusal (fun _ => true) attempts input worst).filter (·.reaches least) =
      (refusal least.passes attempts input worst).filter (·.reaches least) := by
  unfold refusal
  rw [Bool.and_true]
  cases hheard : least.passes ((worst.getD .detail).max .warning) with
  | true => rw [Bool.and_true]
  | false =>
      -- what is not told is not severe enough
      rw [Bool.and_false, if_neg Bool.false_ne_true, List.filter_nil]
      split
      · refine List.filter_eq_nil_iff.2 fun m hm => ?_
        unfold reportRefusal at hm
        dsimp only at hm
        split at hm
        · simp at hm
        · rw [List.mem_singleton.1 hm, Message.reaches, hheard]
          exact Bool.false_ne_true
      · rfl

theorem filter_quoted :
    (quoted (fun _ => true) attempts input).filter (·.reaches least) =
      (quoted least.passes attempts input).filter (·.reaches least) := by
  have hquote : ∀ e : Entry σ, (Message.reaches least ∘ e.quote) = Message.reaches least :=
    fun _ => rfl
  unfold quoted
  rw [List.filter_flatMap, List.filter_flatMap]
  refine List.flatMap_congr fun a _ => ?_
  rw [List.filter_map, List.filter_map, hquote, filter_passedOn]

theorem filter_report :
    (report (fun _ => true) attempts input worst).filter (·.reaches least) =
      (report least.passes attempts input worst).filter (·.reaches least) := by
  by_cases hsilent : Silent attempts input worst
  · rw [report_of_silent _ attempts input worst hsilent,
      report_of_silent _ attempts input worst hsilent]
  · rw [report_eq _ attempts input worst hsilent, report_eq _ attempts input worst hsilent]
    simp only [List.filter_append, filter_refusal, filter_quoted]

end Reports

/-- **Reports are the same above the threshold.** -/
theorem Hearing.filter_told (least : Severity) (h : Hearing σ) :
    (h.told fun _ => true).filter (·.reaches least) =
      (h.told least.passes).filter (·.reaches least) := by
  unfold told
  cases h.stoppedBy with
  | none => exact filter_report ..
  | some e =>
      dsimp only
      rw [← List.singleton_append, ← List.singleton_append (l := report _ _ _ _),
        List.filter_append, List.filter_append, filter_report]

/-! ### Sinks and states -/

/-- The same sink with a higher threshold. -/
def Sink.muted (least : Severity) (k : Sink) : Sink :=
  ⟨least, k.kept.filter (·.message.reaches least)⟩

/-- The same state with a higher threshold. -/
def State.muted (least : Severity) (s : State σ) : State σ := { s with sink := s.sink.muted least }

namespace Sink

variable (least : Severity)

/-- What is written is kept with its time, the last message first, as far as it is severe enough. -/
theorem kept_writeAll_eq (k : Sink) (now : Nat) (ms : List Message) :
    (k.writeAll now ms).kept =
      ((ms.filter (·.reaches k.least)).map (Record.mk now)).reverse ++ k.kept := by
  induction ms generalizing k with
  | nil => rfl
  | cons m ms ih =>
      have hleast : (k.write now m).least = k.least := least_writeAll k now [m]
      refine (ih (k.write now m)).trans ?_
      rw [hleast]
      unfold write
      by_cases hkept : k.enabled m.severity = true
      · have hreaches : m.reaches k.least = true := hkept
        simp [hkept, hreaches]
      · have hreaches : ¬ m.reaches k.least = true := hkept
        simp [hkept, hreaches]

/-- What is written to a muted sink is what is written to the other one, muted, if it is the same
above the threshold. -/
theorem muted_writeAll {k : Sink} (hk : k.least = .detail) (now : Nat) {ms ms' : List Message}
    (hms : ms.filter (·.reaches least) = ms'.filter (·.reaches least)) :
    (k.muted least).writeAll now ms' = (k.writeAll now ms).muted least := by
  have hall : ms.filter (·.reaches k.least) = ms := by
    refine List.filter_eq_self.2 fun m _ => ?_
    rw [Message.reaches, hk, Severity.passes_detail]
  have hleast : ((k.muted least).writeAll now ms').least = least := least_writeAll ..
  have hkept : ((k.muted least).writeAll now ms').kept =
      (k.writeAll now ms).kept.filter (·.message.reaches least) := by
    rw [kept_writeAll_eq, kept_writeAll_eq, hall, List.filter_append, List.filter_reverse,
      List.filter_map]
    change ((ms'.filter (·.reaches least)).map _).reverse ++ _ = _
    rw [← hms]
    rfl
  calc (k.muted least).writeAll now ms'
      = ⟨((k.muted least).writeAll now ms').least, ((k.muted least).writeAll now ms').kept⟩ := rfl
    _ = (k.writeAll now ms).muted least := by rw [hleast, hkept, muted]

theorem records_muted (k : Sink) :
    (k.muted least).records = k.records.filter (·.message.reaches least) := by
  rw [records, records, muted, List.filter_reverse]

end Sink

/-! ### Expansions -/

/-- What holds of two runs that differ in the threshold only. -/
structure Muted (least : Severity) (P : Pending σ) (x y : Trail σ) : Prop where
  all : x.state.sink.least = .detail
  state : y.state = x.state.muted least
  turns : P.map (·.2) = P.map (·.1)

namespace Muted

variable {least : Severity} {P Q : Pending σ} {x y : Trail σ}

theorem turn (h : Muted least P x y) (e : Entry σ) (node input : Node) :
    y.turn e node input = x.turn e node input := by
  rw [Trail.turn, h.state]
  rfl

theorem invoke (h : Muted least P x y) (e : Entry σ) (chain : Chain) (budget : Nat)
    (node input : Node) :
    Muted least (P ++ [(x.turn e node input, y.turn e node input)]) (x.invoke chain budget e input)
      (y.invoke chain budget e input) := by
  refine ⟨h.all, ?_, ?_⟩
  · rw [Trail.invoke, h.state]
    rfl
  · rw [List.map_append, List.map_append, h.turns, List.map_singleton, List.map_singleton, h.turn]

theorem hear (h : Muted least (P ++ Q) x y) (node : Node) (stoppedBy : Option (Entry σ)) :
    Muted least P (x.hear ⟨node, Q.map (·.1), stoppedBy⟩)
      (y.hear ⟨node, Q.map (·.2), stoppedBy⟩) := by
  have hturns := h.turns
  rw [List.map_append, List.map_append] at hturns
  obtain ⟨hP, hQ⟩ := List.append_inj hturns (by simp)
  have henabled : x.state.sink.enabled = fun _ => true := by
    rw [← Severity.passes_detail, ← h.all]
    rfl
  refine ⟨?_, ?_, hP⟩
  · rw [Trail.hear, State.writeAll, Sink.least_writeAll]
    exact h.all
  · have hwritten := Sink.muted_writeAll least h.all x.state.now
      (Hearing.filter_told least ⟨node, Q.map (·.1), stoppedBy⟩)
    rw [hQ, Trail.hear, Trail.hear, henabled, h.state]
    unfold State.muted State.writeAll
    dsimp only
    rw [← hwritten]
    rfl

end Muted

/-- An expansion in lockstep with itself, muted. -/
def Lockstep.muted (t : Expander σ) (least : Severity) : Lockstep t t where
  Entries e₁ e₂ := e₁ = e₂
  Inv := Muted least
  mode h := by rw [h]
  found h n := by
    rw [h.state]
    exact List.forall₂_same.2 fun _ _ => rfl
  token h := by
    rw [h.state]
    rfl
  openings h := by
    rw [h.state]
    rfl
  opening h := ⟨h.all, by rw [Trail.opening, h.state]; rfl, h.turns⟩
  note h event _ := ⟨h.all, h.state, h.turns⟩
  tick h := ⟨h.all, by rw [Trail.tick, h.state]; rfl, h.turns⟩
  push h := ⟨h.all, by rw [Trail.push, h.state]; rfl, h.turns⟩
  pop h := ⟨h.all, by rw [Trail.pop, h.state]; rfl, h.turns⟩
  invoke h he chain budget node input _ _ := by
    subst he
    exact h.invoke _ chain budget node input
  output h he node input := by rw [← he, h.turn]
  cancelled h he node input := by rw [← he, h.turn]
  report h node _ := h.hear node none
  stop h he node _ := by
    subst he
    exact h.hear node (some _)

/-- **A threshold changes nothing but the messages heard.** -/
theorem Expander.expandForest_muted (t : Expander σ) (least : Severity) (nodes : Forest)
    {s : State σ} (hall : s.sink.least = .detail) :
    t.expandForest nodes (s.muted least) =
      ((t.expandForest nodes s).1, (t.expandForest nodes s).2.muted least) := by
  have hstart : Muted least [] ⟨[], { s with scopes := t.rootScopes }⟩
      ⟨[], { s.muted least with scopes := t.rootScopes }⟩ := ⟨hall, rfl, rfl⟩
  obtain ⟨log₁, log₂, enough, lost, -, hanswer, hmuted, -⟩ :=
    expandForest_abreast (.muted t least) nodes rfl hstart
  exact Prod.ext hanswer hmuted.state

end MacroForest
