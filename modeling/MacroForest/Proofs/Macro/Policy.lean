/-
**What a report passes on, and what it says by itself.**

A report is computed by one pass over what the macros of a tier have written, with a flag that tells
whether the last message was passed on.  Here the outcome is described without the pass.  Of a macro
that accepted, or if the call is in bang style, all is passed on.  Otherwise a message is passed on
if it is severe; and a detail goes with the severe message before it, or with the start, unless the
macro has written something else than details in between.  Where nobody accepted a plain call and
nothing is severe, nothing is told at all.

In front of this stands what the expansion says by itself: on an ambiguity if several macros have
accepted, and on a refusal if nobody has accepted a call in bang style.  Whether outputs are the
same is settled by comparing each with the first one, and since agreement is symmetric and
transitive, this settles it for any two of them.

Main definitions:

* `MacroForest.Message.follows` — a detail belongs to what was written before it;
* `MacroForest.worthTelling`, `MacroForest.policy` — **what is told of a tier**;
* `MacroForest.AmbiguityTold` — what is said of the macros that have accepted;
* `MacroForest.Message.Refuses` — the message on a call that nobody has accepted.

Main results:

* `MacroForest.passedOn_eq_worthTelling` — the pass with a flag passes on what is worth telling;
* `MacroForest.report_eq_policy` — **a report follows the policy**;
* `MacroForest.reportAmbiguity_told`, `MacroForest.reportRefusal_refuses` — the two diagnostics.
-/

import MacroForest.Proofs.Macro.Report
import MacroForest.Proofs.Node.Equality

set_option relaxedAutoImplicit false
set_option autoImplicit false

namespace MacroForest

/-! ### Details -/

/-- Neither a detail nor severe. -/
def Message.chatty (m : Message) : Bool := m.severity == .verbose || m.severity == .debug

/-- What was written since the last severe message or since the start, the last first. -/
def sinceSevere (ms : List Message) : List Message := ms.reverse.takeWhile (!·.severe)

/-- A detail belongs to what was written before it: nothing chatty stands between it and the last
severe message or the start. -/
def Message.follows (m : Message) (before : List Message) : Bool :=
  m.severity == .detail && (sinceSevere before).all (!·.chatty)

/-- The messages of a macro that are worth telling: all of them, or the severe ones with the details
that belong to them. -/
def worthTelling (all : Bool) (ms : List Message) : List Message :=
  (ms.zipIdx.filter fun x => all || x.1.severe || x.1.follows (ms.take x.2)).map (·.1)

/-- The next message: a severe one starts anew, a detail changes nothing, all else interrupts. -/
theorem all_sinceSevere_snoc (ms : List Message) (m : Message) :
    (sinceSevere (ms ++ [m])).all (!·.chatty) =
      (m.severe || (m.severity == .detail && (sinceSevere ms).all (!·.chatty))) := by
  have hsnoc : sinceSevere (ms ++ [m]) = if m.severe then [] else m :: sinceSevere ms := by
    unfold sinceSevere
    rw [List.reverse_append, List.reverse_singleton, List.singleton_append, List.takeWhile_cons]
    cases m.severe <;> rfl
  -- a message is a detail, chatty or severe, and only one of these
  have hkinds : (m.severe = true ∧ m.chatty = false) ∨
      (m.severe = false ∧ m.chatty = !(m.severity == .detail)) := by
    unfold Message.severe Message.chatty
    cases m.severity <;> decide
  rw [hsnoc]
  rcases hkinds with ⟨hsevere, -⟩ | ⟨hmild, hchatty⟩
  · simp [hsevere]
  · simp [hmild, hchatty]

/-- What the pass passes on of the rest, by what stands before it. -/
theorem passedOn_eq_filter (before ms : List Message) :
    passedOn (fun _ => true) false ((sinceSevere before).all (!·.chatty)) ms =
      ((ms.zipIdx before.length).filter fun x =>
        x.1.severe || x.1.follows ((before ++ ms).take x.2)).map (·.1) := by
  induction ms generalizing before with
  | nil => rfl
  | cons m ms ih =>
      have hrest := ih (before ++ [m])
      rw [all_sinceSevere_snoc, List.length_append, List.length_singleton, List.append_assoc,
        List.singleton_append] at hrest
      have hhere : (before ++ m :: ms).take before.length = before := List.take_left
      rw [passedOn, List.zipIdx_cons, List.filter_cons]
      simp only [Bool.false_or, Bool.and_true, hhere, Message.follows]
      -- the flag for the rest is whether this message is passed on
      change (if (m.severe || (m.severity == .detail && (sinceSevere before).all (!·.chatty))) = true
        then _ else _) = _
      split
      · rename_i hwanted
        rw [hwanted] at hrest
        rw [List.map_cons, hrest]
        rfl
      · rename_i hwanted
        rw [Bool.eq_false_iff.2 hwanted] at hrest
        rw [hrest]
        rfl

/-- **The pass with a flag passes on what is worth telling.** -/
theorem passedOn_eq_worthTelling (all : Bool) (ms : List Message) :
    passedOn (fun _ => true) all true ms = worthTelling all ms := by
  cases all with
  | false => exact passedOn_eq_filter [] ms
  | true =>
      have hall : ∀ ms : List Message, passedOn (fun _ => true) true true ms = ms := by
        intro ms
        induction ms with
        | nil => rfl
        | cons m ms ih => simp [passedOn, ih]
      rw [hall, worthTelling]
      simp

/-! ### The policy -/

section Policy

variable {σ : Type} (attempts : List (Attempt σ)) (input : Node)

/-- Nobody accepted a plain call, and nobody has written anything severe. -/
def uneventful : Bool :=
  attempts.all (!·.accepted) && !(input.style == .bang) &&
    attempts.all (·.messages.all (!·.severe))

/-- What the macros say, each with its label. -/
def voices : List Message :=
  attempts.flatMap fun a =>
    (worthTelling (a.accepted || input.style == .bang) a.messages).map a.entry.quote

/-- What is told of a tier if everything is heard. -/
def policy : List Message :=
  if uneventful attempts input then []
  else
    reportAmbiguity attempts input ++
      (refusal (fun _ => true) attempts input (worstOf attempts) ++ voices attempts input)

variable {attempts} {input}

theorem Severity.foldl_max_mem (start : Severity) (ss : List Severity) :
    ss.foldl Severity.max start ∈ start :: ss := by
  induction ss generalizing start with
  | nil => simp
  | cons s ss ih =>
      rcases List.mem_cons.1 (ih (start.max s)) with heq | hmem
      · have hmax : start.max s = start ∨ start.max s = s := by
          unfold Severity.max
          split
          · exact .inr rfl
          · exact .inl rfl
        rw [List.foldl_cons, heq]
        rcases hmax with hmax | hmax <;> simp [hmax]
      · exact List.mem_cons_of_mem _ (List.mem_cons_of_mem _ hmem)

/-- The worst that was written is not severe if nothing is. -/
theorem worstOf_lt_warning_iff :
    (worstOf attempts).getD .detail < .warning ↔
      attempts.all (·.messages.all (!·.severe)) = true := by
  simp only [List.all_eq_true, Bool.not_eq_true']
  constructor
  · intro hlt a ha m hm
    have hle := severity_le_worstOf ha hm
    exact decide_eq_false (Nat.not_le_of_lt (Nat.lt_of_le_of_lt hle hlt))
  · intro hmild
    unfold worstOf
    cases hall : (attempts.flatMap (·.messages)).map (·.severity) with
    | nil => decide
    | cons severity severities =>
        have hmem := Severity.foldl_max_mem severity severities
        rw [← hall] at hmem
        obtain ⟨m, hm, heq⟩ := List.mem_map.1 hmem
        obtain ⟨a, ha, hm⟩ := List.mem_flatMap.1 hm
        have hsevere := of_decide_eq_false (hmild a ha m hm)
        rw [heq] at hsevere
        exact Nat.lt_of_not_le hsevere

theorem silent_iff_uneventful :
    Silent attempts input (worstOf attempts) ↔ uneventful attempts input = true := by
  rw [← silent_iff, uneventful, Bool.and_eq_true, Bool.and_eq_true (_ && _), decide_eq_true_iff,
    worstOf_lt_warning_iff]

theorem quoted_eq_voices : quoted (fun _ => true) attempts input = voices attempts input := by
  simp only [quoted, voices, passedOn_eq_worthTelling]

/-- Nobody is ambiguous where nobody accepts. -/
theorem reportAmbiguity_of_unclaimed (h : attempts.all (!·.accepted) = true) :
    reportAmbiguity attempts input = [] := by
  have hnone : attempts.filter (·.accepted) = [] := by
    refine List.filter_eq_nil_iff.2 fun a ha haccepted => ?_
    have := List.all_eq_true.1 h a ha
    simp [haccepted] at this
  simp [reportAmbiguity, hnone]

theorem mem_of_mem_passedOn {enabled : Severity → Bool} {all follows : Bool} {m : Message}
    {ms : List Message} (h : m ∈ passedOn enabled all follows ms) : m ∈ ms := by
  induction ms generalizing follows with
  | nil => exact h
  | cons m' ms ih =>
      unfold passedOn at h
      dsimp only at h
      split at h
      · rcases List.mem_cons.1 h with rfl | h
        · exact List.mem_cons_self
        · exact List.mem_cons_of_mem _ (ih h)
      · exact List.mem_cons_of_mem _ (ih h)

/-- Behind what is said of an ambiguity there is a refusal, and what the macros have written. -/
theorem report_ambiguity_first (enabled : Severity → Bool) (attempts : List (Attempt σ))
    (input : Node) (worst : Option Severity) :
    ∃ others, report enabled attempts input worst = reportAmbiguity attempts input ++ others ∧
      ∀ m ∈ others, m.IsRefusal σ ∨ ∃ a ∈ attempts, ∃ m' ∈ a.messages, m = a.entry.quote m' := by
  by_cases hsilent : Silent attempts input worst
  · exact ⟨[], by rw [report_of_silent _ _ _ _ hsilent, List.append_nil], List.forall_mem_nil _⟩
  refine ⟨_, report_eq _ _ _ _ hsilent, fun m hm => ?_⟩
  rcases List.mem_append.1 hm with hm | hm
  · unfold refusal at hm
    split at hm
    · exact .inl ⟨attempts, input, _, hm⟩
    · simp at hm
  · obtain ⟨a, ha, hm⟩ := List.mem_flatMap.1 hm
    obtain ⟨m', hm', rfl⟩ := List.mem_map.1 hm
    exact .inr ⟨a, ha, m', mem_of_mem_passedOn hm', rfl⟩

/-- **A report follows the policy**, if everything is heard. -/
theorem report_eq_policy {enabled : Severity → Bool} (henabled : ∀ s, enabled s = true) :
    report enabled attempts input (worstOf attempts) = policy attempts input := by
  obtain rfl : enabled = fun _ => true := funext henabled
  unfold policy
  split
  · rename_i huneventful
    have hsilent := silent_iff_uneventful.2 huneventful
    rw [report_of_silent _ _ _ _ hsilent, reportAmbiguity_of_unclaimed hsilent.unclaimed]
  · rename_i heventful
    rw [report_eq _ _ _ _ fun hsilent => heventful (silent_iff_uneventful.1 hsilent),
      quoted_eq_voices]

end Policy

/-! ### Labels -/

/-- What a diagnostic can call a macro: its label, with a place behind it if others share it. -/
def Entry.Called {σ : Type} (e : Entry σ) (label : String) : Prop :=
  label = e.label ∨ ∃ place : Nat, label = e.label ++ "#" ++ toString place

section Labels

variable {σ : Type} (attempts : List (Attempt σ))

/-- There is one label for each attempt that passes the test, in their order. -/
theorem labelsOf_called (keep : Attempt σ → Bool) :
    List.Forall₂ (fun a label => a.entry.Called label) (attempts.filter keep)
      (labelsOf attempts keep) := by
  have hkept : attempts.filter keep = (attempts.zipIdx.filter (keep ·.1)).map (·.1) := by
    have hmap := List.filter_map (f := Prod.fst) (p := keep) (l := attempts.zipIdx)
    rw [List.zipIdx_map_fst] at hmap
    exact hmap
  rw [hkept, labelsOf, List.forall₂_map_left_iff, List.forall₂_map_right_iff]
  refine List.forall₂_same.2 fun x _ => ?_
  unfold labelAt
  dsimp only
  split
  · exact .inr ⟨x.2 + 1, rfl⟩
  · exact .inl rfl

end Labels

/-! ### Refusals -/

/-- The message says of a call that nobody has accepted it, and names some attempts. -/
def Message.Refuses {σ : Type} (m : Message) (node : Node) (named : List (Attempt σ)) : Prop :=
  m.context = node ∧ ∃ (seen : Nat) (labels : List String),
    List.Forall₂ (fun a label => a.entry.Called label) named labels ∧
    m.text = toString seen ++ " macro(s) saw the input and declined to process it: " ++
      ", ".intercalate labels

section Refusals

variable {σ : Type} (attempts : List (Attempt σ)) (input : Node)

/-- A refusal names all attempts of macros that were expected to accept; without any, there is
none. -/
theorem reportRefusal_refuses (severity : Severity) :
    (attempts.filter (·.refused) = [] ∧ reportRefusal attempts input severity = []) ∨
      (attempts.filter (·.refused) ≠ [] ∧ ∃ m, reportRefusal attempts input severity = [m] ∧
        m.Refuses input (attempts.filter (·.refused))) := by
  have hcalled := labelsOf_called attempts (·.refused)
  unfold reportRefusal
  dsimp only
  split
  · rename_i hempty
    rw [List.isEmpty_iff.1 hempty] at hcalled
    exact .inl ⟨List.forall₂_nil_right_iff.1 hcalled, rfl⟩
  · rename_i hsome
    refine .inr ⟨fun hnil => ?_, _, rfl, rfl, _, _, hcalled, rfl⟩
    rw [hnil, List.forall₂_nil_left_iff] at hcalled
    exact hsome (List.isEmpty_iff.2 hcalled)

end Refusals

/-! ### Ambiguities -/

/-- Whether outputs agree is settled by comparing them with the first one. -/
theorem outputsAgree_iff (outputs : List Node) :
    outputsAgree outputs = true ↔ outputs.Pairwise fun a b => (a == b) = true := by
  cases outputs with
  | nil => simp [outputsAgree]
  | cons first rest =>
      rw [outputsAgree, List.all_eq_true, List.pairwise_cons]
      constructor
      · intro hfirst
        refine ⟨fun b hb => Node.agree_symm (hfirst b hb), ?_⟩
        refine List.pairwise_of_forall_mem_list fun a ha b hb => ?_
        exact Node.agree_trans (hfirst a ha) (Node.agree_symm (hfirst b hb))
      · intro hpairwise b hb
        exact Node.agree_symm (hpairwise.1 b hb)

/-- What is said of the macros that have accepted: nothing of one alone, and nothing of several
whose outputs agree if one of them allows duplicates.  Otherwise it is one message on the input,
with the number of the acceptors and a label for each: a warning if the outputs agree, an error if
two of them do not. -/
structure AmbiguityTold {σ : Type} (attempts : List (Attempt σ)) (input : Node)
    (ms : List Message) : Prop where
  alone : (attempts.filter (·.accepted)).length < 2 → ms = []
  allowed : (attempts.filterMap (·.output)).Pairwise (fun a b => (a == b) = true) →
    (∃ a ∈ attempts, a.accepted = true ∧ a.entry.mode.allowDuplicates = true) → ms = []
  alike : 2 ≤ (attempts.filter (·.accepted)).length →
    (attempts.filterMap (·.output)).Pairwise (fun a b => (a == b) = true) →
    (∀ a ∈ attempts, a.accepted = true → a.entry.mode.allowDuplicates = false) →
    ∃ labels,
      List.Forall₂ (fun a label => a.entry.Called label) (attempts.filter (·.accepted)) labels ∧
      ms = [⟨.warning, input, "Ambiguous macro call. " ++
        toString (attempts.filter (·.accepted)).length ++
        " macros accepted the input and produced identical results: " ++ ", ".intercalate labels⟩]
  different : ¬ (attempts.filterMap (·.output)).Pairwise (fun a b => (a == b) = true) →
    ∃ labels,
      List.Forall₂ (fun a label => a.entry.Called label) (attempts.filter (·.accepted)) labels ∧
      ms = [⟨.error, input, "Ambiguous macro call. " ++
        toString (attempts.filter (·.accepted)).length ++
        " macros accepted the input: " ++ ", ".intercalate labels⟩]

section Ambiguities

variable {σ : Type} (attempts : List (Attempt σ)) (input : Node)

theorem filterMap_output_filter :
    (attempts.filter (·.accepted)).filterMap (·.output) = attempts.filterMap (·.output) := by
  rw [List.filterMap_filter]
  refine List.filterMap_congr fun a _ => ?_
  unfold Attempt.accepted
  cases a.output <;> rfl

theorem length_filterMap_output :
    (attempts.filterMap (·.output)).length = (attempts.filter (·.accepted)).length := by
  induction attempts with
  | nil => rfl
  | cons a attempts ih =>
      rw [List.filterMap_cons, List.filter_cons]
      unfold Attempt.accepted at ih ⊢
      cases a.output with
      | none => exact ih
      | some output => exact congrArg (· + 1) ih

/-- Outputs that do not agree are two at least. -/
theorem two_le_of_not_pairwise {outputs : List Node}
    (h : ¬ outputs.Pairwise fun a b => (a == b) = true) : 2 ≤ outputs.length := by
  by_contra hfew
  match outputs, hfew with
  | [], _ => exact h .nil
  | [a], _ => exact h (List.pairwise_singleton _ a)
  | _ :: _ :: _, hfew => exact hfew (by simp)

/-- **What is said of the macros that have accepted.** -/
theorem reportAmbiguity_told : AmbiguityTold attempts input (reportAmbiguity attempts input) := by
  have hlabels := labelsOf_called attempts (·.accepted)
  have hagree := outputsAgree_iff (attempts.filterMap (·.output))
  have hallowed : (attempts.filter (·.accepted)).any (·.entry.mode.allowDuplicates) = true ↔
      ∃ a ∈ attempts, a.accepted = true ∧ a.entry.mode.allowDuplicates = true := by
    simp [List.any_eq_true]
  refine ⟨fun hfew => ?_, fun hsame hallow => ?_, fun hmany hsame hnone => ?_, fun hdiffer => ?_⟩
  · exact if_pos (Nat.le_of_lt_succ hfew)
  · unfold reportAmbiguity
    dsimp only
    rw [filterMap_output_filter, hagree.2 hsame, hallowed.2 hallow]
    simp
  · refine ⟨_, hlabels, ?_⟩
    have hnot : (attempts.filter (·.accepted)).any (·.entry.mode.allowDuplicates) = false := by
      rw [Bool.eq_false_iff, ne_eq, hallowed]
      rintro ⟨a, ha, haccepted, hallow⟩
      rw [hnone a ha haccepted] at hallow
      cases hallow
    unfold reportAmbiguity
    dsimp only
    rw [if_neg (by omega), filterMap_output_filter, hagree.2 hsame, hnot]
    rfl
  · refine ⟨_, hlabels, ?_⟩
    have hmany := two_le_of_not_pairwise hdiffer
    rw [length_filterMap_output] at hmany
    unfold reportAmbiguity
    dsimp only
    rw [if_neg (by omega), filterMap_output_filter, if_neg fun hsame => hdiffer (hagree.1 hsame)]

end Ambiguities

end MacroForest
