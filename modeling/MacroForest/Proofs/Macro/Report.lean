/-
**What a report holds.**

A report is put together from an ambiguity, a refusal and what the macros have written.  The first
two are the expansion's own, and the last is passed on with the label of its macro.  Two questions
about it come up.  One is whether anything severe is held back: it is not, and each severe message
is there once.  The other is what becomes of a report if some macros write an error more in the end,
as those do that fail instead of declining.  Their errors are added, and there are two effects
besides.  Errors break the silence on a tier that has nothing severe to say, and then the details
that the macros began with are passed on as well.  And the refusal of a call in bang style is as
severe as the worst that was written, so it is raised to an error.

Main definitions:

* `MacroForest.Message.severe` — a warning or an error;
* `MacroForest.Message.FromEngine` — a message that is no macro's;
* `MacroForest.Silent`, `MacroForest.refusal`, `MacroForest.quoted` — the parts of a report;
* `MacroForest.openingDetails` — the details that the macros have begun with;
* `MacroForest.Attempt.Adds` — an attempt with errors added in the end.

Main results:

* `MacroForest.report_eq` — a report by its parts;
* `MacroForest.severe_report` — **what is severe is told once**;
* `MacroForest.report_adds` — **what errors add to a report**.
-/

import Mathlib.Data.List.Count
import Mathlib.Data.List.Perm.Basic
import Mathlib.Data.List.TakeWhile
import MacroForest.Expansion.Consult
import MacroForest.Proofs.Node.Shape

set_option relaxedAutoImplicit false
set_option autoImplicit false

namespace MacroForest

deriving instance DecidableEq for Message

/-! ### Severities -/

namespace Severity

theorem le_error (s : Severity) : s ≤ .error := by cases s <;> decide

theorem le_trans {a b c : Severity} (h : a ≤ b) (h' : b ≤ c) : a ≤ c := Nat.le_trans h h'

theorem le_max_left (a b : Severity) : a ≤ a.max b := by cases a <;> cases b <;> decide

theorem le_max_right (a b : Severity) : b ≤ a.max b := by cases a <;> cases b <;> decide

theorem le_foldl_max {ss : List Severity} {start s : Severity} (h : s ≤ start ∨ s ∈ ss) :
    s ≤ ss.foldl max start := by
  induction ss generalizing start with
  | nil =>
      rcases h with h | h
      · exact h
      · simp at h
  | cons t ss ih =>
      refine ih ?_
      rcases h with h | h
      · exact .inl (le_trans h (le_max_left start t))
      · rcases List.mem_cons.1 h with rfl | h
        · exact .inl (le_max_right start s)
        · exact .inr h

theorem le_maximum? {ss : List Severity} {s : Severity} (h : s ∈ ss) :
    s ≤ (maximum? ss).getD .detail := by
  cases ss with
  | nil => simp at h
  | cons t ss =>
      refine le_foldl_max ?_
      rcases List.mem_cons.1 h with rfl | h
      · exact .inl (Nat.le_refl _)
      · exact .inr h

theorem eq_error_of_le {s : Severity} (h : .error ≤ s) : s = .error := by
  cases s
  case error => rfl
  all_goals exact absurd h (by decide)

/-- If an error is there, it is the most severe. -/
theorem maximum?_of_error {ss : List Severity} (h : .error ∈ ss) : maximum? ss = some .error := by
  have hle := le_maximum? h
  cases hmax : maximum? ss with
  | none => exact absurd (hmax ▸ hle) (by decide)
  | some s =>
      rw [hmax] at hle
      have hs : s = .error := eq_error_of_le hle
      rw [hs]

end Severity

theorem severity_le_worstOf {σ : Type} {attempts : List (Attempt σ)} {a : Attempt σ} {m : Message}
    (ha : a ∈ attempts) (hm : m ∈ a.messages) : m.severity ≤ (worstOf attempts).getD .detail :=
  Severity.le_maximum? (List.mem_map.2 ⟨m, List.mem_flatMap.2 ⟨a, ha, hm⟩, rfl⟩)

/-- A warning or an error. -/
def Message.severe (m : Message) : Bool := decide (.warning ≤ m.severity)

/-- A message of a macro, as it is passed on. -/
def Entry.quote {σ : Type} (e : Entry σ) (m : Message) : Message :=
  { m with text := e.label ++ ": " ++ m.text }

/-! ### Messages that are passed on -/

section PassedOn

variable {enabled : Severity → Bool}

/-- What is severe is passed on, if it is heard. -/
theorem filter_severe_passedOn (henabled : ∀ s, .warning ≤ s → enabled s = true)
    (all follows : Bool) (ms : List Message) :
    (passedOn enabled all follows ms).filter Message.severe = ms.filter Message.severe := by
  induction ms generalizing follows with
  | nil => rfl
  | cons m ms ih =>
      unfold passedOn
      by_cases hsevere : m.severe = true
      · have hle : .warning ≤ m.severity := of_decide_eq_true hsevere
        simp [hle, henabled m.severity hle, hsevere, ih]
      · rw [List.filter_cons_of_neg hsevere]
        dsimp only
        split
        · rw [List.filter_cons_of_neg hsevere, ih]
        · exact ih false

/-- Errors that are added in the end are passed on. -/
theorem passedOn_append_errors (herror : enabled .error = true) (all follows : Bool)
    (ms : List Message) {fs : List Message} (hfs : ∀ m ∈ fs, m.severity = .error) :
    passedOn enabled all follows (ms ++ fs) = passedOn enabled all follows ms ++ fs := by
  induction ms generalizing follows with
  | nil =>
      induction fs generalizing follows with
      | nil => rfl
      | cons f fs ih =>
          have hf := hfs f (by simp)
          have hle : Severity.warning ≤ .error := by decide
          have := ih (fun m hm => hfs m (List.mem_cons_of_mem f hm)) true
          simpa [passedOn, hf, hle, herror] using this
  | cons m ms ih =>
      rw [List.cons_append, passedOn, passedOn]
      split
      · rw [ih, List.cons_append]
      · exact ih false

/-- Of what is not severe nothing is passed on any more when a message was not. -/
theorem passedOn_stays_silent {ms : List Message} (hms : ∀ m ∈ ms, m.severity < .warning) :
    passedOn enabled false false ms = [] := by
  induction ms with
  | nil => rfl
  | cons m ms ih =>
      obtain ⟨hm, hms⟩ := List.forall_mem_cons.1 hms
      have hmild : ¬ Severity.warning ≤ m.severity := Nat.not_le_of_lt hm
      simp [passedOn, hmild, ih hms]

/-- If nothing is severe and not everything is passed on, then only the details in front are. -/
theorem passedOn_mild {ms : List Message} (hms : ∀ m ∈ ms, m.severity < .warning) :
    passedOn enabled false true ms =
      (ms.takeWhile (·.severity == .detail)).filter (enabled ·.severity) := by
  induction ms with
  | nil => rfl
  | cons m ms ih =>
      obtain ⟨hm, hms⟩ := List.forall_mem_cons.1 hms
      have hmild : ¬ Severity.warning ≤ m.severity := Nat.not_le_of_lt hm
      have hsilent : passedOn enabled false false ms = [] := passedOn_stays_silent hms
      by_cases hdetail : m.severity = .detail
      · cases henabled : enabled .detail with
        | true => simp [passedOn, hdetail, henabled, ih hms]
        | false =>
            -- none of the details is heard
            have hunheard : ∀ m' ∈ ms.takeWhile (·.severity == .detail),
                ¬ enabled m'.severity = true := by
              intro m' hm'
              have hsame := List.mem_takeWhile_imp hm'
              rw [eq_of_beq hsame, henabled]
              exact Bool.false_ne_true
            have hnone := List.filter_eq_nil_iff.2 hunheard
            simp [passedOn, hdetail, henabled, hsilent, hnone]
      · simp [passedOn, hdetail, hmild, hsilent]

end PassedOn

/-! ### The parts of a report -/

section Parts

variable {σ : Type} (enabled : Severity → Bool) (attempts : List (Attempt σ)) (input : Node)
  (worst : Option Severity)

/-- Nobody accepted, the call is not in bang style, and nothing severe was written. -/
structure Silent : Prop where
  unclaimed : attempts.all (!·.accepted) = true
  plain : (input.style == .bang) = false
  mild : worst.getD .detail < .warning

/-- The refusal of a call in bang style, as severe as the worst that was written. -/
def refusal : List Message :=
  if attempts.all (!·.accepted) && input.style == .bang &&
      enabled ((worst.getD .detail).max .warning) then
    reportRefusal attempts input ((worst.getD .detail).max .warning)
  else []

/-- What the macros have written, as far as it is passed on. -/
def quoted : List Message :=
  attempts.flatMap fun a =>
    (passedOn enabled (a.accepted || input.style == .bang) true a.messages).map a.entry.quote

/-- The details that the macros have begun with, as far as they are heard. -/
def openingDetails : List Message :=
  attempts.flatMap fun a =>
    ((a.messages.takeWhile (·.severity == .detail)).filter (enabled ·.severity)).map a.entry.quote

theorem silent_iff : (attempts.all (!·.accepted) && !(input.style == .bang) &&
    decide (worst.getD .detail < .warning)) = true ↔ Silent attempts input worst := by
  rw [Bool.and_eq_true, Bool.and_eq_true, Bool.not_eq_true', decide_eq_true_iff]
  exact ⟨fun h => ⟨h.1.1, h.1.2, h.2⟩, fun h => ⟨⟨h.unclaimed, h.plain⟩, h.mild⟩⟩

theorem not_silent_of_error : ¬ Silent attempts input (some .error) :=
  fun h => absurd h.mild (by decide)

instance : Decidable (Silent attempts input worst) :=
  decidable_of_iff _ (silent_iff attempts input worst)

theorem report_of_silent (h : Silent attempts input worst) :
    report enabled attempts input worst = reportAmbiguity attempts input := by
  unfold report
  dsimp only
  rw [if_pos ((silent_iff attempts input worst).2 h), List.append_nil]

theorem report_eq (h : ¬ Silent attempts input worst) :
    report enabled attempts input worst =
      reportAmbiguity attempts input ++
        (refusal enabled attempts input worst ++ quoted enabled attempts input) := by
  unfold report refusal
  dsimp only
  rw [if_neg fun hsilent => h ((silent_iff attempts input worst).1 hsilent)]
  have hquote : ∀ e : Entry σ, (fun m : Message => { m with text := e.label ++ ": " ++ m.text }) =
      e.quote := fun _ => rfl
  cases hbang : input.style == .bang <;> simp [quoted, hbang, hquote]

/-- Where a report is silent, only details would be passed on. -/
theorem quoted_of_silent (h : Silent attempts input worst)
    (hworst : ∀ a ∈ attempts, ∀ m ∈ a.messages, m.severity ≤ worst.getD .detail) :
    quoted enabled attempts input = openingDetails enabled attempts := by
  unfold quoted openingDetails
  refine List.flatMap_congr fun a ha => ?_
  have hdeclined : a.accepted = false := by simpa using List.all_eq_true.1 h.unclaimed a ha
  have hmild : ∀ m ∈ a.messages, m.severity < .warning :=
    fun m hm => Nat.lt_of_le_of_lt (hworst a ha m hm) h.mild
  rw [hdeclined, h.plain, Bool.or_false, passedOn_mild hmild]

end Parts

/-- A message on a call that nobody accepted. -/
def Message.IsRefusal (σ : Type) (m : Message) : Prop :=
  ∃ (attempts : List (Attempt σ)) (input : Node) (severity : Severity),
    m ∈ reportRefusal attempts input severity

/-- A message that the expansion itself sends: on an ambiguity, on a refusal, or on a macro that
asked for the expansion to stop. -/
def Message.FromEngine (σ : Type) (m : Message) : Prop :=
  (∃ (attempts : List (Attempt σ)) (input : Node), m ∈ reportAmbiguity attempts input) ∨
    m.IsRefusal σ ∨ ∃ (e : Entry σ) (node : Node), m = cancelMessage e node

section Severe

variable {σ : Type} {enabled : Severity → Bool} {attempts : List (Attempt σ)} {input : Node}
  {worst : Option Severity}

theorem fromEngine_of_mem_refusal {m : Message} (h : m ∈ refusal enabled attempts input worst) :
    m.FromEngine σ := by
  unfold refusal at h
  split at h
  · exact .inr (.inl ⟨attempts, input, _, h⟩)
  · simp at h

/-- A refusal is there only if it is heard. -/
theorem enabled_of_mem_refusal {m : Message} (h : m ∈ refusal enabled attempts input worst) :
    enabled m.severity = true := by
  unfold refusal at h
  split at h
  · rename_i hrefused
    unfold reportRefusal at h
    dsimp only at h
    split at h
    · simp at h
    · rw [List.mem_singleton.1 h]
      exact (Bool.and_eq_true_iff.1 hrefused).2
  · simp at h

theorem enabled_of_mem_openingDetails {m : Message} (h : m ∈ openingDetails enabled attempts) :
    enabled m.severity = true := by
  obtain ⟨a, -, hm⟩ := List.mem_flatMap.1 h
  obtain ⟨m', hm', rfl⟩ := List.mem_map.1 hm
  exact (List.mem_filter.1 hm').2

theorem filter_severe_quoted (henabled : ∀ s, .warning ≤ s → enabled s = true) :
    (quoted enabled attempts input).filter Message.severe =
      attempts.flatMap fun a => (a.messages.filter Message.severe).map a.entry.quote := by
  have hquote : ∀ e : Entry σ, Message.severe ∘ e.quote = Message.severe := fun _ => rfl
  unfold quoted
  rw [List.filter_flatMap]
  refine List.flatMap_congr fun a _ => ?_
  rw [List.filter_map, hquote, filter_severe_passedOn henabled]

/-- **What is severe is told once**: the severe messages of a report are those that the macros have
written, with their labels, and some that the expansion itself sends. -/
theorem severe_report (henabled : ∀ s, .warning ≤ s → enabled s = true)
    (hworst : ∀ a ∈ attempts, ∀ m ∈ a.messages, m.severity ≤ worst.getD .detail) :
    ∃ own : List Message, (∀ m ∈ own, m.FromEngine σ) ∧
      ((report enabled attempts input worst).filter Message.severe).Perm
        ((attempts.flatMap fun a => (a.messages.filter Message.severe).map a.entry.quote) ++
          own) := by
  by_cases hsilent : Silent attempts input worst
  · -- nothing severe was written
    have hquiet : ∀ a ∈ attempts, a.messages.filter Message.severe = [] := by
      intro a ha
      refine List.filter_eq_nil_iff.2 fun m hm hsevere => ?_
      have hle : .warning ≤ m.severity := of_decide_eq_true hsevere
      exact Nat.not_le_of_lt hsilent.mild (Severity.le_trans hle (hworst a ha m hm))
    refine ⟨(reportAmbiguity attempts input).filter Message.severe, fun m hm => ?_, ?_⟩
    · exact .inl ⟨attempts, input, (List.mem_filter.1 hm).1⟩
    · rw [report_of_silent enabled attempts input worst hsilent]
      have hnil : (attempts.flatMap fun a => (a.messages.filter Message.severe).map a.entry.quote) =
          [] := by
        refine List.flatMap_eq_nil_iff.2 fun a ha => ?_
        rw [hquiet a ha, List.map_nil]
      rw [hnil, List.nil_append]
  · refine ⟨(reportAmbiguity attempts input ++ refusal enabled attempts input worst).filter
      Message.severe, fun m hm => ?_, ?_⟩
    · rcases List.mem_append.1 (List.mem_filter.1 hm).1 with hm | hm
      · exact .inl ⟨attempts, input, hm⟩
      · exact fromEngine_of_mem_refusal hm
    · rw [report_eq enabled attempts input worst hsilent, ← List.append_assoc, List.filter_append,
        filter_severe_quoted henabled]
      exact List.perm_append_comm

end Severe

/-! ### Reports of attempts with errors added -/

/-- The attempt is the other one, of a macro of the same label and mode, with some errors added in
the end. -/
structure Attempt.Adds {σ : Type} (errors : List Message) (a b : Attempt σ) : Prop where
  label : b.entry.label = a.entry.label
  mode : b.entry.mode = a.entry.mode
  output : b.output = a.output
  messages : a.messages = b.messages ++ errors
  severity : ∀ m ∈ errors, m.severity = .error

section Adds

variable {σ ι : Type} {f g : ι → Attempt σ} {errors : ι → List Message} {enabled : Severity → Bool}

theorem labelsOf_adds (h : ∀ i, (f i).Adds (errors i) (g i)) (is : List ι)
    (keep : Attempt σ → Bool) (hkeep : ∀ i, keep (g i) = keep (f i)) :
    labelsOf (is.map g) keep = labelsOf (is.map f) keep := by
  have hlabel : ∀ i, (g i).entry.label = (f i).entry.label := fun i => (h i).label
  simp only [labelsOf, labelAt, List.zipIdx_map, List.filter_map, List.map_map, List.countP_map,
    Function.comp_def, Prod.map_fst, Prod.map_snd, hlabel, hkeep]

theorem reportAmbiguity_adds (h : ∀ i, (f i).Adds (errors i) (g i)) (is : List ι) (input : Node) :
    reportAmbiguity (is.map g) input = reportAmbiguity (is.map f) input := by
  have hmode : ∀ i, (g i).entry.mode = (f i).entry.mode := fun i => (h i).mode
  have houtput : ∀ i, (g i).output = (f i).output := fun i => (h i).output
  have hlabels := labelsOf_adds h is (·.accepted) fun i => by
    rw [Attempt.accepted, Attempt.accepted, houtput]
  simp only [reportAmbiguity, hlabels]
  simp only [List.filter_map, List.length_map, List.filterMap_map, List.any_map, Function.comp_def,
    Attempt.accepted, houtput, hmode]

theorem reportRefusal_adds (h : ∀ i, (f i).Adds (errors i) (g i)) (is : List ι) (input : Node)
    (severity : Severity) :
    reportRefusal (is.map g) input severity = reportRefusal (is.map f) input severity := by
  have hlabels := labelsOf_adds h is (·.refused) fun i => by
    rw [Attempt.refused, Attempt.refused, (h i).output, (h i).mode]
  simp only [reportRefusal, hlabels, List.length_map]

theorem all_not_accepted_adds (h : ∀ i, (f i).Adds (errors i) (g i)) (is : List ι) :
    (is.map g).all (!·.accepted) = (is.map f).all (!·.accepted) := by
  have houtput : ∀ i, (g i).output = (f i).output := fun i => (h i).output
  simp only [List.all_map, Function.comp_def, Attempt.accepted, houtput]

/-- What is passed on has the errors added. -/
theorem quoted_adds (h : ∀ i, (f i).Adds (errors i) (g i)) (herror : enabled .error = true)
    (is : List ι) (input : Node) :
    (quoted enabled (is.map f) input).Perm (quoted enabled (is.map g) input ++
      is.flatMap fun i => (errors i).map (f i).entry.quote) := by
  have hquote : ∀ i, (g i).entry.quote = (f i).entry.quote := by
    intro i
    funext m
    rw [Entry.quote, Entry.quote, (h i).label]
  have hone : ∀ i, (passedOn enabled ((f i).accepted || input.style == .bang) true
      (f i).messages).map (f i).entry.quote =
      (passedOn enabled ((g i).accepted || input.style == .bang) true (g i).messages).map
        (g i).entry.quote ++ (errors i).map (f i).entry.quote := by
    intro i
    rw [hquote, ← List.map_append, Attempt.accepted, Attempt.accepted, (h i).output, (h i).messages,
      passedOn_append_errors herror _ _ _ (h i).severity]
  simp only [quoted, List.flatMap_map, hone]
  exact (List.flatMap_append_perm is _ _).symm

theorem refusal_adds (h : ∀ i, (f i).Adds (errors i) (g i)) (is : List ι) (input : Node)
    (worst : Option Severity) :
    refusal enabled (is.map g) input worst = refusal enabled (is.map f) input worst := by
  simp only [refusal, all_not_accepted_adds h is, reportRefusal_adds h is input]

theorem silent_adds (h : ∀ i, (f i).Adds (errors i) (g i)) (is : List ι) {input : Node}
    {worst : Option Severity} :
    Silent (is.map g) input worst ↔ Silent (is.map f) input worst := by
  rw [← silent_iff, ← silent_iff, all_not_accepted_adds h is]

/-- If the worst is the same in both cases, errors are added and nothing else. -/
theorem report_adds_only (h : ∀ i, (f i).Adds (errors i) (g i)) (herror : enabled .error = true)
    (is : List ι) (input : Node) (worst : Option Severity)
    (hsilent : Silent (is.map f) input worst → ∀ i ∈ is, errors i = []) :
    (report enabled (is.map f) input worst).Perm (report enabled (is.map g) input worst ++
      is.flatMap fun i => (errors i).map (f i).entry.quote) := by
  have hambiguity := reportAmbiguity_adds h is input
  by_cases hsilent' : Silent (is.map f) input worst
  · have hnothing : (is.flatMap fun i => (errors i).map (f i).entry.quote) = [] :=
      List.flatMap_eq_nil_iff.2 fun i hi => by rw [hsilent hsilent' i hi, List.map_nil]
    rw [report_of_silent enabled _ input worst hsilent',
      report_of_silent enabled _ input worst ((silent_adds h is).2 hsilent'), hambiguity, hnothing,
      List.append_nil]
  · rw [report_eq enabled _ input worst hsilent',
      report_eq enabled _ input worst fun hg => hsilent' ((silent_adds h is).1 hg), hambiguity,
      refusal_adds h is input, List.append_assoc, List.append_assoc]
    exact .append_left _ (.append_left _ (quoted_adds h herror is input))

/-- **What an error adds to a report.**  Besides the errors, the refusal is raised; and where
nothing would have been told, the details that the macros have begun with are told. -/
theorem report_adds (h : ∀ i, (f i).Adds (errors i) (g i)) (herror : enabled .error = true)
    (is : List ι) (input : Node) (worst : Option Severity)
    (hworst : ∀ i ∈ is, ∀ m ∈ (g i).messages, m.severity ≤ worst.getD .detail) :
    (report enabled (is.map f) input (some .error) ++ refusal enabled (is.map g) input worst).Perm
      (report enabled (is.map g) input worst ++
        ((is.flatMap fun i => (errors i).map (f i).entry.quote) ++
          (refusal enabled (is.map f) input (some .error) ++
            if Silent (is.map g) input worst then openingDetails enabled (is.map g) else []))) := by
  have hambiguity := reportAmbiguity_adds h is input
  have hquoted := quoted_adds h herror is input
  have htold : ¬ Silent (is.map f) input (some .error) := not_silent_of_error _ input
  rw [report_eq enabled _ input _ htold]
  refine List.perm_iff_count.2 fun m => ?_
  have hm := hquoted.count_eq m
  split
  · rename_i hsilent
    have hplain : refusal enabled (is.map g) input worst = [] := by simp [refusal, hsilent.plain]
    rw [report_of_silent enabled _ input worst hsilent, hambiguity, hplain]
    rw [quoted_of_silent enabled _ input worst hsilent (List.forall_mem_map.2 hworst)] at hm
    simp only [List.count_append, List.count_nil] at hm ⊢
    omega
  · rename_i hsilent
    rw [report_eq enabled _ input worst hsilent, hambiguity]
    simp only [List.count_append, List.count_nil] at hm ⊢
    omega

end Adds

end MacroForest
