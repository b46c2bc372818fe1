/-
**Calls in bang style that nobody accepts.**

A call in bang style asks for a macro.  If all that see it decline, this is told, and those are
named that were expected to accept: all but the passive ones.  This rule is kept by each tier by
itself, for it is the tier that is reported.  A step can ask several tiers, and then it need not be
kept.  If the macros of a tier decline, a message says so before the next tier is asked, which may
accept; and if that declines too, there are two messages, and neither of them names all.

How far the rule holds of a step as a whole is settled by priorities alone.  Call a turn *relevant*
if its macro is not passive or if it accepts.  The rule holds exactly if all relevant turns of the
step have the same priority.

Main definitions:

* `MacroForest.RefusalRule` — the rule, for some turns and some messages;
* `MacroForest.OneLevel` — all relevant turns have the same priority;
* `MacroForest.Hearing.refusals` — what is told on a refusal in the report of a tier.

Main results:

* `MacroForest.Hearing.refusalRule` — each tier keeps the rule;
* `MacroForest.refusalRule_flatMap_iff` — **several tiers keep it if one of them is relevant at
  most**;
* `MacroForest.Expander.refused_by_tier` — steps that keep the rule;
* `MacroForest.Expander.refused_though_accepted` — a step that does not.
-/

import MacroForest.Proofs.Expansion.Hearings

set_option relaxedAutoImplicit false
set_option autoImplicit false

namespace MacroForest

variable {σ : Type}

/-! ### The rule -/

/-- The macro was expected to accept. -/
def Turn.expected (u : Turn σ) : Bool := !u.entry.mode.passive

/-- A refusal is told exactly if nobody accepted and somebody was expected to, and then it is one
message on the node, which names all that were. -/
structure RefusalRule (turns : List (Turn σ)) (node : Node) (ms : List Message) : Prop where
  told : ms ≠ [] ↔ (∀ u ∈ turns, u.output? = none) ∧ ∃ u ∈ turns, u.expected = true
  once : ms ≠ [] → ∃ m, ms = [m] ∧
    m.Refuses node ((turns.filter (·.expected)).map Turn.attempt)

/-- The turn counts for the rule. -/
def Turn.relevant (u : Turn σ) : Bool := u.expected || u.output?.isSome

/-- All relevant turns have the same priority. -/
def OneLevel (turns : List (Turn σ)) : Prop :=
  ∀ u ∈ turns, ∀ v ∈ turns, u.relevant = true → v.relevant = true →
    u.entry.mode.priority = v.entry.mode.priority

theorem Hearing.all_not_accepted_iff (h : Hearing σ) :
    h.attempts.all (!·.accepted) = true ↔ h.Declined := by
  rw [List.all_eq_true]
  constructor
  · intro hall u hu
    have hnot : (!u.output?.isSome) = true := hall u.attempt (List.mem_map_of_mem hu)
    simpa using hnot
  · intro hdeclined a ha
    obtain ⟨u, hu, rfl⟩ := List.mem_map.1 ha
    have hnone : u.attempt.output = none := hdeclined u hu
    simp [Attempt.accepted, hnone]

theorem Hearing.filter_refused {h : Hearing σ} (hdeclined : h.Declined) :
    h.attempts.filter (·.refused) = (h.turns.filter (·.expected)).map Turn.attempt := by
  rw [attempts, List.filter_map]
  congr 1
  refine List.filter_congr fun u hu => ?_
  have hnone : u.attempt.output = none := hdeclined u hu
  change (u.attempt.output.isNone && !u.entry.mode.passive) = !u.entry.mode.passive
  rw [hnone]
  rfl

/-- **Each tier keeps the rule**, if everything is heard. -/
theorem Hearing.refusalRule {enabled : Severity → Bool} (henabled : ∀ s, enabled s = true)
    (h : Hearing σ) (hbang : h.node.style = .bang) :
    RefusalRule h.turns h.node (h.refusals enabled) := by
  by_cases hdeclined : h.Declined
  · have hrefusals : ∃ severity, h.refusals enabled = reportRefusal h.attempts h.node severity := by
      refine ⟨_, if_pos ?_⟩
      rw [h.all_not_accepted_iff.2 hdeclined, hbang, henabled]
      rfl
    obtain ⟨severity, hrefusals⟩ := hrefusals
    rw [hrefusals]
    rcases reportRefusal_refuses h.attempts h.node severity with
      ⟨hnobody, hnothing⟩ | ⟨hsomebody, m, hone, hnames⟩
    · rw [filter_refused hdeclined, List.map_eq_nil_iff, List.filter_eq_nil_iff] at hnobody
      rw [hnothing]
      refine ⟨⟨fun hne => absurd rfl hne, ?_⟩, fun hne => absurd rfl hne⟩
      rintro ⟨-, u, hu, hexpected⟩
      exact absurd hexpected (hnobody u hu)
    · rw [filter_refused hdeclined] at hsomebody hnames
      rw [hone]
      refine ⟨⟨fun _ => ⟨hdeclined, ?_⟩, fun _ => by simp⟩, fun _ => ⟨m, rfl, hnames⟩⟩
      rw [ne_eq, List.map_eq_nil_iff] at hsomebody
      obtain ⟨u, hu⟩ := List.exists_mem_of_ne_nil _ hsomebody
      exact ⟨u, (List.mem_filter.1 hu).1, (List.mem_filter.1 hu).2⟩
  · have hnone : h.refusals enabled = [] := by
      refine if_neg fun hcond => hdeclined (h.all_not_accepted_iff.1 ?_)
      rw [Bool.and_eq_true, Bool.and_eq_true] at hcond
      exact hcond.1.1
    rw [hnone]
    exact ⟨⟨fun hne => absurd rfl hne, fun hboth => absurd hboth.1 hdeclined⟩,
      fun hne => absurd rfl hne⟩

/-! ### Several tiers -/

/-- Some turn of the hearing is relevant. -/
def Hearing.relevant (h : Hearing σ) : Bool := h.turns.any (·.relevant)

/-- The hearings are of tiers by descending priority. -/
structure Descending (hs : List (Hearing σ)) : Prop where
  within : ∀ h ∈ hs, ∀ u ∈ h.turns, ∀ v ∈ h.turns, u.entry.rank = v.entry.rank
  between : hs.Pairwise fun h h' => ∀ u ∈ h.turns, ∀ v ∈ h'.turns, v.entry.rank < u.entry.rank

/-- The relevant turns have the same priority if they are all of one tier. -/
theorem oneLevel_iff {hs : List (Hearing σ)} (h : Descending hs) :
    OneLevel (hs.flatMap (·.turns)) ↔ (hs.filter (·.relevant)).length ≤ 1 := by
  have hmem : ∀ h' ∈ hs.filter (·.relevant), h' ∈ hs ∧ ∃ u ∈ h'.turns, u.relevant = true := by
    intro h' hh'
    exact ⟨(List.mem_filter.1 hh').1, List.any_eq_true.1 (List.mem_filter.1 hh').2⟩
  constructor
  · intro hlevel
    have hbetween := h.between.filter (·.relevant)
    generalize hs.filter (·.relevant) = ks at hmem hbetween ⊢
    match ks, hmem, hbetween with
    | [], _, _ => exact Nat.zero_le 1
    | [_], _, _ => exact Nat.le_refl 1
    | h₁ :: h₂ :: _, hmem, hbetween =>
        obtain ⟨hmem₁, u, hu, hrelevant₁⟩ := hmem h₁ (by simp)
        obtain ⟨hmem₂, v, hv, hrelevant₂⟩ := hmem h₂ (by simp)
        have hlt := (List.pairwise_cons.1 hbetween).1 h₂ (by simp) u hu v hv
        have hsame := hlevel u (List.mem_flatMap.2 ⟨h₁, hmem₁, hu⟩) v
          (List.mem_flatMap.2 ⟨h₂, hmem₂, hv⟩) hrelevant₁ hrelevant₂
        rw [Entry.rank, Entry.rank, hsame] at hlt
        exact absurd hlt (Nat.lt_irrefl _)
  · intro hfew u hu v hv hrelevant₁ hrelevant₂
    obtain ⟨h₁, hmem₁, hu⟩ := List.mem_flatMap.1 hu
    obtain ⟨h₂, hmem₂, hv⟩ := List.mem_flatMap.1 hv
    have hfilter₁ : h₁ ∈ hs.filter (·.relevant) :=
      List.mem_filter.2 ⟨hmem₁, List.any_eq_true.2 ⟨u, hu, hrelevant₁⟩⟩
    have hfilter₂ : h₂ ∈ hs.filter (·.relevant) :=
      List.mem_filter.2 ⟨hmem₂, List.any_eq_true.2 ⟨v, hv, hrelevant₂⟩⟩
    obtain ⟨single, hsingle⟩ : ∃ single, hs.filter (·.relevant) = [single] :=
      List.length_eq_one_iff.1 (Nat.le_antisymm hfew (List.length_pos_of_mem hfilter₁))
    rw [hsingle, List.mem_singleton] at hfilter₁ hfilter₂
    subst hfilter₁ hfilter₂
    exact Priority.eq_of_rank_eq (h.within _ hmem₁ u hu v hv)

theorem flatMap_filter_of_nil {α β : Type} {p : α → Bool} {f : α → List β} {xs : List α}
    (h : ∀ x ∈ xs, p x = false → f x = []) : (xs.filter p).flatMap f = xs.flatMap f := by
  induction xs with
  | nil => rfl
  | cons x xs ih =>
      obtain ⟨hx, hxs⟩ := List.forall_mem_cons.1 h
      cases hp : p x with
      | false => rw [List.filter_cons_of_neg (by simp [hp]), ih hxs, List.flatMap_cons, hx hp]; rfl
      | true => rw [List.filter_cons_of_pos hp, List.flatMap_cons, List.flatMap_cons, ih hxs]

theorem Turn.relevant_of_expected {u : Turn σ} (h : u.expected = true) : u.relevant = true := by
  rw [relevant, h]
  rfl

theorem Turn.relevant_of_output {u : Turn σ} (h : u.output? ≠ none) : u.relevant = true := by
  rw [relevant, Option.isSome_iff_ne_none.2 h, Bool.or_true]

theorem Hearing.expected_of_declined {h : Hearing σ} (hrelevant : h.relevant = true)
    (hdeclined : h.Declined) : ∃ u ∈ h.turns, u.expected = true := by
  obtain ⟨u, hu, hcases⟩ := List.any_eq_true.1 hrelevant
  refine ⟨u, hu, ?_⟩
  rw [Turn.relevant, hdeclined u hu] at hcases
  simpa using hcases

/-- Only relevant turns have a part in the rule. -/
theorem refusalRule_iff_relevant {turns : List (Turn σ)} {node : Node} {ms : List Message} :
    RefusalRule turns node ms ↔ RefusalRule (turns.filter (·.relevant)) node ms := by
  have hdeclined : (∀ u ∈ turns, u.output? = none) ↔
      ∀ u ∈ turns.filter (·.relevant), u.output? = none := by
    constructor
    · intro hall u hu
      exact hall u (List.mem_filter.1 hu).1
    · intro hall u hu
      by_contra hne
      exact hne (hall u (List.mem_filter.2 ⟨hu, Turn.relevant_of_output hne⟩))
  have hexpected : (turns.filter (·.relevant)).filter (·.expected) = turns.filter (·.expected) := by
    rw [List.filter_filter]
    refine List.filter_congr fun u _ => ?_
    cases hexpected : u.expected with
    | false => rfl
    | true => rw [Turn.relevant_of_expected hexpected, Bool.and_self]
  have hsome : (∃ u ∈ turns, u.expected = true) ↔
      ∃ u ∈ turns.filter (·.relevant), u.expected = true := by
    constructor
    · rintro ⟨u, hu, hexpected⟩
      exact ⟨u, List.mem_filter.2 ⟨hu, Turn.relevant_of_expected hexpected⟩, hexpected⟩
    · rintro ⟨u, hu, hexpected⟩
      exact ⟨u, (List.mem_filter.1 hu).1, hexpected⟩
  constructor
  · rintro ⟨htold, honce⟩
    exact ⟨by rw [htold, hdeclined, hsome], by rw [hexpected]; exact honce⟩
  · rintro ⟨htold, honce⟩
    exact ⟨by rw [htold, hdeclined, hsome], by rw [← hexpected]; exact honce⟩

/-- Hearings without relevant turns have no part in the rule. -/
theorem refusalRule_filter_relevant {hs : List (Hearing σ)} {node : Node}
    {ms : Hearing σ → List Message} (hrule : ∀ h ∈ hs, RefusalRule h.turns node (ms h)) :
    RefusalRule (hs.flatMap (·.turns)) node (hs.flatMap ms) ↔
      RefusalRule ((hs.filter (·.relevant)).flatMap (·.turns)) node
        ((hs.filter (·.relevant)).flatMap ms) := by
  have hirrelevant : ∀ h : Hearing σ, h.relevant = false → ∀ u ∈ h.turns, u.relevant = false := by
    intro h hnot u hu
    exact Bool.eq_false_iff.2 fun hrelevant =>
      Bool.eq_false_iff.1 hnot (List.any_eq_true.2 ⟨u, hu, hrelevant⟩)
  have hmessages : (hs.filter (·.relevant)).flatMap ms = hs.flatMap ms := by
    refine flatMap_filter_of_nil fun h hmem hnot => ?_
    by_contra hne
    obtain ⟨-, u, hu, hexpected⟩ := (hrule h hmem).told.1 hne
    exact Bool.eq_false_iff.1 (hirrelevant h hnot u hu) (Turn.relevant_of_expected hexpected)
  have hturns : ((hs.filter (·.relevant)).flatMap (·.turns)).filter (·.relevant) =
      (hs.flatMap (·.turns)).filter (·.relevant) := by
    rw [List.filter_flatMap, List.filter_flatMap]
    refine flatMap_filter_of_nil fun h _ hnot => List.filter_eq_nil_iff.2 fun u hu => ?_
    exact Bool.eq_false_iff.1 (hirrelevant h hnot u hu)
  rw [hmessages, refusalRule_iff_relevant, ← hturns, ← refusalRule_iff_relevant]

/-- In all hearings but the last everybody has declined, also in all relevant ones but the last. -/
theorem declined_of_relevant {hs : List (Hearing σ)}
    (hdeclined : ∀ above last, hs = above ++ [last] → ∀ h ∈ above, h.Declined)
    {h h' : Hearing σ} {rest : List (Hearing σ)}
    (hrelevant : hs.filter (·.relevant) = h :: h' :: rest) : h.Declined := by
  rcases List.eq_nil_or_concat hs with rfl | ⟨above, last, rfl⟩
  · cases hrelevant
  rw [List.concat_eq_append, List.filter_append] at hrelevant
  cases habove : above.filter (·.relevant) with
  | nil =>
      have hlength := congrArg List.length hrelevant
      have hone := List.length_filter_le (fun h : Hearing σ => h.relevant) [last]
      simp only [habove, List.nil_append, List.length_cons, List.length_nil] at hlength hone
      omega
  | cons first others =>
      rw [habove] at hrelevant
      obtain ⟨rfl, -⟩ := List.cons.inj hrelevant
      have hmem : first ∈ above.filter (·.relevant) := by rw [habove]; exact List.mem_cons_self
      exact hdeclined above last List.concat_eq_append first (List.mem_filter.1 hmem).1

/-- **Several tiers keep the rule together exactly if all relevant turns are of one priority.** -/
theorem refusalRule_flatMap_iff {hs : List (Hearing σ)} {node : Node}
    {ms : Hearing σ → List Message} (hrule : ∀ h ∈ hs, RefusalRule h.turns node (ms h))
    (hdeclined : ∀ above last, hs = above ++ [last] → ∀ h ∈ above, h.Declined)
    (hdescending : Descending hs) :
    RefusalRule (hs.flatMap (·.turns)) node (hs.flatMap ms) ↔ OneLevel (hs.flatMap (·.turns)) := by
  rw [oneLevel_iff hdescending, refusalRule_filter_relevant hrule]
  have hmem : ∀ h ∈ hs.filter (·.relevant),
      RefusalRule h.turns node (ms h) ∧ h.relevant = true :=
    fun h hh => ⟨hrule h (List.mem_filter.1 hh).1, (List.mem_filter.1 hh).2⟩
  have hfirst : ∀ h h' rest, hs.filter (·.relevant) = h :: h' :: rest → h.Declined :=
    fun h h' rest hrelevant => declined_of_relevant hdeclined hrelevant
  generalize hs.filter (·.relevant) = ks at hmem hfirst ⊢
  match ks, hmem, hfirst with
  | [], _, _ => exact ⟨fun _ => Nat.zero_le 1, fun _ => ⟨by simp, by simp⟩⟩
  | [h], hmem, _ =>
      rw [List.flatMap_singleton, List.flatMap_singleton]
      exact ⟨fun _ => Nat.le_refl 1, fun _ => (hmem h (by simp)).1⟩
  | h :: h' :: rest, hmem, hfirst =>
      refine ⟨fun hall => ?_, fun hfew => absurd hfew (by simp)⟩
      obtain ⟨hrule, hrelevant⟩ := hmem h (by simp)
      obtain ⟨hrule', hrelevant'⟩ := hmem h' (by simp)
      -- the first tier has declined and says so, and then all others have to do the same
      have hsaid : ms h ≠ [] :=
        hrule.told.2 ⟨hfirst h h' rest rfl, Hearing.expected_of_declined hrelevant
          (hfirst h h' rest rfl)⟩
      have hsome : (h :: h' :: rest).flatMap ms ≠ [] := by
        rw [List.flatMap_cons]
        exact List.append_ne_nil_of_left_ne_nil hsaid _
      have hdeclined' : h'.Declined := by
        intro u hu
        exact (hall.told.1 hsome).1 u (List.mem_flatMap.2 ⟨h', by simp, hu⟩)
      have hsaid' : ms h' ≠ [] :=
        hrule'.told.2 ⟨hdeclined', Hearing.expected_of_declined hrelevant' hdeclined'⟩
      obtain ⟨m, hone, -⟩ := hall.once hsome
      have hlength := congrArg List.length hone
      have hpos := List.length_pos_of_ne_nil hsaid
      have hpos' := List.length_pos_of_ne_nil hsaid'
      simp only [List.flatMap_cons, List.length_append, List.length_cons, List.length_nil] at hlength
      omega

/-! ### Steps -/

/-- The entry of a turn is a macro of the tier. -/
theorem Hearing.Of.mem {budget : Nat} {node : Node} {es : List (Entry σ)} {h : Hearing σ}
    (hof : h.Of budget node es) {u : Turn σ} (hu : u ∈ h.turns) : u.entry ∈ es := by
  have hmem := List.mem_map_of_mem (f := (·.entry)) hu
  rw [hof.entries] at hmem
  exact (List.mem_filter.1 hmem).1

theorem descending_of_upto {found : List (Entry σ)} {budget : Nat} {node : Node}
    {rest : List (List (Entry σ))} {hs : List (Hearing σ)}
    (h : Upto budget node (tiersOf found) rest hs) : Descending hs := by
  obtain ⟨asked, htiers, hasked⟩ := h
  have hpairwise := tiersOf_pairwise found
  have hsame : ∀ es ∈ asked, ∀ a ∈ es, ∀ b ∈ es, a.rank = b.rank := by
    intro es hes a ha b hb
    exact rank_eq_of_mem_tier (by rw [htiers]; exact List.mem_append_left _ hes) ha hb
  rw [htiers, List.pairwise_append] at hpairwise
  obtain ⟨hpairwise, -⟩ := hpairwise
  clear htiers
  induction hasked with
  | nil => exact ⟨List.forall_mem_nil _, .nil⟩
  | @cons es h asked hs hof hasked ih =>
      obtain ⟨hsame, hothers⟩ := List.forall_mem_cons.1 hsame
      obtain ⟨hbelow, hpairwise⟩ := List.pairwise_cons.1 hpairwise
      obtain ⟨hwithin, hbetween⟩ := ih hothers hpairwise
      refine ⟨List.forall_mem_cons.2 ⟨?_, hwithin⟩, List.pairwise_cons.2 ⟨?_, hbetween⟩⟩
      · intro u hu v hv
        exact hsame u.entry (hof.mem hu) v.entry (hof.mem hv)
      · intro h' hh' u hu v hv
        obtain ⟨es', hes', hof'⟩ := exists_of_heard hasked hh'
        exact hbelow es' hes' u.entry (hof.mem hu) v.entry (hof'.mem hv)

namespace Expander

/-- **Which steps keep the rule on refusals.**  Let the sink keep everything, and let a call in bang
style be dispatched with budget.  The report of each tier that comes to its end has a part on a
refusal, which keeps the rule for the turns of that tier.  Unless the step is stopped, these parts
keep the rule for all turns of the step exactly if all relevant turns have the same priority. -/
theorem refused_by_tier (t : Expander σ) (chain : Chain) {budget : Nat} (hpos : 1 ≤ budget)
    (node : Node) (hbang : node.style = .bang) (changed : Bool) (s : State σ)
    (hsink : s.sink.least = .detail) :
    ∃ r log marks, (∃ enough, ∀ fuel, enough ≤ fuel →
        t.nodeRun fuel chain budget node changed s = some (r, log)) ∧
      (∀ frames, Leaves (t.dispatch budget node changed frames s) frames r) ∧
      t.Minutes chain budget node s r log marks ∧
      (∀ h ∈ heardTiers chain marks,
        h.told s.sink.enabled = reportAmbiguity h.attempts node ++
          (h.refusals s.sink.enabled ++ voices h.attempts node) ∧
        RefusalRule h.turns node (h.refusals s.sink.enabled)) ∧
      (¬ t.Stopped chain budget node s r log →
        (RefusalRule (ownTurns chain node log) node
            ((heardTiers chain marks).flatMap (·.refusals s.sink.enabled)) ↔
          OneLevel (ownTurns chain node log))) := by
  obtain ⟨r, log, marks, hruns, hleaves, hminutes, hcourse⟩ :=
    t.exists_minutes chain hpos node changed s
  have henabled := enabled_of_least hsink
  have hrule : ∀ h ∈ heardTiers chain marks,
      RefusalRule h.turns node (h.refusals s.sink.enabled) := by
    intro h hmem
    obtain ⟨es, -, hof⟩ := hminutes.of_heard hmem
    have hrule := h.refusalRule henabled (by rw [hof.about]; exact hbang)
    rwa [hof.about] at hrule
  refine ⟨r, log, marks, hruns, hleaves, hminutes, fun h hmem => ⟨?_, hrule h hmem⟩, fun hgoing => ?_⟩
  · obtain ⟨es, -, hof⟩ := hminutes.of_heard hmem
    have hsound : ¬ Silent h.attempts node (worstOf h.attempts) := by
      intro hsilent
      have hplain := hsilent.plain
      rw [hbang] at hplain
      cases hplain
    rw [hminutes.told_eq hmem, report_eq _ _ _ _ hsound, Hearing.refusals, hof.about,
      show s.sink.enabled = fun _ => true from funext henabled, quoted_eq_voices]
  · obtain ⟨rest, hupto⟩ := hminutes.consulted.upto
    rw [hminutes.turns_of_not_stopped hcourse hgoing]
    exact refusalRule_flatMap_iff hrule hminutes.consulted.declined (descending_of_upto hupto)

/-- A macro that declines, and one of lower priority that accepts. -/
def overruled : Expander Unit :=
  .create (Table.empty.addAll [rival 0 .normal false .declined,
    rival 1 .fallback false (.accepted (.ident "b"))]).2 [] 100 {}

/-- A call in bang style. -/
def urgent : Node := .call [] .bang (.ident "m") []

theorem refused_by_tier_overruled :
    let s := overruled.initial () (.empty .detail)
    1 ≤ 100 ∧ urgent.style = .bang ∧ s.sink.least = .detail ∧
      ∃ r log marks, (∃ enough, ∀ fuel, enough ≤ fuel →
          overruled.nodeRun fuel [] 100 urgent false s = some (r, log)) ∧
        overruled.Minutes [] 100 urgent s r log marks ∧
        (∀ h ∈ heardTiers [] marks, RefusalRule h.turns urgent (h.refusals s.sink.enabled)) ∧
        (¬ overruled.Stopped [] 100 urgent s r log →
          (RefusalRule (ownTurns [] urgent log) urgent
              ((heardTiers [] marks).flatMap (·.refusals s.sink.enabled)) ↔
            OneLevel (ownTurns [] urgent log))) := by
  intro s
  refine ⟨by decide, rfl, rfl, ?_⟩
  obtain ⟨r, log, marks, hruns, -, hminutes, htold, hstep⟩ :=
    refused_by_tier overruled [] (by decide : 1 ≤ 100) urgent rfl false s rfl
  exact ⟨r, log, marks, hruns, hminutes, fun h hmem => (htold h hmem).2, hstep⟩

/-- **A refusal is told of a call that is accepted.**  The macro of the higher priority declines,
and this is told before the other one is asked, which accepts. -/
theorem refused_though_accepted :
    let s := overruled.initial () (.empty .detail)
    ∃ log, overruled.nodeRun 2 [] 100 urgent false s =
        some (overruled.expandNode 100 urgent s, log) ∧
      (overruled.expandNode 100 urgent s).1 = .ok (some (.ident "b")) ∧
      (overruled.expandNode 100 urgent s).2.sink.messages =
        [⟨.warning, urgent, "1 macro(s) saw the input and declined to process it: m"⟩] ∧
      ¬ RefusalRule (ownTurns [] urgent log) urgent
        (overruled.expandNode 100 urgent s).2.sink.messages := by
  intro s
  have heval : (overruled.nodeRun 2 [] 100 urgent false s).map (fun x => (x.1.1.toOption,
      x.1.2.sink.messages, (ownTurns [] urgent x.2).any (·.output?.isSome))) =
        some (some (some (.ident "b")),
          [⟨.warning, urgent, "1 macro(s) saw the input and declined to process it: m"⟩], true) := by
    decide +kernel
  obtain ⟨⟨r, log⟩, hr, heq⟩ := Option.map_eq_some_iff.1 heval
  obtain ⟨houtput, hmessages, haccepts⟩ : r.1.toOption = some (some (.ident "b")) ∧
      r.2.sink.messages =
        [⟨.warning, urgent, "1 macro(s) saw the input and declined to process it: m"⟩] ∧
      (ownTurns [] urgent log).any (·.output?.isSome) = true := by simpa using heq
  rw [overruled.nodeRun_answers 2 [] 100 urgent s r log hr]
  refine ⟨log, hr, ?_, hmessages, fun hrule => ?_⟩
  · cases hr₁ : r.1 with
    | error c => simp [hr₁, Except.toOption] at houtput
    | ok output => exact congrArg Except.ok (by simpa [hr₁, Except.toOption] using houtput)
  · obtain ⟨u, hu, haccepted⟩ := List.any_eq_true.1 haccepts
    have hdeclined := (hrule.told.1 (by rw [hmessages]; simp)).1 u hu
    rw [hdeclined] at haccepted
    cases haccepted

end Expander

end MacroForest
