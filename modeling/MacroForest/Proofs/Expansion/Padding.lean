/-
**A run with more turns in it.**

A macro that declines every node and leaves the scopes alone *stands by*.  It has its turns, in
tiers of its own or between those of other macros, and nothing comes of them.  This module compares
the run of an expansion with a run that is *padded*: the same run with turns of macros that stand by
in it.  The two runs are in states that are *near*, with the same scopes and the same of what the
macros look at; the messages and the clock may differ.

Where both runs have macros to ask, the turns are added one by one, and what a tier makes of the
node stays the same.  Where only the padded run has some, the other one goes on to the children of
the node at once.  The padded run may come to the children in the middle of a tier, if a macro that
stands by wants them expanded before, and what it gets there is its answer in the end.

Main definitions:

* `MacroForest.Entry.StandsBy`, `MacroForest.Entry.LooksAt` — what macros make of a shared state of
  which only a part is seen;
* `MacroForest.Padding` — what a padded run needs to be one;
* `MacroForest.State.Near`, `MacroForest.Event.Near` — corresponding states and events;
* `MacroForest.Run.Padded` — a computation, and the same one with more turns in it.

Main results:

* `MacroForest.Run.consult_padded` — macros are asked with the same result if some stand by;
* `MacroForest.Run.bystanders_padded` — macros of which all stand by come to the children;
* `MacroForest.Expander.forestRun_padded` — **runs of forests, padded**.
-/

import Mathlib.Data.List.Forall2
import MacroForest.Proofs.Expansion.Pursuit

set_option relaxedAutoImplicit false
set_option autoImplicit false

namespace MacroForest

variable {σ ρ α β γ δ : Type}

/-! ### Macros that stand by -/

namespace Entry

/-- The macro declines every node, leaves the scopes as they are, and changes nothing that is seen
of what is shared. -/
def StandsBy (seen : σ → ρ) (e : Entry σ) : Prop :=
  ∀ shared node scopes,
    (e.callable.run shared node scopes).outcome = .declined ∧
    (e.callable.run shared node scopes).scopes = scopes ∧
    seen (e.callable.run shared node scopes).state = seen shared

/-- The outcome of the macro, and what it makes of the scopes and of what is seen, do not depend on
anything else that is shared. -/
def LooksAt (seen : σ → ρ) (e : Entry σ) : Prop :=
  ∀ a b node scopes, seen b = seen a →
    (e.callable.run b node scopes).outcome = (e.callable.run a node scopes).outcome ∧
    (e.callable.run b node scopes).scopes = (e.callable.run a node scopes).scopes ∧
    seen (e.callable.run b node scopes).state = seen (e.callable.run a node scopes).state

end Entry

/-! ### Near states and events -/

/-- The same scopes, the same of what is seen, and as many nodes opened. -/
structure State.Near (seen : σ → ρ) (s s' : State σ) : Prop where
  scopes : s'.scopes = s.scopes
  seen : seen s'.shared = seen s.shared
  openings : s'.openings = s.openings

/-- The same action at the same place, from states that are near. -/
structure Event.Near (seen : σ → ρ) (event event' : Event σ) : Prop where
  chain : event'.chain = event.chain
  budget : event'.budget = event.budget
  action : event.action.Matches (State.Near seen) event'.action

/-- The event is no invocation but of a macro that passes the test. -/
def Event.isOwn (own : Entry σ → Bool) (event : Event σ) : Bool :=
  match event.action with
  | .invoked e _ _ => own e
  | _ => true

/-- What makes the second run a padded one: of the macros that it finds, those of the first one pass
a test, and the others stand by. -/
structure Padding (ρ : Type) (t₁ t₂ : Expander σ) where
  /-- What the macros of the first run look at. -/
  seen : σ → ρ
  /-- The test for the macros of the first run. -/
  own : Entry σ → Bool
  token : ∀ now now', t₂.token.isCancelled now' = t₁.token.isCancelled now
  found : ∀ scopes node, (t₂.candidates scopes node).filter own = t₁.candidates scopes node
  looks : ∀ {scopes node}, ∀ e ∈ t₁.candidates scopes node, e.LooksAt seen
  stands : ∀ {scopes node}, ∀ e ∈ t₂.candidates scopes node, own e = false → e.StandsBy seen
  /-- A macro that stands by wants the children expanded before only where there are no others. -/
  prepares : ∀ {scopes node}, ∀ e ∈ t₂.candidates scopes node, own e = false →
    e.mode.childrenBefore = true → t₁.candidates scopes node = []
  /-- There are always macros for a block. -/
  blocks : ∀ {scopes node}, node.calls Reserved.block = true → t₁.candidates scopes node ≠ []

namespace Run

variable {t₁ t₂ : Expander σ} {L : Padding ρ t₁ t₂} {R : α → β → Prop} {S : γ → δ → Prop}

/-- How two computations end: with answers that are related, or both stopped. -/
def Ends (R : α → β → Prop) : Except Cancelled α → Except Cancelled β → Prop
  | .ok a, .ok b => R a b
  | .error _, .error _ => True
  | _, _ => False

/-- The second computation is the first one with more turns in it: it ends alike in a state that is
near, and without the turns of the others it has the same events. -/
def Padded (L : Padding ρ t₁ t₂) (R : α → β → Prop) (m₁ : Run σ α) (m₂ : Run σ β) : Prop :=
  ∀ s s', State.Near L.seen s s' → ∀ r s₁ log, m₁ s = some ((r, s₁), log) →
    ∃ r' s₂ log', m₂ s' = some ((r', s₂), log') ∧ Ends R r r' ∧ State.Near L.seen s₁ s₂ ∧
      List.Forall₂ (Event.Near L.seen) log (log'.filter (·.isOwn L.own))

/-! ### Steps -/

theorem done_padded {a : α} {b : β} (h : R a b) : Padded L R (pure a) (pure b) := by
  rintro s s' hnear r s₁ log ⟨⟩
  exact ⟨.ok b, s', [], rfl, h, hnear, .nil⟩

theorem stop_padded : Padded L R (stop : Run σ α) (stop : Run σ β) := by
  rintro s s' hnear r s₁ log ⟨⟩
  exact ⟨.error .cancelled, s', [], rfl, trivial, hnear, .nil⟩

theorem exhausted_padded (m : Run σ β) : Padded L R (exhausted : Run σ α) m := by
  rintro s s' - r s₁ log ⟨⟩

theorem Padded.bind {m₁ : Run σ α} {m₂ : Run σ β} {f₁ : α → Run σ γ} {f₂ : β → Run σ δ}
    (hm : Padded L R m₁ m₂) (hf : ∀ a b, R a b → Padded L S (f₁ a) (f₂ b)) :
    Padded L S (m₁ >>= f₁) (m₂ >>= f₂) := by
  intro s s' hnear r s₁ log hr
  rcases bind_eq_some hr with ⟨c, s₂, hstop, heq⟩ | ⟨a, s₂, log₁, log₂, hok, hrest, rfl⟩
  · obtain ⟨rfl, rfl⟩ := Prod.mk.inj heq
    obtain ⟨r', s₃, log', hm₂, hends, hnear', hlog⟩ := hm _ _ hnear _ _ _ hstop
    cases r' with
    | ok b => exact hends.elim
    | error c' => exact ⟨.error c', s₃, log', bind_of_error f₂ hm₂, trivial, hnear', hlog⟩
  · obtain ⟨r', s₃, log₃, hm₂, hends, hnear', hlog⟩ := hm _ _ hnear _ _ _ hok
    cases r' with
    | error c' => exact hends.elim
    | ok b =>
        obtain ⟨r'', s₄, log₄, hf₂, hends', hnear'', hlog'⟩ := hf a b hends _ _ hnear' _ _ _ hrest
        refine ⟨r'', s₄, log₃ ++ log₄, bind_of_ok hm₂ hf₂, hends', hnear'', ?_⟩
        rw [List.filter_append]
        exact List.rel_append hlog hlog'

/-- An event is logged that is no invocation. -/
theorem Padded.note {event : Event σ} (hquiet : ∀ e input s, event.action ≠ .invoked e input s)
    {m₁ : Run σ α} {m₂ : Run σ β} (h : Padded L R m₁ m₂) :
    Padded L R (Run.note event >>= fun _ => m₁) (Run.note event >>= fun _ => m₂) := by
  obtain ⟨hown, hsame⟩ : event.isOwn L.own = true ∧ Event.Near L.seen event event := by
    obtain ⟨chain, budget, action⟩ := event
    cases action with
    | entered node => exact ⟨rfl, rfl, rfl, .entered node⟩
    | opened node => exact ⟨rfl, rfl, rfl, .opened node⟩
    | rewrote output mode => exact ⟨rfl, rfl, rfl, .rewrote output mode⟩
    | invoked e input s => exact absurd rfl (hquiet e input s)
  intro s s' hnear r s₁ log hr
  obtain ⟨more, hrest, rfl⟩ := note_bind_eq_some hr
  obtain ⟨r', s₂, more', hm₂, hends, hnear', hlog⟩ := h _ _ hnear _ _ _ hrest
  refine ⟨r', s₂, event :: more', bind_of_ok (note_apply event s') hm₂, hends, hnear', ?_⟩
  rw [List.filter_cons_of_pos hown]
  exact .cons hsame hlog

/-- The children of a node are opened, on the same occasion. -/
theorem openNode_padded (chain : Chain) (budget : Nat) (node : Node) :
    Padded L Eq (openNode chain budget node) (openNode chain budget node) := by
  rintro s s' hnear r s₁ log ⟨⟩
  have hopening : State.Near L.seen s.opening s'.opening :=
    ⟨hnear.scopes, hnear.seen, congrArg (· + 1) hnear.openings⟩
  have hevent : Event.Near L.seen ⟨chain, budget, .opened node⟩ ⟨chain, budget, .opened node⟩ :=
    ⟨rfl, rfl, .opened node⟩
  exact ⟨.ok (.opening s'.openings), s'.opening, _, rfl, congrArg Cell.opening hnear.openings.symm,
    hopening, .cons hevent .nil⟩

/-- Messages are sent, which need not be the same. -/
theorem tell_padded (f g : State σ → List Message) :
    Padded L (fun _ _ => True) (tell f) (tell g) := by
  rintro s s' hnear r s₁ log ⟨⟩
  exact ⟨.ok (), s'.writeAll (g s'), [], rfl, trivial,
    ⟨hnear.scopes, hnear.seen, hnear.openings⟩, .nil⟩

/-- A macro of the first run has its turn in both. -/
theorem Padded.invoke {chain : Chain} {budget : Nat} {e : Entry σ} {input : Node}
    (hown : L.own e = true) (hlooks : e.LooksAt L.seen) {f₁ : Reply σ → Run σ α}
    {f₂ : Reply σ → Run σ β}
    (h : ∀ reply reply' : Reply σ, reply'.outcome = reply.outcome →
      Padded L R (f₁ reply) (f₂ reply')) :
    Padded L R (Run.invoke chain budget e input >>= f₁) (Run.invoke chain budget e input >>= f₂) := by
  intro s s' hnear r s₁ log hr
  rcases bind_eq_some hr with ⟨c, s₂, hstop, -⟩ | ⟨reply, s₂, log₁, log₂, hok, hrest, rfl⟩
  · simp [Run.invoke] at hstop
  obtain ⟨⟩ := hok
  obtain ⟨houtcome, hscopes, hseen⟩ := hlooks s.shared s'.shared input s.scopes hnear.seen
  rw [← hnear.scopes] at houtcome hscopes hseen
  have hafter : State.Near L.seen (s.after (e.callable.run s.shared input s.scopes))
      (s'.after (e.callable.run s'.shared input s'.scopes)) := by
    rw [← hnear.scopes]
    exact ⟨hscopes, hseen, hnear.openings⟩
  rw [hnear.scopes] at houtcome
  obtain ⟨r', s₃, log₃, hf₂, hends, hnear', hlog⟩ := h _ _ houtcome _ _ hafter _ _ _ hrest
  rw [← hnear.scopes] at hf₂
  refine ⟨r', s₃, _, bind_of_ok rfl hf₂, hends, hnear', ?_⟩
  rw [List.filter_append, List.filter_cons_of_pos (by exact hown)]
  exact .cons ⟨rfl, rfl, .invoked e input hnear⟩ hlog

/-- A macro that stands by has its turn in the second run only. -/
theorem Padded.of_bystander {chain : Chain} {budget : Nat} {e : Entry σ} (input : Node)
    (hown : L.own e = false) (hstands : e.StandsBy L.seen) {m₁ : Run σ α} {f : Reply σ → Run σ β}
    (h : ∀ reply : Reply σ, reply.outcome = .declined → Padded L R m₁ (f reply)) :
    Padded L R m₁ (Run.invoke chain budget e input >>= f) := by
  intro s s' hnear r s₁ log hr
  obtain ⟨houtcome, hscopes, hseen⟩ := hstands s'.shared input s'.scopes
  have hafter : State.Near L.seen s (s'.after (e.callable.run s'.shared input s'.scopes)) :=
    ⟨hscopes.trans hnear.scopes, hseen.trans hnear.seen, hnear.openings⟩
  obtain ⟨r', s₂, log', hf, hends, hnear', hlog⟩ := h _ houtcome _ _ hafter _ _ _ hr
  refine ⟨r', s₂, _, bind_of_ok rfl hf, hends, hnear', ?_⟩
  rw [List.filter_append, List.filter_cons_of_neg (by simpa [Event.isOwn] using hown)]
  exact hlog

/-- Messages are sent in the second run only. -/
theorem Padded.after_tell {m₁ : Run σ α} {m₂ : Run σ β} (h : Padded L R m₁ m₂)
    (f : State σ → List Message) : Padded L R m₁ (tell f >>= fun _ => m₂) := by
  intro s s' hnear r s₁ log hr
  obtain ⟨r', s₂, log', hm₂, hends, hnear', hlog⟩ :=
    h s (s'.writeAll (f s')) ⟨hnear.scopes, hnear.seen, hnear.openings⟩ _ _ _ hr
  have htell : tell f s' = some ((.ok (), s'.writeAll (f s')), []) := rfl
  exact ⟨r', s₂, log', bind_of_ok htell hm₂, hends, hnear', hlog⟩

theorem Padded.within {m₁ : Run σ α} {m₂ : Run σ β} (h : Padded L R m₁ m₂) (isBlock : Bool) :
    Padded L R (m₁.within isBlock) (m₂.within isBlock) := by
  intro s s' hnear r s₁ log hr
  rcases within_eq_some hr with ⟨rfl, hr⟩ | ⟨rfl, s₂, hinner, rfl⟩
  · exact h _ _ hnear _ _ _ hr
  · have hpushed : State.Near L.seen { s with scopes := s.scopes.push }
        { s' with scopes := s'.scopes.push } :=
      ⟨congrArg ScopeStack.push hnear.scopes, hnear.seen, hnear.openings⟩
    obtain ⟨r', s₃, log', hm₂, hends, hnear', hlog⟩ := h _ _ hpushed _ _ _ hinner
    exact ⟨r', _, log', within_of_block hm₂, hends,
      ⟨congrArg ScopeStack.pop hnear'.scopes, hnear'.seen, hnear'.openings⟩, hlog⟩

/-! ### Lists and children -/

theorem list_padded {expand₁ expand₂ : Node → Run σ (Option Node)}
    (h : ∀ n, Padded L Eq (expand₁ n) (expand₂ n)) (ns : List Node) :
    Padded L Eq (list expand₁ ns) (list expand₂ ns) := by
  induction ns with
  | nil => exact done_padded rfl
  | cons n ns ih =>
      refine (h n).bind ?_
      rintro expanded _ rfl
      refine ih.bind ?_
      rintro rest _ rfl
      exact done_padded rfl

theorem children_padded {expand₁ expand₂ : Node → Run σ (Option Node)}
    (h : ∀ n, Padded L Eq (expand₁ n) (expand₂ n)) (chain : Chain) (budget : Nat) (node : Node) :
    Padded L Eq (children chain budget expand₁ node) (children chain budget expand₂ node) := by
  have htarget : Padded L Eq (target expand₁ node) (target expand₂ node) := by
    unfold target
    cases node.target? with
    | none => exact done_padded rfl
    | some callee =>
        dsimp only
        split
        · exact done_padded rfl
        · exact h callee
  unfold children
  split
  · exact done_padded rfl
  · refine (openNode_padded chain budget node).bind ?_
    rintro cell _ rfl
    refine (list_padded h node.attrs).bind ?_
    rintro attrs _ rfl
    refine htarget.bind ?_
    rintro newTarget _ rfl
    refine (list_padded h node.args).bind ?_
    rintro args _ rfl
    exact done_padded rfl

theorem prepare_padded {children₁ children₂ : Run σ (Option Node)}
    (h : Padded L Eq children₁ children₂) (node : Node) (p : Prepared) :
    Padded L Eq (prepare children₁ node p) (prepare children₂ node p) := by
  cases p with
  | unchanged | changed => exact done_padded rfl
  | notYet =>
      refine h.bind ?_
      rintro expanded _ rfl
      cases expanded <;> exact done_padded rfl

/-! ### Tiers in which some stand by -/

/-- The outputs of the attempts that accepted, with their modes. -/
def accepts (attempts : List (Attempt σ)) : List (Node × Mode) :=
  attempts.filterMap fun a => a.output.map fun output => (output, a.entry.mode)

theorem firstAccepted?_eq_head? (attempts : List (Attempt σ)) :
    firstAccepted? attempts = (accepts attempts).head? := by
  unfold firstAccepted? accepts
  rw [List.head?_filterMap]

theorem accepts_reverse (attempts : List (Attempt σ)) :
    accepts attempts.reverse = (accepts attempts).reverse := by
  unfold accepts
  rw [List.filterMap_reverse]

/-- A macro that declined does not count. -/
theorem accepts_declined (e : Entry σ) (node : Node) (messages : List Message)
    (attempts : List (Attempt σ)) :
    accepts (attemptOf e node messages .declined :: attempts) = accepts attempts :=
  List.filterMap_cons_none rfl

section Tiers

variable {chain : Chain} {budget : Nat} {node : Node}
  {prepare₁ prepare₂ : Prepared → Run σ (Prepared × Node)}

/-- The turn of a macro that is given the node as it is. -/
theorem tier_cons_of_plain {e : Entry σ} (h : e.mode.childrenBefore = false) (es : List (Entry σ))
    (attempts : List (Attempt σ)) (p : Prepared) :
    tier chain budget prepare₂ node (e :: es) attempts p =
      (Run.invoke chain budget e node >>= fun reply =>
        match reply.outcome with
        | .cancelled => do
          tell fun s => cancelMessage e node :: report s.sink.enabled
            (attemptOf e node reply.messages reply.outcome :: attempts).reverse node (some .error)
          stop
        | _ => tier chain budget prepare₂ node es
          (attemptOf e node reply.messages reply.outcome :: attempts) p) := by
  rw [tier]
  simp only [h, Bool.false_and, Bool.false_eq_true, if_false, Run.input]
  refine (done_bind _ _).trans ?_
  rfl

/-- The macros of a tier, of which some stand by and do not want the children. -/
theorem tier_padded (hprepare : ∀ p, Padded L Eq (prepare₁ p) (prepare₂ p)) {es : List (Entry σ)}
    (hlooks : ∀ e ∈ es, L.own e = true → e.LooksAt L.seen)
    (hstands : ∀ e ∈ es, L.own e = false → e.StandsBy L.seen ∧ e.mode.childrenBefore = false)
    {attempts₁ attempts₂ : List (Attempt σ)} (hattempts : accepts attempts₂ = accepts attempts₁)
    (p : Prepared) :
    Padded L (fun x y => accepts y.1 = accepts x.1 ∧ y.2 = x.2)
      (tier chain budget prepare₁ node (es.filter L.own) attempts₁ p)
      (tier chain budget prepare₂ node es attempts₂ p) := by
  induction es generalizing attempts₁ attempts₂ p with
  | nil =>
      refine done_padded ⟨?_, rfl⟩
      rw [accepts_reverse, accepts_reverse, hattempts]
  | cons e es ih =>
      have ih := @ih (fun e' he' => hlooks e' (List.mem_cons_of_mem e he'))
        fun e' he' => hstands e' (List.mem_cons_of_mem e he')
      cases hown : L.own e with
      | false =>
          obtain ⟨hstand, hplain⟩ := hstands e (by simp) hown
          rw [List.filter_cons_of_neg (by simp [hown]), tier_cons_of_plain hplain]
          refine Padded.of_bystander node hown hstand fun reply hdeclined => ?_
          rw [hdeclined]
          refine ih ?_ p
          rw [accepts_declined, hattempts]
      | true =>
          rw [List.filter_cons_of_pos hown, tier, tier]
          split
          · exact ih hattempts p
          have hinput : Padded L Eq (Run.input prepare₁ node e p) (Run.input prepare₂ node e p) := by
            unfold Run.input
            split
            · exact hprepare p
            · exact done_padded rfl
          refine hinput.bind ?_
          rintro ready _ rfl
          refine Padded.invoke hown (hlooks e (by simp) hown) fun reply reply' houtcome => ?_
          dsimp only
          rw [houtcome]
          have hmore : accepts (attemptOf e node reply'.messages reply.outcome :: attempts₂) =
              accepts (attemptOf e node reply.messages reply.outcome :: attempts₁) := by
            unfold accepts at hattempts ⊢
            rw [List.filterMap_cons, List.filterMap_cons, hattempts]
            rfl
          cases hcase : reply.outcome with
          | cancelled => exact (tell_padded _ _).bind fun _ _ _ => stop_padded
          | accepted | declined | failed | crashed =>
              rw [hcase] at hmore
              exact ih hmore ready.1

/-- Nothing is told of a tier without macros. -/
theorem report_nil (enabled : Severity → Bool) (node : Node) (worst : Option Severity) :
    report enabled ([] : List (Attempt σ)) node worst = [] := by
  unfold report reportAmbiguity reportRefusal labelsOf
  simp

/-- Tiers without macros make no difference. -/
theorem consult_nonempty (prepare : Prepared → Run σ (Prepared × Node))
    (tiers : List (List (Entry σ))) (p : Prepared) :
    consult chain budget prepare node (tiers.filter (!·.isEmpty)) p =
      consult chain budget prepare node tiers p := by
  induction tiers generalizing p with
  | nil => rfl
  | cons es tiers ih =>
      cases es with
      | cons e es =>
          rw [List.filter_cons_of_pos rfl, consult, consult]
          simp only [ih]
      | nil =>
          rw [List.filter_cons_of_neg (by simp), ih]
          funext s
          have htell : tell (fun s => report s.sink.enabled ([] : List (Attempt σ)) node
              (worstOf ([] : List (Attempt σ)))) s = some ((.ok (), s), []) := by
            rw [tell, report_nil]
            rfl
          have hnone : tier chain budget prepare node [] [] p = pure ([], p) := rfl
          rw [consult, hnone, done_bind]
          change _ = (tell _ >>= fun _ => consult chain budget prepare node tiers p) s
          cases hrest : consult chain budget prepare node tiers p s with
          | none => simp only [bind, andThen, htell, hrest, Option.map_none]
          | some rest => exact (bind_of_ok htell hrest).symm

/-- The tiers of some macros, as runs of one tier after another, one for each priority. -/
theorem consult_tiersOf (prepare : Prepared → Run σ (Prepared × Node)) (entries : List (Entry σ))
    (p : Prepared) :
    consult chain budget prepare node (tiersOf entries) p =
      consult chain budget prepare node
        (Priority.descending.map fun q => entries.filter (·.mode.priority == q)) p :=
  consult_nonempty prepare _ p

/-- **Macros are asked with the same result if some stand by** that do not want the children. -/
theorem consult_padded (hprepare : ∀ p, Padded L Eq (prepare₁ p) (prepare₂ p))
    {entries : List (Entry σ)} (hlooks : ∀ e ∈ entries, L.own e = true → e.LooksAt L.seen)
    (hstands : ∀ e ∈ entries, L.own e = false → e.StandsBy L.seen ∧ e.mode.childrenBefore = false)
    (p : Prepared) :
    Padded L Eq (consult chain budget prepare₁ node (tiersOf (entries.filter L.own)) p)
      (consult chain budget prepare₂ node (tiersOf entries) p) := by
  rw [consult_tiersOf, consult_tiersOf]
  induction Priority.descending generalizing p with
  | nil => exact done_padded rfl
  | cons q qs ih =>
      rw [List.map_cons, List.map_cons, consult, consult, List.filter_comm]
      refine (tier_padded hprepare (fun e he => hlooks e (List.mem_filter.1 he).1)
        (fun e he => hstands e (List.mem_filter.1 he).1) rfl p).bind ?_
      rintro ⟨attempts₁, p₁⟩ ⟨attempts₂, p₂⟩ ⟨hattempts, hp⟩
      obtain rfl : p₂ = p₁ := hp
      refine (tell_padded _ _).bind fun _ _ _ => ?_
      dsimp only at hattempts ⊢
      rw [firstAccepted?_eq_head?, firstAccepted?_eq_head?, hattempts]
      cases (accepts attempts₁).head? with
      | some accepted => exact done_padded rfl
      | none => exact ih p₂

/-! ### Tiers in which all stand by -/

theorem bind_assoc (m : Run σ α) (f : α → Run σ β) (g : β → Run σ γ) :
    (m >>= f) >>= g = m >>= fun a => f a >>= g := by
  funext s
  change andThen (andThen m f) g s = andThen m (fun a => andThen (f a) g) s
  unfold andThen
  rcases m s with - | ⟨⟨c | a, s₁⟩, log⟩
  · rfl
  · rfl
  · dsimp only
    rcases f a s₁ with - | ⟨⟨c | b, s₂⟩, more⟩
    · rfl
    · rfl
    · simp only [Option.map_some, Option.map_map]
      congr 1
      funext x
      simp

/-- What is left to do for a run that goes on to the children of a node at once, while another one
knows this much of the prepared node. -/
def rest (children : Run σ (Option Node)) (next : Option Node → Run σ α) : Prepared → Run σ α
  | .notYet => children >>= next
  | .unchanged => next none
  | .changed prepared => next (some prepared)

variable {children₁ children₂ : Run σ (Option Node)} {next : Option Node → Run σ α}

/-- The padded run gets the node with its children expanded. -/
theorem prepare_rest (hchildren : Padded L Eq children₁ children₂) (p : Prepared)
    {f : Prepared × Node → Run σ β}
    (h : ∀ p input, Padded L R (rest children₁ next p) (f (p, input))) :
    Padded L R (rest children₁ next p) (prepare children₂ node p >>= f) := by
  cases p with
  | unchanged | changed =>
      rw [prepare, done_bind]
      · exact h _ _
      · exact nofun
  | notYet =>
      rw [prepare, bind_assoc]
      refine hchildren.bind ?_
      rintro expanded _ rfl
      cases expanded with
      | none =>
          rw [done_bind]
          exact h .unchanged node
      | some prepared =>
          rw [done_bind]
          exact h (.changed prepared) prepared

/-- The turns of a tier in which all stand by. -/
theorem tier_bystanders (hchildren : Padded L Eq children₁ children₂) {es : List (Entry σ)}
    (hes : ∀ e ∈ es, L.own e = false ∧ e.StandsBy L.seen)
    {f : List (Attempt σ) × Prepared → Run σ β}
    (h : ∀ attempts p, accepts attempts = [] → Padded L R (rest children₁ next p) (f (attempts, p)))
    {attempts : List (Attempt σ)} (hattempts : accepts attempts = []) (p : Prepared) :
    Padded L R (rest children₁ next p)
      (tier chain budget (prepare children₂ node) node es attempts p >>= f) := by
  induction es generalizing attempts p with
  | nil =>
      rw [tier, done_bind]
      refine h _ p ?_
      rw [accepts_reverse, hattempts, List.reverse_nil]
  | cons e es ih =>
      have ih := @ih fun e' he' => hes e' (List.mem_cons_of_mem e he')
      obtain ⟨hown, hstands⟩ := hes e (by simp)
      rw [tier]
      split
      · exact ih hattempts p
      -- the turn itself, whatever the macro is given
      have hturn : ∀ p input, Padded L R (rest children₁ next p)
          ((Run.invoke chain budget e input >>= fun reply =>
            match reply.outcome with
            | .cancelled => do
              tell fun s => cancelMessage e node :: report s.sink.enabled
                (attemptOf e node reply.messages reply.outcome :: attempts).reverse node (some .error)
              stop
            | _ => tier chain budget (prepare children₂ node) node es
              (attemptOf e node reply.messages reply.outcome :: attempts) p) >>= f) := by
        intro p input
        rw [bind_assoc]
        refine Padded.of_bystander input hown hstands fun reply hdeclined => ?_
        rw [hdeclined]
        refine ih ?_ p
        rw [accepts_declined, hattempts]
      rw [bind_assoc]
      unfold Run.input
      split
      · exact prepare_rest hchildren p hturn
      · rw [done_bind]
        exact hturn p node

/-- The turns of tiers in which all stand by. -/
theorem consult_bystanders (hchildren : Padded L Eq children₁ children₂)
    {tiers : List (List (Entry σ))}
    (htiers : ∀ es ∈ tiers, ∀ e ∈ es, L.own e = false ∧ e.StandsBy L.seen)
    {f : Ruling Prepared → Run σ β}
    (h : ∀ p, Padded L R (rest children₁ next p) (f (.unclaimed p))) (p : Prepared) :
    Padded L R (rest children₁ next p)
      (consult chain budget (prepare children₂ node) node tiers p >>= f) := by
  induction tiers generalizing p with
  | nil =>
      rw [consult, done_bind]
      exact h p
  | cons es tiers ih =>
      have ih := ih fun es' hes' => htiers es' (List.mem_cons_of_mem es hes')
      rw [consult, bind_assoc]
      refine tier_bystanders hchildren (htiers es (by simp)) (fun attempts p hattempts => ?_) rfl p
      rw [bind_assoc]
      refine Padded.after_tell ?_ _
      dsimp only
      rw [firstAccepted?_eq_head?, hattempts]
      exact ih p

end Tiers

/-! ### Dispatches -/

section Dispatch

variable {again₁ again₂ : Chain → Nat → Node → Bool → Run σ (Option Node)}

/-- A way to run dispatches, and one with more turns in them. -/
def AgainPadded (L : Padding ρ t₁ t₂)
    (again₁ again₂ : Chain → Nat → Node → Bool → Run σ (Option Node)) : Prop :=
  ∀ chain budget node changed,
    Padded L Eq (again₁ chain budget node changed) (again₂ chain budget node changed)

theorem ownChildren_padded (hagain : AgainPadded L again₁ again₂) (chain : Chain) (budget : Nat)
    (node : Node) :
    Padded L Eq (ownChildren again₁ chain budget node) (ownChildren again₂ chain budget node) :=
  children_padded (fun n => hagain _ budget n false) chain budget node

theorem reprocess_padded (hagain : AgainPadded L again₁ again₂) (chain : Chain) (budget : Nat)
    (node output : Node) (mode : Mode) :
    Padded L Eq (reprocess again₁ chain budget node output mode)
      (reprocess again₂ chain budget node output mode) := by
  unfold reprocess
  dsimp only
  split
  · exact hagain _ _ output true
  · split
    · exact done_padded rfl
    · refine (children_padded (fun n => hagain _ _ n false) _ _ output).bind ?_
      rintro expanded _ rfl
      exact done_padded rfl

/-- What is done with a node for which both runs have found macros. -/
theorem found_padded (hagain : AgainPadded L again₁ again₂) (chain : Chain) (budget : Nat)
    (node : Node) (kept : Option Node) {entries : List (Entry σ)}
    (hlooks : ∀ e ∈ entries, L.own e = true → e.LooksAt L.seen)
    (hstands : ∀ e ∈ entries, L.own e = false →
      e.StandsBy L.seen ∧ e.mode.childrenBefore = false) :
    Padded L Eq (found again₁ chain budget node kept (entries.filter L.own))
      (found again₂ chain budget node kept entries) := by
  have hchildren := ownChildren_padded hagain chain budget node
  unfold found
  refine (consult_padded (prepare_padded hchildren node) hlooks hstands .notYet).bind ?_
  rintro ruling _ rfl
  cases ruling with
  | claimed output mode =>
      exact Padded.note (by simp) (reprocess_padded hagain chain budget node output mode)
  | unclaimed p =>
      cases p with
      | changed | unchanged => exact done_padded rfl
      | notYet =>
          refine hchildren.bind ?_
          rintro expanded _ rfl
          exact done_padded rfl

/-- **Macros of which all stand by come to the children**, as the run without them does at once. -/
theorem bystanders_padded (hagain : AgainPadded L again₁ again₂) (chain : Chain) (budget : Nat)
    (node : Node) (kept : Option Node) {entries : List (Entry σ)}
    (hentries : ∀ e ∈ entries, L.own e = false ∧ e.StandsBy L.seen) :
    Padded L Eq
      (ownChildren again₁ chain budget node >>= fun expanded => pure (expanded <|> kept))
      (found again₂ chain budget node kept entries) := by
  have hchildren := ownChildren_padded hagain chain budget node
  unfold found
  change Padded L Eq (rest _ (fun expanded => pure (expanded <|> kept)) .notYet) _
  refine consult_bystanders hchildren (fun es hes e he => hentries e ?_) (fun p => ?_) .notYet
  · obtain ⟨q, -, rfl⟩ := List.mem_map.1 (List.mem_filter.1 hes).1
    exact (List.mem_filter.1 he).1
  · cases p with
    | changed prepared => exact done_padded rfl
    | unchanged => exact done_padded (by simp)
    | notYet =>
        refine hchildren.bind ?_
        rintro expanded _ rfl
        exact done_padded rfl

/-- One dispatch, if what it leads to is padded. -/
theorem dispatch_padded (hagain : AgainPadded L again₁ again₂) :
    AgainPadded L (dispatch again₁ t₁) (dispatch again₂ t₂) := by
  intro chain budget node changed s s' hnear r s₁ log hr
  obtain ⟨more, rfl, hcases⟩ := dispatch_cases hr
  have hentered : (⟨chain, budget, .entered node⟩ : Event σ).isOwn L.own = true := rfl
  have hsame : Event.Near L.seen (⟨chain, budget, .entered node⟩ : Event σ)
      ⟨chain, budget, .entered node⟩ := ⟨rfl, rfl, .entered node⟩
  have htick : State.Near L.seen s.tick s'.tick := ⟨hnear.scopes, hnear.seen, hnear.openings⟩
  have htoken := L.token s.now s'.now
  have hfound := L.found s.scopes node
  -- what is there to be shown once the second run has come to the macros
  have hgoing : budget ≠ 0 → t₁.token.isCancelled s.now = false →
      (∀ m₁, m₁ s.tick = some ((r, s₁), more) → Padded L Eq m₁ (if
          (t₂.candidates s.scopes node).isEmpty then do
            let expanded ← ownChildren again₂ chain budget node
            pure (expanded <|> if changed then some node else none)
          else Run.within (node.calls Reserved.block) (found again₂ chain budget node
            (if changed then some node else none) (t₂.candidates s.scopes node))) →
        ∃ r' s₂ log', dispatch again₂ t₂ chain budget node changed s' = some ((r', s₂), log') ∧
          Ends Eq r r' ∧ State.Near L.seen s₁ s₂ ∧
          List.Forall₂ (Event.Near L.seen) (⟨chain, budget, .entered node⟩ :: more)
            (log'.filter (·.isOwn L.own))) := by
    intro hpos hgo m₁ hm₁ hpadded
    obtain ⟨r', s₂, log', hm₂, hends, hnear', hlog⟩ := hpadded _ _ htick _ _ _ hm₁
    refine ⟨r', s₂, _, dispatch_of_going chain hpos (htoken.trans hgo)
      (by rw [hnear.scopes]) hm₂, hends, hnear', ?_⟩
    rw [List.filter_cons_of_pos hentered]
    exact .cons hsame hlog
  rcases hcases with ⟨rfl, hkept, rfl⟩ | ⟨hne, hcancel, hstop, rfl⟩ | ⟨hne, hgo, hnone, hbody⟩ |
    ⟨hne, hgo, hsome, hbody⟩
  · obtain ⟨⟩ := hkept
    refine ⟨.ok _, s', [_], rfl, rfl, hnear, ?_⟩
    rw [List.filter_cons_of_pos hentered]
    exact .cons hsame .nil
  · obtain ⟨⟩ := hstop
    refine ⟨.error .cancelled, s', [_],
      dispatch_of_cancelled chain hne node changed (htoken.trans hcancel), trivial, hnear, ?_⟩
    rw [List.filter_cons_of_pos hentered]
    exact .cons hsame .nil
  · -- the first run has no macros, so all that the second one has stand by
    have hothers : ∀ e ∈ t₂.candidates s.scopes node, L.own e = false := by
      rw [hnone] at hfound
      exact fun e he => Bool.eq_false_iff.2 (List.filter_eq_nil_iff.1 hfound e he)
    have hblock : node.calls Reserved.block = false :=
      Bool.eq_false_iff.2 fun hblock => L.blocks hblock hnone
    refine hgoing hne hgo _ hbody ?_
    rw [hblock]
    by_cases hempty : (t₂.candidates s.scopes node).isEmpty = true
    · rw [if_pos hempty]
      refine (ownChildren_padded hagain chain budget node).bind ?_
      rintro expanded _ rfl
      exact done_padded rfl
    · rw [if_neg hempty]
      exact bystanders_padded hagain chain budget node _ fun e he =>
        ⟨hothers e he, L.stands e he (hothers e he)⟩
  · have hplain : ∀ e ∈ t₂.candidates s.scopes node, L.own e = false →
        e.StandsBy L.seen ∧ e.mode.childrenBefore = false := by
      intro e he hown
      refine ⟨L.stands e he hown, ?_⟩
      exact Bool.eq_false_iff.2 fun hbefore => hsome (L.prepares e he hown hbefore)
    have hlooks : ∀ e ∈ t₂.candidates s.scopes node, L.own e = true → e.LooksAt L.seen := by
      intro e he hown
      exact L.looks e (hfound ▸ List.mem_filter.2 ⟨he, hown⟩)
    have hnonempty : ¬ (t₂.candidates s.scopes node).isEmpty = true := by
      intro hempty
      rw [List.isEmpty_iff.1 hempty] at hfound
      exact hsome hfound.symm
    refine hgoing hne hgo _ hbody ?_
    rw [if_neg hnonempty, ← hfound]
    exact (found_padded hagain chain budget node _ hlooks hplain).within _

end Dispatch

end Run

/-! ### Forests -/

namespace Expander

variable {t₁ t₂ : Expander σ} (L : Padding ρ t₁ t₂)

theorem nodeRun_padded (fuel : Nat) : Run.AgainPadded L (t₁.nodeRun fuel) (t₂.nodeRun fuel) := by
  induction fuel with
  | zero => exact fun _ _ _ _ => Run.exhausted_padded _
  | succ fuel ih => exact Run.dispatch_padded ih

/-- **Runs of forests, padded.** -/
theorem forestRun_padded {fuel : Nat} {nodes : Forest} {s s' : State σ}
    (hbudget : t₂.budget = t₁.budget) (hroot : t₂.rootScopes = t₁.rootScopes)
    (hseen : L.seen s'.shared = L.seen s.shared) (hopenings : s'.openings = s.openings)
    {r : Except Cancelled Forest} {s₁ : State σ} {log : List (Event σ)}
    (hr : t₁.forestRun fuel nodes s = some ((r, s₁), log)) :
    ∃ s₂ log', t₂.forestRun fuel nodes s' = some ((r, s₂), log') ∧ State.Near L.seen s₁ s₂ ∧
      List.Forall₂ (Event.Near L.seen) log (log'.filter (·.isOwn L.own)) := by
  have hlist : Run.Padded L Eq (t₁.listRun fuel t₁.budget nodes)
      (t₂.listRun fuel t₂.budget nodes) := by
    rw [hbudget]
    exact Run.list_padded (fun n => nodeRun_padded L fuel [] t₁.budget n false) nodes
  have hstart : State.Near L.seen { s with scopes := t₁.rootScopes }
      { s' with scopes := t₂.rootScopes } := ⟨hroot, hseen, hopenings⟩
  obtain ⟨r', s₂, log', hr', hends, hnear, hlog⟩ :=
    (hlist.bind (S := Eq) (by rintro expanded _ rfl; exact Run.done_padded rfl)) _ _ hstart _ _ _ hr
  refine ⟨s₂, log', ?_, hnear, hlog⟩
  have hsame : r' = r := by
    cases r with
    | ok forest =>
        cases r' with
        | ok forest' => exact congrArg Except.ok hends.symm
        | error c => exact hends.elim
    | error c =>
        cases r' with
        | ok forest' => exact hends.elim
        | error c' => rfl
  rw [← hsame]
  exact hr'

end Expander

end MacroForest
