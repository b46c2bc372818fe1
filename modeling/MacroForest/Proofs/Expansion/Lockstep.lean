/-
**Two runs in lockstep.**

Much of what is claimed of an expansion compares two of them: over tables that differ in what some
macros do, or from states that differ in what the macros may not look at.  Such a comparison has a
part that is always the same, the way in which runs are put together from steps, and a part that is
not, the relation that the steps keep.

`MacroForest.Lockstep` is the second part: which macros correspond, and an invariant of the two runs
so far that every kind of step keeps.  The turns of a tier that are not reported yet are *pending*,
and the invariant is told of them.  A turn adds to what is pending, and a report takes away the
turns that it is about.  `MacroForest.Run.Abreast` is the first part: the runs give the same answer,
and what was pending before is pending again.  Only one thing goes wrong.  If the expansion is told
to stop while a tier waits for the children of its node, the tier is left without a report, and its
turns stay pending for ever.  They are the ones that are *lost*.

Main definitions:

* `MacroForest.Trail` — a run so far, as its log and its state;
* `MacroForest.Lockstep` — corresponding macros, and an invariant kept by all steps;
* `MacroForest.Expander.PreparesFirst` — no tier has a turn before the children are expanded;
* `MacroForest.Run.Abreast` — two computations in lockstep.

Main results:

* `MacroForest.Run.tier_abreast`, `MacroForest.Run.consult_abreast` — the turns of one tier and of
  all, with their reports;
* `MacroForest.Expander.nodeRun_abreast` — dispatches are in lockstep;
* `MacroForest.Expander.expandForest_abreast` — **so are expansions of forests**.
-/

import Mathlib.Data.List.Forall2
import MacroForest.Proofs.Expansion.Adequacy
import MacroForest.Proofs.Expansion.Turns

set_option relaxedAutoImplicit false
set_option autoImplicit false

namespace MacroForest

variable {σ α β γ δ : Type}

/-! ### Trails -/

/-- A run so far: what has happened, and the state that it led to. -/
structure Trail (σ : Type) where
  /-- The log so far. -/
  log : List (Event σ)
  /-- The present state. -/
  state : State σ

namespace Trail

/-- Something is logged. -/
def note (x : Trail σ) (event : Event σ) : Trail σ := { x with log := x.log ++ [event] }

/-- A tick of the clock. -/
def tick (x : Trail σ) : Trail σ := { x with state := x.state.tick }

/-- The children of a node are opened. -/
def opening (x : Trail σ) : Trail σ := { x with state := x.state.opening }

/-- A block is entered. -/
def push (x : Trail σ) : Trail σ :=
  { x with state := { x.state with scopes := x.state.scopes.push } }

/-- A block is left. -/
def pop (x : Trail σ) : Trail σ := { x with state := { x.state with scopes := x.state.scopes.pop } }

/-- The turn that a macro has now. -/
def turn (x : Trail σ) (e : Entry σ) (node input : Node) : Turn σ :=
  ⟨e, node, input, x.state.shared, x.state.scopes⟩

/-- A macro is invoked. -/
def invoke (x : Trail σ) (chain : Chain) (budget : Nat) (e : Entry σ) (input : Node) : Trail σ :=
  ⟨x.log ++ [⟨chain, budget, .invoked e input x.state⟩],
    x.state.after (e.callable.run x.state.shared input x.state.scopes)⟩

/-- A hearing is reported. -/
def hear (x : Trail σ) (h : Hearing σ) : Trail σ :=
  { x with state := x.state.writeAll (h.told x.state.sink.enabled) }

end Trail

/-! ### Invariants of two runs -/

/-- Pairs of corresponding turns. -/
abbrev Pending (σ : Type) := List (Turn σ × Turn σ)

/-- The event is no invocation. -/
def Event.quiet (event : Event σ) : Bool :=
  match event.action with
  | .invoked .. => false
  | _ => true

theorem Event.turn?_of_quiet {event : Event σ} (h : event.quiet = true) (path : Path) :
    event.turn? path = none := by
  unfold quiet at h
  unfold turn?
  cases haction : event.action with
  | invoked => simp [haction] at h
  | entered | opened | rewrote => rfl

theorem turns_note (x : Trail σ) {event : Event σ} (h : event.quiet = true) :
    turns (x.note event).log = turns x.log := by
  rw [Trail.note, turns_snoc, event.turn?_of_quiet h, Option.toList_none, List.append_nil]

theorem turns_invoke (x : Trail σ) (chain : Chain) (budget : Nat) (e : Entry σ) {node : Node}
    (input : Node) (h : pathOf x.log chain.length = node) :
    turns (x.invoke chain budget e input).log = turns x.log ++ [x.turn e node input] := by
  rw [Trail.invoke, turns_snoc, ← h]
  rfl

/-- What keeps two expansions in lockstep: a correspondence of macros, and an invariant of the two
runs so far, given the turns that are pending. -/
structure Lockstep (t₁ t₂ : Expander σ) where
  /-- Corresponding macros. -/
  Entries : Entry σ → Entry σ → Prop
  /-- What holds of the two runs so far. -/
  Inv : Pending σ → Trail σ → Trail σ → Prop
  mode : ∀ {e₁ e₂}, Entries e₁ e₂ → e₂.mode = e₁.mode
  found : ∀ {P x y}, Inv P x y → ∀ n, List.Forall₂ Entries (t₁.candidates x.state.scopes n)
    (t₂.candidates y.state.scopes n)
  token : ∀ {P x y}, Inv P x y →
    t₂.token.isCancelled y.state.now = t₁.token.isCancelled x.state.now
  note : ∀ {P x y}, Inv P x y → ∀ event : Event σ, event.quiet = true →
    Inv P (x.note event) (y.note event)
  tick : ∀ {P x y}, Inv P x y → Inv P x.tick y.tick
  openings : ∀ {P x y}, Inv P x y → y.state.openings = x.state.openings
  opening : ∀ {P x y}, Inv P x y → Inv P x.opening y.opening
  push : ∀ {P x y}, Inv P x y → Inv P x.push y.push
  pop : ∀ {P x y}, Inv P x y → Inv P x.pop y.pop
  invoke : ∀ {P x y e₁ e₂}, Inv P x y → Entries e₁ e₂ → ∀ (chain : Chain) (budget : Nat)
    (node input : Node), pathOf x.log chain.length = node → pathOf y.log chain.length = node →
    Inv (P ++ [(x.turn e₁ node input, y.turn e₂ node input)]) (x.invoke chain budget e₁ input)
      (y.invoke chain budget e₂ input)
  output : ∀ {P x y e₁ e₂}, Inv P x y → Entries e₁ e₂ → ∀ node input,
    (y.turn e₂ node input).reply.outcome.output? = (x.turn e₁ node input).reply.outcome.output?
  cancelled : ∀ {P x y e₁ e₂}, Inv P x y → Entries e₁ e₂ → ∀ node input,
    (y.turn e₂ node input).reply.outcome = .cancelled ↔
      (x.turn e₁ node input).reply.outcome = .cancelled
  report : ∀ {P Q x y}, Inv (P ++ Q) x y → ∀ node,
    Hearing.OneTier ⟨node, Q.map (·.1), none⟩ →
    Inv P (x.hear ⟨node, Q.map (·.1), none⟩) (y.hear ⟨node, Q.map (·.2), none⟩)
  stop : ∀ {P Q x y e₁ e₂}, Inv (P ++ Q) x y → Entries e₁ e₂ → ∀ node,
    Hearing.OneTier ⟨node, Q.map (·.1), some e₁⟩ →
    Inv P (x.hear ⟨node, Q.map (·.1), some e₁⟩) (y.hear ⟨node, Q.map (·.2), some e₂⟩)

/-- If a tier has macros that want the children of the node expanded before, the first of its macros
is one of them. -/
def Expander.PreparesFirst (t : Expander σ) : Prop :=
  ∀ scopes node, ∀ es ∈ tiersOf (t.candidates scopes node),
    (∃ e ∈ es, e.mode.childrenBefore = true) → ∀ e ∈ es.head?, e.mode.childrenBefore = true

/-- The trail is inside the dispatch of a node, at the depth of that dispatch; or it is not said
inside which. -/
def Trail.At (place : Option (Nat × Node)) (x : Trail σ) : Prop :=
  ∀ depth node, place = some (depth, node) → pathOf x.log depth = node

/-- All that is dispatched is inside the dispatch. -/
def Below (place : Option (Nat × Node)) (log : List (Event σ)) : Prop :=
  ∀ depth node, place = some (depth, node) →
    ∀ event ∈ log, ∀ n, event.action = .entered n → depth < event.chain.length

theorem Below.nil (place : Option (Nat × Node)) : Below place ([] : List (Event σ)) := by
  intro depth node _ event hevent
  simp at hevent

theorem Below.singleton {place : Option (Nat × Node)} {event : Event σ}
    (hentered : ∀ n, event.action ≠ .entered n) : Below place [event] := by
  intro depth node _ e he n haction
  rw [List.mem_singleton] at he
  rw [he] at haction
  exact absurd haction (hentered n)

theorem Below.append {place : Option (Nat × Node)} {log more : List (Event σ)}
    (h : Below place log) (h' : Below place more) : Below place (log ++ more) := by
  intro depth node hplace event hevent
  rcases List.mem_append.1 hevent with hevent | hevent
  · exact h depth node hplace event hevent
  · exact h' depth node hplace event hevent

theorem Trail.At.append {place : Option (Nat × Node)} {x : Trail σ} (h : x.At place)
    {log : List (Event σ)} (hlog : Below place log) (s : State σ) :
    Trail.At place ⟨x.log ++ log, s⟩ := by
  intro depth node hplace
  exact (pathOf_append (hlog depth node hplace)).trans (h depth node hplace)

namespace Lockstep

variable {t₁ t₂ : Expander σ} (L : Lockstep t₁ t₂)

/-- How two computations end: with answers that are related, or both stopped.  In the latter case
some turns are lost on top of those that were pending at the base. -/
def Ends (base : Pending σ) (A : α → β → Pending σ → Prop) :
    Except Cancelled α → Except Cancelled β → Trail σ → Trail σ → Prop
  | .ok a₁, .ok a₂, x, y => ∃ P, A a₁ a₂ P ∧ L.Inv P x y
  | .error _, .error _, x, y => ∃ lost, L.Inv (base ++ lost) x y ∧ (t₁.PreparesFirst → lost = [])
  | _, _, _, _ => False

end Lockstep

namespace Run

variable {t₁ t₂ : Expander σ} {L : Lockstep t₁ t₂} {place : Option (Nat × Node)}
  {base P : Pending σ}

/-- Two computations in lockstep, inside a dispatch: if the first one answers so does the second,
and they end alike. -/
def Abreast (L : Lockstep t₁ t₂) (place : Option (Nat × Node)) (base P : Pending σ) (m₁ : Run σ α)
    (m₂ : Run σ β) (A : α → β → Pending σ → Prop) : Prop :=
  ∀ x y, L.Inv P x y → x.At place → y.At place →
    ∀ r₁ s₁ log₁, m₁ x.state = some ((r₁, s₁), log₁) →
      ∃ r₂ s₂ log₂, m₂ y.state = some ((r₂, s₂), log₂) ∧ Below place log₁ ∧ Below place log₂ ∧
        L.Ends base A r₁ r₂ ⟨x.log ++ log₁, s₁⟩ ⟨y.log ++ log₂, s₂⟩

/-- The answers are the same, and what is pending is given. -/
def Same (P : Pending σ) (a₁ a₂ : α) (P' : Pending σ) : Prop := a₂ = a₁ ∧ P' = P

/-! ### Steps -/

theorem done_abreast {A : α → β → Pending σ → Prop} {a₁ : α} {a₂ : β} (h : A a₁ a₂ P) :
    Abreast L place base P (pure a₁) (pure a₂) A := by
  rintro x y hinv - - r₁ s₁ log₁ ⟨⟩
  refine ⟨.ok a₂, y.state, [], rfl, .nil place, .nil place, P, h, ?_⟩
  simpa using hinv

theorem Abreast.bind {m₁ : Run σ α} {m₂ : Run σ β} {f₁ : α → Run σ γ} {f₂ : β → Run σ δ}
    {A : α → β → Pending σ → Prop} {B : γ → δ → Pending σ → Prop}
    (hm : Abreast L place base P m₁ m₂ A)
    (hf : ∀ a₁ a₂ P', A a₁ a₂ P' → Abreast L place base P' (f₁ a₁) (f₂ a₂) B) :
    Abreast L place base P (m₁ >>= f₁) (m₂ >>= f₂) B := by
  intro x y hinv hx hy r₁ s₁ log₁ hr
  rcases bind_eq_some hr with ⟨c, s, hstop, heq⟩ | ⟨a₁, s, log, more, hok, hrest, rfl⟩
  · obtain ⟨rfl, rfl⟩ := Prod.mk.inj heq
    obtain ⟨r₂, s₂, log₂, hm₂, hbelow₁, hbelow₂, hends⟩ := hm x y hinv hx hy _ _ _ hstop
    cases r₂ with
    | ok a₂ => exact hends.elim
    | error c₂ => exact ⟨_, s₂, log₂, bind_of_error f₂ hm₂, hbelow₁, hbelow₂, hends⟩
  · obtain ⟨r₂, s₂, log₂, hm₂, hbelow₁, hbelow₂, hends⟩ := hm x y hinv hx hy _ _ _ hok
    cases r₂ with
    | error c₂ => exact hends.elim
    | ok a₂ =>
        obtain ⟨P', hA, hinv'⟩ := hends
        obtain ⟨r₃, s₃, log₃, hf₂, hmore₁, hmore₂, hends'⟩ := hf a₁ a₂ P' hA _ _ hinv'
          (hx.append hbelow₁ s) (hy.append hbelow₂ s₂) _ _ _ hrest
        refine ⟨r₃, s₃, log₂ ++ log₃, bind_of_ok hm₂ hf₂, hbelow₁.append hmore₁,
          hbelow₂.append hmore₂, ?_⟩
        rw [← List.append_assoc, ← List.append_assoc]
        exact hends'

/-- The case in which the answers are the same and nothing is pending but the base. -/
theorem Abreast.bind_same {m₁ m₂ : Run σ α} {f₁ : α → Run σ γ} {f₂ : α → Run σ δ}
    {B : γ → δ → Pending σ → Prop} (hm : Abreast L place base base m₁ m₂ (Same base))
    (hf : ∀ a, Abreast L place base base (f₁ a) (f₂ a) B) :
    Abreast L place base base (m₁ >>= f₁) (m₂ >>= f₂) B := by
  refine hm.bind ?_
  rintro a₁ a₂ P' ⟨rfl, rfl⟩
  exact hf a₂

theorem Abreast.imp {m₁ : Run σ α} {m₂ : Run σ β} {A B : α → β → Pending σ → Prop}
    (h : Abreast L place base P m₁ m₂ A) (hAB : ∀ a₁ a₂ P', A a₁ a₂ P' → B a₁ a₂ P') :
    Abreast L place base P m₁ m₂ B := by
  intro x y hinv hx hy r₁ s₁ log₁ hr
  obtain ⟨r₂, s₂, log₂, hm₂, hbelow₁, hbelow₂, hends⟩ := h x y hinv hx hy _ _ _ hr
  refine ⟨r₂, s₂, log₂, hm₂, hbelow₁, hbelow₂, ?_⟩
  cases r₁ <;> cases r₂
  · exact hends
  · exact hends.elim
  · exact hends.elim
  · obtain ⟨P', hA, hinv'⟩ := hends
    exact ⟨P', hAB _ _ _ hA, hinv'⟩

/-- What is pending at a higher base is lost, if the computation stops. -/
theorem Abreast.rebase {Q : Pending σ} {m₁ : Run σ α} {m₂ : Run σ β}
    {A : α → β → Pending σ → Prop} (h : Abreast L place (base ++ Q) P m₁ m₂ A)
    (hQ : t₁.PreparesFirst → Q = []) : Abreast L place base P m₁ m₂ A := by
  intro x y hinv hx hy r₁ s₁ log₁ hr
  obtain ⟨r₂, s₂, log₂, hm₂, hbelow₁, hbelow₂, hends⟩ := h x y hinv hx hy _ _ _ hr
  refine ⟨r₂, s₂, log₂, hm₂, hbelow₁, hbelow₂, ?_⟩
  cases r₁ <;> cases r₂
  · obtain ⟨lost, hinv', hlost⟩ := hends
    refine ⟨Q ++ lost, by rwa [← List.append_assoc], fun hfirst => ?_⟩
    rw [hQ hfirst, hlost hfirst, List.nil_append]
  · exact hends.elim
  · exact hends.elim
  · exact hends

/-- An event that is neither a dispatch nor a turn. -/
theorem note_abreast {event : Event σ} (hquiet : event.quiet = true)
    (hentered : ∀ n, event.action ≠ .entered n) :
    Abreast L place base P (note event) (note event) (Same P) := by
  rintro x y hinv - - r₁ s₁ log₁ ⟨⟩
  have hbelow : Below place [event] := .singleton hentered
  exact ⟨.ok (), y.state, [event], rfl, hbelow, hbelow, P, ⟨rfl, rfl⟩, L.note hinv event hquiet⟩

/-- The children of a node are opened, on the same occasion. -/
theorem openNode_abreast (chain : Chain) (budget : Nat) (node : Node) :
    Abreast L place base P (openNode chain budget node) (openNode chain budget node) (Same P) := by
  rintro x y hinv - - r₁ s₁ log₁ ⟨⟩
  have hbelow : Below place [(⟨chain, budget, .opened node⟩ : Event σ)] := .singleton (by simp)
  exact ⟨.ok (.opening y.state.openings), y.state.opening, [_], rfl, hbelow, hbelow, P,
    ⟨congrArg Cell.opening (L.openings hinv), rfl⟩, L.opening (L.note hinv _ rfl)⟩

/-- A dispatch inside another one is entered, and the rest is done inside it. -/
theorem Abreast.enter {chain : Chain} {budget : Nat} {node : Node} {m₁ : Run σ α} {m₂ : Run σ β}
    {A : α → β → Pending σ → Prop}
    (hplace : ∀ depth n, place = some (depth, n) → depth < chain.length)
    (h : Abreast L (some (chain.length, node)) base P m₁ m₂ A) :
    Abreast L place base P (note ⟨chain, budget, .entered node⟩ >>= fun _ => m₁)
      (note ⟨chain, budget, .entered node⟩ >>= fun _ => m₂) A := by
  intro x y hinv hx hy r₁ s₁ log₁ hr
  obtain ⟨more₁, hrest, rfl⟩ := note_bind_eq_some hr
  have hentered : ∀ z : Trail σ, Trail.At (some (chain.length, node))
      (z.note ⟨chain, budget, .entered node⟩) := by
    rintro z depth n ⟨⟩
    rw [Trail.note, pathOf_snoc]
    exact if_pos rfl
  obtain ⟨r₂, s₂, more₂, hm₂, hbelow₁, hbelow₂, hends⟩ :=
    h _ _ (L.note hinv ⟨chain, budget, .entered node⟩ rfl) (hentered x) (hentered y) _ _ _ hrest
  -- what is inside the inner dispatch is inside the outer one
  have hinside : ∀ more : List (Event σ), Below (some (chain.length, node)) more →
      Below place (⟨chain, budget, .entered node⟩ :: more) := by
    intro more hmore depth n hdepth event hevent n' haction
    have hlt := hplace depth n hdepth
    rcases List.mem_cons.1 hevent with rfl | hevent
    · exact hlt
    · exact Nat.lt_trans hlt (hmore _ _ rfl event hevent n' haction)
  have hnote : note ⟨chain, budget, .entered node⟩ y.state =
      some ((.ok (), y.state), [⟨chain, budget, .entered node⟩]) := rfl
  refine ⟨r₂, s₂, (⟨chain, budget, .entered node⟩ : Event σ) :: more₂, bind_of_ok hnote hm₂,
    hinside more₁ hbelow₁, hinside more₂ hbelow₂, ?_⟩
  simpa [Trail.note] using hends

theorem checkpoint_abreast :
    Abreast L place base base (checkpoint t₁.token) (checkpoint t₂.token) (Same base) := by
  intro x y hinv _ _ r₁ s₁ log₁ hr
  have htoken := L.token hinv
  unfold checkpoint at hr ⊢
  rw [htoken]
  split at hr
  · rename_i hcancelled
    obtain ⟨⟩ := hr
    refine ⟨.error .cancelled, y.state, [], by rw [if_pos hcancelled], .nil place, .nil place, [], ?_,
      fun _ => rfl⟩
    simpa using hinv
  · rename_i hgoing
    obtain ⟨⟩ := hr
    refine ⟨.ok (), y.state.tick, [], by rw [if_neg hgoing], .nil place, .nil place, base, ⟨rfl, rfl⟩,
      ?_⟩
    simpa [Trail.tick] using L.tick hinv

/-- The macros for a node correspond. -/
theorem findMacros_abreast (node : Node) :
    Abreast L place base P (findMacros t₁ node) (findMacros t₂ node) fun es₁ es₂ P' =>
      P' = P ∧ List.Forall₂ L.Entries es₁ es₂ ∧ ∃ scopes, es₁ = t₁.candidates scopes node := by
  rintro x y hinv - - r₁ s₁ log₁ ⟨⟩
  refine ⟨.ok (t₂.candidates y.state.scopes node), y.state, [], rfl, .nil place, .nil place, P,
    ⟨rfl, L.found hinv node, x.state.scopes, rfl⟩, ?_⟩
  simpa using hinv

theorem Abreast.within {m₁ : Run σ α} {m₂ : Run σ β} {A : α → β → Pending σ → Prop}
    (h : Abreast L place base P m₁ m₂ A) (isBlock : Bool) :
    Abreast L place base P (m₁.within isBlock) (m₂.within isBlock) A := by
  intro x y hinv hx hy r₁ s₁ log₁ hr
  rcases within_eq_some hr with ⟨rfl, hr⟩ | ⟨rfl, s, hinner, rfl⟩
  · exact h x y hinv hx hy _ _ _ hr
  · obtain ⟨r₂, s₂, log₂, hm₂, hbelow₁, hbelow₂, hends⟩ :=
      h x.push y.push (L.push hinv) hx hy _ _ _ hinner
    refine ⟨r₂, { s₂ with scopes := s₂.scopes.pop }, log₂, within_of_block hm₂, hbelow₁, hbelow₂, ?_⟩
    cases r₁ <;> cases r₂
    · obtain ⟨lost, hinv', hlost⟩ := hends
      exact ⟨lost, L.pop hinv', hlost⟩
    · exact hends.elim
    · exact hends.elim
    · obtain ⟨P', hA, hinv'⟩ := hends
      exact ⟨P', hA, L.pop hinv'⟩

/-! ### Lists and children -/

theorem list_abreast {expand₁ expand₂ : Node → Run σ (Option Node)}
    (h : ∀ n, Abreast L place base base (expand₁ n) (expand₂ n) (Same base)) (ns : List Node) :
    Abreast L place base base (list expand₁ ns) (list expand₂ ns) (Same base) := by
  induction ns with
  | nil => exact done_abreast ⟨rfl, rfl⟩
  | cons n ns ih =>
      refine (h n).bind_same fun expanded => ?_
      exact ih.bind_same fun rest => done_abreast ⟨rfl, rfl⟩

theorem children_abreast {expand₁ expand₂ : Node → Run σ (Option Node)}
    (h : ∀ n, Abreast L place base base (expand₁ n) (expand₂ n) (Same base)) (chain : Chain)
    (budget : Nat) (node : Node) :
    Abreast L place base base (children chain budget expand₁ node)
      (children chain budget expand₂ node) (Same base) := by
  have htarget : Abreast L place base base (target expand₁ node) (target expand₂ node)
      (Same base) := by
    unfold target
    cases node.target? with
    | none => exact done_abreast ⟨rfl, rfl⟩
    | some callee =>
        dsimp only
        split
        · exact done_abreast ⟨rfl, rfl⟩
        · exact h callee
  unfold children
  split
  · exact done_abreast ⟨rfl, rfl⟩
  refine (openNode_abreast chain budget node).bind_same fun cell => ?_
  refine (list_abreast h _).bind_same fun attrs => ?_
  refine htarget.bind_same fun newTarget => ?_
  exact (list_abreast h _).bind_same fun args => done_abreast ⟨rfl, rfl⟩

/-- The prepared node.  It is known afterwards. -/
theorem prepare_abreast {children₁ children₂ : Run σ (Option Node)}
    (h : Abreast L place base base children₁ children₂ (Same base)) (node : Node) (p : Prepared) :
    Abreast L place base base (prepare children₁ node p) (prepare children₂ node p)
      fun r₁ r₂ P' => Same base r₁ r₂ P' ∧ r₁.1 ≠ .notYet := by
  cases p with
  | unchanged | changed => exact done_abreast ⟨⟨rfl, rfl⟩, by simp⟩
  | notYet =>
      refine h.bind_same fun expanded => ?_
      cases expanded <;> exact done_abreast ⟨⟨rfl, rfl⟩, by simp⟩

/-! ### Tiers -/

section Tiers

variable {chain : Chain} {budget : Nat} {node : Node} {priority : Priority}

/-- Two turns of a tier on a node with the same output, of macros that are treated alike. -/
structure SameRuling (node : Node) (priority : Priority) (q : Turn σ × Turn σ) : Prop where
  node : q.1.node = node
  priority : q.1.entry.mode.priority = priority
  mode : q.2.entry.mode = q.1.entry.mode
  output : q.2.reply.outcome.output? = q.1.reply.outcome.output?

theorem oneTier_of_sameRuling {Q : Pending σ} (h : ∀ q ∈ Q, SameRuling node priority q)
    (stoppedBy : Option (Entry σ)) : Hearing.OneTier ⟨node, Q.map (·.1), stoppedBy⟩ := by
  refine ⟨List.forall_mem_map.2 fun q hq => (h q hq).node, ?_⟩
  refine List.forall_mem_map.2 fun q hq => List.forall_mem_map.2 fun q' hq' => ?_
  rw [(h q hq).priority, (h q' hq').priority]

theorem firstAccepted?_congr {Q : Pending σ} (h : ∀ q ∈ Q, SameRuling node priority q) :
    firstAccepted? (Q.map (·.2.attempt)) = firstAccepted? (Q.map (·.1.attempt)) := by
  induction Q with
  | nil => rfl
  | cons q Q ih =>
      obtain ⟨-, -, hmode, houtput⟩ := h q (by simp)
      have ih := ih fun q' hq' => h q' (List.mem_cons_of_mem q hq')
      have hfirst : (q.2.attempt.output.map fun output => (output, q.2.attempt.entry.mode)) =
          q.1.attempt.output.map fun output => (output, q.1.attempt.entry.mode) := by
        change (q.2.reply.outcome.output?.map fun output => (output, q.2.entry.mode)) =
          q.1.reply.outcome.output?.map fun output => (output, q.1.entry.mode)
        rw [hmode, houtput]
      unfold firstAccepted? at ih ⊢
      rw [List.map_cons, List.map_cons, List.findSome?_cons, List.findSome?_cons, hfirst, ih]

/-- A macro's turn becomes pending. -/
theorem invoke_abreast {e₁ e₂ : Entry σ} (he : L.Entries e₁ e₂) (input : Node) :
    Abreast L (some (chain.length, node)) base P (invoke chain budget e₁ input)
      (invoke chain budget e₂ input) fun reply₁ reply₂ P' => ∃ q : Turn σ × Turn σ,
        P' = P ++ [q] ∧ SameRuling node e₁.mode.priority q ∧
        (reply₂.outcome = .cancelled ↔ reply₁.outcome = .cancelled) ∧
        attemptOf e₁ node reply₁.messages reply₁.outcome = q.1.attempt ∧
        attemptOf e₂ node reply₂.messages reply₂.outcome = q.2.attempt := by
  rintro x y hinv hx hy r₁ s₁ log₁ ⟨⟩
  have hbelow : ∀ e s, Below (some (chain.length, node))
      [(⟨chain, budget, .invoked e input s⟩ : Event σ)] := by
    intro e s depth n _ event hevent n' haction
    rw [List.mem_singleton] at hevent
    simp [hevent] at haction
  refine ⟨.ok (e₂.callable.run y.state.shared input y.state.scopes), _, _, rfl, hbelow _ _,
    hbelow _ _, P ++ [(x.turn e₁ node input, y.turn e₂ node input)], ⟨_, rfl, ?_, ?_, rfl, rfl⟩, ?_⟩
  · exact ⟨rfl, rfl, L.mode he, L.output hinv he node input⟩
  · exact L.cancelled hinv he node input
  · exact L.invoke hinv he chain budget node input (hx _ _ rfl) (hy _ _ rfl)

/-- The report of the turns that are pending on top of the base. -/
theorem report_abreast {Q : Pending σ} (hQ : ∀ q ∈ Q, SameRuling node priority q) :
    Abreast L place base (base ++ Q)
      (tell fun s => report s.sink.enabled (Q.map (·.1.attempt)) node
        (worstOf (Q.map (·.1.attempt))))
      (tell fun s => report s.sink.enabled (Q.map (·.2.attempt)) node
        (worstOf (Q.map (·.2.attempt)))) (Same base) := by
  rintro x y hinv - - r₁ s₁ log₁ ⟨⟩
  refine ⟨.ok (), _, [], rfl, .nil place, .nil place, base, ⟨rfl, rfl⟩, ?_⟩
  have hreport := L.report hinv node (oneTier_of_sameRuling hQ none)
  simpa [Trail.hear, Hearing.told, Hearing.attempts, Function.comp_def] using hreport

/-- The report of the turns that are pending, the last of which asks to stop. -/
theorem stop_abreast {Q : Pending σ} (hQ : ∀ q ∈ Q, SameRuling node priority q)
    {e₁ e₂ : Entry σ} (he : L.Entries e₁ e₂) {A : α → β → Pending σ → Prop} :
    Abreast L place base (base ++ Q)
      (tell (fun s => cancelMessage e₁ node ::
        report s.sink.enabled (Q.map (·.1.attempt)) node (some .error)) >>= fun _ => stop)
      (tell (fun s => cancelMessage e₂ node ::
        report s.sink.enabled (Q.map (·.2.attempt)) node (some .error)) >>= fun _ => stop) A := by
  rintro x y hinv - - r₁ s₁ log₁ ⟨⟩
  refine ⟨.error .cancelled, _, [], rfl, .nil place, .nil place, [], ?_, fun _ => rfl⟩
  have hstop := L.stop hinv he node (oneTier_of_sameRuling hQ (some e₁))
  simpa [Trail.hear, Hearing.told, Hearing.attempts, Function.comp_def] using hstop

/-- Nobody has to wait for the children of the node while there are turns pending: they are known,
or no macro that wants them has a turn, or nothing is pending yet and the first macro wants them. -/
def NoWait (budget : Nat) (es : List (Entry σ)) (p : Prepared) (Q : Pending σ) : Prop :=
  p ≠ .notYet ∨ budget = 1 ∨ (∀ e ∈ es, e.mode.childrenBefore = false) ∨
    (Q = [] ∧ ∀ e ∈ es.head?, e.mode.childrenBefore = true)

/-- A macro that takes the node as it is leaves the others what they had. -/
theorem NoWait.tail {e : Entry σ} {es : List (Entry σ)} {p : Prepared} {Q : Pending σ}
    (h : NoWait budget (e :: es) p Q) (he : e.mode.childrenBefore = false) (Q' : Pending σ) :
    NoWait budget es p Q' := by
  rcases h with h | h | h | ⟨-, h⟩
  · exact .inl h
  · exact .inr (.inl h)
  · exact .inr (.inr (.inl fun e' he' => h e' (List.mem_cons_of_mem e he')))
  · rw [h e rfl] at he
    exact absurd he (by simp)

variable {children₁ children₂ : Run σ (Option Node)}

/-- What a macro is given. -/
theorem input_abreast
    (hchildren : ∀ base, Abreast L place base base children₁ children₂ (Same base))
    {e₁ e₂ : Entry σ} (he : L.Entries e₁ e₂) {es : List (Entry σ)} {p : Prepared} {Q : Pending σ}
    (hturn : ¬ (e₁.mode.childrenBefore && budget == 1) = true)
    (hwait : t₁.PreparesFirst → NoWait budget (e₁ :: es) p Q) :
    Abreast L place base (base ++ Q) (input (prepare children₁ node) node e₁ p)
      (input (prepare children₂ node) node e₂ p) fun ready₁ ready₂ P' =>
        Same (base ++ Q) ready₁ ready₂ P' ∧
          (t₁.PreparesFirst → ∀ Q', NoWait budget es ready₁.1 Q') := by
  unfold input
  rw [L.mode he]
  cases hbefore : e₁.mode.childrenBefore with
  | false => exact done_abreast ⟨⟨rfl, rfl⟩, fun hfirst Q' => (hwait hfirst).tail hbefore Q'⟩
  | true =>
      have hready := prepare_abreast (hchildren (base ++ Q)) node p
      have hweak : ∀ (r₁ r₂ : Prepared × Node) P', Same (base ++ Q) r₁ r₂ P' ∧ r₁.1 ≠ .notYet →
          Same (base ++ Q) r₁ r₂ P' ∧ (t₁.PreparesFirst → ∀ Q', NoWait budget es r₁.1 Q') :=
        fun r₁ r₂ P' h => ⟨h.1, fun _ _ => .inl h.2⟩
      cases p with
      | unchanged | changed => exact done_abreast (hweak _ _ _ ⟨⟨rfl, rfl⟩, by simp⟩)
      | notYet =>
          -- the children are expanded now, and that can be told to stop
          refine Abreast.rebase (hready.imp hweak) fun hfirst => ?_
          rcases hwait hfirst with h | h | h | h
          · exact absurd rfl h
          · simp [hbefore, h] at hturn
          · simp [h e₁ (by simp)] at hbefore
          · exact h.1

/-- What a tier answers: the attempts that the turns have been which are pending on top of the base,
and the same of the prepared node. -/
def TurnsPending (node : Node) (priority : Priority) (base : Pending σ)
    (turn₁ turn₂ : List (Attempt σ) × Prepared) (P : Pending σ) : Prop :=
  ∃ Q : Pending σ, P = base ++ Q ∧ (∀ q ∈ Q, SameRuling node priority q) ∧
    turn₁.1 = Q.map (·.1.attempt) ∧ turn₂.1 = Q.map (·.2.attempt) ∧ turn₂.2 = turn₁.2

/-- **The turns of one tier**, on top of those that are pending. -/
theorem tier_abreast
    (hchildren : ∀ base, Abreast L (some (chain.length, node)) base base children₁ children₂
      (Same base))
    {es₁ es₂ : List (Entry σ)} (hes : List.Forall₂ L.Entries es₁ es₂)
    (hlevel : ∀ e ∈ es₁, e.mode.priority = priority) {Q : Pending σ}
    (hQ : ∀ q ∈ Q, SameRuling node priority q) {p : Prepared}
    (hwait : t₁.PreparesFirst → NoWait budget es₁ p Q) :
    Abreast L (some (chain.length, node)) base (base ++ Q)
      (tier chain budget (prepare children₁ node) node es₁ (Q.map (·.1.attempt)).reverse p)
      (tier chain budget (prepare children₂ node) node es₂ (Q.map (·.2.attempt)).reverse p)
      (TurnsPending node priority base) := by
  induction hes generalizing Q p with
  | nil => exact done_abreast ⟨Q, rfl, hQ, by simp, by simp, rfl⟩
  | @cons e₁ e₂ es₁ es₂ he hes ih =>
      obtain ⟨hfirst, hrest⟩ := List.forall_mem_cons.1 hlevel
      unfold tier
      rw [L.mode he]
      split
      · -- passed over, since the budget is one
        rename_i hskip
        refine ih hrest hQ fun _ => .inr (.inl ?_)
        simp only [Bool.and_eq_true, beq_iff_eq] at hskip
        exact hskip.2
      rename_i hturn
      refine (input_abreast hchildren he hturn hwait).bind ?_
      rintro ready₁ ready₂ P' ⟨⟨rfl, rfl⟩, hwait'⟩
      refine (invoke_abreast he ready₂.2).bind ?_
      rintro reply₁ reply₂ P' ⟨q, rfl, hq, hcancelled, hattempt₁, hattempt₂⟩
      rw [hfirst] at hq
      have hQq : ∀ q' ∈ Q ++ [q], SameRuling node priority q' := by
        intro q' hq'
        rcases List.mem_append.1 hq' with hq' | hq'
        · exact hQ q' hq'
        · rw [List.mem_singleton.1 hq']
          exact hq
      have hgo := @ih hrest (Q ++ [q]) hQq ready₂.1 fun hfirst => hwait' hfirst (Q ++ [q])
      have hstop : Abreast L (some (chain.length, node)) base (base ++ (Q ++ [q]))
          (tell (fun s => cancelMessage e₁ node ::
            report s.sink.enabled ((Q ++ [q]).map (·.1.attempt)) node (some .error)) >>=
              fun _ => stop)
          (tell (fun s => cancelMessage e₂ node ::
            report s.sink.enabled ((Q ++ [q]).map (·.2.attempt)) node (some .error)) >>=
              fun _ => stop)
          (TurnsPending node priority base) := stop_abreast hQq he
      simp only [List.map_append, List.map_cons, List.map_nil, List.reverse_append,
        List.reverse_cons, List.reverse_nil, List.nil_append, List.singleton_append,
        ← List.append_assoc] at hgo hstop
      rw [hattempt₁, hattempt₂]
      simp only [List.reverse_cons, List.reverse_reverse]
      cases houtcome₁ : reply₁.outcome with
      | cancelled =>
          rw [hcancelled.2 houtcome₁]
          exact hstop
      | accepted | declined | failed | crashed =>
          cases houtcome₂ : reply₂.outcome with
          | cancelled => exact absurd (hcancelled.1 houtcome₂) (by simp [houtcome₁])
          | accepted | declined | failed | crashed => exact hgo

/-- **All tiers**, each reported when its turns are over. -/
theorem consult_abreast
    (hchildren : ∀ base, Abreast L (some (chain.length, node)) base base children₁ children₂
      (Same base))
    {tiers₁ tiers₂ : List (List (Entry σ))}
    (htiers : List.Forall₂ (List.Forall₂ L.Entries) tiers₁ tiers₂)
    (hlevels : ∀ es ∈ tiers₁, ∃ priority : Priority, ∀ e ∈ es, e.mode.priority = priority)
    (hfirst : t₁.PreparesFirst → ∀ es ∈ tiers₁, (∃ e ∈ es, e.mode.childrenBefore = true) →
      ∀ e ∈ es.head?, e.mode.childrenBefore = true) (p : Prepared) :
    Abreast L (some (chain.length, node)) base base
      (Run.consult chain budget (prepare children₁ node) node tiers₁ p)
      (Run.consult chain budget (prepare children₂ node) node tiers₂ p) (Same base) := by
  induction htiers generalizing p with
  | nil => exact done_abreast ⟨rfl, rfl⟩
  | @cons es₁ es₂ tiers₁ tiers₂ hes _ ih =>
      obtain ⟨⟨priority, hlevel⟩, hlevels'⟩ := List.forall_mem_cons.1 hlevels
      have hwait : t₁.PreparesFirst → NoWait budget es₁ p ([] : Pending σ) := by
        intro h
        by_cases hbefore : ∃ e ∈ es₁, e.mode.childrenBefore = true
        · exact .inr (.inr (.inr ⟨rfl, hfirst h es₁ (by simp) hbefore⟩))
        · refine .inr (.inr (.inl fun e he => Bool.eq_false_iff.2 fun hbefore' => ?_))
          exact hbefore ⟨e, he, hbefore'⟩
      have htier : Abreast L (some (chain.length, node)) base base
          (tier chain budget (prepare children₁ node) node es₁ [] p)
          (tier chain budget (prepare children₂ node) node es₂ [] p)
          (TurnsPending node priority base) := by
        have hnone : Abreast L (some (chain.length, node)) base (base ++ [])
            (tier chain budget (prepare children₁ node) node es₁ [] p)
            (tier chain budget (prepare children₂ node) node es₂ [] p)
          (TurnsPending node priority base) :=
          tier_abreast hchildren hes hlevel (by simp) hwait
        rwa [List.append_nil] at hnone
      unfold Run.consult
      refine htier.bind ?_
      rintro ⟨attempts₁, p₁⟩ ⟨attempts₂, p₂⟩ P' ⟨Q, rfl, hQ, rfl, rfl, rfl⟩
      refine (report_abreast hQ).bind ?_
      rintro _ _ P' ⟨-, rfl⟩
      dsimp only
      rw [firstAccepted?_congr hQ]
      cases firstAccepted? (Q.map (·.1.attempt)) with
      | none => exact ih hlevels' (fun h es hes => hfirst h es (List.mem_cons_of_mem es₁ hes)) p₂
      | some accepted => exact done_abreast ⟨rfl, rfl⟩

end Tiers

theorem tiersOf_forall₂ {es₁ es₂ : List (Entry σ)} (h : List.Forall₂ L.Entries es₁ es₂) :
    List.Forall₂ (List.Forall₂ L.Entries) (tiersOf es₁) (tiersOf es₂) := by
  have hfilter : ∀ priority : Priority,
      List.Forall₂ L.Entries (es₁.filter (·.mode.priority == priority))
        (es₂.filter (·.mode.priority == priority)) := by
    intro priority
    refine List.rel_filter (fun e₁ e₂ he => ?_) h
    dsimp only
    rw [L.mode he]
  have hempty : ∀ es es' : List (Entry σ), List.Forall₂ L.Entries es es' →
      ((!es.isEmpty) = true ↔ (!es'.isEmpty) = true) := by
    intro es es' hes
    cases hes <;> simp
  unfold tiersOf
  refine List.rel_filter hempty ?_
  induction Priority.descending with
  | nil => exact .nil
  | cons priority priorities ih => exact .cons (hfilter priority) ih

/-! ### Dispatches -/

section Dispatch

variable {again₁ again₂ : Chain → Nat → Node → Bool → Run σ (Option Node)}

/-- Two ways to run dispatches, in lockstep inside every dispatch that leads to them. -/
def AgainAbreast (L : Lockstep t₁ t₂)
    (again₁ again₂ : Chain → Nat → Node → Bool → Run σ (Option Node)) : Prop :=
  ∀ (chain : Chain) budget node changed place base,
    (∀ depth n, place = some (depth, n) → depth < chain.length) →
      Abreast L place base base (again₁ chain budget node changed)
        (again₂ chain budget node changed) (Same base)

theorem ownChildren_abreast (hagain : AgainAbreast L again₁ again₂) (chain : Chain) (budget : Nat)
    (node : Node) (base : Pending σ) :
    Abreast L (some (chain.length, node)) base base (ownChildren again₁ chain budget node)
      (ownChildren again₂ chain budget node) (Same base) := by
  refine children_abreast (fun n => hagain _ budget n false _ base ?_) chain budget node
  rintro depth n ⟨⟩
  simp

theorem reprocess_abreast (hagain : AgainAbreast L again₁ again₂) (chain : Chain) (budget : Nat)
    (node output : Node) (mode : Mode) (base : Pending σ) :
    Abreast L (some (chain.length, node)) base base (reprocess again₁ chain budget node output mode)
      (reprocess again₂ chain budget node output mode) (Same base) := by
  have hinside : ∀ depth n, some (chain.length, node) = some (depth, n) →
      depth < ((⟨node, budget, some mode⟩ :: chain : Chain)).length := by
    rintro depth n ⟨⟩
    simp
  unfold reprocess
  dsimp only
  split
  · exact hagain _ _ output true _ base hinside
  · split
    · exact done_abreast ⟨rfl, rfl⟩
    · refine Abreast.bind_same ?_ fun expanded => done_abreast ⟨rfl, rfl⟩
      exact children_abreast (fun n => hagain _ _ n false _ base hinside) _ _ output

theorem found_abreast (hagain : AgainAbreast L again₁ again₂) (chain : Chain) (budget : Nat)
    {node : Node} (kept : Option Node) (base : Pending σ) {entries₁ entries₂ : List (Entry σ)}
    (hentries : List.Forall₂ L.Entries entries₁ entries₂) {scopes : ScopeStack}
    (hfound : entries₁ = t₁.candidates scopes node) :
    Abreast L (some (chain.length, node)) base base
      (found again₁ chain budget node kept entries₁) (found again₂ chain budget node kept entries₂)
      (Same base) := by
  have hchildren := ownChildren_abreast hagain chain budget node
  unfold found
  refine Abreast.bind_same (consult_abreast hchildren (tiersOf_forall₂ hentries) ?_ ?_ .notYet)
    fun ruling => ?_
  · intro es hes
    obtain ⟨priority, -, rfl⟩ := exists_priority_of_mem_tiersOf hes
    exact ⟨priority, fun e he => eq_of_beq (List.mem_filter.1 he).2⟩
  · intro hfirst es hes
    rw [hfound] at hes
    exact hfirst scopes node es hes
  · cases ruling with
    | claimed output mode =>
        refine (note_abreast rfl (by simp)).bind_same fun _ => ?_
        exact reprocess_abreast hagain chain budget node output mode base
    | unclaimed p =>
        cases p with
        | changed | unchanged => exact done_abreast ⟨rfl, rfl⟩
        | notYet => exact (hchildren base).bind_same fun expanded => done_abreast ⟨rfl, rfl⟩

/-- One dispatch, if what it leads to is in lockstep. -/
theorem dispatch_abreast (hagain : AgainAbreast L again₁ again₂) :
    AgainAbreast L (dispatch again₁ t₁) (dispatch again₂ t₂) := by
  intro chain budget node changed place base hplace
  have hchildren := ownChildren_abreast hagain chain budget node base
  unfold dispatch
  refine Abreast.enter hplace ?_
  split
  · exact done_abreast ⟨rfl, rfl⟩
  refine checkpoint_abreast.bind_same fun _ => ?_
  refine (findMacros_abreast node).bind ?_
  rintro entries₁ entries₂ P' ⟨rfl, hentries, scopes, hfound⟩
  have hempty : entries₂.isEmpty = entries₁.isEmpty := by cases hentries <;> rfl
  rw [hempty]
  split
  · exact hchildren.bind_same fun expanded => done_abreast ⟨rfl, rfl⟩
  · exact (found_abreast hagain chain budget _ _ hentries hfound).within _

end Dispatch

end Run

namespace Expander

variable {t₁ t₂ : Expander σ} (L : Lockstep t₁ t₂)

/-- **Dispatches are in lockstep.** -/
theorem nodeRun_abreast (fuel : Nat) : Run.AgainAbreast L (t₁.nodeRun fuel) (t₂.nodeRun fuel) := by
  induction fuel with
  | zero =>
      intro chain budget node changed place base _ x y _ _ _ r₁ s₁ log₁ hr
      simp [nodeRun, Run.exhausted] at hr
  | succ fuel ih => exact Run.dispatch_abreast ih

/-- The run of a forest, in lockstep.  The answer is the same, or both runs are told to stop; and if
an answer is given, or no tier waits for the children of its node, then nothing is lost. -/
theorem forestRun_abreast {fuel : Nat} {nodes : Forest} {s₁ s₂ : State σ}
    (hbudget : t₂.budget = t₁.budget)
    (hstart : L.Inv [] ⟨[], { s₁ with scopes := t₁.rootScopes }⟩
      ⟨[], { s₂ with scopes := t₂.rootScopes }⟩)
    {r₁ : Step σ Forest} {log₁ : List (Event σ)}
    (hr : t₁.forestRun fuel nodes s₁ = some (r₁, log₁)) :
    ∃ s₂' log₂ lost, t₂.forestRun fuel nodes s₂ = some ((r₁.1, s₂'), log₂) ∧
      L.Inv lost ⟨log₁, r₁.2⟩ ⟨log₂, s₂'⟩ ∧
      ((∃ output, r₁.1 = .ok output) ∨ t₁.PreparesFirst → lost = []) := by
  have hlist : Run.Abreast L none [] [] (t₁.listRun fuel t₁.budget nodes)
      (t₂.listRun fuel t₂.budget nodes) (Run.Same []) := by
    rw [hbudget]
    exact Run.list_abreast
      (fun n => nodeRun_abreast L fuel [] t₁.budget n false none [] (by simp)) nodes
  have hforest : Run.Abreast L none [] []
      (t₁.listRun fuel t₁.budget nodes >>= fun expanded => pure (expanded.getD nodes))
      (t₂.listRun fuel t₂.budget nodes >>= fun expanded => pure (expanded.getD nodes))
      (Run.Same []) :=
    hlist.bind_same fun _ => Run.done_abreast ⟨rfl, rfl⟩
  obtain ⟨r₁, s₁'⟩ := r₁
  obtain ⟨r₂, s₂', log₂, hr₂, -, -, hends⟩ :=
    hforest _ _ hstart (by rintro _ _ ⟨⟩) (by rintro _ _ ⟨⟩) r₁ s₁' log₁ hr
  cases r₁ with
  | ok answer =>
      cases r₂ with
      | error c => exact hends.elim
      | ok answer₂ =>
          obtain ⟨P, ⟨rfl, rfl⟩, hinv⟩ := hends
          exact ⟨s₂', log₂, [], hr₂, hinv, fun _ => rfl⟩
  | error c₁ =>
      cases r₂ with
      | ok answer => exact hends.elim
      | error c₂ =>
          obtain ⟨lost, hinv, hlost⟩ := hends
          refine ⟨s₂', log₂, lost, hr₂, hinv, ?_⟩
          rintro (⟨answer, ⟨⟩⟩ | hfirst)
          exact hlost hfirst

/-- **Expansions are in lockstep**, with one amount of fuel that is enough for both. -/
theorem expandForest_abreast (nodes : Forest) {s₁ s₂ : State σ} (hbudget : t₂.budget = t₁.budget)
    (hstart : L.Inv [] ⟨[], { s₁ with scopes := t₁.rootScopes }⟩
      ⟨[], { s₂ with scopes := t₂.rootScopes }⟩) :
    ∃ log₁ log₂ enough lost,
      (∀ fuel, enough ≤ fuel → t₁.forestRun fuel nodes s₁ = some (t₁.expandForest nodes s₁, log₁) ∧
        t₂.forestRun fuel nodes s₂ = some (t₂.expandForest nodes s₂, log₂)) ∧
      (t₂.expandForest nodes s₂).1 = (t₁.expandForest nodes s₁).1 ∧
      L.Inv lost ⟨log₁, (t₁.expandForest nodes s₁).2⟩ ⟨log₂, (t₂.expandForest nodes s₂).2⟩ ∧
      ((∃ output, (t₁.expandForest nodes s₁).1 = .ok output) ∨ t₁.PreparesFirst → lost = []) := by
  obtain ⟨log₁, enough₁, hruns₁⟩ := t₁.exists_forestRun nodes s₁
  obtain ⟨log₂, enough₂, hruns₂⟩ := t₂.exists_forestRun nodes s₂
  obtain ⟨s₂', log, lost, hr₂, hinv, hlost⟩ :=
    forestRun_abreast L hbudget hstart (hruns₁ (max enough₁ enough₂) (by omega))
  have hsame := (hruns₂ (max enough₁ enough₂) (by omega)).symm.trans hr₂
  obtain ⟨hresult, rfl⟩ := Prod.mk.inj (Option.some.inj hsame)
  rw [hresult] at hruns₂ ⊢
  exact ⟨log₁, log₂, max enough₁ enough₂, lost,
    fun fuel hfuel => ⟨hruns₁ fuel (by omega), hruns₂ fuel (by omega)⟩, rfl, hinv, hlost⟩

end Expander

end MacroForest
