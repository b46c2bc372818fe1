/-
**Every expansion is a run.**

Runs (`MacroForest/Proofs/Expansion/Run.lean`) say what happens in an expansion and in which order.
Here it is shown that they say it of the expansions themselves: a run that answers gives the answer
of the expansion, and with enough fuel every run answers.

For the first half, the one difference between the two is when the frames of blocks are removed.
A dispatch counts the frames that it opens and the whole expansion of the node removes them at the
end; a run removes each frame by itself.  Nothing looks at the scopes in between, so it is enough
that removing frames one after the other is removing them all.

For the second half, a family of runs that differ in their fuel only *converges* if from some fuel
on all of them give the same answer.  Convergence goes through sequences, lists and tiers, and the
run of a dispatch converges by induction on the budget, and for one budget on the size of the node:
an output is dispatched on less budget, and a child is smaller.

Main definitions:

* `MacroForest.Run.Answers` — a run answers like a function;
* `MacroForest.Run.Converges` — the answer is the same from some fuel on.

Main results:

* `MacroForest.Expander.nodeRun_answers` — the run of a node answers like the expansion;
* `MacroForest.Expander.nodeRun_converges` — **every run ends**;
* `MacroForest.Expander.exists_nodeRun`, `MacroForest.Expander.exists_listRun`,
  `MacroForest.Expander.exists_childrenRun`, `MacroForest.Expander.exists_forestRun` — **every
  expansion is a run**.
-/

import MacroForest.Proofs.Expansion.Run
import MacroForest.Proofs.Node.Shape

set_option relaxedAutoImplicit false
set_option autoImplicit false

namespace MacroForest

/-! ### Removing frames -/

theorem ScopeStack.popMany_pop (s : ScopeStack) (n : Nat) :
    (s.popMany n).pop = s.popMany (n + 1) := by
  induction n generalizing s with
  | zero => rfl
  | succ n ih => exact ih s.pop

/-! ### Expansions as sequences of steps -/

namespace Step

variable {σ α β : Type}

/-- One step after the other, unless the first one is told to stop. -/
def andThen (f : State σ → Step σ α) (g : α → State σ → Step σ β) (s : State σ) : Step σ β :=
  match f s with
  | (.error c, s) => (.error c, s)
  | (.ok a, s) => g a s

/-- A step that does nothing. -/
def done (a : α) (s : State σ) : Step σ α := (.ok a, s)

/-- A step that invokes a macro. -/
def invoke (e : Entry σ) (input : Node) (s : State σ) : Step σ (Reply σ) :=
  let reply := e.callable.run s.shared input s.scopes
  (.ok reply, s.after reply)

/-- A step that sends messages. -/
def tell (f : State σ → List Message) (s : State σ) : Step σ Unit := (.ok (), s.writeAll (f s))

/-- A step that counts an opening, with the cell for it. -/
def openNode (s : State σ) : Step σ Cell := (.ok (.opening s.openings), s.opening)

/-- A step that is told to stop. -/
def stop (s : State σ) : Step σ α := (.error .cancelled, s)

/-- What comes first in a sequence of steps that comes to its end does so, too. -/
theorem andThen_eq_ok {f : State σ → Step σ α} {g : α → State σ → Step σ β} {s s' : State σ} {b : β}
    (h : andThen f g s = (.ok b, s')) : ∃ a s₁, f s = (.ok a, s₁) ∧ g a s₁ = (.ok b, s') := by
  unfold andThen at h
  split at h
  · cases h
  · rename_i a s₁ hf
    exact ⟨a, s₁, hf, h⟩

end Step

section Equations

variable {σ : Type} (t : Expander σ) (budget : Nat)

theorem Expander.expandList_nil : t.expandList budget [] = Step.done none := by
  funext s
  rw [Expander.expandList]
  rfl

theorem Expander.expandList_cons (n : Node) (ns : List Node) :
    t.expandList budget (n :: ns) =
      Step.andThen (t.expandNode budget n) fun expanded =>
        Step.andThen (t.expandList budget ns) fun rest =>
          Step.done (if expanded.isNone && !n.calls Reserved.splice then rest.map (n :: ·)
            else some ((expanded.getD n).spliced ++ rest.getD ns)) := by
  funext s
  rw [Expander.expandList]
  simp only [Step.andThen, Step.done]
  rcases t.expandNode budget n s with ⟨c | expanded, s₁⟩
  · rfl
  · dsimp only
    rcases t.expandList budget ns s₁ with ⟨c | rest, s₂⟩
    · rfl
    · dsimp only
      split <;> rfl

/-- The expansion of a target, unless the head is simple. -/
def Expander.expandTarget (node : Node) : State σ → Step σ (Option Node) :=
  match node.target? with
  | some target => if node.hasSimpleHead then Step.done none else t.expandNode budget target
  | none => Step.done none

theorem Expander.expandChildren_zero (node : Node) : t.expandChildren 0 node = Step.done none := by
  funext s
  rw [Expander.expandChildren, if_pos rfl]
  rfl

theorem Expander.expandChildren_pos (hpos : budget ≠ 0) (node : Node) :
    t.expandChildren budget node =
      Step.andThen Step.openNode fun cell =>
        Step.andThen (t.expandList budget node.attrs) fun attrs =>
          Step.andThen (t.expandTarget budget node) fun target =>
            Step.andThen (t.expandList budget node.args) fun args =>
              Step.done (node.replaceParts cell attrs target args) := by
  funext s
  rw [Expander.expandChildren, if_neg hpos]
  simp only [Step.andThen, Step.done, Step.openNode]
  rcases t.expandList budget node.attrs s.opening with ⟨c | attrs, s₁⟩
  · rfl
  -- what is left is the same on both sides once the target's step is named
  · cases node with
    | atom nodeAttrs style value =>
        dsimp only [Node.target?, Expander.expandTarget, Step.done]
        rcases t.expandList budget (Node.atom nodeAttrs style value).args s₁ with ⟨c | args, s₂⟩
        · rfl
        · cases args <;> rfl
    | call nodeAttrs style target args =>
        dsimp only [Node.target?, Expander.expandTarget]
        generalize hstep : (if (Node.call nodeAttrs style target args).hasSimpleHead = true
          then (.ok none, s₁) else t.expandNode budget target s₁ : Step σ (Option Node)) = step
        have hsame : (if (Node.call nodeAttrs style target args).hasSimpleHead = true
            then Step.done none else t.expandNode budget target) s₁ = step := by
          rw [← hstep]
          split <;> rfl
        rw [hsame]
        rcases step with ⟨c | newTarget, s₂⟩
        · rfl
        · dsimp only
          rcases t.expandList budget (Node.call nodeAttrs style target args).args s₂ with
            ⟨c | newArgs, s₃⟩
          · rfl
          · cases newArgs <;> rfl

variable (expandChildren : State σ → Step σ (Option Node)) (node : Node)

/-- The turn of one macro, and the turns of those behind it. -/
theorem runTier_cons (e : Entry σ) (es : List (Entry σ)) (attempts : List (Attempt σ))
    (p : Prepared) :
    runTier budget expandChildren node (e :: es) attempts p =
      if e.mode.childrenBefore && budget == 1 then
        runTier budget expandChildren node es attempts p
      else
        Step.andThen
          (if e.mode.childrenBefore then
            Step.andThen (p.ensure expandChildren) fun p => Step.done (p, p.get node)
          else Step.done (p, node)) fun ready =>
        Step.andThen (Step.invoke e ready.2) fun reply =>
        let attempts := attemptOf e node reply.messages reply.outcome :: attempts
        match reply.outcome with
        | .cancelled =>
          Step.andThen (Step.tell fun s =>
            cancelMessage e node :: report s.sink.enabled attempts.reverse node (some .error))
            fun _ => Step.stop
        | _ => runTier budget expandChildren node es attempts ready.1 := by
  funext s
  rw [runTier]
  by_cases hskip : (e.mode.childrenBefore && budget == 1) = true
  · rw [if_pos hskip, if_pos hskip]
  · rw [if_neg hskip, if_neg hskip]
    cases hbefore : e.mode.childrenBefore with
    | false =>
        simp only [Bool.false_eq_true, if_false, Step.andThen, Step.done, Step.invoke]
        cases (e.callable.run s.shared node s.scopes).outcome <;> rfl
    | true =>
        simp only [if_true, Step.andThen, Step.done, Step.invoke]
        rcases p.ensure expandChildren s with ⟨c | p, s₁⟩
        · rfl
        · dsimp only
          cases (e.callable.run s₁.shared (p.get node) s₁.scopes).outcome <;> rfl

theorem consult_cons (tier : List (Entry σ)) (tiers : List (List (Entry σ))) (p : Prepared) :
    consult budget expandChildren node (tier :: tiers) p =
      Step.andThen (runTier budget expandChildren node tier [] p) fun turn =>
      Step.andThen (Step.tell fun s => report s.sink.enabled turn.1 node (worstOf turn.1)) fun _ =>
      match firstAccepted? turn.1 with
      | some (output, mode) => Step.done (.claimed output mode)
      | none => consult budget expandChildren node tiers turn.2 := by
  funext s
  rw [consult]
  simp only [Step.andThen, Step.tell]
  rcases runTier budget expandChildren node tier [] p s with ⟨c | ⟨attempts, p⟩, s₁⟩
  · rfl
  · dsimp only
    cases firstAccepted? attempts <;> rfl

end Equations

/-! ### Answers -/

namespace Run

variable {σ α β : Type}

/-- Whenever the run answers, it answers like the function. -/
def Answers (m : Run σ α) (f : State σ → Step σ α) : Prop :=
  ∀ s r log, m s = some (r, log) → f s = r

/-- What is seen of the answer of a run that has been evaluated. -/
theorem Answers.view {m : Run σ α} {f : State σ → Step σ α} (h : m.Answers f) {β : Type}
    (see : Step σ α → β) {s : State σ} {b : β} (hm : (m s).map (fun r => see r.1) = some b) :
    see (f s) = b := by
  obtain ⟨⟨r, log⟩, hr, hseen⟩ := Option.map_eq_some_iff.1 hm
  rw [h s r log hr]
  exact hseen

/-- The answer of a run that has been evaluated. -/
theorem Answers.of_map {m : Run σ α} {f : State σ → Step σ α} (h : m.Answers f) {s : State σ}
    {a : α} (hm : (m s).map (·.1.1.toOption) = some (some a)) : ∃ s', f s = (.ok a, s') := by
  have hresult := h.view (·.1.toOption) hm
  cases hf : f s with
  | mk r s' =>
      rw [hf] at hresult
      cases r with
      | error c => cases hresult
      | ok b =>
          obtain rfl : b = a := Option.some.inj hresult
          exact ⟨s', rfl⟩

theorem done_answers (a : α) : (pure a : Run σ α).Answers (Step.done a) := by
  intro s r log hr
  exact (Prod.mk.inj (Option.some.inj hr)).1

theorem stop_answers : (stop : Run σ α).Answers Step.stop := by
  intro s r log hr
  exact (Prod.mk.inj (Option.some.inj hr)).1

theorem tell_answers (f : State σ → List Message) : (tell f).Answers (Step.tell f) := by
  intro s r log hr
  exact (Prod.mk.inj (Option.some.inj hr)).1

theorem openNode_answers (chain : Chain) (budget : Nat) (node : Node) :
    (openNode chain budget node : Run σ Cell).Answers Step.openNode := by
  intro s r log hr
  exact (Prod.mk.inj (Option.some.inj hr)).1

theorem invoke_answers (chain : Chain) (budget : Nat) (e : Entry σ) (input : Node) :
    (invoke chain budget e input).Answers (Step.invoke e input) := by
  intro s r log hr
  exact (Prod.mk.inj (Option.some.inj hr)).1

theorem Answers.bind {m : Run σ α} {f : State σ → Step σ α} {k : α → Run σ β}
    {g : α → State σ → Step σ β} (hm : m.Answers f) (hk : ∀ a, (k a).Answers (g a)) :
    (m >>= k).Answers (Step.andThen f g) := by
  intro s r log hr
  rcases bind_eq_some hr with ⟨c, s₁, hstop, rfl⟩ | ⟨a, s₁, _, _, hok, hrest, -⟩
  · simp only [Step.andThen, hm _ _ _ hstop]
  · simp only [Step.andThen, hm _ _ _ hok]
    exact hk a _ _ _ hrest

/-- Logging is no part of the answer. -/
theorem Answers.note {e : Event σ} {m : Run σ β} {f : State σ → Step σ β} (hm : m.Answers f) :
    (Run.note e >>= fun _ => m).Answers f := by
  intro s r log hr
  obtain ⟨_, hrest, -⟩ := note_bind_eq_some hr
  exact hm _ _ _ hrest

section Parts

variable {t : Expander σ} {budget : Nat} {expand : Node → Run σ (Option Node)}

theorem list_answers {ns : List Node}
    (h : ∀ n ∈ ns, (expand n).Answers (t.expandNode budget n)) :
    (list expand ns).Answers (t.expandList budget ns) := by
  induction ns with
  | nil =>
      rw [Expander.expandList_nil]
      exact done_answers none
  | cons n ns ih =>
      rw [Expander.expandList_cons]
      refine (h n (by simp)).bind fun expanded => ?_
      refine (ih fun m hm => h m (List.mem_cons_of_mem n hm)).bind fun rest => ?_
      exact done_answers _

theorem children_answers (h : ∀ n, (expand n).Answers (t.expandNode budget n)) (chain : Chain)
    (node : Node) :
    (children chain budget expand node).Answers (t.expandChildren budget node) := by
  have htarget : (target expand node).Answers (t.expandTarget budget node) := by
    unfold target Expander.expandTarget
    cases node.target? with
    | none => exact done_answers none
    | some n =>
        dsimp only
        split
        · exact done_answers none
        · exact h n
  unfold children
  split
  · rename_i hzero
    rw [hzero, Expander.expandChildren_zero]
    exact done_answers none
  · rename_i hpos
    rw [Expander.expandChildren_pos t budget hpos]
    refine (openNode_answers chain budget node).bind fun cell => ?_
    refine (list_answers fun n _ => h n).bind fun attrs => ?_
    refine htarget.bind fun newTarget => ?_
    exact (list_answers fun n _ => h n).bind fun args => done_answers _

end Parts

section Tiers

variable {chain : Chain} {budget : Nat} {node : Node} {nodeChildren : Run σ (Option Node)}
  {expandChildren : State σ → Step σ (Option Node)}

theorem prepare_answers (h : nodeChildren.Answers expandChildren) (p : Prepared) :
    (prepare nodeChildren node p).Answers
      (Step.andThen (p.ensure expandChildren) fun p => Step.done (p, p.get node)) := by
  intro s r log hr
  cases p with
  | unchanged | changed => exact done_answers _ s r log hr
  | notYet =>
      rcases bind_eq_some hr with ⟨c, s₁, hstop, rfl⟩ | ⟨expanded, s₁, _, _, hok, hrest, -⟩
      · simp only [Step.andThen, Prepared.ensure, h _ _ _ hstop]
      · simp only [Step.andThen, Prepared.ensure, h _ _ _ hok]
        cases expanded with
        | none => exact done_answers _ s₁ r _ hrest
        | some prepared => exact done_answers _ s₁ r _ hrest

theorem tier_answers (h : nodeChildren.Answers expandChildren) (es : List (Entry σ))
    (attempts : List (Attempt σ)) (p : Prepared) :
    (tier chain budget (prepare nodeChildren node) node es attempts p).Answers
      (runTier budget expandChildren node es attempts p) := by
  induction es generalizing attempts p with
  | nil => exact done_answers _
  | cons e es ih =>
      rw [runTier_cons, tier]
      split
      · exact ih attempts p
      · refine Answers.bind ?_ fun ready => ?_
        · unfold input
          split
          · exact prepare_answers h p
          · exact done_answers _
        · refine (invoke_answers chain budget e ready.2).bind fun reply => ?_
          cases reply.outcome with
          | cancelled => exact (tell_answers _).bind fun _ => stop_answers
          | accepted | declined | failed | crashed => exact ih _ _

/-- The verdict that a ruling is. -/
def Ruling.verdict : Ruling Prepared → Verdict
  | .unclaimed p => .unclaimed p
  | .claimed output mode => .claimed output mode

theorem consult_answers (h : nodeChildren.Answers expandChildren) (tiers : List (List (Entry σ)))
    (p : Prepared) {s : State σ} {r : Step σ (Ruling Prepared)} {log : List (Event σ)}
    (hr : Run.consult chain budget (prepare nodeChildren node) node tiers p s = some (r, log)) :
    MacroForest.consult budget expandChildren node tiers p s = (r.1.map Ruling.verdict, r.2) := by
  induction tiers generalizing p s log with
  | nil =>
      obtain ⟨rfl, -⟩ := Prod.mk.inj (Option.some.inj hr)
      rfl
  | cons es tiers ih =>
      rw [consult_cons]
      rcases bind_eq_some hr with ⟨c, s₁, hstop, rfl⟩ | ⟨turn, s₁, _, _, hturn, hr, -⟩
      · simp only [Step.andThen, tier_answers h es [] p _ _ _ hstop]
        rfl
      · simp only [Step.andThen, tier_answers h es [] p _ _ _ hturn]
        rcases bind_eq_some hr with ⟨c, s₂, htell, -⟩ | ⟨_, s₂, _, _, htell, hr, -⟩
        · simp [tell] at htell
        · rw [tell_answers _ _ _ _ htell]
          cases haccepted : firstAccepted? turn.1 with
          | none =>
              rw [haccepted] at hr
              exact ih turn.2 hr
          | some accepted =>
              rw [haccepted] at hr
              obtain ⟨rfl, -⟩ := Prod.mk.inj (Option.some.inj hr)
              rfl

end Tiers

end Run

/-! ### The answer of a dispatch -/

namespace Expander

variable {σ : Type} (t : Expander σ)

/-- A dispatch that leaves the given result, after the frames that it has opened are removed. -/
def Leaves (dispatched : Step σ (Option Node) × Nat) (frames : Nat)
    (r : Step σ (Option Node)) : Prop :=
  ∃ s k, dispatched = ((r.1, s), frames + k) ∧
    r.2 = { s with scopes := s.scopes.popMany k }

theorem leaves_same (r : Step σ (Option Node)) (frames : Nat) : Leaves (r, frames) frames r :=
  ⟨r.2, 0, rfl, rfl⟩

/-- Inside a block there is one more frame, and it is removed last. -/
theorem Leaves.block {dispatched : Step σ (Option Node) × Nat} {frames : Nat}
    {r : Step σ (Option Node)} (h : Leaves dispatched (frames + 1) r) :
    Leaves dispatched frames (r.1, { r.2 with scopes := r.2.scopes.pop }) := by
  obtain ⟨s, k, hd, hr⟩ := h
  refine ⟨s, k + 1, ?_, ?_⟩
  · rw [hd]
    congr 1
    omega
  · rw [hr, ← ScopeStack.popMany_pop]

/-- What a dispatch does when macros have been found, inside the block's frame if there is one. -/
def dispatchFound (budget : Nat) (node : Node) (changed : Bool) (found : List (Entry σ))
    (frames : Nat) (s : State σ) : Step σ (Option Node) × Nat :=
  let kept : Option Node := if changed then some node else none
  match consult budget (t.expandChildren budget node) node (tiersOf found) .notYet s with
  | (.error c, s) => ((.error c, s), frames)
  | (.ok (.unclaimed (.changed prepared)), s) => ((.ok (some prepared), s), frames)
  | (.ok (.unclaimed .unchanged), s) => ((.ok kept, s), frames)
  | (.ok (.unclaimed .notYet), s) =>
    (Step.andThen (t.expandChildren budget node) (fun e => Step.done (e <|> kept)) s, frames)
  | (.ok (.claimed output mode), s) =>
    let next := budget - mode.cost
    if mode.reprocess = .normal && !(output == node) then
      t.dispatch next output true frames s
    else if mode.reprocess = .never then ((.ok (some output), s), frames)
    else
      (Step.andThen (t.expandChildren next output) (fun e => Step.done (some (e.getD output))) s,
        frames)

theorem dispatch_zero (node : Node) (changed : Bool) (frames : Nat) (s : State σ) :
    t.dispatch 0 node changed frames s =
      ((.ok (if changed then some node else none), s), frames) := by
  rw [dispatch]
  rfl

theorem dispatch_cancelled {budget : Nat} (hpos : budget ≠ 0) (node : Node) (changed : Bool)
    (frames : Nat) {s : State σ} (h : t.token.isCancelled s.now = true) :
    t.dispatch budget node changed frames s = ((.error .cancelled, s), frames) := by
  rw [dispatch, dif_neg hpos, if_pos h]

theorem dispatch_step {budget : Nat} (hpos : budget ≠ 0) (node : Node) (changed : Bool)
    (frames : Nat) {s : State σ} (h : t.token.isCancelled s.now = false) :
    t.dispatch budget node changed frames s =
      let found := t.candidates s.scopes node
      if found.isEmpty then
        (Step.andThen (t.expandChildren budget node)
          (fun e => Step.done (e <|> if changed then some node else none)) s.tick, frames)
      else if node.calls Reserved.block then
        t.dispatchFound budget node changed found (frames + 1)
          { s.tick with scopes := s.scopes.push }
      else t.dispatchFound budget node changed found frames s.tick := by
  have hscopes : s.tick.scopes = s.scopes := rfl
  rw [dispatch, dif_neg hpos, if_neg (by simp [h])]
  dsimp only
  rw [hscopes]
  cases hfound : t.candidates s.scopes node with
  | nil =>
      simp only [List.isEmpty_nil, if_true, Step.andThen, Step.done]
      rcases t.expandChildren budget node s.tick with ⟨c | e, s₁⟩ <;> rfl
  | cons e es =>
      simp only [List.isEmpty_cons, Bool.false_eq_true, if_false, dispatchFound]
      -- the frame is part of the state only; the rest is one and the same
      cases node.calls Reserved.block with
      | false | true =>
          simp only [Bool.false_eq_true, if_false, if_true]
          split <;> rename_i hconsult <;> rw [hconsult]
          · simp only [Step.andThen, Step.done]
            split <;> rename_i hchildren <;> rw [hchildren]
          · dsimp only
            split
            · rfl
            · split
              · rfl
              · simp only [Step.andThen, Step.done]
                split <;> rename_i hchildren <;> rw [hchildren]

/-- The expansion of a node gives what its dispatch leaves. -/
theorem expandNode_of_leaves {budget : Nat} {node : Node} {s : State σ}
    {r : Step σ (Option Node)} (h : Leaves (t.dispatch budget node false 0 s) 0 r) :
    t.expandNode budget node s = r := by
  obtain ⟨s', k, hd, hr⟩ := h
  rw [expandNode, hd]
  dsimp only
  rw [Nat.zero_add, ← hr]

/-- Some way to run dispatches, which leaves what the dispatches leave. -/
def AgainLeaves (again : Chain → Nat → Node → Bool → Run σ (Option Node)) : Prop :=
  ∀ chain budget node changed s r log, again chain budget node changed s = some (r, log) →
    ∀ frames, Leaves (t.dispatch budget node changed frames s) frames r

section AgainLeaves

variable {t} {again : Chain → Nat → Node → Bool → Run σ (Option Node)}

theorem AgainLeaves.answers (h : t.AgainLeaves again) (chain : Chain) (budget : Nat) (n : Node) :
    (again chain budget n false).Answers (t.expandNode budget n) :=
  fun s r log hr => t.expandNode_of_leaves (h chain budget n false s r log hr 0)

/-- The children of a node from there are its expanded children. -/
theorem AgainLeaves.children_answers (h : t.AgainLeaves again) (links chain : Chain) (budget : Nat)
    (node : Node) :
    (Run.children chain budget (fun n => again links budget n false) node).Answers
      (t.expandChildren budget node) :=
  Run.children_answers (h.answers links budget) chain node

/-- What a run does with an output leaves what the dispatch leaves. -/
theorem reprocess_leaves (hagain : t.AgainLeaves again)
    {chain : Chain} {budget : Nat} {node output : Node} {mode : Mode} {s : State σ}
    {r : Step σ (Option Node)} {log : List (Event σ)}
    (hr : Run.reprocess again chain budget node output mode s = some (r, log)) (frames : Nat) :
    Leaves
      (if mode.reprocess = .normal && !(output == node) then
        t.dispatch (budget - mode.cost) output true frames s
      else if mode.reprocess = .never then ((.ok (some output), s), frames)
      else
        (Step.andThen (t.expandChildren (budget - mode.cost) output)
          (fun e => Step.done (some (e.getD output))) s, frames)) frames r := by
  unfold Run.reprocess at hr
  split at hr
  · rename_i hnormal
    rw [if_pos hnormal]
    exact hagain _ _ _ _ _ _ _ hr frames
  · rename_i hnormal
    rw [if_neg hnormal]
    split at hr
    · rename_i hnever
      rw [if_pos hnever]
      obtain ⟨rfl, -⟩ := Prod.mk.inj (Option.some.inj hr)
      exact leaves_same _ frames
    · rename_i hnever
      rw [if_neg hnever]
      have hanswers := (hagain.children_answers (⟨node, budget, some mode⟩ :: chain)
        (⟨node, budget, some mode⟩ :: chain) (budget - mode.cost) output).bind
        fun e => Run.done_answers (some (e.getD output))
      rw [hanswers _ _ _ hr]
      exact leaves_same r frames

theorem found_leaves (hagain : t.AgainLeaves again)
    {chain : Chain} {budget : Nat} {node : Node} {changed : Bool} {entries : List (Entry σ)}
    {s : State σ} {r : Step σ (Option Node)} {log : List (Event σ)}
    (hr : Run.found again chain budget node (if changed then some node else none) entries s =
      some (r, log)) (frames : Nat) :
    Leaves (t.dispatchFound budget node changed entries frames s) frames r := by
  have hchildren : (Run.ownChildren again chain budget node).Answers
      (t.expandChildren budget node) :=
    hagain.children_answers (⟨node, budget, none⟩ :: chain) chain budget node
  unfold dispatchFound
  rcases Run.bind_eq_some hr with ⟨c, s₁, hstop, rfl⟩ | ⟨ruling, s₁, _, _, hruling, hr, -⟩
  · rw [Run.consult_answers hchildren _ _ hstop]
    exact leaves_same _ frames
  · rw [Run.consult_answers hchildren _ _ hruling]
    dsimp only [Except.map]
    cases ruling with
    | unclaimed p =>
        cases p with
        | changed prepared =>
            obtain ⟨rfl, -⟩ := Prod.mk.inj (Option.some.inj hr)
            exact leaves_same _ frames
        | unchanged =>
            obtain ⟨rfl, -⟩ := Prod.mk.inj (Option.some.inj hr)
            exact leaves_same _ frames
        | notYet =>
            have hanswers := hchildren.bind fun e =>
              Run.done_answers (e <|> if changed then some node else none)
            dsimp only [Run.Ruling.verdict]
            rw [hanswers _ _ _ hr]
            exact leaves_same r frames
    | claimed output mode =>
        obtain ⟨_, hr, -⟩ := Run.note_bind_eq_some hr
        exact reprocess_leaves hagain hr frames

theorem dispatch_leaves (hagain : t.AgainLeaves again)
    {chain : Chain} {budget : Nat} {node : Node} {changed : Bool} {s : State σ}
    {r : Step σ (Option Node)} {log : List (Event σ)}
    (hr : Run.dispatch again t chain budget node changed s = some (r, log)) (frames : Nat) :
    Leaves (t.dispatch budget node changed frames s) frames r := by
  obtain ⟨_, -, ⟨rfl, rfl, -⟩ | ⟨hpos, hcancel, rfl, -⟩ | ⟨hpos, hgoing, hempty, hr⟩ |
    ⟨hpos, hgoing, hfound, hr⟩⟩ := Run.dispatch_cases hr
  · rw [dispatch_zero]
    exact leaves_same _ frames
  · rw [dispatch_cancelled t hpos node changed frames hcancel]
    exact leaves_same _ frames
  · rw [dispatch_step t hpos node changed frames hgoing]
    have hanswers := (hagain.children_answers (⟨node, budget, none⟩ :: chain) chain budget node).bind
      fun e => Run.done_answers (e <|> if changed then some node else none)
    dsimp only
    rw [if_pos (List.isEmpty_iff.2 hempty), hanswers _ _ _ hr]
    exact leaves_same r frames
  · rw [dispatch_step t hpos node changed frames hgoing]
    dsimp only
    rw [if_neg fun hempty => hfound (List.isEmpty_iff.1 hempty)]
    -- in a block the frame that was opened first is the one that is removed last
    obtain ⟨r, s'⟩ := r
    rcases Run.within_eq_some hr with ⟨hblock, hr⟩ | ⟨hblock, s₁, hinner, rfl⟩
    · rw [if_neg (by simp [hblock])]
      exact found_leaves hagain hr frames
    · rw [if_pos hblock]
      exact (found_leaves hagain hinner (frames + 1)).block

end AgainLeaves

theorem nodeRun_leaves (fuel : Nat) : t.AgainLeaves (t.nodeRun fuel) := by
  induction fuel with
  | zero =>
      intro chain budget node changed s r log hr
      simp [nodeRun, Run.exhausted] at hr
  | succ fuel ih =>
      intro chain budget node changed s r log hr frames
      exact dispatch_leaves ih hr frames

/-- **The run of a node answers like the expansion of the node.** -/
theorem nodeRun_answers (fuel : Nat) (chain : Chain) (budget : Nat) (node : Node) :
    (t.nodeRun fuel chain budget node false).Answers (t.expandNode budget node) :=
  (t.nodeRun_leaves fuel).answers chain budget node

end Expander

/-! ### Convergence -/

namespace Run

variable {σ α β : Type}

/-- The runs of a family have the same answer from some fuel on. -/
def Converges (m : Nat → Run σ α) : Prop := ∀ s, ∃ r k, ∀ fuel, k ≤ fuel → m fuel s = some r

theorem converges_const {m : Run σ α} (h : ∀ s, ∃ r, m s = some r) : Converges fun _ => m := by
  intro s
  obtain ⟨r, hr⟩ := h s
  exact ⟨r, 0, fun _ _ => hr⟩

theorem converges_done (a : α) : Converges fun _ => (pure a : Run σ α) :=
  converges_const fun _ => ⟨_, rfl⟩

theorem converges_note (e : Event σ) : Converges fun _ => note e := converges_const fun _ => ⟨_, rfl⟩

theorem converges_openNode (chain : Chain) (budget : Nat) (node : Node) :
    Converges fun _ => (openNode chain budget node : Run σ Cell) :=
  converges_const fun _ => ⟨_, rfl⟩

theorem converges_tell (f : State σ → List Message) : Converges fun _ => tell f :=
  converges_const fun _ => ⟨_, rfl⟩

theorem Converges.bind {m : Nat → Run σ α} {f : Nat → α → Run σ β} (hm : Converges m)
    (hf : ∀ a, Converges fun fuel => f fuel a) : Converges fun fuel => m fuel >>= f fuel := by
  intro s
  obtain ⟨⟨⟨r, s₁⟩, log⟩, k, hk⟩ := hm s
  cases r with
  | error c => exact ⟨_, k, fun fuel hle => bind_of_error _ (hk fuel hle)⟩
  | ok a =>
      obtain ⟨⟨r', log'⟩, k', hk'⟩ := hf a s₁
      refine ⟨(r', log ++ log'), max k k', fun fuel hle => ?_⟩
      exact bind_of_ok (hk fuel (by omega)) (hk' fuel (by omega))

theorem Converges.within {m : Nat → Run σ α} (hm : Converges m) (isBlock : Bool) :
    Converges fun fuel => (m fuel).within isBlock := by
  intro s
  cases isBlock with
  | false => exact hm s
  | true =>
      obtain ⟨⟨⟨r, s₁⟩, log⟩, k, hk⟩ := hm { s with scopes := s.scopes.push }
      exact ⟨_, k, fun fuel hle => within_of_block (hk fuel hle)⟩

/-- A run needs a unit of fuel for itself. -/
theorem Converges.of_succ {m : Nat → Run σ α} (h : Converges fun fuel => m (fuel + 1)) :
    Converges m := by
  intro s
  obtain ⟨r, k, hk⟩ := h s
  refine ⟨r, k + 1, fun fuel hle => ?_⟩
  obtain ⟨fuel, rfl⟩ : ∃ k, fuel = k + 1 := ⟨fuel - 1, by omega⟩
  exact hk fuel (by omega)

theorem list_converges {expand : Nat → Node → Run σ (Option Node)} {ns : List Node}
    (h : ∀ n ∈ ns, Converges fun fuel => expand fuel n) :
    Converges fun fuel => list (expand fuel) ns := by
  induction ns with
  | nil => exact converges_done none
  | cons n ns ih =>
      refine (h n (by simp)).bind fun expanded => ?_
      refine (ih fun m hm => h m (List.mem_cons_of_mem n hm)).bind fun rest => ?_
      exact converges_done _

/-- The parts of a node are smaller than the node. -/
theorem children_converges {expand : Nat → Node → Run σ (Option Node)} {node : Node}
    (chain : Chain) (budget : Nat)
    (h : ∀ n : Node, n.size < node.size → Converges fun fuel => expand fuel n) :
    Converges fun fuel => children chain budget (expand fuel) node := by
  unfold children
  split
  · exact converges_done none
  · refine (converges_openNode chain budget node).bind fun cell => ?_
    refine Converges.bind (list_converges fun n hn => h n ?_) fun attrs => ?_
    · exact Nat.lt_trans (Node.size_lt_sizeList_of_mem hn) (Node.sizeList_attrs_lt node)
    refine Converges.bind ?_ fun newTarget => ?_
    · unfold target
      cases htarget : node.target? with
      | none => exact converges_done none
      | some n =>
          dsimp only
          split
          · exact converges_done none
          · exact h n (Node.size_target_lt htarget)
    refine Converges.bind (list_converges fun n hn => h n ?_) fun args => converges_done _
    exact Nat.lt_trans (Node.size_lt_sizeList_of_mem hn) (Node.sizeList_args_lt node)

section Tiers

variable {π : Type} {prepare : Nat → π → Run σ (π × Node)} (chain : Chain) (budget : Nat)
  (node : Node)

theorem tier_converges (h : ∀ p, Converges fun fuel => prepare fuel p) (es : List (Entry σ))
    (attempts : List (Attempt σ)) (p : π) :
    Converges fun fuel => tier chain budget (prepare fuel) node es attempts p := by
  induction es generalizing attempts p with
  | nil => exact converges_done _
  | cons e es ih =>
      unfold tier
      split
      · exact ih attempts p
      · refine Converges.bind ?_ fun ready => ?_
        · unfold input
          split
          · exact h p
          · exact converges_done _
        refine Converges.bind (converges_const fun _ => ⟨_, rfl⟩) fun reply => ?_
        cases reply.outcome with
        | cancelled =>
            exact (converges_tell _).bind fun _ => converges_const fun _ => ⟨_, rfl⟩
        | accepted | declined | failed | crashed => exact ih _ _

theorem consult_converges (h : ∀ p, Converges fun fuel => prepare fuel p)
    (tiers : List (List (Entry σ))) (p : π) :
    Converges fun fuel => Run.consult chain budget (prepare fuel) node tiers p := by
  induction tiers generalizing p with
  | nil => exact converges_done _
  | cons es tiers ih =>
      unfold Run.consult
      refine (tier_converges chain budget node h es [] p).bind fun turn => ?_
      refine (converges_tell _).bind fun _ => ?_
      cases firstAccepted? turn.1 with
      | none => exact ih turn.2
      | some accepted => exact converges_done _

end Tiers

section Dispatch

variable {again : Nat → Chain → Nat → Node → Bool → Run σ (Option Node)} {budget : Nat} {node : Node}

theorem reprocess_converges (hpos : budget ≠ 0)
    (hlower : ∀ next, next < budget → ∀ chain n changed,
      Converges fun fuel => again fuel chain next n changed)
    (chain : Chain) (output : Node) (mode : Mode) :
    Converges fun fuel => reprocess (again fuel) chain budget node output mode := by
  have hnext : budget - mode.cost < budget := by
    have := mode.cost_pos
    omega
  unfold reprocess
  dsimp only
  split
  · exact hlower _ hnext _ _ _
  · split
    · exact converges_done _
    · refine Converges.bind ?_ fun expanded => converges_done _
      exact children_converges _ _ fun n _ => hlower _ hnext _ n false

theorem dispatch_converges (t : Expander σ)
    (hlower : ∀ next, next < budget → ∀ chain n changed,
      Converges fun fuel => again fuel chain next n changed)
    (hparts : ∀ n : Node, n.size < node.size → ∀ chain,
      Converges fun fuel => again fuel chain budget n false)
    (chain : Chain) (changed : Bool) :
    Converges fun fuel => dispatch (again fuel) t chain budget node changed := by
  have hchildren : Converges fun fuel => ownChildren (again fuel) chain budget node :=
    children_converges chain budget fun n hn => hparts n hn _
  unfold dispatch
  refine (converges_note _).bind fun _ => ?_
  split
  · exact converges_done _
  rename_i hpos
  refine Converges.bind (converges_const fun s => ?_) fun _ => ?_
  · unfold checkpoint
    split <;> exact ⟨_, rfl⟩
  refine Converges.bind (converges_const fun _ => ⟨_, rfl⟩) fun entries => ?_
  split
  · exact hchildren.bind fun _ => converges_done _
  refine Converges.within ?_ _
  have hprepare : ∀ p, Converges fun fuel =>
      prepare (ownChildren (again fuel) chain budget node) node p := by
    intro p
    cases p with
    | unchanged | changed => exact converges_done _
    | notYet =>
        refine hchildren.bind fun expanded => ?_
        cases expanded <;> exact converges_done _
  refine (consult_converges chain budget node hprepare _ _).bind fun ruling => ?_
  cases ruling with
  | claimed output mode =>
      exact (converges_note _).bind fun _ => reprocess_converges hpos hlower chain output mode
  | unclaimed p =>
      cases p with
      | changed | unchanged => exact converges_done _
      | notYet => exact hchildren.bind fun _ => converges_done _

end Dispatch

end Run

namespace Expander

variable {σ : Type} (t : Expander σ)

/-- **Every run ends**: an output is dispatched on less budget, and a child is smaller. -/
theorem nodeRun_converges (budget : Nat) (node : Node) (chain : Chain) (changed : Bool) :
    Run.Converges fun fuel => t.nodeRun fuel chain budget node changed := by
  induction budget using Nat.strongRecOn generalizing node chain changed with
  | ind budget ihBudget =>
      induction hsize : node.size using Nat.strongRecOn generalizing node chain changed with
      | ind size ihSize =>
          subst hsize
          refine Run.Converges.of_succ ?_
          refine Run.dispatch_converges t ?_ ?_ chain changed
          · intro next hnext chain n changed
            exact ihBudget next hnext n chain changed
          · intro n hn chain
            exact ihSize n.size hn n chain false rfl

/-- **Every expansion of a node is a run.** -/
theorem exists_nodeRun (budget : Nat) (node : Node) (s : State σ) :
    ∃ log k, ∀ fuel, k ≤ fuel →
      t.nodeRun fuel [] budget node false s = some (t.expandNode budget node s, log) := by
  obtain ⟨⟨r, log⟩, k, hk⟩ : ∃ r k, ∀ fuel, k ≤ fuel →
      t.nodeRun fuel [] budget node false s = some r := t.nodeRun_converges budget node [] false s
  have hr := t.nodeRun_answers k [] budget node s r log (hk k (Nat.le_refl k))
  exact ⟨log, k, fun fuel hle => by rw [hk fuel hle, hr]⟩

theorem exists_listRun (budget : Nat) (nodes : List Node) (s : State σ) :
    ∃ log k, ∀ fuel, k ≤ fuel →
      t.listRun fuel budget nodes s = some (t.expandList budget nodes s, log) := by
  obtain ⟨⟨r, log⟩, k, hk⟩ : ∃ r k, ∀ fuel, k ≤ fuel → t.listRun fuel budget nodes s = some r :=
    Run.list_converges (fun n _ => t.nodeRun_converges budget n [] false) s
  have hr := Run.list_answers (fun n _ => t.nodeRun_answers k [] budget n) s r log
    (hk k (Nat.le_refl k))
  exact ⟨log, k, fun fuel hle => by rw [hk fuel hle, hr]⟩

theorem exists_childrenRun (budget : Nat) (node : Node) (s : State σ) :
    ∃ log k, ∀ fuel, k ≤ fuel →
      t.childrenRun fuel budget node s = some (t.expandChildren budget node s, log) := by
  obtain ⟨⟨r, log⟩, k, hk⟩ : ∃ r k, ∀ fuel, k ≤ fuel → t.childrenRun fuel budget node s = some r :=
    Run.children_converges [] budget (fun n _ => t.nodeRun_converges budget n [] false) s
  have hr := Run.children_answers (fun n => t.nodeRun_answers k [] budget n) [] node s r log
    (hk k (Nat.le_refl k))
  exact ⟨log, k, fun fuel hle => by rw [hk fuel hle, hr]⟩

theorem exists_forestRun (nodes : Forest) (s : State σ) :
    ∃ log k, ∀ fuel, k ≤ fuel →
      t.forestRun fuel nodes s = some (t.expandForest nodes s, log) := by
  obtain ⟨log, k, hk⟩ := t.exists_listRun t.budget nodes { s with scopes := t.rootScopes }
  refine ⟨log, k, fun fuel hle => ?_⟩
  have hlist := hk fuel hle
  -- the forest itself is read back where nothing has changed
  unfold forestRun expandForest
  rcases hresult : t.expandList t.budget nodes { s with scopes := t.rootScopes } with ⟨c | e, s₁⟩
  · rw [hresult] at hlist
    exact Run.bind_of_error _ hlist
  · rw [hresult] at hlist
    have := Run.bind_of_ok (f := fun e => pure (e.getD nodes)) hlist rfl
    rwa [List.append_nil] at this

theorem listRun_answers (fuel budget : Nat) (nodes : List Node) :
    (t.listRun fuel budget nodes).Answers (t.expandList budget nodes) :=
  Run.list_answers fun n _ => t.nodeRun_answers fuel [] budget n

theorem childrenRun_answers (fuel budget : Nat) (node : Node) :
    (t.childrenRun fuel budget node).Answers (t.expandChildren budget node) :=
  Run.children_answers (fun n => t.nodeRun_answers fuel [] budget n) [] node

theorem forestRun_answers (fuel : Nat) (nodes : Forest) :
    (t.forestRun fuel nodes).Answers (t.expandForest nodes) := by
  intro s r log hr
  unfold forestRun at hr
  unfold expandForest
  rcases Run.bind_eq_some hr with ⟨c, s₁, hstop, rfl⟩ | ⟨expanded, s₁, log₁, log₂, hok, hrest, -⟩
  · rw [t.listRun_answers fuel t.budget nodes _ _ _ hstop]
  · obtain ⟨⟩ := hrest
    rw [t.listRun_answers fuel t.budget nodes _ _ _ hok]

end Expander

end MacroForest
