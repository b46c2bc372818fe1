/-
**Turns and hearings.**

What the macros of a tier have to say is kept back until all of them have had their turn, and is
then told in one report.  Between two turns much can happen, for the children of a node are expanded
when the first macro asks for it, and other tiers are heard on the way.  So the turns of a run and
the reports that it sends are two lists, and which turns a report is about has to be kept apart from
the order of the log.

A log tells of an invocation what the macro was given.  For a macro that wants its children expanded
before, this is not the node that was dispatched, and messages are about that one.  It is found
further up in the log: the node that was dispatched last at the same depth.

Main definitions:

* `MacroForest.Turn`, `MacroForest.turns` — a macro's turn, and the turns of a log;
* `MacroForest.pathOf` — the node dispatched last at each depth;
* `MacroForest.FirstToAccept` — who wins among some turns;
* `MacroForest.Hearing`, `MacroForest.Hearing.told` — some turns on a node that are reported
  together, and the report;
* `MacroForest.Hearing.OneTier` — the turns are those of one tier.

Main results:

* `MacroForest.turns_snoc`, `MacroForest.pathOf_append` — how a log grows;
* `MacroForest.Sink.messages_writeAll` — what a sink holds after a report.
-/

import MacroForest.Proofs.Expansion.Run

set_option relaxedAutoImplicit false
set_option autoImplicit false

namespace MacroForest

variable {σ : Type}

/-! ### Turns -/

/-- A macro's turn: what it is given, and the node that was dispatched. -/
structure Turn (σ : Type) where
  /-- The macro. -/
  entry : Entry σ
  /-- The node that was dispatched. -/
  node : Node
  /-- The node that the macro is given. -/
  input : Node
  /-- What the macros share at that time. -/
  shared : σ
  /-- The scopes at that time. -/
  scopes : ScopeStack

namespace Turn

/-- What the macro does. -/
def reply (u : Turn σ) : Reply σ := u.entry.callable.run u.shared u.input u.scopes

/-- What is reported of the turn. -/
def attempt (u : Turn σ) : Attempt σ :=
  attemptOf u.entry u.node u.reply.messages u.reply.outcome

/-- The output of a macro that accepts in its turn. -/
def output? (u : Turn σ) : Option Node := u.reply.outcome.output?

end Turn

/-- The budget can pay for what the macro accepts: with a budget of one, the children cannot be
expanded before. -/
def Entry.payable (budget : Nat) (e : Entry σ) : Bool := !(e.mode.childrenBefore && budget == 1)

/-- The nodes dispatched last, by the length of the chain that led to them. -/
abbrev Path := Nat → Node

/-- The path after an event. -/
def Path.enter (path : Path) (event : Event σ) : Path := fun depth =>
  match event.action with
  | .entered node => if depth = event.chain.length then node else path depth
  | _ => path depth

/-- The path after a log. -/
def pathOf (log : List (Event σ)) : Path := log.foldl Path.enter fun _ => default

/-- The turn that an event is, given the path to it. -/
def Event.turn? (path : Path) (event : Event σ) : Option (Turn σ) :=
  match event.action with
  | .invoked e input s => some ⟨e, path event.chain.length, input, s.shared, s.scopes⟩
  | _ => none

/-- The turns of a log that continues a path. -/
def turnsFrom (path : Path) : List (Event σ) → List (Turn σ)
  | [] => []
  | event :: log => (event.turn? path).toList ++ turnsFrom (path.enter event) log

/-- The turns of a log, in their order. -/
def turns (log : List (Event σ)) : List (Turn σ) := turnsFrom (fun _ => default) log

theorem turnsFrom_append (path : Path) (log more : List (Event σ)) :
    turnsFrom path (log ++ more) =
      turnsFrom path log ++ turnsFrom (log.foldl Path.enter path) more := by
  induction log generalizing path with
  | nil => rfl
  | cons event log ih => simp [turnsFrom, ih]

theorem turns_snoc (log : List (Event σ)) (event : Event σ) :
    turns (log ++ [event]) = turns log ++ (event.turn? (pathOf log)).toList := by
  rw [turns, turnsFrom_append]
  simp [turnsFrom, turns, pathOf]

theorem pathOf_snoc (log : List (Event σ)) (event : Event σ) :
    pathOf (log ++ [event]) = (pathOf log).enter event := by
  rw [pathOf, List.foldl_append]
  rfl

/-- What is dispatched further down does not change the path above. -/
theorem pathOf_append {log more : List (Event σ)} {depth : Nat}
    (h : ∀ event ∈ more, ∀ node, event.action = .entered node → depth < event.chain.length) :
    pathOf (log ++ more) depth = pathOf log depth := by
  induction more generalizing log with
  | nil => rw [List.append_nil]
  | cons event more ih =>
      have hevent := h event (by simp)
      have hmore := @ih (log ++ [event]) fun e he => h e (List.mem_cons_of_mem event he)
      rw [List.append_assoc, List.singleton_append, pathOf_snoc] at hmore
      rw [hmore, Path.enter]
      cases haction : event.action with
      | entered node =>
          have := hevent node haction
          exact if_neg (by omega)
      | opened | invoked | rewrote => rfl

/-! ### The first to accept -/

/-- Of some turns, the winner is the first that accepts, with the output. -/
def FirstToAccept (turns : List (Turn σ)) (winner : Turn σ) (output : Node) : Prop :=
  ∃ before after, turns = before ++ winner :: after ∧ (∀ u ∈ before, u.output? = none) ∧
    winner.output? = some output

theorem FirstToAccept.mem {turns : List (Turn σ)} {winner : Turn σ} {output : Node}
    (h : FirstToAccept turns winner output) : winner ∈ turns := by
  obtain ⟨before, after, rfl, -⟩ := h
  simp

theorem FirstToAccept.accepts {turns : List (Turn σ)} {winner : Turn σ} {output : Node}
    (h : FirstToAccept turns winner output) : winner.output? = some output := by
  obtain ⟨_, _, _, _, haccepts⟩ := h
  exact haccepts

theorem FirstToAccept.append_left {turns earlier : List (Turn σ)} {winner : Turn σ} {output : Node}
    (h : FirstToAccept turns winner output) (hearlier : ∀ u ∈ earlier, u.output? = none) :
    FirstToAccept (earlier ++ turns) winner output := by
  obtain ⟨before, after, rfl, hbefore, hwinner⟩ := h
  exact ⟨earlier ++ before, after, by simp, List.forall_mem_append.2 ⟨hearlier, hbefore⟩, hwinner⟩

theorem firstAccepted?_eq_none {turns : List (Turn σ)}
    (h : firstAccepted? (turns.map Turn.attempt) = none) : ∀ u ∈ turns, u.output? = none := by
  intro u hu
  have := List.findSome?_eq_none_iff.1 h u.attempt (List.mem_map_of_mem hu)
  exact Option.map_eq_none_iff.1 this

theorem firstAccepted?_eq_some {turns : List (Turn σ)} {output : Node} {mode : Mode}
    (h : firstAccepted? (turns.map Turn.attempt) = some (output, mode)) :
    ∃ winner, FirstToAccept turns winner output ∧ winner.entry.mode = mode := by
  unfold firstAccepted? at h
  rw [List.findSome?_map, List.findSome?_eq_some_iff] at h
  obtain ⟨before, winner, after, hturns, hwinner, hbefore⟩ := h
  obtain ⟨output', houtput, heq⟩ := Option.map_eq_some_iff.1 hwinner
  obtain ⟨rfl, rfl⟩ := Prod.mk.inj heq
  refine ⟨winner, ⟨before, after, hturns, fun u hu => ?_, houtput⟩, rfl⟩
  exact Option.map_eq_none_iff.1 (hbefore u hu)

/-! ### Hearings -/

/-- Some turns on a node that are reported together. -/
structure Hearing (σ : Type) where
  /-- The node that was dispatched. -/
  node : Node
  /-- The turns, in their order. -/
  turns : List (Turn σ)
  /-- The macro that asked for the expansion to stop. -/
  stoppedBy : Option (Entry σ)

namespace Hearing

/-- The attempts that the turns have been. -/
def attempts (h : Hearing σ) : List (Attempt σ) := h.turns.map Turn.attempt

/-- The report; `enabled` tells which severities are heard. -/
def told (enabled : Severity → Bool) (h : Hearing σ) : List Message :=
  match h.stoppedBy with
  | none => report enabled h.attempts h.node (worstOf h.attempts)
  | some e => cancelMessage e h.node :: report enabled h.attempts h.node (some .error)

/-- The turns are those of one tier: they are on the node of the hearing, and of macros of one
priority. -/
structure OneTier (h : Hearing σ) : Prop where
  about : ∀ u ∈ h.turns, u.node = h.node
  level : ∀ u ∈ h.turns, ∀ v ∈ h.turns, u.entry.mode.priority = v.entry.mode.priority

end Hearing

/-! ### Sinks -/

namespace Sink

@[simp] theorem least_writeAll (k : Sink) (now : Nat) (ms : List Message) :
    (k.writeAll now ms).least = k.least := by
  induction ms generalizing k with
  | nil => rfl
  | cons m ms ih =>
      have hwrite : (k.write now m).least = k.least := by
        unfold write
        split <;> rfl
      exact (ih (k.write now m)).trans hwrite

@[simp] theorem enabled_writeAll (k : Sink) (now : Nat) (ms : List Message) :
    (k.writeAll now ms).enabled = k.enabled := by
  funext severity
  rw [enabled, enabled, least_writeAll]

/-- What is written is kept as far as it is severe enough, behind what was there. -/
theorem messages_writeAll (k : Sink) (now : Nat) (ms : List Message) :
    (k.writeAll now ms).messages = k.messages ++ ms.filter (k.enabled ·.severity) := by
  induction ms generalizing k with
  | nil => simp [writeAll]
  | cons m ms ih =>
      have hstep := ih (k.write now m)
      have henabled : (k.write now m).enabled = k.enabled := enabled_writeAll k now [m]
      rw [henabled] at hstep
      refine hstep.trans ?_
      unfold write
      by_cases hkept : k.enabled m.severity = true
      · simp [hkept, messages, records]
      · simp [hkept]

end Sink

end MacroForest
