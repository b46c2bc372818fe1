/-
**Consulting the macros for a node.**

The candidates for a node are asked tier by tier, the highest priority first.  All macros of a tier
have their turn, in the order of registration; if one of them accepts, the first one to do so wins
and the lower tiers are not asked.  Macros that want the children expanded before are all given the
same node, which is prepared when the first of them has its turn.  They are passed over if the
budget is one, since the preparation and the output would cost two.

Main definitions:

* `MacroForest.tiersOf` — the candidates by priority;
* `MacroForest.Prepared` — the node with its children expanded, as far as it is known;
* `MacroForest.runTier` — the turns of one tier;
* `MacroForest.consult` — **the verdict of all tiers**.
-/

import MacroForest.Expansion.State
import MacroForest.Macro.Report

set_option relaxedAutoImplicit false
set_option autoImplicit false

namespace MacroForest

variable {σ : Type}

/-! ### Tiers -/

/-- All priorities, from the highest down. -/
def Priority.descending : List Priority :=
  [.overrideMax, .override, .internalOverride, .normal, .internalFallback, .fallback, .fallbackMin]

/-- The candidates in tiers of equal priority, from the highest down.  Within a tier they keep
their order. -/
def tiersOf (found : List (Entry σ)) : List (List (Entry σ)) :=
  (Priority.descending.map fun p => found.filter (·.mode.priority == p)).filter (!·.isEmpty)

/-! ### Prepared nodes -/

/-- The node with its children expanded. -/
inductive Prepared where
  /-- Not expanded yet. -/
  | notYet
  /-- Expanded, and the same as before. -/
  | unchanged
  /-- Expanded to another node. -/
  | changed (node : Node)

/-- The prepared node, given the node as it was. -/
def Prepared.get (p : Prepared) (node : Node) : Node :=
  match p with
  | .changed prepared => prepared
  | _ => node

/-- A step of an expansion: a result or the signal to stop, and the state afterwards in any case. -/
abbrev Step (σ α : Type) := Except Cancelled α × State σ

/-- Expands the children unless that has been done. -/
def Prepared.ensure (expandChildren : State σ → Step σ (Option Node)) (p : Prepared)
    (s : State σ) : Step σ Prepared :=
  match p with
  | .notYet =>
    match expandChildren s with
    | (.ok (some node), s) => (.ok (.changed node), s)
    | (.ok none, s) => (.ok .unchanged, s)
    | (.error c, s) => (.error c, s)
  | p => (.ok p, s)

/-! ### One tier -/

/-- The message on a macro that asks for the expansion to stop. -/
def cancelMessage (e : Entry σ) (node : Node) : Message :=
  ⟨.error, node, "Macro-processing task cancelled in " ++ e.label⟩

/-- An attempt that ended with an outcome.  A failure is a message on the dispatched node. -/
def attemptOf (e : Entry σ) (node : Node) (messages : List Message) (outcome : Outcome) :
    Attempt σ :=
  let failure := outcome.failure?.toList.map fun text => (⟨.error, node, text⟩ : Message)
  ⟨e, outcome.output?, messages ++ failure⟩

/-- Gives each macro of a tier its turn.  `done` holds the attempts so far, last first. -/
def runTier (budget : Nat) (expandChildren : State σ → Step σ (Option Node)) (node : Node) :
    List (Entry σ) → List (Attempt σ) → Prepared → State σ →
      Step σ (List (Attempt σ) × Prepared)
  | [], done, prepared, s => (.ok (done.reverse, prepared), s)
  | e :: es, done, prepared, s =>
    if e.mode.childrenBefore && budget == 1 then
      runTier budget expandChildren node es done prepared s
    else
      let ready : Step σ Prepared :=
        if e.mode.childrenBefore then prepared.ensure expandChildren s else (.ok prepared, s)
      match ready with
      | (.error c, s) => (.error c, s)
      | (.ok prepared, s) =>
        let input := if e.mode.childrenBefore then prepared.get node else node
        let reply := e.callable.run s.shared input s.scopes
        let s := s.after reply
        -- messages are about the node that was dispatched, also if the macro saw the prepared one
        let attempts := attemptOf e node reply.messages reply.outcome :: done
        match reply.outcome with
        | .cancelled =>
          let told := cancelMessage e node ::
            report s.sink.enabled attempts.reverse node (some .error)
          (.error .cancelled, s.writeAll told)
        | _ => runTier budget expandChildren node es attempts prepared s

/-! ### All tiers -/

/-- What the macros make of a node. -/
inductive Verdict where
  /-- Nobody accepted it. -/
  | unclaimed (prepared : Prepared)
  /-- The first acceptor's output, and its mode. -/
  | claimed (output : Node) (mode : Mode)

/-- The first attempt that accepted, by its output and mode. -/
def firstAccepted? (attempts : List (Attempt σ)) : Option (Node × Mode) :=
  attempts.findSome? fun a => a.output.map fun output => (output, a.entry.mode)

/-- The greatest severity of the messages of some attempts. -/
def worstOf (attempts : List (Attempt σ)) : Option Severity :=
  Severity.maximum? ((attempts.flatMap (·.messages)).map (·.severity))

/-- Asks the tiers in turn until a macro accepts. -/
def consult (budget : Nat) (expandChildren : State σ → Step σ (Option Node)) (node : Node) :
    List (List (Entry σ)) → Prepared → State σ → Step σ Verdict
  | [], prepared, s => (.ok (.unclaimed prepared), s)
  | tier :: tiers, prepared, s =>
    match runTier budget expandChildren node tier [] prepared s with
    | (.error c, s) => (.error c, s)
    | (.ok (attempts, prepared), s) =>
      let s := s.writeAll (report s.sink.enabled attempts node (worstOf attempts))
      match firstAccepted? attempts with
      | some (output, mode) => (.ok (.claimed output mode), s)
      | none => consult budget expandChildren node tiers prepared s

end MacroForest
