/-
**The iterations of a single macro.**

A macro whose output is dispatched in turn may claim the output again, and so on.  Take a macro that
has a head for itself and gives `f n` for each node `n`, where all of `n`, `f n`, `f (f n)`, … have
that head.  Two things can end its loop.  Each round costs a unit of the budget, and without budget
a node is left as it is.  Or a round gives a node that equals the one before it: then the macro is
not asked again, and the children of the node are expanded with what is left of the budget.

So the number of rounds is known from the budget and from the first iterate that `f` repeats.  It is
off by one in neither direction: the round that gives an equal node is still made and paid for, and
the output of a round that takes the last unit is dispatched, but neither the macro nor the children
have their turn.

The log of a loop is the log of its rounds, one after the other, and then a *tail*.  The tail tells
how the loop has ended.

Main definitions:

* `MacroForest.Entry.Computes` — the macro gives a function of the node, and does nothing else;
* `MacroForest.firstRepeat` — the first iterate that equals the next one;
* `MacroForest.rounds` — the events of some rounds;
* `MacroForest.Expander.LoopEnd` — how a loop ends.

Main results:

* `MacroForest.Run.dispatch_round` — one round;
* `MacroForest.Expander.nodeRun_loop` — a loop is its rounds, and then it ends;
* `MacroForest.Expander.iteration_law` — **how often a macro is invoked, on what, and what becomes
  of the last output**.
-/

import Mathlib.Data.ENat.Lattice
import Mathlib.Data.List.Iterate
import MacroForest.Proofs.Expansion.Adequacy
import MacroForest.Proofs.Node.Heads

set_option relaxedAutoImplicit false
set_option autoImplicit false

namespace MacroForest

variable {σ : Type}

/-! ### Iterates -/

/-- The iterate of the given index equals the next one. -/
def Repeats (f : Node → Node) (n : Node) (i : Nat) : Prop := (f^[i + 1] n == f^[i] n) = true

instance (f : Node → Node) (n : Node) (i : Nat) : Decidable (Repeats f n i) :=
  inferInstanceAs (Decidable (_ = true))

/-- The least index of an iterate that equals the next one, infinite if there is none. -/
noncomputable def firstRepeat (f : Node → Node) (n : Node) : ℕ∞ :=
  ⨅ (i : Nat) (_ : Repeats f n i), (i : ℕ∞)

section Iterates

variable {f : Node → Node} {n : Node} {k : Nat}

theorem le_firstRepeat (h : ∀ i < k, ¬ Repeats f n i) : (k : ℕ∞) ≤ firstRepeat f n := by
  refine le_iInf₂ fun i hi => ?_
  by_contra hlt
  exact h i (Nat.cast_lt.1 (not_le.1 hlt)) hi

theorem firstRepeat_eq_coe (h : ∀ i < k, ¬ Repeats f n i) (hk : Repeats f n k) :
    firstRepeat f n = k :=
  le_antisymm (iInf₂_le k hk) (le_firstRepeat h)

/-- The iterates of the first one, up to an index, are those of the given node after it. -/
theorem not_repeats_succ (hzero : ¬ Repeats f n 0) (h : ∀ i < k, ¬ Repeats f (f n) i) :
    ∀ i < k + 1, ¬ Repeats f n i := by
  intro i hi
  cases i with
  | zero => exact hzero
  | succ i => exact h i (by omega)

end Iterates

/-! ### Rounds -/

/-- Whenever it is invoked, the macro accepts with `f` of the node.  It leaves the shared state and
the scopes as they are, and its output is dispatched in turn. -/
structure Entry.Computes (e : Entry σ) (f : Node → Node) : Prop where
  normal : e.mode.reprocess = .normal
  direct : e.mode.childrenBefore = false
  accepts : ∀ shared node scopes, (e.callable.run shared node scopes).outcome = .accepted (f node)
  leaves : ∀ shared node scopes, (e.callable.run shared node scopes).state = shared ∧
    (e.callable.run shared node scopes).scopes = scopes

/-- The events of some rounds of a macro that gives `f` of its node, the first of them in a dispatch
of `n`: a round for each of the states, in which the macro is invoked then. -/
def rounds (e : Entry σ) (f : Node → Node) : Chain → Nat → Node → List (State σ) → List (Event σ)
  | _, _, _, [] => []
  | chain, budget, n, s :: states =>
    ⟨chain, budget, .entered n⟩ :: ⟨chain, budget, .invoked e n s⟩ ::
      ⟨chain, budget, .rewrote (f n) e.mode⟩ ::
        rounds e f (⟨n, budget, some e.mode⟩ :: chain) (budget - 1) (f n) states

/-- The chain of dispatches after a number of rounds. -/
def roundsChain (e : Entry σ) (f : Node → Node) : Chain → Nat → Node → Nat → Chain
  | chain, _, _, 0 => chain
  | chain, budget, n, count + 1 =>
    roundsChain e f (⟨n, budget, some e.mode⟩ :: chain) (budget - 1) (f n) count

/-- The macro that is invoked in an event, and the node that it is given. -/
def Event.invocation? (event : Event σ) : Option (Entry σ × Node) :=
  match event.action with
  | .invoked e input _ => some (e, input)
  | _ => none

/-- In each round the macro is invoked once, on the next iterate. -/
theorem invocations_rounds (e : Entry σ) (f : Node → Node) (chain : Chain) (budget : Nat) (n : Node)
    (states : List (State σ)) :
    (rounds e f chain budget n states).filterMap Event.invocation? =
      (List.iterate f n states.length).map fun node => (e, node) := by
  induction states generalizing chain budget n with
  | nil => rfl
  | cons s states ih =>
      rw [rounds, List.length_cons, List.iterate, List.map_cons, ← ih]
      rfl

/-! ### One round -/

theorem tiersOf_single (e : Entry σ) : tiersOf [e] = [[e]] := by
  have hfilter : ∀ p, [e].filter (·.mode.priority == p) =
      if e.mode.priority = p then [e] else [] := by
    intro p
    by_cases hp : e.mode.priority = p <;> simp [hp]
  simp only [tiersOf, hfilter]
  cases e.mode.priority <;> rfl

theorem Node.calls_eq_false {n : Node} {m name : String} (hhead : n.simpleHead? = some m)
    (hne : m ≠ name) : n.calls name = false := by
  have hname : n.headName? = some m := by
    unfold simpleHead? at hhead
    split at hhead
    · exact hhead
    · cases hhead
  simp [calls, hname, hne]

namespace Run

variable {e : Entry σ} {f : Node → Node} {chain : Chain} {budget : Nat} {node : Node}

/-- A macro that is alone in its tier and accepts is the winner. -/
theorem consult_single (he : e.Computes f) (chain : Chain) (budget : Nat) (node : Node) {π : Type}
    (prepare : π → Run σ (π × Node)) (p : π) (s : State σ) :
    ∃ s', (s'.shared, s'.scopes) = (s.shared, s.scopes) ∧
      Run.consult chain budget prepare node [[e]] p s =
        some ((.ok (.claimed (f node) e.mode), s'), [⟨chain, budget, .invoked e node s⟩]) := by
  let reply := e.callable.run s.shared node s.scopes
  let attempts := [attemptOf e node reply.messages (.accepted (f node))]
  let told := (s.after reply).writeAll
    (report (s.after reply).sink.enabled attempts node (worstOf attempts))
  have hinput : input prepare node e p s = some ((.ok (p, node), s), []) := by
    rw [input, he.direct]
    rfl
  have hinvoke : invoke chain budget e node s =
      some ((.ok reply, s.after reply), [⟨chain, budget, .invoked e node s⟩]) := rfl
  have hturn : tier chain budget prepare node [e] [] p s =
      some ((.ok (attempts, p), s.after reply), [⟨chain, budget, .invoked e node s⟩]) := by
    rw [tier, if_neg (by simp [he.direct])]
    refine bind_of_ok hinput (bind_of_ok hinvoke ?_)
    have haccepts : reply.outcome = .accepted (f node) := he.accepts s.shared node s.scopes
    dsimp only
    rw [haccepts]
    rfl
  have htell : tell (fun s => report s.sink.enabled attempts node (worstOf attempts))
      (s.after reply) = some ((.ok (), told), []) := rfl
  have hleft : (told.shared, told.scopes) = (s.shared, s.scopes) :=
    Prod.ext (he.leaves s.shared node s.scopes).1 (he.leaves s.shared node s.scopes).2
  exact ⟨told, hleft, bind_of_ok hturn (bind_of_ok htell rfl)⟩

/-- **One round.**  The macro is the only one that the head can mean, and the token has not been
cancelled: the macro is invoked on the node, and its output is what the dispatch goes on with. -/
theorem dispatch_round {again : Chain → Nat → Node → Bool → Run σ (Option Node)} {t : Expander σ}
    (he : e.Computes f) {changed : Bool} {s : State σ} {r : Step σ (Option Node)}
    {log : List (Event σ)} (hpos : budget ≠ 0) (hgoing : t.token.isCancelled s.now = false)
    (honly : t.candidates s.scopes node = [e]) (hblock : node.calls Reserved.block = false)
    (hrun : dispatch again t chain budget node changed s = some (r, log)) :
    ∃ s₁ s₂ more, (s₂.shared, s₂.scopes) = (s.shared, s.scopes) ∧
      log = ⟨chain, budget, .entered node⟩ :: ⟨chain, budget, .invoked e node s₁⟩ ::
        ⟨chain, budget, .rewrote (f node) e.mode⟩ :: more ∧
      reprocess again chain budget node (f node) e.mode s₂ = some (r, more) := by
  obtain ⟨rest, rfl, ⟨hzero, -, -⟩ | ⟨-, hcancel, -, -⟩ | ⟨-, -, hnone, -⟩ | ⟨-, -, -, hfound⟩⟩ :=
    dispatch_cases hrun
  · exact absurd hzero hpos
  · rw [hgoing] at hcancel
    cases hcancel
  · rw [honly] at hnone
    cases hnone
  · rw [honly, hblock] at hfound
    obtain ⟨s₂, hleft, hconsult⟩ := consult_single he chain budget node
      (prepare (ownChildren again chain budget node) node) .notYet s.tick
    rcases bind_eq_some hfound with ⟨c, s₃, hstop, -⟩ |
      ⟨ruling, s₃, log₁, log₂, hruling, hafter, rfl⟩
    · rw [tiersOf_single, hconsult] at hstop
      cases hstop
    · rw [tiersOf_single, hconsult] at hruling
      obtain ⟨⟩ := hruling
      obtain ⟨more, hmore, rfl⟩ := note_bind_eq_some hafter
      exact ⟨s.tick, s₂, more, hleft, rfl, hmore⟩

end Run

namespace Expander

variable {t : Expander σ} {e : Entry σ} {f : Node → Node}

/-! ### Loops -/

/-- How a loop that begins with the dispatch of a node, a shared state and some scopes, ends after a
number of rounds: with its answer and the events that are left. -/
inductive LoopEnd (t : Expander σ) (e : Entry σ) (f : Node → Node) (start : σ × ScopeStack)
    (chain : Chain) (budget : Nat) (n : Node) (count : Nat) :
    Step σ (Option Node) → List (Event σ) → Prop where
  /-- The budget is used up, and the last output stays as it is. -/
  | spent (s : State σ) : count = budget → (∀ i < budget, ¬ Repeats f n i) →
      LoopEnd t e f start chain budget n count (.ok (some (f^[count] n)), s)
        [⟨roundsChain e f chain budget n count, 0, .entered (f^[count] n)⟩]
  /-- The last output equals the node that it was given for, and only its children are expanded. -/
  | repeated (k fuel : Nat) {s : State σ} {r : Step σ (Option Node)} {tail : List (Event σ)} :
      count = k + 1 → k < budget → (∀ i < k, ¬ Repeats f n i) → Repeats f n k →
      (s.shared, s.scopes) = start →
      Run.children (roundsChain e f chain budget n count) (budget - count)
        (fun c => t.nodeRun fuel (roundsChain e f chain budget n count) (budget - count) c false)
        (f^[count] n) s = some (r, tail) →
      LoopEnd t e f start chain budget n count
        (r.1.map fun expanded => some (expanded.getD (f^[count] n)), r.2) tail
  /-- The token is found to be cancelled when the last output is dispatched. -/
  | stopped {s : State σ} : count < budget → (∀ i < count, ¬ Repeats f n i) →
      t.token.isCancelled s.now = true →
      LoopEnd t e f start chain budget n count (.error .cancelled, s)
        [⟨roundsChain e f chain budget n count, budget - count, .entered (f^[count] n)⟩]

/-- A loop of the output is one of the node, with a round more. -/
theorem LoopEnd.succ {start : σ × ScopeStack} {chain : Chain} {budget count : Nat} {n : Node}
    {r : Step σ (Option Node)} {tail : List (Event σ)} (hzero : ¬ Repeats f n 0)
    (h : t.LoopEnd e f start (⟨n, budget + 1, some e.mode⟩ :: chain) budget (f n) count r tail) :
    t.LoopEnd e f start chain (budget + 1) n (count + 1) r tail := by
  have hbudget : budget + 1 - (count + 1) = budget - count := by omega
  cases h with
  | spent s hcount hnone => exact .spent s (by omega) (not_repeats_succ hzero hnone)
  | @repeated k fuel s r tail hcount hk hnone hrepeats hstart hchildren =>
      rw [← hbudget] at hchildren
      exact .repeated (k + 1) fuel (by omega) (by omega) (not_repeats_succ hzero hnone) hrepeats
        hstart
        hchildren
  | stopped hcount hnone hcancel =>
      rw [← hbudget]
      exact .stopped (by omega) (not_repeats_succ hzero hnone) hcancel

theorem candidates_of_simpleHead? {scopes : ScopeStack} {n : Node} {m : String}
    (hhead : n.simpleHead? = some m) :
    t.candidates scopes n = t.table.lookup scopes.current m := by
  unfold Node.simpleHead? at hhead
  split at hhead
  · rename_i hsimple
    rw [candidates, if_pos hsimple, hhead]
  · cases hhead

/-- **A loop is its rounds, and then it ends.**  The induction is on the budget, of which each round
takes a unit. -/
theorem nodeRun_loop (he : e.Computes f) {m : String} (hm : m ≠ Reserved.block) {fuel budget : Nat}
    {chain : Chain} {n : Node} {changed : Bool} {s : State σ} {r : Step σ (Option Node)}
    {log : List (Event σ)} (hheads : ∀ i, (f^[i] n).simpleHead? = some m)
    (honly : t.table.lookup s.scopes.current m = [e]) (hloop : budget ≠ 0 ∨ changed = true)
    (hrun : t.nodeRun fuel chain budget n changed s = some (r, log)) :
    ∃ states tail, log = rounds e f chain budget n states ++ tail ∧
      t.LoopEnd e f (s.shared, s.scopes) chain budget n states.length r tail := by
  induction budget generalizing fuel chain n changed s r log with
  | zero =>
      obtain rfl : changed = true := by simpa using hloop
      cases fuel with
      | zero => cases hrun
      | succ fuel =>
          obtain ⟨more, rfl, ⟨-, rfl, rfl⟩ | ⟨hne, -⟩ | ⟨hne, -⟩ | ⟨hne, -⟩⟩ :=
            Run.dispatch_cases hrun
          · exact ⟨[], _, rfl, .spent s rfl (by simp)⟩
          all_goals exact absurd rfl hne
  | succ budget ih =>
      cases fuel with
      | zero => cases hrun
      | succ fuel =>
          have hhead : n.simpleHead? = some m := hheads 0
          have hfound : t.candidates s.scopes n = [e] := by
            rw [candidates_of_simpleHead? hhead, honly]
          cases hcancel : t.token.isCancelled s.now with
          | true =>
              obtain ⟨more, rfl, ⟨hzero, -⟩ | ⟨-, -, rfl, rfl⟩ | ⟨-, hgoing, -⟩ | ⟨-, hgoing, -⟩⟩ :=
                Run.dispatch_cases hrun
              · cases hzero
              · exact ⟨[], _, rfl, .stopped (Nat.succ_pos budget) (by simp) hcancel⟩
              all_goals
                rw [hcancel] at hgoing
                cases hgoing
          | false =>
              obtain ⟨s₁, s₂, more, hleft, rfl, hmore⟩ := Run.dispatch_round he
                (Nat.succ_ne_zero budget) hcancel hfound (Node.calls_eq_false hhead hm) hrun
              have hcost : e.mode.cost = 1 := by rw [Mode.cost, he.direct]; rfl
              rw [Run.reprocess, he.normal, hcost, Nat.succ_sub_one] at hmore
              by_cases hrepeats : Repeats f n 0
              · -- the output equals the node, so only its children are expanded
                have hequal : (f n == n) = true := hrepeats
                rw [if_neg (by simp [hequal]), if_neg (by simp)] at hmore
                refine ⟨[s₁], more, rfl, ?_⟩
                rcases Run.bind_eq_some hmore with ⟨c, s₃, hstop, rfl⟩ |
                  ⟨expanded, s₃, log₁, log₂, hok, hdone, rfl⟩
                · exact .repeated 0 fuel (r := (.error c, s₃)) rfl (Nat.succ_pos budget) (by simp)
                    hrepeats hleft hstop
                · obtain ⟨⟩ := hdone
                  rw [List.append_nil]
                  exact .repeated 0 fuel (r := (.ok expanded, s₃)) rfl (Nat.succ_pos budget)
                    (by simp) hrepeats hleft hok
              · have hdiffers : (f n == n) = false := Bool.eq_false_iff.2 hrepeats
                rw [if_pos (by simp [hdiffers])] at hmore
                have hscopes : s₂.scopes = s.scopes := congrArg Prod.snd hleft
                obtain ⟨states, tail, rfl, hend⟩ :=
                  ih (fun i => hheads (i + 1)) (hscopes ▸ honly) (.inr rfl) hmore
                rw [hleft] at hend
                exact ⟨s₁ :: states, tail, rfl, hend.succ hrepeats⟩

/-! ### The law of iteration -/

/-- What is known of a loop from a state that is not stopped, its number of rounds, its answer and
its tail. -/
structure Iterated (t : Expander σ) (e : Entry σ) (f : Node → Node) (budget : Nat) (n : Node)
    (s : State σ) (count : Nat) (r : Step σ (Option Node)) (tail : List (Event σ)) : Prop where
  number : (count : ℕ∞) = min (budget : ℕ∞) (firstRepeat f n + 1)
  once : Repeats f n 0 → count = 1
  runaway : (∀ i, ¬ Repeats f n i) → count = budget
  /-- With the last unit of the budget gone, the output is dispatched and stays as it is. -/
  spent : budget ≤ firstRepeat f n → r.1 = .ok (some (f^[budget] n)) ∧
    tail = [⟨roundsChain e f [] budget n budget, 0, .entered (f^[budget] n)⟩]
  /-- Otherwise all that is left to do is the expansion of the children. -/
  repeated : ∀ k : Nat, firstRepeat f n = k → k < budget → ∃ fuel s₁,
    s₁.shared = s.shared ∧ s₁.scopes = s.scopes ∧
    Run.children (roundsChain e f [] budget n (k + 1)) (budget - k - 1)
      (fun c => t.nodeRun fuel (roundsChain e f [] budget n (k + 1)) (budget - k - 1) c false)
      (f^[k + 1] n) s₁ = some (t.expandChildren (budget - k - 1) (f^[k + 1] n) s₁, tail) ∧
    r = ((t.expandChildren (budget - k - 1) (f^[k + 1] n) s₁).1.map
        fun expanded => some (expanded.getD (f^[k + 1] n)),
      (t.expandChildren (budget - k - 1) (f^[k + 1] n) s₁).2)

/-- The loop is stopped by the token, when the last output is dispatched. -/
def Interrupted (t : Expander σ) (e : Entry σ) (f : Node → Node) (budget : Nat) (n : Node)
    (count : Nat) (r : Step σ (Option Node)) (tail : List (Event σ)) : Prop :=
  (count : ℕ∞) < min (budget : ℕ∞) (firstRepeat f n + 1) ∧ r.1 = .error .cancelled ∧
    t.token.isCancelled r.2.now = true ∧
    tail = [⟨roundsChain e f [] budget n count, budget - count, .entered (f^[count] n)⟩]

theorem lt_min_of_le {count budget : Nat} {k : ℕ∞} (hbudget : count < budget) (hk : count ≤ k) :
    (count : ℕ∞) < min (budget : ℕ∞) (k + 1) := by
  refine lt_min (Nat.cast_lt.2 hbudget) ?_
  cases k with
  | top => exact ENat.natCast_lt_top count
  | coe k =>
      have hle : count ≤ k := Nat.cast_le.1 hk
      exact_mod_cast Nat.lt_succ_of_le hle

theorem LoopEnd.iterated {budget count : Nat} {n : Node} {s : State σ} {r : Step σ (Option Node)}
    {tail : List (Event σ)} (hpos : budget ≠ 0)
    (h : t.LoopEnd e f (s.shared, s.scopes) [] budget n count r tail) :
    t.Iterated e f budget n s count r tail ∨ t.Interrupted e f budget n count r tail := by
  cases h with
  | spent _ hcount hnone =>
      subst hcount
      have hle := le_firstRepeat hnone
      refine .inl ⟨?_, ?_, fun _ => rfl, fun _ => ⟨rfl, rfl⟩, ?_⟩
      · exact (min_eq_left (hle.trans le_self_add)).symm
      · intro hzero
        exact absurd hzero (hnone 0 (Nat.pos_of_ne_zero hpos))
      · intro k hk hlt
        rw [hk, Nat.cast_le] at hle
        omega
  | @repeated k fuel s₁ r tail hcount hlt hnone hrepeats hstart hchildren =>
      have hfirst := firstRepeat_eq_coe hnone hrepeats
      subst hcount
      refine .inl ⟨?_, ?_, ?_, ?_, ?_⟩
      · rw [hfirst]
        refine (min_eq_right ?_).symm
        exact_mod_cast hlt
      · intro hzero
        by_contra hne
        exact hnone 0 (by omega) hzero
      · intro hall
        exact absurd hrepeats (hall k)
      · intro hle
        rw [hfirst, Nat.cast_le] at hle
        omega
      · intro k' hk' _
        obtain rfl : k = k' := Nat.cast_inj.1 (hfirst.symm.trans hk')
        rw [← Nat.sub_sub] at hchildren
        have hanswer := (t.nodeRun_leaves fuel).children_answers _ _ _ _ _ _ _ hchildren
        refine ⟨fuel, s₁, congrArg Prod.fst hstart, congrArg Prod.snd hstart, ?_, ?_⟩
        · rw [hanswer]
          exact hchildren
        · rw [hanswer]
  | stopped hlt hnone hcancel =>
      exact .inr ⟨lt_min_of_le hlt (le_firstRepeat hnone), rfl, hcancel, rfl⟩

/-- **The law of iteration.**  Let a macro be the only one that a head can mean, and let it give
`f n` for each node `n`.  If `n`, `f n`, `f (f n)`, … all have that head, then the loop of their
dispatches invokes the macro on the first of them, one after the other: as many as the budget can
pay for, or up to the first that equals the next, unless the token is cancelled on the way.  If the
budget is used up, the answer is the last output as it is.  Otherwise the last output equals the
node that it was given for, and the answer is this output with its children expanded with what is
left of the budget. -/
theorem iteration_law (t : Expander σ) {e : Entry σ} {f : Node → Node} (he : e.Computes f)
    {m : String} (hm : m ≠ Reserved.block) {n : Node} (hheads : ∀ i, (f^[i] n).simpleHead? = some m)
    (s : State σ) (honly : t.table.lookup s.scopes.current m = [e]) {budget : Nat}
    (hpos : 1 ≤ budget) :
    ∃ states tail,
      (∃ enough, ∀ fuel, enough ≤ fuel → t.nodeRun fuel [] budget n false s =
        some (t.expandNode budget n s, rounds e f [] budget n states ++ tail)) ∧
      (rounds e f [] budget n states).filterMap Event.invocation? =
        (List.iterate f n states.length).map (fun node => (e, node)) ∧
      (t.Iterated e f budget n s states.length (t.expandNode budget n s) tail ∨
        t.Interrupted e f budget n states.length (t.expandNode budget n s) tail) := by
  obtain ⟨log, enough, hruns⟩ := t.exists_nodeRun budget n s
  have hne : budget ≠ 0 := Nat.one_le_iff_ne_zero.1 hpos
  obtain ⟨states, tail, rfl, hend⟩ :=
    nodeRun_loop he hm hheads honly (.inl hne) (hruns enough (Nat.le_refl enough))
  exact ⟨states, tail, ⟨enough, hruns⟩, invocations_rounds e f [] budget n states,
    hend.iterated hne⟩

/-- A call without its first argument, unless it is the only one. -/
def shorten (n : Node) : Node :=
  .invokeName "m" (match n.args with | _ :: a :: args => a :: args | args => args)

/-- A macro that takes one argument after the other from its calls, and one that replaces its. -/
def shortening : Expander Unit :=
  .create ⟨[⟨"m", [dropping]⟩, ⟨"g", [replaced]⟩]⟩ [] 100 {}
where
  dropping : Entry Unit :=
    { space := none, name := "m", mode := {}, givenLabel := none, origin := none,
      callable := ⟨.custom 0, fun shared n scopes => .quiet shared scopes (.accepted (shorten n))⟩ }
  replaced : Entry Unit :=
    { space := none, name := "g", mode := {}, givenLabel := none, origin := none,
      callable := ⟨.custom 1, fun shared _ scopes => .quiet shared scopes (.accepted (.ident "h"))⟩ }

theorem iteration_law_shortening :
    let s := shortening.initial () (.empty .debug)
    let n := Node.invokeName "m" [.ident "a", .ident "b", .ident "g"]
    shortening.dropping.Computes shorten ∧ "m" ≠ Reserved.block ∧
      (∀ i, (shorten^[i] n).simpleHead? = some "m") ∧
      shortening.table.lookup s.scopes.current "m" = [shortening.dropping] ∧
      firstRepeat shorten n = 2 ∧
      (shortening.expandNode 2 n s).1 = .ok (some (.invokeName "m" [.ident "g"])) ∧
      (shortening.expandNode 9 n s).1 = .ok (some (.invokeName "m" [.ident "h"])) ∧
      ∃ states tail,
        (∃ enough, ∀ fuel, enough ≤ fuel → shortening.nodeRun fuel [] 9 n false s =
          some (shortening.expandNode 9 n s,
            rounds shortening.dropping shorten [] 9 n states ++ tail)) ∧
        (rounds shortening.dropping shorten [] 9 n states).filterMap Event.invocation? =
          [(shortening.dropping, n),
            (shortening.dropping, .invokeName "m" [.ident "b", .ident "g"]),
            (shortening.dropping, .invokeName "m" [.ident "g"])] := by
  intro s n
  have hcomputes : shortening.dropping.Computes shorten :=
    ⟨rfl, rfl, fun _ _ _ => rfl, fun _ _ _ => ⟨rfl, rfl⟩⟩
  have hheads : ∀ i, (shorten^[i] n).simpleHead? = some "m" := by
    intro i
    cases i with
    | zero => rfl
    | succ i => rw [Function.iterate_succ_apply']; rfl
  have hfirst : firstRepeat shorten n = 2 := by
    refine firstRepeat_eq_coe (k := 2) ?_ (by decide +kernel)
    decide +kernel
  have hblock : "m" ≠ Reserved.block := by decide
  have honly : shortening.table.lookup s.scopes.current "m" = [shortening.dropping] := rfl
  have hlaw := fun budget => @iteration_law Unit shortening shortening.dropping shorten hcomputes "m"
    hblock n hheads s honly budget
  have hnever : ∀ now, shortening.token.isCancelled now = false := fun _ => rfl
  refine ⟨hcomputes, hblock, hheads, honly, hfirst, ?_, ?_, ?_⟩
  · obtain ⟨states, tail, -, -, hdone | ⟨-, -, hcancel, -⟩⟩ := hlaw 2 (by decide)
    · exact (hdone.spent (by rw [hfirst]; rfl)).1
    · rw [hnever] at hcancel
      cases hcancel
  · obtain ⟨s', hanswer⟩ : ∃ s', shortening.expandNode 9 n s =
        (.ok (some (.invokeName "m" [.ident "h"])), s') :=
      (shortening.nodeRun_answers 6 [] 9 n).of_map (by decide +kernel)
    rw [hanswer]
  · obtain ⟨states, tail, hruns, hinvoked, hdone | ⟨-, -, hcancel, -⟩⟩ := hlaw 9 (by decide)
    · have hthree : states.length = 3 := by
        have hnumber := hdone.number
        rw [hfirst, min_eq_right (by decide)] at hnumber
        exact Nat.cast_inj.1 hnumber
      rw [hthree] at hinvoked
      exact ⟨states, tail, hruns, hinvoked⟩
    · rw [hnever] at hcancel
      cases hcancel

end Expander

end MacroForest
