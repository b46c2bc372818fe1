/-
**What becomes of splices.**

A splice is replaced where it stands in a list: its arguments are members of the list instead.  That
is done for one level only, when the member has been expanded, and the arguments of a splice are a
list of their own, which has been done before.  So no splice is left in a list, whichever way it
came there, unless something was left as it was: for lack of budget, because a macro wants its
output unprocessed, or because a node is to be kept verbatim.

In the place of a target, a splice of one node stands for that node.  Here it matters whether the
target is reported as changed: a splice that is there from the start, with nothing in it that
changes, stays (`MacroForest.Expander.unchanged_target_stays_spliced`).

Main definitions:

* `MacroForest.Event.Unabridged` — nothing is left as it was;
* `MacroForest.Event.changes` — something is changed;
* `MacroForest.Knowledge.noticing` — what is known of answers that are nodes.

Main results:

* `MacroForest.Knowledge.closed_flattening` — an unabridged run gives a flat tree;
* `MacroForest.Expander.no_splice_survives` — **no splice is left in a list**;
* `MacroForest.Knowledge.closed_noticing` — what is reported as changed;
* `MacroForest.Expander.target_unwrapped_iff_changed` — **which splices are unwrapped in the place
  of a target**.
-/

import MacroForest.Proofs.Expansion.Ample
import MacroForest.Proofs.Expansion.Bystanders
import MacroForest.Proofs.Expansion.Exhaustive
import MacroForest.Proofs.Expansion.Order

set_option relaxedAutoImplicit false
set_option autoImplicit false

namespace MacroForest

open Node (Settled SettledList)

variable {σ : Type}

/-! ### Splices in lists -/

/-- Nothing is left as it was: there is budget for each dispatch and for what is done with each
output, and no output has a verbatim part. -/
def Event.Unabridged (event : Event σ) : Prop := event.ample = true ∧ event.Unhindered

instance (event : Event σ) : Decidable event.Unabridged :=
  inferInstanceAs (Decidable (_ ∧ _))

/-- An unabridged run gives a flat tree. -/
theorem Knowledge.closed_flattening {t : Expander σ}
    (hmodes : ∀ scopes node, ¬ node.HasHead Reserved.verbatim →
      ∀ e ∈ t.candidates scopes node, e.mode.reprocess ≠ .never) :
    (settling (fun _ => False) Event.Unabridged).Closed t := by
  intro chain budget node changed r log h hnode hlog other hother
  cases h with
  | unpaid hzero => exact absurd hzero (hlog _ List.mem_cons_self).2
  | unclaimed scopes hpos hasked _ _ =>
      exact hasked.settled hpos hnode (fun _ _ => id) (List.forall_mem_cons.1 hlog).2 hother
  | claimed scopes hpos _ _ hentry _ hgoesOn =>
      rw [List.forall_mem_cons, List.forall_mem_append, List.forall_mem_cons] at hlog
      obtain ⟨-, -, ⟨hample, hclean⟩, hmore⟩ := hlog
      have hmode := hmodes scopes node hnode _ hentry
      cases hgoesOn with
      | again _ _ hknown => exact hknown hclean hmore other (by simp)
      | never hnever => exact absurd hnever hmode
      | children _ _ hopened =>
          have hcost := (Expander.cost_lt_of_ample hample).resolve_left hmode
          exact hopened.settled (Nat.sub_ne_zero_of_lt hcost) hclean (fun _ _ => id) hmore

/-- The built-in macro whose output stays as it is keeps nodes verbatim. -/
theorem Builtin.name_of_never {e : Entry σ} (h : e ∈ builtins σ)
    (hnever : e.mode.reprocess = .never) : e.name = Reserved.verbatim := by
  simp only [builtins, List.mem_cons, List.not_mem_nil, or_false] at h
  rcases h with rfl | rfl | rfl | rfl | rfl
  · cases hnever
  · cases hnever
  · cases hnever
  · cases hnever
  · rfl

namespace Expander

variable {table : Table σ}

/-- The built-in macros are found by their names only, so none whose output stays as it is can be
meant where nothing is to be kept verbatim. -/
theorem reprocess_ne_never (hmacros : ∀ name, ∀ e ∈ table.named name, e.mode.reprocess ≠ .never)
    (preOpened : NameSet) (budget : Nat) (token : CancelToken) {scopes : ScopeStack} {node : Node}
    (hnode : ¬ node.HasHead Reserved.verbatim) {e : Entry σ}
    (he : e ∈ (create table preOpened budget token).candidates scopes node) :
    e.mode.reprocess ≠ .never := by
  intro hnever
  have hbuiltin : ∀ name, e ∈ (create table preOpened budget token).table.named name →
      e ∈ builtins σ ∧ name = Reserved.verbatim := by
    intro name hname
    rw [create_table, Table.withBuiltins] at hname
    rcases Table.mem_or_named_of_addAll hname with hown | ⟨hadded, rfl⟩
    · exact absurd hnever (hmacros name e hown)
    · exact ⟨hadded, Builtin.name_of_never hadded hnever⟩
  unfold candidates at he
  split at he
  · rename_i hsimple
    cases hhead : node.headName? with
    | none => simp [hhead] at he
    | some name =>
        rw [hhead] at he
        obtain ⟨-, rfl⟩ := hbuiltin name (List.mem_filter.1 he).1
        refine hnode ⟨node, .root, ?_⟩
        rw [Node.simpleHead?, if_pos hsimple, hhead]
  · cases hqualified : node.target?.bind (·.qualified?) with
    | none => simp [hqualified] at he
    | some head =>
        rw [hqualified] at he
        obtain ⟨hmem, hspace⟩ := List.mem_filter.1 he
        have hnone := Builtin.space_eq_none (hbuiltin head.2 hmem).1
        simp [hnone] at hspace

/-- **No splice is left in a list.**  Let no macro of a table have its output left as it is.  If in
the expansion of a forest there is budget for each dispatch and for what is done with each output,
and neither the forest nor an output has a verbatim part, then no tree of the result is a splice,
and no list inside of it has one among its members. -/
theorem no_splice_survives (table : Table σ) (preOpened : NameSet) (budget : Nat)
    (token : CancelToken)
    (hmacros : ∀ name, ∀ e ∈ table.named name, e.mode.reprocess ≠ .never)
    (forest : Forest) (hforest : ∀ n ∈ forest, ¬ n.HasHead Reserved.verbatim) (s : State σ)
    {fuel : Nat} {r : Step σ Forest} {log : List (Event σ)}
    (hrun : (create table preOpened budget token).forestRun fuel forest s = some (r, log))
    (hlog : ∀ event ∈ log, event.Unabridged) {output : Forest}
    (hok : ((create table preOpened budget token).expandForest forest s).1 = .ok output) :
    ∀ n ∈ output, n.calls Reserved.splice = false ∧ n.Flat := by
  have hanswer := (create table preOpened budget token).forestRun_answers fuel forest s r log hrun
  rw [hanswer] at hok
  rcases Run.bind_eq_some hrun with ⟨c, s₁, -, rfl⟩ | ⟨expanded, s₁, log₁, log₂, hlist, hrest, rfl⟩
  · cases hok
  obtain ⟨⟩ := hrest
  obtain ⟨⟩ := hok
  have hclosed := Knowledge.closed_flattening fun _ _ hnode _ he =>
    reprocess_ne_never hmacros preOpened budget token hnode he
  have hflat : SettledList (fun _ => False) (expanded.getD forest) :=
    (listRun_known hclosed hlist).settled hforest fun e he => hlog e (List.mem_append_left _ he)
  intro n hn
  exact ⟨(hflat n hn).2, (hflat n hn).1.flat⟩

/-- Splices inside of splices, in the output of a macro and in the arguments of a call that itself
becomes a splice, as its target is replaced by that name. -/
theorem no_splice_survives_nested :
    let table : Table Nat := (Table.empty.addAll
      [replacing 0 "pair" { reprocess := .childrenAfter }
        (.splice [.ident "x", .splice [.ident "y"]]),
        replacing 1 "mark" { childrenBefore := true } (.ident Reserved.splice)]).2
    let t := create table [] 9 {}
    let s := t.initial 0 (.empty .debug)
    let forest := [Node.invokeName "pair" [],
      Node.invoke (.invokeName "mark" []) [.ident "a", .splice [.splice [.ident "b"], .ident "c"]],
      Node.invokeName "f" [.splice [.ident "pair"]]]
    let output := [Node.ident "x", .ident "y", .ident "a", .ident "b", .ident "c",
      .invokeName "f" [.ident "x", .ident "y"]]
    (∀ name, ∀ e ∈ table.named name, e.mode.reprocess ≠ .never) ∧
      (∀ n ∈ forest, ¬ n.HasHead Reserved.verbatim) ∧
      (∃ r log, t.forestRun 6 forest s = some (r, log) ∧ ∀ event ∈ log, event.Unabridged) ∧
      (t.expandForest forest s).1 = .ok output ∧
      ∀ n ∈ output, n.calls Reserved.splice = false ∧ n.Flat := by
  intro table t s forest output
  have hmacros : ∀ name, ∀ e ∈ table.named name, e.mode.reprocess ≠ .never := by
    intro name e he
    obtain ⟨hmem, -⟩ := Table.mem_of_named_addAll he
    rw [List.mem_pair] at hmem
    rcases hmem with rfl | rfl <;> simp [replacing]
  have hforest : ∀ n ∈ forest, ¬ n.HasHead Reserved.verbatim := by decide +kernel
  have hrun : (t.forestRun 6 forest s).map (fun r => decide (∀ event ∈ r.2, event.Unabridged)) =
      some true := by
    decide +kernel
  obtain ⟨⟨r, log⟩, hr, hunabridged⟩ := Option.map_eq_some_iff.1 hrun
  have hlog : ∀ event ∈ log, event.Unabridged := of_decide_eq_true hunabridged
  obtain ⟨s', hforestRun⟩ : ∃ s', t.expandForest forest s = (.ok output, s') :=
    (t.forestRun_answers 6 forest).of_map (by decide +kernel)
  have hanswer : (t.expandForest forest s).1 = .ok output := by rw [hforestRun]
  exact ⟨hmacros, hforest, ⟨_, log, hr, hlog⟩, hanswer,
    no_splice_survives table [] 9 {} hmacros forest hforest s hr hlog hanswer⟩

end Expander

/-! ### Splices in the place of a target -/

/-- Something is changed: an output is accepted, or a list that has a splice is expanded. -/
def Event.changes (event : Event σ) : Bool :=
  match event.action with
  | .rewrote .. => true
  | .opened node =>
    node.attrs.any (·.calls Reserved.splice) || node.args.any (·.calls Reserved.splice)
  | .entered _ => false
  | .invoked .. => false

theorem Node.isSome_replaceParts (node : Node) (cell : Cell) (attrs : Option (List Node))
    (target : Option Node) (args : Option (List Node)) :
    (node.replaceParts cell attrs target args).isSome =
      (attrs.isSome || (target.isSome || args.isSome)) := by
  cases attrs <;> cases target <;> cases args <;> rfl

namespace Knowledge

variable {chain : Chain} {budget : Nat} {node : Node} {log : List (Event σ)}

/-- The answer is a node if something is changed on the way or has been before, and only then. -/
def noticing (σ : Type) : Knowledge σ :=
  fun _ changed r log => r.isSome = (changed || log.any Event.changes)

theorem Members.noticed {ns : List Node} {r : Option (List Node)}
    (h : (noticing σ).Members ns r log) :
    r.isSome = (ns.any (·.calls Reserved.splice) || log.any Event.changes) := by
  induction h with
  | nil => rfl
  | @cons n ns expanded rest log more hn _ ih =>
      have hfirst : expanded.isSome = log.any Event.changes := hn
      rw [List.any_cons, List.any_append, ← hfirst]
      split
      · rename_i hsame
        obtain ⟨hnone, hsplice⟩ : expanded = none ∧ n.calls Reserved.splice = false := by
          simpa using hsame
        rw [Option.isSome_map, ih, hnone, hsplice]
        simp
      · rename_i hother
        have hchanged : expanded.isSome = true ∨ n.calls Reserved.splice = true := by
          cases expanded with
          | none => exact .inr (by simpa using hother)
          | some => exact .inl rfl
        rcases hchanged with hchanged | hchanged <;> simp [hchanged]

theorem Aimed.noticed {r : Option Node} (h : (noticing σ).Aimed node r log) :
    r.isSome = log.any Event.changes := by
  cases h with
  | kept => rfl
  | expanded _ _ hknown => exact hknown

/-- The parts of a node answer together with a node if one of them has changed. -/
theorem Opened.noticed {r : Option Node} (h : (noticing σ).Opened chain budget node r log) :
    r.isSome = log.any Event.changes := by
  cases h with
  | unpaid => rfl
  | paid _ cell hrebuilt =>
      obtain ⟨hattrs, htarget, hargs⟩ := hrebuilt
      rename_i attrs args target log₁ log₂ log₃
      rw [Node.isSome_replaceParts, hattrs.noticed, htarget.noticed, hargs.noticed, List.any_cons,
        List.any_append, List.any_append]
      dsimp only [Event.changes]
      -- the two lists are looked at when the node is opened, and what happens in them comes later
      generalize node.attrs.any _ = a, node.args.any _ = b
      generalize log₁.any _ = x, log₂.any _ = y, log₃.any _ = z
      revert a b x y z
      decide

/-- The prepared node differs from the node if something has changed so far. -/
theorem Asked.noticed {us : List (Turn σ)} {p : Prepared}
    (h : (noticing σ).Asked chain budget node us p log) :
    log.any Event.changes = true ↔ ∃ prepared, p = .changed prepared := by
  induction h with
  | start => simp
  | @prepared us expanded log more _ hopened ih =>
      have hbefore : log.any Event.changes = false := by
        rw [Bool.eq_false_iff, ne_eq, ih]
        rintro ⟨prepared, hprepared⟩
        cases hprepared
      rw [List.any_append, hbefore, ← hopened.noticed]
      cases expanded with
      | none | some => simp
  | turn s _ _ _ ih =>
      rw [List.any_append, ← ih]
      simp [Event.changes]

theorem isSome_kept (changed : Bool) (node : Node) :
    (if changed then some node else none).isSome = changed := by
  cases changed <;> rfl

/-- **What is reported as changed.**  A dispatch answers with a node exactly if an output is
accepted in it or a list that has a splice is expanded. -/
theorem closed_noticing (t : Expander σ) : (noticing σ).Closed t := by
  intro chain budget node changed r log h
  change r.isSome = (changed || log.any Event.changes)
  cases h with
  | unpaid => simpa [Event.changes] using isSome_kept changed node
  | @unclaimed us expanded log scopes _ hasked _ _ =>
      have hchanged : log.any Event.changes = expanded.isSome := by
        rw [Bool.eq_iff_iff, hasked.noticed]
        cases expanded <;> simp
      rw [List.any_cons, hchanged]
      cases expanded with
      | none => simpa [Event.changes] using isSome_kept changed node
      | some => simp
  | @claimed us p u output r log more scopes _ _ _ _ _ hgoesOn =>
      have hsome : r.isSome = true := by
        cases hgoesOn with
        | again _ _ hknown => exact hknown
        | never | children => rfl
      simp [hsome, Event.changes]

end Knowledge

namespace Expander

/-- The three parts of an expansion of children that comes to its end. -/
theorem expandChildren_parts (t : Expander σ) {budget : Nat} (hpos : budget ≠ 0)
    {attrs args : List Node} {style : Style} {callee : Node}
    (hhead : (Node.call attrs style callee args).hasSimpleHead = false) {s s' : State σ}
    {result : Option Node}
    (h : t.expandChildren budget (.call attrs style callee args) s = (.ok result, s')) :
    ∃ newAttrs s₁ expanded s₂ newArgs, t.expandList budget attrs s.opening = (.ok newAttrs, s₁) ∧
      t.expandNode budget callee s₁ = (.ok expanded, s₂) ∧
      t.expandList budget args s₂ = (.ok newArgs, s') ∧
      result = (Node.call attrs style callee args).replaceParts (.opening s.openings) newAttrs
        expanded newArgs := by
  have htarget : t.expandTarget budget (.call attrs style callee args) =
      t.expandNode budget callee := by
    rw [expandTarget]
    dsimp only [Node.target?]
    rw [hhead]
    rfl
  rw [t.expandChildren_pos budget hpos, htarget] at h
  obtain ⟨_, _, ⟨⟩, h⟩ := Step.andThen_eq_ok h
  obtain ⟨newAttrs, s₁, hattrs, h⟩ := Step.andThen_eq_ok h
  obtain ⟨expanded, s₂, hcallee, h⟩ := Step.andThen_eq_ok h
  obtain ⟨newArgs, s₃, hargs, h⟩ := Step.andThen_eq_ok h
  obtain ⟨⟩ := h
  exact ⟨newAttrs, s₁, expanded, s₂, newArgs, hattrs, hcallee, hargs, rfl⟩

/-- **A splice in the place of a target is unwrapped if something has changed.**  The children of a
call are expanded, and the target is no plain name.  If the target comes out as a splice of one
node, then this node is the new target, provided that an output has been accepted in the target's
expansion or a list with a splice expanded; otherwise the target stays the splice that it was. -/
theorem target_unwrapped_iff_changed (t : Expander σ) {budget : Nat} (hpos : 1 ≤ budget)
    {attrs args : List Node} {style : Style} {callee : Node}
    (hhead : (Node.call attrs style callee args).hasSimpleHead = false) {s s' : State σ}
    {result : Option Node}
    (hok : t.expandChildren budget (.call attrs style callee args) s = (.ok result, s')) :
    ∃ newAttrs s₁ expanded s₂ log, t.expandList budget attrs s.opening = (.ok newAttrs, s₁) ∧
      t.expandNode budget callee s₁ = (.ok expanded, s₂) ∧
      (∃ enough, ∀ fuel, enough ≤ fuel →
        t.nodeRun fuel [] budget callee false s₁ = some ((.ok expanded, s₂), log)) ∧
      ∀ item, (expanded.getD callee).calls Reserved.splice = true →
        (expanded.getD callee).args = [item] →
        (result.getD (.call attrs style callee args)).target? =
            some (if log.any Event.changes then item else callee) ∧
          ((result.getD (.call attrs style callee args)).target? = some item ↔
            log.any Event.changes = true) := by
  obtain ⟨newAttrs, s₁, expanded, s₂, newArgs, hattrs, hcallee, -, rfl⟩ :=
    t.expandChildren_parts (Nat.one_le_iff_ne_zero.1 hpos) hhead hok
  obtain ⟨log, enough, hruns⟩ := t.exists_nodeRun budget callee s₁
  rw [hcallee] at hruns
  have hchanged : expanded.isSome = log.any Event.changes := by
    have hnoticed := nodeRun_known (Knowledge.closed_noticing t) (hruns enough (Nat.le_refl enough))
    exact hnoticed.trans (Bool.false_or _)
  refine ⟨newAttrs, s₁, expanded, s₂, log, hattrs, hcallee, ⟨enough, hruns⟩, ?_⟩
  intro item hcalls hitem
  rw [Node.replaceParts_call, ← hchanged]
  cases expanded with
  | some new =>
      have hnew : new.asTarget = item := by
        have hcalls : new.calls Reserved.splice = true := hcalls
        have hitem : new.args = [item] := hitem
        simp [Node.asTarget, hitem, hcalls]
      simp [Node.target?, hnew]
  | none =>
      -- the target itself is the splice, so its argument is another node
      have hitem : callee.args = [item] := hitem
      have hmem : item.size < Node.sizeList callee.args :=
        Node.size_lt_sizeList_of_mem (by simp [hitem])
      have hsize : item.size < callee.size := Nat.lt_trans hmem (Node.sizeList_args_lt callee)
      have hother : callee ≠ item := fun h => absurd hsize (by simp [h])
      simp [Node.target?, hother]

/-- The target is replaced by a splice of one node, which is then unwrapped. -/
theorem target_unwrapped_iff_changed_replaced :
    let t := create (Table.empty.addAll [replacing 0 "T" {} (.splice [.ident "g"])]).2 [] 9 {}
    let s := t.initial 0 (.empty .debug)
    let callee := Node.invokeName "T" []
    let node := Node.call [] .plain callee [.ident "x"]
    1 ≤ 2 ∧ node.hasSimpleHead = false ∧
      (∃ s', t.expandChildren 2 node s = (.ok (some (.invokeName "g" [.ident "x"])), s')) ∧
      ∃ s₁ s₂ log, t.expandNode 2 callee s₁ = (.ok (some (.splice [.ident "g"])), s₂) ∧
        (∃ enough, ∀ fuel, enough ≤ fuel → t.nodeRun fuel [] 2 callee false s₁ =
          some ((.ok (some (.splice [.ident "g"])), s₂), log)) ∧
        log.any Event.changes = true := by
  intro t s callee node
  have hhead : node.hasSimpleHead = false := rfl
  obtain ⟨s', hok⟩ : ∃ s', t.expandChildren 2 node s =
      (.ok (some (.invokeName "g" [.ident "x"])), s') :=
    (t.childrenRun_answers 4 2 node).of_map (by decide +kernel)
  obtain ⟨s₂, hcallee⟩ : ∃ s₂, t.expandNode 2 callee s.opening =
      (.ok (some (.splice [.ident "g"])), s₂) :=
    (t.nodeRun_answers 4 [] 2 callee).of_map (by decide +kernel)
  obtain ⟨_, s₁, expanded, s₃, log, hattrs, hexpanded, hruns, hunwrapped⟩ :=
    t.target_unwrapped_iff_changed (by decide) hhead hok
  -- there are no attributes, so the target is expanded in the state in which the node is opened
  rw [t.expandList_nil] at hattrs
  obtain ⟨⟩ := hattrs
  obtain ⟨⟩ := hcallee.symm.trans hexpanded
  exact ⟨by decide, hhead, ⟨s', hok⟩, s.opening, s₂, log, hcallee, hruns,
    (hunwrapped (.ident "g") rfl rfl).2.1 rfl⟩

/-- **The exception.**  A splice of one node stays in the place of a target if nothing in it
changes, whereas it is replaced in a list. -/
theorem unchanged_target_stays_spliced :
    let t := create (Table.empty : Table Unit) [] 9 {}
    let s := t.initial () (.empty .debug)
    let callee := Node.splice [.ident "f"]
    let node := Node.call [] .plain callee [.ident "x"]
    node.hasSimpleHead = false ∧ callee.calls Reserved.splice = true ∧
      callee.args = [.ident "f"] ∧ (∃ s', t.expandNode 1 callee s = (.ok none, s')) ∧
      (∃ s', t.expandChildren 1 node s = (.ok none, s')) ∧ node.target? ≠ some (.ident "f") ∧
      ∃ s', t.expandList 1 [callee] s = (.ok (some [.ident "f"]), s') := by
  intro t s callee node
  refine ⟨rfl, rfl, rfl, ?_, ?_, by simp [node, callee, Node.target?, Node.splice, Node.invokeName,
    Node.invoke, Node.ident], ?_⟩
  · exact (t.nodeRun_answers 4 [] 1 callee).of_map (by decide +kernel)
  · exact (t.childrenRun_answers 4 1 node).of_map (by decide +kernel)
  · exact (t.listRun_answers 4 1 [callee]).of_map (by decide +kernel)

end Expander

end MacroForest
