/-
**Macros that stand by do not matter.**

A table gets more macros, all of which decline whatever they are given and leave the scopes alone.
They can have any names, namespaces and priorities.  So they stand between other macros in a tier,
before them in tiers of their own, or alone where there was no macro; there they turn a node whose
children were expanded at once into one for which macros are asked first.

Only one kind of them is kept apart.  A macro that wants the children expanded before its turn would
have them expanded before the turns of the others, so it may not have the name of another one.
Where it is alone, the children are expanded for it, and what came of them is the answer in the end:
they are expanded once.  With a budget of one the macro is left out and the children have their turn
later.

Main results:

* `MacroForest.Expander.filter_candidates` — a test for the macros of a table finds the candidates;
* `MacroForest.Expander.exists_padding` — the expansion with more macros is a padded one;
* `MacroForest.Expander.bystanders_transparent` — **macros that stand by do not matter**.
-/

import MacroForest.Proofs.Expansion.Adequacy
import MacroForest.Proofs.Expansion.Padding
import MacroForest.Proofs.Macro.Extension

set_option relaxedAutoImplicit false
set_option autoImplicit false

namespace MacroForest

variable {σ ρ : Type}

/-! ### Tables -/

namespace Table

/-- Macros that are added to a table are found under their names. -/
theorem mem_or_named_of_addAll {t : Table σ} {es : List (Entry σ)} {name : String} {e : Entry σ}
    (h : e ∈ (t.addAll es).2.named name) : e ∈ t.named name ∨ (e ∈ es ∧ e.name = name) := by
  have hextends : t.Extends es (fun _ => false) (t.addAll es).2 :=
    extends_addAll fun _ _ hkept => absurd hkept Bool.false_ne_true
  exact hextends.new name e h

/-- All macros of a table that is built up from nothing are found under their names. -/
theorem mem_of_named_addAll {es : List (Entry σ)} {name : String} {e : Entry σ}
    (h : e ∈ (empty.addAll es).2.named name) : e ∈ es ∧ e.name = name := by
  rcases mem_or_named_of_addAll h with hempty | hnew
  · simp [empty, named] at hempty
  · exact hnew

end Table

/-- The built-in macros look at nothing that is shared. -/
theorem looksAt_of_mem_builtins (seen : σ → ρ) {e : Entry σ} (h : e ∈ builtins σ) :
    e.LooksAt seen := by
  simp only [builtins, List.mem_cons, List.not_mem_nil, or_false] at h
  intro a b node scopes hseen
  rcases h with rfl | rfl | rfl | rfl | rfl <;> exact ⟨rfl, rfl, hseen⟩

namespace Expander

/-! ### Candidates -/

/-- The candidates for a node are among the macros of one name. -/
theorem exists_named_candidates (scopes : ScopeStack) (node : Node) :
    ∃ name, ∀ t : Expander σ, ∀ e ∈ t.candidates scopes node, e ∈ t.table.named name := by
  unfold candidates
  split
  · cases node.headName? with
    | none => exact ⟨"", fun _ _ h => by simp at h⟩
    | some name => exact ⟨name, fun _ _ h => (List.mem_filter.1 h).1⟩
  · cases node.target?.bind (·.qualified?) with
    | none => exact ⟨"", fun _ _ h => by simp at h⟩
    | some head => exact ⟨head.2, fun _ _ h => (List.mem_filter.1 h).1⟩

/-- **A test for the macros of a table finds the candidates**, among those over a larger table. -/
theorem filter_candidates {t t' : Expander σ} {own : Entry σ → Bool}
    (h : ∀ name, (t'.table.named name).filter own = t.table.named name) (scopes : ScopeStack)
    (node : Node) : (t'.candidates scopes node).filter own = t.candidates scopes node := by
  have hfilter : ∀ (seen : Entry σ → Bool) (name : String),
      ((t'.table.named name).filter seen).filter own = (t.table.named name).filter seen := by
    intro seen name
    rw [← h name, List.filter_filter, List.filter_filter]
    exact List.filter_congr fun e _ => Bool.and_comm _ _
  unfold candidates
  split
  · cases node.headName? with
    | none => rfl
    | some name => exact hfilter _ name
  · cases node.target?.bind (·.qualified?) with
    | none => rfl
    | some head => exact hfilter _ head.2

/-! ### The padding -/

section Bystanding

variable {base es : List (Entry σ)} {seen : σ → ρ} {table : Table σ}

/-- An added macro that the table with the built-in macros has is in the table itself. -/
theorem has_of_withBuiltins (hspares : table.Spares es) {e : Entry σ} (he : e ∈ es)
    (h : table.withBuiltins.has e = true) : table.has e = true := by
  obtain ⟨e', he', hid⟩ := Table.has_iff.1 h
  rcases Table.mem_or_named_of_addAll he' with hold | ⟨hbuiltin, hname⟩
  · exact Table.has_iff.2 ⟨e', hold, hid⟩
  · -- a built-in macro with the callable, which is in the table as it is spared
    obtain ⟨old, hold, hsame⟩ := Table.has_iff.1 (hspares e he e' hbuiltin hname.symm hid.symm)
    rw [hname] at hold
    exact Table.has_iff.2 ⟨old, hold, hsame.trans hid⟩

/-- **An expansion with macros that stand by is a padded one.** -/
theorem exists_padding (hlooks : ∀ e ∈ base, e.LooksAt seen) (hstands : ∀ e ∈ es, e.StandsBy seen)
    (hbefore : ∀ e ∈ es, e.mode.childrenBefore = true →
      (Table.empty.addAll base).2.named e.name = [] ∧ ∀ b ∈ builtins σ, b.name ≠ e.name)
    (hspares : (Table.empty.addAll base).2.Spares es)
    (hmarks : (Table.empty.addAll base).2.MarksBlocks) {t t' : Expander σ}
    (ht : t.table = (Table.empty.addAll base).2.withBuiltins)
    (ht' : t'.table = ((Table.empty.addAll base).2.addAll es).2.withBuiltins)
    (htoken : t'.token = t.token) (hdeadline : t.token.deadline = none) :
    ∃ L : Padding ρ t t', L.seen = seen ∧ L.own = t.table.has := by
  -- the macros of the table, with the built-in ones, and where the others come from
  have hold : ∀ name, ∀ e ∈ t.table.named name,
      (e ∈ base ∨ e ∈ builtins σ) ∧ e.name = name := by
    intro name e he
    rw [ht] at he
    rcases Table.mem_or_named_of_addAll he with hold | ⟨hbuiltin, hname⟩
    · obtain ⟨hbase, hname⟩ := Table.mem_of_named_addAll hold
      exact ⟨.inl hbase, hname⟩
    · exact ⟨.inr hbuiltin, hname⟩
  have hown : ∀ name, ∀ e ∈ t.table.named name, t.table.has e = true := by
    intro name e he
    have hname := (hold name e he).2
    exact Table.has_iff.2 ⟨e, by rwa [hname], rfl⟩
  have hextends : t.table.Extends es t.table.has t'.table := by
    rw [ht, ht']
    refine Table.Extends.withBuiltins (Table.extends_addAll fun e he hkept => ?_) hspares
    exact has_of_withBuiltins hspares he hkept
  have hadded : ∀ name, ∀ e ∈ t'.table.named name, t.table.has e = false →
      e ∈ es ∧ e.name = name := by
    intro name e he hother
    refine (hextends.new name e he).resolve_left fun hthere => ?_
    exact Bool.eq_false_iff.1 hother (hown name e hthere)
  refine ⟨⟨seen, t.table.has, ?token, ?found, ?looks, ?stands, ?prepares, ?blocks⟩, rfl, rfl⟩
  case token =>
    intro now now'
    simp [CancelToken.isCancelled, htoken, hdeadline]
  case found =>
    refine filter_candidates fun name => ?_
    rw [hextends.agree name, List.filter_eq_self]
    exact hown name
  case looks =>
    intro scopes node e he
    obtain ⟨name, hname⟩ := Expander.mem_table_of_candidates he
    rcases (hold name e hname).1 with hbase | hbuiltin
    · exact hlooks e hbase
    · exact looksAt_of_mem_builtins seen hbuiltin
  case stands =>
    intro scopes node e he hother
    obtain ⟨name, hname⟩ := Expander.mem_table_of_candidates he
    exact hstands e (hadded name e hname hother).1
  case prepares =>
    intro scopes node e he hother hchildren
    obtain ⟨name, hcandidates⟩ := exists_named_candidates (σ := σ) scopes node
    obtain ⟨hes, rfl⟩ := hadded name e (hcandidates t' e he) hother
    obtain ⟨hnone, hnew⟩ := hbefore e hes hchildren
    refine List.eq_nil_iff_forall_not_mem.2 fun e₁ he₁ => ?_
    have hthere := hcandidates t e₁ he₁
    rw [ht] at hthere
    rcases Table.mem_or_named_of_addAll hthere with hold | ⟨hbuiltin, hname⟩
    · rw [hnone] at hold
      simp at hold
    · exact hnew e₁ hbuiltin hname
  case blocks =>
    intro scopes node hblock
    refine candidates_block_ne_nil ?_ hblock scopes
    rw [ht]
    exact Table.exists_global_block hmarks

end Bystanding

/-- **Macros that stand by do not matter.**  A table gets any number of macros that decline every
node, leave the scopes alone and change nothing that the macros of the table look at.  They can have
any names, namespaces, priorities and modes; only those that want the children expanded before may
not have the name of another macro.  Then the expansion of a forest has the same answer and leaves
the same scopes, and the same of what is seen.  Without the turns of these macros its log is the
same, with each macro of the table, and each built-in one, invoked in its place on the same node in
the same scopes. -/
theorem bystanders_transparent (base es : List (Entry σ)) (seen : σ → ρ)
    (hlooks : ∀ e ∈ base, e.LooksAt seen) (hstands : ∀ e ∈ es, e.StandsBy seen)
    (hbefore : ∀ e ∈ es, e.mode.childrenBefore = true →
      (Table.empty.addAll base).2.named e.name = [] ∧ ∀ b ∈ builtins σ, b.name ≠ e.name)
    (hspares : (Table.empty.addAll base).2.Spares es)
    (hmarks : (Table.empty.addAll base).2.MarksBlocks) (preOpened : NameSet) (budget : Nat)
    (token : CancelToken) (hdeadline : token.deadline = none) (nodes : Forest) (s : State σ) :
    let table := (Table.empty.addAll base).2
    let t := create table preOpened budget token
    let t' := create (table.addAll es).2 preOpened budget token
    (t'.expandForest nodes s).1 = (t.expandForest nodes s).1 ∧
      (t'.expandForest nodes s).2.scopes = (t.expandForest nodes s).2.scopes ∧
      seen (t'.expandForest nodes s).2.shared = seen (t.expandForest nodes s).2.shared ∧
      ∃ fuel log log', t.forestRun fuel nodes s = some (t.expandForest nodes s, log) ∧
        t'.forestRun fuel nodes s = some (t'.expandForest nodes s, log') ∧
        List.Forall₂ (Event.Near seen) log (log'.filter (·.isOwn t.table.has)) := by
  intro table t t'
  have ht : t.table = table.withBuiltins := create_table table preOpened budget token
  have ht' : t'.table = (table.addAll es).2.withBuiltins := create_table _ preOpened budget token
  have hsame : t'.token = t.token ∧ t'.budget = t.budget ∧ t'.rootScopes = t.rootScopes := by
    simp only [t, t', create, rootScopes, and_self]
  obtain ⟨htoken, hbudget, hroot⟩ := hsame
  obtain ⟨L, rfl, hown⟩ :=
    exists_padding hlooks hstands hbefore hspares hmarks ht ht' htoken hdeadline
  obtain ⟨log, fuel, hfuel⟩ := t.exists_forestRun nodes s
  have hrun := hfuel fuel (Nat.le_refl fuel)
  obtain ⟨s₂, log', hrun', hnear, hlog⟩ := forestRun_padded L hbudget hroot rfl rfl hrun
  have hanswer := t'.forestRun_answers fuel nodes s _ log' hrun'
  rw [hanswer]
  refine ⟨rfl, hnear.scopes, hnear.seen, fuel, log, log', hrun, hrun', ?_⟩
  rw [← hown]
  exact hlog

/-- A macro that accepts from its second turn on, and counts its turns in the first component. -/
def acceptingLater : Entry (Nat × Nat) where
  space := none
  name := "f"
  mode := {}
  givenLabel := none
  origin := none
  callable := ⟨.custom 0, fun state _ scopes => .quiet (state.1 + 1, state.2) scopes
    (if state.1 = 0 then .declined else .accepted (.ident "later"))⟩

/-- A macro that stands by, and counts its turns in the second component. -/
def standingBy (space : Option String) (index : Nat) (name : String) (mode : Mode) :
    Entry (Nat × Nat) where
  space := space
  name := name
  mode := mode
  givenLabel := none
  origin := none
  callable := ⟨.custom index, fun state _ scopes =>
    .quiet (state.1, state.2 + 1) scopes .declined⟩

/-- Four macros stand by: before the others of a name, beside them in a namespace that is open, for
blocks, and for a name that had no macro, where the children are wanted before. -/
theorem bystanders_transparent_counting :
    let base := [acceptingLater]
    let es := [standingBy none 1 "f" { priority := .override },
      standingBy (some "N") 2 "f" { passive := true }, standingBy none 3 Reserved.block {},
      standingBy none 4 "g" { childrenBefore := true }]
    let table := (Table.empty.addAll base).2
    let t := create table ["N"] 3 {}
    let t' := create (table.addAll es).2 ["N"] 3 {}
    let nodes := [Node.block [.ident "f", .invokeName "g" [.ident "f"]], .invokeName "g" []]
    let s := t.initial (0, 0) (.empty .detail)
    (∀ e ∈ base, e.LooksAt Prod.fst) ∧ (∀ e ∈ es, e.StandsBy Prod.fst) ∧
      (∀ e ∈ es, e.mode.childrenBefore = true →
        table.named e.name = [] ∧ ∀ b ∈ builtins (Nat × Nat), b.name ≠ e.name) ∧
      table.Spares es ∧ table.MarksBlocks ∧
      (t'.expandForest nodes s).1 = (t.expandForest nodes s).1 ∧
      (t'.expandForest nodes s).2.shared.1 = (t.expandForest nodes s).2.shared.1 := by
  intro base es table t t' nodes s
  have hlooks : ∀ e ∈ base, e.LooksAt Prod.fst := by
    intro e he a b node scopes hseen
    rw [List.mem_singleton.1 he]
    simp [acceptingLater, Reply.quiet, hseen]
  have hes : ∀ e ∈ es, ∃ space index name mode, e = standingBy space index name mode := by
    intro e he
    simp only [es, List.mem_cons, List.not_mem_nil, or_false] at he
    rcases he with rfl | rfl | rfl | rfl <;> exact ⟨_, _, _, _, rfl⟩
  have hstands : ∀ e ∈ es, e.StandsBy Prod.fst := by
    intro e he shared node scopes
    obtain ⟨space, index, name, mode, rfl⟩ := hes e he
    exact ⟨rfl, rfl, rfl⟩
  have hbefore : ∀ e ∈ es, e.mode.childrenBefore = true →
      table.named e.name = [] ∧ ∀ b ∈ builtins (Nat × Nat), b.name ≠ e.name := by
    intro e he hchildren
    simp only [es, List.mem_cons, List.not_mem_nil, or_false] at he
    rcases he with rfl | rfl | rfl | rfl
    · cases hchildren
    · cases hchildren
    · cases hchildren
    · refine ⟨rfl, fun b hb => ?_⟩
      simp only [builtins, List.mem_cons, List.not_mem_nil, or_false] at hb
      rcases hb with rfl | rfl | rfl | rfl | rfl <;> decide
  have hspares : table.Spares es := by
    intro e he b hb _ hid
    obtain ⟨space, index, name, mode, rfl⟩ := hes e he
    simp only [builtins, List.mem_cons, List.not_mem_nil, or_false] at hb
    rcases hb with rfl | rfl | rfl | rfl | rfl <;> cases hid
  have hmarks : table.MarksBlocks := by
    intro e he hid
    obtain ⟨hbase, -⟩ := Table.mem_of_named_addAll he
    rw [List.mem_singleton.1 hbase] at hid
    cases hid
  obtain ⟨hanswer, -, hseen, -⟩ := bystanders_transparent base es Prod.fst hlooks hstands hbefore
    hspares hmarks ["N"] 3 {} rfl nodes s
  exact ⟨hlooks, hstands, hbefore, hspares, hmarks, hanswer, hseen⟩

/-- **Macros can stand by and show.**  The built-in macro for blocks declines every node and does
nothing else.  But where it is registered in a closed namespace it takes its own place: blocks have
no frame, a namespace stays open, and a macro is invoked that was not before.  Where a table holds
it there already, any macro for blocks that stands by gives them their frames back.  And a macro
that stands by can have the callable of another one, which then has a turn that it had not. -/
theorem hidden_bystander_shows :
    let base := [givingIn (some "M") 0 "Foo" {} (.ident "bar")]
    let es := [markerIn Unit "N"]
    let table := (Table.empty.addAll base).2
    let t := create table [] 100 {}
    let t' := create (table.addAll es).2 [] 100 {}
    let block := Node.block [.invokeName Reserved.openScope [.ident "M"]]
    let nodes := [block, .ident "Foo"]
    let s := t.initial () (.empty .detail)
    let holding := (Table.empty.addAll [markerIn (Nat × Nat) "N"]).2
    let v := create holding [] 100 {}
    let v' := create (holding.addAll [standingBy none 0 Reserved.block {}]).2 [] 100 {}
    let own := (Table.empty.addAll [standingBy none 0 "m" {}]).2
    let u := create own [] 100 {}
    let u' := create (own.addAll [standingBy none 0 "x" {}]).2 [] 100 {}
    let start := u.initial (0, 0) (.empty .detail)
    (∀ e ∈ es, e.StandsBy id ∧ e.mode.childrenBefore = false) ∧ table.MarksBlocks ∧
      (t.expandForest nodes s).1 = .ok nodes ∧
      (t'.expandForest nodes s).1 = .ok [block, .ident "bar"] ∧
      (t.expandForest nodes s).2.scopes.isOpen "M" = false ∧
      (t'.expandForest nodes s).2.scopes.isOpen "M" = true ∧
      (v.expandForest [block] start).2.scopes.isOpen "M" = true ∧
      (v'.expandForest [block] start).2.scopes.isOpen "M" = false ∧
      (u.expandForest [.ident "x"] start).2.shared.2 = 0 ∧
      (u'.expandForest [.ident "x"] start).2.shared.2 = 1 := by
  intro base es table t t' block nodes s holding v v' own u u' start
  have hes : ∀ e ∈ es, e.StandsBy id ∧ e.mode.childrenBefore = false := by
    intro e he
    rw [List.mem_singleton.1 he]
    exact ⟨fun _ _ _ => ⟨rfl, rfl, rfl⟩, rfl⟩
  have hmarks : table.MarksBlocks := by
    intro e he hid
    obtain ⟨hbase, -⟩ := Table.mem_of_named_addAll he
    rw [List.mem_singleton.1 hbase] at hid
    cases hid
  have hseen : ((t.expandForest nodes s).1, (t.expandForest nodes s).2.scopes.isOpen "M") =
      (.ok nodes, false) :=
    (t.forestRun_answers 4 nodes).view (fun r => (r.1, r.2.scopes.isOpen "M")) (by decide +kernel)
  have hseen' : ((t'.expandForest nodes s).1, (t'.expandForest nodes s).2.scopes.isOpen "M") =
      (.ok [block, .ident "bar"], true) :=
    (t'.forestRun_answers 4 nodes).view (fun r => (r.1, r.2.scopes.isOpen "M")) (by decide +kernel)
  obtain ⟨hanswer, hscopes⟩ := Prod.mk.inj hseen
  obtain ⟨hanswer', hscopes'⟩ := Prod.mk.inj hseen'
  refine ⟨hes, hmarks, hanswer, hanswer', hscopes, hscopes', ?_, ?_, ?_, ?_⟩
  · exact (v.forestRun_answers 4 [block]).view (·.2.scopes.isOpen "M") (by decide +kernel)
  · exact (v'.forestRun_answers 4 [block]).view (·.2.scopes.isOpen "M") (by decide +kernel)
  · exact (u.forestRun_answers 4 [.ident "x"]).view (·.2.shared.2) (by decide +kernel)
  · exact (u'.forestRun_answers 4 [.ident "x"]).view (·.2.shared.2) (by decide +kernel)

end Expander

end MacroForest
