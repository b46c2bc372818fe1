/-
**Closed namespaces.**

A macro in a namespace can be meant in two ways: by its name, where the namespace is open, and by
its qualified name.  An expansion that does neither, as long as it runs, does not know what is in
the namespace.  Macros in it have the names of other macros, they are registered between those and
have priorities and labels like those; but they are never candidates, so they take part in nothing.

The run over the table with more macros pursues the run over the table without them
(`MacroForest/Proofs/Expansion/Pursuit.lean`), in the same states.  What the first run happens not
to do is asked for by its guard: no node is dispatched while the namespace is open, and none that
names it.

Main definitions:

* `MacroForest.Node.headIn` — the head is qualified by a namespace;
* `MacroForest.Expander.StaysClosed` — a namespace is closed at every dispatch, and never named;
* `MacroForest.Expander.Gains` — an expander with some more macros.

Main results:

* `MacroForest.Expander.candidates_of_closed` — what a closed namespace holds is no candidate;
* `MacroForest.Expander.closed_namespace_irrelevant` — **what a closed namespace holds does not
  matter**.
-/

import MacroForest.Proofs.Expansion.Adequacy
import MacroForest.Proofs.Expansion.Pursuit
import MacroForest.Proofs.Macro.Extension

set_option relaxedAutoImplicit false
set_option autoImplicit false

namespace MacroForest

variable {σ : Type}

/-! ### Runs that leave a namespace closed -/

/-- The head of the node is a name that is qualified by the namespace. -/
def Node.headIn (space : String) (n : Node) : Bool :=
  !n.hasSimpleHead && (n.target?.bind (·.qualified?)).any (·.1 == space)

/-- The macro is outside of a namespace. -/
def Entry.outside (space : String) (e : Entry σ) : Bool := e.space != some space

namespace Expander

/-- A guard: a node is dispatched only while the namespace is closed, and only if it does not name
it. -/
def leavesClosed (space : String) : Guard σ := fun _ node s =>
  !s.scopes.isOpen space && !node.headIn space

/-- In the expansion of a forest no node is dispatched while the namespace is open, and none whose
head is qualified by it. -/
def StaysClosed (t : Expander σ) (space : String) (nodes : Forest) (s : State σ) : Prop :=
  ∃ fuel r log, t.guardedForestRun (leavesClosed space) fuel nodes s = some (r, log)

/-- The same expander with some more macros.  They are registered in its table as it is, or before
the built-in macros, of which they take the place of none. -/
inductive Gains (es : List (Entry σ)) : Expander σ → Expander σ → Prop where
  | after (t : Expander σ) : Gains es t { t with table := (t.table.addAll es).2 }
  | before (table : Table σ) (preOpened : NameSet) (budget : Nat) (token : CancelToken)
      (hspares : table.Spares es) :
      Gains es (create table preOpened budget token)
        (create (table.addAll es).2 preOpened budget token)

/-! ### Candidates -/

/-- **What a closed namespace holds is no candidate**, for a node that does not name it. -/
theorem candidates_of_closed {t t' : Expander σ} {space : String} {es : List (Entry σ)}
    (hextends : t.table.Extends es (Entry.outside space) t'.table) {scopes : ScopeStack} {node : Node}
    (hclosed : scopes.isOpen space = false) (hhead : node.headIn space = false) :
    t'.candidates scopes node = t.candidates scopes node := by
  -- what is found passes the test, so it can be looked for among what does
  have hfilter : ∀ (seen : Entry σ → Bool), (∀ e, seen e = true → e.outside space = true) →
      ∀ name, (t'.table.named name).filter seen = (t.table.named name).filter seen := by
    intro seen hseen name
    have htwice : ∀ es : List (Entry σ), (es.filter (Entry.outside space)).filter seen =
        es.filter seen := by
      intro es
      rw [List.filter_filter]
      refine List.filter_congr fun e _ => ?_
      cases hs : seen e with
      | false => rfl
      | true => rw [hseen e hs]; rfl
    rw [← htwice (t'.table.named name), hextends.agree name, htwice]
  unfold candidates
  cases hsimple : node.hasSimpleHead with
  | true =>
      rw [if_pos rfl, if_pos rfl]
      cases node.headName? with
      | none => rfl
      | some name =>
          refine hfilter _ (fun e hvisible => ?_) name
          unfold Entry.visible at hvisible
          unfold Entry.outside
          cases hspace : e.space with
          | none => rfl
          | some other =>
              rw [hspace] at hvisible
              have hne : other ≠ space := by
                rintro rfl
                exact Bool.eq_false_iff.1 hclosed hvisible
              simpa using hne
  | false =>
      rw [if_neg Bool.false_ne_true, if_neg Bool.false_ne_true]
      unfold Node.headIn at hhead
      rw [hsimple] at hhead
      cases hqualified : node.target?.bind (·.qualified?) with
      | none => rfl
      | some head =>
          obtain ⟨other, name⟩ := head
          rw [hqualified] at hhead
          refine hfilter _ (fun e hfound => ?_) name
          have hne : other ≠ space := by simpa using hhead
          have hspace : e.space = some other := by simpa using hfound
          simp [Entry.outside, hspace, hne]

/-! ### The pursuit -/

theorem candidates_of_leavesClosed {t t' : Expander σ} {space : String} {es : List (Entry σ)}
    (hextends : t.table.Extends es (Entry.outside space) t'.table) {budget : Nat} {node : Node}
    {s : State σ} (h : leavesClosed space budget node s = true) :
    t'.candidates s.scopes node = t.candidates s.scopes node := by
  simp only [leavesClosed, Bool.and_eq_true, Bool.not_eq_true'] at h
  exact candidates_of_closed hextends h.1 h.2

/-- A run that leaves a namespace closed is pursued in the same states, if there are the same
macros outside of the namespace. -/
def withoutSpace {t t' : Expander σ} {space : String} {es : List (Entry σ)}
    (htoken : t'.token = t.token)
    (hextends : t.table.Extends es (Entry.outside space) t'.table) : Pursuit t t' :=
  .inStep 0 (leavesClosed space) (fun _ => True) htoken
    (fun hallows => candidates_of_leavesClosed hextends hallows)
    (fun hextra => absurd rfl hextra) (fun hextra => absurd rfl hextra)
    (fun hextra => absurd rfl hextra)

/-- An expander that gains macros in a namespace has the same ones outside of it. -/
theorem Gains.extends {es : List (Entry σ)} {t t' : Expander σ} (h : Gains es t t') {space : String}
    (hes : ∀ e ∈ es, e.space = some space) :
    t.table.Extends es (Entry.outside space) t'.table := by
  have hnone : ∀ e ∈ es, ¬ e.outside space = true := fun e he => by simp [Entry.outside, hes e he]
  cases h with
  | after => exact Table.extends_addAll fun e he hkept => absurd hkept (hnone e he)
  | before table preOpened budget token hspares =>
      have hextends : table.Extends es (Entry.outside space) (table.addAll es).2 :=
        Table.extends_addAll fun e he hkept => absurd hkept (hnone e he)
      rw [create_table, create_table]
      exact hextends.withBuiltins hspares

/-- Nothing else is different. -/
theorem Gains.same {es : List (Entry σ)} {t t' : Expander σ} (h : Gains es t t') :
    t'.token = t.token ∧ t'.budget = t.budget ∧ t'.rootScopes = t.rootScopes := by
  cases h with
  | after => exact ⟨rfl, rfl, rfl⟩
  | before => simp only [create, rootScopes, and_self]

theorem eq_of_matches_withoutSpace {t t' : Expander σ} {space : String} {es : List (Entry σ)}
    {htoken : t'.token = t.token}
    {hextends : t.table.Extends es (Entry.outside space) t'.table} {log log' : List (Event σ)}
    (h : List.Forall₂ (withoutSpace htoken hextends).Matches log log') : log' = log := by
  induction h with
  | nil => rfl
  | @cons event event' _ _ hevent _ ih =>
      obtain ⟨chain, budget, action⟩ := event
      obtain ⟨chain', budget', action'⟩ := event'
      obtain ⟨hchain, hbudget, haction⟩ := hevent
      have hchain' : chain' = chain := hchain.trans (List.map_id chain)
      have hbudget' : budget' = budget := hbudget
      have haction' : action' = action := Action.Matches.eq haction
      rw [ih, hchain', hbudget', haction']

/-- **What a closed namespace holds does not matter.**  If no node of an expansion is dispatched
while a namespace is open, and none whose head is qualified by it, then the expansion does not
change with any number of macros that are registered in the namespace.  The answer, the messages,
the scopes and everything else in the final state are the same, and so is the whole log, with every
invocation in its place. -/
theorem closed_namespace_irrelevant (t : Expander σ) (space : String) (nodes : Forest) (s : State σ)
    (hclosed : t.StaysClosed space nodes s) (es : List (Entry σ))
    (hes : ∀ e ∈ es, e.space = some space) (t' : Expander σ) (hgains : Gains es t t') :
    t'.expandForest nodes s = t.expandForest nodes s ∧
      ∃ fuel log, t.forestRun fuel nodes s = some (t.expandForest nodes s, log) ∧
        t'.forestRun fuel nodes s = some (t.expandForest nodes s, log) := by
  obtain ⟨fuel, ⟨r, s₁⟩, log, hr⟩ := hclosed
  -- the run under guard is pursued by the run without, and by the one with the new macros
  have hpursued : ∀ t₂ : Expander σ, t₂.token = t.token → t₂.budget = t.budget →
      t₂.rootScopes = t.rootScopes → t.table.Extends es (Entry.outside space) t₂.table →
      t₂.forestRun fuel nodes s = some ((r, s₁), log) := by
    intro t₂ htoken hbudget hroot hextends
    obtain ⟨s₂, log₂, hr₂, rfl, hlog⟩ := forestRun_pursued (withoutSpace htoken hextends) hbudget
      (by rw [hroot]; rfl) hr fun _ _ => trivial
    rw [hr₂, eq_of_matches_withoutSpace hlog]
  have hself := hpursued t rfl rfl rfl (.refl es _ t.table)
  obtain ⟨htoken, hbudget, hroot⟩ := hgains.same
  have hmore := hpursued t' htoken hbudget hroot (hgains.extends hes)
  have hanswer := t.forestRun_answers fuel nodes s _ log hself
  have hanswer' := t'.forestRun_answers fuel nodes s _ log hmore
  rw [hanswer, hanswer']
  exact ⟨rfl, fuel, log, hself, hmore⟩

/-- The macros in `N` have the names of two macros of the table and of the built-in one for blocks,
and higher priorities. -/
theorem closed_namespace_irrelevant_hiding :
    let table : Table Unit := (Table.empty.addAll [givingIn none 0 "m" {} (.ident "global"),
      givingIn (some "M") 1 "n" {} (.ident "open")]).2
    let es := [givingIn (some "N") 2 "m" { priority := .override } (.ident "hidden"),
      givingIn (some "N") 3 "n" { childrenBefore := true } (.ident "hidden"),
      givingIn (some "N") 4 Reserved.block { priority := .overrideMax } (.ident "hidden")]
    let t := create table ["M"] 100 {}
    let t' := create (table.addAll es).2 ["M"] 100 {}
    let s := t.initial () (.empty .detail)
    let nodes := [Node.block [.invokeName "m" [.ident "n"]],
      .call [] .plain (.dotted (.ident "M") (.ident "n")) []]
    t.StaysClosed "N" nodes s ∧ (∀ e ∈ es, e.space = some "N") ∧ Gains es t t' ∧
      t'.expandForest nodes s = t.expandForest nodes s := by
  intro table es t t' s nodes
  have hrun : (t.guardedForestRun (leavesClosed "N") 4 nodes s).isSome = true := by decide +kernel
  have hclosed : t.StaysClosed "N" nodes s := by
    obtain ⟨⟨r, log⟩, hr⟩ := Option.isSome_iff_exists.1 hrun
    exact ⟨4, r, log, hr⟩
  have hes : ∀ e ∈ es, e.space = some "N" := by
    intro e he
    simp only [es, List.mem_cons, List.not_mem_nil, or_false] at he
    rcases he with rfl | rfl | rfl <;> rfl
  have hspares : table.Spares es := by
    intro e he b hb _ hid
    simp only [es, List.mem_cons, List.not_mem_nil, or_false] at he
    simp only [builtins, List.mem_cons, List.not_mem_nil, or_false] at hb
    rcases he with rfl | rfl | rfl <;> rcases hb with rfl | rfl | rfl | rfl | rfl <;>
      simp [givingIn, Builtin.entry] at hid
  have hgains : Gains es t t' := .before table ["M"] 100 {} hspares
  exact ⟨hclosed, hes, hgains,
    (closed_namespace_irrelevant t "N" nodes s hclosed es hes t' hgains).1⟩

/-- **A closed namespace can hold the marker of blocks.**  The built-in macro for blocks, registered
in a namespace that is never open and never named, is refused when the built-in macros are added:
its name has it already.  So blocks have no frame, and what one opens is open behind it.  The same
happens to any global macro that is registered behind its own callable in the namespace. -/
theorem hidden_marker_matters :
    let table : Table Unit := (Table.empty.addAll [givingIn (some "M") 0 "Foo" {} (.ident "bar")]).2
    let es := [markerIn Unit "N"]
    let t := create table [] 100 {}
    let t' := create (table.addAll es).2 [] 100 {}
    let block := Node.block [.invokeName Reserved.openScope [.ident "M"]]
    let nodes := [block, .ident "Foo"]
    let s := t.initial () (.empty .detail)
    let giving := fun space => givingIn space 0 "x" {} (.ident "y")
    let u := create (Table.empty.addAll [giving none]).2 [] 100 {}
    let u' := create (Table.empty.addAll [giving (some "N"), giving none]).2 [] 100 {}
    t.StaysClosed "N" nodes s ∧ t'.StaysClosed "N" nodes s ∧ (∀ e ∈ es, e.space = some "N") ∧
      (t.expandForest nodes s).1 = .ok nodes ∧
      (t'.expandForest nodes s).1 = .ok [block, .ident "bar"] ∧
      (u.expandForest [.ident "x"] s).1 = .ok [.ident "y"] ∧
      (u'.expandForest [.ident "x"] s).1 = .ok [.ident "x"] := by
  intro table es t t' block nodes s giving u u'
  have hclosed : ∀ t₁ : Expander Unit,
      (t₁.guardedForestRun (leavesClosed "N") 4 nodes s).isSome = true →
      t₁.StaysClosed "N" nodes s := by
    intro t₁ hrun
    obtain ⟨⟨r, log⟩, hr⟩ := Option.isSome_iff_exists.1 hrun
    exact ⟨4, r, log, hr⟩
  refine ⟨hclosed t (by decide +kernel), hclosed t' (by decide +kernel), ?_, ?_, ?_, ?_, ?_⟩
  · intro e he
    rw [List.mem_singleton.1 he]
    rfl
  · exact (t.forestRun_answers 4 nodes).view (·.1) (by decide +kernel)
  · exact (t'.forestRun_answers 4 nodes).view (·.1) (by decide +kernel)
  · exact (u.forestRun_answers 4 [.ident "x"]).view (·.1) (by decide +kernel)
  · exact (u'.forestRun_answers 4 [.ident "x"]).view (·.1) (by decide +kernel)

end Expander

end MacroForest
