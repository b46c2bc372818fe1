/-
**Scopes end with their blocks.**

Macros open and close namespaces in the innermost frame of the scopes, and a block has a frame of
its own.  So an expansion, however it ends, leaves the stack of frames as deep as it was and changes
none but the innermost one; and the expansion of a block changes nothing at all, also when macros
have replaced the block by another block in between.

The frame of a block is opened when macros are found for it.  That some are found is what the
built-in macro for blocks is there for, which is global.  A table can hold that same macro in a
namespace instead: then it counts as registered already and is not added again, a block finds no
macro as long as the namespace is closed, and what is opened inside stays open
(`MacroForest.Expander.hidden_marker_leaks`).  The theorem on blocks therefore asks that the marker
is global where a table has it.

Main definitions:

* `MacroForest.ScopeStack.Edited` — what opening and closing namespaces makes of a stack;
* `MacroForest.Entry.Imports` — a macro that does nothing else to the scopes;
* `MacroForest.ScopeStack.SameBelow`, `MacroForest.ScopeStack.Restored` — the same frames below the
  innermost one;
* `MacroForest.Table.MarksBlocks` — the marker of blocks is global where it is registered.

Main results:

* `MacroForest.Table.named_register` — the macros of a name after a registration;
* `MacroForest.Expander.block_restores` — **a block leaves the scopes as they were**;
* `MacroForest.Expander.scopes_restored` — the scopes after an expansion.
-/

import MacroForest.Proofs.Expansion.Budget

set_option relaxedAutoImplicit false
set_option autoImplicit false

namespace MacroForest

/-! ### Stacks of frames -/

namespace ScopeStack

/-- What is made of a stack by opening and closing namespaces. -/
inductive Edited (s : ScopeStack) : ScopeStack → Prop
  | same : Edited s s
  | opened {s' : ScopeStack} (h : Edited s s') (name : String) : Edited s (s'.openName name)
  | closed {s' : ScopeStack} (h : Edited s s') (name : String) : Edited s (s'.closeName name).2

/-- A stack with a frame keeps having one, and all below the innermost one stay the same. -/
def SameBelow (a b : ScopeStack) : Prop :=
  a.frames ≠ [] → b.frames ≠ [] ∧ b.frames.tail = a.frames.tail

theorem SameBelow.refl (a : ScopeStack) : SameBelow a a := fun h => ⟨h, rfl⟩

theorem SameBelow.trans {a b c : ScopeStack} (h : SameBelow a b) (h' : SameBelow b c) :
    SameBelow a c := by
  intro ha
  obtain ⟨hb, hab⟩ := h ha
  obtain ⟨hc, hbc⟩ := h' hb
  exact ⟨hc, hbc.trans hab⟩

theorem sameBelow_updateTop (a : ScopeStack) (f : NameSet → NameSet) :
    SameBelow a (a.updateTop f) := by
  intro _
  refine ⟨by simp [updateTop], ?_⟩
  rw [updateTop, List.tail_cons, List.drop_one]

theorem Edited.sameBelow {a b : ScopeStack} (h : Edited a b) : SameBelow a b := by
  induction h with
  | same => exact SameBelow.refl a
  | opened _ name ih => exact ih.trans (sameBelow_updateTop _ _)
  | closed _ name ih => exact ih.trans (sameBelow_updateTop _ _)

/-- What keeps all below the frame of a block is undone with that frame. -/
theorem pop_of_sameBelow_push {a b : ScopeStack} (ha : a.frames ≠ [])
    (h : SameBelow a.push b) : b.pop = a := by
  obtain ⟨hb, htail⟩ := h (by simp [push])
  obtain ⟨frames⟩ := b
  obtain ⟨below⟩ := a
  cases frames with
  | nil => exact absurd rfl hb
  | cons top frames =>
      obtain rfl : frames = below := htail
      cases frames with
      | nil => exact absurd rfl ha
      | cons outer frames => rfl

theorem SameBelow.depth_eq {a b : ScopeStack} (ha : a.frames ≠ []) (h : SameBelow a b) :
    b.depth = a.depth := by
  obtain ⟨hb, htail⟩ := h ha
  have hlen := congrArg List.length htail
  rw [List.length_tail, List.length_tail] at hlen
  have := List.length_pos_iff.2 ha
  have := List.length_pos_iff.2 hb
  unfold depth
  omega

/-- The stack is as deep as it was, and the frames below the innermost one are the same. -/
def Restored (before after : ScopeStack) : Prop :=
  after.depth = before.depth ∧ after.frames.tail = before.frames.tail

theorem SameBelow.restored {a b : ScopeStack} (ha : a.frames ≠ []) (h : SameBelow a b) :
    Restored a b := ⟨h.depth_eq ha, (h ha).2⟩

end ScopeStack

/-! ### Macros that only open and close namespaces -/

/-- A macro that does nothing to the scopes but open and close namespaces. -/
def Entry.Imports {σ : Type} (e : Entry σ) : Prop :=
  ∀ shared node scopes, ScopeStack.Edited scopes (e.callable.run shared node scopes).scopes

namespace Builtin

theorem edited_openAll {a b : ScopeStack} (h : a.Edited b) (nodes : List Node) :
    a.Edited (openAll b nodes) := by
  induction nodes generalizing b with
  | nil => exact h
  | cons n nodes ih => exact ih (h.opened n.namespaceName)

theorem edited_closeAll {a b : ScopeStack} (h : a.Edited b) (nodes : List Node) :
    a.Edited (closeAll b nodes).2 := by
  induction nodes generalizing b with
  | nil => exact h
  | cons n nodes ih =>
      have := ih (h.closed n.namespaceName)
      unfold closeAll
      dsimp only
      split <;> exact this

end Builtin

/-- The built-in macros only open and close namespaces. -/
theorem imports_of_mem_builtins {σ : Type} {e : Entry σ} (h : e ∈ builtins σ) : e.Imports := by
  intro shared node scopes
  simp only [builtins, List.mem_cons, List.not_mem_nil, or_false] at h
  rcases h with rfl | rfl | rfl | rfl | rfl
  · exact .same
  · exact Builtin.edited_openAll .same node.args
  · exact Builtin.edited_openAll .same node.args
  · exact Builtin.edited_closeAll .same node.args
  · exact .same

/-! ### Registered macros -/

namespace Table

variable {σ : Type}

theorem named_insertInto (e : Entry σ) (buckets : List (Bucket σ)) (name : String) :
    named ⟨insertInto e buckets⟩ name =
      named ⟨buckets⟩ name ++ if e.name = name then [e] else [] := by
  induction buckets with
  | nil => by_cases h : e.name = name <;> simp [named, insertInto, h]
  | cons bucket buckets ih =>
      unfold insertInto
      by_cases hbucket : bucket.name = e.name
      · by_cases hname : e.name = name
        · simp [named, hbucket, hname]
        · simp [named, hbucket, hname]
      · rw [if_neg hbucket]
        by_cases hname : bucket.name = name
        · have : ¬ e.name = name := fun h => hbucket (hname.trans h.symm)
          simp [named, hname, this]
        · simpa [named, hname] using ih

/-- The macros of a name after a registration: the new one comes last, unless its name has the
callable already. -/
theorem named_register (t : Table σ) (e : Entry σ) (name : String) :
    (t.register e).2.named name = t.named name ∨
      e.name = name ∧ (t.register e).2.named name = t.named name ++ [e] := by
  unfold register
  split
  · exact .inl rfl
  · dsimp only
    rw [named_insertInto]
    by_cases hname : e.name = name
    · exact .inr ⟨hname, by rw [if_pos hname]⟩
    · exact .inl (by rw [if_neg hname, List.append_nil])

theorem mem_named_of_register {t : Table σ} {e e' : Entry σ} {name : String}
    (h : e' ∈ (t.register e).2.named name) : e' ∈ t.named name ∨ e' = e := by
  rcases t.named_register e name with hsame | ⟨-, hnew⟩
  · exact .inl (hsame ▸ h)
  · rw [hnew, List.mem_append, List.mem_singleton] at h
    exact h

theorem mem_register_of_mem {t : Table σ} {e e' : Entry σ} {name : String}
    (h : e' ∈ t.named name) : e' ∈ (t.register e).2.named name := by
  rcases t.named_register e name with hsame | ⟨-, hnew⟩
  · rwa [hsame]
  · rw [hnew]
    exact List.mem_append_left _ h

/-- After a registration the name has the callable, as the new macro or as an old one. -/
theorem exists_named_register (t : Table σ) (e : Entry σ) :
    ∃ e' ∈ (t.register e).2.named e.name, e'.callable.id = e.callable.id ∧
      (e' ∈ t.named e.name ∨ e' = e) := by
  unfold register
  split
  · rename_i hold
    obtain ⟨e', hmem, hid⟩ := List.any_eq_true.1 hold
    exact ⟨e', hmem, of_decide_eq_true hid, .inl hmem⟩
  · refine ⟨e, ?_, rfl, .inr rfl⟩
    dsimp only
    rw [named_insertInto, if_pos rfl]
    exact List.mem_append_right _ (List.mem_singleton_self e)

/-- Registering some macros, as a fold over tables alone. -/
theorem addAll_eq_foldl (t : Table σ) (es : List (Entry σ)) :
    (t.addAll es).2 = es.foldl (fun t e => (t.register e).2) t := by
  have hfold : ∀ any, (es.foldl (fun p e => (p.1 || (p.2.register e).1, (p.2.register e).2))
      (any, t)).2 = es.foldl (fun t e => (t.register e).2) t := by
    induction es generalizing t with
    | nil => exact fun _ => rfl
    | cons e es ih => exact fun any => ih (t.register e).2 (any || (t.register e).1)
  exact hfold false

theorem mem_named_of_addAll {t : Table σ} {es : List (Entry σ)} {e : Entry σ} {name : String}
    (h : e ∈ (t.addAll es).2.named name) : e ∈ t.named name ∨ e ∈ es := by
  rw [addAll_eq_foldl] at h
  induction es generalizing t with
  | nil => exact .inl h
  | cons e' es ih =>
      rcases ih h with hold | hnew
      · rcases mem_named_of_register hold with hold | rfl
        · exact .inl hold
        · exact .inr (by simp)
      · exact .inr (List.mem_cons_of_mem e' hnew)

theorem mem_addAll_of_mem {t : Table σ} {es : List (Entry σ)} {e : Entry σ} {name : String}
    (h : e ∈ t.named name) : e ∈ (t.addAll es).2.named name := by
  rw [addAll_eq_foldl]
  induction es generalizing t with
  | nil => exact h
  | cons e' es ih => exact ih (mem_register_of_mem h)

/-- If the names of some macros are new and differ, registering them adds each to its name. -/
theorem named_addAll_of_new {t : Table σ} {es : List (Entry σ)}
    (hnew : ∀ e ∈ es, t.named e.name = []) (hdiffer : es.Pairwise (·.name ≠ ·.name))
    (name : String) : (t.addAll es).2.named name = t.named name ++ es.filter (·.name == name) := by
  rw [addAll_eq_foldl]
  induction es generalizing t with
  | nil => simp
  | cons e es ih =>
      obtain ⟨hothers, hdiffer⟩ := List.pairwise_cons.1 hdiffer
      have hregister : ∀ other, (t.register e).2.named other =
          t.named other ++ if e.name = other then [e] else [] := by
        intro other
        rw [register, hnew e (by simp)]
        exact named_insertInto e t.buckets other
      rw [List.foldl_cons, ih ?_ hdiffer, hregister, List.filter_cons]
      · by_cases hname : e.name = name <;> simp [hname]
      · intro e' he'
        rw [hregister, hnew e' (by simp [he']), if_neg (hothers e' he'), List.nil_append]

/-- The built-in macro for blocks is global where it is registered. -/
def MarksBlocks (t : Table σ) : Prop :=
  ∀ e ∈ t.named Reserved.block, e.callable.id = .builtin "builtin.braces" → e.space = none

/-- With the built-in macros, a table has a global macro for blocks. -/
theorem exists_global_block {t : Table σ} (h : t.MarksBlocks) :
    ∃ e ∈ t.withBuiltins.named Reserved.block, e.space = none := by
  -- the marker is the first of the built-in macros, and what comes later removes nothing
  obtain ⟨marker, others, hbuiltins, hname, hid, hspace⟩ : ∃ marker others,
      builtins σ = marker :: others ∧ marker.name = Reserved.block ∧
      marker.callable.id = .builtin "builtin.braces" ∧ marker.space = none :=
    ⟨_, _, rfl, rfl, rfl, rfl⟩
  obtain ⟨e, hmem, hsame, hwhere⟩ := t.exists_named_register marker
  rw [hname] at hmem hwhere
  refine ⟨e, ?_, ?_⟩
  · rw [withBuiltins, hbuiltins, addAll_eq_foldl, List.foldl_cons, ← addAll_eq_foldl]
    exact mem_addAll_of_mem hmem
  · rcases hwhere with hold | rfl
    · exact h e hold (hsame.trans hid)
    · exact hspace

end Table

/-! ### Expansions -/

namespace Expander

variable {σ : Type} {t : Expander σ}

/-- If all macros only open and close namespaces, no step goes below the innermost frame. -/
theorem respects_sameBelow (h : ∀ name, ∀ e ∈ t.table.named name, e.Imports) :
    t.Respects fun s s' => s.scopes.SameBelow s'.scopes where
  refl s := .refl s.scopes
  trans h h' := h.trans h'
  tick s := .refl s.scopes
  opening s := .refl s.scopes
  tell s ms := .refl s.scopes
  invoke {name e} he s input := (h name e he s.shared input s.scopes).sameBelow
  block {s s'} hinside := by
    intro hs
    -- the frame of the block is on top of all that was there
    have := ScopeStack.pop_of_sameBelow_push hs hinside
    dsimp only
    rw [this]
    exact ⟨hs, rfl⟩

/-- A block finds a macro in all scopes, if there is a global one. -/
theorem candidates_block_ne_nil (h : ∃ e ∈ t.table.named Reserved.block, e.space = none)
    {node : Node} (hnode : node.calls Reserved.block = true) (scopes : ScopeStack) :
    t.candidates scopes node ≠ [] := by
  obtain ⟨e, hmem, hspace⟩ := h
  obtain ⟨⟨-, hsimple⟩, hname⟩ : (node.isCall = true ∧ node.hasSimpleHead = true) ∧
      node.headName? = some Reserved.block := by
    simpa [Node.calls] using hnode
  rw [candidates, if_pos hsimple, hname]
  refine List.ne_nil_of_mem (a := e) (List.mem_filter.2 ⟨hmem, ?_⟩)
  rw [Entry.visible, hspace]

/-- **A block leaves the scopes as they were**, whatever becomes of it and however that ends. -/
theorem block_restores (himports : ∀ name, ∀ e ∈ t.table.named name, e.Imports)
    (hglobal : ∃ e ∈ t.table.named Reserved.block, e.space = none) {node : Node}
    (hnode : node.calls Reserved.block = true) {fuel budget : Nat} {s s' : State σ}
    {r : Except Cancelled (Option Node)} {log : List (Event σ)} (hs : s.scopes.frames ≠ [])
    (hr : t.nodeRun fuel [] budget node false s = some ((r, s'), log)) :
    s'.scopes = s.scopes := by
  have hR := respects_sameBelow himports
  have hstart : (hR.contract (Chain.accounted_inherited budget)).Inherits budget [] := rfl
  cases fuel with
  | zero => simp [nodeRun, Run.exhausted] at hr
  | succ fuel =>
      obtain ⟨_, -, ⟨-, heq, -⟩ | ⟨-, -, heq, -⟩ | ⟨-, -, hempty, -⟩ | ⟨hpos, -, -, hr⟩⟩ :=
        Run.dispatch_cases hr
      · rw [(Prod.mk.inj heq).2]
      · rw [(Prod.mk.inj heq).2]
      · exact absurd hempty (candidates_block_ne_nil hglobal hnode s.scopes)
      -- there are macros for the block, so all the rest is done inside its frame
      · rcases Run.within_eq_some hr with ⟨hno, -⟩ | ⟨-, s₁, hinner, rfl⟩
        · rw [hnode] at hno
          exact absurd hno (by simp)
        have hfound := Run.found_keeps
          (nodeRun_follows hR (Chain.accounted_inherited budget) fuel) hstart hpos node
          s.scopes false
        obtain ⟨hrel, -⟩ := hfound.followed hinner
        exact ScopeStack.pop_of_sameBelow_push hs hrel

/-! ### The scopes after an expansion -/

@[simp] theorem create_table (table : Table σ) (preOpened : NameSet) (whole : Nat)
    (token : CancelToken) : (create table preOpened whole token).table = table.withBuiltins := by
  simp only [create]

/-- The built-in macros that are added only open and close namespaces. -/
theorem imports_of_mem_create {table : Table σ} (h : ∀ name, ∀ e ∈ table.named name, e.Imports)
    (preOpened : NameSet) (whole : Nat) (token : CancelToken) :
    ∀ name, ∀ e ∈ (create table preOpened whole token).table.named name, e.Imports := by
  intro name e he
  rw [create_table, Table.withBuiltins] at he
  rcases Table.mem_named_of_addAll he with hold | hnew
  · exact h name e hold
  · exact imports_of_mem_builtins hnew

/-- **The scopes after an expansion.**  If the macros of a table only open and close namespaces, the
expansion of a node, of a list and of the children of a node leave the stack as deep as it was and
the frames below the innermost one unchanged, with any budget and whether or not it is cancelled.
The expansion of a block leaves the whole stack as it was, and so the macros that later nodes can
mean. -/
theorem scopes_restored (table : Table σ) (preOpened : NameSet) (whole : Nat) (token : CancelToken)
    (himports : ∀ name, ∀ e ∈ table.named name, e.Imports)
    (budget : Nat) (s : State σ) (hs : s.scopes.frames ≠ []) :
    let t := Expander.create table preOpened whole token
    (∀ node, s.scopes.Restored (t.expandNode budget node s).2.scopes) ∧
    (∀ nodes, s.scopes.Restored (t.expandList budget nodes s).2.scopes) ∧
    (∀ node, s.scopes.Restored (t.expandChildren budget node s).2.scopes) ∧
    (table.MarksBlocks → ∀ node, node.calls Reserved.block = true →
      (t.expandNode budget node s).2.scopes = s.scopes ∧
      ∀ later, t.candidates (t.expandNode budget node s).2.scopes later =
        t.candidates s.scopes later) := by
  intro t
  have hall : ∀ name, ∀ e ∈ t.table.named name, e.Imports :=
    imports_of_mem_create himports preOpened whole token
  have hR := respects_sameBelow hall
  have hstart : (hR.contract (Chain.accounted_inherited budget)).Inherits budget [] := rfl
  have hnodes : ∀ fuel n, (t.nodeRun fuel [] budget n false).Keeps
      (hR.contract (Chain.accounted_inherited budget)).toCourse (Knowledge.nothing n false) :=
    fun fuel n =>
      nodeRun_follows hR (Chain.accounted_inherited budget) fuel [] budget n false hstart
  refine ⟨fun node => ?_, fun nodes => ?_, fun node => ?_, fun hmarks node hnode => ?_⟩
  · obtain ⟨log, enough, hrun⟩ := t.exists_nodeRun budget node s
    have hfollowed := (hnodes enough node).followed (hrun enough (Nat.le_refl enough))
    exact hfollowed.1.restored hs
  · obtain ⟨log, enough, hrun⟩ := t.exists_listRun budget nodes s
    have hfollowed := (Run.list_keeps (hnodes enough) nodes).followed
      (hrun enough (Nat.le_refl enough))
    exact hfollowed.1.restored hs
  · obtain ⟨log, enough, hrun⟩ := t.exists_childrenRun budget node s
    have hchildren := Run.children_keeps (hnodes enough)
      fun hpos => Contract.opened _ hstart hpos node
    have hfollowed := hchildren.followed (hrun enough (Nat.le_refl enough))
    exact hfollowed.1.restored hs
  · obtain ⟨log, enough, hrun⟩ := t.exists_nodeRun budget node s
    have hglobal : ∃ e ∈ t.table.named Reserved.block, e.space = none := by
      rw [create_table]
      exact Table.exists_global_block hmarks
    have hsame := block_restores hall hglobal hnode hs (hrun enough (Nat.le_refl enough))
    exact ⟨hsame, fun later => by rw [hsame]⟩

/-- A macro that replaces each node by another one. -/
def givingIn (space : Option String) (index : Nat) (name : String) (mode : Mode) (output : Node) :
    Entry Unit where
  space := space
  name := name
  mode := mode
  givenLabel := none
  origin := none
  callable := ⟨.custom index, fun state _ scopes => .quiet state scopes (.accepted output)⟩

/-- A macro for blocks that opens a namespace and, twice, replaces the block by a longer one. -/
def growingBlock : Entry Unit where
  space := none
  name := Reserved.block
  mode := {}
  givenLabel := none
  origin := none
  callable := ⟨.custom 0, fun state node scopes =>
    .quiet state (scopes.openName "N") <|
      if node.args.length < 3 then .accepted (node.withArgs (.ident "x" :: node.args))
      else .declined⟩

theorem scopes_restored_growingBlock :
    let table : Table Unit := ⟨[⟨Reserved.block, [growingBlock]⟩]⟩
    let t := Expander.create table [] 100 {}
    let s := t.initial () (.empty .debug)
    let node := Node.block [.invokeName Reserved.openScope [.ident "M"]]
    (∀ name, ∀ e ∈ table.named name, e.Imports) ∧ table.MarksBlocks ∧ s.scopes.frames ≠ [] ∧
      node.calls Reserved.block = true ∧ (t.expandNode 5 node s).2.scopes = s.scopes := by
  intro table t s node
  have hnamed : ∀ name, ∀ e ∈ table.named name, e = growingBlock := by
    intro name e he
    by_cases hname : Reserved.block = name
    · simpa [table, Table.named, hname] using he
    · simp [table, Table.named, hname] at he
  have himports : ∀ name, ∀ e ∈ table.named name, e.Imports := by
    intro name e he shared node scopes
    rw [hnamed name e he]
    exact .opened .same "N"
  have hmarks : table.MarksBlocks := by
    intro e he _
    rw [hnamed _ e he]
    rfl
  have hframes : s.scopes.frames ≠ [] := by
    simp [s, t, create, initial, rootScopes, ScopeStack.ofOpen]
  have hnode : node.calls Reserved.block = true := by decide
  obtain ⟨-, -, -, hblock⟩ := scopes_restored table [] 100 {} himports 5 s hframes
  exact ⟨himports, hmarks, hframes, hnode, (hblock hmarks node hnode).1⟩

/-- The built-in macro for blocks, in a namespace. -/
def markerIn (σ : Type) (space : String) : Entry σ :=
  { Builtin.entry Reserved.block "builtin.braces" { passive := true } Builtin.onBlock with
    space := some space }

/-- **A block without a visible marker leaks.**  A frame is opened for a block that has a macro.
With the built-in macro for blocks in a closed namespace a block has none, and neither has, in any
table, a call whose name has attributes.  What is opened in them is still open behind them, and a
macro can be meant there that could not before. -/
theorem hidden_marker_leaks :
    let foo := givingIn (some "M") 0 "Foo" {} (.ident "bar")
    let table : Table Unit := (Table.empty.addAll [markerIn Unit "hidden", foo]).2
    let t := create table [] 100 {}
    let s := t.initial () (.empty .debug)
    let node := Node.block [.invokeName Reserved.openScope [.ident "M"]]
    let bare := create (Table.empty : Table Unit) [] 100 {}
    let marked := Node.invoke ((Node.ident Reserved.block).withAttrs [.ident "a"]) node.args
    (∀ name, ∀ e ∈ table.named name, e.Imports) ∧ s.scopes.frames ≠ [] ∧
      node.calls Reserved.block = true ∧
      s.scopes.isOpen "M" = false ∧ (t.expandNode 100 node s).2.scopes.isOpen "M" = true ∧
      t.candidates s.scopes (.ident "Foo") = [] ∧
      t.candidates (t.expandNode 100 node s).2.scopes (.ident "Foo") = [foo] ∧
      marked.isCall = true ∧ marked.headName? = some Reserved.block ∧
      (bare.expandNode 100 marked s).2.scopes.isOpen "M" = true := by
  intro foo table t s node bare marked
  have hframes : (t.expandNode 100 node s).2.scopes.frames = [some ["M"]] :=
    (t.nodeRun_answers 3 [] 100 node).view (·.2.scopes.frames) (by decide +kernel)
  have hframes' : (bare.expandNode 100 marked s).2.scopes.frames = [some ["M"]] :=
    (bare.nodeRun_answers 3 [] 100 marked).view (·.2.scopes.frames) (by decide +kernel)
  have hafter : (t.expandNode 100 node s).2.scopes = ⟨[some ["M"]]⟩ :=
    congrArg ScopeStack.mk hframes
  have hafter' : (bare.expandNode 100 marked s).2.scopes = ⟨[some ["M"]]⟩ :=
    congrArg ScopeStack.mk hframes'
  rw [hafter, hafter']
  refine ⟨fun name e he shared node scopes => ?_, ?_, by decide, rfl, rfl, rfl, rfl, rfl, rfl, rfl⟩
  · rcases Table.mem_named_of_addAll he with hnone | hadded
    · cases hnone
    · simp only [List.mem_cons, List.not_mem_nil, or_false] at hadded
      rcases hadded with rfl | rfl <;> exact .same
  · simp [s, t, create, initial, rootScopes, ScopeStack.ofOpen]

end Expander

end MacroForest
