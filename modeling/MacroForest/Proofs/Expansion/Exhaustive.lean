/-
**Expansion is exhaustive, and expanding again changes nothing.**

Take global macros that accept whatever they are offered, with another node that is dispatched in
turn.  If every dispatch has budget and no output has a part that is to be kept verbatim, nothing
ends the expansion of a place but a head that no such macro has.  So no head of the result names one
of them, nor a built-in macro that accepts; and no list of it has a splice among its members.  Trees
like that are *settled* (`MacroForest.Node.Settled`), and a settled tree stays as it is: the macros
that are still asked about it are built-in ones, and these decline.

A head can come about when its place is already done, since a target that is replaced by a plain
name becomes the head of its call.  That such a head is harmless is due to the target, which was
dispatched as a place of its own.

Main definitions:

* `MacroForest.Entry.AlwaysRewrites` — the macros that the result is about;
* `MacroForest.Event.Unhindered` — a dispatch has budget, and an output no verbatim part;
* `MacroForest.Knowledge.settling`, `MacroForest.Knowledge.staying` — what is known of runs that
  settle a node, and of a settled node;
* `MacroForest.Table.Decided` — for each head, all macros accept or all decline.

Main results:

* `MacroForest.Knowledge.Opened.settled` — what becomes of a node whose parts are settled;
* `MacroForest.Knowledge.closed_settling` — **an unhindered run settles its node**;
* `MacroForest.Knowledge.closed_staying` — **a settled node stays**;
* `MacroForest.Expander.expansion_exhaustive` — both together, for a forest.
-/

import MacroForest.Proofs.Expansion.Plain
import MacroForest.Proofs.Expansion.Scopes
import MacroForest.Proofs.Expansion.Stop
import MacroForest.Proofs.Node.Heads

set_option relaxedAutoImplicit false
set_option autoImplicit false

namespace MacroForest

open Node (Settled SettledList)

variable {σ : Type}

/-! ### Runs that settle their nodes -/

/-- Nothing keeps the expansion from going on: a dispatch has budget, and an output has no part that
is handed on without being expanded. -/
def Event.Unhindered (event : Event σ) : Prop :=
  match event.action with
  | .entered _ => event.budget ≠ 0
  | .rewrote output _ => ¬ output.HasHead Reserved.verbatim
  | _ => True

instance (event : Event σ) : Decidable event.Unhindered :=
  match h : event.action with
  | .entered _ => decidable_of_iff (event.budget ≠ 0) (by simp [Event.Unhindered, h])
  | .rewrote output _ =>
    decidable_of_iff (¬ output.HasHead Reserved.verbatim) (by simp [Event.Unhindered, h])
  | .opened _ => .isTrue (by simp [Event.Unhindered, h])
  | .invoked .. => .isTrue (by simp [Event.Unhindered, h])

namespace Knowledge

/-- A node without a verbatim part is settled, if all events have the property.  For a node that is
an output already the answer is never `none`, so it does not matter what `none` would be read as. -/
def settling (bad : String → Prop) (P : Event σ → Prop) : Knowledge σ :=
  fun node changed r log => ¬ node.HasHead Reserved.verbatim → (∀ e ∈ log, P e) →
    ∀ other, (changed = false → other = node) → (r.getD other).Settled bad

section Settling

variable {bad : String → Prop} {P : Event σ → Prop} {chain : Chain} {budget : Nat} {node : Node}
  {log : List (Event σ)}

theorem Members.settled {ns : List Node} {r : Option (List Node)}
    (h : (settling bad P).Members ns r log) (hns : ∀ n ∈ ns, ¬ n.HasHead Reserved.verbatim)
    (hlog : ∀ e ∈ log, P e) : SettledList bad (r.getD ns) := by
  induction h with
  | nil => simp [SettledList]
  | @cons n ns expanded rest log more hn _ ih =>
      rw [List.forall_mem_cons] at hns
      rw [List.forall_mem_append] at hlog
      have hfirst := hn hns.1 hlog.1 n fun _ => rfl
      have hrest := ih hns.2 hlog.2
      have hspliced : SettledList bad ((expanded.getD n).spliced ++ rest.getD ns) := by
        intro m hm
        rcases List.mem_append.1 hm with hm | hm
        · exact hfirst.spliced m hm
        · exact hrest m hm
      split
      · rename_i hsame
        obtain ⟨hnone, hsplice⟩ : expanded = none ∧ n.calls Reserved.splice = false := by
          simpa using hsame
        -- a node that stays and is no splice is a member itself
        subst hnone
        rw [Option.getD_none, Node.spliced, hsplice] at hspliced
        cases rest <;> exact hspliced
      · exact hspliced

theorem Aimed.settled {attrs args : List Node} {style : Style} {callee : Node} {r : Option Node}
    (h : (settling bad P).Aimed (.call attrs style callee args) r log)
    (hcallee : ¬ callee.HasHead Reserved.verbatim)
    (hhead : ∀ name, (Node.call attrs style callee args).simpleHead? = some name → ¬ bad name)
    (hlog : ∀ e ∈ log, P e) : ((r.map Node.asTarget).getD callee).Settled bad := by
  cases h with
  | kept hsimple =>
      -- the head is simple, so the target is a name that was looked at with the call
      obtain ⟨style', name, rfl⟩ := Node.target_of_hasSimpleHead (hsimple callee rfl)
      refine Settled.atom (by simp [SettledList]) style' ?_
      rintro _ ⟨⟩
      exact hhead name rfl
  | expanded htarget _ hknown =>
      obtain rfl := Option.some.inj htarget
      have hsettled := hknown hcallee hlog callee fun _ => rfl
      cases r with
      | none => exact hsettled
      | some new => exact hsettled.asTarget

/-- A node whose parts are settled is settled, if its head is none of the bad names. -/
theorem Rebuilt.settled {cell : Cell} {r : Option Node}
    (h : (settling bad P).Rebuilt node cell r log) (hnode : ¬ node.HasHead Reserved.verbatim)
    (hhead : ∀ name, node.simpleHead? = some name → ¬ bad name) (hlog : ∀ e ∈ log, P e) :
    (r.getD node).Settled bad := by
  have hparts : ∀ part ∈ node.parts, ¬ part.HasHead Reserved.verbatim :=
    fun part hpart hverbatim => hnode (hverbatim.of_part hpart)
  obtain ⟨hattrs, htarget, hargs⟩ := h
  rename_i attrs args target log₁ log₂ log₃
  rw [List.forall_mem_append, List.forall_mem_append] at hlog
  obtain ⟨hlog₁, hlog₂, hlog₃⟩ := hlog
  have hnewAttrs := hattrs.settled
    (fun n hn => hparts n (List.mem_append_left _ hn)) hlog₁
  cases node with
  | atom attributes style value =>
      have hvalue : ∀ name, value = .ident name → ¬ bad name := by
        rintro name rfl
        exact hhead name rfl
      obtain rfl : target = none := by
        cases htarget with
        | kept => rfl
        | expanded heq => cases heq
      obtain rfl : args = none := by
        cases hargs
        rfl
      cases attrs with
      | none => exact .atom hnewAttrs style hvalue
      | some new => cases value <;> exact .atom hnewAttrs style (by simp_all)
  | call attributes style callee arguments =>
      have hnewArgs := hargs.settled
        (fun n hn => hparts n (List.mem_append_right _ (List.mem_append_right _ hn))) hlog₃
      have hnewCallee := htarget.settled (hparts callee (by simp [Node.parts, Node.target?])) hhead
        hlog₂
      rw [Node.replaceParts_call]
      exact .call hnewAttrs style hnewCallee hnewArgs

theorem Opened.settled {r : Option Node} (h : (settling bad P).Opened chain budget node r log)
    (hpos : budget ≠ 0) (hnode : ¬ node.HasHead Reserved.verbatim)
    (hhead : ∀ name, node.simpleHead? = some name → ¬ bad name) (hlog : ∀ e ∈ log, P e) :
    (r.getD node).Settled bad := by
  cases h with
  | unpaid hzero => exact absurd hzero hpos
  | paid _ _ hrebuilt => exact hrebuilt.settled hnode hhead (List.forall_mem_cons.1 hlog).2

/-- A node that no macro claims is settled with its children. -/
theorem Asked.settled {us : List (Turn σ)} {expanded : Option Node} {changed : Bool} {other : Node}
    (h : (settling bad P).Asked chain budget node us (expanded.elim .unchanged .changed) log)
    (hpos : budget ≠ 0) (hnode : ¬ node.HasHead Reserved.verbatim)
    (hhead : ∀ name, node.simpleHead? = some name → ¬ bad name) (hlog : ∀ e ∈ log, P e)
    (hother : changed = false → other = node) :
    ((expanded <|> if changed then some node else none).getD other).Settled bad := by
  obtain ⟨more, hopened, hmore⟩ := h.opened rfl
  rw [Run.getD_orElse_kept hother]
  exact hopened.settled hpos hnode hhead fun e he => hlog e (hmore e he)

end Settling

end Knowledge

/-! ### Tables in which every head is decided -/

namespace Entry

/-- On every node of the given head, the macro gives another node, which is dispatched. -/
def Rewrites (e : Entry σ) (name : String) : Prop :=
  e.mode.reprocess = .normal ∧
    ∀ shared node scopes, node.simpleHead? = some name → ∃ output,
      (e.callable.run shared node scopes).outcome = .accepted output ∧ (output == node) = false

/-- The macro declines every node. -/
def Declines (e : Entry σ) : Prop :=
  ∀ shared node scopes, (e.callable.run shared node scopes).outcome = .declined

end Entry

section Turns

variable {u : Turn σ} {name : String}

/-- In its turn on a node of its head, such a macro gives another node. -/
theorem Entry.Rewrites.output (h : u.entry.Rewrites name) (hhead : u.input.simpleHead? = some name) :
    ∃ output, u.output? = some output ∧ (output == u.input) = false := by
  obtain ⟨output, haccepted, hdiffers⟩ := h.2 u.shared u.input u.scopes hhead
  refine ⟨output, ?_, hdiffers⟩
  unfold Turn.output? Turn.reply
  rw [haccepted]
  rfl

theorem Entry.Declines.output?_eq_none (h : u.entry.Declines) : u.output? = none := by
  unfold Turn.output? Turn.reply
  rw [h]
  rfl

end Turns

/-- The tiers of some macros hold all of them. -/
theorem mem_flatten_tiersOf {entries : List (Entry σ)} {e : Entry σ} :
    e ∈ (tiersOf entries).flatten ↔ e ∈ entries := by
  constructor
  · intro he
    obtain ⟨es, hes, he⟩ := List.mem_flatten.1 he
    exact Run.mem_of_mem_tiersOf hes he
  · intro he
    have htier : e ∈ entries.filter (·.mode.priority == e.mode.priority) := by simp [he]
    refine List.mem_flatten.2 ⟨_, List.mem_filter.2 ⟨List.mem_map.2 ⟨e.mode.priority, ?_, rfl⟩, ?_⟩,
      htier⟩
    · cases e.mode.priority <;> decide
    · simpa using List.ne_nil_of_mem htier

/-- All macros are global and take a node as it is.  Those of a bad name give another node, and the
others decline; nothing is known of the macro that keeps nodes verbatim, which has a bad name. -/
structure Table.Decided (t : Table σ) (bad : String → Prop) : Prop where
  global : ∀ name, ∀ e ∈ t.named name, e.space = none
  direct : ∀ name, ∀ e ∈ t.named name, e.mode.childrenBefore = false
  present : ∀ name, bad name → t.named name ≠ []
  rewrites : ∀ name, bad name → name ≠ Reserved.verbatim → ∀ e ∈ t.named name, e.Rewrites name
  declines : ∀ name, ¬ bad name → ∀ e ∈ t.named name, e.Declines

namespace Expander

variable {t : Expander σ}

/-- Among global macros, those for a node are the ones of its simple head, whatever is open. -/
theorem candidates_of_global (h : ∀ name, ∀ e ∈ t.table.named name, e.space = none)
    (scopes : ScopeStack) (n : Node) :
    t.candidates scopes n = n.simpleHead?.elim [] t.table.named := by
  unfold candidates Node.simpleHead?
  split
  · cases n.headName? with
    | none => rfl
    | some name =>
        refine List.filter_eq_self.2 fun e he => ?_
        rw [Entry.visible, h name e he]
  · cases n.target?.bind (·.qualified?) with
    | none => rfl
    | some qualified =>
        refine List.filter_eq_nil_iff.2 fun e he => ?_
        simp [h qualified.2 e he]

theorem simpleHead?_of_candidates (h : ∀ name, ∀ e ∈ t.table.named name, e.space = none)
    {scopes : ScopeStack} {node : Node} {e : Entry σ} (he : e ∈ t.candidates scopes node) :
    ∃ name, node.simpleHead? = some name ∧ e ∈ t.table.named name := by
  rw [candidates_of_global h] at he
  cases hhead : node.simpleHead? with
  | none => simp [hhead] at he
  | some name => exact ⟨name, rfl, by simpa [hhead] using he⟩

end Expander

namespace Knowledge

variable {t : Expander σ} {bad : String → Prop} {K : Knowledge σ} {chain : Chain} {budget : Nat}
  {node : Node} {us : List (Turn σ)} {p : Prepared} {log : List (Event σ)}

/-- If all macros for a node have passed, its head is none of the bad names: macros of those accept.
-/
theorem Asked.not_bad (hdecided : t.table.Decided bad) (h : K.Asked chain budget node us p log)
    {scopes : ScopeStack} (hentries : us.map (·.entry) =
      (tiersOf (t.candidates scopes node)).flatten.filter (·.payable budget))
    (hpassed : ∀ u ∈ us, u.output? = none) {name : String} (hhead : node.simpleHead? = some name)
    (hverbatim : name ≠ Reserved.verbatim) : ¬ bad name := by
  intro hbad
  obtain ⟨e, he⟩ := List.exists_mem_of_ne_nil _ (hdecided.present name hbad)
  have hcandidate : e ∈ t.candidates scopes node := by
    rw [Expander.candidates_of_global hdecided.global, hhead]
    exact he
  have hdirect := hdecided.direct name e he
  have hturn : e ∈ us.map (·.entry) := by
    rw [hentries, List.mem_filter]
    exact ⟨mem_flatten_tiersOf.2 hcandidate, by simp [Entry.payable, hdirect]⟩
  obtain ⟨u, hu, rfl⟩ := List.mem_map.1 hturn
  have hinput := h.input_eq hu hdirect
  obtain ⟨output, haccepted, -⟩ := (hdecided.rewrites name hbad hverbatim _ he).output
    (by rw [hinput]; exact hhead)
  rw [hpassed u hu] at haccepted
  cases haccepted

/-- If a macro has accepted a node, the head is one of the bad names, and the output is another
node, which is dispatched. -/
theorem Asked.rewritten (hdecided : t.table.Decided bad) (h : K.Asked chain budget node us p log)
    {scopes : ScopeStack} {u : Turn σ} {output : Node} (hu : u ∈ us)
    (hentry : u.entry ∈ t.candidates scopes node) (haccepted : u.output? = some output) :
    ∃ name, node.simpleHead? = some name ∧ bad name ∧ (name ≠ Reserved.verbatim →
      u.entry.mode.reprocess = .normal ∧ (output == node) = false) := by
  obtain ⟨name, hhead, hmem⟩ := Expander.simpleHead?_of_candidates hdecided.global hentry
  have hinput := h.input_eq hu (hdecided.direct name _ hmem)
  by_cases hbad : bad name
  · refine ⟨name, hhead, hbad, fun hverbatim => ?_⟩
    have hrewrites := hdecided.rewrites name hbad hverbatim _ hmem
    obtain ⟨output', haccepted', hdiffers⟩ := hrewrites.output (by rw [hinput]; exact hhead)
    obtain rfl := Option.some.inj (haccepted'.symm.trans haccepted)
    rw [hinput] at hdiffers
    exact ⟨hrewrites.1, hdiffers⟩
  · rw [(hdecided.declines name hbad _ hmem).output?_eq_none] at haccepted
    cases haccepted

/-- **An unhindered run settles its node.** -/
theorem closed_settling (hdecided : t.table.Decided bad) :
    (settling bad Event.Unhindered).Closed t := by
  intro chain budget node changed r log h hnode hlog other hother
  have hverbatim : ∀ name, node.simpleHead? = some name → name ≠ Reserved.verbatim := by
    rintro _ hhead rfl
    exact hnode ⟨node, .root, hhead⟩
  cases h with
  | unpaid hzero => exact absurd hzero (hlog _ List.mem_cons_self)
  | unclaimed scopes hpos hasked hentries hpassed =>
      refine hasked.settled hpos hnode (fun name hhead => ?_) (List.forall_mem_cons.1 hlog).2 hother
      exact hasked.not_bad hdecided hentries hpassed hhead (hverbatim name hhead)
  | claimed scopes hpos hasked hu hentry haccepted hgoesOn =>
      obtain ⟨name, hhead, -, hrewritten⟩ := hasked.rewritten hdecided hu hentry haccepted
      obtain ⟨hnormal, hdiffers⟩ := hrewritten (hverbatim name hhead)
      rw [List.forall_mem_cons, List.forall_mem_append, List.forall_mem_cons] at hlog
      obtain ⟨-, -, hclean, hmore⟩ := hlog
      cases hgoesOn with
      | again _ _ hknown => exact hknown hclean hmore other (by simp)
      | never hnever => rw [hnormal] at hnever; cases hnever
      | children _ hrepeats _ => rw [hrepeats hnormal] at hdiffers; cases hdiffers

/-! ### Settled nodes -/

/-- The event is no invocation, or one of a macro whose name is not bad. -/
def Harmless (t : Expander σ) (bad : String → Prop) (event : Event σ) : Prop :=
  ∀ e input s, event.action = .invoked e input s → ∃ name, ¬ bad name ∧ e ∈ t.table.named name

theorem harmless_of_eq {event : Event σ}
    (h : event.action = .entered node ∨ event.action = .opened node) : Harmless t bad event := by
  intro e input s hinvoked
  rcases h with h | h <;> rw [h] at hinvoked <;> cases hinvoked

/-- A settled node is left as it is, and no macro of a bad name is asked about it. -/
def staying (t : Expander σ) (bad : String → Prop) : Knowledge σ :=
  fun node changed r log => node.Settled bad → changed = false →
    r = none ∧ ∀ e ∈ log, Harmless t bad e

theorem Members.stay {ns : List Node} {r : Option (List Node)}
    (h : (staying t bad).Members ns r log) (hns : SettledList bad ns) :
    r = none ∧ ∀ e ∈ log, Harmless t bad e := by
  induction h with
  | nil => exact ⟨rfl, List.forall_mem_nil _⟩
  | cons hfirst _ ih =>
      obtain ⟨⟨hn, hsplice⟩, hothers⟩ := List.forall_mem_cons.1 hns
      obtain ⟨rfl, hlog⟩ := hfirst hn rfl
      obtain ⟨rfl, hmore⟩ := ih hothers
      exact ⟨by simp [hsplice], List.forall_mem_append.2 ⟨hlog, hmore⟩⟩

theorem Opened.stays {r : Option Node} (h : (staying t bad).Opened chain budget node r log)
    (hnode : node.Settled bad) : r = none ∧ ∀ e ∈ log, Harmless t bad e := by
  cases h with
  | unpaid => exact ⟨rfl, List.forall_mem_nil _⟩
  | paid _ _ hrebuilt =>
      obtain ⟨hattrs, htarget, hargs⟩ := hrebuilt
      rename_i target _ log₂ _
      obtain ⟨rfl, hlog₁⟩ := hattrs.stay hnode.attrs
      obtain ⟨rfl, hlog₂⟩ : target = none ∧ ∀ e ∈ log₂, Harmless t bad e := by
        cases htarget with
        | kept => exact ⟨rfl, List.forall_mem_nil _⟩
        | expanded htarget _ hknown => exact hknown (hnode.target htarget) rfl
      obtain ⟨rfl, hlog₃⟩ := hargs.stay hnode.args
      refine ⟨rfl, List.forall_mem_cons.2 ⟨harmless_of_eq (.inr rfl), ?_⟩⟩
      exact List.forall_mem_append.2 ⟨hlog₁, List.forall_mem_append.2 ⟨hlog₂, hlog₃⟩⟩

/-- **A settled node stays**, with any budget and whatever is open. -/
theorem closed_staying (hdecided : t.table.Decided bad) : (staying t bad).Closed t := by
  rintro chain budget node changed r log h hnode rfl
  cases h with
  | unpaid => exact ⟨rfl, List.forall_mem_singleton.2 (harmless_of_eq (.inl rfl))⟩
  | @unclaimed us expanded log scopes _ hasked hentries _ =>
      obtain ⟨more, hopened, -⟩ := hasked.opened rfl
      obtain ⟨rfl, -⟩ := hopened.stays hnode
      refine ⟨rfl, List.forall_mem_cons.2 ⟨harmless_of_eq (.inl rfl),
        hasked.forall_mem (fun u hu s => ?_) ?_⟩⟩
      · rintro _ _ _ ⟨⟩
        have hturn := List.mem_map_of_mem (f := (·.entry)) hu
        rw [hentries, List.mem_filter, mem_flatten_tiersOf] at hturn
        obtain ⟨name, hhead, hmem⟩ :=
          Expander.simpleHead?_of_candidates hdecided.global hturn.1
        exact ⟨name, hnode.simpleHead hhead, hmem⟩
      · exact fun expanded more hopened => (hopened.stays hnode).2
  | claimed scopes _ hasked hu hentry haccepted _ =>
      obtain ⟨name, hhead, hbad, -⟩ := hasked.rewritten hdecided hu hentry haccepted
      exact absurd hbad (hnode.simpleHead hhead)

end Knowledge

/-! ### Macros that always rewrite, beside the built-in ones -/

/-- All names with a meaning of their own. -/
def Reserved.names : List String :=
  [splice, block, dot, openScope, openMacros, closeMacros, verbatim, timedOut]

/-- A global macro that gives another node for whatever node of its name it is offered, and has it
dispatched. -/
structure Entry.AlwaysRewrites (name : String) (e : Entry σ) : Prop where
  global : e.space = none
  direct : e.mode.childrenBefore = false
  rewrites : e.Rewrites name

namespace Builtin

variable {e : Entry σ}

theorem name_mem_reserved (h : e ∈ builtins σ) : e.name ∈ Reserved.names := by
  simp only [builtins, List.mem_cons, List.not_mem_nil, or_false] at h
  rcases h with rfl | rfl | rfl | rfl | rfl <;> simp [entry, Reserved.names]

theorem space_eq_none (h : e ∈ builtins σ) : e.space = none := by
  simp only [builtins, List.mem_cons, List.not_mem_nil, or_false] at h
  rcases h with rfl | rfl | rfl | rfl | rfl <;> rfl

theorem childrenBefore_eq_false (h : e ∈ builtins σ) : e.mode.childrenBefore = false := by
  simp only [builtins, List.mem_cons, List.not_mem_nil, or_false] at h
  rcases h with rfl | rfl | rfl | rfl | rfl <;> rfl

theorem not_cancelled (h : e ∈ builtins σ) (shared : σ) (node : Node) (scopes : ScopeStack) :
    (e.callable.run shared node scopes).outcome ≠ .cancelled := by
  simp only [builtins, List.mem_cons, List.not_mem_nil, or_false] at h
  rcases h with rfl | rfl | rfl | rfl | rfl
  · simp [entry, onBlock, Reply.quiet]
  · simp [entry, onOpenScope, Reply.quiet]
  · simp [entry, onOpenMacros, Reply.quiet]
  · simp [entry, onCloseMacros]
  · cases node <;> simp [entry, onVerbatim, Reply.quiet, Node.isCall]

theorem rewrites_openMacros (h : e ∈ builtins σ) (hname : e.name = Reserved.openMacros) :
    e.Rewrites Reserved.openMacros := by
  simp only [builtins, List.mem_cons, List.not_mem_nil, or_false] at h
  rcases h with rfl | rfl | rfl | rfl | rfl
  · exact absurd hname (by simp [entry, Reserved.block, Reserved.openMacros])
  · exact absurd hname (by simp [entry, Reserved.openScope, Reserved.openMacros])
  · refine ⟨rfl, fun shared node scopes hhead => ⟨.splice [], rfl, ?_⟩⟩
    exact Node.beq_of_heads rfl hhead (by simp [Reserved.openMacros, Reserved.splice])
  · exact absurd hname (by simp [entry, Reserved.closeMacros, Reserved.openMacros])
  · exact absurd hname (by simp [entry, Reserved.verbatim, Reserved.openMacros])

theorem declines (h : e ∈ builtins σ) (hopen : e.name ≠ Reserved.openMacros)
    (hverbatim : e.name ≠ Reserved.verbatim) : e.Declines := by
  simp only [builtins, List.mem_cons, List.not_mem_nil, or_false] at h
  rcases h with rfl | rfl | rfl | rfl | rfl
  · exact fun _ _ _ => rfl
  · exact fun _ _ _ => rfl
  · exact absurd rfl hopen
  · exact fun _ _ _ => rfl
  · exact absurd rfl hverbatim

end Builtin

namespace Table

variable {table : Table σ}

/-- The names that are no head of a settled tree: those of the macros, and those of the built-in
macros that accept. -/
def Vanishing (table : Table σ) (name : String) : Prop :=
  table.named name ≠ [] ∨ name = Reserved.openMacros ∨ name = Reserved.verbatim

theorem named_of_builtin (hreserved : ∀ name ∈ Reserved.names, table.named name = [])
    {e : Entry σ} (he : e ∈ builtins σ) : table.named e.name = [] :=
  hreserved e.name (Builtin.name_mem_reserved he)

theorem mem_named_withBuiltins (hreserved : ∀ name ∈ Reserved.names, table.named name = [])
    {name : String} {e : Entry σ} :
    e ∈ table.withBuiltins.named name ↔ e ∈ table.named name ∨ e ∈ builtins σ ∧ e.name = name := by
  have hdiffer : (builtins σ).Pairwise (·.name ≠ ·.name) := by
    simp [builtins, Builtin.entry, Reserved.block, Reserved.openScope, Reserved.openMacros,
      Reserved.closeMacros, Reserved.verbatim]
  have hnew : ∀ e ∈ builtins σ, table.named e.name = [] := fun e he => named_of_builtin hreserved he
  rw [withBuiltins, named_addAll_of_new hnew hdiffer, List.mem_append, List.mem_filter,
    beq_iff_eq]

/-- With the built-in macros added, macros that always rewrite leave no head undecided. -/
theorem decided_withBuiltins (hmacros : ∀ name, ∀ e ∈ table.named name, e.AlwaysRewrites name)
    (hreserved : ∀ name ∈ Reserved.names, table.named name = []) :
    table.withBuiltins.Decided table.Vanishing where
  global name e he := by
    rcases (mem_named_withBuiltins hreserved).1 he with hown | ⟨hadded, -⟩
    · exact (hmacros name e hown).global
    · exact Builtin.space_eq_none hadded
  direct name e he := by
    rcases (mem_named_withBuiltins hreserved).1 he with hown | ⟨hadded, -⟩
    · exact (hmacros name e hown).direct
    · exact Builtin.childrenBefore_eq_false hadded
  present name hname := by
    obtain ⟨e, he⟩ : ∃ e, e ∈ table.named name ∨ e ∈ builtins σ ∧ e.name = name := by
      rcases hname with hname | rfl | rfl
      · obtain ⟨e, he⟩ := List.exists_mem_of_ne_nil _ hname
        exact ⟨e, .inl he⟩
      · exact ⟨Builtin.entry Reserved.openMacros "builtin.importMacros" {} Builtin.onOpenMacros,
          .inr ⟨by simp [builtins], rfl⟩⟩
      · exact ⟨Builtin.entry Reserved.verbatim "builtin.noLexicalMacros" { reprocess := .never }
          Builtin.onVerbatim, .inr ⟨by simp [builtins], rfl⟩⟩
    exact List.ne_nil_of_mem ((mem_named_withBuiltins hreserved).2 he)
  rewrites name hname hverbatim e he := by
    rcases (mem_named_withBuiltins hreserved).1 he with hown | ⟨hadded, rfl⟩
    · exact (hmacros name e hown).rewrites
    · -- a built-in macro has a reserved name, and only one of these vanishes without being verbatim
      have hempty := named_of_builtin hreserved hadded
      have hopen : e.name = Reserved.openMacros := by
        rcases hname with hname | hname | hname
        · exact absurd hempty hname
        · exact hname
        · exact absurd hname hverbatim
      rw [hopen]
      exact Builtin.rewrites_openMacros hadded hopen
  declines name hname e he := by
    rcases (mem_named_withBuiltins hreserved).1 he with hown | ⟨hadded, rfl⟩
    · exact absurd (.inl (List.ne_nil_of_mem hown)) hname
    · exact Builtin.declines hadded (fun h => hname (.inr (.inl h))) fun h => hname (.inr (.inr h))

end Table

/-! ### Forests -/

namespace Expander

variable {table : Table σ}

/-- No macro asks to stop about a node that it is offered. -/
theorem not_cancelled_create (hmacros : ∀ name, ∀ e ∈ table.named name, e.AlwaysRewrites name)
    (hreserved : ∀ name ∈ Reserved.names, table.named name = [])
    (preOpened : NameSet) (budget : Nat) (token : CancelToken) :
    ∀ e input, (create table preOpened budget token).Offers e input → ∀ shared scopes,
      (e.callable.run shared input scopes).outcome ≠ .cancelled := by
  rintro e input ⟨scopes', node, he, hinput⟩ shared scopes
  have hdecided : (create table preOpened budget token).table.Decided table.Vanishing := by
    rw [create_table]
    exact Table.decided_withBuiltins hmacros hreserved
  obtain ⟨name, hhead, hmem⟩ := simpleHead?_of_candidates hdecided.global he
  obtain rfl := hinput (hdecided.direct name e hmem)
  rw [create_table] at hmem
  rcases (Table.mem_named_withBuiltins hreserved).1 hmem with hown | ⟨hadded, -⟩
  · obtain ⟨output, haccepted, -⟩ := (hmacros name e hown).rewrites.2 shared input scopes hhead
    simp [haccepted]
  · exact Builtin.not_cancelled hadded shared input scopes

/-- **Expansion is exhaustive, and expanding again changes nothing.**  Let all macros of a table be
global, have reserved names apart, and give another node for whatever node of their name they are
offered, which is dispatched in turn.  If in the expansion of a forest every dispatch has budget,
and neither the forest nor an output has a verbatim part, then no place of the result is headed by
the name of one of the macros.  Expanding the result with any budget gives the same forest, and none
of the callables of the macros is invoked: all invocations are of built-in macros.

Children are expanded at a dispatch with budget only, as every output differs from its input and is
dispatched, so it is enough to ask for budget at the dispatches. -/
theorem expansion_exhaustive (table : Table σ) (preOpened : NameSet) (budget : Nat)
    (hmacros : ∀ name, ∀ e ∈ table.named name, e.AlwaysRewrites name)
    (hreserved : ∀ name ∈ Reserved.names, table.named name = [])
    (forest : Forest) (hforest : ∀ n ∈ forest, ¬ n.HasHead Reserved.verbatim) (s : State σ)
    {fuel : Nat} {r : Step σ Forest} {log : List (Event σ)}
    (hrun : (create table preOpened budget {}).forestRun fuel forest s = some (r, log))
    (hlog : ∀ event ∈ log, event.Unhindered) :
    ∃ output, ((create table preOpened budget {}).expandForest forest s).1 = .ok output ∧
      (∀ n ∈ output, ∀ name, table.named name ≠ [] → ¬ n.HasHead name) ∧
      ∀ (preOpened' : NameSet) (budget' : Nat) (s' : State σ),
        let again := create table preOpened' budget' {}
        (again.expandForest output s').1 = .ok output ∧
          ∃ log' enough,
            (∀ fuel, enough ≤ fuel →
              again.forestRun fuel output s' = some (again.expandForest output s', log')) ∧
            ∀ event ∈ log', ∀ e input state, event.action = .invoked e input state →
              e ∈ builtins σ ∧ ∀ name, ∀ own ∈ table.named name, own.callable ≠ e.callable := by
  have hdecided : ∀ preOpened budget,
      (create table preOpened budget {}).table.Decided table.Vanishing := by
    intro preOpened budget
    rw [create_table]
    exact Table.decided_withBuiltins hmacros hreserved
  have hanswer := (create table preOpened budget {}).forestRun_answers fuel forest s r log hrun
  rw [hanswer]
  -- nothing stops the first run, and what it answers is settled
  obtain ⟨expanded, s₁, log₁, hlist, hr, rfl⟩ : ∃ expanded s₁ log₁,
      (create table preOpened budget {}).listRun fuel budget forest
        { s with scopes := (create table preOpened budget {}).rootScopes } =
          some ((.ok expanded, s₁), log₁) ∧
      r = (.ok (expanded.getD forest), s₁) ∧ log = log₁ := by
    rcases Run.bind_eq_some hrun with ⟨c, s₁, hstop, -⟩ | ⟨expanded, s₁, log₁, log₂, hok, hrest, rfl⟩
    · obtain ⟨expanded, hexpanded⟩ := listRun_answers_ok _ (fun _ => rfl)
        (not_cancelled_create hmacros hreserved preOpened budget {}) hstop
      simp at hexpanded
    · obtain ⟨⟩ := hrest
      exact ⟨expanded, s₁, log₁, hok, rfl, by simp⟩
  have hknown := listRun_known (Knowledge.closed_settling (hdecided preOpened budget)) hlist
  have hsettled : SettledList table.Vanishing (expanded.getD forest) := hknown.settled hforest hlog
  refine ⟨expanded.getD forest, by rw [hr], ?_, fun preOpened' budget' s' => ?_⟩
  · intro n hn name hname hhead
    exact (hsettled n hn).1.names name (Node.hasHead_iff.1 hhead) (.inl hname)
  · intro again
    obtain ⟨log', enough, hfuel⟩ := again.exists_forestRun (expanded.getD forest) s'
    rcases Run.bind_eq_some (hfuel enough (Nat.le_refl enough)) with
      ⟨c, s₂, hstop, -⟩ | ⟨unchanged, s₂, log₂, log₃, hok, hrest, hlog'⟩
    · obtain ⟨unchanged, hunchanged⟩ := listRun_answers_ok _ (fun _ => rfl)
        (not_cancelled_create hmacros hreserved preOpened' budget' {}) hstop
      simp at hunchanged
    obtain ⟨rfl, hharmless⟩ := (listRun_known
      (Knowledge.closed_staying (hdecided preOpened' budget')) hok).stay hsettled
    obtain ⟨hsame, rfl⟩ := Prod.mk.inj (Option.some.inj hrest)
    refine ⟨by rw [← hsame]; rfl, log', enough, hfuel, fun event hevent e input state haction => ?_⟩
    rw [hlog', List.append_nil] at hevent
    obtain ⟨name, hname, he⟩ := hharmless event hevent e input state haction
    have hdeclines := (hdecided preOpened' budget').declines name hname e he
    rw [create_table] at he
    refine ⟨?_, fun other own hown hsameCallable => ?_⟩
    · rcases (Table.mem_named_withBuiltins hreserved).1 he with hown | ⟨hadded, -⟩
      · exact absurd (.inl (List.ne_nil_of_mem hown)) hname
      · exact hadded
    · -- one of them accepts its own name, and the other declines everything
      obtain ⟨output, haccepted, -⟩ :=
        (hmacros other own hown).rewrites.2 state.shared (.ident other) state.scopes rfl
      rw [hsameCallable, hdeclines] at haccepted
      simp at haccepted

/-- A macro that gives the arguments of a call as a splice. -/
def spreading (index : Nat) (name : String) : Entry Unit where
  space := none
  name := name
  mode := {}
  givenLabel := none
  origin := none
  callable := ⟨.custom index, fun state node scopes =>
    .quiet state scopes (.accepted (.splice node.args))⟩

/-- A name that is replaced by another one, arguments that become members of the list around their
call, a name that becomes the head of a call, and a built-in macro that vanishes. -/
theorem expansion_exhaustive_spreading :
    let table : Table Unit :=
      ⟨[⟨"Foo", [givingIn none 0 "Foo" {} (.ident "bar")]⟩, ⟨"Pair", [spreading 1 "Pair"]⟩]⟩
    let t := create table [] 100 {}
    let s := t.initial () (.empty .debug)
    let forest := [
      Node.invokeName "f" [.ident "Foo", .invokeName "Pair" [.boolean true, .ident "Foo"]],
      Node.invokeName "Pair" [.ident "a", .ident "b"],
      Node.invoke (.invokeName "Foo" []) [.invokeName Reserved.openMacros [.ident "M"], .ident "x"]]
    let output := [Node.invokeName "f" [.ident "bar", .boolean true, .ident "bar"], .ident "a",
      .ident "b", .invokeName "bar" [.ident "x"]]
    (∀ name, ∀ e ∈ table.named name, e.AlwaysRewrites name) ∧
      (∀ name ∈ Reserved.names, table.named name = []) ∧
      (∀ n ∈ forest, ¬ n.HasHead Reserved.verbatim) ∧
      (∃ r log, t.forestRun 6 forest s = some (r, log) ∧ ∀ event ∈ log, event.Unhindered) ∧
      (t.expandForest forest s).1 = .ok output ∧
      ((create table [] 3 {}).expandForest output s).1 = .ok output := by
  intro table t s forest output
  have hmacros : ∀ name, ∀ e ∈ table.named name, e.AlwaysRewrites name := by
    intro name e he
    by_cases hfoo : "Foo" = name
    · obtain rfl : e = givingIn none 0 "Foo" {} (.ident "bar") := by
        simpa [table, Table.named, hfoo] using he
      subst hfoo
      exact ⟨rfl, rfl, rfl, fun _ _ _ hhead => ⟨_, rfl, Node.beq_of_heads rfl hhead (by decide)⟩⟩
    · by_cases hpair : "Pair" = name
      · obtain rfl : e = spreading 1 "Pair" := by
          simpa [table, Table.named, hfoo, hpair] using he
        subst hpair
        exact ⟨rfl, rfl, rfl, fun _ _ _ hhead =>
          ⟨_, rfl, Node.beq_of_heads rfl hhead (by simp [Reserved.splice])⟩⟩
      · simp [table, Table.named, hfoo, hpair] at he
  have hreserved : ∀ name ∈ Reserved.names, table.named name = [] := by
    intro name hname
    simp only [Reserved.names, List.mem_cons, List.not_mem_nil, or_false] at hname
    rcases hname with rfl | rfl | rfl | rfl | rfl | rfl | rfl | rfl <;> rfl
  have hforest : ∀ n ∈ forest, ¬ n.HasHead Reserved.verbatim := by decide +kernel
  have hrun : (t.forestRun 6 forest s).map (fun r => decide (∀ event ∈ r.2, event.Unhindered)) =
      some true := by
    decide +kernel
  have houtput : (t.forestRun 6 forest s).map (·.1.1.toOption) = some (some output) := by
    decide +kernel
  obtain ⟨⟨⟨r, s₁⟩, log⟩, hr, hunhindered⟩ := Option.map_eq_some_iff.1 hrun
  have hlog : ∀ event ∈ log, event.Unhindered := of_decide_eq_true hunhindered
  have hanswer : (t.expandForest forest s).1 = .ok output := by
    rw [t.forestRun_answers 6 forest s _ log hr]
    rw [hr] at houtput
    cases r with
    | error c => simp [Except.toOption] at houtput
    | ok forest => rw [Option.some.inj (Option.some.inj houtput)]
  obtain ⟨output', hanswer', -, hagain⟩ :=
    expansion_exhaustive table [] 100 hmacros hreserved forest hforest s hr hlog
  obtain rfl : output' = output := Except.ok.inj (hanswer'.symm.trans hanswer)
  exact ⟨hmacros, hreserved, hforest, ⟨_, log, hr, hlog⟩, hanswer, (hagain [] 3 s).1⟩

end Expander

end MacroForest
