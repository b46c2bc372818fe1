/-
**The heads in a tree, and trees without splices in their lists.**

Macros are found by the name at the head of a node.  A tree is dispatched at its root and at its
attributes, its arguments and its target, unless the target is a plain name: then it is the head of
the call.  So every identifier of a tree is the head of exactly one place, and a tree has a head of
some name if and only if the name is among its atoms.  That is what makes heads easy to follow while
a tree is rebuilt: a call whose target becomes a plain name has a new head, but no new atom.

Main definitions:

* `MacroForest.Node.simpleHead?` — the name that macros for a node are found by;
* `MacroForest.Node.Placed`, `MacroForest.Node.HasHead` — the places of a tree, and their heads;
* `MacroForest.Node.Flat` — no list of the tree has a splice among its members;
* `MacroForest.Node.Settled` — flat, and without heads of some names.

Main results:

* `MacroForest.Node.hasHead_iff` — **the heads of a tree are its identifiers**;
* `MacroForest.Node.beq_of_heads` — trees with different heads do not agree;
* `MacroForest.Node.Settled.call`, `MacroForest.Node.Settled.spliced`,
  `MacroForest.Node.Settled.asTarget` — settled trees are closed under rebuilding.
-/

import MacroForest.Expansion.Expander
import MacroForest.Proofs.Node.Equality

set_option relaxedAutoImplicit false
set_option autoImplicit false

namespace MacroForest

namespace Node

/-! ### Heads and places -/

/-- The name that macros for a node are found by: that of its head, if the head is simple. -/
def simpleHead? (n : Node) : Option String := if n.hasSimpleHead then n.headName? else none

/-- The node is a place of the tree: the root, or a place of an attribute, of an argument, or of a
target that is no plain name. -/
inductive Placed (m : Node) : Node → Prop
  | root : Placed m m
  | attr {n a : Node} (hmem : a ∈ n.attrs) (h : Placed m a) : Placed m n
  | target {n t : Node} (htarget : n.target? = some t) (hsimple : n.hasSimpleHead = false)
      (h : Placed m t) : Placed m n
  | arg {n a : Node} (hmem : a ∈ n.args) (h : Placed m a) : Placed m n

/-- A place of the tree is headed by the name. -/
def HasHead (n : Node) (name : String) : Prop := ∃ m, Placed m n ∧ m.simpleHead? = some name

/-- What has a simple head is an identifier, or a call of one without attributes. -/
theorem simpleHead?_eq_some {n : Node} {name : String} (h : n.simpleHead? = some name) :
    (∃ attrs style, n = .atom attrs style (.ident name)) ∨
      ∃ attrs style style' args, n = .call attrs style (.atom [] style' (.ident name)) args := by
  cases n with
  | atom attrs style value =>
      cases value with
      | ident other =>
          obtain rfl : other = name := by
            simpa [simpleHead?, hasSimpleHead, isIdent, headName?, identName?] using h
          exact .inl ⟨attrs, style, rfl⟩
      | _ => simp [simpleHead?, hasSimpleHead, isIdent] at h
  | call attrs style target args =>
      cases target with
      | call => simp [simpleHead?, hasSimpleHead, isIdent] at h
      | atom targetAttrs style' value =>
          cases value with
          | ident other =>
              cases targetAttrs with
              | cons a as => simp [simpleHead?, hasSimpleHead, isIdent, hasAttrs, Node.attrs] at h
              | nil =>
                  obtain rfl : other = name := by
                    simpa [simpleHead?, hasSimpleHead, isIdent, hasAttrs, Node.attrs, headName?,
                      identName?] using h
                  exact .inr ⟨attrs, style, style', args, rfl⟩
          | _ => simp [simpleHead?, hasSimpleHead, isIdent] at h

theorem mem_atoms_of_simpleHead? {n : Node} {name : String} (h : n.simpleHead? = some name) :
    Atom.ident name ∈ n.atoms := by
  rcases simpleHead?_eq_some h with ⟨attrs, style, rfl⟩ | ⟨attrs, style, style', args, rfl⟩
  · simp [atoms]
  · simp [atoms]

/-- A call whose head is simple has a plain name for its target. -/
theorem target_of_hasSimpleHead {attrs : List Node} {style : Style} {target : Node}
    {args : List Node} (h : (Node.call attrs style target args).hasSimpleHead = true) :
    ∃ style' name, target = .atom [] style' (.ident name) := by
  have hident : target.isIdent = true ∧ target.attrs = [] := by
    simpa [hasSimpleHead, hasAttrs] using h
  cases target with
  | call => simp [isIdent] at hident
  | atom targetAttrs style' value =>
      obtain rfl : targetAttrs = [] := hident.2
      cases value with
      | ident name => exact ⟨style', name, rfl⟩
      | _ => simp [isIdent] at hident

/-- **The heads of a tree are its identifiers.** -/
theorem hasHead_iff {n : Node} {name : String} : n.HasHead name ↔ Atom.ident name ∈ n.atoms := by
  constructor
  · rintro ⟨m, hplaced, hhead⟩
    induction hplaced with
    | root => exact mem_atoms_of_simpleHead? hhead
    | attr hmem _ ih => exact mem_atoms_of_mem_attrs hmem ih
    | target htarget _ _ ih => exact mem_atoms_of_target htarget ih
    | arg hmem _ ih => exact mem_atoms_of_mem_args hmem ih
  · intro hmem
    induction n using inductionOn with
    | atom attrs style value ih =>
        rw [atoms, List.mem_append, List.mem_singleton] at hmem
        rcases hmem with hmem | rfl
        · obtain ⟨a, ha, hmem⟩ := mem_atomsOf.1 hmem
          obtain ⟨m, hplaced, hhead⟩ := ih a ha hmem
          exact ⟨m, .attr ha hplaced, hhead⟩
        · exact ⟨_, .root, rfl⟩
    | call attrs style target args ihAttrs ihTarget ihArgs =>
        rw [atoms, List.mem_append, List.mem_append] at hmem
        rcases hmem with hmem | hmem | hmem
        · obtain ⟨a, ha, hmem⟩ := mem_atomsOf.1 hmem
          obtain ⟨m, hplaced, hhead⟩ := ihAttrs a ha hmem
          exact ⟨m, .attr ha hplaced, hhead⟩
        · -- a plain name is no place of its own, it is the head of the call
          by_cases hsimple : (Node.call attrs style target args).hasSimpleHead = true
          · obtain ⟨style', other, rfl⟩ := target_of_hasSimpleHead hsimple
            obtain rfl : name = other := by simpa [atoms, atomsOf] using hmem
            exact ⟨_, .root, rfl⟩
          · obtain ⟨m, hplaced, hhead⟩ := ihTarget hmem
            exact ⟨m, .target rfl (Bool.eq_false_iff.2 hsimple) hplaced, hhead⟩
        · obtain ⟨a, ha, hmem⟩ := mem_atomsOf.1 hmem
          obtain ⟨m, hplaced, hhead⟩ := ihArgs a ha hmem
          exact ⟨m, .arg ha hplaced, hhead⟩

instance (n : Node) (name : String) : Decidable (n.HasHead name) :=
  decidable_of_iff (Atom.ident name ∈ n.atoms) hasHead_iff.symm

/-- The attributes, the target and the arguments of a node. -/
def parts (n : Node) : List Node := n.attrs ++ (n.target?.toList ++ n.args)

theorem HasHead.of_part {part n : Node} {name : String} (hpart : part ∈ n.parts)
    (h : part.HasHead name) : n.HasHead name := by
  rw [hasHead_iff] at h ⊢
  rw [parts, List.mem_append, List.mem_append, Option.mem_toList] at hpart
  rcases hpart with hattr | htarget | harg
  · exact mem_atoms_of_mem_attrs hattr h
  · exact mem_atoms_of_target htarget h
  · exact mem_atoms_of_mem_args harg h

/-- Trees that are alike have the same head. -/
theorem Alike.simpleHead? {a b : Node} {name : String} (h : a.Alike b)
    (ha : a.simpleHead? = some name) : b.simpleHead? = some name := by
  have hident : ∀ {value : Atom}, (Atom.ident name).agrees value = true → value = .ident name := by
    intro value hvalue
    cases value <;> simp_all [Atom.agrees]
  rcases simpleHead?_eq_some ha with ⟨attrs, style, rfl⟩ | ⟨attrs, style, style', args, rfl⟩
  · cases h with
    | atom _ _ _ hvalue =>
        rw [hident hvalue]
        rfl
  · cases h with
    | call _ _ _ hhead _ =>
        cases hhead with
        | atom _ _ hattrs hvalue =>
            cases hattrs
            rw [hident hvalue]
            rfl

/-- Trees with different heads do not agree. -/
theorem beq_of_heads {a b : Node} {name other : String} (ha : a.simpleHead? = some name)
    (hb : b.simpleHead? = some other) (hne : name ≠ other) : (a == b) = false := by
  refine Bool.eq_false_iff.2 fun h => hne ?_
  have hhead := (agree_iff_alike.1 h).simpleHead? ha
  exact Option.some.inj (hhead.symm.trans hb)

/-! ### Flat and settled trees -/

/-- No list of the tree has a splice among its members. -/
inductive Flat : Node → Prop
  | intro {n : Node} (attrs : ∀ a ∈ n.attrs, Flat a)
      (attrsPlain : ∀ a ∈ n.attrs, a.calls Reserved.splice = false)
      (target : ∀ t, n.target? = some t → Flat t) (args : ∀ a ∈ n.args, Flat a)
      (argsPlain : ∀ a ∈ n.args, a.calls Reserved.splice = false) : Flat n

/-- The tree is flat, and no place of it has one of some names at its head. -/
structure Settled (bad : String → Prop) (n : Node) : Prop where
  names : ∀ name, Atom.ident name ∈ n.atoms → ¬ bad name
  flat : n.Flat

/-- The trees of a list are settled, and none of them is a splice. -/
def SettledList (bad : String → Prop) (ns : List Node) : Prop :=
  ∀ n ∈ ns, n.Settled bad ∧ n.calls Reserved.splice = false

variable {bad : String → Prop}

namespace Settled

theorem atom {attrs : List Node} (hattrs : SettledList bad attrs) (style : Style) {value : Atom}
    (hvalue : ∀ name, value = .ident name → ¬ bad name) :
    (Node.atom attrs style value).Settled bad := by
  constructor
  · intro name hmem
    rw [atoms, List.mem_append, List.mem_singleton] at hmem
    rcases hmem with hmem | hmem
    · obtain ⟨a, ha, hmem⟩ := mem_atomsOf.1 hmem
      exact (hattrs a ha).1.names name hmem
    · exact hvalue name hmem.symm
  · exact .intro (fun a ha => (hattrs a ha).1.flat) (fun a ha => (hattrs a ha).2)
      (by simp [target?]) (by simp [args]) (by simp [args])

/-- A call is settled if its parts are; its head, should it be simple, is an atom of the target. -/
theorem call {attrs args : List Node} {target : Node} (hattrs : SettledList bad attrs)
    (style : Style) (htarget : target.Settled bad) (hargs : SettledList bad args) :
    (Node.call attrs style target args).Settled bad := by
  constructor
  · intro name hmem
    rw [atoms, List.mem_append, List.mem_append] at hmem
    rcases hmem with hmem | hmem | hmem
    · obtain ⟨a, ha, hmem⟩ := mem_atomsOf.1 hmem
      exact (hattrs a ha).1.names name hmem
    · exact htarget.names name hmem
    · obtain ⟨a, ha, hmem⟩ := mem_atomsOf.1 hmem
      exact (hargs a ha).1.names name hmem
  · refine .intro (fun a ha => (hattrs a ha).1.flat) (fun a ha => (hattrs a ha).2) ?_
      (fun a ha => (hargs a ha).1.flat) (fun a ha => (hargs a ha).2)
    rintro t ⟨⟩
    exact htarget.flat

theorem attrs {n : Node} (h : n.Settled bad) : SettledList bad n.attrs := by
  intro a ha
  obtain ⟨hflat, hplain, -, -, -⟩ := h.flat
  exact ⟨⟨fun name hmem => h.names name (mem_atoms_of_mem_attrs ha hmem), hflat a ha⟩, hplain a ha⟩

theorem target {n t : Node} (h : n.Settled bad) (ht : n.target? = some t) : t.Settled bad := by
  obtain ⟨-, -, hflat, -, -⟩ := h.flat
  exact ⟨fun name hmem => h.names name (mem_atoms_of_target ht hmem), hflat t ht⟩

theorem args {n : Node} (h : n.Settled bad) : SettledList bad n.args := by
  intro a ha
  obtain ⟨-, -, -, hflat, hplain⟩ := h.flat
  exact ⟨⟨fun name hmem => h.names name (mem_atoms_of_mem_args ha hmem), hflat a ha⟩, hplain a ha⟩

/-- What stands for a settled tree in a list is settled and no splice. -/
theorem spliced {n : Node} (h : n.Settled bad) : SettledList bad n.spliced := by
  unfold Node.spliced
  split
  · exact h.args
  · rename_i hsplice
    intro m hm
    rw [List.mem_singleton] at hm
    subst hm
    exact ⟨h, Bool.eq_false_iff.2 hsplice⟩

/-- What stands for a settled tree in the place of a target is settled. -/
theorem asTarget {n : Node} (h : n.Settled bad) : n.asTarget.Settled bad := by
  unfold Node.asTarget
  split
  · rename_i item hargs
    split
    · exact (h.args item (by simp [hargs])).1
    · exact h
  · exact h

theorem simpleHead {n : Node} {name : String} (h : n.Settled bad)
    (hhead : n.simpleHead? = some name) : ¬ bad name :=
  h.names name (mem_atoms_of_simpleHead? hhead)

end Settled

end Node

end MacroForest
