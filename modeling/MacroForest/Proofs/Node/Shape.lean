/-
**The shape of a tree: its atoms, the styles of its calls, and what reading makes of it.**

Trees are nested in lists twice, once for attributes and once for arguments, so the induction that
comes with the type is about trees and lists at once.  Nearly every statement about trees is of the
kind "it holds of a tree if it holds of the attributes, the target and the arguments", and this is
the principle that is proved first.

The notation tells one call style from the other but has nothing to say on the style of an atom:
reading gives every atom the plain style.  `MacroForest.Node.asRead` is the tree with that change
and no other, so it agrees with the tree and has the same calls in the same styles.

Main definitions:

* `MacroForest.Node.atoms` — the atoms of a tree;
* `MacroForest.Node.callStyles` — the styles of its calls, in the order of writing;
* `MacroForest.Node.asRead` — the tree with all atoms in the plain style.

Main results:

* `MacroForest.Node.inductionOn` — induction over trees;
* `MacroForest.Node.agree_asRead` — **a tree agrees with the tree as read**;
* `MacroForest.Node.callStyles_asRead` — which has the same calls.
-/

import MacroForest.Node.Basic

set_option relaxedAutoImplicit false
set_option autoImplicit false

namespace MacroForest

/-! ### Cells -/

/-- A number that is no NaN is in no other cell. -/
theorem Number.inCell_of_value {x : Number} (h : x.isNaN = false) (cell : Cell) :
    x.inCell cell = x := by
  obtain ⟨bits, old, hold⟩ := x
  have hword : isNaNWord bits = false := h
  obtain rfl := hold hword
  simp [inCell, hword]

/-- A node that is no NaN is not changed by being made anew. -/
theorem Node.inCell_of_value {n : Node} (h : n.isNaN = false) (cell : Cell) :
    n.inCell cell = n := by
  cases n with
  | call => rfl
  | atom attrs style value =>
      cases value with
      | number x =>
          exact congrArg (fun x => Node.atom attrs style (.number x)) (x.inCell_of_value h cell)
      | ident | string | boolean => rfl

namespace Node

/-! ### Induction -/

theorem size_lt_sizeList_of_mem {n : Node} {ns : List Node} (h : n ∈ ns) :
    n.size < sizeList ns := by
  induction ns with
  | nil => simp at h
  | cons m ns ih =>
      simp only [sizeList]
      rcases List.mem_cons.1 h with rfl | h
      · omega
      · have := ih h
        omega

/-- Induction over trees: the attributes, the target and the arguments come before the tree. -/
@[elab_as_elim]
theorem inductionOn {motive : Node → Prop}
    (atom : ∀ attrs style value, (∀ a ∈ attrs, motive a) → motive (.atom attrs style value))
    (call : ∀ attrs style target args, (∀ a ∈ attrs, motive a) → motive target →
      (∀ a ∈ args, motive a) → motive (.call attrs style target args))
    (n : Node) : motive n :=
  match n with
  | .atom attrs style value =>
      atom attrs style value fun a _ => inductionOn atom call a
  | .call attrs style target args =>
      call attrs style target args (fun a _ => inductionOn atom call a)
        (inductionOn atom call target) (fun a _ => inductionOn atom call a)
termination_by n.size
decreasing_by
  all_goals simp only [size]
  · have := size_lt_sizeList_of_mem (by assumption : a ∈ attrs)
    omega
  · have := size_lt_sizeList_of_mem (by assumption : a ∈ attrs)
    omega
  · omega
  · have := size_lt_sizeList_of_mem (by assumption : a ∈ args)
    omega

/-! ### Being the same -/

mutual

/-- Whether two trees are the same, styles included. -/
def decideEq : (a b : Node) → Decidable (a = b)
  | .atom attrs style value, .atom attrs' style' value' =>
    haveI := decideEqAll attrs attrs'
    decidable_of_iff (attrs = attrs' ∧ style = style' ∧ value = value') (by simp)
  | .call attrs style target args, .call attrs' style' target' args' =>
    haveI := decideEqAll attrs attrs'
    haveI := decideEq target target'
    haveI := decideEqAll args args'
    decidable_of_iff (attrs = attrs' ∧ style = style' ∧ target = target' ∧ args = args') (by simp)
  | .atom .., .call .. => .isFalse (by simp)
  | .call .., .atom .. => .isFalse (by simp)

/-- Whether two lists of trees are the same. -/
def decideEqAll : (as bs : List Node) → Decidable (as = bs)
  | [], [] => .isTrue rfl
  | [], _ :: _ => .isFalse (by simp)
  | _ :: _, [] => .isFalse (by simp)
  | a :: as, b :: bs =>
    haveI := decideEq a b
    haveI := decideEqAll as bs
    decidable_of_iff (a = b ∧ as = bs) (by simp)

end

instance : DecidableEq Node := decideEq

/-! ### Atoms and styles -/

mutual

/-- The atoms of a tree, its own and those of its parts. -/
def atoms : Node → List Atom
  | .atom attrs _ value => atomsOf attrs ++ [value]
  | .call attrs _ target args => atomsOf attrs ++ (target.atoms ++ atomsOf args)

/-- The atoms of some trees. -/
def atomsOf : List Node → List Atom
  | [] => []
  | n :: ns => n.atoms ++ atomsOf ns

end

mutual

/-- The styles of the calls of a tree, in the order of writing. -/
def callStyles : Node → List Style
  | .atom attrs _ _ => callStylesOf attrs
  | .call attrs style target args =>
      callStylesOf attrs ++ (target.callStyles ++ style :: callStylesOf args)

/-- The styles of the calls of some trees. -/
def callStylesOf : List Node → List Style
  | [] => []
  | n :: ns => n.callStyles ++ callStylesOf ns

end

theorem mem_atomsOf {a : Atom} {ns : List Node} : a ∈ atomsOf ns ↔ ∃ n ∈ ns, a ∈ n.atoms := by
  induction ns with
  | nil => simp [atomsOf]
  | cons n ns ih => simp [atomsOf, ih]

section Parts

variable {n part : Node} {a : Atom}

theorem mem_atoms_of_mem_attrs (h : part ∈ n.attrs) (ha : a ∈ part.atoms) : a ∈ n.atoms := by
  cases n with
  | atom => exact List.mem_append_left _ (mem_atomsOf.2 ⟨part, h, ha⟩)
  | call => exact List.mem_append_left _ (mem_atomsOf.2 ⟨part, h, ha⟩)

theorem mem_atoms_of_target (h : n.target? = some part) (ha : a ∈ part.atoms) : a ∈ n.atoms := by
  cases n with
  | atom => simp [target?] at h
  | call =>
      obtain rfl := Option.some.inj h
      exact List.mem_append_right _ (List.mem_append_left _ ha)

theorem mem_atoms_of_mem_args (h : part ∈ n.args) (ha : a ∈ part.atoms) : a ∈ n.atoms := by
  cases n with
  | atom => simp [args] at h
  | call =>
      exact List.mem_append_right _ (List.mem_append_right _ (mem_atomsOf.2 ⟨part, h, ha⟩))

end Parts

/-! ### The tree as read -/

mutual

/-- The tree as reading gives it: all atoms are in the plain style, and calls keep theirs. -/
def asRead : Node → Node
  | .atom attrs _ value => .atom (asReadAll attrs) .plain value
  | .call attrs style target args =>
      .call (asReadAll attrs) style target.asRead (asReadAll args)

/-- Some trees as reading gives them. -/
def asReadAll : List Node → List Node
  | [] => []
  | n :: ns => n.asRead :: asReadAll ns

end

theorem asReadAll_eq_map (ns : List Node) : asReadAll ns = ns.map asRead := by
  induction ns with
  | nil => rfl
  | cons n ns ih => rw [asReadAll, ih, List.map_cons]

@[simp] theorem attrs_asRead (n : Node) : n.asRead.attrs = n.attrs.map asRead := by
  cases n <;> simp [asRead, attrs, asReadAll_eq_map]

theorem callStylesOf_asReadAll {ns : List Node}
    (h : ∀ n ∈ ns, n.asRead.callStyles = n.callStyles) :
    callStylesOf (asReadAll ns) = callStylesOf ns := by
  induction ns with
  | nil => rfl
  | cons n ns ih =>
      rw [asReadAll, callStylesOf, callStylesOf, h n (by simp),
        ih fun m hm => h m (List.mem_cons_of_mem n hm)]

theorem callStyles_asRead (n : Node) : n.asRead.callStyles = n.callStyles := by
  induction n using inductionOn with
  | atom attrs style value ih => rw [asRead, callStyles, callStyles, callStylesOf_asReadAll ih]
  | call attrs style target args ihAttrs ihTarget ihArgs =>
      rw [asRead, callStyles, callStyles, callStylesOf_asReadAll ihAttrs, ihTarget,
        callStylesOf_asReadAll ihArgs]

/-- An atom agrees with itself; a NaN does so since it is in one cell. -/
theorem agrees_self (a : Atom) : a.agrees a = true := by
  cases a with
  | number x =>
      show Number.same x x = true
      simp [Number.same]
  | ident name => simp [Atom.agrees]
  | string value => simp [Atom.agrees]
  | boolean value => simp [Atom.agrees]

/-- The trees whose numbers are all finite. -/
def FiniteNumbers (n : Node) : Prop := ∀ x, Atom.number x ∈ n.atoms → x.isFinite = true

theorem mem_zip_asRead {ns : List Node} {p : Node × Node} (h : p ∈ ns.zip (ns.map asRead)) :
    p.2 = p.1.asRead := by
  induction ns with
  | nil => simp at h
  | cons n ns ih =>
      rw [List.map_cons, List.zip_cons_cons, List.mem_cons] at h
      rcases h with rfl | h
      · rfl
      · exact ih h

/-- Comparing a tree with the tree as read: the look at the two tells nothing apart, and the parts
left to compare are again trees and the same trees as read. -/
theorem matchParts_asRead (n : Node) :
    ∃ parts, matchParts n n.asRead = some parts ∧ ∀ p ∈ parts, p.2 = p.1.asRead := by
  cases n with
  | atom attrs style value =>
      refine ⟨attrs.zip (attrs.map asRead), ?_, fun p hp => mem_zip_asRead hp⟩
      rw [asRead, asReadAll_eq_map, matchParts, if_pos]
      exact ⟨by simp, agrees_self value⟩
  | call attrs style target args =>
      refine ⟨attrs.zip (attrs.map asRead) ++ args.zip (args.map asRead) ++ [(target, target.asRead)],
        ?_, ?_⟩
      · rw [asRead, asReadAll_eq_map, asReadAll_eq_map, matchParts, if_pos (by simp)]
      · intro p hp
        rw [List.mem_append, List.mem_append, List.mem_singleton] at hp
        rcases hp with (hp | hp) | rfl
        · exact mem_zip_asRead hp
        · exact mem_zip_asRead hp
        · rfl

/-- The comparison of many pairs never fails on pairs of a tree and the tree as read. -/
theorem allAgree_asRead {pairs : List (Node × Node)} (h : ∀ p ∈ pairs, p.2 = p.1.asRead) :
    allAgree pairs = true := by
  fun_induction allAgree pairs with
  | case1 => rfl
  | case2 a b pending hnone =>
      obtain rfl : b = a.asRead := h (a, b) (by simp)
      obtain ⟨parts, hparts, -⟩ := matchParts_asRead a
      rw [hnone] at hparts
      simp at hparts
  | case3 a b pending parts hsome ih =>
      obtain rfl : b = a.asRead := h (a, b) (by simp)
      obtain ⟨parts', hparts, hall⟩ := matchParts_asRead a
      obtain rfl : parts = parts' := by
        rw [hsome] at hparts
        exact Option.some.inj hparts
      refine ih fun p hp => ?_
      rcases List.mem_append.1 hp with hp | hp
      · exact hall p hp
      · exact h p (List.mem_cons_of_mem _ hp)

/-- **A tree agrees with the tree as read.** -/
theorem agree_asRead (n : Node) : n.agree n.asRead = true := by
  refine allAgree_asRead fun p hp => ?_
  rw [List.mem_singleton] at hp
  subst hp
  rfl

end Node

end MacroForest
