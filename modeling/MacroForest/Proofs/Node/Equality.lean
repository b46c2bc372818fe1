/-
**When two trees agree.**

Trees are compared without recursion: pairs of nodes that have still to be compared wait in a list,
and each look at a pair adds the pairs of its parts.  What the comparison finds out is stated here
by recursion on the trees, as a relation: the same shape, atoms that agree, and any styles.

The relation is an equivalence, since the agreement of atoms is one.

Main definitions:

* `MacroForest.Node.Alike` — **trees of the same shape with agreeing atoms**.

Main results:

* `MacroForest.Node.agree_iff_alike` — the comparison decides the relation;
* `MacroForest.Node.agree_self`, `MacroForest.Node.agree_symm`, `MacroForest.Node.agree_trans` —
  agreement is reflexive, symmetric and transitive.
-/

import Mathlib.Data.List.Forall2
import MacroForest.Proofs.Node.Shape

set_option relaxedAutoImplicit false
set_option autoImplicit false

namespace MacroForest

/-! ### Atoms -/

namespace Number

theorem same_iff {x y : Number} :
    x.same y = true ↔ x = y ∨ x.isZero = true ∧ y.isZero = true := by
  simp [same]

theorem same_symm {x y : Number} (h : x.same y = true) : y.same x = true :=
  same_iff.2 ((same_iff.1 h).imp Eq.symm And.symm)

theorem same_trans {x y z : Number} (h : x.same y = true) (h' : y.same z = true) :
    x.same z = true := by
  rcases same_iff.1 h with rfl | ⟨hx, -⟩
  · exact h'
  · rcases same_iff.1 h' with rfl | ⟨-, hz⟩
    · exact h
    · exact same_iff.2 (.inr ⟨hx, hz⟩)

end Number

namespace Atom

theorem agrees_symm {a b : Atom} (h : a.agrees b = true) : b.agrees a = true := by
  cases a <;> cases b
  case number.number => exact Number.same_symm h
  all_goals simp_all [agrees]

theorem agrees_trans {a b c : Atom} (h : a.agrees b = true) (h' : b.agrees c = true) :
    a.agrees c = true := by
  cases a <;> cases b <;> cases c
  case number.number.number => exact Number.same_trans h h'
  all_goals simp_all [agrees]

end Atom

namespace Node

/-! ### The relation -/

/-- Two trees of the same shape, with atoms that agree.  Styles do not count. -/
inductive Alike : Node → Node → Prop
  | atom {attrs attrs' : List Node} {a b : Atom} (style style' : Style)
      (attributes : List.Forall₂ Alike attrs attrs') (value : a.agrees b = true) :
      Alike (.atom attrs style a) (.atom attrs' style' b)
  | call {attrs attrs' args args' : List Node} {target target' : Node} (style style' : Style)
      (attributes : List.Forall₂ Alike attrs attrs') (head : Alike target target')
      (arguments : List.Forall₂ Alike args args') :
      Alike (.call attrs style target args) (.call attrs' style' target' args')

theorem forall₂_alike_iff {as bs : List Node} :
    List.Forall₂ Alike as bs ↔ as.length = bs.length ∧ ∀ p ∈ as.zip bs, p.1.Alike p.2 := by
  rw [List.forall₂_iff_zip]
  exact ⟨fun h => ⟨h.1, fun _ hp => h.2 hp⟩, fun h => ⟨h.1, fun hp => h.2 _ hp⟩⟩

/-- One look at two trees: they are alike if they match and the pairs of their parts are alike. -/
theorem alike_iff_parts {a b : Node} :
    a.Alike b ↔ ∃ parts, matchParts a b = some parts ∧ ∀ p ∈ parts, p.1.Alike p.2 := by
  constructor
  · intro h
    cases h with
    | atom style style' hattrs hvalue =>
        obtain ⟨hlength, hparts⟩ := forall₂_alike_iff.1 hattrs
        exact ⟨_, if_pos ⟨hlength, hvalue⟩, hparts⟩
    | call style style' hattrs hhead hargs =>
        obtain ⟨hattrs, hattrsParts⟩ := forall₂_alike_iff.1 hattrs
        obtain ⟨hargs, hargsParts⟩ := forall₂_alike_iff.1 hargs
        refine ⟨_, if_pos ⟨hattrs, hargs⟩, ?_⟩
        rw [List.forall_mem_append, List.forall_mem_append, List.forall_mem_singleton]
        exact ⟨⟨hattrsParts, hargsParts⟩, hhead⟩
  · rintro ⟨parts, hmatch, hparts⟩
    unfold matchParts at hmatch
    split at hmatch
    · split at hmatch
      · rename_i hsame
        obtain rfl := Option.some.inj hmatch
        exact .atom _ _ (forall₂_alike_iff.2 ⟨hsame.1, hparts⟩) hsame.2
      · cases hmatch
    · split at hmatch
      · rename_i hsame
        obtain rfl := Option.some.inj hmatch
        rw [List.forall_mem_append, List.forall_mem_append, List.forall_mem_singleton] at hparts
        obtain ⟨⟨hattrs, hargs⟩, hhead⟩ := hparts
        exact .call _ _ (forall₂_alike_iff.2 ⟨hsame.1, hattrs⟩) hhead
          (forall₂_alike_iff.2 ⟨hsame.2, hargs⟩)
      · cases hmatch
    · cases hmatch

theorem alike_iff_of_matchParts {a b : Node} {parts : List (Node × Node)}
    (h : matchParts a b = some parts) : a.Alike b ↔ ∀ p ∈ parts, p.1.Alike p.2 := by
  rw [alike_iff_parts, h]
  simp

theorem not_alike_of_matchParts {a b : Node} (h : matchParts a b = none) : ¬ a.Alike b := by
  rw [alike_iff_parts, h]
  simp

/-- The pairs that wait agree if all of them are alike. -/
theorem allAgree_iff (pairs : List (Node × Node)) :
    allAgree pairs = true ↔ ∀ p ∈ pairs, p.1.Alike p.2 := by
  fun_induction allAgree pairs with
  | case1 => simp
  | case2 a b pending hnone => simp [not_alike_of_matchParts hnone]
  | case3 a b pending parts hsome ih =>
      rw [ih, List.forall_mem_append, List.forall_mem_cons, alike_iff_of_matchParts hsome]

/-- **The comparison decides whether two trees are alike.** -/
theorem agree_iff_alike {a b : Node} : a.agree b = true ↔ a.Alike b := by
  rw [agree, allAgree_iff]
  simp

/-! ### The laws of an equivalence -/

theorem Alike.refl (n : Node) : n.Alike n := by
  induction n using Node.inductionOn with
  | atom attrs style value ih =>
      exact .atom style style (List.forall₂_same.2 ih) (agrees_self value)
  | call attrs style target args ihAttrs ihTarget ihArgs =>
      exact .call style style (List.forall₂_same.2 ihAttrs) ihTarget (List.forall₂_same.2 ihArgs)

/-- **A tree agrees with itself.** -/
theorem agree_self (n : Node) : n.agree n = true := agree_iff_alike.2 (.refl n)

theorem forall₂_symm_of {as bs : List Node} (h : ∀ a ∈ as, ∀ b, Alike a b → Alike b a)
    (hall : List.Forall₂ Alike as bs) : List.Forall₂ Alike bs as := by
  induction hall with
  | nil => exact .nil
  | @cons a b as bs hab _ ih =>
      obtain ⟨hfirst, hrest⟩ := List.forall_mem_cons.1 h
      exact .cons (hfirst b hab) (ih hrest)

theorem Alike.symm {a b : Node} (h : a.Alike b) : b.Alike a := by
  induction a using Node.inductionOn generalizing b with
  | atom attrs style value ih =>
      cases h with
      | atom _ style' hattrs hvalue =>
          exact .atom style' style (forall₂_symm_of (fun a ha b => ih a ha) hattrs)
            (Atom.agrees_symm hvalue)
  | call attrs style target args ihAttrs ihTarget ihArgs =>
      cases h with
      | call _ style' hattrs hhead hargs =>
          exact .call style' style (forall₂_symm_of (fun a ha b => ihAttrs a ha) hattrs)
            (ihTarget hhead) (forall₂_symm_of (fun a ha b => ihArgs a ha) hargs)

theorem forall₂_trans_of {as bs cs : List Node}
    (h : ∀ a ∈ as, ∀ b c, Alike a b → Alike b c → Alike a c)
    (hall : List.Forall₂ Alike as bs) (hall' : List.Forall₂ Alike bs cs) :
    List.Forall₂ Alike as cs := by
  induction hall generalizing cs with
  | nil =>
      cases hall'
      exact .nil
  | @cons a b as bs hab _ ih =>
      obtain ⟨hfirst, hrest⟩ := List.forall_mem_cons.1 h
      cases hall' with
      | @cons _ c _ cs hbc hbcs => exact .cons (hfirst b c hab hbc) (ih hrest hbcs)

theorem Alike.trans {a b c : Node} (h : a.Alike b) (h' : b.Alike c) : a.Alike c := by
  induction a using Node.inductionOn generalizing b c with
  | atom attrs style value ih =>
      cases h with
      | atom _ _ hattrs hvalue =>
          cases h' with
          | atom _ style' hattrs' hvalue' =>
              exact .atom style style' (forall₂_trans_of (fun a ha b c => ih a ha) hattrs hattrs')
                (Atom.agrees_trans hvalue hvalue')
  | call attrs style target args ihAttrs ihTarget ihArgs =>
      cases h with
      | call _ _ hattrs hhead hargs =>
          cases h' with
          | call _ style' hattrs' hhead' hargs' =>
              exact .call style style'
                (forall₂_trans_of (fun a ha b c => ihAttrs a ha) hattrs hattrs')
                (ihTarget hhead hhead')
                (forall₂_trans_of (fun a ha b c => ihArgs a ha) hargs hargs')

theorem agree_symm {a b : Node} (h : a.agree b = true) : b.agree a = true :=
  agree_iff_alike.2 (agree_iff_alike.1 h).symm

theorem agree_trans {a b c : Node} (h : a.agree b = true) (h' : b.agree c = true) :
    a.agree c = true :=
  agree_iff_alike.2 ((agree_iff_alike.1 h).trans (agree_iff_alike.1 h'))

end Node

end MacroForest
