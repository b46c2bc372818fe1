/-
**Comparing trees, in whatever order.**

A comparison keeps the pairs of nodes that have still to be compared, takes one of them, and adds
the pairs of its parts.  Nothing depends on which pair is taken next, on where the parts are put, or
on whether a node that both trees share is passed over: each of these comparisons ends, and with the
same answer.  So the comparison is described here with all its choices open, as steps from one state
to the next, and `MacroForest.Node.agree` is one that never passes anything over.

What carries the proof is what the pairs that wait stand for, namely that all of them are alike.  No
step changes whether that is so.  For a node that is passed over this is due to the cells of NaNs: a
NaN that both trees share is in one cell, so it is like itself.

Main definitions:

* `MacroForest.Number.units`, `MacroForest.Atom.Same` — what numbers and atoms are compared for;
* `MacroForest.Comparison`, `MacroForest.Comparison.Step` — **a comparison with its choices open**;
* `MacroForest.Node.Restyled` — one node of a tree is given another style;
* `MacroForest.Node.Congruence` — a relation that all ways to put trees together respect.

Main results:

* `MacroForest.Atom.agrees_iff_same` — atoms agree if they hold the same;
* `MacroForest.Comparison.settles` — every comparison ends with the answer of `agree`;
* `MacroForest.Node.agree_structural` — **agreement is equality of structure**, and its laws.
-/

import Mathlib.Logic.Relation
import MacroForest.Proofs.Node.Equality
import MacroForest.Proofs.Number.Rounding

set_option relaxedAutoImplicit false
set_option autoImplicit false

namespace MacroForest

/-! ### Numbers by their values -/

namespace Number

variable {x y : Number}

/-- The value of a number, in units of `2 ^ (-1074)`.  An infinity has the value that would come
next after the finite ones, `2 ^ 1024`, with its sign. -/
def units (x : Number) : Int := if x.negative then -x.magnitude else x.magnitude

theorem magnitude_eq_zero_iff : x.magnitude = 0 ↔ x.isZero = true := by
  have hunit : 0 < 2 ^ x.unitExponent := by positivity
  rw [magnitude, pow2_eq]
  constructor
  · intro hzero
    by_contra hne
    have hpos := significand_pos (Bool.eq_false_iff.2 hne)
    exact absurd hzero (Nat.mul_pos hpos hunit).ne'
  · intro hzero
    rw [(parts_of_isZero hzero).1, Nat.zero_mul]

/-- The unit of a number can be told from its magnitude. -/
theorem log2_magnitude (x : Number) : x.magnitude.log2 - 52 = x.unitExponent := by
  rw [magnitude, pow2_eq]
  refine log2_sub_eq (fun hpos => ?_) ?_
  · rw [Nat.pow_add]
    exact Nat.mul_le_mul_right _ (le_significand hpos)
  · rw [Nat.pow_add]
    exact Nat.mul_lt_mul_of_pos_right x.significand_lt (by positivity)

/-- Two numbers of the same sign and magnitude are the same word. -/
theorem eq_of_magnitude (hx : x.isNaN = false) (hy : y.isNaN = false)
    (hsign : x.negative = y.negative) (h : x.magnitude = y.magnitude) : x = y := by
  have hunit : x.unitExponent = y.unitExponent := by
    rw [← x.log2_magnitude, ← y.log2_magnitude, h]
  have hsignificand : x.significand = y.significand := by
    rw [magnitude, magnitude, hunit, pow2_eq] at h
    exact Nat.eq_of_mul_eq_mul_right (by positivity) h
  rw [← make_parts hx, ← make_parts hy, hsign, hunit, hsignificand]

/-- **Numbers are the same if they have the same value**, and a NaN is the same only as itself. -/
theorem same_iff_units :
    x.same y = true ↔
      (x.isNaN = true ∧ x = y) ∨ (x.isNaN = false ∧ y.isNaN = false ∧ x.units = y.units) := by
  rw [same_iff]
  constructor
  · rintro (rfl | ⟨hx, hy⟩)
    · cases hnan : x.isNaN with
      | true => exact .inl ⟨rfl, rfl⟩
      | false => exact .inr ⟨rfl, rfl, rfl⟩
    · refine .inr ⟨isNaN_of_isZero hx, isNaN_of_isZero hy, ?_⟩
      simp [units, magnitude_eq_zero_iff.2 hx, magnitude_eq_zero_iff.2 hy]
  · rintro (⟨-, h⟩ | ⟨hnan, hnan', h⟩)
    · exact .inl h
    by_cases hzero : x.isZero = true
    · refine .inr ⟨hzero, magnitude_eq_zero_iff.1 ?_⟩
      rw [units, units, magnitude_eq_zero_iff.2 hzero] at h
      split at h <;> split at h <;> omega
    · -- other than at zero, the sign of the value is the sign of the number
      have hpos := mt magnitude_eq_zero_iff.1 hzero
      have hparts : x.negative = y.negative ∧ x.magnitude = y.magnitude := by
        unfold units at h
        cases hx : x.negative <;> cases hy : y.negative <;> simp [hx, hy] at h ⊢ <;> omega
      exact .inl (eq_of_magnitude hnan hnan' hparts.1 hparts.2)

end Number

/-- Two atoms hold the same: they are of one kind and have the same payload.  Numbers count by their
values, and a NaN is one and the same literal. -/
inductive Atom.Same : Atom → Atom → Prop
  | ident (name : String) : Same (.ident name) (.ident name)
  | number {x y : Number} (left : x.isNaN = false) (right : y.isNaN = false)
      (value : x.units = y.units) : Same (.number x) (.number y)
  | nan {x : Number} (nan : x.isNaN = true) : Same (.number x) (.number x)
  | string (text : String) : Same (.string text) (.string text)
  | boolean (value : Bool) : Same (.boolean value) (.boolean value)

theorem Atom.agrees_iff_same {a b : Atom} : a.agrees b = true ↔ a.Same b := by
  constructor
  · intro h
    cases a <;> cases b
    case number.number =>
      rcases Number.same_iff_units.1 h with ⟨hnan, rfl⟩ | ⟨hx, hy, hvalue⟩
      · exact .nan hnan
      · exact .number hx hy hvalue
    all_goals
      simp only [agrees, beq_iff_eq, Bool.false_eq_true] at h
    all_goals
      subst h
      constructor
  · intro h
    cases h with
    | number hx hy hvalue => exact Number.same_iff_units.2 (.inr ⟨hx, hy, hvalue⟩)
    | nan hnan => exact Number.same_iff_units.2 (.inl ⟨hnan, rfl⟩)
    | ident name => exact beq_self_eq_true name
    | string text => exact beq_self_eq_true text
    | boolean value => exact beq_self_eq_true value

namespace Node

theorem sizeList_perm {ms ns : List Node} (h : ms.Perm ns) : sizeList ms = sizeList ns := by
  induction h with
  | nil => rfl
  | cons m _ ih => rw [sizeList, sizeList, ih]
  | swap m n ns =>
      simp only [sizeList]
      omega
  | trans _ _ ih ih' => rw [ih, ih']

end Node

/-! ### Comparisons -/

/-- A comparison: some pairs wait, or the answer is known. -/
inductive Comparison where
  | pending (pairs : List (Node × Node))
  | settled (answer : Bool)

namespace Comparison

open Node

/-- One step of a comparison.  Any of the pairs that wait can be taken.  If its two nodes are one
and the same, it can be passed over.  One look at it shows a difference, or leaves the pairs of its
parts, which can be put anywhere among those that wait. -/
inductive Step : Comparison → Comparison → Prop
  | finish : Step (.pending []) (.settled true)
  | pass {pairs rest : List (Node × Node)} {n : Node} (taken : pairs.Perm ((n, n) :: rest)) :
      Step (.pending pairs) (.pending rest)
  | divide {pairs rest parts next : List (Node × Node)} {a b : Node}
      (taken : pairs.Perm ((a, b) :: rest)) (look : matchParts a b = some parts)
      (put : next.Perm (parts ++ rest)) : Step (.pending pairs) (.pending next)
  | differ {pairs rest : List (Node × Node)} {a b : Node}
      (taken : pairs.Perm ((a, b) :: rest)) (look : matchParts a b = none) :
      Step (.pending pairs) (.settled false)

/-- A comparison goes from one state to another in some steps. -/
abbrev Reaches : Comparison → Comparison → Prop := Relation.ReflTransGen Step

/-! ### The answer -/

/-- What a comparison stands for: all pairs that wait are alike, or the answer is yes. -/
def Holds : Comparison → Prop
  | .pending pairs => ∀ p ∈ pairs, p.1.Alike p.2
  | .settled answer => answer = true

variable {s t : Comparison}

/-- **No step changes what a comparison stands for.** -/
theorem Step.holds_iff (h : Step s t) : s.Holds ↔ t.Holds := by
  have hperm : ∀ {pairs next : List (Node × Node)}, pairs.Perm next →
      ((∀ p ∈ pairs, p.1.Alike p.2) ↔ ∀ p ∈ next, p.1.Alike p.2) :=
    fun h => forall_congr' fun p => imp_congr_left h.mem_iff
  cases h with
  | finish => simp [Holds]
  | @pass pairs rest n taken =>
      refine (hperm taken).trans ?_
      rw [List.forall_mem_cons]
      exact and_iff_right (Alike.refl n)
  | @divide pairs rest parts next a b taken look put =>
      refine (hperm taken).trans (Iff.trans ?_ (hperm put).symm)
      rw [List.forall_mem_cons, List.forall_mem_append, alike_iff_of_matchParts look]
  | @differ pairs rest a b taken look =>
      refine iff_of_false (fun hall => not_alike_of_matchParts look ?_) Bool.false_ne_true
      exact hall (a, b) (taken.mem_iff.2 List.mem_cons_self)

theorem Reaches.holds_iff (h : Reaches s t) : s.Holds ↔ t.Holds := by
  induction h with
  | refl => rfl
  | tail _ hstep ih => exact ih.trans hstep.holds_iff

/-! ### The end -/

/-- A bound on the number of steps that are left. -/
def bound : Comparison → Nat
  | .pending pairs => 1 + pairsSize pairs
  | .settled _ => 0

theorem pairsSize_of_taken {pairs rest : List (Node × Node)} {a b : Node}
    (h : pairs.Perm ((a, b) :: rest)) : pairsSize pairs = 1 + a.size + pairsSize rest := by
  have hsize := sizeList_perm (h.map Prod.fst)
  rwa [List.map_cons, sizeList] at hsize

theorem Step.bound_lt (h : Step s t) : t.bound < s.bound := by
  cases h with
  | finish => exact Nat.lt_add_right _ Nat.one_pos
  | pass taken =>
      simp only [bound, pairsSize_of_taken taken]
      omega
  | @divide _ rest parts next a b taken look put =>
      have hnext : pairsSize next = pairsSize parts + pairsSize rest := by
        have hsize := sizeList_perm (put.map Prod.fst)
        rwa [List.map_append, sizeList_append] at hsize
      have hparts := pairsSize_matchParts look
      simp only [bound, hnext, pairsSize_of_taken taken]
      omega
  | differ taken look => exact Nat.lt_add_right _ Nat.one_pos

/-- **No comparison goes on for ever.** -/
theorem step_wellFounded : WellFounded fun t s : Comparison => Step s t :=
  Subrelation.wf Step.bound_lt (measure bound).wf

/-- As long as the answer is not known, there is a next step. -/
theorem exists_step (pairs : List (Node × Node)) : ∃ t, Step (.pending pairs) t := by
  cases pairs with
  | nil => exact ⟨_, .finish⟩
  | cons p rest =>
      cases hlook : matchParts p.1 p.2 with
      | none => exact ⟨_, .differ (.refl _) hlook⟩
      | some parts => exact ⟨_, .divide (.refl _) hlook (.refl _)⟩

/-- One comparison is that of `allAgree`: it takes the first pair, and puts the parts in front. -/
theorem reaches_allAgree (pairs : List (Node × Node)) :
    Reaches (.pending pairs) (.settled (allAgree pairs)) := by
  fun_induction allAgree pairs with
  | case1 => exact .single .finish
  | case2 a b pending hnone => exact .single (.differ (.refl _) hnone)
  | case3 a b pending parts hsome ih => exact .head (.divide (.refl _) hsome (.refl _)) ih

/-- However two trees are compared, the comparison ends, and the answer is always this one. -/
structure Settles (a b : Node) (answer : Bool) : Prop where
  terminates : Acc (fun t s => Step s t) (.pending [(a, b)])
  reached : Reaches (.pending [(a, b)]) (.settled answer)
  unique : ∀ s, Reaches (.pending [(a, b)]) s → (∀ t, ¬ Step s t) → s = .settled answer

/-- **Every comparison ends with the answer of `agree`.** -/
theorem settles (a b : Node) : Settles a b (a.agree b) where
  terminates := step_wellFounded.apply _
  reached := reaches_allAgree [(a, b)]
  unique s hs hend := by
    cases s with
    | pending pairs =>
        obtain ⟨t, ht⟩ := exists_step pairs
        exact absurd ht (hend t)
    | settled answer =>
        have hanswer : answer = true ↔ a.agree b = true := by
          rw [agree_iff_alike]
          exact hs.holds_iff.symm.trans (by simp [Holds])
        rw [Bool.eq_iff_iff.2 hanswer]

end Comparison

namespace Node

/-! ### Styles -/

/-- One node of the tree, at any place in it, is given a style.  It is not a NaN, which would be
another one when it is made anew. -/
inductive Restyled : Node → Node → Prop
  | here {n : Node} (value : n.isNaN = false) (style : Style) : Restyled n (n.withStyle style)
  | attr {m m' : Node} (n : Node) (before after : List Node) (inside : Restyled m m') :
      Restyled (n.withAttrs (before ++ m :: after)) (n.withAttrs (before ++ m' :: after))
  | target {m m' : Node} (n : Node) (inside : Restyled m m') :
      Restyled (n.withTarget m) (n.withTarget m')
  | arg {m m' : Node} (n : Node) (before after : List Node) (inside : Restyled m m') :
      Restyled (n.withArgs (before ++ m :: after)) (n.withArgs (before ++ m' :: after))

theorem Restyled.symm {a a' : Node} (h : Restyled a a') : Restyled a' a := by
  induction h with
  | @here n value style =>
      have hback : (n.withStyle style).withStyle n.style = n := by cases n <;> rfl
      have hvalue : (n.withStyle style).isNaN = false := by
        cases n with
        | atom attrs _ a => cases a <;> exact value
        | call => rfl
      have hstep := Restyled.here hvalue n.style
      rwa [hback] at hstep
  | attr n before after _ ih => exact .attr n before after ih
  | target n _ ih => exact .target n ih
  | arg n before after _ ih => exact .arg n before after ih

/-- A member of a list can be replaced by one that is like all that it was like. -/
theorem forall₂_alike_replace {m m' : Node} (h : ∀ b, m.Alike b → m'.Alike b)
    {before after bs : List Node} (hall : List.Forall₂ Alike (before ++ m :: after) bs) :
    List.Forall₂ Alike (before ++ m' :: after) bs := by
  induction before generalizing bs with
  | nil =>
      obtain ⟨b, bs, hb, hbs, rfl⟩ := List.forall₂_cons_left_iff.1 hall
      exact .cons (h b hb) hbs
  | cons a before ih =>
      obtain ⟨b, bs, hb, hbs, rfl⟩ := List.forall₂_cons_left_iff.1 hall
      exact .cons hb (ih hbs)

theorem Restyled.alike {a a' b : Node} (h : Restyled a a') (hb : a.Alike b) : a'.Alike b := by
  induction h generalizing b with
  | here _ style =>
      cases hb with
      | atom _ style' hattrs hvalue => exact .atom style style' hattrs hvalue
      | call _ style' hattrs htarget hargs => exact .call style style' hattrs htarget hargs
  | attr n before after _ ih =>
      cases n with
      | atom =>
          cases hb with
          | atom _ _ hattrs hvalue =>
              exact .atom _ _ (forall₂_alike_replace (fun _ => ih) hattrs) hvalue
      | call =>
          cases hb with
          | call _ _ hattrs htarget hargs =>
              exact .call _ _ (forall₂_alike_replace (fun _ => ih) hattrs) htarget hargs
  | target n _ ih =>
      cases hb with
      | call _ _ hattrs htarget hargs => exact .call _ _ hattrs (ih htarget) hargs
  | arg n before after _ ih =>
      cases n with
      | atom =>
          cases hb with
          | call _ _ hattrs htarget hargs =>
              exact .call _ _ hattrs htarget (forall₂_alike_replace (fun _ => ih) hargs)
      | call =>
          cases hb with
          | call _ _ hattrs htarget hargs =>
              exact .call _ _ hattrs htarget (forall₂_alike_replace (fun _ => ih) hargs)

theorem agree_comm (a b : Node) : a.agree b = b.agree a :=
  Bool.eq_iff_iff.2 ⟨agree_symm, agree_symm⟩

/-- **Styles do not count**, wherever they are. -/
theorem agree_of_restyled {a a' : Node} (h : Relation.ReflTransGen Restyled a a') (b : Node) :
    a.agree b = a'.agree b := by
  induction h with
  | refl => rfl
  | tail _ hstep ih =>
      rw [ih, Bool.eq_iff_iff, agree_iff_alike, agree_iff_alike]
      exact ⟨hstep.alike, hstep.symm.alike⟩

/-! ### Putting trees together -/

/-- All ways to put trees together respect the relation.  Where a node is made anew with its own
value, it is not a NaN. -/
structure Congruence (R : Node → Node → Prop) : Prop where
  invoke : ∀ {target target' args args'}, R target target' → List.Forall₂ R args args' →
    R (invoke target args) (invoke target' args')
  withAttrs : ∀ {n n' attrs attrs'}, n.isNaN = false → R n n' → List.Forall₂ R attrs attrs' →
    R (n.withAttrs attrs) (n'.withAttrs attrs')
  addAttr : ∀ {n n' attr attr'}, n.isNaN = false → R n n' → R attr attr' →
    R (n.addAttr attr) (n'.addAttr attr')
  withTarget : ∀ {n n' target target'}, R n n' → R target target' →
    R (n.withTarget target) (n'.withTarget target')
  withArgs : ∀ {n n' args args'}, n.isNaN = false → R n n' → List.Forall₂ R args args' →
    R (n.withArgs args) (n'.withArgs args')

theorem Alike.attrs {n n' : Node} (h : n.Alike n') : List.Forall₂ Alike n.attrs n'.attrs := by
  cases h with
  | atom _ _ hattrs _ => exact hattrs
  | call _ _ hattrs _ _ => exact hattrs

theorem Alike.withAttrs {n n' : Node} {attrs attrs' : List Node} (h : n.Alike n')
    (hattrs : List.Forall₂ Alike attrs attrs') :
    (n.withAttrs attrs).Alike (n'.withAttrs attrs') := by
  cases h with
  | atom style style' _ hvalue => exact .atom style style' hattrs hvalue
  | call style style' _ htarget hargs => exact .call style style' hattrs htarget hargs

theorem alike_congruence : Congruence Alike where
  invoke htarget hargs := .call _ _ .nil htarget hargs
  withAttrs _ := Alike.withAttrs
  addAttr _ h hattr := h.withAttrs (List.rel_append h.attrs (.cons hattr .nil))
  withTarget h htarget := by
    cases h with
    | atom style style' hattrs _ => exact .call style style' hattrs htarget .nil
    | call style style' hattrs _ hargs => exact .call style style' hattrs htarget hargs
  withArgs _ h hargs := by
    cases h with
    | atom style style' hattrs hvalue =>
        exact .call style style' hattrs (.atom _ _ .nil hvalue) hargs
    | call style style' hattrs htarget _ => exact .call style style' hattrs htarget hargs

/-- **Agreement is equality of structure.**  Whatever the order of the comparison, and whether or
not it passes over nodes that both trees share, it ends, and the answer is yes exactly if the trees
are alike, with atoms that hold the same.  Hence agreement is an equivalence, it does not look at
styles, and putting trees together respects it. -/
theorem agree_structural :
    (∀ a b : Node, Comparison.Settles a b (a.agree b)) ∧
    (∀ a b : Node, a.agree b = true ↔ a.Alike b) ∧
    (∀ a b : Atom, a.agrees b = true ↔ a.Same b) ∧
    Equivalence (fun a b : Node => a.agree b = true) ∧
    (∀ a a' b b' : Node, Relation.ReflTransGen Restyled a a' → Relation.ReflTransGen Restyled b b' →
      a.agree b = a'.agree b') ∧
    Congruence (fun a b => a.agree b = true) := by
  have hagree : (fun a b : Node => a.agree b = true) = Alike :=
    funext fun a => funext fun b => propext agree_iff_alike
  refine ⟨Comparison.settles, fun a b => agree_iff_alike, fun a b => Atom.agrees_iff_same,
    ⟨agree_self, agree_symm, agree_trans⟩, ?_, ?_⟩
  · intro a a' b b' ha hb
    rw [agree_of_restyled ha, agree_comm, agree_of_restyled hb, agree_comm]
  · rw [hagree]
    exact alike_congruence

/-- Calls that differ in the sign of a zero and in their styles agree, and one with an argument
more does not agree with them. -/
theorem agree_structural_zeros :
    let a := (invokeName "f" [.number (.zero false)]).addAttr (.ident "inline")
    let b := (Node.call [] .bang (.ident "f") [.number (.zero true)]).addAttr (.ident "inline")
    let c := a.withArgs (a.args ++ [.ident "x"])
    Comparison.Settles a b true ∧ Comparison.Settles a c false ∧ a.Alike b ∧
      (a.withStyle .bang).agree b = true ∧ (invoke a [b]).agree (invoke b [a]) = true := by
  intro a b c
  have hab : a.agree b = true := by decide +kernel
  have hac : a.agree c = false := by decide +kernel
  obtain ⟨hsettles, halike, -, hequiv, hstyles, hcongr⟩ := agree_structural
  refine ⟨hab ▸ hsettles a b, hac ▸ hsettles a c, (halike a b).1 hab, ?_, ?_⟩
  · rw [← hstyles a _ b b (.single (.here rfl .bang)) .refl, hab]
  · exact hcongr.invoke hab (.cons (hequiv.symm hab) .nil)

end Node

end MacroForest
