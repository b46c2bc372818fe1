/-
**Sorting by a key.**

Sorting keeps the order of items that have the same key.  So a sorted list is settled by its
*classes*: the items of each key, in their order.  Two lists that are sorted and have the same
classes are equal, and this is how it is shown of something that is put together in another way that
it is a list sorted.

Main results:

* `MacroForest.filter_mergeSort` — what is sorted already stays as it is;
* `MacroForest.eq_of_classes` — sorted lists are equal if they have the same items for each key;
* `MacroForest.eq_mergeSort_of_classes` — **a sorted list with the classes of another one is that
  list sorted**;
* `MacroForest.filter_mergeSort_comm` — **leaving out commutes with sorting**.
-/

import Mathlib.Data.List.Basic

set_option relaxedAutoImplicit false
set_option autoImplicit false

namespace MacroForest

variable {α κ : Type}

/-! ### Classes -/

section Classes

variable [DecidableEq κ] {key : α → κ}

theorem mem_iff_of_classes {xs ys : List α}
    (hclasses : ∀ n, xs.filter (key · == n) = ys.filter (key · == n)) (z : α) :
    z ∈ xs ↔ z ∈ ys := by
  have hz : z ∈ xs.filter (key · == key z) ↔ z ∈ ys.filter (key · == key z) := by rw [hclasses]
  simpa using hz

variable [LE κ] [Std.IsLinearOrder κ]

omit [DecidableEq κ] in
/-- The first item of a sorted list has the least key. -/
theorem key_head_le {x y : α} {ys : List α} (hys : (y :: ys).Pairwise (key · ≤ key ·))
    (hx : x ∈ y :: ys) : key y ≤ key x := by
  rcases List.mem_cons.1 hx with rfl | hx
  · exact Std.le_refl _
  · exact (List.pairwise_cons.1 hys).1 x hx

/-- Two lists that are sorted by a key are equal if they have the same items for each key, in the
same order. -/
theorem eq_of_classes {xs ys : List α} (hxs : xs.Pairwise (key · ≤ key ·))
    (hys : ys.Pairwise (key · ≤ key ·))
    (hclasses : ∀ n, xs.filter (key · == n) = ys.filter (key · == n)) : xs = ys := by
  induction xs generalizing ys with
  | nil =>
      refine (List.eq_nil_iff_forall_not_mem.2 fun z hz => ?_).symm
      exact List.not_mem_nil ((mem_iff_of_classes hclasses z).2 hz)
  | cons x xs ih =>
      have hmem := mem_iff_of_classes hclasses
      cases ys with
      | nil => exact absurd ((hmem x).1 List.mem_cons_self) List.not_mem_nil
      | cons y ys =>
          have hkey : key y = key x :=
            Std.le_antisymm (key_head_le hys ((hmem x).1 List.mem_cons_self))
              (key_head_le hxs ((hmem y).2 List.mem_cons_self))
          have hfirst := hclasses (key x)
          rw [List.filter_cons_of_pos (by simp), List.filter_cons_of_pos (by simp [hkey])] at hfirst
          obtain ⟨rfl, -⟩ := List.cons.inj hfirst
          have hrest : ∀ n, xs.filter (key · == n) = ys.filter (key · == n) := by
            intro n
            have hn := hclasses n
            rw [List.filter_cons, List.filter_cons] at hn
            split at hn
            · exact (List.cons.inj hn).2
            · exact hn
          rw [ih (List.pairwise_cons.1 hxs).2 (List.pairwise_cons.1 hys).2 hrest]

end Classes

variable [LE κ] [DecidableLE κ] [Std.IsLinearOrder κ]

/-! ### Being in order -/

/-- To be in order by a key is transitive. -/
theorem keyOrder_trans (key : α → κ) (a b c : α) (hab : decide (key a ≤ key b))
    (hbc : decide (key b ≤ key c)) : decide (key a ≤ key c) :=
  decide_eq_true (Std.le_trans (of_decide_eq_true hab) (of_decide_eq_true hbc))

/-- Two items are in order by a key one way or the other. -/
theorem keyOrder_total (key : α → κ) (a b : α) :
    decide (key a ≤ key b) || decide (key b ≤ key a) := by
  simpa using Std.le_total (a := key a) (b := key b)

/-- A list that is sorted by a key is in order. -/
theorem pairwise_mergeSort_key (key : α → κ) (l : List α) :
    (l.mergeSort fun a b => decide (key a ≤ key b)).Pairwise (key · ≤ key ·) :=
  (List.pairwise_mergeSort (keyOrder_trans key) (keyOrder_total key) l).imp of_decide_eq_true

/-- What a test picks out of a list and is sorted stays as it is when the list is sorted. -/
theorem filter_mergeSort {le : α → α → Bool} (htrans : ∀ a b c, le a b → le b c → le a c)
    (htotal : ∀ a b, le a b || le b a) {l : List α} {keep : α → Bool}
    (hsorted : (l.filter keep).Pairwise (le · ·)) : (l.mergeSort le).filter keep = l.filter keep := by
  have hsub : (l.filter keep).Sublist ((l.mergeSort le).filter keep) := by
    have := (List.sublist_mergeSort htrans htotal hsorted List.filter_sublist).filter keep
    simpa using this
  have hperm := (List.mergeSort_perm l le).filter keep
  exact (hsub.eq_of_length hperm.length_eq.symm).symm

/-! ### Sorted lists -/

variable [DecidableEq κ] {key : α → κ}

/-- A class is sorted as it is, so sorting leaves it alone. -/
theorem filter_mergeSort_key (l : List α) (n : κ) :
    (l.mergeSort fun a b => decide (key a ≤ key b)).filter (key · == n) = l.filter (key · == n) := by
  refine filter_mergeSort (keyOrder_trans key) (keyOrder_total key) ?_
  refine List.pairwise_of_forall_mem_list fun a ha b hb => decide_eq_true (Std.le_of_eq ?_)
  rw [eq_of_beq (List.mem_filter.1 ha).2, eq_of_beq (List.mem_filter.1 hb).2]

/-- **A sorted list with the classes of another one is that list sorted.** -/
theorem eq_mergeSort_of_classes {xs l : List α} (hxs : xs.Pairwise (key · ≤ key ·))
    (hclasses : ∀ n, xs.filter (key · == n) = l.filter (key · == n)) :
    xs = l.mergeSort fun a b => decide (key a ≤ key b) := by
  refine eq_of_classes hxs (pairwise_mergeSort_key key l) fun n => ?_
  rw [hclasses, filter_mergeSort_key]

/-- **What is left out before sorting can be left out afterwards.** -/
theorem filter_mergeSort_comm (keep : α → Bool) (xs : List α) :
    (xs.mergeSort fun a b => decide (key a ≤ key b)).filter keep =
      (xs.filter keep).mergeSort fun a b => decide (key a ≤ key b) := by
  refine eq_mergeSort_of_classes ((pairwise_mergeSort_key key xs).filter keep) fun n => ?_
  rw [List.filter_comm, filter_mergeSort_key, List.filter_comm]

end MacroForest
