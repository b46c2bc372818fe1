/-
**Which labels tell macros apart.**

A diagnostic names the macros of a tier by their labels.  If several attempts have the same label,
their places are put behind it: `Foo#1`, `Foo#3`.  Numbered labels differ, because the places differ
and no digit is a `#`.  Labels that are not numbered differ, because nobody else has them.

What is left is a numbered label against one that is not.  A label can be any text, so a macro can
have as its own label what numbering makes of another one.  This is the only way for two macros to
be named alike, and it does happen (`MacroForest.numbered_label_taken`).  It takes a label that was
given to a macro.  Qualified names of one name do not get in each other's way, whatever characters
they have: both end in the name, so a numbered one would have a dot too few.

Main definitions:

* `MacroForest.numbered` — a label with a place behind it;
* `MacroForest.Mimics` — **a label of its own that is the numbered label of another attempt**.

Main results:

* `MacroForest.labelAt_eq_iff` — when two attempts are named alike;
* `MacroForest.qualifiedName_ne_numbered` — a qualified name is not the numbered one of another
  macro of the same name;
* `MacroForest.labels_distinct_iff` — **when the labels of a diagnostic are distinct**.
-/

import Mathlib.Data.List.Perm.Subperm
import Mathlib.Data.List.Sigma
import MacroForest.Macro.Report

set_option relaxedAutoImplicit false
set_option autoImplicit false

namespace MacroForest

/-! ### Numbered labels -/

/-- The label with a place behind it. -/
def numbered (label : String) (place : Nat) : String := label ++ "#" ++ toString place

theorem toList_numbered (label : String) (place : Nat) :
    (numbered label place).toList = label.toList ++ '#' :: Nat.toDigits 10 place := by
  simp [numbered, Nat.toString_eq_repr, Nat.toList_repr]

/-- The place can be read from the end of a numbered label. -/
theorem takeWhile_numbered (label : String) (place : Nat) :
    (numbered label place).toList.reverse.takeWhile Char.isDigit =
      (Nat.toDigits 10 place).reverse := by
  have hdigits : ∀ c ∈ (Nat.toDigits 10 place).reverse, c.isDigit = true :=
    fun c hc => Nat.isDigit_of_mem_toDigits (by decide) (by decide) (List.mem_reverse.1 hc)
  rw [toList_numbered, List.reverse_append, List.reverse_cons, List.append_assoc,
    List.takeWhile_append_of_pos hdigits, List.singleton_append,
    List.takeWhile_cons_of_neg (by decide), List.append_nil]

theorem place_inj {label label' : String} {place place' : Nat}
    (h : numbered label place = numbered label' place') : place = place' := by
  have hdigits := takeWhile_numbered label place
  rw [h, takeWhile_numbered, List.reverse_inj] at hdigits
  have hread : ∀ n, Nat.ofDigitChars 10 (Nat.toDigits 10 n) 0 = n :=
    fun n => Nat.ofDigitChars_toDigits (by decide) (by decide)
  rw [← hread place, ← hread place', hdigits]

/-- **A qualified name is not the numbered one of another macro of the same name.**  The name and
the dot before it would lie inside the other name and its place, where there is a dot too few. -/
theorem qualifiedName_ne_numbered {σ : Type} {e e' : Entry σ} (h : e.name = e'.name)
    (place : Nat) : e.qualifiedName ≠ numbered e'.qualifiedName place := by
  intro heq
  have hchars := congrArg String.toList heq
  rw [toList_numbered] at hchars
  obtain ⟨front, hfront⟩ : ∃ front, e'.qualifiedName.toList = front ++ e.name.toList := by
    rw [h, Entry.qualifiedName]
    cases e'.space with
    | none => exact ⟨[], rfl⟩
    | some space => exact ⟨(space ++ ".").toList, by simp⟩
  rw [hfront, List.append_assoc] at hchars
  cases hspace : e.space with
  | none =>
      -- the name would be longer than itself
      have hlength := congrArg List.length hchars
      simp only [Entry.qualifiedName, hspace, List.length_append, List.length_cons] at hlength
      omega
  | some space =>
      have hdotted : ('.' :: e.name.toList) <:+
          front ++ (e.name.toList ++ '#' :: Nat.toDigits 10 place) := by
        refine ⟨space.toList, ?_⟩
        rw [← hchars]
        simp [Entry.qualifiedName, hspace]
      have hinside : ('.' :: e.name.toList) <:+ e.name.toList ++ '#' :: Nat.toDigits 10 place :=
        List.suffix_of_suffix_length_le hdotted (List.suffix_append _ _) (by simp)
      have hdots := hinside.sublist.count_le '.'
      have hnone : (Nat.toDigits 10 place).count '.' = 0 := by
        refine List.count_eq_zero.2 fun hmem => ?_
        exact absurd (Nat.isDigit_of_mem_toDigits (by decide) (by decide) hmem) (by decide)
      rw [List.count_cons_self, List.count_append, List.count_cons_of_ne (by decide), hnone]
        at hdots
      omega

/-! ### Labels of one's own, and shared ones -/

section Labels

variable {σ : Type} {attempts : List (Attempt σ)} {x y : Attempt σ × Nat}

/-- Another attempt has the same label. -/
def SharesLabel (attempts : List (Attempt σ)) (x : Attempt σ × Nat) : Prop :=
  ∃ y ∈ attempts.zipIdx, y ≠ x ∧ y.1.entry.label = x.1.entry.label

/-- The first attempt has a label of its own, and this is what numbering makes of the label of the
second one, which others share. -/
structure Mimics (attempts : List (Attempt σ)) (x y : Attempt σ × Nat) : Prop where
  own : ¬ SharesLabel attempts x
  shared : SharesLabel attempts y
  text : x.1.entry.label = numbered y.1.entry.label (y.2 + 1)

theorem nodup_zipIdx (attempts : List (Attempt σ)) : attempts.zipIdx.Nodup :=
  .of_map Prod.snd (List.nodup_zipIdx_map_snd attempts)

/-- The count that decides about numbering. -/
theorem one_lt_countP_iff (hx : x ∈ attempts.zipIdx) :
    1 < attempts.countP (·.entry.label == x.1.entry.label) ↔ SharesLabel attempts x := by
  have hcount : attempts.countP (·.entry.label == x.1.entry.label) =
      (attempts.zipIdx.filter (·.1.entry.label == x.1.entry.label)).length := by
    conv_lhs => rw [← List.zipIdx_map_fst 0 attempts]
    rw [List.countP_map, List.countP_eq_length_filter]
    rfl
  have hmem : x ∈ attempts.zipIdx.filter (·.1.entry.label == x.1.entry.label) :=
    List.mem_filter.2 ⟨hx, beq_self_eq_true _⟩
  rw [hcount]
  constructor
  · intro hlt
    by_contra hown
    -- all those of the label are the one
    have hone : attempts.zipIdx.filter (·.1.entry.label == x.1.entry.label) ⊆ [x] := by
      intro y hy
      obtain ⟨hy, hlabel⟩ := List.mem_filter.1 hy
      by_contra hne
      exact hown ⟨y, hy, fun heq => hne (heq ▸ List.mem_singleton_self y), beq_iff_eq.1 hlabel⟩
    have hle := (List.subperm_of_subset ((nodup_zipIdx attempts).filter _) hone).length_le
    exact absurd hlt (Nat.not_lt.2 hle)
  · rintro ⟨y, hy, hne, hlabel⟩
    have htwo : [y, x] ⊆ attempts.zipIdx.filter (·.1.entry.label == x.1.entry.label) :=
      List.cons_subset.2 ⟨List.mem_filter.2 ⟨hy, beq_iff_eq.2 hlabel⟩,
        List.cons_subset.2 ⟨hmem, List.nil_subset _⟩⟩
    exact (List.subperm_of_subset (by simpa using hne) htwo).length_le

theorem labelAt_of_shared (hx : x ∈ attempts.zipIdx) (h : SharesLabel attempts x) :
    labelAt attempts x.2 x.1 = numbered x.1.entry.label (x.2 + 1) :=
  if_pos ((one_lt_countP_iff hx).2 h)

theorem labelAt_of_own (hx : x ∈ attempts.zipIdx) (h : ¬ SharesLabel attempts x) :
    labelAt attempts x.2 x.1 = x.1.entry.label :=
  if_neg (mt (one_lt_countP_iff hx).1 h)

/-- **Two attempts are named alike exactly if the label of one mimics the other.** -/
theorem labelAt_eq_iff (hx : x ∈ attempts.zipIdx) (hy : y ∈ attempts.zipIdx) (hne : x ≠ y) :
    labelAt attempts x.2 x.1 = labelAt attempts y.2 y.1 ↔
      Mimics attempts x y ∨ Mimics attempts y x := by
  by_cases hxs : SharesLabel attempts x <;> by_cases hys : SharesLabel attempts y
  · -- both are numbered, by places that differ
    rw [labelAt_of_shared hx hxs, labelAt_of_shared hy hys]
    refine iff_of_false (fun heq => hne ?_) ?_
    · have hplace : x.2 = y.2 := Nat.succ.inj (place_inj heq)
      have hfirst := List.mk_mem_zipIdx_iff_getElem?.1 hx
      have hsecond := List.mk_mem_zipIdx_iff_getElem?.1 hy
      rw [hplace, hsecond] at hfirst
      exact Prod.ext (Option.some.inj hfirst).symm hplace
    · rintro (hmimics | hmimics)
      · exact hmimics.own hxs
      · exact hmimics.own hys
  · rw [labelAt_of_shared hx hxs, labelAt_of_own hy hys]
    exact ⟨fun heq => .inr ⟨hys, hxs, heq.symm⟩,
      fun h => h.elim (fun h => absurd hxs h.own) fun h => h.text.symm⟩
  · rw [labelAt_of_own hx hxs, labelAt_of_shared hy hys]
    exact ⟨fun heq => .inl ⟨hxs, hys, heq⟩,
      fun h => h.elim (fun h => h.text) fun h => absurd hys h.own⟩
  · -- nobody else has either label
    rw [labelAt_of_own hx hxs, labelAt_of_own hy hys]
    refine iff_of_false (fun heq => hxs ⟨y, hy, hne.symm, heq.symm⟩) ?_
    rintro (hmimics | hmimics)
    · exact hys hmimics.shared
    · exact hxs hmimics.shared

theorem labelsOf_nodup_iff (keep : Attempt σ → Bool) :
    (labelsOf attempts keep).Nodup ↔
      ∀ x ∈ attempts.zipIdx, ∀ y ∈ attempts.zipIdx, keep x.1 = true → keep y.1 = true →
        ¬ Mimics attempts x y := by
  unfold labelsOf
  rw [List.nodup_map_iff_inj_on ((nodup_zipIdx attempts).filter _)]
  constructor
  · intro hinj x hx y hy hkeepx hkeepy hmimics
    have hne : x ≠ y := fun heq => hmimics.own (heq ▸ hmimics.shared)
    exact hne (hinj x (List.mem_filter.2 ⟨hx, hkeepx⟩) y (List.mem_filter.2 ⟨hy, hkeepy⟩)
      ((labelAt_eq_iff hx hy hne).2 (.inl hmimics)))
  · intro hnone x hx y hy heq
    obtain ⟨hx, hkeepx⟩ := List.mem_filter.1 hx
    obtain ⟨hy, hkeepy⟩ := List.mem_filter.1 hy
    by_contra hne
    rcases (labelAt_eq_iff hx hy hne).1 heq with hmimics | hmimics
    · exact hnone x hx y hy hkeepx hkeepy hmimics
    · exact hnone y hy x hx hkeepy hkeepx hmimics

/-- **When the labels of a diagnostic are distinct**: exactly if no label of one's own, among the
attempts that are named, is a numbered label of another.  Attempts of macros of one name that go by
their qualified names never are named alike. -/
theorem labels_distinct_iff (attempts : List (Attempt σ)) (keep : Attempt σ → Bool) :
    ((labelsOf attempts keep).Nodup ↔
      ∀ x ∈ attempts.zipIdx, ∀ y ∈ attempts.zipIdx, keep x.1 = true → keep y.1 = true →
        ¬ Mimics attempts x y) ∧
    ((∃ name, ∀ a ∈ attempts, a.entry.name = name ∧ a.entry.label = a.entry.qualifiedName) →
      (labelsOf attempts keep).Nodup) := by
  refine ⟨labelsOf_nodup_iff keep, ?_⟩
  rintro ⟨name, hname⟩
  refine (labelsOf_nodup_iff keep).2 fun x hx y hy _ _ hmimics => ?_
  obtain ⟨hxname, hxlabel⟩ := hname x.1 (List.fst_mem_of_mem_zipIdx hx)
  obtain ⟨hyname, hylabel⟩ := hname y.1 (List.fst_mem_of_mem_zipIdx hy)
  have htext := hmimics.text
  rw [hxlabel, hylabel] at htext
  exact qualifiedName_ne_numbered (hxname.trans hyname.symm) _ htext

end Labels

/-- The attempt of a macro named `m` that gives this output, or declines. -/
def Attempt.giving (space label : Option String) (output : Option Node) : Attempt Unit where
  entry :=
    { space := space
      name := "m"
      mode := {}
      givenLabel := label
      origin := none
      callable := ⟨.custom 0, fun state _ scopes =>
        .quiet state scopes (output.elim .declined .accepted)⟩ }
  output := output
  messages := []

/-- Two macros of one qualified name, and one whose namespace is this name with a place behind
it. -/
theorem labels_distinct_iff_nested :
    let attempts := [Attempt.giving (some "a") none (some (.ident "x")),
      .giving (some "a") none (some (.ident "y")), .giving (some "a.m#1") none (some (.ident "z"))]
    (∀ a ∈ attempts, a.entry.name = "m" ∧ a.entry.label = a.entry.qualifiedName) ∧
      labelsOf attempts (·.accepted) = ["a.m#1", "a.m#2", "a.m#1.m"] ∧
      (labelsOf attempts (·.accepted)).Nodup := by
  intro attempts
  have hname : ∀ a ∈ attempts, a.entry.name = "m" ∧ a.entry.label = a.entry.qualifiedName := by
    decide +kernel
  exact ⟨hname, by decide +kernel, (labels_distinct_iff attempts _).2 ⟨_, hname⟩⟩

/-- **The exception.**  The first and the second macro share a label, so the first is numbered; and
this is the label of the third.  The report of the ambiguity names two macros by the same text. -/
theorem numbered_label_taken :
    let attempts := [Attempt.giving none (some "a") (some (.ident "x")),
      .giving none (some "a") none, .giving none (some "a#1") (some (.ident "z"))]
    ¬ (labelsOf attempts (·.accepted)).Nodup ∧
      (reportAmbiguity attempts (.ident "m")).map (·.text) =
        ["Ambiguous macro call. 2 macros accepted the input: a#1, a#1"] := by
  decide +kernel

end MacroForest
