/-
**Tables with more macros.**

Two expansions are compared again and again over a table and the same table with more macros.  The
macros of a name keep the order in which they were registered, so the macros of the first table are
there in the second one too, in their order and with others between them.

Macros can be added to a table before the built-in ones or after them.  If before, a macro that is
added can take the place of a built-in one: a callable is registered only once under a name.  The
built-in macros are *spared* if that does not happen.

Main definitions:

* `MacroForest.Table.has` — the name of a macro has its callable already;
* `MacroForest.Table.Extends` — a table has more macros, and the same of those that a test keeps;
* `MacroForest.Table.Spares` — added macros take the place of no built-in one.

Main results:

* `MacroForest.Table.extends_addAll` — **adding macros extends a table**;
* `MacroForest.Table.Extends.withBuiltins` — so it does before the built-in macros are added.
-/

import MacroForest.Proofs.Expansion.Scopes

set_option relaxedAutoImplicit false
set_option autoImplicit false

namespace MacroForest

namespace Table

variable {σ : Type} {t t' : Table σ} {es : List (Entry σ)} {keep : Entry σ → Bool}

/-! ### Registered callables -/

/-- The name of a macro has its callable. -/
def has (t : Table σ) (e : Entry σ) : Bool := (t.named e.name).any (·.callable.id = e.callable.id)

theorem has_iff {e : Entry σ} :
    t.has e = true ↔ ∃ e' ∈ t.named e.name, e'.callable.id = e.callable.id := by
  simp [has]

/-- A macro whose name has its callable is not registered again. -/
theorem register_of_has {e : Entry σ} (h : t.has e = true) : (t.register e).2 = t := by
  unfold register
  exact congrArg Prod.snd (if_pos h)

/-- Any other macro is put behind those of its name. -/
theorem named_register_of_not_has {e : Entry σ} (h : t.has e = false) (name : String) :
    (t.register e).2.named name = t.named name ++ if e.name = name then [e] else [] := by
  have hnew : (t.register e).2 = ⟨insertInto e t.buckets⟩ :=
    congrArg Prod.snd (if_neg (Bool.eq_false_iff.1 h))
  rw [hnew]
  exact named_insertInto e t.buckets name

/-- A name that has a callable keeps it. -/
theorem has_register {e : Entry σ} (h : t.has e = true) (e' : Entry σ) :
    (t.register e').2.has e = true := by
  obtain ⟨old, hold, hid⟩ := has_iff.1 h
  exact has_iff.2 ⟨old, mem_register_of_mem hold, hid⟩

/-! ### Extensions -/

/-- The second table has all macros of the first one, and some of a list under their names.  Of the
macros that a test keeps, the two have the same under every name, in the same order. -/
structure Extends (es : List (Entry σ)) (keep : Entry σ → Bool) (t t' : Table σ) : Prop where
  agree : ∀ name, (t'.named name).filter keep = (t.named name).filter keep
  old : ∀ name, ∀ e ∈ t.named name, e ∈ t'.named name
  new : ∀ name, ∀ e ∈ t'.named name, e ∈ t.named name ∨ (e ∈ es ∧ e.name = name)

namespace Extends

theorem refl (es : List (Entry σ)) (keep : Entry σ → Bool) (t : Table σ) : Extends es keep t t :=
  ⟨fun _ => rfl, fun _ _ h => h, fun _ _ h => .inl h⟩

theorem has (h : Extends es keep t t') {e : Entry σ} (he : t.has e = true) : t'.has e = true := by
  obtain ⟨old, hold, hid⟩ := has_iff.1 he
  exact has_iff.2 ⟨old, h.old _ old hold, hid⟩

/-- The second table gets one more macro, which is there already if the test keeps it. -/
theorem register (h : Extends es keep t t') {e : Entry σ} (he : e ∈ es)
    (hkeep : keep e = true → t'.has e = true) : Extends es keep t (t'.register e).2 := by
  cases hhas : t'.has e with
  | true => rwa [register_of_has hhas]
  | false =>
      have hdropped : keep e = false :=
        Bool.eq_false_iff.2 fun hkept => Bool.eq_false_iff.1 hhas (hkeep hkept)
      refine ⟨fun name => ?_, fun name e' he' => mem_register_of_mem (h.old name e' he'),
        fun name e' he' => ?_⟩
      · rw [named_register_of_not_has hhas, List.filter_append, h.agree name]
        split
        · simp [hdropped]
        · simp
      · rw [named_register_of_not_has hhas] at he'
        rcases List.mem_append.1 he' with he' | he'
        · exact h.new name e' he'
        · split at he'
          · rename_i hname
            rw [List.mem_singleton.1 he']
            exact .inr ⟨he, hname⟩
          · simp at he'

/-- Both tables get one more macro, which is in neither of them or in both. -/
theorem register_both (h : Extends es keep t t') {e : Entry σ}
    (hspares : t'.has e = true → t.has e = true) :
    Extends es keep (t.register e).2 (t'.register e).2 := by
  cases hhas : t.has e with
  | true => rwa [register_of_has hhas, register_of_has (h.has hhas)]
  | false =>
      have hhas' : t'.has e = false :=
        Bool.eq_false_iff.2 fun hthere => Bool.eq_false_iff.1 hhas (hspares hthere)
      have hnamed := named_register_of_not_has hhas
      have hnamed' := named_register_of_not_has hhas'
      refine ⟨fun name => ?_, fun name e' he' => ?_, fun name e' he' => ?_⟩
      · rw [hnamed, hnamed', List.filter_append, List.filter_append, h.agree name]
      · rw [hnamed] at he'
        rw [hnamed']
        exact List.mem_append.2 ((List.mem_append.1 he').imp_left (h.old name e'))
      · rw [hnamed'] at he'
        rw [hnamed]
        rcases List.mem_append.1 he' with he' | he'
        · exact (h.new name e' he').imp_left (List.mem_append_left _)
        · exact .inl (List.mem_append_right _ he')

end Extends

/-- **Adding macros extends a table.**  The test may keep those of them only that are there already.
-/
theorem extends_addAll (hkeep : ∀ e ∈ es, keep e = true → t.has e = true) :
    Extends es keep t (t.addAll es).2 := by
  have hfold : ∀ (added : List (Entry σ)) (t' : Table σ), (∀ e ∈ added, e ∈ es) →
      Extends es keep t t' → Extends es keep t (added.foldl (fun t e => (t.register e).2) t') := by
    intro added
    induction added with
    | nil => exact fun _ _ h => h
    | cons e added ih =>
        intro t' hadded h
        have he : e ∈ es := hadded e (by simp)
        refine ih _ (fun e' he' => hadded e' (List.mem_cons_of_mem e he')) (h.register he ?_)
        exact fun hkept => h.has (hkeep e he hkept)
  rw [addAll_eq_foldl]
  exact hfold es t (fun _ h => h) (.refl es keep t)

/-! ### Built-in macros -/

/-- Added macros take the place of no built-in one: a callable that a built-in macro has under the
same name is in the table already. -/
def Spares (t : Table σ) (es : List (Entry σ)) : Prop :=
  ∀ e ∈ es, ∀ b ∈ builtins σ, e.name = b.name → e.callable.id = b.callable.id → t.has b = true

/-- A table that extends another one still does with the built-in macros, if these are spared. -/
theorem Extends.withBuiltins (h : Extends es keep t t') (hspares : t.Spares es) :
    Extends es keep t.withBuiltins t'.withBuiltins := by
  have hfold : ∀ (bs : List (Entry σ)) (t t' : Table σ), Extends es keep t t' →
      (∀ e ∈ es, ∀ b ∈ bs, e.name = b.name → e.callable.id = b.callable.id → t.has b = true) →
      Extends es keep (bs.foldl (fun t e => (t.register e).2) t)
        (bs.foldl (fun t e => (t.register e).2) t') := by
    intro bs
    induction bs with
    | nil => exact fun _ _ h _ => h
    | cons b bs ih =>
        intro t t' h hspares
        refine ih _ _ (h.register_both fun hthere => ?_) ?_
        · obtain ⟨e, he, hid⟩ := has_iff.1 hthere
          rcases h.new b.name e he with hold | ⟨hnew, hname⟩
          · exact has_iff.2 ⟨e, hold, hid⟩
          · exact hspares e hnew b (by simp) hname hid
        · intro e he b' hb' hname hid
          exact has_register (hspares e he b' (List.mem_cons_of_mem b hb') hname hid) b
  rw [Table.withBuiltins, Table.withBuiltins, addAll_eq_foldl, addAll_eq_foldl]
  exact hfold (builtins σ) t t' h hspares

end Table

end MacroForest
