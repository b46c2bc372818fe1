/-
**A table is the log of its registrations.**

A table keeps its macros in buckets, one for each name.  What a table answers can be told without
buckets: write down every macro when it is registered, and search what is written.  This module
proves the two equal, for any number of tables that are cloned from one another.

Three facts about the buckets carry the proof, and each registration keeps them: no two buckets have
the same name, none is empty, and the macros of a name are those of the log, in its order.  The
first two are what lets a table be asked for its names alone, to tell whether it is empty or has a
name, and for its macros sorted by name.

Main definitions:

* `MacroForest.Table.KeepsLog` — the buckets of a table, given its log;
* `MacroForest.Table.AnswersFrom` — **a table answers as a search of the log does**;
* `MacroForest.Volume`, `MacroForest.Shelf` — a table with its log, and some of them of which one is
  in use;
* `MacroForest.Shelf.Operation` — what can be done to the tables of a shelf.

Main results:

* `MacroForest.Volume.KeepsLog.register` — a registration keeps the log;
* `MacroForest.Table.KeepsLog.answersFrom` — what the buckets answer;
* `MacroForest.Shelf.tables_are_logs` — **every table of a shelf answers from its log**.
-/

import MacroForest.Proofs.Macro.Extension
import MacroForest.Proofs.Sorting
import Mathlib.Data.List.Induction

set_option relaxedAutoImplicit false
set_option autoImplicit false

namespace MacroForest

variable {σ : Type}

namespace Table

/-! ### Answers from a log -/

/-- The table answers as a search of the log does. -/
structure AnswersFrom (t : Table σ) (log : List (Entry σ)) : Prop where
  /-- A macro is refused if the log has one of the same name and the same callable. -/
  refuses : ∀ e, (t.register e).1 = false ↔
    ∃ old ∈ log, old.name = e.name ∧ old.callable.id = e.callable.id
  /-- A macro that is refused changes nothing. -/
  unchanged : ∀ e, (t.register e).1 = false → (t.register e).2 = t
  /-- The macros of a name that are global or in an open namespace. -/
  lookup : ∀ open_ name, t.lookup open_ name = log.filter fun e =>
    e.name = name ∧ (e.space = none ∨ ∃ space ∈ open_, e.space = some space)
  /-- The macros of a name in exactly one namespace. -/
  lookupIn : ∀ space name, t.lookupIn space name = log.filter fun e =>
    e.name = name ∧ e.space = some space
  size : t.size = log.length
  isEmpty : t.isEmpty = true ↔ log = []
  contains : ∀ name, t.contains name = true ↔ ∃ e ∈ log, e.name = name
  /-- All macros, sorted by name; those of one name stay in the order of the log. -/
  entries : t.entries = log.mergeSort fun a b => decide (a.name ≤ b.name)

/-! ### Buckets -/

/-- The buckets hold the macros of a log: there is one bucket for each name that the log has, with
the macros of that name in their order. -/
structure KeepsLog (t : Table σ) (log : List (Entry σ)) : Prop where
  differ : (t.buckets.map (·.name)).Nodup
  filled : ∀ b ∈ t.buckets, b.entries ≠ []
  named : ∀ name, t.named name = log.filter (·.name == name)
  size : t.size = log.length

theorem size_eq_length (buckets : List (Bucket σ)) :
    size ⟨buckets⟩ = (buckets.flatMap (·.entries)).length := by
  have hfold : ∀ n, buckets.foldl (fun n b => n + b.entries.length) n =
      n + (buckets.flatMap (·.entries)).length := by
    induction buckets with
    | nil => exact fun n => rfl
    | cons b buckets ih =>
        intro n
        rw [List.foldl_cons, ih, List.flatMap_cons, List.length_append]
        omega
  exact (hfold 0).trans (Nat.zero_add _)

section InsertInto

variable (e : Entry σ) (buckets : List (Bucket σ))

theorem mem_names_insertInto {name : String} :
    name ∈ (insertInto e buckets).map (·.name) ↔ name = e.name ∨ name ∈ buckets.map (·.name) := by
  induction buckets with
  | nil => simp [insertInto]
  | cons b buckets ih =>
      unfold insertInto
      split
      · rename_i hname
        simp [hname]
      · rw [List.map_cons, List.mem_cons, ih, List.map_cons, List.mem_cons]
        exact or_left_comm

theorem nodup_insertInto (h : (buckets.map (·.name)).Nodup) :
    ((insertInto e buckets).map (·.name)).Nodup := by
  induction buckets with
  | nil => simp [insertInto]
  | cons b buckets ih =>
      obtain ⟨hnew, hrest⟩ := List.nodup_cons.1 h
      unfold insertInto
      split
      · exact h
      · rename_i hname
        refine List.nodup_cons.2 ⟨fun hmem => ?_, ih hrest⟩
        rcases (mem_names_insertInto e buckets).1 hmem with heq | hmem
        · exact hname heq
        · exact hnew hmem

theorem filled_insertInto (h : ∀ b ∈ buckets, b.entries ≠ []) :
    ∀ b ∈ insertInto e buckets, b.entries ≠ [] := by
  induction buckets with
  | nil => simp [insertInto]
  | cons b buckets ih =>
      obtain ⟨hb, hrest⟩ := List.forall_mem_cons.1 h
      unfold insertInto
      split
      · exact List.forall_mem_cons.2 ⟨by simp, hrest⟩
      · exact List.forall_mem_cons.2 ⟨hb, ih hrest⟩

theorem size_insertInto : size ⟨insertInto e buckets⟩ = size ⟨buckets⟩ + 1 := by
  rw [size_eq_length, size_eq_length]
  induction buckets with
  | nil => rfl
  | cons b buckets ih =>
      unfold insertInto
      split
      · simp only [List.flatMap_cons, List.length_append, List.length_singleton]
        omega
      · rw [List.flatMap_cons, List.length_append, ih, List.flatMap_cons, List.length_append]
        omega

end InsertInto

/-- Where the names differ, the one bucket of a name has its macros. -/
theorem named_eq_flatMap {buckets : List (Bucket σ)} (h : (buckets.map (·.name)).Nodup)
    (name : String) :
    named ⟨buckets⟩ name = (buckets.filter (·.name == name)).flatMap (·.entries) := by
  induction buckets with
  | nil => rfl
  | cons b buckets ih =>
      obtain ⟨hnew, hrest⟩ := List.nodup_cons.1 h
      by_cases hname : b.name = name
      · have hnone : buckets.filter (·.name == name) = [] := by
          refine List.filter_eq_nil_iff.2 fun other hother heq => hnew ?_
          exact List.mem_map.2 ⟨other, hother, (eq_of_beq heq).trans hname.symm⟩
        rw [List.filter_cons_of_pos (by simpa using hname), hnone]
        simp [named, hname]
      · rw [List.filter_cons_of_neg (by simpa using hname), ← ih hrest]
        simp [named, hname]

/-- The macros of a name among those of some buckets. -/
theorem filter_flatMap_entries {buckets : List (Bucket σ)}
    (h : ∀ b ∈ buckets, ∀ e ∈ b.entries, e.name = b.name) (name : String) :
    (buckets.flatMap (·.entries)).filter (·.name == name) =
      (buckets.filter (·.name == name)).flatMap (·.entries) := by
  induction buckets with
  | nil => rfl
  | cons b buckets ih =>
      obtain ⟨hb, hrest⟩ := List.forall_mem_cons.1 h
      rw [List.flatMap_cons, List.filter_append, ih hrest]
      by_cases hname : b.name = name
      · have hall : b.entries.filter (·.name == name) = b.entries :=
          List.filter_eq_self.2 fun e he => by simpa using (hb e he).trans hname
        rw [hall, List.filter_cons_of_pos (by simpa using hname), List.flatMap_cons]
      · have hnone : b.entries.filter (·.name == name) = [] :=
          List.filter_eq_nil_iff.2 fun e he => by simpa [hb e he] using hname
        rw [hnone, List.filter_cons_of_neg (by simpa using hname), List.nil_append]

namespace KeepsLog

variable {t : Table σ} {log : List (Entry σ)}

theorem empty : KeepsLog (Table.empty : Table σ) [] :=
  ⟨List.nodup_nil, fun _ hb => absurd hb List.not_mem_nil, fun _ => rfl, rfl⟩

theorem has_iff (h : t.KeepsLog log) (e : Entry σ) :
    t.has e = true ↔ ∃ old ∈ log, old.name = e.name ∧ old.callable.id = e.callable.id := by
  rw [Table.has_iff, h.named]
  simp [and_assoc]

theorem mem_named_iff (h : t.KeepsLog log) {name : String} {e : Entry σ} :
    e ∈ t.named name ↔ ∃ b ∈ t.buckets, b.name = name ∧ e ∈ b.entries := by
  rw [named_eq_flatMap h.differ]
  simp [and_assoc]

theorem mem_log_of_mem (h : t.KeepsLog log) {b : Bucket σ} (hb : b ∈ t.buckets) {e : Entry σ}
    (he : e ∈ b.entries) : e ∈ log ∧ e.name = b.name := by
  have hnamed : e ∈ t.named b.name := h.mem_named_iff.2 ⟨b, hb, rfl, he⟩
  rw [h.named] at hnamed
  simpa using hnamed

theorem exists_bucket_iff (h : t.KeepsLog log) (name : String) :
    (∃ b ∈ t.buckets, b.name = name) ↔ ∃ e ∈ log, e.name = name := by
  constructor
  · rintro ⟨b, hb, rfl⟩
    -- a bucket is never empty, and what it has is in the log
    obtain ⟨e, he⟩ := List.exists_mem_of_ne_nil _ (h.filled b hb)
    exact ⟨e, h.mem_log_of_mem hb he⟩
  · rintro ⟨e, he, rfl⟩
    have hnamed : e ∈ t.named e.name := by
      rw [h.named]
      simpa using he
    obtain ⟨b, hb, hname, -⟩ := h.mem_named_iff.1 hnamed
    exact ⟨b, hb, hname⟩

/-- **The macros sorted by name**: the buckets are sorted, and each is a class of the log. -/
theorem entries_eq (h : t.KeepsLog log) :
    t.entries = log.mergeSort fun a b => decide (a.name ≤ b.name) := by
  have hnames : ∀ b ∈ t.buckets, ∀ e ∈ b.entries, e.name = b.name :=
    fun b hb e he => (h.mem_log_of_mem hb he).2
  have hsorted := pairwise_mergeSort_key Bucket.name t.buckets
  have hentries : t.entries.Pairwise fun e e' => e.name ≤ e'.name := by
    refine List.pairwise_flatMap.2 ⟨fun b hb => ?_, hsorted.imp_of_mem ?_⟩
    · refine List.pairwise_of_forall_mem_list fun e he e' he' => Std.le_of_eq ?_
      have hb := List.mem_mergeSort.1 hb
      rw [hnames b hb e he, hnames b hb e' he']
    · intro b b' hb hb' hle e he e' he'
      rw [hnames b (List.mem_mergeSort.1 hb) e he, hnames b' (List.mem_mergeSort.1 hb') e' he']
      exact hle
  refine eq_mergeSort_of_classes hentries fun name => ?_
  rw [← h.named, named_eq_flatMap h.differ, ← filter_mergeSort_key t.buckets name, Table.entries]
  generalize hbs : (t.buckets.mergeSort fun a b => decide (a.name ≤ b.name)) = bs
  have hin : ∀ b ∈ bs, ∀ e ∈ b.entries, e.name = b.name := by
    intro b hb
    rw [← hbs] at hb
    exact hnames b (List.mem_mergeSort.1 hb)
  exact filter_flatMap_entries hin name

theorem isEmpty_iff (h : t.KeepsLog log) : t.isEmpty = true ↔ log = [] := by
  rw [Table.isEmpty, List.isEmpty_iff, List.eq_nil_iff_forall_not_mem,
    List.eq_nil_iff_forall_not_mem]
  constructor
  · intro hnone e he
    obtain ⟨b, hb, -⟩ := (h.exists_bucket_iff e.name).2 ⟨e, he, rfl⟩
    exact hnone b hb
  · intro hnone b hb
    obtain ⟨e, he, -⟩ := (h.exists_bucket_iff b.name).1 ⟨b, hb, rfl⟩
    exact hnone e he

theorem register_fst (t : Table σ) (e : Entry σ) : (t.register e).1 = !t.has e := by
  unfold register has
  split <;> simp_all

/-- **What the buckets answer is what a search of the log finds.** -/
theorem answersFrom (h : t.KeepsLog log) : t.AnswersFrom log where
  refuses e := by rw [register_fst, Bool.not_eq_false', h.has_iff]
  unchanged e hrefused := by
    rw [register_fst, Bool.not_eq_false'] at hrefused
    exact register_of_has hrefused
  lookup open_ name := by
    rw [Table.lookup, h.named, List.filter_filter]
    refine List.filter_congr fun e _ => ?_
    rw [Bool.eq_iff_iff]
    cases hspace : e.space <;> simp [Entry.visible, hspace, and_comm]
  lookupIn space name := by
    rw [Table.lookupIn, h.named, List.filter_filter]
    refine List.filter_congr fun e _ => ?_
    rw [Bool.eq_iff_iff]
    simp [and_comm]
  size := h.size
  isEmpty := h.isEmpty_iff
  contains name := by
    rw [Table.contains, List.any_eq_true, ← h.exists_bucket_iff]
    simp
  entries := h.entries_eq

end KeepsLog

end Table

/-! ### Tables with their logs -/

/-- A table, and the log of what has been registered in it. -/
structure Volume (σ : Type) where
  table : Table σ
  log : List (Entry σ)

namespace Volume

/-- Registers a macro; the log has it if the table says that it was new. -/
def register (v : Volume σ) (e : Entry σ) : Volume σ :=
  ⟨(v.table.register e).2, if (v.table.register e).1 then v.log ++ [e] else v.log⟩

end Volume

/-- Of some macros that are registered in order, those that are new when their turn comes. -/
def Table.accepted (t : Table σ) : List (Entry σ) → List (Entry σ)
  | [] => []
  | e :: es =>
    (if (t.register e).1 then [e] else []) ++ accepted (t.register e).2 es

namespace Volume

/-- Registers some macros. -/
def addAll (v : Volume σ) (es : List (Entry σ)) : Volume σ :=
  ⟨(v.table.addAll es).2, v.log ++ v.table.accepted es⟩

/-- Registers the built-in macros. -/
def withBuiltins (v : Volume σ) : Volume σ :=
  ⟨v.table.withBuiltins, v.log ++ v.table.accepted (builtins σ)⟩

/-- To register some macros is to register one after the other. -/
theorem addAll_eq_foldl (v : Volume σ) (es : List (Entry σ)) :
    v.addAll es = es.foldl register v := by
  have htable : ∀ v : Volume σ, (es.foldl register v).table =
      es.foldl (fun t e => (t.register e).2) v.table := by
    induction es with
    | nil => exact fun v => rfl
    | cons e es ih => exact fun v => ih (v.register e)
  have hlog : ∀ v : Volume σ, (es.foldl register v).log = v.log ++ v.table.accepted es := by
    clear htable
    induction es with
    | nil => exact fun v => (List.append_nil v.log).symm
    | cons e es ih =>
        intro v
        rw [List.foldl_cons, ih, Table.accepted, ← List.append_assoc]
        simp only [register]
        split <;> simp
  rw [addAll, Table.addAll_eq_foldl, ← htable v, ← hlog v]

/-- The table keeps the log. -/
def KeepsLog (v : Volume σ) : Prop := v.table.KeepsLog v.log

/-- **A registration keeps the log.** -/
theorem KeepsLog.register {v : Volume σ} (h : v.KeepsLog) (e : Entry σ) :
    (v.register e).KeepsLog := by
  unfold KeepsLog Volume.register
  rw [Table.KeepsLog.register_fst]
  cases hhas : v.table.has e with
  | true =>
      rw [Table.register_of_has hhas]
      exact h
  | false =>
      have hnew : (v.table.register e).2 = ⟨Table.insertInto e v.table.buckets⟩ :=
        congrArg Prod.snd (if_neg (Bool.eq_false_iff.1 hhas))
      rw [hnew]
      refine ⟨Table.nodup_insertInto e _ h.differ, Table.filled_insertInto e _ h.filled, ?_, ?_⟩
      · intro name
        rw [Table.named_insertInto]
        have := h.named name
        simp only [Bool.not_false, if_true, List.filter_append]
        rw [← this]
        by_cases hname : e.name = name <;> simp [hname]
      · rw [Table.size_insertInto]
        have := h.size
        simp [← this]

theorem KeepsLog.addAll {v : Volume σ} (h : v.KeepsLog) (es : List (Entry σ)) :
    (v.addAll es).KeepsLog := by
  rw [addAll_eq_foldl]
  induction es generalizing v with
  | nil => exact h
  | cons e es ih => exact ih (h.register e)

end Volume

/-! ### Shelves -/

/-- Some tables, of which one is in use. -/
structure Shelf (σ : Type) where
  /-- The tables with their logs. -/
  volumes : List (Volume σ)
  /-- The index of the one in use. -/
  current : Nat

namespace Shelf

/-- What can be done. -/
inductive Operation (σ : Type) where
  /-- Registers a macro in the table in use. -/
  | register (e : Entry σ)
  /-- Registers some macros in it. -/
  | addAll (es : List (Entry σ))
  /-- Registers the built-in macros in it. -/
  | withBuiltins
  /-- Puts a clone of it behind all tables. -/
  | clone
  /-- Makes another table the one in use, the last one if there are not as many. -/
  | switch (index : Nat)

/-- One empty table. -/
def initial : Shelf σ := ⟨[⟨.empty, []⟩], 0⟩

/-- One operation. -/
def perform (s : Shelf σ) : Operation σ → Shelf σ
  | .register e => { s with volumes := s.volumes.modify s.current (·.register e) }
  | .addAll es => { s with volumes := s.volumes.modify s.current (·.addAll es) }
  | .withBuiltins => { s with volumes := s.volumes.modify s.current (·.withBuiltins) }
  | .clone => { s with volumes := s.volumes ++ s.volumes[s.current]?.toList }
  | .switch index => { s with current := min index (s.volumes.length - 1) }

/-- Some operations, from one empty table. -/
def run (ops : List (Operation σ)) : Shelf σ := ops.foldl perform initial

theorem run_snoc (ops : List (Operation σ)) (op : Operation σ) :
    run (ops ++ [op]) = (run ops).perform op := by
  simp only [run, List.foldl_append, List.foldl_cons, List.foldl_nil]

/-- Every table keeps its log, and one of them is in use. -/
structure Sound (s : Shelf σ) : Prop where
  keeps : ∀ v ∈ s.volumes, v.KeepsLog
  current_lt : s.current < s.volumes.length

theorem Sound.modify {s : Shelf σ} (h : s.Sound) {f : Volume σ → Volume σ}
    (hf : ∀ v, v.KeepsLog → (f v).KeepsLog) :
    Sound { s with volumes := s.volumes.modify s.current f } where
  keeps v hv := by
    obtain ⟨i, hi, rfl⟩ := List.mem_iff_getElem.1 hv
    rw [List.getElem_modify]
    split
    · exact hf _ (h.keeps _ (List.getElem_mem _))
    · exact h.keeps _ (List.getElem_mem _)
  current_lt := by
    rw [List.length_modify]
    exact h.current_lt

/-- What one operation keeps. -/
theorem Sound.perform {s : Shelf σ} (h : s.Sound) (op : Operation σ) : (s.perform op).Sound := by
  cases op with
  | register e => exact h.modify fun v hv => hv.register e
  | addAll es => exact h.modify fun v hv => hv.addAll es
  | withBuiltins => exact h.modify fun v hv => hv.addAll (builtins σ)
  | clone =>
      refine ⟨fun v hv => ?_, ?_⟩
      · rcases List.mem_append.1 hv with hv | hv
        · exact h.keeps v hv
        · exact h.keeps v (List.mem_of_getElem? (Option.mem_toList.1 hv))
      · have := h.current_lt
        simp only [Shelf.perform, List.length_append]
        omega
  | switch index =>
      refine ⟨h.keeps, ?_⟩
      have := h.current_lt
      simp only [Shelf.perform]
      omega

theorem sound_run (ops : List (Operation σ)) : (run ops).Sound := by
  induction ops using List.reverseRecOn with
  | nil =>
      refine ⟨fun v hv => ?_, Nat.zero_lt_one⟩
      rw [List.mem_singleton.1 hv]
      exact Table.KeepsLog.empty
  | append_singleton ops op ih =>
      rw [run_snoc]
      exact ih.perform op

/-- An operation changes no table but the one in use. -/
theorem perform_of_ne (s : Shelf σ) (op : Operation σ) {i : Nat} (hi : i < s.volumes.length)
    (hne : i ≠ s.current) : (s.perform op).volumes[i]? = s.volumes[i]? := by
  cases op with
  | register e => exact List.getElem?_modify_ne _ _ hne.symm
  | addAll es => exact List.getElem?_modify_ne _ _ hne.symm
  | withBuiltins => exact List.getElem?_modify_ne _ _ hne.symm
  | clone => exact List.getElem?_append_left hi
  | switch index => rfl

/-- **Every table is the log of its registrations**, whatever is done to the tables of a shelf: it
answers from its log, and a registration that is not refused appends to the log.  An operation
leaves all tables alone but the one in use, and a clone begins with the table and the log of its
source.  So it is only the log of each name that lookups depend on. -/
theorem tables_are_logs (ops : List (Operation σ)) :
    (∃ v, (run ops).volumes[(run ops).current]? = some v ∧
      (run (ops ++ [.clone])).volumes = (run ops).volumes ++ [v]) ∧
    (∀ v ∈ (run ops).volumes, v.table.AnswersFrom v.log ∧
      ∀ e, (v.table.register e).1 = true →
        (v.table.register e).2.AnswersFrom (v.log ++ [e]) ∧ (v.register e).log = v.log ++ [e]) ∧
    (∀ op i, i < (run ops).volumes.length → i ≠ (run ops).current →
      (run (ops ++ [op])).volumes[i]? = (run ops).volumes[i]?) ∧
    ∀ others : List (Operation σ), ∀ v ∈ (run ops).volumes, ∀ w ∈ (run others).volumes,
      (∀ name, v.log.filter (·.name == name) = w.log.filter (·.name == name)) →
      ∀ name, (∀ open_, v.table.lookup open_ name = w.table.lookup open_ name) ∧
        ∀ space, v.table.lookupIn space name = w.table.lookupIn space name := by
  have hsound := sound_run ops
  refine ⟨⟨_, List.getElem?_eq_getElem hsound.current_lt, ?_⟩, fun v hv => ⟨?_, fun e hnew => ?_⟩,
    fun op i hi hne => ?_, fun others v hv w hw hlogs name => ?_⟩
  · rw [run_snoc, perform, List.getElem?_eq_getElem hsound.current_lt]
    rfl
  · exact (hsound.keeps v hv).answersFrom
  · have hkeeps := (hsound.keeps v hv).register e
    unfold Volume.KeepsLog Volume.register at hkeeps
    rw [if_pos hnew] at hkeeps
    exact ⟨hkeeps.answersFrom, if_pos hnew⟩
  · rw [run_snoc]
    exact (run ops).perform_of_ne op hi hne
  · have hnamed : v.table.named name = w.table.named name := by
      rw [(hsound.keeps v hv).named, ((sound_run others).keeps w hw).named, hlogs]
    simp only [Table.lookup, Table.lookupIn, hnamed, implies_true, and_self]

/-- A macro that declines. -/
def declining (name : String) (index : Nat) : Entry Unit :=
  { space := none, name, mode := {}, givenLabel := none, origin := none,
    callable := ⟨.custom index, fun shared _ scopes => .quiet shared scopes .declined⟩ }

/-- Two macros of different names, registered in either order and one of them a second time. -/
theorem tables_are_logs_swapped :
    let a := declining "a" 0
    let b := declining "b" 1
    (run [.register a, .clone, .register b, .register a]).volumes.map (·.log) = [[a, b], [a]] ∧
      (run [.addAll [b, b, a]]).volumes.map (·.log) = [[b, a]] ∧
      ∀ name, ∀ v ∈ (run [.register a, .clone, .register b, .register a]).volumes[0]?,
        ∀ w ∈ (run [.addAll [b, b, a]]).volumes[0]?,
        (∀ open_, v.table.lookup open_ name = w.table.lookup open_ name) ∧
          ∀ space, v.table.lookupIn space name = w.table.lookupIn space name := by
  intro a b
  refine ⟨rfl, rfl, fun name v hv w hw => ?_⟩
  refine (tables_are_logs [.register a, .clone, .register b, .register a]).2.2.2
    [.addAll [b, b, a]] v (List.mem_of_getElem? hv) w (List.mem_of_getElem? hw) ?_ name
  obtain rfl := Option.some.inj hv
  obtain rfl := Option.some.inj hw
  intro other
  by_cases ha : other = "a"
  · subst ha
    rfl
  · have hlog : ∀ es : List (Entry Unit), es.filter (·.name == other) =
        (es.filter (·.name != "a")).filter (·.name == other) := by
      intro es
      rw [List.filter_filter]
      refine List.filter_congr fun e _ => ?_
      by_cases he : e.name = other <;> simp [he, ha]
    rw [hlog, hlog (Volume.log _)]
    rfl

end Shelf

end MacroForest
