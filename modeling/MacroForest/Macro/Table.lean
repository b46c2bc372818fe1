/-
**The macro table.**

A table keeps the registered macros by name, those of one name in the order of registration.  A
callable is registered at most once under one name.

Main definitions:

* `MacroForest.Table` — the macros of each name;
* `MacroForest.Table.register` — **registration**, which refuses a callable that the name has;
* `MacroForest.Table.lookup`, `MacroForest.Table.lookupIn` — the macros that a head can mean.
-/

import MacroForest.Macro.Entry

set_option relaxedAutoImplicit false
set_option autoImplicit false

namespace MacroForest

/-- The macros of one name, in the order of registration. -/
structure Bucket (σ : Type) where
  /-- The name. -/
  name : String
  /-- Its macros. -/
  entries : List (Entry σ)

/-- The registered macros by name, in the order in which the names were first used. -/
structure Table (σ : Type) where
  /-- One bucket for each name. -/
  buckets : List (Bucket σ)

namespace Table

variable {σ : Type}

/-- No macros. -/
def empty : Table σ := ⟨[]⟩

/-- The macros of a name. -/
def named (t : Table σ) (name : String) : List (Entry σ) :=
  match t.buckets.find? (·.name == name) with
  | some bucket => bucket.entries
  | none => []

/-- Puts an entry behind those of its name. -/
def insertInto (e : Entry σ) : List (Bucket σ) → List (Bucket σ)
  | [] => [⟨e.name, [e]⟩]
  | bucket :: buckets =>
    if bucket.name = e.name then { bucket with entries := bucket.entries ++ [e] } :: buckets
    else bucket :: insertInto e buckets

/-- Registers a macro, unless its name has the same callable already.  Tells whether it did. -/
def register (t : Table σ) (e : Entry σ) : Bool × Table σ :=
  if (t.named e.name).any (·.callable.id = e.callable.id) then (false, t)
  else (true, ⟨insertInto e t.buckets⟩)

/-- Registers some macros in order.  Tells whether any of them was new. -/
def addAll (t : Table σ) (es : List (Entry σ)) : Bool × Table σ :=
  es.foldl (fun (any, t) e => let (new, t) := t.register e; (any || new, t)) (false, t)

/-- The macros of a name that are global or in an open namespace. -/
def lookup (t : Table σ) (open_ : NameSet) (name : String) : List (Entry σ) :=
  (t.named name).filter (·.visible open_)

/-- The macros of a name in exactly one namespace. -/
def lookupIn (t : Table σ) (space name : String) : List (Entry σ) :=
  (t.named name).filter (·.space == some space)

/-- Whether a name has macros. -/
def contains (t : Table σ) (name : String) : Bool := t.buckets.any (·.name == name)

/-- The number of macros. -/
def size (t : Table σ) : Nat := t.buckets.foldl (fun n bucket => n + bucket.entries.length) 0

/-- Whether there are no macros. -/
def isEmpty (t : Table σ) : Bool := t.buckets.isEmpty

/-- All macros, in increasing order of names. -/
def entries (t : Table σ) : List (Entry σ) :=
  (t.buckets.mergeSort fun a b => decide (a.name ≤ b.name)).flatMap (·.entries)

end Table

end MacroForest
