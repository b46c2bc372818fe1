/-
**Scopes: which namespaces are open.**

A scope stack says, for the place in a forest that is being expanded, which namespaces are open.
Entering a block pushes a frame and leaving it pops the frame.  A fresh frame shows the namespaces
of the frame below; it gets a set of its own when something is opened or closed in it.

Main definitions:

* `MacroForest.NameSet` — a set of names;
* `MacroForest.ScopeStack` — frames, the innermost first;
* `MacroForest.ScopeStack.current` — **the open namespaces**: the set of the innermost frame that
  has one.
-/

set_option relaxedAutoImplicit false
set_option autoImplicit false

namespace MacroForest

/-! ### Sets of names -/

/-- A set of names, as a list in which the order and repetitions do not matter. -/
abbrev NameSet := List String

namespace NameSet

/-- Adds a name. -/
def add (s : NameSet) (name : String) : NameSet := if s.contains name then s else name :: s

/-- Removes a name. -/
def remove (s : NameSet) (name : String) : NameSet := s.filter (· != name)

/-- The set of the names of a list. -/
def ofList (names : List String) : NameSet := names.foldl add []

/-- The names in increasing order of their characters. -/
def sorted (s : NameSet) : List String := s.mergeSort fun a b => decide (a ≤ b)

@[simp] theorem mem_add {s : NameSet} {a b : String} : a ∈ s.add b ↔ a = b ∨ a ∈ s := by
  unfold add
  split
  · rename_i h
    constructor
    · exact .inr
    · rintro (rfl | h')
      · simpa using h
      · exact h'
  · simp

@[simp] theorem mem_remove {s : NameSet} {a b : String} : a ∈ s.remove b ↔ a ∈ s ∧ a ≠ b := by
  simp [remove]

end NameSet

/-! ### Stacks of frames -/

/-- The frames of the blocks around a place, the innermost first and the root last.  A frame
without a set of its own shows that of the next frame. -/
structure ScopeStack where
  /-- The frames, innermost first. -/
  frames : List (Option NameSet)

namespace ScopeStack

/-- A root frame in which some namespaces are open. -/
def ofOpen (open_ : NameSet) : ScopeStack := ⟨[some open_]⟩

/-- The number of frames. -/
def depth (s : ScopeStack) : Nat := s.frames.length

/-- Enters a block. -/
def push (s : ScopeStack) : ScopeStack := ⟨none :: s.frames⟩

/-- Leaves a block.  The root frame stays. -/
def pop (s : ScopeStack) : ScopeStack :=
  match s.frames with
  | _ :: outer :: frames => ⟨outer :: frames⟩
  | _ => s

/-- Leaves `n` blocks. -/
def popMany (s : ScopeStack) : Nat → ScopeStack
  | 0 => s
  | n + 1 => s.pop.popMany n

/-- The namespaces that are open: the set of the innermost frame with a set of its own. -/
def current (s : ScopeStack) : NameSet := (s.frames.findSome? id).getD []

/-- Whether a namespace is open. -/
def isOpen (s : ScopeStack) (name : String) : Bool := s.current.contains name

/-- Whether the innermost frame has a set of its own. -/
def ownsTop (s : ScopeStack) : Bool :=
  match s.frames with
  | some _ :: _ => true
  | _ => false

/-- Gives the innermost frame the set `f` of the open namespaces. -/
def updateTop (s : ScopeStack) (f : NameSet → NameSet) : ScopeStack :=
  ⟨some (f s.current) :: s.frames.drop 1⟩

/-- Opens a namespace in the innermost frame. -/
def openName (s : ScopeStack) (name : String) : ScopeStack := s.updateTop (·.add name)

/-- Closes a namespace in the innermost frame, and tells whether it was open.  The frame gets a set
of its own in either case. -/
def closeName (s : ScopeStack) (name : String) : Bool × ScopeStack :=
  (s.isOpen name, s.updateTop (·.remove name))

end ScopeStack

end MacroForest
