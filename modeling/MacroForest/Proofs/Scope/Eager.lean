/-
**Frames that inherit, and frames that copy.**

A fresh frame of a scope stack has no set of its own.  What is open in it is looked up, whenever
somebody asks, in the nearest frame below that has one.  The obvious other way is to copy the set of
the frame below when a frame is pushed, and to look nowhere but at the top.  Here it is shown that
nobody can tell the two apart.

The reason is that only the innermost frame is ever written.  So while a frame without a set is on
the stack, the frame through which it is read does not change, and it goes on to show the set that a
copy would have been.  `MacroForest.ScopeStack.Shows` says this of all frames at once, and every
operation keeps it.

Whether the innermost frame has a set of its own can be seen, too.  That is settled by the
operations so far: the root has one, and any other frame has one once something has been opened or
closed in it.  Frames have no names, so a frame is told by its level: an operation found it
innermost, and the stack has not been lower since.

Main definitions:

* `MacroForest.ScopeStack.Operation` — what can be done to a stack, and `level`, how many frames
  are left by some operations;
* `MacroForest.EagerStack` — the stack that copies;
* `MacroForest.ScopeStack.Shows` — every frame shows the set that a copy would be;
* `MacroForest.ScopeStack.Written` — something has been opened or closed in the frame of a level.

Main results:

* `MacroForest.ScopeStack.Shows.perform` — **an operation does the same to both**;
* `MacroForest.ScopeStack.written_snoc` — what one more operation writes;
* `MacroForest.ScopeStack.agrees_with_eager` — **the two stacks agree after all operations**.
-/

import MacroForest.Scope
import Mathlib.Data.Finset.Basic
import Mathlib.Data.List.Induction

set_option relaxedAutoImplicit false
set_option autoImplicit false

namespace MacroForest

namespace ScopeStack

/-! ### Operations -/

/-- What can be done to a stack. -/
inductive Operation where
  | push
  | pop
  | openName (name : String)
  | closeName (name : String)
deriving DecidableEq

namespace Operation

/-- Whether an operation is about the set of the innermost frame. -/
def writes : Operation → Bool
  | .openName _ => true
  | .closeName _ => true
  | _ => false

/-- The answers to some operations, one after the other, and the stack that they leave. -/
def runAll {S : Type} (perform : S → Operation → Option Bool × S) (s : S) (ops : List Operation) :
    List (Option Bool) × S :=
  ops.foldl (fun run op => (run.1 ++ [(perform run.2 op).1], (perform run.2 op).2)) ([], s)

theorem runAll_snoc {S : Type} (perform : S → Operation → Option Bool × S) (s : S)
    (ops : List Operation) (op : Operation) :
    runAll perform s (ops ++ [op]) =
      ((runAll perform s ops).1 ++ [(perform (runAll perform s ops).2 op).1],
        (perform (runAll perform s ops).2 op).2) := by
  simp only [runAll, List.foldl_append, List.foldl_cons, List.foldl_nil]

/-- The number of frames after one operation. -/
def levelAfter (level : Nat) : Operation → Nat
  | .push => level + 1
  | .pop => if 1 < level then level - 1 else level
  | .openName _ => level
  | .closeName _ => level

/-- The number of frames after some operations on a root frame. -/
def level (ops : List Operation) : Nat := ops.foldl levelAfter 1

theorem level_snoc (ops : List Operation) (op : Operation) :
    level (ops ++ [op]) = levelAfter (level ops) op := by
  simp only [level, List.foldl_append, List.foldl_cons, List.foldl_nil]

end Operation

/-- One operation, and its answer: whether the namespace that is closed was open. -/
def perform (s : ScopeStack) : Operation → Option Bool × ScopeStack
  | .push => (none, s.push)
  | .pop => (none, s.pop)
  | .openName name => (none, s.openName name)
  | .closeName name => (some (s.closeName name).1, (s.closeName name).2)

end ScopeStack

/-! ### The stack that copies -/

/-- A stack in which every frame has a set of its own. -/
structure EagerStack where
  /-- The set of the innermost frame. -/
  top : Finset String
  /-- The sets of the frames below, the next one first. -/
  below : List (Finset String)

namespace EagerStack

/-- The number of frames. -/
def depth (s : EagerStack) : Nat := s.below.length + 1

/-- Enters a block, with a copy of the innermost set. -/
def push (s : EagerStack) : EagerStack := ⟨s.top, s.top :: s.below⟩

/-- Leaves a block.  The last set stays. -/
def pop (s : EagerStack) : EagerStack :=
  match s.below with
  | [] => s
  | outer :: below => ⟨outer, below⟩

/-- One operation, and its answer. -/
def perform (s : EagerStack) : ScopeStack.Operation → Option Bool × EagerStack
  | .push => (none, s.push)
  | .pop => (none, s.pop)
  | .openName name => (none, { s with top := insert name s.top })
  | .closeName name => (some (decide (name ∈ s.top)), { s with top := s.top.erase name })

end EagerStack

namespace NameSet

theorem toFinset_add (s : NameSet) (name : String) :
    (s.add name).toFinset = insert name s.toFinset := by
  ext other
  simp

theorem toFinset_remove (s : NameSet) (name : String) :
    (s.remove name).toFinset = s.toFinset.erase name := by
  ext other
  simp [and_comm]

end NameSet

namespace ScopeStack

/-! ### What the frames show -/

/-- The root has a set of its own, and every other frame has one or shows that of the next frame. -/
inductive Shows : List (Option NameSet) → EagerStack → Prop
  | root (names : NameSet) : Shows [some names] ⟨names.toFinset, []⟩
  | owns {frames : List (Option NameSet)} {e : EagerStack} (names : NameSet) (h : Shows frames e) :
      Shows (some names :: frames) ⟨names.toFinset, e.top :: e.below⟩
  | inherits {frames : List (Option NameSet)} {e : EagerStack} (h : Shows frames e) :
      Shows (none :: frames) e.push

namespace Shows

variable {frames : List (Option NameSet)} {e : EagerStack}

theorem depth_eq (h : Shows frames e) : depth ⟨frames⟩ = e.depth := by
  induction h with
  | root names => rfl
  | owns names _ ih => exact congrArg (· + 1) ih
  | inherits _ ih => exact congrArg (· + 1) ih

/-- The search for a set ends at the root at the latest, and finds what a copy would be. -/
theorem exists_found (h : Shows frames e) :
    ∃ names, frames.findSome? id = some names ∧ names.toFinset = e.top := by
  induction h with
  | root names => exact ⟨names, rfl, rfl⟩
  | owns names _ _ => exact ⟨names, rfl, rfl⟩
  | inherits _ ih => exact ih

theorem current_eq (h : Shows frames e) : (current ⟨frames⟩).toFinset = e.top := by
  obtain ⟨names, hfound, htop⟩ := h.exists_found
  rw [current, hfound]
  exact htop

theorem isOpen_eq (h : Shows frames e) (name : String) :
    isOpen ⟨frames⟩ name = decide (name ∈ e.top) := by
  rw [← h.current_eq, isOpen, List.contains_eq_mem]
  simp

theorem root_owned (h : Shows frames e) : ∃ names, frames.getLast? = some (some names) := by
  induction h with
  | root names => exact ⟨names, rfl⟩
  | owns names _ ih | inherits _ ih =>
      obtain ⟨root, hroot⟩ := ih
      exact ⟨root, by rw [List.getLast?_cons, hroot]; rfl⟩

/-- A write gives the innermost frame a set, and the frames below show what they showed. -/
theorem updateTop (h : Shows frames e) (f : NameSet → NameSet) :
    Shows (ScopeStack.updateTop ⟨frames⟩ f).frames ⟨(f (current ⟨frames⟩)).toFinset, e.below⟩ := by
  cases h with
  | root names => exact .root _
  | owns names hbelow => exact .owns _ hbelow
  | inherits hbelow => exact .owns _ hbelow

theorem pop (h : Shows frames e) : Shows (ScopeStack.pop ⟨frames⟩).frames e.pop := by
  cases h with
  | root names => exact .root names
  | owns names hbelow | inherits hbelow =>
      cases hbelow with
      | root outer => exact .root outer
      | owns outer hrest => exact .owns outer hrest
      | inherits hrest => exact .inherits hrest

/-- **An operation does the same to both stacks**, and has the same answer. -/
theorem perform {s : ScopeStack} (h : Shows s.frames e) (op : Operation) :
    (s.perform op).1 = (e.perform op).1 ∧ Shows (s.perform op).2.frames (e.perform op).2 := by
  cases op with
  | push => exact ⟨rfl, .inherits h⟩
  | pop => exact ⟨rfl, h.pop⟩
  | openName name =>
      have hwrite := h.updateTop (·.add name)
      rw [NameSet.toFinset_add, h.current_eq] at hwrite
      exact ⟨rfl, hwrite⟩
  | closeName name =>
      have hwrite := h.updateTop (·.remove name)
      rw [NameSet.toFinset_remove, h.current_eq] at hwrite
      exact ⟨congrArg some (h.isOpen_eq name), hwrite⟩

/-- All operations have the same answers. -/
theorem runAll {s : ScopeStack} (h : Shows s.frames e) (ops : List Operation) :
    (Operation.runAll ScopeStack.perform s ops).1 = (Operation.runAll EagerStack.perform e ops).1 ∧
      Shows (Operation.runAll ScopeStack.perform s ops).2.frames
        (Operation.runAll EagerStack.perform e ops).2 := by
  induction ops using List.reverseRecOn with
  | nil => exact ⟨rfl, h⟩
  | append_singleton ops op ih =>
      obtain ⟨hanswers, hshows⟩ := ih
      obtain ⟨hanswer, hnext⟩ := hshows.perform op
      rw [Operation.runAll_snoc, Operation.runAll_snoc, hanswers, hanswer]
      exact ⟨rfl, hnext⟩

end Shows

/-! ### Frames that have been written -/

open Operation (level level_snoc levelAfter)

/-- Something has been opened or closed in the frame of a level: an operation found the frame
innermost, and after it the stack has not been lower, so the frame is still there. -/
def Written (k : Nat) (ops : List Operation) : Prop :=
  ∃ before op after, ops = before ++ op :: after ∧ op.writes = true ∧ level before = k ∧
    ∀ part, part <+: after → k ≤ level (before ++ op :: part)

theorem Written.le_level {k : Nat} {ops : List Operation} (h : Written k ops) : k ≤ level ops := by
  obtain ⟨before, op, after, rfl, -, -, hstays⟩ := h
  exact hstays after (List.prefix_refl after)

/-- One more operation writes the innermost frame or none, and a frame that was written stays so for
as long as it is there. -/
theorem written_snoc {k : Nat} {ops : List Operation} {op : Operation} :
    Written k (ops ++ [op]) ↔
      (Written k ops ∧ k ≤ level (ops ++ [op])) ∨ (op.writes = true ∧ level ops = k) := by
  constructor
  · intro h
    have hle := h.le_level
    obtain ⟨before, write, after, hops, hwrites, hlevel, hstays⟩ := h
    induction after using List.reverseRecOn with
    | nil =>
        obtain ⟨rfl, hlast⟩ := List.append_inj' hops rfl
        obtain rfl := List.head_eq_of_cons_eq hlast
        exact .inr ⟨hwrites, hlevel⟩
    | append_singleton after last _ =>
        rw [← List.cons_append, ← List.append_assoc] at hops
        obtain ⟨rfl, -⟩ := List.append_inj' hops rfl
        refine .inl ⟨⟨before, write, after, rfl, hwrites, hlevel, ?_⟩, hle⟩
        intro part hpart
        exact hstays part (hpart.trans (List.prefix_append after [last]))
  · rintro (⟨⟨before, write, after, rfl, hwrites, hlevel, hstays⟩, hle⟩ | ⟨hwrites, hlevel⟩)
    · refine ⟨before, write, after ++ [op], by simp, hwrites, hlevel, ?_⟩
      intro part hpart
      rcases List.prefix_concat_iff.1 hpart with rfl | hpart
      · simpa using hle
      · exact hstays part hpart
    · refine ⟨ops, op, [], rfl, hwrites, hlevel, ?_⟩
      intro part hpart
      obtain rfl := List.prefix_nil.1 hpart
      cases op with
      | push | pop => simp [Operation.writes] at hwrites
      | openName name | closeName name =>
          rw [level_snoc]
          exact Nat.le_of_eq hlevel.symm

/-- What the operations so far tell of the frames: how many there are, and that those with a set of
their own are the root and the ones that have been written. -/
def Accords (s : ScopeStack) (ops : List Operation) : Prop :=
  s.depth = level ops ∧
    ∀ i frame, s.frames[i]? = some frame →
      (frame.isSome = true ↔ s.depth - i = 1 ∨ Written (s.depth - i) ops)

namespace Accords

variable {s : ScopeStack} {ops : List Operation}

theorem start (preOpened : NameSet) : (ofOpen preOpened).Accords [] := by
  refine ⟨rfl, fun i frame hframe => ?_⟩
  cases i with
  | zero =>
      obtain rfl : some preOpened = frame := by simpa [ofOpen] using hframe
      exact ⟨fun _ => .inl rfl, fun _ => rfl⟩
  | succ i => simp [ofOpen] at hframe

/-- A frame that stays where it is has been written if it had been, unless it is written now. -/
theorem written_iff (h : s.Accords ops) {op : Operation} {k : Nat} (hk : k ≤ level (ops ++ [op]))
    (hother : op.writes = true → k ≠ s.depth) :
    Written k (ops ++ [op]) ↔ Written k ops := by
  rw [written_snoc]
  constructor
  · rintro (⟨hwritten, -⟩ | ⟨hwrites, hlevel⟩)
    · exact hwritten
    · exact absurd (hlevel.symm.trans h.1.symm) (hother hwrites)
  · exact fun hwritten => .inl ⟨hwritten, hk⟩

theorem push (h : s.Accords ops) (hne : 0 < s.depth) : s.push.Accords (ops ++ [.push]) := by
  have hdepth : s.push.depth = s.depth + 1 := rfl
  have hlevel : s.push.depth = level (ops ++ [.push]) := by
    rw [level_snoc, hdepth, h.1]
    rfl
  refine ⟨hlevel, fun i frame hframe => ?_⟩
  cases i with
  | zero =>
      -- nothing can have been done to a frame that is on top of all others before
      obtain rfl : none = frame := by simpa [ScopeStack.push] using hframe
      have hnew : ¬ Written (s.depth + 1) (ops ++ [.push]) := by
        rw [h.written_iff (by omega) (by simp [Operation.writes])]
        intro hwritten
        have := hwritten.le_level
        have := h.1
        omega
      simp only [Option.isSome_none, Bool.false_eq_true, false_iff, not_or, hdepth, Nat.sub_zero]
      exact ⟨by omega, hnew⟩
  | succ i =>
      have hsame : s.push.depth - (i + 1) = s.depth - i := by omega
      rw [hsame, h.written_iff (by omega) (by simp [Operation.writes])]
      exact h.2 i frame hframe

theorem pop (h : s.Accords ops) : s.pop.Accords (ops ++ [.pop]) := by
  obtain ⟨frames⟩ := s
  match frames with
  | [] | [_] =>
      have hlevel : level (ops ++ [.pop]) = level ops := by
        rw [level_snoc, ← h.1]
        rfl
      refine ⟨h.1.trans hlevel.symm, fun i frame hframe => ?_⟩
      have := h.1
      rw [h.written_iff (by dsimp only [ScopeStack.pop]; omega) (by simp [Operation.writes])]
      exact h.2 i frame hframe
  | inner :: outer :: frames =>
      have hdepth : depth ⟨outer :: frames⟩ + 1 = depth ⟨inner :: outer :: frames⟩ := rfl
      have hpos : 0 < depth ⟨outer :: frames⟩ := Nat.succ_pos _
      have hlevel : depth ⟨outer :: frames⟩ = level (ops ++ [.pop]) := by
        rw [level_snoc, ← h.1, levelAfter, if_pos (by omega)]
        rfl
      refine ⟨hlevel, fun i frame hframe => ?_⟩
      have hsame : depth ⟨outer :: frames⟩ - i = depth ⟨inner :: outer :: frames⟩ - (i + 1) := by
        omega
      change frame.isSome = true ↔ depth ⟨outer :: frames⟩ - i = 1 ∨
        Written (depth ⟨outer :: frames⟩ - i) (ops ++ [.pop])
      rw [h.written_iff (by omega) (by simp [Operation.writes]), hsame]
      exact h.2 (i + 1) frame hframe

theorem updateTop (h : s.Accords ops) (hne : 0 < s.depth) {op : Operation}
    (hwrites : op.writes = true) (f : NameSet → NameSet) :
    (s.updateTop f).Accords (ops ++ [op]) := by
  obtain ⟨_ | ⟨top, frames⟩⟩ := s
  · exact absurd hne (Nat.lt_irrefl 0)
  have hsame : level (ops ++ [op]) = level ops := by
    rw [level_snoc]
    cases op with
    | push | pop => simp [Operation.writes] at hwrites
    | openName name | closeName name => rfl
  have hdepth : depth (ScopeStack.updateTop ⟨top :: frames⟩ f) = depth ⟨top :: frames⟩ := rfl
  refine ⟨by rw [hsame, hdepth, h.1], fun i frame hframe => ?_⟩
  rw [hdepth]
  cases i with
  | zero =>
      obtain rfl : some (f (current ⟨top :: frames⟩)) = frame := by
        simpa [ScopeStack.updateTop] using hframe
      have hnow : Written (depth ⟨top :: frames⟩) (ops ++ [op]) :=
        written_snoc.2 (.inr ⟨hwrites, h.1.symm⟩)
      exact ⟨fun _ => .inr hnow, fun _ => rfl⟩
  | succ i =>
      have := h.1
      rw [h.written_iff (by omega) (fun _ => by omega)]
      exact h.2 (i + 1) frame hframe

/-- What the operations so far tell, they tell after one more operation. -/
theorem perform (h : s.Accords ops) (hne : 0 < s.depth) (op : Operation) :
    (s.perform op).2.Accords (ops ++ [op]) := by
  cases op with
  | push => exact h.push hne
  | pop => exact h.pop
  | openName name => exact h.updateTop hne rfl _
  | closeName name => exact h.updateTop hne rfl _

theorem ownsTop_iff (h : s.Accords ops) (hne : 0 < s.depth) :
    s.ownsTop = true ↔ s.depth = 1 ∨ Written s.depth ops := by
  obtain ⟨_ | ⟨top, frames⟩⟩ := s
  · exact absurd hne (Nat.lt_irrefl 0)
  · have htop := h.2 0 top rfl
    rw [Nat.sub_zero] at htop
    rw [← htop]
    cases top <;> simp [ownsTop]

end Accords

/-! ### After all operations -/

/-- The frames of a stack after some operations on a root. -/
theorem accords_runAll (preOpened : NameSet) (ops : List Operation) :
    (Operation.runAll perform (ofOpen preOpened) ops).2.Accords ops := by
  induction ops using List.reverseRecOn with
  | nil => exact .start preOpened
  | append_singleton ops op ih =>
      have hshows := (Shows.runAll (s := ofOpen preOpened) (.root preOpened) ops).2
      rw [Operation.runAll_snoc]
      exact ih.perform (by rw [hshows.depth_eq]; exact Nat.succ_pos _) op

/-- **A stack whose frames inherit agrees with one whose frames copy**, after any operations on a
root: in all answers, in the number of frames and in what is open.  The search for a set never
fails, since the root has one.  The innermost frame has a set of its own if it is the root, or if
something has been opened or closed in it since it was pushed, and only then. -/
theorem agrees_with_eager (preOpened : NameSet) (ops : List Operation) :
    let inheriting := Operation.runAll perform (ofOpen preOpened) ops
    let copying := Operation.runAll EagerStack.perform ⟨preOpened.toFinset, []⟩ ops
    inheriting.1 = copying.1 ∧
      inheriting.2.depth = copying.2.depth ∧ inheriting.2.depth = level ops ∧
      inheriting.2.current.toFinset = copying.2.top ∧
      (∀ name, inheriting.2.isOpen name = decide (name ∈ copying.2.top)) ∧
      (∃ root, inheriting.2.frames.getLast? = some (some root)) ∧
      (∃ names, inheriting.2.frames.findSome? id = some names) ∧
      (inheriting.2.ownsTop = true ↔
        inheriting.2.depth = 1 ∨ Written inheriting.2.depth ops) := by
  intro inheriting copying
  obtain ⟨hanswers, hshows⟩ := Shows.runAll (s := ofOpen preOpened) (.root preOpened) ops
  obtain ⟨names, hfound, -⟩ := hshows.exists_found
  have hpos : 0 < inheriting.2.depth := by
    rw [hshows.depth_eq]
    exact Nat.succ_pos _
  have haccords := accords_runAll preOpened ops
  exact ⟨hanswers, hshows.depth_eq, haccords.1, hshows.current_eq, hshows.isOpen_eq,
    hshows.root_owned, ⟨names, hfound⟩, haccords.ownsTop_iff hpos⟩

end ScopeStack

end MacroForest
