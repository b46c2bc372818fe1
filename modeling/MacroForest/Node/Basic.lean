/-
**Nodes: the trees that macros work on.**

A node is an atom (an identifier or a literal) or a call of a target node with arguments.  Every
node carries a list of attributes, which are nodes too, and a style, which tells a call written
`f!(x)` from one written `f(x)`.  Blocks, qualified names and splices are calls of reserved names.

Main definitions:

* `MacroForest.Node`, `MacroForest.Forest` — trees, and lists of trees;
* `MacroForest.Node.hasSimpleHead`, `MacroForest.Node.headName?` — what a node is headed by;
* `MacroForest.Node.calls` — the test for a call of a given name;
* `MacroForest.Node.withTarget`, `MacroForest.Node.withArgs` — functional updates;
* `MacroForest.Node.inCell` — a literal that is made anew;
* `MacroForest.Node.agree` — **equality**: two trees agree when they have the same shape and the
  same atoms; styles do not count, and a NaN is the same only as the literal in its own cell.
-/

import MacroForest.Number.Basic

set_option relaxedAutoImplicit false
set_option autoImplicit false

namespace MacroForest

/-- How a call is written: `f(x)` or `f!(x)`. -/
inductive Style where
  | plain
  | bang
deriving DecidableEq, Inhabited

/-- A node without parts of its own. -/
inductive Atom where
  | ident (name : String)
  | number (value : Number)
  | string (value : String)
  | boolean (value : Bool)
deriving DecidableEq

/-- Equality of atoms; numbers are compared by value, and NaNs by their cells. -/
def Atom.agrees : Atom → Atom → Bool
  | .ident a, .ident b => a == b
  | .number a, .number b => a == b
  | .string a, .string b => a == b
  | .boolean a, .boolean b => a == b
  | _, _ => false

/-- A tree: an atom, or a call of a target with arguments; both with attributes and a style. -/
inductive Node where
  | atom (attrs : List Node) (style : Style) (value : Atom)
  | call (attrs : List Node) (style : Style) (target : Node) (args : List Node)

/-- A list of trees, such as the statements of a file. -/
abbrev Forest := List Node

/-! ### Reserved names -/

namespace Reserved

/-- A call of this name stands for its arguments wherever a list of nodes is expected. -/
def splice : String := "#splice"

/-- A call of this name is a block of statements. -/
def block : String := "\x7b\x7d"

/-- A call of this name with two arguments is a qualified name. -/
def dot : String := "."

/-- Opens namespaces and stays in the tree. -/
def openScope : String := "#import"

/-- Opens namespaces and vanishes. -/
def openMacros : String := "#importMacros"

/-- Closes namespaces and stays in the tree. -/
def closeMacros : String := "#unimportMacros"

/-- Splices its arguments into the result without expanding them. -/
def verbatim : String := "#noLexicalMacros"

/-- The identifier that stands for the output of an input that ran out of time. -/
def timedOut : String := "processing_thread_timed_out"

end Reserved

namespace Node

instance : Inhabited Node := ⟨.atom [] .plain (.boolean false)⟩

/-! ### Constructors -/

/-- An identifier. -/
def ident (name : String) : Node := .atom [] .plain (.ident name)

/-- A number literal. -/
def number (value : Number) : Node := .atom [] .plain (.number value)

/-- A string literal. -/
def string (value : String) : Node := .atom [] .plain (.string value)

/-- A boolean literal. -/
def boolean (value : Bool) : Node := .atom [] .plain (.boolean value)

/-- A plain call of a target. -/
def invoke (target : Node) (args : List Node) : Node := .call [] .plain target args

/-- A plain call of a name. -/
def invokeName (name : String) (args : List Node) : Node := invoke (ident name) args

/-- A splice of some nodes. -/
def splice (items : List Node) : Node := invokeName Reserved.splice items

/-- A block of statements. -/
def block (statements : List Node) : Node := invokeName Reserved.block statements

/-- The qualified name `left.right`. -/
def dotted (left right : Node) : Node := invokeName Reserved.dot [left, right]

/-! ### Observers -/

/-- The attributes of a node. -/
def attrs : Node → List Node
  | .atom attrs _ _ => attrs
  | .call attrs _ _ _ => attrs

/-- The style of a node. -/
def style : Node → Style
  | .atom _ style _ => style
  | .call _ style _ _ => style

/-- Whether a node has attributes. -/
def hasAttrs (n : Node) : Bool := !n.attrs.isEmpty

/-- Whether a node is an identifier. -/
def isIdent : Node → Bool
  | .atom _ _ (.ident _) => true
  | _ => false

/-- Whether a node is a call. -/
def isCall : Node → Bool
  | .call .. => true
  | .atom .. => false

/-- Whether a node is a literal. -/
def isLiteral (n : Node) : Bool := !n.isIdent && !n.isCall

/-- Whether a node is a literal that holds a NaN. -/
def isNaN : Node → Bool
  | .atom _ _ (.number value) => value.isNaN
  | _ => false

/-- The target of a call. -/
def target? : Node → Option Node
  | .call _ _ target _ => some target
  | .atom .. => none

/-- The arguments of a call; an atom has none. -/
def args : Node → List Node
  | .call _ _ _ args => args
  | .atom .. => []

/-- The name of an identifier. -/
def identName? : Node → Option String
  | .atom _ _ (.ident name) => some name
  | _ => none

/-- An identifier is its own simple head, and a call has one if its target is an identifier
without attributes. -/
def hasSimpleHead : Node → Bool
  | .call _ _ target _ => target.isIdent && !target.hasAttrs
  | n => n.isIdent

/-- The name of the head: the identifier itself, or the identifier that is called. -/
def headName? : Node → Option String
  | .call _ _ target _ => target.identName?
  | n => n.identName?

/-- Whether a node is a call with a simple head of the given name. -/
def calls (n : Node) (name : String) : Bool :=
  n.isCall && n.hasSimpleHead && n.headName? == some name

/-- Whether a node is such a call with the given number of arguments. -/
def callsWith (n : Node) (name : String) (count : Nat) : Bool :=
  n.calls name && n.args.length == count

/-! ### Updates

An update says what becomes of the parts.  It keeps a NaN in its cell; that a literal is made anew is
said by `MacroForest.Node.inCell`. -/

/-- Replaces the attributes. -/
def withAttrs (attrs : List Node) : Node → Node
  | .atom _ style value => .atom attrs style value
  | .call _ style target args => .call attrs style target args

/-- Adds an attribute behind the others. -/
def addAttr (n attr : Node) : Node := n.withAttrs (n.attrs ++ [attr])

/-- Replaces the style. -/
def withStyle (style : Style) : Node → Node
  | .atom attrs _ value => .atom attrs style value
  | .call attrs _ target args => .call attrs style target args

/-- Replaces the target.  An atom becomes a call without arguments. -/
def withTarget (n target : Node) : Node := .call n.attrs n.style target n.args

/-- Replaces the arguments.  An atom becomes a call of itself, the attributes and the style going
to the call. -/
def withArgs (args : List Node) : Node → Node
  | .call attrs style target _ => .call attrs style target args
  | .atom attrs style value => .call attrs style (.atom [] .plain value) args

/-- Puts the literal that a node is into a cell.  What is inside the node stays where it is. -/
def inCell (cell : Cell) : Node → Node
  | .atom attrs style (.number value) => .atom attrs style (.number (value.inCell cell))
  | n => n

/-! ### Size -/

mutual

/-- The number of nodes of a tree. -/
def size : Node → Nat
  | .atom attrs _ _ => 1 + sizeList attrs
  | .call attrs _ target args => 1 + sizeList attrs + target.size + sizeList args

/-- The number of nodes of a forest, plus one for each tree. -/
def sizeList : List Node → Nat
  | [] => 0
  | n :: ns => 1 + n.size + sizeList ns

end

theorem sizeList_attrs_lt (n : Node) : sizeList n.attrs < n.size := by
  cases n <;> (simp only [size, attrs]; omega)

theorem sizeList_args_lt (n : Node) : sizeList n.args < n.size := by
  cases n <;> (simp only [size, args, sizeList]; omega)

theorem size_target_lt {n target : Node} (h : n.target? = some target) : target.size < n.size := by
  cases n with
  | atom => simp [target?] at h
  | call attrs style t args =>
    obtain rfl : t = target := by simpa [target?] using h
    simp only [size]
    omega

/-! ### Equality -/

/-- Whether the parts of two nodes match as far as one look at each tells, and the pairs of parts
that then have to agree. -/
def matchParts : Node → Node → Option (List (Node × Node))
  | .atom attrs _ a, .atom attrs' _ b =>
    if attrs.length = attrs'.length ∧ a.agrees b then some (attrs.zip attrs') else none
  | .call attrs _ target args, .call attrs' _ target' args' =>
    if attrs.length = attrs'.length ∧ args.length = args'.length then
      some (attrs.zip attrs' ++ args.zip args' ++ [(target, target')])
    else none
  | _, _ => none

/-- The size of the left components of some pairs. -/
def pairsSize (pairs : List (Node × Node)) : Nat := sizeList (pairs.map (·.1))

theorem sizeList_append (ms ns : List Node) : sizeList (ms ++ ns) = sizeList ms + sizeList ns := by
  induction ms with
  | nil => simp [sizeList]
  | cons m ms ih => simp only [List.cons_append, sizeList, ih]; omega

theorem sizeList_map_zip (ms ns : List Node) :
    sizeList ((ms.zip ns).map (·.1)) ≤ sizeList ms := by
  induction ms generalizing ns with
  | nil => simp [sizeList]
  | cons m ms ih =>
    cases ns with
    | nil => simp [sizeList]
    | cons n ns => simpa [sizeList] using ih ns

theorem pairsSize_matchParts {a b : Node} {parts : List (Node × Node)}
    (h : matchParts a b = some parts) : pairsSize parts < 1 + a.size := by
  unfold matchParts at h
  split at h
  · rename_i attrs _ _ attrs' _ _
    split at h
    · obtain rfl := Option.some.inj h
      have := sizeList_map_zip attrs attrs'
      simp only [pairsSize, size]
      omega
    · simp at h
  · rename_i attrs _ target args attrs' _ target' args'
    split at h
    · obtain rfl := Option.some.inj h
      have := sizeList_map_zip attrs attrs'
      have := sizeList_map_zip args args'
      simp only [pairsSize, List.map_append, sizeList_append, size, List.map_cons, List.map_nil,
        sizeList]
      omega
    · simp at h
  · simp at h

/-- Whether all the pairs agree.  The pairs still to be compared are kept in a list, so a deep
tree needs no deep recursion. -/
def allAgree : List (Node × Node) → Bool
  | [] => true
  | (a, b) :: pending =>
    match _h : matchParts a b with
    | none => false
    | some parts => allAgree (parts ++ pending)
termination_by pairs => pairsSize pairs
decreasing_by
  have := pairsSize_matchParts _h
  simp only [pairsSize, List.map_append, sizeList_append, List.map_cons, sizeList] at *
  omega

/-- Two trees agree when they have the same shape and agreeing atoms, whatever their styles.  Trees
in memory are not looked into where they are one and the same; but a tree agrees with itself anyway,
since a NaN in it is in one cell. -/
def agree (a b : Node) : Bool := allAgree [(a, b)]

instance : BEq Node := ⟨agree⟩

end Node

end MacroForest
