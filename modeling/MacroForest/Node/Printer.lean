/-
**The written form of nodes.**

A node is written as its attributes `@[a, b]` and then its bare form.  A block is written
`{ a; b }`, a qualified name `left.right`, and every other call `target(args)`, with a `!` before
the parenthesis in the bang style.  A target with attributes stands in parentheses, so that the
attributes stay with it.  An identifier that is no plain word is written between backquotes.

Main definitions:

* `MacroForest.isPlainWord` — the names that need no quotes;
* `MacroForest.quoteString` — the written form of a string literal;
* `MacroForest.Node.text` — **the written form of a node**;
* `MacroForest.forestText` — a forest, one statement on a line.
-/

import MacroForest.Node.Basic
import MacroForest.Number.Text

set_option relaxedAutoImplicit false
set_option autoImplicit false

namespace MacroForest

/-! ### Words and strings -/

/-- The characters that a plain word begins with. -/
def isWordStart (c : Char) : Bool := c.isAlpha || c == '_' || c == '#'

/-- The characters that a plain word goes on with. -/
def isWordChar (c : Char) : Bool := c.isAlphanum || c == '_' || c == '#' || c == '\''

/-- A plain word: it reads as an identifier unless it is a boolean. -/
def isPlainWord (name : String) : Bool :=
  match name.toList with
  | [] => false
  | c :: cs => isWordStart c && cs.all isWordChar

/-- The word for a truth value. -/
def booleanWord (b : Bool) : String := if b then "true" else "false"

/-- An identifier: a plain word that is no boolean stands for itself, any other name is quoted. -/
def identText (name : String) : String :=
  if isPlainWord name && name != booleanWord true && name != booleanWord false then name
  else "`" ++ name ++ "`"

/-- A character inside a string literal. -/
def escapeChar : Char → List Char
  | '"' => ['\\', '"']
  | '\\' => ['\\', '\\']
  | '\n' => ['\\', 'n']
  | '\t' => ['\\', 't']
  | '\r' => ['\\', 'r']
  | c => [c]

/-- A string literal. -/
def quoteString (s : String) : String :=
  "\"" ++ String.ofList (s.toList.flatMap escapeChar) ++ "\""

/-- An atom. -/
def Atom.text : Atom → String
  | .ident name => identText name
  | .number value => value.text
  | .string value => quoteString value
  | .boolean value => booleanWord value

/-! ### Nodes -/

/-- The ways to write a call. -/
inductive CallForm where
  /-- A block of statements, `{ a; b }`. -/
  | block
  /-- A qualified name, `left.right`. -/
  | dotted
  /-- A target and its arguments, `target(args)`. -/
  | applied
deriving DecidableEq

/-- Whether a node is an identifier of the given name, without attributes. -/
def Node.isName (n : Node) (name : String) : Bool := !n.hasAttrs && n.identName? == some name

/-- A plain call of the block name is written as a block.  A plain call of the dot is written as a
qualified name if it has two arguments and the right one is an identifier without attributes. -/
def CallForm.of (style : Style) (target : Node) (args : List Node) : CallForm :=
  if style = .plain then
    if target.isName Reserved.block then .block
    else if target.isName Reserved.dot then
      match args with
      | [_, right] => if right.isIdent && !right.hasAttrs then .dotted else .applied
      | _ => .applied
    else .applied
  else .applied

/-- The written attributes in front of a node. -/
def attrsText (attrs : List String) : String :=
  if attrs.isEmpty then "" else "@[" ++ ", ".intercalate attrs ++ "] "

/-- A written node in the place of a target: with attributes, it stands in parentheses. -/
def targetText (n : Node) (text : String) : String :=
  if n.hasAttrs then "(" ++ text ++ ")" else text

/-- The written statements of a block, between braces. -/
def blockText (statements : List String) : String :=
  if statements.isEmpty then "\x7b\x7d" else "\x7b " ++ "; ".intercalate statements ++ " \x7d"

/-- A written target with its written arguments. -/
def appliedText (style : Style) (target : String) (args : List String) : String :=
  target ++ (if style = .bang then "!" else "") ++ "(" ++ ", ".intercalate args ++ ")"

namespace Node

mutual

/-- The written form of a node. -/
def text : Node → String
  | .atom attrs _ value => attrsText (texts attrs) ++ value.text
  | .call attrs style target args =>
    attrsText (texts attrs) ++
      match CallForm.of style target args, args, texts args with
      | .block, _, statements => blockText statements
      | .dotted, left :: _, [leftText, rightText] => targetText left leftText ++ "." ++ rightText
      | _, _, argTexts => appliedText style (targetText target (text target)) argTexts

/-- The written forms of some nodes. -/
def texts : List Node → List String
  | [] => []
  | n :: ns => text n :: texts ns

end

theorem texts_eq_map (ns : List Node) : texts ns = ns.map text := by
  induction ns with
  | nil => rfl
  | cons n ns ih => simp [texts, ih]

end Node

/-- A forest, one statement on a line. -/
def forestText (nodes : Forest) : String :=
  String.join (nodes.map fun n => n.text ++ ";\n")

/-- The namespace that a node denotes is its written form. -/
def Node.namespaceName (n : Node) : String := n.text

end MacroForest
