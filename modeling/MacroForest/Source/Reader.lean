/-
**Reading tokens into a forest.**

The reader takes one token after the other.  Its state holds the statements read so far, the
constructs that are open (attribute lists, parentheses, blocks, argument lists), innermost first,
and the place inside the innermost one.  Each token either moves the state on or is refused, so
reading is a fold over the tokens, and a text that is refused is refused at a token.

An expression is an optional attribute list, an operand, and any number of calls and members after
it, which are taken from left to right.  Where two expressions stand side by side in a block, a
parenthesis after an expression is always its argument list.

Main definitions:

* `MacroForest.Reader` — the state between two tokens;
* `MacroForest.Reader.feed` — one token;
* `MacroForest.readTokens` — **reading a list of tokens**, or the index of the token refused.
-/

import MacroForest.Source.Token

set_option relaxedAutoImplicit false
set_option autoImplicit false

namespace MacroForest

/-- A construct that is open.  Finished parts are kept in reverse order, and `attrs` are the
attributes in front of the expression that the construct begins or goes on. -/
inductive Frame where
  /-- An attribute list. -/
  | attributes (done : List Node)
  /-- An expression in parentheses. -/
  | paren (attrs : List Node)
  /-- A block of statements. -/
  | block (attrs done : List Node)
  /-- The argument list of a call. -/
  | arguments (attrs : List Node) (style : Style) (target : Node) (done : List Node)

/-- The place inside the innermost open construct. -/
inductive Place where
  /-- Where an expression can begin. -/
  | start
  /-- After an attribute list: an operand has to follow. -/
  | attributed (attrs : List Node)
  /-- After an operand with the calls and members read so far. -/
  | operand (attrs : List Node) (node : Node)
  /-- After an operand and a `!`: an argument list has to follow. -/
  | banged (attrs : List Node) (node : Node)
  /-- After an operand and a dot: a name has to follow. -/
  | selected (attrs : List Node) (node : Node)

/-- The state of the reader between two tokens. -/
structure Reader where
  /-- The statements of the forest that are finished, last first. -/
  statements : List Node
  /-- The open constructs, innermost first. -/
  frames : List Frame
  /-- The place inside the innermost construct. -/
  place : Place

namespace Reader

/-- Nothing has been read. -/
def initial : Reader := ⟨[], [], .start⟩

/-- A plain word in the place of an operand. -/
def wordNode (w : String) : Node :=
  if w = booleanWord true then .boolean true
  else if w = booleanWord false then .boolean false
  else .ident w

/-- An expression: its attributes go in front of those that its operand has already. -/
def attach (attrs : List Node) (node : Node) : Node :=
  if attrs.isEmpty then node else node.withAttrs (attrs ++ node.attrs)

/-- A token in the place of an operand. -/
def beginOperand (r : Reader) (attrs : List Node) : Token → Option Reader
  | .word w => some { r with place := .operand attrs (wordNode w) }
  | .quoted name => some { r with place := .operand attrs (.ident name) }
  | .number value => some { r with place := .operand attrs (.number value) }
  | .string value => some { r with place := .operand attrs (.string value) }
  | .braceOpen => some { r with frames := .block attrs [] :: r.frames, place := .start }
  | .parenOpen => some { r with frames := .paren attrs :: r.frames, place := .start }
  | _ => none

/-- A token where an expression can begin.  Blocks and forests can also have a semicolon there or
end; argument lists can end, and so can attribute lists that are not empty. -/
def beginExpr (r : Reader) (token : Token) : Option Reader :=
  match r.frames, token with
  | [], .semicolon => some { r with place := .start }
  | .block .. :: _, .semicolon => some { r with place := .start }
  | .block attrs done :: frames, .braceClose =>
    some { r with frames, place := .operand attrs (.block done.reverse) }
  | .arguments attrs style target done :: frames, .parenClose =>
    some { r with frames, place := .operand attrs (.call [] style target done.reverse) }
  | .attributes (a :: done) :: frames, .attrsClose =>
    some { r with frames, place := .attributed (a :: done).reverse }
  | _, .attrsOpen => some { r with frames := .attributes [] :: r.frames, place := .start }
  | _, token => r.beginOperand [] token

/-- A token after the end of an expression. -/
def endExpr (r : Reader) (node : Node) (token : Token) : Option Reader :=
  match r.frames, token with
  | [], token => beginExpr { r with statements := node :: r.statements, place := .start } token
  | .block attrs done :: frames, token =>
    beginExpr { r with frames := .block attrs (node :: done) :: frames, place := .start } token
  | .arguments attrs style target done :: frames, .comma =>
    some { r with frames := .arguments attrs style target (node :: done) :: frames, place := .start }
  | .arguments attrs style target done :: frames, .parenClose =>
    some { r with frames, place := .operand attrs (.call [] style target (node :: done).reverse) }
  | .attributes done :: frames, .comma =>
    some { r with frames := .attributes (node :: done) :: frames, place := .start }
  | .attributes done :: frames, .attrsClose =>
    some { r with frames, place := .attributed (node :: done).reverse }
  | .paren attrs :: frames, .parenClose => some { r with frames, place := .operand attrs node }
  | _, _ => none

/-- Takes one token; `none` if it cannot stand here. -/
def feed (r : Reader) (token : Token) : Option Reader :=
  match r.place, token with
  | .start, token => r.beginExpr token
  | .attributed attrs, token => r.beginOperand attrs token
  | .operand attrs node, .parenOpen =>
    some { r with frames := .arguments attrs .plain node [] :: r.frames, place := .start }
  | .operand attrs node, .bang => some { r with place := .banged attrs node }
  | .operand attrs node, .dot => some { r with place := .selected attrs node }
  | .operand attrs node, token => r.endExpr (attach attrs node) token
  | .banged attrs node, .parenOpen =>
    some { r with frames := .arguments attrs .bang node [] :: r.frames, place := .start }
  | .selected attrs node, .word w =>
    some { r with place := .operand attrs (.dotted node (.ident w)) }
  | .selected attrs node, .quoted name =>
    some { r with place := .operand attrs (.dotted node (.ident name)) }
  | _, _ => none

/-- The forest, if the text can end here. -/
def finish? (r : Reader) : Option Forest :=
  match r.frames, r.place with
  | [], .start => some r.statements.reverse
  | [], .operand attrs node => some (attach attrs node :: r.statements).reverse
  | _, _ => none

/-- The index at which the token of index `i` is refused: a `!` that is not followed by an argument
list is refused itself. -/
def refusedAt (r : Reader) (i : Nat) : Nat :=
  match r.place with
  | .banged .. => i - 1
  | _ => i

/-- Reads on from the token of index `i`. -/
def run (r : Reader) (i : Nat) : List Token → Except Nat Forest
  | [] =>
    match r.finish? with
    | some forest => .ok forest
    | none => .error (r.refusedAt i)
  | token :: tokens =>
    match r.feed token with
    | some r => r.run (i + 1) tokens
    | none => .error (r.refusedAt i)

end Reader

/-- The forest that some tokens spell, or the index of the token that cannot stand where it does
(the number of tokens, if they end too early). -/
def readTokens (tokens : List Token) : Except Nat Forest := Reader.initial.run 0 tokens

end MacroForest
