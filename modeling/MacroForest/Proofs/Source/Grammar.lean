/-
**The grammar of the notation.**

The notation is given by a grammar (`MacroForest/Proofs/Source/Peg.lean`), and what a text means by
a fold over the pairs that its rules leave.  An expression is an operand onto which its calls and
members are folded from left to right; its attributes go in front of those that an operand in
parentheses has already.  Statements and arguments keep their order.

The fold looks at the text of pairs, too: it reads numbers, and it cuts off the delimiters of
strings and of quoted names.  Nothing in a pair says that this works, so the fold can fail in many
places. Each of them is a *defect*.

Main definitions:

* `MacroForest.Notation.Rule`, `MacroForest.Notation.grammar` — the rules;
* `MacroForest.Number.ofText?` — the number that a text is, in the common format;
* `MacroForest.Notation.Defect`, `MacroForest.Notation.build` — **the fold**, and where it can fail;
* `MacroForest.Notation.forestOf` — the forest of a program.
-/

import MacroForest.Proofs.Source.Peg
import MacroForest.Source.Reader

set_option relaxedAutoImplicit false
set_option autoImplicit false

namespace MacroForest

namespace Notation

open Peg

/-! ### Rules -/

/-- The rules. -/
inductive Rule where
  | whitespace
  | comment
  | program
  | expr
  | attrs
  | primary
  | paren
  | block
  | suffix
  | call
  | bang
  | member
  | boolean
  | number
  | string
  | ident
  | plainIdent
  | quotedIdent
  | identStart
  | identChar
  /-- The end of the text. -/
  | eoi
deriving DecidableEq

namespace Rule

/-- The kinds of the rules. -/
def kind : Rule → Kind
  | .whitespace | .comment | .primary | .paren | .suffix | .identStart | .identChar => .silent
  | .boolean | .number | .string | .plainIdent | .quotedIdent => .atomic
  | .ident => .compound
  | .program | .expr | .attrs | .block | .call | .bang | .member | .eoi => .normal

/-- Any character. -/
def any : Expr Rule := .one fun _ => true

/-- Semicolons. -/
def semicolons : Expr Rule := .star (.lit [';'])

/-- Expressions with semicolons between them, before the first one and after the last. -/
def statements : List (Expr Rule) :=
  [semicolons, .star (.seq (.rule .expr) semicolons)]

/-- Expressions with commas between them, and perhaps one after the last. -/
def items : List (Expr Rule) :=
  [.rule .expr, .star (.seq (.lit [',']) (.rule .expr)), .opt (.lit [','])]

/-- Digits. -/
def digits : Expr Rule := .plus (.one Char.isDigit)

/-- The expressions of the rules. -/
def body : Rule → Expr Rule
  | .whitespace => .alts [.lit [' '], .lit ['\t'], .lit ['\r'], .lit ['\n']]
  | .comment => .seq (.lit ['/', '/']) (.star (.seq (.absent (.lit ['\n'])) any))
  | .program => .seqs ([.first] ++ statements ++ [.rule .eoi])
  | .expr => .seqs [.opt (.rule .attrs), .rule .primary, .star (.rule .suffix)]
  | .attrs => .seqs ([.lit ['@', '[']] ++ items ++ [.lit [']']])
  | .primary => .alts [.rule .boolean, .rule .number, .rule .string, .rule .ident, .rule .block,
      .rule .paren]
  | .paren => .seqs [.lit ['('], .rule .expr, .lit [')']]
  | .block => .seqs ([.lit ['\x7b']] ++ statements ++ [.lit ['\x7d']])
  | .suffix => .alt (.rule .call) (.rule .member)
  | .call => .seqs [.opt (.rule .bang), .lit ['('], .opt (.seqs items), .lit [')']]
  | .bang => .lit ['!']
  | .member => .seq (.lit ['.']) (.rule .ident)
  | .boolean => .seq (.alt (.lit ['t', 'r', 'u', 'e']) (.lit ['f', 'a', 'l', 's', 'e']))
      (.absent (.rule .identChar))
  | .number => .seqs [.opt (.lit ['-']), digits, .opt (.seq (.lit ['.']) digits),
      .opt (.seqs [.alt (.lit ['e']) (.lit ['E']), .opt (.alt (.lit ['+']) (.lit ['-'])), digits])]
  | .string => .seqs [.lit ['"'],
      .star (.alt (.seq (.lit ['\\']) any) (.seq (.absent (.lit ['"'])) any)), .lit ['"']]
  | .ident => .alt (.rule .plainIdent) (.rule .quotedIdent)
  | .plainIdent => .seq (.rule .identStart) (.star (.rule .identChar))
  | .quotedIdent => .seqs [.lit ['\x60'], .star (.seq (.absent (.lit ['\x60'])) any), .lit ['\x60']]
  | .identStart => .alts [.one Char.isAlpha, .lit ['_'], .lit ['#']]
  | .identChar => .alts [.one Char.isAlphanum, .lit ['_'], .lit ['#'], .lit ['\'']]
  | .eoi => .last

end Rule

/-- **The grammar of the notation.** -/
def grammar : Grammar Rule := ⟨Rule.kind, Rule.body, .whitespace, .comment⟩

end Notation

/-! ### Numbers -/

/-- The digits behind a point, if there is one, and what follows them. -/
def pointDigits : List Char → List Char × List Char
  | '.' :: cs => takeDigits cs
  | cs => ([], cs)

/-- The power of ten at the end of a number. -/
def powerOf? : List Char → Option Int
  | [] => some 0
  | e :: power =>
    let (below, digits) := takeSign power
    let value : Int := digitsValue digits
    if (e == 'e' || e == 'E') && !digits.isEmpty && digits.all Char.isDigit then
      some (if below then -value else value)
    else none

/-- The number that a text is, in the common format: a sign, digits with a point among them, before
them or behind them, and a power of ten with a sign. -/
def Number.ofText? (text : List Char) : Option Number :=
  let (negative, unsigned) := takeSign text
  let (whole, afterWhole) := takeDigits unsigned
  let (fraction, power) := pointDigits afterWhole
  if whole.isEmpty && fraction.isEmpty then none
  else (powerOf? power).map fun exponent => .ofParts negative whole fraction exponent

namespace Notation

open Peg

/-! ### The fold -/

/-- Where the fold can fail. -/
inductive Defect where
  /-- The text of a number is none. -/
  | invalidNumber
  /-- A name without a pair inside. -/
  | emptyIdent
  /-- A pair of a rule that leaves no node. -/
  | unsupported (rule : Rule)
  | callWithoutTarget
  | memberWithoutTarget
  /-- A member without a name. -/
  | noMember
  /-- An expression without an operand. -/
  | emptyExpr
  /-- The first and the last byte of a text cannot be cut off. -/
  | badSlice
  /-- A backslash at the end of a string. -/
  | danglingEscape
deriving DecidableEq

/-- The text without its first and its last byte, if both are characters of their own. -/
def undelimited : List Char → Except Defect (List Char)
  | [] => .error .badSlice
  | c :: cs =>
    if c.utf8Size = 1 ∧ cs.getLast?.map Char.utf8Size = some 1 then .ok cs.dropLast
    else .error .badSlice

/-- The body of a string with its escapes resolved. -/
def unescape : List Char → Except Defect (List Char)
  | [] => .ok []
  | ['\\'] => .error .danglingEscape
  | '\\' :: c :: cs => (unescape cs).map (resolveEscape c ++ ·)
  | c :: cs => (unescape cs).map (c :: ·)

/-- The name that a pair inside a name is. -/
def nameOf : Pair Rule → Except Defect String
  | ⟨.quotedIdent, text, _⟩ => (undelimited text).map String.ofList
  | ⟨_, text, _⟩ => .ok (String.ofList text)

mutual

/-- **The node of a pair.** -/
def build : Pair Rule → Except Defect Node
  | ⟨.expr, _, parts⟩ => do
    let (attrs, operand) ← buildParts [] none parts
    match operand with
    | none => .error .emptyExpr
    | some node => .ok (Reader.attach attrs node)
  | ⟨.number, text, _⟩ =>
    match Number.ofText? text with
    | none => .error .invalidNumber
    | some value => .ok (.number value)
  | ⟨.boolean, text, _⟩ => .ok (.boolean (text == ['t', 'r', 'u', 'e']))
  | ⟨.string, text, _⟩ => do
    let body ← undelimited text
    let value ← unescape body
    .ok (.string (String.ofList value))
  | ⟨.ident, _, inner⟩ =>
    match inner with
    | [] => .error .emptyIdent
    | name :: _ => (nameOf name).map .ident
  | ⟨.block, _, inner⟩ => (buildAll inner).map .block
  | ⟨rule, _, _⟩ => .error (.unsupported rule)

/-- The nodes of some pairs, in their order. -/
def buildAll : List (Pair Rule) → Except Defect (List Node)
  | [] => .ok []
  | pair :: pairs => do
    let node ← build pair
    let nodes ← buildAll pairs
    .ok (node :: nodes)

/-- The attributes and the operand of an expression, from its parts; calls and members are folded
onto the operand so far. -/
def buildParts (attrs : List Node) (operand : Option Node) :
    List (Pair Rule) → Except Defect (List Node × Option Node)
  | [] => .ok (attrs, operand)
  | ⟨.attrs, _, inner⟩ :: parts => do
    let more ← buildAll inner
    buildParts (attrs ++ more) operand parts
  | ⟨.call, _, inner⟩ :: parts =>
    match operand with
    | none => .error .callWithoutTarget
    | some target => do
      let (style, args) ← buildArgs .plain inner
      buildParts attrs (some (.call [] style target args)) parts
  | ⟨.member, _, inner⟩ :: parts =>
    match operand, inner with
    | none, _ => .error .memberWithoutTarget
    | some _, [] => .error .noMember
    | some left, name :: _ => do
      let right ← build name
      buildParts attrs (some (.dotted left right)) parts
  | part :: parts => do
    let node ← build part
    buildParts attrs (some node) parts

/-- The style and the arguments of a call. -/
def buildArgs (style : Style) : List (Pair Rule) → Except Defect (Style × List Node)
  | [] => .ok (style, [])
  | ⟨.bang, _, _⟩ :: inner => buildArgs .bang inner
  | pair :: inner => do
    let node ← build pair
    let (style, args) ← buildArgs style inner
    .ok (style, node :: args)

end

/-- The rule of a pair. -/
def ruleOf : Pair Rule → Rule
  | ⟨rule, _, _⟩ => rule

/-- **The forest of a program**, from the pairs that it leaves. -/
def forestOf : List (Pair Rule) → Except Defect Forest
  | [] => .ok []
  | ⟨_, _, inner⟩ :: _ => buildAll (inner.filter fun pair => ruleOf pair ≠ .eoi)

/-! ### The fold, pair by pair -/

variable {text : List Char} {inner parts : List (Pair Rule)} {attrs ns : List Node} {node : Node}

attribute [local simp] build buildParts

theorem undelimited_append (c d : Char) (hc : c.utf8Size = 1) (hd : d.utf8Size = 1)
    (body : List Char) : undelimited (c :: (body ++ [d])) = .ok body := by
  simp [undelimited, hc, hd]

theorem unescape_escape {raw body : List Char} (h : unescape raw = .ok body) (c : Char) :
    unescape ('\\' :: c :: raw) = .ok (resolveEscape c ++ body) := by
  rw [unescape, h]
  rfl

theorem unescape_cons {raw body : List Char} (h : unescape raw = .ok body) {c : Char}
    (hc : c ≠ '\\') : unescape (c :: raw) = .ok (c :: body) := by
  rw [unescape, h]
  · rfl
  · exact fun h _ => hc h
  · exact fun _ _ h _ => hc h

theorem build_number {value : Number} (h : Number.ofText? text = some value) :
    build ⟨.number, text, inner⟩ = .ok (.number value) := by
  simp [h]

theorem build_string {raw value : List Char} (h : unescape raw = .ok value) :
    build ⟨.string, '"' :: (raw ++ ['"']), inner⟩ = .ok (.string (String.ofList value)) := by
  rw [build, undelimited_append _ _ rfl rfl]
  change (unescape raw >>= _) = _
  rw [h]
  rfl

theorem build_plainIdent (name : List Char) :
    build ⟨.ident, text, [⟨.plainIdent, name, inner⟩]⟩ = .ok (.ident (String.ofList name)) := rfl

theorem build_quotedIdent (name : List Char) :
    build ⟨.ident, text, [⟨.quotedIdent, '\x60' :: (name ++ ['\x60']), inner⟩]⟩ =
      .ok (.ident (String.ofList name)) := by
  rw [build, nameOf, undelimited_append _ _ rfl rfl]
  rfl

theorem build_block (h : buildAll inner = .ok ns) :
    build ⟨.block, text, inner⟩ = .ok (.block ns) := by
  simp [h, Except.map]

theorem build_expr (h : buildParts [] none parts = .ok (attrs, some node)) :
    build ⟨.expr, text, parts⟩ = .ok (Reader.attach attrs node) := by
  simp [h, bind, Except.bind]

theorem buildParts_attrs (h : buildAll inner = .ok ns) (operand : Option Node) :
    buildParts attrs operand (⟨.attrs, text, inner⟩ :: parts) =
      buildParts (attrs ++ ns) operand parts := by
  simp [h, bind, Except.bind]

theorem buildParts_call {style : Style} (h : buildArgs .plain inner = .ok (style, ns)) :
    buildParts attrs (some node) (⟨.call, text, inner⟩ :: parts) =
      buildParts attrs (some (.call [] style node ns)) parts := by
  simp [h, bind, Except.bind]

theorem buildParts_member {pair : Pair Rule} {right : Node} (h : build pair = .ok right) :
    buildParts attrs (some node) (⟨.member, text, [pair]⟩ :: parts) =
      buildParts attrs (some (.dotted node right)) parts := by
  simp [h, bind, Except.bind]

/-- The rules that leave an operand. -/
def isOperand : Rule → Bool
  | .boolean | .number | .string | .ident | .block | .expr => true
  | _ => false

theorem buildParts_operand {pair : Pair Rule} (hrule : isOperand (ruleOf pair) = true)
    (hbuild : build pair = .ok node) (operand : Option Node) :
    buildParts attrs operand (pair :: parts) = buildParts attrs (some node) parts := by
  -- the other equations of the fold are for attributes, calls and members
  have hne : ∀ rule text inner, isOperand rule = false → pair ≠ ⟨rule, text, inner⟩ := by
    rintro rule text inner hfalse rfl
    exact absurd (hfalse.symm.trans hrule) Bool.false_ne_true
  rw [buildParts, hbuild]
  · rfl
  · exact fun text inner => hne .attrs text inner rfl
  · exact fun text inner => hne .call text inner rfl
  · exact fun text inner => hne .member text inner rfl

end Notation

end MacroForest
