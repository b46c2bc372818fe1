/-
**The tokens of a YAML text.**

In a YAML text indentation opens and closes collections, and whether a scalar is the key of a map is
known only when a colon follows it.  A place where a key may begin is therefore kept in mind, and
the tokens for the key are inserted there when the colon is met.  Within brackets indentation does
not count.

Main definitions:

* `MacroForest.Yaml.Token` — the tokens;
* `MacroForest.Yaml.Scanner` — the state of cutting a text into tokens;
* `MacroForest.Yaml.tokens?` — **the tokens of a text**, unless it is refused.
-/

import MacroForest.Yaml.Scalar

set_option relaxedAutoImplicit false
set_option autoImplicit false

namespace MacroForest.Yaml

/-- How a scalar is written, as far as it matters for its value. -/
inductive ScalarStyle where
  | plain
  /-- A block whose line ends are kept. -/
  | literal
  | other
deriving DecidableEq

/-- A token of a YAML text. -/
inductive Token where
  | directive
  | documentStart
  | documentEnd
  | listStart
  | mapStart
  | blockEnd
  | flowListStart
  | flowListEnd
  | flowMapStart
  | flowMapEnd
  | entry
  | flowEntry
  | key
  | value
  | alias (name : String)
  | anchor (name : String)
  | tag (name : String)
  | scalar (style : ScalarStyle) (text : String)
deriving DecidableEq

/-- A place where a key may have begun. -/
structure PossibleKey where
  /-- Nothing but a key can stand there. -/
  required : Bool
  /-- The number of tokens before it. -/
  number : Nat
  /-- The place. -/
  place : Cursor

/-- The state of cutting a text into tokens. -/
structure Scanner where
  /-- The place in the text. -/
  cursor : Cursor
  /-- The tokens so far, last first. -/
  tokens : List Token := []
  /-- The place where a key may have begun, for each bracket that is open and for the rest. -/
  keys : List (Option PossibleKey) := [none]
  /-- Whether a key may begin here. -/
  keyAllowed : Bool := true
  /-- The present indentation. -/
  indent : Int := -1
  /-- The indentations around it. -/
  indents : List Int := []

namespace Scanner

/-- Whether the place is within brackets. -/
def flow (s : Scanner) : Bool := decide (1 < s.keys.length)

/-- Appends a token. -/
def push (s : Scanner) (t : Token) : Scanner := { s with tokens := t :: s.tokens }

/-- Inserts a token behind the first `n`. -/
def insert (s : Scanner) (n : Nat) (t : Token) : Scanner :=
  let k := s.tokens.length - n
  { s with tokens := s.tokens.take k ++ t :: s.tokens.drop k }

/-- Goes past some characters of the line. -/
def skip (s : Scanner) (n : Nat) : Scanner := { s with cursor := s.cursor.skip n }

/-- The column of the place. -/
def column (s : Scanner) : Int := s.cursor.column

/-! ### Keys -/

/-- Whether the line of a possible key has been left, or it has become too long. -/
def stale (s : Scanner) (k : PossibleKey) : Bool :=
  decide (k.place.line < s.cursor.line) || decide (k.place.index + 1024 < s.cursor.index)

/-- Drops the possible keys that can no longer be keys; a required one must not be among them. -/
def dropStale (s : Scanner) : Option Scanner := do
  if s.keys.any (fun k => k.any fun k => s.stale k && k.required) then none
  return { s with keys := s.keys.map fun k => k.filter (!s.stale ·) }

/-- Drops the possible key of this bracket, which must not be required. -/
def dropKey (s : Scanner) : Option Scanner :=
  match s.keys with
  | some k :: keys => if k.required then none else some { s with keys := none :: keys }
  | _ => some s

/-- Keeps in mind that a key may begin here. -/
def saveKey (s : Scanner) : Option Scanner := do
  if !s.keyAllowed then return s
  let required := !s.flow && s.indent == s.column
  let s ← s.dropKey
  return { s with keys := some ⟨required, s.tokens.length, s.cursor⟩ :: s.keys.drop 1 }

/-! ### Indentation -/

/-- Opens a collection at a column, behind the first `number` tokens. -/
def roll (s : Scanner) (column : Int) (number : Nat) (t : Token) : Scanner :=
  if !s.flow && decide (s.indent < column) then
    { s.insert number t with indent := column, indents := s.indent :: s.indents }
  else s

/-- Closes the collections that are indented more than a column; `indents` are those around. -/
def unrollTo (column : Int) : List Int → Scanner → Scanner
  | [], s => s
  | outer :: indents, s =>
    if s.indent ≤ column then s
    else unrollTo column indents { s.push .blockEnd with indent := outer, indents }

/-- Closes the collections that are indented more than a column. -/
def unroll (s : Scanner) (column : Int) : Scanner :=
  if s.flow then s else unrollTo column s.indents s

/-! ### Blanks and comments -/

/-- Goes to the next token.  A tab is skipped only where no key may begin. -/
def toNext (flow : Bool) : List Char → Cursor → Bool → Bool → Cursor × Bool
  | [], p, allowed, _ => ({ p with rest := [] }, allowed)
  | c :: rest, p, allowed, comment =>
    let next := p.past c rest
    if isBreak c then toNext flow rest next (allowed || !flow) false
    else if comment then toNext flow rest next allowed true
    else if c == ' ' || (c == '\t' && (flow || !allowed)) then toNext flow rest next allowed false
    else if c == '#' then toNext flow rest next allowed true
    else ({ p with rest := c :: rest }, allowed)

/-! ### Tokens -/

/-- A marker or a directive, which ends all collections. -/
def marker (s : Scanner) (t : Token) : Option Scanner := do
  let s ← (s.unroll (-1)).dropKey
  return { s.push t with keyAllowed := false }

/-- An opening bracket. -/
def openFlow (s : Scanner) (t : Token) : Option Scanner := do
  let s ← s.saveKey
  return { (s.skip 1).push t with keys := none :: s.keys, keyAllowed := true }

/-- A closing bracket. -/
def closeFlow (s : Scanner) (t : Token) : Option Scanner := do
  let s ← s.dropKey
  let keys := if s.flow then s.keys.drop 1 else s.keys
  return { (s.skip 1).push t with keys, keyAllowed := false }

/-- A comma. -/
def flowEntry (s : Scanner) : Option Scanner := do
  let s ← s.dropKey
  return { (s.skip 1).push .flowEntry with keyAllowed := true }

/-- The dash of an item. -/
def blockEntry (s : Scanner) : Option Scanner := do
  if !s.flow && !s.keyAllowed then none
  let s ← (s.roll s.column s.tokens.length .listStart).dropKey
  return { (s.skip 1).push .entry with keyAllowed := true }

/-- The mark of a key. -/
def explicitKey (s : Scanner) : Option Scanner := do
  if !s.flow && !s.keyAllowed then none
  let s ← (s.roll s.column s.tokens.length .mapStart).dropKey
  return { (s.skip 1).push .key with keyAllowed := !s.flow }

/-- The colon of a value. -/
def value (s : Scanner) : Option Scanner := do
  match s.keys with
  | some k :: keys =>
    let s := (s.insert k.number .key).roll k.place.column k.number .mapStart
    return { (s.skip 1).push .value with keys := none :: keys, keyAllowed := false }
  | _ =>
    if !s.flow && !s.keyAllowed then none
    let s := s.roll s.column s.tokens.length .mapStart
    return { (s.skip 1).push .value with keyAllowed := !s.flow }

/-- A scalar. -/
def scalar (s : Scanner) (style : ScalarStyle) (taken : Option Taken) : Option Scanner := do
  let t ← taken
  let s ← s.saveKey
  return { s.push (.scalar style t.text) with cursor := t.after, keyAllowed := t.lineEnded }

/-- A block of lines, which is never a key. -/
def block (s : Scanner) (folded : Bool) : Option Scanner := do
  let s ← s.dropKey
  let t ← takeBlock folded s.indent (s.cursor.skip 1)
  let style := if folded then ScalarStyle.other else .literal
  return { s.push (.scalar style t.text) with cursor := t.after, keyAllowed := true }

/-- A character of the name of an anchor. -/
def isNameChar (c : Char) : Bool := c.isAlphanum || c == '_' || c == '-'

/-- The name behind an anchor or alias mark. -/
def named (s : Scanner) (t : String → Token) : Option Scanner := do
  let s ← s.saveKey
  let name := (s.cursor.rest.drop 1).takeWhile isNameChar
  let behind := (s.cursor.rest.drop 1).dropWhile isNameChar
  let ends := atGap behind || behind.head?.any fun c => "?:,]\x7d%@`".toList.contains c
  if name.isEmpty || !ends then none
  return { (s.skip (name.length + 1)).push (t (String.ofList name)) with keyAllowed := false }

/-- A character of a tag. -/
def isTagChar (c : Char) : Bool :=
  isNameChar c || ";/?:@&=+$.!~*'()%".toList.contains c

/-- A tag: one of the standard ones behind two marks, or one of the text's own behind one. -/
def tag (s : Scanner) : Option Scanner := do
  let s ← s.saveKey
  let text := s.cursor.rest.takeWhile isTagChar
  let behind := s.cursor.rest.dropWhile isTagChar
  let marks := text.countP (· == '!')
  let ends := atGap behind || (s.flow && behind.head? == some ',')
  if !ends then none
  let name ← match text with
    | ['!'] => some "!"
    | '!' :: '!' :: name =>
      if marks = 2 && !name.isEmpty then some ("tag:yaml.org,2002:" ++ String.ofList name) else none
    | '!' :: _ => if marks = 1 then some (String.ofList text) else none
    | _ => none
  return { (s.skip text.length).push (.tag name) with keyAllowed := false }

/-- Whether the line of a directive names a version that is understood. -/
def namesVersion (line : List Char) : Bool :=
  match line with
  | '%' :: 'Y' :: 'A' :: 'M' :: 'L' :: behind =>
    atGap behind &&
      match behind.dropWhile isBlank with
      | '1' :: '.' :: minor :: behind =>
        let comment := behind.dropWhile isBlank
        (minor == '1' || minor == '2') && atGap behind &&
          (comment.isEmpty || comment.head? == some '#')
      | _ => false
  | _ => false

/-- The line of a directive. -/
def directive (s : Scanner) : Option Scanner := do
  let line := s.cursor.rest.takeWhile (!isBreak ·)
  if !namesVersion line then none
  let s ← s.marker .directive
  return s.skip line.length

/-- Whether a plain scalar can begin with a character, given what follows. -/
def beginsPlain (flow : Bool) (c : Char) (rest : List Char) : Bool :=
  !(isBlank c || isBreak c || "-?:,[]\x7b\x7d#&*!|>'\"%@`".toList.contains c) ||
    (c == '-' && !rest.head?.any isBlank) ||
    (!flow && (c == '?' || c == ':') && !atGap rest)

/-- Reads the token at the place. -/
def readToken (s : Scanner) (c : Char) (rest : List Char) : Option Scanner :=
  let p := s.cursor
  let inner := p.skip 1
  if p.column == 0 && c == '%' then s.directive
  else if p.atDocumentStart then (s.marker .documentStart).map (·.skip 3)
  else if p.atDocumentEnd then (s.marker .documentEnd).map (·.skip 3)
  else if c == '[' then s.openFlow .flowListStart
  else if c == '\x7b' then s.openFlow .flowMapStart
  else if c == ']' then s.closeFlow .flowListEnd
  else if c == '\x7d' then s.closeFlow .flowMapEnd
  else if c == ',' then s.flowEntry
  else if c == '-' && atGap rest then s.blockEntry
  else if c == '?' && (s.flow || atGap rest) then s.explicitKey
  else if c == ':' && (s.flow || atGap rest) then s.value
  else if c == '*' then s.named .alias
  else if c == '&' then s.named .anchor
  else if c == '!' then s.tag
  else if c == '|' && !s.flow then s.block false
  else if c == '>' && !s.flow then s.block true
  else if c == '\'' then s.scalar .other (takeSingle rest inner .nothing false [])
  else if c == '"' then s.scalar .other (takeDouble rest inner .nothing .text [])
  else if beginsPlain s.flow c rest then
    s.scalar .plain (takePlain s.flow (s.indent + 1) p.rest p .nothing [])
  else none

/-- Ends the text. -/
def finish (s : Scanner) : Option Scanner := (s.unroll (-1)).dropKey

/-- Reads all tokens.  Every token takes a part of the text. -/
def run (s : Scanner) : Option Scanner :=
  let (cursor, keyAllowed) := toNext s.flow s.cursor.rest s.cursor s.keyAllowed false
  match { s with cursor, keyAllowed }.dropStale with
  | none => none
  | some ready =>
    match ready.cursor.rest with
    | [] => ready.finish
    | c :: rest =>
      match (ready.unroll ready.column).readToken c rest with
      | none => none
      | some next =>
        if next.cursor.rest.length < s.cursor.rest.length then run next else none
termination_by s.cursor.rest.length

end Scanner

/-! ### Texts -/

/-- Whether a character may stand in a YAML text. -/
def isAllowed (c : Char) : Bool :=
  c == '\t' || c == '\n' || c == '\r' || c == '\u0085' ||
    (decide (0x20 ≤ c.toNat) && decide (c.toNat ≤ 0x7E)) ||
    (decide (0xA0 ≤ c.toNat) && c.toNat != 0xFFFE && c.toNat != 0xFFFF)

/-- A text in which the common line ends are unified. -/
def unifyBreaks : List Char → List Char
  | [] => []
  | '\r' :: '\n' :: cs => '\n' :: unifyBreaks cs
  | c :: cs => (if c == '\r' || c == '\u0085' then '\n' else c) :: unifyBreaks cs

/-- The tokens of a text. -/
def tokens? (text : String) : Option (List Token) := do
  let cs := text.toList
  if !cs.all isAllowed then none
  let cs := unifyBreaks (cs.dropWhile (· == '\ufeff'))
  let s ← Scanner.run { cursor := ⟨cs, 0, 0, 0⟩ }
  return s.tokens.reverse

end MacroForest.Yaml
