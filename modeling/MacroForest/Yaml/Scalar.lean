/-
**The scalars of a YAML text.**

A scalar is plain, within quotes, or a block of indented lines.  Line breaks inside a plain or
quoted scalar are folded: one break is a space, and of several the first is dropped.

Main definitions:

* `MacroForest.Yaml.Cursor` — a place in a text;
* `MacroForest.Yaml.takePlain` — a plain scalar;
* `MacroForest.Yaml.takeSingle`, `MacroForest.Yaml.takeDouble` — a quoted scalar;
* `MacroForest.Yaml.takeBlock` — a scalar that is a block of lines.
-/

import MacroForest.Number.Text
import MacroForest.Text.Hex

set_option relaxedAutoImplicit false
set_option autoImplicit false

namespace MacroForest.Yaml

/-! ### Places in a text -/

/-- A place in a text: what follows, and the line and column. -/
structure Cursor where
  /-- The text from here on. -/
  rest : List Char
  /-- The number of lines before this one. -/
  line : Nat
  /-- The number of characters before this one on the line. -/
  column : Nat
  /-- The number of characters before this one. -/
  index : Nat

/-- The characters that end a line.  The other line ends are unified beforehand. -/
def isBreak (c : Char) : Bool := c == '\n' || c == '\u2028' || c == '\u2029'

/-- A space or a tab. -/
def isBlank (c : Char) : Bool := c == ' ' || c == '\t'

/-- Whether a text begins with a blank or a line end, or is at its end. -/
def atGap : List Char → Bool
  | [] => true
  | c :: _ => isBlank c || isBreak c

/-- Goes past a character. -/
def Cursor.past (p : Cursor) (c : Char) (rest : List Char) : Cursor :=
  if isBreak c then ⟨rest, p.line + 1, 0, p.index + 1⟩
  else ⟨rest, p.line, p.column + 1, p.index + 1⟩

/-- Goes past some characters of the line. -/
def Cursor.skip (p : Cursor) (n : Nat) : Cursor :=
  ⟨p.rest.drop n, p.line, p.column + n, p.index + n⟩

/-- Whether the line begins with the marker of a document's start. -/
def Cursor.atDocumentStart (p : Cursor) : Bool :=
  p.column == 0 &&
    match p.rest with
    | '-' :: '-' :: '-' :: rest => atGap rest
    | _ => false

/-- Whether the line begins with the marker of a document's end. -/
def Cursor.atDocumentEnd (p : Cursor) : Bool :=
  p.column == 0 &&
    match p.rest with
    | '.' :: '.' :: '.' :: rest => atGap rest
    | _ => false

/-- Whether the line begins with the marker of a document. -/
def Cursor.atMarker (p : Cursor) : Bool := p.atDocumentStart || p.atDocumentEnd

/-! ### Gaps -/

/-- The blanks and line ends between two words of a scalar. -/
inductive Gap where
  | nothing
  /-- Blanks on one line, last first. -/
  | blanks (reversed : List Char)
  /-- A line end, unless it was escaped, and the further line ends, last first. -/
  | lines (first : Option Char) (reversed : List Char)

namespace Gap

/-- The gap with a further blank.  Blanks at the start of a line do not count. -/
def blank (g : Gap) (c : Char) : Gap :=
  match g with
  | .nothing => .blanks [c]
  | .blanks reversed => .blanks (c :: reversed)
  | .lines first reversed => .lines first reversed

/-- The gap with a further line end.  Blanks before it do not count. -/
def newline (g : Gap) (c : Char) : Gap :=
  match g with
  | .lines first reversed => .lines first (c :: reversed)
  | _ => .lines (some c) []

/-- Whether the gap has a line end. -/
def hasLines : Gap → Bool
  | .lines _ _ => true
  | _ => false

/-- Whether there is no gap. -/
def isNothing : Gap → Bool
  | .nothing => true
  | _ => false

/-- The text of a gap, last character first. -/
def reversedText : Gap → List Char
  | .nothing => []
  | .blanks reversed => reversed
  | .lines (some '\n') [] => [' ']
  | .lines (some '\n') reversed => reversed
  | .lines (some c) reversed => reversed ++ [c]
  | .lines none reversed => reversed

end Gap

/-! ### Plain scalars -/

/-- A scalar, and the place after it. -/
structure Taken where
  /-- The text of the scalar. -/
  text : String
  /-- The place after it, and after the blanks that follow it. -/
  after : Cursor
  /-- Whether a line end follows it. -/
  lineEnded : Bool

/-- The characters that end a plain scalar within brackets. -/
def isBracketing (c : Char) : Bool :=
  c == ',' || c == '[' || c == ']' || c == '\x7b' || c == '\x7d'

/-- A plain scalar: up to a colon or a comment that is set off by a blank, a bracket if it stands
within brackets, or a line that is not indented enough.  `done` holds its text, last first. -/
def takePlain (flow : Bool) (indent : Int) (cs : List Char) (p : Cursor) (gap : Gap)
    (done : List Char) : Option Taken :=
  let finished : Option Taken :=
    some ⟨String.ofList done.reverse, { p with rest := cs }, gap.hasLines⟩
  match cs with
  | [] => finished
  | c :: rest =>
    let next := p.past c rest
    if isBlank c then
      if gap.hasLines && c == '\t' && decide ((p.column : Int) < indent) then none
      else takePlain flow indent rest next (gap.blank c) done
    else if isBreak c then takePlain flow indent rest next (gap.newline c) done
    else
      let outside := !gap.isNothing &&
        ((!flow && decide ((p.column : Int) < indent)) || c == '#' ||
          { p with rest := cs }.atMarker)
      if outside then finished
      else if flow && c == ':' && rest.head?.any (fun d => isBracketing d || d == '?') then none
      else if (c == ':' && atGap rest) || (flow && isBracketing c) then finished
      else takePlain flow indent rest next .nothing (c :: (gap.reversedText ++ done))

/-! ### Quoted scalars -/

/-- A scalar behind a single quote, up to the next one that is not doubled.  `quote` tells that the
last character was a quote. -/
def takeSingle (cs : List Char) (p : Cursor) (gap : Gap) (quote : Bool) (done : List Char) :
    Option Taken :=
  match cs with
  | [] => if quote then some ⟨String.ofList done.reverse, { p with rest := [] }, false⟩ else none
  | c :: rest =>
    let next := p.past c rest
    if quote then
      if c == '\'' then takeSingle rest next .nothing false ('\'' :: done)
      else some ⟨String.ofList done.reverse, { p with rest := cs }, false⟩
    else if isBlank c then takeSingle rest next (gap.blank c) false done
    else if isBreak c then takeSingle rest next (gap.newline c) false done
    else if !gap.isNothing && { p with rest := cs }.atMarker then none
    else if c == '\'' then takeSingle rest next .nothing true (gap.reversedText ++ done)
    else takeSingle rest next .nothing false (c :: (gap.reversedText ++ done))

/-- What is being read within double quotes. -/
inductive DoubleState where
  | text
  /-- Behind a backslash. -/
  | escape
  /-- So many hexadecimal digits are to come, behind those of a value. -/
  | hex (count value : Nat)

/-- The character that a letter stands for behind a backslash. -/
def escaped? : Char → Option Char
  | '0' => some '\x00'
  | 'a' => some '\x07'
  | 'b' => some '\x08'
  | 't' => some '\t'
  | '\t' => some '\t'
  | 'n' => some '\n'
  | 'v' => some '\x0b'
  | 'f' => some '\x0c'
  | 'r' => some '\r'
  | 'e' => some '\x1b'
  | ' ' => some ' '
  | '"' => some '"'
  | '/' => some '/'
  | '\\' => some '\\'
  | 'N' => some '\u0085'
  | '_' => some '\u00a0'
  | 'L' => some '\u2028'
  | 'P' => some '\u2029'
  | _ => none

/-- The number of hexadecimal digits behind a letter behind a backslash. -/
def hexCount? : Char → Option Nat
  | 'x' => some 2
  | 'u' => some 4
  | 'U' => some 8
  | _ => none

/-- The character of a code point. -/
def charOf? (n : Nat) : Option Char :=
  if (0xD800 ≤ n ∧ n ≤ 0xDFFF) ∨ 0x10FFFF < n then none else some (Char.ofNat n)

/-- A scalar behind a double quote, up to the closing one. -/
def takeDouble (cs : List Char) (p : Cursor) (gap : Gap) (state : DoubleState)
    (done : List Char) : Option Taken :=
  match cs with
  | [] => none
  | c :: rest =>
    let next := p.past c rest
    match state with
    | .escape =>
      if isBreak c then takeDouble rest next (.lines none []) .text done
      else
        match escaped? c, hexCount? c with
        | some d, _ => takeDouble rest next .nothing .text (d :: done)
        | none, some count => takeDouble rest next .nothing (.hex count 0) done
        | none, none => none
    | .hex count value =>
      match Text.hexValue? c with
      | none => none
      | some d =>
        let value := 16 * value + d
        if count ≤ 1 then
          match charOf? value with
          | some d => takeDouble rest next .nothing .text (d :: done)
          | none => none
        else takeDouble rest next .nothing (.hex (count - 1) value) done
    | .text =>
      if isBlank c then takeDouble rest next (gap.blank c) .text done
      else if isBreak c then takeDouble rest next (gap.newline c) .text done
      else if !gap.isNothing && { p with rest := cs }.atMarker then none
      else
        let done := gap.reversedText ++ done
        if c == '"' then some ⟨String.ofList done.reverse, next, false⟩
        else if c == '\\' then takeDouble rest next .nothing .escape done
        else takeDouble rest next .nothing .text (c :: done)

/-! ### Blocks of lines -/

/-- What is kept of the line ends behind a block. -/
inductive Chomp where
  | none
  | one
  | all
deriving DecidableEq

/-- The head of a block: what it keeps, and its indentation if that is given.  The result holds the
text of the line behind these. -/
def takeBlockHead (cs : List Char) : Option (Chomp × Option Nat × List Char) :=
  let chomp? : Char → Option Chomp := fun
    | '+' => some .all
    | '-' => some .none
    | _ => none
  let digit? (c : Char) : Option Nat := if c.isDigit then some (digitsValue [c]) else none
  let checked (r : Chomp × Option Nat × List Char) : Option (Chomp × Option Nat × List Char) :=
    if r.2.1 = some 0 then .none else some r
  match cs with
  | [] => some (.one, none, [])
  | c :: rest =>
    match chomp? c, digit? c with
    | some chomp, _ =>
      match rest with
      | [] => some (chomp, none, [])
      | d :: after =>
        match digit? d with
        | some n => checked (chomp, some n, after)
        | none => some (chomp, none, rest)
    | none, some n =>
      match rest with
      | [] => checked (.one, some n, [])
      | d :: after =>
        match chomp? d with
        | some chomp => checked (chomp, some n, after)
        | none => checked (.one, some n, rest)
    | none, none => some (.one, none, cs)

/-- The lines of a text, each with its line end if it has one. -/
def linesOf : List Char → List Char → List (List Char × Option Char)
  | [], [] => []
  | [], done => [(done.reverse, none)]
  | c :: cs, done =>
    if isBreak c then (done.reverse, some c) :: linesOf cs [] else linesOf cs (c :: done)

/-- The number of spaces at the start of a line. -/
def leading (line : List Char) : Nat := (line.takeWhile (· == ' ')).length

/-- The indentation of a block: that of its first line with text, or the longest of the blank lines
before it, and at least the given one. -/
def blockIndent (least : Nat) : List (List Char × Option Char) → Nat
  | [] => least
  | (line, end_) :: lines =>
    let n := max least (leading line)
    if leading line = line.length ∧ end_.isSome then blockIndent n lines else n

/-- The state of reading a block. -/
structure Block where
  /-- The text so far, last first. -/
  done : List Char := []
  /-- The line end behind the last line with text. -/
  lineEnd : List Char := []
  /-- The line ends of the blank lines behind it, last first. -/
  blankEnds : List Char := []
  /-- Whether the last line with text began with a blank. -/
  wasBlank : Bool := false

/-- Reads the lines of a block.  The result holds the lines behind it. -/
def takeLines (folded : Bool) (indent : Nat) :
    List (List Char × Option Char) → Block → Option (Block × List (List Char × Option Char))
  | [], b => some (b, [])
  | (line, end_) :: lines, b =>
    let n := leading line
    let text := line.drop indent
    if n = line.length ∧ n ≤ indent ∧ end_.isSome then
      takeLines folded indent lines { b with blankEnds := end_.toList ++ b.blankEnds }
    else if n < indent then
      if (line.drop n).head? == some '\t' then none else some (b, (line, end_) :: lines)
    else if text.isEmpty ∧ end_.isNone then some (b, [])
    else
      let blank := text.head?.any isBlank
      let joint : List Char :=
        if folded && b.lineEnd == ['\n'] && !b.wasBlank && !blank then
          if b.blankEnds.isEmpty then [' '] else b.blankEnds
        else b.blankEnds ++ b.lineEnd
      takeLines folded indent lines
        { done := text.reverse ++ (joint ++ b.done), lineEnd := end_.toList, blankEnds := [],
          wasBlank := blank }

/-- The text of some lines. -/
def unlines (lines : List (List Char × Option Char)) : List Char :=
  lines.flatMap fun (line, end_) => line ++ end_.toList

/-- A block of lines behind its indicator, in a place of the given indentation. -/
def takeBlock (folded : Bool) (indent : Int) (p : Cursor) : Option Taken := do
  let (chomp, given, behind) ← takeBlockHead p.rest
  match linesOf behind [] with
  | [] => some ⟨"", { p with rest := [] }, true⟩
  | (head, end_) :: lines =>
    let comment := head.dropWhile isBlank
    if !comment.isEmpty && comment.head? != some '#' then none
    let outer := (max indent 0).toNat
    let least := max (indent + 1).toNat 1
    let columns := match given with
      | some n => outer + n
      | none => blockIndent least lines
    let tabbed := given.isNone && (lines.find? fun (line, e) =>
      leading line ≠ line.length || e.isNone).any fun (line, _) =>
        (line.drop (leading line)).head? == some '\t' && decide (leading line < columns)
    if tabbed then none
    let (b, after) ← takeLines folded columns lines {}
    let kept : List Char :=
      match chomp with
      | .none => []
      | .one => b.lineEnd
      | .all => b.blankEnds ++ b.lineEnd
    let text := String.ofList (kept ++ b.done).reverse
    let rest := unlines after
    let consumed := p.rest.length - rest.length
    let line := p.line + (p.rest.take consumed).countP isBreak
    some ⟨text, ⟨rest, line, 0, p.index + consumed⟩, end_.isSome⟩

end MacroForest.Yaml
