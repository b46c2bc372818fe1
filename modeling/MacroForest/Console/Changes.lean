/-
**The changes between two texts.**

The lines that two texts have in common are found by the lengths of the longest common runs of lines
that end at two places.  The texts are then walked through along with these lines: what is in all
three is the same, what only the first has is removed, and what only the second has is added.

Main definitions:

* `MacroForest.Changes.lengths` — the table of lengths;
* `MacroForest.Changes.common` — the lines in common;
* `MacroForest.Changes.changes` — **the groups of lines that stay, go and come**;
* `MacroForest.Changes.render` — the changes line by line.
-/

import MacroForest.Console.Paint

set_option relaxedAutoImplicit false
set_option autoImplicit false

namespace MacroForest.Changes

/-! ### Lines -/

/-- The lines of some characters. -/
def splitLines : List Char → List (List Char)
  | [] => [[]]
  | '\n' :: cs => [] :: splitLines cs
  | c :: cs =>
    match splitLines cs with
    | line :: lines => (c :: line) :: lines
    | [] => [[c]]

/-- The lines of a text; an empty text is one empty line. -/
def linesOf (text : String) : List String := (splitLines text.toList).map String.ofList

/-- A text without the blanks at its end. -/
def trimEnd (text : String) : String :=
  String.ofList (text.toList.reverse.dropWhile Char.isWhitespace).reverse

/-! ### Lines in common -/

/-- The entry of a table of lengths for the lines `x` and `y`, given the entries above, to the left,
and above to the left; those that do not exist are zero. -/
def entryAt (x y : String) (above left diagonal : Nat) : Nat :=
  if x = y then diagonal + 1 else max left above

/-- A row of the table of lengths for the line `x`; `above` are the entries above those to come,
after the one above the last entry, and `left` is the last entry. -/
def row (x : String) : List String → List Nat → Nat → Nat → List Nat
  | [], _, _, _ => []
  | y :: ys, above, diagonal, left =>
    let up := above.headD 0
    let entry := entryAt x y up left diagonal
    entry :: row x ys (above.drop 1) up entry

/-- The rows of the table of lengths, given the row above them. -/
def rows (b : List String) : List String → List Nat → List (List Nat)
  | [], _ => []
  | x :: xs, above =>
    let current := row x b above 0 0
    current :: rows b xs current

/-- The table of lengths for the lines of two texts, one row after another. -/
def lengths (a b : List String) : Array Nat := ((rows b a []).flatten).toArray

/-- The lines in common before the lines `i` and `j` of two texts, last first.  Where the lines
differ, the walk goes to the side with the longer run; at the first line of the second text it
compares with the end of the row above. -/
def walk (a b : Array String) (table : Array Nat) : Nat → Nat → List String
  | 0, _ => []
  | _, 0 => []
  | i + 1, j + 1 =>
    let width := b.size
    if a.getD i "" = b.getD j "" then a.getD i "" :: walk a b table i j
    else if i = 0 ∧ j = 0 then []
    else if i = 0 ∨ table.getD ((i - 1) * width + j) 0 < table.getD (i * width + j - 1) 0 then
      walk a b table (i + 1) j
    else walk a b table i (j + 1)
termination_by i j => i + j

/-- The lines in common. -/
def common (a b : List String) : List String :=
  (walk a.toArray b.toArray (lengths a b) a.length b.length).reverse

/-! ### Changes -/

/-- What happens to some lines. -/
inductive Kind where
  | same
  | removed
  | added

/-- A group of lines with one fate. -/
structure Group where
  /-- The fate. -/
  kind : Kind
  /-- The lines, as one text. -/
  text : String

/-- A group, unless it has no lines. -/
def groupOf (kind : Kind) (lines : List String) : List Group :=
  if lines.isEmpty then [] else [⟨kind, "\n".intercalate lines⟩]

/-- The number of lines with which three lists begin alike. -/
def sharedCount : List String → List String → List String → Nat
  | x :: xs, y :: ys, z :: zs => if x = y ∧ x = z then sharedCount xs ys zs + 1 else 0
  | _, _, _ => 0

/-- The number of lines in front of one that begins another list. -/
def countBefore (lines : List String) (stop : List String) : Nat :=
  (lines.takeWhile fun line => stop.head? != some line).length

/-- The groups of two lists of lines, along with the lines in common, in at most so many rounds. -/
def merge : Nat → List String → List String → List String → List Group
  | 0, _, _, _ => []
  | fuel + 1, left, right, shared =>
    if left.isEmpty && right.isEmpty then []
    else
      let n := sharedCount left right shared
      let same := left.take n
      let (left, right, shared) := (left.drop n, right.drop n, shared.drop n)
      let gone := countBefore left shared
      let come := countBefore right shared
      groupOf .same same ++ groupOf .removed (left.take gone) ++ groupOf .added (right.take come) ++
        merge fuel (left.drop gone) (right.drop come) shared

/-- The lines of a text; an empty text has none. -/
def presentLines (text : String) : List String := if text.isEmpty then [] else linesOf text

/-- The groups of lines that stay, go and come between two texts.  Each round takes a line. -/
def changes (before after : String) : List Group :=
  let shared := "\n".intercalate (common (linesOf before) (linesOf after))
  let left := presentLines before
  let right := presentLines after
  merge (left.length + right.length) left right (presentLines shared)

/-! ### Written form -/

/-- The mark in front of a line. -/
def Kind.mark : Kind → String
  | .same => " "
  | .removed => "-"
  | .added => "+"

/-- The colour of a group. -/
def Kind.colour : Kind → Option Colour
  | .same => none
  | .removed => some .red
  | .added => some .green

/-- A line without the carriage return at its end. -/
def dropReturn (line : String) : String :=
  match line.toList.reverse with
  | '\r' :: reversed => String.ofList reversed.reverse
  | _ => line

/-- The lines of a text as they are shown: a carriage return before a line feed is left out, and an
empty last piece is no line. -/
def shownLines (text : String) : List String :=
  match (linesOf text).reverse with
  | [] => []
  | last :: others =>
    others.reverse.map dropReturn ++ (if last.isEmpty then [] else [last])

/-- The changes line by line. -/
def render (p : Paint) (before after : String) : String :=
  String.join ((changes (trimEnd before) (trimEnd after)).map fun g =>
    p.begin { colour := g.kind.colour } ++
      String.join ((shownLines g.text).map fun line => g.kind.mark ++ line ++ "\n")) ++ p.reset

end MacroForest.Changes
