/-
**Parsing source text.**

A text is a forest if all of it is made of tokens and the reader takes them.  Otherwise the error
is placed at the first token that cannot stand where it does, or where no token begins, and its
wording is a guess at the cause from the brackets and quotes in the whole text.

Main definitions:

* `MacroForest.ParseError` — where a text goes wrong, and the likely cause;
* `MacroForest.parse` — **from text to forest**.
-/

import MacroForest.Source.Reader

set_option relaxedAutoImplicit false
set_option autoImplicit false

namespace MacroForest

/-- The likely cause of a parse error. -/
inductive ParseFault where
  | unclosedParen
  | unclosedBrace
  | unclosedQuote
  | malformed
deriving DecidableEq

/-- The wording of a cause. -/
def ParseFault.message : ParseFault → String
  | .unclosedParen => "Missing closing parenthesis"
  | .unclosedBrace => "Missing closing brace"
  | .unclosedQuote => "Missing closing quote"
  | .malformed => "Syntax error"

/-- The likely cause for a whole text: an excess of opening parentheses, else of opening braces,
else an odd number of quotes.  Characters in strings and comments count too. -/
def ParseFault.of (text : List Char) : ParseFault :=
  if text.count ')' < text.count '(' then .unclosedParen
  else if text.count '\x7d' < text.count '\x7b' then .unclosedBrace
  else if text.count '"' % 2 = 1 then .unclosedQuote
  else .malformed

/-- A text that is no forest. -/
structure ParseError where
  /-- The likely cause. -/
  fault : ParseFault
  /-- The offset of the error, in bytes. -/
  offset : Nat
deriving DecidableEq

/-- The number of bytes of some characters. -/
def byteLength (cs : List Char) : Nat := cs.foldl (fun n c => n + c.utf8Size) 0

/-- The text from the lexeme of index `i` on, or from the end of the lexemes. -/
def startOf (lexemes : List Lexeme) (stop : List Char) (i : Nat) : List Char :=
  match lexemes[i]? with
  | some lexeme => lexeme.start
  | none => stop

/-- Reads a text, given as its characters. -/
def parseChars (text : List Char) : Except ParseError Forest :=
  let (lexemes, stop) := lexemes text
  let failAt (rest : List Char) : Except ParseError Forest :=
    .error ⟨.of text, byteLength text - byteLength rest⟩
  match readTokens (lexemes.map (·.token)) with
  | .error i => failAt (startOf lexemes stop i)
  | .ok forest => if stop.isEmpty then .ok forest else failAt stop

/-- The forest that a text spells. -/
def parse (text : String) : Except ParseError Forest := parseChars text.toList

end MacroForest
