/-
**Tokens: source text as a list of lexemes.**

Source text is a sequence of tokens with blanks and comments anywhere between them.  The first
character of a token, and for `-` and `@` the second one, decides which token it is, and a token
extends as far as it can, so a text is cut into tokens in one way.

Main definitions:

* `MacroForest.Token` — the tokens;
* `MacroForest.skipBlanks` — what is left of a text after its leading blanks and comments;
* `MacroForest.Token.next?` — the token at the start of a text;
* `MacroForest.lexemes` — **all the tokens of a text**, each with the text that it starts, and the
  text at which no further token begins.

Main results:

* `MacroForest.skipBlanks_length_le` — skipping never lengthens the text;
* `MacroForest.Token.next?_length_lt` — a token takes at least one character.
-/

import MacroForest.Node.Printer

set_option relaxedAutoImplicit false
set_option autoImplicit false

namespace MacroForest

/-- A token of the source text. -/
inductive Token where
  /-- A plain word: an identifier, or a boolean where a literal can stand. -/
  | word (text : String)
  /-- A name between backquotes. -/
  | quoted (name : String)
  | number (value : Number)
  | string (value : String)
  /-- The opening `@[` of an attribute list. -/
  | attrsOpen
  /-- The closing bracket of an attribute list. -/
  | attrsClose
  | parenOpen
  | parenClose
  | braceOpen
  | braceClose
  | comma
  | semicolon
  | dot
  | bang
deriving DecidableEq

/-! ### Blanks and comments -/

/-- Blank characters. -/
def isBlank (c : Char) : Bool := c == ' ' || c == '\t' || c == '\r' || c == '\n'

/-- The text after its leading blanks and comments; `comment` tells that the text starts inside a
comment, which extends to the end of the line. -/
def skipFrom (comment : Bool) : List Char → List Char
  | [] => []
  | '/' :: '/' :: cs => skipFrom true cs
  | c :: cs =>
    if comment then skipFrom (c != '\n') cs
    else if isBlank c then skipFrom false cs
    else c :: cs

/-- The text after its leading blanks and comments. -/
def skipBlanks (cs : List Char) : List Char := skipFrom false cs

theorem skipFrom_length_le (comment : Bool) (cs : List Char) :
    (skipFrom comment cs).length ≤ cs.length := by
  fun_induction skipFrom comment cs <;> simp_all <;> omega

theorem skipBlanks_length_le (cs : List Char) : (skipBlanks cs).length ≤ cs.length :=
  skipFrom_length_le false cs

/-! ### Literals and names -/

/-- What a backslash and the character after it stand for.  In front of a character that it does
not change, the backslash stands for itself. -/
def resolveEscape : Char → List Char
  | 'n' => ['\n']
  | 't' => ['\t']
  | 'r' => ['\r']
  | '\\' => ['\\']
  | '"' => ['"']
  | c => ['\\', c]

/-- The body of a string literal with its escapes resolved, and the text after the closing quote.
A backslash always takes the next character with it. -/
def stringBody : List Char → Option (List Char × List Char)
  | [] => none
  | '"' :: cs => some ([], cs)
  | '\\' :: c :: cs => (stringBody cs).map fun (body, rest) => (resolveEscape c ++ body, rest)
  | c :: cs => (stringBody cs).map fun (body, rest) => (c :: body, rest)

/-- The name up to the closing backquote, and the text after it. -/
def quotedBody : List Char → Option (List Char × List Char)
  | [] => none
  | c :: cs =>
    if c == '\x60' then some ([], cs)
    else (quotedBody cs).map fun (body, rest) => (c :: body, rest)

theorem stringBody_length_lt {cs body rest : List Char} (h : stringBody cs = some (body, rest)) :
    rest.length < cs.length := by
  fun_induction stringBody cs generalizing body rest with
  | case1 => simp at h
  | case2 => simp_all
  | case3 c cs ih =>
    obtain ⟨⟨b, r⟩, hb, hr⟩ := Option.map_eq_some_iff.1 h
    obtain ⟨rfl, rfl⟩ := Prod.mk.inj hr
    have := ih hb
    simp only [List.length_cons]
    omega
  | case4 c cs _ _ ih =>
    obtain ⟨⟨b, r⟩, hb, hr⟩ := Option.map_eq_some_iff.1 h
    obtain ⟨rfl, rfl⟩ := Prod.mk.inj hr
    have := ih hb
    simp only [List.length_cons]
    omega

theorem quotedBody_length_lt {cs body rest : List Char} (h : quotedBody cs = some (body, rest)) :
    rest.length < cs.length := by
  induction cs generalizing body rest with
  | nil => simp [quotedBody] at h
  | cons c cs ih =>
    unfold quotedBody at h
    split at h
    · obtain ⟨rfl, rfl⟩ := Prod.mk.inj (Option.some.inj h)
      simp
    · obtain ⟨⟨b, r⟩, hb, hr⟩ := Option.map_eq_some_iff.1 h
      obtain ⟨rfl, rfl⟩ := Prod.mk.inj hr
      have := ih hb
      simp only [List.length_cons]
      omega

/-- The leading digits of a text, and what follows them. -/
def takeDigits (cs : List Char) : List Char × List Char :=
  (cs.takeWhile Char.isDigit, cs.dropWhile Char.isDigit)

/-- The digits after a point; a point without digits is not taken. -/
def takeFraction (cs : List Char) : List Char × List Char :=
  match cs with
  | '.' :: rest => if (takeDigits rest).1.isEmpty then ([], cs) else takeDigits rest
  | _ => ([], cs)

/-- An optional sign, `true` for a minus. -/
def takeSign (cs : List Char) : Bool × List Char :=
  match cs with
  | '-' :: rest => (true, rest)
  | '+' :: rest => (false, rest)
  | _ => (false, cs)

/-- A power of ten; an `e` without digits is not taken. -/
def takeExponent (cs : List Char) : Int × List Char :=
  match cs with
  | e :: rest =>
    if e == 'e' || e == 'E' then
      let (negative, unsigned) := takeSign rest
      let (digits, after) := takeDigits unsigned
      let value : Int := digitsValue digits
      if digits.isEmpty then (0, cs) else (if negative then -value else value, after)
    else (0, cs)
  | [] => (0, cs)

/-- The number that begins with the given digits, after its sign. -/
def takeNumber (negative : Bool) (cs : List Char) : Token × List Char :=
  let (whole, cs) := takeDigits cs
  let (fraction, cs) := takeFraction cs
  let (exponent, cs) := takeExponent cs
  (.number (.ofParts negative whole fraction exponent), cs)

theorem takeFraction_length_le (cs : List Char) : (takeFraction cs).2.length ≤ cs.length := by
  unfold takeFraction
  split
  · rename_i rest
    split
    · simp
    · have := (List.dropWhile_suffix (l := rest) Char.isDigit).length_le
      simp only [takeDigits, List.length_cons]
      omega
  · simp

theorem takeSign_length_le (cs : List Char) : (takeSign cs).2.length ≤ cs.length := by
  unfold takeSign
  split <;> simp

theorem takeExponent_length_le (cs : List Char) : (takeExponent cs).2.length ≤ cs.length := by
  unfold takeExponent
  split
  · rename_i e rest
    split
    · have h₁ := takeSign_length_le rest
      have h₂ := (List.dropWhile_suffix (l := (takeSign rest).2) Char.isDigit).length_le
      dsimp only [takeDigits]
      by_cases h : ((takeSign rest).2.takeWhile Char.isDigit).isEmpty
      · simp [h]
      · simp only [if_neg h, List.length_cons]
        omega
    · simp
  · simp

theorem takeNumber_length_lt (negative : Bool) (c : Char) (cs : List Char) (h : c.isDigit = true) :
    (takeNumber negative (c :: cs)).2.length < (c :: cs).length := by
  simp only [takeNumber, takeDigits, List.dropWhile_cons, h, if_true, List.length_cons]
  have h₁ := (List.dropWhile_suffix (l := cs) Char.isDigit).length_le
  have h₂ := takeFraction_length_le (cs.dropWhile Char.isDigit)
  have h₃ := takeExponent_length_le (takeFraction (cs.dropWhile Char.isDigit)).2
  omega

/-! ### Tokens -/

/-- The token of a single character. -/
def punctuation? : Char → Option Token
  | ']' => some .attrsClose
  | '(' => some .parenOpen
  | ')' => some .parenClose
  | '\x7b' => some .braceOpen
  | '\x7d' => some .braceClose
  | ',' => some .comma
  | ';' => some .semicolon
  | '.' => some .dot
  | '!' => some .bang
  | _ => none

/-- The token at the start of a text, and the text after it. -/
def Token.next? : List Char → Option (Token × List Char)
  | [] => none
  | '@' :: '[' :: cs => some (.attrsOpen, cs)
  | c :: cs =>
    if isWordStart c then
      some (.word (String.ofList (c :: cs.takeWhile isWordChar)), cs.dropWhile isWordChar)
    else if c.isDigit then some (takeNumber false (c :: cs))
    else if c == '-' then
      match cs with
      | d :: _ => if d.isDigit then some (takeNumber true cs) else none
      | [] => none
    else if c == '"' then
      (stringBody cs).map fun (body, rest) => (.string (String.ofList body), rest)
    else if c == '\x60' then
      (quotedBody cs).map fun (body, rest) => (.quoted (String.ofList body), rest)
    else (punctuation? c).map fun token => (token, cs)

theorem Token.next?_length_lt {cs rest : List Char} {token : Token}
    (h : Token.next? cs = some (token, rest)) : rest.length < cs.length := by
  unfold Token.next? at h
  split at h
  · simp at h
  · obtain ⟨-, rfl⟩ := Prod.mk.inj (Option.some.inj h)
    simp only [List.length_cons]
    omega
  · rename_i c cs _
    split at h
    · obtain ⟨-, rfl⟩ := Prod.mk.inj (Option.some.inj h)
      have := (List.dropWhile_suffix (l := cs) isWordChar).length_le
      simp only [List.length_cons]
      omega
    split at h
    · rename_i hc
      have := takeNumber_length_lt false c cs hc
      rw [Option.some.inj h] at this
      exact this
    split at h
    · split at h
      · rename_i d ds _
        split at h
        · rename_i hd
          have := takeNumber_length_lt true d ds hd
          rw [Option.some.inj h] at this
          simp only [List.length_cons] at this ⊢
          omega
        · simp at h
      · simp at h
    split at h
    · obtain ⟨⟨b, r⟩, hb, hr⟩ := Option.map_eq_some_iff.1 h
      obtain ⟨-, rfl⟩ := Prod.mk.inj hr
      have := stringBody_length_lt hb
      simp only [List.length_cons]
      omega
    split at h
    · obtain ⟨⟨b, r⟩, hb, hr⟩ := Option.map_eq_some_iff.1 h
      obtain ⟨-, rfl⟩ := Prod.mk.inj hr
      have := quotedBody_length_lt hb
      simp only [List.length_cons]
      omega
    · obtain ⟨t, -, ht⟩ := Option.map_eq_some_iff.1 h
      obtain ⟨-, rfl⟩ := Prod.mk.inj ht
      simp

/-! ### All tokens of a text -/

/-- A token together with the text that starts with it. -/
structure Lexeme where
  /-- The token. -/
  token : Token
  /-- The text from the token on. -/
  start : List Char

/-- The tokens of a text as far as they go, and the text at which they end: after the last blank if
the whole text is made of tokens, or else where no token begins. -/
def lexemes (text : List Char) : List Lexeme × List Char :=
  match _h : Token.next? (skipBlanks text) with
  | none => ([], skipBlanks text)
  | some (token, rest) =>
    let (following, stop) := lexemes rest
    (⟨token, skipBlanks text⟩ :: following, stop)
termination_by text.length
decreasing_by
  have := Token.next?_length_lt _h
  have := skipBlanks_length_le text
  omega

end MacroForest
