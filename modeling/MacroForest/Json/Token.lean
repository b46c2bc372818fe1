/-
**The tokens of a JSON text.**

A JSON text is cut into punctuation, strings, numbers and words.  A token that is begun and cannot
be finished carries the cause, since whether the cause matters depends on what was expected in its
place; nothing is read behind it.

Main definitions:

* `MacroForest.Json.Numeral` — the value of a number;
* `MacroForest.Json.Token` — the tokens;
* `MacroForest.Json.tokens` — **the tokens of a text**.
-/

import MacroForest.Json.Fault
import MacroForest.Text.Hex

set_option relaxedAutoImplicit false
set_option autoImplicit false

namespace MacroForest.Json

/-! ### Strings -/

/-- The number of bytes of some characters. -/
def byteCount (cs : List Char) : Nat := cs.foldl (fun n c => n + c.utf8Size) 0

/-- The value of four hexadecimal digits, and the text after them. -/
def takeHex (cs : List Char) : Except Fault (Nat × List Char) :=
  match cs with
  | a :: b :: c :: d :: rest =>
    match Text.hexValue? a, Text.hexValue? b, Text.hexValue? c, Text.hexValue? d with
    | some a, some b, some c, some d => .ok (((a * 16 + b) * 16 + c) * 16 + d, rest)
    | _, _, _, _ => .error .badEscape
  | _ => .error (if byteCount cs < 4 then .endInString else .badEscape)

/-- The character of two surrogates. -/
def joinSurrogates (high low : Nat) : Char :=
  Char.ofNat ((high - 0xD800) * 1024 + (low - 0xDC00) + 0x10000)

/-- The second of two surrogates, given the first, and the text after it. -/
def takeLowSurrogate (high : Nat) (cs : List Char) : Except Fault (Char × List Char) :=
  match cs with
  | [] => .error .endInString
  | ['\\'] => .error .endInString
  | '\\' :: 'u' :: rest =>
    match takeHex rest with
    | .ok (low, rest) =>
      if 0xDC00 ≤ low ∧ low ≤ 0xDFFF then .ok (joinSurrogates high low, rest)
      else .error .loneSurrogate
    | .error fault => .error fault
  | _ => .error .endOfHex

/-- The character of hexadecimal digits, and the text after them. -/
def takeCodePoint (cs : List Char) : Except Fault (Char × List Char) :=
  match takeHex cs with
  | .error fault => .error fault
  | .ok (n, rest) =>
    if 0xDC00 ≤ n ∧ n ≤ 0xDFFF then .error .loneSurrogate
    else if 0xD800 ≤ n ∧ n ≤ 0xDBFF then takeLowSurrogate n rest
    else .ok (Char.ofNat n, rest)

/-- The character that a letter stands for behind a backslash. -/
def letterEscape? : Char → Option Char
  | '"' => some '"'
  | '\\' => some '\\'
  | '/' => some '/'
  | 'b' => some '\x08'
  | 'f' => some '\x0c'
  | 'n' => some '\n'
  | 'r' => some '\r'
  | 't' => some '\t'
  | _ => none

/-- The character that an escape stands for, and the text after it. -/
def takeEscape (cs : List Char) : Except Fault (Char × List Char) :=
  match cs with
  | [] => .error .endInString
  | 'u' :: rest => takeCodePoint rest
  | c :: rest =>
    match letterEscape? c with
    | some escaped => .ok (escaped, rest)
    | none => .error .badEscape

theorem takeHex_length_lt {cs rest : List Char} {n : Nat} (h : takeHex cs = .ok (n, rest)) :
    rest.length < cs.length := by
  unfold takeHex at h
  split at h
  · split at h
    · obtain ⟨-, rfl⟩ := Prod.mk.inj (Except.ok.inj h)
      simp only [List.length_cons]
      omega
    · simp at h
  · simp at h

theorem takeLowSurrogate_length_lt {high : Nat} {cs rest : List Char} {c : Char}
    (h : takeLowSurrogate high cs = .ok (c, rest)) : rest.length < cs.length := by
  unfold takeLowSurrogate at h
  split at h
  · simp at h
  · simp at h
  · split at h
    · rename_i hex
      split at h
      · obtain ⟨-, rfl⟩ := Prod.mk.inj (Except.ok.inj h)
        have := takeHex_length_lt hex
        simp only [List.length_cons]
        omega
      · simp at h
    · simp at h
  · simp at h

theorem takeCodePoint_length_lt {cs rest : List Char} {c : Char}
    (h : takeCodePoint cs = .ok (c, rest)) : rest.length < cs.length := by
  unfold takeCodePoint at h
  split at h
  · simp at h
  · rename_i hex
    have := takeHex_length_lt hex
    split at h
    · simp at h
    · split at h
      · have := takeLowSurrogate_length_lt h
        omega
      · obtain ⟨-, rfl⟩ := Prod.mk.inj (Except.ok.inj h)
        omega

theorem takeEscape_length_lt {cs rest : List Char} {c : Char}
    (h : takeEscape cs = .ok (c, rest)) : rest.length < cs.length := by
  unfold takeEscape at h
  split at h
  · simp at h
  · have := takeCodePoint_length_lt h
    simp only [List.length_cons]
    omega
  · split at h
    · obtain ⟨-, rfl⟩ := Prod.mk.inj (Except.ok.inj h)
      simp
    · simp at h

/-- The content of a string up to the closing quote, and the text after it.  `done` holds the
characters so far, last first. -/
def takeString (cs done : List Char) : Except Fault (String × List Char) :=
  match cs with
  | [] => .error .endInString
  | c :: rest =>
    if c = '"' then .ok (String.ofList done.reverse, rest)
    else if c = '\\' then
      match _h : takeEscape rest with
      | .ok (escaped, rest) => takeString rest (escaped :: done)
      | .error fault => .error fault
    else if c.toNat < 32 then .error .controlInString
    else takeString rest (c :: done)
termination_by cs.length
decreasing_by
  · have := takeEscape_length_lt _h
    simp only [List.length_cons]
    omega
  · simp

theorem takeString_length_lt {cs done rest : List Char} {s : String}
    (h : takeString cs done = .ok (s, rest)) : rest.length < cs.length := by
  fun_induction takeString cs done with
  | case1 => simp at h
  | case2 =>
    obtain ⟨-, rfl⟩ := Prod.mk.inj (Except.ok.inj h)
    simp
  | case3 _ _ _ _ he _ ih =>
    have := ih h
    have := takeEscape_length_lt he
    simp only [List.length_cons]
    omega
  | case4 => simp at h
  | case5 => simp at h
  | case6 _ _ _ _ _ _ ih =>
    have := ih h
    simp only [List.length_cons]
    omega

/-! ### Numbers -/

/-- The value of a number. -/
inductive Numeral where
  | integer (value : Int)
  | real (value : Number)

/-- What stands in a text, if it is a number. -/
def Numeral.found : Numeral → Found
  | .integer value => .integer value
  | .real value => .real value

/-- The greatest significand. -/
def maxWord : Nat := UInt64.size - 1

/-- Appends digits to a significand as long as it stays a word, and counts the digits taken and the
digits left. -/
def extend : Nat → List Char → Nat × Nat × Nat
  | n, [] => (n, 0, 0)
  | n, d :: ds =>
    let next := 10 * n + digitsValue [d]
    if maxWord < next then (n, 0, ds.length + 1)
    else
      let (n, taken, left) := extend next ds
      (n, taken + 1, left)

/-- The greatest exponent that is kept exactly. -/
def maxExponent : Nat := pow2 31 - 1

/-- The number of a significand and a power of ten. -/
def realOf (negative : Bool) (significand : Nat) (exponent : Int) : Except Fault Numeral :=
  match (Number.ofNat significand).scaled? exponent with
  | some x => .ok (.real (if negative then Number.ofBits (x.bits ||| (Number.zero true).bits) else x))
  | none => .error .numberRange

/-- The exponent behind an `e`, and the text after it. -/
def takeExponent (negative : Bool) (significand : Nat) (start : Int) (cs : List Char) :
    Except Fault Numeral × List Char :=
  let (down, cs) : Bool × List Char :=
    match cs with
    | '+' :: rest => (false, rest)
    | '-' :: rest => (true, rest)
    | _ => (false, cs)
  let digits := cs.takeWhile Char.isDigit
  let rest := cs.dropWhile Char.isDigit
  if digits.isEmpty then (.error (if cs.isEmpty then .endInValue else .badNumber), rest)
  else
    let exponent : Int := digitsValue digits
    if (maxExponent : Int) < exponent then
      if significand ≠ 0 ∧ !down then (.error .numberRange, rest)
      else (.ok (.real (.zero negative)), rest)
    else (realOf negative significand (if down then start - exponent else start + exponent), rest)

/-- The number that a significand and a power of ten begin, and the text after it. -/
def takePower (negative : Bool) (significand : Nat) (exponent : Int) (cs : List Char) :
    Except Fault Numeral × List Char :=
  match cs with
  | 'e' :: rest => takeExponent negative significand exponent rest
  | 'E' :: rest => takeExponent negative significand exponent rest
  | _ => (realOf negative significand exponent, cs)

/-- An integer: a natural number, a negative one of at most 63 bits, or else a real one. -/
def integerOf (negative : Bool) (n : Nat) : Except Fault Numeral :=
  if negative then
    if n = 0 ∨ pow2 63 < n then realOf true n 0 else .ok (.integer (-(n : Int)))
  else .ok (.integer n)

/-- The number that begins at a digit, after its sign, and the text after it. -/
def takeNumber (negative : Bool) (cs : List Char) : Except Fault Numeral × List Char :=
  let digits := cs.takeWhile Char.isDigit
  let rest := cs.dropWhile Char.isDigit
  match digits with
  | [] => (.error (if cs.isEmpty then .endInValue else .badNumber), rest)
  | '0' :: _ :: _ => (.error .badNumber, rest)
  | _ =>
    let (significand, _, left) := extend 0 digits
    match rest with
    | '.' :: rest =>
      let places := rest.takeWhile Char.isDigit
      let rest := rest.dropWhile Char.isDigit
      if places.isEmpty then (.error (if rest.isEmpty then .endInValue else .badNumber), rest)
      else
        let (significand, taken, _) := extend significand places
        takePower negative significand (left - taken) rest
    | 'e' :: _ => takePower negative significand left rest
    | 'E' :: _ => takePower negative significand left rest
    | _ => (if left = 0 then integerOf negative significand
            else realOf negative significand left, rest)

theorem takeExponent_length_le (negative : Bool) (significand : Nat) (start : Int)
    (cs : List Char) : (takeExponent negative significand start cs).2.length ≤ cs.length := by
  have drop (ds : List Char) := (List.dropWhile_suffix (l := ds) Char.isDigit).length_le
  unfold takeExponent
  split
  rename_i down ds hd
  have : ds.length ≤ cs.length := by
    split at hd <;> (obtain ⟨-, rfl⟩ := Prod.mk.inj hd; simp)
  have := drop ds
  dsimp only
  repeat' split
  all_goals (dsimp only; omega)

theorem takePower_length_le (negative : Bool) (significand : Nat) (exponent : Int)
    (cs : List Char) : (takePower negative significand exponent cs).2.length ≤ cs.length := by
  unfold takePower
  split
  · have := takeExponent_length_le negative significand exponent ‹List Char›
    simp only [List.length_cons]
    omega
  · have := takeExponent_length_le negative significand exponent ‹List Char›
    simp only [List.length_cons]
    omega
  · simp

theorem takeNumber_length_le (negative : Bool) (cs : List Char) :
    (takeNumber negative cs).2.length ≤ (cs.dropWhile Char.isDigit).length := by
  unfold takeNumber
  dsimp only
  split
  · exact Nat.le_refl _
  · exact Nat.le_refl _
  · split
    · rename_i rest hrest
      have := (List.dropWhile_suffix (l := rest) Char.isDigit).length_le
      rw [hrest, List.length_cons]
      split
      · dsimp only
        omega
      · exact Nat.le_trans (takePower_length_le ..) (by omega)
    · exact takePower_length_le ..
    · exact takePower_length_le ..
    · exact Nat.le_refl _

/-! ### Tokens -/

/-- A token of a JSON text. -/
inductive Token where
  | mapOpen
  | mapClose
  | listOpen
  | listClose
  | comma
  | colon
  | string (content : Except Fault String)
  | number (value : Except Fault Numeral)
  /-- The word for null, true or false. -/
  | word (value : Except Fault (Option Bool))
  /-- A character with which no token begins. -/
  | other

/-- The token of a single character. -/
def punctuation? : Char → Option Token
  | '\x7b' => some .mapOpen
  | '\x7d' => some .mapClose
  | '[' => some .listOpen
  | ']' => some .listClose
  | ',' => some .comma
  | ':' => some .colon
  | _ => none

/-- Whether a character is blank. -/
def isBlank (c : Char) : Bool := c == ' ' || c == '\n' || c == '\t' || c == '\r'

/-- Compares a text with the rest of a word. -/
def matchWord : List Char → List Char → Except Fault Unit
  | [], _ => .ok ()
  | _ :: _, [] => .error .endInValue
  | w :: ws, c :: cs => if w = c then matchWord ws cs else .error .expectedWord

/-- The word that begins with a letter, without that letter, and its value. -/
def word? : Char → Option (List Char × Option Bool)
  | 'n' => some (['u', 'l', 'l'], none)
  | 't' => some (['r', 'u', 'e'], some true)
  | 'f' => some (['a', 'l', 's', 'e'], some false)
  | _ => none

/-- The tokens of a text, up to one that cannot be finished. -/
def tokens (cs : List Char) : List Token :=
  match cs with
  | [] => []
  | c :: rest =>
    if isBlank c then tokens rest
    else
      match punctuation? c with
      | some token => token :: tokens rest
      | none =>
        if c = '"' then
          match _h : takeString rest [] with
          | .ok (content, after) => .string (.ok content) :: tokens after
          | .error fault => [.string (.error fault)]
        else if c = '-' then
          match _h : takeNumber true rest with
          | (.ok value, after) => .number (.ok value) :: tokens after
          | (.error fault, _) => [.number (.error fault)]
        else if _hc : c.isDigit then
          match _h : takeNumber false (c :: rest) with
          | (.ok value, after) => .number (.ok value) :: tokens after
          | (.error fault, _) => [.number (.error fault)]
        else
          match word? c with
          | some (letters, value) =>
            match matchWord letters rest with
            | .ok () => .word (.ok value) :: tokens (rest.drop letters.length)
            | .error fault => [.word (.error fault)]
          | none => [.other]
termination_by cs.length
decreasing_by
  · simp
  · simp
  · have := takeString_length_lt _h
    simp only [List.length_cons]
    omega
  · have := takeNumber_length_le true rest
    have := (List.dropWhile_suffix (l := rest) Char.isDigit).length_le
    simp only [_h, List.length_cons] at *
    omega
  · have := takeNumber_length_le false (c :: rest)
    have := (List.dropWhile_suffix (l := rest) Char.isDigit).length_le
    simp only [_h, _hc, List.dropWhile_cons, if_true, List.length_cons] at *
    omega
  · simp only [List.length_cons, List.length_drop]
    omega

end MacroForest.Json
