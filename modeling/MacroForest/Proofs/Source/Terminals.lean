/-
**Literals, names and punctuation in the grammar.**

The rules for literals and names know no blanks.  At the start of a text each of them takes what
the lexer takes there, or fails where the lexer finds something else.  So the other rules can be
compared with the reader token by token.

What the fold of the grammar asks of the texts of these rules holds: a number is one in the common
format, the delimiters of strings and quoted names are there, and no string ends in a backslash that
takes nothing with it.

Main results:

* `MacroForest.Notation.number_takes`, `MacroForest.Notation.string_takes`,
  `MacroForest.Notation.boolean_takes`, `MacroForest.Notation.ident_takes` — **the tokens that rules
  take**, each with what the fold makes of its text;
* `MacroForest.Notation.punct_takes`, `MacroForest.Notation.punct_fails` — punctuation.
-/

import MacroForest.Proofs.Source.Lexical

set_option relaxedAutoImplicit false
set_option autoImplicit false

namespace MacroForest

namespace Token

/-- The operand that a token is. -/
def atom? : Token → Option Node
  | .word w => some (Reader.wordNode w)
  | .quoted name => some (.ident name)
  | .number value => some (.number value)
  | .string value => some (.string value)
  | _ => none

/-- The name that a token is. -/
def name? : Token → Option String
  | .word w => some w
  | .quoted name => some name
  | _ => none

end Token

namespace Notation

open Peg

variable {whole cs rest : List Char}

theorem atom?_of_punctuation {c : Char} {t : Token} (h : punctuation? c = some t) :
    t.atom? = none := by
  unfold punctuation? at h
  split at h
  case h_10 => exact nomatch h
  all_goals
    obtain rfl := Option.some.inj h
    rfl

/-! ### Numbers -/

theorem digits_derive (cs : List Char) :
    Derives grammar whole .atomic Rule.digits cs
      (if (takeDigits cs).1.isEmpty then none else some ([], (takeDigits cs).2)) :=
  (Derives.takesOne_one Char.isDigit).plus (by decide) cs

theorem fraction_derives (cs : List Char) :
    Derives grammar whole .atomic (.opt (.seq (.lit ['.']) Rule.digits)) cs
      (some ([], (takeFraction cs).2)) := by
  unfold takeFraction
  split
  · rename_i tail
    have hseq : Derives grammar whole .atomic (.seq (.lit ['.']) Rule.digits) ('.' :: tail) _ :=
      .seq_of_ne (by decide) (.lit_takes ['.'] tail) (digits_derive tail)
    split
    · rename_i hempty
      rw [if_pos hempty] at hseq
      exact .optNot hseq
    · rename_i hdigits
      rw [if_neg hdigits] at hseq
      exact .opt hseq
  · rename_i hpoint
    exact .optNot (.seqFails (.lit_fails hpoint))

theorem sign_derives (cs : List Char) :
    Derives grammar whole .atomic (.opt (.alt (.lit ['+']) (.lit ['-']))) cs
      (some ([], (takeSign cs).2)) := by
  unfold takeSign
  split
  · exact .opt (.altRight (.lit_fails (by simp)) (.lit_takes ['-'] _))
  · exact .opt (.altLeft (.lit_takes ['+'] _))
  · rename_i hminus hplus
    exact .optNot (.altRight (.lit_fails hplus) (.lit_fails hminus))

theorem exponent_derives (cs : List Char) :
    Derives grammar whole .atomic
      (.opt (.seqs [.alt (.lit ['e']) (.lit ['E']), .opt (.alt (.lit ['+']) (.lit ['-'])),
        Rule.digits])) cs (some ([], (takeExponent cs).2)) := by
  have hletter : Derives.TakesOne grammar whole .atomic (.alt (.lit ['e']) (.lit ['E'])) _ :=
    (Derives.takesOne_lit 'e').alt (Derives.takesOne_lit 'E')
  have hletter := hletter cs
  unfold takeExponent
  split
  · rename_i e tail
    split
    · rename_i he
      rw [oneOf, if_pos he] at hletter
      have hpower := Derives.seq_of_ne (by decide) hletter (.seq_of_ne (by decide)
        (sign_derives tail) (digits_derive (takeSign tail).2))
      dsimp only
      split
      · rename_i hempty
        rw [if_pos hempty] at hpower
        exact .optNot hpower
      · rename_i hdigits
        rw [if_neg hdigits] at hpower
        exact .opt hpower
    · rename_i he
      rw [oneOf, if_neg he] at hletter
      exact .optNot (.seqFails hletter)
  · exact .optNot (.seqFails hletter)

/-- A number after its sign. -/
theorem unsigned_derives (negative : Bool) (cs : List Char) :
    Derives grammar whole .atomic
      (.seqs [Rule.digits, .opt (.seq (.lit ['.']) Rule.digits),
        .opt (.seqs [.alt (.lit ['e']) (.lit ['E']), .opt (.alt (.lit ['+']) (.lit ['-'])),
          Rule.digits])]) cs
      (if (takeDigits cs).1.isEmpty then none else some ([], (takeNumber negative cs).2)) := by
  have hdigits : Derives grammar whole _ _ _ _ := digits_derive cs
  split
  · rename_i hempty
    rw [if_pos hempty] at hdigits
    exact .seqFails hdigits
  · rename_i hne
    rw [if_neg hne] at hdigits
    exact .seq_of_ne (by decide) hdigits
      (.seq_of_ne (by decide) (fraction_derives _) (exponent_derives _))

theorem takeDigits_cons_ne_nil {c : Char} (hc : c.isDigit = true) (tail : List Char) :
    (takeDigits (c :: tail)).1 ≠ [] := by
  simp [takeDigits, hc]

theorem takeDigits_isEmpty (h : ∀ c ∈ cs.head?, c.isDigit = false) :
    (takeDigits cs).1.isEmpty = true := by
  cases cs with
  | nil => rfl
  | cons c tail => simp [takeDigits, h c rfl]

theorem takeSign_of_isDigit {c : Char} (hc : c.isDigit = true) (tail : List Char) :
    takeSign (c :: tail) = (false, c :: tail) := by
  unfold takeSign
  split
  · rename_i heq
    obtain ⟨rfl, -⟩ := List.cons.inj heq
    exact absurd hc (by decide)
  · rename_i heq
    obtain ⟨rfl, -⟩ := List.cons.inj heq
    exact absurd hc (by decide)
  · rfl

/-- The text of a number after its sign. -/
theorem ofText?_takeNumber {negative : Bool} {value : Number} (hdigits : (takeDigits cs).1 ≠ [])
    (h : takeNumber negative cs = (.number value, rest)) :
    ∃ text, cs = text ++ rest ∧ text ≠ [] ∧
      ∀ signed, takeSign signed = (negative, text) → Number.ofText? signed = some value := by
  obtain ⟨fractionText, hcs₁, hfraction⟩ := fractionText_takeFraction (takeDigits cs).2
  obtain ⟨exponentText, hcs₂, hexponent⟩ :=
    exponentText_takeExponent (takeFraction (takeDigits cs).2).2
  have hnumber : takeNumber negative cs =
      (.number (.ofParts negative (takeDigits cs).1 (takeFraction (takeDigits cs).2).1
        (takeExponent (takeFraction (takeDigits cs).2).2).1),
        (takeExponent (takeFraction (takeDigits cs).2).2).2) := rfl
  rw [hnumber] at h
  obtain ⟨hvalue, hrest⟩ := Prod.mk.inj h
  rw [← Token.number.inj hvalue]
  refine ⟨(takeDigits cs).1 ++ (fractionText ++ exponentText), ?_, by simp [hdigits],
    fun signed hsigned => ofText?_parts hsigned hdigits (fun c => isDigit_of_mem_takeDigits)
      hfraction hexponent⟩
  rw [List.append_assoc, List.append_assoc, ← hrest, ← hcs₂, ← hcs₁, takeDigits_append]

/-- **The rule for numbers takes the number that the lexer takes**, and its text is that number. -/
theorem number_takes {value : Number} (h : Token.next? cs = some (.number value, rest)) :
    ∃ text, cs = text ++ rest ∧ Number.ofText? text = some value ∧
      Derives grammar whole .loose (.rule .number) cs (some ([⟨.number, text, []⟩], rest)) := by
  cases next?_eq_some_iff.1 h with
  | @unsigned c tail _ _ hc hnumber =>
      have hdigits := takeDigits_cons_ne_nil hc tail
      obtain ⟨text, htext, hne, hvalue⟩ := ofText?_takeNumber hdigits hnumber
      have hsign : takeSign text = (false, text) := by
        cases text with
        | nil => exact absurd rfl hne
        | cons d text' =>
            obtain ⟨rfl, -⟩ := List.cons.inj htext
            exact takeSign_of_isDigit hc text'
      have hminus : ∀ rest, c :: tail ≠ ['-'] ++ rest := by
        rintro rest heq
        obtain ⟨rfl, -⟩ := List.cons.inj heq
        exact absurd hc (by decide)
      have hbody : Derives grammar whole .atomic (grammar.body .number) (c :: tail) _ :=
        .seq_of_ne (by decide) (.optNot (.lit_fails hminus)) (unsigned_derives false (c :: tail))
      rw [if_neg (by simpa using hdigits), hnumber] at hbody
      rw [htext] at hbody ⊢
      exact ⟨text, rfl, hvalue text hsign, .rule_leaves (by decide) (by decide) hbody⟩
  | @negative c tail _ _ hc hnumber =>
      have hdigits := takeDigits_cons_ne_nil hc tail
      obtain ⟨text, htext, -, hvalue⟩ := ofText?_takeNumber hdigits hnumber
      have hbody : Derives grammar whole .atomic (grammar.body .number) ('-' :: c :: tail) _ :=
        .seq_of_ne (by decide) (.opt (.lit_takes ['-'] (c :: tail)))
          (unsigned_derives true (c :: tail))
      rw [if_neg (by simpa using hdigits), hnumber] at hbody
      rw [htext] at hbody ⊢
      rw [← List.cons_append] at hbody ⊢
      exact ⟨'-' :: text, rfl, hvalue _ rfl, .rule_leaves (by decide) (by decide) hbody⟩
  | punctuation _ hc => exact nomatch atom?_of_punctuation hc

theorem number_fails (h : ∀ value rest, Token.next? cs ≠ some (.number value, rest)) :
    Derives grammar whole .loose (.rule .number) cs none := by
  refine .ruleFails ?_
  by_cases hminus : ∃ tail, cs = '-' :: tail
  · obtain ⟨tail, rfl⟩ := hminus
    have hempty : (takeDigits tail).1.isEmpty = true := by
      refine takeDigits_isEmpty fun c hc => ?_
      obtain ⟨tail, rfl⟩ := List.head?_eq_some_iff.1 hc
      by_contra hdigit
      exact h _ _ (next?_eq_some_iff.2 (.negative (by simpa using hdigit) rfl))
    have hunsigned : Derives grammar whole _ _ _ _ := unsigned_derives true tail
    rw [if_pos hempty] at hunsigned
    exact .seq_of_ne (by decide) (.opt (.lit_takes ['-'] tail)) hunsigned
  · have hempty : (takeDigits cs).1.isEmpty = true := by
      refine takeDigits_isEmpty fun c hc => ?_
      obtain ⟨tail, rfl⟩ := List.head?_eq_some_iff.1 hc
      by_contra hdigit
      exact h _ _ (next?_eq_some_iff.2 (.unsigned (by simpa using hdigit) rfl))
    have hunsigned : Derives grammar whole _ _ _ _ := unsigned_derives false cs
    rw [if_pos hempty] at hunsigned
    exact .seq_of_ne (by decide) (.optNot (.lit_fails fun rest heq => hminus ⟨rest, heq⟩)) hunsigned

/-! ### Strings -/

/-- One character of a string, or a backslash with the character after it. -/
def character : Expr Rule :=
  .alt (.seq (.lit ['\\']) Rule.any) (.seq (.absent (.lit ['"'])) Rule.any)

theorem character_derives {c : Char} (hc : c ≠ '"') (tail : List Char)
    (hescape : ∀ d ds, c :: tail ≠ '\\' :: d :: ds) :
    Derives grammar whole .atomic character (c :: tail) (some ([], tail)) := by
  have hplain : Derives grammar whole .atomic (.seq (.absent (.lit ['"'])) Rule.any) (c :: tail)
      (some ([], tail)) :=
    .seq_of_ne (by decide) (.absent (.lit_fails (by simp [hc]))) (.one _ (c :: tail))
  by_cases hbackslash : c = '\\'
  · subst hbackslash
    cases tail with
    | nil =>
        exact .altRight (.seq_of_ne (by decide) (.lit_takes ['\\'] []) (.one _ [])) hplain
    | cons d ds => exact absurd rfl (hescape d ds)
  · exact .altRight (.seqFails (.lit_fails (by simp [hbackslash]))) hplain

/-- The characters of a string end in front of the closing quote, or at the end of the text. -/
theorem characters_derive (cs : List Char) :
    Derives grammar whole .atomic (.again character) cs
      (some ([], (stringBody cs).elim [] fun x => '"' :: x.2)) := by
  have hhere : ∀ cs, Derives grammar whole .atomic (grammar.between .atomic) cs (some ([], cs)) :=
    fun cs => .between_of_ne (by decide) cs
  have hmap : ∀ (found : Option (List Char × List Char)) (f : List Char → List Char),
      (found.map fun x => (f x.1, x.2)).elim [] (fun x => '"' :: x.2) =
        found.elim [] fun x => '"' :: x.2 := by
    intro found f
    cases found <;> rfl
  fun_induction stringBody cs with
  | case1 =>
      exact .againEnds (hhere [])
        (.altRight (.seqFails (.lit_fails (by simp)))
          (.seq_of_ne (by decide) (.absent (.lit_fails (by simp))) (.one _ [])))
  | case2 tail =>
      exact .againEnds (hhere _)
        (.altRight (.seqFails (.lit_fails (by simp)))
          (.seqFails (.absentFails (.lit_takes ['"'] tail))))
  | case3 c tail ih =>
      rw [hmap]
      exact .again (hhere _)
        (.altLeft (.seq_of_ne (by decide) (.lit_takes ['\\'] (c :: tail)) (.one _ (c :: tail)))) ih
  | case4 c tail hquote hescape ih =>
      rw [hmap]
      refine .again (hhere _) (character_derives ?_ tail ?_) ih
      · rintro rfl
        exact hquote rfl
      · rintro d ds heq
        obtain ⟨rfl, rfl⟩ := List.cons.inj heq
        exact hescape _ _ rfl rfl

/-- The body of a string before its escapes are resolved. -/
theorem exists_raw {body : List Char} (h : stringBody cs = some (body, rest)) :
    ∃ raw, cs = raw ++ '"' :: rest ∧ unescape raw = .ok body := by
  fun_induction stringBody cs generalizing body with
  | case1 => cases h
  | case2 tail =>
      obtain ⟨rfl, rfl⟩ := Prod.mk.inj (Option.some.inj h)
      exact ⟨[], rfl, rfl⟩
  | case3 c tail ih =>
      obtain ⟨⟨body', rest'⟩, hbody, heq⟩ := Option.map_eq_some_iff.1 h
      obtain ⟨rfl, rfl⟩ := Prod.mk.inj heq
      obtain ⟨raw, rfl, hraw⟩ := ih hbody
      exact ⟨'\\' :: c :: raw, rfl, unescape_escape hraw c⟩
  | case4 c tail hquote hescape ih =>
      obtain ⟨⟨body', rest'⟩, hbody, heq⟩ := Option.map_eq_some_iff.1 h
      obtain ⟨rfl, rfl⟩ := Prod.mk.inj heq
      obtain ⟨raw, rfl, hraw⟩ := ih hbody
      -- a backslash would take the next character with it, and there is one
      have hbackslash : c ≠ '\\' := by
        rintro rfl
        cases raw with
        | nil => exact hescape _ _ rfl rfl
        | cons d ds => exact hescape _ _ rfl rfl
      exact ⟨c :: raw, rfl, unescape_cons hraw hbackslash⟩

/-- **The rule for strings takes the string that the lexer takes**, between two quotes. -/
theorem string_takes {value : String} (h : Token.next? cs = some (.string value, rest)) :
    ∃ raw, cs = '"' :: (raw ++ '"' :: rest) ∧ unescape raw = .ok value.toList ∧
      Derives grammar whole .loose (.rule .string) cs
        (some ([⟨.string, '"' :: (raw ++ ['"']), []⟩], rest)) := by
  cases next?_eq_some_iff.1 h with
  | @string tail body _ hbody =>
      obtain ⟨raw, htail, hraw⟩ := exists_raw hbody
      have hcharacters : Derives grammar whole _ _ _ _ := characters_derive tail
      rw [hbody] at hcharacters
      have hrule : Derives grammar whole .atomic (grammar.body .string) ('"' :: tail) _ :=
        .seq_of_ne (by decide) (.lit_takes ['"'] tail)
          (.seq_of_ne (by decide) (.star_of_again (by decide) hcharacters) (.lit_takes ['"'] rest))
      have htext : '"' :: tail = '"' :: (raw ++ ['"']) ++ rest := by simp [htail]
      refine ⟨raw, by rw [htail], by simpa using hraw, ?_⟩
      rw [htext] at hrule ⊢
      exact .rule_leaves (by decide) (by decide) hrule
  | punctuation _ hc => exact nomatch atom?_of_punctuation hc

theorem string_fails (h : ∀ value rest, Token.next? cs ≠ some (.string value, rest)) :
    Derives grammar whole .loose (.rule .string) cs none := by
  refine .ruleFails ?_
  by_cases hquote : ∃ tail, cs = '"' :: tail
  · obtain ⟨tail, rfl⟩ := hquote
    have hbody : stringBody tail = none := by
      rw [Option.eq_none_iff_forall_ne_some]
      rintro ⟨body, rest⟩ hbody
      exact h _ _ (next?_eq_some_iff.2 (.string hbody))
    have hcharacters : Derives grammar whole _ _ _ _ := characters_derive tail
    rw [hbody] at hcharacters
    exact .seq_of_ne (by decide) (.lit_takes ['"'] tail)
      (.seq_of_ne (by decide) (.star_of_again (by decide) hcharacters) (.lit_fails (by simp)))
  · exact .seqFails (.lit_fails fun rest heq => hquote ⟨rest, heq⟩)

/-! ### Names -/

theorem takesOne_identStart {m : Spacing} :
    Derives.TakesOne grammar whole m (.rule .identStart) isWordStart := by
  have hbody : Derives.TakesOne grammar whole m (grammar.body .identStart) _ :=
    (Derives.takesOne_one Char.isAlpha).alt
      ((Derives.takesOne_lit '_').alt (Derives.takesOne_lit '#'))
  have htest : isWordStart = fun c => c.isAlpha || (c == '_' || c == '#') := by
    funext c
    simp only [isWordStart, Bool.or_assoc]
  rw [htest]
  exact hbody.rule rfl

theorem takesOne_identChar {m : Spacing} :
    Derives.TakesOne grammar whole m (.rule .identChar) isWordChar := by
  have hbody : Derives.TakesOne grammar whole m (grammar.body .identChar) _ :=
    (Derives.takesOne_one Char.isAlphanum).alt ((Derives.takesOne_lit '_').alt
      ((Derives.takesOne_lit '#').alt (Derives.takesOne_lit '\'')))
  have htest : isWordChar = fun c => c.isAlphanum || (c == '_' || (c == '#' || c == '\'')) := by
    funext c
    simp only [isWordChar, Bool.or_assoc]
  rw [htest]
  exact hbody.rule rfl

theorem plainIdent_takes {c : Char} (hc : isWordStart c = true) (tail : List Char) :
    Derives grammar whole .tight (.rule .plainIdent) (c :: tail)
      (some ([⟨.plainIdent, c :: tail.takeWhile isWordChar, []⟩], tail.dropWhile isWordChar)) := by
  have hstart : Derives grammar whole .atomic (.rule .identStart) (c :: tail) _ :=
    takesOne_identStart (c :: tail)
  rw [oneOf, if_pos hc] at hstart
  have hbody : Derives grammar whole .atomic (grammar.body .plainIdent) (c :: tail) _ :=
    .seq_of_ne (by decide) hstart (takesOne_identChar.star (by decide) tail)
  have htext : c :: tail = c :: tail.takeWhile isWordChar ++ tail.dropWhile isWordChar := by
    rw [List.cons_append, List.takeWhile_append_dropWhile]
  rw [htext] at hbody ⊢
  exact .rule_leaves (by decide) (by decide) hbody

theorem plainIdent_fails (h : ∀ c ∈ cs.head?, isWordStart c = false) :
    Derives grammar whole .tight (.rule .plainIdent) cs none := by
  have hstart : Derives grammar whole .atomic (.rule .identStart) cs _ := takesOne_identStart cs
  refine .ruleFails (.seqFails ?_)
  cases cs with
  | nil => exact hstart
  | cons c tail =>
      rw [oneOf, if_neg (by simp [h c rfl])] at hstart
      exact hstart

/-- A quoted name ends in front of the closing quote, or at the end of the text. -/
theorem dropWhile_eq_quotedBody (cs : List Char) :
    cs.dropWhile (fun c => !(c == '\x60')) = (quotedBody cs).elim [] fun x => '\x60' :: x.2 := by
  induction cs with
  | nil => rfl
  | cons c cs ih =>
      by_cases hc : c = '\x60'
      · subst hc
        rfl
      · rw [List.dropWhile_cons_of_pos (by simpa using hc), ih, quotedBody,
          if_neg (by simpa using hc)]
        cases quotedBody cs <;> rfl

theorem eq_append_of_quotedBody {body : List Char} (h : quotedBody cs = some (body, rest)) :
    cs = body ++ '\x60' :: rest := by
  induction cs generalizing body with
  | nil => exact nomatch h
  | cons c cs ih =>
      unfold quotedBody at h
      split at h
      · rename_i hc
        obtain ⟨rfl, rfl⟩ := Prod.mk.inj (Option.some.inj h)
        rw [eq_of_beq hc, List.nil_append]
      · obtain ⟨⟨body', rest'⟩, hbody, heq⟩ := Option.map_eq_some_iff.1 h
        obtain ⟨rfl, rfl⟩ := Prod.mk.inj heq
        rw [ih hbody, List.cons_append]

/-- The characters of a quoted name. -/
theorem quotedChars_derive (cs : List Char) :
    Derives grammar whole .atomic (.star (.seq (.absent (.lit ['\x60'])) Rule.any)) cs
      (some ([], (quotedBody cs).elim [] fun x => '\x60' :: x.2)) := by
  rw [← dropWhile_eq_quotedBody]
  exact ((Derives.takesOne_lit '\x60').absent_any (by decide)).star (by decide) cs

/-- **The rule for quoted names takes the name that the lexer takes**, between two quotes. -/
theorem quotedIdent_takes {tail body : List Char} (h : quotedBody tail = some (body, rest)) :
    Derives grammar whole .tight (.rule .quotedIdent) ('\x60' :: tail)
      (some ([⟨.quotedIdent, '\x60' :: (body ++ ['\x60']), []⟩], rest)) := by
  have hchars : Derives grammar whole _ _ _ _ := quotedChars_derive tail
  rw [h] at hchars
  have hbody : Derives grammar whole .atomic (grammar.body .quotedIdent) ('\x60' :: tail) _ :=
    .seq_of_ne (by decide) (.lit_takes ['\x60'] tail)
      (.seq_of_ne (by decide) hchars (.lit_takes ['\x60'] rest))
  have htext : '\x60' :: tail = '\x60' :: (body ++ ['\x60']) ++ rest := by
    simp [eq_append_of_quotedBody h]
  rw [htext] at hbody ⊢
  exact .rule_leaves (by decide) (by decide) hbody

theorem quotedIdent_fails (h : ∀ tail, cs = '\x60' :: tail → quotedBody tail = none) :
    Derives grammar whole .tight (.rule .quotedIdent) cs none := by
  refine .ruleFails ?_
  by_cases hquote : ∃ tail, cs = '\x60' :: tail
  · obtain ⟨tail, rfl⟩ := hquote
    have hchars : Derives grammar whole _ _ _ _ := quotedChars_derive tail
    rw [h tail rfl] at hchars
    exact .seq_of_ne (by decide) (.lit_takes ['\x60'] tail)
      (.seq_of_ne (by decide) hchars (.lit_fails (by simp)))
  · exact .seqFails (.lit_fails fun rest heq => hquote ⟨rest, heq⟩)

theorem name?_of_punctuation {c : Char} {t : Token} (h : punctuation? c = some t) :
    t.name? = none := by
  have hatom := atom?_of_punctuation h
  cases t with
  | word | quoted => exact nomatch hatom
  | _ => rfl

/-- **The rule for names takes the name that the lexer takes.** -/
theorem ident_takes {t : Token} {name : String} (h : Token.next? cs = some (t, rest))
    (hname : t.name? = some name) :
    ∃ pair, build pair = .ok (.ident name) ∧ ruleOf pair = .ident ∧
      Derives grammar whole .loose (.rule .ident) cs (some ([pair], rest)) := by
  cases next?_eq_some_iff.1 h with
  | @word c tail hc =>
      have hplain : Derives grammar whole _ _ _ _ := plainIdent_takes hc tail
      obtain rfl := Option.some.inj hname
      exact ⟨⟨.ident, _, [⟨.plainIdent, c :: tail.takeWhile isWordChar, []⟩]⟩,
        build_plainIdent _, rfl, .rule (.altLeft hplain)⟩
  | @quoted tail body _ hbody =>
      have hplain : Derives grammar whole .tight (.rule .plainIdent) ('\x60' :: tail) none :=
        plainIdent_fails (by simp [isWordStart])
      obtain rfl := Option.some.inj hname
      exact ⟨⟨.ident, _, [⟨.quotedIdent, '\x60' :: (body ++ ['\x60']), []⟩]⟩,
        build_quotedIdent body, rfl, .rule (.altRight hplain (quotedIdent_takes hbody))⟩
  | punctuation _ hc =>
      exact absurd (hname.symm.trans (name?_of_punctuation hc)) (Option.some_ne_none name)
  | _ => exact absurd hname.symm (Option.some_ne_none name)

theorem ident_fails (h : ∀ t rest, Token.next? cs = some (t, rest) → t.name? = none) :
    Derives grammar whole .loose (.rule .ident) cs none := by
  have hplain : Derives grammar whole .tight (.rule .plainIdent) cs none := by
    refine plainIdent_fails fun c hc => ?_
    obtain ⟨tail, rfl⟩ := List.head?_eq_some_iff.1 hc
    by_contra hstart
    exact nomatch h _ _ (next?_of_isWordStart (by simpa using hstart) tail)
  have hquoted : Derives grammar whole .tight (.rule .quotedIdent) cs none := by
    refine quotedIdent_fails fun tail hcs => ?_
    subst hcs
    rw [Option.eq_none_iff_forall_ne_some]
    rintro ⟨body, rest⟩ hbody
    exact nomatch h _ _ (next?_eq_some_iff.2 (.quoted hbody))
  exact .ruleFails (.altRight hplain hquoted)

/-! ### Booleans -/

theorem isWordStart_booleanWord (b : Bool) :
    ∃ c tail, (booleanWord b).toList = c :: tail ∧ isWordStart c = true ∧
      ∀ d ∈ tail, isWordChar d = true := by
  cases b with
  | true => exact ⟨'t', ['r', 'u', 'e'], rfl, rfl, List.all_eq_true.1 rfl⟩
  | false => exact ⟨'f', ['a', 'l', 's', 'e'], rfl, rfl, List.all_eq_true.1 rfl⟩

/-- The literal of a boolean. -/
theorem booleanLit_takes (b : Bool) (rest : List Char) :
    Derives grammar whole .atomic
      (.alt (.lit ['t', 'r', 'u', 'e']) (.lit ['f', 'a', 'l', 's', 'e']))
      ((booleanWord b).toList ++ rest) (some ([], rest)) := by
  cases b with
  | true => exact .altLeft (.lit_takes ['t', 'r', 'u', 'e'] rest)
  | false =>
      exact .altRight (.lit_fails (by simp [booleanWord]))
        (.lit_takes ['f', 'a', 'l', 's', 'e'] rest)

theorem next?_booleanWord (b : Bool) (h : ∀ c ∈ rest.head?, isWordChar c = false) :
    Token.next? ((booleanWord b).toList ++ rest) = some (.word (booleanWord b), rest) := by
  obtain ⟨c, tail, hword, hc, htail⟩ := isWordStart_booleanWord b
  obtain ⟨htake, hdrop⟩ := span_append htail h
  rw [hword, List.cons_append, next?_of_isWordStart hc, htake, hdrop, ← hword, String.ofList_toList]

theorem append_of_next?_word {w : String} (h : Token.next? cs = some (.word w, rest)) :
    cs = w.toList ++ rest ∧ ∀ c ∈ rest.head?, isWordChar c = false := by
  cases next?_eq_some_iff.1 h with
  | @word c tail hc =>
      rw [String.toList_ofList, List.cons_append, List.takeWhile_append_dropWhile]
      exact ⟨rfl, head?_dropWhile isWordChar tail⟩
  | punctuation _ hc => exact nomatch atom?_of_punctuation hc

/-- **The rule for booleans takes the two words.** -/
theorem boolean_takes {b : Bool} (h : Token.next? cs = some (.word (booleanWord b), rest)) :
    Derives grammar whole .loose (.rule .boolean) cs
      (some ([⟨.boolean, (booleanWord b).toList, []⟩], rest)) := by
  obtain ⟨hcs, hrest⟩ := append_of_next?_word h
  have hchar : Derives grammar whole .atomic (.rule .identChar) rest _ := takesOne_identChar rest
  have hnone : oneOf (ρ := Rule) isWordChar rest = none := by
    cases rest with
    | nil => rfl
    | cons c tail => rw [oneOf, if_neg (by simp [hrest c rfl])]
  rw [hnone] at hchar
  have hbody : Derives grammar whole .atomic (grammar.body .boolean) _ _ :=
    .seq_of_ne (by decide) (booleanLit_takes b rest) (.absent hchar)
  rw [hcs]
  exact .rule_leaves (by decide) (by decide) hbody

theorem boolean_fails (h : ∀ b rest, Token.next? cs ≠ some (.word (booleanWord b), rest)) :
    Derives grammar whole .loose (.rule .boolean) cs none := by
  refine .ruleFails ?_
  by_cases hword : ∃ b rest, cs = (booleanWord b).toList ++ rest
  · obtain ⟨b, rest, rfl⟩ := hword
    -- the word goes on behind the literal
    have hchar : Derives grammar whole .atomic (.rule .identChar) rest _ := takesOne_identChar rest
    cases rest with
    | nil => exact absurd (next?_booleanWord b (by simp)) (h b [])
    | cons c tail =>
        by_cases hc : isWordChar c = true
        · rw [oneOf, if_pos hc] at hchar
          exact .seq_of_ne (by decide) (booleanLit_takes b (c :: tail)) (.absentFails hchar)
        · exact absurd (next?_booleanWord b (by simpa using hc)) (h b (c :: tail))
  · refine .seqFails (.altRight (.lit_fails fun rest heq => hword ⟨true, rest, heq⟩)
      (.lit_fails fun rest heq => hword ⟨false, rest, heq⟩))

/-! ### Punctuation -/

theorem eq_of_punctuation {c d : Char} {t : Token} (hc : punctuation? c = some t)
    (hd : punctuation? d = some t) : c = d := by
  unfold punctuation? at hc hd
  split at hc
  case h_10 => exact nomatch hc
  all_goals
    obtain rfl := Option.some.inj hc
    split at hd
    all_goals first | rfl | exact nomatch hd

theorem punctuation?_ne_attrsOpen {c : Char} : punctuation? c ≠ some .attrsOpen := by
  unfold punctuation?
  split <;> simp

theorem punct_takes {c : Char} {t : Token} {m : Spacing} (hc : punctuation? c = some t)
    (h : Token.next? cs = some (t, rest)) :
    Derives grammar whole m (.lit [c]) cs (some ([], rest)) := by
  cases next?_eq_some_iff.1 h with
  | punctuation _ hd =>
      rw [eq_of_punctuation hc hd]
      exact .lit_takes [_] rest
  | attrsOpen => exact absurd hc punctuation?_ne_attrsOpen
  | _ => exact nomatch atom?_of_punctuation hc

theorem punct_fails {c : Char} {t : Token} {m : Spacing} (hc : punctuation? c = some t)
    (h : ∀ rest, Token.next? cs ≠ some (t, rest)) : Derives grammar whole m (.lit [c]) cs none :=
  .lit_fails fun rest heq => h rest (heq ▸ next?_punctuation hc rest)

theorem attrsOpen_takes {m : Spacing} (h : Token.next? cs = some (.attrsOpen, rest)) :
    Derives grammar whole m (.lit ['@', '[']) cs (some ([], rest)) := by
  cases next?_eq_some_iff.1 h with
  | attrsOpen => exact .lit_takes ['@', '['] rest
  | punctuation _ hc => exact absurd hc punctuation?_ne_attrsOpen

theorem attrsOpen_fails {m : Spacing} (h : ∀ rest, Token.next? cs ≠ some (.attrsOpen, rest)) :
    Derives grammar whole m (.lit ['@', '[']) cs none :=
  .lit_fails fun rest heq => h rest (heq ▸ rfl)

end Notation

end MacroForest
