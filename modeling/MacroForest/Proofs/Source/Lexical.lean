/-
**Blanks, tokens and numbers as text.**

What the lexer does is put here in the form in which the grammar can be compared with it.  The
rules for blanks and comments skip what the lexer skips.  The tokens are listed with the texts that
begin with them, so that a proof about the next token is a case split.  And a number is a text of
some parts, which are read back in the common format.

Main definitions:

* `MacroForest.Token.Spelled` — the texts that begin with a token.

Main results:

* `MacroForest.skipBlanks_skipBlanks` — skipping twice is skipping once;
* `MacroForest.Notation.skipped_derives` — **blanks and comments in the grammar**;
* `MacroForest.next?_eq_some_iff` — the tokens and their spellings;
* `MacroForest.Notation.ofText?_parts` — **the parts of a number are read back**.
-/

import MacroForest.Proofs.Source.Grammar
import MacroForest.Proofs.Source.Spelling

set_option relaxedAutoImplicit false
set_option autoImplicit false

namespace MacroForest

/-! ### Blanks -/

/-- A text in which nothing is to be skipped. -/
theorem skipBlanks_eq_self {cs : List Char} (hblank : ∀ c ∈ cs.head?, isBlank c = false)
    (hcomment : ∀ tail, cs ≠ '/' :: '/' :: tail) : skipBlanks cs = cs := by
  unfold skipBlanks skipFrom
  split
  · rfl
  · rename_i tail
    exact absurd rfl (hcomment tail)
  · rename_i c tail _
    simp [hblank c (by simp)]

/-- **Skipping is over when it is over.** -/
theorem skipBlanks_skipBlanks (cs : List Char) : skipBlanks (skipBlanks cs) = skipBlanks cs := by
  have hfrom : ∀ comment cs, skipBlanks (skipFrom comment cs) = skipFrom comment cs := by
    intro comment cs
    fun_induction skipFrom comment cs with
    | case1 => rfl
    | case2 _ _ ih => exact ih
    | case3 _ _ _ ih => exact ih
    | case4 _ _ _ _ _ _ ih => exact ih
    | case5 comment c tail hslash _ hblank =>
        refine skipBlanks_eq_self (by simpa using hblank) fun tail' h => ?_
        obtain ⟨rfl, rfl⟩ := List.cons.inj h
        exact hslash _ rfl rfl
  exact hfrom false cs

/-- The characters that pass a test end before one that does not. -/
theorem head?_dropWhile (test : Char → Bool) (cs : List Char) :
    ∀ c ∈ (cs.dropWhile test).head?, test c = false := by
  intro c hc
  have := List.head?_dropWhile_not test cs
  rw [hc] at this
  simpa using this

theorem skipBlanks_dropWhile (cs : List Char) :
    skipBlanks (cs.dropWhile isBlank) = skipBlanks cs := by
  induction cs with
  | nil => rfl
  | cons c cs ih =>
      cases h : isBlank c with
      | true => rw [List.dropWhile_cons_of_pos h, ih, skipBlanks_cons h]
      | false => rw [List.dropWhile_cons_of_neg (by simp [h])]

/-- A comment extends to the end of the line. -/
theorem skipFrom_comment (cs : List Char) :
    skipFrom true cs = skipBlanks (cs.dropWhile (· != '\n')) := by
  suffices h : ∀ comment cs, comment = true →
      skipFrom comment cs = skipBlanks (cs.dropWhile (· != '\n')) from h true cs rfl
  intro comment cs hcomment
  fun_induction skipFrom comment cs with
  | case1 => rfl
  | case2 _ tail ih => simpa using ih rfl
  | case3 c tail _ ih =>
      by_cases hc : c = '\n'
      · subst hc
        rw [List.dropWhile_cons_of_neg (by simp), skipBlanks_cons (by decide)]
        rfl
      · rw [List.dropWhile_cons_of_pos (by simpa using hc)]
        exact ih (by simpa using hc)
  | case4 => simp_all
  | case5 => simp_all

namespace Notation

open Peg

variable {whole : List Char}

theorem takesOne_whitespace {m : Spacing} :
    Derives.TakesOne grammar whole m (.rule .whitespace) isBlank := by
  have hbody : Derives.TakesOne grammar whole m (grammar.body .whitespace) _ :=
    (Derives.takesOne_lit ' ').alt ((Derives.takesOne_lit '\t').alt
      ((Derives.takesOne_lit '\r').alt (Derives.takesOne_lit '\n')))
  have htest : isBlank =
      fun c => c == ' ' || (c == '\t' || (c == '\r' || c == '\n')) := by
    funext c
    simp only [isBlank, Bool.or_assoc]
  rw [htest]
  exact hbody.rule rfl

theorem comment_derives (cs : List Char) :
    Derives grammar whole .atomic (.rule .comment) cs
      ((strip? ['/', '/'] cs).map fun rest => ([], rest.dropWhile (· != '\n'))) := by
  have hlit : Derives grammar whole .atomic (.lit ['/', '/']) cs _ := .lit ['/', '/'] cs
  cases h : strip? ['/', '/'] cs with
  | none =>
      rw [h] at hlit
      exact .ruleFails (.seqFails hlit)
  | some rest =>
      rw [h] at hlit
      have hrest : Derives grammar whole .atomic
          (.star (.seq (.absent (.lit ['\n'])) Rule.any)) rest
          (some ([], rest.dropWhile (· != '\n'))) :=
        ((Derives.takesOne_lit '\n').absent_any (by decide)).star (by decide) rest
      exact .rule (Derives.seq_of_ne (by decide) hlit hrest)

/-- Comments, with the blanks after them. -/
theorem comments_derive {cs : List Char} (hblank : ∀ c ∈ cs.head?, isBlank c = false) :
    Derives grammar whole .atomic (.again (.seq (.rule .comment) (.star (.rule .whitespace)))) cs
      (some ([], skipBlanks cs)) := by
  have hcomment : Derives grammar whole _ _ _ _ := comment_derives cs
  have hhere : Derives grammar whole .atomic (grammar.between .atomic) cs (some ([], cs)) :=
    .between_of_ne (by decide) cs
  cases h : strip? ['/', '/'] cs with
  | none =>
      rw [h] at hcomment
      have hself : skipBlanks cs = cs := by
        refine skipBlanks_eq_self hblank ?_
        rintro tail rfl
        simp [strip?] at h
      rw [hself]
      exact .againEnds hhere (.seqFails hcomment)
  | some rest =>
      rw [h] at hcomment
      have hcs : cs = '/' :: '/' :: rest := strip?_eq_some.1 h
      -- what follows the comment and the blanks after it is shorter
      let after := (rest.dropWhile (· != '\n')).dropWhile isBlank
      have hshorter : after.length < cs.length := by
        have h₁ := (List.dropWhile_suffix (l := rest) (· != '\n')).length_le
        have h₂ := (List.dropWhile_suffix (l := rest.dropWhile (· != '\n')) isBlank).length_le
        simp only [after, hcs, List.length_cons]
        omega
      have hskip : skipBlanks cs = skipBlanks after := by
        rw [skipBlanks_dropWhile, ← skipFrom_comment, hcs]
        rfl
      have hmore := comments_derive (head?_dropWhile isBlank (rest.dropWhile (· != '\n')))
      rw [hskip]
      exact .again hhere (Derives.seq_of_ne (by decide) hcomment
        (takesOne_whitespace.star (by decide) _)) hmore
termination_by cs.length

/-- **Blanks and comments are skipped** as the lexer skips them. -/
theorem skipped_derives (cs : List Char) :
    Derives grammar whole .atomic (grammar.between .loose) cs (some ([], skipBlanks cs)) := by
  have hcomments : Derives grammar whole _ _ _ _ := comments_derive (head?_dropWhile isBlank cs)
  rw [skipBlanks_dropWhile] at hcomments
  exact Derives.seq_of_ne (by decide) (takesOne_whitespace.star (by decide) cs)
    (.star_of_again (by decide) hcomments)

end Notation

/-! ### The spelling of tokens -/

/-- A text begins with a token and leaves a rest. -/
inductive Token.Spelled : List Char → Token → List Char → Prop
  | attrsOpen (rest : List Char) : Spelled ('@' :: '[' :: rest) .attrsOpen rest
  | word {c : Char} (tail : List Char) : isWordStart c = true →
      Spelled (c :: tail) (.word (String.ofList (c :: tail.takeWhile isWordChar)))
        (tail.dropWhile isWordChar)
  | unsigned {c : Char} {tail rest : List Char} {value : Number} : c.isDigit = true →
      takeNumber false (c :: tail) = (.number value, rest) →
      Spelled (c :: tail) (.number value) rest
  | negative {c : Char} {tail rest : List Char} {value : Number} : c.isDigit = true →
      takeNumber true (c :: tail) = (.number value, rest) →
      Spelled ('-' :: c :: tail) (.number value) rest
  | string {tail body rest : List Char} : stringBody tail = some (body, rest) →
      Spelled ('"' :: tail) (.string (String.ofList body)) rest
  | quoted {tail body rest : List Char} : quotedBody tail = some (body, rest) →
      Spelled ('\x60' :: tail) (.quoted (String.ofList body)) rest
  | punctuation {c : Char} {t : Token} (rest : List Char) : punctuation? c = some t →
      Spelled (c :: rest) t rest

/-- **The tokens and their spellings.** -/
theorem next?_eq_some_iff {cs rest : List Char} {t : Token} :
    Token.next? cs = some (t, rest) ↔ Token.Spelled cs t rest := by
  constructor
  · intro h
    unfold Token.next? at h
    split at h
    · exact nomatch h
    · obtain ⟨rfl, rfl⟩ := Prod.mk.inj (Option.some.inj h)
      exact .attrsOpen _
    rename_i c tail _
    split at h
    · rename_i hc
      obtain ⟨rfl, rfl⟩ := Prod.mk.inj (Option.some.inj h)
      exact .word tail hc
    split at h
    · rename_i hc
      have hnumber := Option.some.inj h
      obtain ⟨rfl, -⟩ := Prod.mk.inj hnumber
      exact .unsigned hc hnumber
    split at h
    · rename_i hminus
      obtain rfl := eq_of_beq hminus
      split at h
      · split at h
        · rename_i hd
          have hnumber := Option.some.inj h
          obtain ⟨rfl, -⟩ := Prod.mk.inj hnumber
          exact .negative hd hnumber
        · exact nomatch h
      · exact nomatch h
    split at h
    · rename_i hquote
      obtain rfl := eq_of_beq hquote
      obtain ⟨⟨body, after⟩, hbody, heq⟩ := Option.map_eq_some_iff.1 h
      obtain ⟨rfl, rfl⟩ := Prod.mk.inj heq
      exact .string hbody
    split at h
    · rename_i hquote
      obtain rfl := eq_of_beq hquote
      obtain ⟨⟨body, after⟩, hbody, heq⟩ := Option.map_eq_some_iff.1 h
      obtain ⟨rfl, rfl⟩ := Prod.mk.inj heq
      exact .quoted hbody
    · obtain ⟨token, htoken, heq⟩ := Option.map_eq_some_iff.1 h
      obtain ⟨rfl, rfl⟩ := Prod.mk.inj heq
      exact .punctuation _ htoken
  · intro h
    cases h with
    | attrsOpen => rfl
    | word tail hc => exact next?_of_isWordStart hc tail
    | unsigned hc hnumber => rw [next?_of_isDigit hc, hnumber]
    | negative hc hnumber => simp [Token.next?, isWordStart, hc, hnumber]
    | string hbody => simp [Token.next?, isWordStart, hbody]
    | quoted hbody => simp [Token.next?, isWordStart, hbody]
    | punctuation _ hc => exact next?_punctuation hc _

namespace Notation

/-! ### Numbers -/

/-- The text of a fraction. -/
def FractionText (fraction text : List Char) : Prop :=
  fraction = [] ∧ text = [] ∨ (∀ c ∈ fraction, c.isDigit = true) ∧ text = '.' :: fraction

/-- The text of a power of ten. -/
def ExponentText (exponent : Int) (text : List Char) : Prop :=
  exponent = 0 ∧ text = [] ∨
    ∃ e power digits below, (e == 'e' || e == 'E') = true ∧ text = e :: power ∧
      takeSign power = (below, digits) ∧ digits ≠ [] ∧ (∀ c ∈ digits, c.isDigit = true) ∧
      exponent = if below then -(digitsValue digits : Int) else (digitsValue digits : Int)

theorem isDigit_of_mem_takeDigits {c : Char} {cs : List Char} (h : c ∈ (takeDigits cs).1) :
    c.isDigit = true :=
  List.all_eq_true.1 List.all_takeWhile c h

theorem takeDigits_append (cs : List Char) : (takeDigits cs).1 ++ (takeDigits cs).2 = cs :=
  List.takeWhile_append_dropWhile

theorem fractionText_takeFraction (cs : List Char) :
    ∃ text, cs = text ++ (takeFraction cs).2 ∧ FractionText (takeFraction cs).1 text := by
  unfold takeFraction
  split
  · rename_i rest
    split
    · exact ⟨[], rfl, .inl ⟨rfl, rfl⟩⟩
    · refine ⟨'.' :: (takeDigits rest).1, ?_, .inr ⟨fun c => isDigit_of_mem_takeDigits, rfl⟩⟩
      rw [List.cons_append, takeDigits_append]
  · exact ⟨[], rfl, .inl ⟨rfl, rfl⟩⟩

/-- A sign is one with any text behind the digits that follow it. -/
theorem takeSign_of_append {cs digits rest : List Char} {below : Bool}
    (h : takeSign cs = (below, digits ++ rest)) (hdigits : digits ≠ []) :
    ∃ power, cs = power ++ rest ∧ takeSign power = (below, digits) := by
  unfold takeSign at h
  split at h
  · obtain ⟨rfl, rfl⟩ := Prod.mk.inj h
    exact ⟨'-' :: digits, rfl, rfl⟩
  · obtain ⟨rfl, rfl⟩ := Prod.mk.inj h
    exact ⟨'+' :: digits, rfl, rfl⟩
  · rename_i hminus hplus
    obtain ⟨rfl, rfl⟩ := Prod.mk.inj h
    refine ⟨digits, rfl, ?_⟩
    unfold takeSign
    split
    · exact absurd rfl (hminus _)
    · exact absurd rfl (hplus _)
    · rfl

theorem exponentText_takeExponent (cs : List Char) :
    ∃ text, cs = text ++ (takeExponent cs).2 ∧ ExponentText (takeExponent cs).1 text := by
  unfold takeExponent
  split
  · rename_i e tail
    split
    · rename_i he
      dsimp only
      split
      · exact ⟨[], rfl, .inl ⟨rfl, rfl⟩⟩
      · rename_i hdigits
        rw [List.isEmpty_iff] at hdigits
        have hsign : takeSign tail = ((takeSign tail).1,
            (takeDigits (takeSign tail).2).1 ++ (takeDigits (takeSign tail).2).2) := by
          rw [takeDigits_append]
        obtain ⟨power, htail, hpower⟩ := takeSign_of_append hsign hdigits
        have htext : e :: tail = e :: power ++ (takeDigits (takeSign tail).2).2 := by
          rw [List.cons_append, ← htail]
        exact ⟨e :: power, htext, .inr ⟨e, power, _, _, he, rfl, hpower, hdigits,
          fun c => isDigit_of_mem_takeDigits, rfl⟩⟩
    · exact ⟨[], rfl, .inl ⟨rfl, rfl⟩⟩
  · exact ⟨[], rfl, .inl ⟨rfl, rfl⟩⟩

theorem ExponentText.head {exponent : Int} {text : List Char} (h : ExponentText exponent text) :
    ∀ c ∈ text.head?, (c == 'e' || c == 'E') = true := by
  intro c hc
  rcases h with ⟨-, rfl⟩ | ⟨e, power, _, _, he, rfl, -⟩
  · exact nomatch hc
  · obtain rfl : e = c := by simpa using hc
    exact he

theorem isDigit_of_exponent {c : Char} (h : (c == 'e' || c == 'E') = true) :
    c.isDigit = false ∧ c ≠ '.' := by
  rcases Bool.or_eq_true _ _ ▸ h with h | h <;> rw [eq_of_beq h] <;> decide

theorem takeDigits_of_append {digits rest : List Char} (hdigits : ∀ c ∈ digits, c.isDigit = true)
    (hrest : ∀ c ∈ rest.head?, c.isDigit = false) :
    takeDigits (digits ++ rest) = (digits, rest) := by
  obtain ⟨htake, hdrop⟩ := span_append hdigits hrest
  rw [takeDigits, htake, hdrop]

theorem powerOf?_exponentText {exponent : Int} {text : List Char}
    (h : ExponentText exponent text) : powerOf? text = some exponent := by
  rcases h with ⟨rfl, rfl⟩ | ⟨e, power, digits, below, he, rfl, hpower, hne, hall, rfl⟩
  · rfl
  · have hnonempty : digits.isEmpty = false := by simpa using hne
    simp only [powerOf?, hpower, he, hnonempty, List.all_eq_true.2 hall, Bool.not_false,
      Bool.and_self, if_true]

/-- The text of a fraction ends where that of the power begins, and does not begin with a digit. -/
theorem pointDigits_append {fraction text power : List Char} {exponent : Int}
    (hfraction : FractionText fraction text) (hpower : ExponentText exponent power) :
    (∀ c ∈ (text ++ power).head?, c.isDigit = false) ∧
      pointDigits (text ++ power) = (fraction, power) := by
  have hhead : ∀ c ∈ power.head?, c.isDigit = false :=
    fun c hc => (isDigit_of_exponent (hpower.head c hc)).1
  rcases hfraction with ⟨rfl, rfl⟩ | ⟨hdigits, rfl⟩
  · refine ⟨hhead, ?_⟩
    unfold pointDigits
    split
    · rename_i cs hcs
      have hdot := hpower.head '.' (by rw [show power = _ from hcs]; rfl)
      exact absurd rfl (isDigit_of_exponent hdot).2
    · rfl
  · refine ⟨fun c hc => ?_, takeDigits_of_append hdigits hhead⟩
    obtain rfl : '.' = c := by simpa using hc
    decide

/-- **The parts of a number are read back** in the common format. -/
theorem ofText?_parts {text whole fraction fractionText exponentText : List Char} {negative : Bool}
    {exponent : Int} (hsign : takeSign text = (negative, whole ++ (fractionText ++ exponentText)))
    (hwhole : whole ≠ []) (hdigits : ∀ c ∈ whole, c.isDigit = true)
    (hfraction : FractionText fraction fractionText)
    (hexponent : ExponentText exponent exponentText) :
    Number.ofText? text = some (.ofParts negative whole fraction exponent) := by
  obtain ⟨hhead, hpoint⟩ := pointDigits_append hfraction hexponent
  have hnonempty : whole.isEmpty = false := by simpa using hwhole
  simp only [Number.ofText?, hsign, takeDigits_of_append hdigits hhead, hpoint,
    powerOf?_exponentText hexponent, hnonempty, Bool.false_and, Bool.false_eq_true, if_false,
    Option.map_some]

end Notation

end MacroForest
