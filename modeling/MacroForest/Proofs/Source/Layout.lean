/-
**Layout.**

Blanks and comments between the tokens of a text do not matter: wherever more of them are put in,
the text is parsed as the same forest.

The lexer looks ahead, at the character behind a word and at up to three characters behind the
digits of a number, and there it sees the new blanks and comments.  But a scanner only asks whether
it can go on, and it can go on neither with a blank nor with a comment.  So what is put in may end a
look ahead earlier than before, and the answer is the same.  This is said for each of the scanners
and handed on to those that are made of them.

A comment of the text extends to the end of its line, so what is put in behind it and in front of
the line break becomes a part of the comment.

Main definitions:

* `MacroForest.UpToGap` — up to its first gap, a text is the same as another one;
* `MacroForest.Tolerant` — a scanner takes the same in front of such a text;
* `MacroForest.Filler`, `MacroForest.Widened` — blanks and comments, put in between pieces.

Main results:

* `MacroForest.tolerant_next?` — **the tokens of the lexer are tolerant**;
* `MacroForest.Widened.forest?_eq` — the reader makes the same of the wider text;
* `MacroForest.Notation.layout_independent` — **layout does not matter**.
-/

import MacroForest.Proofs.Source.Pieces

set_option relaxedAutoImplicit false
set_option autoImplicit false

namespace MacroForest

/-! ### Looking ahead -/

/-- The characters that a gap can begin with. -/
def gapStarts : List Char := [' ', '\t', '\r', '\n', '/']

/-- Up to its end or its first gap, the second text is the same as the first one. -/
inductive UpToGap : List Char → List Char → Prop
  | gap {cs cs' : List Char} : (∀ c ∈ cs'.head?, c ∈ gapStarts) → UpToGap cs cs'
  | same (c : Char) {cs cs' : List Char} : UpToGap cs cs' → UpToGap (c :: cs) (c :: cs')

namespace UpToGap

variable {cs cs' : List Char}

theorem append (h : UpToGap cs cs') (text : List Char) : UpToGap (text ++ cs) (text ++ cs') := by
  induction text with
  | nil => exact h
  | cons c text ih => exact .same c ih

/-- A test that fails for the first character of a text fails for that of the other one. -/
theorem head (h : UpToGap cs cs') {test : Char → Bool} (hgap : gapStarts.any test = false)
    (hcs : ∀ c ∈ cs.head?, test c = false) : ∀ c ∈ cs'.head?, test c = false := by
  cases h with
  | gap hstart =>
      intro c hc
      simpa using List.any_eq_false.1 hgap c (hstart c hc)
  | same c _ => exact hcs

theorem of_cons {c : Char} (h : UpToGap cs (c :: cs')) (hc : c ∉ gapStarts) :
    ∃ tail, cs = c :: tail ∧ UpToGap tail cs' := by
  cases h with
  | gap hstart => exact absurd (hstart c rfl) hc
  | same c h => exact ⟨_, rfl, h⟩

end UpToGap

/-- In front of a text that is the same as the rest up to its first gap, the scanner takes the same
as in front of the rest. -/
def Tolerant {α : Type} (scan : List Char → Option (α × List Char)) : Prop :=
  ∀ ⦃cs a rest⦄, scan cs = some (a, rest) →
    ∃ text, cs = text ++ rest ∧ ∀ rest', UpToGap rest rest' → scan (text ++ rest') = some (a, rest')

namespace Tolerant

variable {α β : Type} {f : List Char → Option (α × List Char)}
  {g : List Char → Option (β × List Char)}

theorem map (hf : Tolerant f) (k : α → β) : Tolerant fun cs => (f cs).map fun x => (k x.1, x.2) := by
  intro cs b rest h
  obtain ⟨⟨a, after⟩, ha, heq⟩ := Option.map_eq_some_iff.1 h
  obtain ⟨rfl, rfl⟩ := Prod.mk.inj heq
  obtain ⟨text, htext, hscan⟩ := hf ha
  refine ⟨text, htext, fun rest' hrest => ?_⟩
  dsimp only
  rw [hscan rest' hrest]
  rfl

/-- One scanner after the other. -/
theorem andThen (hf : Tolerant f) (hg : Tolerant g) :
    Tolerant fun cs => (f cs).bind fun x => (g x.2).map fun y => ((x.1, y.1), y.2) := by
  intro cs ab rest h
  obtain ⟨⟨a, mid⟩, ha, hmap⟩ := Option.bind_eq_some_iff.1 h
  obtain ⟨⟨b, after⟩, hb, heq⟩ := Option.map_eq_some_iff.1 hmap
  obtain ⟨rfl, rfl⟩ := Prod.mk.inj heq
  obtain ⟨text, rfl, hscan⟩ := hf ha
  obtain ⟨text', rfl, hscan'⟩ := hg hb
  refine ⟨text ++ text', (List.append_assoc ..).symm, fun rest' hrest => ?_⟩
  dsimp only
  rw [List.append_assoc, hscan _ (hrest.append text'), Option.bind_some, hscan' rest' hrest]
  rfl

end Tolerant

/-- For a scanner that always takes something, if only the empty text. -/
theorem tolerant_some_iff {α : Type} {scan : List Char → α × List Char} :
    (Tolerant fun cs => some (scan cs)) ↔ ∀ ⦃cs a rest⦄, scan cs = (a, rest) →
      ∃ text, cs = text ++ rest ∧
        ∀ rest', UpToGap rest rest' → scan (text ++ rest') = (a, rest') := by
  simp only [Tolerant, Option.some.injEq]

/-- For a scanner that stays where it is if it has nothing to take: it suffices that no gap gives it
something to take. -/
theorem tolerant_optional {α : Type} {scan : List Char → α × List Char} {a : α}
    {P : List Char → Prop} (hstays : ∀ cs, P cs → scan cs = (a, cs))
    (hgap : ∀ cs cs', UpToGap cs cs' → P cs → P cs')
    (htakes : ∀ cs b rest, ¬ P cs → scan cs = (b, rest) → ∃ text, cs = text ++ rest ∧
      ∀ rest', UpToGap rest rest' → scan (text ++ rest') = (b, rest')) :
    Tolerant fun cs => some (scan cs) := by
  refine tolerant_some_iff.2 fun cs b rest h => ?_
  by_cases hcs : P cs
  · rw [hstays cs hcs] at h
    obtain ⟨⟩ := h
    exact ⟨[], rfl, fun rest' hrest => hstays rest' (hgap cs rest' hrest hcs)⟩
  · exact htakes cs b rest hcs h

/-! ### The scanners of the lexer -/

theorem tolerant_span {test : Char → Bool} (hgap : gapStarts.any test = false) :
    Tolerant fun cs => some (cs.takeWhile test, cs.dropWhile test) := by
  refine tolerant_some_iff.2 fun cs a rest h => ?_
  obtain ⟨⟩ := h
  refine ⟨cs.takeWhile test, List.takeWhile_append_dropWhile.symm, fun rest' hrest => ?_⟩
  have hstop := hrest.head hgap (head?_dropWhile test cs)
  obtain ⟨htake, hdrop⟩ := span_append (List.all_eq_true.1 List.all_takeWhile) hstop
  rw [htake, hdrop]

theorem tolerant_takeDigits : Tolerant fun cs => some (takeDigits cs) :=
  tolerant_span rfl

theorem UpToGap.no_digits {cs cs' : List Char} (h : UpToGap cs cs')
    (hcs : (takeDigits cs).1.isEmpty = true) : (takeDigits cs').1.isEmpty = true := by
  refine Notation.takeDigits_isEmpty (h.head rfl ?_)
  cases cs with
  | nil => simp
  | cons c cs =>
      intro d hd
      obtain rfl : c = d := by simpa using hd
      simpa [takeDigits, List.takeWhile_cons] using hcs

theorem takeFraction_point (cs : List Char) :
    takeFraction ('.' :: cs) =
      if (takeDigits cs).1.isEmpty then ([], '.' :: cs) else takeDigits cs := rfl

theorem takeFraction_eq_self {cs : List Char}
    (h : ∀ tail, cs = '.' :: tail → (takeDigits tail).1.isEmpty = true) :
    takeFraction cs = ([], cs) := by
  unfold takeFraction
  split
  · rw [if_pos (h _ rfl)]
  · rfl

theorem tolerant_takeFraction : Tolerant fun cs => some (takeFraction cs) := by
  refine tolerant_optional
    (P := fun cs => ∀ tail, cs = '.' :: tail → (takeDigits tail).1.isEmpty = true)
    (fun cs => takeFraction_eq_self) ?_ ?_
  · rintro cs cs' hgap hself tail' rfl
    obtain ⟨tail, rfl, htail⟩ := hgap.of_cons (by decide)
    exact htail.no_digits (hself tail rfl)
  · intro cs fraction rest hpoint h
    push Not at hpoint
    obtain ⟨tail, rfl, hdigits⟩ := hpoint
    rw [takeFraction_point, if_neg hdigits] at h
    obtain ⟨text, rfl, hscan⟩ := tolerant_some_iff.1 tolerant_takeDigits h
    refine ⟨'.' :: text, rfl, fun rest' hrest => ?_⟩
    rw [h] at hdigits
    rw [List.cons_append, takeFraction_point, hscan rest' hrest, if_neg hdigits]

theorem takeSign_eq_self {cs : List Char} (h : ∀ c ∈ cs.head?, (c == '-' || c == '+') = false) :
    takeSign cs = (false, cs) := by
  unfold takeSign
  split
  · simp at h
  · simp at h
  · rfl

theorem tolerant_takeSign : Tolerant fun cs => some (takeSign cs) := by
  refine tolerant_optional (P := fun cs => ∀ c ∈ cs.head?, (c == '-' || c == '+') = false)
    (fun cs => takeSign_eq_self) (fun cs cs' hgap => hgap.head rfl) ?_
  intro cs below rest hsign h
  push Not at hsign
  obtain ⟨c, hc, hsign⟩ := hsign
  obtain ⟨tail, rfl⟩ := List.head?_eq_some_iff.1 hc
  rw [ne_eq, Bool.not_eq_false, Bool.or_eq_true, beq_iff_eq, beq_iff_eq] at hsign
  rcases hsign with rfl | rfl
  · obtain ⟨⟩ := h
    exact ⟨['-'], rfl, fun _ _ => rfl⟩
  · obtain ⟨⟩ := h
    exact ⟨['+'], rfl, fun _ _ => rfl⟩

theorem UpToGap.takeSign {cs cs' : List Char} (h : UpToGap cs cs') :
    UpToGap (takeSign cs).2 (takeSign cs').2 := by
  cases h with
  | gap hstart =>
      have hself : ∀ c ∈ cs'.head?, (c == '-' || c == '+') = false :=
        (UpToGap.gap hstart : UpToGap [] cs').head rfl (by simp)
      rw [takeSign_eq_self hself]
      exact .gap hstart
  | @same c cs cs' h =>
      by_cases hself : (c == '-' || c == '+') = false
      · rw [takeSign_eq_self (by simpa using hself), takeSign_eq_self (by simpa using hself)]
        exact .same c h
      · rw [Bool.not_eq_false, Bool.or_eq_true, beq_iff_eq, beq_iff_eq] at hself
        rcases hself with rfl | rfl
        · exact h
        · exact h

/-- A sign and digits. -/
def signedDigits (cs : List Char) : (Bool × List Char) × List Char :=
  (((takeSign cs).1, (takeDigits (takeSign cs).2).1), (takeDigits (takeSign cs).2).2)

theorem tolerant_signedDigits : Tolerant fun cs => some (signedDigits cs) :=
  tolerant_takeSign.andThen tolerant_takeDigits

theorem takeExponent_letter {e : Char} (he : (e == 'e' || e == 'E') = true) (cs : List Char) :
    takeExponent (e :: cs) =
      if (signedDigits cs).1.2.isEmpty then (0, e :: cs)
      else (if (signedDigits cs).1.1 then -(digitsValue (signedDigits cs).1.2 : Int)
        else (digitsValue (signedDigits cs).1.2 : Int), (signedDigits cs).2) := by
  rw [takeExponent, if_pos he]
  rfl

theorem takeExponent_eq_self {cs : List Char}
    (h : ∀ e tail, cs = e :: tail → (e == 'e' || e == 'E') = true →
      (signedDigits tail).1.2.isEmpty = true) : takeExponent cs = (0, cs) := by
  cases cs with
  | nil => rfl
  | cons e tail =>
      by_cases he : (e == 'e' || e == 'E') = true
      · rw [takeExponent_letter he, if_pos (h e tail rfl he)]
      · rw [takeExponent, if_neg he]

theorem tolerant_takeExponent : Tolerant fun cs => some (takeExponent cs) := by
  refine tolerant_optional
    (P := fun cs => ∀ e tail, cs = e :: tail → (e == 'e' || e == 'E') = true →
      (signedDigits tail).1.2.isEmpty = true) (fun cs => takeExponent_eq_self) ?_ ?_
  · rintro cs cs' hgap hself e tail' rfl he
    have hletter : e ∉ gapStarts := by
      rcases Bool.or_eq_true _ _ ▸ he with he | he <;> rw [eq_of_beq he] <;> decide
    obtain ⟨tail, rfl, htail⟩ := hgap.of_cons hletter
    exact htail.takeSign.no_digits (hself e tail rfl he)
  · intro cs exponent rest hpower h
    push Not at hpower
    obtain ⟨e, tail, rfl, he, hdigits⟩ := hpower
    rw [takeExponent_letter he, if_neg hdigits] at h
    obtain ⟨⟩ := h
    obtain ⟨text, htext, hscan⟩ :=
      tolerant_some_iff.1 tolerant_signedDigits (Prod.mk.eta (p := signedDigits tail)).symm
    refine ⟨e :: text, congrArg (e :: ·) htext, fun rest' hrest => ?_⟩
    rw [List.cons_append, takeExponent_letter he, hscan rest' hrest, if_neg hdigits]

theorem tolerant_takeNumber (negative : Bool) :
    Tolerant fun cs => some (takeNumber negative cs) := by
  have hparts := tolerant_takeDigits.andThen (tolerant_takeFraction.andThen tolerant_takeExponent)
  exact hparts.map fun parts => Token.number (.ofParts negative parts.1 parts.2.1 parts.2.2)

theorem stringBody_cons {c : Char} (hquote : c ≠ '"') (hescape : c ≠ '\\') (cs : List Char) :
    stringBody (c :: cs) = (stringBody cs).map fun x => (c :: x.1, x.2) := by
  rw [stringBody.eq_def]
  split <;> simp_all

theorem tolerant_stringBody : Tolerant stringBody := by
  intro cs body rest h
  fun_induction stringBody cs generalizing body with
  | case1 => cases h
  | case2 tail =>
      obtain ⟨⟩ := h
      exact ⟨['"'], rfl, fun _ _ => rfl⟩
  | case3 c tail ih =>
      obtain ⟨⟨body', after⟩, hbody, heq⟩ := Option.map_eq_some_iff.1 h
      obtain ⟨rfl, rfl⟩ := Prod.mk.inj heq
      obtain ⟨text, rfl, hscan⟩ := ih hbody
      refine ⟨'\\' :: c :: text, rfl, fun rest' hrest => ?_⟩
      rw [List.cons_append, List.cons_append, stringBody, hscan rest' hrest]
      rfl
  | case4 c tail hquote hescape ih =>
      obtain ⟨⟨body', after⟩, hbody, heq⟩ := Option.map_eq_some_iff.1 h
      obtain ⟨rfl, rfl⟩ := Prod.mk.inj heq
      obtain ⟨text, htext, hscan⟩ := ih hbody
      -- a backslash would take the next character with it, and there is one
      have hbackslash : c ≠ '\\' := by
        rintro rfl
        cases tail with
        | nil => cases hbody
        | cons d ds => exact hescape d ds rfl rfl
      refine ⟨c :: text, congrArg (c :: ·) htext, fun rest' hrest => ?_⟩
      rw [List.cons_append, stringBody_cons (fun heq => hquote heq) hbackslash, hscan rest' hrest]
      rfl

theorem tolerant_quotedBody : Tolerant quotedBody := by
  intro cs body rest h
  induction cs generalizing body with
  | nil => cases h
  | cons c cs ih =>
      rw [quotedBody] at h
      split at h
      · rename_i hc
        obtain ⟨⟩ := h
        refine ⟨[c], rfl, fun rest' _ => ?_⟩
        rw [List.singleton_append, quotedBody, if_pos hc]
      · rename_i hc
        obtain ⟨⟨body', after⟩, hbody, heq⟩ := Option.map_eq_some_iff.1 h
        obtain ⟨rfl, rfl⟩ := Prod.mk.inj heq
        obtain ⟨text, rfl, hscan⟩ := ih hbody
        refine ⟨c :: text, rfl, fun rest' hrest => ?_⟩
        rw [List.cons_append, quotedBody, if_neg hc, hscan rest' hrest]
        rfl

/-- A number takes at least its first digit. -/
theorem takeNumber_cons {negative : Bool} {c : Char} {tail rest : List Char} {t : Token}
    (hc : c.isDigit = true) (h : takeNumber negative (c :: tail) = (t, rest)) :
    ∃ text, tail = text ++ rest ∧
      ∀ rest', UpToGap rest rest' → takeNumber negative (c :: (text ++ rest')) = (t, rest') := by
  have hlt := takeNumber_length_lt negative c tail hc
  rw [h] at hlt
  obtain ⟨text, htext, hscan⟩ := tolerant_some_iff.1 (tolerant_takeNumber negative) h
  cases text with
  | nil =>
      rw [htext] at hlt
      exact absurd hlt (Nat.lt_irrefl _)
  | cons d text =>
      obtain ⟨rfl, rfl⟩ := List.cons.inj htext
      exact ⟨text, rfl, hscan⟩

/-- **The tokens of the lexer are tolerant.** -/
theorem tolerant_next? : Tolerant Token.next? := by
  intro cs t rest h
  cases next?_eq_some_iff.1 h with
  | attrsOpen => exact ⟨['@', '['], rfl, fun _ _ => rfl⟩
  | @word c tail hc =>
      have hword : Tolerant fun cs => some (cs.takeWhile isWordChar, cs.dropWhile isWordChar) :=
        tolerant_span rfl
      obtain ⟨text, htext, hscan⟩ := @hword tail _ _ rfl
      refine ⟨c :: text, congrArg (c :: ·) htext, fun rest' hrest => ?_⟩
      obtain ⟨htake, hdrop⟩ := Prod.mk.inj (Option.some.inj (hscan rest' hrest))
      rw [List.cons_append, next?_of_isWordStart hc, htake, hdrop]
  | @unsigned c tail _ _ hc hnumber =>
      obtain ⟨text, rfl, hscan⟩ := takeNumber_cons hc hnumber
      exact ⟨c :: text, rfl, fun rest' hrest =>
        next?_eq_some_iff.2 (.unsigned hc (hscan rest' hrest))⟩
  | @negative c tail _ _ hc hnumber =>
      obtain ⟨text, rfl, hscan⟩ := takeNumber_cons hc hnumber
      exact ⟨'-' :: c :: text, rfl, fun rest' hrest =>
        next?_eq_some_iff.2 (.negative hc (hscan rest' hrest))⟩
  | string hbody =>
      obtain ⟨text, rfl, hscan⟩ := tolerant_stringBody hbody
      exact ⟨'"' :: text, rfl, fun rest' hrest =>
        next?_eq_some_iff.2 (.string (hscan rest' hrest))⟩
  | quoted hbody =>
      obtain ⟨text, rfl, hscan⟩ := tolerant_quotedBody hbody
      exact ⟨'\x60' :: text, rfl, fun rest' hrest =>
        next?_eq_some_iff.2 (.quoted (hscan rest' hrest))⟩
  | @punctuation c _ _ hc =>
      exact ⟨[c], rfl, fun rest' _ => next?_punctuation hc rest'⟩

/-! ### Putting blanks and comments in -/

/-- Blanks and comments, each comment with the line break that ends it. -/
inductive Filler : List Char → Prop
  | nil : Filler []
  | blank {c : Char} {filler : List Char} : isBlank c = true → Filler filler →
      Filler (c :: filler)
  | comment {body filler : List Char} : '\n' ∉ body → Filler filler →
      Filler ('/' :: '/' :: (body ++ '\n' :: filler))

theorem Filler.head {filler : List Char} (h : Filler filler) :
    ∀ c ∈ filler.head?, c ∈ gapStarts := by
  intro c hc
  cases h with
  | nil => cases hc
  | blank hblank _ =>
      obtain ⟨⟩ := hc
      simp only [isBlank, Bool.or_eq_true, beq_iff_eq, or_assoc] at hblank
      rcases hblank with rfl | rfl | rfl | rfl <;> decide
  | comment =>
      obtain ⟨⟩ := hc
      decide

theorem dropWhile_line {body : List Char} (h : '\n' ∉ body) (cs : List Char) :
    (body ++ cs).dropWhile (· != '\n') = cs.dropWhile (· != '\n') := by
  refine List.dropWhile_append_of_pos fun c hc => ?_
  simpa using fun heq : c = '\n' => h (heq ▸ hc)

theorem skipBlanks_comment {body : List Char} (h : '\n' ∉ body) (cs : List Char) :
    skipBlanks ('/' :: '/' :: body ++ cs) = skipBlanks (cs.dropWhile (· != '\n')) := by
  rw [← dropWhile_line h, ← skipFrom_comment]
  rfl

theorem Filler.skipBlanks_append {filler : List Char} (h : Filler filler) (cs : List Char) :
    skipBlanks (filler ++ cs) = skipBlanks cs := by
  induction h with
  | nil => rfl
  | blank hblank _ ih => rw [List.cons_append, skipBlanks_cons hblank, ih]
  | @comment body filler hbody _ ih =>
      rw [← List.cons_append, ← List.cons_append, List.append_assoc, skipBlanks_comment hbody,
        List.cons_append, List.dropWhile_cons_of_neg (by decide), skipBlanks_cons (by decide), ih]

/-- In a comment, what is put in up to the first line break is a part of it. -/
theorem Filler.skipBlanks_line {filler cs : List Char} (h : Filler filler)
    (hcs : ∀ c ∈ cs.head?, c = '\n') :
    skipBlanks ((filler ++ cs).dropWhile (· != '\n')) = skipBlanks cs := by
  induction h with
  | nil =>
      cases cs with
      | nil => rfl
      | cons c cs =>
          obtain rfl := hcs c rfl
          rfl
  | @blank c filler hblank hfiller ih =>
      by_cases hline : c = '\n'
      · rw [hline, List.cons_append, List.dropWhile_cons_of_neg (by decide),
          skipBlanks_cons (by decide), hfiller.skipBlanks_append]
      · rw [List.cons_append, List.dropWhile_cons_of_pos (by simpa using hline), ih]
  | @comment body filler hbody hfiller _ =>
      have hline : '\n' ∉ '/' :: '/' :: body := by simpa using hbody
      rw [← List.cons_append, ← List.cons_append, List.append_assoc, dropWhile_line hline,
        List.cons_append, List.dropWhile_cons_of_neg (by decide), skipBlanks_cons (by decide),
        hfiller.skipBlanks_append]

open Peg

/-- The text has the pieces, with blanks and comments put in between them, before the first one and
after the last. -/
inductive Widened : List Piece → List Char → Prop
  | done {filler : List Char} : Filler filler → Widened [] filler
  | cons {filler text : List Char} {ps : List Piece} (p : Piece) : Filler filler → Widened ps text →
      Widened (p :: ps) (filler ++ (p.text ++ text))

namespace Widened

variable {ps : List Piece} {text : List Char}

theorem upToGap (h : Widened ps text) : UpToGap (textOf ps) text := by
  induction h with
  | done hfiller => exact .gap hfiller.head
  | @cons filler text ps p hfiller _ ih =>
      cases filler with
      | nil => exact ih.append p.text
      | cons c filler => exact .gap hfiller.head

/-- In a comment that ends where the pieces begin, what is put in may make the comment longer. -/
theorem skipBlanks_line (h : Widened ps text) (hps : Lexed ps [])
    (hline : ∀ c ∈ (textOf ps).head?, c = '\n') :
    skipBlanks (text.dropWhile (· != '\n')) = skipBlanks text := by
  have hsplit : ∃ filler cs, Filler filler ∧ text = filler ++ cs ∧ ∀ c ∈ cs.head?, c = '\n' := by
    cases h with
    | done hfiller => exact ⟨text, [], hfiller, (List.append_nil text).symm, by simp⟩
    | @cons filler text ps p hfiller _ =>
        refine ⟨filler, p.text ++ text, hfiller, rfl, ?_⟩
        obtain ⟨c, cs, hp⟩ := List.exists_cons_of_ne_nil hps.text_ne_nil
        rw [textOf_cons, hp] at hline
        rw [hp]
        exact hline
  obtain ⟨filler, cs, hfiller, rfl, hcs⟩ := hsplit
  rw [hfiller.skipBlanks_line hcs, hfiller.skipBlanks_append]

end Widened

/-- The reader does not see the blanks and comments that a text begins with. -/
theorem Reader.forest?_congr {cs cs' : List Char} (h : skipBlanks cs = skipBlanks cs') (r : Reader) :
    r.forest? cs = r.forest? cs' := by
  have hsame : Token.first? cs = Token.first? cs' := by rw [Token.first?, Token.first?, h]
  cases hfirst : Token.first? cs with
  | none =>
      rw [Reader.forest?_of_none hfirst, Reader.forest?_of_none (hsame.symm.trans hfirst), h]
  | some x =>
      rw [Reader.forest?_of_first? hfirst, Reader.forest?_of_first? (hsame.symm.trans hfirst)]

theorem Token.first?_of_next? {cs rest : List Char} {t : Token}
    (h : Token.next? cs = some (t, rest)) : Token.first? cs = some (t, rest) := by
  rw [Token.first?, skipBlanks_of_next? h, h]

/-- **The reader makes the same of the wider text.** -/
theorem Widened.forest?_eq {ps : List Piece} {text : List Char} (h : Widened ps text)
    (hps : Lexed ps []) (r : Reader) : r.forest? text = r.forest? (textOf ps) := by
  induction h generalizing r with
  | @done filler hfiller =>
      refine Reader.forest?_congr ?_ r
      rw [← List.append_nil filler, hfiller.skipBlanks_append]
      rfl
  | @cons filler text ps p hfiller hmore ih =>
      rw [Reader.forest?_congr (hfiller.skipBlanks_append (p.text ++ text)), textOf_cons]
      cases hps with
      | @token tok _ _ t hnext hps =>
          rw [List.append_nil] at hnext
          obtain ⟨tok', htok, hscan⟩ := tolerant_next? hnext
          obtain rfl := List.append_cancel_right htok
          have hnext' := hscan text hmore.upToGap
          have hfirst : Token.first? (Piece.text (.token tok) ++ textOf ps) = some (t, textOf ps) :=
            Token.first?_of_next? hnext
          have hfirst' : Token.first? (Piece.text (.token tok) ++ text) = some (t, text) :=
            Token.first?_of_next? hnext'
          rw [Reader.forest?_of_first? hfirst, Reader.forest?_of_first? hfirst']
          simp only [ih hps]
      | @blank c _ _ hblank hps =>
          have hskip (cs : List Char) : r.forest? (Piece.text (.blank [c]) ++ cs) = r.forest? cs :=
            Reader.forest?_congr (skipBlanks_cons hblank cs) r
          rw [hskip, hskip, ih hps]
      | @comment body _ _ hbody hline hps =>
          rw [List.append_nil] at hline
          have hskip (cs : List Char)
              (hcs : skipBlanks (cs.dropWhile (· != '\n')) = skipBlanks cs) :
              r.forest? (Piece.text (.comment ('/' :: '/' :: body)) ++ cs) = r.forest? cs :=
            Reader.forest?_congr ((skipBlanks_comment hbody cs).trans hcs) r
          rw [hskip text (hmore.skipBlanks_line hps hline), ih hps,
            hskip (textOf ps) (Filler.nil.skipBlanks_line hline)]

namespace Notation

/-- **Layout does not matter.**  A text that is parsed has its pieces in one way, and they are all
of it.  Wherever blanks and comments are put in between them, the wider text is parsed as the same
forest. -/
theorem layout_independent {text : String} {forest : Forest} (h : parse text = .ok forest) :
    ∃ pieces, Pieces grammar text.toList (.rule .program) text.toList pieces [] ∧
      (∀ pieces', Pieces grammar text.toList (.rule .program) text.toList pieces' [] →
        pieces' = pieces) ∧
      textOf pieces = text.toList ∧
      ∀ text' : String, Widened pieces text'.toList → parse text' = .ok forest := by
  rw [parse_eq_ok_iff] at h
  rcases program text.toList with ⟨pairs, found, hderives, -, -⟩ | ⟨-, hreader⟩
  · obtain ⟨pieces, hpieces⟩ := exists_pieces hderives rfl _ rfl
    have hlexed {ps : List Piece}
        (hps : Pieces grammar text.toList (.rule .program) text.toList ps []) :
        Lexed ps [] ∧ textOf ps = text.toList := by
      have htext := hps.text_append
      rw [List.append_nil] at htext
      exact ⟨lexed_of_pieces hps rfl, htext⟩
    obtain ⟨hlex, htext⟩ := hlexed hpieces
    refine ⟨pieces, hpieces, fun pieces' hpieces' => ?_, htext, fun text' hwidened => ?_⟩
    · obtain ⟨hlex', htext'⟩ := hlexed hpieces'
      exact hlex'.unique hlex (htext'.trans htext.symm)
    · rw [parse_eq_ok_iff, hwidened.forest?_eq hlex, htext]
      exact h
  · cases hreader.symm.trans h

/-- A statement without blanks, with a comment behind it. -/
def denseText : String := "@[a]1.e!(true)//c"

/-- Its forest. -/
def denseForest : Forest :=
  [.call [.ident "a"] .bang (.dotted (.number (.ofParts false ['1'] [] 0)) (.ident "e"))
    [.boolean true]]

/-- Its pieces. -/
def densePieces : List Piece :=
  [.token ['@', '['], .token ['a'], .token [']'], .token ['1'], .token ['.'], .token ['e'],
    .token ['!'], .token ['('], .token ['t', 'r', 'u', 'e'], .token [')'], .comment ['/', '/', 'c']]

/-- The same statement with blanks and comments put in. -/
def airyText : String := "@[ a]1//x\n.\te! (true)//c \n"

theorem layout_independent_dense :
    parse denseText = .ok denseForest ∧
      Pieces grammar denseText.toList (.rule .program) denseText.toList densePieces [] ∧
      Widened densePieces airyText.toList ∧ parse airyText = .ok denseForest := by
  have hdense : parse denseText = .ok denseForest := by
    rw [parse_eq_ok_iff]
    -- one step for each of the tokens
    repeat rw [Reader.forest?_of_feed (by rfl) (by rfl)]
    rw [Reader.forest?_of_none (by rfl)]
    rfl
  have hlexed : Lexed densePieces [] := by
    repeat refine .token (by rfl) ?_
    exact .comment (by decide) (by simp) (.done [])
  have hspace : Filler [' '] := .blank rfl .nil
  have htab : Filler ['\t'] := .blank rfl .nil
  have hline : Filler (['/', '/'] ++ (['x'] ++ ['\n'])) := .comment (by decide) .nil
  have hend : Filler [' ', '\n'] := .blank rfl (.blank rfl .nil)
  have hwidened : Widened densePieces airyText.toList :=
    .cons _ .nil <| .cons _ hspace <| .cons _ .nil <| .cons _ .nil <| .cons _ hline <| .cons _ htab <|
      .cons _ .nil <| .cons _ hspace <| .cons _ .nil <| .cons _ .nil <| .cons _ .nil <| .done hend
  obtain ⟨pieces, hpieces, -, htext, hlayout⟩ := layout_independent hdense
  obtain rfl : pieces = densePieces := (lexed_of_pieces hpieces rfl).unique hlexed htext
  exact ⟨hdense, hpieces, hwidened, hlayout airyText hwidened⟩

end Notation

end MacroForest
