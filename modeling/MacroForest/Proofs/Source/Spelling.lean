/-
**The tokens of a written tree.**

The written form of a tree is one string, and the first thing that reading does is to cut it into
tokens again.  Cutting is greedy: a token extends as far as it can, so what stands behind a word or
a number decides where it ends.  This module says which tokens a tree is spelled with and shows
that its text is cut into exactly these, whatever follows, as long as what follows does not carry
on the last word or number.

The places where two pieces of text meet are all of one of three kinds.  A bracket, a separator or
a blank never carries on anything.  The dot of a qualified name could carry on a number, but a name
comes after it and no digit.  And the text of an atom is one token, so nothing meets inside it.

Main definitions:

* `MacroForest.Cuts` — a text begins with some tokens, and leaves a rest;
* `MacroForest.Delimited` — a rest that carries on no word and no number;
* `MacroForest.Node.spelling` — the tokens of a tree.

Main results:

* `MacroForest.Cuts.tokens_eq` — cutting a text gives these tokens, and then those of the rest;
* `MacroForest.Atom.cuts_text` — an atom is one token;
* `MacroForest.Node.cuts_text` — **the text of a tree is cut into its spelling**.
-/

import MacroForest.Source.Token
import MacroForest.Proofs.Node.Shape
import MacroForest.Proofs.Number.Shortest

set_option relaxedAutoImplicit false
set_option autoImplicit false

namespace MacroForest

/-! ### Cutting a text -/

/-- The text begins with the tokens, with blanks in front of some of them, and leaves the rest. -/
inductive Cuts : List Char → List Token → List Char → Prop
  | done (cs : List Char) : Cuts cs [] cs
  | blank {c : Char} {cs rest : List Char} {ts : List Token} : isBlank c = true →
      Cuts cs ts rest → Cuts (c :: cs) ts rest
  | token {cs after rest : List Char} {t : Token} {ts : List Token} :
      Token.next? cs = some (t, after) → Cuts after ts rest → Cuts cs (t :: ts) rest

namespace Cuts

variable {cs after rest : List Char} {t : Token} {ts us : List Token}

theorem single (h : Token.next? cs = some (t, rest)) : Cuts cs [t] rest := .token h (.done rest)

theorem append (h : Cuts cs ts after) (h' : Cuts after us rest) : Cuts cs (ts ++ us) rest := by
  induction h with
  | done => exact h'
  | blank hb _ ih => exact .blank hb (ih h')
  | token ht _ ih => exact .token ht (ih h')

end Cuts

/-- A token begins with neither a blank nor a slash. -/
theorem skipBlanks_of_next? {cs after : List Char} {t : Token}
    (h : Token.next? cs = some (t, after)) : skipBlanks cs = cs := by
  cases cs with
  | nil => rfl
  | cons c cs =>
      have hslash : c ≠ '/' := by
        rintro rfl
        exact absurd h (by simp [Token.next?, isWordStart, punctuation?])
      have hblank : isBlank c = false := by
        by_contra hne
        simp only [isBlank, Bool.not_eq_false, Bool.or_eq_true, beq_iff_eq] at hne
        rcases hne with ((rfl | rfl) | rfl) | rfl <;>
          exact absurd h (by simp [Token.next?, isWordStart, punctuation?])
      unfold skipBlanks skipFrom
      split
      · simp_all
      · simp_all
      · simp_all

theorem skipBlanks_cons {c : Char} (h : isBlank c = true) (cs : List Char) :
    skipBlanks (c :: cs) = skipBlanks cs := by
  have hslash : c ≠ '/' := by
    rintro rfl
    exact absurd h (by decide)
  conv_lhs => unfold skipBlanks skipFrom
  split
  · simp_all
  · simp_all
  · simp_all [skipBlanks]

theorem lexemes_eq (text : List Char) :
    lexemes text =
      match Token.next? (skipBlanks text) with
      | none => ([], skipBlanks text)
      | some (t, after) => (⟨t, skipBlanks text⟩ :: (lexemes after).1, (lexemes after).2) := by
  rw [lexemes]
  split <;> simp_all

/-- **Cutting a text gives the tokens that it begins with, and then those of the rest.** -/
theorem Cuts.tokens_eq {cs rest : List Char} {ts : List Token} (h : Cuts cs ts rest) :
    (lexemes cs).1.map (·.token) = ts ++ (lexemes rest).1.map (·.token) ∧
      (lexemes cs).2 = (lexemes rest).2 := by
  induction h with
  | done => exact ⟨rfl, rfl⟩
  | @blank c cs rest ts hb _ ih =>
      have : lexemes (c :: cs) = lexemes cs := by
        rw [lexemes_eq, lexemes_eq cs, skipBlanks_cons hb]
      rw [this]
      exact ih
  | @token cs after rest t ts ht _ ih =>
      have : lexemes cs = (⟨t, cs⟩ :: (lexemes after).1, (lexemes after).2) := by
        rw [lexemes_eq, skipBlanks_of_next? ht, ht]
      rw [this, List.map_cons, ih.1]
      exact ⟨rfl, ih.2⟩

/-! ### What ends a token -/

/-- A rest that carries on no word and no number: it does not begin with a character of words, nor
with a point and a digit. -/
def Delimited : List Char → Prop
  | [] => True
  | c :: cs => isWordChar c = false ∧ (c = '.' → ∀ d ∈ cs.head?, d.isDigit = false)

theorem delimited_cons {c : Char} (hc : isWordChar c = false) (hdot : c ≠ '.') (cs : List Char) :
    Delimited (c :: cs) := ⟨hc, fun h => absurd h hdot⟩

theorem Delimited.head {rest : List Char} (h : Delimited rest) :
    ∀ c ∈ rest.head?, isWordChar c = false := by
  cases rest with
  | nil => simp
  | cons c cs =>
      intro d hd
      obtain rfl : c = d := by simpa using hd
      exact h.1

theorem isWordChar_of_isDigit {c : Char} (h : c.isDigit = true) : isWordChar c = true := by
  simp [isWordChar, Char.isAlphanum, h]

theorem isWordStart_of_isDigit {c : Char} (h : c.isDigit = true) : isWordStart c = false := by
  have hnine : c.val ≤ '9'.val := of_decide_eq_true (Bool.and_eq_true_iff.1 h).2
  -- the digits stand before all letters
  have hupper : c.isUpper = false := by
    refine decide_eq_false fun hupper => ?_
    exact absurd (UInt32.le_trans hupper.1 hnine) (by decide)
  have hlower : c.isLower = false := by
    refine Bool.eq_false_iff.2 fun hlower => ?_
    have hle : 'a'.val ≤ c.val := of_decide_eq_true (Bool.and_eq_true_iff.1 hlower).1
    exact absurd (UInt32.le_trans hle hnine) (by decide)
  have halpha : c.isAlpha = false := Bool.or_eq_false_iff.2 ⟨hupper, hlower⟩
  have hunderscore : c ≠ '_' := by
    rintro rfl
    exact absurd h (by decide)
  have hhash : c ≠ '#' := by
    rintro rfl
    exact absurd h (by decide)
  simp [isWordStart, halpha, hunderscore, hhash]

/-- A run of characters of one class ends where the class ends. -/
theorem span_append {p : Char → Bool} {cs rest : List Char} (hcs : ∀ c ∈ cs, p c = true)
    (hrest : ∀ c ∈ rest.head?, p c = false) :
    (cs ++ rest).takeWhile p = cs ∧ (cs ++ rest).dropWhile p = rest := by
  have hstop : rest.takeWhile p = [] ∧ rest.dropWhile p = rest := by
    cases rest with
    | nil => exact ⟨rfl, rfl⟩
    | cons c rest => simp [hrest c (by simp)]
  rw [List.takeWhile_append_of_pos hcs, List.dropWhile_append_of_pos hcs, hstop.1, hstop.2]
  simp

/-! ### One token -/

theorem next?_punctuation {c : Char} {t : Token} (h : punctuation? c = some t) (cs : List Char) :
    Token.next? (c :: cs) = some (t, cs) := by
  unfold punctuation? at h
  split at h
  case h_10 => simp at h
  all_goals
    obtain rfl := Option.some.inj h
    rfl

theorem next?_of_isWordStart {c : Char} (h : isWordStart c = true) (cs : List Char) :
    Token.next? (c :: cs) =
      some (.word (String.ofList (c :: cs.takeWhile isWordChar)), cs.dropWhile isWordChar) := by
  unfold Token.next?
  split
  · simp_all
  · rename_i heq
    obtain rfl : c = '@' := (List.cons.inj heq).1
    exact absurd h (by decide)
  · rename_i heq
    obtain ⟨rfl, rfl⟩ := List.cons.inj heq
    rw [if_pos h]

theorem next?_of_isDigit {c : Char} (h : c.isDigit = true) (cs : List Char) :
    Token.next? (c :: cs) = some (takeNumber false (c :: cs)) := by
  unfold Token.next?
  split
  · simp_all
  · rename_i heq
    obtain rfl : c = '@' := (List.cons.inj heq).1
    exact absurd h (by decide)
  · rename_i heq
    obtain ⟨rfl, rfl⟩ := List.cons.inj heq
    rw [if_neg (by simp [isWordStart_of_isDigit h]), if_pos h]

/-- A plain word that is not carried on. -/
theorem next?_word {name : String} {rest : List Char} (h : isPlainWord name = true)
    (hrest : Delimited rest) : Token.next? (name.toList ++ rest) = some (.word name, rest) := by
  unfold isPlainWord at h
  split at h
  · exact absurd h (by simp)
  · rename_i c cs hname
    rw [Bool.and_eq_true, List.all_eq_true] at h
    obtain ⟨hstart, hall⟩ := h
    obtain ⟨htake, hdrop⟩ := span_append hall hrest.head
    rw [hname, List.cons_append]
    rw [next?_of_isWordStart hstart, htake, hdrop, ← hname, String.ofList_toList]

theorem quotedBody_append {body : List Char} (h : '\x60' ∉ body) (rest : List Char) :
    quotedBody (body ++ '\x60' :: rest) = some (body, rest) := by
  induction body with
  | nil => simp [quotedBody]
  | cons c body ih =>
      have hc : c ≠ '\x60' := fun heq => h (by simp [heq])
      rw [List.cons_append, quotedBody, if_neg (by simpa using hc),
        ih fun hmem => h (List.mem_cons_of_mem c hmem)]
      rfl

/-- What is written for one character of a string is read as that character. -/
theorem stringBody_escapeChar (c : Char) (cs : List Char) :
    stringBody (escapeChar c ++ cs) =
      (stringBody cs).map fun (body, rest) => (c :: body, rest) := by
  unfold escapeChar
  split
  · rfl
  · rfl
  · rfl
  · rfl
  · rfl
  · rw [List.cons_append, List.nil_append, stringBody.eq_def]
    split <;> simp_all

theorem stringBody_append (body rest : List Char) :
    stringBody (body.flatMap escapeChar ++ '"' :: rest) = some (body, rest) := by
  induction body with
  | nil => rfl
  | cons c body ih =>
      rw [List.flatMap_cons, List.append_assoc, stringBody_escapeChar, ih]
      rfl

theorem Delimited.isDigit_head {rest : List Char} (h : Delimited rest) :
    ∀ c ∈ rest.head?, c.isDigit = false := by
  intro c hc
  by_contra hne
  have := isWordChar_of_isDigit (Bool.not_eq_false _ ▸ hne)
  exact absurd (h.head c hc) (by simp [this])

/-- Where no point and digit follow, there is no fraction. -/
theorem takeFraction_of_delimited {rest : List Char} (h : Delimited rest) :
    takeFraction rest = ([], rest) := by
  unfold takeFraction
  split
  · rename_i cs
    have hcs : cs.takeWhile Char.isDigit = [] := by
      have hdigit := h.2 rfl
      cases cs with
      | nil => rfl
      | cons d ds => simp [hdigit d (by simp)]
    rw [takeDigits, if_pos (by simp [hcs])]
  · rfl

theorem takeFraction_pointed {fraction rest : List Char}
    (hfraction : ∀ c ∈ fraction, c.isDigit = true) (hrest : Delimited rest) :
    takeFraction (Number.pointed fraction ++ rest) = (fraction, rest) := by
  unfold Number.pointed
  split
  · rename_i hempty
    obtain rfl := List.isEmpty_iff.1 hempty
    exact takeFraction_of_delimited hrest
  · rename_i hne
    obtain ⟨htake, hdrop⟩ := span_append hfraction hrest.isDigit_head
    rw [List.cons_append, takeFraction, takeDigits, htake, hdrop, if_neg hne]

/-- The letter of an exponent would carry on a word. -/
theorem takeExponent_of_delimited {rest : List Char} (h : Delimited rest) :
    takeExponent rest = (0, rest) := by
  unfold takeExponent
  split
  · rename_i e cs
    have he : ¬ ((e == 'e' || e == 'E') = true) := by
      intro he
      rcases Bool.or_eq_true _ _ ▸ he with he | he <;>
        exact absurd h.1 (by rw [eq_of_beq he]; decide)
    rw [if_neg he]
  · rfl

/-- The digits of a number, with a fraction unless it is empty, are taken as a whole. -/
theorem takeNumber_append {whole fraction rest : List Char} (negative : Bool)
    (hdigits : ∀ c ∈ whole ++ fraction, c.isDigit = true) (hrest : Delimited rest) :
    takeNumber negative (whole ++ (Number.pointed fraction ++ rest)) =
      (.number (.ofParts negative whole fraction 0), rest) := by
  have hwhole : ∀ c ∈ whole, c.isDigit = true := fun c hc => hdigits c (List.mem_append_left _ hc)
  have hfraction : ∀ c ∈ fraction, c.isDigit = true :=
    fun c hc => hdigits c (List.mem_append_right _ hc)
  -- the whole part ends at the point, or at the rest if there is none
  have hpoint : ∀ c ∈ (Number.pointed fraction ++ rest).head?, c.isDigit = false := by
    unfold Number.pointed
    split
    · exact hrest.isDigit_head
    · intro c hc
      obtain rfl : '.' = c := by simpa using hc
      decide
  obtain ⟨htake, hdrop⟩ := span_append hwhole hpoint
  simp only [takeNumber, takeDigits, htake, hdrop, takeFraction_pointed hfraction hrest,
    takeExponent_of_delimited hrest]

theorem next?_number {x : Number} (hfin : x.isFinite = true) {rest : List Char}
    (hrest : Delimited rest) : Token.next? (x.chars ++ rest) = some (.number x, rest) := by
  obtain ⟨whole, fraction, htext, hne, hdigits, hvalue⟩ := Number.exists_parts hfin
  have htake := takeNumber_append x.negative hdigits hrest
  rw [hvalue, ← List.append_assoc, ← htext] at htake
  -- the first digit tells that this is a number, behind the sign if there is one
  obtain ⟨d, ds, hd, hdigit⟩ : ∃ d ds, x.shortest.positional ++ rest = d :: ds ∧
      d.isDigit = true := by
    cases whole with
    | nil => exact absurd rfl hne
    | cons d ds => exact ⟨d, _, by rw [htext]; rfl, hdigits d (by simp)⟩
  rw [hd] at htake
  have hsigned : x.chars ++ rest = (if x.negative then ['-'] else []) ++ d :: ds := by
    simp only [Number.chars, Number.isNaN_of_isFinite hfin, hfin, if_true, Bool.false_eq_true,
      if_false, List.append_assoc, hd]
  rw [hsigned]
  cases hneg : x.negative with
  | true =>
      rw [hneg] at htake
      rw [← htake]
      simp [Token.next?, isWordStart, hdigit]
  | false =>
      rw [hneg] at htake
      rw [← htake, if_neg (by simp), List.nil_append, next?_of_isDigit hdigit]

/-! ### Atoms -/

/-- The atoms that can be written: there is no way to write a backquote in a name, nor a number
that is not finite. -/
def Atom.Writable : Atom → Prop
  | .ident name => '\x60' ∉ name.toList
  | .number value => value.isFinite = true
  | .string _ => True
  | .boolean _ => True

instance (a : Atom) : Decidable a.Writable :=
  match a with
  | .ident name => inferInstanceAs (Decidable ('\x60' ∉ name.toList))
  | .number value => inferInstanceAs (Decidable (value.isFinite = true))
  | .string _ => inferInstanceAs (Decidable True)
  | .boolean _ => inferInstanceAs (Decidable True)

/-- The token of a name. -/
def identToken (name : String) : Token :=
  if isPlainWord name && name != booleanWord true && name != booleanWord false then .word name
  else .quoted name

/-- The token of an atom. -/
def Atom.token : Atom → Token
  | .ident name => identToken name
  | .number value => .number value
  | .string value => .string value
  | .boolean value => .word (booleanWord value)

theorem next?_ident {name : String} (h : '\x60' ∉ name.toList) {rest : List Char}
    (hrest : Delimited rest) :
    Token.next? ((identText name).toList ++ rest) = some (identToken name, rest) := by
  unfold identText identToken
  split
  · rename_i hword
    simp only [Bool.and_eq_true] at hword
    exact next?_word hword.1.1 hrest
  · have hquoted : ("`" ++ name ++ "`").toList ++ rest =
        '\x60' :: (name.toList ++ '\x60' :: rest) := by simp
    rw [hquoted]
    show (quotedBody (name.toList ++ '\x60' :: rest)).map _ = _
    rw [quotedBody_append h]
    simp

/-- **An atom is written as one token.** -/
theorem Atom.cuts_text {a : Atom} (h : a.Writable) {rest : List Char} (hrest : Delimited rest) :
    Cuts (a.text.toList ++ rest) [a.token] rest := by
  refine .single ?_
  cases a with
  | ident name => exact next?_ident h hrest
  | number x =>
      rw [Atom.text, Number.text, String.toList_ofList]
      exact next?_number h hrest
  | string s =>
      have hquoted : (quoteString s).toList ++ rest =
          '"' :: (s.toList.flatMap escapeChar ++ '"' :: rest) := by simp [quoteString]
      rw [Atom.text, hquoted]
      show (stringBody (s.toList.flatMap escapeChar ++ '"' :: rest)).map _ = _
      rw [stringBody_append]
      simp [Atom.token]
  | boolean b => cases b <;> exact next?_word (by decide) hrest

/-! ### The spelling of a tree -/

/-- The tokens of the attributes in front of a node. -/
def attrsSpelling (attrs : List (List Token)) : List Token :=
  if attrs.isEmpty then []
  else .attrsOpen :: ([Token.comma].intercalate attrs ++ [.attrsClose])

/-- The tokens of a node in the place of a target. -/
def targetSpelling (n : Node) (tokens : List Token) : List Token :=
  if n.hasAttrs then .parenOpen :: (tokens ++ [.parenClose]) else tokens

/-- The tokens of a block. -/
def blockSpelling (statements : List (List Token)) : List Token :=
  .braceOpen :: ([Token.semicolon].intercalate statements ++ [.braceClose])

/-- The tokens of an argument list, with the `!` in front of it. -/
def argsSpelling (style : Style) (args : List (List Token)) : List Token :=
  (if style = .bang then [.bang] else []) ++
    .parenOpen :: ([Token.comma].intercalate args ++ [.parenClose])

namespace Node

mutual

/-- The tokens that a tree is written with. -/
def spelling : Node → List Token
  | .atom attrs _ value => attrsSpelling (spellings attrs) ++ [value.token]
  | .call attrs style target args =>
    attrsSpelling (spellings attrs) ++
      match CallForm.of style target args, args, spellings args with
      | .block, _, statements => blockSpelling statements
      | .dotted, left :: _, [leftTokens, rightTokens] =>
        targetSpelling left leftTokens ++ .dot :: rightTokens
      | _, _, argTokens =>
        targetSpelling target (spelling target) ++ argsSpelling style argTokens

/-- The tokens of some trees. -/
def spellings : List Node → List (List Token)
  | [] => []
  | n :: ns => spelling n :: spellings ns

end

theorem spellings_eq_map (ns : List Node) : spellings ns = ns.map spelling := by
  induction ns with
  | nil => rfl
  | cons n ns ih => simp [spellings, ih]

end Node

/-- What a call that is written as a qualified name looks like. -/
theorem CallForm.of_eq_dotted {style : Style} {target : Node} {args : List Node}
    (h : CallForm.of style target args = .dotted) :
    style = .plain ∧ target.isName Reserved.dot = true ∧
      ∃ left rightStyle name, args = [left, .atom [] rightStyle (.ident name)] := by
  unfold CallForm.of at h
  split at h
  · rename_i hplain
    split at h
    · simp at h
    · split at h
      · rename_i hdot
        split at h
        · rename_i left right
          split at h
          · rename_i hright
            refine ⟨hplain, hdot, left, ?_⟩
            cases right with
            | atom attrs rightStyle value =>
                cases value with
                | ident name =>
                    obtain rfl : attrs = [] := by
                      simpa [Node.isIdent, Node.hasAttrs, Node.attrs] using hright
                    exact ⟨rightStyle, name, rfl⟩
                | number | string | boolean => simp [Node.isIdent] at hright
            | call => simp [Node.isIdent] at hright
          · simp at h
        · simp at h
      · simp at h
  · simp at h

/-- What a call that is written as a block looks like. -/
theorem CallForm.of_eq_block {style : Style} {target : Node} {args : List Node}
    (h : CallForm.of style target args = .block) :
    style = .plain ∧ target.isName Reserved.block = true := by
  unfold CallForm.of at h
  split at h
  · rename_i hplain
    split at h
    · rename_i hblock
      exact ⟨hplain, hblock⟩
    · split at h
      · split at h
        · split at h <;> simp at h
        · simp at h
      · simp at h
  · simp at h

section Forms

variable {style : Style} {target : Node} {args : List Node} (attrs : List Node)

theorem Node.text_of_block (h : CallForm.of style target args = .block) :
    (Node.call attrs style target args).text =
      attrsText (Node.texts attrs) ++ blockText (Node.texts args) := by
  rw [Node.text.eq_def]
  simp only [h]

theorem Node.spelling_of_block (h : CallForm.of style target args = .block) :
    (Node.call attrs style target args).spelling =
      attrsSpelling (Node.spellings attrs) ++ blockSpelling (Node.spellings args) := by
  rw [Node.spelling.eq_def]
  simp only [h]

theorem Node.text_of_applied (h : CallForm.of style target args = .applied) :
    (Node.call attrs style target args).text = attrsText (Node.texts attrs) ++
      appliedText style (targetText target target.text) (Node.texts args) := by
  rw [Node.text.eq_def]
  simp only [h]

theorem Node.spelling_of_applied (h : CallForm.of style target args = .applied) :
    (Node.call attrs style target args).spelling = attrsSpelling (Node.spellings attrs) ++
      (targetSpelling target target.spelling ++ argsSpelling style (Node.spellings args)) := by
  rw [Node.spelling.eq_def]
  simp only [h]

theorem Node.text_of_dotted {left : Node} {rightStyle : Style} {name : String}
    (h : CallForm.of style target [left, .atom [] rightStyle (.ident name)] = .dotted) :
    (Node.call attrs style target [left, .atom [] rightStyle (.ident name)]).text =
      attrsText (Node.texts attrs) ++
        (targetText left left.text ++ "." ++ identText name) := by
  rw [Node.text.eq_def]
  simp only [h]
  simp [Node.texts, Node.text, attrsText, Atom.text]

theorem Node.spelling_of_dotted {left : Node} {rightStyle : Style} {name : String}
    (h : CallForm.of style target [left, .atom [] rightStyle (.ident name)] = .dotted) :
    (Node.call attrs style target [left, .atom [] rightStyle (.ident name)]).spelling =
      attrsSpelling (Node.spellings attrs) ++
        (targetSpelling left left.spelling ++ [.dot, identToken name]) := by
  rw [Node.spelling.eq_def]
  simp only [h]
  simp [Node.spellings, Node.spelling, attrsSpelling, Atom.token]

end Forms

/-! ### Cutting the text of a tree -/

namespace Node

/-- The text of a tree is cut into its spelling, whatever delimited text follows. -/
def Legible (n : Node) : Prop :=
  ∀ rest, Delimited rest → Cuts (n.text.toList ++ rest) n.spelling rest

/-- Members with a separator and a blank between them. -/
theorem cuts_separated {c : Char} {t : Token} (hc : punctuation? c = some t)
    (hdelim : ∀ cs, Delimited (c :: cs)) {ns : List Node} (h : ∀ n ∈ ns, n.Legible)
    {rest : List Char} (hrest : Delimited rest) :
    Cuts ([c, ' '].intercalate (ns.map fun n => n.text.toList) ++ rest)
      ([t].intercalate (ns.map spelling)) rest := by
  induction ns with
  | nil => exact .done rest
  | cons n ns ih =>
      cases ns with
      | nil => simpa using h n (by simp) rest hrest
      | cons m ns =>
          have hn := h n (by simp) _
            (hdelim (' ' :: ([c, ' '].intercalate ((m :: ns).map fun n => n.text.toList) ++ rest)))
          have hns := ih fun k hk => h k (List.mem_cons_of_mem n hk)
          have := hn.append (.token (next?_punctuation hc _) (.blank (c := ' ') rfl hns))
          simpa [List.intercalate_cons_cons] using this

theorem toList_intercalate_texts (s : String) (ns : List Node) :
    (s.intercalate (texts ns)).toList = s.toList.intercalate (ns.map fun n => n.text.toList) := by
  rw [String.toList_intercalate, texts_eq_map, List.map_map]
  rfl

/-- The characters of the attributes in front of a tree. -/
theorem toList_attrsText {attrs : List Node} (hne : attrs ≠ []) :
    (attrsText (texts attrs)).toList = '@' :: '[' ::
      ([',', ' '].intercalate (attrs.map fun n => n.text.toList) ++ [']', ' ']) := by
  rw [attrsText, if_neg (by simp [texts_eq_map, hne]), String.toList_append, String.toList_append,
    toList_intercalate_texts]
  simp

/-- The characters of a block that is not empty. -/
theorem toList_blockText {ns : List Node} (hne : ns ≠ []) :
    (blockText (texts ns)).toList = '\x7b' :: ' ' ::
      ([';', ' '].intercalate (ns.map fun n => n.text.toList) ++ [' ', '\x7d']) := by
  rw [blockText, if_neg (by simp [texts_eq_map, hne]), String.toList_append, String.toList_append,
    toList_intercalate_texts]
  simp

/-- The characters of a target and its arguments. -/
theorem toList_appliedText (style : Style) (target : String) (args : List Node) :
    (appliedText style target (texts args)).toList = target.toList ++
      ((if style = .bang then ['!'] else []) ++ '(' ::
        ([',', ' '].intercalate (args.map fun n => n.text.toList) ++ [')'])) := by
  simp only [appliedText, String.toList_append, toList_intercalate_texts]
  cases style <;> simp

theorem cuts_attrs {attrs : List Node} (h : ∀ a ∈ attrs, a.Legible) (rest : List Char) :
    Cuts ((attrsText (texts attrs)).toList ++ rest) (attrsSpelling (spellings attrs)) rest := by
  cases attrs with
  | nil => exact .done rest
  | cons a attrs =>
      have hbody := cuts_separated (c := ',') (t := .comma) rfl
        (delimited_cons (by decide) (by decide)) h
        (delimited_cons (c := ']') (by decide) (by decide) (' ' :: rest))
      have hclose : Cuts (']' :: ' ' :: rest) [.attrsClose] rest :=
        .token (next?_punctuation rfl _) (.blank (c := ' ') rfl (.done rest))
      have hopen : ∀ cs, Token.next? ('@' :: '[' :: cs) = some (.attrsOpen, cs) := fun _ => rfl
      have htext : (attrsText (texts (a :: attrs))).toList ++ rest = '@' :: '[' ::
          ([',', ' '].intercalate ((a :: attrs).map fun n => n.text.toList) ++
            ']' :: ' ' :: rest) := by
        simp [toList_attrsText]
      rw [htext, attrsSpelling, if_neg (by simp [spellings]), spellings_eq_map]
      exact .token (hopen _) (hbody.append hclose)

theorem cuts_target {n : Node} (h : n.Legible) {rest : List Char} (hrest : Delimited rest) :
    Cuts ((targetText n n.text).toList ++ rest) (targetSpelling n n.spelling) rest := by
  unfold targetText targetSpelling
  split
  · have hbody := h _ (delimited_cons (c := ')') (by decide) (by decide) rest)
    have := hbody.append (.single (next?_punctuation rfl rest))
    simpa using Cuts.token (next?_punctuation (c := '(') rfl _) this
  · exact h rest hrest

theorem cuts_block {ns : List Node} (h : ∀ n ∈ ns, n.Legible) (rest : List Char) :
    Cuts ((blockText (texts ns)).toList ++ rest) (blockSpelling (spellings ns)) rest := by
  cases ns with
  | nil => exact .token (next?_punctuation rfl _) (.single (next?_punctuation rfl rest))
  | cons n ns =>
      have hbody := cuts_separated (c := ';') (t := .semicolon) rfl
        (delimited_cons (by decide) (by decide)) h
        (delimited_cons (c := ' ') (by decide) (by decide) ('\x7d' :: rest))
      have hclose : Cuts (' ' :: '\x7d' :: rest) [.braceClose] rest :=
        .blank rfl (.single (next?_punctuation rfl rest))
      have htext : (blockText (texts (n :: ns))).toList ++ rest = '\x7b' :: ' ' ::
          ([';', ' '].intercalate ((n :: ns).map fun n => n.text.toList) ++
            ' ' :: '\x7d' :: rest) := by
        simp [toList_blockText]
      rw [htext, blockSpelling, spellings_eq_map]
      exact .token (next?_punctuation rfl _) (.blank rfl (hbody.append hclose))

theorem cuts_applied {style : Style} {target : Node} {args : List Node} (htarget : target.Legible)
    (hargs : ∀ a ∈ args, a.Legible) (rest : List Char) :
    Cuts ((appliedText style (targetText target target.text) (texts args)).toList ++ rest)
      (targetSpelling target target.spelling ++ argsSpelling style (spellings args)) rest := by
  have hbody := cuts_separated (c := ',') (t := .comma) rfl
    (delimited_cons (by decide) (by decide)) hargs
    (delimited_cons (c := ')') (by decide) (by decide) rest)
  have hlist := Cuts.token (next?_punctuation (c := '(') rfl _)
    (hbody.append (.single (next?_punctuation rfl rest)))
  have htext : (appliedText style (targetText target target.text) (texts args)).toList ++ rest =
      (targetText target target.text).toList ++ ((if style = .bang then ['!'] else []) ++ '(' ::
        ([',', ' '].intercalate (args.map fun n => n.text.toList) ++ ')' :: rest)) := by
    simp [toList_appliedText]
  rw [htext, argsSpelling, spellings_eq_map]
  cases style with
  | plain =>
      exact (cuts_target htarget (delimited_cons (by decide) (by decide) _)).append hlist
  | bang =>
      exact (cuts_target htarget (delimited_cons (by decide) (by decide) _)).append
        (.token (next?_punctuation rfl _) hlist)

/-- A name does not begin with a digit, so the dot in front of one carries on no number. -/
theorem delimited_dot_ident (name : String) (rest : List Char) :
    Delimited ('.' :: ((identText name).toList ++ rest)) := by
  refine ⟨by decide, fun _ d hd => ?_⟩
  unfold identText at hd
  split at hd
  · rename_i hword
    simp only [Bool.and_eq_true, isPlainWord] at hword
    split at hword
    · simp at hword
    · rename_i c cs hname
      obtain rfl : c = d := by simpa [hname] using hd
      have hstart : isWordStart c = true := (Bool.and_eq_true _ _ ▸ hword.1.1).1
      by_contra hne
      rw [isWordStart_of_isDigit (Bool.not_eq_false _ ▸ hne)] at hstart
      simp at hstart
  · obtain rfl : '\x60' = d := by simpa using hd
    decide

/-- **The text of a tree is cut into its spelling.** -/
theorem cuts_text {n : Node} (h : ∀ a ∈ n.atoms, a.Writable) : n.Legible := by
  induction n using inductionOn with
  | atom attrs style value ih =>
      intro rest hrest
      have hattrs : ∀ a ∈ attrs, a.Legible := fun a ha =>
        ih a ha fun b hb => h b (mem_atoms_of_mem_attrs ha hb)
      have hvalue : value.Writable := h value (by simp [atoms])
      rw [text, spelling, String.toList_append, List.append_assoc]
      exact (cuts_attrs hattrs _).append (Atom.cuts_text hvalue hrest)
  | call attrs style target args ihAttrs ihTarget ihArgs =>
      intro rest hrest
      have hattrs : ∀ a ∈ attrs, a.Legible := fun a ha =>
        ihAttrs a ha fun b hb => h b (mem_atoms_of_mem_attrs ha hb)
      have htarget : target.Legible := ihTarget fun b hb => h b (mem_atoms_of_target rfl hb)
      have hargs : ∀ a ∈ args, a.Legible := fun a ha =>
        ihArgs a ha fun b hb => h b (mem_atoms_of_mem_args ha hb)
      cases hform : CallForm.of style target args with
      | block =>
          rw [text_of_block attrs hform, spelling_of_block attrs hform, String.toList_append,
            List.append_assoc]
          exact (cuts_attrs hattrs _).append (cuts_block hargs rest)
      | applied =>
          rw [text_of_applied attrs hform, spelling_of_applied attrs hform, String.toList_append,
            List.append_assoc]
          exact (cuts_attrs hattrs _).append (cuts_applied htarget hargs rest)
      | dotted =>
          -- a number on the left does not take the dot, since no digit follows it
          obtain ⟨-, -, left, rightStyle, name, rfl⟩ := CallForm.of_eq_dotted hform
          have hname : '\x60' ∉ name.toList := h (.ident name) (by simp [atoms, atomsOf])
          have hdot : Cuts ('.' :: ((identText name).toList ++ rest)) [.dot, identToken name] rest :=
            .token (next?_punctuation rfl _) (.single (next?_ident hname hrest))
          have hleft := cuts_target (hargs left (by simp)) (delimited_dot_ident name rest)
          have htext : (targetText left left.text ++ "." ++ identText name).toList ++ rest =
              (targetText left left.text).toList ++ '.' :: ((identText name).toList ++ rest) := by
            simp
          rw [text_of_dotted attrs hform, spelling_of_dotted attrs hform, String.toList_append,
            List.append_assoc, htext]
          exact (cuts_attrs hattrs _).append (hleft.append hdot)

end Node

end MacroForest
