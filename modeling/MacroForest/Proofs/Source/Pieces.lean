/-
**The pieces of a text.**

A derivation cuts the text that it takes into pieces.  Outside of the tight rules, the literals of
the grammar and what the tight rules take are its *tokens*, and between the tokens there are single
blanks and comments.  A text has the same pieces however its rules are nested, so they are given
here by a relation of their own beside that for the results (`MacroForest/Proofs/Source/Peg.lean`),
with a rule of inference for each way to take something.

For the notation, the pieces are those that the lexer sees: each token is the next one for the lexer
at its place.  So the pieces of a text are determined by the text.

Main definitions:

* `MacroForest.Peg.Piece` — tokens, blanks and comments;
* `MacroForest.Peg.Pieces` — **the pieces of what an expression takes**;
* `MacroForest.Lexed` — the pieces are those that the lexer sees.

Main results:

* `MacroForest.Peg.Pieces.text_append` — the pieces are all of the text;
* `MacroForest.Notation.exists_pieces` — what is derived has pieces;
* `MacroForest.Notation.lexed_of_pieces` — **the tokens of the grammar are those of the lexer**;
* `MacroForest.Lexed.unique` — a text has its pieces in one way.
-/

import MacroForest.Proofs.Source.Acceptance

set_option relaxedAutoImplicit false
set_option autoImplicit false

namespace MacroForest

namespace Peg

/-! ### Pieces -/

/-- A piece of a text. -/
inductive Piece where
  /-- A token. -/
  | token (text : List Char)
  /-- A blank. -/
  | blank (text : List Char)
  /-- A comment, up to the end of its line. -/
  | comment (text : List Char)
deriving DecidableEq

/-- The text of a piece. -/
def Piece.text : Piece → List Char
  | .token text => text
  | .blank text => text
  | .comment text => text

/-- The text of some pieces. -/
def textOf (ps : List Piece) : List Char := ps.flatMap Piece.text

@[simp] theorem textOf_nil : textOf [] = [] := rfl

@[simp] theorem textOf_cons (p : Piece) (ps : List Piece) : textOf (p :: ps) = p.text ++ textOf ps :=
  List.flatMap_cons

@[simp] theorem textOf_append (ps qs : List Piece) : textOf (ps ++ qs) = textOf ps ++ textOf qs :=
  List.flatMap_append

/-- What is taken of a text if a rest is left. -/
def taken (cs rest : List Char) : List Char := cs.take (cs.length - rest.length)

@[simp] theorem taken_of_append (text rest : List Char) : taken (text ++ rest) rest = text := by
  simp [taken]

theorem taken_append {cs rest : List Char} (h : rest <:+ cs) : taken cs rest ++ rest = cs := by
  obtain ⟨text, rfl⟩ := h
  rw [taken_of_append]

variable {ρ : Type}

/-- Blanks and comments, one after the other. -/
inductive Blanks (g : Grammar ρ) (whole : List Char) : List Char → List Piece → List Char → Prop
  | done (cs : List Char) : Blanks g whole cs [] cs
  | blank {cs rest rest' : List Char} {inner : List (Pair ρ)} {ps : List Piece} :
      Derives g whole .atomic (.rule g.blank) cs (some (inner, rest)) →
      Blanks g whole rest ps rest' → Blanks g whole cs (.blank (taken cs rest) :: ps) rest'
  | comment {cs rest rest' : List Char} {inner : List (Pair ρ)} {ps : List Piece} :
      Derives g whole .atomic (.rule g.comment) cs (some (inner, rest)) →
      Blanks g whole rest ps rest' → Blanks g whole cs (.comment (taken cs rest) :: ps) rest'

/-- **The pieces of what an expression takes** at a place of a text, where blanks are skipped. -/
inductive Pieces (g : Grammar ρ) (whole : List Char) :
    Expr ρ → List Char → List Piece → List Char → Prop
  | lit (text rest : List Char) : Pieces g whole (.lit text) (text ++ rest) [.token text] rest
  | one {test : Char → Bool} {c : Char} (rest : List Char) : test c = true →
      Pieces g whole (.one test) (c :: rest) [.token [c]] rest
  | first : Pieces g whole .first whole [] whole
  | last : Pieces g whole .last [] [] []
  | seq {a b : Expr ρ} {cs mid skipped rest : List Char} {ps gap qs : List Piece} :
      Pieces g whole a cs ps mid →
      Derives g whole .atomic (g.between .loose) mid (some ([], skipped)) →
      Blanks g whole mid gap skipped → Pieces g whole b skipped qs rest →
      Pieces g whole (.seq a b) cs (ps ++ (gap ++ qs)) rest
  | altLeft {a b : Expr ρ} {cs rest : List Char} {ps : List Piece} :
      Pieces g whole a cs ps rest → Pieces g whole (.alt a b) cs ps rest
  | altRight {a b : Expr ρ} {cs rest : List Char} {ps : List Piece} :
      Derives g whole .loose a cs none → Pieces g whole b cs ps rest →
      Pieces g whole (.alt a b) cs ps rest
  | starEnds {a : Expr ρ} {cs : List Char} :
      Derives g whole .loose a cs none → Pieces g whole (.star a) cs [] cs
  | star {a : Expr ρ} {cs mid rest : List Char} {ps qs : List Piece} :
      Pieces g whole a cs ps mid → Pieces g whole (.again a) mid qs rest →
      Pieces g whole (.star a) cs (ps ++ qs) rest
  | againEnds {a : Expr ρ} {cs skipped : List Char} :
      Derives g whole .atomic (g.between .loose) cs (some ([], skipped)) →
      Derives g whole .loose a skipped none → Pieces g whole (.again a) cs [] cs
  | again {a : Expr ρ} {cs skipped mid rest : List Char} {gap ps qs : List Piece} :
      Derives g whole .atomic (g.between .loose) cs (some ([], skipped)) →
      Blanks g whole cs gap skipped → Pieces g whole a skipped ps mid →
      Pieces g whole (.again a) mid qs rest → Pieces g whole (.again a) cs (gap ++ (ps ++ qs)) rest
  | optNot {a : Expr ρ} {cs : List Char} :
      Derives g whole .loose a cs none → Pieces g whole (.opt a) cs [] cs
  | opt {a : Expr ρ} {cs rest : List Char} {ps : List Piece} :
      Pieces g whole a cs ps rest → Pieces g whole (.opt a) cs ps rest
  | absent {a : Expr ρ} {cs : List Char} :
      Derives g whole .loose a cs none → Pieces g whole (.absent a) cs [] cs
  /-- A rule in which blanks are skipped has the pieces of its expression. -/
  | rule {name : ρ} {cs rest : List Char} {ps : List Piece} :
      (g.kind name).inside .loose = .loose → Pieces g whole (g.body name) cs ps rest →
      Pieces g whole (.rule name) cs ps rest
  /-- What any other rule takes is one token. -/
  | tight {name : ρ} {cs rest : List Char} {inner : List (Pair ρ)} :
      (g.kind name).inside .loose ≠ .loose →
      Derives g whole .loose (.rule name) cs (some (inner, rest)) →
      Pieces g whole (.rule name) cs [.token (taken cs rest)] rest

variable {g : Grammar ρ} {whole cs rest : List Char} {e : Expr ρ} {ps : List Piece}

theorem exists_of_oneOf {test : Char → Bool} {x : List (Pair ρ) × List Char}
    (h : oneOf test cs = some x) : ∃ c, cs = c :: x.2 ∧ test c = true := by
  cases cs with
  | nil => cases h
  | cons c cs =>
      obtain ⟨hc, ⟨⟩⟩ := Option.ite_none_right_eq_some.1 h
      exact ⟨c, rfl, hc⟩

/-- What is left is the end of the text. -/
theorem Derives.suffix {m : Spacing} {result : Result ρ} (h : Derives g whole m e cs result) :
    ∀ x, result = some x → x.2 <:+ cs := by
  induction h with
  | lit text cs =>
      intro x hx
      obtain ⟨rest, hrest, rfl⟩ := Option.map_eq_some_iff.1 hx
      exact ⟨text, (strip?_eq_some.1 hrest).symm⟩
  | one test cs =>
      intro x hx
      obtain ⟨c, rfl, -⟩ := exists_of_oneOf hx
      exact List.suffix_cons c x.2
  | first cs =>
      intro x hx
      obtain ⟨-, ⟨⟩⟩ := Option.ite_none_right_eq_some.1 hx
      exact List.suffix_rfl
  | last cs =>
      intro x hx
      obtain ⟨-, ⟨⟩⟩ := Option.ite_none_right_eq_some.1 hx
      exact List.nil_suffix
  | seqFails | absentFails | ruleFails =>
      intro x hx
      cases hx
  | seq _ _ _ iha ihskip ihb =>
      intro x hx
      obtain ⟨y, hy, rfl⟩ := Option.map_eq_some_iff.1 hx
      exact (ihb y hy).trans ((ihskip _ rfl).trans (iha _ rfl))
  | altLeft _ iha => exact iha
  | altRight _ _ _ ihb => exact ihb
  | starEnds | againEnds | optNot | absent =>
      rintro x ⟨⟩
      exact List.suffix_rfl
  | star _ _ iha ihmore =>
      rintro x ⟨⟩
      exact (ihmore _ rfl).trans (iha _ rfl)
  | again _ _ _ ihskip iha ihmore =>
      rintro x ⟨⟩
      exact (ihmore _ rfl).trans ((iha _ rfl).trans (ihskip _ rfl))
  | opt _ iha => exact iha
  | @rule _ _ _ rest inner _ iha =>
      rintro x ⟨⟩
      exact iha (inner, rest) rfl

theorem Blanks.text_append (h : Blanks g whole cs ps rest) : textOf ps ++ rest = cs := by
  induction h with
  | done => rfl
  | blank hblank _ ih =>
      rw [textOf_cons, List.append_assoc, ih]
      exact taken_append (hblank.suffix _ rfl)
  | comment hcomment _ ih =>
      rw [textOf_cons, List.append_assoc, ih]
      exact taken_append (hcomment.suffix _ rfl)

/-- **The pieces are all of the text** that is taken. -/
theorem Pieces.text_append (h : Pieces g whole e cs ps rest) : textOf ps ++ rest = cs := by
  induction h with
  | lit | one => simp [Piece.text]
  | first | last | starEnds | againEnds | optNot | absent => rfl
  | seq _ _ hgap _ iha ihb =>
      rw [textOf_append, textOf_append, List.append_assoc, List.append_assoc, ihb, hgap.text_append,
        iha]
  | altLeft _ ih => exact ih
  | altRight _ _ ih => exact ih
  | star _ _ iha ihmore => rw [textOf_append, List.append_assoc, ihmore, iha]
  | again _ hgap _ _ iha ihmore =>
      rw [textOf_append, textOf_append, List.append_assoc, List.append_assoc, ihmore, iha,
        hgap.text_append]
  | opt _ ih => exact ih
  | rule _ _ ih => exact ih
  | tight _ h =>
      rw [textOf_cons, textOf_nil, List.append_nil]
      exact taken_append (h.suffix _ rfl)

end Peg

namespace Notation

open Peg

variable {whole cs rest : List Char} {ps : List Piece}

/-! ### What is derived has pieces -/

/-- What the lexer skips is made of blanks and comments. -/
theorem exists_blanks (cs : List Char) :
    ∃ gap, Blanks grammar whole cs gap (skipBlanks cs) := by
  cases cs with
  | nil => exact ⟨[], .done []⟩
  | cons c tail =>
      by_cases hblank : isBlank c = true
      · have hone : Derives grammar whole .atomic (.rule .whitespace) (c :: tail) _ :=
          takesOne_whitespace (c :: tail)
        rw [oneOf, if_pos hblank] at hone
        obtain ⟨gap, hgap⟩ := exists_blanks tail
        rw [skipBlanks_cons hblank]
        exact ⟨_, .blank hone hgap⟩
      by_cases hcomment : ∃ body, c :: tail = '/' :: '/' :: body
      · obtain ⟨body, hbody⟩ := hcomment
        have hrest : Derives grammar whole .atomic (.rule .comment) ('/' :: '/' :: body) _ :=
          comment_derives ('/' :: '/' :: body)
        have hshorter : (body.dropWhile (· != '\n')).length ≤ tail.length := by
          have hle := (List.dropWhile_suffix (l := body) (· != '\n')).length_le
          rw [(List.cons.inj hbody).2, List.length_cons]
          omega
        obtain ⟨gap, hgap⟩ := exists_blanks (body.dropWhile (· != '\n'))
        rw [← skipFrom_comment] at hgap
        rw [hbody]
        exact ⟨_, .comment hrest hgap⟩
      · have hself : skipBlanks (c :: tail) = c :: tail := by
          refine skipBlanks_eq_self (by simpa using hblank) fun body hbody => ?_
          exact hcomment ⟨body, hbody⟩
        rw [hself]
        exact ⟨[], .done _⟩
termination_by cs.length

theorem blanks_of_between {skipped : List Char}
    (h : Derives grammar whole .atomic (grammar.between .loose) cs (some ([], skipped))) :
    ∃ gap, Blanks grammar whole cs gap skipped := by
  obtain ⟨⟩ := h.unique (skipped_derives cs)
  exact exists_blanks cs

/-- **What is derived has pieces.** -/
theorem exists_pieces {m : Spacing} {e : Expr Rule} {result : Result Rule}
    (h : Derives grammar whole m e cs result) (hm : m = .loose) :
    ∀ x, result = some x → ∃ ps, Pieces grammar whole e cs ps x.2 := by
  induction h with
  | lit text cs =>
      intro x hx
      obtain ⟨rest, hrest, rfl⟩ := Option.map_eq_some_iff.1 hx
      rw [strip?_eq_some.1 hrest]
      exact ⟨_, .lit text rest⟩
  | one test cs =>
      intro x hx
      obtain ⟨c, rfl, hc⟩ := exists_of_oneOf hx
      exact ⟨_, .one x.2 hc⟩
  | first cs =>
      intro x hx
      obtain ⟨rfl, ⟨⟩⟩ := Option.ite_none_right_eq_some.1 hx
      exact ⟨_, .first⟩
  | last cs =>
      intro x hx
      obtain ⟨rfl, ⟨⟩⟩ := Option.ite_none_right_eq_some.1 hx
      exact ⟨_, .last⟩
  | seqFails | absentFails | ruleFails =>
      intro x hx
      cases hx
  | seq _ hskip _ iha _ ihb =>
      intro x hx
      subst hm
      obtain ⟨y, hy, rfl⟩ := Option.map_eq_some_iff.1 hx
      obtain ⟨ps, hps⟩ := iha rfl _ rfl
      obtain ⟨gap, hgap⟩ := blanks_of_between hskip
      obtain ⟨qs, hqs⟩ := ihb rfl y hy
      exact ⟨_, .seq hps hskip hgap hqs⟩
  | altLeft _ iha =>
      intro x hx
      obtain ⟨ps, hps⟩ := iha hm x hx
      exact ⟨ps, .altLeft hps⟩
  | altRight ha _ _ ihb =>
      intro x hx
      subst hm
      obtain ⟨ps, hps⟩ := ihb rfl x hx
      exact ⟨ps, .altRight ha hps⟩
  | starEnds ha =>
      rintro x ⟨⟩
      subst hm
      exact ⟨[], .starEnds ha⟩
  | star _ _ iha ihmore =>
      rintro x ⟨⟩
      obtain ⟨ps, hps⟩ := iha hm _ rfl
      obtain ⟨qs, hqs⟩ := ihmore hm _ rfl
      exact ⟨_, .star hps hqs⟩
  | againEnds hskip ha =>
      rintro x ⟨⟩
      subst hm
      exact ⟨[], .againEnds hskip ha⟩
  | again hskip _ _ _ iha ihmore =>
      rintro x ⟨⟩
      subst hm
      obtain ⟨gap, hgap⟩ := blanks_of_between hskip
      obtain ⟨ps, hps⟩ := iha rfl _ rfl
      obtain ⟨qs, hqs⟩ := ihmore rfl _ rfl
      exact ⟨_, .again hskip hgap hps hqs⟩
  | optNot ha =>
      rintro x ⟨⟩
      subst hm
      exact ⟨[], .optNot ha⟩
  | opt _ iha =>
      intro x hx
      obtain ⟨ps, hps⟩ := iha hm x hx
      exact ⟨ps, .opt hps⟩
  | absent ha =>
      rintro x ⟨⟩
      subst hm
      exact ⟨[], .absent ha⟩
  | @rule _ name _ rest inner h iha =>
      rintro x ⟨⟩
      subst hm
      by_cases hinside : (grammar.kind name).inside .loose = .loose
      · obtain ⟨ps, hps⟩ := iha hinside (inner, rest) rfl
        exact ⟨ps, .rule hinside hps⟩
      · exact ⟨_, .tight hinside (.rule h)⟩

end Notation

/-! ### The pieces that the lexer sees -/

section Lexed

open Peg

/-- Followed by a rest of the text, the pieces are those that the lexer sees. -/
inductive Lexed : List Piece → List Char → Prop
  | done (rest : List Char) : Lexed [] rest
  | token {text rest : List Char} {ps : List Piece} {t : Token} :
      Token.next? (text ++ (textOf ps ++ rest)) = some (t, textOf ps ++ rest) → Lexed ps rest →
      Lexed (.token text :: ps) rest
  | blank {c : Char} {rest : List Char} {ps : List Piece} : isBlank c = true → Lexed ps rest →
      Lexed (.blank [c] :: ps) rest
  | comment {body rest : List Char} {ps : List Piece} : '\n' ∉ body →
      (∀ c ∈ (textOf ps ++ rest).head?, c = '\n') → Lexed ps rest →
      Lexed (.comment ('/' :: '/' :: body) :: ps) rest

variable {ps qs : List Piece} {rest : List Char}

theorem Lexed.append (hps : Lexed ps (textOf qs ++ rest)) (hqs : Lexed qs rest) :
    Lexed (ps ++ qs) rest := by
  induction ps with
  | nil => exact hqs
  | cons p ps ih =>
      have htext : textOf (ps ++ qs) ++ rest = textOf ps ++ (textOf qs ++ rest) := by
        rw [textOf_append, List.append_assoc]
      cases hps with
      | token hnext hps =>
          rw [← htext] at hnext
          exact .token hnext (ih hps)
      | blank hblank hps => exact .blank hblank (ih hps)
      | comment hbody hline hps =>
          rw [← htext] at hline
          exact .comment hbody hline (ih hps)

theorem next?_of_isBlank {c : Char} (h : isBlank c = true) (cs : List Char) :
    Token.next? (c :: cs) = none := by
  cases hnext : Token.next? (c :: cs) with
  | none => rfl
  | some x =>
      have hself := skipBlanks_of_next? hnext
      have hshorter := skipBlanks_length_le cs
      rw [← skipBlanks_cons h, hself, List.length_cons] at hshorter
      omega

theorem next?_slash (cs : List Char) : Token.next? ('/' :: cs) = none := by
  simp [Token.next?, isWordStart, punctuation?]

/-- The piece that the lexer sees first. -/
def Piece.first? (cs : List Char) : Option Piece :=
  match Token.next? cs, cs with
  | some (_, rest), _ => some (.token (taken cs rest))
  | none, '/' :: '/' :: body => some (.comment ('/' :: '/' :: body.takeWhile (· != '\n')))
  | none, c :: _ => some (.blank [c])
  | none, [] => none

theorem Lexed.first? {p : Piece} (h : Lexed (p :: ps) rest) :
    Piece.first? (p.text ++ (textOf ps ++ rest)) = some p := by
  cases h with
  | token hnext _ => simp [Piece.first?, Piece.text, hnext]
  | @blank c _ _ hblank _ =>
      have hslash : c ≠ '/' := by
        rintro rfl
        exact absurd hblank (by decide)
      simp [Piece.first?, Piece.text, next?_of_isBlank hblank, hslash]
  | @comment body _ _ hbody hline _ =>
      have hcut : (body ++ (textOf ps ++ rest)).takeWhile (· != '\n') = body := by
        refine (span_append (fun c hc => ?_) fun c hc => ?_).1
        · simpa using fun heq : c = '\n' => hbody (heq ▸ hc)
        · simpa using hline c hc
      simp [Piece.first?, Piece.text, next?_slash, hcut]

theorem Lexed.text_ne_nil {p : Piece} (h : Lexed (p :: ps) rest) : p.text ≠ [] := by
  cases h with
  | token hnext _ =>
      rintro rfl
      have hlt := Token.next?_length_lt hnext
      exact absurd hlt (Nat.lt_irrefl _)
  | blank => exact List.cons_ne_nil _ _
  | comment => exact List.cons_ne_nil _ _

theorem Lexed.tail {p : Piece} (h : Lexed (p :: ps) rest) : Lexed ps rest := by
  cases h with
  | token _ h => exact h
  | blank _ h => exact h
  | comment _ _ h => exact h

/-- **A text has its pieces in one way.** -/
theorem Lexed.unique (hps : Lexed ps rest) (hqs : Lexed qs rest) (h : textOf ps = textOf qs) :
    ps = qs := by
  induction ps generalizing qs with
  | nil =>
      cases qs with
      | nil => rfl
      | cons q qs =>
          have hnil := (List.append_eq_nil_iff.1 h.symm).1
          exact absurd hnil hqs.text_ne_nil
  | cons p ps ih =>
      cases qs with
      | nil =>
          have hnil := (List.append_eq_nil_iff.1 h).1
          exact absurd hnil hps.text_ne_nil
      | cons q qs =>
          have hcs : p.text ++ (textOf ps ++ rest) = q.text ++ (textOf qs ++ rest) := by
            rw [← List.append_assoc, ← List.append_assoc, ← textOf_cons, ← textOf_cons, h]
          have hfirst := hps.first?
          rw [hcs, hqs.first?] at hfirst
          obtain rfl := Option.some.inj hfirst
          rw [ih hps.tail hqs.tail (List.append_cancel_left h)]

end Lexed

namespace Notation

open Peg

variable {whole cs rest : List Char} {ps : List Piece}

/-! ### The pieces of the grammar are those that the lexer sees -/

theorem lexed_of_blanks (h : Blanks grammar whole cs ps rest) : Lexed ps rest := by
  induction h with
  | done cs => exact .done cs
  | @blank cs rest after inner ps hblank hps ih =>
      have hone := hblank.unique (takesOne_whitespace cs)
      obtain ⟨c, rfl, hc⟩ := exists_of_oneOf hone.symm
      have htaken : taken (c :: rest) rest = [c] := taken_of_append [c] rest
      rw [htaken]
      exact .blank hc ih
  | @comment cs rest after inner ps hcomment hps ih =>
      have hline := hcomment.unique (comment_derives cs)
      obtain ⟨body, hbody, heq⟩ := Option.map_eq_some_iff.1 hline.symm
      obtain ⟨-, rfl⟩ := Prod.mk.inj heq
      have hcs : cs = ('/' :: '/' :: body.takeWhile (· != '\n')) ++ body.dropWhile (· != '\n') := by
        rw [strip?_eq_some.1 hbody]
        simp
      rw [hcs, taken_of_append]
      refine .comment ?_ ?_ ih
      · intro hmem
        have hne := List.all_eq_true.1 List.all_takeWhile _ hmem
        simp at hne
      · intro c hc
        rw [hps.text_append] at hc
        simpa using head?_dropWhile (· != '\n') body c hc

/-- The rules that are tried where blanks are skipped. -/
def Rule.isLoose : Rule → Bool
  | .whitespace | .comment | .plainIdent | .quotedIdent | .identStart | .identChar => false
  | _ => true

/-- Outside the rules for literals and names, the expression takes whole tokens. -/
def Tokenwise : Expr Rule → Prop
  | .lit text => ∀ rest, ∃ t, Token.next? (text ++ rest) = some (t, rest)
  | .one _ => False
  | .first | .last => True
  | .seq a b | .alt a b => Tokenwise a ∧ Tokenwise b
  | .star a | .again a | .opt a | .absent a => Tokenwise a
  | .rule name => name.isLoose = true

theorem tokenwise_punctuation {c : Char} {t : Token} (h : punctuation? c = some t) :
    Tokenwise (.lit [c]) :=
  fun rest => ⟨t, next?_punctuation h rest⟩

theorem tokenwise_semicolons : Tokenwise Rule.semicolons :=
  tokenwise_punctuation (t := .semicolon) rfl

theorem tokenwise_body {name : Rule} (hloose : name.isLoose = true)
    (hinside : name.kind.inside .loose = .loose) : Tokenwise name.body := by
  have hcomma : Tokenwise (.lit [',']) := tokenwise_punctuation (t := .comma) rfl
  cases name with
  | whitespace | comment | plainIdent | quotedIdent | identStart | identChar => cases hloose
  | boolean | number | string | ident => cases hinside
  | program => exact ⟨trivial, tokenwise_semicolons, ⟨rfl, tokenwise_semicolons⟩, rfl⟩
  | expr => exact ⟨rfl, rfl, rfl⟩
  | attrs =>
      exact ⟨fun rest => ⟨.attrsOpen, rfl⟩, rfl, ⟨hcomma, rfl⟩, hcomma,
        tokenwise_punctuation (t := .attrsClose) rfl⟩
  | primary => exact ⟨rfl, rfl, rfl, rfl, rfl, rfl⟩
  | paren =>
      exact ⟨tokenwise_punctuation (t := .parenOpen) rfl, rfl,
        tokenwise_punctuation (t := .parenClose) rfl⟩
  | block =>
      exact ⟨tokenwise_punctuation (t := .braceOpen) rfl, tokenwise_semicolons,
        ⟨rfl, tokenwise_semicolons⟩, tokenwise_punctuation (t := .braceClose) rfl⟩
  | suffix => exact ⟨rfl, rfl⟩
  | call =>
      exact ⟨rfl, tokenwise_punctuation (t := .parenOpen) rfl, ⟨rfl, ⟨hcomma, rfl⟩, hcomma⟩,
        tokenwise_punctuation (t := .parenClose) rfl⟩
  | bang => exact tokenwise_punctuation (t := .bang) rfl
  | member => exact ⟨tokenwise_punctuation (t := .dot) rfl, rfl⟩
  | eoi => trivial

/-- A rule that takes the tokens of a kind and fails at the others takes a token. -/
theorem next?_of_takes {e : Expr Rule} {pairs : List (Pair Rule)} {P : Token → Prop}
    (h : Derives grammar whole .loose e cs (some (pairs, rest)))
    (htakes : ∀ t rest, Token.next? cs = some (t, rest) → P t →
      ∃ pairs, Derives grammar whole .loose e cs (some (pairs, rest)))
    (hfails : (∀ t rest, Token.next? cs = some (t, rest) → ¬ P t) →
      Derives grammar whole .loose e cs none) :
    ∃ t, Token.next? cs = some (t, rest) := by
  by_cases hnext : ∃ t rest, Token.next? cs = some (t, rest) ∧ P t
  · obtain ⟨t, rest', hnext, ht⟩ := hnext
    obtain ⟨pairs', h'⟩ := htakes t rest' hnext ht
    obtain ⟨⟩ := h.unique h'
    exact ⟨t, hnext⟩
  · have hnone := hfails fun t rest' hnext' ht => hnext ⟨t, rest', hnext', ht⟩
    cases h.unique hnone

theorem next?_of_tight {name : Rule} {pairs : List (Pair Rule)} (hloose : name.isLoose = true)
    (htight : name.kind.inside .loose ≠ .loose)
    (h : Derives grammar whole .loose (.rule name) cs (some (pairs, rest))) :
    ∃ t, Token.next? cs = some (t, rest) := by
  cases name with
  | whitespace | comment | plainIdent | quotedIdent | identStart | identChar => cases hloose
  | program | expr | attrs | primary | paren | block | suffix | call | bang | member | eoi =>
      exact absurd rfl htight
  | boolean =>
      refine next?_of_takes (P := fun t => ∃ b, t = .word (booleanWord b)) h ?_ ?_
      · rintro _ rest hnext ⟨b, rfl⟩
        exact ⟨_, boolean_takes hnext⟩
      · exact fun hnone => boolean_fails fun b rest hnext => hnone _ rest hnext ⟨b, rfl⟩
  | number =>
      refine next?_of_takes (P := fun t => ∃ value, t = .number value) h ?_ ?_
      · rintro _ rest hnext ⟨value, rfl⟩
        obtain ⟨text, -, -, h⟩ := number_takes hnext
        exact ⟨_, h⟩
      · exact fun hnone => number_fails fun value rest hnext => hnone _ rest hnext ⟨value, rfl⟩
  | string =>
      refine next?_of_takes (P := fun t => ∃ value, t = .string value) h ?_ ?_
      · rintro _ rest hnext ⟨value, rfl⟩
        obtain ⟨raw, -, -, h⟩ := string_takes hnext
        exact ⟨_, h⟩
      · exact fun hnone => string_fails fun value rest hnext => hnone _ rest hnext ⟨value, rfl⟩
  | ident =>
      refine next?_of_takes (P := fun t => ∃ w, t.name? = some w) h ?_ ?_
      · rintro t rest hnext ⟨w, hw⟩
        obtain ⟨pair, -, -, h⟩ := ident_takes hnext hw
        exact ⟨_, h⟩
      · refine fun hnone => ident_fails fun t rest hnext => ?_
        cases hname : t.name? with
        | none => rfl
        | some w => exact absurd ⟨w, hname⟩ (hnone t rest hnext)

/-- **The pieces of the grammar are those that the lexer sees.** -/
theorem lexed_of_pieces {e : Expr Rule} (h : Pieces grammar whole e cs ps rest)
    (he : Tokenwise e) : Lexed ps rest := by
  induction h with
  | lit text rest =>
      obtain ⟨t, ht⟩ := he rest
      exact .token ht (.done rest)
  | one => exact he.elim
  | first | last | starEnds | againEnds | optNot | absent => exact .done _
  | seq _ _ hgap hqs ihps ihqs =>
      refine (?_ : Lexed _ _).append (Lexed.append ?_ (ihqs he.2))
      · rw [textOf_append, List.append_assoc, hqs.text_append, hgap.text_append]
        exact ihps he.1
      · rw [hqs.text_append]
        exact lexed_of_blanks hgap
  | altLeft _ ih => exact ih he.1
  | altRight _ _ ih => exact ih he.2
  | star _ hqs ihps ihqs =>
      refine (?_ : Lexed _ _).append (ihqs he)
      rw [hqs.text_append]
      exact ihps he
  | again _ hgap hps hqs ihps ihqs =>
      refine (?_ : Lexed _ _).append (Lexed.append ?_ (ihqs he))
      · rw [textOf_append, List.append_assoc, hqs.text_append, hps.text_append]
        exact lexed_of_blanks hgap
      · rw [hqs.text_append]
        exact ihps he
  | opt _ ih => exact ih he
  | rule hinside _ ih => exact ih (tokenwise_body he hinside)
  | tight htight h =>
      obtain ⟨t, ht⟩ := next?_of_tight he htight h
      refine .token (t := t) ?_ (.done _)
      rw [textOf_nil, List.nil_append, taken_append (h.suffix _ rfl)]
      exact ht

end Notation

end MacroForest
