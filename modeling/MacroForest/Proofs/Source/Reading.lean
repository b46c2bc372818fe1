/-
**Reading a text from both sides.**

A rule of the notation that allows blanks, at some place of a text, takes a part of the text or
fails. The reader, in some state, makes a forest of the text from a place on, or none.  Both look
at a place through the token that comes next, and neither sees the blanks in front of it.  So
results are given here up to blanks: two texts are the same place if they are equal after their
leading blanks.

Main definitions:

* `MacroForest.Token.first?` — the token that comes next;
* `MacroForest.Reader.forest?` — the forest that the reader makes of a text;
* `MacroForest.Notation.Fails`, `MacroForest.Notation.Reads` — the result of an expression, up to
  blanks.

Main results:

* `MacroForest.parse_eq_ok_iff` — parsing is reading the whole text;
* `MacroForest.Reader.forest?_of_first?` — **the reader moves by one token**;
* `MacroForest.Notation.Reads.seq`, `MacroForest.Notation.Reads.star_cons` — sequences and
  repetitions.
-/

import MacroForest.Proofs.Source.Terminals
import MacroForest.Proofs.Source.RoundTrip

set_option relaxedAutoImplicit false
set_option autoImplicit false

namespace MacroForest

/-- The token that comes next in a text, and the text after it. -/
def Token.first? (cs : List Char) : Option (Token × List Char) := Token.next? (skipBlanks cs)

theorem Token.first?_length_lt {cs rest : List Char} {t : Token}
    (h : Token.first? cs = some (t, rest)) : rest.length < cs.length := by
  have h₁ := Token.next?_length_lt h
  have h₂ := skipBlanks_length_le cs
  omega

theorem Token.first?_of_empty {cs : List Char} (h : skipBlanks cs = []) :
    Token.first? cs = none := by
  rw [Token.first?, h]
  rfl

theorem Token.first?_unique {cs rest rest' : List Char} {t t' : Token}
    (h : Token.first? cs = some (t, rest)) (h' : Token.first? cs = some (t', rest')) : t = t' :=
  (Prod.mk.inj (Option.some.inj (h.symm.trans h'))).1

/-! ### The reader on a text -/

namespace Reader

/-- The forest that the reader makes of a text from its state on. -/
def forest? (r : Reader) (cs : List Char) : Option Forest :=
  match r.run 0 ((lexemes cs).1.map (·.token)) with
  | .ok forest => if (lexemes cs).2.isEmpty then some forest else none
  | .error _ => none

/-- Whether tokens are taken does not depend on their index. -/
theorem run_eq_ok_iff {r : Reader} {ts : List Token} {forest : Forest} (i j : Nat) :
    r.run i ts = .ok forest ↔ r.run j ts = .ok forest := by
  induction ts generalizing r i j with
  | nil =>
      unfold run
      cases r.finish? <;> simp
  | cons t ts ih =>
      unfold run
      cases r.feed t with
      | none => simp
      | some r' => exact ih (i + 1) (j + 1)

theorem forest?_eq_some_iff {r : Reader} {cs : List Char} {forest : Forest} :
    r.forest? cs = some forest ↔
      r.run 0 ((lexemes cs).1.map (·.token)) = .ok forest ∧ (lexemes cs).2 = [] := by
  unfold forest?
  split
  · rename_i found hrun
    cases hstop : (lexemes cs).2 <;> simp [hrun]
  · rename_i hrun
    simp [hrun]

/-- **The reader moves by one token.** -/
theorem forest?_of_first? {cs rest : List Char} {t : Token} (h : Token.first? cs = some (t, rest))
    (r : Reader) : r.forest? cs = (r.feed t).bind (·.forest? rest) := by
  have hlex : lexemes cs = (⟨t, skipBlanks cs⟩ :: (lexemes rest).1, (lexemes rest).2) := by
    rw [lexemes_eq, show Token.next? (skipBlanks cs) = _ from h]
  ext forest
  rw [forest?_eq_some_iff, hlex, List.map_cons, run]
  cases r.feed t with
  | none => simp
  | some r' => simp only [Option.bind_some, forest?_eq_some_iff, run_eq_ok_iff (0 + 1) 0]

theorem forest?_of_feed {cs rest : List Char} {t : Token} (h : Token.first? cs = some (t, rest))
    {r r' : Reader} (hfeed : r.feed t = some r') : r.forest? cs = r'.forest? rest := by
  rw [forest?_of_first? h, hfeed, Option.bind_some]

/-- Where no token comes next, the text ends or is no forest. -/
theorem forest?_of_none {cs : List Char} (h : Token.first? cs = none) (r : Reader) :
    r.forest? cs = if skipBlanks cs = [] then r.finish? else none := by
  have hlex : lexemes cs = ([], skipBlanks cs) := by
    rw [lexemes_eq, show Token.next? (skipBlanks cs) = _ from h]
  ext forest
  rw [forest?_eq_some_iff, hlex, List.map_nil, run]
  cases r.finish? with
  | none => simp
  | some found =>
      by_cases hend : skipBlanks cs = []
      · simp [hend]
      · simp [hend]

/-- A text is refused if it cannot end here and the next token cannot stand here. -/
theorem forest?_eq_none {r : Reader} {cs : List Char} (hfinish : r.finish? = none)
    (hfeed : ∀ t rest, Token.first? cs = some (t, rest) → r.feed t = none) :
    r.forest? cs = none := by
  cases h : Token.first? cs with
  | none => rw [forest?_of_none h, hfinish, ite_self]
  | some x => rw [forest?_of_first? h, hfeed _ _ h, Option.bind_none]

end Reader

/-- **Parsing is reading the whole text.** -/
theorem parse_eq_ok_iff {text : String} {forest : Forest} :
    parse text = .ok forest ↔ Reader.initial.forest? text.toList = some forest := by
  rw [Reader.forest?_eq_some_iff]
  unfold parse parseChars readTokens
  dsimp only
  split
  · rename_i hrun
    simp [hrun]
  · rename_i found hrun
    cases hstop : (lexemes text.toList).2 <;> simp [hrun]

namespace Notation

open Peg

variable {whole cs mid rest : List Char} {a b : Expr Rule} {ps qs : List (Pair Rule)} {t : Token}

/-! ### Results up to blanks -/

/-- The expression fails at the place. -/
def Fails (whole : List Char) (e : Expr Rule) (cs : List Char) : Prop :=
  Derives grammar whole .loose e (skipBlanks cs) none

/-- The expression leaves the pairs, and takes the text up to the place of the rest. -/
def Reads (whole : List Char) (e : Expr Rule) (cs : List Char) (ps : List (Pair Rule))
    (rest : List Char) : Prop :=
  ∃ rest', skipBlanks rest' = skipBlanks rest ∧
    Derives grammar whole .loose e (skipBlanks cs) (some (ps, rest'))

theorem Reads.of_derives (h : Derives grammar whole .loose a (skipBlanks cs) (some (ps, rest))) :
    Reads whole a cs ps rest := ⟨rest, rfl, h⟩

theorem Fails.seq (h : Fails whole a cs) : Fails whole (.seq a b) cs := .seqFails h

/-- The second part of a sequence begins after the blanks behind the first one. -/
theorem Reads.then (ha : Reads whole a cs ps mid) {result : Result Rule}
    (hb : Derives grammar whole .loose b (skipBlanks mid) result) :
    Derives grammar whole .loose (.seq a b) (skipBlanks cs)
      (result.map fun x => (ps ++ x.1, x.2)) := by
  obtain ⟨mid', hmid, ha⟩ := ha
  have hskip : Derives grammar whole .atomic (grammar.between .loose) mid' _ := skipped_derives mid'
  rw [hmid] at hskip
  exact .seq ha hskip hb

theorem Reads.seq (ha : Reads whole a cs ps mid) (hb : Reads whole b mid qs rest) :
    Reads whole (.seq a b) cs (ps ++ qs) rest := by
  obtain ⟨rest', hrest, hb⟩ := hb
  exact ⟨rest', hrest, ha.then hb⟩

theorem Reads.seq_fails (ha : Reads whole a cs ps mid) (hb : Fails whole b mid) :
    Fails whole (.seq a b) cs := ha.then hb

theorem Fails.alt (ha : Fails whole a cs) (hb : Fails whole b cs) : Fails whole (.alt a b) cs :=
  .altRight ha hb

theorem Reads.alt_left (h : Reads whole a cs ps rest) : Reads whole (.alt a b) cs ps rest := by
  obtain ⟨rest', hrest, h⟩ := h
  exact ⟨rest', hrest, .altLeft h⟩

theorem Reads.alt_right (ha : Fails whole a cs) (hb : Reads whole b cs ps rest) :
    Reads whole (.alt a b) cs ps rest := by
  obtain ⟨rest', hrest, hb⟩ := hb
  exact ⟨rest', hrest, .altRight ha hb⟩

theorem Reads.opt (h : Reads whole a cs ps rest) : Reads whole (.opt a) cs ps rest := by
  obtain ⟨rest', hrest, h⟩ := h
  exact ⟨rest', hrest, .opt h⟩

theorem Fails.opt (h : Fails whole a cs) : Reads whole (.opt a) cs [] cs :=
  ⟨skipBlanks cs, skipBlanks_skipBlanks cs, .optNot h⟩

theorem Fails.star (h : Fails whole a cs) : Reads whole (.star a) cs [] cs :=
  ⟨skipBlanks cs, skipBlanks_skipBlanks cs, .starEnds h⟩

/-- A repetition after blanks is the same as one after an item, up to the blanks at its end. -/
theorem again_of_star
    (h : Derives grammar whole .loose (.star a) (skipBlanks cs) (some (ps, rest))) :
    ∃ rest', skipBlanks rest' = skipBlanks rest ∧
      Derives grammar whole .loose (.again a) cs (some (ps, rest')) := by
  have hskip : Derives grammar whole .atomic (grammar.between .loose) cs _ := skipped_derives cs
  cases h with
  | starEnds ha => exact ⟨cs, (skipBlanks_skipBlanks cs).symm, .againEnds hskip ha⟩
  | star ha hmore => exact ⟨rest, rfl, .again hskip ha hmore⟩

theorem Reads.star_cons (ha : Reads whole a cs ps mid) (hmore : Reads whole (.star a) mid qs rest) :
    Reads whole (.star a) cs (ps ++ qs) rest := by
  obtain ⟨mid', hmid, ha⟩ := ha
  obtain ⟨rest', hrest, hmore⟩ := hmore
  rw [← hmid] at hmore
  obtain ⟨rest'', hrest', hagain⟩ := again_of_star hmore
  exact ⟨rest'', hrest'.trans hrest, .star ha hagain⟩

/-! ### Rules -/

theorem inside_loose {rule : Rule} (h : rule.kind = .normal ∨ rule.kind = .silent) :
    (grammar.kind rule).inside .loose = .loose := by
  rcases h with h | h
  · rw [show grammar.kind rule = _ from h]
    rfl
  · rw [show grammar.kind rule = _ from h]
    rfl

/-- A rule with a pair of its own. -/
theorem Reads.rule {rule : Rule} (hkind : rule.kind = .normal)
    (h : Reads whole rule.body cs ps rest) :
    ∃ text, Reads whole (.rule rule) cs [⟨rule, text, ps⟩] rest := by
  obtain ⟨rest', hrest, h⟩ := h
  rw [← inside_loose (.inl hkind)] at h
  have hrule := Derives.rule (g := grammar) (m := .loose) h
  have hleaves : ∃ text, grammar.leaves .loose rule (skipBlanks cs) rest' ps =
      [⟨rule, text, ps⟩] := by
    unfold Grammar.leaves
    rw [show grammar.kind rule = _ from hkind]
    exact ⟨_, rfl⟩
  obtain ⟨text, hleaves⟩ := hleaves
  rw [hleaves] at hrule
  exact ⟨text, rest', hrest, hrule⟩

theorem Reads.silent {rule : Rule} (hkind : rule.kind = .silent)
    (h : Reads whole rule.body cs ps rest) : Reads whole (.rule rule) cs ps rest := by
  obtain ⟨rest', hrest, h⟩ := h
  exact ⟨rest', hrest, Derives.rule_silent hkind h⟩

theorem Fails.rule {rule : Rule} (hkind : rule.kind = .normal ∨ rule.kind = .silent)
    (h : Fails whole rule.body cs) : Fails whole (.rule rule) cs := by
  refine Derives.ruleFails ?_
  rw [inside_loose hkind]
  exact h

/-! ### Punctuation -/

/-- The literal of a token. -/
theorem reads_lit {c : Char} (hc : punctuation? c = some t) (h : Token.first? cs = some (t, rest)) :
    Reads whole (.lit [c]) cs [] rest :=
  .of_derives (punct_takes hc h)

theorem fails_lit {c : Char} (hc : punctuation? c = some t)
    (h : ∀ rest, Token.first? cs ≠ some (t, rest)) : Fails whole (.lit [c]) cs :=
  punct_fails hc h

/-- Another token comes next. -/
theorem fails_lit_of_ne {c : Char} {t' : Token} (hc : punctuation? c = some t')
    (h : Token.first? cs = some (t, rest)) (hne : t ≠ t') : Fails whole (.lit [c]) cs :=
  fails_lit hc fun _ h' => hne (Token.first?_unique h h')

end Notation

end MacroForest
