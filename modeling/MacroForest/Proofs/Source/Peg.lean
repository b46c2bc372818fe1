/-
**Parsing expression grammars.**

A grammar gives each rule an expression.  An expression, at some place of a text, takes a part of
the text from there on, or it fails.  A choice takes its second branch only where the first one
fails, a repetition takes as much as it can, and neither is revised by what comes after it.  So an
expression has one result at most, and the rules of inference below have one for failing beside
each one for taking.

Blanks are no part of most rules.  They are skipped between the parts of a sequence and between the
items of a repetition, unless a rule is *tight*; they are not skipped in front of an expression or
behind it.  A rule that takes a part of the text leaves a *pair*: its name, the text taken, and the
pairs left inside.  Silent rules leave what is inside, and inside atomic rules there are no pairs.

Main definitions:

* `MacroForest.Peg.Expr`, `MacroForest.Peg.Grammar` — expressions, and rules for their names;
* `MacroForest.Peg.Pair` — what a rule leaves of the text that it takes;
* `MacroForest.Peg.Derives` — **the result of an expression at a place of a text**.

Main results:

* `MacroForest.Peg.Derives.unique` — an expression has one result;
* `MacroForest.Peg.Derives.TakesOne.star` — a repetition of single characters.
-/

import MacroForest.Source.Token

set_option relaxedAutoImplicit false
set_option autoImplicit false

namespace MacroForest

namespace Peg

/-! ### Grammars -/

/-- Whether blanks are skipped between the parts of an expression, and whether rules leave pairs. -/
inductive Spacing where
  /-- Blanks are skipped. -/
  | loose
  /-- They are not, and rules leave pairs. -/
  | tight
  /-- They are not, and rules leave no pairs. -/
  | atomic
deriving DecidableEq

/-- The kinds of rules. -/
inductive Kind where
  /-- A pair with the pairs inside. -/
  | normal
  /-- No pair of its own. -/
  | silent
  /-- A pair without pairs inside, and no blanks. -/
  | atomic
  /-- A pair with the pairs inside, and no blanks. -/
  | compound
deriving DecidableEq

/-- The spacing inside a rule that is met with some spacing. -/
def Kind.inside : Kind → Spacing → Spacing
  | .atomic, _ => .atomic
  | .compound, _ => .tight
  | _, spacing => spacing

/-- Expressions over the names of rules. -/
inductive Expr (ρ : Type) where
  /-- A literal. -/
  | lit (text : List Char)
  /-- One character of a class. -/
  | one (test : Char → Bool)
  /-- The start of the whole text. -/
  | first
  /-- The end of the text. -/
  | last
  /-- One expression and then another. -/
  | seq (a b : Expr ρ)
  /-- The first one that does not fail. -/
  | alt (a b : Expr ρ)
  /-- Any number of items. -/
  | star (a : Expr ρ)
  /-- Any number of further items, each after blanks. -/
  | again (a : Expr ρ)
  /-- The expression if it does not fail. -/
  | opt (a : Expr ρ)
  /-- Nothing, where the expression fails. -/
  | absent (a : Expr ρ)
  /-- A rule. -/
  | rule (name : ρ)

variable {ρ : Type}

namespace Expr

/-- At least one item. -/
def plus (a : Expr ρ) : Expr ρ := .seq a (.star a)

/-- Some expressions one after the other. -/
def seqs : List (Expr ρ) → Expr ρ
  | [] => .lit []
  | [a] => a
  | a :: as => .seq a (seqs as)

/-- The first of some expressions that does not fail. -/
def alts : List (Expr ρ) → Expr ρ
  | [] => .absent (.lit [])
  | [a] => a
  | a :: as => .alt a (alts as)

end Expr

/-- A grammar: the kind of each rule and its expression, and the two rules for what is skipped. -/
structure Grammar (ρ : Type) where
  /-- The kind of a rule. -/
  kind : ρ → Kind
  /-- The expression of a rule. -/
  body : ρ → Expr ρ
  /-- The rule for a blank. -/
  blank : ρ
  /-- The rule for a comment. -/
  comment : ρ

/-- What a rule leaves of the text that it takes. -/
inductive Pair (ρ : Type) where
  /-- The rule, the text and the pairs inside. -/
  | mk (rule : ρ) (text : List Char) (inner : List (Pair ρ))

namespace Grammar

/-- Blanks and comments, as many as there are. -/
def skipped (g : Grammar ρ) : Expr ρ :=
  .seq (.star (.rule g.blank)) (.star (.seq (.rule g.comment) (.star (.rule g.blank))))

/-- What stands between the parts of an expression. -/
def between (g : Grammar ρ) : Spacing → Expr ρ
  | .loose => g.skipped
  | _ => .lit []

/-- The pairs that a rule leaves if it takes the text up to a rest, with the pairs left inside. -/
def leaves (g : Grammar ρ) (spacing : Spacing) (name : ρ) (text rest : List Char)
    (inner : List (Pair ρ)) : List (Pair ρ) :=
  match g.kind name, spacing with
  | .silent, _ => inner
  | _, .atomic => inner
  | _, _ => [⟨name, text.take (text.length - rest.length), inner⟩]

end Grammar

/-! ### Results -/

/-- The text after a literal that it begins with. -/
def strip? : List Char → List Char → Option (List Char)
  | [], cs => some cs
  | _ :: _, [] => none
  | t :: ts, c :: cs => if t = c then strip? ts cs else none

theorem strip?_eq_some {text cs rest : List Char} :
    strip? text cs = some rest ↔ cs = text ++ rest := by
  induction text generalizing cs with
  | nil => simp [strip?]
  | cons t ts ih =>
      cases cs with
      | nil => simp [strip?]
      | cons c cs =>
          by_cases h : t = c
          · simp [strip?, h, ih]
          · simp [strip?, h, Ne.symm h]

/-- The pairs left and the rest of the text, or that the expression fails. -/
abbrev Result (ρ : Type) := Option (List (Pair ρ) × List Char)

/-- One character that passes a test is taken. -/
def oneOf (test : Char → Bool) : List Char → Result ρ
  | [] => none
  | c :: cs => if test c then some ([], cs) else none

/-- **The result of an expression at a place of a text**, with a spacing.  The place is given by the
rest of the text. -/
inductive Derives (g : Grammar ρ) (whole : List Char) :
    Spacing → Expr ρ → List Char → Result ρ → Prop where
  | lit {m : Spacing} (text cs : List Char) :
      Derives g whole m (.lit text) cs ((strip? text cs).map fun rest => ([], rest))
  | one {m : Spacing} (test : Char → Bool) (cs : List Char) :
      Derives g whole m (.one test) cs (oneOf test cs)
  | first {m : Spacing} (cs : List Char) :
      Derives g whole m .first cs (if cs = whole then some ([], cs) else none)
  | last {m : Spacing} (cs : List Char) :
      Derives g whole m .last cs (if cs = [] then some ([], []) else none)
  | seqFails {m : Spacing} {a b : Expr ρ} {cs : List Char} :
      Derives g whole m a cs none → Derives g whole m (.seq a b) cs none
  | seq {m : Spacing} {a b : Expr ρ} {cs rest skipped : List Char} {ps : List (Pair ρ)}
      {result : Result ρ} :
      Derives g whole m a cs (some (ps, rest)) →
      Derives g whole .atomic (g.between m) rest (some ([], skipped)) →
      Derives g whole m b skipped result →
      Derives g whole m (.seq a b) cs (result.map fun x => (ps ++ x.1, x.2))
  | altLeft {m : Spacing} {a b : Expr ρ} {cs : List Char} {x : List (Pair ρ) × List Char} :
      Derives g whole m a cs (some x) → Derives g whole m (.alt a b) cs (some x)
  | altRight {m : Spacing} {a b : Expr ρ} {cs : List Char} {result : Result ρ} :
      Derives g whole m a cs none → Derives g whole m b cs result →
      Derives g whole m (.alt a b) cs result
  | starEnds {m : Spacing} {a : Expr ρ} {cs : List Char} :
      Derives g whole m a cs none → Derives g whole m (.star a) cs (some ([], cs))
  | star {m : Spacing} {a : Expr ρ} {cs rest rest' : List Char} {ps qs : List (Pair ρ)} :
      Derives g whole m a cs (some (ps, rest)) →
      Derives g whole m (.again a) rest (some (qs, rest')) →
      Derives g whole m (.star a) cs (some (ps ++ qs, rest'))
  | againEnds {m : Spacing} {a : Expr ρ} {cs skipped : List Char} :
      Derives g whole .atomic (g.between m) cs (some ([], skipped)) →
      Derives g whole m a skipped none → Derives g whole m (.again a) cs (some ([], cs))
  | again {m : Spacing} {a : Expr ρ} {cs skipped rest rest' : List Char} {ps qs : List (Pair ρ)} :
      Derives g whole .atomic (g.between m) cs (some ([], skipped)) →
      Derives g whole m a skipped (some (ps, rest)) →
      Derives g whole m (.again a) rest (some (qs, rest')) →
      Derives g whole m (.again a) cs (some (ps ++ qs, rest'))
  | optNot {m : Spacing} {a : Expr ρ} {cs : List Char} :
      Derives g whole m a cs none → Derives g whole m (.opt a) cs (some ([], cs))
  | opt {m : Spacing} {a : Expr ρ} {cs : List Char} {x : List (Pair ρ) × List Char} :
      Derives g whole m a cs (some x) → Derives g whole m (.opt a) cs (some x)
  | absentFails {m : Spacing} {a : Expr ρ} {cs : List Char} {x : List (Pair ρ) × List Char} :
      Derives g whole m a cs (some x) → Derives g whole m (.absent a) cs none
  | absent {m : Spacing} {a : Expr ρ} {cs : List Char} :
      Derives g whole m a cs none → Derives g whole m (.absent a) cs (some ([], cs))
  | ruleFails {m : Spacing} {name : ρ} {cs : List Char} :
      Derives g whole ((g.kind name).inside m) (g.body name) cs none →
      Derives g whole m (.rule name) cs none
  | rule {m : Spacing} {name : ρ} {cs rest : List Char} {inner : List (Pair ρ)} :
      Derives g whole ((g.kind name).inside m) (g.body name) cs (some (inner, rest)) →
      Derives g whole m (.rule name) cs (some (g.leaves m name cs rest inner, rest))

namespace Derives

variable {g : Grammar ρ} {whole : List Char} {m : Spacing} {a b : Expr ρ} {cs : List Char}

/-- **An expression has one result.** -/
theorem unique {e : Expr ρ} {r r' : Result ρ} (h : Derives g whole m e cs r)
    (h' : Derives g whole m e cs r') : r = r' := by
  induction h generalizing r' with
  | lit | one | first | last => cases h'; rfl
  | seqFails ha iha =>
      cases h' with
      | seqFails => rfl
      | seq ha' => exact nomatch iha ha'
  | seq ha hskip hb iha ihskip ihb =>
      cases h' with
      | seqFails ha' => exact nomatch iha ha'
      | seq ha' hskip' hb' =>
          obtain ⟨⟩ := iha ha'
          obtain ⟨⟩ := ihskip hskip'
          rw [ihb hb']
  | altLeft ha iha =>
      cases h' with
      | altLeft ha' => exact iha ha'
      | altRight ha' => exact nomatch iha ha'
  | altRight ha hb iha ihb =>
      cases h' with
      | altLeft ha' => exact nomatch iha ha'
      | altRight _ hb' => exact ihb hb'
  | starEnds ha iha =>
      cases h' with
      | starEnds => rfl
      | star ha' => exact nomatch iha ha'
  | star ha hmore iha ihmore =>
      cases h' with
      | starEnds ha' => exact nomatch iha ha'
      | star ha' hmore' =>
          obtain ⟨⟩ := iha ha'
          obtain ⟨⟩ := ihmore hmore'
          rfl
  | againEnds hskip ha ihskip iha =>
      cases h' with
      | againEnds => rfl
      | again hskip' ha' =>
          obtain ⟨⟩ := ihskip hskip'
          exact nomatch iha ha'
  | again hskip ha hmore ihskip iha ihmore =>
      cases h' with
      | againEnds hskip' ha' =>
          obtain ⟨⟩ := ihskip hskip'
          exact nomatch iha ha'
      | again hskip' ha' hmore' =>
          obtain ⟨⟩ := ihskip hskip'
          obtain ⟨⟩ := iha ha'
          obtain ⟨⟩ := ihmore hmore'
          rfl
  | optNot ha iha =>
      cases h' with
      | optNot => rfl
      | opt ha' => exact nomatch iha ha'
  | opt ha iha =>
      cases h' with
      | optNot ha' => exact nomatch iha ha'
      | opt ha' => exact iha ha'
  | absentFails ha iha =>
      cases h' with
      | absentFails => rfl
      | absent ha' => exact nomatch iha ha'
  | absent ha iha =>
      cases h' with
      | absentFails ha' => exact nomatch iha ha'
      | absent => rfl
  | ruleFails ha iha =>
      cases h' with
      | ruleFails => rfl
      | rule ha' => exact nomatch iha ha'
  | rule ha iha =>
      cases h' with
      | ruleFails ha' => exact nomatch iha ha'
      | rule ha' =>
          obtain ⟨⟩ := iha ha'
          rfl

/-! ### Expressions without blanks -/

/-- Nothing is skipped. -/
theorem between_of_ne (hm : m ≠ .loose) (cs : List Char) :
    Derives g whole .atomic (g.between m) cs (some ([], cs)) := by
  cases m with
  | loose => exact absurd rfl hm
  | tight | atomic => exact .lit [] cs

theorem seq_of_ne (hm : m ≠ .loose) {rest : List Char} {ps : List (Pair ρ)} {result : Result ρ}
    (ha : Derives g whole m a cs (some (ps, rest))) (hb : Derives g whole m b rest result) :
    Derives g whole m (.seq a b) cs (result.map fun x => (ps ++ x.1, x.2)) :=
  .seq ha (between_of_ne hm rest) hb

/-- Where nothing is skipped, an item is repeated from the start as it is after another one. -/
theorem star_of_again (hm : m ≠ .loose) {result : Result ρ}
    (h : Derives g whole m (.again a) cs result) : Derives g whole m (.star a) cs result := by
  cases h with
  | againEnds hskip ha =>
      obtain ⟨⟩ := hskip.unique (between_of_ne hm cs)
      exact .starEnds ha
  | again hskip ha hmore =>
      obtain ⟨⟩ := hskip.unique (between_of_ne hm cs)
      exact .star ha hmore

/-! ### Rules and literals -/

theorem rule_silent {name : ρ} (hkind : g.kind name = .silent) {result : Result ρ}
    (h : Derives g whole m (g.body name) cs result) : Derives g whole m (.rule name) cs result := by
  have hinside : (g.kind name).inside m = m := by rw [hkind]; rfl
  rw [← hinside] at h
  cases result with
  | none => exact .ruleFails h
  | some x =>
      have hleaves : g.leaves m name cs x.2 x.1 = x.1 := by
        unfold Grammar.leaves
        rw [hkind]
      have hrule := Derives.rule h
      rwa [hleaves] at hrule

/-- A rule that is not silent leaves the text that it takes. -/
theorem rule_leaves {name : ρ} (hkind : g.kind name ≠ .silent) (hm : m ≠ .atomic)
    {text rest : List Char} {inner : List (Pair ρ)}
    (h : Derives g whole ((g.kind name).inside m) (g.body name) (text ++ rest)
      (some (inner, rest))) :
    Derives g whole m (.rule name) (text ++ rest) (some ([⟨name, text, inner⟩], rest)) := by
  have hleaves : g.leaves m name (text ++ rest) rest inner = [⟨name, text, inner⟩] := by
    unfold Grammar.leaves
    split
    · rename_i hsilent
      exact absurd hsilent hkind
    · exact absurd rfl hm
    · simp
  have hrule := Derives.rule h
  rwa [hleaves] at hrule

theorem lit_takes (text rest : List Char) :
    Derives g whole m (.lit text) (text ++ rest) (some ([], rest)) := by
  have h : Derives g whole m (.lit text) (text ++ rest) _ := .lit text _
  rwa [strip?_eq_some.2 rfl] at h

theorem lit_fails {text : List Char} (hcs : ∀ rest, cs ≠ text ++ rest) :
    Derives g whole m (.lit text) cs none := by
  have h : Derives g whole m (.lit text) cs _ := .lit text cs
  cases hstrip : strip? text cs with
  | none => rwa [hstrip] at h
  | some rest => exact absurd (strip?_eq_some.1 hstrip) (hcs rest)

/-! ### Single characters -/

/-- The expression takes one character that passes a test. -/
def TakesOne (g : Grammar ρ) (whole : List Char) (m : Spacing) (a : Expr ρ) (test : Char → Bool) :
    Prop :=
  ∀ cs, Derives g whole m a cs (oneOf test cs)

theorem takesOne_one (test : Char → Bool) : TakesOne g whole m (.one test) test := Derives.one test

theorem takesOne_lit (c : Char) : TakesOne g whole m (.lit [c]) (· == c) := by
  intro cs
  have hresult : oneOf (ρ := ρ) (· == c) cs = (strip? [c] cs).map fun rest => ([], rest) := by
    cases cs with
    | nil => rfl
    | cons d cs =>
        by_cases h : c = d
        · simp [oneOf, strip?, h]
        · simp [oneOf, strip?, h, Ne.symm h]
  rw [hresult]
  exact .lit [c] cs

theorem TakesOne.alt {test test' : Char → Bool} (ha : TakesOne g whole m a test)
    (hb : TakesOne g whole m b test') :
    TakesOne g whole m (.alt a b) fun c => test c || test' c := by
  intro cs
  have ha := ha cs
  have hb := hb cs
  cases cs with
  | nil => exact .altRight ha hb
  | cons c cs =>
      cases h : test c with
      | true =>
          simp only [oneOf, h, if_true, Bool.true_or] at ha ⊢
          exact .altLeft ha
      | false =>
          simp only [oneOf, h, Bool.false_eq_true, if_false, Bool.false_or] at ha ⊢
          exact .altRight ha hb

/-- A character is taken unless it passes a test. -/
theorem TakesOne.absent_any (hm : m ≠ .loose) {test : Char → Bool}
    (ha : TakesOne g whole m a test) :
    TakesOne g whole m (.seq (.absent a) (.one fun _ => true)) fun c => !test c := by
  intro cs
  have ha := ha cs
  cases cs with
  | nil => exact seq_of_ne hm (.absent ha) (.one _ [])
  | cons c cs =>
      cases h : test c with
      | true =>
          simp only [oneOf, h, if_true, Bool.not_true, Bool.false_eq_true, if_false] at ha ⊢
          exact .seqFails (.absentFails ha)
      | false =>
          simp only [oneOf, h, Bool.false_eq_true, if_false, Bool.not_false, if_true] at ha ⊢
          exact seq_of_ne hm (.absent ha) (.one _ (c :: cs))

theorem TakesOne.rule {name : ρ} (hkind : g.kind name = .silent) {test : Char → Bool}
    (h : TakesOne g whole m (g.body name) test) : TakesOne g whole m (.rule name) test :=
  fun cs => rule_silent hkind (h cs)

theorem TakesOne.again (hm : m ≠ .loose) {test : Char → Bool} (ha : TakesOne g whole m a test)
    (cs : List Char) : Derives g whole m (.again a) cs (some ([], cs.dropWhile test)) := by
  induction cs with
  | nil => exact .againEnds (between_of_ne hm []) (ha [])
  | cons c cs ih =>
      have hc := ha (c :: cs)
      cases h : test c with
      | true =>
          simp only [oneOf, h, if_true] at hc
          rw [List.dropWhile_cons_of_pos h]
          exact .again (between_of_ne hm _) hc ih
      | false =>
          simp only [oneOf, h, Bool.false_eq_true, if_false] at hc
          rw [List.dropWhile_cons_of_neg (by simp [h])]
          exact .againEnds (between_of_ne hm _) hc

/-- **A repetition of single characters** takes all that pass the test. -/
theorem TakesOne.star (hm : m ≠ .loose) {test : Char → Bool} (ha : TakesOne g whole m a test)
    (cs : List Char) : Derives g whole m (.star a) cs (some ([], cs.dropWhile test)) :=
  star_of_again hm (ha.again hm cs)

/-- At least one character. -/
theorem TakesOne.plus (hm : m ≠ .loose) {test : Char → Bool} (ha : TakesOne g whole m a test)
    (cs : List Char) : Derives g whole m a.plus cs
      (if (cs.takeWhile test).isEmpty then none else some ([], cs.dropWhile test)) := by
  cases cs with
  | nil => exact .seqFails (ha [])
  | cons c cs =>
      have hc := ha (c :: cs)
      cases h : test c with
      | true =>
          simp only [oneOf, h, if_true] at hc
          rw [List.takeWhile_cons_of_pos h, List.dropWhile_cons_of_pos h]
          exact seq_of_ne hm hc (ha.star hm cs)
      | false =>
          simp only [oneOf, h, Bool.false_eq_true, if_false] at hc
          rw [List.takeWhile_cons_of_neg (by simp [h])]
          exact .seqFails hc

end Derives

end Peg

end MacroForest
