/-
**Reading, writing and reading again.**

A text that is read and written again is in a normal form, and reading that should give the same
forest.  It does, unless the text has a number that is too large: such a number is read as an
infinity, and there is no way to write one.  A positive infinity is written as a word and read as a
name, and a negative one is not read at all.

That all other forests survive rests on what reading can make.  Its atoms come from the tokens of
the text, up to the two names and the two booleans that it makes by itself; it gives none of them a
style; and no token has a backquote in a name.  So what is read can be written, infinities apart
(`MacroForest.parse_eq_asRead`).

For the converse, the tokens of a written forest are followed once more, this time with no condition
on its numbers.  They have no infinity among them, so what is read from them has none.

Main definitions:

* `MacroForest.Node.Made` — a tree with atoms of one kind, all in the plain style;
* `MacroForest.NumbersFinite` — a text whose tokens have no infinity among them.

Main results:

* `MacroForest.Reader.feed_made` — **what reading one token makes**;
* `MacroForest.made_of_parse` — what reading a text makes;
* `MacroForest.Node.numbersFinite_text` — a written tree has no infinity among its tokens;
* `MacroForest.parse_normal_iff` — **a forest that was read survives if its numbers are finite, and
  only then**.
-/

import MacroForest.Proofs.Node.Heads
import MacroForest.Proofs.Source.Reading
import Mathlib.Data.List.Forall2
import Mathlib.Data.List.TakeWhile

set_option relaxedAutoImplicit false
set_option autoImplicit false

namespace MacroForest

/-! ### Trees that are made by reading -/

namespace Node

/-- All atoms of the tree are of a kind, and in the plain style. -/
def Made (Q : Atom → Prop) (n : Node) : Prop := n.asRead = n ∧ ∀ a ∈ n.atoms, Q a

/-- All atoms of some trees are so. -/
def AllMade (Q : Atom → Prop) (ns : List Node) : Prop := ∀ n ∈ ns, n.Made Q

variable {Q : Atom → Prop}

theorem allMade_iff {ns : List Node} :
    AllMade Q ns ↔ ns.map asRead = ns ∧ ∀ a ∈ atomsOf ns, Q a := by
  induction ns with
  | nil => simp [AllMade, atomsOf]
  | cons n ns ih =>
      have hcons : AllMade Q (n :: ns) ↔ n.Made Q ∧ AllMade Q ns := List.forall_mem_cons
      rw [hcons, ih, Made, List.map_cons, List.cons_eq_cons, atomsOf, List.forall_mem_append]
      exact and_and_and_comm

theorem made_atom_iff {attrs : List Node} {style : Style} {value : Atom} :
    (Node.atom attrs style value).Made Q ↔ AllMade Q attrs ∧ style = .plain ∧ Q value := by
  rw [allMade_iff, Made, asRead, atoms, asReadAll_eq_map, List.forall_mem_append]
  simp only [Node.atom.injEq, List.mem_singleton, forall_eq]
  constructor
  · rintro ⟨⟨hattrs, hstyle, -⟩, hatoms, hvalue⟩
    exact ⟨⟨hattrs, hatoms⟩, hstyle.symm, hvalue⟩
  · rintro ⟨⟨hattrs, hatoms⟩, rfl, hvalue⟩
    exact ⟨⟨hattrs, rfl, trivial⟩, hatoms, hvalue⟩

theorem made_call_iff {attrs : List Node} {style : Style} {target : Node} {args : List Node} :
    (Node.call attrs style target args).Made Q ↔
      AllMade Q attrs ∧ target.Made Q ∧ AllMade Q args := by
  rw [allMade_iff, allMade_iff, Made, Made, asRead, atoms, asReadAll_eq_map, asReadAll_eq_map,
    List.forall_mem_append, List.forall_mem_append]
  simp only [Node.call.injEq]
  constructor
  · rintro ⟨⟨hattrs, -, htarget, hargs⟩, hattrAtoms, htargetAtoms, hargAtoms⟩
    exact ⟨⟨hattrs, hattrAtoms⟩, ⟨htarget, htargetAtoms⟩, hargs, hargAtoms⟩
  · rintro ⟨⟨hattrs, hattrAtoms⟩, ⟨htarget, htargetAtoms⟩, hargs, hargAtoms⟩
    exact ⟨⟨hattrs, trivial, htarget, hargs⟩, hattrAtoms, htargetAtoms, hargAtoms⟩

theorem allMade_nil : AllMade Q [] := fun _ hn => absurd hn List.not_mem_nil

theorem made_ident {name : String} (h : Q (.ident name)) : (Node.ident name).Made Q :=
  made_atom_iff.2 ⟨allMade_nil, rfl, h⟩

theorem AllMade.reverse {ns : List Node} (h : AllMade Q ns) : AllMade Q ns.reverse :=
  fun n hn => h n (List.mem_reverse.1 hn)

theorem AllMade.cons {n : Node} {ns : List Node} (hn : n.Made Q) (hns : AllMade Q ns) :
    AllMade Q (n :: ns) := List.forall_mem_cons.2 ⟨hn, hns⟩

/-- Attributes are put in front of those that are there. -/
theorem Made.attach {n : Node} (hn : n.Made Q) {attrs : List Node} (hattrs : AllMade Q attrs) :
    (Reader.attach attrs n).Made Q := by
  unfold Reader.attach
  split
  · exact hn
  · cases n with
    | atom own style value =>
        obtain ⟨hown, hstyle, hvalue⟩ := made_atom_iff.1 hn
        exact made_atom_iff.2 ⟨List.forall_mem_append.2 ⟨hattrs, hown⟩, hstyle, hvalue⟩
    | call own style target args =>
        obtain ⟨hown, htarget, hargs⟩ := made_call_iff.1 hn
        exact made_call_iff.2 ⟨List.forall_mem_append.2 ⟨hattrs, hown⟩, htarget, hargs⟩

end Node

open Node (AllMade made_ident made_call_iff made_atom_iff allMade_nil)

/-- A kind of atoms that has those which reading makes by itself. -/
structure Atom.Natural (Q : Atom → Prop) : Prop where
  block : Q (.ident Reserved.block)
  dot : Q (.ident Reserved.dot)
  boolean : ∀ b, Q (.boolean b)

/-- The atom that a token stands for is of a kind. -/
def Token.Gives (Q : Atom → Prop) : Token → Prop
  | .word w => Q (.ident w)
  | .quoted name => Q (.ident name)
  | .number value => Q (.number value)
  | .string value => Q (.string value)
  | _ => True

/-- All trees in an open construct are so. -/
def Frame.Made (Q : Atom → Prop) : Frame → Prop
  | .attributes done => AllMade Q done
  | .paren attrs => AllMade Q attrs
  | .block attrs done => AllMade Q attrs ∧ AllMade Q done
  | .arguments attrs _ target done => AllMade Q attrs ∧ target.Made Q ∧ AllMade Q done

/-- All trees at a place are so. -/
def Place.Made (Q : Atom → Prop) : Place → Prop
  | .start => True
  | .attributed attrs => AllMade Q attrs
  | .operand attrs node => AllMade Q attrs ∧ node.Made Q
  | .banged attrs node => AllMade Q attrs ∧ node.Made Q
  | .selected attrs node => AllMade Q attrs ∧ node.Made Q

namespace Reader

/-- All trees in the state of the reader are so. -/
structure Made (Q : Atom → Prop) (r : Reader) : Prop where
  statements : AllMade Q r.statements
  frames : ∀ f ∈ r.frames, f.Made Q
  place : r.place.Made Q

variable {Q : Atom → Prop} {r r' : Reader} {t : Token}

theorem made_wordNode (hQ : Atom.Natural Q) {w : String} (hw : Q (.ident w)) :
    (wordNode w).Made Q := by
  unfold wordNode
  split
  · exact made_atom_iff.2 ⟨allMade_nil, rfl, hQ.boolean true⟩
  · split
    · exact made_atom_iff.2 ⟨allMade_nil, rfl, hQ.boolean false⟩
    · exact made_ident hw

theorem made_dotted (hQ : Atom.Natural Q) {left : Node} (hleft : left.Made Q) {name : String}
    (hname : Q (.ident name)) : (Node.dotted left (.ident name)).Made Q :=
  made_call_iff.2 ⟨allMade_nil, made_ident hQ.dot,
    .cons hleft (.cons (made_ident hname) allMade_nil)⟩

theorem beginOperand_made (hQ : Atom.Natural Q) (ht : t.Gives Q) (hr : r.Made Q)
    {attrs : List Node} (hattrs : AllMade Q attrs) (h : r.beginOperand attrs t = some r') :
    r'.Made Q := by
  cases t with
  | attrsOpen | attrsClose | parenClose | braceClose | comma | semicolon | dot | bang =>
      simp [beginOperand] at h
  | word w =>
      obtain rfl := Option.some.inj h
      exact ⟨hr.statements, hr.frames, hattrs, made_wordNode hQ ht⟩
  | quoted name =>
      obtain rfl := Option.some.inj h
      exact ⟨hr.statements, hr.frames, hattrs, made_ident ht⟩
  | number value | string value =>
      obtain rfl := Option.some.inj h
      exact ⟨hr.statements, hr.frames, hattrs, made_atom_iff.2 ⟨allMade_nil, rfl, ht⟩⟩
  | parenOpen =>
      obtain rfl := Option.some.inj h
      exact ⟨hr.statements, List.forall_mem_cons.2 ⟨hattrs, hr.frames⟩, trivial⟩
  | braceOpen =>
      obtain rfl := Option.some.inj h
      exact ⟨hr.statements, List.forall_mem_cons.2 ⟨⟨hattrs, allMade_nil⟩, hr.frames⟩, trivial⟩

theorem beginExpr_made (hQ : Atom.Natural Q) (ht : t.Gives Q) (hr : r.Made Q)
    (h : r.beginExpr t = some r') : r'.Made Q := by
  have hframes := hr.frames
  unfold beginExpr at h
  split at h
  · obtain rfl := Option.some.inj h
    exact ⟨hr.statements, hframes, trivial⟩
  · obtain rfl := Option.some.inj h
    exact ⟨hr.statements, hframes, trivial⟩
  · rename_i attrs done frames hopen
    rw [hopen] at hframes
    obtain ⟨⟨hattrs, hdone⟩, hrest⟩ := List.forall_mem_cons.1 hframes
    obtain rfl := Option.some.inj h
    exact ⟨hr.statements, hrest, hattrs,
      made_call_iff.2 ⟨allMade_nil, made_ident hQ.block, hdone.reverse⟩⟩
  · rename_i attrs style target done frames hopen
    rw [hopen] at hframes
    obtain ⟨⟨hattrs, htarget, hdone⟩, hrest⟩ := List.forall_mem_cons.1 hframes
    obtain rfl := Option.some.inj h
    exact ⟨hr.statements, hrest, hattrs, made_call_iff.2 ⟨allMade_nil, htarget, hdone.reverse⟩⟩
  · rename_i a done frames hopen
    rw [hopen] at hframes
    obtain ⟨hdone, hrest⟩ := List.forall_mem_cons.1 hframes
    obtain rfl := Option.some.inj h
    exact ⟨hr.statements, hrest, AllMade.reverse hdone⟩
  · obtain rfl := Option.some.inj h
    exact ⟨hr.statements, List.forall_mem_cons.2 ⟨allMade_nil, hframes⟩, trivial⟩
  · exact beginOperand_made hQ ht hr allMade_nil h

theorem endExpr_made (hQ : Atom.Natural Q) (ht : t.Gives Q) (hr : r.Made Q) {node : Node}
    (hnode : node.Made Q) (h : r.endExpr node t = some r') : r'.Made Q := by
  have hframes := hr.frames
  unfold endExpr at h
  split at h
  · refine beginExpr_made hQ ht ?_ h
    exact ⟨.cons hnode hr.statements, hframes, trivial⟩
  · rename_i attrs done frames hopen
    rw [hopen] at hframes
    obtain ⟨⟨hattrs, hdone⟩, hrest⟩ := List.forall_mem_cons.1 hframes
    refine beginExpr_made hQ ht ?_ h
    exact ⟨hr.statements, List.forall_mem_cons.2 ⟨⟨hattrs, .cons hnode hdone⟩, hrest⟩, trivial⟩
  · rename_i attrs style target done frames hopen
    rw [hopen] at hframes
    obtain ⟨⟨hattrs, htarget, hdone⟩, hrest⟩ := List.forall_mem_cons.1 hframes
    obtain rfl := Option.some.inj h
    exact ⟨hr.statements,
      List.forall_mem_cons.2 ⟨⟨hattrs, htarget, .cons hnode hdone⟩, hrest⟩, trivial⟩
  · rename_i attrs style target done frames hopen
    rw [hopen] at hframes
    obtain ⟨⟨hattrs, htarget, hdone⟩, hrest⟩ := List.forall_mem_cons.1 hframes
    obtain rfl := Option.some.inj h
    exact ⟨hr.statements, hrest, hattrs,
      made_call_iff.2 ⟨allMade_nil, htarget, (AllMade.cons hnode hdone).reverse⟩⟩
  · rename_i done frames hopen
    rw [hopen] at hframes
    obtain ⟨hdone, hrest⟩ := List.forall_mem_cons.1 hframes
    obtain rfl := Option.some.inj h
    exact ⟨hr.statements, List.forall_mem_cons.2 ⟨AllMade.cons hnode hdone, hrest⟩, trivial⟩
  · rename_i done frames hopen
    rw [hopen] at hframes
    obtain ⟨hdone, hrest⟩ := List.forall_mem_cons.1 hframes
    obtain rfl := Option.some.inj h
    exact ⟨hr.statements, hrest, (AllMade.cons hnode hdone).reverse⟩
  · rename_i attrs frames hopen
    rw [hopen] at hframes
    obtain ⟨hattrs, hrest⟩ := List.forall_mem_cons.1 hframes
    obtain rfl := Option.some.inj h
    exact ⟨hr.statements, hrest, hattrs, hnode⟩
  · simp at h

/-- **What reading one token makes** is made of what was there and the atom of the token. -/
theorem feed_made (hQ : Atom.Natural Q) (ht : t.Gives Q) (hr : r.Made Q)
    (h : r.feed t = some r') : r'.Made Q := by
  have hplace := hr.place
  unfold feed at h
  split at h
  · exact beginExpr_made hQ ht hr h
  · rename_i attrs hat
    rw [hat] at hplace
    exact beginOperand_made hQ ht hr hplace h
  · rename_i attrs node hat
    rw [hat] at hplace
    obtain rfl := Option.some.inj h
    exact ⟨hr.statements,
      List.forall_mem_cons.2 ⟨⟨hplace.1, hplace.2, allMade_nil⟩, hr.frames⟩, trivial⟩
  · rename_i attrs node hat
    rw [hat] at hplace
    obtain rfl := Option.some.inj h
    exact ⟨hr.statements, hr.frames, hplace⟩
  · rename_i attrs node hat
    rw [hat] at hplace
    obtain rfl := Option.some.inj h
    exact ⟨hr.statements, hr.frames, hplace⟩
  · rename_i attrs node hat _ _ _
    rw [hat] at hplace
    exact endExpr_made hQ ht hr (hplace.2.attach hplace.1) h
  · rename_i attrs node hat
    rw [hat] at hplace
    obtain rfl := Option.some.inj h
    exact ⟨hr.statements,
      List.forall_mem_cons.2 ⟨⟨hplace.1, hplace.2, allMade_nil⟩, hr.frames⟩, trivial⟩
  · rename_i attrs node w hat
    rw [hat] at hplace
    obtain rfl := Option.some.inj h
    exact ⟨hr.statements, hr.frames, hplace.1, made_dotted hQ hplace.2 ht⟩
  · rename_i attrs node name hat
    rw [hat] at hplace
    obtain rfl := Option.some.inj h
    exact ⟨hr.statements, hr.frames, hplace.1, made_dotted hQ hplace.2 ht⟩
  · simp at h

theorem finish?_made (hr : r.Made Q) {forest : Forest} (h : r.finish? = some forest) :
    AllMade Q forest := by
  have hplace := hr.place
  unfold finish? at h
  split at h
  · obtain rfl := Option.some.inj h
    exact hr.statements.reverse
  · rename_i attrs node _ hat
    rw [hat] at hplace
    obtain rfl := Option.some.inj h
    exact (AllMade.cons (hplace.2.attach hplace.1) hr.statements).reverse
  · simp at h

theorem run_made (hQ : Atom.Natural Q) {ts : List Token} (hts : ∀ t ∈ ts, t.Gives Q)
    (hr : r.Made Q) {i : Nat} {forest : Forest} (h : r.run i ts = .ok forest) :
    AllMade Q forest := by
  induction ts generalizing r i with
  | nil =>
      unfold run at h
      split at h
      · rename_i found hfinish
        obtain rfl := Except.ok.inj h
        exact finish?_made hr hfinish
      · simp at h
  | cons t ts ih =>
      obtain ⟨ht, hrest⟩ := List.forall_mem_cons.1 hts
      unfold run at h
      split at h
      · rename_i next hfeed
        exact ih hrest (feed_made hQ ht hr hfeed) h
      · simp at h

end Reader

/-- The tokens of a text. -/
def tokensOf (text : List Char) : List Token := (lexemes text).1.map (·.token)

/-- **What reading a text makes** is made of the atoms of its tokens. -/
theorem made_of_parse {Q : Atom → Prop} (hQ : Atom.Natural Q) {text : String}
    (htokens : ∀ t ∈ tokensOf text.toList, t.Gives Q) {forest : Forest}
    (h : parse text = .ok forest) : AllMade Q forest := by
  have hrun := (Reader.forest?_eq_some_iff.1 (parse_eq_ok_iff.1 h)).1
  have hstart : Reader.initial.Made Q :=
    ⟨allMade_nil, fun _ hf => absurd hf List.not_mem_nil, trivial⟩
  exact Reader.run_made hQ htokens hstart hrun

/-! ### Atoms that can be written -/

/-- Whatever is so of each token that a text can begin with is so of all tokens of a text. -/
theorem forall_tokensOf {P : Token → Prop}
    (h : ∀ cs t rest, Token.next? cs = some (t, rest) → P t) (text : List Char) :
    ∀ t ∈ tokensOf text, P t := by
  unfold tokensOf
  fun_induction lexemes text with
  | case1 text hnone => simp
  | case2 text token rest hnext following stop hrest ih =>
      rw [hrest] at ih
      rw [List.map_cons]
      exact List.forall_mem_cons.2 ⟨h _ _ _ hnext, ih⟩

/-- A name without a backquote, or no name. -/
def Atom.Nameable : Atom → Prop
  | .ident name => '\x60' ∉ name.toList
  | _ => True

/-- The atom is no infinity and no NaN. -/
def Atom.Finite (a : Atom) : Prop := ∀ x, a = .number x → x.isFinite = true

theorem Atom.writable_iff {a : Atom} : a.Writable ↔ a.Nameable ∧ a.Finite := by
  cases a <;> simp [Writable, Nameable, Finite]

theorem quotedBody_no_quote {cs body rest : List Char} (h : quotedBody cs = some (body, rest)) :
    '\x60' ∉ body := by
  induction cs generalizing body with
  | nil => simp [quotedBody] at h
  | cons c cs ih =>
      unfold quotedBody at h
      split at h
      · obtain ⟨rfl, -⟩ := Prod.mk.inj (Option.some.inj h)
        exact List.not_mem_nil
      · rename_i hc
        obtain ⟨⟨body', rest'⟩, hbody, heq⟩ := Option.map_eq_some_iff.1 h
        obtain ⟨rfl, rfl⟩ := Prod.mk.inj heq
        rw [List.mem_cons, not_or]
        exact ⟨fun hquote => hc (by simp [← hquote]), ih hbody⟩

theorem gives_of_punctuation {Q : Atom → Prop} {c : Char} {t : Token}
    (h : punctuation? c = some t) : t.Gives Q := by
  unfold punctuation? at h
  split at h
  case h_10 => simp at h
  all_goals
    obtain rfl := Option.some.inj h
    trivial

/-- No token has a backquote in a name: it is no character of words, and it ends a quoted name. -/
theorem gives_nameable {cs rest : List Char} {t : Token} (h : Token.next? cs = some (t, rest)) :
    t.Gives Atom.Nameable := by
  cases next?_eq_some_iff.1 h with
  | attrsOpen | unsigned | negative | string => trivial
  | @word c tail hc =>
      show '\x60' ∉ (String.ofList (c :: tail.takeWhile isWordChar)).toList
      rw [String.toList_ofList, List.mem_cons, not_or]
      constructor
      · rintro rfl
        exact absurd hc (by decide)
      · intro hmem
        exact absurd (List.mem_takeWhile_imp hmem) (by decide)
  | quoted hbody =>
      show '\x60' ∉ (String.ofList _).toList
      rw [String.toList_ofList]
      exact quotedBody_no_quote hbody
  | @punctuation c t rest hc => exact gives_of_punctuation hc

theorem natural_nameable : Atom.Natural Atom.Nameable where
  block := show '\x60' ∉ Reserved.block.toList by decide
  dot := show '\x60' ∉ Reserved.dot.toList by decide
  boolean := fun _ => trivial

/-- What is read from a text can be written, infinities apart. -/
theorem nameable_of_parse {text : String} {forest : Forest} (h : parse text = .ok forest) :
    AllMade Atom.Nameable forest :=
  made_of_parse natural_nameable (forall_tokensOf (fun _ _ _ => gives_nameable) _) h

/-! ### The tokens of a written forest -/

theorem natural_finite : Atom.Natural Atom.Finite := by
  constructor <;> simp [Atom.Finite]

/-- The tokens of the text have no infinity and no NaN among them. -/
def NumbersFinite (text : List Char) : Prop := ∀ t ∈ tokensOf text, t.Gives Atom.Finite

namespace NumbersFinite

variable {cs rest : List Char} {t : Token}

theorem of_cuts {ts : List Token} (hcuts : Cuts cs ts rest) (hts : ∀ t ∈ ts, t.Gives Atom.Finite)
    (h : NumbersFinite rest) : NumbersFinite cs := by
  unfold NumbersFinite tokensOf
  rw [hcuts.tokens_eq.1]
  exact List.forall_mem_append.2 ⟨hts, h⟩

theorem token (ht : t.Gives Atom.Finite) (hnext : Token.next? cs = some (t, rest))
    (h : NumbersFinite rest) : NumbersFinite cs :=
  of_cuts (.single hnext) (by simpa using ht) h

theorem punctuation {c : Char} (hc : punctuation? c = some t) (h : NumbersFinite cs) :
    NumbersFinite (c :: cs) :=
  token (gives_of_punctuation hc) (next?_punctuation hc cs) h

theorem blank (h : NumbersFinite cs) : NumbersFinite (' ' :: cs) :=
  of_cuts (.blank rfl (.done cs)) (by simp) h

/-- Where no token begins, there are no tokens. -/
theorem stuck (hnext : Token.next? cs = none) (hblank : skipBlanks cs = cs) : NumbersFinite cs := by
  unfold NumbersFinite tokensOf
  rw [lexemes_eq, hblank, hnext]
  simp

end NumbersFinite

/-- **No atom is written as an infinity**: a positive one is a word, and with a sign in front of it
there is no token. -/
theorem Atom.numbersFinite_text {a : Atom} (h : a.Nameable) {rest : List Char}
    (hrest : Delimited rest) (hfinite : NumbersFinite rest) :
    NumbersFinite (a.text.toList ++ rest) := by
  by_cases hwritable : a.Writable
  · refine .of_cuts (Atom.cuts_text hwritable hrest) ?_ hfinite
    cases a with
    | ident name =>
        rw [Atom.token, identToken]
        split <;> simp [Token.Gives, Atom.Finite]
    | number x => simpa [Atom.token, Token.Gives, Atom.Finite, Atom.Writable] using hwritable
    | string | boolean => simp [Atom.token, Token.Gives, Atom.Finite]
  · have hword : ∀ w, isPlainWord w = true → NumbersFinite (w.toList ++ rest) := by
      intro w hw
      exact .token (by simp [Token.Gives, Atom.Finite]) (next?_word hw hrest) hfinite
    cases a with
    | ident name => exact absurd h hwritable
    | string | boolean => exact absurd trivial hwritable
    | number x =>
        have hinfinite : x.isFinite = false := Bool.eq_false_iff.2 hwritable
        rw [Atom.text, Number.text, String.toList_ofList, Number.chars, hinfinite]
        cases x.isNaN with
        | true => exact hword "NaN" (by decide)
        | false =>
            cases x.negative with
            | false => exact hword "inf" (by decide)
            | true => exact .stuck rfl rfl

namespace Node

/-- In front of a delimited rest without infinities, the text of the tree adds none. -/
def Harmless (n : Node) : Prop :=
  ∀ rest, Delimited rest → NumbersFinite rest → NumbersFinite (n.text.toList ++ rest)

section Parts

variable {rest : List Char}

theorem harmless_separated {c : Char} {t : Token} (hc : punctuation? c = some t)
    (hdelim : ∀ cs, Delimited (c :: cs)) {ns : List Node} (h : ∀ n ∈ ns, n.Harmless)
    (hrest : Delimited rest) (hfinite : NumbersFinite rest) :
    NumbersFinite ([c, ' '].intercalate (ns.map fun n => n.text.toList) ++ rest) := by
  induction ns with
  | nil => exact hfinite
  | cons n ns ih =>
      cases ns with
      | nil => simpa using h n (by simp) rest hrest hfinite
      | cons m ns =>
          have hns := ih fun k hk => h k (List.mem_cons_of_mem n hk)
          have hn := h n (by simp) _ (hdelim _) (.punctuation hc (.blank hns))
          simpa [List.intercalate_cons_cons] using hn

theorem harmless_attrs {attrs : List Node} (h : ∀ a ∈ attrs, a.Harmless)
    (hfinite : NumbersFinite rest) : NumbersFinite ((attrsText (texts attrs)).toList ++ rest) := by
  cases attrs with
  | nil => exact hfinite
  | cons a attrs =>
      have hbody := harmless_separated (c := ',') rfl (delimited_cons (by decide) (by decide)) h
        (delimited_cons (c := ']') (by decide) (by decide) (' ' :: rest))
        (.punctuation rfl (.blank hfinite))
      have hopen : ∀ cs, Token.next? ('@' :: '[' :: cs) = some (.attrsOpen, cs) := fun _ => rfl
      rw [toList_attrsText (by simp)]
      simpa using NumbersFinite.token (t := .attrsOpen) trivial (hopen _) hbody

theorem harmless_target {n : Node} (h : n.Harmless) (hrest : Delimited rest)
    (hfinite : NumbersFinite rest) : NumbersFinite ((targetText n n.text).toList ++ rest) := by
  unfold targetText
  split
  · have hbody := h _ (delimited_cons (c := ')') (by decide) (by decide) rest)
      (.punctuation rfl hfinite)
    simpa using NumbersFinite.punctuation (c := '(') rfl hbody
  · exact h rest hrest hfinite

theorem harmless_block {ns : List Node} (h : ∀ n ∈ ns, n.Harmless) (hfinite : NumbersFinite rest) :
    NumbersFinite ((blockText (texts ns)).toList ++ rest) := by
  cases ns with
  | nil => exact .punctuation rfl (.punctuation rfl hfinite)
  | cons n ns =>
      have hbody := harmless_separated (c := ';') rfl (delimited_cons (by decide) (by decide)) h
        (delimited_cons (c := ' ') (by decide) (by decide) ('\x7d' :: rest))
        (.blank (.punctuation rfl hfinite))
      rw [toList_blockText (by simp)]
      simpa using NumbersFinite.punctuation (c := '\x7b') rfl (.blank hbody)

theorem harmless_applied {style : Style} {target : Node} {args : List Node}
    (htarget : target.Harmless) (hargs : ∀ a ∈ args, a.Harmless) (hfinite : NumbersFinite rest) :
    NumbersFinite
      ((appliedText style (targetText target target.text) (texts args)).toList ++ rest) := by
  have hbody := harmless_separated (c := ',') rfl (delimited_cons (by decide) (by decide)) hargs
    (delimited_cons (c := ')') (by decide) (by decide) rest) (.punctuation rfl hfinite)
  have hlist := NumbersFinite.punctuation (c := '(') rfl hbody
  rw [toList_appliedText]
  cases style with
  | plain =>
      simpa using harmless_target htarget (delimited_cons (by decide) (by decide) _) hlist
  | bang =>
      simpa using harmless_target htarget (delimited_cons (by decide) (by decide) _)
        (.punctuation (c := '!') rfl hlist)

end Parts

/-- **A written tree has no infinity among its tokens**, whatever its numbers are. -/
theorem numbersFinite_text {n : Node} (h : ∀ a ∈ n.atoms, a.Nameable) : n.Harmless := by
  induction n using inductionOn with
  | atom attrs style value ih =>
      intro rest hrest hfinite
      have hattrs : ∀ a ∈ attrs, a.Harmless := fun a ha =>
        ih a ha fun b hb => h b (mem_atoms_of_mem_attrs ha hb)
      have hvalue : value.Nameable := h value (by simp [atoms])
      rw [text, String.toList_append, List.append_assoc]
      exact harmless_attrs hattrs (Atom.numbersFinite_text hvalue hrest hfinite)
  | call attrs style target args ihAttrs ihTarget ihArgs =>
      intro rest hrest hfinite
      have hattrs : ∀ a ∈ attrs, a.Harmless := fun a ha =>
        ihAttrs a ha fun b hb => h b (mem_atoms_of_mem_attrs ha hb)
      have htarget : target.Harmless := ihTarget fun b hb => h b (mem_atoms_of_target rfl hb)
      have hargs : ∀ a ∈ args, a.Harmless := fun a ha =>
        ihArgs a ha fun b hb => h b (mem_atoms_of_mem_args ha hb)
      cases hform : CallForm.of style target args with
      | block =>
          rw [text_of_block attrs hform, String.toList_append, List.append_assoc]
          exact harmless_attrs hattrs (harmless_block hargs hfinite)
      | applied =>
          rw [text_of_applied attrs hform, String.toList_append, List.append_assoc]
          exact harmless_attrs hattrs (harmless_applied htarget hargs hfinite)
      | dotted =>
          obtain ⟨-, -, left, rightStyle, name, rfl⟩ := CallForm.of_eq_dotted hform
          have hname : (Atom.ident name).Nameable := h (.ident name) (by simp [atoms, atomsOf])
          have hdot : NumbersFinite ('.' :: ((identText name).toList ++ rest)) :=
            .punctuation rfl (Atom.numbersFinite_text hname hrest hfinite)
          have hleft := harmless_target (hargs left (by simp)) (delimited_dot_ident name rest) hdot
          rw [text_of_dotted attrs hform, String.toList_append, List.append_assoc]
          refine harmless_attrs hattrs ?_
          simpa using hleft

end Node

theorem numbersFinite_forestText {forest : Forest} (h : AllMade Atom.Nameable forest) :
    NumbersFinite (forestText forest).toList := by
  induction forest with
  | nil =>
      unfold NumbersFinite tokensOf
      rw [show (forestText []).toList = [] from rfl, lexemes_nil]
      simp
  | cons n forest ih =>
      obtain ⟨hn, hrest⟩ := List.forall_mem_cons.1 h
      have htext : (forestText (n :: forest)).toList =
          n.text.toList ++ ';' :: '\n' :: (forestText forest).toList := by
        simp [forestText]
      have hline : NumbersFinite ('\n' :: (forestText forest).toList) :=
        .of_cuts (.blank rfl (.done _)) (by simp) (ih hrest)
      rw [htext]
      exact Node.numbersFinite_text hn.2 _ (delimited_cons (by decide) (by decide) _)
        (.punctuation rfl hline)

/-! ### Trees that agree -/

namespace Node

theorem agrees_atomsOf {as bs : List Node} (hlength : as.length = bs.length)
    (h : ∀ p ∈ as.zip bs, List.Forall₂ (·.agrees ·) p.1.atoms p.2.atoms) :
    List.Forall₂ (·.agrees ·) (atomsOf as) (atomsOf bs) := by
  induction as generalizing bs with
  | nil =>
      obtain rfl := List.length_eq_zero_iff.1 hlength.symm
      exact .nil
  | cons a as ih =>
      cases bs with
      | nil => simp at hlength
      | cons b bs =>
          rw [List.zip_cons_cons] at h
          obtain ⟨hfirst, hrest⟩ := List.forall_mem_cons.1 h
          exact List.rel_append hfirst (ih (Nat.succ.inj hlength) hrest)

/-- The atoms of two trees agree if those of the parts that are left to compare do. -/
theorem agrees_atoms_of_parts {a b : Node} {parts : List (Node × Node)}
    (hparts : matchParts a b = some parts)
    (h : ∀ p ∈ parts, List.Forall₂ (·.agrees ·) p.1.atoms p.2.atoms) :
    List.Forall₂ (·.agrees ·) a.atoms b.atoms := by
  unfold matchParts at hparts
  split at hparts
  · split at hparts
    · rename_i hsame
      obtain rfl := Option.some.inj hparts
      rw [atoms, atoms]
      exact List.rel_append (agrees_atomsOf hsame.1 h) (.cons hsame.2 .nil)
    · simp at hparts
  · split at hparts
    · rename_i hsame
      obtain rfl := Option.some.inj hparts
      rw [List.forall_mem_append, List.forall_mem_append, List.forall_mem_singleton] at h
      obtain ⟨⟨hattrs, hargs⟩, htarget⟩ := h
      rw [atoms, atoms]
      exact List.rel_append (agrees_atomsOf hsame.1 hattrs)
        (List.rel_append htarget (agrees_atomsOf hsame.2 hargs))
    · simp at hparts
  · simp at hparts

theorem agrees_atoms_of_allAgree {pairs : List (Node × Node)} (h : allAgree pairs = true) :
    ∀ p ∈ pairs, List.Forall₂ (·.agrees ·) p.1.atoms p.2.atoms := by
  fun_induction allAgree pairs with
  | case1 => exact fun p hp => absurd hp List.not_mem_nil
  | case2 a b pending hnone => simp at h
  | case3 a b pending parts hsome ih =>
      obtain ⟨hparts, hpending⟩ := List.forall_mem_append.1 (ih h)
      exact List.forall_mem_cons.2 ⟨agrees_atoms_of_parts hsome hparts, hpending⟩

/-- **Trees that agree have atoms that agree**, one by one. -/
theorem agrees_atoms {a b : Node} (h : a.agree b = true) :
    List.Forall₂ (·.agrees ·) a.atoms b.atoms :=
  agrees_atoms_of_allAgree h (a, b) (List.mem_singleton_self _)

end Node

/-- What the members of one list pass on to those of another holds of all of them. -/
theorem forall_of_forall₂ {α : Type} {R : α → α → Prop} {P : α → Prop} {as bs : List α}
    (h : List.Forall₂ R as bs) (hstep : ∀ a b, R a b → P b → P a) (hbs : ∀ b ∈ bs, P b) :
    ∀ a ∈ as, P a := by
  induction h with
  | nil => exact hbs
  | @cons a b as bs hab _ ih =>
      obtain ⟨hb, hrest⟩ := List.forall_mem_cons.1 hbs
      exact List.forall_mem_cons.2 ⟨hstep a b hab hb, ih hrest⟩

/-- A number that is the same as a finite one is finite. -/
theorem Number.isFinite_of_same {x y : Number} (h : x.same y = true) (hy : y.isFinite = true) :
    x.isFinite = true := by
  rcases same_iff.1 h with rfl | ⟨hzero, -⟩
  · exact hy
  · have hword : x.word % pow2 63 = 0 := by simpa [isZero] using hzero
    have hfield : x.exponentField = 0 := by
      unfold exponentField
      rw [pow2_eq] at hword ⊢
      omega
    simp [isFinite, hfield]

theorem Atom.finite_of_agrees {a b : Atom} (h : a.agrees b = true) (hb : b.Finite) : a.Finite := by
  rintro x rfl
  cases b with
  | number y => exact Number.isFinite_of_same h (hb y rfl)
  | ident | string | boolean => simp [agrees] at h

theorem Node.finiteNumbers_iff {n : Node} : n.FiniteNumbers ↔ ∀ a ∈ n.atoms, a.Finite := by
  constructor
  · rintro h a ha x rfl
    exact h x ha
  · exact fun h x hx => h _ hx x rfl

theorem Node.finiteNumbers_of_agree {a b : Node} (h : a.agree b = true) (hb : b.FiniteNumbers) :
    a.FiniteNumbers := by
  rw [finiteNumbers_iff] at hb ⊢
  exact forall_of_forall₂ (agrees_atoms h) (fun _ _ => Atom.finite_of_agrees) hb

/-! ### Reading again -/

/-- What was read and has finite numbers is read again, as it is. -/
theorem parse_forestText_of_made {forest : Forest} (h : AllMade Atom.Nameable forest)
    (hfinite : ∀ n ∈ forest, n.FiniteNumbers) : parse (forestText forest) = .ok forest := by
  have hwritable : ∀ n ∈ forest, ∀ a ∈ n.atoms, a.Writable := fun n hn a ha =>
    Atom.writable_iff.2 ⟨(h n hn).2 a ha, Node.finiteNumbers_iff.1 (hfinite n hn) a ha⟩
  rw [parse_eq_asRead hwritable, (Node.allMade_iff.1 h).1]

/-- What is read from a written forest has finite numbers. -/
theorem finiteNumbers_of_parse_forestText {forest again : Forest}
    (h : AllMade Atom.Nameable forest) (hagain : parse (forestText forest) = .ok again) :
    ∀ n ∈ again, n.FiniteNumbers := fun n hn =>
  Node.finiteNumbers_iff.2
    (made_of_parse natural_finite (numbersFinite_forestText h) hagain n hn).2

/-- **A forest that was read is read again from its own text exactly if its numbers are finite.**
Then nothing at all has changed, styles and signs of zeros included. -/
theorem parse_normal_iff {text : String} {forest : Forest} (h : parse text = .ok forest) :
    ((∃ again, parse (forestText forest) = .ok again ∧
        List.Forall₂ (fun a b => a.agree b = true) forest again) ↔
      ∀ n ∈ forest, n.FiniteNumbers) ∧
    ((∀ n ∈ forest, n.FiniteNumbers) → parse (forestText forest) = .ok forest) := by
  have hmade := nameable_of_parse h
  refine ⟨⟨?_, fun hfinite => ⟨forest, parse_forestText_of_made hmade hfinite, ?_⟩⟩,
    parse_forestText_of_made hmade⟩
  · rintro ⟨again, hagain, hagree⟩
    have hfinite := finiteNumbers_of_parse_forestText hmade hagain
    exact forall_of_forall₂ hagree (fun _ _ => Node.finiteNumbers_of_agree) hfinite
  · exact List.forall₂_same.2 fun n _ => n.agree_self

/-- A member of a call with a bang, where a negative zero and a quoted name are the arguments, and
then a block around a number with a zero too many. -/
def mixedText : String := "@[a] f!(-0, `x y`).b; { 1.50 }"

/-- Its forest. -/
def mixedForest : Forest :=
  [.call [.ident "a"] .plain (.ident Reserved.dot)
      [.call [] .bang (.ident "f") [.number (.ofParts true ['0'] [] 0), .ident "x y"], .ident "b"],
    .call [] .plain (.ident Reserved.block) [.number (.ofParts false ['1'] ['5', '0'] 0)]]

theorem parse_normal_iff_mixed :
    (parse mixedText = .ok mixedForest ∧ ∀ n ∈ mixedForest, n.FiniteNumbers) ∧
      parse (forestText mixedForest) = .ok mixedForest := by
  have hparse : parse mixedText = .ok mixedForest := by
    rw [parse_eq_ok_iff]
    repeat rw [Reader.forest?_of_feed (by rfl) (by rfl)]
    rw [Reader.forest?_of_none (by rfl)]
    rfl
  have hfinite : ∀ n ∈ mixedForest, n.FiniteNumbers := by
    intro n hn x hx
    simp only [mixedForest, List.mem_cons, List.not_mem_nil, or_false] at hn
    rcases hn with rfl | rfl
    · obtain rfl : x = .ofParts true ['0'] [] 0 := by
        simpa [Node.atoms, Node.atomsOf, Node.ident, Node.number] using hx
      decide +kernel
    · obtain rfl : x = .ofParts false ['1'] ['5', '0'] 0 := by
        simpa [Node.atoms, Node.atomsOf, Node.ident, Node.number] using hx
      decide +kernel
  exact ⟨⟨hparse, hfinite⟩, (parse_normal_iff hparse).2 hfinite⟩

/-- **Infinities do not survive**: a positive one is read again as a name, and a negative one is not
read at all. -/
theorem infinity_lost :
    (parse "1e400" = .ok [.number (.infinity false)] ∧
      parse (forestText [.number (.infinity false)]) = .ok [.ident "inf"] ∧
      (Node.number (.infinity false)).agree (.ident "inf") = false) ∧
    parse "-1e400" = .ok [.number (.infinity true)] ∧
      ∀ again, parse (forestText [.number (.infinity true)]) ≠ .ok again := by
  have hpositive : forestText [.number (.infinity false)] = "inf;\n" := by decide +kernel
  have hnegative : forestText [.number (.infinity true)] = "-inf;\n" := by decide +kernel
  refine ⟨⟨?_, ?_, ?_⟩, ?_, fun again h => ?_⟩
  · rw [parse_eq_ok_iff, Reader.forest?_of_feed (by rfl) (by rfl), Reader.forest?_of_none (by rfl)]
    rfl
  · rw [hpositive, parse_eq_ok_iff, Reader.forest?_of_feed (by rfl) (by rfl),
      Reader.forest?_of_feed (by rfl) (by rfl), Reader.forest?_of_none (by rfl)]
    rfl
  · exact Bool.eq_false_iff.2 fun h =>
      Node.not_alike_of_matchParts rfl (Node.agree_iff_alike.1 h)
  · rw [parse_eq_ok_iff, Reader.forest?_of_feed (by rfl) (by rfl), Reader.forest?_of_none (by rfl)]
    rfl
  · rw [hnegative, parse_eq_ok_iff, Reader.forest?_of_none (by rfl), if_neg (by decide)] at h
    cases h

end MacroForest
