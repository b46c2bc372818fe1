/-
**What is written is read back.**

The text of a tree is cut into the tree's spelling (`MacroForest.Node.cuts_text`).  This module
follows the reader through a spelling and puts the two halves together.

The reader is a machine with a stack of open constructs, and the statement that carries the
induction is about all of its states: from any state in which an operand can begin, the tokens of a
tree without its attributes lead to the same state, with the tree as the operand that has been read.
The constructs below are neither looked at nor changed.  Attribute lists, argument lists and blocks
are all read in the same way, so what is said about them is said once, of a frame that gathers
members up to a closing token.

Main definitions:

* `MacroForest.Reader.Takes` — the reader takes some tokens, from one state to another;
* `MacroForest.Reader.Opens` — the states in which an operand can begin;
* `MacroForest.Node.Readable` — the reader takes the spelling of a tree as that tree.

Main results:

* `MacroForest.Reader.Gathers.takes` — members between separators are gathered;
* `MacroForest.Node.readable` — **every tree is read from its spelling**;
* `MacroForest.parse_forestText` — **a forest is read back from its text**, equal node by node and
  with every call in its style.
-/

import MacroForest.Source.Parse
import MacroForest.Proofs.Source.Spelling

set_option relaxedAutoImplicit false
set_option autoImplicit false

namespace MacroForest

namespace Reader

/-! ### Taking tokens -/

/-- The reader takes the tokens one after the other, from the first state to the last. -/
inductive Takes : Reader → List Token → Reader → Prop
  | done (r : Reader) : Takes r [] r
  | token {r r' r'' : Reader} {t : Token} {ts : List Token} : r.feed t = some r' →
      Takes r' ts r'' → Takes r (t :: ts) r''

namespace Takes

variable {r r' r'' : Reader} {t : Token} {ts us : List Token}

theorem single (h : r.feed t = some r') : Takes r [t] r' := .token h (.done r')

theorem append (h : Takes r ts r') (h' : Takes r' us r'') : Takes r (ts ++ us) r'' := by
  induction h with
  | done => exact h'
  | token ht _ ih => exact .token ht (ih h')

/-- A reader that takes all tokens and can end there reads their forest. -/
theorem run_eq (h : Takes r ts r') {forest : Forest} (hend : r'.finish? = some forest) (i : Nat) :
    r.run i ts = .ok forest := by
  induction h generalizing i with
  | done r => simp [run, hend]
  | token ht _ ih =>
      rw [run, ht]
      exact ih hend (i + 1)

end Takes

/-! ### Where an operand begins -/

/-- An operand can begin here, and these are the attributes in front of it. -/
def Opens (r : Reader) (attrs : List Node) : Prop :=
  r.place = .start ∧ attrs = [] ∨ r.place = .attributed attrs

theorem opens_start {r : Reader} (h : r.place = .start) : r.Opens [] := .inl ⟨h, rfl⟩

/-- Where an operand can begin, a token that begins one does so.  None of these tokens has another
meaning at the start of an expression. -/
theorem feed_of_opens {r r' : Reader} {attrs : List Node} {t : Token} (h : r.Opens attrs)
    (ht : r.beginOperand attrs t = some r') : r.feed t = some r' := by
  rcases h with ⟨hstart, rfl⟩ | hattributed
  · have hfeed : r.feed t = r.beginExpr t := by simp [feed, hstart]
    rw [hfeed, ← ht]
    cases t with
    | attrsOpen | attrsClose | parenClose | braceClose | comma | semicolon | dot | bang =>
        simp [beginOperand] at ht
    | word | quoted | number | string | parenOpen | braceOpen =>
        unfold beginExpr
        split <;> simp_all
  · have hfeed : r.feed t = r.beginOperand attrs t := by simp [feed, hattributed]
    rw [hfeed, ht]

end Reader

/-! ### The attributes of an expression -/

namespace Node

/-- A tree without its attributes. -/
def bare (n : Node) : Node := n.withAttrs []

@[simp] theorem bare_atom (attrs : List Node) (style : Style) (value : Atom) :
    (Node.atom attrs style value).bare = .atom [] style value := rfl

@[simp] theorem bare_call (attrs : List Node) (style : Style) (target : Node) (args : List Node) :
    (Node.call attrs style target args).bare = .call [] style target args := rfl

theorem attach_bare (n : Node) : Reader.attach n.attrs n.bare = n := by
  cases n with
  | atom attrs => cases attrs <;> simp [Reader.attach, attrs, withAttrs]
  | call attrs => cases attrs <;> simp [Reader.attach, attrs, withAttrs]

theorem bare_of_not_hasAttrs {n : Node} (h : n.hasAttrs = false) : n.bare = n := by
  cases n <;> simp_all [hasAttrs, attrs]

theorem hasAttrs_asRead (n : Node) : n.asRead.hasAttrs = n.hasAttrs := by
  simp [hasAttrs]

/-- The reader takes the spelling of a tree as that tree, from wherever it can begin. -/
def Readable (n : Node) : Prop :=
  ∀ r : Reader, r.place = .start →
    r.Takes n.spelling { r with place := .operand n.asRead.attrs n.asRead.bare }

end Node

/-! ### Members between separators -/

namespace Reader

/-- A construct that gathers members: the frame with the members so far, last first, the tokens
between and behind them, and the place that the construct leads to as a whole. -/
structure Gathers (frame : List Node → Frame) (sep close : Token)
    (place : List Node → Place) : Prop where
  /-- A separator puts the member behind the others. -/
  sep : ∀ statements frames done attrs node,
    feed ⟨statements, frame done :: frames, .operand attrs node⟩ sep =
      some ⟨statements, frame (attach attrs node :: done) :: frames, .start⟩
  /-- The closing token takes the last member and leaves the construct. -/
  close : ∀ statements frames done attrs node,
    feed ⟨statements, frame done :: frames, .operand attrs node⟩ close =
      some ⟨statements, frames, place (attach attrs node :: done).reverse⟩

theorem gathers_attributes : Gathers .attributes .comma .attrsClose .attributed :=
  ⟨fun _ _ _ _ _ => rfl, fun _ _ _ _ _ => rfl⟩

theorem gathers_arguments (attrs : List Node) (style : Style) (target : Node) :
    Gathers (.arguments attrs style target) .comma .parenClose
      fun args => .operand attrs (.call [] style target args) :=
  ⟨fun _ _ _ _ _ => rfl, fun _ _ _ _ _ => rfl⟩

theorem gathers_block (attrs : List Node) :
    Gathers (.block attrs) .semicolon .braceClose
      fun statements => .operand attrs (.block statements) :=
  ⟨fun _ _ _ _ _ => rfl, fun _ _ _ _ _ => rfl⟩

/-- **Members between separators are gathered**, in their order and behind those that the construct
has already. -/
theorem Gathers.takes {frame : List Node → Frame} {sep close : Token}
    {place : List Node → Place} (h : Gathers frame sep close place) {ns : List Node}
    (hne : ns ≠ []) (hns : ∀ n ∈ ns, n.Readable) (statements : List Node) (frames : List Frame)
    (done : List Node) :
    Takes ⟨statements, frame done :: frames, .start⟩
      ([sep].intercalate (ns.map Node.spelling) ++ [close])
      ⟨statements, frames, place (done.reverse ++ ns.map Node.asRead)⟩ := by
  induction ns generalizing done with
  | nil => exact absurd rfl hne
  | cons n ns ih =>
      have hn := hns n (by simp) ⟨statements, frame done :: frames, .start⟩ rfl
      cases ns with
      | nil =>
          have hclose := h.close statements frames done n.asRead.attrs n.asRead.bare
          rw [Node.attach_bare, List.reverse_cons] at hclose
          simpa using hn.append (.single hclose)
      | cons m ns =>
          have hsep := h.sep statements frames done n.asRead.attrs n.asRead.bare
          rw [Node.attach_bare] at hsep
          have hrest := ih (by simp) (fun k hk => hns k (List.mem_cons_of_mem n hk))
            (n.asRead :: done)
          simpa [List.intercalate_cons_cons] using hn.append (.token hsep hrest)

end Reader

/-! ### Reading a tree -/

namespace Node

/-- The tokens of a tree behind its attributes lead from where an operand can begin to the tree
without its attributes. -/
def Begins (n : Node) (tokens : List Token) : Prop :=
  ∀ (r : Reader) (attrs : List Node), r.Opens attrs →
    r.Takes tokens { r with place := .operand attrs n.asRead.bare }

/-- The attributes in front of a tree are read first, and the rest begins behind them. -/
theorem Begins.readable {n : Node} {tokens : List Token} (h : n.Begins tokens)
    (hattrs : ∀ a ∈ n.attrs, a.Readable)
    (hspelling : n.spelling = attrsSpelling (spellings n.attrs) ++ tokens) : n.Readable := by
  intro r hstart
  rw [hspelling, attrs_asRead]
  cases hn : n.attrs with
  | nil => exact h r [] (Reader.opens_start hstart)
  | cons a attrs =>
      rw [hn] at hattrs
      have hopen : r.feed .attrsOpen =
          some ⟨r.statements, .attributes [] :: r.frames, .start⟩ := by
        simp only [Reader.feed, hstart, Reader.beginExpr]
      -- the reader then stands behind the attributes, where an operand can begin as well
      have hlist := Reader.gathers_attributes.takes (by simp) hattrs r.statements r.frames []
      have hrest := h ⟨r.statements, r.frames, .attributed ((a :: attrs).map asRead)⟩ _ (.inr rfl)
      rw [attrsSpelling, if_neg (by simp [spellings]), spellings_eq_map]
      exact (Reader.Takes.token hopen hlist).append hrest

/-- In the place of a target, the reader takes a tree as an operand with its attributes. -/
def ReadableTarget (n : Node) : Prop :=
  ∀ (r : Reader) (attrs : List Node), r.Opens attrs →
    r.Takes (targetSpelling n n.spelling) { r with place := .operand attrs n.asRead }

/-- A target with attributes stands in parentheses, and one without is nothing but the operand. -/
theorem Begins.readableTarget {n : Node} {tokens : List Token} (h : n.Begins tokens)
    (hread : n.Readable)
    (hspelling : n.spelling = attrsSpelling (spellings n.attrs) ++ tokens) :
    n.ReadableTarget := by
  intro r attrs hopens
  cases hattrs : n.hasAttrs with
  | true =>
      have hopen := Reader.feed_of_opens (t := .parenOpen) hopens rfl
      have hbody := hread ⟨r.statements, .paren attrs :: r.frames, .start⟩ rfl
      have hclose : Reader.feed ⟨r.statements, .paren attrs :: r.frames,
          .operand n.asRead.attrs n.asRead.bare⟩ .parenClose =
          some { r with place := .operand attrs n.asRead } := by
        have : Reader.feed ⟨r.statements, .paren attrs :: r.frames,
            .operand n.asRead.attrs n.asRead.bare⟩ .parenClose = some ⟨r.statements, r.frames,
              .operand attrs (Reader.attach n.asRead.attrs n.asRead.bare)⟩ := rfl
        rw [this, attach_bare]
      rw [targetSpelling, if_pos hattrs]
      exact .token hopen (hbody.append (.single hclose))
  | false =>
      have hnil : n.attrs = [] := by simpa [hasAttrs] using hattrs
      have hbody := h r attrs hopens
      rw [bare_of_not_hasAttrs (by rw [hasAttrs_asRead, hattrs])] at hbody
      rw [targetSpelling, if_neg (by simp [hattrs]), hspelling, hnil]
      exact hbody

theorem begins_atom (attrs : List Node) (style : Style) (value : Atom) :
    (Node.atom attrs style value).Begins [value.token] := by
  intro r front hopens
  refine .single (Reader.feed_of_opens hopens ?_)
  rw [asRead, bare_atom]
  cases value with
  | number | string => rfl
  | boolean b => cases b <;> rfl
  | ident name =>
      rw [Atom.token, identToken]
      split
      · -- a plain word that is read as a name is neither of the booleans
        rename_i hword
        simp only [Bool.and_eq_true, bne_iff_ne] at hword
        rw [Reader.beginOperand, Reader.wordNode, if_neg hword.1.2, if_neg hword.2]
        rfl
      · rfl

/-- A tree that is a given name, as it is read. -/
theorem asRead_of_isName {n : Node} {name : String} (h : n.isName name = true) :
    n.asRead = .ident name := by
  cases n with
  | call => simp [isName, identName?] at h
  | atom attrs style value =>
      cases value with
      | number | string | boolean => simp [isName, identName?] at h
      | ident other =>
          obtain ⟨rfl, rfl⟩ : attrs = [] ∧ other = name := by
            simpa [isName, identName?, hasAttrs, Node.attrs] using h
          rfl

theorem begins_block {style : Style} {target : Node} {args : List Node} (attrs : List Node)
    (hform : CallForm.of style target args = .block) (hargs : ∀ a ∈ args, a.Readable) :
    (Node.call attrs style target args).Begins (blockSpelling (spellings args)) := by
  intro r front hopens
  obtain ⟨rfl, htarget⟩ := CallForm.of_eq_block hform
  have hopen := Reader.feed_of_opens (t := .braceOpen) hopens rfl
  have hlist : Reader.Takes ⟨r.statements, .block front [] :: r.frames, .start⟩
      ([Token.semicolon].intercalate (args.map spelling) ++ [.braceClose])
      ⟨r.statements, r.frames, .operand front (.block (args.map asRead))⟩ := by
    cases args with
    | nil => exact .single rfl
    | cons a args => exact (Reader.gathers_block front).takes (by simp) hargs _ _ []
  rw [asRead, bare_call, asRead_of_isName htarget, asReadAll_eq_map, blockSpelling,
    spellings_eq_map]
  exact .token hopen hlist

/-- An argument list behind an operand makes a call of it. -/
theorem takes_args {args : List Node} (hargs : ∀ a ∈ args, a.Readable) (style : Style)
    (statements : List Node) (frames : List Frame) (attrs : List Node) (target : Node) :
    Reader.Takes ⟨statements, frames, .operand attrs target⟩ (argsSpelling style (spellings args))
      ⟨statements, frames, .operand attrs (.call [] style target (args.map asRead))⟩ := by
  have hlist : Reader.Takes ⟨statements, .arguments attrs style target [] :: frames, .start⟩
      ([Token.comma].intercalate (args.map spelling) ++ [.parenClose])
      ⟨statements, frames, .operand attrs (.call [] style target (args.map asRead))⟩ := by
    cases args with
    | nil => exact .single rfl
    | cons a args => exact (Reader.gathers_arguments attrs style target).takes (by simp) hargs _ _ []
  rw [argsSpelling, spellings_eq_map]
  cases style with
  | plain => exact .token rfl hlist
  | bang =>
      have hbang : Reader.feed ⟨statements, frames, .operand attrs target⟩ .bang =
          some ⟨statements, frames, .banged attrs target⟩ := rfl
      exact .token hbang (.token rfl hlist)

theorem begins_applied {style : Style} {target : Node} {args : List Node} (attrs : List Node)
    (htarget : target.ReadableTarget) (hargs : ∀ a ∈ args, a.Readable) :
    (Node.call attrs style target args).Begins
      (targetSpelling target target.spelling ++ argsSpelling style (spellings args)) := by
  intro r front hopens
  rw [asRead, bare_call, asReadAll_eq_map]
  exact (htarget r front hopens).append (takes_args hargs style r.statements r.frames front _)

theorem begins_dotted {style rightStyle : Style} {target left : Node} {name : String}
    (attrs : List Node)
    (hform : CallForm.of style target [left, .atom [] rightStyle (.ident name)] = .dotted)
    (hleft : left.ReadableTarget) :
    (Node.call attrs style target [left, .atom [] rightStyle (.ident name)]).Begins
      (targetSpelling left left.spelling ++ [.dot, identToken name]) := by
  intro r front hopens
  obtain ⟨rfl, htarget, -⟩ := CallForm.of_eq_dotted hform
  have hname : Reader.feed ⟨r.statements, r.frames, .selected front left.asRead⟩ (identToken name) =
      some ⟨r.statements, r.frames, .operand front (.dotted left.asRead (.ident name))⟩ := by
    unfold identToken
    split <;> rfl
  rw [asRead, bare_call, asRead_of_isName htarget]
  exact (hleft r front hopens).append (.token rfl (.single hname))

/-- **Every tree is read from its spelling**, by itself and in the place of a target. -/
theorem readable (n : Node) : n.Readable ∧ n.ReadableTarget := by
  induction n using inductionOn with
  | atom attrs style value ih =>
      have hbegins := begins_atom attrs style value
      have hread := hbegins.readable (fun a ha => (ih a ha).1) rfl
      exact ⟨hread, hbegins.readableTarget hread rfl⟩
  | call attrs style target args ihAttrs ihTarget ihArgs =>
      have hargs : ∀ a ∈ args, a.Readable := fun a ha => (ihArgs a ha).1
      -- the three written forms differ only in the tokens behind the attributes
      obtain ⟨tokens, hbegins, hspelling⟩ : ∃ tokens,
          (Node.call attrs style target args).Begins tokens ∧
          (Node.call attrs style target args).spelling =
            attrsSpelling (spellings attrs) ++ tokens := by
        cases hform : CallForm.of style target args with
        | block => exact ⟨_, begins_block attrs hform hargs, spelling_of_block attrs hform⟩
        | applied =>
            exact ⟨_, begins_applied attrs ihTarget.2 hargs, spelling_of_applied attrs hform⟩
        | dotted =>
            obtain ⟨-, -, left, rightStyle, name, rfl⟩ := CallForm.of_eq_dotted hform
            have hleft := (ihArgs left (by simp)).2
            exact ⟨_, begins_dotted attrs hform hleft, spelling_of_dotted attrs hform⟩
      have hread := hbegins.readable (fun a ha => (ihAttrs a ha).1) hspelling
      exact ⟨hread, hbegins.readableTarget hread hspelling⟩

end Node

/-! ### Reading a forest -/

/-- The tokens of a forest: a semicolon ends each statement. -/
def forestSpelling (nodes : Forest) : List Token :=
  nodes.flatMap fun n => n.spelling ++ [.semicolon]

theorem cuts_forestText {nodes : Forest} (h : ∀ n ∈ nodes, ∀ a ∈ n.atoms, a.Writable) :
    Cuts (forestText nodes).toList (forestSpelling nodes) [] := by
  induction nodes with
  | nil => exact .done []
  | cons n nodes ih =>
      have htext : (forestText (n :: nodes)).toList =
          n.text.toList ++ ';' :: '\n' :: (forestText nodes).toList := by
        simp [forestText]
      have hn := Node.cuts_text (h n (by simp)) _
        (delimited_cons (c := ';') (by decide) (by decide) ('\n' :: (forestText nodes).toList))
      have hend := Cuts.token (next?_punctuation (c := ';') rfl _)
        (.blank (c := '\n') rfl (ih fun m hm => h m (List.mem_cons_of_mem n hm)))
      rw [htext, forestSpelling, List.flatMap_cons, List.append_assoc]
      exact hn.append hend

theorem takes_forestSpelling (nodes statements : List Node) :
    Reader.Takes ⟨statements, [], .start⟩ (forestSpelling nodes)
      ⟨(nodes.map Node.asRead).reverse ++ statements, [], .start⟩ := by
  induction nodes generalizing statements with
  | nil => exact .done _
  | cons n nodes ih =>
      have hend : Reader.feed ⟨statements, [], .operand n.asRead.attrs n.asRead.bare⟩ .semicolon =
          some ⟨n.asRead :: statements, [], .start⟩ := by
        have : Reader.feed ⟨statements, [], .operand n.asRead.attrs n.asRead.bare⟩ .semicolon =
            some ⟨Reader.attach n.asRead.attrs n.asRead.bare :: statements, [], .start⟩ := rfl
        rw [this, Node.attach_bare]
      have hn := (n.readable.1 ⟨statements, [], .start⟩ rfl).append (.single hend)
      have hrest := ih (n.asRead :: statements)
      simpa [forestSpelling] using hn.append hrest

theorem lexemes_nil : lexemes [] = ([], []) := by
  rw [lexemes_eq]
  rfl

/-- The text of a forest is read as the forest with all atoms in the plain style. -/
theorem parse_eq_asRead {nodes : Forest} (h : ∀ n ∈ nodes, ∀ a ∈ n.atoms, a.Writable) :
    parse (forestText nodes) = .ok (nodes.map Node.asRead) := by
  obtain ⟨htokens, hstop⟩ := (cuts_forestText h).tokens_eq
  have hread : readTokens (forestSpelling nodes) = .ok (nodes.map Node.asRead) :=
    (takes_forestSpelling nodes []).run_eq (by simp [Reader.finish?]) 0
  rw [lexemes_nil] at htokens hstop
  rw [List.map_nil, List.append_nil] at htokens
  simp only [parse, parseChars, htokens, hread, hstop, List.isEmpty_nil, if_true]

/-- **A forest is read back from its text**, if no name in it has a backquote and all its numbers
are finite.  What is read is equal to the forest, tree by tree, and each call is in its style. -/
theorem parse_forestText {nodes : Forest} (h : ∀ n ∈ nodes, ∀ a ∈ n.atoms, a.Writable) :
    ∃ result, parse (forestText nodes) = .ok result ∧
      List.Forall₂ (fun n m => n.agree m = true ∧ m.callStyles = n.callStyles) nodes result := by
  refine ⟨nodes.map Node.asRead, parse_eq_asRead h, ?_⟩
  rw [List.forall₂_map_right_iff, List.forall₂_same]
  exact fun n _ => ⟨n.agree_asRead, n.callStyles_asRead⟩

/-- Trees where two written pieces meet in an unusual way: a member of a negative number with an
attribute on it, a call of a boolean, a call with a bang of a name that needs quotes, a block name
called with a bang, and a dot with a literal on its right. -/
def meetingTrees : Forest :=
  [.dotted (.atom [.ident "a"] .plain (.number (.ofBits 0xBFF8000000000000))) (.ident ""),
    .call [.string "\"\\\n", .block []] .plain (.boolean true) [.ident "true", .splice []],
    .call [] .bang (.ident "no word") [.number (.ofBits 0x44B52D02C7E14AF6)],
    .call [] .bang (.ident Reserved.block) [.invoke (.dotted (.number (.ofBits 0)) (.ident "e5")) []],
    .dotted (.ident "x") (.string "//")]

theorem parse_forestText_meetingTrees :
    (∀ n ∈ meetingTrees, ∀ a ∈ n.atoms, a.Writable) ∧
      ∃ result, parse (forestText meetingTrees) = .ok result ∧
        List.Forall₂ (fun n m => n.agree m = true ∧ m.callStyles = n.callStyles)
          meetingTrees result :=
  have h : ∀ n ∈ meetingTrees, ∀ a ∈ n.atoms, a.Writable := by decide +kernel
  ⟨h, parse_forestText h⟩

end MacroForest
