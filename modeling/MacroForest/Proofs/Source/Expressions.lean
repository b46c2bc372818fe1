/-
**Expressions, by the grammar and by the reader.**

An expression is an operand with attributes in front of it and calls and members behind it.  The
grammar and the reader agree on each of these parts, given that they agree on shorter texts, so they
agree on all expressions.  The induction is on the length of the text.

A choice that fails is tried otherwise.  So a construct that goes wrong must not be anything else,
and an argument list that goes wrong could be the parenthesis that begins the next statement.  It
never is (`MacroForest.Notation.fails_paren`).

Main definitions:

* `MacroForest.Notation.Suffix`, `MacroForest.Notation.Operand` — the outcomes behind an operand and
  at the start of one.

Main results:

* `MacroForest.Notation.suffixes` — calls and members, from left to right;
* `MacroForest.Notation.operand` — literals, names, blocks and expressions in parentheses;
* `MacroForest.Notation.expression` — **every text has one of the three outcomes**.
-/

import MacroForest.Proofs.Source.Descent

set_option relaxedAutoImplicit false
set_option autoImplicit false

namespace MacroForest

namespace Notation

open Peg

variable {whole cs mid rest : List Char}

/-! ### Where nothing begins -/

theorem fails_atoms (whole : List Char)
    (hatom : ∀ t rest, Token.first? cs = some (t, rest) → t.atom? = none) :
    Fails whole (.rule .boolean) cs ∧ Fails whole (.rule .number) cs ∧
      Fails whole (.rule .string) cs ∧ Fails whole (.rule .ident) cs := by
  refine ⟨boolean_fails ?_, number_fails ?_, string_fails ?_, ident_fails ?_⟩
  · exact fun b rest h => nomatch hatom _ rest h
  · exact fun value rest h => nomatch hatom _ rest h
  · exact fun value rest h => nomatch hatom _ rest h
  · intro t rest h
    have ht := hatom t rest h
    cases t with
    | word | quoted => exact nomatch ht
    | _ => rfl

/-- Where no literal and no name comes next, an operand is a block or in parentheses. -/
theorem reads_primary {ps : List (Pair Rule)}
    (hatom : ∀ t rest, Token.first? cs = some (t, rest) → t.atom? = none)
    (h : Reads whole (.alt (.rule .block) (.rule .paren)) cs ps rest) :
    Reads whole (.rule .primary) cs ps rest := by
  obtain ⟨hboolean, hnumber, hstring, hident⟩ := fails_atoms whole hatom
  have hbody : Reads whole (Rule.body .primary) cs ps rest :=
    .alt_right hboolean (.alt_right hnumber (.alt_right hstring (.alt_right hident h)))
  exact hbody.silent rfl

theorem fails_primary (hatom : ∀ t rest, Token.first? cs = some (t, rest) → t.atom? = none)
    (hblock : Fails whole (.rule .block) cs) (hparen : Fails whole (.rule .paren) cs) :
    Fails whole (.rule .primary) cs := by
  obtain ⟨hboolean, hnumber, hstring, hident⟩ := fails_atoms whole hatom
  exact Fails.rule (.inr rfl)
    (hboolean.alt (hnumber.alt (hstring.alt (hident.alt (hblock.alt hparen)))))

theorem fails_block (h : ∀ rest, Token.first? cs ≠ some (.braceOpen, rest)) :
    Fails whole (.rule .block) cs :=
  Fails.rule (.inl rfl) (Fails.seq (fails_lit rfl h))

theorem fails_paren_of_ne (h : ∀ rest, Token.first? cs ≠ some (.parenOpen, rest)) :
    Fails whole (.rule .paren) cs :=
  Fails.rule (.inr rfl) (Fails.seq (fails_lit rfl h))

theorem fails_attrs (h : ∀ rest, Token.first? cs ≠ some (.attrsOpen, rest)) :
    Fails whole (.rule .attrs) cs :=
  Fails.rule (.inl rfl) (Fails.seq (attrsOpen_fails h))

theorem fails_expr (hattrs : Fails whole (.rule .attrs) cs)
    (hprimary : Fails whole (.rule .primary) cs) : Fails whole (.rule .expr) cs :=
  Fails.rule (.inl rfl) (hattrs.opt.seq_fails hprimary.seq)

/-- No operand begins with the next token. -/
theorem fails_primary_of_absent
    (h : ∀ t rest, Token.first? cs = some (t, rest) → t.starts = true → t = .attrsOpen) :
    Fails whole (.rule .primary) cs := by
  refine fails_primary ?_ (fails_block fun rest hfirst => nomatch h _ _ hfirst rfl)
    (fails_paren_of_ne fun rest hfirst => nomatch h _ _ hfirst rfl)
  intro t rest hfirst
  have ht := h t rest hfirst
  cases t with
  | word | quoted | number | string => exact nomatch ht rfl
  | _ => rfl

theorem fails_expr_of_absent (h : ∀ t rest, Token.first? cs = some (t, rest) → t.starts = false) :
    Fails whole (.rule .expr) cs := by
  refine fails_expr (fails_attrs fun rest hfirst => nomatch h _ _ hfirst)
    (fails_primary_of_absent fun t rest hfirst ht => ?_)
  exact absurd ht (by simp [h t rest hfirst])

/-- A parenthesis that is no expression in parentheses. -/
theorem fails_primary_of_paren (hfirst : Token.first? cs = some (.parenOpen, rest))
    (h : Fails whole (.seq (.rule .expr) (.lit [')'])) rest) : Fails whole (.rule .primary) cs := by
  have hparen : Fails whole (.rule .paren) cs :=
    Fails.rule (.inr rfl) ((reads_lit rfl hfirst).seq_fails h)
  exact fails_primary (by simp [hfirst, Token.atom?]) (fails_block (by simp [hfirst])) hparen

/-! ### Calls and members -/

/-- **What can stand behind an operand**: a call or a member, or else the expression ends here. -/
inductive Suffix (whole cs : List Char) : Prop
  | ends : Settled whole cs → Fails whole (.rule .suffix) cs → Suffix whole cs
  | read {pair : Pair Rule} {rest : List Char} (grow : Node → Node) :
      Reads whole (.rule .suffix) cs [pair] rest → rest.length < cs.length →
      (∀ attrs node parts, buildParts attrs (some node) (pair :: parts) =
        buildParts attrs (some (grow node)) parts) →
      (∀ (r : Reader) attrs node, r.place = .operand attrs node →
        r.forest? cs = Reader.forest? { r with place := .operand attrs (grow node) } rest) →
      Suffix whole cs

theorem fails_suffix (hcall : Fails whole (.rule .call) cs)
    (hmember : Fails whole (.rule .member) cs) : Fails whole (.rule .suffix) cs :=
  Fails.rule (.inr rfl) (hcall.alt hmember)

theorem fails_member (h : ∀ rest, Token.first? cs ≠ some (.dot, rest)) :
    Fails whole (.rule .member) cs :=
  Fails.rule (.inl rfl) (Fails.seq (fails_lit rfl h))

theorem no_bang (h : ∀ rest, Token.first? cs ≠ some (.bang, rest)) :
    Reads whole (.opt (.rule .bang)) cs [] cs :=
  Fails.opt (Fails.rule (.inl rfl) (fails_lit rfl h))

theorem suffix_of_paren (hfirst : Token.first? cs = some (.parenOpen, rest))
    (ih : ∀ cs', cs'.length < cs.length → Expression whole cs') : Suffix whole cs := by
  have hlt := Token.first?_length_lt hfirst
  have hbang : Reads whole (.opt (.rule .bang)) cs [] cs := no_bang (by simp [hfirst])
  have hopen : Reads whole (.lit ['(']) cs [] rest := reads_lit rfl hfirst
  have hfeed : ∀ (r : Reader) attrs node, r.place = .operand attrs node → r.forest? cs =
      Reader.forest? ⟨r.statements, argumentsFrame (attrs, .plain, node) :: r.frames, .start⟩
        rest := by
    rintro ⟨statements, frames, place⟩ attrs node rfl
    exact Reader.forest?_of_feed hfirst rfl
  cases args rest (fun cs' h => ih cs' (by omega)) with
  | @read ps ns after hargs hns hlt' hreader =>
      have hbody : Reads whole (Rule.body .call) cs ps after := hbang.seq (hopen.seq hargs)
      obtain ⟨text, hcall⟩ := hbody.rule rfl
      refine .read (fun node => .call [] .plain node ns) (hcall.alt_left.silent rfl) (by omega)
        ?_ ?_
      · intro attrs node parts
        exact buildParts_call (buildArgs_of_isExpr hns .plain)
      · intro r attrs node hplace
        rw [hfeed r attrs node hplace, hreader]
        rfl
  | refused hfails hrefuses =>
      have hcall : Fails whole (.rule .call) cs :=
        Fails.rule (.inl rfl) (hbang.seq_fails (hopen.seq_fails hfails))
      have hparen := fails_paren (ih rest hlt) hfails
      have hexpr : Fails whole (.rule .expr) cs :=
        fails_expr (fails_attrs (by simp [hfirst])) (fails_primary_of_paren hfirst hparen)
      refine .ends (.inl ⟨⟨_, _, hfirst, rfl⟩, hexpr, ?_⟩)
        (fails_suffix hcall (fails_member (by simp [hfirst])))
      intro r attrs node hplace
      rw [hfeed r attrs node hplace, hrefuses]

theorem suffix_of_bang (hfirst : Token.first? cs = some (.bang, rest))
    (ih : ∀ cs', cs'.length < cs.length → Expression whole cs') : Suffix whole cs := by
  have hlt := Token.first?_length_lt hfirst
  have hbody : Reads whole (Rule.body .bang) cs [] rest := reads_lit rfl hfirst
  obtain ⟨text, hbang⟩ := hbody.rule rfl
  have hmember : Fails whole (.rule .member) cs := fails_member (by simp [hfirst])
  have hexpr : Fails whole (.rule .expr) cs := fails_expr_of_absent (by simp [hfirst, Token.starts])
  have hfeed : ∀ (r : Reader) attrs node, r.place = .operand attrs node → r.forest? cs =
      Reader.forest? ⟨r.statements, r.frames, .banged attrs node⟩ rest := by
    rintro ⟨statements, frames, place⟩ attrs node rfl
    exact Reader.forest?_of_feed hfirst rfl
  by_cases hparen : ∃ inside, Token.first? rest = some (.parenOpen, inside)
  · obtain ⟨inside, hinside⟩ := hparen
    have hlt' := Token.first?_length_lt hinside
    have hopen : Reads whole (.lit ['(']) rest [] inside := reads_lit rfl hinside
    have hfeed : ∀ (r : Reader) attrs node, r.place = .operand attrs node → r.forest? cs =
        Reader.forest? ⟨r.statements, argumentsFrame (attrs, .bang, node) :: r.frames, .start⟩
          inside := by
      intro r attrs node hplace
      rw [hfeed r attrs node hplace]
      exact Reader.forest?_of_feed hinside rfl
    cases args inside (fun cs' h => ih cs' (by omega)) with
    | @read ps ns after hargs hns hlt'' hreader =>
        have hbody : Reads whole (Rule.body .call) cs (⟨.bang, text, []⟩ :: ps) after :=
          hbang.opt.seq (hopen.seq hargs)
        obtain ⟨text', hcall⟩ := hbody.rule rfl
        refine .read (fun node => .call [] .bang node ns) (hcall.alt_left.silent rfl) (by omega)
          ?_ ?_
        · intro attrs node parts
          exact buildParts_call (buildArgs_of_isExpr hns .bang)
        · intro r attrs node hplace
          rw [hfeed r attrs node hplace, hreader]
          rfl
    | refused hfails hrefuses =>
        have hcall : Fails whole (.rule .call) cs :=
          Fails.rule (.inl rfl) (hbang.opt.seq_fails (hopen.seq_fails hfails))
        refine .ends (.inl ⟨⟨_, _, hfirst, rfl⟩, hexpr, ?_⟩) (fails_suffix hcall hmember)
        intro r attrs node hplace
        rw [hfeed r attrs node hplace, hrefuses]
  · have hopen : Fails whole (.lit ['(']) rest := fails_lit rfl (not_exists.1 hparen)
    have hcall : Fails whole (.rule .call) cs :=
      Fails.rule (.inl rfl) (hbang.opt.seq_fails hopen.seq)
    refine .ends (.inl ⟨⟨_, _, hfirst, rfl⟩, hexpr, ?_⟩) (fails_suffix hcall hmember)
    intro r attrs node hplace
    rw [hfeed r attrs node hplace]
    refine Reader.forest?_eq_none (by simp [Reader.finish?]) fun t inside hinside => ?_
    cases t with
    | parenOpen => exact absurd ⟨inside, hinside⟩ hparen
    | _ => rfl

theorem suffix_of_dot (hfirst : Token.first? cs = some (.dot, rest)) : Suffix whole cs := by
  have hlt := Token.first?_length_lt hfirst
  have hdot : Reads whole (.lit ['.']) cs [] rest := reads_lit rfl hfirst
  have hcall : Fails whole (.rule .call) cs :=
    Fails.rule (.inl rfl) ((no_bang (by simp [hfirst])).seq_fails
      (Fails.seq (fails_lit_of_ne rfl hfirst nofun)))
  have hfeed : ∀ (r : Reader) attrs node, r.place = .operand attrs node → r.forest? cs =
      Reader.forest? ⟨r.statements, r.frames, .selected attrs node⟩ rest := by
    rintro ⟨statements, frames, place⟩ attrs node rfl
    exact Reader.forest?_of_feed hfirst rfl
  by_cases hname : ∃ t after name, Token.first? rest = some (t, after) ∧ t.name? = some name
  · obtain ⟨t, after, name, hafter, hname⟩ := hname
    have hlt' := Token.first?_length_lt hafter
    obtain ⟨pair, hbuild, -, hident⟩ := ident_takes hafter hname
    have hbody : Reads whole (Rule.body .member) cs [pair] after := hdot.seq (.of_derives hident)
    obtain ⟨text, hmember⟩ := hbody.rule rfl
    refine .read (fun node => .dotted node (.ident name)) ((hmember.alt_right hcall).silent rfl)
      (by omega) ?_ ?_
    · intro attrs node parts
      exact buildParts_member hbuild
    · intro r attrs node hplace
      rw [hfeed r attrs node hplace]
      refine Reader.forest?_of_feed hafter ?_
      cases t with
      | word | quoted =>
          obtain rfl := Option.some.inj hname
          rfl
      | _ => exact absurd hname.symm (Option.some_ne_none name)
  · have hnone : ∀ t after, Token.first? rest = some (t, after) → t.name? = none := by
      intro t after hafter
      rw [Option.eq_none_iff_forall_ne_some]
      exact fun name h => hname ⟨t, after, name, hafter, h⟩
    have hmember : Fails whole (.rule .member) cs :=
      Fails.rule (.inl rfl) (hdot.seq_fails (ident_fails hnone))
    refine .ends (.inl ⟨⟨_, _, hfirst, rfl⟩,
      fails_expr_of_absent (by simp [hfirst, Token.starts]), ?_⟩) (fails_suffix hcall hmember)
    intro r attrs node hplace
    rw [hfeed r attrs node hplace]
    refine Reader.forest?_eq_none (by simp [Reader.finish?]) fun t after hafter => ?_
    have ht := hnone t after hafter
    cases t with
    | word | quoted => exact absurd ht (Option.some_ne_none _)
    | _ => rfl

theorem suffix (cs : List Char) (ih : ∀ cs', cs'.length < cs.length → Expression whole cs') :
    Suffix whole cs := by
  by_cases hfollows : ∃ t rest, Token.first? cs = some (t, rest) ∧ t.follows = true
  · obtain ⟨t, rest, hfirst, ht⟩ := hfollows
    cases t with
    | parenOpen => exact suffix_of_paren hfirst ih
    | bang => exact suffix_of_bang hfirst ih
    | dot => exact suffix_of_dot hfirst
    | _ => exact nomatch ht
  · have hne : ∀ t rest, Token.first? cs = some (t, rest) → t.follows = false := by
      intro t rest hfirst
      by_contra ht
      exact hfollows ⟨t, rest, hfirst, by simpa using ht⟩
    have hcall : Fails whole (.rule .call) cs :=
      Fails.rule (.inl rfl) ((no_bang fun rest hfirst => nomatch hne _ _ hfirst).seq_fails
        (Fails.seq (fails_lit rfl fun rest hfirst => nomatch hne _ _ hfirst)))
    exact .ends (.inr hne)
      (fails_suffix hcall (fails_member fun rest hfirst => nomatch hne _ _ hfirst))

/-- **Calls and members are folded onto the operand from left to right**, as the reader does. -/
theorem suffixes (cs : List Char) (ih : ∀ cs', cs'.length < cs.length → Expression whole cs') :
    ∃ (ps : List (Pair Rule)) (grow : Node → Node) (rest : List Char),
      Reads whole (.star (.rule .suffix)) cs ps rest ∧ rest.length ≤ cs.length ∧
      Settled whole rest ∧
      (∀ attrs node, buildParts attrs (some node) ps = .ok (attrs, some (grow node))) ∧
      ∀ (r : Reader) attrs node, r.place = .operand attrs node →
        r.forest? cs = Reader.forest? { r with place := .operand attrs (grow node) } rest := by
  cases suffix cs ih with
  | ends hsettled hfails =>
      refine ⟨[], id, cs, hfails.star, le_rfl, hsettled, fun _ _ => rfl, ?_⟩
      rintro ⟨statements, frames, place⟩ attrs node rfl
      rfl
  | @read pair mid grow hread hlt hbuild hreader =>
      obtain ⟨ps, grow', rest, hstar, hle, hsettled, hbuilds, hreaders⟩ :=
        suffixes mid fun cs' h => ih cs' (by omega)
      refine ⟨pair :: ps, grow' ∘ grow, rest, hread.star_cons hstar, by omega, hsettled, ?_, ?_⟩
      · intro attrs node
        rw [hbuild, hbuilds]
        rfl
      · intro r attrs node hplace
        rw [hreader r attrs node hplace, hreaders _ attrs (grow node) rfl]
        rfl
termination_by cs.length

/-! ### Operands -/

/-- **The three outcomes at the start of an operand.** -/
inductive Operand (whole cs : List Char) : Prop
  /-- No operand begins here. -/
  | absent : (∀ t rest, Token.first? cs = some (t, rest) → t.starts = true → t = .attrsOpen) →
      Fails whole (.rule .primary) cs → Operand whole cs
  /-- An operand begins here and goes wrong. -/
  | refused {t : Token} {rest : List Char} : Token.first? cs = some (t, rest) → t.starts = true →
      Fails whole (.rule .primary) cs →
      (∀ (r : Reader) attrs, r.Opens attrs → r.forest? cs = none) → Operand whole cs
  /-- There is an operand. -/
  | read {pair : Pair Rule} {node : Node} {rest : List Char} :
      Reads whole (.rule .primary) cs [pair] rest → isOperand (ruleOf pair) = true →
      build pair = .ok node → rest.length < cs.length →
      (∀ (r : Reader) attrs, r.Opens attrs →
        r.forest? cs = Reader.forest? { r with place := .operand attrs node } rest) →
      Operand whole cs

/-- The pair of a plain word: a boolean, or else a name. -/
theorem reads_word {w : String} (hfirst : Token.first? cs = some (.word w, rest)) :
    ∃ pair, Reads whole (.rule .primary) cs [pair] rest ∧ isOperand (ruleOf pair) = true ∧
      build pair = .ok (Reader.wordNode w) := by
  by_cases hboolean : ∃ b, w = booleanWord b
  · obtain ⟨b, rfl⟩ := hboolean
    have hread : Reads whole (.rule .boolean) cs _ rest := .of_derives (boolean_takes hfirst)
    refine ⟨_, Reads.silent rfl hread.alt_left, rfl, ?_⟩
    cases b <;> rfl
  · have hne : ∀ b, w ≠ booleanWord b := fun b h => hboolean ⟨b, h⟩
    have hboolean : Fails whole (.rule .boolean) cs := by
      refine boolean_fails fun b rest' h => hne b ?_
      exact Token.word.inj (Token.first?_unique hfirst h)
    have hnumber : Fails whole (.rule .number) cs :=
      number_fails (by simp [show Token.next? _ = _ from hfirst])
    have hstring : Fails whole (.rule .string) cs :=
      string_fails (by simp [show Token.next? _ = _ from hfirst])
    obtain ⟨pair, hbuild, hrule, hident⟩ := ident_takes hfirst rfl
    refine ⟨pair, Reads.silent rfl (.alt_right hboolean (.alt_right hnumber
      (.alt_right hstring (.alt_left (.of_derives hident))))), by rw [hrule]; rfl, ?_⟩
    rw [hbuild, Reader.wordNode, if_neg (hne true), if_neg (hne false)]

/-- **The pair of a literal or a name.** -/
theorem reads_atom {t : Token} {node : Node} (hfirst : Token.first? cs = some (t, rest))
    (hatom : t.atom? = some node) :
    ∃ pair, Reads whole (.rule .primary) cs [pair] rest ∧ isOperand (ruleOf pair) = true ∧
      build pair = .ok node := by
  have hnext : Token.next? (skipBlanks cs) = some (t, rest) := hfirst
  cases t with
  | word w =>
      obtain rfl := Option.some.inj hatom
      exact reads_word hfirst
  | number value =>
      obtain rfl := Option.some.inj hatom
      have hboolean : Fails whole (.rule .boolean) cs := boolean_fails (by simp [hnext])
      obtain ⟨text, -, hvalue, hnumber⟩ := number_takes hnext
      exact ⟨_, Reads.silent rfl (.alt_right hboolean (.alt_left (.of_derives hnumber))), rfl,
        build_number hvalue⟩
  | string value =>
      obtain rfl := Option.some.inj hatom
      have hboolean : Fails whole (.rule .boolean) cs := boolean_fails (by simp [hnext])
      have hnumber : Fails whole (.rule .number) cs := number_fails (by simp [hnext])
      obtain ⟨raw, -, hraw, hstring⟩ := string_takes hnext
      refine ⟨_, Reads.silent rfl (.alt_right hboolean (.alt_right hnumber
        (.alt_left (.of_derives hstring)))), rfl, ?_⟩
      rw [build_string hraw, String.ofList_toList]
  | quoted name =>
      obtain rfl := Option.some.inj hatom
      have hboolean : Fails whole (.rule .boolean) cs := boolean_fails (by simp [hnext])
      have hnumber : Fails whole (.rule .number) cs := number_fails (by simp [hnext])
      have hstring : Fails whole (.rule .string) cs := string_fails (by simp [hnext])
      obtain ⟨pair, hbuild, hrule, hident⟩ := ident_takes hfirst rfl
      exact ⟨pair, Reads.silent rfl (.alt_right hboolean (.alt_right hnumber
        (.alt_right hstring (.alt_left (.of_derives hident))))), by rw [hrule]; rfl, hbuild⟩
  | _ => exact nomatch hatom

theorem operand_of_atom {t : Token} {node : Node} (hfirst : Token.first? cs = some (t, rest))
    (hatom : t.atom? = some node) : Operand whole cs := by
  obtain ⟨pair, hread, hrule, hbuild⟩ := reads_atom hfirst hatom
  refine .read hread hrule hbuild (Token.first?_length_lt hfirst) ?_
  intro r attrs hopens
  refine Reader.forest?_of_feed hfirst (Reader.feed_of_opens hopens ?_)
  cases t with
  | word | quoted | number | string =>
      obtain rfl := Option.some.inj hatom
      rfl
  | _ => exact nomatch hatom

theorem operand_of_brace (hfirst : Token.first? cs = some (.braceOpen, rest))
    (ih : ∀ cs', cs'.length < cs.length → Expression whole cs') : Operand whole cs := by
  have hlt := Token.first?_length_lt hfirst
  have hopen : Reads whole (.lit ['\x7b']) cs [] rest := reads_lit rfl hfirst
  have hatom : ∀ t rest, Token.first? cs = some (t, rest) → t.atom? = none := by
    simp [hfirst, Token.atom?]
  have hfeed : ∀ (r : Reader) attrs, r.Opens attrs →
      r.forest? cs = Reader.forest? ⟨r.statements, .block attrs [] :: r.frames, .start⟩ rest :=
    fun r attrs hopens => Reader.forest?_of_feed hfirst (Reader.feed_of_opens hopens rfl)
  cases blockBody rest (fun cs' h => ih cs' (by omega)) with
  | @read ps ns after hinside hns hlt' hreader =>
      have hbody : Reads whole (Rule.body .block) cs ps after := hopen.seq hinside
      obtain ⟨text, hblock⟩ := hbody.rule rfl
      have hbuild : build ⟨.block, text, ps⟩ = .ok (.block ns) :=
        build_block (buildAll_of_isExpr hns)
      refine .read (reads_primary hatom hblock.alt_left) rfl hbuild (by omega) ?_
      intro r attrs hopens
      rw [hfeed r attrs hopens, hreader]
  | refused hfails hrefuses =>
      have hblock : Fails whole (.rule .block) cs := Fails.rule (.inl rfl) (hopen.seq_fails hfails)
      refine .refused hfirst rfl
        (fails_primary hatom hblock (fails_paren_of_ne (by simp [hfirst]))) ?_
      intro r attrs hopens
      rw [hfeed r attrs hopens, hrefuses]

/-- Only a parenthesis ends what stands in parentheses. -/
theorem refuses_in_paren (statements : List Node) (frames : List Frame) (front attrs : List Node)
    (node : Node) (t : Token) (hfollows : t.follows = false) (hne : t ≠ .parenClose) :
    Reader.feed ⟨statements, .paren front :: frames, .operand attrs node⟩ t = none := by
  cases t with
  | parenOpen | bang | dot => exact nomatch hfollows
  | parenClose => exact absurd rfl hne
  | _ => rfl

theorem operand_of_paren (hfirst : Token.first? cs = some (.parenOpen, rest))
    (ih : ∀ cs', cs'.length < cs.length → Expression whole cs') : Operand whole cs := by
  have hlt := Token.first?_length_lt hfirst
  have hopen : Reads whole (.lit ['(']) cs [] rest := reads_lit rfl hfirst
  have hfeed : ∀ (r : Reader) attrs, r.Opens attrs →
      r.forest? cs = Reader.forest? ⟨r.statements, .paren attrs :: r.frames, .start⟩ rest :=
    fun r attrs hopens => Reader.forest?_of_feed hfirst (Reader.feed_of_opens hopens rfl)
  cases ih rest hlt with
  | absent habsent hfails =>
      refine .refused hfirst rfl (fails_primary_of_paren hfirst hfails.seq) ?_
      intro r attrs hopens
      rw [hfeed r attrs hopens]
      refine Reader.forest?_eq_none rfl fun t after hafter => ?_
      have hstarts := habsent t after hafter
      cases t with
      | word | quoted | number | string | attrsOpen | braceOpen | parenOpen => exact nomatch hstarts
      | _ => rfl
  | refused _ _ hfails hrefuses =>
      refine .refused hfirst rfl (fails_primary_of_paren hfirst hfails.seq) ?_
      intro r attrs hopens
      rw [hfeed r attrs hopens, hrefuses _ rfl]
  | @read pair attrs' node mid hread hexpr hlt' hsettled hmoves =>
      have hmoves : ∀ (r : Reader) attrs, r.Opens attrs → r.forest? cs =
          Reader.forest? ⟨r.statements, .paren attrs :: r.frames, .operand attrs' node⟩ mid := by
        intro r attrs hopens
        rw [hfeed r attrs hopens, hmoves _ rfl]
      by_cases hclose : ∃ after, Token.first? mid = some (.parenClose, after)
      · obtain ⟨after, hafter⟩ := hclose
        have hlt'' := Token.first?_length_lt hafter
        have hbody : Reads whole (Rule.body .paren) cs [pair] after :=
          hopen.seq (hread.seq (reads_lit rfl hafter))
        have hblock : Fails whole (.rule .block) cs := fails_block (by simp [hfirst])
        refine .read (reads_primary (by simp [hfirst, Token.atom?])
          (.alt_right hblock (hbody.silent rfl))) (by rw [hexpr.1]; rfl) hexpr.2 (by omega) ?_
        intro r attrs hopens
        rw [hmoves r attrs hopens]
        exact Reader.forest?_of_feed hafter rfl
      · have hclose : ∀ after, Token.first? mid ≠ some (.parenClose, after) := not_exists.1 hclose
        refine .refused hfirst rfl
          (fails_primary_of_paren hfirst (hread.seq_fails (fails_lit rfl hclose))) ?_
        intro r attrs hopens
        rw [hmoves r attrs hopens]
        rcases hsettled with hstuck | hsettled
        · exact hstuck.refuses _ _ _ rfl
        · refine Reader.forest?_eq_none rfl fun t after hafter => ?_
          refine refuses_in_paren _ _ _ _ _ t (hsettled t after hafter) ?_
          rintro rfl
          exact hclose after hafter

theorem operand (cs : List Char) (ih : ∀ cs', cs'.length < cs.length → Expression whole cs') :
    Operand whole cs := by
  by_cases hstarts : ∃ t rest, Token.first? cs = some (t, rest) ∧ t.starts = true ∧ t ≠ .attrsOpen
  · obtain ⟨t, rest, hfirst, ht, hne⟩ := hstarts
    cases t with
    | word | quoted | number | string => exact operand_of_atom hfirst rfl
    | braceOpen => exact operand_of_brace hfirst ih
    | parenOpen => exact operand_of_paren hfirst ih
    | attrsOpen => exact absurd rfl hne
    | _ => exact nomatch ht
  · have habsent : ∀ t rest, Token.first? cs = some (t, rest) → t.starts = true →
        t = .attrsOpen := by
      intro t rest hfirst ht
      by_contra hne
      exact hstarts ⟨t, rest, hfirst, ht, hne⟩
    exact .absent habsent (fails_primary_of_absent habsent)

/-! ### Expressions -/

/-- An operand behind its attributes, with its calls and members. -/
theorem Expression.of_operand {front : List (Pair Rule)} {attrs : List Node} {place : Place}
    {pair : Pair Rule} {node : Node} (hfront : Reads whole (.opt (.rule .attrs)) cs front mid)
    (hle : mid.length ≤ cs.length)
    (hbuild : ∀ parts, buildParts [] none (front ++ parts) = buildParts attrs none parts)
    (hplace : place = .start ∧ attrs = [] ∨ place = .attributed attrs)
    (hreader : ∀ r : Reader, r.place = .start →
      r.forest? cs = Reader.forest? { r with place := place } mid)
    (hread : Reads whole (.rule .primary) mid [pair] rest)
    (hrule : isOperand (ruleOf pair) = true) (hnode : build pair = .ok node)
    (hlt : rest.length < mid.length)
    (hoperand : ∀ (r : Reader) attrs, r.Opens attrs →
      r.forest? mid = Reader.forest? { r with place := .operand attrs node } rest)
    (ih : ∀ cs', cs'.length < rest.length → Expression whole cs') : Expression whole cs := by
  obtain ⟨ps, grow, after, hstar, hle', hsettled, hbuilds, hmoves⟩ := suffixes rest ih
  have hbody : Reads whole (Rule.body .expr) cs (front ++ (pair :: ps)) after :=
    hfront.seq (hread.seq hstar)
  obtain ⟨text, hexpr⟩ := hbody.rule rfl
  have hnode : IsExpr ⟨.expr, text, front ++ (pair :: ps)⟩ (Reader.attach attrs (grow node)) := by
    refine ⟨rfl, build_expr ?_⟩
    rw [hbuild, buildParts_operand hrule hnode, hbuilds]
  refine .read hexpr hnode (by omega) hsettled ?_
  intro r hstart
  have hopens : Reader.Opens { r with place := place } attrs := hplace
  rw [hreader r hstart, hoperand _ attrs hopens, hmoves _ attrs node rfl]

theorem expression_of_attrs (hfirst : Token.first? cs = some (.attrsOpen, rest))
    (ih : ∀ cs', cs'.length < cs.length → Expression whole cs') : Expression whole cs := by
  have hlt := Token.first?_length_lt hfirst
  have hopen : Reads whole (.lit ['@', '[']) cs [] rest := .of_derives (attrsOpen_takes hfirst)
  have hfeed : ∀ r : Reader, r.place = .start →
      r.forest? cs = Reader.forest? ⟨r.statements, .attributes [] :: r.frames, .start⟩ rest := by
    rintro ⟨statements, frames, place⟩ rfl
    refine Reader.forest?_of_feed hfirst ?_
    simp only [Reader.feed, Reader.beginExpr]
  cases attributes rest (fun cs' h => ih cs' (by omega)) with
  | @read ps ns mid hinside hns hlt' hreader =>
      have hbody : Reads whole (Rule.body .attrs) cs ps mid := hopen.seq hinside
      obtain ⟨text, hattrs⟩ := hbody.rule rfl
      have hreader : ∀ r : Reader, r.place = .start →
          r.forest? cs = Reader.forest? { r with place := .attributed ns } mid := by
        intro r hstart
        rw [hfeed r hstart, hreader ()]
      cases operand mid (fun cs' h => ih cs' (by omega)) with
      | absent habsent hfails =>
          refine .refused hfirst rfl (Fails.rule (.inl rfl) (hattrs.opt.seq_fails hfails.seq)) ?_
          intro r hstart
          rw [hreader r hstart]
          refine Reader.forest?_eq_none (by simp [Reader.finish?]) fun t after hafter => ?_
          have ht := habsent t after hafter
          cases t with
          | word | quoted | number | string | braceOpen | parenOpen => cases ht rfl
          | _ => rfl
      | refused _ _ hfails hrefuses =>
          refine .refused hfirst rfl (Fails.rule (.inl rfl) (hattrs.opt.seq_fails hfails.seq)) ?_
          intro r hstart
          rw [hreader r hstart, hrefuses _ ns (.inr rfl)]
      | read hread hrule hnode hlt'' hoperand =>
          refine .of_operand hattrs.opt (by omega) ?_ (.inr rfl) hreader hread hrule hnode hlt''
            hoperand fun cs' h => ih cs' (by omega)
          intro parts
          exact buildParts_attrs (buildAll_of_isExpr hns) none
  | refused hfails hrefuses =>
      have hattrs : Fails whole (.rule .attrs) cs := Fails.rule (.inl rfl) (hopen.seq_fails hfails)
      have hprimary : Fails whole (.rule .primary) cs :=
        fails_primary_of_absent fun t after hafter _ => Token.first?_unique hafter hfirst
      refine .refused hfirst rfl (fails_expr hattrs hprimary) ?_
      intro r hstart
      rw [hfeed r hstart, hrefuses ()]

/-- **Every text has one of the three outcomes.** -/
theorem expression (whole cs : List Char) : Expression whole cs := by
  have ih : ∀ cs', cs'.length < cs.length → Expression whole cs' :=
    fun cs' _ => expression whole cs'
  by_cases hattrs : ∃ rest, Token.first? cs = some (.attrsOpen, rest)
  · obtain ⟨rest, hfirst⟩ := hattrs
    exact expression_of_attrs hfirst ih
  have hne : ∀ rest, Token.first? cs ≠ some (.attrsOpen, rest) := not_exists.1 hattrs
  have hattrs : Fails whole (.rule .attrs) cs := fails_attrs hne
  cases operand cs ih with
  | absent habsent hfails =>
      refine .absent ?_ (fails_expr hattrs hfails)
      intro t rest hfirst
      by_contra ht
      obtain rfl := habsent t rest hfirst (by simpa using ht)
      exact hne rest hfirst
  | refused hfirst hstarts hfails hrefuses =>
      exact .refused hfirst hstarts (fails_expr hattrs hfails)
        fun r hstart => hrefuses r [] (Reader.opens_start hstart)
  | read hread hrule hnode hlt hoperand =>
      refine .of_operand hattrs.opt le_rfl (fun _ => rfl) (.inl ⟨rfl, rfl⟩) ?_ hread hrule hnode hlt
        hoperand fun cs' h => ih cs' (by omega)
      rintro ⟨statements, frames, place⟩ rfl
      rfl
termination_by cs.length

end Notation

end MacroForest
