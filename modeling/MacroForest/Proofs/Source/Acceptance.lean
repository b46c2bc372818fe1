/-
**The parser accepts exactly the grammar.**

A text is a program if the rule for programs takes it from the first character to the last, and its
forest is then the fold over the pairs that the rule leaves.  The parser gives that forest, and it
gives an error for all other texts.

The fold reads numbers from the text of pairs and cuts off delimiters, and it has a defect for each
way in which this can go wrong.  None of them occurs: what the rules take has the form that the fold
asks for.

Main results:

* `MacroForest.Notation.program` — programs, by the grammar and by the reader;
* `MacroForest.Notation.parse_iff_grammar` — **parsing is deriving a program and folding it**, and
  the fold has no defects.
-/

import MacroForest.Proofs.Source.Expressions

set_option relaxedAutoImplicit false
set_option autoImplicit false

namespace MacroForest

namespace Notation

open Peg

variable {whole cs rest : List Char}

/-! ### Programs -/

/-- The rule for programs without its first part. -/
def programBody : Expr Rule :=
  .seq Rule.semicolons (.seq (.star statement) (.rule .eoi))

theorem program_derives {result : Result Rule}
    (h : Derives grammar whole .loose programBody (skipBlanks whole) result) :
    Derives grammar whole .loose (Rule.body .program) whole result := by
  have hfirst : Derives grammar whole .loose .first whole _ := .first whole
  rw [if_pos rfl] at hfirst
  have hbody := Derives.seq hfirst (skipped_derives whole) h
  cases result with
  | none => exact hbody
  | some x => exact hbody

theorem eoi_derives (h : skipBlanks cs = []) :
    Derives grammar whole .loose (.rule .eoi) (skipBlanks cs) (some ([⟨.eoi, [], []⟩], [])) := by
  have hlast : Derives grammar whole ((grammar.kind .eoi).inside .loose) (grammar.body .eoi) []
      (some ([], [])) := .last []
  have hrule : Derives grammar whole .loose (.rule .eoi) [] _ := .rule hlast
  rw [h]
  exact hrule

theorem eoi_fails (h : skipBlanks cs ≠ []) : Fails whole (.rule .eoi) cs := by
  have hlast : Derives grammar whole .loose .last (skipBlanks cs) _ := .last _
  rw [if_neg h] at hlast
  exact .ruleFails hlast

theorem ruleOf_of_isExpr {ps : List (Pair Rule)} {ns : List Node} (h : List.Forall₂ IsExpr ps ns) :
    ∀ pair ∈ ps, ruleOf pair = .expr := by
  induction h with
  | nil => exact nofun
  | cons hp _ ih =>
      intro pair hpair
      rcases List.mem_cons.1 hpair with rfl | hpair
      · exact hp.1
      · exact ih pair hpair

/-- The end of the text leaves a pair that the fold drops. -/
theorem forestOf_program {ps : List (Pair Rule)} {ns : List Node} (h : List.Forall₂ IsExpr ps ns)
    (text text' : List Char) :
    forestOf [⟨.program, text, ps ++ [⟨.eoi, text', []⟩]⟩] = .ok ns := by
  have hkept : ps.filter (fun pair => ruleOf pair ≠ .eoi) = ps := by
    rw [List.filter_eq_self]
    intro pair hpair
    simp [ruleOf_of_isExpr h pair hpair]
  have hfilter : (ps ++ [(⟨.eoi, text', []⟩ : Pair Rule)]).filter
      (fun pair => ruleOf pair ≠ .eoi) = ps := by
    rw [List.filter_append, hkept]
    simp [ruleOf]
  rw [forestOf, hfilter, buildAll_of_isExpr h]

/-- **Programs, by the grammar and by the reader**: both find the same forest, or both fail. -/
theorem program (text : List Char) :
    (∃ pairs forest, Derives grammar text .loose (.rule .program) text (some (pairs, [])) ∧
      forestOf pairs = .ok forest ∧ Reader.initial.forest? text = some forest) ∨
    (Derives grammar text .loose (.rule .program) text none ∧
      Reader.initial.forest? text = none) := by
  obtain ⟨first, hreads, -, hend, hstate⟩ := semicolons text text
  have hinitial : Reader.initial.forest? text = Reader.forest? ⟨[], [], .start⟩ first :=
    hstate _ sequences_forest []
  cases statements first hend (fun cs' _ => expression text cs') with
  | @ended ps ns rest hstar hns _ hlast hmore =>
      have hreader : Reader.initial.forest? text =
          Reader.forest? ⟨ns.reverse, [], .start⟩ rest := by
        rw [hinitial, hmore _ sequences_forest [], List.append_nil]
      by_cases hempty : skipBlanks rest = []
      · have hbody := program_derives (hreads.then (hstar.then (eoi_derives hempty)))
        refine .inl ⟨_, ns, .rule hbody, forestOf_program hns _ _, ?_⟩
        rw [hreader, Reader.forest?_of_none (Token.first?_of_empty hempty), if_pos hempty]
        exact congrArg some (List.reverse_reverse ns)
      · have hbody := program_derives (hreads.then (hstar.then (eoi_fails hempty)))
        refine .inr ⟨.ruleFails hbody, ?_⟩
        rw [hreader]
        cases hfirst : Token.first? rest with
        | none => rw [Reader.forest?_of_none hfirst, if_neg hempty]
        | some x =>
            obtain ⟨t, after⟩ := x
            obtain ⟨hstarts, hsemicolon⟩ := hlast t after hfirst
            rw [Reader.forest?_of_first? hfirst]
            cases t with
            | semicolon => exact absurd rfl hsemicolon
            | word | quoted | number | string | attrsOpen | braceOpen | parenOpen =>
                exact nomatch hstarts
            | _ => rfl
  | @broken ps rest after t hstar hfirst _ hmore =>
      have hne : skipBlanks rest ≠ [] := by
        intro hempty
        exact nomatch (Token.first?_of_empty hempty).symm.trans hfirst
      have hbody := program_derives (hreads.then (hstar.then (eoi_fails hne)))
      refine .inr ⟨.ruleFails hbody, ?_⟩
      rw [hinitial, hmore _ sequences_forest []]

/-! ### The texts of pairs -/

/-- **What the rule for numbers takes is a number** in the common format. -/
theorem number_matched {ps : List (Pair Rule)}
    (h : Derives grammar whole .loose (.rule .number) cs (some (ps, rest))) :
    ∃ text value, cs = text ++ rest ∧ ps = [⟨.number, text, []⟩] ∧
      Number.ofText? text = some value := by
  by_cases hnext : ∃ value after, Token.next? cs = some (.number value, after)
  · obtain ⟨value, after, hnext⟩ := hnext
    obtain ⟨text, hcs, hvalue, hread⟩ := number_takes hnext
    obtain ⟨rfl, rfl⟩ := Prod.mk.inj (Option.some.inj (h.unique hread))
    exact ⟨text, value, hcs, rfl, hvalue⟩
  · exact nomatch h.unique (number_fails fun value after hnext' => hnext ⟨value, after, hnext'⟩)

/-- **What the rule for strings takes stands between two quotes**, and each backslash in it takes a
character with it. -/
theorem string_matched {ps : List (Pair Rule)}
    (h : Derives grammar whole .loose (.rule .string) cs (some (ps, rest))) :
    ∃ body value, cs = '"' :: (body ++ '"' :: rest) ∧
      ps = [⟨.string, '"' :: (body ++ ['"']), []⟩] ∧ unescape body = .ok value := by
  by_cases hnext : ∃ value after, Token.next? cs = some (.string value, after)
  · obtain ⟨value, after, hnext⟩ := hnext
    obtain ⟨body, hcs, hvalue, hread⟩ := string_takes hnext
    obtain ⟨rfl, rfl⟩ := Prod.mk.inj (Option.some.inj (h.unique hread))
    exact ⟨body, value.toList, hcs, rfl, hvalue⟩
  · exact nomatch h.unique (string_fails fun value after hnext' => hnext ⟨value, after, hnext'⟩)

/-- **What the rule for quoted names takes stands between two quotes.** -/
theorem quotedIdent_matched {ps : List (Pair Rule)}
    (h : Derives grammar whole .tight (.rule .quotedIdent) cs (some (ps, rest))) :
    ∃ body, cs = '\x60' :: (body ++ '\x60' :: rest) ∧
      ps = [⟨.quotedIdent, '\x60' :: (body ++ ['\x60']), []⟩] := by
  by_cases hquote : ∃ tail body after, cs = '\x60' :: tail ∧ quotedBody tail = some (body, after)
  · obtain ⟨tail, body, after, rfl, hbody⟩ := hquote
    obtain ⟨rfl, rfl⟩ := Prod.mk.inj (Option.some.inj (h.unique (quotedIdent_takes hbody)))
    exact ⟨body, by rw [eq_append_of_quotedBody hbody], rfl⟩
  · refine nomatch h.unique (quotedIdent_fails fun tail hcs => ?_)
    rw [Option.eq_none_iff_forall_ne_some]
    rintro ⟨body, after⟩ hbody
    exact hquote ⟨tail, body, after, hcs, hbody⟩

/-! ### Parsing -/

/-- **Parsing is deriving a program and folding it.**  A text is parsed as a forest exactly if the
rule for programs takes all of it and the forest is the fold over what the rule leaves; there is a
parse error exactly if the rule fails.  The fold of a program has no defect: numbers are numbers,
and strings and quoted names have their delimiters, with no backslash left over at the end of a
string. -/
theorem parse_iff_grammar (text : String) :
    (∀ forest, parse text = .ok forest ↔
      ∃ pairs, Derives grammar text.toList .loose (.rule .program) text.toList (some (pairs, [])) ∧
        forestOf pairs = .ok forest) ∧
    ((∃ error, parse text = .error error) ↔
      Derives grammar text.toList .loose (.rule .program) text.toList none) ∧
    (∀ pairs rest,
      Derives grammar text.toList .loose (.rule .program) text.toList (some (pairs, rest)) →
      rest = [] ∧ ∃ forest, forestOf pairs = .ok forest ∧ parse text = .ok forest) ∧
    (∀ cs ps rest, Derives grammar text.toList .loose (.rule .number) cs (some (ps, rest)) →
      ∃ matched value, cs = matched ++ rest ∧ ps = [⟨.number, matched, []⟩] ∧
        Number.ofText? matched = some value) ∧
    (∀ cs ps rest, Derives grammar text.toList .loose (.rule .string) cs (some (ps, rest)) →
      ∃ body value, cs = '"' :: (body ++ '"' :: rest) ∧
        ps = [⟨.string, '"' :: (body ++ ['"']), []⟩] ∧ unescape body = .ok value) ∧
    (∀ cs ps rest, Derives grammar text.toList .tight (.rule .quotedIdent) cs (some (ps, rest)) →
      ∃ body, cs = '\x60' :: (body ++ '\x60' :: rest) ∧
        ps = [⟨.quotedIdent, '\x60' :: (body ++ ['\x60']), []⟩]) := by
  refine ⟨?_, ?_, ?_, fun _ _ _ => number_matched, fun _ _ _ => string_matched,
    fun _ _ _ => quotedIdent_matched⟩
  · intro forest
    rw [parse_eq_ok_iff]
    rcases program text.toList with ⟨pairs, found, hderives, hfold, hreader⟩ | ⟨hfails, hreader⟩
    · constructor
      · intro h
        obtain rfl := Option.some.inj (hreader.symm.trans h)
        exact ⟨pairs, hderives, hfold⟩
      · rintro ⟨pairs', hderives', hfold'⟩
        obtain ⟨⟩ := hderives.unique hderives'
        obtain ⟨⟩ := hfold.symm.trans hfold'
        exact hreader
    · constructor
      · intro h
        exact nomatch hreader.symm.trans h
      · rintro ⟨pairs', hderives', -⟩
        exact nomatch hfails.unique hderives'
  · rcases program text.toList with ⟨pairs, found, hderives, -, hreader⟩ | ⟨hfails, hreader⟩
    · constructor
      · rintro ⟨error, herror⟩
        exact nomatch herror.symm.trans (parse_eq_ok_iff.2 hreader)
      · intro h
        exact nomatch hderives.unique h
    · refine ⟨fun _ => hfails, fun _ => ?_⟩
      cases hparse : parse text with
      | error error => exact ⟨error, rfl⟩
      | ok forest => exact nomatch hreader.symm.trans (parse_eq_ok_iff.1 hparse)
  · intro pairs rest h
    rcases program text.toList with ⟨pairs', forest, hderives, hfold, hreader⟩ | ⟨hfails, -⟩
    · obtain ⟨⟩ := hderives.unique h
      exact ⟨rfl, forest, hfold, parse_eq_ok_iff.2 hreader⟩
    · exact nomatch hfails.unique h

/-- Two statements side by side, the first one with attributes inside and outside of parentheses and
the second one with a comma at the end of its arguments. -/
def nestedText : String := "@[a] (@[b] f) // two\n g!(\"\\\"\",)"

/-- Its forest. -/
def nestedForest : Forest :=
  [.atom [.ident "a", .ident "b"] .plain (.ident "f"), .call [] .bang (.ident "g") [.string "\""]]

theorem parse_iff_grammar_nested :
    (parse nestedText = .ok nestedForest ∧
      ∃ pairs, Derives grammar nestedText.toList .loose (.rule .program) nestedText.toList
          (some (pairs, [])) ∧
        forestOf pairs = .ok nestedForest ∧
        ∃ forest, forestOf pairs = .ok forest ∧ parse nestedText = .ok forest) ∧
    (∃ ps, Derives grammar nestedText.toList .loose (.rule .number) ['-', '1'] (some (ps, [])) ∧
      ∃ matched value, ['-', '1'] = matched ++ [] ∧ ps = [⟨.number, matched, []⟩] ∧
        Number.ofText? matched = some value) ∧
    (∃ ps, Derives grammar nestedText.toList .loose (.rule .string) ['"', '\\', '"', '"']
        (some (ps, [])) ∧
      ∃ body value, ['"', '\\', '"', '"'] = '"' :: (body ++ ['"']) ∧
        ps = [⟨.string, '"' :: (body ++ ['"']), []⟩] ∧ unescape body = .ok value) ∧
    (∃ ps, Derives grammar nestedText.toList .tight (.rule .quotedIdent) ['\x60', ' ', '\x60']
        (some (ps, [])) ∧
      ∃ body, ['\x60', ' ', '\x60'] = '\x60' :: (body ++ ['\x60']) ∧
        ps = [⟨.quotedIdent, '\x60' :: (body ++ ['\x60']), []⟩]) := by
  obtain ⟨hparse, -, hfold, hnumber, hstring, hquoted⟩ := parse_iff_grammar nestedText
  refine ⟨?_, ?_, ?_, ?_⟩
  · have hnested : parse nestedText = .ok nestedForest := by
      rw [parse_eq_ok_iff]
      -- one step for each of the tokens
      repeat rw [Reader.forest?_of_feed (by rfl) (by rfl)]
      rw [Reader.forest?_of_none (by rfl)]
      rfl
    obtain ⟨pairs, hderives, hforest⟩ := (hparse nestedForest).1 hnested
    exact ⟨hnested, pairs, hderives, hforest, (hfold pairs [] hderives).2⟩
  · have hnext : Token.next? ['-', '1'] = some (.number (.ofParts true ['1'] [] 0), []) := rfl
    obtain ⟨text, -, -, hderives⟩ := number_takes hnext
    exact ⟨_, hderives, hnumber _ _ _ hderives⟩
  · have hnext : Token.next? ['"', '\\', '"', '"'] = some (.string "\"", []) := rfl
    obtain ⟨raw, -, -, hderives⟩ := string_takes hnext
    exact ⟨_, hderives, hstring _ _ _ hderives⟩
  · have hbody : quotedBody [' ', '\x60'] = some ([' '], []) := rfl
    exact ⟨_, quotedIdent_takes hbody, hquoted _ _ _ (quotedIdent_takes hbody)⟩

end Notation

end MacroForest
