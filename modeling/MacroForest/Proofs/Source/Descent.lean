/-
**Lists of expressions, by the grammar and by the reader.**

The grammar descends into an expression rule by rule; the reader goes through it token by token
with a stack of open constructs.  Both are followed through a text at the same time.  At a place
where an expression can begin there are three possibilities: no expression begins there, one begins
there and goes wrong, or there is one.  In each of them the grammar has a result, and the reader
does the same from all states that can stand there, whatever constructs are open below.

This module takes the outcome for shorter texts as given and draws the outcome for lists from it.
There are lists with commas and lists of statements.  In a list with commas, the one at the end is
tried first as one between two members, and then taken back.

Main definitions:

* `MacroForest.Notation.Expression` — **the three outcomes at the start of an expression**;
* `MacroForest.Notation.Settled` — an expression ends here, on both sides;
* `MacroForest.Notation.Encloses` — the inside of a bracket, on both sides.

Main results:

* `MacroForest.Notation.items`, `MacroForest.Notation.statements` — the members of the two kinds of
  lists;
* `MacroForest.Notation.attributes`, `MacroForest.Notation.args`, `MacroForest.Notation.blockBody` —
  **the three brackets**;
* `MacroForest.Notation.fails_paren` — an expression in parentheses is an argument list as well.
-/

import MacroForest.Proofs.Source.Reading

set_option relaxedAutoImplicit false
set_option autoImplicit false

namespace MacroForest

namespace Token

/-- The token can begin an expression. -/
def starts : Token → Bool
  | .word _ | .quoted _ | .number _ | .string _ | .attrsOpen | .braceOpen | .parenOpen => true
  | _ => false

/-- The token can go on with an operand. -/
def follows : Token → Bool
  | .parenOpen | .bang | .dot => true
  | _ => false

end Token

namespace Notation

open Peg

variable {whole cs mid rest : List Char}

/-! ### The fold over expressions -/

/-- The pair of an expression, and its node. -/
def IsExpr (pair : Pair Rule) (node : Node) : Prop := ruleOf pair = .expr ∧ build pair = .ok node

theorem buildAll_of_isExpr {ps : List (Pair Rule)} {ns : List Node}
    (h : List.Forall₂ IsExpr ps ns) : buildAll ps = .ok ns := by
  induction h with
  | nil => rfl
  | cons hp _ ih =>
      rw [buildAll, hp.2, ih]
      rfl

theorem buildArgs_of_isExpr {ps : List (Pair Rule)} {ns : List Node}
    (h : List.Forall₂ IsExpr ps ns) (style : Style) : buildArgs style ps = .ok (style, ns) := by
  induction h with
  | nil => rfl
  | @cons pair _ ps _ hp _ ih =>
      obtain ⟨rule, text, inner⟩ := pair
      obtain ⟨rfl, hbuild⟩ := hp
      rw [buildArgs, hbuild, ih]
      · rfl
      · exact fun _ _ h => nomatch h

/-! ### Outcomes -/

/-- An operand has been read and cannot go on, although the next token says that it does. -/
structure Stuck (whole cs : List Char) : Prop where
  /-- The next token. -/
  follows : ∃ t rest, Token.first? cs = some (t, rest) ∧ t.follows = true
  /-- No expression begins here either. -/
  fails : Fails whole (.rule .expr) cs
  /-- The reader refuses the text. -/
  refuses : ∀ (r : Reader) (attrs : List Node) (node : Node), r.place = .operand attrs node →
    r.forest? cs = none

/-- An expression ends here. -/
def Settled (whole cs : List Char) : Prop :=
  Stuck whole cs ∨ ∀ t rest, Token.first? cs = some (t, rest) → t.follows = false

/-- **The three outcomes at the start of an expression.** -/
inductive Expression (whole cs : List Char) : Prop
  /-- No expression begins here. -/
  | absent : (∀ t rest, Token.first? cs = some (t, rest) → t.starts = false) →
      Fails whole (.rule .expr) cs → Expression whole cs
  /-- An expression begins here and goes wrong. -/
  | refused {t : Token} {rest : List Char} : Token.first? cs = some (t, rest) → t.starts = true →
      Fails whole (.rule .expr) cs → (∀ r : Reader, r.place = .start → r.forest? cs = none) →
      Expression whole cs
  /-- There is an expression. -/
  | read {pair : Pair Rule} {attrs : List Node} {node : Node} {rest : List Char} :
      Reads whole (.rule .expr) cs [pair] rest → IsExpr pair (Reader.attach attrs node) →
      rest.length < cs.length → Settled whole rest →
      (∀ r : Reader, r.place = .start →
        r.forest? cs = Reader.forest? { r with place := .operand attrs node } rest) →
      Expression whole cs

/-- **The inside of a bracket**, up to the closing one: an expression of the grammar, and the reader
with a frame for the bracket, that both read the same nodes or both fail. -/
inductive Encloses (whole : List Char) (e : Expr Rule) (cs : List Char) {ι : Type}
    (frame : ι → Frame) (place : ι → List Node → Place) : Prop
  | read {ps : List (Pair Rule)} {ns : List Node} {rest : List Char} : Reads whole e cs ps rest →
      List.Forall₂ IsExpr ps ns → rest.length < cs.length →
      (∀ i statements frames, Reader.forest? ⟨statements, frame i :: frames, .start⟩ cs =
        Reader.forest? ⟨statements, frames, place i ns⟩ rest) → Encloses whole e cs frame place
  | refused : Fails whole e cs →
      (∀ i statements frames, Reader.forest? ⟨statements, frame i :: frames, .start⟩ cs = none) →
      Encloses whole e cs frame place

/-- An expression does not both take something and fail. -/
theorem Fails.not_reads {e : Expr Rule} {ps : List (Pair Rule)} (h : Fails whole e cs) :
    ¬ Reads whole e cs ps rest := by
  rintro ⟨rest', -, h'⟩
  exact nomatch h.unique h'

/-! ### Lists with commas -/

/-- A construct whose members stand between commas: the frame with the members so far, last first,
the closing token, and the place that the construct leads to. -/
structure Lists (frame : List Node → Frame) (ending : Token) (place : List Node → Place) : Prop
    extends Reader.Gathers frame .comma ending place where
  /-- The construct can end after a comma. -/
  trailing : ∀ statements frames a done,
    Reader.feed ⟨statements, frame (a :: done) :: frames, .start⟩ ending =
      some ⟨statements, frames, place (a :: done).reverse⟩
  /-- No other token ends a member. -/
  refuses : ∀ statements frames done attrs node (t : Token), t.follows = false → t ≠ .comma →
    t ≠ ending → Reader.feed ⟨statements, frame done :: frames, .operand attrs node⟩ t = none
  /-- No other token stands where a member can begin. -/
  refusesStart : ∀ statements frames done (t : Token), t.starts = false → t ≠ ending →
    Reader.feed ⟨statements, frame done :: frames, .start⟩ t = none

theorem lists_attributes : Lists .attributes .attrsClose .attributed where
  toGathers := Reader.gathers_attributes
  trailing := fun _ _ _ _ => rfl
  refuses := by
    intro statements frames done attrs node t hfollows hcomma hending
    cases t with
    | comma => exact absurd rfl hcomma
    | attrsClose => exact absurd rfl hending
    | parenOpen | bang | dot => exact nomatch hfollows
    | _ => rfl
  refusesStart := by
    intro statements frames done t hstarts hending
    cases t with
    | attrsClose => exact absurd rfl hending
    | word | quoted | number | string | attrsOpen | braceOpen | parenOpen => exact nomatch hstarts
    | _ => cases done <;> rfl

theorem lists_arguments (attrs : List Node) (style : Style) (target : Node) :
    Lists (.arguments attrs style target) .parenClose
      fun args => .operand attrs (.call [] style target args) where
  toGathers := Reader.gathers_arguments attrs style target
  trailing := fun _ _ _ _ => rfl
  refuses := by
    intro statements frames done attrs node t hfollows hcomma hending
    cases t with
    | comma => exact absurd rfl hcomma
    | parenClose => exact absurd rfl hending
    | parenOpen | bang | dot => exact nomatch hfollows
    | _ => rfl
  refusesStart := by
    intro statements frames done t hstarts hending
    cases t with
    | parenClose => exact absurd rfl hending
    | word | quoted | number | string | attrsOpen | braceOpen | parenOpen => exact nomatch hstarts
    | _ => rfl

/-- A token that closes a list is none that begins or carries on a member. -/
structure Closes (t : Token) : Prop where
  starts : t.starts = false
  follows : t.follows = false
  ne_comma : t ≠ .comma

/-- A comma and a member. -/
def further : Expr Rule := .seq (.lit [',']) (.rule .expr)

/-- **The members of a list after the first one**, up to the place where it has to be closed. -/
inductive Items (whole : List Char) (close : Token) (cs : List Char) : Prop
  | closed {ps : List (Pair Rule)} {ns : List Node} {mid rest after : List Char} :
      Reads whole (.star further) cs ps mid → Reads whole (.opt (.lit [','])) mid [] rest →
      List.Forall₂ IsExpr ps ns → Token.first? rest = some (close, after) →
      after.length < cs.length →
      (∀ frame place, Lists frame close place → ∀ statements frames done attrs node,
        Reader.forest? ⟨statements, frame done :: frames, .operand attrs node⟩ cs =
          Reader.forest? ⟨statements, frames,
            place (done.reverse ++ Reader.attach attrs node :: ns)⟩ after) →
      Items whole close cs
  | unclosed {ps : List (Pair Rule)} {mid rest : List Char} :
      Reads whole (.star further) cs ps mid → Reads whole (.opt (.lit [','])) mid [] rest →
      (∀ after, Token.first? rest ≠ some (close, after)) →
      (∀ frame place, Lists frame close place → ∀ statements frames done attrs node,
        Reader.forest? ⟨statements, frame done :: frames, .operand attrs node⟩ cs = none) →
      Items whole close cs

/-- Without a comma, there are no further members. -/
theorem no_further (whole : List Char) (h : ∀ after, Token.first? cs ≠ some (.comma, after)) :
    Reads whole (.star further) cs [] cs ∧ Reads whole (.opt (.lit [','])) cs [] cs := by
  have hcomma : Fails whole (.lit [',']) cs := fails_lit rfl h
  exact ⟨Fails.star hcomma.seq, hcomma.opt⟩

/-- A comma without a member behind it is taken as the last one. -/
theorem last_comma (h : Token.first? cs = some (.comma, rest))
    (hexpr : Fails whole (.rule .expr) rest) :
    Reads whole (.star further) cs [] cs ∧ Reads whole (.opt (.lit [','])) cs [] rest := by
  have hcomma : Reads whole (.lit [',']) cs [] rest := reads_lit rfl h
  exact ⟨Fails.star (hcomma.seq_fails hexpr), hcomma.opt⟩

theorem items {close : Token} (hclose : Closes close) (cs : List Char)
    (ih : ∀ cs', cs'.length < cs.length → Expression whole cs') (hsettled : Settled whole cs) :
    Items whole close cs := by
  rcases hsettled with hstuck | hsettled
  · obtain ⟨t, rest, hfirst, ht⟩ := hstuck.follows
    have hne : ∀ t', t'.follows = false → ∀ after, Token.first? cs ≠ some (t', after) := by
      intro t' ht' after h
      obtain rfl := Token.first?_unique hfirst h
      exact absurd ht (by simp [ht'])
    obtain ⟨hstar, hopt⟩ := no_further whole (hne .comma rfl)
    exact .unclosed hstar hopt (hne close hclose.follows)
      fun _ _ _ _ _ _ _ _ => hstuck.refuses _ _ _ rfl
  cases hfirst : Token.first? cs with
  | none =>
      obtain ⟨hstar, hopt⟩ := no_further whole (show ∀ after, Token.first? cs ≠ _ by simp [hfirst])
      exact .unclosed hstar hopt (by simp [hfirst])
        fun _ _ _ _ _ _ _ _ => Reader.forest?_eq_none rfl (by simp [hfirst])
  | some x =>
      obtain ⟨t, rest⟩ := x
      have hlt := Token.first?_length_lt hfirst
      by_cases hcomma : t = .comma
      · subst hcomma
        have hmember : ∀ frame place, Lists frame close place → ∀ statements frames done attrs node,
            Reader.forest? ⟨statements, frame done :: frames, .operand attrs node⟩ cs =
              Reader.forest? ⟨statements, frame (Reader.attach attrs node :: done) :: frames,
                .start⟩ rest :=
          fun _ _ h _ _ _ _ _ => Reader.forest?_of_feed hfirst (h.sep _ _ _ _ _)
        cases ih rest hlt with
        | absent habsent hfails =>
            obtain ⟨hstar, hopt⟩ := last_comma hfirst hfails
            by_cases hend : ∃ after, Token.first? rest = some (close, after)
            · obtain ⟨after, hafter⟩ := hend
              have hlt' := Token.first?_length_lt hafter
              refine .closed hstar hopt .nil hafter (by omega) ?_
              intro frame place h statements frames done attrs node
              rw [hmember _ _ h, Reader.forest?_of_feed hafter (h.trailing _ _ _ _),
                List.reverse_cons]
            · refine .unclosed hstar hopt (not_exists.1 hend) ?_
              intro frame place h statements frames done attrs node
              rw [hmember _ _ h]
              refine Reader.forest?_eq_none rfl fun t' after hafter => ?_
              refine h.refusesStart _ _ _ _ (habsent t' after hafter) ?_
              rintro rfl
              exact hend ⟨after, hafter⟩
        | @refused t' after hafter hstarts hfails hrefuses =>
            obtain ⟨hstar, hopt⟩ := last_comma hfirst hfails
            refine .unclosed hstar hopt ?_ ?_
            · intro after' h
              obtain rfl := Token.first?_unique hafter h
              exact absurd hstarts (by simp [hclose.starts])
            · intro frame place h statements frames done attrs node
              rw [hmember _ _ h]
              exact hrefuses _ rfl
        | @read pair attrs' node' rest' hread hexpr hlt' hsettled' hmoves =>
            have hitem : Reads whole further cs [pair] rest' := .seq (reads_lit rfl hfirst) hread
            have hnext : ∀ frame place, Lists frame close place →
                ∀ statements frames done attrs node,
                Reader.forest? ⟨statements, frame done :: frames, .operand attrs node⟩ cs =
                  Reader.forest? ⟨statements, frame (Reader.attach attrs node :: done) :: frames,
                    .operand attrs' node'⟩ rest' := by
              intro frame place h statements frames done attrs node
              rw [hmember _ _ h, hmoves _ rfl]
            cases items hclose rest' (fun cs' h => ih cs' (by omega)) hsettled' with
            | closed hstar hopt hns hafter hlt'' hlisted =>
                refine .closed (hitem.star_cons hstar) hopt (.cons hexpr hns) hafter (by omega) ?_
                intro frame place h statements frames done attrs node
                rw [hnext _ _ h, hlisted _ _ h, List.reverse_cons, List.append_assoc]
                rfl
            | unclosed hstar hopt hend hlisted =>
                refine .unclosed (hitem.star_cons hstar) hopt hend ?_
                intro frame place h statements frames done attrs node
                rw [hnext _ _ h, hlisted _ _ h]
      · have hne : ∀ after, Token.first? cs ≠ some (.comma, after) :=
          fun after h => hcomma (Token.first?_unique hfirst h)
        obtain ⟨hstar, hopt⟩ := no_further whole hne
        by_cases hend : t = close
        · subst hend
          refine .closed hstar hopt .nil hfirst hlt ?_
          intro frame place h statements frames done attrs node
          rw [Reader.forest?_of_feed hfirst (h.close _ _ _ _ _), List.reverse_cons]
        · refine .unclosed hstar hopt (fun after h => hend (Token.first?_unique hfirst h)) ?_
          intro frame place h statements frames done attrs node
          rw [Reader.forest?_of_first? hfirst,
            h.refuses _ _ _ _ _ t (hsettled t rest hfirst) hcomma hend, Option.bind_none]
termination_by cs.length

/-- The members of an attribute list, of which there is one at least. -/
theorem attributes (cs : List Char) (ih : ∀ cs', cs'.length ≤ cs.length → Expression whole cs') :
    Encloses whole (.seqs (Rule.items ++ [.lit [']']])) cs (fun _ : Unit => .attributes [])
      fun _ => .attributed := by
  have hclose : Closes .attrsClose := ⟨rfl, rfl, nofun⟩
  cases ih cs le_rfl with
  | absent habsent hfails =>
      refine .refused hfails.seq fun _ statements frames => ?_
      refine Reader.forest?_eq_none rfl fun t rest hfirst => ?_
      have hstarts := habsent t rest hfirst
      cases t with
      | word | quoted | number | string | attrsOpen | braceOpen | parenOpen => exact nomatch hstarts
      | _ => rfl
  | refused _ _ hfails hrefuses => exact .refused hfails.seq fun _ _ _ => hrefuses _ rfl
  | @read pair attrs node rest hread hexpr hlt hsettled hmoves =>
      cases items hclose rest (fun cs' h => ih cs' (by omega)) hsettled with
      | @closed ps _ _ _ after hstar hopt hns hafter hlt' hlisted =>
          have hlist := hread.seq (hstar.seq (hopt.seq (reads_lit (c := ']') rfl hafter)))
          rw [List.append_nil, List.append_nil] at hlist
          refine .read hlist (.cons hexpr hns) (by omega) fun _ statements frames => ?_
          rw [hmoves _ rfl, hlisted _ _ lists_attributes]
          rfl
      | unclosed hstar hopt hend hlisted =>
          refine .refused (hread.seq_fails (hstar.seq_fails (hopt.seq_fails (fails_lit rfl hend))))
            fun _ statements frames => ?_
          rw [hmoves _ rfl, hlisted _ _ lists_attributes]

/-- The arguments of a call, of which there may be none, and the closing parenthesis. -/
def arguments : Expr Rule := .seq (.opt (.seqs Rule.items)) (.lit [')'])

/-- The frame of an argument list in which nothing has been read. -/
def argumentsFrame (call : List Node × Style × Node) : Frame :=
  .arguments call.1 call.2.1 call.2.2 []

/-- The call of some arguments. -/
def callPlace (call : List Node × Style × Node) (args : List Node) : Place :=
  .operand call.1 (.call [] call.2.1 call.2.2 args)

theorem args (cs : List Char) (ih : ∀ cs', cs'.length ≤ cs.length → Expression whole cs') :
    Encloses whole arguments cs argumentsFrame callPlace := by
  have hclose : Closes .parenClose := ⟨rfl, rfl, nofun⟩
  cases ih cs le_rfl with
  | absent habsent hfails =>
      have hnone : Reads whole (.opt (.seqs Rule.items)) cs [] cs := Fails.opt hfails.seq
      by_cases hend : ∃ rest, Token.first? cs = some (.parenClose, rest)
      · obtain ⟨rest, hfirst⟩ := hend
        exact .read (hnone.seq (reads_lit rfl hfirst)) .nil (Token.first?_length_lt hfirst)
          fun _ _ _ => Reader.forest?_of_feed hfirst rfl
      · have hend : ∀ rest, Token.first? cs ≠ some (.parenClose, rest) := not_exists.1 hend
        refine .refused (hnone.seq_fails (fails_lit rfl hend)) fun call statements frames => ?_
        refine Reader.forest?_eq_none rfl fun t rest hfirst => ?_
        refine (lists_arguments _ _ _).refusesStart _ _ _ _ (habsent t rest hfirst) ?_
        rintro rfl
        exact hend rest hfirst
  | refused hfirst hstarts hfails hrefuses =>
      have hnone : Reads whole (.opt (.seqs Rule.items)) cs [] cs := Fails.opt hfails.seq
      refine .refused (hnone.seq_fails (fails_lit_of_ne rfl hfirst ?_)) fun _ _ _ => hrefuses _ rfl
      rintro rfl
      exact nomatch hstarts
  | @read pair attrs node rest hread hexpr hlt hsettled hmoves =>
      cases items hclose rest (fun cs' h => ih cs' (by omega)) hsettled with
      | @closed ps _ _ _ after hstar hopt hns hafter hlt' hlisted =>
          have hargs := (hread.seq (hstar.seq hopt)).opt.seq (reads_lit (c := ')') rfl hafter)
          rw [List.append_nil, List.append_nil] at hargs
          refine .read hargs (.cons hexpr hns) (by omega) fun call statements frames => ?_
          rw [hmoves _ rfl, argumentsFrame, hlisted _ _ (lists_arguments _ _ _)]
          rfl
      | unclosed hstar hopt hend hlisted =>
          have hitems := (hread.seq (hstar.seq hopt)).opt
          refine .refused (hitems.seq_fails (fails_lit rfl hend))
            fun call statements frames => ?_
          rw [hmoves _ rfl, argumentsFrame, hlisted _ _ (lists_arguments _ _ _)]

/-- **An expression in parentheses is an argument list as well**: where the one goes wrong, so does
the other. -/
theorem fails_paren (hexpr : Expression whole cs) (h : Fails whole arguments cs) :
    Fails whole (.seq (.rule .expr) (.lit [')'])) cs := by
  cases hexpr with
  | absent _ hfails => exact hfails.seq
  | refused _ _ hfails => exact hfails.seq
  | @read _ _ _ rest hread =>
      refine hread.seq_fails (fails_lit rfl fun after hafter => ?_)
      have hne : ∀ after', Token.first? rest ≠ some (.comma, after') := by simp [hafter]
      obtain ⟨hstar, hopt⟩ := no_further whole hne
      exact h.not_reads (.seq (.opt (.seq hread (.seq hstar hopt))) (reads_lit rfl hafter))

/-! ### Statements -/

/-- A construct whose members stand side by side, with semicolons anywhere between them. -/
structure Sequences (state : List Node → Place → Reader) : Prop where
  /-- Only the place changes inside a member. -/
  place : ∀ done place place', { state done place with place := place' } = state done place'
  place_eq : ∀ done place, (state done place).place = place
  semicolon : ∀ done, (state done .start).feed .semicolon = some (state done .start)
  /-- A token that does not go on with a member ends it. -/
  ends : ∀ done attrs node (t : Token), t.follows = false →
    (state done (.operand attrs node)).feed t =
      (state (Reader.attach attrs node :: done) .start).feed t
  /-- So does the end of the text. -/
  finishes : ∀ done attrs node, (state done (.operand attrs node)).finish? =
    (state (Reader.attach attrs node :: done) .start).finish?

theorem sequences_forest : Sequences fun done place => ⟨done, [], place⟩ where
  place := fun _ _ _ => rfl
  place_eq := fun _ _ => rfl
  semicolon := fun _ => rfl
  ends := by
    intro done attrs node t hfollows
    cases t with
    | parenOpen | bang | dot => exact nomatch hfollows
    | _ => rfl
  finishes := fun _ _ _ => rfl

theorem sequences_block (statements : List Node) (frames : List Frame) (attrs : List Node) :
    Sequences fun done place => ⟨statements, .block attrs done :: frames, place⟩ where
  place := fun _ _ _ => rfl
  place_eq := fun _ _ => rfl
  semicolon := fun _ => rfl
  ends := by
    intro done attrs node t hfollows
    cases t with
    | parenOpen | bang | dot => exact nomatch hfollows
    | _ => rfl
  finishes := fun _ _ _ => rfl

/-- A member that has ended is behind the others. -/
theorem Sequences.forest?_eq {state : List Node → Place → Reader} (h : Sequences state)
    (hcs : ∀ t rest, Token.first? cs = some (t, rest) → t.follows = false) (done attrs : List Node)
    (node : Node) :
    (state done (.operand attrs node)).forest? cs =
      (state (Reader.attach attrs node :: done) .start).forest? cs := by
  cases hfirst : Token.first? cs with
  | none => rw [Reader.forest?_of_none hfirst, Reader.forest?_of_none hfirst, h.finishes]
  | some x =>
      rw [Reader.forest?_of_first? hfirst, Reader.forest?_of_first? hfirst,
        h.ends _ _ _ _ (hcs _ _ hfirst)]

theorem semicolons (whole cs : List Char) :
    ∃ rest, Reads whole Rule.semicolons cs [] rest ∧ rest.length ≤ cs.length ∧
      (∀ after, Token.first? rest ≠ some (.semicolon, after)) ∧
      ∀ state, Sequences state → ∀ done,
        (state done .start).forest? cs = (state done .start).forest? rest := by
  by_cases hsemicolon : ∃ rest, Token.first? cs = some (.semicolon, rest)
  · obtain ⟨rest, hfirst⟩ := hsemicolon
    have hlt := Token.first?_length_lt hfirst
    obtain ⟨rest', hreads, hle, hend, hstate⟩ := semicolons whole rest
    refine ⟨rest', (reads_lit rfl hfirst).star_cons hreads, by omega, hend, ?_⟩
    intro state h done
    rw [Reader.forest?_of_feed hfirst (h.semicolon done), hstate state h]
  · have hend : ∀ rest, Token.first? cs ≠ some (.semicolon, rest) := not_exists.1 hsemicolon
    exact ⟨cs, Fails.star (fails_lit rfl hend), le_rfl, hend, fun _ _ _ => rfl⟩
termination_by cs.length

/-- An expression and the semicolons after it. -/
def statement : Expr Rule := .seq (.rule .expr) Rule.semicolons

/-- **Statements**, up to the place where their construct has to end. -/
inductive Statements (whole cs : List Char) : Prop
  | ended {ps : List (Pair Rule)} {ns : List Node} {rest : List Char} :
      Reads whole (.star statement) cs ps rest → List.Forall₂ IsExpr ps ns →
      rest.length ≤ cs.length →
      (∀ t after, Token.first? rest = some (t, after) → t.starts = false ∧ t ≠ .semicolon) →
      (∀ state, Sequences state → ∀ done,
        (state done .start).forest? cs = (state (ns.reverse ++ done) .start).forest? rest) →
      Statements whole cs
  | broken {ps : List (Pair Rule)} {rest after : List Char} {t : Token} :
      Reads whole (.star statement) cs ps rest → Token.first? rest = some (t, after) →
      t.starts = true ∨ t.follows = true →
      (∀ state, Sequences state → ∀ done, (state done .start).forest? cs = none) →
      Statements whole cs

theorem statements (cs : List Char) (hcs : ∀ after, Token.first? cs ≠ some (.semicolon, after))
    (ih : ∀ cs', cs'.length ≤ cs.length → Expression whole cs') : Statements whole cs := by
  cases ih cs le_rfl with
  | absent habsent hfails =>
      refine .ended (Fails.star hfails.seq) .nil le_rfl ?_ fun _ _ _ => rfl
      intro t after hfirst
      refine ⟨habsent t after hfirst, ?_⟩
      rintro rfl
      exact hcs after hfirst
  | refused hfirst hstarts hfails hrefuses =>
      exact .broken (Fails.star hfails.seq) hfirst (.inl hstarts)
        fun state h done => hrefuses _ (h.place_eq done .start)
  | @read pair attrs node rest hread hexpr hlt hsettled hmoves =>
      have hmoves : ∀ state, Sequences state → ∀ done, (state done .start).forest? cs =
          (state done (.operand attrs node)).forest? rest := by
        intro state h done
        rw [hmoves _ (h.place_eq done .start), h.place]
      rcases hsettled with hstuck | hsettled
      · obtain ⟨t, after, hfirst, hfollows⟩ := hstuck.follows
        have hsemicolon : Fails whole (.lit [';']) rest := by
          refine fails_lit_of_ne rfl hfirst ?_
          rintro rfl
          exact nomatch hfollows
        have hitem : Reads whole statement cs [pair] rest := hread.seq (Fails.star hsemicolon)
        refine .broken (hitem.star_cons (Fails.star hstuck.fails.seq)) hfirst (.inr hfollows) ?_
        intro state h done
        rw [hmoves state h, hstuck.refuses _ _ _ (h.place_eq _ _)]
      · obtain ⟨rest', hreads, hle, hend, hstate⟩ := semicolons whole rest
        have hitem : Reads whole statement cs [pair] rest' := hread.seq hreads
        have hnext : ∀ state, Sequences state → ∀ done, (state done .start).forest? cs =
            (state (Reader.attach attrs node :: done) .start).forest? rest' := by
          intro state h done
          rw [hmoves state h, h.forest?_eq hsettled, hstate state h]
        cases statements rest' hend (fun cs' h => ih cs' (by omega)) with
        | ended hstar hns hle' hlast hmore =>
            refine .ended (hitem.star_cons hstar) (.cons hexpr hns) (by omega) hlast ?_
            intro state h done
            rw [hnext state h, hmore state h, List.reverse_cons, List.append_assoc]
            rfl
        | broken hstar hfirst ht hmore =>
            refine .broken (hitem.star_cons hstar) hfirst ht ?_
            intro state h done
            rw [hnext state h, hmore state h]
termination_by cs.length

/-- The statements of a block. -/
theorem blockBody (cs : List Char) (ih : ∀ cs', cs'.length ≤ cs.length → Expression whole cs') :
    Encloses whole (.seqs (Rule.statements ++ [.lit ['\x7d']])) cs (fun attrs => .block attrs [])
      fun attrs ns => .operand attrs (.block ns) := by
  obtain ⟨first, hreads, hle, hend, hstate⟩ := semicolons whole cs
  cases statements first hend (fun cs' h => ih cs' (by omega)) with
  | @ended ps ns rest hstar hns hle' hlast hmore =>
      have hreader : ∀ attrs statements frames,
          Reader.forest? ⟨statements, .block attrs [] :: frames, .start⟩ cs =
            Reader.forest? ⟨statements, .block attrs ns.reverse :: frames, .start⟩ rest := by
        intro attrs statements frames
        have hseq := sequences_block statements frames attrs
        rw [hstate _ hseq [], hmore _ hseq [], List.append_nil]
      by_cases hclose : ∃ after, Token.first? rest = some (.braceClose, after)
      · obtain ⟨after, hafter⟩ := hclose
        have hlt := Token.first?_length_lt hafter
        have hbody := hreads.seq (hstar.seq (reads_lit (c := '\x7d') rfl hafter))
        rw [List.nil_append, List.append_nil] at hbody
        refine .read hbody hns (by omega) ?_
        intro attrs statements frames
        rw [hreader, Reader.forest?_of_feed hafter rfl, List.reverse_reverse]
      · have hclose : ∀ after, Token.first? rest ≠ some (.braceClose, after) := not_exists.1 hclose
        refine .refused (hreads.seq_fails (hstar.seq_fails (fails_lit rfl hclose))) ?_
        intro attrs statements frames
        rw [hreader]
        refine Reader.forest?_eq_none rfl fun t after hfirst => ?_
        obtain ⟨hstarts, hsemicolon⟩ := hlast t after hfirst
        cases t with
        | braceClose => exact absurd hfirst (hclose after)
        | semicolon => exact absurd rfl hsemicolon
        | word | quoted | number | string | attrsOpen | braceOpen | parenOpen =>
            exact nomatch hstarts
        | _ => rfl
  | @broken ps rest after t hstar hfirst ht hmore =>
      have hclose : Fails whole (.lit ['\x7d']) rest := by
        refine fails_lit_of_ne rfl hfirst ?_
        rintro rfl
        rcases ht with ht | ht <;> exact nomatch ht
      refine .refused (hreads.seq_fails (hstar.seq_fails hclose)) ?_
      intro attrs statements frames
      have hseq := sequences_block statements frames attrs
      rw [hstate _ hseq [], hmore _ hseq []]

end Notation

end MacroForest
