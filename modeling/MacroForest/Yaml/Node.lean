/-
**The tree of a YAML text.**

The tokens of a text form a tree of scalars, lists and maps.  A node can be given a name, and the
name can stand for the node later on.

Main definitions:

* `MacroForest.Yaml.Node` — the tree;
* `MacroForest.Yaml.document?` — **the tree of a text of at most one document**, unless it is
  refused.
-/

import MacroForest.Yaml.Token

set_option relaxedAutoImplicit false
set_option autoImplicit false

namespace MacroForest.Yaml

/-- A node of a YAML text. -/
inductive Node where
  | scalar (style : ScalarStyle) (tag : Option String) (text : String)
  | list (items : List Node)
  | map (pairs : List (Node × Node))

namespace Node

/-- What stands where nothing is written. -/
def empty : Node := .scalar .plain none ""

/-- The tokens to come, and the nodes with names. -/
structure Rest where
  /-- The tokens. -/
  tokens : List Token
  /-- The named nodes, last first. -/
  names : List (String × Node) := []

/-- The name and the tag in front of a node. -/
def properties (ts : List Token) : Option String × Option String × List Token :=
  match ts with
  | .anchor a :: .tag t :: ts => (some a, some t, ts)
  | .tag t :: .anchor a :: ts => (some a, some t, ts)
  | .anchor a :: ts => (some a, none, ts)
  | .tag t :: ts => (none, some t, ts)
  | ts => (none, none, ts)

/-- Gives a node its name. -/
def remember (anchor : Option String) (node : Node) (r : Rest) : Node × Rest :=
  (node, { r with names := anchor.toList.map (·, node) ++ r.names })

mutual

/-- Reads a node.  `block` tells that indented collections can stand here, and `dashes` that items
can stand here without more indentation. -/
def read (block dashes : Bool) : Nat → Rest → Option (Node × Rest)
  | 0, _ => none
  | fuel + 1, r =>
    match r.tokens with
    | .alias name :: tokens => (r.names.lookup name).map fun node => (node, { r with tokens })
    | _ =>
      let (anchor, tag, ts) := properties r.tokens
      let named : Option (Node × Rest) → Option (Node × Rest) :=
        Option.map fun (node, r) => remember anchor node r
      match ts with
      | .entry :: _ =>
        if dashes then named (readDashes fuel [] { r with tokens := ts })
        else named (readNothing anchor tag { r with tokens := ts })
      | .scalar style text :: tokens => named (some (.scalar style tag text, { r with tokens }))
      | .flowListStart :: tokens => named (readFlowList fuel true [] { r with tokens })
      | .flowMapStart :: tokens => named (readFlowMap fuel true [] { r with tokens })
      | .listStart :: tokens =>
        if block then named (readItems fuel [] { r with tokens })
        else named (readNothing anchor tag { r with tokens := ts })
      | .mapStart :: tokens =>
        if block then named (readPairs fuel [] { r with tokens })
        else named (readNothing anchor tag { r with tokens := ts })
      | ts => named (readNothing anchor tag { r with tokens := ts })

/-- Nothing is written: that takes a name or a tag. -/
def readNothing (anchor tag : Option String) (r : Rest) : Option (Node × Rest) :=
  if anchor.isSome || tag.isSome then some (.scalar .plain tag "", r) else none

/-- The items of an indented list, last first in `done`. -/
def readItems : Nat → List Node → Rest → Option (Node × Rest)
  | 0, _, _ => none
  | fuel + 1, done, r =>
    match r.tokens with
    | .blockEnd :: tokens => some (.list done.reverse, { r with tokens })
    | .entry :: tokens => do
      let r := { r with tokens }
      match tokens with
      | .entry :: _ | .blockEnd :: _ => readItems fuel (empty :: done) r
      | _ =>
        let (node, r) ← read true false fuel r
        readItems fuel (node :: done) r
    | _ => none

/-- The items of a list without more indentation. -/
def readDashes : Nat → List Node → Rest → Option (Node × Rest)
  | 0, _, _ => none
  | fuel + 1, done, r =>
    match r.tokens with
    | .entry :: tokens => do
      let r := { r with tokens }
      match tokens with
      | .entry :: _ | .key :: _ | .value :: _ | .blockEnd :: _ => readDashes fuel (empty :: done) r
      | _ =>
        let (node, r) ← read true false fuel r
        readDashes fuel (node :: done) r
    | _ => some (.list done.reverse, r)

/-- The pairs of an indented map, last first in `done`. -/
def readPairs : Nat → List (Node × Node) → Rest → Option (Node × Rest)
  | 0, _, _ => none
  | fuel + 1, done, r =>
    match r.tokens with
    | .blockEnd :: tokens => some (.map done.reverse, { r with tokens })
    | .key :: tokens => do
      let (key, r) ← readPart fuel { r with tokens }
      match r.tokens with
      | .value :: tokens =>
        let (value, r) ← readPart fuel { r with tokens }
        readPairs fuel ((key, value) :: done) r
      | _ => readPairs fuel ((key, empty) :: done) r
    | _ => none

/-- A key or a value of an indented map. -/
def readPart : Nat → Rest → Option (Node × Rest)
  | 0, _ => none
  | fuel + 1, r =>
    match r.tokens with
    | .key :: _ | .value :: _ | .blockEnd :: _ => some (empty, r)
    | _ => read true true fuel r

/-- The items of a list in brackets; `first` tells that none has been read. -/
def readFlowList : Nat → Bool → List Node → Rest → Option (Node × Rest)
  | 0, _, _, _ => none
  | fuel + 1, first, done, r =>
    match r.tokens with
    | .flowListEnd :: tokens => some (.list done.reverse, { r with tokens })
    | tokens => do
      let tokens ← if first then some tokens else
        match tokens with
        | .flowEntry :: tokens => some tokens
        | _ => none
      match tokens with
      | .flowListEnd :: tokens => some (.list done.reverse, { r with tokens })
      | .key :: tokens =>
        let (pair, r) ← readFlowPair fuel { r with tokens }
        readFlowList fuel false (.map [pair] :: done) r
      | _ =>
        let (node, r) ← read false false fuel { r with tokens }
        readFlowList fuel false (node :: done) r

/-- The pairs of a map in brackets; `first` tells that none has been read. -/
def readFlowMap : Nat → Bool → List (Node × Node) → Rest → Option (Node × Rest)
  | 0, _, _, _ => none
  | fuel + 1, first, done, r =>
    match r.tokens with
    | .flowMapEnd :: tokens => some (.map done.reverse, { r with tokens })
    | tokens => do
      let tokens ← if first then some tokens else
        match tokens with
        | .flowEntry :: tokens => some tokens
        | _ => none
      match tokens with
      | .flowMapEnd :: tokens => some (.map done.reverse, { r with tokens })
      | .key :: tokens =>
        let (pair, r) ← readFlowPair fuel { r with tokens }
        readFlowMap fuel false (pair :: done) r
      | _ =>
        let (node, r) ← read false false fuel { r with tokens }
        readFlowMap fuel false ((node, empty) :: done) r

/-- A pair in brackets. -/
def readFlowPair : Nat → Rest → Option ((Node × Node) × Rest)
  | 0, _ => none
  | fuel + 1, r => do
    let (key, r) ← readFlowPart fuel r
    match r.tokens with
    | .value :: tokens =>
      let (value, r) ← readFlowPart fuel { r with tokens }
      return ((key, value), r)
    | _ => return ((key, empty), r)

/-- A key or a value of a pair in brackets. -/
def readFlowPart : Nat → Rest → Option (Node × Rest)
  | 0, _ => none
  | fuel + 1, r =>
    match r.tokens with
    | .value :: _ | .flowEntry :: _ | .flowListEnd :: _ | .flowMapEnd :: _ => some (empty, r)
    | _ => read false false fuel r

end

/-- Reads the content of a document. -/
def readContent (fuel : Nat) (r : Rest) : Option (Node × Rest) :=
  match r.tokens with
  | [] | .directive :: _ | .documentStart :: _ | .documentEnd :: _ => some (empty, r)
  | _ => read true false fuel r

/-- Reads a document with its marker, behind its directives. -/
def readMarked (fuel : Nat) (r : Rest) : Option (Node × Rest) :=
  match r.tokens.dropWhile (· == .directive) with
  | .documentStart :: tokens => readContent fuel { r with tokens }
  | _ => none

end Node

/-- The tree of a text, or nothing if the text has no document.  A node takes at most a few steps
for each of its tokens. -/
def document? (text : String) : Option (Option Node) := do
  let tokens ← tokens? text
  let fuel := 4 * tokens.length + 4
  match tokens with
  | [] => return none
  | first :: _ =>
    let (node, r) ←
      if first = .directive ∨ first = .documentStart then Node.readMarked fuel ⟨tokens, []⟩
      else Node.read true false fuel ⟨tokens, []⟩
    if r.tokens.all (· == .documentEnd) then some (some node) else none

end MacroForest.Yaml
