import TypeTrace.Grammar.Basic

/-!
# Matching

Matching goes through a list of siblings from the left and keeps a record: the roles found for
nodes, the parts named so far, and, after a failure, the nodes at which it got stuck.  A matcher
that fails leaves no roles and no names behind.  Alternatives are tried in order and the first
success counts.

Rules may call each other without end, so calls are nested at most as deep as a given number.  A
grammar that takes more nested calls than it has pairs of a combinator and a position in the tree
has met one pair twice, and would never end.

## Main definitions

* `MatchRecord`, `MatchM`: the record, and computations that keep it or run out of nested calls
* `Matcher.step`: one combinator, given how to match its parts
* `Grammar.match?`: a matcher, with a bound on nested calls
* `Grammar.parse`: read one node by a rule
-/

namespace TypeTrace

/-- What matching has found so far, the latest first. -/
structure MatchRecord (V : Type) where
  /-- The roles of nodes. -/
  journal : List (Loc × Role)
  /-- The named parts. -/
  bindings : Bindings V
  /-- The nodes that the last failure could not account for. -/
  unparsed : List Loc

/-- The record of a match that has not begun. -/
def MatchRecord.empty {V : Type} : MatchRecord V := ⟨[], [], []⟩

/-- Computations that keep a record, or end because calls are nested too deep. -/
abbrev MatchM (V : Type) := StateT (MatchRecord V) Option

/-- A success gives a value and the siblings that are left. -/
abbrev MatchResult (V : Type) := Option (V × List Loc)

/-- How to match: a matcher, the siblings that are left, and the node they belong to. -/
abbrev MatchCall (V : Type) := Matcher V → List Loc → Loc → MatchM V (MatchResult V)

namespace MatchM

variable {V α : Type}

/-- Note the role of a node. -/
def note (loc : Loc) (role : Role) : MatchM V Unit :=
  modify fun r => { r with journal := (loc, role) :: r.journal }

/-- Note the role of a node, if there is one to note. -/
def note? (loc : Loc) : Option Role → MatchM V Unit
  | none => pure ()
  | some role => note loc role

/-- Name a part. -/
def name (n : String) (v : V) : MatchM V Unit :=
  modify fun r => { r with bindings := (n, v) :: r.bindings }

/-- Set the named parts. -/
def setBindings (b : Bindings V) : MatchM V Unit := modify fun r => { r with bindings := b }

/-- Set the nodes that could not be accounted for. -/
def report (locs : List Loc) : MatchM V Unit := modify fun r => { r with unparsed := locs }

/-- Undo what a failing computation has recorded, except for the nodes at which it got stuck; a
success forgets where other attempts inside it got stuck. -/
def attempt (m : MatchM V (Option α)) : MatchM V (Option α) := do
  let before ← get
  report []
  match ← m with
  | some a =>
    report before.unparsed
    return some a
  | none =>
    let stuck := (← get).unparsed
    set { before with unparsed := if stuck.isEmpty then before.unparsed else stuck }
    return none

end MatchM

namespace Matcher

variable {V : Type}

open MatchM

/-- A word of digits. -/
def isDigits (text : String) : Bool := !text.isEmpty && text.toList.all Char.isDigit

/-- The value of a word of digits. -/
def digitsValue (text : String) : Nat :=
  text.toList.foldl (fun n c => 10 * n + (c.toNat - '0'.toNat)) 0

/-- The greatest number that a program may contain: one less than the 63rd power of two. -/
def maxNumber : Nat := 9223372036854775807

/-- Some of the siblings `nodes` were taken and `rest` is left: the region of those taken, or the
parent if none was. -/
def regionOf (nodes rest : List Loc) (parent : Loc) : Region :=
  match nodes.take (nodes.length - rest.length) with
  | [] => ⟨parent, none⟩
  | [only] => ⟨only, none⟩
  | first :: second :: more => ⟨first, some ((second :: more).getLastD second)⟩

/-! ## Repeated parts -/

variable (call : MatchCall V)

/-- Match all of the matchers, one after another. -/
def stepSeq (parent : Loc) : List (Matcher V) → List Loc → MatchM V (Option (List V × List Loc))
  | [], nodes => return some ([], nodes)
  | m :: ms, nodes => do
    match ← call m nodes parent with
    | none => return none
    | some (v, nodes) =>
      match ← stepSeq parent ms nodes with
      | none => return none
      | some (vs, nodes) => return some (v :: vs, nodes)

/-- The first of the matchers that succeeds. -/
def stepOr (nodes : List Loc) (parent : Loc) : List (Matcher V) → MatchM V (MatchResult V)
  | [] => return none
  | m :: ms => do
    match ← call m nodes parent with
    | some hit => return some hit
    | none => stepOr nodes parent ms

/-- Repeat a matcher until it fails or takes nothing, at most `n` times.  What the last round has
recorded is dropped. -/
def stepStar (m : Matcher V) (parent : Loc) : Nat → List Loc → MatchM V (List V × List Loc)
  | 0, nodes => return ([], nodes)
  | n + 1, nodes => do
    let before ← get
    match ← call m nodes parent with
    | none => return ([], nodes)
    | some (v, rest) =>
      if rest.length < nodes.length then
        let (vs, rest) ← stepStar m parent n rest
        return (v :: vs, rest)
      else
        -- A round that takes nothing would go on forever.
        set { before with unparsed := (← get).unparsed }
        return ([], nodes)

/-- Match the embedded expressions of a string literal, each of them completely. -/
def stepSpans (m : Matcher V) : List (TextSpan Loc) → MatchM V (Option (List (TextSpan V)))
  | [] => return some []
  | .text s :: spans => do
    match ← stepSpans m spans with
    | none => return none
    | some vs => return some (.text s :: vs)
  | .embed item :: spans => do
    match ← call m [item] item with
    | some (v, []) =>
      match ← stepSpans m spans with
      | none => return none
      | some vs => return some (.embed v :: vs)
    | _ => return none

/-- Match the rows of a table, each of them completely. -/
def stepRows (m : Matcher V) (table : Loc) : List (List Loc) → MatchM V (Option (List V))
  | [] => return some []
  | cells :: rows => do
    match ← call m cells table with
    | none => return none
    | some (_, cell :: rest) =>
      report (cell :: rest)
      return none
    | some (v, []) =>
      match ← stepRows m table rows with
      | none => return none
      | some vs => return some (v :: vs)

/-! ## One combinator -/

/-- Match one word, and take it if `accept` gives a value for it. -/
def stepWord (cst : Cst) (nodes : List Loc) (accept : String → Loc → MatchM V (Option V)) :
    MatchM V (MatchResult V) :=
  match nodes with
  | [] => return none
  | loc :: rest =>
    match cst.node? loc with
    | some (.id found) => do
      match ← accept found loc with
      | none => return none
      | some v => return some (v, rest)
    | _ => return none

/-- Match one combinator, given how to match its parts. -/
def step [MatchValue V] (g : Grammar V) (cst : Cst) : MatchCall V
  | any, nodes, _ =>
    match nodes with
    | [] => return none
    | loc :: rest => return some (MatchValue.ofNode loc, rest)
  | kwd word role, nodes, _ =>
    stepWord cst nodes fun found loc => do
      if found = word then
        note loc role
        return some (MatchValue.ofId found loc)
      else return none
  | id role, nodes, _ =>
    stepWord cst nodes fun found loc => do
      if g.isKwd found || isDigits found then return none
      else
        note? loc role
        return some (MatchValue.ofId found loc)
  | number, nodes, _ =>
    stepWord cst nodes fun found loc => do
      if isDigits found && digitsValue found ≤ maxNumber then
        return some (MatchValue.ofNumber (digitsValue found) loc)
      else return none
  | text inner, nodes, _ =>
    match nodes with
    | [] => return none
    | loc :: rest =>
      match cst.node? loc with
      | some (.text spans) => do
        match ← stepSpans call inner spans with
        | none => return none
        | some vs => return some (MatchValue.ofText vs loc, rest)
      | _ => return none
  | list kind inner role, nodes, _ =>
    match nodes with
    | [] => return none
    | loc :: rest =>
      match cst.node? loc with
      | some (.list found children _) =>
        if kind.accepts found then do
          match ← call inner children loc with
          | none => return none
          | some (_, child :: left) =>
            report (child :: left)
            return none
          | some (v, []) =>
            note? loc role
            return some (v, rest)
        else return none
      | _ => return none
  | table kind row, nodes, _ =>
    match nodes with
    | [] => return none
    | loc :: rest =>
      match cst.node? loc with
      | some (.table found rows _) =>
        if found = kind then do
          match ← stepRows call row loc rows with
          | none => return none
          | some vs => return some (MatchValue.ofMany vs, rest)
        else return none
      | _ => return none
  | seq items, nodes, parent => do
    match ← stepSeq call parent items nodes with
    | none => return none
    | some (vs, rest) => return some (MatchValue.ofMany vs, rest)
  | or items, nodes, parent => stepOr call nodes parent items
  | star inner, nodes, parent => do
    let (vs, rest) ← stepStar call inner parent (nodes.length + 1) nodes
    return some (MatchValue.ofMany vs, rest)
  | opt inner, nodes, parent => do
    match ← call inner nodes parent with
    | none => return some (MatchValue.absent, nodes)
    | some hit => return some hit
  | group n inner, nodes, parent => do
    match ← call inner nodes parent with
    | none => return none
    | some (v, rest) =>
      name n v
      return some (v, rest)
  | ref rule n, nodes, parent =>
    match g.rule? rule with
    | none => return none
    | some target => do
      match ← call target nodes parent with
      | none => return none
      | some (v, rest) =>
        if let some n := n then name n v
        return some (v, rest)
  | tx inner build, nodes, parent => do
    -- Only parts that are named inside reach the builder, and none of them leaves.
    let outer := (← get).bindings
    setBindings []
    let hit ← call inner nodes parent
    let own := (← get).bindings
    setBindings outer
    match hit with
    | none => return none
    | some (_, rest) =>
      match build own (regionOf nodes rest parent) with
      | none => return none
      | some v => return some (v, rest)

section

-- The equations of these functions are made here, not by all the proofs at once that need them first.
attribute [local simp] stepWord step

end

end Matcher

/-- A tree that is deeper than a grammar admits. -/
structure Nesting where
  /-- A deepest node. -/
  loc : Loc
  /-- Its depth. -/
  depth : Nat
  /-- The greatest depth that is admitted. -/
  limit : Nat
deriving DecidableEq, Inhabited

/-- The result of reading one node by a rule. -/
structure Outcome (V : Type) where
  /-- The value of the phrase, if the node is one. -/
  value : Option V
  /-- The roles of nodes. -/
  metadata : Metadata
  /-- The nodes that the last failure could not account for. -/
  unparsed : List Loc
  /-- The depth of the tree, if it was not matched because of it. -/
  tooDeep : Option Nesting

/-- The number of positions between siblings of a tree, a row or an embedded expression counting
as a list of its own. -/
def Cst.positions (cst : Cst) : Nat :=
  cst.nodes.foldl (fun n (node, _) =>
    n + 2 * node.children.length + 2 +
      match node with
      | .table _ rows _ => rows.length
      | _ => 0) 2

namespace Grammar

variable {V : Type} [MatchValue V] (g : Grammar V)

/-- Match with calls nested at most `fuel` deep. -/
def match? (cst : Cst) : Nat → MatchCall V
  | 0, _, _, _ => fun _ => none
  | fuel + 1, m, nodes, parent =>
    MatchM.attempt (m.step (match? cst fuel) g cst nodes parent)

/-- Nested calls that suffice unless matching never ends. -/
def nestedCalls (cst : Cst) : Nat := g.size * cst.positions + 1

/-- Read `root` by the given matcher, which has to take it. -/
def run (cst : Cst) (m : Matcher V) (root : Loc) : Option V × MatchRecord V :=
  match g.match? cst (g.nestedCalls cst) m [root] root .empty with
  | none => (none, .empty)
  | some (none, record) => (none, record)
  | some (some (v, []), record) => (some v, record)
  | some (some (_, _ :: _), record) => (none, { record with unparsed := [root] })

/-- Read the node `root` by a rule.  Trees deeper than the limit are not matched. -/
def parse (cst : Cst) (rule : String) (root : Loc) : Outcome V :=
  let (depth, loc) := cst.nesting root
  if g.maxNesting < depth then
    { value := none
      metadata := .singleton root .unparsed
      unparsed := []
      tooDeep := some ⟨loc, depth, g.maxNesting⟩ }
  else
    let (value, record) : Option V × MatchRecord V :=
      match g.rule? rule with
      | none => (none, .empty)
      | some m => g.run cst m root
    let metadata : Metadata := .ofList record.journal.reverse
    let stuck :=
      match value, record.unparsed with
      | some _, _ => []
      | none, [] => [root]
      | none, locs => locs
    { value
      metadata := stuck.foldl (fun d loc => d.insert loc .unparsed) metadata
      unparsed := record.unparsed
      tooDeep := none }

end Grammar
end TypeTrace
