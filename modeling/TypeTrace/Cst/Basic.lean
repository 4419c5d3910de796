import TypeTrace.Text.Slice

/-!
# Concrete syntax trees

Source text is read into a forest of words, string literals, bracketed lists and tables.  All
nodes live in one store and are referred to by their place in it, so every part of a program
can be named in reports.  Atoms that touch each other form a smooshed list, and words with
blanks between them a spaced list.

## Main definitions

* `Loc`, `Span`, `ListKind`, `Node`: the parts of a tree
* `Cst`: the store of all nodes, with the roots of the forest
* `Cst.children`: the children of a node in source order
* `Cst.nesting`: how deep the tree below a node is, and a deepest node
* `Cst.source?`: the text that a node covers
-/

namespace TypeTrace

/-- The place of a node in the store. -/
abbrev Loc := Nat

/-- A place as text, with at least three digits. -/
def Loc.render (loc : Loc) : String :=
  let digits := toString loc
  String.ofList (List.replicate (3 - digits.length) '0') ++ digits

/-- The bytes from `start` up to, and without, `stop`. -/
structure Span where
  /-- The first byte. -/
  start : Nat
  /-- The byte after the last one. -/
  stop : Nat
deriving DecidableEq, Inhabited, Repr

/-- What holds the members of a list together. -/
inductive ListKind where
  | round
  | square
  | curly
  | angle
  /-- Atoms that touch each other. -/
  | smooshed
  /-- Words with blanks between them. -/
  | spaced
deriving DecidableEq, Inhabited, Repr

namespace ListKind

/-- The name of a kind of list. -/
def name : ListKind → String
  | round => "round"
  | square => "square"
  | curly => "curly"
  | angle => "angle"
  | smooshed => "smooshed"
  | spaced => "spaced"

/-- The list stands between brackets in the source. -/
def isPlain : ListKind → Bool
  | round | square | curly => true
  | angle | smooshed | spaced => false

/-- The kind of list that a character opens. -/
def ofOpener? : Char → Option ListKind
  | '(' => some round
  | '[' => some square
  | '\x7b' => some curly
  | _ => none

/-- The kind of list that a character closes. -/
def ofCloser? : Char → Option ListKind
  | ')' => some round
  | ']' => some square
  | '\x7d' => some curly
  | _ => none

end ListKind

/-- A piece of a string literal. -/
inductive TextSpan (α : Type) where
  /-- Characters that stand for themselves, escapes decoded. -/
  | text (text : String)
  /-- An embedded expression. -/
  | embed (item : α)
deriving DecidableEq, Inhabited, Repr

/-- A node, referring to its children by their places. -/
inductive Node where
  /-- A maximal run of characters of one class. -/
  | id (text : String)
  /-- A string literal. -/
  | text (spans : List (TextSpan Loc))
  /-- A list; `multiline` says that its source runs over several lines. -/
  | list (kind : ListKind) (children : List Loc) (multiline : Bool)
  /-- A table, by rows. -/
  | table (kind : ListKind) (rows : List (List Loc)) (multiline : Bool)
deriving DecidableEq, Inhabited, Repr

/-- The children of a node in source order: members of a list, cells of a table, embedded
expressions of a string literal. -/
def Node.children : Node → List Loc
  | id _ => []
  | text spans => spans.filterMap fun
    | .embed item => some item
    | .text _ => none
  | list _ children _ => children
  | table _ rows _ => rows.flatten

/-- A concrete syntax tree. -/
structure Cst where
  /-- All nodes, each with the bytes it covers. -/
  nodes : Array (Node × Span)
  /-- The items at the top level. -/
  roots : List Loc
deriving DecidableEq, Inhabited

namespace Cst

variable (cst : Cst)

/-- The node at a place. -/
def node? (loc : Loc) : Option Node := cst.nodes[loc]?.map Prod.fst

/-- The bytes that a node covers. -/
def span? (loc : Loc) : Option Span := cst.nodes[loc]?.map Prod.snd

/-- The children of a node in source order. -/
def children (loc : Loc) : List Loc := ((cst.node? loc).map Node.children).getD []

/-- The text that a node covers. -/
def source? (src : List Char) (loc : Loc) : Option (List Char) :=
  (cst.span? loc).bind fun span => Text.slice? src span.start span.stop

/-- Visit the nodes on `stack`, and all below them, for at most `fuel` nodes, and keep the first
of the deepest ones met.  The stack holds every node with its depth. -/
def deepest (fuel : Nat) (stack : List (Loc × Nat)) (best : Nat × Loc) : Nat × Loc :=
  match fuel, stack with
  | 0, _ => best
  | _, [] => best
  | fuel + 1, (loc, depth) :: stack =>
    let best := if best.1 < depth then (depth, loc) else best
    deepest fuel ((cst.children loc).reverse.map (·, depth + 1) ++ stack) best

/-- The number of levels of the tree below `root`, `root` itself being the first, and the last
node in source order on the lowest level.  In a forest no node is visited twice, so the number
of nodes bounds the visits. -/
def nesting (root : Loc) : Nat × Loc := cst.deepest (cst.nodes.size + 1) [(root, 1)] (1, root)

end Cst
end TypeTrace
