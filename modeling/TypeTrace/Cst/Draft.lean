import TypeTrace.Cst.Alphabet
import TypeTrace.Cst.Error

/-!
# Drafts of a syntax tree

While source text is read, the tree so far is kept as a draft: every node met, and the path of
constructs that are still open.  A separator leaves a blank slot, which the next node fills; a
node that follows another one without a blank slot between them touches it, and the two are
wrapped into a smooshed list.  A space wraps the word before it into a spaced list.  Wrappers are
opened only when they are needed and closed by the next separator or bracket.

## Main definitions

* `Sketch`, `Frame`, `Draft`: unfinished nodes, open constructs, and the whole draft
* `Draft.add`: place a new node after what is there
* `Draft.closeWrappers`: end the open words, or the open words and items
* `Draft.separate`, `Draft.space`, `Draft.close`: what separators, blanks and brackets do
* `Draft.toCst`: the finished tree
-/

namespace TypeTrace

/-- The places for the children of an open list, the latest first.  A blank place is left by a
separator and waits for a node. -/
abbrev Slots := List (Option Loc)

namespace Slots

/-- Leave a blank place after a filled one. -/
def blank : Slots → Slots
  | some loc :: slots => none :: some loc :: slots
  | slots => slots

/-- The children in source order, without blank places. -/
def filled (slots : Slots) : List Loc := (slots.filterMap id).reverse

/-- Put another node into the latest place. -/
def replace (loc : Loc) : Slots → Slots
  | _ :: slots => some loc :: slots
  | [] => []

end Slots

/-- A node that may still grow; the latest parts come first. -/
inductive Sketch where
  | id (text : String)
  | text (spans : List (TextSpan Loc))
  | list (kind : ListKind) (slots : Slots)
  /-- A table with its latest row, and the rows above it. -/
  | table (row : Slots) (above : List Slots)
deriving Inhabited

/-- A construct that is still open. -/
inductive Frame where
  /-- A bracketed list. -/
  | list (kind : ListKind) (loc : Loc)
  | table (loc : Loc)
  /-- A string literal. -/
  | text (loc : Loc)
  /-- An expression embedded in the string literal `text`, whose items are collected in a list. -/
  | embed (text items : Loc)
  /-- Atoms that touch each other. -/
  | smooshed (loc : Loc)
  /-- Words with blanks between them. -/
  | spaced (loc : Loc)
deriving DecidableEq, Inhabited

/-- The node that collects what is read inside a construct. -/
def Frame.target : Frame → Loc
  | list _ loc | table loc | text loc | smooshed loc | spaced loc => loc
  | embed _ items => items

/-- A tree that is being read. -/
structure Draft where
  /-- All nodes so far, each with the bytes it covers so far. -/
  nodes : Array (Sketch × Span)
  /-- The open constructs, the innermost first, without the list of all items at the bottom. -/
  path : List Frame
  /-- The word that the next character may extend, with its class. -/
  word : Option (Loc × Nat)
deriving Inhabited

namespace Draft

/-- The draft of an empty source of the given length: one list, for the items at the top. -/
def start (length : Nat) : Draft := ⟨#[(.list .curly [], ⟨0, length⟩)], [], none⟩

/-- The place of the list of all items. -/
def top : Loc := 0

variable (d : Draft)

/-! ## Nodes -/

/-- The place that the next node gets. -/
def next : Loc := d.nodes.size

/-- Create a node. -/
def mint (sketch : Sketch) (span : Span) : Draft :=
  { d with nodes := d.nodes.push (sketch, span) }

/-- Where a node starts. -/
def startOf (loc : Loc) : Nat := (d.nodes[loc]?.map (·.2.start)).getD 0

/-- Where a node stops. -/
def stopOf (loc : Loc) : Nat := (d.nodes[loc]?.map (·.2.stop)).getD 0

/-- Let a node end at byte `stop`. -/
def setStop (loc : Loc) (stop : Nat) : Draft :=
  { d with nodes := d.nodes.modify loc fun n => (n.1, { n.2 with stop }) }

/-- Change an unfinished node. -/
def revise (loc : Loc) (f : Sketch → Sketch) : Draft :=
  { d with nodes := d.nodes.modify loc fun n => (f n.1, n.2) }

/-- Open a construct. -/
def enter (frame : Frame) : Draft := { d with path := frame :: d.path }

/-- Leave the innermost construct. -/
def leave : Draft := { d with path := d.path.tail }

/-! ## Slots -/

/-- The node that collects what is read next. -/
def target : Loc := (d.path.head?.map Frame.target).getD top

/-- The open slots of a list, or of the latest row of a table. -/
def slots (loc : Loc) : Slots :=
  match d.nodes[loc]? with
  | some (.list _ slots, _) => slots
  | some (.table row _, _) => row
  | _ => []

/-- Change the open slots of a list, or of the latest row of a table. -/
def reviseSlots (loc : Loc) (f : Slots → Slots) : Draft :=
  d.revise loc fun
    | .list kind slots => .list kind (f slots)
    | .table row above => .table (f row) above
    | sketch => sketch

/-- Wrap the latest child of `parent` and all of `slots` before it into a new list, which stays
open as `frame`. -/
def wrap (parent : Loc) (kind : ListKind) (slots : Slots) (span : Span) (frame : Loc → Frame) :
    Draft :=
  let wrapper := d.next
  let minted := d.mint (.list kind slots) span
  (minted.reviseSlots parent (Slots.replace wrapper)).enter (frame wrapper)

/-- Place a node after what is there: into a blank slot, or smooshed to the node before it. -/
def add (loc : Loc) : Draft :=
  let parent := d.target
  match d.path.head?, d.slots parent with
  -- Inside a smooshed list everything touches.
  | some (.smooshed _), _ => d.reviseSlots parent (some loc :: ·)
  | _, [] => d.reviseSlots parent (some loc :: ·)
  | _, none :: _ => d.reviseSlots parent (Slots.replace loc)
  | _, some before :: _ =>
    d.wrap parent .smooshed [some loc, some before] ⟨d.startOf before, d.stopOf loc⟩ .smooshed

/-- Leave a wrapper.  It ends where its last child ends, and a wrapper around a single child gives
way to that child. -/
def closeWrapper (wrapper : Loc) : Draft :=
  let left := d.leave
  match Slots.filled (d.slots wrapper) with
  | [] => left
  | [only] => (left.setStop wrapper (d.stopOf only)).reviseSlots left.target (Slots.replace only)
  | _ :: child :: rest => left.setStop wrapper (d.stopOf ((child :: rest).getLastD child))

/-- Close the wrappers at the top of the given path: words, and spaced items if `items` is set. -/
def closeWrappersOn (items : Bool) : List Frame → Draft → Draft
  | .smooshed loc :: path, d => closeWrappersOn items path (d.closeWrapper loc)
  | .spaced loc :: path, d => if items then closeWrappersOn items path (d.closeWrapper loc) else d
  | _, d => d

section

-- The equations of this function are made here, not by all the proofs at once that need them first.
attribute [local simp] closeWrappersOn

end

/-- Close the open words, and the open spaced item if `items` is set. -/
def closeWrappers (items : Bool) : Draft := closeWrappersOn items d.path d

/-! ## What characters do -/

/-- No later character extends the current word. -/
def endWord : Draft := { d with word := none }

/-- End an item. -/
def separate : Draft :=
  let d := d.endWord.closeWrappers true
  d.reviseSlots d.target Slots.blank

/-- End a row of the table that is open. -/
def endRow : Draft :=
  let d := d.endWord.closeWrappers true
  d.revise d.target fun
    | .table row above => .table [] (row :: above)
    | sketch => sketch

/-- End a word, at a blank at byte `pos`. -/
def space (pos : Nat) : Draft :=
  let d := d.endWord.closeWrappers false
  let parent := d.target
  match d.path.head?, d.slots parent with
  | some (.spaced _), _ => d.reviseSlots parent Slots.blank
  | _, some before :: _ =>
    d.wrap parent .spaced [none, some before] ⟨d.startOf before, pos + 1⟩ .spaced
  | _, _ => d

/-- Read a character of a word of class `cls`, which extends the current word if that has the same
class. -/
def glyph (pos : Nat) (c : Char) (cls : Nat) : Draft :=
  let stop := pos + c.utf8Size
  let fresh :=
    let loc := d.next
    { (d.mint (.id c.toString) ⟨pos, stop⟩).add loc with word := some (loc, cls) }
  match d.word with
  | none => fresh
  | some (loc, current) =>
    if current = cls then
      (d.revise loc fun
        | .id text => .id (text.push c)
        | sketch => sketch).setStop loc stop
    else fresh

/-- Create a node, place it, and open it. -/
def openNode (sketch : Sketch) (span : Span) (frame : Loc → Frame) : Draft :=
  let loc := d.next
  ((d.endWord.mint sketch span).add loc).enter (frame loc)

/-- Append a character to a string literal. -/
def textChar (text : Loc) (c : Char) : Draft :=
  d.revise text fun
    | .text (.text s :: spans) => .text (.text (s.push c) :: spans)
    | .text spans => .text (.text c.toString :: spans)
    | sketch => sketch

/-- Open an embedded expression at byte `pos` of a string literal. -/
def openEmbed (text : Loc) (pos : Nat) : Draft :=
  let items := d.next
  (d.mint (.list .curly []) ⟨pos, pos + 2⟩).enter (.embed text items)

/-- Close an embedded expression.  One item is embedded itself, several as the list of them. -/
def closeEmbed (text items : Loc) (pos : Nat) : Except LexError Draft :=
  let embed (item : Loc) : Draft :=
    ((d.setStop items (pos + 1)).revise text fun
      | .text spans => .text (.embed item :: spans)
      | sketch => sketch).leave
  match Slots.filled (d.slots items) with
  | [] => .error (.emptyEmbed (d.startOf items))
  | [only] => .ok (embed only)
  | _ => .ok (embed items)

/-- Read a closing bracket at byte `pos`. -/
def close (kind : ListKind) (pos : Nat) : Except LexError Draft :=
  let d := d.endWord.closeWrappers true
  match d.path with
  | .embed text items :: _ =>
    if kind = .curly then d.closeEmbed text items pos
    else .error (.unexpectedClose (some .curly) kind pos)
  | .list expected loc :: _ =>
    if kind = expected then .ok (d.setStop loc (pos + 1)).leave
    else .error (.unexpectedClose (some expected) kind pos)
  | .table loc :: _ =>
    if kind = .curly then .ok (d.setStop loc (pos + 1)).leave
    else .error (.unexpectedClose (some .curly) kind pos)
  | _ => .error (.unexpectedClose none kind pos)

/-! ## The finished tree -/

/-- The finished node.  Blank slots and empty rows are dropped. -/
def finishNode (src : List Char) (sketch : Sketch) (span : Span) : Node :=
  let multiline := ((Text.slice? src span.start span.stop).map (·.contains '\n')).getD false
  match sketch with
  | .id text => .id text
  | .text spans => .text spans.reverse
  | .list kind slots => .list kind slots.filled multiline
  | .table row above =>
    .table .curly (((row :: above).reverse.map Slots.filled).filter (!·.isEmpty)) multiline

/-- The finished tree of a draft in which nothing is open. -/
def toCst (src : List Char) : Cst where
  nodes := d.nodes.map fun n => (finishNode src n.1 n.2, n.2)
  roots := (d.slots top).filled

/-- The tree of a source that is read to its end, where nothing may be open. -/
def finish (src : List Char) : Except LexError Cst :=
  match d.path with
  | .text text :: _ => .error (.unterminatedText (d.startOf text))
  | .embed text _ :: _ => .error (.unterminatedText (d.startOf text))
  | _ =>
    -- An embedded expression with an open wrapper inside counts as unclosed brackets.
    let d := d.closeWrappers true
    match d.path with
    | [] => .ok (d.toCst src)
    | .list kind loc :: _ => .error (.unclosedList kind (d.startOf loc))
    | .table loc :: _ => .error (.unclosedList .curly (d.startOf loc))
    | _ => .error (.unclosedList .curly (d.startOf top))

end Draft
end TypeTrace
