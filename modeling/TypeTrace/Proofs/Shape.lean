import TypeTrace.Cst.Lexer
import Mathlib.Data.List.Forall2

/-!
# Shapes of syntax trees

What a syntax tree says apart from places and positions: the text of words, the pieces of string
literals, lists with their kinds and members, tables with their rows.  And how the shapes of a
source are found by cutting it up, without drafts and open constructs: the contents of a bracket are
characters and smaller constructs; separators cut them into items, blanks cut items into words, and
words fall apart into atoms, where characters of one class run together.  Nothing is left of empty
words and items, and a word of one atom, or an item of one word, is that atom or word itself.

## Main definitions

* `Shape`, `Cst.Shows`: shapes, and the shape of the tree below a node
* `Piece`: characters and smaller constructs, the contents of a bracket
* `Piece.items`, `Piece.rows`, `Piece.spans`: contents cut up into items, rows, and pieces of text
* `Shape.pieces`, `Shape.ofSource?`: the contents of a source
-/

namespace TypeTrace

/-- A syntax tree without places and positions. -/
inductive Shape where
  | id (text : String)
  | text (spans : List (TextSpan Shape))
  | list (kind : ListKind) (children : List Shape)
  | table (kind : ListKind) (rows : List (List Shape))

/-- Two pieces of text are alike, with `R` between what they embed. -/
inductive TextSpan.Rel {α β : Type} (R : α → β → Prop) : TextSpan α → TextSpan β → Prop
  | text (s : String) : TextSpan.Rel R (.text s) (.text s)
  | embed {a : α} {b : β} (h : R a b) : TextSpan.Rel R (.embed a) (.embed b)

/-- The tree below a node has the given shape. -/
inductive Cst.Shows (cst : Cst) : Loc → Shape → Prop
  | id {loc : Loc} {text : String} (hnode : cst.node? loc = some (.id text)) :
    Cst.Shows cst loc (.id text)
  | text {loc : Loc} {spans : List (TextSpan Loc)} {shapes : List (TextSpan Shape)}
    (hnode : cst.node? loc = some (.text spans))
    (hspans : List.Forall₂ (TextSpan.Rel (Cst.Shows cst)) spans shapes) :
    Cst.Shows cst loc (.text shapes)
  | list {loc : Loc} {kind : ListKind} {children : List Loc} {multiline : Bool} {shapes : List Shape}
    (hnode : cst.node? loc = some (.list kind children multiline))
    (hchildren : List.Forall₂ (Cst.Shows cst) children shapes) :
    Cst.Shows cst loc (.list kind shapes)
  | table {loc : Loc} {kind : ListKind} {rows : List (List Loc)} {multiline : Bool}
    {shapes : List (List Shape)} (hnode : cst.node? loc = some (.table kind rows multiline))
    (hrows : List.Forall₂ (List.Forall₂ (Cst.Shows cst)) rows shapes) :
    Cst.Shows cst loc (.table kind shapes)

/-! ## Contents of brackets -/

/-- A part of the contents of a bracket: a character, or a construct with brackets or quotes of its
own. -/
inductive Piece where
  | char (c : Char)
  | atom (shape : Shape)

namespace Piece

/-- The piece is a character with the given property. -/
def isChar (p : Char → Bool) : Piece → Bool
  | char c => p c
  | atom _ => false

/-- The characters among some pieces. -/
def chars (pieces : List Piece) : String :=
  String.ofList (pieces.filterMap fun
    | char c => some c
    | atom _ => none)

/-- The pieces are characters that `r` relates. -/
def runsOn (r : Char → Char → Bool) : Piece → Piece → Bool
  | char c, char c' => r c c'
  | _, _ => false

/-- A construct stands for itself, and characters that run together form a word. -/
def ofRun : List Piece → Shape
  | [atom shape] => shape
  | run => .id (chars run)

/-- The atoms of a word: constructs, and maximal runs of characters of one class. -/
def atoms (a : Alphabet) (pieces : List Piece) : List Shape :=
  (pieces.splitBy (runsOn fun c c' => a.classOf c == a.classOf c')).map ofRun

/-- A single shape stands for itself, and several form a list. -/
def join (kind : ListKind) : List Shape → Option Shape
  | [] => none
  | [only] => some only
  | shapes => some (.list kind shapes)

/-- The word made of some pieces, if it is not empty. -/
def word (a : Alphabet) (pieces : List Piece) : Option Shape := join .smooshed (atoms a pieces)

/-- The item made of some pieces, if it is not empty: words with blanks between them. -/
def item (a : Alphabet) (pieces : List Piece) : Option Shape :=
  join .spaced ((pieces.splitOnP (isChar a.space.contains)).filterMap (word a))

/-- The items among some pieces, with separators between them. -/
def items (a : Alphabet) (sep : Char → Bool) (pieces : List Piece) : List Shape :=
  (pieces.splitOnP (isChar sep)).filterMap (item a)

/-- The members of a list. -/
def members (a : Alphabet) (pieces : List Piece) : List Shape := items a a.sep.contains pieces

/-- The rows of a table, each of them cut into cells. -/
def rows (a : Alphabet) (pieces : List Piece) : List (List Shape) :=
  ((pieces.splitOnP (isChar a.tableRow.contains)).map
    (items a fun c => a.tableCol.contains c || a.sep.contains c)).filter (!·.isEmpty)

/-- What a string literal embeds: one item itself, several as a list. -/
def embedded (a : Alphabet) (pieces : List Piece) : Shape :=
  match members a pieces with
  | [only] => only
  | shapes => .list .curly shapes

/-- A construct is embedded, and other characters stand for themselves. -/
def spanOfRun : List Piece → TextSpan Shape
  | [atom shape] => .embed shape
  | run => .text (chars run)

/-- The pieces of text of a string literal: embedded expressions, and maximal runs of characters. -/
def spans (pieces : List Piece) : List (TextSpan Shape) :=
  (pieces.splitBy (runsOn fun _ _ => true)).map spanOfRun

/-- The pieces up to a closing bracket, and what follows it, if it closes a list of the given kind. -/
def closedBy (kind : ListKind) :
    List Piece × Option (ListKind × List Char) → Option (List Piece × List Char)
  | (pieces, some (found, rest)) => if found = kind then some (pieces, rest) else none
  | (_, none) => none

mutual

/-- The pieces of a text, of length `n` at most, up to the first closing bracket that none of them
opens; with the kind of that bracket and what follows it, unless the text ends before. -/
def read (a : Alphabet) : Nat → List Char → Option (List Piece × Option (ListKind × List Char))
  | 0, _ | _ + 1, [] => some ([], none)
  | n + 1, c :: cs =>
    match ListKind.ofOpener? c, ListKind.ofCloser? c with
    | some kind, _ => do
      let isTable := kind = .curly ∧ (cs.head?.map a.tableNew.contains).getD false
      let (inner, rest) ← (read a n (if isTable then cs.tail else cs)).bind (closedBy kind)
      let (more, stop) ← read a n rest
      let shape := if isTable then .table kind (rows a inner) else .list kind (members a inner)
      return (.atom shape :: more, stop)
    | none, some kind => some ([], some (kind, cs))
    | none, none =>
      if c = '"' then do
        let (inner, rest) ← readText a n cs
        let (more, stop) ← read a n rest
        return (.atom (.text (spans inner)) :: more, stop)
      else do
        let (more, stop) ← read a n cs
        return (.char c :: more, stop)

/-- The pieces of a string literal, with escapes decoded, and what follows its closing quote. -/
def readText (a : Alphabet) : Nat → List Char → Option (List Piece × List Char)
  | 0, _ | _ + 1, [] => none
  | n + 1, c :: cs =>
    if c = '"' then some ([], cs)
    else if c = '\\' then do
      let (more, rest) ← readText a n cs.tail
      return (.char (Draft.unescape (← cs.head?)) :: more, rest)
    else if c = '$' ∧ cs.head? = some '\x7b' then do
      let (inner, rest) ← (read a n cs.tail).bind (closedBy .curly)
      let (more, rest) ← readText a n rest
      return (.atom (embedded a inner) :: more, rest)
    else do
      let (more, rest) ← readText a n cs
      return (.char c :: more, rest)

end

section

-- The equations of these functions are made here, not by all the proofs at once that need them first.
attribute [local simp] read readText

end

end Piece

/-- The shapes of a source: it is read like the contents of a bracket, and no bracket closes it. -/
def Shape.ofSource? (a : Alphabet) (src : List Char) : Option (List Shape) :=
  match Piece.read a src.length src with
  | some (pieces, none) => some (Piece.members a pieces)
  | _ => none

end TypeTrace
