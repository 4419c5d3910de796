import TypeTrace.Text.Slice

/-!
# Lines and columns

Lines end at a newline character and are counted from one, as are the characters of a line.

## Main definitions

* `Text.lineStarts`: the byte positions at which lines start
* `Text.locate`: line and column of a byte position
* `Text.lineText`: the text of a line, without its newline
-/

namespace TypeTrace.Text

/-- The byte positions at which lines start, for a text that begins at byte `pos`. -/
def lineStarts (pos : Nat) : List Char → List Nat
  | [] => [pos]
  | c :: cs =>
    if c = '\n' then pos :: lineStarts (pos + c.utf8Size) cs
    else match lineStarts (pos + c.utf8Size) cs with
      | [] => [pos]
      | _ :: later => pos :: later

/-- The lines of a text, without their newlines. -/
def lines : List Char → List (List Char)
  | [] => [[]]
  | c :: cs =>
    if c = '\n' then [] :: lines cs
    else match lines cs with
      | [] => [[c]]
      | line :: later => (c :: line) :: later

/-- Line and column of a byte position.  A position past the end counts as the end; inside a
character the column is the first one. -/
def locate (cs : List Char) (pos : Nat) : Nat × Nat :=
  let pos := min pos (byteLength cs)
  let passed := (lineStarts 0 cs).filter (· ≤ pos)
  let column := ((slice? cs (passed.getLastD 0) pos).map List.length).getD 0
  (passed.length, column + 1)

/-- The text of a line, empty for a line that does not exist. -/
def lineText (cs : List Char) : Nat → List Char
  | 0 => []
  | n + 1 => (lines cs)[n]?.getD []

end TypeTrace.Text
