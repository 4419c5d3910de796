import TypeTrace.Text.Lines

/-!
# Error reports

A report starts with a code and a message, followed by what is known of the place.  When both the
source line and the column are known, the line is shown with a caret under the column.

## Main definitions

* `Report`: what is known about an error
* `Report.located`: the report of an error at a byte position of a source text
* `Report.render`: the text of a report
-/

namespace TypeTrace

/-- What is known about an error. -/
structure Report where
  /-- The code of the cause. -/
  code : String
  /-- What is wrong. -/
  message : String
  /-- The byte position. -/
  pos : Option Nat := none
  /-- The line, counted from one. -/
  line : Option Nat := none
  /-- The column, counted from one. -/
  col : Option Nat := none
  /-- The text of the line. -/
  snippet : Option String := none
deriving DecidableEq, Inhabited

namespace Report

/-- The report of an error at a byte position of a source text. -/
def located (code message : String) (src : List Char) (pos : Nat) : Report :=
  let (line, col) := Text.locate src pos
  { code, message
    pos := some pos
    line := some line
    col := some col
    snippet := some (String.ofList (Text.lineText src line)) }

/-- Line and column, if both are known. -/
def lineAndColumn (r : Report) : String :=
  match r.line, r.col with
  | some line, some col => s!" @line={line},col={col}"
  | _, _ => ""

/-- The byte position, if it is known. -/
def position (r : Report) : String :=
  match r.pos with
  | some pos => s!" @pos={pos}"
  | none => ""

/-- The source line with a caret under the column, if both are known. -/
def excerpt (r : Report) : String :=
  match r.snippet, r.col with
  | some snippet, some col => "\n" ++ snippet ++ "\n" ++ "".pushn ' ' (col - 1) ++ "^"
  | _, _ => ""

/-- The text of a report. -/
def render (r : Report) : String :=
  "[" ++ r.code ++ "] " ++ r.message ++ r.lineAndColumn ++ r.position ++ r.excerpt

end Report
end TypeTrace
