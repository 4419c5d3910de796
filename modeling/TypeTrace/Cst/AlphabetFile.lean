import TypeTrace.Cst.Alphabet
import TypeTrace.Json.Reader

/-!
# Alphabet files

An alphabet is described by a JSON object with one member per role, or by an array of the roles
in order.  The flag for markup may be left out; members with other names are ignored, whatever
their string literals denote.

## Main definitions

* `Alphabet.ofJson?`: the alphabet that a JSON value describes
* `Alphabet.ofText?`: the alphabet that a JSON text describes
* `Alphabet.toJson`: the description of an alphabet
-/

namespace TypeTrace.Alphabet

/-- A list of strings. -/
def strings? : Json → Option (List (List Char))
  | .arr items => items.mapM fun item => item.str?.map String.toList
  | _ => none

/-- A set of characters. -/
def chars? (value : Json) : Option (List Char) := value.str?.map String.toList

/-- The one member with the given name. -/
def member? (members : List (String × Json)) (name : String) : Option Json :=
  match Json.fields name members with
  | [value] => some value
  | _ => none

/-- The markup flag, off if no member gives it. -/
def markup? (members : List (String × Json)) : Option Bool :=
  match Json.fields "xml" members with
  | [] => some false
  | [value] => value.bool?
  | _ => none

/-- The alphabet with the given descriptions of its roles. -/
def ofParts? (punct space sep tableCol tableRow tableNew : Json) (xml : Option Bool) :
    Option Alphabet := do
  return {
    punct := ← strings? punct
    space := ← chars? space
    sep := ← chars? sep
    tableCol := ← chars? tableCol
    tableRow := ← chars? tableRow
    tableNew := ← chars? tableNew
    xml := ← xml }

/-- The alphabet that a JSON value describes. -/
def ofJson? : Json → Option Alphabet
  | .obj members => do
    ofParts? (← member? members "punct") (← member? members "space") (← member? members "sep")
      (← member? members "table_col") (← member? members "table_row")
      (← member? members "table_new") (markup? members)
  | .arr [punct, space, sep, tableCol, tableRow, tableNew] =>
    ofParts? punct space sep tableCol tableRow tableNew (some false)
  | .arr [punct, space, sep, tableCol, tableRow, tableNew, xml] =>
    ofParts? punct space sep tableCol tableRow tableNew xml.bool?
  | _ => none

/-- The names of the members that describe an alphabet. -/
def memberNames : List String :=
  ["punct", "space", "sep", "table_col", "table_row", "table_new", "xml"]

/-- The alphabet that a JSON text describes. -/
def ofText? (text : String) : Option Alphabet :=
  (Json.read? memberNames.contains text).bind ofJson?

/-- The description of an alphabet. -/
def toJson (a : Alphabet) : Json :=
  let text (cs : List Char) : Json := .str (String.ofList cs)
  .obj
    [ ("punct", .arr (a.punct.map text)), ("space", text a.space), ("sep", text a.sep),
      ("table_col", text a.tableCol), ("table_row", text a.tableRow),
      ("table_new", text a.tableNew), ("xml", .bool a.xml) ]

end TypeTrace.Alphabet
