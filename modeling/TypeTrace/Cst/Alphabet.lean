/-!
# Alphabets

Which characters separate items, which separate words, and which ones run together into one
word.  Everything else about reading source text is fixed, so one reader serves several surface
languages.

## Main definitions

* `Alphabet`: the roles of characters
* `Alphabet.js`, `Alphabet.lisp`: the two alphabets that come with the program
* `Alphabet.classOf`, `Alphabet.kindOf`: the class and the role of a character
-/

namespace TypeTrace

/-- The roles of characters. -/
structure Alphabet where
  /-- Sets of punctuation; characters of one set run together. -/
  punct : List (List Char)
  /-- Blanks between the words of an item. -/
  space : List Char
  /-- Separators between items. -/
  sep : List Char
  /-- Separators between the cells of a table row. -/
  tableCol : List Char
  /-- Separators between the rows of a table. -/
  tableRow : List Char
  /-- Characters that make an opening curly bracket open a table. -/
  tableNew : List Char
  /-- Whether the surface language has markup elements; reading does not depend on it. -/
  xml : Bool := false
deriving DecidableEq, Inhabited

/-- What a character outside brackets and string literals does. -/
inductive CharKind where
  /-- It begins a string literal. -/
  | quote
  /-- It ends an item. -/
  | sep
  /-- It ends a word. -/
  | space
  /-- It is part of a word of the given class. -/
  | word (cls : Nat)
deriving DecidableEq, Inhabited

namespace Alphabet

/-- The alphabet of a language with script-like punctuation. -/
def js : Alphabet where
  punct := [".".toList, "/".toList, "~`!@#$%^&*+-=\\/?:><".toList]
  space := " \t\r".toList
  sep := ",;\n".toList
  tableCol := ",:".toList
  tableRow := ";\n".toList
  tableNew := ":".toList
  xml := true

/-- The alphabet of a language whose items are separated by blanks. -/
def lisp : Alphabet where
  punct := [";".toList, ".".toList, "@".toList, "=#+".toList]
  space := []
  sep := " \n".toList
  tableCol := " :".toList
  tableRow := "\n".toList
  tableNew := ":".toList

/-- The class of a character: one more than the place of the first set that holds it, and zero
for characters in none. -/
def classOf (a : Alphabet) (c : Char) : Nat :=
  match a.punct.findIdx? (·.contains c) with
  | some i => i + 1
  | none => 0

/-- What a character does. -/
def kindOf (a : Alphabet) (c : Char) : CharKind :=
  if c = '"' then .quote
  else if a.sep.contains c then .sep
  else if a.space.contains c then .space
  else .word (a.classOf c)

end Alphabet
end TypeTrace
