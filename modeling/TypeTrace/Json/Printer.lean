import TypeTrace.Json.Basic

/-!
# Printed JSON

Values are laid out with two spaces of indentation per level and one member or item per line;
empty objects and arrays take no lines of their own.  Characters above the control characters
are written as they are.

## Main definitions

* `Json.quote`: a string literal
* `Json.pretty`: the text of a value
-/

namespace TypeTrace.Json

/-- The digit `d` in hexadecimal. -/
def hexDigit (d : Nat) : Char := Nat.digitChar d

/-- How a character is written in a string literal. -/
def escape (c : Char) : String :=
  if c = '"' then "\\\""
  else if c = '\\' then "\\\\"
  else if c = '\n' then "\\n"
  else if c = '\r' then "\\r"
  else if c = '\t' then "\\t"
  else if c = '\x08' then "\\b"
  else if c = '\x0c' then "\\f"
  else if c.toNat < 0x20 then
    "\\u00" ++ String.ofList [hexDigit (c.toNat / 16), hexDigit (c.toNat % 16)]
  else c.toString

/-- A string literal. -/
def quote (s : String) : String := "\"" ++ String.join (s.toList.map escape) ++ "\""

/-- The indentation of a level. -/
def indent (level : Nat) : String := String.ofList (List.replicate (2 * level) ' ')

mutual

/-- The text of a value that starts on a line of the given level. -/
def prettyAt (level : Nat) : Json → String
  | null => "null"
  | bool true => "true"
  | bool false => "false"
  | num literal => literal
  | str text => quote text
  | arr [] => "[]"
  | arr (item :: items) =>
    "[\n" ++ indent (level + 1) ++ prettyAt (level + 1) item ++ prettyItems (level + 1) items ++
      "\n" ++ indent level ++ "]"
  | obj [] => "\x7b\x7d"
  | obj ((key, value) :: members) =>
    "\x7b\n" ++ indent (level + 1) ++ quote key ++ ": " ++ prettyAt (level + 1) value ++
      prettyMembers (level + 1) members ++ "\n" ++ indent level ++ "\x7d"

/-- The further items of an array. -/
def prettyItems (level : Nat) : List Json → String
  | [] => ""
  | item :: items => ",\n" ++ indent level ++ prettyAt level item ++ prettyItems level items

/-- The further members of an object. -/
def prettyMembers (level : Nat) : List (String × Json) → String
  | [] => ""
  | (key, value) :: members =>
    ",\n" ++ indent level ++ quote key ++ ": " ++ prettyAt level value ++
      prettyMembers level members

end

/-- The text of a value. -/
def pretty (value : Json) : String := prettyAt 0 value

end TypeTrace.Json
