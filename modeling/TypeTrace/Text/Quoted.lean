import TypeTrace.Text.Printable

/-!
# Quoted text

A text is quoted between double quotes.  Quotes, backslashes and the usual control characters
have a short escape; every other character that is not shown is written by its code point.

## Main definitions

* `Text.escape`: how a character is written inside quotes
* `Text.quote`: the quoted form of a text
-/

namespace TypeTrace.Text

/-- A number in hexadecimal, in lower case and without padding. -/
def hex (n : Nat) : String := String.ofList (Nat.toDigits 16 n)

/-- How a character is written inside quotes. -/
def escape (c : Char) : String :=
  if c = '"' then "\\\""
  else if c = '\\' then "\\\\"
  else if c = '\n' then "\\n"
  else if c = '\r' then "\\r"
  else if c = '\t' then "\\t"
  else if c = '\x00' then "\\0"
  else if isShown c then c.toString
  else "\\u\x7b" ++ hex c.toNat ++ "\x7d"

/-- The quoted form of a text. -/
def quote (s : String) : String := "\"" ++ String.join (s.toList.map escape) ++ "\""

end TypeTrace.Text
