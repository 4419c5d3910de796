import TypeTrace.Json.Basic

/-!
# Reading JSON

A reader for JSON texts.  It takes what the standard allows and nothing else: no comments, no
trailing commas, and no control characters in string literals.  An escape for half of a surrogate
pair is no character, so a string literal with one on its own denotes no text.  That matters only
where the text is wanted: members of the outermost object that nobody asks for are read for their
shape alone.

## Main definitions

* `Json.Reading`: whether the texts of string literals are wanted
* `Json.read?`: the value of a JSON text
-/

namespace TypeTrace.Json

/-- Skip the blanks between tokens. -/
def skipBlanks (cs : List Char) : List Char :=
  cs.dropWhile fun c => c = ' ' ∨ c = '\t' ∨ c = '\n' ∨ c = '\r'

/-- The text after a keyword. -/
def dropWord? : List Char → List Char → Option (List Char)
  | [], cs => some cs
  | w :: ws, c :: cs => if w = c then dropWord? ws cs else none
  | _ :: _, [] => none

/-! ## Numbers -/

/-- The digits at the start of a text, of which there must be one, and the rest. -/
def digits? (cs : List Char) : Option (List Char × List Char) :=
  match cs.takeWhile Char.isDigit with
  | [] => none
  | ds => some (ds, cs.dropWhile Char.isDigit)

/-- The part of a number before the point: no digit follows a leading zero. -/
def whole? : List Char → Option (List Char × List Char)
  | '0' :: cs => if (cs.head?.map Char.isDigit).getD false then none else some (['0'], cs)
  | cs => digits? cs

/-- The part of a number after the point, if there is one. -/
def fraction? : List Char → Option (List Char × List Char)
  | '.' :: cs => (digits? cs).map fun (ds, rest) => ('.' :: ds, rest)
  | cs => some ([], cs)

/-- The exponent of a number, if there is one. -/
def exponent? : List Char → Option (List Char × List Char)
  | e :: cs =>
    if e = 'e' ∨ e = 'E' then
      match cs with
      | '+' :: cs => (digits? cs).map fun (ds, rest) => (e :: '+' :: ds, rest)
      | '-' :: cs => (digits? cs).map fun (ds, rest) => (e :: '-' :: ds, rest)
      | cs => (digits? cs).map fun (ds, rest) => (e :: ds, rest)
    else some ([], e :: cs)
  | [] => some ([], [])

/-- A number without its sign. -/
def unsigned? (cs : List Char) : Option (List Char × List Char) := do
  let (whole, cs) ← whole? cs
  let (fraction, cs) ← fraction? cs
  let (exponent, cs) ← exponent? cs
  return (whole ++ fraction ++ exponent, cs)

/-- A number. -/
def number? : List Char → Option (Json × List Char)
  | '-' :: cs => (unsigned? cs).map fun (ds, rest) => (num (String.ofList ('-' :: ds)), rest)
  | cs => (unsigned? cs).map fun (ds, rest) => (num (String.ofList ds), rest)

/-! ## String literals -/

/-- The value of a hexadecimal digit. -/
def hexValue? (c : Char) : Option Nat :=
  if c.isDigit then some (c.toNat - '0'.toNat)
  else if 'a' ≤ c ∧ c ≤ 'f' then some (c.toNat - 'a'.toNat + 10)
  else if 'A' ≤ c ∧ c ≤ 'F' then some (c.toNat - 'A'.toNat + 10)
  else none

/-- The value of four hexadecimal digits. -/
def hex4? (a b c d : Char) : Option Nat := do
  return ((← hexValue? a) * 16 + (← hexValue? b)) * 256 + (← hexValue? c) * 16 + (← hexValue? d)

/-- The character of a short escape. -/
def shortEscape? : Char → Option Char
  | '"' => some '"'
  | '\\' => some '\\'
  | '/' => some '/'
  | 'b' => some '\x08'
  | 'f' => some '\x0c'
  | 'n' => some '\n'
  | 'r' => some '\r'
  | 't' => some '\t'
  | _ => none

/-- The code unit is the first of a surrogate pair. -/
def isHighSurrogate (n : Nat) : Bool := 0xD800 ≤ n && n ≤ 0xDBFF

/-- The code unit is the second of a surrogate pair. -/
def isLowSurrogate (n : Nat) : Bool := 0xDC00 ≤ n && n ≤ 0xDFFF

/-- Whether the texts of string literals are wanted. -/
inductive Reading where
  /-- Every string literal has to denote a text. -/
  | exact
  /-- Only the shape counts. -/
  | shape
deriving DecidableEq

/-- What half of a surrogate pair on its own stands for: nothing, or a replacement where only the
shape counts. -/
def Reading.half? : Reading → Option Char
  | exact => none
  | shape => some '\uFFFD'

/-- The character of a surrogate pair. -/
def ofPair (high low : Nat) : Char :=
  Char.ofNat (0x10000 + (high - 0xD800) * 0x400 + (low - 0xDC00))

/-- The character of a code unit that is not part of a surrogate pair. -/
def unitChar? (reading : Reading) (unit : Nat) : Option Char :=
  if isHighSurrogate unit || isLowSurrogate unit then reading.half? else some (Char.ofNat unit)

/-- The rest of a string literal after its opening quote, and the text after it. -/
def literal? (reading : Reading) : List Char → Option (List Char × List Char)
  | [] => none
  | '"' :: cs => some ([], cs)
  | '\\' :: 'u' :: a :: b :: c :: d :: '\\' :: 'u' :: a' :: b' :: c' :: d' :: cs => do
    let unit ← hex4? a b c d
    let next ← hex4? a' b' c' d'
    if isHighSurrogate unit && isLowSurrogate next then
      let (text, rest) ← literal? reading cs
      return (ofPair unit next :: text, rest)
    else
      -- The second escape may begin a pair of its own.
      let first ← unitChar? reading unit
      let (text, rest) ← literal? reading ('\\' :: 'u' :: a' :: b' :: c' :: d' :: cs)
      return (first :: text, rest)
  | '\\' :: 'u' :: a :: b :: c :: d :: cs => do
    let first ← unitChar? reading (← hex4? a b c d)
    let (text, rest) ← literal? reading cs
    return (first :: text, rest)
  | '\\' :: e :: cs => do
    let c ← shortEscape? e
    let (text, rest) ← literal? reading cs
    return (c :: text, rest)
  | c :: cs =>
    if c = '\\' ∨ c.toNat < 0x20 then none
    else (literal? reading cs).map fun (text, rest) => (c :: text, rest)

/-! ## Values -/

mutual

/-- A value that is nested at most `fuel` deep, and the text after it.  If it is an object, `member`
says how the value of each member is read. -/
def value? (reading : Reading) (member : String → Reading) (fuel : Nat) (cs : List Char) :
    Option (Json × List Char) :=
  match fuel with
  | 0 => none
  | fuel + 1 =>
    match skipBlanks cs with
    | 'n' :: cs => (dropWord? "ull".toList cs).map (null, ·)
    | 't' :: cs => (dropWord? "rue".toList cs).map (bool true, ·)
    | 'f' :: cs => (dropWord? "alse".toList cs).map (bool false, ·)
    | '"' :: cs => (literal? reading cs).map fun (text, rest) => (str (String.ofList text), rest)
    | '[' :: cs =>
      match skipBlanks cs with
      | ']' :: rest => some (arr [], rest)
      | cs => (items? reading fuel cs).map fun (items, rest) => (arr items, rest)
    | '\x7b' :: cs =>
      match skipBlanks cs with
      | '\x7d' :: rest => some (obj [], rest)
      | cs => (members? reading member fuel cs).map fun (members, rest) => (obj members, rest)
    | cs => number? cs

/-- The items of an array up to its closing bracket. -/
def items? (reading : Reading) (fuel : Nat) (cs : List Char) : Option (List Json × List Char) :=
  match fuel with
  | 0 => none
  | fuel + 1 => do
    let (item, cs) ← value? reading (fun _ => reading) fuel cs
    match skipBlanks cs with
    | ',' :: cs =>
      let (items, rest) ← items? reading fuel cs
      return (item :: items, rest)
    | ']' :: rest => return ([item], rest)
    | _ => none

/-- The members of an object up to its closing bracket. -/
def members? (reading : Reading) (member : String → Reading) (fuel : Nat) (cs : List Char) :
    Option (List (String × Json) × List Char) :=
  match fuel with
  | 0 => none
  | fuel + 1 =>
    match skipBlanks cs with
    | '"' :: cs => do
      let (key, cs) ← literal? reading cs
      match skipBlanks cs with
      | ':' :: cs =>
        let name := String.ofList key
        let (value, cs) ← value? (member name) (fun _ => member name) fuel cs
        match skipBlanks cs with
        | ',' :: cs =>
          let (members, rest) ← members? reading member fuel cs
          return ((name, value) :: members, rest)
        | '\x7d' :: rest => return ([(name, value)], rest)
        | _ => none
      | _ => none
    | _ => none

end

/-- The value of a JSON text.  If it is an object, the members with names that are not `wanted` are
read for their shape alone.  Every call for a part of a value follows a character that was read,
so the length of the text bounds them. -/
def read? (wanted : String → Bool) (text : String) : Option Json :=
  let cs := text.toList
  let member (name : String) : Reading := if wanted name then .exact else .shape
  match value? .exact member (2 * cs.length + 2) cs with
  | some (value, rest) => if (skipBlanks rest).isEmpty then some value else none
  | none => none

end TypeTrace.Json
