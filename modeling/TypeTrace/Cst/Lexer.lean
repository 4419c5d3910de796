import TypeTrace.Cst.Draft

/-!
# Reading source text

One pass over the characters of a source builds its syntax tree.  Inside string literals only
quotes, escapes and embedded expressions count; everywhere else the alphabet tells what a
character does.

## Main definitions

* `Draft.inTable`: the innermost brackets are those of a table
* `Draft.readText`, `Draft.readPlain`, `Draft.read`: what one character does to the draft
* `Cst.lex`: the syntax tree of a source
-/

namespace TypeTrace
namespace Draft

/-- Some of the open constructs up to the innermost brackets are a table. -/
def inTable : List Frame → Bool
  | .smooshed _ :: path => inTable path
  | .spaced _ :: path => inTable path
  | .table _ :: _ => true
  | _ => false

/-- The character that an escape stands for. -/
def unescape : Char → Char
  | 'n' => '\n'
  | 't' => '\t'
  | 'r' => '\r'
  | c => c

/-- Read a character at byte `pos` inside the string literal `text`.  The answer says whether the
character after it has been read too. -/
def readText (d : Draft) (text : Loc) (pos : Nat) (c : Char) (next : Option Char) :
    Except LexError (Draft × Bool) :=
  if c = '"' then .ok ((d.setStop text (pos + 1)).leave, false)
  else if c = '\\' then
    match next with
    | none => .error (.unterminatedText (d.startOf text))
    | some escaped => .ok (d.textChar text (unescape escaped), true)
  else if c = '$' ∧ next = some '\x7b' then .ok (d.openEmbed text pos, true)
  else .ok (d.textChar text c, false)

/-- Read a character at byte `pos` outside string literals. -/
def readPlain (a : Alphabet) (d : Draft) (pos : Nat) (c : Char) (next : Option Char) :
    Except LexError (Draft × Bool) :=
  match ListKind.ofOpener? c, ListKind.ofCloser? c with
  | some kind, _ =>
    if kind = .curly ∧ (next.map a.tableNew.contains).getD false then
      -- The table mark belongs to the bracket.
      .ok (d.openNode (.table [] []) ⟨pos, pos + 2⟩ .table, true)
    else .ok (d.openNode (.list kind []) ⟨pos, pos + 1⟩ (.list kind), false)
  | none, some kind => (d.close kind pos).map (·, false)
  | none, none =>
    if c = '"' then .ok (d.openNode (.text []) ⟨pos, pos + 1⟩ .text, false)
    -- In a table, a character that ends rows does so even if it is also a separator.
    else if inTable d.path ∧ a.tableRow.contains c then .ok (d.endRow, false)
    else if inTable d.path ∧ a.tableCol.contains c then .ok (d.separate, false)
    else match a.kindOf c with
      | .sep => .ok (d.separate, false)
      | .space => .ok (d.space pos, false)
      | .quote => .ok (d, false)
      | .word cls => .ok (d.glyph pos c cls, false)

/-- Read a character at byte `pos`, knowing the one after it. -/
def read (a : Alphabet) (d : Draft) (pos : Nat) (c : Char) (next : Option Char) :
    Except LexError (Draft × Bool) :=
  match d.path with
  | .text text :: _ => d.readText text pos c next
  | _ => d.readPlain a pos c next

/-- Read all characters, the first of which is at byte `pos`. -/
def readAll (a : Alphabet) (d : Draft) (pos : Nat) : List Char → Except LexError Draft
  | [] => .ok d
  | c :: rest =>
    match d.read a pos c rest.head? with
    | .error e => .error e
    | .ok (d, skip) =>
      match skip, rest with
      | true, c' :: rest => readAll a d (pos + c.utf8Size + c'.utf8Size) rest
      | _, rest => readAll a d (pos + c.utf8Size) rest

section

-- The equations of this function are made here, not by all the proofs at once that need them first.
attribute [local simp] readAll

end

end Draft

/-- The syntax tree of a source. -/
def Cst.lex (a : Alphabet) (src : List Char) : Except LexError Cst :=
  ((Draft.start (Text.byteLength src)).readAll a 0 src).bind (·.finish src)

end TypeTrace
