import TypeTrace.Cst.Basic

/-!
# Lexical errors

Why a source text has no syntax tree: its brackets, quotes or embedded expressions do not match.

## Main definitions

* `LexError`: the causes, each with the byte position it is reported at
* `LexError.code`, `LexError.message`: how a cause is reported
-/

namespace TypeTrace

/-- Why a source text cannot be read. -/
inductive LexError where
  /-- A closing bracket that does not match what is open. -/
  | unexpectedClose (expected : Option ListKind) (found : ListKind) (pos : Nat)
  /-- A bracket that is still open at the end. -/
  | unclosedList (kind : ListKind) (pos : Nat)
  /-- A string literal that is still open at the end. -/
  | unterminatedText (pos : Nat)
  /-- An embedded expression without content. -/
  | emptyEmbed (pos : Nat)
deriving DecidableEq

namespace LexError

/-- The byte position at which a cause is reported. -/
def pos : LexError → Nat
  | unexpectedClose _ _ pos => pos
  | unclosedList _ pos => pos
  | unterminatedText pos => pos
  | emptyEmbed pos => pos

/-- The code of a cause. -/
def code : LexError → String
  | unexpectedClose .. => "LEX001"
  | unclosedList .. => "LEX002"
  | unterminatedText _ => "LEX003"
  | emptyEmbed _ => "LEX004"

/-- The message of a cause. -/
def message : LexError → String
  | unexpectedClose expected found _ =>
    "対応しない閉じ括弧: " ++ found.name ++ " を読みましたが " ++
      (expected.map ListKind.name).getD "何も" ++ " を閉じる必要があります"
  | unclosedList kind _ => kind.name ++ " リストが閉じられていません"
  | unterminatedText _ => "文字列リテラルが閉じられていません"
  | emptyEmbed _ => "文字列の埋め込み $\x7b\x7d が空です"

end LexError
end TypeTrace
