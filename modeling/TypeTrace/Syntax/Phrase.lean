import TypeTrace.Grammar.Basic
import TypeTrace.Syntax.Suffix

/-!
# Phrases

The values that the rules of the language produce, and how phrases are put together from the parts
that a rule has named.  A rule whose parts are not of the expected form produces nothing.

## Main definitions

* `Phrase`: words, numbers, literals, and parts of programs
* `Phrase.expr?`, `Phrase.stmt?`, `Phrase.body?`, …: a phrase read as a part of a program
* `Phrase.tuple`, `Phrase.array`: tuples and arrays as nested calls
* `Build`: one function for each form of the language
-/

namespace TypeTrace

/-- What a rule of the language produces. -/
inductive Phrase where
  | absent
  | node (loc : Loc)
  | word (word : Word)
  | number (value : Nat) (loc : Loc)
  | text (spans : List (TextSpan Phrase)) (loc : Loc)
  | many (items : List Phrase)
  | expr (expr : Expr)
  | stmt (stmt : Stmt)
  | pat (pat : Pat)
  | suffix (suffix : Suffix)
  | case (case : Case)
deriving Inhabited

instance : MatchValue Phrase where
  ofId text loc := .word ⟨text, loc⟩
  ofNumber := .number
  ofNode := .node
  ofMany := .many
  ofText := .text
  absent := .absent

namespace Phrase

/-! ## Parts of a program -/

/-- The phrase as an expression. -/
def expr? : Phrase → Option Expr
  | expr e => some e
  | _ => none

/-- The phrase as a pattern. -/
def pat? : Phrase → Option Pat
  | pat p => some p
  | _ => none

/-- The phrase as a word. -/
def word? : Phrase → Option Word
  | word w => some w
  | _ => none

/-- The phrase as a suffix. -/
def suffix? : Phrase → Option Suffix
  | suffix s => some s
  | _ => none

/-- The phrase as a case. -/
def case? : Phrase → Option Case
  | case c => some c
  | _ => none

/-- The parts of a phrase. -/
def many? : Phrase → Option (List Phrase)
  | many items => some items
  | _ => none

/-- The phrase as a statement; an expression is one. -/
def stmt? : Phrase → Option Stmt
  | stmt s => some s
  | expr e => some (.expr e e.region)
  | _ => none

/-- The phrase as the body of a case; a statement other than an expression makes a block. -/
def body? : Phrase → Option Expr
  | expr e => some e
  | stmt (.expr e _) => some e
  | stmt s => some (.block [s] s.region)
  | _ => none

/-- The parts of a phrase, all of one form. -/
def manyOf? {α : Type} (form : Phrase → Option α) (p : Phrase) : Option (List α) := do
  (← p.many?).mapM form

/-! ## Tuples and arrays -/

/-- A tuple: the empty one is `null`, one member stands for itself, and more are nested pairs. -/
def tuple (src : Region) : List Expr → Expr
  | [] => .var "null" src
  | [only] => only
  | first :: second :: rest => .call (.var "," src) [first, tuple src (second :: rest)] src

/-- An array, member by member in front of the empty one. -/
def array (src : Region) : List Expr → Expr
  | [] => .var "[]" src
  | first :: rest => .call (.var "::" src) [first, array src rest] src

/-- A pattern for a tuple. -/
def tuplePat (src : Region) : List Pat → Pat
  | [] => .con "null" [] src
  | [only] => only
  | first :: second :: rest => .con "," [first, tuplePat src (second :: rest)] src

/-- The text of a string literal. -/
def textOf {α : Type} : List (TextSpan α) → String
  | [] => ""
  | .text s :: spans => s ++ textOf spans
  | .embed _ :: spans => textOf spans

/-- The expressions embedded in a string literal. -/
def embedsOf {α : Type} : List (TextSpan α) → List α
  | [] => []
  | .text _ :: spans => embedsOf spans
  | .embed item :: spans => item :: embedsOf spans

end Phrase

/-! ## Building phrases -/

namespace Build

/-- The part with the given name, in the given form. -/
def part {α : Type} (b : Bindings Phrase) (name : String) (form : Phrase → Option α) : Option α :=
  (b.get? name).bind form

/-- The part with the given name as a number. -/
def numberPart (b : Bindings Phrase) (name : String) : Option Nat :=
  part b name fun
    | .number value _ => some value
    | _ => none

/-- The part with the given name as a string literal. -/
def textPart (b : Bindings Phrase) (name : String) : Option (List (TextSpan Phrase)) :=
  part b name fun
    | .text spans _ => some spans
    | _ => none

/-! ### Statements -/

/-- A `return` without a value. -/
def bareReturn (_ : Bindings Phrase) (src : Region) : Option Phrase := some (.stmt (.ret none src))

/-- An expression as a statement. -/
def exprStmt (b : Bindings Phrase) (src : Region) : Option Phrase := do
  return .stmt (.expr (← part b "expr" Phrase.expr?) src)

/-- A `let` of a pattern. -/
def letBind (b : Bindings Phrase) (src : Region) : Option Phrase := do
  return .stmt (.letBind (← part b "pat" Phrase.pat?) (← part b "value" Phrase.expr?) src)

/-- A `return` with a value. -/
def ret (b : Bindings Phrase) (src : Region) : Option Phrase := do
  return .stmt (.ret (some (← part b "value" Phrase.expr?)) src)

/-- A `for` loop. -/
def forLoop (b : Bindings Phrase) (src : Region) : Option Phrase := do
  let init ← part b "init" Phrase.stmt?
  let cond ← part b "cond" Phrase.expr?
  let update ← part b "update" Phrase.expr?
  let body ← part b "body" Phrase.expr?
  return .stmt (.forLoop init cond update body src)

/-- A block. -/
def block (b : Bindings Phrase) (src : Region) : Option Phrase := do
  return .expr (.block (← part b "contents" (Phrase.manyOf? Phrase.stmt?)) src)

/-! ### Expressions -/

/-- A number. -/
def number (b : Bindings Phrase) (src : Region) : Option Phrase := do
  return .expr (.prim (.int (← numberPart b "value")) src)

/-- A variable. -/
def var (b : Bindings Phrase) (src : Region) : Option Phrase := do
  return .expr (.var (← part b "id" Phrase.word?).text src)

/-- A string literal; what it embeds has to be expressions. -/
def str (b : Bindings Phrase) (src : Region) : Option Phrase := do
  let spans ← textPart b "spans"
  let embeds ← (Phrase.embedsOf spans).mapM Phrase.expr?
  return .expr (.str (Phrase.textOf spans) embeds src)

/-- A tuple. -/
def tuple (b : Bindings Phrase) (src : Region) : Option Phrase := do
  return .expr (Phrase.tuple src (← part b "items" (Phrase.manyOf? Phrase.expr?)))

/-- An array. -/
def array (b : Bindings Phrase) (src : Region) : Option Phrase := do
  return .expr (Phrase.array src (← part b "items" (Phrase.manyOf? Phrase.expr?)))

/-- An attribute. -/
def attr (b : Bindings Phrase) (src : Region) : Option Phrase := do
  return .suffix (.attr (← part b "attribute" Phrase.word?) src)

/-- An index. -/
def index (b : Bindings Phrase) (src : Region) : Option Phrase := do
  return .suffix (.index (← part b "index" Phrase.expr?) src)

/-- The arguments of a call. -/
def call (b : Bindings Phrase) (src : Region) : Option Phrase := do
  return .suffix (.call (← part b "items" (Phrase.manyOf? Phrase.expr?)) src)

/-- An expression with suffixes. -/
def suffixed (b : Bindings Phrase) (_ : Region) : Option Phrase := do
  let base ← part b "base" Phrase.expr?
  let suffixes ← part b "suffixes" (Phrase.manyOf? Phrase.suffix?)
  return .expr (Suffix.applyAll base suffixes)

/-- A function. -/
def lambda (b : Bindings Phrase) (src : Region) : Option Phrase := do
  let args ← part b "args" (Phrase.manyOf? Phrase.pat?)
  let body ← part b "body" Phrase.expr?
  return .expr (.lambda args body src)

/-- A case of a `switch`. -/
def case (b : Bindings Phrase) (_ : Region) : Option Phrase := do
  return .case (.mk (← part b "pat" Phrase.pat?) (← part b "body" Phrase.body?))

/-- A `switch`. -/
def switch (b : Bindings Phrase) (src : Region) : Option Phrase := do
  let target ← part b "target" Phrase.expr?
  let cases ← part b "cases" (Phrase.manyOf? Phrase.case?)
  return .expr (.switch target cases src)

/-- An `if`, with or without a second branch. -/
def ifElse (b : Bindings Phrase) (src : Region) : Option Phrase := do
  let cond ← part b "cond" Phrase.expr?
  let yes ← part b "yes" Phrase.expr?
  match b.get? "no" with
  | none => return .expr (.ifElse cond yes none src)
  | some no => return .expr (.ifElse cond yes (some (← no.expr?)) src)

/-- An operator and the operand after it. -/
def operation : Phrase → Option (Word × Expr)
  | .many [op, right] => do return (← op.word?, ← right.expr?)
  | _ => none

/-- Operands with operators between them, grouped by level. -/
def operations (b : Bindings Phrase) (_ : Region) : Option Phrase := do
  let first ← part b "first" Phrase.expr?
  let rest ← part b "rest" (Phrase.manyOf? operation)
  return .expr (← Operator.climb first rest)

/-! ### Patterns -/

/-- The pattern that matches everything. -/
def anyPat (_ : Bindings Phrase) (src : Region) : Option Phrase := some (.pat (.any src))

/-- A number as a pattern. -/
def numberPat (b : Bindings Phrase) (src : Region) : Option Phrase := do
  return .pat (.prim (.int (← numberPart b "value")) src)

/-- A truth value as a pattern. -/
def boolPat (b : Bindings Phrase) (src : Region) : Option Phrase := do
  return .pat (.prim (.bool ((← part b "value" Phrase.word?).text == "true")) src)

/-- A string literal is a pattern only if nothing is embedded in it. -/
def strPat (b : Bindings Phrase) (src : Region) : Option Phrase := do
  let spans ← textPart b "value"
  if (Phrase.embedsOf spans).isEmpty then return .pat (.str (Phrase.textOf spans) src) else none

/-- A variable as a pattern. -/
def varPat (b : Bindings Phrase) (src : Region) : Option Phrase := do
  return .pat (.var (← part b "id" Phrase.word?).text src)

/-- A constructor with patterns for its fields. -/
def conPat (b : Bindings Phrase) (src : Region) : Option Phrase := do
  let name ← part b "name" Phrase.word?
  let args ← part b "args" (Phrase.manyOf? Phrase.pat?)
  return .pat (.con name.text args src)

/-- A tuple of patterns. -/
def tuplePat (b : Bindings Phrase) (src : Region) : Option Phrase := do
  return .pat (Phrase.tuplePat src (← part b "items" (Phrase.manyOf? Phrase.pat?)))

end Build
end TypeTrace
