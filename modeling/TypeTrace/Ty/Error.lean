import TypeTrace.Ty.Printer

/-!
# Type errors

Why a program, or a pair of types, has no type.  Every cause has a fixed code and a message.

## Main definitions

* `TypeError`: the causes
* `TypeError.code`, `TypeError.message`: how a cause is reported
-/

namespace TypeTrace

/-- Why inference fails. -/
inductive TypeError where
  /-- A variable without a binding in scope. -/
  | unboundVariable (name : String)
  /-- Two types with different heads. -/
  | incompatible (one two : Ty)
  /-- Two argument lists of different lengths. -/
  | arityMismatch (expected found : Nat)
  /-- A variable that would have to contain itself. -/
  | occursCheck (name : String) (ty : Ty)
  /-- A function without arguments. -/
  | emptyLambda
  /-- A call without arguments. -/
  | emptyCall
  /-- A pattern with an undeclared constructor. -/
  | unknownConstructor (name : String)
  /-- A `return` that no function encloses. -/
  | returnOutsideFunction
  /-- A substitution that would bind a bound name again. -/
  | substitutionOverwrite (name : String)
deriving DecidableEq

namespace TypeError

/-- The code of a cause. -/
def code : TypeError → String
  | unboundVariable _ => "TYPE010"
  | incompatible .. => "TYPE001"
  | arityMismatch .. => "TYPE003"
  | occursCheck .. => "TYPE002"
  | emptyLambda => "TYPE020"
  | emptyCall => "TYPE021"
  | unknownConstructor _ => "TYPE011"
  | returnOutsideFunction => "TYPE030"
  | substitutionOverwrite _ => "TYPE090"

/-- The message of a cause. -/
def message : TypeError → String
  | unboundVariable name => s!"未束縛変数: {name}"
  | incompatible one two => "型不一致: " ++ one.render ++ " vs " ++ two.render
  | arityMismatch expected found => s!"引数の数が異なります: {expected} vs {found}"
  | occursCheck name ty => s!"オカーズチェック失敗: {name} が " ++ ty.render ++ " に出現します"
  | emptyLambda => "引数のないラムダは扱えません"
  | emptyCall => "引数のない呼び出しは扱えません"
  | unknownConstructor name => s!"未知のコンストラクタ: {name}"
  | returnOutsideFunction => "関数の外で return しています"
  | substitutionOverwrite name => s!"置換の上書きが発生しました: {name}"

end TypeError
end TypeTrace
