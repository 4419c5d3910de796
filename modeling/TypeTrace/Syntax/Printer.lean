import TypeTrace.Syntax.Basic
import TypeTrace.Text.Quoted

/-!
# Printed programs

Programs are shown on one line, with reserved functions written as calls.  Expressions embedded in
string literals are not shown.

## Main definitions

* `Pat.render`, `Expr.render`, `Stmt.render`: the text of a phrase
-/

namespace TypeTrace

/-- The text of a literal. -/
def Prim.render : Prim → String
  | int value => toString value
  | bool true => "true"
  | bool false => "false"

mutual

/-- The text of a pattern. -/
def Pat.render : Pat → String
  | .any _ => "_"
  | .var name _ => name
  | .con "," args _ => "(" ++ ", ".intercalate (Pat.renderAll args) ++ ")"
  | .con "null" [] _ => "()"
  | .con name args _ => name ++ "(" ++ ", ".intercalate (Pat.renderAll args) ++ ")"
  | .str value _ => Text.quote value
  | .prim value _ => value.render

/-- The texts of a list of patterns. -/
def Pat.renderAll : List Pat → List String
  | [] => []
  | p :: ps => p.render :: Pat.renderAll ps

end

mutual

/-- The text of an expression. -/
def Expr.render : Expr → String
  | .block stmts _ => "\x7b" ++ "; ".intercalate (Stmt.renderAll stmts) ++ "\x7d"
  | .ifElse cond yes no _ => "if (" ++ cond.render ++ ") " ++ yes.render ++ Expr.renderElse no
  | .switch target cases _ =>
    "switch (" ++ target.render ++ ") \x7b" ++ "; ".intercalate (Case.renderAll cases) ++ "\x7d"
  | .prim value _ => value.render
  | .var name _ => name
  | .str value _ _ => Text.quote value
  | .lambda args body _ => "(" ++ ", ".intercalate (Pat.renderAll args) ++ ") => " ++ body.render
  | .call target args _ => target.render ++ "(" ++ ", ".intercalate (Expr.renderAll args) ++ ")"

/-- The text of the second branch of an `if`. -/
def Expr.renderElse : Option Expr → String
  | none => ""
  | some no => " else " ++ no.render

/-- The texts of a list of expressions. -/
def Expr.renderAll : List Expr → List String
  | [] => []
  | e :: es => e.render :: Expr.renderAll es

/-- The text of a case. -/
def Case.render : Case → String
  | .mk pat body => pat.render ++ ": " ++ body.render

/-- The texts of a list of cases. -/
def Case.renderAll : List Case → List String
  | [] => []
  | c :: cs => c.render :: Case.renderAll cs

/-- The text of a statement. -/
def Stmt.render : Stmt → String
  | .forLoop init cond update body _ =>
    "for (" ++ init.render ++ "; " ++ cond.render ++ "; " ++ update.render ++ ") " ++ body.render
  | .letBind pat init _ => "let " ++ pat.render ++ " = " ++ init.render
  | .expr e _ => e.render
  | .ret none _ => "return"
  | .ret (some value) _ => "return " ++ value.render

/-- The texts of a list of statements. -/
def Stmt.renderAll : List Stmt → List String
  | [] => []
  | s :: ss => s.render :: Stmt.renderAll ss

end

end TypeTrace
