import TypeTrace.Cst.Region

/-!
# Programs

The abstract syntax of the language: expressions, statements and patterns.  Operators, tuples,
arrays and method calls have no forms of their own; they are calls of functions with reserved
names.  Every phrase knows the region of the tree it was read from.

## Main definitions

* `Prim`, `Pat`, `Expr`, `Case`, `Stmt`: literals, patterns, expressions, cases and statements
* `Pat.region`, `Expr.region`, `Stmt.region`: where a phrase was read from
-/

namespace TypeTrace

/-- A literal. -/
inductive Prim where
  | int (value : Int)
  | bool (value : Bool)
deriving DecidableEq, Inhabited

/-- A pattern. -/
inductive Pat where
  /-- Matches everything and binds nothing. -/
  | any (src : Region)
  /-- Matches everything and binds it to a name. -/
  | var (name : String) (src : Region)
  /-- Matches what a constructor has built. -/
  | con (name : String) (args : List Pat) (src : Region)
  | str (value : String) (src : Region)
  | prim (value : Prim) (src : Region)
deriving Inhabited

mutual

/-- An expression. -/
inductive Expr where
  /-- Statements, of which the last one gives the value. -/
  | block (stmts : List Stmt) (src : Region)
  | ifElse (cond yes : Expr) (no : Option Expr) (src : Region)
  /-- The body of the first case whose pattern matches. -/
  | switch (target : Expr) (cases : List Case) (src : Region)
  | prim (value : Prim) (src : Region)
  | var (name : String) (src : Region)
  /-- A string literal, with the expressions embedded in it. -/
  | str (value : String) (embeds : List Expr) (src : Region)
  | lambda (args : List Pat) (body : Expr) (src : Region)
  | call (target : Expr) (args : List Expr) (src : Region)

/-- A case of a `switch`. -/
inductive Case where
  | mk (pat : Pat) (body : Expr)

/-- A statement. -/
inductive Stmt where
  | forLoop (init : Stmt) (cond update body : Expr) (src : Region)
  | letBind (pat : Pat) (init : Expr) (src : Region)
  | expr (value : Expr) (src : Region)
  | ret (value : Option Expr) (src : Region)

end

instance : Inhabited Expr := ⟨.block [] ⟨0, none⟩⟩

instance : Inhabited Stmt := ⟨.ret none ⟨0, none⟩⟩

instance : Inhabited Case := ⟨.mk default default⟩

/-- Where a pattern was read from. -/
def Pat.region : Pat → Region
  | any src | var _ src | con _ _ src | str _ src | prim _ src => src

/-- Where an expression was read from. -/
def Expr.region : Expr → Region
  | block _ src | ifElse _ _ _ src | switch _ _ src | prim _ src | var _ src | str _ _ src
  | lambda _ _ src | call _ _ src => src

/-- Where a statement was read from. -/
def Stmt.region : Stmt → Region
  | forLoop _ _ _ _ src | letBind _ _ src | expr _ src | ret _ src => src

/-- The expression is a function. -/
def Expr.isLambda : Expr → Bool
  | lambda .. => true
  | _ => false

end TypeTrace
