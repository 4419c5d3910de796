import TypeTrace.Syntax.Basic

/-!
# Operators

Binary operators are words between two operands.  They come in levels, those of a higher level
binding tighter, and the operators of a level group to the left or to the right.  A sequence of
operands and operators is turned into a tree with two stacks: an operator waits on its stack until
one that does not bind tighter follows.

## Main definitions

* `Operator.levels`: the operators by level, the loosest first
* `Operator.level?`: level and grouping of an operator
* `Operator.climb`: the tree of a sequence of operands and operators
-/

namespace TypeTrace

/-- How operators of one level group. -/
inductive Assoc where
  | left
  | right
deriving DecidableEq, Inhabited

/-- A word in the source. -/
structure Word where
  /-- The text of the word. -/
  text : String
  /-- Its node. -/
  loc : Loc
deriving DecidableEq, Inhabited

namespace Operator

/-- The words that are read as binary operators. -/
def words : List String :=
  [ "<", ">", "<=", ">=", "!=", "==", "+", "-", "*", "/", "^", "%",
    "=", "+=", "-=", "|=", "/=", "*=" ]

/-- The operators by level, the loosest first. -/
def levels : List (List String × Assoc) :=
  [ (["=", "+=", "-=", "|=", "/=", "*="], .right),
    (["<", ">", "<=", ">=", "!=", "=="], .left),
    (["+", "-"], .left),
    (["*", "/", "%"], .left),
    (["^"], .right) ]

/-- The level of an operator, zero being the loosest, and how it groups. -/
def levelIn (op : String) (level : Nat) : List (List String × Assoc) → Option (Nat × Assoc)
  | [] => none
  | (ops, assoc) :: tighter =>
    if ops.contains op then some (level, assoc) else levelIn op (level + 1) tighter

/-- The level of an operator, zero being the loosest, and how it groups. -/
def level? (op : String) : Option (Nat × Assoc) := levelIn op 0 levels

/-- The call of an operator. -/
def apply (op : Word) (left right : Expr) : Expr :=
  .call (.var op.text ⟨op.loc, none⟩) [left, right] (left.region.merge right.region)

/-- An operator that waits for its right operand to be complete. -/
structure Pending where
  /-- The operator. -/
  op : Word
  /-- Its level. -/
  level : Nat
  /-- How it groups. -/
  assoc : Assoc

/-- A pending operator is complete when an operator of the given level follows. -/
def Pending.endsAt (p : Pending) (level : Nat) : Bool :=
  level < p.level || (level == p.level && p.assoc == .left)

/-- Apply the pending operators, from the top of the stack, as long as they satisfy `ends`. -/
def reduceWhile (ends : Pending → Bool) :
    List Pending → List Expr → Option (List Pending × List Expr)
  | [], operands => some ([], operands)
  | p :: ops, operands =>
    if ends p then
      match operands with
      | right :: left :: operands => reduceWhile ends ops (apply p.op left right :: operands)
      | _ => none
    else some (p :: ops, operands)

/-- Read the remaining operators and operands, given the stacks so far. -/
def climbWith (ops : List Pending) (operands : List Expr) : List (Word × Expr) → Option Expr
  | [] => do
    let (_, operands) ← reduceWhile (fun _ => true) ops operands
    operands.head?
  | (op, right) :: rest => do
    let (level, assoc) ← level? op.text
    let (ops, operands) ← reduceWhile (·.endsAt level) ops operands
    climbWith (⟨op, level, assoc⟩ :: ops) (right :: operands) rest

/-- The tree of a sequence of operands and operators, if all operators are known. -/
def climb (first : Expr) (rest : List (Word × Expr)) : Option Expr := climbWith [] [first] rest

end Operator
end TypeTrace
