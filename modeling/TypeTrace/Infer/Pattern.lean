import TypeTrace.Infer.Context
import TypeTrace.Syntax.Basic

/-!
# Types of patterns

A pattern has a type and binds variables.  The fields of a constructor are unified with the types
it is declared with, from the left.

## Main definitions

* `Prim.ty`: the type of a literal
* `InferM.pattern`: the type of a pattern and the variables it binds
-/

namespace TypeTrace

/-- The type of a literal. -/
def Prim.ty : Prim → Ty
  | int _ => .int
  | bool _ => .bool

namespace InferM

mutual

/-- The type of a pattern and the variables it binds. -/
def pattern (env : Env) : Pat → InferM (Ty × Scope)
  | .any src => do return (← freshVar (.patAny src), .empty)
  | .var name src => do
    let ty ← freshVar (.patVar name src)
    return (ty, .singleton name (.mono ty))
  | .prim value _ => return (value.ty, .empty)
  | .str _ _ => return (.string, .empty)
  | .con name args _ =>
    match env.constructors.get? name with
    | none => throw (.unknownConstructor name)
    | some con => do
      if con.args.length ≠ args.length then
        throw (.arityMismatch con.args.length args.length)
      let fresh ← freshSubst con.free
      let scope ← fields env (con.args.map (Ty.apply fresh)) .empty args
      return (← resolve (con.result.apply fresh), scope)

/-- Unify the patterns for the fields of a constructor with the declared types, and add what they
bind to `scope`. -/
def fields (env : Env) (declared : List Ty) (scope : Scope) : List Pat → InferM Scope
  | [] => return scope
  | p :: ps =>
    match declared with
    | [] => return scope
    | d :: ds => do
      let (ty, extra) ← pattern env p
      unify ty d p.region "pattern" "constructor argument" none
      fields env ds (scope.union extra) ps

end

end InferM
end TypeTrace
