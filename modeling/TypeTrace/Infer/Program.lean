import TypeTrace.Infer.Pattern
import TypeTrace.Syntax.Printer

/-!
# Types of programs

Expressions and statements are typed from the outside in and from left to right, with one
substitution for the whole program.  A function that is bound by `let` is generalised over the
variables that the environment does not mention; all other bindings have one type.  The type of
what a function returns is bound, in its body, to the name `return`.

## Main definitions

* `InferM.expr`, `InferM.stmt`: the types of expressions and statements
* `Infer.program`: the type of a program with the record of its inference
-/

namespace TypeTrace

/-- The result of a statement: its type, and the bindings that later statements see. -/
structure StmtResult where
  /-- The type. -/
  ty : Ty
  /-- The bindings, if the statement makes any. -/
  scope : Option Scope := none
deriving DecidableEq, Inhabited

namespace InferM

/-! ## Lines of explanation -/

/-- A part whose type is not known yet. -/
def hole : StackItem := .hole false

/-- The part that is worked on. -/
def active : StackItem := .hole true

/-- The line for a `let` of a variable. -/
def letLine (name ty value : StackItem) : StackLine := [.kwd "let", name, ty, .text "=", value]

/-- The line for a call. -/
def callLine (target : StackItem) (args : List StackItem) : StackLine :=
  target :: .text "(" :: args ++ [.text ")"]

/-- The line for a function. -/
def lambdaLine (args : List StackItem) (result : StackItem) : StackLine :=
  args ++ [.kwd "=>", result]

/-! ## Parameters -/

/-- The types of parameters, and what they bind in addition to `scope`. -/
def params (env : Env) (scope : Scope) : List Pat → InferM (List Ty × Scope)
  | [] => return ([], scope)
  | p :: ps => do
    let (ty, extra) ← pattern env p
    let extra ← resolveScope extra
    emit (.infer p.region ty)
    let (tys, scope) ← params env (scope.union extra) ps
    return (ty :: tys, scope)

/-- The types with the bindings so far applied. -/
def resolveAll (ts : List Ty) : InferM (List Ty) := do return ts.map (Ty.apply (← subst))

/-! ## Expressions and statements -/

mutual

/-- The type of an expression. -/
def expr (env : Env) : Expr → InferM Ty
  | .prim value src => recording env src (return value.ty)
  | .str _ embeds src => recording env src do
    embedded env embeds
    return .string
  | .var name src => recording env src do
    match env.lookup name with
    | none => throw (.unboundVariable name)
    | some scheme => instantiate scheme
  | .block body src => recording env src (stmts env .empty .void body)
  | .lambda args body src => recording env src do
    if args.isEmpty then throw .emptyLambda
    -- `return` statements of the body find this type under the name `return`.
    let ret ← freshVar (.lambdaReturn src)
    push src (lambdaLine (args.map fun _ => hole) hole)
    pause "lambda"
    let (tys, scope) ← params env (.singleton "return" (.mono ret)) args
    replace src (lambdaLine ((← resolveAll tys).map .ty) active)
    pause "lambda arguments"
    let bodyTy ← expr (env.extend scope) body
    unify bodyTy (← resolve ret) body.region "body" "return type" none
    let result : Ty := .fn (← resolveAll tys) (← resolve bodyTy)
    replace src [.ty result]
    pause "lambda type"
    pop
    return result
  | .call target args src => recording env src do
    if args.isEmpty then throw .emptyCall
    let result ← freshVar (.callResult src)
    -- The call is logged before its parts, so that a viewer can mark it while they are typed.
    emit (.infer src result)
    push src (callLine active (args.map fun _ => hole))
    pause "function call"
    let targetTy ← expr env target
    let argTys ← exprs env args
    replace src (callLine (.ty (← resolve targetTy)) ((← resolveAll argTys).map .ty))
    pause "call arguments"
    unify (← resolve targetTy) (.fn argTys result) src "callee" "call" none
    replace src [.ty (← resolve result)]
    pause "call result"
    pop
    resolve result
  | .ifElse cond yes no src => recording env src do
    push src [.kwd "if", active, hole, .kwd "else", hole]
    pause "'if' expression"
    let condTy ← expr env cond
    unify condTy .bool cond.region "condition" "bool" none
    let yesTy ← expr (← resolveEnv env) yes
    let noTy ← otherwise env no
    unify yesTy noTy src "then branch" "else branch" none
    replace src [.kwd "if", .ty .bool, .ty (← resolve yesTy), .kwd "else", .ty (← resolve noTy)]
    pause "branches agree"
    pop
    resolve yesTy
  | .switch target cs src => recording env src do
    let targetTy ← expr env target
    let result ← freshVar (.switchResult src)
    push src [.kwd "switch", .ty (← resolve targetTy), active]
    pause "'switch' expression"
    cases env targetTy result cs
    pop
    resolve result

/-- Type the expressions embedded in a string literal. -/
def embedded (env : Env) : List Expr → InferM Unit
  | [] => return ()
  | e :: es => do
    let _ ← expr (← resolveEnv env) e
    embedded env es

/-- The types of arguments. -/
def exprs (env : Env) : List Expr → InferM (List Ty)
  | [] => return []
  | e :: es => do
    let ty ← expr (← resolveEnv env) e
    return ty :: (← exprs env es)

/-- The type of the second branch of an `if`; a missing one has no value. -/
def otherwise (env : Env) : Option Expr → InferM Ty
  | none => return .void
  | some e => do expr (← resolveEnv env) e

/-- Unify every pattern with the type of the target, and every body with that of the result. -/
def cases (env : Env) (targetTy result : Ty) : List Case → InferM Unit
  | [] => return ()
  | .mk pat body :: cs => do
    let (patTy, scope) ← pattern env pat
    unify patTy targetTy pat.region "pattern" "target" none
    let scope ← resolveScope scope
    let bodyTy ← expr ((← resolveEnv env).extend scope) body
    unify (← resolve result) bodyTy body.region "result" "case body" none
    cases env targetTy result cs

/-- Type the statements of a block, given what the earlier ones bind and the type of the last of
them. -/
def stmts (env : Env) (scope : Scope) (last : Ty) : List Stmt → InferM Ty
  | [] => resolve last
  | s :: ss => do
    let result ← stmt ((← resolveEnv env).extend (← resolveScope scope)) s
    stmts env (scope.union (result.scope.getD .empty)) result.ty ss

/-- The type of a returned value. -/
def returned (env : Env) : Option Expr → InferM Ty
  | none => return .void
  | some e => expr env e

/-- The type of a statement, and what it binds. -/
def stmt (env : Env) : Stmt → InferM StmtResult
  | .expr e _ => do return { ty := ← expr env e }
  | .ret value src => do
    -- No value ever comes out of a `return`, so it may stand where any type is expected.
    let any ← freshVar (.returnAny src)
    match env.lookup "return" with
    | none => throw .returnOutsideFunction
    | some expected =>
      push src [.kwd "return", active]
      pause "'return' statement"
      let found ← returned env value
      unify expected.body found src "return type" "returned value" none
      replace src [.kwd "return", .ty (← resolve found)]
      pause "returned type"
      pop
      return { ty := any }
  | .letBind (.var name patSrc) init src => do
    push src (letLine hole hole hole)
    pause "'let' statement"
    replace src (letLine (.text name) hole hole)
    pause "pattern name"
    let var ← freshVar (.patVar name patSrc)
    emit (.infer patSrc var)
    push patSrc [.text name, .text "→", .ty var]
    pause "new type variable"
    pop
    replace src (letLine (.text name) (.ty var) hole)
    pause "pattern type"
    replace src (letLine (.text name) (.ty var) active)
    -- The initialiser may refer to itself, at one type.
    let value ← expr (env.extend (.singleton name (.mono var))) init
    unify (← resolve var) value src "pattern" "value" none
    replace src (letLine (.text name) (.ty (← resolve var)) (.ty (← resolve value)))
    pause "unify pattern and value"
    pop
    let value ← resolve value
    let env ← resolveEnv env
    -- The name itself is not in this environment, so its own type does not stop generalisation.
    let scheme := if init.isLambda then env.generalize value else .mono value
    return { ty := .void, scope := some (.singleton name scheme) }
  | .letBind pat init src => do
    push src [.kwd "let", .text pat.render, .text "=", active]
    pause "'let' statement"
    let (patTy, scope) ← pattern env pat
    let value ← expr env init
    unify patTy value src "pattern" "value" none
    pause "unify pattern and value"
    pop
    return { ty := .void, scope := some (← resolveScope scope) }
  | .forLoop init cond update body src => do
    push src [.kwd "for", active]
    pause "'for' loop"
    let first ← stmt env init
    let env := (← resolveEnv env).extend (← resolveScope (first.scope.getD .empty))
    let condTy ← expr env cond
    unify condTy .bool cond.region "condition" "bool" none
    let env ← resolveEnv env
    let _ ← expr env update
    let _ ← expr (← resolveEnv env) body
    pop
    return { ty := .void }

end

end InferM

namespace Infer

/-- A type error, with the record of the inference up to it. -/
structure Failure where
  /-- The cause. -/
  error : TypeError
  /-- The record. -/
  trace : Trace
deriving DecidableEq

/-- The type of a program, with the record of its inference. -/
def program (env : Env) (s : Stmt) : Except Failure (Ty × Trace) :=
  match (InferM.stmt env s).run.run {} with
  | (.ok result, ctx) => .ok (result.ty.apply ctx.subst, ctx.trace)
  | (.error error, ctx) => .error ⟨error, ctx.trace⟩

end Infer
end TypeTrace
