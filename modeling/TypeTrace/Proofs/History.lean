import TypeTrace.Proofs.Liveness
import TypeTrace.Proofs.Weakening

/-!
# Histories of inference

What holds at every point of a run is more than what holds at its end: a run may fail, and while a part of
a program is inferred, the environments of the parts around it stay in use.  To speak about the points of a
run, inference keeps a history: the state after every step, with the environments in use at that time.

Every environment of a run is the one that the program starts with, extended by what the program has bound
so far.  The history has the bindings of the program only, so that they can be told from those given to it.

## Main definitions

* `Moment`: a state of a run, with what the program has bound in the environments in use
* `HistoryM`: inference that keeps a history
* `HistoryM.erase`: a computation without its history
* `HistoryM.Passes`: a computation comes to a moment with a property

## Main results

* `HistoryM.erase_program`: the history changes nothing else
-/

namespace TypeTrace

/-- A point of a run. -/
structure Moment where
  /-- The state. -/
  ctx : Context
  /-- What the program has bound, for every environment in use from the outside in. -/
  scopes : List Scope

/-- The moment with one more environment in use, around the others. -/
def Moment.within (Δ : Scope) (p : Moment) : Moment := { p with scopes := Δ :: p.scopes }

/-- Computations of inference that keep a history, also when they fail. -/
def HistoryM (α : Type) : Type := Context → (Except TypeError α × Context) × List Moment

namespace HistoryM

instance : Monad HistoryM where
  pure a ctx := ((.ok a, ctx), [])
  bind w f ctx :=
    match (w ctx).1 with
    | (.ok a, ctx') => ((f a ctx').1, (w ctx).2 ++ (f a ctx').2)
    | (.error e, ctx') => ((.error e, ctx'), (w ctx).2)

/-- A step of inference. -/
instance : MonadLift InferM HistoryM where
  monadLift m ctx := (m.exec ctx, [⟨(m.exec ctx).2, []⟩])

/-- Use an environment throughout a computation, from its beginning to its end. -/
def inScope {α : Type} (Δ : Scope) (w : HistoryM α) : HistoryM α := fun ctx =>
  ((w ctx).1, ⟨ctx, [Δ]⟩ :: (w ctx).2.map (Moment.within Δ) ++ [⟨(w ctx).1.2, [Δ]⟩])

/-! ## Inference with a history -/

open InferM hiding pattern fields params expr embedded exprs otherwise cases stmts returned stmt recording

-- The environment that the program starts with.
variable (Γ : Env)

mutual

/-- The type of a pattern and the variables it binds. -/
def pattern : Pat → HistoryM (Ty × Scope)
  | .any src => do return (← freshVar (.patAny src), .empty)
  | .var name src => do
    let ty ← freshVar (.patVar name src)
    return (ty, .singleton name (.mono ty))
  | .prim value _ => return (value.ty, .empty)
  | .str _ _ => return (.string, .empty)
  | .con name args _ =>
    match Γ.constructors.get? name with
    | none => liftM (throw (.unknownConstructor name) : InferM (Ty × Scope))
    | some con => do
      if con.args.length ≠ args.length then
        liftM (throw (.arityMismatch con.args.length args.length) : InferM Unit)
      let fresh ← freshSubst con.free
      let scope ← fields (con.args.map (Ty.apply fresh)) .empty args
      return (← resolve (con.result.apply fresh), scope)

/-- Unify the patterns for the fields of a constructor with the declared types, and add what they
bind to `scope`. -/
def fields (declared : List Ty) (scope : Scope) : List Pat → HistoryM Scope
  | [] => return scope
  | p :: ps =>
    match declared with
    | [] => return scope
    | d :: ds => do
      let (ty, extra) ← pattern p
      unify ty d p.region "pattern" "constructor argument" none
      fields ds (scope.union extra) ps

end

/-- The types of parameters, and what they bind in addition to `scope`. -/
def params (scope : Scope) : List Pat → HistoryM (List Ty × Scope)
  | [] => return ([], scope)
  | p :: ps => do
    let (ty, extra) ← pattern Γ p
    let extra ← resolveScope extra
    emit (.infer p.region ty)
    let (tys, scope) ← params (scope.union extra) ps
    return (ty :: tys, scope)

/-- Find the type of an expression. -/
def recording (Δ : Scope) (src : Region) (find : HistoryM Ty) : HistoryM Ty := inScope Δ do
  noteScope (Γ.extend Δ)
  let ty ← find
  emit (.infer src ty)
  return ty

mutual

/-- The type of an expression. -/
def expr (Δ : Scope) : Expr → HistoryM Ty
  | .prim value src => recording Γ Δ src (return value.ty)
  | .str _ embeds src => recording Γ Δ src do
    embedded Δ embeds
    return .string
  | .var name src => recording Γ Δ src do
    match (Γ.extend Δ).lookup name with
    | none => liftM (throw (.unboundVariable name) : InferM Ty)
    | some scheme => instantiate scheme
  | .block body src => recording Γ Δ src (stmts Δ .empty .void body)
  | .lambda args body src => recording Γ Δ src do
    if args.isEmpty then liftM (throw .emptyLambda : InferM Unit)
    let ret ← freshVar (.lambdaReturn src)
    push src (lambdaLine (args.map fun _ => hole) hole)
    pause "lambda"
    let (tys, scope) ← params Γ (.singleton "return" (.mono ret)) args
    replace src (lambdaLine ((← resolveAll tys).map .ty) active)
    pause "lambda arguments"
    let bodyTy ← expr (Δ.union scope) body
    unify bodyTy (← resolve ret) body.region "body" "return type" none
    let result : Ty := .fn (← resolveAll tys) (← resolve bodyTy)
    replace src [.ty result]
    pause "lambda type"
    pop
    return result
  | .call target args src => recording Γ Δ src do
    if args.isEmpty then liftM (throw .emptyCall : InferM Unit)
    let result ← freshVar (.callResult src)
    emit (.infer src result)
    push src (callLine active (args.map fun _ => hole))
    pause "function call"
    let targetTy ← expr Δ target
    let argTys ← exprs Δ args
    replace src (callLine (.ty (← resolve targetTy)) ((← resolveAll argTys).map .ty))
    pause "call arguments"
    unify (← resolve targetTy) (.fn argTys result) src "callee" "call" none
    replace src [.ty (← resolve result)]
    pause "call result"
    pop
    resolve result
  | .ifElse cond yes no src => recording Γ Δ src do
    push src [.kwd "if", active, hole, .kwd "else", hole]
    pause "'if' expression"
    let condTy ← expr Δ cond
    unify condTy .bool cond.region "condition" "bool" none
    let yesTy ← expr (← resolveScope Δ) yes
    let noTy ← otherwise Δ no
    unify yesTy noTy src "then branch" "else branch" none
    replace src [.kwd "if", .ty .bool, .ty (← resolve yesTy), .kwd "else", .ty (← resolve noTy)]
    pause "branches agree"
    pop
    resolve yesTy
  | .switch target cs src => recording Γ Δ src do
    let targetTy ← expr Δ target
    let result ← freshVar (.switchResult src)
    push src [.kwd "switch", .ty (← resolve targetTy), active]
    pause "'switch' expression"
    cases Δ targetTy result cs
    pop
    resolve result

/-- Type the expressions embedded in a string literal. -/
def embedded (Δ : Scope) : List Expr → HistoryM Unit
  | [] => return ()
  | e :: es => do
    let _ ← expr (← resolveScope Δ) e
    embedded Δ es

/-- The types of arguments. -/
def exprs (Δ : Scope) : List Expr → HistoryM (List Ty)
  | [] => return []
  | e :: es => do
    let ty ← expr (← resolveScope Δ) e
    return ty :: (← exprs Δ es)

/-- The type of the second branch of an `if`; a missing one has no value. -/
def otherwise (Δ : Scope) : Option Expr → HistoryM Ty
  | none => return .void
  | some e => do expr (← resolveScope Δ) e

/-- Unify every pattern with the type of the target, and every body with that of the result. -/
def cases (Δ : Scope) (targetTy result : Ty) : List Case → HistoryM Unit
  | [] => return ()
  | .mk pat body :: cs => do
    let (patTy, scope) ← pattern Γ pat
    unify patTy targetTy pat.region "pattern" "target" none
    let scope ← resolveScope scope
    let bodyTy ← expr ((← resolveScope Δ).union scope) body
    unify (← resolve result) bodyTy body.region "result" "case body" none
    cases Δ targetTy result cs

/-- Type the statements of a block, given what the earlier ones bind and the type of the last of
them. -/
def stmts (Δ : Scope) (scope : Scope) (last : Ty) : List Stmt → HistoryM Ty
  | [] => resolve last
  | s :: ss => do
    -- The block goes on with these bindings after the statement, which itself sees them up to date.
    let result ← inScope (Δ.union scope) do
      stmt ((← resolveScope Δ).union (← resolveScope scope)) s
    stmts Δ (scope.union (result.scope.getD .empty)) result.ty ss

/-- The type of a returned value. -/
def returned (Δ : Scope) : Option Expr → HistoryM Ty
  | none => return .void
  | some e => expr Δ e

/-- The type of a statement, and what it binds. -/
def stmt (Δ : Scope) : Stmt → HistoryM StmtResult
  | .expr e _ => inScope Δ do return { ty := ← expr Δ e }
  | .ret value src => inScope Δ do
    let any ← freshVar (.returnAny src)
    match (Γ.extend Δ).lookup "return" with
    | none => liftM (throw .returnOutsideFunction : InferM StmtResult)
    | some expected =>
      push src [.kwd "return", active]
      pause "'return' statement"
      let found ← returned Δ value
      unify expected.body found src "return type" "returned value" none
      replace src [.kwd "return", .ty (← resolve found)]
      pause "returned type"
      pop
      return { ty := any }
  | .letBind (.var name patSrc) init src => inScope Δ do
    push src (letLine hole hole hole)
    pause "'let' statement"
    replace src (letLine (.text name) hole hole)
    pause "pattern name"
    let var ← freshVar (.patVar name patSrc)
    emit (.infer patSrc var)
    push patSrc [.text name, .text "→", .ty var]
    pause "new type variable"
    pop
    replace src (letLine (.text name) (.ty var) hole)
    pause "pattern type"
    replace src (letLine (.text name) (.ty var) active)
    let value ← expr (Δ.union (.singleton name (.mono var))) init
    unify (← resolve var) value src "pattern" "value" none
    replace src (letLine (.text name) (.ty (← resolve var)) (.ty (← resolve value)))
    pause "unify pattern and value"
    pop
    let value ← resolve value
    let Δ ← resolveScope Δ
    let scheme := if init.isLambda then (Γ.extend Δ).generalize value else .mono value
    return { ty := .void, scope := some (.singleton name scheme) }
  | .letBind pat init src => inScope Δ do
    push src [.kwd "let", .text pat.render, .text "=", active]
    pause "'let' statement"
    let (patTy, scope) ← pattern Γ pat
    let value ← expr Δ init
    unify patTy value src "pattern" "value" none
    pause "unify pattern and value"
    pop
    return { ty := .void, scope := some (← resolveScope scope) }
  | .forLoop init cond update body src => inScope Δ do
    push src [.kwd "for", active]
    pause "'for' loop"
    let first ← stmt Δ init
    let inner := (← resolveScope Δ).union (← resolveScope (first.scope.getD .empty))
    inScope inner do
      let condTy ← expr inner cond
      unify condTy .bool cond.region "condition" "bool" none
      let inner ← resolveScope inner
      inScope inner do
        let _ ← expr inner update
        let _ ← expr (← resolveScope inner) body
        pop
        return { ty := .void }

end

section

-- The equations of these functions are made here, not by all the proofs at once that need them first.
attribute [local simp] expr stmt

end

end HistoryM

/-! ## The history changes nothing -/

/-- In an environment that extends a closed one, only the extension needs to be brought up to date. -/
theorem Env.Closed.apply_extend {Γ : Env} (hΓ : Γ.Closed) (Δ : Scope) (σ : Subst) :
    (Γ.extend Δ).apply σ = Γ.extend (Scope.apply σ Δ) := by
  have hscope : Scope.Closed Γ.scope := hΓ.free
  have hsame : Γ.apply σ = Γ := by rw [apply, hscope.apply_eq]
  rw [Env.apply_extend, hsame]

namespace InferM

variable {α β : Type} {Γ : Env}

/-- Computations are known by what they do. -/
theorem exec_ext {m m' : InferM α} (h : ∀ ctx, exec m ctx = exec m' ctx) : m = m' := funext h

theorem resolveEnv_extend_bind (hΓ : Γ.Closed) (Δ : Scope) (g : Env → InferM β) :
    resolveEnv (Γ.extend Δ) >>= g = resolveScope Δ >>= fun Δ' => g (Γ.extend Δ') := by
  refine exec_ext fun ctx => ?_
  rw [exec_bind, exec_bind]
  change exec (g ((Γ.extend Δ).apply ctx.subst)) ctx = exec (g (Γ.extend (Scope.apply ctx.subst Δ))) ctx
  rw [hΓ.apply_extend]

end InferM

namespace HistoryM

open InferM (exec exec_bind exec_ext resolveEnv_extend_bind)

variable {α β : Type} {Γ : Env}

/-- The computation without its history. -/
def erase (w : HistoryM α) : InferM α := ExceptT.mk fun ctx => (w ctx).1

theorem exec_erase (w : HistoryM α) (ctx : Context) : exec w.erase ctx = (w ctx).1 := rfl

@[simp] theorem erase_pure (a : α) : erase (pure a) = pure a :=
  exec_ext fun _ => rfl

@[simp] theorem erase_lift (m : InferM α) : erase (liftM m) = m :=
  exec_ext fun _ => rfl

@[simp] theorem erase_inScope (Δ : Scope) (w : HistoryM α) : (inScope Δ w).erase = w.erase :=
  exec_ext fun _ => rfl

theorem run_bind_ok {w : HistoryM α} {f : α → HistoryM β} {ctx ctx' : Context} {a : α}
    (h : (w ctx).1 = (.ok a, ctx')) : (w >>= f) ctx = ((f a ctx').1, (w ctx).2 ++ (f a ctx').2) := by
  change (match (w ctx).1 with | (.ok a, ctx') => _ | (.error e, ctx') => _) = _
  rw [h]

theorem run_bind_error {w : HistoryM α} {f : α → HistoryM β} {ctx ctx' : Context} {e : TypeError}
    (h : (w ctx).1 = (.error e, ctx')) : (w >>= f) ctx = ((.error e, ctx'), (w ctx).2) := by
  change (match (w ctx).1 with | (.ok a, ctx') => _ | (.error e, ctx') => _) = _
  rw [h]

@[simp] theorem erase_bind (w : HistoryM α) (f : α → HistoryM β) :
    (w >>= f).erase = w.erase >>= fun a => (f a).erase := by
  refine exec_ext fun ctx => ?_
  rw [exec_bind, exec_erase, exec_erase]
  rcases h : (w ctx).1 with ⟨e | a, ctx'⟩
  · rw [run_bind_error h]
  · rw [run_bind_ok h]
    exact (exec_erase (f a) ctx').symm

@[simp] theorem erase_ite (p : Prop) [Decidable p] (w w' : HistoryM α) :
    (if p then w else w').erase = if p then w.erase else w'.erase := apply_ite erase p w w'

mutual

theorem erase_pattern (Δ : Scope) (p : Pat) :
    (pattern Γ p).erase = InferM.pattern (Γ.extend Δ) p := by
  cases p with
  | any | var | prim | str =>
    rw [pattern, InferM.pattern]
    simp
  | con name args src =>
    rw [pattern, InferM.pattern, Env.constructors_extend]
    cases Γ.constructors.get? name with
    | none => rw [erase_lift]
    | some con => simp [erase_fields Δ]

theorem erase_fields (Δ : Scope) (declared : List Ty) (scope : Scope) (ps : List Pat) :
    (fields Γ declared scope ps).erase = InferM.fields (Γ.extend Δ) declared scope ps := by
  cases ps with
  | nil => rw [fields, InferM.fields, erase_pure]
  | cons p ps =>
    cases declared with
    | nil => rw [fields, InferM.fields, erase_pure]
    | cons d ds =>
      rw [fields, InferM.fields, erase_bind, erase_pattern Δ]
      refine bind_congr fun r => ?_
      obtain ⟨ty, extra⟩ := r
      simp [erase_fields Δ]

end

theorem erase_params (Δ scope : Scope) (ps : List Pat) :
    (params Γ scope ps).erase = InferM.params (Γ.extend Δ) scope ps := by
  induction ps generalizing scope with
  | nil => rw [params, InferM.params, erase_pure]
  | cons p ps ih =>
    rw [params, InferM.params, erase_bind, erase_pattern Δ]
    refine bind_congr fun r => ?_
    obtain ⟨ty, extra⟩ := r
    simp only [erase_bind, erase_lift, ih]
    rfl

@[simp] theorem erase_recording (Δ : Scope) (src : Region) (find : HistoryM Ty) :
    (recording Γ Δ src find).erase = InferM.recording (Γ.extend Δ) src find.erase := by
  simp [recording, InferM.recording]

/-- Inference of the expression with a history does the same as without. -/
def ErasesExpr (Γ : Env) (e : Expr) : Prop :=
  ∀ Δ : Scope, (expr Γ Δ e).erase = InferM.expr (Γ.extend Δ) e

/-- Inference of the statement with a history does the same as without. -/
def ErasesStmt (Γ : Env) (s : Stmt) : Prop :=
  ∀ Δ : Scope, (stmt Γ Δ s).erase = InferM.stmt (Γ.extend Δ) s

section

variable (hΓ : Γ.Closed) {es : List Expr} {Δ : Scope}
include hΓ

theorem erase_embedded (hes : ∀ e ∈ es, ErasesExpr Γ e) :
    (embedded Γ Δ es).erase = InferM.embedded (Γ.extend Δ) es := by
  induction es with
  | nil => rw [embedded, InferM.embedded, erase_pure]
  | cons e es ih =>
    obtain ⟨he, hes⟩ := List.forall_mem_cons.mp hes
    rw [embedded, InferM.embedded, resolveEnv_extend_bind hΓ]
    simp [he _, ih hes]

theorem erase_exprs (hes : ∀ e ∈ es, ErasesExpr Γ e) :
    (exprs Γ Δ es).erase = InferM.exprs (Γ.extend Δ) es := by
  induction es with
  | nil => rw [exprs, InferM.exprs, erase_pure]
  | cons e es ih =>
    obtain ⟨he, hes⟩ := List.forall_mem_cons.mp hes
    rw [exprs, InferM.exprs, resolveEnv_extend_bind hΓ]
    simp [he _, ih hes]

theorem erase_otherwise {no : Option Expr} (hno : ∀ e ∈ no, ErasesExpr Γ e) :
    (otherwise Γ Δ no).erase = InferM.otherwise (Γ.extend Δ) no := by
  cases no with
  | none => rw [otherwise, InferM.otherwise, erase_pure]
  | some e =>
    rw [otherwise, InferM.otherwise, resolveEnv_extend_bind hΓ]
    simp [hno e rfl _]

omit hΓ in
theorem erase_returned {value : Option Expr} (hvalue : ∀ e ∈ value, ErasesExpr Γ e) :
    (returned Γ Δ value).erase = InferM.returned (Γ.extend Δ) value := by
  cases value with
  | none => rw [returned, InferM.returned, erase_pure]
  | some e => rw [returned, InferM.returned, hvalue e rfl]

theorem erase_cases {targetTy result : Ty} {cs : List Case}
    (hcs : ∀ p e, Case.mk p e ∈ cs → ErasesExpr Γ e) :
    (cases Γ Δ targetTy result cs).erase = InferM.cases (Γ.extend Δ) targetTy result cs := by
  induction cs with
  | nil => rw [cases, InferM.cases, erase_pure]
  | cons first cs ih =>
    obtain ⟨p, e⟩ := first
    rw [cases, InferM.cases, erase_bind, erase_pattern Δ]
    refine bind_congr fun r => ?_
    obtain ⟨patTy, scope⟩ := r
    have hrest := ih fun p e he => hcs p e (List.mem_cons_of_mem _ he)
    simp [resolveEnv_extend_bind hΓ, Env.extend_extend, hcs p e List.mem_cons_self _, hrest]

theorem erase_stmts {scope : Scope} {last : Ty} {ss : List Stmt} (hss : ∀ s ∈ ss, ErasesStmt Γ s) :
    (stmts Γ Δ scope last ss).erase = InferM.stmts (Γ.extend Δ) scope last ss := by
  induction ss generalizing scope last with
  | nil => rw [stmts, InferM.stmts, erase_lift]
  | cons s ss ih =>
    obtain ⟨hs, hss⟩ := List.forall_mem_cons.mp hss
    rw [stmts, InferM.stmts, resolveEnv_extend_bind hΓ]
    simp [Env.extend_extend, hs _, ih hss]

end

/-- **The history changes nothing**: without it, inference is inference. -/
theorem erase_program (hΓ : Γ.Closed) : (∀ e, ErasesExpr Γ e) ∧ ∀ s, ErasesStmt Γ s := by
  refine Expr.induction ?block ?ifElse ?switch ?prim ?var ?str ?lambda ?call ?forLoop ?letBind ?expr ?ret
  case block =>
    intro ss src hss Δ
    rw [expr, InferM.expr, erase_recording, erase_stmts hΓ hss]
  case ifElse =>
    intro cond yes no src hcond hyes hno Δ
    rw [expr, InferM.expr, erase_recording]
    -- The environment is the closed one with a scope; bindings act on the scope alone.
    simp [hcond Δ, hyes _, resolveEnv_extend_bind hΓ, erase_otherwise hΓ hno]
  case switch =>
    intro target cs src htarget hcs Δ
    rw [expr, InferM.expr, erase_recording]
    simp [htarget Δ, erase_cases hΓ hcs]
  case prim =>
    intro value src Δ
    rw [expr, InferM.expr, erase_recording, erase_pure]
  case var =>
    intro name src Δ
    rw [expr, InferM.expr, erase_recording]
    cases (Γ.extend Δ).lookup name with
    | none => rw [erase_lift]
    | some scheme => rw [erase_lift]
  case str =>
    intro value embeds src hembeds Δ
    rw [expr, InferM.expr, erase_recording]
    simp [erase_embedded hΓ hembeds]
  case lambda =>
    intro args body src hbody Δ
    rw [expr, InferM.expr, erase_recording]
    simp [hbody _, erase_params Δ, Env.extend_extend]
  case call =>
    intro target args src htarget hargs Δ
    rw [expr, InferM.expr, erase_recording]
    simp [htarget Δ, erase_exprs hΓ hargs]
  case forLoop =>
    intro init cond update body src hinit hcond hupdate hbody Δ
    rw [stmt, InferM.stmt]
    simp [hinit Δ, hcond _, hupdate _, hbody _, resolveEnv_extend_bind hΓ, Env.extend_extend]
  case letBind =>
    intro p init src hinit Δ
    by_cases hvar : ∃ name patSrc, p = .var name patSrc
    · obtain ⟨name, patSrc, rfl⟩ := hvar
      rw [stmt, InferM.stmt]
      simp [hinit _, Env.extend_extend, resolveEnv_extend_bind hΓ]
    · have hp : ∀ name patSrc, p ≠ .var name patSrc := fun name patSrc hp => hvar ⟨name, patSrc, hp⟩
      rw [stmt, InferM.stmt]
      · simp [hinit Δ, erase_pattern Δ]
      all_goals exact hp
  case expr =>
    intro e src he Δ
    rw [stmt, InferM.stmt]
    simp [he Δ]
  case ret =>
    intro value src hvalue Δ
    rw [stmt, InferM.stmt]
    cases (Γ.extend Δ).lookup "return" with
    | none => simp
    | some expected => simp [erase_returned hvalue]

/-! ## Moments of a run -/

/-- A statement has its environment in use from the beginning of its run to the end. -/
theorem exists_stmt_eq (Γ : Env) (Δ : Scope) (s : Stmt) (ctx : Context) : ∃ between,
    (stmt Γ Δ s ctx).2 = ⟨ctx, [Δ]⟩ :: between ++ [⟨(stmt Γ Δ s ctx).1.2, [Δ]⟩] := by
  cases s with
  | expr | ret | forLoop =>
    rw [stmt]
    exact ⟨_, rfl⟩
  | letBind p init src =>
    by_cases hvar : ∃ name patSrc, p = .var name patSrc
    · obtain ⟨name, patSrc, rfl⟩ := hvar
      rw [stmt]
      exact ⟨_, rfl⟩
    · rw [stmt]
      · exact ⟨_, rfl⟩
      · exact fun name patSrc hp => hvar ⟨name, patSrc, hp⟩

section Passes

open InferM (Yields)

variable {Q : Subst → Scope → Prop} {c c' : Store} {Δ scope : Scope}

/-- From every state with the store, the computation comes to a moment at which the property holds of the
bindings and an environment in use. -/
def Passes (Q : Subst → Scope → Prop) (c : Store) (w : HistoryM α) : Prop :=
  ∀ ctx : Context, ctx.store = c → ∃ p ∈ (w ctx).2, ∃ Δ ∈ p.scopes, Q p.ctx.subst Δ

theorem Passes.bind_left {w : HistoryM α} {f : α → HistoryM β} (h : Passes Q c w) : Passes Q c (w >>= f) := by
  intro ctx hctx
  obtain ⟨p, hp, hQ⟩ := h ctx hctx
  refine ⟨p, ?_, hQ⟩
  rcases hr : (w ctx).1 with ⟨e | a, ctx'⟩
  · rwa [run_bind_error hr]
  · rw [run_bind_ok hr]
    exact List.mem_append_left _ hp

theorem Passes.bind_right {w : HistoryM α} {f : α → HistoryM β} {a : α}
    (hw : ∀ ctx : Context, ctx.store = c → ∃ ctx', (w ctx).1 = (.ok a, ctx') ∧ ctx'.store = c')
    (h : Passes Q c' (f a)) : Passes Q c (w >>= f) := by
  intro ctx hctx
  obtain ⟨ctx', hr, hctx'⟩ := hw ctx hctx
  obtain ⟨p, hp, hQ⟩ := h ctx' hctx'
  rw [run_bind_ok hr]
  exact ⟨p, List.mem_append_right _ hp, hQ⟩

theorem Passes.inScope {w : HistoryM α} (h : Passes Q c w) : Passes Q c (inScope Δ w) := by
  intro ctx hctx
  obtain ⟨p, hp, Δ', hΔ', hQ⟩ := h ctx hctx
  refine ⟨p.within Δ, ?_, Δ', List.mem_cons_of_mem _ hΔ', hQ⟩
  exact List.mem_append_left _ (List.mem_cons_of_mem _ (List.mem_map_of_mem hp))

/-- A block passes through the moments of its statements. -/
theorem Passes.block {ss : List Stmt} {src src' : Region}
    (h : Passes Q c (stmts Γ Δ .empty .void ss)) : Passes Q c (stmt Γ Δ (.expr (.block ss src) src')) := by
  rw [stmt, expr, recording]
  refine .inScope (.bind_left (.inScope (.bind_right (a := ()) (fun ctx hctx => ?_) (.bind_left h))))
  rcases InferM.exec_noteScope (Γ.extend Δ) ctx with hr | hr
  all_goals exact ⟨_, hr, hctx⟩

variable {s : Stmt} {ss : List Stmt} {last : Ty} {r : StmtResult}

/-- The run of a statement in a block. -/
theorem run_blockStmt (hΓ : Γ.Closed)
    (h : Yields (InferM.stmt (Γ.extend ((Scope.apply c.subst Δ).union (Scope.apply c.subst scope))) s) c r c')
    {ctx : Context} (hctx : ctx.store = c) :
    ∃ ctx', (HistoryM.inScope (Δ.union scope) (do
      stmt Γ ((← InferM.resolveScope Δ).union (← InferM.resolveScope scope)) s) ctx).1 = (.ok r, ctx') ∧
      ctx'.store = c' := by
  obtain ⟨ctx', hexec, hctx'⟩ := h.exec_eq (InferM.stepwise_stmt ..) hctx
  refine ⟨ctx', ?_, hctx'⟩
  rw [← exec_erase]
  simp only [erase_inScope, erase_bind, erase_lift, (erase_program hΓ).2 s _]
  subst hctx
  simp only [InferM.resolveScope, InferM.exec_bind, InferM.exec_subst, InferM.exec_pure]
  exact hexec

/-- Go on with the next statement of a block. -/
theorem Passes.next (hΓ : Γ.Closed)
    (hs : Yields (InferM.stmt (Γ.extend ((Scope.apply c.subst Δ).union (Scope.apply c.subst scope))) s) c r c')
    (h : Passes Q c' (stmts Γ Δ (scope.union (r.scope.getD .empty)) r.ty ss)) :
    Passes Q c (stmts Γ Δ scope last (s :: ss)) := by
  rw [stmts]
  exact .bind_right (fun ctx hctx => run_blockStmt hΓ hs hctx) h

/-- What the block has bound is still in use at the end of a statement. -/
theorem Passes.here (hΓ : Γ.Closed)
    (hs : Yields (InferM.stmt (Γ.extend ((Scope.apply c.subst Δ).union (Scope.apply c.subst scope))) s) c r c')
    (hQ : Q c'.subst (Δ.union scope)) : Passes Q c (stmts Γ Δ scope last (s :: ss)) := by
  rw [stmts]
  refine .bind_left fun ctx hctx => ?_
  obtain ⟨ctx', hr, rfl⟩ := run_blockStmt hΓ hs hctx
  refine ⟨⟨ctx', [Δ.union scope]⟩, List.mem_append_right _ ?_, _, List.mem_singleton_self _, hQ⟩
  exact List.mem_singleton.mpr (congrArg (fun out => Moment.mk out.2 [Δ.union scope]) hr.symm)

end Passes

end HistoryM
end TypeTrace
