import TypeTrace.Proofs.Declaration

/-!
# Scopes in the log

Inference logs the scope whenever it comes to an expression whose scope is not the one last logged.  A
viewer that only has the log, and the bindings so far, can tell the scope of every expression from it.

The state keeps the scope last logged as it was given, and the log has it with the bindings of that time.
Both are the same scope, because inference comes to no expression with an environment that is out of date:
the environment is brought up to date wherever variables that are free in it may have been bound, and
between these places inference creates variables and binds only those.

To speak about the moments when inference comes to an expression, a run keeps a record of them.  The
record changes nothing else: with it, inference has the same outcome and leaves the same state.

## Main definitions

* `Visit`, `WatchM`: inference that keeps a record of the expressions it comes to
* `Context.Shows`: the scope that the log shows under the bindings so far
* `Scope.Current`: the variables free in a scope are created and not bound
* `Watches`: a computation with a record goes along with one without

## Main results

* `watches_program`: inference with a record goes along with inference
* `visits_faithful`: the log shows the scope of every expression
-/

namespace TypeTrace

/-! ## Inference with a record -/

/-- Inference comes to an expression and logs its scope if necessary. -/
structure Visit where
  /-- The environment of the expression. -/
  env : Env
  /-- The state before. -/
  before : Context
  /-- The state after the scope has been logged, if necessary. -/
  after : Context

/-- Computations of inference that keep a record of their visits, also when they fail. -/
def WatchM (α : Type) : Type := Context → (Except TypeError α × Context) × List Visit

namespace WatchM

instance : Monad WatchM where
  pure a ctx := ((.ok a, ctx), [])
  bind w f ctx :=
    match (w ctx).1 with
    | (.ok a, ctx') => ((f a ctx').1, (w ctx).2 ++ (f a ctx').2)
    | (.error e, ctx') => ((.error e, ctx'), (w ctx).2)

/-- Computations without visits. -/
instance : MonadLift InferM WatchM where
  monadLift m ctx := (m.exec ctx, [])

open InferM hiding expr embedded exprs otherwise cases stmts returned stmt recording

/-- Come to an expression. -/
def visit (env : Env) : WatchM Unit := fun ctx =>
  (exec (noteScope env) ctx, [⟨env, ctx, (exec (noteScope env) ctx).2⟩])

/-- Find the type of an expression that inference comes to. -/
def recording (env : Env) (src : Region) (find : WatchM Ty) : WatchM Ty := do
  visit env
  let ty ← find
  emit (.infer src ty)
  return ty

mutual

/-- The type of an expression. -/
def expr (env : Env) : Expr → WatchM Ty
  | .prim value src => recording env src (return value.ty)
  | .str _ embeds src => recording env src do
    embedded env embeds
    return .string
  | .var name src => recording env src do
    match env.lookup name with
    | none => liftM (throw (.unboundVariable name) : InferM Ty)
    | some scheme => instantiate scheme
  | .block body src => recording env src (stmts env .empty .void body)
  | .lambda args body src => recording env src do
    if args.isEmpty then liftM (throw .emptyLambda : InferM Unit)
    let ret ← freshVar (.lambdaReturn src)
    push src (lambdaLine (args.map fun _ => hole) hole)
    pause "lambda"
    let (tys, scope) ← params env (.singleton "return" (.mono ret)) args
    replace src (lambdaLine ((← resolveAll tys).map .ty) active)
    pause "lambda arguments"
    let bodyTy ← expr (env.extend scope) body
    unify bodyTy (← resolve ret) body.region "body" "return type" none
    let result : Ty := .fn (← resolveAll tys) (← resolve bodyTy)
    replace src [.ty result]
    pause "lambda type"
    pop
    return result
  | .call target args src => recording env src do
    if args.isEmpty then liftM (throw .emptyCall : InferM Unit)
    let result ← freshVar (.callResult src)
    emit (.infer src result)
    push src (callLine active (args.map fun _ => hole))
    pause "function call"
    let targetTy ← expr env target
    let argTys ← exprs env args
    replace src (callLine (.ty (← resolve targetTy)) ((← resolveAll argTys).map .ty))
    pause "call arguments"
    unify (← resolve targetTy) (.fn argTys result) src "callee" "call" none
    replace src [.ty (← resolve result)]
    pause "call result"
    pop
    resolve result
  | .ifElse cond yes no src => recording env src do
    push src [.kwd "if", active, hole, .kwd "else", hole]
    pause "'if' expression"
    let condTy ← expr env cond
    unify condTy .bool cond.region "condition" "bool" none
    let yesTy ← expr (← resolveEnv env) yes
    let noTy ← otherwise env no
    unify yesTy noTy src "then branch" "else branch" none
    replace src [.kwd "if", .ty .bool, .ty (← resolve yesTy), .kwd "else", .ty (← resolve noTy)]
    pause "branches agree"
    pop
    resolve yesTy
  | .switch target cs src => recording env src do
    let targetTy ← expr env target
    let result ← freshVar (.switchResult src)
    push src [.kwd "switch", .ty (← resolve targetTy), active]
    pause "'switch' expression"
    cases env targetTy result cs
    pop
    resolve result

/-- Type the expressions embedded in a string literal. -/
def embedded (env : Env) : List Expr → WatchM Unit
  | [] => return ()
  | e :: es => do
    let _ ← expr (← resolveEnv env) e
    embedded env es

/-- The types of arguments. -/
def exprs (env : Env) : List Expr → WatchM (List Ty)
  | [] => return []
  | e :: es => do
    let ty ← expr (← resolveEnv env) e
    return ty :: (← exprs env es)

/-- The type of the second branch of an `if`; a missing one has no value. -/
def otherwise (env : Env) : Option Expr → WatchM Ty
  | none => return .void
  | some e => do expr (← resolveEnv env) e

/-- Unify every pattern with the type of the target, and every body with that of the result. -/
def cases (env : Env) (targetTy result : Ty) : List Case → WatchM Unit
  | [] => return ()
  | .mk pat body :: cs => do
    let (patTy, scope) ← pattern env pat
    unify patTy targetTy pat.region "pattern" "target" none
    let scope ← resolveScope scope
    let bodyTy ← expr ((← resolveEnv env).extend scope) body
    unify (← resolve result) bodyTy body.region "result" "case body" none
    cases env targetTy result cs

/-- Type the statements of a block, given what the earlier ones bind and the type of the last of
them. -/
def stmts (env : Env) (scope : Scope) (last : Ty) : List Stmt → WatchM Ty
  | [] => resolve last
  | s :: ss => do
    let result ← stmt ((← resolveEnv env).extend (← resolveScope scope)) s
    stmts env (scope.union (result.scope.getD .empty)) result.ty ss

/-- The type of a returned value. -/
def returned (env : Env) : Option Expr → WatchM Ty
  | none => return .void
  | some e => expr env e

/-- The type of a statement, and what it binds. -/
def stmt (env : Env) : Stmt → WatchM StmtResult
  | .expr e _ => do return { ty := ← expr env e }
  | .ret value src => do
    let any ← freshVar (.returnAny src)
    match env.lookup "return" with
    | none => liftM (throw .returnOutsideFunction : InferM StmtResult)
    | some expected =>
      push src [.kwd "return", active]
      pause "'return' statement"
      let found ← returned env value
      unify expected.body found src "return type" "returned value" none
      replace src [.kwd "return", .ty (← resolve found)]
      pause "returned type"
      pop
      return { ty := any }
  | .letBind (.var name patSrc) init src => do
    push src (letLine hole hole hole)
    pause "'let' statement"
    replace src (letLine (.text name) hole hole)
    pause "pattern name"
    let var ← freshVar (.patVar name patSrc)
    emit (.infer patSrc var)
    push patSrc [.text name, .text "→", .ty var]
    pause "new type variable"
    pop
    replace src (letLine (.text name) (.ty var) hole)
    pause "pattern type"
    replace src (letLine (.text name) (.ty var) active)
    let value ← expr (env.extend (.singleton name (.mono var))) init
    unify (← resolve var) value src "pattern" "value" none
    replace src (letLine (.text name) (.ty (← resolve var)) (.ty (← resolve value)))
    pause "unify pattern and value"
    pop
    let value ← resolve value
    let env ← resolveEnv env
    let scheme := if init.isLambda then env.generalize value else .mono value
    return { ty := .void, scope := some (.singleton name scheme) }
  | .letBind pat init src => do
    push src [.kwd "let", .text pat.render, .text "=", active]
    pause "'let' statement"
    let (patTy, scope) ← pattern env pat
    let value ← expr env init
    unify patTy value src "pattern" "value" none
    pause "unify pattern and value"
    pop
    return { ty := .void, scope := some (← resolveScope scope) }
  | .forLoop init cond update body src => do
    push src [.kwd "for", active]
    pause "'for' loop"
    let first ← stmt env init
    let env := (← resolveEnv env).extend (← resolveScope (first.scope.getD .empty))
    let condTy ← expr env cond
    unify condTy .bool cond.region "condition" "bool" none
    let env ← resolveEnv env
    let _ ← expr env update
    let _ ← expr (← resolveEnv env) body
    pop
    return { ty := .void }

end

section

-- The equations of these functions are made here, not by all the proofs at once that need them first.
attribute [local simp] expr stmt

end

section

variable {α β : Type} {w : WatchM α} {f : α → WatchM β} {ctx ctx' : Context}

theorem run_bind_ok {a : α} (h : (w ctx).1 = (.ok a, ctx')) :
    (w >>= f) ctx = ((f a ctx').1, (w ctx).2 ++ (f a ctx').2) := by
  change (match (w ctx).1 with | (.ok a, ctx') => _ | (.error e, ctx') => _) = _
  rw [h]

theorem run_bind_error {e : TypeError} (h : (w ctx).1 = (.error e, ctx')) :
    (w >>= f) ctx = ((.error e, ctx'), (w ctx).2) := by
  change (match (w ctx).1 with | (.ok a, ctx') => _ | (.error e, ctx') => _) = _
  rw [h]

theorem head?_recording (env : Env) (src : Region) (find : WatchM Ty) (ctx : Context) :
    (recording env src find ctx).2.head? = some ⟨env, ctx, (exec (noteScope env) ctx).2⟩ := by
  have hvisit : (visit env ctx).1 = (.ok (), (exec (noteScope env) ctx).2) := by
    rcases exec_noteScope env ctx with h | h <;> rw [visit, h]
  rw [recording, run_bind_ok hvisit]
  rfl

/-- Whenever inference comes to an expression, it records the visit first. -/
theorem head?_expr (env : Env) (e : Expr) (ctx : Context) :
    (expr env e ctx).2.head? = some ⟨env, ctx, (exec (noteScope env) ctx).2⟩ := by
  cases e <;> rw [expr, head?_recording]

end

end WatchM

/-! ## The scope last logged -/

namespace Event

/-- The scope that is logged. -/
def scope? : Event → Option Scope
  | scope Δ => some Δ
  | _ => none

/-- The scope last logged. -/
def lastScope? (events : List Event) : Option Scope := (events.filterMap scope?).getLast?

theorem lastScope?_append {events added : List Event} (h : ∀ e ∈ added, e.scope? = none) :
    lastScope? (events ++ added) = lastScope? events := by
  rw [lastScope?, List.filterMap_append, List.filterMap_eq_nil_iff.mpr h, List.append_nil, lastScope?]

theorem lastScope?_concat (events : List Event) (Δ : Scope) :
    lastScope? (events ++ [.scope Δ]) = some Δ := by
  rw [lastScope?, List.filterMap_append]
  exact List.getLast?_concat

end Event

namespace Context

/-- The log shows the scope: the one last logged is the same under the bindings so far. -/
def Shows (ctx : Context) (Δ : Scope) : Prop :=
  ∃ Δ₀, Event.lastScope? ctx.events.toList = some Δ₀ ∧ Scope.apply ctx.subst Δ₀ = Scope.apply ctx.subst Δ

/-- The state knows the scope last logged. -/
def Synced (ctx : Context) : Prop := Event.lastScope? ctx.events.toList = ctx.latestScope

theorem Synced.initial : Synced {} := rfl

/-- Logging something else than a scope. -/
theorem Synced.append {ctx ctx' : Context} (h : ctx.Synced) (added : List Event)
    (hadded : ∀ e ∈ added, e.scope? = none) (hlog : ctx'.events.toList = ctx.events.toList ++ added)
    (hlatest : ctx'.latestScope = ctx.latestScope) : ctx'.Synced := by
  rw [Synced, hlog, Event.lastScope?_append hadded, hlatest]
  exact h

theorem Synced.push {ctx ctx' : Context} (h : ctx.Synced) {e : Event} (he : e.scope? = none)
    (hlog : ctx'.events = ctx.events.push e) (hlatest : ctx'.latestScope = ctx.latestScope) :
    ctx'.Synced :=
  h.append [e] (List.forall_mem_singleton.mpr he) (by rw [hlog, Array.toList_push]) hlatest

end Context

/-- What a visit does to the log: afterwards it shows the scope of the expression, and a scope is logged
only if it did not before. -/
structure Visit.Faithful (v : Visit) : Prop where
  shown : v.after.Shows v.env.scope
  silent : v.before.Shows v.env.scope → v.after = v.before
  logged : ¬ v.before.Shows v.env.scope →
    v.after = { v.before with
      events := v.before.events.push (.scope (Scope.apply v.before.subst v.env.scope))
      latestScope := some v.env.scope }

/-! ## Scopes that are up to date -/

/-- The variables free in the scope are created and not bound. -/
def Scope.Current (c : Store) (Δ : Scope) : Prop :=
  ∀ name s, Δ.get? name = some s → ∀ y ∈ s.free, y ∈ c.issued ∧ c.subst.get? y = none

namespace Scope.Current

variable {c c' : Store} {Δ Δ' : Scope}

theorem union (h : Scope.Current c Δ) (h' : Scope.Current c Δ') : Scope.Current c (Δ.union Δ') :=
  Scope.forall_union h h'

/-- The bindings have nothing to do in a scope that is up to date. -/
theorem apply_eq (h : Scope.Current c Δ) : Scope.apply c.subst Δ = Δ := by
  refine Dict.ext_get? fun name => ?_
  rw [Scope.apply, Dict.get?_map]
  cases hs : Δ.get? name with
  | none => rfl
  | some s =>
    have hbody : s.body.apply (c.subst.without s.vars) = s.body := by
      rw [Ty.apply_eq_assign]
      refine Ty.assign_eq_self fun x hx => ?_
      rw [Scheme.assignment_without]
      split
      · rfl
      · next hvars =>
        exact Subst.assignment_of_get?_none (h name s hs x (Scheme.mem_free.mpr ⟨hx, hvars⟩)).2
    rw [Option.map_some, Scheme.apply, hbody]

/-- Bringing a scope up to date. -/
theorem resolve (hc : c.Proper ∅) (hΔ : TypeInvariant.declared.Scoped c.nextId Δ) :
    Scope.Current c (Scope.apply c.subst Δ) := by
  refine Scope.forall_apply fun name s hs z hz => ?_
  obtain ⟨-, y, hy, hz⟩ := Scheme.mem_free_apply.mp hz
  have hissued : y ∈ c.issued := (hΔ name s hs).1 y hy
  -- No variable is dead here, so the created variables are the live ones.
  refine ⟨(hc.mem_live ⟨hissued, fun _ _ h => h⟩ hz).1.1, hc.resolved.get?_eq_none (t := .var y) ?_⟩
  rwa [Ty.apply_eq_assign, Ty.assign_var]

theorem skip (h : Scope.Current c Δ) (n : Nat) : Scope.Current (c.skip n) Δ := fun name s hs y hy =>
  ⟨Name.issued_mono (Nat.le_add_right _ n) (h name s hs y hy).1, (h name s hs y hy).2⟩

/-- A scope stays up to date as long as only new variables are bound. -/
theorem evolve (h : Scope.Current c Δ) (hE : c.Evolves c.issued c') : Scope.Current c' Δ := by
  intro name s hs y hy
  obtain ⟨hissued, hfree⟩ := h name s hs y hy
  exact ⟨hE.issued_subset hissued, hE.get?_eq_none hissued hfree⟩

/-- A new variable is not bound. -/
theorem next (hc : c.Proper ∅) (name : String) :
    Scope.Current (c.skip 1) (.singleton name (.mono (.var c.next))) := by
  refine Scope.forall_singleton fun y hy => ?_
  rw [Scheme.mem_free_mono, Ty.mem_occurrences_var] at hy
  subst hy
  refine ⟨Name.ofNat_mem_issued.mpr (Nat.lt_succ_self _), ?_⟩
  refine Option.eq_none_iff_forall_not_mem.mpr fun t ht => ?_
  exact Nat.lt_irrefl _ (Name.ofNat_mem_issued.mp (hc.issued _ t ht).1)

end Scope.Current

/-! ## Stores and environments along a run -/

open TypeInvariant (declared)

namespace Store

/-- A state with the store, and with a log that accounts for its variables and bindings. -/
def context (c : Store) : Context where
  nextId := c.nextId
  subst := c.subst
  events := ((List.range c.nextId).map (Event.newVar ∘ Name.ofNat) ++
    [Event.unify ⟨.void, .void, c.subst, default, "", "", none⟩]).toArray

theorem Proper.consistent_context {c : Store} (hc : c.Proper ∅) : c.context.Consistent := by
  refine ⟨hc.resolved, fun t => ?_⟩
  have hdeltas : Event.deltas c.context.events.toList = [c.subst] := by
    rw [context, Event.deltas, List.filterMap_append, List.filterMap_eq_nil_iff.mpr]
    · rfl
    · exact List.forall_mem_map.mpr fun _ _ => rfl
  rw [hdeltas]
  rfl

theorem Proper.state_context {c : Store} (hc : c.Proper ∅) : declared.State c.context := by
  have hbindings : declared.Bindings c.nextId c.subst := fun x t hx =>
    ⟨.var (hc.issued x t hx).1, (hc.issued x t hx).2⟩
  have hcreated (n : Nat) :
      (Event.created ((List.range n).map (Event.newVar ∘ Name.ofNat))).length = n := by
    rw [Event.created, List.filterMap_map]
    simp [Function.comp_def]
  -- An event that creates a variable mentions no type.
  have hvars : ∀ n, Event.Throughout declared.Logged ((List.range n).map (Event.newVar ∘ Name.ofNat)) := by
    intro n before e after hsplit
    have he : e ∈ (List.range n).map (Event.newVar ∘ Name.ofNat) := by
      rw [hsplit]
      exact List.mem_append_right _ List.mem_cons_self
    obtain ⟨i, -, rfl⟩ := List.mem_map.mp he
    trivial
  refine ⟨?_, hbindings, (hvars c.nextId).concat ?_⟩
  · rw [context, Event.created_append, List.length_append, hcreated]
    rfl
  · rw [hcreated]
    exact ⟨.con _, .con _, hbindings⟩

end Store

/-- A safe computation that succeeds leaves a store in which it may go on. -/
theorem TypeInvariant.Safe.yields {α : Type} {m : InferM α} {Q : Nat → α → Prop} {c c' : Store} {a : α}
    (hsafe : declared.Safe c.nextId m Q) (hm : InferM.Stepwise 0 0 m) (hc : c.Proper ∅)
    (h : InferM.Yields m c a c') : c'.Proper ∅ ∧ c.nextId ≤ c'.nextId ∧ Q c'.nextId a := by
  obtain ⟨ctx', hexec, rfl⟩ := h.exec_eq hm (show c.context.store = c from rfl)
  obtain ⟨hstate, ⟨hle, -⟩, hok⟩ := hsafe c.context hc.state_context rfl
  have hresolved := (hm.keeps hc.consistent_context).1.resolved
  rw [hexec] at hstate hle hok hresolved
  refine ⟨⟨hresolved, fun x t hx => ?_, Set.empty_subset _⟩, hle, hok a rfl⟩
  obtain ⟨hvar, ht⟩ := hstate.bindings x t hx
  exact ⟨hvar x (Ty.mem_occurrences_var.mpr rfl), ht⟩

/-- Inference may come to an expression with the environment: it is up to date. -/
structure Env.Ready (c : Store) (env : Env) : Prop where
  proper : c.Proper ∅
  fits : declared.Fits c.nextId env
  current : Scope.Current c env.scope

namespace Env.Ready

variable {c c' : Store} {env : Env}

theorem resolve (hc : c.Proper ∅) (henv : declared.Fits c.nextId env) : (env.apply c.subst).Ready c where
  proper := hc
  fits := henv.apply fun x t hx => ⟨.var (hc.issued x t hx).1, (hc.issued x t hx).2⟩
  current := .resolve hc henv.scope

theorem extend (h : env.Ready c) {Δ : Scope} (hΔ : declared.Scoped c.nextId Δ)
    (hcurrent : Scope.Current c Δ) : (env.extend Δ).Ready c :=
  ⟨h.proper, h.fits.extend hΔ, h.current.union hcurrent⟩

theorem skip (h : env.Ready c) (n : Nat) : env.Ready (c.skip n) :=
  ⟨(h.proper.skip n).proper, h.fits.mono (Nat.le_add_right _ n), h.current.skip n⟩

end Env.Ready

namespace InferM

variable {c c' : Store} {env : Env}

/-! ### Patterns bind new variables only -/

mutual

/-- Of the environment, patterns use the constructors. -/
theorem pattern_congr {env env' : Env} (h : env.constructors = env'.constructors) (p : Pat) :
    pattern env p = pattern env' p := by
  cases p with
  | con name args src =>
    rw [pattern, pattern, h]
    split
    · rfl
    · have hargs := fun declared scope => fields_congr h declared scope args
      simp only [hargs]
  | any | var | prim | str => rw [pattern, pattern]

theorem fields_congr {env env' : Env} (h : env.constructors = env'.constructors)
    (declared : List Ty) (scope : Scope) (ps : List Pat) :
    fields env declared scope ps = fields env' declared scope ps := by
  cases ps with
  | nil => rw [fields, fields]
  | cons p ps =>
    cases declared with
    | nil => rw [fields, fields]
    | cons d ds =>
      have hps := fun scope => fields_congr h ds scope ps
      rw [fields, fields, pattern_congr h p]
      simp only [hps]

end

/-- **Patterns bind new variables only**: all that has been created before might as well be dead. -/
theorem pattern_new {p : Pat} {r : Ty × Scope} (hc : c.Proper ∅) (henv : declared.Fits c.nextId env)
    (h : Yields (pattern env p) c r c') : c.Evolves c.issued c' := by
  -- A pattern never looks at the scope, so it may be left out, and nothing of it has to stay alive.
  let env' : Env := { env with scope := .empty }
  have hsane : env'.Sane c.issued c := ⟨.empty, henv.constructors⟩
  have hconstructors : env.constructors = env'.constructors := rfl
  rw [pattern_congr hconstructors p] at h
  exact (pattern_evolves p hsane ⟨hc.resolved, hc.issued, subset_rfl⟩ h).1

theorem params_current {ps : List Pat} {scope Δ : Scope} {r : List Ty × Scope} (hc : c.Proper ∅)
    (henv : declared.Fits c.nextId env) (hscope : Scope.Current c scope) (hΔ : Scope.Current c Δ)
    (h : Yields (params env scope ps) c r c') : Scope.Current c' r.2 ∧ Scope.Current c' Δ := by
  induction ps generalizing c scope r with
  | nil =>
    obtain ⟨rfl, rfl⟩ := yields_params_nil.mp h
    exact ⟨hscope, hΔ⟩
  | cons p ps ih =>
    obtain ⟨ty, extra, c₁, tys, scope', hp, hps, rfl⟩ := yields_params_cons.mp h
    have hE := pattern_new hc henv hp
    obtain ⟨hc₁, hle, -, hextra⟩ := (TypeInvariant.safe_pattern henv p).yields (stepwise_pattern ..) hc hp
    have hscope₁ := (hscope.evolve hE).union (.resolve hc₁ hextra)
    exact ih (r := (tys, scope')) hc₁ (henv.mono hle) hscope₁ (hΔ.evolve hE) hps

/-! ### Computations that log no scope -/

/-- The computation logs no scope, so that the state goes on knowing the scope last logged. -/
def Scopeless {α : Type} (m : InferM α) : Prop := ∀ ctx : Context, ctx.Synced → (exec m ctx).2.Synced

namespace Scopeless

variable {α β : Type}

theorem pure {a : α} : Scopeless (Pure.pure a) := fun _ h => h

theorem throw {e : TypeError} : Scopeless (MonadExcept.throw e : InferM α) := fun _ h => h

theorem bind {m : InferM α} {f : α → InferM β} (hm : Scopeless m) (hf : ∀ a, Scopeless (f a)) :
    Scopeless (m >>= f) := by
  intro ctx h
  have hsync := hm ctx h
  rw [exec_bind]
  rcases hr : exec m ctx with ⟨e | a, ctx'⟩
  all_goals rw [hr] at hsync
  · exact hsync
  · exact hf a ctx' hsync

theorem infer {src : Region} {t : Ty} : Scopeless (emit (.infer src t)) := fun _ h => h.push rfl rfl rfl

theorem pause {title : String} : Scopeless (InferM.pause title) := fun _ h => h.push rfl rfl rfl

theorem push {src : Region} {line : StackLine} : Scopeless (InferM.push src line) :=
  fun _ h => h.push rfl rfl rfl

theorem pop : Scopeless InferM.pop := fun _ h => h.push rfl rfl rfl

theorem replace {src : Region} {line : StackLine} : Scopeless (InferM.replace src line) :=
  .bind .pop fun _ => .push

theorem freshVar {origin : Origin} : Scopeless (InferM.freshVar origin) := fun _ h => h.push rfl rfl rfl

theorem resolve {t : Ty} : Scopeless (InferM.resolve t) := fun _ h => h

theorem resolveAll {ts : List Ty} : Scopeless (InferM.resolveAll ts) := fun _ h => h

theorem resolveEnv {env : Env} : Scopeless (InferM.resolveEnv env) := fun _ h => h

theorem resolveScope {Δ : Scope} : Scopeless (InferM.resolveScope Δ) := fun _ h => h

theorem unify {one two : Ty} {src : Region} {oneName twoName : String} {message : Option String} :
    Scopeless (InferM.unify one two src oneName twoName message) := by
  intro ctx h
  obtain ⟨-, -, -, added, hlog, hadded⟩ := exec_unify_frame one two src oneName twoName message ctx
  refine h.append added (fun e he => ?_) hlog ?_
  · obtain ⟨step, rfl⟩ := hadded e he
    rfl
  · cases hu : (one.apply ctx.subst).unify (two.apply ctx.subst) with
    | error e => rw [exec_unify_error hu]
    | ok d =>
      cases hs : d.compose ctx.subst with
      | error e => rw [exec_unify_overwrite hu hs]
      | ok σ => rw [exec_unify_ok hu hs]

theorem freshSubst {vars : List String} : Scopeless (InferM.freshSubst vars) := by
  refine .bind ?_ fun _ => .pure
  induction vars with
  | nil => exact .pure
  | cons x vars ih =>
    rw [List.mapM_cons]
    exact .bind (.bind .freshVar fun _ => .pure) fun _ => .bind ih fun _ => .pure

theorem instantiate {s : Scheme} : Scopeless (InferM.instantiate s) :=
  .bind .freshSubst fun _ => .pure

end Scopeless

mutual

theorem scopeless_pattern (env : Env) (p : Pat) : Scopeless (pattern env p) := by
  cases p with
  | any | var =>
    rw [pattern]
    exact .bind .freshVar fun _ => .pure
  | prim | str =>
    rw [pattern]
    exact .pure
  | con name args src =>
    rw [pattern]
    split
    · exact .throw
    · split
      · exact .bind .throw fun _ => .bind .freshSubst fun _ =>
          .bind (scopeless_fields env _ _ args) fun _ => .bind .resolve fun _ => .pure
      · exact .bind .freshSubst fun _ => .bind (scopeless_fields env _ _ args) fun _ =>
          .bind .resolve fun _ => .pure

theorem scopeless_fields (env : Env) (declared : List Ty) (scope : Scope) (ps : List Pat) :
    Scopeless (fields env declared scope ps) := by
  cases ps with
  | nil =>
    rw [fields]
    exact .pure
  | cons p ps =>
    cases declared with
    | nil =>
      rw [fields]
      exact .pure
    | cons d ds =>
      rw [fields]
      exact .bind (scopeless_pattern env p) fun _ => .bind .unify fun _ =>
        scopeless_fields env ds _ ps

end

theorem scopeless_params (env : Env) (scope : Scope) (ps : List Pat) :
    Scopeless (params env scope ps) := by
  induction ps generalizing scope with
  | nil => exact .pure
  | cons p ps ih =>
    exact .bind (scopeless_pattern env p) fun _ => .bind .resolveScope fun _ =>
      .bind .infer fun _ => .bind (ih _) fun _ => .pure

/-- A scope that the log shows is not logged again. -/
theorem exec_noteScope_of_shows {ctx : Context} (hsync : ctx.Synced) (h : ctx.Shows env.scope) :
    exec (noteScope env) ctx = (.ok (), ctx) := by
  obtain ⟨latest, hlatest, hsame⟩ := h
  rw [hsync] at hlatest
  rw [exec_noteScope_eq, if_pos]
  rw [hlatest, Option.map_some, hsame]

/-- A scope that the log does not show is logged. -/
theorem exec_noteScope_of_not_shows {ctx : Context} (hsync : ctx.Synced) (h : ¬ ctx.Shows env.scope) :
    exec (noteScope env) ctx = (.ok (),
      { ctx with
        events := ctx.events.push (.scope (Scope.apply ctx.subst env.scope))
        latestScope := some env.scope }) := by
  rw [exec_noteScope_eq, if_neg]
  intro hlogged
  obtain ⟨latest, hlatest, hsame⟩ := Option.map_eq_some_iff.mp hlogged
  exact h ⟨latest, hsync.trans hlatest, hsame⟩

end InferM

open InferM

/-! ## Runs with a record -/

/-- From every state with the store that knows the scope last logged, the computation with a record does
what the one without does, its visits are faithful, and it leaves such a state. -/
def Watches {α : Type} (c : Store) (w : WatchM α) (m : InferM α) : Prop :=
  ∀ ctx : Context, ctx.store = c → ctx.Synced →
    (w ctx).1 = exec m ctx ∧ (∀ v ∈ (w ctx).2, v.Faithful) ∧ (exec m ctx).2.Synced

namespace Watches

variable {α β : Type} {c : Store} {env : Env} {m : InferM α} {w : WatchM α} {f : α → WatchM β}
  {g : α → InferM β}

theorem pure (a : α) : Watches c (Pure.pure a) (Pure.pure a) := fun _ _ hsync =>
  ⟨rfl, fun _ hv => absurd hv List.not_mem_nil, hsync⟩

theorem lift (hm : Scopeless m) : Watches c (liftM m) m := fun ctx _ hsync =>
  ⟨rfl, fun _ hv => absurd hv List.not_mem_nil, hm ctx hsync⟩

theorem bind (hw : Watches c w m) (hf : ∀ a c', Yields m c a c' → Watches c' (f a) (g a)) :
    Watches c (w >>= f) (m >>= g) := by
  intro ctx hctx hsync
  obtain ⟨hrun, hvisits, hsync'⟩ := hw ctx hctx hsync
  rcases hr : exec m ctx with ⟨e | a, ctx'⟩
  all_goals rw [hr] at hrun hsync'
  · rw [WatchM.run_bind_error hrun, exec_bind, hr]
    exact ⟨rfl, hvisits, hsync'⟩
  · have hyields : Yields m c a ctx'.store := ⟨ctx, hctx, a, ctx', hr, rfl, rfl⟩
    obtain ⟨hrun', hvisits', hsync''⟩ := hf a _ hyields ctx' rfl hsync'
    rw [WatchM.run_bind_ok hrun, exec_bind, hr]
    refine ⟨hrun', fun v hv => ?_, hsync''⟩
    exact (List.mem_append.mp hv).elim (hvisits v) (hvisits' v)

/-- A computation without visits, of which nothing matters later. -/
theorem skip (hm : Scopeless m) (hf : ∀ a c', Watches c' (f a) (g a)) :
    Watches c (liftM m >>= f) (m >>= g) :=
  .bind (.lift hm) fun a c' _ => hf a c'

/-- A computation without visits that keeps the store. -/
theorem still {m : InferM Unit} {f : Unit → WatchM β} {g : Unit → InferM β} (hm : Scopeless m)
    (hstore : ∀ ctx : Context, (exec m ctx).2.store = ctx.store) (hf : Watches c (f ()) (g ())) :
    Watches c (liftM m >>= f) (m >>= g) := by
  refine .bind (.lift hm) fun a c' hyields => ?_
  obtain ⟨ctx, rfl, _, ctx', hexec, -, rfl⟩ := hyields
  have hsame := hstore ctx
  rw [hexec] at hsame
  exact hsame ▸ hf

section

variable {f : Unit → WatchM β} {g : Unit → InferM β} {src : Region}

theorem infer {t : Ty} (hf : Watches c (f ()) (g ())) :
    Watches c (liftM (emit (.infer src t)) >>= f) (emit (.infer src t) >>= g) :=
  .still .infer (fun _ => rfl) hf

theorem pause {title : String} (hf : Watches c (f ()) (g ())) :
    Watches c (liftM (InferM.pause title) >>= f) (InferM.pause title >>= g) :=
  .still .pause (fun _ => rfl) hf

theorem push {line : StackLine} (hf : Watches c (f ()) (g ())) :
    Watches c (liftM (InferM.push src line) >>= f) (InferM.push src line >>= g) :=
  .still .push (fun _ => rfl) hf

theorem pop (hf : Watches c (f ()) (g ())) : Watches c (liftM InferM.pop >>= f) (InferM.pop >>= g) :=
  .still .pop (fun _ => rfl) hf

theorem replace {line : StackLine} (hf : Watches c (f ()) (g ())) :
    Watches c (liftM (InferM.replace src line) >>= f) (InferM.replace src line >>= g) :=
  .still .replace (fun _ => rfl) hf

theorem unify {one two : Ty} {oneName twoName : String} {message : Option String} (hc : c.Proper ∅)
    (hone : one.Within c.issued) (htwo : two.Within c.issued)
    (hf : ∀ c' : Store, c'.Proper ∅ → c'.nextId = c.nextId → Watches c' (f ()) (g ())) :
    Watches c (liftM (InferM.unify one two src oneName twoName message) >>= f)
      (InferM.unify one two src oneName twoName message >>= g) := by
  refine .bind (.lift .unify) fun _ c' hyields => ?_
  have hunifies := yields_unify.mp hyields
  have hlive : c.issued ⊆ c.live ∅ := fun x hx => ⟨hx, fun _ _ h => h⟩
  exact hf c' (hunifies.evolves hc (hone.mono hlive) (htwo.mono hlive)).proper hunifies.1

end

/-- A computation that looks at the bindings. -/
theorem look {a : α} (hm : ∀ ctx : Context, ctx.store = c → exec m ctx = (.ok a, ctx))
    (hf : Watches c (f a) (g a)) : Watches c (liftM m >>= f) (m >>= g) := by
  intro ctx hctx hsync
  have hbind : exec (m >>= g) ctx = exec (g a) ctx := by rw [exec_bind, hm ctx hctx]
  have hrun : (liftM m >>= f : WatchM β) ctx = f a ctx := WatchM.run_bind_ok (hm ctx hctx)
  rw [hbind, hrun]
  exact hf ctx hctx hsync

theorem resolveEnv {f : Env → WatchM β} {g : Env → InferM β}
    (hf : Watches c (f (env.apply c.subst)) (g (env.apply c.subst))) :
    Watches c (liftM (InferM.resolveEnv env) >>= f) (InferM.resolveEnv env >>= g) :=
  .look (by rintro ctx rfl; rfl) hf

theorem resolveScope {Δ : Scope} {f : Scope → WatchM β} {g : Scope → InferM β}
    (hf : Watches c (f (Scope.apply c.subst Δ)) (g (Scope.apply c.subst Δ))) :
    Watches c (liftM (InferM.resolveScope Δ) >>= f) (InferM.resolveScope Δ >>= g) :=
  .look (by rintro ctx rfl; rfl) hf

theorem resolve {t : Ty} {f : Ty → WatchM β} {g : Ty → InferM β}
    (hf : Watches c (f (t.apply c.subst)) (g (t.apply c.subst))) :
    Watches c (liftM (InferM.resolve t) >>= f) (InferM.resolve t >>= g) :=
  .look (by rintro ctx rfl; rfl) hf

theorem resolveAll {ts : List Ty} {f : List Ty → WatchM β} {g : List Ty → InferM β}
    (hf : Watches c (f (ts.map (Ty.apply c.subst))) (g (ts.map (Ty.apply c.subst)))) :
    Watches c (liftM (InferM.resolveAll ts) >>= f) (InferM.resolveAll ts >>= g) :=
  .look (by rintro ctx rfl; rfl) hf

theorem freshVar {origin : Origin} {f : Ty → WatchM β} {g : Ty → InferM β}
    (hf : Watches (c.skip 1) (f (.var c.next)) (g (.var c.next))) :
    Watches c (liftM (InferM.freshVar origin) >>= f) (InferM.freshVar origin >>= g) := by
  refine .bind (.lift .freshVar) fun t c' hyields => ?_
  obtain ⟨ctx, rfl, h⟩ := hyields
  obtain ⟨rfl, rfl⟩ := reaches_freshVar.mp h
  exact hf

/-- A computation that fails on a condition, and otherwise goes on. -/
theorem guard {cond : Prop} [Decidable cond] {e : TypeError} {f : Unit → WatchM β} {g : Unit → InferM β}
    (hf : Watches c (f ()) (g ())) :
    Watches c (if cond then liftM (throw e : InferM Unit) >>= f else f ())
      (if cond then MonadExcept.throw e >>= g else g ()) := by
  split
  · refine .bind (.lift .throw) fun _ _ hyields => ?_
    obtain ⟨ctx, -, h⟩ := hyields
    exact (reaches_throw h).elim
  · exact hf

/-- **Coming to an expression** with an environment that is up to date: the scope is logged as it is, so
the state and the log have the same scope. -/
theorem visit (henv : env.Ready c) : Watches c (WatchM.visit env) (noteScope env) := by
  rintro ctx rfl hsync
  have hsame : Scope.apply ctx.subst env.scope = env.scope := henv.current.apply_eq
  by_cases hshows : ctx.Shows env.scope
  · have hafter : (exec (noteScope env) ctx).2 = ctx := by rw [exec_noteScope_of_shows hsync hshows]
    refine ⟨rfl, List.forall_mem_singleton.mpr ⟨?_, fun _ => hafter, fun hnot => absurd hshows hnot⟩, ?_⟩
    all_goals rwa [hafter]
  · have hexec := exec_noteScope_of_not_shows hsync hshows
    have hlast : Event.lastScope? ((exec (noteScope env) ctx).2.events.toList) = some env.scope := by
      rw [hexec, Array.toList_push, hsame]
      exact Event.lastScope?_concat _ _
    refine ⟨rfl, List.forall_mem_singleton.mpr ⟨⟨env.scope, hlast, rfl⟩, fun h => absurd h hshows, ?_⟩, ?_⟩
    · intro _
      rw [hexec]
    · rw [Context.Synced, hlast, hexec]

theorem recording {src : Region} {find : WatchM Ty} {find' : InferM Ty} (henv : env.Ready c)
    (hfind : Watches c find find') :
    Watches c (WatchM.recording env src find) (InferM.recording env src find') := by
  refine .bind (.visit henv) fun _ c' hyields => ?_
  obtain ⟨ctx, rfl, _, ctx', hexec, -, rfl⟩ := hyields
  -- Logging the scope keeps the store.
  have hstore : ctx'.store = ctx.store := by
    rcases exec_noteScope env ctx with hr | hr
    all_goals
      rw [hr] at hexec
      cases hexec
      rfl
  rw [hstore]
  exact .bind hfind fun t _ _ => .skip .infer fun _ _ => .pure t

end Watches

namespace Env.Ready

variable {c c' : Store} {env : Env}

theorem expr {e : Expr} {t : Ty} (h : env.Ready c) (hyields : Yields (InferM.expr env e) c t c') :
    c'.Proper ∅ ∧ c.nextId ≤ c'.nextId ∧ t.Within c'.issued :=
  (declared.safe_program.1 e h.fits).yields (stepwise_expr env e) h.proper hyields

theorem stmt {s : Stmt} {r : StmtResult} (h : env.Ready c) (hyields : Yields (InferM.stmt env s) c r c') :
    c'.Proper ∅ ∧ c.nextId ≤ c'.nextId ∧
      r.ty.Within c'.issued ∧ declared.Scoped c'.nextId (r.scope.getD .empty) :=
  (declared.safe_program.2 s h.fits).yields (stepwise_stmt env s) h.proper hyields

/-- An environment and a scope that are brought up to date together. -/
theorem resolve_extend (hc : c.Proper ∅) (henv : declared.Fits c.nextId env) {Δ : Scope}
    (hΔ : declared.Scoped c.nextId Δ) :
    ((env.apply c.subst).extend (Scope.apply c.subst Δ)).Ready c := by
  rw [← Env.apply_extend]
  exact .resolve hc (henv.extend hΔ)

end Env.Ready

/-- Inference of the expression with a record goes along with inference. -/
def WatchesExpr (e : Expr) : Prop :=
  ∀ {c : Store} {env : Env}, env.Ready c → Watches c (WatchM.expr env e) (InferM.expr env e)

/-- Inference of the statement with a record goes along with inference. -/
def WatchesStmt (s : Stmt) : Prop :=
  ∀ {c : Store} {env : Env}, env.Ready c → Watches c (WatchM.stmt env s) (InferM.stmt env s)

section Parts

variable {c : Store} {env : Env} {es : List Expr}

theorem watches_embedded (hes : ∀ e ∈ es, WatchesExpr e) (hc : c.Proper ∅)
    (henv : declared.Fits c.nextId env) :
    Watches c (WatchM.embedded env es) (InferM.embedded env es) := by
  induction es generalizing c with
  | nil =>
    rw [WatchM.embedded, InferM.embedded]
    exact .pure ()
  | cons e es ih =>
    obtain ⟨he, hes⟩ := List.forall_mem_cons.mp hes
    rw [WatchM.embedded, InferM.embedded]
    have hready := Env.Ready.resolve hc henv
    refine .resolveEnv (.bind (he hready) fun t c₁ h₁ => ?_)
    obtain ⟨hc₁, hle, -⟩ := hready.expr h₁
    exact ih hes hc₁ (henv.mono hle)

theorem watches_exprs (hes : ∀ e ∈ es, WatchesExpr e) (hc : c.Proper ∅)
    (henv : declared.Fits c.nextId env) :
    Watches c (WatchM.exprs env es) (InferM.exprs env es) := by
  induction es generalizing c with
  | nil =>
    rw [WatchM.exprs, InferM.exprs]
    exact .pure []
  | cons e es ih =>
    obtain ⟨he, hes⟩ := List.forall_mem_cons.mp hes
    rw [WatchM.exprs, InferM.exprs]
    have hready := Env.Ready.resolve hc henv
    refine .resolveEnv (.bind (he hready) fun t c₁ h₁ => ?_)
    obtain ⟨hc₁, hle, -⟩ := hready.expr h₁
    exact .bind (ih hes hc₁ (henv.mono hle)) fun ts _ _ => .pure (t :: ts)

theorem watches_otherwise {no : Option Expr} (hno : ∀ e ∈ no, WatchesExpr e) (hc : c.Proper ∅)
    (henv : declared.Fits c.nextId env) :
    Watches c (WatchM.otherwise env no) (InferM.otherwise env no) := by
  cases no with
  | none =>
    rw [WatchM.otherwise, InferM.otherwise]
    exact .pure _
  | some e =>
    rw [WatchM.otherwise, InferM.otherwise]
    exact .resolveEnv (hno e rfl (.resolve hc henv))

theorem watches_returned {value : Option Expr} (hvalue : ∀ e ∈ value, WatchesExpr e)
    (henv : env.Ready c) : Watches c (WatchM.returned env value) (InferM.returned env value) := by
  cases value with
  | none =>
    rw [WatchM.returned, InferM.returned]
    exact .pure _
  | some e =>
    rw [WatchM.returned, InferM.returned]
    exact hvalue e rfl henv

theorem watches_cases {targetTy result : Ty} {cs : List Case}
    (hcs : ∀ p e, Case.mk p e ∈ cs → WatchesExpr e) (hc : c.Proper ∅)
    (henv : declared.Fits c.nextId env) (htarget : targetTy.Within c.issued)
    (hresult : result.Within c.issued) :
    Watches c (WatchM.cases env targetTy result cs) (InferM.cases env targetTy result cs) := by
  induction cs generalizing c with
  | nil =>
    rw [WatchM.cases, InferM.cases]
    exact .pure ()
  | cons first cs ih =>
    obtain ⟨p, e⟩ := first
    rw [WatchM.cases, InferM.cases]
    refine .bind (.lift (scopeless_pattern env p)) fun r c₁ h₁ => ?_
    obtain ⟨patTy, scope⟩ := r
    obtain ⟨hc₁, hle₁, hpat, hscope⟩ :=
      (TypeInvariant.safe_pattern henv p).yields (stepwise_pattern env p) hc h₁
    refine .unify hc₁ hpat (htarget.mono (Name.issued_mono hle₁)) fun c₂ hc₂ hn₂ => ?_
    have hle₂ : c.nextId ≤ c₂.nextId := hn₂ ▸ hle₁
    have hready := Env.Ready.resolve_extend hc₂ (henv.mono hle₂) (hn₂ ▸ hscope)
    refine .resolveScope (.resolveEnv (.bind (hcs p e List.mem_cons_self hready) fun t c₃ h₃ => ?_))
    obtain ⟨hc₃, hle₃, hbody⟩ := hready.expr h₃
    have hle := Nat.le_trans hle₂ hle₃
    have hresult' : (result.apply c₃.subst).Within c₃.issued :=
      TypeInvariant.within_apply (fun x u hx => (hc₃.issued x u hx).2)
        (hresult.mono (Name.issued_mono hle))
    refine .resolve (.unify hc₃ hresult' hbody fun c₄ hc₄ hn₄ => ?_)
    have hle₄ : c.nextId ≤ c₄.nextId := hn₄ ▸ hle
    exact ih (fun p e he => hcs p e (List.mem_cons_of_mem _ he)) hc₄ (henv.mono hle₄)
      (htarget.mono (Name.issued_mono hle₄)) (hresult.mono (Name.issued_mono hle₄))

theorem watches_stmts {scope : Scope} {last : Ty} {ss : List Stmt} (hss : ∀ s ∈ ss, WatchesStmt s)
    (hc : c.Proper ∅) (henv : declared.Fits c.nextId env) (hscope : declared.Scoped c.nextId scope) :
    Watches c (WatchM.stmts env scope last ss) (InferM.stmts env scope last ss) := by
  induction ss generalizing c scope last with
  | nil =>
    rw [WatchM.stmts, InferM.stmts]
    exact .lift .resolve
  | cons s ss ih =>
    obtain ⟨hs, hss⟩ := List.forall_mem_cons.mp hss
    rw [WatchM.stmts, InferM.stmts]
    have hready := Env.Ready.resolve_extend hc henv hscope
    refine .resolveEnv (.resolveScope (.bind (hs hready) fun r c₁ h₁ => ?_))
    obtain ⟨hc₁, hle, -, hbinds⟩ := hready.stmt h₁
    exact ih hss hc₁ (henv.mono hle) ((hscope.mono hle).union hbinds)

end Parts

/-! ### Expressions -/

theorem watches_lambda {args : List Pat} {body : Expr} {src : Region} (hbody : WatchesExpr body) :
    WatchesExpr (.lambda args body src) := by
  intro c env henv
  rw [WatchM.expr, InferM.expr]
  refine .recording henv (.guard (.freshVar (.push (.pause ?_))))
  have henv₀ := henv.skip 1
  have hret : declared.Scoped (c.skip 1).nextId (.singleton "return" (.mono (.var c.next))) :=
    .of_ty "return" (.var (Name.ofNat_mem_issued.mpr (Nat.lt_succ_self _)))
  refine .bind (.lift (scopeless_params env _ args)) fun r c₁ h₁ => ?_
  obtain ⟨tys, scope⟩ := r
  obtain ⟨hc₁, hle₁, -, -, hscope⟩ :=
    (TypeInvariant.safe_params henv₀.fits hret).yields (stepwise_params ..) henv₀.proper h₁
  -- The parameters bind no variable of the environment, so it needs not be brought up to date.
  obtain ⟨hcurrent, henv₁⟩ :=
    params_current henv₀.proper henv₀.fits (.next henv.proper "return") henv₀.current h₁
  have hready : (env.extend scope).Ready c₁ :=
    ⟨hc₁, (henv₀.fits.mono hle₁).extend hscope, henv₁.union hcurrent⟩
  refine .resolveAll (.replace (.pause (.bind (hbody hready) fun _ _ _ => ?_)))
  exact .skip .resolve fun _ _ => .skip .unify fun _ _ => .skip .resolveAll fun _ _ =>
    .skip .resolve fun _ _ => .skip .replace fun _ _ => .skip .pause fun _ _ =>
    .skip .pop fun _ _ => .pure _

theorem watches_call {target : Expr} {args : List Expr} {src : Region} (htarget : WatchesExpr target)
    (hargs : ∀ e ∈ args, WatchesExpr e) : WatchesExpr (.call target args src) := by
  intro c env henv
  rw [WatchM.expr, InferM.expr]
  have henv₀ := henv.skip 1
  refine .recording henv (.guard (.freshVar (.infer (.push (.pause ?_)))))
  refine .bind (htarget henv₀) fun targetTy c₁ h₁ => ?_
  obtain ⟨hc₁, hle, -⟩ := henv₀.expr h₁
  refine .bind (watches_exprs hargs hc₁ (henv₀.fits.mono hle)) fun argTys c₂ _ => ?_
  exact .skip .resolve fun _ _ => .skip .resolveAll fun _ _ => .skip .replace fun _ _ =>
    .skip .pause fun _ _ => .skip .resolve fun _ _ => .skip .unify fun _ _ =>
    .skip .resolve fun _ _ => .skip .replace fun _ _ => .skip .pause fun _ _ =>
    .skip .pop fun _ _ => .lift .resolve

theorem watches_ifElse {cond yes : Expr} {no : Option Expr} {src : Region} (hcond : WatchesExpr cond)
    (hyes : WatchesExpr yes) (hno : ∀ e ∈ no, WatchesExpr e) :
    WatchesExpr (.ifElse cond yes no src) := by
  intro c env henv
  rw [WatchM.expr, InferM.expr]
  refine .recording henv (.push (.pause (.bind (hcond henv) fun condTy c₁ h₁ => ?_)))
  obtain ⟨hc₁, hle₁, hcondTy⟩ := henv.expr h₁
  refine .unify hc₁ hcondTy (.con _) fun c₂ hc₂ hn₂ => ?_
  have hfits := henv.fits.mono (hn₂ ▸ hle₁)
  have hready := Env.Ready.resolve hc₂ hfits
  refine .resolveEnv (.bind (hyes hready) fun yesTy c₃ h₃ => ?_)
  obtain ⟨hc₃, hle₃, -⟩ := hready.expr h₃
  refine .bind (watches_otherwise hno hc₃ (hfits.mono hle₃)) fun noTy c₄ _ => ?_
  exact .skip .unify fun _ _ => .skip .resolve fun _ _ => .skip .resolve fun _ _ =>
    .skip .replace fun _ _ => .skip .pause fun _ _ => .skip .pop fun _ _ => .lift .resolve

theorem watches_switch {target : Expr} {cs : List Case} {src : Region} (htarget : WatchesExpr target)
    (hcs : ∀ p e, Case.mk p e ∈ cs → WatchesExpr e) : WatchesExpr (.switch target cs src) := by
  intro c env henv
  rw [WatchM.expr, InferM.expr]
  refine .recording henv (.bind (htarget henv) fun targetTy c₁ h₁ => ?_)
  obtain ⟨hc₁, hle, htargetTy⟩ := henv.expr h₁
  refine .freshVar (.resolve (.push (.pause ?_)))
  have hnew : (Ty.var c₁.next).Within (c₁.skip 1).issued :=
    .var (Name.ofNat_mem_issued.mpr (Nat.lt_succ_self _))
  have hcases := watches_cases hcs (hc₁.skip 1).proper (henv.fits.mono (Nat.le_succ_of_le hle))
    (htargetTy.mono (Name.issued_mono (Nat.le_succ _))) hnew
  exact .bind hcases fun _ _ _ => .skip .pop fun _ _ => .lift .resolve

/-! ### Statements -/

theorem watches_ret {value : Option Expr} {src : Region} (hvalue : ∀ e ∈ value, WatchesExpr e) :
    WatchesStmt (.ret value src) := by
  intro c env henv
  rw [WatchM.stmt, InferM.stmt]
  refine .freshVar ?_
  cases env.lookup "return" with
  | none => exact .lift .throw
  | some expected =>
    refine .push (.pause (.bind (watches_returned hvalue (henv.skip 1)) fun found c₁ _ => ?_))
    exact .skip .unify fun _ _ => .skip .resolve fun _ _ => .skip .replace fun _ _ =>
      .skip .pause fun _ _ => .skip .pop fun _ _ => .pure _

theorem watches_letVar {name : String} {patSrc src : Region} {init : Expr} (hinit : WatchesExpr init) :
    WatchesStmt (.letBind (.var name patSrc) init src) := by
  intro c env henv
  rw [WatchM.stmt, InferM.stmt]
  refine .push (.pause (.replace (.pause (.freshVar (.infer (.push (.pause (.pop ?_))))))))
  refine .replace (.pause (.replace ?_))
  have hvar : declared.Scoped (c.skip 1).nextId (.singleton name (.mono (.var c.next))) :=
    .of_ty name (.var (Name.ofNat_mem_issued.mpr (Nat.lt_succ_self _)))
  have hready := (henv.skip 1).extend hvar (.next henv.proper name)
  refine .bind (hinit hready) fun value c₁ _ => ?_
  exact .skip .resolve fun _ _ => .skip .unify fun _ _ => .skip .resolve fun _ _ =>
    .skip .resolve fun _ _ => .skip .replace fun _ _ => .skip .pause fun _ _ => .skip .pop fun _ _ =>
    .skip .resolve fun _ _ => .skip .resolveEnv fun _ _ => .pure _

theorem watches_letPat {p : Pat} {src : Region} {init : Expr}
    (hp : ∀ name patSrc, p ≠ .var name patSrc) (hinit : WatchesExpr init) :
    WatchesStmt (.letBind p init src) := by
  intro c env henv
  rw [WatchM.stmt, InferM.stmt]
  · refine .push (.pause (.bind (.lift (scopeless_pattern env p)) fun r c₁ h₁ => ?_))
    obtain ⟨patTy, scope⟩ := r
    obtain ⟨hc₁, hle, -⟩ :=
      (TypeInvariant.safe_pattern henv.fits p).yields (stepwise_pattern env p) henv.proper h₁
    -- As for parameters, the environment needs not be brought up to date.
    have hready : env.Ready c₁ :=
      ⟨hc₁, henv.fits.mono hle, henv.current.evolve (pattern_new henv.proper henv.fits h₁)⟩
    refine .bind (hinit hready) fun value c₂ _ => ?_
    exact .skip .unify fun _ _ => .skip .pause fun _ _ => .skip .pop fun _ _ =>
      .skip .resolveScope fun _ _ => .pure _
  · exact hp
  · exact hp

theorem watches_forLoop {init : Stmt} {cond update body : Expr} {src : Region}
    (hinit : WatchesStmt init) (hcond : WatchesExpr cond) (hupdate : WatchesExpr update)
    (hbody : WatchesExpr body) : WatchesStmt (.forLoop init cond update body src) := by
  intro c env henv
  rw [WatchM.stmt, InferM.stmt]
  refine .push (.pause (.bind (hinit henv) fun first c₁ h₁ => ?_))
  obtain ⟨hc₁, hle₁, -, hscope⟩ := henv.stmt h₁
  have hready₁ := Env.Ready.resolve_extend hc₁ (henv.fits.mono hle₁) hscope
  refine .resolveEnv (.resolveScope (.bind (hcond hready₁) fun condTy c₂ h₂ => ?_))
  obtain ⟨hc₂, hle₂, hcondTy⟩ := hready₁.expr h₂
  refine .unify hc₂ hcondTy (.con _) fun c₃ hc₃ hn₃ => ?_
  have hready₃ := Env.Ready.resolve hc₃ (hready₁.fits.mono (hn₃ ▸ hle₂))
  refine .resolveEnv (.bind (hupdate hready₃) fun _ c₄ h₄ => ?_)
  obtain ⟨hc₄, hle₄, -⟩ := hready₃.expr h₄
  have hready₄ := Env.Ready.resolve hc₄ (hready₃.fits.mono hle₄)
  exact .resolveEnv (.bind (hbody hready₄) fun _ _ _ => .skip .pop fun _ _ => .pure _)

/-- **Inference with a record goes along with inference**, for expressions and statements together. -/
theorem watches_program : (∀ e, WatchesExpr e) ∧ ∀ s, WatchesStmt s := by
  refine Expr.induction ?block (fun _ _ _ _ => watches_ifElse) (fun _ _ _ => watches_switch) ?prim ?var
    ?str (fun _ _ _ => watches_lambda) (fun _ _ _ => watches_call) (fun _ _ _ _ _ => watches_forLoop)
    ?letBind ?expr (fun _ _ => watches_ret)
  case block =>
    intro ss src hss c env henv
    rw [WatchM.expr, InferM.expr]
    exact .recording henv (watches_stmts hss henv.proper henv.fits .empty)
  case prim =>
    intro value src c env henv
    rw [WatchM.expr, InferM.expr]
    exact .recording henv (.pure _)
  case var =>
    intro name src c env henv
    rw [WatchM.expr, InferM.expr]
    refine .recording henv ?_
    cases env.lookup name with
    | none => exact .lift .throw
    | some s => exact .lift .instantiate
  case str =>
    intro value embeds src hembeds c env henv
    rw [WatchM.expr, InferM.expr]
    exact .recording henv (.bind (watches_embedded hembeds henv.proper henv.fits) fun _ _ _ => .pure _)
  case letBind =>
    intro p init src hinit
    by_cases hvar : ∃ name patSrc, p = .var name patSrc
    · obtain ⟨name, patSrc, rfl⟩ := hvar
      exact watches_letVar hinit
    · exact watches_letPat (fun name patSrc hp => hvar ⟨name, patSrc, hp⟩) hinit
  case expr =>
    intro value src hvalue c env henv
    rw [WatchM.stmt, InferM.stmt]
    exact .bind (hvalue henv) fun _ _ _ => .pure _

/-- A closed environment is up to date at the start of a program. -/
theorem Env.Closed.ready {env : Env} (h : env.Closed) : env.Ready .initial := by
  refine ⟨Store.proper_initial, TypeInvariant.fits_of_closed h, fun name s hs y hy => ?_⟩
  rw [h.free name s hs] at hy
  cases hy

/-- **The log shows the scope of every expression.**  Inference can keep a record of the expressions that
it comes to: each of them is recorded when inference comes to it, and a program has the same outcome and
leaves the same state as without the record, whether it succeeds or breaks off.  At every visit, the scope
last logged is the scope of the expression under the bindings of that time, and a scope is logged only if
the one logged before is another one under these bindings. -/
theorem visits_faithful :
    (∀ env e ctx, (WatchM.expr env e ctx).2.head? = some ⟨env, ctx, (exec (noteScope env) ctx).2⟩) ∧
    ∀ s : Stmt, (WatchM.stmt .builtin s {}).1 = exec (InferM.stmt .builtin s) {} ∧
      ∀ v ∈ (WatchM.stmt .builtin s {}).2, v.Faithful := by
  refine ⟨WatchM.head?_expr, fun s => ?_⟩
  obtain ⟨hrun, hvisits, -⟩ := watches_program.2 s Env.builtin_closed.ready {} rfl .initial
  exact ⟨hrun, hvisits⟩

end TypeTrace
