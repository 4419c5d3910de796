import TypeTrace.Infer.Program
import TypeTrace.Proofs.SyntaxTree

/-!
# The steps of inference

Every computation of inference is put together from few elementary steps: it looks at the bindings
so far, creates a variable, unifies two types, adds to the log, changes the stack of explanations,
or fails with an error of its own.  What all elementary steps keep is therefore kept by the
inference of every pattern, expression and statement, whether it succeeds or fails.  A computation
that succeeds has dropped the lines of explanation it added.

## Main definitions

* `InferM.exec`: the outcome of a computation and the state it leaves
* `InferM.Stepwise`: the computations put together from elementary steps

## Main results

* `InferM.stepwise_pattern`, `InferM.stepwise_expr`, `InferM.stepwise_stmt`: inference is stepwise
-/

namespace TypeTrace.InferM

variable {α β : Type}

/-- The outcome of a computation, and the state it leaves. -/
def exec (m : InferM α) (ctx : Context) : Except TypeError α × Context := m.run.run ctx

@[simp] theorem exec_pure (a : α) (ctx : Context) : exec (pure a) ctx = (.ok a, ctx) := rfl

@[simp] theorem exec_throw (e : TypeError) (ctx : Context) :
    exec (throw e : InferM α) ctx = (.error e, ctx) := rfl

/-- A failure skips what follows, and keeps the state. -/
theorem exec_bind (m : InferM α) (f : α → InferM β) (ctx : Context) :
    exec (m >>= f) ctx = match exec m ctx with
      | (.ok a, ctx') => exec (f a) ctx'
      | (.error e, ctx') => (.error e, ctx') := by
  simp only [exec, ExceptT.run_bind, StateT.run_bind]
  rcases m.run.run ctx with ⟨_ | _, _⟩ <;> rfl

@[simp] theorem exec_subst (ctx : Context) : exec subst ctx = (.ok ctx.subst, ctx) := rfl

@[simp] theorem exec_emit (e : Event) (ctx : Context) :
    exec (emit e) ctx = (.ok (), { ctx with events := ctx.events.push e }) := rfl

@[simp] theorem exec_freshVar (origin : Origin) (ctx : Context) :
    exec (freshVar origin) ctx = (.ok (.var (Name.ofNat ctx.nextId)),
      { ctx with
        nextId := ctx.nextId + 1
        origins := ctx.origins.insert (Name.ofNat ctx.nextId) origin
        events := ctx.events.push (.newVar (Name.ofNat ctx.nextId)) }) := rfl

@[simp] theorem exec_push (src : Region) (line : StackLine) (ctx : Context) :
    exec (push src line) ctx = (.ok (),
      { ctx with stack := line :: ctx.stack, events := ctx.events.push (.push src line) }) := rfl

@[simp] theorem exec_pop (ctx : Context) :
    exec pop ctx = (.ok (),
      { ctx with stack := ctx.stack.tail, events := ctx.events.push .pop }) := rfl

/-- A scope is logged unless it is, under the bindings so far, the one last logged. -/
theorem exec_noteScope_eq (env : Env) (ctx : Context) :
    exec (noteScope env) ctx =
      if ctx.latestScope.map (Scope.apply ctx.subst) = some (Scope.apply ctx.subst env.scope) then
        (.ok (), ctx)
      else (.ok (),
        { ctx with
          events := ctx.events.push (.scope (Scope.apply ctx.subst env.scope))
          latestScope := some env.scope }) := by
  have hget : exec get ctx = (.ok ctx, ctx) := rfl
  have hmodify : ∀ (f : Context → Context) (ctx : Context),
      exec (modify f) ctx = (.ok (), f ctx) := fun _ _ => rfl
  rcases hlatest : ctx.latestScope with _ | latest
  · simp [noteScope, resolveScope, exec_bind, hget, hmodify, hlatest]
  · by_cases hc : Scope.apply ctx.subst latest = Scope.apply ctx.subst env.scope
    · simp [noteScope, resolveScope, exec_bind, hget, hlatest, hc]
    · simp [noteScope, resolveScope, exec_bind, hget, hmodify, hlatest, hc]

theorem exec_noteScope (env : Env) (ctx : Context) :
    exec (noteScope env) ctx = (.ok (), ctx) ∨
    exec (noteScope env) ctx = (.ok (),
      { ctx with
        events := ctx.events.push (.scope (Scope.apply ctx.subst env.scope))
        latestScope := some env.scope }) := by
  rw [exec_noteScope_eq]
  split
  · exact .inl rfl
  · exact .inr rfl

/-! ## Unification -/

section

variable {ctx : Context} {one two : Ty} {src : Region} {oneName twoName : String}
  {message : Option String}

theorem exec_unify_error {e : TypeError}
    (h : (one.apply ctx.subst).unify (two.apply ctx.subst) = .error e) :
    exec (unify one two src oneName twoName message) ctx = (.error e, ctx) := by
  simp [unify, resolve, exec_bind, h, MonadExcept.ofExcept]

/-- What a unification that succeeds logs: the types as they are, and once more with the new
bindings if there are any. -/
def unifyEvents (one two : Ty) (delta subst : Subst) (src : Region) (oneName twoName : String)
    (message : Option String) : List Event :=
  .unify ⟨one, two, delta, src, oneName, twoName, message⟩ ::
    if delta.isEmpty then []
    else [.unify ⟨one.apply subst, two.apply subst, delta, src, oneName, twoName, message⟩]

theorem exists_eq_unify_of_mem_unifyEvents {delta s : Subst} {e : Event}
    (h : e ∈ unifyEvents one two delta s src oneName twoName message) : ∃ step, e = .unify step := by
  rcases List.mem_cons.mp h with h | h
  · exact ⟨_, h⟩
  · split at h
    · cases h
    · exact ⟨_, List.mem_singleton.mp h⟩

theorem exec_unify_ok {delta s : Subst}
    (h : (one.apply ctx.subst).unify (two.apply ctx.subst) = .ok delta)
    (hs : delta.compose ctx.subst = .ok s) :
    exec (unify one two src oneName twoName message) ctx = (.ok (),
      { ctx with
        subst := s
        events := ctx.events ++ unifyEvents (one.apply ctx.subst) (two.apply ctx.subst) delta s src
          oneName twoName message }) := by
  have hmodify : ∀ (f : Context → Context) (ctx : Context),
      exec (modify f) ctx = (.ok (), f ctx) := fun _ _ => rfl
  simp only [unify, resolve, exec_bind, exec_subst, exec_pure, exec_emit, hmodify, h, hs,
    MonadExcept.ofExcept, unifyEvents]
  by_cases he : delta.isEmpty = true
  · simp [he]
  · simp [he]

theorem exec_unify_overwrite {delta : Subst} {e : TypeError}
    (h : (one.apply ctx.subst).unify (two.apply ctx.subst) = .ok delta)
    (hs : delta.compose ctx.subst = .error e) :
    exec (unify one two src oneName twoName message) ctx = (.error e,
      { ctx with
        events := ctx.events.push (.unify ⟨one.apply ctx.subst, two.apply ctx.subst, delta, src,
          oneName, twoName, message⟩) }) := by
  simp [unify, resolve, exec_bind, h, hs, MonadExcept.ofExcept]

/-- Unification touches the bindings and the log only, and logs nothing but unifications. -/
theorem exec_unify_frame (one two : Ty) (src : Region) (oneName twoName : String)
    (message : Option String) (ctx : Context) :
    let ctx' := (exec (unify one two src oneName twoName message) ctx).2
    ctx'.nextId = ctx.nextId ∧ ctx'.origins = ctx.origins ∧ ctx'.stack = ctx.stack ∧
      ∃ added, ctx'.events.toList = ctx.events.toList ++ added ∧ ∀ e ∈ added, ∃ step, e = .unify step := by
  cases hu : (one.apply ctx.subst).unify (two.apply ctx.subst) with
  | error e =>
    rw [exec_unify_error hu]
    exact ⟨rfl, rfl, rfl, [], by simp, by simp⟩
  | ok delta =>
    cases hs : delta.compose ctx.subst with
    | error e =>
      rw [exec_unify_overwrite hu hs]
      exact ⟨rfl, rfl, rfl, _, Array.toList_push, by simp⟩
    | ok s =>
      rw [exec_unify_ok hu hs]
      exact ⟨rfl, rfl, rfl, _, Array.toList_appendList, fun _ => exists_eq_unify_of_mem_unifyEvents⟩

end

/-! ## Elementary steps -/

/-- The computations put together from elementary steps, which find `n` lines of explanation that they
may drop and, if they succeed, leave `n'` in their place. -/
inductive Stepwise : {α : Type} → Nat → Nat → InferM α → Prop
  | pure {α : Type} {n : Nat} (a : α) : Stepwise n n (pure a)
  /-- Only composition reports that a binding is made twice, and only unification that a variable occurs
  in its own type. -/
  | throw {α : Type} {n n' : Nat} (e : TypeError) (h : ∀ name, e ≠ .substitutionOverwrite name)
    (hoccurs : ∀ name t, e ≠ .occursCheck name t) : Stepwise n n' (throw e : InferM α)
  | bind {α β : Type} {n k n' : Nat} {m : InferM α} {f : α → InferM β} (hm : Stepwise n k m)
    (hf : ∀ a, Stepwise k n' (f a)) : Stepwise n n' (m >>= f)
  | subst {n : Nat} : Stepwise n n subst
  | infer {n : Nat} (src : Region) (t : Ty) : Stepwise n n (emit (.infer src t))
  | pause {n : Nat} (title : String) : Stepwise n n (pause title)
  | freshVar {n : Nat} (origin : Origin) : Stepwise n n (freshVar origin)
  | unify {n : Nat} (one two : Ty) (src : Region) (oneName twoName : String)
    (message : Option String) : Stepwise n n (unify one two src oneName twoName message)
  | push {n : Nat} (src : Region) (line : StackLine) : Stepwise n (n + 1) (push src line)
  | pop {n : Nat} : Stepwise (n + 1) n pop
  | noteScope {n : Nat} (env : Env) : Stepwise n n (noteScope env)

namespace Stepwise

variable {n n' : Nat}

theorem resolve (t : Ty) : Stepwise n n (InferM.resolve t) := .bind .subst fun _ => .pure _

theorem resolveEnv (env : Env) : Stepwise n n (InferM.resolveEnv env) := .bind .subst fun _ => .pure _

theorem resolveScope (scope : Scope) : Stepwise n n (InferM.resolveScope scope) :=
  .bind .subst fun _ => .pure _

theorem resolveAll (ts : List Ty) : Stepwise n n (InferM.resolveAll ts) := .bind .subst fun _ => .pure _

theorem replace (src : Region) (line : StackLine) : Stepwise (n + 1) (n + 1) (InferM.replace src line) :=
  .bind .pop fun _ => .push src line

theorem mapM {f : α → InferM β} (hf : ∀ a, Stepwise n n (f a)) (l : List α) : Stepwise n n (l.mapM f) := by
  induction l with
  | nil => exact .pure _
  | cons a l ih =>
    rw [List.mapM_cons]
    exact .bind (hf a) fun _ => .bind ih fun _ => .pure _

theorem freshSubst (vars : List String) : Stepwise n n (InferM.freshSubst vars) :=
  .bind (.mapM (fun _ => .bind (.freshVar _) fun _ => .pure _) vars) fun _ => .pure _

theorem instantiate (s : Scheme) : Stepwise n n (InferM.instantiate s) :=
  .bind (.freshSubst s.vars) fun _ => .pure _

theorem recording (env : Env) (src : Region) {find : InferM Ty} (h : Stepwise n n find) :
    Stepwise n n (InferM.recording env src find) :=
  .bind (.noteScope env) fun _ => .bind h fun t => .bind (.infer src t) fun _ => .pure t

/-- A computation that fails on a condition, and otherwise goes on. -/
theorem guard {c : Prop} [Decidable c] {e : TypeError}
    (he : ∀ name, e ≠ .substitutionOverwrite name) (hoccurs : ∀ name t, e ≠ .occursCheck name t)
    {next : Unit → InferM α} (h : ∀ u, Stepwise n n' (next u)) :
    Stepwise n n' (if c then MonadExcept.throw e >>= next else next ()) := by
  split
  · exact .bind (.throw e he hoccurs) h
  · exact h ()

end Stepwise

/-! ## Inference -/

section

variable {n : Nat}

mutual

theorem stepwise_pattern (env : Env) : (p : Pat) → Stepwise n n (pattern env p)
  | .any src => by
    rw [pattern]
    exact .bind (.freshVar _) fun _ => .pure _
  | .var name src => by
    rw [pattern]
    exact .bind (.freshVar _) fun _ => .pure _
  | .prim value src => by
    rw [pattern]
    exact .pure _
  | .str value src => by
    rw [pattern]
    exact .pure _
  | .con name args src => by
    rw [pattern]
    split
    · exact .throw _ nofun nofun
    · exact .guard (by nofun) (by nofun) fun _ => .bind (.freshSubst _) fun _ =>
        .bind (stepwise_fields env _ _ args) fun _ => .bind (.resolve _) fun _ => .pure _

theorem stepwise_fields (env : Env) :
    (declared : List Ty) → (scope : Scope) → (ps : List Pat) →
      Stepwise n n (fields env declared scope ps)
  | _, _, [] => by
    rw [fields]
    exact .pure _
  | [], _, p :: ps => by
    rw [fields]
    exact .pure _
  | d :: ds, scope, p :: ps => by
    rw [fields]
    exact .bind (stepwise_pattern env p) fun _ => .bind (.unify ..) fun _ =>
      stepwise_fields env ds _ ps

end

theorem stepwise_params (env : Env) (scope : Scope) (ps : List Pat) :
    Stepwise n n (params env scope ps) := by
  induction ps generalizing scope with
  | nil => exact .pure _
  | cons p ps ih =>
    exact .bind (stepwise_pattern env p) fun _ => .bind (.resolveScope _) fun _ =>
      .bind (.infer ..) fun _ => .bind (ih _) fun _ => .pure _

theorem stepwise_embedded {env : Env} {es : List Expr}
    (h : ∀ e ∈ es, ∀ env n, Stepwise n n (expr env e)) : Stepwise n n (embedded env es) := by
  induction es with
  | nil =>
    rw [embedded]
    exact .pure _
  | cons e es ih =>
    obtain ⟨he, hes⟩ := List.forall_mem_cons.mp h
    rw [embedded]
    exact .bind (.resolveEnv _) fun _ => .bind (he _ _) fun _ => ih hes

theorem stepwise_exprs {env : Env} {es : List Expr}
    (h : ∀ e ∈ es, ∀ env n, Stepwise n n (expr env e)) : Stepwise n n (exprs env es) := by
  induction es with
  | nil =>
    rw [exprs]
    exact .pure _
  | cons e es ih =>
    obtain ⟨he, hes⟩ := List.forall_mem_cons.mp h
    rw [exprs]
    exact .bind (.resolveEnv _) fun _ => .bind (he _ _) fun _ => .bind (ih hes) fun _ => .pure _

theorem stepwise_otherwise {env : Env} {no : Option Expr}
    (h : ∀ e ∈ no, ∀ env n, Stepwise n n (expr env e)) : Stepwise n n (otherwise env no) := by
  cases no with
  | none =>
    rw [otherwise]
    exact .pure _
  | some e =>
    rw [otherwise]
    exact .bind (.resolveEnv _) fun _ => h e rfl _ _

theorem stepwise_returned {env : Env} {value : Option Expr}
    (h : ∀ e ∈ value, ∀ env n, Stepwise n n (expr env e)) : Stepwise n n (returned env value) := by
  cases value with
  | none =>
    rw [returned]
    exact .pure _
  | some e =>
    rw [returned]
    exact h e rfl _ _

theorem stepwise_cases {env : Env} {targetTy result : Ty} {cs : List Case}
    (h : ∀ p e, Case.mk p e ∈ cs → ∀ env n, Stepwise n n (expr env e)) :
    Stepwise n n (cases env targetTy result cs) := by
  induction cs with
  | nil =>
    rw [cases]
    exact .pure _
  | cons c cs ih =>
    obtain ⟨p, e⟩ := c
    have he := h p e List.mem_cons_self
    have hcs := ih fun p' e' h' => h p' e' (List.mem_cons_of_mem _ h')
    rw [cases]
    exact .bind (stepwise_pattern env p) fun _ => .bind (.unify ..) fun _ =>
      .bind (.resolveScope _) fun _ => .bind (.resolveEnv _) fun _ => .bind (he _ _) fun _ =>
      .bind (.resolve _) fun _ => .bind (.unify ..) fun _ => hcs

theorem stepwise_stmts {env : Env} {scope : Scope} {last : Ty} {ss : List Stmt}
    (h : ∀ s ∈ ss, ∀ env n, Stepwise n n (stmt env s)) : Stepwise n n (stmts env scope last ss) := by
  induction ss generalizing scope last with
  | nil =>
    rw [stmts]
    exact .resolve _
  | cons s ss ih =>
    obtain ⟨hs, hss⟩ := List.forall_mem_cons.mp h
    rw [stmts]
    exact .bind (.resolveEnv _) fun _ => .bind (.resolveScope _) fun _ => .bind (hs _ _) fun _ =>
      ih hss

/-- **Inference is stepwise**, for expressions and statements together, and drops the lines of
explanation that it adds. -/
theorem stepwise_program :
    (∀ e env n, Stepwise n n (expr env e)) ∧ ∀ s env n, Stepwise n n (stmt env s) := by
  refine Expr.induction ?block ?ifElse ?switch ?prim ?var ?str ?lambda ?call ?forLoop ?letBind ?expr
    ?ret
  case block =>
    intro ss src hss env n
    rw [expr]
    -- Each case follows the definition of inference, one constructor of `Stepwise` for each step.
    exact .recording env src (stepwise_stmts hss)
  case ifElse =>
    intro cond yes no src hcond hyes hno env n
    rw [expr]
    exact .recording env src (.bind (.push ..) fun _ => .bind (.pause _) fun _ =>
      .bind (hcond _ _) fun _ => .bind (.unify ..) fun _ => .bind (.resolveEnv _) fun _ =>
      .bind (hyes _ _) fun _ => .bind (stepwise_otherwise hno) fun _ => .bind (.unify ..) fun _ =>
      .bind (.resolve _) fun _ => .bind (.resolve _) fun _ => .bind (.replace ..) fun _ =>
      .bind (.pause _) fun _ => .bind .pop fun _ => .resolve _)
  case switch =>
    intro target cs src htarget hcs env n
    rw [expr]
    exact .recording env src (.bind (htarget _ _) fun _ => .bind (.freshVar _) fun _ =>
      .bind (.resolve _) fun _ => .bind (.push ..) fun _ => .bind (.pause _) fun _ =>
      .bind (stepwise_cases hcs) fun _ => .bind .pop fun _ => .resolve _)
  case prim =>
    intro value src env n
    rw [expr]
    exact .recording env src (.pure _)
  case var =>
    intro name src env n
    rw [expr]
    refine .recording env src ?_
    split
    · exact .throw _ nofun nofun
    · exact .instantiate _
  case str =>
    intro value embeds src hembeds env n
    rw [expr]
    exact .recording env src (.bind (stepwise_embedded hembeds) fun _ => .pure _)
  case lambda =>
    intro args body src hbody env n
    rw [expr]
    exact .recording env src (.guard (by nofun) (by nofun) fun _ => .bind (.freshVar _) fun _ =>
      .bind (.push ..) fun _ => .bind (.pause _) fun _ => .bind (stepwise_params ..) fun _ =>
      .bind (.resolveAll _) fun _ => .bind (.replace ..) fun _ => .bind (.pause _) fun _ =>
      .bind (hbody _ _) fun _ => .bind (.resolve _) fun _ => .bind (.unify ..) fun _ =>
      .bind (.resolveAll _) fun _ => .bind (.resolve _) fun _ => .bind (.replace ..) fun _ =>
      .bind (.pause _) fun _ => .bind .pop fun _ => .pure _)
  case call =>
    intro target args src htarget hargs env n
    rw [expr]
    exact .recording env src (.guard (by nofun) (by nofun) fun _ => .bind (.freshVar _) fun _ =>
      .bind (.infer ..) fun _ => .bind (.push ..) fun _ => .bind (.pause _) fun _ =>
      .bind (htarget _ _) fun _ => .bind (stepwise_exprs hargs) fun _ => .bind (.resolve _) fun _ =>
      .bind (.resolveAll _) fun _ => .bind (.replace ..) fun _ => .bind (.pause _) fun _ =>
      .bind (.resolve _) fun _ => .bind (.unify ..) fun _ => .bind (.resolve _) fun _ =>
      .bind (.replace ..) fun _ => .bind (.pause _) fun _ => .bind .pop fun _ => .resolve _)
  case forLoop =>
    intro init cond update body src hinit hcond hupdate hbody env n
    rw [stmt]
    exact .bind (.push ..) fun _ => .bind (.pause _) fun _ => .bind (hinit _ _) fun _ =>
      .bind (.resolveEnv _) fun _ => .bind (.resolveScope _) fun _ => .bind (hcond _ _) fun _ =>
      .bind (.unify ..) fun _ => .bind (.resolveEnv _) fun _ => .bind (hupdate _ _) fun _ =>
      .bind (.resolveEnv _) fun _ => .bind (hbody _ _) fun _ => .bind .pop fun _ => .pure _
  case letBind =>
    intro pat init src hinit env n
    cases pat with
    | var name patSrc =>
      rw [stmt]
      exact .bind (.push ..) fun _ => .bind (.pause _) fun _ => .bind (.replace ..) fun _ =>
        .bind (.pause _) fun _ => .bind (.freshVar _) fun _ => .bind (.infer ..) fun _ =>
        .bind (.push ..) fun _ => .bind (.pause _) fun _ => .bind .pop fun _ =>
        .bind (.replace ..) fun _ => .bind (.pause _) fun _ => .bind (.replace ..) fun _ =>
        .bind (hinit _ _) fun _ => .bind (.resolve _) fun _ => .bind (.unify ..) fun _ =>
        .bind (.resolve _) fun _ => .bind (.resolve _) fun _ => .bind (.replace ..) fun _ =>
        .bind (.pause _) fun _ => .bind .pop fun _ => .bind (.resolve _) fun _ =>
        .bind (.resolveEnv _) fun _ => .pure _
    -- All other patterns share the last equation of the definition, whose side condition is closed
    -- at the end.
    | any | con | str | prim =>
      rw [stmt]
      · exact .bind (.push ..) fun _ => .bind (.pause _) fun _ =>
          .bind (stepwise_pattern env _) fun _ => .bind (hinit _ _) fun _ =>
          .bind (.unify ..) fun _ => .bind (.pause _) fun _ => .bind .pop fun _ =>
          .bind (.resolveScope _) fun _ => .pure _
      · nofun
  case expr =>
    intro value src hvalue env n
    rw [stmt]
    exact .bind (hvalue _ _) fun _ => .pure _
  case ret =>
    intro value src hvalue env n
    rw [stmt]
    refine .bind (.freshVar _) fun _ => ?_
    split
    · exact .throw _ nofun nofun
    · exact .bind (.push ..) fun _ => .bind (.pause _) fun _ =>
        .bind (stepwise_returned hvalue) fun _ => .bind (.unify ..) fun _ =>
        .bind (.resolve _) fun _ => .bind (.replace ..) fun _ => .bind (.pause _) fun _ =>
        .bind .pop fun _ => .pure _

theorem stepwise_expr (env : Env) (e : Expr) : Stepwise n n (expr env e) :=
  stepwise_program.1 e env n

theorem stepwise_stmt (env : Env) (s : Stmt) : Stepwise n n (stmt env s) :=
  stepwise_program.2 s env n

end

section

variable {env : Env} {s : Stmt} {ctx : Context}

theorem program_of_ok {r : StmtResult} (h : exec (stmt env s) {} = (.ok r, ctx)) :
    Infer.program env s = .ok (r.ty.apply ctx.subst, ctx.trace) := by
  unfold exec at h
  rw [Infer.program, h]

theorem program_of_error {e : TypeError} (h : exec (stmt env s) {} = (.error e, ctx)) :
    Infer.program env s = .error ⟨e, ctx.trace⟩ := by
  unfold exec at h
  rw [Infer.program, h]

end

/-- A program is inferred as one statement, in the initial state. -/
theorem program_cases (env : Env) (s : Stmt) :
    (∃ r ctx, exec (stmt env s) {} = (.ok r, ctx) ∧
      Infer.program env s = .ok (r.ty.apply ctx.subst, ctx.trace)) ∨
    ∃ e ctx, exec (stmt env s) {} = (.error e, ctx) ∧
      Infer.program env s = .error ⟨e, ctx.trace⟩ := by
  rcases h : exec (stmt env s) {} with ⟨e | r, ctx⟩
  · exact .inr ⟨e, ctx, rfl, program_of_error h⟩
  · exact .inl ⟨r, ctx, rfl, program_of_ok h⟩

end TypeTrace.InferM
