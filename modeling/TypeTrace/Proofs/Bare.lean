import TypeTrace.Proofs.Execution

/-!
# Programs without regions

Every phrase of a program knows the region that it was read from.  The types that inference finds do
not depend on it: regions only go into the log, into the lines of explanation, and into the reasons
why variables were created.  Two programs that are equal apart from regions are therefore typed
alike, with the same names for variables and the same bindings, or fail with the same error.

## Main definitions

* `Pat.bare`, `Expr.bare`, `Stmt.bare`: phrases with all regions set to one
* `InferM.Same`: two computations with one outcome and one effect on the store
* `Infer.findings`: what inference says about a program

## Main results

* `InferM.same_program`: inference does not depend on regions
* `Infer.findings_congr`: programs that are equal apart from regions are typed alike
-/

namespace TypeTrace

/-! ## Phrases without regions -/

/-- The region of all phrases without a region of their own. -/
def Region.blank : Region := ⟨0, none⟩

@[simp] theorem Region.merge_blank : Region.blank.merge .blank = .blank := rfl

mutual

/-- The pattern without regions. -/
def Pat.bare : Pat → Pat
  | .any _ => .any .blank
  | .var name _ => .var name .blank
  | .con name args _ => .con name (Pat.bareAll args) .blank
  | .str value _ => .str value .blank
  | .prim value _ => .prim value .blank

/-- The patterns without regions. -/
def Pat.bareAll : List Pat → List Pat
  | [] => []
  | p :: ps => p.bare :: Pat.bareAll ps

end

mutual

/-- The expression without regions. -/
def Expr.bare : Expr → Expr
  | .block stmts _ => .block (Stmt.bareAll stmts) .blank
  | .ifElse cond yes no _ => .ifElse cond.bare yes.bare (Expr.bare? no) .blank
  | .switch target cases _ => .switch target.bare (Case.bareAll cases) .blank
  | .prim value _ => .prim value .blank
  | .var name _ => .var name .blank
  | .str value embeds _ => .str value (Expr.bareAll embeds) .blank
  | .lambda args body _ => .lambda (Pat.bareAll args) body.bare .blank
  | .call target args _ => .call target.bare (Expr.bareAll args) .blank

/-- The expressions without regions. -/
def Expr.bareAll : List Expr → List Expr
  | [] => []
  | e :: es => e.bare :: Expr.bareAll es

/-- The expression, if there is one, without regions. -/
def Expr.bare? : Option Expr → Option Expr
  | none => none
  | some e => some e.bare

/-- The case without regions. -/
def Case.bare : Case → Case
  | .mk pat body => .mk pat.bare body.bare

/-- The cases without regions. -/
def Case.bareAll : List Case → List Case
  | [] => []
  | c :: cs => c.bare :: Case.bareAll cs

/-- The statement without regions. -/
def Stmt.bare : Stmt → Stmt
  | .forLoop init cond update body _ => .forLoop init.bare cond.bare update.bare body.bare .blank
  | .letBind pat init _ => .letBind pat.bare init.bare .blank
  | .expr value _ => .expr value.bare .blank
  | .ret value _ => .ret (Expr.bare? value) .blank

/-- The statements without regions. -/
def Stmt.bareAll : List Stmt → List Stmt
  | [] => []
  | s :: ss => s.bare :: Stmt.bareAll ss

end

section

-- The equations of these functions are made here, not by all the proofs at once that need them first.
attribute [local simp] Pat.bare Expr.bare Stmt.bare

end

@[simp] theorem Pat.bareAll_eq_map (ps : List Pat) : Pat.bareAll ps = ps.map Pat.bare := by
  induction ps with
  | nil => rw [bareAll, List.map_nil]
  | cons p ps ih => rw [bareAll, ih, List.map_cons]

@[simp] theorem Expr.bareAll_eq_map (es : List Expr) : Expr.bareAll es = es.map Expr.bare := by
  induction es with
  | nil => rw [bareAll, List.map_nil]
  | cons e es ih => rw [bareAll, ih, List.map_cons]

@[simp] theorem Expr.bare?_eq_map (e? : Option Expr) : Expr.bare? e? = e?.map Expr.bare := by
  cases e? <;> rw [bare?] <;> rfl

@[simp] theorem Case.bareAll_eq_map (cs : List Case) : Case.bareAll cs = cs.map Case.bare := by
  induction cs with
  | nil => rw [bareAll, List.map_nil]
  | cons c cs ih => rw [bareAll, ih, List.map_cons]

@[simp] theorem Stmt.bareAll_eq_map (ss : List Stmt) : Stmt.bareAll ss = ss.map Stmt.bare := by
  induction ss with
  | nil => rw [bareAll, List.map_nil]
  | cons s ss ih => rw [bareAll, ih, List.map_cons]

@[simp] theorem Expr.region_bare (e : Expr) : e.bare.region = .blank := by
  cases e <;> rw [bare] <;> rfl

@[simp] theorem Stmt.region_bare (s : Stmt) : s.bare.region = .blank := by
  cases s <;> rw [bare] <;> rfl

@[simp] theorem Expr.isLambda_bare (e : Expr) : e.bare.isLambda = e.isLambda := by
  cases e <;> rw [bare] <;> rfl

/-! ## Computations with one outcome -/

namespace InferM

variable {α β : Type} {m m' m'' : InferM α}

/-- From states with one store, the computations come to one outcome and to states with one store. -/
def Same (m m' : InferM α) : Prop :=
  ∀ ctx ctx', ctx.store = ctx'.store →
    (exec m ctx).1 = (exec m' ctx').1 ∧ (exec m ctx).2.store = (exec m' ctx').2.store

theorem Stepwise.same {n n' : Nat} (h : Stepwise n n' m) : Same m m :=
  fun _ _ hstore => h.exec_store hstore

namespace Same

theorem symm (h : Same m m') : Same m' m := fun ctx ctx' hstore =>
  have hout := h ctx' ctx hstore.symm
  ⟨hout.1.symm, hout.2.symm⟩

theorem trans (h : Same m m') (h' : Same m' m'') : Same m m'' := fun ctx ctx' hstore =>
  have hout := h ctx ctx rfl
  have hout' := h' ctx ctx' hstore
  ⟨hout.1.trans hout'.1, hout.2.trans hout'.2⟩

theorem pure {a : α} : Same (pure a) (pure a) := fun _ _ hstore => ⟨rfl, hstore⟩

theorem throw {e : TypeError} : Same (throw e : InferM α) (throw e) := fun _ _ hstore => ⟨rfl, hstore⟩

theorem bind {f f' : α → InferM β} (h : Same m m') (hf : ∀ a, Same (f a) (f' a)) :
    Same (m >>= f) (m' >>= f') := by
  intro ctx ctx' hstore
  obtain ⟨hout, hstore⟩ := h ctx ctx' hstore
  rw [exec_bind, exec_bind]
  -- The two runs fail together or go on together, with the same result.
  rcases hr : exec m ctx with ⟨a | a, ctx₁⟩
  all_goals
    rcases hr' : exec m' ctx' with ⟨b | b, ctx₁'⟩
    all_goals
      rw [hr, hr'] at hout hstore
      cases hout
  · exact ⟨rfl, hstore⟩
  · exact hf a ctx₁ ctx₁' hstore

/-- Both fail on a condition, and otherwise go on. -/
theorem guard {c : Prop} [Decidable c] {e : TypeError} {next next' : Unit → InferM α}
    (h : Same (next ()) (next' ())) :
    Same (if c then MonadExcept.throw e >>= next else next ())
      (if c then MonadExcept.throw e >>= next' else next' ()) := by
  split
  · exact .bind .throw fun _ => h
  · exact h

variable {src src' : Region}

theorem infer {t : Ty} : Same (emit (.infer src t)) (emit (.infer src' t)) :=
  fun _ _ hstore => ⟨rfl, hstore⟩

theorem push {line line' : StackLine} : Same (push src line) (push src' line') :=
  fun _ _ hstore => ⟨rfl, hstore⟩

theorem pop : Same pop pop := (Stepwise.pop (n := 0)).same

theorem replace {line line' : StackLine} : Same (replace src line) (replace src' line') :=
  .bind .pop fun _ => .push

theorem pause {title : String} : Same (pause title) (pause title) := (Stepwise.pause (n := 0) title).same

theorem resolve {t : Ty} : Same (resolve t) (resolve t) := (Stepwise.resolve (n := 0) t).same

theorem resolveAll {ts : List Ty} : Same (resolveAll ts) (resolveAll ts) :=
  (Stepwise.resolveAll (n := 0) ts).same

theorem resolveEnv {env : Env} : Same (resolveEnv env) (resolveEnv env) :=
  (Stepwise.resolveEnv (n := 0) env).same

theorem resolveScope {scope : Scope} : Same (resolveScope scope) (resolveScope scope) :=
  (Stepwise.resolveScope (n := 0) scope).same

theorem freshSubst {vars : List String} : Same (freshSubst vars) (freshSubst vars) :=
  (Stepwise.freshSubst (n := 0) vars).same

theorem instantiate {scheme : Scheme} : Same (instantiate scheme) (instantiate scheme) :=
  (Stepwise.instantiate (n := 0) scheme).same

theorem freshVar {origin origin' : Origin} : Same (freshVar origin) (freshVar origin') := by
  intro ctx ctx' hstore
  refine ⟨congrArg (fun c : Store => Except.ok (Ty.var c.next)) hstore, ?_⟩
  exact congrArg (fun c : Store => c.skip 1) hstore

/-- The region is logged, and nothing else depends on it. -/
theorem unify {one two : Ty} {oneName twoName : String} {message : Option String} :
    Same (unify one two src oneName twoName message) (unify one two src' oneName twoName message) := by
  intro ctx ctx' hstore
  have hsubst : ctx.subst = ctx'.subst := congrArg Store.subst hstore
  cases hu : (one.apply ctx.subst).unify (two.apply ctx.subst) with
  | error e =>
    rw [exec_unify_error hu, exec_unify_error (hsubst ▸ hu)]
    exact ⟨rfl, hstore⟩
  | ok d =>
    cases hs : d.compose ctx.subst with
    | error e =>
      rw [exec_unify_overwrite hu hs, exec_unify_overwrite (hsubst ▸ hu) (hsubst ▸ hs)]
      exact ⟨rfl, hstore⟩
    | ok s =>
      rw [exec_unify_ok hu hs, exec_unify_ok (hsubst ▸ hu) (hsubst ▸ hs)]
      exact ⟨rfl, congrArg (fun c : Store => Store.mk c.nextId s) hstore⟩

theorem recording {env : Env} {find find' : InferM Ty} (h : Same find find') :
    Same (recording env src find) (recording env src' find') :=
  .bind (Stepwise.noteScope (n := 0) env).same fun _ => .bind h fun _ => .bind .infer fun _ => .pure

end Same

/-! ## Inference without regions -/

mutual

theorem same_pattern (env : Env) : (p : Pat) → Same (pattern env p) (pattern env p.bare)
  | .any src => by
    rw [Pat.bare, pattern, pattern]
    exact .bind .freshVar fun _ => .pure
  | .var name src => by
    rw [Pat.bare, pattern, pattern]
    exact .bind .freshVar fun _ => .pure
  | .prim value src => by
    rw [Pat.bare, pattern, pattern]
    exact .pure
  | .str value src => by
    rw [Pat.bare, pattern, pattern]
    exact .pure
  | .con name args src => by
    rw [Pat.bare, pattern, pattern]
    split
    · exact .throw
    · rw [Pat.bareAll_eq_map, List.length_map, ← Pat.bareAll_eq_map]
      exact .guard (.bind .freshSubst fun _ =>
        .bind (same_fields env _ _ args) fun _ => .bind .resolve fun _ => .pure)

theorem same_fields (env : Env) :
    (declared : List Ty) → (scope : Scope) → (ps : List Pat) →
      Same (fields env declared scope ps) (fields env declared scope (Pat.bareAll ps))
  | _, _, [] => by
    rw [Pat.bareAll, fields]
    exact .pure
  | [], _, p :: ps => by
    rw [Pat.bareAll, fields, fields]
    exact .pure
  | d :: ds, scope, p :: ps => by
    rw [Pat.bareAll, fields, fields]
    exact .bind (same_pattern env p) fun _ => .bind .unify fun _ => same_fields env ds _ ps

end

theorem same_params (env : Env) (scope : Scope) (ps : List Pat) :
    Same (params env scope ps) (params env scope (ps.map Pat.bare)) := by
  induction ps generalizing scope with
  | nil => exact .pure
  | cons p ps ih =>
    exact .bind (same_pattern env p) fun _ => .bind .resolveScope fun _ =>
      .bind .infer fun _ => .bind (ih _) fun _ => .pure

/-- The expression is typed as it is without regions. -/
def SameExpr (e : Expr) : Prop := ∀ env, Same (expr env e) (expr env e.bare)

/-- The statement is typed as it is without regions. -/
def SameStmt (s : Stmt) : Prop := ∀ env, Same (stmt env s) (stmt env s.bare)

section

variable {env : Env} {es : List Expr} {e? : Option Expr}

theorem same_embedded (h : ∀ e ∈ es, SameExpr e) :
    Same (embedded env es) (embedded env (es.map Expr.bare)) := by
  induction es with
  | nil =>
    rw [List.map_nil, embedded]
    exact .pure
  | cons e es ih =>
    obtain ⟨he, hes⟩ := List.forall_mem_cons.mp h
    rw [List.map_cons, embedded, embedded]
    exact .bind .resolveEnv fun _ => .bind (he _) fun _ => ih hes

theorem same_exprs (h : ∀ e ∈ es, SameExpr e) : Same (exprs env es) (exprs env (es.map Expr.bare)) := by
  induction es with
  | nil =>
    rw [List.map_nil, exprs]
    exact .pure
  | cons e es ih =>
    obtain ⟨he, hes⟩ := List.forall_mem_cons.mp h
    rw [List.map_cons, exprs, exprs]
    exact .bind .resolveEnv fun _ => .bind (he _) fun _ => .bind (ih hes) fun _ => .pure

theorem same_otherwise (h : ∀ e ∈ e?, SameExpr e) :
    Same (otherwise env e?) (otherwise env (e?.map Expr.bare)) := by
  cases e? with
  | none =>
    rw [Option.map_none, otherwise]
    exact .pure
  | some e =>
    rw [Option.map_some, otherwise, otherwise]
    exact .bind .resolveEnv fun _ => h e rfl _

theorem same_returned (h : ∀ e ∈ e?, SameExpr e) :
    Same (returned env e?) (returned env (e?.map Expr.bare)) := by
  cases e? with
  | none =>
    rw [Option.map_none, returned]
    exact .pure
  | some e =>
    rw [Option.map_some, returned, returned]
    exact h e rfl _

theorem same_cases {targetTy result : Ty} {cs : List Case} (h : ∀ p e, Case.mk p e ∈ cs → SameExpr e) :
    Same (cases env targetTy result cs) (cases env targetTy result (cs.map Case.bare)) := by
  induction cs with
  | nil =>
    rw [List.map_nil, cases]
    exact .pure
  | cons c cs ih =>
    obtain ⟨p, e⟩ := c
    have he := h p e List.mem_cons_self
    have hcs := ih fun p' e' h' => h p' e' (List.mem_cons_of_mem _ h')
    rw [List.map_cons, Case.bare, cases, cases]
    exact .bind (same_pattern env p) fun _ => .bind .unify fun _ =>
      .bind .resolveScope fun _ => .bind .resolveEnv fun _ => .bind (he _) fun _ =>
      .bind .resolve fun _ => .bind .unify fun _ => hcs

theorem same_stmts {scope : Scope} {last : Ty} {ss : List Stmt} (h : ∀ s ∈ ss, SameStmt s) :
    Same (stmts env scope last ss) (stmts env scope last (ss.map Stmt.bare)) := by
  induction ss generalizing scope last with
  | nil =>
    rw [List.map_nil, stmts]
    exact .resolve
  | cons s ss ih =>
    obtain ⟨hs, hss⟩ := List.forall_mem_cons.mp h
    rw [List.map_cons, stmts, stmts]
    exact .bind .resolveEnv fun _ => .bind .resolveScope fun _ => .bind (hs _) fun _ => ih hss

end

section

variable {src : Region}

theorem same_lambda {args : List Pat} {body : Expr} (hbody : SameExpr body) :
    SameExpr (.lambda args body src) := by
  intro env
  rw [Expr.bare, Pat.bareAll_eq_map, expr, expr, List.isEmpty_map]
  exact .recording (.guard (.bind .freshVar fun _ => .bind .push fun _ =>
    .bind .pause fun _ => .bind (same_params env _ args) fun _ => .bind .resolveAll fun _ =>
    .bind .replace fun _ => .bind .pause fun _ => .bind (hbody _) fun _ =>
    .bind .resolve fun _ => .bind .unify fun _ => .bind .resolveAll fun _ =>
    .bind .resolve fun _ => .bind .replace fun _ => .bind .pause fun _ =>
    .bind .pop fun _ => .pure))

theorem same_call {target : Expr} {args : List Expr} (htarget : SameExpr target)
    (hargs : ∀ e ∈ args, SameExpr e) : SameExpr (.call target args src) := by
  intro env
  rw [Expr.bare, Expr.bareAll_eq_map, expr, expr, List.isEmpty_map]
  exact .recording (.guard (.bind .freshVar fun _ => .bind .infer fun _ =>
    .bind .push fun _ => .bind .pause fun _ => .bind (htarget _) fun _ =>
    .bind (same_exprs hargs) fun _ => .bind .resolve fun _ => .bind .resolveAll fun _ =>
    .bind .replace fun _ => .bind .pause fun _ => .bind .resolve fun _ =>
    .bind .unify fun _ => .bind .resolve fun _ => .bind .replace fun _ =>
    .bind .pause fun _ => .bind .pop fun _ => .resolve))

theorem same_letBind {pat : Pat} {init : Expr} (hinit : SameExpr init) :
    SameStmt (.letBind pat init src) := by
  intro env
  cases pat with
  | var name patSrc =>
    rw [Stmt.bare, Pat.bare, stmt, stmt, Expr.isLambda_bare]
    exact .bind .push fun _ => .bind .pause fun _ => .bind .replace fun _ =>
      .bind .pause fun _ => .bind .freshVar fun _ => .bind .infer fun _ =>
      .bind .push fun _ => .bind .pause fun _ => .bind .pop fun _ =>
      .bind .replace fun _ => .bind .pause fun _ => .bind .replace fun _ =>
      .bind (hinit _) fun _ => .bind .resolve fun _ => .bind .unify fun _ =>
      .bind .resolve fun _ => .bind .resolve fun _ => .bind .replace fun _ =>
      .bind .pause fun _ => .bind .pop fun _ => .bind .resolve fun _ =>
      .bind .resolveEnv fun _ => .pure
  | any | con | str | prim =>
    simp only [Stmt.bare, Pat.bare, stmt]
    exact .bind .push fun _ => .bind .pause fun _ => .bind (same_pattern env _) fun _ =>
      .bind (hinit _) fun _ => .bind .unify fun _ => .bind .pause fun _ => .bind .pop fun _ =>
      .bind .resolveScope fun _ => .pure

end

/-- **Inference does not depend on regions**, for expressions and statements together. -/
theorem same_program : (∀ e, SameExpr e) ∧ ∀ s, SameStmt s := by
  refine Expr.induction ?block ?ifElse ?switch ?prim ?var ?str ?lambda ?call ?forLoop ?letBind ?expr
    ?ret
  case block =>
    intro ss src hss env
    rw [Expr.bare, Stmt.bareAll_eq_map, expr, expr]
    -- One step of the run for each step here; only the recorded regions differ.
    exact .recording (same_stmts hss)
  case ifElse =>
    intro cond yes no src hcond hyes hno env
    rw [Expr.bare, Expr.bare?_eq_map, expr, expr]
    exact .recording (.bind .push fun _ => .bind .pause fun _ => .bind (hcond _) fun _ =>
      .bind .unify fun _ => .bind .resolveEnv fun _ => .bind (hyes _) fun _ =>
      .bind (same_otherwise hno) fun _ => .bind .unify fun _ => .bind .resolve fun _ =>
      .bind .resolve fun _ => .bind .replace fun _ => .bind .pause fun _ => .bind .pop fun _ =>
      .resolve)
  case switch =>
    intro target cs src htarget hcs env
    rw [Expr.bare, Case.bareAll_eq_map, expr, expr]
    exact .recording (.bind (htarget _) fun _ => .bind .freshVar fun _ => .bind .resolve fun _ =>
      .bind .push fun _ => .bind .pause fun _ => .bind (same_cases hcs) fun _ =>
      .bind .pop fun _ => .resolve)
  case prim =>
    intro value src env
    rw [Expr.bare, expr, expr]
    exact .recording .pure
  case var =>
    intro name src env
    rw [Expr.bare, expr, expr]
    refine .recording ?_
    split
    · exact .throw
    · exact .instantiate
  case str =>
    intro value embeds src hembeds env
    rw [Expr.bare, Expr.bareAll_eq_map, expr, expr]
    exact .recording (.bind (same_embedded hembeds) fun _ => .pure)
  case lambda => exact fun args body src hbody => same_lambda hbody
  case call => exact fun target args src htarget hargs => same_call htarget hargs
  case forLoop =>
    intro init cond update body src hinit hcond hupdate hbody env
    rw [Stmt.bare, stmt, stmt]
    exact .bind .push fun _ => .bind .pause fun _ => .bind (hinit _) fun _ =>
      .bind .resolveEnv fun _ => .bind .resolveScope fun _ => .bind (hcond _) fun _ =>
      .bind .unify fun _ => .bind .resolveEnv fun _ => .bind (hupdate _) fun _ =>
      .bind .resolveEnv fun _ => .bind (hbody _) fun _ => .bind .pop fun _ => .pure
  case letBind => exact fun pat init src hinit => same_letBind hinit
  case expr =>
    intro value src hvalue env
    rw [Stmt.bare, stmt, stmt]
    exact .bind (hvalue _) fun _ => .pure
  case ret =>
    intro value src hvalue env
    rw [Stmt.bare, Expr.bare?_eq_map, stmt, stmt]
    refine .bind .freshVar fun _ => ?_
    split
    · exact .throw
    · exact .bind .push fun _ => .bind .pause fun _ => .bind (same_returned hvalue) fun _ =>
        .bind .unify fun _ => .bind .resolve fun _ => .bind .replace fun _ => .bind .pause fun _ =>
        .bind .pop fun _ => .pure

theorem same_stmt_of_bare {s s' : Stmt} (h : s.bare = s'.bare) (env : Env) :
    Same (stmt env s) (stmt env s') := by
  refine (same_program.2 s env).trans ?_
  rw [h]
  exact (same_program.2 s' env).symm

end InferM

namespace Infer

open InferM

/-- What inference says about a program: its type and the bindings in the end, or why it has none. -/
def findings (env : Env) (s : Stmt) : Except TypeError (Ty × Subst) :=
  ((program env s).mapError Failure.error).map fun found => (found.1, found.2.subst)

theorem findings_eq (env : Env) (s : Stmt) :
    findings env s = (exec (stmt env s) {}).1.map fun r =>
      (r.ty.apply (exec (stmt env s) {}).2.store.subst, (exec (stmt env s) {}).2.store.subst) := by
  rcases program_cases env s with ⟨r, ctx, hexec, hprogram⟩ | ⟨e, ctx, hexec, hprogram⟩
  · rw [findings, hprogram, hexec]
    rfl
  · rw [findings, hprogram, hexec]
    rfl

/-- **Programs that are equal apart from regions are typed alike**: with one type, in the same
variables, and the same bindings, or not at all, for the same reason. -/
theorem findings_congr {s s' : Stmt} (h : s.bare = s'.bare) (env : Env) :
    findings env s = findings env s' := by
  obtain ⟨hout, hstore⟩ := same_stmt_of_bare h env {} {} rfl
  rw [findings_eq, findings_eq, hout, hstore]

end Infer
end TypeTrace
