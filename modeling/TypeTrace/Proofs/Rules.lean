import TypeTrace.Proofs.Execution

/-!
# The rules of inference

One rule for each construct: inference of the construct leads from one store to another exactly if
inference of its parts does, through stores in between.  The rules are all that later proofs see of
inference; how the events, the stack of explanations and the snapshots of the scope are written is
of no concern there.

The environments in the rules differ in whether they are brought up to date with the bindings.  The
arguments of a call, the branches of an `if`, the bodies of cases and the statements of a block are
inferred in an environment that is, the body of a function and the initialiser of a `let` in one
that is not.

## Main results

* `InferM.yields_var`, `InferM.yields_lambda`, `InferM.yields_letVar`, …: the rules
* `Infer.program_eq_ok_iff`: a program has the type of its statement
-/

namespace TypeTrace

namespace InferM

variable {env : Env} {c c' : Store}

/-! ## Patterns -/

theorem yields_any {src : Region} {r : Ty × Scope} :
    Yields (pattern env (.any src)) c r c' ↔ r = (.var c.next, .empty) ∧ c' = c.skip 1 := by
  rw [pattern]
  refine yields_iff fun ctx hctx => ?_
  subst hctx
  simp only [reaches_bind, reaches_freshVar, reaches_pure]
  exact and_congr eq_comm eq_comm

theorem yields_patVar {name : String} {src : Region} {r : Ty × Scope} :
    Yields (pattern env (.var name src)) c r c' ↔
      r = (.var c.next, .singleton name (.mono (.var c.next))) ∧ c' = c.skip 1 := by
  rw [pattern]
  refine yields_iff fun ctx hctx => ?_
  subst hctx
  simp only [reaches_bind, reaches_freshVar, reaches_pure]
  exact and_congr eq_comm eq_comm

theorem yields_patPrim {value : Prim} {src : Region} {r : Ty × Scope} :
    Yields (pattern env (.prim value src)) c r c' ↔ r = (value.ty, .empty) ∧ c' = c := by
  rw [pattern, yields_pure]

theorem yields_patStr {value : String} {src : Region} {r : Ty × Scope} :
    Yields (pattern env (.str value src)) c r c' ↔ r = (.string, .empty) ∧ c' = c := by
  rw [pattern, yields_pure]

theorem yields_patCon {name : String} {args : List Pat} {src : Region} {r : Ty × Scope} :
    Yields (pattern env (.con name args src)) c r c' ↔
      ∃ con scope, env.constructors.get? name = some con ∧ con.args.length = args.length ∧
        Yields (fields env (con.args.map (Ty.apply (.fresh c.nextId con.free))) .empty args)
          (c.skip con.free.length) scope c' ∧
        r = ((con.result.apply (.fresh c.nextId con.free)).apply c'.subst, scope) := by
  rw [pattern]
  refine yields_iff fun ctx hctx => ?_
  subst hctx
  cases hcon : env.constructors.get? name with
  | none => simp
  | some con =>
    simp only [reaches_bind, reaches_ite, reaches_throw, reaches_resolve, reaches_pure,
      imp_false, not_not, Option.some.injEq]
    constructor
    · rintro ⟨hlen, h⟩
      obtain ⟨τ, ctx₁, hτ, h⟩ := (h hlen).yields
      obtain ⟨scope, ctx₂, h₂, rfl, rfl⟩ := h.yields
      obtain ⟨rfl, h₁⟩ := yields_freshSubst.mp hτ
      rw [h₁] at h₂
      exact ⟨con, scope, rfl, hlen, h₂, rfl⟩
    · rintro ⟨_, scope, rfl, hlen, h₂, rfl⟩
      refine ⟨hlen, fun _ => (yields_freshSubst.mpr ⟨rfl, rfl⟩).reaches (.freshSubst _) rfl ?_⟩
      intro ctx₁ h₁
      refine h₂.reaches (stepwise_fields ..) h₁ ?_
      rintro ctx₂ rfl
      exact ⟨rfl, rfl⟩

theorem yields_fields_nil {declared : List Ty} {scope scope' : Scope} :
    Yields (fields env declared scope []) c scope' c' ↔ scope' = scope ∧ c' = c := by
  rw [fields, yields_pure]

theorem yields_fields_cons {d : Ty} {ds : List Ty} {p : Pat} {ps : List Pat}
    {scope scope' : Scope} :
    Yields (fields env (d :: ds) scope (p :: ps)) c scope' c' ↔
      ∃ ty extra c₁ c₂, Yields (pattern env p) c (ty, extra) c₁ ∧ c₁.Unifies ty d c₂ ∧
        Yields (fields env ds (scope.union extra) ps) c₂ scope' c' := by
  rw [fields]
  refine yields_iff fun ctx hctx => ?_
  subst hctx
  simp only [reaches_bind]
  constructor
  · intro h
    obtain ⟨⟨ty, extra⟩, ctx₁, h₁, h⟩ := h.yields
    obtain ⟨ctx₂, h₂, h⟩ := h.unifies
    obtain ⟨_, ctx₃, h₃, rfl, rfl⟩ := h.yields
    exact ⟨ty, extra, _, _, h₁, h₂, h₃⟩
  · rintro ⟨ty, extra, c₁, c₂, h₁, h₂, h₃⟩
    refine h₁.reaches (stepwise_pattern ..) rfl fun ctx₁ hctx₁ => ?_
    refine h₂.reaches hctx₁ fun ctx₂ hctx₂ => ?_
    exact h₃.reaches (stepwise_fields ..) hctx₂ fun ctx₃ hctx₃ => ⟨rfl, hctx₃⟩

/-! ## Parameters -/

theorem yields_params_nil {scope : Scope} {r : List Ty × Scope} :
    Yields (params env scope []) c r c' ↔ r = ([], scope) ∧ c' = c := by
  rw [params, yields_pure]

theorem yields_params_cons {scope : Scope} {p : Pat} {ps : List Pat} {r : List Ty × Scope} :
    Yields (params env scope (p :: ps)) c r c' ↔
      ∃ ty extra c₁ tys scope', Yields (pattern env p) c (ty, extra) c₁ ∧
        Yields (params env (scope.union (Scope.apply c₁.subst extra)) ps) c₁ (tys, scope') c' ∧
        r = (ty :: tys, scope') := by
  rw [params]
  refine yields_iff fun ctx hctx => ?_
  subst hctx
  simp only [reaches_bind, reaches_resolveScope, reaches_emit, reaches_pure]
  constructor
  · intro h
    obtain ⟨⟨ty, extra⟩, ctx₁, h₁, h⟩ := h.yields
    obtain ⟨⟨tys, scope'⟩, ctx₂, h₂, rfl, rfl⟩ := h.yields
    exact ⟨ty, extra, _, tys, scope', h₁, h₂, rfl⟩
  · rintro ⟨ty, extra, c₁, tys, scope', h₁, h₂, rfl⟩
    refine h₁.reaches (stepwise_pattern ..) rfl ?_
    rintro ctx₁ rfl
    exact h₂.reaches (stepwise_params ..) rfl fun ctx₂ hctx₂ => ⟨rfl, hctx₂⟩

/-! ## Expressions -/

theorem yields_prim {value : Prim} {src : Region} {t : Ty} :
    Yields (expr env (.prim value src)) c t c' ↔ t = value.ty ∧ c' = c := by
  rw [expr]
  refine yields_recording fun ctx hctx => ?_
  subst hctx
  rw [reaches_pure]
  exact and_congr eq_comm eq_comm

theorem yields_str {value : String} {embeds : List Expr} {src : Region} {t : Ty} :
    Yields (expr env (.str value embeds src)) c t c' ↔
      t = .string ∧ Yields (embedded env embeds) c () c' := by
  rw [expr]
  refine yields_recording fun ctx hctx => ?_
  subst hctx
  simp only [reaches_bind, reaches_pure]
  constructor
  · intro h
    obtain ⟨_, ctx₁, h₁, rfl, rfl⟩ := h.yields
    exact ⟨rfl, h₁⟩
  · rintro ⟨rfl, h₁⟩
    exact h₁.reaches (stepwise_embedded fun e _ env _ => stepwise_expr env e) rfl
      fun ctx₁ hctx₁ => ⟨rfl, hctx₁⟩

theorem yields_var {name : String} {src : Region} {t : Ty} :
    Yields (expr env (.var name src)) c t c' ↔
      ∃ s, env.lookup name = some s ∧ t = s.body.apply (.fresh c.nextId s.vars) ∧
        c' = c.skip s.vars.length := by
  rw [expr]
  refine yields_recording fun ctx hctx => ?_
  subst hctx
  cases hs : env.lookup name with
  | none => simp
  | some s =>
    simp only [Option.some.injEq, exists_eq_left', ← yields_instantiate]
    constructor
    · intro h
      obtain ⟨_, ctx₁, h₁, rfl, rfl⟩ := h.yields
      exact h₁
    · intro h
      exact h.reaches (.instantiate s) rfl fun ctx₁ hctx₁ => ⟨rfl, hctx₁⟩

theorem yields_block {ss : List Stmt} {src : Region} {t : Ty} :
    Yields (expr env (.block ss src)) c t c' ↔ Yields (stmts env .empty .void ss) c t c' := by
  rw [expr]
  refine yields_recording fun ctx hctx => ?_
  constructor
  · exact fun h => ⟨ctx, hctx, h⟩
  · exact fun h => h.reaches (stepwise_stmts fun s _ env _ => stepwise_stmt env s) hctx
      fun ctx₁ hctx₁ => ⟨rfl, hctx₁⟩

theorem yields_lambda {args : List Pat} {body : Expr} {src : Region} {t : Ty} :
    Yields (expr env (.lambda args body src)) c t c' ↔
      args ≠ [] ∧ ∃ tys scope c₁ bodyTy c₂,
        Yields (params env (.singleton "return" (.mono (.var c.next))) args) (c.skip 1) (tys, scope)
          c₁ ∧
        Yields (expr (env.extend scope) body) c₁ bodyTy c₂ ∧
        c₂.Unifies bodyTy ((Ty.var c.next).apply c₂.subst) c' ∧
        t = .fn (tys.map (Ty.apply c'.subst)) (bodyTy.apply c'.subst) := by
  rw [expr]
  refine yields_recording fun ctx hctx => ?_
  subst hctx
  -- Steps that only explain leave the store alone, and drop out of both sides.
  simp only [reaches_bind, reaches_ite, reaches_throw, reaches_freshVar, reaches_push,
    reaches_pause, reaches_replace, reaches_resolve, reaches_resolveAll, reaches_pop, reaches_pure,
    List.isEmpty_iff, imp_false]
  refine and_congr_right fun hne => ⟨fun h => ?_, ?_⟩
  · obtain ⟨⟨tys, scope⟩, ctx₁, h₁, h⟩ := (h hne).yields
    obtain ⟨bodyTy, ctx₂, h₂, h⟩ := h.yields
    obtain ⟨ctx₃, h₃, rfl, rfl⟩ := h.unifies
    exact ⟨tys, scope, _, bodyTy, _, h₁, h₂, h₃, rfl⟩
  · rintro ⟨tys, scope, c₁, bodyTy, c₂, h₁, h₂, h₃, rfl⟩ -
    refine h₁.reaches (stepwise_params ..) rfl fun ctx₁ hctx₁ => ?_
    refine h₂.reaches (stepwise_expr ..) hctx₁ ?_
    rintro ctx₂ rfl
    refine h₃.reaches rfl ?_
    rintro ctx₃ rfl
    exact ⟨rfl, rfl⟩

theorem yields_call {target : Expr} {args : List Expr} {src : Region} {t : Ty} :
    Yields (expr env (.call target args src)) c t c' ↔
      args ≠ [] ∧ ∃ targetTy c₁ argTys c₂,
        Yields (expr env target) (c.skip 1) targetTy c₁ ∧
        Yields (exprs env args) c₁ argTys c₂ ∧
        c₂.Unifies (targetTy.apply c₂.subst) (.fn argTys (.var c.next)) c' ∧
        t = (Ty.var c.next).apply c'.subst := by
  rw [expr]
  refine yields_recording fun ctx hctx => ?_
  subst hctx
  simp only [reaches_bind, reaches_ite, reaches_throw, reaches_freshVar, reaches_emit,
    reaches_push, reaches_pause, reaches_replace, reaches_resolve, reaches_resolveAll, reaches_pop,
    List.isEmpty_iff, imp_false]
  refine and_congr_right fun hne => ⟨fun h => ?_, ?_⟩
  · obtain ⟨targetTy, ctx₁, h₁, h⟩ := (h hne).yields
    obtain ⟨argTys, ctx₂, h₂, h⟩ := h.yields
    obtain ⟨ctx₃, h₃, rfl, rfl⟩ := h.unifies
    exact ⟨targetTy, _, argTys, _, h₁, h₂, h₃, rfl⟩
  · rintro ⟨targetTy, c₁, argTys, c₂, h₁, h₂, h₃, rfl⟩ -
    refine h₁.reaches (stepwise_expr ..) rfl fun ctx₁ hctx₁ => ?_
    refine h₂.reaches (stepwise_exprs fun e _ env _ => stepwise_expr env e) hctx₁ ?_
    rintro ctx₂ rfl
    refine h₃.reaches rfl ?_
    rintro ctx₃ rfl
    exact ⟨rfl, rfl⟩

theorem yields_ifElse {cond yes : Expr} {no : Option Expr} {src : Region} {t : Ty} :
    Yields (expr env (.ifElse cond yes no src)) c t c' ↔
      ∃ condTy c₁ c₂ yesTy c₃ noTy c₄, Yields (expr env cond) c condTy c₁ ∧
        c₁.Unifies condTy .bool c₂ ∧ Yields (expr (env.apply c₂.subst) yes) c₂ yesTy c₃ ∧
        Yields (otherwise env no) c₃ noTy c₄ ∧ c₄.Unifies yesTy noTy c' ∧
        t = yesTy.apply c'.subst := by
  rw [expr]
  refine yields_recording fun ctx hctx => ?_
  subst hctx
  simp only [reaches_bind, reaches_push, reaches_pause, reaches_replace, reaches_resolve,
    reaches_resolveEnv, reaches_pop]
  constructor
  · intro h
    obtain ⟨condTy, ctx₁, h₁, h⟩ := h.yields
    obtain ⟨ctx₂, h₂, h⟩ := h.unifies
    obtain ⟨yesTy, ctx₃, h₃, h⟩ := h.yields
    obtain ⟨noTy, ctx₄, h₄, h⟩ := h.yields
    obtain ⟨ctx₅, h₅, rfl, rfl⟩ := h.unifies
    exact ⟨condTy, _, _, yesTy, _, noTy, _, h₁, h₂, h₃, h₄, h₅, rfl⟩
  · rintro ⟨condTy, c₁, c₂, yesTy, c₃, noTy, c₄, h₁, h₂, h₃, h₄, h₅, rfl⟩
    refine h₁.reaches (stepwise_expr ..) rfl fun ctx₁ hctx₁ => ?_
    refine h₂.reaches hctx₁ ?_
    rintro ctx₂ rfl
    refine h₃.reaches (stepwise_expr ..) rfl fun ctx₃ hctx₃ => ?_
    refine h₄.reaches (stepwise_otherwise fun e _ env _ => stepwise_expr env e) hctx₃ ?_
    intro ctx₄ hctx₄
    refine h₅.reaches hctx₄ ?_
    rintro ctx₅ rfl
    exact ⟨rfl, rfl⟩

theorem yields_switch {target : Expr} {cs : List Case} {src : Region} {t : Ty} :
    Yields (expr env (.switch target cs src)) c t c' ↔
      ∃ targetTy c₁, Yields (expr env target) c targetTy c₁ ∧
        Yields (cases env targetTy (.var c₁.next) cs) (c₁.skip 1) () c' ∧
        t = (Ty.var c₁.next).apply c'.subst := by
  rw [expr]
  refine yields_recording fun ctx hctx => ?_
  subst hctx
  simp only [reaches_bind, reaches_freshVar, reaches_push, reaches_pause, reaches_resolve,
    reaches_pop]
  constructor
  · intro h
    obtain ⟨targetTy, ctx₁, h₁, h⟩ := h.yields
    obtain ⟨_, ctx₂, h₂, rfl, rfl⟩ := h.yields
    exact ⟨targetTy, _, h₁, h₂, rfl⟩
  · rintro ⟨targetTy, c₁, h₁, h₂, rfl⟩
    refine h₁.reaches (stepwise_expr ..) rfl ?_
    rintro ctx₁ rfl
    refine h₂.reaches (stepwise_cases fun p e _ env _ => stepwise_expr env e) rfl ?_
    rintro ctx₂ rfl
    exact ⟨rfl, rfl⟩

/-! ## Several expressions -/

theorem yields_embedded_nil : Yields (embedded env []) c () c' ↔ c' = c := by
  rw [embedded, yields_pure]
  exact and_iff_right rfl

theorem yields_embedded_cons {e : Expr} {es : List Expr} :
    Yields (embedded env (e :: es)) c () c' ↔
      ∃ t c₁, Yields (expr (env.apply c.subst) e) c t c₁ ∧ Yields (embedded env es) c₁ () c' := by
  rw [embedded]
  refine yields_iff fun ctx hctx => ?_
  subst hctx
  simp only [reaches_bind, reaches_resolveEnv]
  constructor
  · intro h
    obtain ⟨t, ctx₁, h₁, h⟩ := h.yields
    obtain ⟨_, ctx₂, h₂, -, rfl⟩ := h.yields
    exact ⟨t, _, h₁, h₂⟩
  · rintro ⟨t, c₁, h₁, h₂⟩
    refine h₁.reaches (stepwise_expr ..) rfl fun ctx₁ hctx₁ => ?_
    exact h₂.reaches (stepwise_embedded fun e _ env _ => stepwise_expr env e) hctx₁
      fun ctx₂ hctx₂ => ⟨trivial, hctx₂⟩

theorem yields_exprs_nil {ts : List Ty} : Yields (exprs env []) c ts c' ↔ ts = [] ∧ c' = c := by
  rw [exprs, yields_pure]

theorem yields_exprs_cons {e : Expr} {es : List Expr} {ts : List Ty} :
    Yields (exprs env (e :: es)) c ts c' ↔
      ∃ t c₁ ts', Yields (expr (env.apply c.subst) e) c t c₁ ∧ Yields (exprs env es) c₁ ts' c' ∧
        ts = t :: ts' := by
  rw [exprs]
  refine yields_iff fun ctx hctx => ?_
  subst hctx
  simp only [reaches_bind, reaches_resolveEnv, reaches_pure]
  constructor
  · intro h
    obtain ⟨t, ctx₁, h₁, h⟩ := h.yields
    obtain ⟨ts', ctx₂, h₂, rfl, rfl⟩ := h.yields
    exact ⟨t, _, ts', h₁, h₂, rfl⟩
  · rintro ⟨t, c₁, ts', h₁, h₂, rfl⟩
    refine h₁.reaches (stepwise_expr ..) rfl fun ctx₁ hctx₁ => ?_
    exact h₂.reaches (stepwise_exprs fun e _ env _ => stepwise_expr env e) hctx₁
      fun ctx₂ hctx₂ => ⟨rfl, hctx₂⟩

theorem yields_otherwise_none {t : Ty} :
    Yields (otherwise env none) c t c' ↔ t = .void ∧ c' = c := by
  rw [otherwise, yields_pure]

theorem yields_otherwise_some {e : Expr} {t : Ty} :
    Yields (otherwise env (some e)) c t c' ↔ Yields (expr (env.apply c.subst) e) c t c' := by
  rw [otherwise]
  refine yields_iff fun ctx hctx => ?_
  subst hctx
  simp only [reaches_bind, reaches_resolveEnv]
  constructor
  · exact fun h => ⟨ctx, rfl, h⟩
  · exact fun h => h.reaches (stepwise_expr ..) rfl fun ctx₁ hctx₁ => ⟨rfl, hctx₁⟩

theorem yields_cases_nil {targetTy result : Ty} :
    Yields (cases env targetTy result []) c () c' ↔ c' = c := by
  rw [cases, yields_pure]
  exact and_iff_right rfl

theorem yields_cases_cons {targetTy result : Ty} {p : Pat} {e : Expr} {cs : List Case} :
    Yields (cases env targetTy result (.mk p e :: cs)) c () c' ↔
      ∃ patTy scope c₁ c₂ bodyTy c₃ c₄, Yields (pattern env p) c (patTy, scope) c₁ ∧
        c₁.Unifies patTy targetTy c₂ ∧
        Yields (expr ((env.apply c₂.subst).extend (Scope.apply c₂.subst scope)) e) c₂ bodyTy c₃ ∧
        c₃.Unifies (result.apply c₃.subst) bodyTy c₄ ∧
        Yields (cases env targetTy result cs) c₄ () c' := by
  rw [cases]
  refine yields_iff fun ctx hctx => ?_
  subst hctx
  simp only [reaches_bind, reaches_resolve, reaches_resolveEnv, reaches_resolveScope]
  constructor
  · intro h
    obtain ⟨⟨patTy, scope⟩, ctx₁, h₁, h⟩ := h.yields
    obtain ⟨ctx₂, h₂, h⟩ := h.unifies
    obtain ⟨bodyTy, ctx₃, h₃, h⟩ := h.yields
    obtain ⟨ctx₄, h₄, h⟩ := h.unifies
    obtain ⟨_, ctx₅, h₅, -, rfl⟩ := h.yields
    exact ⟨patTy, scope, _, _, bodyTy, _, _, h₁, h₂, h₃, h₄, h₅⟩
  · rintro ⟨patTy, scope, c₁, c₂, bodyTy, c₃, c₄, h₁, h₂, h₃, h₄, h₅⟩
    refine h₁.reaches (stepwise_pattern ..) rfl fun ctx₁ hctx₁ => ?_
    refine h₂.reaches hctx₁ ?_
    rintro ctx₂ rfl
    refine h₃.reaches (stepwise_expr ..) rfl ?_
    rintro ctx₃ rfl
    refine h₄.reaches rfl fun ctx₄ hctx₄ => ?_
    exact h₅.reaches (stepwise_cases fun p e _ env _ => stepwise_expr env e) hctx₄
      fun ctx₅ hctx₅ => ⟨trivial, hctx₅⟩

/-! ## Statements -/

theorem yields_stmts_nil {scope : Scope} {last t : Ty} :
    Yields (stmts env scope last []) c t c' ↔ t = last.apply c.subst ∧ c' = c := by
  rw [stmts]
  refine yields_iff fun ctx hctx => ?_
  subst hctx
  rw [reaches_resolve]
  exact and_congr eq_comm eq_comm

theorem yields_stmts_cons {scope : Scope} {last t : Ty} {s : Stmt} {ss : List Stmt} :
    Yields (stmts env scope last (s :: ss)) c t c' ↔
      ∃ r c₁, Yields (stmt ((env.apply c.subst).extend (Scope.apply c.subst scope)) s) c r c₁ ∧
        Yields (stmts env (scope.union (r.scope.getD .empty)) r.ty ss) c₁ t c' := by
  rw [stmts]
  refine yields_iff fun ctx hctx => ?_
  subst hctx
  simp only [reaches_bind, reaches_resolveEnv, reaches_resolveScope]
  constructor
  · intro h
    obtain ⟨r, ctx₁, h₁, h⟩ := h.yields
    obtain ⟨_, ctx₂, h₂, rfl, rfl⟩ := h.yields
    exact ⟨r, _, h₁, h₂⟩
  · rintro ⟨r, c₁, h₁, h₂⟩
    refine h₁.reaches (stepwise_stmt ..) rfl fun ctx₁ hctx₁ => ?_
    exact h₂.reaches (stepwise_stmts fun s _ env _ => stepwise_stmt env s) hctx₁
      fun ctx₂ hctx₂ => ⟨rfl, hctx₂⟩

theorem yields_exprStmt {e : Expr} {src : Region} {r : StmtResult} :
    Yields (stmt env (.expr e src)) c r c' ↔ ∃ t, Yields (expr env e) c t c' ∧ r = { ty := t } := by
  rw [stmt]
  refine yields_iff fun ctx hctx => ?_
  subst hctx
  simp only [reaches_bind, reaches_pure]
  constructor
  · intro h
    obtain ⟨t, ctx₁, h₁, rfl, rfl⟩ := h.yields
    exact ⟨t, h₁, rfl⟩
  · rintro ⟨t, h₁, rfl⟩
    exact h₁.reaches (stepwise_expr ..) rfl fun ctx₁ hctx₁ => ⟨rfl, hctx₁⟩

theorem yields_returned_none {t : Ty} :
    Yields (returned env none) c t c' ↔ t = .void ∧ c' = c := by
  rw [returned, yields_pure]

theorem yields_returned_some {e : Expr} {t : Ty} :
    Yields (returned env (some e)) c t c' ↔ Yields (expr env e) c t c' := by
  rw [returned]

theorem yields_ret {value : Option Expr} {src : Region} {r : StmtResult} :
    Yields (stmt env (.ret value src)) c r c' ↔
      ∃ s found c₁, env.lookup "return" = some s ∧ Yields (returned env value) (c.skip 1) found c₁ ∧
        c₁.Unifies s.body found c' ∧ r = { ty := .var c.next } := by
  rw [stmt]
  refine yields_iff fun ctx hctx => ?_
  subst hctx
  simp only [reaches_bind, reaches_freshVar]
  cases hs : env.lookup "return" with
  | none => simp
  | some s =>
    simp only [reaches_bind, reaches_push, reaches_pause, reaches_replace, reaches_resolve,
      reaches_pop, reaches_pure, Option.some.injEq]
    constructor
    · intro h
      obtain ⟨found, ctx₁, h₁, h⟩ := h.yields
      obtain ⟨ctx₂, h₂, rfl, rfl⟩ := h.unifies
      exact ⟨s, found, _, rfl, h₁, h₂, rfl⟩
    · rintro ⟨_, found, c₁, rfl, h₁, h₂, rfl⟩
      refine h₁.reaches (stepwise_returned fun e _ env _ => stepwise_expr env e) rfl ?_
      intro ctx₁ hctx₁
      exact h₂.reaches hctx₁ fun ctx₂ hctx₂ => ⟨rfl, hctx₂⟩

theorem yields_letVar {name : String} {patSrc src : Region} {init : Expr} {r : StmtResult} :
    Yields (stmt env (.letBind (.var name patSrc) init src)) c r c' ↔
      ∃ value c₁,
        Yields (expr (env.extend (.singleton name (.mono (.var c.next)))) init) (c.skip 1) value
          c₁ ∧
        c₁.Unifies ((Ty.var c.next).apply c₁.subst) value c' ∧
        r = { ty := .void, scope := some (.singleton name (if init.isLambda
          then (env.apply c'.subst).generalize (value.apply c'.subst)
          else .mono (value.apply c'.subst))) } := by
  rw [stmt]
  refine yields_iff fun ctx hctx => ?_
  subst hctx
  simp only [reaches_bind, reaches_freshVar, reaches_emit, reaches_push, reaches_pause,
    reaches_replace, reaches_resolve, reaches_resolveEnv, reaches_pop, reaches_pure]
  constructor
  · intro h
    obtain ⟨value, ctx₁, h₁, h⟩ := h.yields
    obtain ⟨ctx₂, h₂, rfl, rfl⟩ := h.unifies
    exact ⟨value, _, h₁, h₂, rfl⟩
  · rintro ⟨value, c₁, h₁, h₂, rfl⟩
    refine h₁.reaches (stepwise_expr ..) rfl ?_
    rintro ctx₁ rfl
    refine h₂.reaches rfl ?_
    rintro ctx₂ rfl
    exact ⟨rfl, rfl⟩

theorem yields_letPat {p : Pat} (hp : ∀ name patSrc, p ≠ .var name patSrc) {src : Region}
    {init : Expr} {r : StmtResult} :
    Yields (stmt env (.letBind p init src)) c r c' ↔
      ∃ patTy scope c₁ value c₂, Yields (pattern env p) c (patTy, scope) c₁ ∧
        Yields (expr env init) c₁ value c₂ ∧ c₂.Unifies patTy value c' ∧
        r = { ty := .void, scope := some (Scope.apply c'.subst scope) } := by
  rw [stmt]
  on_goal 2 => exact hp
  refine yields_iff fun ctx hctx => ?_
  subst hctx
  simp only [reaches_bind, reaches_push, reaches_pause, reaches_resolveScope, reaches_pop,
    reaches_pure]
  constructor
  · intro h
    obtain ⟨⟨patTy, scope⟩, ctx₁, h₁, h⟩ := h.yields
    obtain ⟨value, ctx₂, h₂, h⟩ := h.yields
    obtain ⟨ctx₃, h₃, rfl, rfl⟩ := h.unifies
    exact ⟨patTy, scope, _, value, _, h₁, h₂, h₃, rfl⟩
  · rintro ⟨patTy, scope, c₁, value, c₂, h₁, h₂, h₃, rfl⟩
    refine h₁.reaches (stepwise_pattern ..) rfl fun ctx₁ hctx₁ => ?_
    refine h₂.reaches (stepwise_expr ..) hctx₁ fun ctx₂ hctx₂ => ?_
    refine h₃.reaches hctx₂ ?_
    rintro ctx₃ rfl
    exact ⟨rfl, rfl⟩

theorem yields_forLoop {init : Stmt} {cond update body : Expr} {src : Region} {r : StmtResult} :
    Yields (stmt env (.forLoop init cond update body src)) c r c' ↔
      ∃ first c₁ condTy c₂ c₃ updateTy c₄ bodyTy, Yields (stmt env init) c first c₁ ∧
        let inner := (env.apply c₁.subst).extend (Scope.apply c₁.subst (first.scope.getD .empty))
        Yields (expr inner cond) c₁ condTy c₂ ∧ c₂.Unifies condTy .bool c₃ ∧
        Yields (expr (inner.apply c₃.subst) update) c₃ updateTy c₄ ∧
        Yields (expr ((inner.apply c₃.subst).apply c₄.subst) body) c₄ bodyTy c' ∧
        r = { ty := .void } := by
  rw [stmt]
  refine yields_iff fun ctx hctx => ?_
  subst hctx
  simp only [reaches_bind, reaches_push, reaches_pause, reaches_resolveEnv, reaches_resolveScope,
    reaches_pop, reaches_pure]
  constructor
  · intro h
    obtain ⟨first, ctx₁, h₁, h⟩ := h.yields
    obtain ⟨condTy, ctx₂, h₂, h⟩ := h.yields
    obtain ⟨ctx₃, h₃, h⟩ := h.unifies
    obtain ⟨updateTy, ctx₄, h₄, h⟩ := h.yields
    obtain ⟨bodyTy, ctx₅, h₅, rfl, rfl⟩ := h.yields
    exact ⟨first, _, condTy, _, _, updateTy, _, bodyTy, h₁, h₂, h₃, h₄, h₅, rfl⟩
  · rintro ⟨first, c₁, condTy, c₂, c₃, updateTy, c₄, bodyTy, h₁, h₂, h₃, h₄, h₅, rfl⟩
    refine h₁.reaches (stepwise_stmt ..) rfl ?_
    rintro ctx₁ rfl
    refine h₂.reaches (stepwise_expr ..) rfl fun ctx₂ hctx₂ => ?_
    refine h₃.reaches hctx₂ ?_
    rintro ctx₃ rfl
    refine h₄.reaches (stepwise_expr ..) rfl ?_
    rintro ctx₄ rfl
    exact h₅.reaches (stepwise_expr ..) rfl fun ctx₅ hctx₅ => ⟨rfl, hctx₅⟩

end InferM

/-! ## Programs -/

/-- The store before anything is inferred. -/
def Store.initial : Store := ⟨0, .empty⟩

/-- **A program has the type of its statement**, brought up to date. -/
theorem Infer.program_eq_ok_iff {env : Env} {s : Stmt} {t : Ty} :
    (∃ trace, Infer.program env s = .ok (t, trace)) ↔
      ∃ r c, InferM.Yields (InferM.stmt env s) .initial r c ∧ t = r.ty.apply c.subst := by
  constructor
  · rintro ⟨trace, h⟩
    rcases InferM.program_cases env s with ⟨r, ctx, hexec, hprogram⟩ | ⟨e, ctx, -, hprogram⟩
    all_goals
      rw [hprogram] at h
      cases h
    exact ⟨r, ctx.store, ⟨{}, rfl, r, ctx, hexec, rfl, rfl⟩, rfl⟩
  · rintro ⟨r, c, h, rfl⟩
    obtain ⟨ctx, hexec, rfl⟩ :=
      h.exec_eq (InferM.stepwise_stmt env s) (rfl : Context.store {} = .initial)
    exact ⟨ctx.trace, InferM.program_of_ok hexec⟩

theorem Infer.exists_trace {env : Env} {s : Stmt} {t : Ty}
    (h : (Infer.program env s).map Prod.fst = .ok t) :
    ∃ trace, Infer.program env s = .ok (t, trace) := by
  rcases hrun : Infer.program env s with e | ⟨t', trace⟩
  all_goals rw [hrun] at h; cases h
  exact ⟨trace, rfl⟩

end TypeTrace
