import TypeTrace.Proofs.History

/-!
# No variable is captured

Substitutions act on schemes without renaming quantified variables.  That is harmless as long as no type
that mentions a quantified variable of a scheme is put in for a free one, and nothing in inference checks
it.  It holds at every point of a run, for all environments in use: those of the expressions around the one
that is inferred, which nobody brings up to date, as well as the innermost one.

Every environment in use has its own set of dead variables, those that were generalised on the way to it.
The sets grow from the outside in.  A step that respects the innermost set respects all others, so that what
one step keeps is kept in every environment on the stack.

## Main definitions

* `Scope.CaptureFree`: what the bindings of a state do not do to the schemes of an environment
* `Scope.Guarded`: an environment that may be used while a set of variables is dead
* `Keeps`: a computation respects the dead variables, and all its moments are guarded

## Main results

* `keeps_program`: inference keeps the environments in use guarded
* `Infer.moments_captureFree`: no moment of a run has a captured variable
-/

namespace TypeTrace

open InferM (exec Yields ExprEvolves StmtEvolves)

/-! ## Environments in use -/

/-- What the bindings of the state do not do to the schemes of an environment: the one that the program
starts with, and the bindings that the program has made. -/
structure Scope.CaptureFree (Γ : Env) (ctx : Context) (Δ : Scope) : Prop where
  /-- They bind no variable that the program has generalised. -/
  unbound : ∀ name s, Δ.get? name = some s → ∀ x ∈ s.vars, ctx.subst.get? x = none
  /-- They lead from no free variable of a scheme to a quantified one. -/
  apart : ∀ name s, (Γ.extend Δ).lookup name = some s →
    ∀ y ∈ s.free, ∀ x ∈ s.vars, x ∉ ((Ty.var y).apply ctx.subst).occurrences
  /-- No variable that comes in for a free one is captured. -/
  free : ∀ name s, (Γ.extend Δ).lookup name = some s →
    ∀ z, z ∈ (s.apply ctx.subst).free ↔ ∃ y ∈ s.free, z ∈ ((Ty.var y).apply ctx.subst).occurrences
  /-- A name has the same type in the environment as it stands and in the one that is up to date. -/
  instances : ∀ name s, (Γ.extend Δ).lookup name = some s → ∃ s',
    ((Γ.extend Δ).apply ctx.subst).lookup name = some s' ∧ ∃ t t' ctx',
      exec (InferM.instantiate s) ctx = (.ok t, ctx') ∧
      exec (InferM.instantiate s') ctx = (.ok t', ctx') ∧ t.apply ctx'.subst = t'.apply ctx'.subst

/-- While these variables are dead, the environment may be used. -/
structure Scope.Guarded (Γ : Env) (D : Set String) (c : Store) (Δ : Scope) : Prop where
  proper : c.Proper D
  sane : (Γ.extend Δ).Sane D c
  sealed : Scope.Sealed D c Δ

theorem InferM.exec_instantiate_of_freshSubst {s : Scheme} {τ : Subst} {ctx ctx' : Context}
    (h : exec (freshSubst s.vars) ctx = (.ok τ, ctx')) :
    exec (instantiate s) ctx = (.ok (s.body.apply τ), ctx') := by
  rw [instantiate, exec_bind, h]
  rfl

/-- With new variables for the quantified ones, a scheme and the scheme that is up to date have the same
type under the bindings. -/
theorem Scheme.Sane.apply_fresh {D : Set String} {c : Store} {s : Scheme} (h : s.Sane D c)
    (hc : c.Proper D) (n : Nat) :
    (s.body.apply (.fresh n s.vars)).apply c.subst =
      ((s.apply c.subst).body.apply (.fresh n s.vars)).apply c.subst := by
  -- The new variables come in for the quantified ones, and the bindings for all others.
  have hassign : ∀ t : Ty, (t.apply (.fresh n s.vars)).apply c.subst = t.assign fun x =>
      if x ∈ s.vars then (Subst.assignment (.fresh n s.vars) x).assign c.subst.assignment
      else c.subst.assignment x := by
    intro t
    rw [Ty.apply_eq_assign, Ty.apply_eq_assign, Ty.assign_assign]
    refine Ty.assign_congr fun x _ => ?_
    by_cases hx : x ∈ s.vars
    · rw [if_pos hx]
    · rcases Subst.get?_fresh n s.vars x with ⟨-, hget⟩ | ⟨i, -, hi, -⟩
      · rw [if_neg hx, Subst.assignment_of_get?_none hget, Ty.assign_var]
      · exact absurd (List.mem_of_getElem? hi) hx
  rw [hassign, hassign]
  exact (Scheme.assign_body_apply hc.resolved.absorbs h.not_captured _).symm

namespace Scope.Guarded

variable {Γ : Env} {D D' : Set String} {c c' : Store} {Δ Δ' : Scope}

theorem evolve (h : Scope.Guarded Γ D c Δ) (hE : c.Evolves D c') : Scope.Guarded Γ D c' Δ :=
  ⟨hE.proper, h.sane.evolve hE, h.sealed.evolve hE⟩

theorem apply (h : Scope.Guarded Γ D c Δ) (hΓ : Γ.Closed) :
    Scope.Guarded Γ D c (Scope.apply c.subst Δ) := by
  refine ⟨h.proper, ?_, h.sealed.apply _⟩
  rw [← hΓ.apply_extend]
  exact h.sane.apply h.proper

theorem union (h : Scope.Guarded Γ D c Δ) (hsane : Scope.Sane D c Δ') (hsealed : Scope.Sealed D c Δ') :
    Scope.Guarded Γ D c (Δ.union Δ') := by
  refine ⟨h.proper, ?_, h.sealed.union hsealed⟩
  rw [← Env.extend_extend]
  exact h.sane.extend hsane

/-- Add what a statement has bound, with which more variables may have died. -/
theorem union_later (h : Scope.Guarded Γ D c Δ) (hE : c.Evolves D c') (hD : D ⊆ D') (hc : c'.Proper D')
    (hsane : ((Γ.extend Δ).extend Δ').Sane D' c') (hsealed : Scope.Sealed D' c' Δ') :
    Scope.Guarded Γ D' c' (Δ.union Δ') :=
  ⟨hc, Env.extend_extend ▸ hsane, ((h.sealed.evolve hE).mono hD).union hsealed⟩

theorem captureFree {ctx : Context} (h : Scope.Guarded Γ D ctx.store Δ) :
    Scope.CaptureFree Γ ctx Δ where
  unbound name s hs x hx := (h.sealed name s hs x hx).2
  apart name s hs y hy x hx hocc := by
    rw [Ty.apply_eq_assign, Ty.assign_var] at hocc
    exact (h.sane.scope name s hs).1.not_captured y hy x hocc hx
  free name s hs z := by
    have hcapture := (h.sane.scope name s hs).1.not_captured
    rw [Scheme.mem_free_apply]
    simp only [Ty.apply_eq_assign, Ty.assign_var]
    exact ⟨fun hz => hz.2, fun ⟨y, hy, hz⟩ => ⟨hcapture y hy z hz, y, hy, hz⟩⟩
  instances name s hs := by
    refine ⟨s.apply ctx.subst, by rw [Env.lookup_apply, hs, Option.map_some], ?_⟩
    obtain ⟨ctx', hexec, hstore⟩ := InferM.exec_freshSubst s.vars ctx
    have hsubst : ctx'.subst = ctx.subst := congrArg Store.subst hstore
    -- Both schemes quantify the same variables, so the same new ones are created.
    refine ⟨s.body.apply (.fresh ctx.nextId s.vars),
      (s.apply ctx.subst).body.apply (.fresh ctx.nextId s.vars), ctx', ?_, ?_, ?_⟩
    · exact InferM.exec_instantiate_of_freshSubst hexec
    · exact InferM.exec_instantiate_of_freshSubst (s := s.apply ctx.subst) hexec
    · rw [hsubst]
      exact (h.sane.scope name s hs).1.apply_fresh h.proper ctx.nextId

end Scope.Guarded

/-! ## What a run keeps -/

/-- From every state with the store, the computation respects the dead variables, also if it fails.  It
does so up to each of its moments, and there all environments in use are guarded. -/
def Keeps {α : Type} (Γ : Env) (D : Set String) (c : Store) (w : HistoryM α) : Prop :=
  c.Proper D → ∀ ctx : Context, ctx.store = c → c.Evolves D (w ctx).1.2.store ∧
    ∀ p ∈ (w ctx).2, c.Evolves D p.ctx.store ∧
      ∀ Δ ∈ p.scopes, ∃ D', Scope.Guarded Γ D' p.ctx.store Δ

namespace Keeps

variable {α β : Type} {Γ : Env} {D D' : Set String} {c c' : Store} {Δ : Scope} {m : InferM α}
  {w : HistoryM α} {f : α → HistoryM β}

theorem pure (a : α) : Keeps Γ D c (Pure.pure a) := by
  rintro hc ctx rfl
  exact ⟨.refl hc, fun _ hp => absurd hp List.not_mem_nil⟩

theorem lift (h : c.Proper D → ∀ ctx : Context, ctx.store = c → c.Evolves D (exec m ctx).2.store) :
    Keeps Γ D c (liftM m) := by
  intro hc ctx hctx
  refine ⟨h hc ctx hctx, List.forall_mem_singleton.mpr ⟨h hc ctx hctx, ?_⟩⟩
  exact fun _ hΔ => absurd hΔ List.not_mem_nil

/-- One computation after another: the second one starts from what the first one yields. -/
theorem bind (hw : Keeps Γ D c w)
    (hf : ∀ a c', Yields w.erase c a c' → c.Evolves D c' → Keeps Γ D c' (f a)) :
    Keeps Γ D c (w >>= f) := by
  intro hc ctx hctx
  obtain ⟨hend, hmoments⟩ := hw hc ctx hctx
  rcases hr : (w ctx).1 with ⟨e | a, ctx'⟩
  all_goals rw [hr] at hend
  · rw [HistoryM.run_bind_error hr]
    exact ⟨hend, hmoments⟩
  · have hyields : Yields w.erase c a ctx'.store := ⟨ctx, hctx, a, ctx', hr, rfl, rfl⟩
    obtain ⟨hend', hmoments'⟩ := hf a _ hyields hend hend.proper ctx' rfl
    rw [HistoryM.run_bind_ok hr]
    refine ⟨hend.trans hend', fun p hp => ?_⟩
    rcases List.mem_append.mp hp with hp | hp
    · exact hmoments p hp
    · exact ⟨hend.trans (hmoments' p hp).1, (hmoments' p hp).2⟩

/-- **An environment that is guarded at the start is guarded throughout.** -/
theorem inScope (hw : Keeps Γ D c w) (hΔ : Scope.Guarded Γ D c Δ) :
    Keeps Γ D c (HistoryM.inScope Δ w) := by
  rintro hc ctx rfl
  obtain ⟨hend, hmoments⟩ := hw hc ctx rfl
  have hguarded {c' : Store} (hE : ctx.store.Evolves D c') : ∃ D', Scope.Guarded Γ D' c' Δ :=
    ⟨D, hΔ.evolve hE⟩
  refine ⟨hend, List.forall_mem_cons.mpr ⟨?_, List.forall_mem_append.mpr ⟨List.forall_mem_map.mpr ?_, ?_⟩⟩⟩
  · exact ⟨.refl hc, List.forall_mem_singleton.mpr (hguarded (.refl hc))⟩
  · intro p hp
    obtain ⟨hE, hscopes⟩ := hmoments p hp
    exact ⟨hE, List.forall_mem_cons.mpr ⟨hguarded hE, hscopes⟩⟩
  · exact List.forall_mem_singleton.mpr ⟨hend, List.forall_mem_singleton.mpr (hguarded hend)⟩

/-- With fewer dead variables less is to be respected. -/
theorem anti (hw : Keeps Γ D' c w) (hc : c.Proper D') (hD : D ⊆ D') : Keeps Γ D c w := by
  intro _ ctx hctx
  obtain ⟨hend, hmoments⟩ := hw hc ctx hctx
  exact ⟨hend.anti hD, fun p hp => ⟨(hmoments p hp).1.anti hD, (hmoments p hp).2⟩⟩

/-! ### Steps -/

/-- A step with a known result. -/
theorem step {a : α} (hm : ∀ ctx : Context, ctx.store = c → ∃ ctx', exec m ctx = (.ok a, ctx') ∧
    ctx'.store = c') (hE : c.Proper D → c.Evolves D c') (hf : Keeps Γ D c' (f a)) :
    Keeps Γ D c (liftM m >>= f) := by
  refine .bind (.lift fun hc ctx hctx => ?_) fun b c₁ hyields _ => ?_
  · obtain ⟨ctx', hexec, rfl⟩ := hm ctx hctx
    rw [hexec]
    exact hE hc
  · rw [HistoryM.erase_lift] at hyields
    obtain ⟨ctx, hctx, _, ctx₁, hexec, rfl, rfl⟩ := hyields
    obtain ⟨ctx', hexec', rfl⟩ := hm ctx hctx
    rw [hexec] at hexec'
    cases hexec'
    exact hf

/-- A step that keeps the store. -/
theorem still {a : α} (hm : ∀ ctx : Context, ctx.store = c → ∃ ctx', exec m ctx = (.ok a, ctx') ∧
    ctx'.store = c) (hf : Keeps Γ D c (f a)) : Keeps Γ D c (liftM m >>= f) :=
  .step hm .refl hf

/-- A last step that keeps the store. -/
theorem last (hm : ∀ ctx : Context, (exec m ctx).2.store = ctx.store) : Keeps Γ D c (liftM m) :=
  .lift fun hc ctx hctx => by
    rw [hm, hctx]
    exact .refl hc

section

variable {f : Unit → HistoryM β} {src : Region}

theorem infer {t : Ty} (hf : Keeps Γ D c (f ())) : Keeps Γ D c (liftM (InferM.emit (.infer src t)) >>= f) :=
  .still (fun _ hctx => ⟨_, rfl, hctx⟩) hf

theorem pause {title : String} (hf : Keeps Γ D c (f ())) : Keeps Γ D c (liftM (InferM.pause title) >>= f) :=
  .still (fun _ hctx => ⟨_, rfl, hctx⟩) hf

theorem push {line : StackLine} (hf : Keeps Γ D c (f ())) : Keeps Γ D c (liftM (InferM.push src line) >>= f) :=
  .still (fun _ hctx => ⟨_, rfl, hctx⟩) hf

theorem pop (hf : Keeps Γ D c (f ())) : Keeps Γ D c (liftM InferM.pop >>= f) :=
  .still (fun _ hctx => ⟨_, rfl, hctx⟩) hf

theorem replace {line : StackLine} (hf : Keeps Γ D c (f ())) :
    Keeps Γ D c (liftM (InferM.replace src line) >>= f) :=
  .still (fun _ hctx => ⟨_, rfl, hctx⟩) hf

theorem noteScope {env : Env} (hf : Keeps Γ D c (f ())) : Keeps Γ D c (liftM (InferM.noteScope env) >>= f) := by
  refine .still (fun ctx hctx => ?_) hf
  rcases InferM.exec_noteScope env ctx with h | h
  all_goals exact ⟨_, h, hctx⟩

/-- **Unification** of live types. -/
theorem unify {one two : Ty} {oneName twoName : String} {message : Option String}
    (hone : one.Within (c.live D)) (htwo : two.Within (c.live D))
    (hf : ∀ c', c.Unifies one two c' → c.Evolves D c' → Keeps Γ D c' (f ())) :
    Keeps Γ D c (liftM (InferM.unify one two src oneName twoName message) >>= f) := by
  refine .bind (.lift fun hc ctx hctx => ?_) fun _ c' hyields hE => ?_
  · subst hctx
    -- A unification that fails binds nothing.
    cases hu : (one.apply ctx.subst).unify (two.apply ctx.subst) with
    | error e =>
      rw [InferM.exec_unify_error hu]
      exact .refl hc
    | ok d =>
      cases hs : d.compose ctx.subst with
      | error e =>
        rw [InferM.exec_unify_overwrite hu hs]
        exact .refl hc
      | ok σ =>
        rw [InferM.exec_unify_ok hu hs]
        exact Store.Unifies.evolves ⟨rfl, d, hu, hs⟩ hc hone htwo
  · rw [HistoryM.erase_lift] at hyields
    exact hf c' (InferM.yields_unify.mp hyields) hE

end

theorem resolve {t : Ty} {f : Ty → HistoryM β} (hf : Keeps Γ D c (f (t.apply c.subst))) :
    Keeps Γ D c (liftM (InferM.resolve t) >>= f) :=
  .still (by rintro ctx rfl; exact ⟨ctx, rfl, rfl⟩) hf

theorem resolveAll {ts : List Ty} {f : List Ty → HistoryM β}
    (hf : Keeps Γ D c (f (ts.map (Ty.apply c.subst)))) : Keeps Γ D c (liftM (InferM.resolveAll ts) >>= f) :=
  .still (by rintro ctx rfl; exact ⟨ctx, rfl, rfl⟩) hf

theorem resolveScope {f : Scope → HistoryM β} (hf : Keeps Γ D c (f (Scope.apply c.subst Δ))) :
    Keeps Γ D c (liftM (InferM.resolveScope Δ) >>= f) :=
  .still (by rintro ctx rfl; exact ⟨ctx, rfl, rfl⟩) hf

theorem freshVar {origin : Origin} {f : Ty → HistoryM β} (hf : Keeps Γ D (c.skip 1) (f (.var c.next))) :
    Keeps Γ D c (liftM (InferM.freshVar origin) >>= f) :=
  .step (by rintro ctx rfl; exact ⟨_, rfl, rfl⟩) (fun hc => hc.skip 1) hf

theorem freshSubst {vars : List String} {f : Subst → HistoryM β}
    (hf : Keeps Γ D (c.skip vars.length) (f (.fresh c.nextId vars))) :
    Keeps Γ D c (liftM (InferM.freshSubst vars) >>= f) :=
  .step (by rintro ctx rfl; exact InferM.exec_freshSubst vars ctx) (fun hc => hc.skip _) hf

theorem instantiate {s : Scheme} : Keeps Γ D c (liftM (InferM.instantiate s)) := by
  refine .lift fun hc ctx hctx => ?_
  subst hctx
  obtain ⟨ctx', hexec, hstore⟩ := InferM.exec_freshSubst s.vars ctx
  rw [InferM.exec_instantiate_of_freshSubst hexec, hstore]
  exact hc.skip _

/-- A computation that fails on a condition, and otherwise goes on. -/
theorem guard {cond : Prop} [Decidable cond] {e : TypeError} {f : Unit → HistoryM β}
    (hf : Keeps Γ D c (f ())) :
    Keeps Γ D c (if cond then liftM (throw e : InferM Unit) >>= f else f ()) := by
  split
  · refine .bind (.last fun _ => rfl) fun _ _ hyields _ => ?_
    obtain ⟨ctx, -, h⟩ := hyields
    exact (InferM.reaches_throw h).elim
  · exact hf

theorem recording {src : Region} {find : HistoryM Ty} (hΔ : Scope.Guarded Γ D c Δ)
    (hfind : Keeps Γ D c find) : Keeps Γ D c (HistoryM.recording Γ Δ src find) :=
  .inScope (.noteScope (.bind hfind fun t _ _ _ => .infer (.pure t))) hΔ

end Keeps

/-! ## Patterns -/

section Patterns

variable {β : Type} {Γ : Env} {D : Set String} {Δ scope : Scope}

mutual

theorem keeps_pattern (p : Pat) {c : Store} (hΔ : Scope.Guarded Γ D c Δ) :
    Keeps Γ D c (HistoryM.pattern Γ p) := by
  cases p with
  | any | var =>
    rw [HistoryM.pattern]
    exact .freshVar (.pure _)
  | prim | str =>
    rw [HistoryM.pattern]
    exact .pure _
  | con name args src =>
    rw [HistoryM.pattern]
    cases hcon : Γ.constructors.get? name with
    | none => exact .last fun _ => rfl
    | some con =>
      have hskip := hΔ.proper.skip con.free.length
      obtain ⟨-, hargs⟩ := (hΔ.sane.constructors name con hcon).within_fresh hΔ.proper
      have hfields : Keeps Γ D _ (HistoryM.fields Γ _ .empty args) :=
        keeps_fields args (hΔ.evolve hskip) hargs
      exact .guard (.freshSubst (.bind hfields fun _ _ _ _ => .resolve (.pure _)))

theorem keeps_fields (ps : List Pat) {c : Store} {declared : List Ty} {scope : Scope}
    (hΔ : Scope.Guarded Γ D c Δ) (hdeclared : ∀ t ∈ declared, t.Within (c.live D)) :
    Keeps Γ D c (HistoryM.fields Γ declared scope ps) := by
  cases ps with
  | nil =>
    rw [HistoryM.fields]
    exact .pure _
  | cons p ps =>
    cases declared with
    | nil =>
      rw [HistoryM.fields]
      exact .pure _
    | cons d ds =>
      obtain ⟨hd, hds⟩ := List.forall_mem_cons.mp hdeclared
      rw [HistoryM.fields]
      refine .bind (keeps_pattern p hΔ) fun r c₁ hyields hE₁ => ?_
      obtain ⟨ty, extra⟩ := r
      rw [HistoryM.erase_pattern Δ] at hyields
      obtain ⟨-, hty, -⟩ := InferM.pattern_evolves p hΔ.sane hΔ.proper hyields
      -- The type of the field was live before, and stays so while the pattern is inferred.
      refine .unify hty (hd.mono hE₁.live_subset) fun c₂ _ hE₂ => ?_
      have hE := hE₁.trans hE₂
      exact keeps_fields ps (hΔ.evolve hE) fun t ht => (hds t ht).mono hE.live_subset

end

variable {c : Store}

theorem keeps_params {ps : List Pat} (hΔ : Scope.Guarded Γ D c Δ) :
    Keeps Γ D c (HistoryM.params Γ scope ps) := by
  induction ps generalizing c scope with
  | nil =>
    rw [HistoryM.params]
    exact .pure _
  | cons p ps ih =>
    rw [HistoryM.params]
    refine .bind (keeps_pattern p hΔ) fun r c₁ _ hE => ?_
    obtain ⟨ty, extra⟩ := r
    exact .resolveScope (.infer (.bind (ih (hΔ.evolve hE)) fun _ _ _ _ => .pure _))

/-- Go on with the type of a pattern and what it binds. -/
theorem Keeps.pattern {p : Pat} {f : Ty × Scope → HistoryM β} (hΔ : Scope.Guarded Γ D c Δ)
    (hf : ∀ t extra c', c.Evolves D c' → t.Within (c'.live D) → Scope.Sane D c' extra →
      Scope.Monomorphic extra → Keeps Γ D c' (f (t, extra))) :
    Keeps Γ D c (HistoryM.pattern Γ p >>= f) := by
  refine .bind (keeps_pattern p hΔ) fun r c' hyields hE => ?_
  rw [HistoryM.erase_pattern Δ] at hyields
  obtain ⟨-, ht, hextra⟩ := InferM.pattern_evolves p hΔ.sane hΔ.proper hyields
  exact hf r.1 r.2 c' hE ht hextra (InferM.pattern_monomorphic p hyields)

end Patterns

/-! ## Expressions and statements -/

/-- Inference of the expression keeps to live variables, and its environments guarded. -/
structure KeepsExpr (Γ : Env) (e : Expr) : Prop where
  evolves : ExprEvolves e
  keeps : ∀ {D : Set String} {c : Store} {Δ : Scope}, Scope.Guarded Γ D c Δ →
    Keeps Γ D c (HistoryM.expr Γ Δ e)

/-- Inference of the statement keeps to live variables, and its environments guarded. -/
structure KeepsStmt (Γ : Env) (s : Stmt) : Prop where
  evolves : StmtEvolves s
  keeps : ∀ {D : Set String} {c : Store} {Δ : Scope}, Scope.Guarded Γ D c Δ →
    Keeps Γ D c (HistoryM.stmt Γ Δ s)

section Parts

variable {β : Type} {Γ : Env} (hΓ : Γ.Closed) {D : Set String} {c : Store} {Δ scope : Scope} {e : Expr}
  {es : List Expr}
include hΓ

/-- Go on with the type of an expression. -/
theorem KeepsExpr.bind {f : Ty → HistoryM β} (he : KeepsExpr Γ e) (hΔ : Scope.Guarded Γ D c Δ)
    (hf : ∀ t c', c.Evolves D c' → t.Within (c'.live D) → Keeps Γ D c' (f t)) :
    Keeps Γ D c (HistoryM.expr Γ Δ e >>= f) := by
  refine .bind (he.keeps hΔ) fun t c' hyields hE => hf t c' hE ?_
  rw [(HistoryM.erase_program hΓ).1 e Δ] at hyields
  exact (he.evolves hΔ.sane hΔ.proper hyields).2

theorem keeps_embedded (hes : ∀ e ∈ es, KeepsExpr Γ e) (hΔ : Scope.Guarded Γ D c Δ) :
    Keeps Γ D c (HistoryM.embedded Γ Δ es) := by
  induction es generalizing c with
  | nil =>
    rw [HistoryM.embedded]
    exact .pure ()
  | cons e es ih =>
    obtain ⟨he, hes⟩ := List.forall_mem_cons.mp hes
    rw [HistoryM.embedded]
    refine .resolveScope (he.bind hΓ (hΔ.apply hΓ) fun t c₁ hE _ => ?_)
    exact ih hes (hΔ.evolve hE)

theorem keeps_exprs (hes : ∀ e ∈ es, KeepsExpr Γ e) (hΔ : Scope.Guarded Γ D c Δ) :
    Keeps Γ D c (HistoryM.exprs Γ Δ es) := by
  induction es generalizing c with
  | nil =>
    rw [HistoryM.exprs]
    exact .pure []
  | cons e es ih =>
    obtain ⟨he, hes⟩ := List.forall_mem_cons.mp hes
    rw [HistoryM.exprs]
    refine .resolveScope (he.bind hΓ (hΔ.apply hΓ) fun t c₁ hE _ => ?_)
    exact .bind (ih hes (hΔ.evolve hE)) fun ts _ _ _ => .pure (t :: ts)

theorem keeps_otherwise {no : Option Expr} (hno : ∀ e ∈ no, KeepsExpr Γ e)
    (hΔ : Scope.Guarded Γ D c Δ) : Keeps Γ D c (HistoryM.otherwise Γ Δ no) := by
  cases no with
  | none =>
    rw [HistoryM.otherwise]
    exact .pure _
  | some e =>
    rw [HistoryM.otherwise]
    exact .resolveScope ((hno e rfl).keeps (hΔ.apply hΓ))

omit hΓ in
theorem keeps_returned {value : Option Expr} (hvalue : ∀ e ∈ value, KeepsExpr Γ e)
    (hΔ : Scope.Guarded Γ D c Δ) : Keeps Γ D c (HistoryM.returned Γ Δ value) := by
  cases value with
  | none =>
    rw [HistoryM.returned]
    exact .pure _
  | some e =>
    rw [HistoryM.returned]
    exact (hvalue e rfl).keeps hΔ

theorem keeps_cases {targetTy result : Ty} {cs : List Case}
    (hcs : ∀ p e, Case.mk p e ∈ cs → KeepsExpr Γ e) (hΔ : Scope.Guarded Γ D c Δ)
    (htarget : targetTy.Within (c.live D)) (hresult : result.Within (c.live D)) :
    Keeps Γ D c (HistoryM.cases Γ Δ targetTy result cs) := by
  induction cs generalizing c with
  | nil =>
    rw [HistoryM.cases]
    exact .pure ()
  | cons first cs ih =>
    obtain ⟨p, e⟩ := first
    rw [HistoryM.cases]
    refine .pattern hΔ fun patTy scope c₁ hE₁ hpat hscope hmono => ?_
    refine .unify hpat (htarget.mono hE₁.live_subset) fun c₂ _ hE₂ => ?_
    have hE₁₂ := hE₁.trans hE₂
    -- The body of a case sees what the pattern binds, which is not generalised.
    have hinner := ((hΔ.evolve hE₁₂).apply hΓ).union ((hscope.evolve hE₂).apply hE₂.proper)
      (hmono.apply _).sealed
    refine .resolveScope (.resolveScope ((hcs p e List.mem_cons_self).bind hΓ hinner ?_))
    intro bodyTy c₃ hE₃ hbody
    have hE₁₃ := hE₁₂.trans hE₃
    have hresult' := hE₃.proper.within_apply (hresult.mono hE₁₃.live_subset)
    refine .resolve (.unify hresult' hbody fun c₄ _ hE₄ => ?_)
    have hE := hE₁₃.trans hE₄
    exact ih (fun p e he => hcs p e (List.mem_cons_of_mem _ he)) (hΔ.evolve hE)
      (htarget.mono hE.live_subset) (hresult.mono hE.live_subset)

/-- The statements of a block, from left to right.  While a statement is inferred, what the block has
bound is guarded by the variables that were dead before; afterwards more variables are dead. -/
theorem keeps_stmts {last : Ty} {ss : List Stmt} (hss : ∀ s ∈ ss, KeepsStmt Γ s)
    (hΔ : Scope.Guarded Γ D c (Δ.union scope)) : Keeps Γ D c (HistoryM.stmts Γ Δ scope last ss) := by
  induction ss generalizing D c scope last with
  | nil =>
    rw [HistoryM.stmts]
    exact .last fun _ => rfl
  | cons s ss ih =>
    obtain ⟨hs, hss⟩ := List.forall_mem_cons.mp hss
    rw [HistoryM.stmts]
    have hcurrent := hΔ.apply hΓ
    rw [Scope.apply_union] at hcurrent
    refine .bind (.inScope (.resolveScope (.resolveScope (hs.keeps hcurrent))) hΔ) ?_
    intro r c₁ hyields _
    simp only [HistoryM.erase_inScope, HistoryM.erase_bind, HistoryM.erase_lift,
      (HistoryM.erase_program hΓ).2 s _] at hyields
    obtain ⟨ctx, rfl, hreaches⟩ := hyields
    simp only [InferM.reaches_bind, InferM.reaches_resolveScope] at hreaches
    obtain ⟨hE, D', hD, hc₁, -, hsane, hsealed⟩ :=
      hs.evolves hcurrent.sane hcurrent.proper ⟨ctx, rfl, hreaches⟩
    -- What the statement binds is generalised in the environment up to date, and the block goes on
    -- with the one as it stands.
    rw [← Scope.apply_union, ← hΓ.apply_extend] at hsane
    have hnext := hΔ.union_later hE hD hc₁ (hΔ.sane.of_apply hΔ.proper hE hD hsane) hsealed
    rw [Scope.union_assoc] at hnext
    exact (ih hss hnext).anti hc₁ hD

end Parts

section

variable {Γ : Env} (hΓ : Γ.Closed)
include hΓ

theorem keeps_lambda {args : List Pat} {body : Expr} {src : Region} (hbody : KeepsExpr Γ body) :
    KeepsExpr Γ (.lambda args body src) := by
  refine ⟨InferM.lambda_evolves hbody.evolves, fun {D c Δ} hΔ => ?_⟩
  rw [HistoryM.expr]
  refine .recording hΔ (.guard (.freshVar (.push (.pause ?_))))
  have hΔ₀ := hΔ.evolve (hΔ.proper.skip 1)
  have hret := Ty.Within.var hΔ.proper.next_mem_live
  refine .bind (keeps_params hΔ₀) fun r c₁ hyields hE₁ => ?_
  obtain ⟨tys, scope⟩ := r
  rw [HistoryM.erase_params Δ] at hyields
  obtain ⟨-, -, hscope⟩ := InferM.params_evolves hΔ₀.sane hΔ₀.proper (.of_var "return" hret) hyields
  have hmono := InferM.params_monomorphic (.singleton "return" _) hyields
  have hinner := (hΔ₀.evolve hE₁).union hscope hmono.sealed
  refine .resolveAll (.replace (.pause (hbody.bind hΓ hinner fun bodyTy c₂ hE₂ hbodyTy => ?_)))
  have hret' := hE₂.proper.within_apply (hret.mono (hE₁.trans hE₂).live_subset)
  exact .resolve (.unify hbodyTy hret' fun _ _ _ => .resolveAll (.resolve (.replace (.pause (.pop (.pure _))))))

theorem keeps_call {target : Expr} {args : List Expr} {src : Region} (htarget : KeepsExpr Γ target)
    (hargs : ∀ e ∈ args, KeepsExpr Γ e) : KeepsExpr Γ (.call target args src) := by
  refine ⟨InferM.call_evolves htarget.evolves fun e he => (hargs e he).evolves, fun {D c Δ} hΔ => ?_⟩
  rw [HistoryM.expr]
  refine .recording hΔ (.guard (.freshVar (.infer (.push (.pause ?_)))))
  have hΔ₀ := hΔ.evolve (hΔ.proper.skip 1)
  refine htarget.bind hΓ hΔ₀ fun targetTy c₁ hE₁ htargetTy => ?_
  have hΔ₁ := hΔ₀.evolve hE₁
  refine .bind (keeps_exprs hΓ hargs hΔ₁) fun argTys c₂ hyields hE₂ => ?_
  rw [HistoryM.erase_exprs hΓ fun e _ => (HistoryM.erase_program hΓ).1 e] at hyields
  obtain ⟨-, hargTys⟩ :=
    InferM.exprs_evolves (fun e he => (hargs e he).evolves) hΔ₁.sane hΔ₁.proper hyields
  have hnew := (Ty.Within.var hΔ.proper.next_mem_live).mono (hE₁.trans hE₂).live_subset
  have htargetTy' := hE₂.proper.within_apply (htargetTy.mono hE₂.live_subset)
  refine .resolve (.resolveAll (.replace (.pause (.resolve ?_))))
  exact .unify htargetTy' (.fn hargTys hnew) fun _ _ _ =>
    .resolve (.replace (.pause (.pop (.last fun _ => rfl))))

theorem keeps_ifElse {cond yes : Expr} {no : Option Expr} {src : Region} (hcond : KeepsExpr Γ cond)
    (hyes : KeepsExpr Γ yes) (hno : ∀ e ∈ no, KeepsExpr Γ e) : KeepsExpr Γ (.ifElse cond yes no src) := by
  refine ⟨InferM.ifElse_evolves hcond.evolves hyes.evolves fun e he => (hno e he).evolves,
    fun {D c Δ} hΔ => ?_⟩
  rw [HistoryM.expr]
  refine .recording hΔ (.push (.pause (hcond.bind hΓ hΔ fun condTy c₁ hE₁ hcondTy => ?_)))
  refine .unify hcondTy (.con _) fun c₂ _ hE₂ => ?_
  have hΔ₂ := hΔ.evolve (hE₁.trans hE₂)
  refine .resolveScope (hyes.bind hΓ (hΔ₂.apply hΓ) fun yesTy c₃ hE₃ hyesTy => ?_)
  have hΔ₃ := hΔ₂.evolve hE₃
  refine .bind (keeps_otherwise hΓ hno hΔ₃) fun noTy c₄ hyields hE₄ => ?_
  rw [HistoryM.erase_otherwise hΓ fun e _ => (HistoryM.erase_program hΓ).1 e] at hyields
  obtain ⟨-, hnoTy⟩ :=
    InferM.otherwise_evolves (fun e he => (hno e he).evolves) hΔ₃.sane hΔ₃.proper hyields
  exact .unify (hyesTy.mono hE₄.live_subset) hnoTy fun _ _ _ =>
    .resolve (.resolve (.replace (.pause (.pop (.last fun _ => rfl)))))

theorem keeps_switch {target : Expr} {cs : List Case} {src : Region} (htarget : KeepsExpr Γ target)
    (hcs : ∀ p e, Case.mk p e ∈ cs → KeepsExpr Γ e) : KeepsExpr Γ (.switch target cs src) := by
  refine ⟨InferM.switch_evolves htarget.evolves fun p e he => (hcs p e he).evolves,
    fun {D c Δ} hΔ => ?_⟩
  rw [HistoryM.expr]
  refine .recording hΔ (htarget.bind hΓ hΔ fun targetTy c₁ hE₁ htargetTy => ?_)
  have hskip := hE₁.proper.skip 1
  have hcases := keeps_cases hΓ hcs (hΔ.evolve (hE₁.trans hskip)) (htargetTy.mono hskip.live_subset)
    (.var hE₁.proper.next_mem_live)
  refine .freshVar (.resolve (.push (.pause ?_)))
  exact .bind hcases fun _ _ _ _ => .pop (.last fun _ => rfl)

theorem keeps_ret {value : Option Expr} {src : Region} (hvalue : ∀ e ∈ value, KeepsExpr Γ e) :
    KeepsStmt Γ (.ret value src) := by
  refine ⟨InferM.ret_evolves fun e he => (hvalue e he).evolves, fun {D c Δ} hΔ => ?_⟩
  rw [HistoryM.stmt]
  refine .inScope (.freshVar ?_) hΔ
  have hskip := hΔ.proper.skip 1
  have hΔ₀ := hΔ.evolve hskip
  cases hs : (Γ.extend Δ).lookup "return" with
  | none => exact .last fun _ => rfl
  | some s =>
    refine .push (.pause (.bind (keeps_returned hvalue hΔ₀) fun found c₁ hyields hE₁ => ?_))
    rw [HistoryM.erase_returned fun e _ => (HistoryM.erase_program hΓ).1 e] at hyields
    obtain ⟨-, hfound⟩ :=
      InferM.returned_evolves (fun e he => (hvalue e he).evolves) hΔ₀.sane hΔ₀.proper hyields
    -- The scheme of `return` is not instantiated, so that it must not quantify anything.
    obtain ⟨hsane, hmono⟩ := hΔ.sane.scope "return" s hs
    have hbody := (hsane.within_body (hmono rfl)).mono (hskip.trans hE₁).live_subset
    exact .unify hbody hfound fun _ _ _ => .resolve (.replace (.pause (.pop (.pure _))))

theorem keeps_letVar {name : String} {patSrc src : Region} {init : Expr}
    (hname : init.isLambda → name ≠ "return") (hinit : KeepsExpr Γ init) :
    KeepsStmt Γ (.letBind (.var name patSrc) init src) := by
  refine ⟨InferM.letVar_evolves hname hinit.evolves, fun {D c Δ} hΔ => ?_⟩
  rw [HistoryM.stmt]
  refine .inScope (.push (.pause (.replace (.pause (.freshVar ?_))))) hΔ
  refine .infer (.push (.pause (.pop (.replace (.pause (.replace ?_))))))
  have hnew := Ty.Within.var hΔ.proper.next_mem_live
  have hinner := (hΔ.evolve (hΔ.proper.skip 1)).union (.of_var name hnew)
    (Scope.Monomorphic.singleton name _).sealed
  refine hinit.bind hΓ hinner fun value c₁ hE₁ hvalue => ?_
  have hnew' := hE₁.proper.within_apply (hnew.mono hE₁.live_subset)
  refine .resolve (.unify hnew' hvalue fun _ _ _ => ?_)
  exact .resolve (.resolve (.replace (.pause (.pop (.resolve (.resolveScope (.pure _)))))))

theorem keeps_letPat {p : Pat} {src : Region} {init : Expr} (hp : ∀ name patSrc, p ≠ .var name patSrc)
    (hinit : KeepsExpr Γ init) : KeepsStmt Γ (.letBind p init src) := by
  refine ⟨InferM.letPat_evolves hp hinit.evolves, fun {D c Δ} hΔ => ?_⟩
  rw [HistoryM.stmt]
  · refine .inScope (.push (.pause (.pattern hΔ fun patTy scope c₁ hE₁ hpat _ _ => ?_))) hΔ
    refine hinit.bind hΓ (hΔ.evolve hE₁) fun value c₂ hE₂ hvalue => ?_
    exact .unify (hpat.mono hE₂.live_subset) hvalue fun _ _ _ =>
      .pause (.pop (.resolveScope (.pure _)))
  · exact hp

theorem keeps_forLoop {init : Stmt} {cond update body : Expr} {src : Region} (hinit : KeepsStmt Γ init)
    (hcond : KeepsExpr Γ cond) (hupdate : KeepsExpr Γ update) (hbody : KeepsExpr Γ body) :
    KeepsStmt Γ (.forLoop init cond update body src) := by
  refine ⟨InferM.forLoop_evolves hinit.evolves hcond.evolves hupdate.evolves hbody.evolves,
    fun {D c Δ} hΔ => ?_⟩
  rw [HistoryM.stmt]
  refine .inScope (.push (.pause (.bind (hinit.keeps hΔ) fun first c₁ hyields hE₁ => ?_))) hΔ
  rw [(HistoryM.erase_program hΓ).2 init Δ] at hyields
  obtain ⟨-, D', hD, hc₁, -, hsane, hsealed⟩ := hinit.evolves hΔ.sane hΔ.proper hyields
  have hinner₁ := (hΔ.union_later hE₁ hD hc₁ hsane hsealed).apply hΓ
  rw [Scope.apply_union] at hinner₁
  refine .anti ?_ hc₁ hD
  refine .resolveScope (.resolveScope (.inScope ?_ hinner₁))
  refine hcond.bind hΓ hinner₁ fun condTy c₂ hE₂ hcondTy => .unify hcondTy (.con _) fun c₃ _ hE₃ => ?_
  have hinner₃ := (hinner₁.evolve (hE₂.trans hE₃)).apply hΓ
  refine .resolveScope (.inScope (hupdate.bind hΓ hinner₃ fun _ c₄ hE₄ _ => ?_) hinner₃)
  exact .resolveScope (hbody.bind hΓ ((hinner₃.evolve hE₄).apply hΓ) fun _ _ _ _ => .pop (.pure _))

/-- **Inference keeps the environments in use guarded**, in programs that do not generalise `return`. -/
theorem keeps_program :
    (∀ e : Expr, "return" ∉ e.functions → KeepsExpr Γ e) ∧
    ∀ s : Stmt, "return" ∉ s.functions → KeepsStmt Γ s := by
  refine Expr.induction_avoiding "return" ?block ?ifElse ?switch ?prim ?var ?str ?lambda ?call
    ?forLoop ?letBind ?expr ?ret
  case block =>
    intro ss src hss
    refine ⟨InferM.block_evolves fun s hs => (hss s hs).evolves, fun {D c Δ} hΔ => ?_⟩
    rw [HistoryM.expr]
    exact .recording hΔ (keeps_stmts hΓ hss (hΔ.union .empty Scope.Monomorphic.empty.sealed))
  case ifElse => exact fun _ _ _ _ => keeps_ifElse hΓ
  case switch => exact fun _ _ _ => keeps_switch hΓ
  case prim =>
    intro value src
    refine ⟨InferM.prim_evolves, fun {D c Δ} hΔ => ?_⟩
    rw [HistoryM.expr]
    exact .recording hΔ (.pure _)
  case var =>
    intro name src
    refine ⟨InferM.var_evolves, fun {D c Δ} hΔ => ?_⟩
    rw [HistoryM.expr]
    refine .recording hΔ ?_
    cases (Γ.extend Δ).lookup name with
    | none => exact .last fun _ => rfl
    | some s => exact .instantiate
  case str =>
    intro value embeds src hembeds
    refine ⟨InferM.str_evolves fun e he => (hembeds e he).evolves, fun {D c Δ} hΔ => ?_⟩
    rw [HistoryM.expr]
    exact .recording hΔ (.bind (keeps_embedded hΓ hembeds hΔ) fun _ _ _ _ => .pure _)
  case lambda => exact fun _ _ _ => keeps_lambda hΓ
  case call => exact fun _ _ _ => keeps_call hΓ
  case forLoop => exact fun _ _ _ _ _ => keeps_forLoop hΓ
  case letBind =>
    intro p init src hname hinit
    -- Only a function that is bound to a name is generalised, and the name is not `return`.
    by_cases hvar : ∃ name patSrc, p = .var name patSrc
    · obtain ⟨name, patSrc, rfl⟩ := hvar
      refine keeps_letVar hΓ (fun hlambda hn => hname ?_) hinit
      simp [Pat.functionName, hlambda, hn]
    · exact keeps_letPat hΓ (fun name patSrc hp => hvar ⟨name, patSrc, hp⟩) hinit
  case expr =>
    intro e src he
    refine ⟨InferM.exprStmt_evolves he.evolves, fun {D c Δ} hΔ => ?_⟩
    rw [HistoryM.stmt]
    exact .inScope (.bind (he.keeps hΔ) fun _ _ _ _ => .pure _) hΔ
  case ret => exact fun _ _ => keeps_ret hΓ

end

/-! ## Programs -/

theorem Env.extend_nothing (env : Env) : env.extend .empty = env := by
  have hscope : env.scope.union .empty = env.scope := Dict.ext_get? fun name => by
    rw [Dict.get?_union, Dict.get?_empty, Option.none_or]
  rw [extend, hscope]

/-- In a closed environment the first moment of a program is guarded, and nothing is dead. -/
theorem Env.Closed.guarded {Γ : Env} (hΓ : Γ.Closed) : Scope.Guarded Γ ∅ .initial .empty := by
  refine ⟨Store.proper_initial, ?_, Scope.Monomorphic.empty.sealed⟩
  rw [Env.extend_nothing]
  exact hΓ.sane

namespace Infer

/-- **No variable is captured, at any point of a run.**  The history of a program that does not generalise
`return` starts in the initial state and ends in the one that inference leaves, whether it succeeds or
fails.  At each of its moments, for every environment in use, the bindings leave the variables alone that
the program has generalised, they lead from no free variable of a scheme to a quantified one, and names have
the same types in the environment as it stands and in the one that is up to date. -/
theorem moments_captureFree {s : Stmt} (hs : "return" ∉ s.functions) :
    (HistoryM.stmt .builtin .empty s).erase = InferM.stmt .builtin s ∧
    (∃ between, (HistoryM.stmt .builtin .empty s {}).2 =
      ⟨{}, [.empty]⟩ :: between ++ [⟨(exec (InferM.stmt .builtin s) {}).2, [.empty]⟩]) ∧
    ∀ p ∈ (HistoryM.stmt .builtin .empty s {}).2, ∀ Δ ∈ p.scopes,
      Scope.CaptureFree .builtin p.ctx Δ := by
  have herase : (HistoryM.stmt .builtin .empty s).erase = InferM.stmt .builtin s := by
    rw [(HistoryM.erase_program Env.builtin_closed).2 s, Env.extend_nothing]
  refine ⟨herase, ?_, fun p hp Δ hΔ => ?_⟩
  · obtain ⟨between, hmoments⟩ := HistoryM.exists_stmt_eq .builtin .empty s {}
    rw [← HistoryM.exec_erase, herase] at hmoments
    exact ⟨between, hmoments⟩
  · have hguarded := Env.builtin_closed.guarded
    have hkeeps := ((keeps_program Env.builtin_closed).2 s hs).keeps hguarded
    obtain ⟨-, hmoments⟩ := hkeeps hguarded.proper {} rfl
    obtain ⟨D, hΔ⟩ := (hmoments p hp).2 Δ hΔ
    exact hΔ.captureFree

/-- A function that is generalised over one variable and shares another with its environment:
`(q) => { let f = (x) => q; f(1) }`. -/
def constantUsed : Stmt :=
  let src : Region := ⟨0, none⟩
  .expr (.lambda [.var "q" src] (.block
    [.letBind (.var "f" src) (.lambda [.var "x" src] (.var "q" src) src) src,
      .expr (.call (.var "f" src) [.prim (.int 1) src] src) src] src) src) src

theorem moments_captureFree_constantUsed :
    "return" ∉ constantUsed.functions ∧
      ∀ p ∈ (HistoryM.stmt .builtin .empty constantUsed {}).2, ∀ Δ ∈ p.scopes,
        Scope.CaptureFree .builtin p.ctx Δ := by
  have hs : "return" ∉ constantUsed.functions := by decide
  exact ⟨hs, (moments_captureFree hs).2.2⟩

end Infer

/-! ## Functions that are called `return`

A `return` statement unifies the type of its value with the scheme of `return` as it stands.  If the scheme
quantifies variables, they get into the types of the program, and are bound there or put in for others. -/

namespace ReturnCaptured

open InferM

/-- A block that binds a function to the name `return`, and then returns a value of unknown type:
`{ let z = z; let q = q; let return = (x, y) => q; return z; if true (w, 1) => w else z; return(1, 1) }`. -/
def program : Stmt :=
  let src : Region := ⟨0, none⟩
  let z : Expr := .var "z" src
  let q : Expr := .var "q" src
  let one : Expr := .prim (.int 1) src
  .expr (.block
    [.letBind (.var "z" src) z src,
      .letBind (.var "q" src) q src,
      .letBind (.var "return" src) (.lambda [.var "x" src, .var "y" src] q src) src,
      .ret (some z) src,
      .expr (.ifElse (.prim (.bool true) src) (.lambda [.var "w" src, .prim (.int 1) src] (.var "w" src) src)
        (some z) src) src,
      .expr (.call (.var "return" src) [one, one] src) src] src) src

/-- The type of the function, `(e, f) => d`, where `d` is the type of `q`. -/
def functionTy : Ty := .fn [.var "e", .var "f"] (.var "d")

/-- The bindings after the function is bound. -/
def afterLet : Subst := .ofList [("b", .var "d"), ("c", functionTy)]

/-- The bindings after `return z`, which has made the type of `z` that of the function. -/
def afterReturn : Subst := .ofList [("a", functionTy), ("b", .var "d"), ("c", functionTy)]

/-- The bindings after `(w, 1) => w`, whose type is `(h, int) => h`. -/
def afterBranch : Subst :=
  .ofList [("a", functionTy), ("b", .var "d"), ("c", functionTy), ("i", .var "h")]

/-- The bindings after the branches of `if` have got one type. -/
def afterIf : Subst :=
  .ofList [("a", .fn [.var "e", .int] (.var "e")), ("b", .var "e"), ("c", .fn [.var "e", .int] (.var "e")),
    ("d", .var "e"), ("f", .int), ("h", .var "e"), ("i", .var "e")]

variable {env : Env} {src : Region}

/-- A `let` of a name to itself binds it to a new variable. -/
theorem yields_letSelf (env : Env) (name : String) {n : Nat} {x : String} (hx : Name.ofNat n = x)
    {patSrc initSrc src : Region} :
    Yields (stmt env (.letBind (.var name patSrc) (.var name initSrc) src)) ⟨n, .empty⟩
      { ty := .void, scope := some (.singleton name (.mono (.var x))) } ⟨n + 1, .empty⟩ := by
  subst hx
  refine yields_letVar.mpr ⟨.var (Name.ofNat n), ⟨n + 1, .empty⟩, yields_var.mpr ?_, ⟨rfl, .empty, ?_, rfl⟩, rfl⟩
  · exact ⟨_, Env.lookup_extend_singleton .., rfl, rfl⟩
  · refine Ty.unify_of_reduce ?_ rfl
    change (Ty.bind (Name.ofNat n) (.var (Name.ofNat n))).map _ = _
    rw [Ty.bind, if_pos rfl]
    rfl

theorem yields_functionParams :
    Yields (params env (.singleton "return" (.mono (.var "d"))) [.var "x" src, .var "y" src]) ⟨4, .empty⟩
      ([.var "e", .var "f"], .ofList [("return", .mono (.var "d")), ("x", .mono (.var "e")),
        ("y", .mono (.var "f"))]) ⟨6, .empty⟩ := by
  have he : Store.next ⟨4, .empty⟩ = "e" := Name.ofNat_of_lt (by decide)
  have hf : Store.next ⟨5, .empty⟩ = "f" := Name.ofNat_of_lt (by decide)
  refine yields_params_cons.mpr ⟨.var "e", .singleton "x" (.mono (.var "e")), ⟨5, .empty⟩, [.var "f"], _,
    yields_patVar.mpr ⟨by rw [he], rfl⟩, ?_, rfl⟩
  exact yields_params_cons.mpr ⟨.var "f", .singleton "y" (.mono (.var "f")), ⟨6, .empty⟩, [], _,
    yields_patVar.mpr ⟨by rw [hf], rfl⟩, yields_params_nil.mpr ⟨rfl, rfl⟩, rfl⟩

theorem yields_let (hq : env.lookup "q" = some (.mono (.var "b")))
    (hgen : (env.apply afterLet).generalize functionTy = ⟨["e", "f"], functionTy⟩) :
    Yields (stmt env (.letBind (.var "return" src)
        (.lambda [.var "x" src, .var "y" src] (.var "q" src) src) src)) ⟨2, .empty⟩
      { ty := .void, scope := some (.singleton "return" ⟨["e", "f"], functionTy⟩) } ⟨6, afterLet⟩ := by
  have hc : Store.next ⟨2, .empty⟩ = "c" := Name.ofNat_of_lt (by decide)
  have hd : Store.next (Store.skip ⟨2, .empty⟩ 1) = "d" := Name.ofNat_of_lt (by decide)
  rw [yields_letVar, hc]
  refine ⟨functionTy, ⟨6, .singleton "b" (.var "d")⟩, ?_,
    ⟨rfl, .singleton "c" functionTy, Ty.unify_of_reduce rfl rfl, rfl⟩, ?_⟩
  · rw [yields_lambda, hd]
    refine ⟨List.cons_ne_nil _ _, [.var "e", .var "f"], _, ⟨6, .empty⟩, .var "b", ⟨6, .empty⟩,
      yields_functionParams, yields_var.mpr ⟨.mono (.var "b"), ?_, rfl, rfl⟩,
      ⟨rfl, .singleton "b" (.var "d"), Ty.unify_of_reduce rfl rfl, rfl⟩, rfl⟩
    rw [Env.lookup_extend, Env.lookup_extend, hq]
    rfl
  · rw [← hgen]
    rfl

theorem yields_ret (hz : env.lookup "z" = some (.mono (.var "a")))
    (hret : env.lookup "return" = some ⟨["e", "f"], functionTy⟩) :
    Yields (stmt env (.ret (some (.var "z" src)) src)) ⟨6, afterLet⟩ { ty := .var "g" }
      ⟨7, afterReturn⟩ := by
  have hg : Store.next ⟨6, afterLet⟩ = "g" := Name.ofNat_of_lt (by decide)
  rw [InferM.yields_ret, hg]
  exact ⟨_, .var "a", ⟨7, afterLet⟩, hret, yields_returned_some.mpr (yields_var.mpr ⟨_, hz, rfl, rfl⟩),
    ⟨rfl, .singleton "a" functionTy, Ty.unify_of_reduce rfl rfl, rfl⟩, rfl⟩

theorem yields_branchParams :
    Yields (params env (.singleton "return" (.mono (.var "h"))) [.var "w" src, .prim (.int 1) src])
      ⟨8, afterReturn⟩ ([.var "i", .int], .ofList [("return", .mono (.var "h")), ("w", .mono (.var "i"))])
      ⟨9, afterReturn⟩ := by
  have hi : Store.next ⟨8, afterReturn⟩ = "i" := Name.ofNat_of_lt (by decide)
  refine yields_params_cons.mpr ⟨.var "i", .singleton "w" (.mono (.var "i")), ⟨9, afterReturn⟩, [.int], _,
    yields_patVar.mpr ⟨by rw [hi], rfl⟩, ?_, rfl⟩
  exact yields_params_cons.mpr ⟨.int, .empty, ⟨9, afterReturn⟩, [], _, yields_patPrim.mpr ⟨rfl, rfl⟩,
    yields_params_nil.mpr ⟨rfl, rfl⟩, rfl⟩

/-- The result of the function is put for the parameter that is its result, `d` for `h`; then a parameter
of the function is put for its result, `e` for `d`. -/
theorem unify_branches : (Ty.fn [.var "h", .int] (.var "h")).unify functionTy =
    .ok (.ofList [("d", .var "e"), ("f", .int), ("h", .var "e")]) := by
  rw [Ty.unify, Ty.solve_cons]
  change Ty.solve .empty [(.var "h", .var "d"), (.var "h", .var "e"), (.int, .var "f")] = _
  rw [Ty.solve_cons]
  change Ty.solve (.singleton "h" (.var "d")) [(.var "d", .var "e"), (.int, .var "f")] = _
  rw [Ty.solve_cons]
  change Ty.solve (.ofList [("d", .var "e"), ("h", .var "e")]) [(.int, .var "f")] = _
  rw [Ty.solve_cons]
  change Ty.solve (.ofList [("d", .var "e"), ("f", .int), ("h", .var "e")]) [] = _
  rw [Ty.solve]

theorem yields_if (hz : (env.apply afterBranch).lookup "z" = some (.mono functionTy)) :
    Yields (stmt env (.expr (.ifElse (.prim (.bool true) src)
        (.lambda [.var "w" src, .prim (.int 1) src] (.var "w" src) src) (some (.var "z" src)) src) src))
      ⟨7, afterReturn⟩ { ty := .fn [.var "e", .int] (.var "e") } ⟨9, afterIf⟩ := by
  have hh : Store.next ⟨7, afterReturn⟩ = "h" := Name.ofNat_of_lt (by decide)
  refine yields_exprStmt.mpr ⟨.fn [.var "e", .int] (.var "e"), yields_ifElse.mpr ⟨.bool, ⟨7, afterReturn⟩,
    ⟨7, afterReturn⟩, .fn [.var "h", .int] (.var "h"), ⟨9, afterBranch⟩, functionTy, ⟨9, afterBranch⟩,
    yields_prim.mpr ⟨rfl, rfl⟩, ⟨rfl, .empty, Ty.unify_of_reduce rfl rfl, rfl⟩, ?_,
    yields_otherwise_some.mpr (yields_var.mpr ⟨_, hz, rfl, rfl⟩), ⟨rfl, _, unify_branches, rfl⟩, rfl⟩, rfl⟩
  rw [yields_lambda, hh]
  refine ⟨List.cons_ne_nil _ _, [.var "i", .int], _, ⟨9, afterReturn⟩, .var "i", ⟨9, afterReturn⟩,
    yields_branchParams, yields_var.mpr ⟨.mono (.var "i"), ?_, rfl, rfl⟩,
    ⟨rfl, .singleton "i" (.var "h"), Ty.unify_of_reduce rfl rfl, rfl⟩, rfl⟩
  rw [Env.lookup_extend]
  rfl

/-- **A function that is called `return` has its variables bound and captured.**  At the end of the `if`, one
of the two variables that it is generalised over is bound, and its result is the other one. -/
theorem moment_captured :
    "return" ∈ program.functions ∧
      ∃ p ∈ (HistoryM.stmt .builtin .empty program {}).2, ∃ Δ ∈ p.scopes, ∃ s,
        Δ.get? "return" = some s ∧ (∃ x ∈ s.vars, p.ctx.subst.get? x ≠ none) ∧
        ∃ y ∈ s.free, ∃ x ∈ s.vars, x ∈ ((Ty.var y).apply p.ctx.subst).occurrences := by
  have hΓ := Env.builtin_closed
  have ha : Name.ofNat 0 = "a" := Name.ofNat_of_lt (by decide)
  have hb : Name.ofNat 1 = "b" := Name.ofNat_of_lt (by decide)
  refine ⟨by decide, ?_⟩
  have hpasses : HistoryM.Passes (fun σ Δ => ∃ s, Δ.get? "return" = some s ∧
      (∃ x ∈ s.vars, σ.get? x ≠ none) ∧
      ∃ y ∈ s.free, ∃ x ∈ s.vars, x ∈ ((Ty.var y).apply σ).occurrences)
      .initial (HistoryM.stmt .builtin .empty program) := by
    refine .block (.next hΓ (yields_letSelf _ "z" ha) (.next hΓ (yields_letSelf _ "q" hb) ?_))
    refine .next hΓ (yields_let rfl rfl) (.next hΓ (yields_ret rfl rfl) (.here hΓ (yields_if rfl) ?_))
    exact ⟨⟨["e", "f"], functionTy⟩, rfl, ⟨"f", by decide, by decide⟩, "d", by decide, "e", by decide, by decide⟩
  exact hpasses {} rfl

end ReturnCaptured

end TypeTrace
