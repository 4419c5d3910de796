import Mathlib.Data.List.Induction
import TypeTrace.Proofs.Computation
import TypeTrace.Proofs.Unification

/-!
# Sessions

A session is any sequence of the operations that inference offers, on one state: creating
variables, instantiating schemes, unifying types, and inferring patterns, expressions and
statements, with whatever arguments, each of them successful or not.

The bindings of a session only grow and stay resolved, because unification looks at types through
the bindings so far; so no operation ever tries to bind a variable twice.  The log has enough to
find the bindings again: applying the logged ones in order gives every type its final form,
although each of them is logged twice.

## Main definitions

* `Operation`, `Context.after`: operations and sessions
* `Context.Extends`: one state has the bindings of another, and more
* `Context.Consistent`: the bindings are resolved, and the log gives them back
* `Trace.Replays`: what the log of a consistent state is good for

## Main results

* `InferM.Stepwise.keeps`: what every stepwise computation keeps
* `bindings_persist`: the bindings after every session, and what one more operation does to them
* `log_replays_bindings`: the log of every session gives back its bindings
-/

namespace TypeTrace

/-! ## Consistent states -/

namespace Event

theorem deltas_append (l m : List Event) : deltas (l ++ m) = deltas l ++ deltas m :=
  List.filterMap_append

theorem deltas_push (events : Array Event) (e : Event) :
    deltas (events.push e).toList = deltas events.toList ++ (delta? e).toList := by
  rw [Array.toList_push, deltas_append]
  cases h : delta? e <;> simp [deltas, h]

end Event

namespace Context

/-- The later state has the bindings of the earlier one, brought up to date, and new ones. -/
def Extends (ctx ctx' : Context) : Prop :=
  ∃ d : Subst, (∀ x ∈ d.keys, x ∉ ctx.subst.keys) ∧ d.compose ctx.subst = .ok ctx'.subst

theorem Extends.refl (ctx : Context) : ctx.Extends ctx :=
  ⟨.empty, fun _ h => absurd h List.not_mem_nil, Subst.compose_empty _⟩

theorem Extends.trans {ctx₀ ctx₁ ctx₂ : Context} (h₁ : ctx₀.Extends ctx₁) (h₂ : ctx₁.Extends ctx₂) :
    ctx₀.Extends ctx₂ := by
  obtain ⟨a, -, ha⟩ := h₁
  obtain ⟨b, -, hb⟩ := h₂
  obtain ⟨d, -, hd⟩ := Subst.compose_assoc ha hb
  exact ⟨d, (Subst.compose_eq_ok_iff.mp hd).1, hd⟩

/-- The bindings are resolved, and the log gives them back. -/
structure Consistent (ctx : Context) : Prop where
  /-- No bound variable occurs in a bound type. -/
  resolved : ctx.subst.Resolved
  /-- The logged bindings, one after the other, do what the bindings do. -/
  replays : ∀ t : Ty,
    (Event.deltas ctx.events.toList).foldl (fun t d => t.apply d) t = t.apply ctx.subst

theorem consistent_initial : Consistent {} :=
  ⟨Subst.resolved_empty, fun t => (Ty.apply_empty t).symm⟩

/-- A step that logs something else than bindings keeps a state consistent. -/
theorem Consistent.of_push {ctx ctx' : Context} (h : ctx.Consistent) {e : Event}
    (he : e.delta? = none) (hs : ctx'.subst = ctx.subst) (hlog : ctx'.events = ctx.events.push e) :
    ctx'.Consistent := by
  refine ⟨hs ▸ h.resolved, fun t => ?_⟩
  rw [hlog, Event.deltas_push, he, Option.toList_none, List.append_nil, h.replays, hs]

end Context

/-! ## Unification in a state -/

namespace InferM

variable {ctx : Context} {one two : Ty} {src : Region} {oneName twoName : String}
  {message : Option String}

variable (one two src oneName twoName message) in
/-- **What unification does where the bindings are resolved**: it fails and leaves everything as it was,
or it adds the most general bindings for its types to the bindings so far, and logs them. -/
theorem exec_unify_cases (h : ctx.subst.Resolved) :
    (∃ e, (one.apply ctx.subst).unify (two.apply ctx.subst) = .error e ∧
      exec (unify one two src oneName twoName message) ctx = (.error e, ctx)) ∨
    ∃ delta s, (one.apply ctx.subst).unify (two.apply ctx.subst) = .ok delta ∧
      delta.compose ctx.subst = .ok s ∧ s.Resolved ∧
      exec (unify one two src oneName twoName message) ctx = (.ok (),
        { ctx with
          subst := s
          events := ctx.events ++ unifyEvents (one.apply ctx.subst) (two.apply ctx.subst) delta s src
            oneName twoName message }) := by
  cases hu : (one.apply ctx.subst).unify (two.apply ctx.subst) with
  | error e => exact .inl ⟨e, rfl, exec_unify_error hu⟩
  | ok delta =>
    obtain ⟨s, hs, hres⟩ := (Ty.unify_ok hu).compose h
    exact .inr ⟨delta, s, rfl, hs, hres, exec_unify_ok hu hs⟩

/-- **Unification in a consistent state**: it fails without a trace on types that do not unify, and
otherwise adds its bindings; it never binds a variable twice. -/
theorem unify_keeps (h : ctx.Consistent) :
    let r := exec (unify one two src oneName twoName message) ctx
    r.2.Consistent ∧ ctx.Extends r.2 ∧ ∀ name, r.1 ≠ .error (.substitutionOverwrite name) := by
  rcases exec_unify_cases one two src oneName twoName message h.resolved with
    ⟨e, hu, hexec⟩ | ⟨delta, s, hu, hs, hres, hexec⟩
  all_goals rw [hexec]
  · refine ⟨h, .refl ctx, fun name he => ?_⟩
    exact (Ty.unify_error hu).2 name (Except.error.inj he)
  · refine ⟨⟨hres, fun t => ?_⟩, ⟨delta, (Subst.compose_eq_ok_iff.mp hs).1, hs⟩, nofun⟩
    -- The second copy of the bindings finds nothing left to do.
    have honce : (t.apply s).apply delta = t.apply s := by
      rw [Subst.apply_compose hs, (Ty.unify_ok hu).resolved.apply_apply]
    change List.foldl _ t (Event.deltas (ctx.events ++ unifyEvents ..).toList) = t.apply s
    rw [Array.toList_appendList, Event.deltas_append, List.foldl_append, h.replays]
    -- Without bindings to add, unification is logged once; otherwise the bindings are logged twice.
    by_cases he : delta.isEmpty = true
    · simp [unifyEvents, Event.deltas, Event.delta?, he, Subst.apply_compose hs]
    · simp [unifyEvents, Event.deltas, Event.delta?, he, ← Subst.apply_compose hs, honce]

/-! ## Every computation -/

/-- **What every stepwise computation keeps**, whether it succeeds or fails. -/
theorem Stepwise.keeps {α : Type} {m : InferM α} {n n' : Nat} (hm : Stepwise n n' m) {ctx : Context}
    (h : ctx.Consistent) :
    (exec m ctx).2.Consistent ∧ ctx.Extends (exec m ctx).2 ∧
      ∀ name, (exec m ctx).1 ≠ .error (.substitutionOverwrite name) := by
  induction hm generalizing ctx with
  | pure a => exact ⟨h, .refl ctx, nofun⟩
  | throw e he =>
    rw [exec_throw]
    exact ⟨h, .refl ctx, fun name hn => he name (Except.error.inj hn)⟩
  | @bind _ _ _ _ _ m f hm hf ihm ihf =>
    obtain ⟨hc, hx, hne⟩ := ihm h
    rw [exec_bind]
    -- A failure ends the computation, with all that was done before it.
    rcases hr : exec m ctx with ⟨a | a, ctx'⟩
    all_goals rw [hr] at hc hx hne
    · exact ⟨hc, hx, fun name hn => hne name (by rw [Except.error.inj hn])⟩
    · obtain ⟨hc', hx', hne'⟩ := ihf a hc
      exact ⟨hc', hx.trans hx', hne'⟩
  | subst => exact ⟨h, .refl ctx, nofun⟩
  | infer src t => exact ⟨h.of_push rfl rfl rfl, .refl ctx, nofun⟩
  | pause title => exact ⟨h.of_push rfl rfl rfl, .refl ctx, nofun⟩
  | freshVar origin => exact ⟨h.of_push rfl rfl rfl, .refl ctx, nofun⟩
  | unify one two src oneName twoName message => exact unify_keeps h
  | push src line => exact ⟨h.of_push rfl rfl rfl, .refl ctx, nofun⟩
  | pop => exact ⟨h.of_push rfl rfl rfl, .refl ctx, nofun⟩
  | noteScope env =>
    rcases exec_noteScope env ctx with hr | hr
    all_goals rw [hr]
    · exact ⟨h, .refl ctx, nofun⟩
    · exact ⟨h.of_push rfl rfl rfl, .refl ctx, nofun⟩

end InferM

/-! ## Sessions -/

/-- The operations that inference offers. -/
inductive Operation where
  | newVar (origin : Origin)
  | instantiate (scheme : Scheme)
  | unify (one two : Ty) (src : Region) (oneName twoName : String) (message : Option String)
  | pattern (env : Env) (p : Pat)
  | expr (env : Env) (e : Expr)
  | stmt (env : Env) (s : Stmt)

/-- Run an operation for what it does to the state, and for its error. -/
def Operation.run : Operation → InferM Unit
  | newVar origin => do let _ ← InferM.freshVar origin
  | instantiate scheme => do let _ ← InferM.instantiate scheme
  | unify one two src oneName twoName message => InferM.unify one two src oneName twoName message
  | pattern env p => do let _ ← InferM.pattern env p
  | expr env e => do let _ ← InferM.expr env e
  | stmt env s => do let _ ← InferM.stmt env s

/-- The state after a session; an operation that fails keeps what it has done so far. -/
def Context.after (ops : List Operation) : Context :=
  ops.foldl (fun ctx op => (op.run.exec ctx).2) {}

theorem Context.after_concat (ops : List Operation) (op : Operation) :
    Context.after (ops ++ [op]) = (op.run.exec (Context.after ops)).2 :=
  List.foldl_append

/-- What holds at the start and is kept by every operation holds after every session. -/
theorem Context.after_induction {P : Context → Prop} (hinit : P {})
    (hstep : ∀ (ctx : Context) (op : Operation), P ctx → P (op.run.exec ctx).2)
    (ops : List Operation) : P (Context.after ops) := by
  induction ops using List.reverseRecOn with
  | nil => exact hinit
  | append_singleton ops op ih =>
    rw [Context.after_concat]
    exact hstep _ op ih

theorem Operation.stepwise_run (op : Operation) : InferM.Stepwise 0 0 op.run := by
  cases op with
  | newVar origin => exact .bind (.freshVar origin) fun _ => .pure _
  | instantiate scheme => exact .bind (.instantiate scheme) fun _ => .pure _
  | unify => exact .unify ..
  | pattern env p => exact .bind (InferM.stepwise_pattern env p) fun _ => .pure _
  | expr env e => exact .bind (InferM.stepwise_expr env e) fun _ => .pure _
  | stmt env s => exact .bind (InferM.stepwise_stmt env s) fun _ => .pure _

/-- Every session ends in a consistent state. -/
theorem Context.consistent_after (ops : List Operation) : (Context.after ops).Consistent :=
  after_induction consistent_initial (fun _ op h => (op.stepwise_run.keeps h).1) ops

/-- **The bindings of a session**: after every session no bound variable occurs in a bound type, so
applying the bindings once is enough; and one more operation, with whatever outcome, adds bindings
of variables that were not bound, without ever reporting that a variable is bound twice. -/
theorem bindings_persist (ops : List Operation) :
    let old := (Context.after ops).subst
    (∀ x ∈ old.keys, ∀ t ∈ old.values, x ∉ t.free) ∧
    (∀ t : Ty, (t.apply old).apply old = t.apply old) ∧
    ∀ op : Operation,
      (∃ d : Subst, (∀ x ∈ d.keys, x ∉ old.keys) ∧
        d.compose old = .ok (Context.after (ops ++ [op])).subst) ∧
      ∀ name, (op.run.exec (Context.after ops)).1 ≠ .error (.substitutionOverwrite name) := by
  have h := Context.consistent_after ops
  refine ⟨fun x hx t ht hfree => ?_, h.resolved.apply_apply, fun op => ?_⟩
  · obtain ⟨u, hu⟩ := (Dict.mem_keys_iff _ x).mp hx
    obtain ⟨⟨y, t⟩, hy, rfl⟩ := List.mem_map.mp ht
    have hnone := h.resolved y t ((Dict.mem_entries_iff _ y t).mp hy) x (Ty.mem_free.mp hfree)
    rw [hu] at hnone
    cases hnone
  · obtain ⟨-, hext, hne⟩ := op.stepwise_run.keeps h
    rw [Context.after_concat]
    exact ⟨hext, hne⟩

/-! ## Replaying the log -/

/-- The types that were found, as they were logged. -/
def Event.found (events : List Event) : List (Region × Ty) :=
  events.filterMap fun
    | infer src ty => some (src, ty)
    | _ => none

/-- The log gives the bindings back: applied one after the other, the logged ones do to every type
what all bindings do, and so they bring every type that was found up to date. -/
structure Trace.Replays (trace : Trace) : Prop where
  apply_eq : ∀ t : Ty,
    (Event.deltas trace.events.toList).foldl (fun t d => t.apply d) t = t.apply trace.subst
  replay_eq : Event.replay trace.events.toList =
    (Event.found trace.events.toList).map fun (src, t) => (src, t.apply trace.subst)

theorem Context.Consistent.replays_trace {ctx : Context} (h : ctx.Consistent) :
    ctx.trace.Replays := by
  refine ⟨h.replays, ?_⟩
  rw [Event.replay, Event.found, List.map_filterMap]
  refine congrArg (List.filterMap · _) (funext fun e => ?_)
  cases e with
  | infer src ty => exact congrArg (fun t => some (src, t)) (h.replays ty)
  | newVar | unify | scope | push | pop | pause => rfl

/-- **The log of a session gives back its bindings**, after every session; and likewise the log of
every program, whether inference succeeds or breaks off. -/
theorem log_replays_bindings :
    (∀ ops : List Operation, (Context.after ops).trace.Replays) ∧
    ∀ (env : Env) (s : Stmt),
      match Infer.program env s with
      | .ok (_, trace) => trace.Replays
      | .error failure => failure.trace.Replays := by
  refine ⟨fun ops => (Context.consistent_after ops).replays_trace, fun env s => ?_⟩
  have h := ((InferM.stepwise_stmt (n := 0) env s).keeps Context.consistent_initial).1
  unfold Infer.program
  change ((InferM.stmt env s).run.run {}).2.Consistent at h
  rcases hr : (InferM.stmt env s).run.run {} with ⟨_ | _, ctx⟩
  all_goals
    rw [hr] at h
    exact h.replays_trace

end TypeTrace
