import TypeTrace.Proofs.Execution
import TypeTrace.Proofs.Instance
import TypeTrace.Proofs.Unification

/-!
# Invariants of the types in a run

Inference makes types in few ways: it creates variables, puts known types into functions, instantiates
schemes, and unifies.  What all of these keep is true of every type that inference finds, binds or logs,
in runs that succeed and in runs that fail, and of the types in the error of a run that fails.  It may
depend on the number of variables created, as long as more variables do no harm.

## Main definitions

* `TypeInvariant`: a property of types that inference keeps
* `TypeInvariant.State`: the property holds of all bindings, and of all that has been logged at its time
* `TypeInvariant.Safe`: a computation keeps such states, and its result is as required

## Main results

* `TypeInvariant.safe_pattern`, `TypeInvariant.safe_program`: inference is safe
-/

namespace TypeTrace

/-! ## Logs -/

namespace Event

/-- The variables that a log creates, in order. -/
def created (events : List Event) : List String :=
  events.filterMap fun
    | newVar name => some name
    | _ => none

theorem created_append (l m : List Event) : created (l ++ m) = created l ++ created m :=
  List.filterMap_append

/-- Every event has the property, given the number of variables created before it. -/
def Throughout (P : Nat → Event → Prop) (events : List Event) : Prop :=
  ∀ before e after, events = before ++ e :: after → P (created before).length e

theorem Throughout.concat {P : Nat → Event → Prop} {events : List Event} {e : Event}
    (h : Throughout P events) (he : P (created events).length e) : Throughout P (events ++ [e]) := by
  intro before x after hsplit
  rcases List.eq_nil_or_concat after with rfl | ⟨after, y, rfl⟩
  · obtain ⟨rfl, hx⟩ := List.append_inj' hsplit rfl
    obtain rfl : e = x := by simpa using hx
    exact he
  · rw [List.concat_eq_append, ← List.cons_append, ← List.append_assoc] at hsplit
    obtain ⟨rfl, -⟩ := List.append_inj' hsplit rfl
    exact h before x after rfl

/-- The events of the list have the property, and create no variables. -/
def Quiet (P : Event → Prop) (events : List Event) : Prop := ∀ e ∈ events, P e ∧ created [e] = []

theorem Throughout.append {P : Nat → Event → Prop} {events added : List Event}
    (h : Throughout P events) (hadded : Quiet (P (created events).length) added) :
    Throughout P (events ++ added) ∧ created (events ++ added) = created events := by
  induction added generalizing events with
  | nil => simpa using h
  | cons e added ih =>
    obtain ⟨⟨he, hnew⟩, hadded⟩ := List.forall_mem_cons.mp hadded
    have hcreated : created (events ++ [e]) = created events := by
      rw [created_append, hnew, List.append_nil]
    have hmore := ih (h.concat he) (hcreated ▸ hadded)
    rwa [hcreated, List.append_assoc, List.singleton_append] at hmore

end Event

/-- A property of types that inference keeps.  It may depend on the number of variables created. -/
structure TypeInvariant where
  /-- The property of types. -/
  ty : Nat → Ty → Prop
  /-- The property of the schemes in scope. -/
  scheme : Nat → Scheme → Prop
  /-- The property of the constructors of patterns. -/
  con : Constructor → Prop
  ty_mono {m n : Nat} {t : Ty} (hmn : m ≤ n) (ht : ty m t) : ty n t
  scheme_mono {m n : Nat} {s : Scheme} (hmn : m ≤ n) (hs : scheme m s) : scheme n s
  var (n : Nat) : ty (n + 1) (.var (Name.ofNat n))
  prim (n : Nat) (value : Prim) : ty n value.ty
  string (n : Nat) : ty n .string
  void (n : Nat) : ty n .void
  fn {n : Nat} {args : List Ty} {result : Ty} (hne : args ≠ []) (hargs : ∀ t ∈ args, ty n t)
    (hresult : ty n result) : ty n (.fn args result)
  apply {n : Nat} {σ : Subst} {t : Ty} (hσ : ∀ x u, σ.get? x = some u → ty n u) (ht : ty n t) :
    ty n (t.apply σ)
  unify {n : Nat} {t u : Ty} {d : Subst} (hd : t.unify u = .ok d) (ht : ty n t) (hu : ty n u)
    {x : String} {v : Ty} (hx : d.get? x = some v) : ty n (.var x) ∧ ty n v
  unify_error {n : Nat} {t u : Ty} {e : TypeError} (he : t.unify u = .error e) (ht : ty n t) (hu : ty n u)
    {v : Ty} (hv : v ∈ e.types) : ty n v
  mono {n : Nat} {t : Ty} (ht : ty n t) : scheme n (.mono t)
  generalize {n : Nat} {t : Ty} (env : Env) (ht : ty n t) : scheme n (env.generalize t)
  scheme_apply {n : Nat} {σ : Subst} {s : Scheme} (hσ : ∀ x u, σ.get? x = some u → ty n u)
    (hs : scheme n s) : scheme n (s.apply σ)
  instantiate {n : Nat} {s : Scheme} (hs : scheme n s) :
    ty (n + s.vars.length) (s.body.apply (.fresh n s.vars))
  construct {c : Constructor} (hc : con c) (n : Nat) {t : Ty} (ht : t ∈ c.result :: c.args) :
    ty (n + c.free.length) (t.apply (.fresh n c.free))

namespace TypeInvariant

variable (T : TypeInvariant) {α β : Type} {m n n' : Nat}

/-! ## Environments and states -/

/-- The property holds of bound variables and bound types. -/
def Bindings (n : Nat) (σ : Subst) : Prop :=
  ∀ x u, σ.get? x = some u → T.ty n (.var x) ∧ T.ty n u

/-- The property holds of the schemes in a scope.  That of `return` is used without new variables, so it
holds of the type itself. -/
def Scoped (n : Nat) (Δ : Scope) : Prop :=
  ∀ name s, Δ.get? name = some s → T.scheme n s ∧ (name = "return" → T.ty n s.body)

/-- The property holds of the schemes and constructors of an environment. -/
structure Fits (n : Nat) (env : Env) : Prop where
  scope : T.Scoped n env.scope
  constructors : ∀ name c, env.constructors.get? name = some c → T.con c

/-- The property holds of all types in an event. -/
def Logged (n : Nat) : Event → Prop
  | .infer _ t => T.ty n t
  | .unify step => T.ty n step.one ∧ T.ty n step.two ∧ T.Bindings n step.delta
  | .scope Δ => ∀ name s, Δ.get? name = some s → T.scheme n s
  | .push _ line => ∀ t, .ty t ∈ line → T.ty n t
  | .newVar _ | .pop | .pause _ => True

/-- The property holds of all types in an error. -/
def Reported (n : Nat) (e : TypeError) : Prop := ∀ t ∈ e.types, T.ty n t

/-- The property holds of all bindings, and of all events at their time. -/
structure State (ctx : Context) : Prop where
  count : (Event.created ctx.events.toList).length = ctx.nextId
  bindings : T.Bindings ctx.nextId ctx.subst
  log : Event.Throughout T.Logged ctx.events.toList

variable {T}

theorem Bindings.mono {σ : Subst} (h : T.Bindings m σ) (hmn : m ≤ n) : T.Bindings n σ :=
  fun x u hx => ⟨T.ty_mono hmn (h x u hx).1, T.ty_mono hmn (h x u hx).2⟩

theorem Bindings.apply {σ : Subst} (h : T.Bindings n σ) {t : Ty} (ht : T.ty n t) :
    T.ty n (t.apply σ) :=
  T.apply (fun x u hx => (h x u hx).2) ht

theorem Bindings.compose {d σ s : Subst} (hd : T.Bindings n d) (hσ : T.Bindings n σ)
    (hs : d.compose σ = .ok s) : T.Bindings n s := by
  intro x u hx
  rcases Subst.get?_compose_cases hs hx with hx | ⟨v, hv, rfl⟩
  · exact hd x u hx
  · exact ⟨(hσ x v hv).1, hd.apply (hσ x v hv).2⟩

namespace Scoped

variable {Δ Δ' : Scope}

theorem empty : T.Scoped n .empty := fun _ _ h => by simp at h

theorem mono (h : T.Scoped m Δ) (hmn : m ≤ n) : T.Scoped n Δ := fun name s hs =>
  ⟨T.scheme_mono hmn (h name s hs).1, fun hname => T.ty_mono hmn ((h name s hs).2 hname)⟩

theorem singleton {name : String} {s : Scheme} (hs : T.scheme n s) (hbody : T.ty n s.body) :
    T.Scoped n (.singleton name s) :=
  Scope.forall_singleton ⟨hs, fun _ => hbody⟩

theorem of_ty (name : String) {t : Ty} (ht : T.ty n t) : T.Scoped n (.singleton name (.mono t)) :=
  .singleton (T.mono ht) ht

theorem union (h : T.Scoped n Δ) (h' : T.Scoped n Δ') : T.Scoped n (Δ.union Δ') :=
  Scope.forall_union h h'

theorem apply (h : T.Scoped n Δ) {σ : Subst} (hσ : T.Bindings n σ) :
    T.Scoped n (Scope.apply σ Δ) := by
  refine Scope.forall_apply fun name s hs => ?_
  obtain ⟨hscheme, hreturn⟩ := h name s hs
  refine ⟨T.scheme_apply (fun x u hx => (hσ x u hx).2) hscheme, fun hname => ?_⟩
  refine T.apply (fun x u hx => ?_) (hreturn hname)
  rw [Dict.get?_without] at hx
  split at hx
  · cases hx
  · exact (hσ x u hx).2

end Scoped

namespace Fits

variable {env : Env} {Δ : Scope}

theorem mono (h : T.Fits m env) (hmn : m ≤ n) : T.Fits n env := ⟨h.scope.mono hmn, h.constructors⟩

theorem extend (h : T.Fits n env) (hΔ : T.Scoped n Δ) : T.Fits n (env.extend Δ) :=
  ⟨h.scope.union hΔ, h.constructors⟩

theorem apply (h : T.Fits n env) {σ : Subst} (hσ : T.Bindings n σ) : T.Fits n (env.apply σ) :=
  ⟨h.scope.apply hσ, h.constructors⟩

end Fits

namespace State

variable {ctx ctx' : Context}

theorem initial : T.State {} :=
  ⟨rfl, fun x u hx => by simp at hx, fun before e after hsplit => by simp at hsplit⟩

/-- Events that create no variables are logged. -/
theorem append (h : T.State ctx) (added : List Event)
    (hadded : Event.Quiet (T.Logged ctx.nextId) added)
    (hlog : ctx'.events.toList = ctx.events.toList ++ added) (hnext : ctx'.nextId = ctx.nextId)
    (hbindings : T.Bindings ctx.nextId ctx'.subst) : T.State ctx' := by
  obtain ⟨hthroughout, hcreated⟩ := h.log.append (h.count ▸ hadded)
  refine ⟨?_, hnext ▸ hbindings, hlog ▸ hthroughout⟩
  rw [hlog, hcreated, h.count, hnext]

theorem newVar (h : T.State ctx) (origin : Origin) :
    T.State (InferM.exec (InferM.freshVar origin) ctx).2 := by
  rw [InferM.exec_freshVar]
  refine ⟨?_, h.bindings.mono (Nat.le_succ _), ?_⟩
  · rw [Array.toList_push, Event.created_append, List.length_append, h.count]
    rfl
  · rw [Array.toList_push]
    exact h.log.concat trivial

end State

/-! ## Safe computations -/

open InferM

variable (T) in
/-- The computation, started with `n` variables, keeps the property whether it succeeds or fails, and if
it fails, then with an error that has the property.  If it succeeds, its result is as required, given the
number of variables by then. -/
def Safe (n : Nat) (m : InferM α) (Q : Nat → α → Prop) : Prop :=
  ∀ ctx : Context, T.State ctx → ctx.nextId = n →
    T.State (exec m ctx).2 ∧
      (n ≤ (exec m ctx).2.nextId ∧
        ∀ e, (exec m ctx).1 = .error e → T.Reported (exec m ctx).2.nextId e) ∧
      ∀ a, (exec m ctx).1 = .ok a → Q (exec m ctx).2.nextId a

variable {m : InferM α} {f : α → InferM β} {Q : Nat → α → Prop} {R : Nat → β → Prop}

namespace Safe

theorem pure {a : α} (ha : Q n a) : T.Safe n (pure a) Q := by
  rintro ctx h rfl
  exact ⟨h, ⟨Nat.le_refl _, nofun⟩, fun _ hok => by cases hok; exact ha⟩

/-- Inference itself reports no types. -/
theorem throw {e : TypeError} (he : e.types = []) : T.Safe n (throw e : InferM α) Q := by
  rintro ctx h rfl
  refine ⟨h, ⟨Nat.le_refl _, fun e' hfail t ht => ?_⟩, nofun⟩
  cases hfail
  rw [he] at ht
  cases ht

theorem bind (hm : T.Safe n m Q) (hf : ∀ n' a, n ≤ n' → Q n' a → T.Safe n' (f a) R) :
    T.Safe n (m >>= f) R := by
  rintro ctx h hn
  obtain ⟨hstate, ⟨hle, hfail⟩, hok⟩ := hm ctx h hn
  rw [exec_bind]
  rcases hr : exec m ctx with ⟨e | a, ctx'⟩
  all_goals rw [hr] at hstate hle hfail hok
  · exact ⟨hstate, ⟨hle, fun e' he' => hfail e' (by rw [Except.error.inj he'])⟩, nofun⟩
  · obtain ⟨hstate', ⟨hle', hfail'⟩, hok'⟩ := hf _ a hle (hok a rfl) ctx' hstate rfl
    exact ⟨hstate', ⟨Nat.le_trans hle hle', hfail'⟩, hok'⟩

theorem of_bind_pure (hm : T.Safe n (m >>= Pure.pure) Q) : T.Safe n m Q := by
  rwa [bind_pure] at hm

/-- A computation that fails on a condition, and otherwise goes on. -/
theorem guard {c : Prop} [Decidable c] {e : TypeError} (he : e.types = []) {next : Unit → InferM α}
    (h : ¬ c → T.Safe n (next ()) Q) :
    T.Safe n (if c then MonadExcept.throw e >>= next else next ()) Q := by
  split
  · exact .bind (Q := fun _ _ => False) (.throw he) fun _ _ _ hfalse => hfalse.elim
  · exact h ‹_›

/-! ### Elementary steps -/

section

variable {f : Unit → InferM β}

/-- A step that logs an event and creates no variable. -/
theorem of_emit {m : InferM Unit} (e : Event) (he : T.Logged n e) (hnew : Event.created [e] = [])
    (hm : ∀ ctx : Context, (exec m ctx).1 = .ok () ∧ (exec m ctx).2.events = ctx.events.push e ∧
      (exec m ctx).2.nextId = ctx.nextId ∧ (exec m ctx).2.subst = ctx.subst)
    (hf : T.Safe n (f ()) R) : T.Safe n (m >>= f) R := by
  refine .bind (Q := fun n' _ => n' = n) ?_ fun n' u _ hn' => hn' ▸ hf
  rintro ctx h rfl
  obtain ⟨hok, hlog, hnext, hsubst⟩ := hm ctx
  refine ⟨h.append [e] ?_ ?_ hnext (hsubst ▸ h.bindings), ⟨hnext.ge, ?_⟩, fun _ _ => hnext⟩
  · simpa [Event.Quiet] using ⟨he, hnew⟩
  · rw [hlog, Array.toList_push]
  · rw [hok]
    nofun

theorem infer {src : Region} {t : Ty} (ht : T.ty n t) (hf : T.Safe n (f ()) R) :
    T.Safe n (emit (.infer src t) >>= f) R :=
  .of_emit (.infer src t) ht rfl (fun _ => ⟨rfl, rfl, rfl, rfl⟩) hf

theorem pause {title : String} (hf : T.Safe n (f ()) R) : T.Safe n (InferM.pause title >>= f) R :=
  .of_emit (.pause title) trivial rfl (fun _ => ⟨rfl, rfl, rfl, rfl⟩) hf

theorem push {src : Region} {line : StackLine} (hline : ∀ t, .ty t ∈ line → T.ty n t)
    (hf : T.Safe n (f ()) R) : T.Safe n (InferM.push src line >>= f) R :=
  .of_emit (.push src line) hline rfl (fun _ => ⟨rfl, rfl, rfl, rfl⟩) hf

theorem pop (hf : T.Safe n (f ()) R) : T.Safe n (InferM.pop >>= f) R :=
  .of_emit .pop trivial rfl (fun _ => ⟨rfl, rfl, rfl, rfl⟩) hf

theorem replace {src : Region} {line : StackLine} (hline : ∀ t, .ty t ∈ line → T.ty n t)
    (hf : T.Safe n (f ()) R) : T.Safe n (InferM.replace src line >>= f) R := by
  rw [InferM.replace, bind_assoc]
  exact .pop (.push hline hf)

theorem noteScope {env : Env} (henv : T.Fits n env) (hf : T.Safe n (f ()) R) :
    T.Safe n (InferM.noteScope env >>= f) R := by
  refine .bind (Q := fun n' _ => n' = n) ?_ fun n' u _ hn' => hn' ▸ hf
  rintro ctx h rfl
  rcases exec_noteScope env ctx with hr | hr
  all_goals rw [hr]
  · exact ⟨h, ⟨Nat.le_refl _, nofun⟩, fun _ _ => rfl⟩
  · refine ⟨h.append _ ?_ Array.toList_push rfl h.bindings, ⟨Nat.le_refl _, nofun⟩, fun _ _ => rfl⟩
    refine List.forall_mem_singleton.mpr ⟨fun name s hs => ?_, rfl⟩
    exact (henv.scope.apply h.bindings name s hs).1

/-- Unification of types with the property binds variables with the property to such types. -/
theorem unify {one two : Ty} {src : Region} {oneName twoName : String} {message : Option String}
    (hone : T.ty n one) (htwo : T.ty n two) (hf : T.Safe n (f ()) R) :
    T.Safe n (InferM.unify one two src oneName twoName message >>= f) R := by
  refine .bind (Q := fun n' _ => n' = n) ?_ fun n' u _ hn' => hn' ▸ hf
  rintro ctx h rfl
  have hone := h.bindings.apply hone
  have htwo := h.bindings.apply htwo
  cases hu : (one.apply ctx.subst).unify (two.apply ctx.subst) with
  | error e =>
    rw [exec_unify_error hu]
    refine ⟨h, ⟨Nat.le_refl _, fun e' hfail v hv => ?_⟩, nofun⟩
    cases hfail
    exact T.unify_error hu hone htwo hv
  | ok d =>
    have hd : T.Bindings ctx.nextId d := fun x v hx => T.unify hu hone htwo hx
    cases hs : d.compose ctx.subst with
    | error e =>
      obtain ⟨name, rfl⟩ := Subst.compose_eq_error hs
      rw [exec_unify_overwrite hu hs]
      refine ⟨h.append _ ?_ Array.toList_push rfl h.bindings, ⟨Nat.le_refl _, fun e' hfail => ?_⟩, nofun⟩
      · exact List.forall_mem_singleton.mpr ⟨⟨hone, htwo, hd⟩, rfl⟩
      · cases hfail
        exact fun v hv => absurd hv List.not_mem_nil
    | ok σ =>
      have hσ := hd.compose h.bindings hs
      rw [exec_unify_ok hu hs]
      refine ⟨h.append _ ?_ Array.toList_appendList rfl hσ, ⟨Nat.le_refl _, nofun⟩, fun _ _ => rfl⟩
      -- The types are logged as they are, and once more with the new bindings if there are any.
      refine List.forall_mem_cons.mpr ⟨⟨⟨hone, htwo, hd⟩, rfl⟩, ?_⟩
      split
      · exact fun e he => absurd he List.not_mem_nil
      · exact List.forall_mem_singleton.mpr ⟨⟨hσ.apply hone, hσ.apply htwo, hd⟩, rfl⟩

end

theorem freshVar {f : Ty → InferM β} {origin : Origin}
    (hf : ∀ t, T.ty (n + 1) t → T.Safe (n + 1) (f t) R) :
    T.Safe n (InferM.freshVar origin >>= f) R := by
  refine .bind (Q := fun n' t => n' = n + 1 ∧ T.ty n' t) ?_ fun n' t _ ht => ?_
  · rintro ctx h rfl
    refine ⟨h.newVar origin, ⟨Nat.le_succ _, nofun⟩, fun t ht => ⟨rfl, ?_⟩⟩
    cases ht
    exact T.var _
  · obtain ⟨rfl, ht⟩ := ht
    exact hf t ht

/-! ### Reading the bindings -/

section

theorem subst {f : Subst → InferM β} (hf : ∀ σ, T.Bindings n σ → T.Safe n (f σ) R) :
    T.Safe n (InferM.subst >>= f) R := by
  refine .bind (Q := fun n' σ => n' = n ∧ T.Bindings n σ) ?_ fun n' σ _ hσ => hσ.1 ▸ hf σ hσ.2
  rintro ctx h rfl
  exact ⟨h, ⟨Nat.le_refl _, nofun⟩, fun σ hok => by cases hok; exact ⟨rfl, h.bindings⟩⟩

theorem resolve {f : Ty → InferM β} {t : Ty} (ht : T.ty n t)
    (hf : ∀ u, T.ty n u → T.Safe n (f u) R) : T.Safe n (InferM.resolve t >>= f) R := by
  rw [InferM.resolve, bind_assoc]
  exact .subst fun σ hσ => pure_bind _ f ▸ hf _ (hσ.apply ht)

theorem resolveAll {f : List Ty → InferM β} {ts : List Ty} (hts : ∀ t ∈ ts, T.ty n t)
    (hf : ∀ us : List Ty, us.length = ts.length → (∀ u ∈ us, T.ty n u) → T.Safe n (f us) R) :
    T.Safe n (InferM.resolveAll ts >>= f) R := by
  rw [InferM.resolveAll, bind_assoc]
  refine .subst fun σ hσ => pure_bind _ f ▸ hf _ (List.length_map ..) ?_
  exact List.forall_mem_map.mpr fun t ht => hσ.apply (hts t ht)

theorem resolveEnv {f : Env → InferM β} {env : Env} (henv : T.Fits n env)
    (hf : ∀ env', T.Fits n env' → T.Safe n (f env') R) : T.Safe n (InferM.resolveEnv env >>= f) R := by
  rw [InferM.resolveEnv, bind_assoc]
  exact .subst fun σ hσ => pure_bind _ f ▸ hf _ (henv.apply hσ)

theorem resolveScope {f : Scope → InferM β} {Δ : Scope} (hΔ : T.Scoped n Δ)
    (hf : ∀ Δ', T.Scoped n Δ' → T.Safe n (f Δ') R) :
    T.Safe n (InferM.resolveScope Δ >>= f) R := by
  rw [InferM.resolveScope, bind_assoc]
  exact .subst fun σ hσ => pure_bind _ f ▸ hf _ (hΔ.apply hσ)

end

/-! ### Instances -/

theorem freshSubst (vars : List String) :
    T.Safe n (InferM.freshSubst vars) fun n' τ => n' = n + vars.length ∧ τ = .fresh n vars := by
  have hmapM (vars : List String) (n : Nat) : T.Safe n
      (vars.mapM fun x => do return (x, ← InferM.freshVar (.free x))) fun _ _ => True := by
    induction vars generalizing n with
    | nil => exact .pure trivial
    | cons x vars ih =>
      rw [List.mapM_cons, bind_assoc]
      exact .freshVar fun t _ => .bind (.pure (Q := fun _ _ => True) trivial) fun _ _ _ _ =>
        .bind (ih _) fun _ _ _ _ => .pure trivial
  have hsafe : T.Safe n (InferM.freshSubst vars) fun _ _ => True :=
    .bind (hmapM vars n) fun _ _ _ _ => .pure trivial
  rintro ctx h rfl
  obtain ⟨hstate, hle, -⟩ := hsafe ctx h rfl
  refine ⟨hstate, hle, fun τ hτ => ?_⟩
  obtain ⟨ctx', hexec, hstore⟩ := exec_freshSubst vars ctx
  rw [hexec] at hτ ⊢
  exact ⟨congrArg Store.nextId hstore, (Except.ok.inj hτ).symm⟩

theorem instantiate {s : Scheme} (hs : T.scheme n s) : T.Safe n (InferM.instantiate s) T.ty := by
  refine .bind (freshSubst s.vars) fun n' τ _ hτ => ?_
  obtain ⟨rfl, rfl⟩ := hτ
  exact .pure (T.instantiate hs)

/-- Logging the scope before and the type after a computation. -/
theorem recording {env : Env} {src : Region} {find : InferM Ty} (henv : T.Fits n env)
    (hfind : T.Safe n find T.ty) : T.Safe n (InferM.recording env src find) T.ty :=
  .noteScope henv (.bind hfind fun _ _ _ ht => .infer ht (.pure ht))

end Safe

/-! ## Inference -/

mutual

theorem safe_pattern {n : Nat} {env : Env} (henv : T.Fits n env) (p : Pat) :
    T.Safe n (pattern env p) fun n' r => T.ty n' r.1 ∧ T.Scoped n' r.2 := by
  cases p with
  | any src =>
    rw [pattern]
    exact .freshVar fun t ht => .pure ⟨ht, .empty⟩
  | var name src =>
    rw [pattern]
    exact .freshVar fun t ht => .pure ⟨ht, .of_ty name ht⟩
  | prim value src =>
    rw [pattern]
    exact .pure ⟨T.prim _ value, .empty⟩
  | str value src =>
    rw [pattern]
    exact .pure ⟨T.string _, .empty⟩
  | con name args src =>
    rw [pattern]
    split
    · exact .throw rfl
    · next c hc =>
      -- The declared types get new variables for those of the constructor, and have the invariant
      -- with them.
      have hcon := henv.constructors name c hc
      refine .guard rfl fun _ => .bind (.freshSubst c.free) fun n₁ τ hle hτ => ?_
      obtain ⟨rfl, rfl⟩ := hτ
      have hresult := T.construct hcon n List.mem_cons_self
      have hargs : ∀ t ∈ c.args.map (Ty.apply (.fresh n c.free)), T.ty (n + c.free.length) t :=
        List.forall_mem_map.mpr fun t ht => T.construct hcon n (List.mem_cons_of_mem _ ht)
      refine .bind (safe_fields (henv.mono hle) hargs .empty args) fun n₂ scope hle hscope => ?_
      exact .resolve (T.ty_mono hle hresult) fun t ht => .pure ⟨ht, hscope⟩

theorem safe_fields {n : Nat} {env : Env} (henv : T.Fits n env) {declared : List Ty}
    {scope : Scope} (hdeclared : ∀ t ∈ declared, T.ty n t) (hscope : T.Scoped n scope) (ps : List Pat) :
    T.Safe n (fields env declared scope ps) T.Scoped := by
  cases ps with
  | nil =>
    rw [fields]
    exact .pure hscope
  | cons p ps =>
    cases declared with
    | nil =>
      rw [fields]
      exact .pure hscope
    | cons d ds =>
      rw [fields]
      obtain ⟨hd, hds⟩ := List.forall_mem_cons.mp hdeclared
      refine .bind (safe_pattern henv p) fun n₁ r hle hr => ?_
      obtain ⟨hty, hextra⟩ := hr
      refine .unify hty (T.ty_mono hle hd) ?_
      exact safe_fields (henv.mono hle) (fun t ht => T.ty_mono hle (hds t ht))
        ((hscope.mono hle).union hextra) ps

end

theorem safe_params {env : Env} {scope : Scope} {ps : List Pat} (henv : T.Fits n env)
    (hscope : T.Scoped n scope) :
    T.Safe n (params env scope ps) fun n' r =>
      r.1.length = ps.length ∧ (∀ t ∈ r.1, T.ty n' t) ∧ T.Scoped n' r.2 := by
  induction ps generalizing n scope with
  | nil => exact .pure ⟨rfl, fun t ht => absurd ht List.not_mem_nil, hscope⟩
  | cons p ps ih =>
    rw [params]
    refine .bind (safe_pattern henv p) fun n₁ r hle hr => ?_
    obtain ⟨hty, hextra⟩ := hr
    refine .resolveScope hextra fun extra hextra => .infer hty ?_
    refine .bind (ih (henv.mono hle) ((hscope.mono hle).union hextra)) fun n₂ r hle hr => ?_
    obtain ⟨hlength, htys, hscope⟩ := hr
    refine .pure ⟨congrArg Nat.succ hlength, ?_, hscope⟩
    exact List.forall_mem_cons.mpr ⟨T.ty_mono hle hty, htys⟩

variable (T) in
/-- Inference of an expression is safe, and finds a type with the property. -/
def SafeExpr (e : Expr) : Prop :=
  ∀ {n : Nat} {env : Env}, T.Fits n env → T.Safe n (expr env e) T.ty

variable (T) in
/-- Inference of a statement is safe, and finds a type and a scope with the property. -/
def SafeStmt (s : Stmt) : Prop :=
  ∀ {n : Nat} {env : Env}, T.Fits n env →
    T.Safe n (stmt env s) fun n' r => T.ty n' r.ty ∧ T.Scoped n' (r.scope.getD .empty)

section Parts

variable {env : Env} {es : List Expr}

theorem safe_embedded (hes : ∀ e ∈ es, T.SafeExpr e) (henv : T.Fits n env) :
    T.Safe n (embedded env es) fun _ _ => True := by
  induction es generalizing n with
  | nil =>
    rw [embedded]
    exact .pure trivial
  | cons e es ih =>
    obtain ⟨he, hes⟩ := List.forall_mem_cons.mp hes
    rw [embedded]
    refine .resolveEnv henv fun env' henv' => .bind (he henv') fun n₁ t hle _ => ?_
    exact ih hes (henv.mono hle)

theorem safe_exprs (hes : ∀ e ∈ es, T.SafeExpr e) (henv : T.Fits n env) :
    T.Safe n (exprs env es) fun n' ts => ts.length = es.length ∧ ∀ t ∈ ts, T.ty n' t := by
  induction es generalizing n with
  | nil =>
    rw [exprs]
    exact .pure ⟨rfl, fun t ht => absurd ht List.not_mem_nil⟩
  | cons e es ih =>
    obtain ⟨he, hes⟩ := List.forall_mem_cons.mp hes
    rw [exprs]
    refine .resolveEnv henv fun env' henv' => .bind (he henv') fun n₁ t hle ht => ?_
    refine .bind (ih hes (henv.mono hle)) fun n₂ ts hle hts => ?_
    obtain ⟨hlength, hts⟩ := hts
    exact .pure ⟨congrArg Nat.succ hlength, List.forall_mem_cons.mpr ⟨T.ty_mono hle ht, hts⟩⟩

theorem safe_otherwise {no : Option Expr} (hno : ∀ e ∈ no, T.SafeExpr e) (henv : T.Fits n env) :
    T.Safe n (otherwise env no) T.ty := by
  cases no with
  | none =>
    rw [otherwise]
    exact .pure (T.void _)
  | some e =>
    rw [otherwise]
    exact .resolveEnv henv fun env' henv' => hno e rfl henv'

theorem safe_returned {value : Option Expr} (hvalue : ∀ e ∈ value, T.SafeExpr e)
    (henv : T.Fits n env) : T.Safe n (returned env value) T.ty := by
  cases value with
  | none =>
    rw [returned]
    exact .pure (T.void _)
  | some e =>
    rw [returned]
    exact hvalue e rfl henv

theorem safe_cases {targetTy result : Ty} {cs : List Case}
    (hcs : ∀ p e, Case.mk p e ∈ cs → T.SafeExpr e) (henv : T.Fits n env) (htarget : T.ty n targetTy)
    (hresult : T.ty n result) : T.Safe n (cases env targetTy result cs) fun _ _ => True := by
  induction cs generalizing n with
  | nil =>
    rw [cases]
    exact .pure trivial
  | cons first cs ih =>
    obtain ⟨p, e⟩ := first
    have he : T.SafeExpr e := hcs p e List.mem_cons_self
    have hcs : ∀ p' e', Case.mk p' e' ∈ cs → T.SafeExpr e' :=
      fun p' e' h => hcs p' e' (List.mem_cons_of_mem _ h)
    rw [cases]
    refine .bind (safe_pattern henv p) fun n₁ r hle₁ hr => ?_
    obtain ⟨hpat, hscope⟩ := hr
    refine .unify hpat (T.ty_mono hle₁ htarget) (.resolveScope hscope fun scope hscope => ?_)
    refine .resolveEnv (henv.mono hle₁) fun env' henv' => ?_
    refine .bind (he (henv'.extend hscope)) fun n₂ bodyTy hle₂ hbody => ?_
    have hle := Nat.le_trans hle₁ hle₂
    refine .resolve (T.ty_mono hle hresult) fun result' hresult' => .unify hresult' hbody ?_
    exact ih hcs (henv.mono hle) (T.ty_mono hle htarget) (T.ty_mono hle hresult)

theorem safe_stmts {scope : Scope} {last : Ty} {ss : List Stmt} (hss : ∀ s ∈ ss, T.SafeStmt s)
    (henv : T.Fits n env) (hscope : T.Scoped n scope) (hlast : T.ty n last) :
    T.Safe n (stmts env scope last ss) T.ty := by
  induction ss generalizing n scope last with
  | nil =>
    rw [stmts]
    exact .of_bind_pure (.resolve hlast fun t ht => .pure ht)
  | cons s ss ih =>
    obtain ⟨hs, hss⟩ := List.forall_mem_cons.mp hss
    rw [stmts]
    refine .resolveEnv henv fun env' henv' => .resolveScope hscope fun scope' hscope' => ?_
    refine .bind (hs (henv'.extend hscope')) fun n₁ r hle hr => ?_
    exact ih hss (henv.mono hle) ((hscope.mono hle).union hr.2) hr.1

end Parts

/-! ### Expressions -/

theorem safe_lambda {args : List Pat} {body : Expr} {src : Region} (hbody : T.SafeExpr body) :
    T.SafeExpr (.lambda args body src) := by
  intro n env henv
  rw [expr]
  refine .recording henv (.guard rfl fun hargs => .freshVar fun ret hret => ?_)
  have henv := henv.mono (Nat.le_succ n)
  refine .push (by simp [lambdaLine, hole]) (.pause ?_)
  refine .bind (safe_params henv (.of_ty "return" hret)) fun n₁ r hle₁ hr => ?_
  obtain ⟨hlength, htys, hscope⟩ := hr
  have hne {ts : List Ty} (h : ts.length = r.1.length) : ts ≠ [] := by
    rintro rfl
    rw [hlength] at h
    simp [List.eq_nil_of_length_eq_zero h.symm] at hargs
  refine .resolveAll htys fun tys₁ _ htys₁ => .replace ?_ (.pause ?_)
  · simpa [lambdaLine, active] using htys₁
  refine .bind (hbody ((henv.mono hle₁).extend hscope)) fun n₂ bodyTy hle₂ hbodyTy => ?_
  refine .resolve (T.ty_mono (Nat.le_trans hle₁ hle₂) hret) fun ret' hret' => .unify hbodyTy hret' ?_
  refine .resolveAll (fun t ht => T.ty_mono hle₂ (htys t ht)) fun tys₂ hlength₂ htys₂ => ?_
  refine .resolve hbodyTy fun bodyTy' hbodyTy' => ?_
  have hresult := T.fn (hne hlength₂) htys₂ hbodyTy'
  exact .replace (by simpa using hresult) (.pause (.pop (.pure hresult)))

theorem safe_call {target : Expr} {args : List Expr} {src : Region} (htarget : T.SafeExpr target)
    (hargs : ∀ e ∈ args, T.SafeExpr e) : T.SafeExpr (.call target args src) := by
  intro n env henv
  rw [expr]
  refine .recording henv (.guard rfl fun hne => .freshVar fun result hresult => .infer hresult ?_)
  refine .push (by simp [callLine, active, hole]) (.pause ?_)
  refine .bind (htarget (henv.mono (Nat.le_succ n))) fun n₁ targetTy hle₁ htargetTy => ?_
  refine .bind (safe_exprs hargs (henv.mono (Nat.le_of_succ_le hle₁))) fun n₂ argTys hle₂ hr => ?_
  obtain ⟨hlength, hargTys⟩ := hr
  have htargetTy := T.ty_mono hle₂ htargetTy
  have hresult := T.ty_mono (Nat.le_trans hle₁ hle₂) hresult
  have hargTys_ne : argTys ≠ [] := by
    rintro rfl
    simp [List.eq_nil_of_length_eq_zero hlength.symm] at hne
  refine .resolve htargetTy fun t ht => .resolveAll hargTys fun ts _ hts => .replace ?_ (.pause ?_)
  · simpa [callLine] using ⟨ht, hts⟩
  refine .resolve htargetTy fun t ht => .unify ht (T.fn hargTys_ne hargTys hresult) ?_
  refine .resolve hresult fun t ht => .replace (by simpa using ht) (.pause (.pop ?_))
  exact .of_bind_pure (.resolve hresult fun t ht => .pure ht)

theorem safe_ifElse {cond yes : Expr} {no : Option Expr} {src : Region} (hcond : T.SafeExpr cond)
    (hyes : T.SafeExpr yes) (hno : ∀ e ∈ no, T.SafeExpr e) :
    T.SafeExpr (.ifElse cond yes no src) := by
  intro n env henv
  have hbool (n : Nat) : T.ty n .bool := T.prim n (.bool true)
  rw [expr]
  refine .recording henv (.push (by simp [active, hole]) (.pause ?_))
  refine .bind (hcond henv) fun n₁ condTy hle₁ hcondTy => .unify hcondTy (hbool n₁) ?_
  refine .resolveEnv (henv.mono hle₁) fun env' henv' => ?_
  refine .bind (hyes henv') fun n₂ yesTy hle₂ hyesTy => ?_
  refine .bind (safe_otherwise hno (henv.mono (Nat.le_trans hle₁ hle₂)))
    fun n₃ noTy hle₃ hnoTy => ?_
  have hyesTy := T.ty_mono hle₃ hyesTy
  refine .unify hyesTy hnoTy (.resolve hyesTy fun t ht => .resolve hnoTy fun u hu => ?_)
  refine .replace (by simpa using ⟨hbool n₃, ht, hu⟩) (.pause (.pop ?_))
  exact .of_bind_pure (.resolve hyesTy fun t ht => .pure ht)

theorem safe_switch {target : Expr} {cs : List Case} {src : Region} (htarget : T.SafeExpr target)
    (hcs : ∀ p e, Case.mk p e ∈ cs → T.SafeExpr e) : T.SafeExpr (.switch target cs src) := by
  intro n env henv
  rw [expr]
  refine .recording henv (.bind (htarget henv) fun n₁ targetTy hle htargetTy => ?_)
  refine .freshVar fun result hresult => ?_
  have htargetTy := T.ty_mono (Nat.le_succ n₁) htargetTy
  have henv := henv.mono (Nat.le_succ_of_le hle)
  refine .resolve htargetTy fun t ht => .push (by simpa [active] using ht) (.pause ?_)
  refine .bind (safe_cases hcs henv htargetTy hresult) fun n₂ _ hle₂ _ => .pop ?_
  exact .of_bind_pure (.resolve (T.ty_mono hle₂ hresult) fun t ht => .pure ht)

/-! ### Statements -/

theorem safe_ret {value : Option Expr} {src : Region} (hvalue : ∀ e ∈ value, T.SafeExpr e) :
    T.SafeStmt (.ret value src) := by
  intro n env henv
  rw [stmt]
  refine .freshVar fun any hany => ?_
  have henv := henv.mono (Nat.le_succ n)
  split
  · exact .throw rfl
  · next expected hexpected =>
    have hbody := (henv.scope "return" expected hexpected).2 rfl
    refine .push (by simp [active]) (.pause ?_)
    refine .bind (safe_returned hvalue henv) fun n₁ found hle hfound => ?_
    refine .unify (T.ty_mono hle hbody) hfound (.resolve hfound fun t ht => ?_)
    refine .replace (by simpa using ht) (.pause (.pop (.pure ?_)))
    exact ⟨T.ty_mono hle hany, .empty⟩

theorem safe_letVar {name : String} {patSrc src : Region} {init : Expr} (hinit : T.SafeExpr init) :
    T.SafeStmt (.letBind (.var name patSrc) init src) := by
  intro n env henv
  rw [stmt]
  refine .push (by simp [letLine, hole]) (.pause (.replace (by simp [letLine, hole]) (.pause ?_)))
  refine .freshVar fun var hvar => .infer hvar (.push (by simpa using hvar) (.pause (.pop ?_)))
  refine .replace (by simpa [letLine, hole] using hvar) (.pause ?_)
  refine .replace (by simpa [letLine, active] using hvar) ?_
  have henv := henv.mono (Nat.le_succ n)
  refine .bind (hinit (henv.extend (.of_ty name hvar))) fun n₁ value hle hvalue => ?_
  have hvar := T.ty_mono hle hvar
  refine .resolve hvar fun t ht => .unify ht hvalue ?_
  refine .resolve hvar fun t ht => .resolve hvalue fun u hu => ?_
  refine .replace (by simpa [letLine] using ⟨ht, hu⟩) (.pause (.pop ?_))
  refine .resolve hvalue fun value' hvalue' => .resolveEnv (henv.mono hle) fun env' _ => .pure ?_
  refine ⟨T.void _, ?_⟩
  change T.Scoped _ (.singleton name (if init.isLambda then env'.generalize value' else .mono value'))
  split
  · exact .singleton (T.generalize env' hvalue') hvalue'
  · exact .of_ty name hvalue'

theorem safe_letPat {p : Pat} {src : Region} {init : Expr}
    (hp : ∀ name patSrc, p ≠ .var name patSrc) (hinit : T.SafeExpr init) :
    T.SafeStmt (.letBind p init src) := by
  intro n env henv
  rw [stmt]
  · refine .push (by simp [active]) (.pause ?_)
    refine .bind (safe_pattern henv p) fun n₁ r hle₁ hr => ?_
    obtain ⟨hpat, hscope⟩ := hr
    refine .bind (hinit (henv.mono hle₁)) fun n₂ value hle₂ hvalue => ?_
    refine .unify (T.ty_mono hle₂ hpat) hvalue (.pause (.pop ?_))
    exact .resolveScope (hscope.mono hle₂) fun scope hscope => .pure ⟨T.void _, hscope⟩
  · exact hp

theorem safe_forLoop {init : Stmt} {cond update body : Expr} {src : Region} (hinit : T.SafeStmt init)
    (hcond : T.SafeExpr cond) (hupdate : T.SafeExpr update) (hbody : T.SafeExpr body) :
    T.SafeStmt (.forLoop init cond update body src) := by
  intro n env henv
  rw [stmt]
  refine .push (by simp [active]) (.pause ?_)
  refine .bind (hinit henv) fun n₁ first hle₁ hfirst => ?_
  refine .resolveEnv (henv.mono hle₁) fun env₁ henv₁ => .resolveScope hfirst.2 fun scope hscope => ?_
  have henv₁ := henv₁.extend hscope
  refine .bind (hcond henv₁) fun n₂ condTy hle₂ hcondTy => .unify hcondTy (T.prim n₂ (.bool true)) ?_
  refine .resolveEnv (henv₁.mono hle₂) fun env₂ henv₂ => ?_
  refine .bind (hupdate henv₂) fun n₃ _ hle₃ _ => ?_
  refine .resolveEnv (henv₂.mono hle₃) fun env₃ henv₃ => .bind (hbody henv₃) fun n₄ _ _ _ => ?_
  exact .pop (.pure ⟨T.void _, .empty⟩)

/-- **Inference is safe**, for expressions and statements together. -/
theorem safe_program (T : TypeInvariant) : (∀ e, T.SafeExpr e) ∧ ∀ s, T.SafeStmt s := by
  refine Expr.induction ?block (fun _ _ _ _ => safe_ifElse) (fun _ _ _ => safe_switch) ?prim ?var ?str
    (fun _ _ _ => safe_lambda) (fun _ _ _ => safe_call) (fun _ _ _ _ _ => safe_forLoop) ?letBind ?expr
    (fun _ _ => safe_ret)
  case block =>
    intro ss src hss n env henv
    rw [expr]
    exact .recording henv (safe_stmts hss henv .empty (T.void _))
  case prim =>
    intro value src n env henv
    rw [expr]
    exact .recording henv (.pure (T.prim _ value))
  case var =>
    intro name src n env henv
    rw [expr]
    refine .recording henv ?_
    split
    · exact .throw rfl
    · next s hs => exact .instantiate (henv.scope name s hs).1
  case str =>
    intro value embeds src hembeds n env henv
    rw [expr]
    exact .recording henv (.bind (safe_embedded hembeds henv) fun _ _ _ _ => .pure (T.string _))
  case letBind =>
    intro p init src hinit
    by_cases hvar : ∃ name patSrc, p = .var name patSrc
    · obtain ⟨name, patSrc, rfl⟩ := hvar
      exact safe_letVar hinit
    · exact safe_letPat (fun name patSrc hp => hvar ⟨name, patSrc, hp⟩) hinit
  case expr =>
    intro value src hvalue n env henv
    rw [stmt]
    exact .bind (hvalue henv) fun _ _ _ ht => .pure ⟨ht, .empty⟩

end TypeInvariant
end TypeTrace
