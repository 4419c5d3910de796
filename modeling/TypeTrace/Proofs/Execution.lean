import TypeTrace.Proofs.Computation
import TypeTrace.Proofs.Supply

/-!
# What inference does to the bindings

The types that inference finds depend on two parts of its state: how many variables have been
created, and what they are bound to.  These are a *store*.  A computation *yields* a result and a
store if it ends with them from every state with the given store; by `Stepwise.exec_store` it is
enough that it does so from one such state, since no computation of inference looks at the rest.

## Main definitions

* `Store`, `Store.skip`, `Store.Unifies`: new variables and unification, on stores
* `InferM.Reaches`: a computation succeeds in a state, with a property of what it ends with
* `InferM.Yields`: a computation leads from a store to a result and a store

## Main results

* `InferM.Stepwise.exec_store`: inference reads the store and nothing else
* `InferM.yields_iff`: results can be computed in any state with the store
* `InferM.yields_unify`, `InferM.yields_instantiate`: unification and instantiation
-/

namespace TypeTrace

/-- What the types found by inference depend on: the number of variables, and the bindings. -/
@[ext]
structure Store where
  nextId : Nat
  subst : Subst

def Context.store (ctx : Context) : Store := ⟨ctx.nextId, ctx.subst⟩

namespace Store

/-- The name of the next variable. -/
def next (c : Store) : String := Name.ofNat c.nextId

/-- The store after `n` more variables have been created. -/
def skip (c : Store) (n : Nat) : Store := ⟨c.nextId + n, c.subst⟩

/-- The second store has the bindings of the first one, and those that make the types equal. -/
def Unifies (c : Store) (one two : Ty) (c' : Store) : Prop :=
  c'.nextId = c.nextId ∧ ∃ d : Subst, (one.apply c.subst).unify (two.apply c.subst) = .ok d ∧
    d.compose c.subst = .ok c'.subst

end Store

namespace InferM

variable {α β : Type}

/-! ## Successful runs -/

/-- The computation succeeds, with a result and a state as required. -/
def Reaches (m : InferM α) (ctx : Context) (Q : α → Context → Prop) : Prop :=
  ∃ a ctx', exec m ctx = (.ok a, ctx') ∧ Q a ctx'

variable {m : InferM α} {f : α → InferM β} {ctx : Context} {Q : α → Context → Prop}

theorem reaches_of_exec {a : α} {ctx' : Context} (h : exec m ctx = (.ok a, ctx')) :
    Reaches m ctx Q ↔ Q a ctx' := by
  simp [Reaches, h]

@[simp] theorem reaches_pure {a : α} : Reaches (pure a) ctx Q ↔ Q a ctx := reaches_of_exec rfl

@[simp] theorem reaches_throw {e : TypeError} : ¬ Reaches (throw e) ctx Q := by
  simp [Reaches]

@[simp] theorem reaches_bind {Q : β → Context → Prop} :
    Reaches (m >>= f) ctx Q ↔ Reaches m ctx fun a ctx' => Reaches (f a) ctx' Q := by
  rcases h : exec m ctx with ⟨e | a, ctx'⟩ <;> simp [Reaches, exec_bind, h]

@[simp] theorem reaches_ite {c : Prop} [Decidable c] {m' : InferM α} :
    Reaches (if c then m else m') ctx Q ↔ (c → Reaches m ctx Q) ∧ (¬ c → Reaches m' ctx Q) := by
  split <;> simp [*]

@[simp] theorem reaches_resolve {t : Ty} {Q : Ty → Context → Prop} :
    Reaches (resolve t) ctx Q ↔ Q (t.apply ctx.subst) ctx := reaches_of_exec rfl

@[simp] theorem reaches_resolveAll {ts : List Ty} {Q : List Ty → Context → Prop} :
    Reaches (resolveAll ts) ctx Q ↔ Q (ts.map (Ty.apply ctx.subst)) ctx := reaches_of_exec rfl

@[simp] theorem reaches_resolveEnv {env : Env} {Q : Env → Context → Prop} :
    Reaches (resolveEnv env) ctx Q ↔ Q (env.apply ctx.subst) ctx := reaches_of_exec rfl

@[simp] theorem reaches_resolveScope {scope : Scope} {Q : Scope → Context → Prop} :
    Reaches (resolveScope scope) ctx Q ↔ Q (Scope.apply ctx.subst scope) ctx := reaches_of_exec rfl

@[simp] theorem reaches_emit {e : Event} {Q : Unit → Context → Prop} :
    Reaches (emit e) ctx Q ↔ Q () { ctx with events := ctx.events.push e } := reaches_of_exec rfl

@[simp] theorem reaches_pause {title : String} {Q : Unit → Context → Prop} :
    Reaches (pause title) ctx Q ↔ Q () { ctx with events := ctx.events.push (.pause title) } :=
  reaches_of_exec rfl

@[simp] theorem reaches_push {src : Region} {line : StackLine} {Q : Unit → Context → Prop} :
    Reaches (push src line) ctx Q ↔
      Q () { ctx with stack := line :: ctx.stack, events := ctx.events.push (.push src line) } :=
  reaches_of_exec rfl

@[simp] theorem reaches_pop {Q : Unit → Context → Prop} :
    Reaches pop ctx Q ↔ Q () { ctx with stack := ctx.stack.tail, events := ctx.events.push .pop } :=
  reaches_of_exec rfl

@[simp] theorem reaches_replace {src : Region} {line : StackLine} {Q : Unit → Context → Prop} :
    Reaches (replace src line) ctx Q ↔
      Q () { ctx with
        stack := line :: ctx.stack.tail
        events := (ctx.events.push .pop).push (.push src line) } := by
  simp [replace]

@[simp] theorem reaches_freshVar {origin : Origin} {Q : Ty → Context → Prop} :
    Reaches (freshVar origin) ctx Q ↔ Q (.var ctx.store.next)
      { ctx with
        nextId := ctx.nextId + 1
        origins := ctx.origins.insert (Name.ofNat ctx.nextId) origin
        events := ctx.events.push (.newVar (Name.ofNat ctx.nextId)) } :=
  reaches_of_exec rfl

/-- The computation takes the first store to the second one, with the result. -/
def Yields (m : InferM α) (c : Store) (a : α) (c' : Store) : Prop :=
  ∃ ctx, ctx.store = c ∧ Reaches m ctx fun b ctx' => b = a ∧ ctx'.store = c'

theorem Reaches.yields (h : Reaches m ctx Q) :
    ∃ a ctx', Yields m ctx.store a ctx'.store ∧ Q a ctx' := by
  obtain ⟨a, ctx', hexec, hQ⟩ := h
  exact ⟨a, ctx', ⟨ctx, rfl, a, ctx', hexec, rfl, rfl⟩, hQ⟩

/-- Outcome and store do not depend on the log and the explanations. -/
theorem Stepwise.exec_store {n n' : Nat} (hm : Stepwise n n' m) {ctx ctx' : Context} (h : ctx.store = ctx'.store) :
    (exec m ctx).1 = (exec m ctx').1 ∧ (exec m ctx).2.store = (exec m ctx').2.store := by
  induction hm generalizing ctx ctx' with
  | pure a => exact ⟨rfl, h⟩
  | throw e he => exact ⟨rfl, h⟩
  | @bind _ _ _ _ _ m f hm hf ihm ihf =>
    obtain ⟨hout, hstore⟩ := ihm h
    rw [exec_bind, exec_bind]
    -- The two runs fail together or go on together, with the same result.
    rcases hr : exec m ctx with ⟨a | a, ctx₁⟩
    all_goals
      rcases hr' : exec m ctx' with ⟨b | b, ctx₁'⟩
      all_goals
        rw [hr, hr'] at hout hstore
        cases hout
    · exact ⟨rfl, hstore⟩
    · exact ihf a hstore
  | subst => exact ⟨congrArg (Except.ok ∘ Store.subst) h, h⟩
  | infer src t => exact ⟨rfl, h⟩
  | pause title => exact ⟨rfl, h⟩
  | freshVar origin =>
    refine ⟨congrArg (fun c : Store => Except.ok (Ty.var c.next)) h, ?_⟩
    exact congrArg (fun c : Store => c.skip 1) h
  | unify one two src oneName twoName message =>
    -- The types are brought up to date with the bindings of the store, which are the same.
    have hsubst : ctx.subst = ctx'.subst := congrArg Store.subst h
    cases hu : (one.apply ctx.subst).unify (two.apply ctx.subst) with
    | error e =>
      rw [exec_unify_error hu, exec_unify_error (hsubst ▸ hu)]
      exact ⟨rfl, h⟩
    | ok d =>
      cases hs : d.compose ctx.subst with
      | error e =>
        rw [exec_unify_overwrite hu hs, exec_unify_overwrite (hsubst ▸ hu) (hsubst ▸ hs)]
        exact ⟨rfl, h⟩
      | ok s =>
        rw [exec_unify_ok hu hs, exec_unify_ok (hsubst ▸ hu) (hsubst ▸ hs)]
        exact ⟨rfl, congrArg (fun c : Store => Store.mk c.nextId s) h⟩
  | push src line => exact ⟨rfl, h⟩
  | pop => exact ⟨rfl, h⟩
  | noteScope env =>
    -- A scope that is logged already is not logged again; the store does not tell.
    rcases exec_noteScope env ctx with hr | hr <;> rcases exec_noteScope env ctx' with hr' | hr'
    all_goals
      rw [hr, hr']
      exact ⟨rfl, h⟩

/-- A run from one state can be repeated from every state with the same store. -/
theorem Yields.exec_eq {a : α} {c c' : Store} (h : Yields m c a c') (hm : Stepwise 0 0 m)
    (hc : ctx.store = c) : ∃ ctx', exec m ctx = (.ok a, ctx') ∧ ctx'.store = c' := by
  obtain ⟨ctx₀, h₀, a, ctx₀', hexec, rfl, hc'⟩ := h
  obtain ⟨hout, hstore⟩ := hm.exec_store (h₀.trans hc.symm)
  rw [hexec] at hout hstore
  exact ⟨(exec m ctx).2, Prod.ext hout.symm rfl, by rw [← hstore, hc']⟩

theorem Yields.reaches {a : α} {c c' : Store} (h : Yields m c a c') (hm : Stepwise 0 0 m)
    (hc : ctx.store = c) (hQ : ∀ ctx', ctx'.store = c' → Q a ctx') : Reaches m ctx Q := by
  obtain ⟨ctx', hexec, hctx'⟩ := h.exec_eq hm hc
  exact ⟨a, ctx', hexec, hQ ctx' hctx'⟩

theorem Yields.intro {a : α} {c c' : Store}
    (h : ∀ ctx, ctx.store = c → Reaches m ctx fun b ctx' => b = a ∧ ctx'.store = c') :
    Yields m c a c' :=
  ⟨{ nextId := c.nextId, subst := c.subst }, rfl, h _ rfl⟩

/-- What a computation yields is what it reaches from any state with the store. -/
theorem yields_iff {a : α} {c c' : Store} {P : Prop}
    (h : ∀ ctx, ctx.store = c → (Reaches m ctx (fun b ctx' => b = a ∧ ctx'.store = c') ↔ P)) :
    Yields m c a c' ↔ P :=
  ⟨fun ⟨ctx, hctx, hr⟩ => (h ctx hctx).mp hr, fun hP => .intro fun ctx hctx => (h ctx hctx).mpr hP⟩

/-! ## Variables, unification and recording -/

variable {env : Env} {c c' : Store}

theorem yields_pure {a b : α} : Yields (pure a) c b c' ↔ b = a ∧ c' = c := by
  constructor
  · rintro ⟨ctx, rfl, h⟩
    obtain ⟨rfl, rfl⟩ := reaches_pure.mp h
    exact ⟨rfl, rfl⟩
  · rintro ⟨rfl, rfl⟩
    exact .intro fun ctx hctx => reaches_pure.mpr ⟨rfl, hctx⟩

theorem yields_unify {one two : Ty} {src : Region} {oneName twoName : String}
    {message : Option String} {u : Unit} :
    Yields (unify one two src oneName twoName message) c u c' ↔ c.Unifies one two c' := by
  constructor
  · rintro ⟨ctx, rfl, _, ctx', h, -, rfl⟩
    cases hu : (one.apply ctx.subst).unify (two.apply ctx.subst) with
    | error e =>
      rw [exec_unify_error hu] at h
      cases h
    | ok d =>
      cases hs : d.compose ctx.subst with
      | error e =>
        rw [exec_unify_overwrite hu hs] at h
        cases h
      | ok s =>
        rw [exec_unify_ok hu hs] at h
        cases h
        exact ⟨rfl, d, hu, hs⟩
  · rintro ⟨hn, d, hu, hs⟩
    refine .intro fun ctx hctx => ?_
    subst hctx
    exact ⟨(), _, exec_unify_ok hu hs, rfl, Store.ext hn.symm rfl⟩

theorem Reaches.unifies {one two : Ty} {src : Region} {oneName twoName : String}
    {message : Option String} {Q : Unit → Context → Prop}
    (h : Reaches (unify one two src oneName twoName message) ctx Q) :
    ∃ ctx', ctx.store.Unifies one two ctx'.store ∧ Q () ctx' := by
  obtain ⟨_, ctx', hy, hQ⟩ := h.yields
  exact ⟨ctx', yields_unify.mp hy, hQ⟩

end InferM

theorem Store.Unifies.reaches {one two : Ty} {src : Region} {oneName twoName : String}
    {message : Option String} {ctx : Context} {c c' : Store} {Q : Unit → Context → Prop}
    (h : c.Unifies one two c') (hc : ctx.store = c) (hQ : ∀ ctx', ctx'.store = c' → Q () ctx') :
    InferM.Reaches (InferM.unify one two src oneName twoName message) ctx Q :=
  InferM.Yields.reaches (a := ()) (InferM.yields_unify.mpr h) (.unify ..) hc hQ

namespace InferM

variable {env : Env} {c c' : Store}

theorem exec_freshSubst (vars : List String) (ctx : Context) :
    ∃ ctx', exec (freshSubst vars) ctx = (.ok (.fresh ctx.nextId vars), ctx') ∧
      ctx'.store = ctx.store.skip vars.length := by
  have hmapM : ∀ ctx : Context, ∃ ctx',
      exec (vars.mapM fun x => do return (x, ← freshVar (.free x))) ctx =
        (.ok ((vars.zipIdx ctx.nextId).map fun e => (e.1, .var (Name.ofNat e.2))), ctx') ∧
      ctx'.store = ctx.store.skip vars.length := by
    -- Induction on the variables, for every state: the numbering goes on where it stands.
    induction vars with
    | nil => exact fun ctx => ⟨ctx, rfl, rfl⟩
    | cons x vars ih =>
      intro ctx
      obtain ⟨ctx', h, hstore⟩ := ih (exec (freshVar (.free x)) ctx).2
      refine ⟨ctx', ?_, ?_⟩
      · rw [exec_freshVar] at h
        simp only [List.mapM_cons, exec_bind, exec_freshVar, exec_pure, h, List.zipIdx_cons,
          List.map_cons]
      · rw [hstore]
        simp [Context.store, Store.skip, Nat.add_assoc, Nat.add_comm 1]
  obtain ⟨ctx', h, hstore⟩ := hmapM ctx
  exact ⟨ctx', by simp only [freshSubst, exec_bind, h, exec_pure, Subst.fresh], hstore⟩

theorem yields_freshSubst {vars : List String} {τ : Subst} :
    Yields (freshSubst vars) c τ c' ↔ τ = .fresh c.nextId vars ∧ c' = c.skip vars.length := by
  constructor
  · rintro ⟨ctx, rfl, _, ctx₁, h, rfl, rfl⟩
    obtain ⟨ctx', h', hstore⟩ := exec_freshSubst vars ctx
    rw [h] at h'
    cases h'
    exact ⟨rfl, hstore⟩
  · rintro ⟨rfl, rfl⟩
    refine .intro fun ctx hctx => ?_
    subst hctx
    obtain ⟨ctx', h, hstore⟩ := exec_freshSubst vars ctx
    exact ⟨_, ctx', h, rfl, hstore⟩

theorem yields_instantiate {s : Scheme} {t : Ty} :
    Yields (instantiate s) c t c' ↔
      t = s.body.apply (.fresh c.nextId s.vars) ∧ c' = c.skip s.vars.length := by
  constructor
  · rintro ⟨ctx, rfl, h⟩
    simp only [instantiate, reaches_bind, reaches_pure] at h
    obtain ⟨τ, ctx₁, hτ, rfl, rfl⟩ := h.yields
    obtain ⟨rfl, hstore⟩ := yields_freshSubst.mp hτ
    exact ⟨rfl, hstore⟩
  · rintro ⟨rfl, rfl⟩
    refine .intro fun ctx hctx => ?_
    subst hctx
    simp only [instantiate, reaches_bind, reaches_pure]
    exact (yields_freshSubst.mpr ⟨rfl, rfl⟩).reaches (.freshSubst _) rfl
      fun ctx' hctx' => ⟨rfl, hctx'⟩

/-- Recording adds to the log only. -/
theorem yields_recording {src : Region} {find : InferM Ty} {t : Ty} {P : Prop}
    (h : ∀ ctx, ctx.store = c → (Reaches find ctx (fun u ctx' => u = t ∧ ctx'.store = c') ↔ P)) :
    Yields (recording env src find) c t c' ↔ P := by
  refine yields_iff fun ctx hctx => ?_
  simp only [recording, reaches_bind, reaches_emit, reaches_pure]
  rcases exec_noteScope env ctx with hr | hr
  all_goals
    rw [reaches_of_exec hr]
    exact h _ hctx

end InferM
end TypeTrace
