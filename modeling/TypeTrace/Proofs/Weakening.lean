import TypeTrace.Proofs.Computation
import TypeTrace.Proofs.Constructs
import TypeTrace.Proofs.Instance

/-!
# Bindings that a program does not use

An environment is looked at in three ways: names are looked up in it, its free variables hold
generalisation back, and its scope is compared with the one last logged.  Bindings under names that a
program does not have, to schemes without free variables, matter for none of them.  They are not found,
they hold nothing back, and no substitution changes them, so that two scopes which contain them are equal
exactly if they are equal without them.  Hence inference in the larger environment goes through the same
steps, and its log differs in the scopes it shows only.

The proof runs both inferences side by side.  All scopes that come up, those of the environments and the
one that was logged last, bind none of the names of the added bindings; this is the invariant.

## Main definitions

* `Construct.Avoids`: no variable, in expressions or in patterns, has the name of an added binding
* `Event.widen`, `Trace.widen`: a log with the added bindings in every scope it shows
* `InferM.Agrees`: two computations that do the same but for the added bindings

## Main results

* `InferM.agrees_program`: expressions and statements are inferred alike with and without the bindings
* `Infer.program_extend`: unused closed bindings show in the scopes of the log and nowhere else
-/

namespace TypeTrace

/-! ## Closed bindings -/

/-- A scheme without free variables is the same under every substitution. -/
theorem Scheme.apply_of_closed {s : Scheme} (h : s.free = []) (σ : Subst) : s.apply σ = s := by
  obtain ⟨vars, body⟩ := s
  have hbody : body.apply (σ.without vars) = body := by
    rw [Ty.apply_eq_assign]
    refine Ty.assign_eq_self fun x hx => ?_
    have hvar : x ∈ vars := by
      by_contra hvar
      have hfree : x ∈ Scheme.free ⟨vars, body⟩ := mem_free.mpr ⟨hx, hvar⟩
      rw [h] at hfree
      cases hfree
    rw [assignment_without, if_pos hvar]
  rw [apply, hbody]

namespace Scope

variable {a b extra : Scope} {name : String}

/-- No scheme of the scope has a free variable. -/
def Closed (scope : Scope) : Prop := ∀ name s, scope.get? name = some s → s.free = []

theorem Closed.apply_eq (h : Closed extra) (σ : Subst) : Scope.apply σ extra = extra := by
  refine Dict.ext_get? fun name => ?_
  rw [Scope.apply, Dict.get?_map]
  cases hname : extra.get? name with
  | none => rfl
  | some s => exact congrArg some (Scheme.apply_of_closed (h name s hname) σ)

/-- The scope binds no name that `extra` binds. -/
def Lacks (extra scope : Scope) : Prop := ∀ name s, extra.get? name = some s → scope.get? name = none

namespace Lacks

theorem empty : Lacks extra .empty := fun _ _ _ => rfl

theorem singleton (hname : extra.get? name = none) (s : Scheme) : Lacks extra (.singleton name s) := by
  intro name' s' hs'
  rw [Dict.get?_singleton, if_neg]
  intro heq
  rw [Std.LawfulEqOrd.eq_of_compare heq, hname] at hs'
  cases hs'

theorem union (ha : Lacks extra a) (hb : Lacks extra b) : Lacks extra (a.union b) := by
  intro name s hs
  rw [Dict.get?_union, ha name s hs, hb name s hs, Option.or_none]

theorem apply (ha : Lacks extra a) (σ : Subst) : Lacks extra (Scope.apply σ a) := by
  intro name s hs
  rw [Scope.apply, Dict.get?_map, ha name s hs, Option.map_none]

/-- Bindings under other names may be added before or after. -/
theorem union_comm (hb : Lacks extra b) (a : Scope) :
    (a.union extra).union b = (a.union b).union extra := by
  refine Dict.ext_get? fun name => ?_
  simp only [Dict.get?_union]
  cases hname : extra.get? name with
  | none => rw [Option.none_or, Option.none_or]
  | some s => simp only [hb name s hname, Option.none_or, Option.some_or]

/-- Scopes that are equal with the added bindings are equal without. -/
theorem union_inj (ha : Lacks extra a) (hb : Lacks extra b) :
    a.union extra = b.union extra ↔ a = b := by
  refine ⟨fun h => Dict.ext_get? fun name => ?_, fun h => h ▸ rfl⟩
  have hname := congrArg (fun scope : Scope => scope.get? name) h
  simp only [Dict.get?_union] at hname
  cases hs : extra.get? name with
  | none => simpa [hs] using hname
  | some s => rw [ha name s hs, hb name s hs]

end Lacks

theorem Closed.apply_union (h : Closed extra) (σ : Subst) (a : Scope) :
    Scope.apply σ (a.union extra) = (Scope.apply σ a).union extra := by
  rw [Scope.apply_union, h.apply_eq]

end Scope

namespace Env

variable {env : Env} {extra Δ : Scope} {name : String}

@[simp] theorem constructors_extend : (env.extend extra).constructors = env.constructors := rfl

theorem apply_extend_of_closed (h : Scope.Closed extra) (σ : Subst) :
    (env.extend extra).apply σ = (env.apply σ).extend extra := by
  rw [apply_extend, h.apply_eq]

theorem extend_comm (hΔ : Scope.Lacks extra Δ) :
    (env.extend extra).extend Δ = (env.extend Δ).extend extra := by
  simp only [extend, hΔ.union_comm]

theorem lookup_extend_of_none (h : extra.get? name = none) :
    (env.extend extra).lookup name = env.lookup name := by
  rw [lookup_extend, h, Option.none_or]

/-- Closed bindings under new names hold nothing back from generalisation. -/
theorem generalize_extend (hclosed : Scope.Closed extra) (henv : Scope.Lacks extra env.scope) (t : Ty) :
    (env.extend extra).generalize t = env.generalize t := by
  have hfree (x : String) : x ∈ (env.extend extra).free ↔ x ∈ env.free := by
    rw [mem_free, mem_free]
    constructor
    · rintro ⟨name, s, hs, hx⟩
      rw [lookup_extend, Option.or_eq_some_iff] at hs
      rcases hs with hs | ⟨-, hs⟩
      · rw [hclosed name s hs] at hx
        cases hx
      · exact ⟨name, s, hs, hx⟩
    · rintro ⟨name, s, hs, hx⟩
      refine ⟨name, s, ?_, hx⟩
      rw [lookup_extend_of_none, hs]
      by_contra hsome
      obtain ⟨s', hs'⟩ := Option.ne_none_iff_exists'.mp hsome
      cases hs.symm.trans (henv name s' hs')
  have hvars : (t.free.filter fun x => !(env.extend extra).free.contains x) =
      t.free.filter fun x => !env.free.contains x :=
    List.filter_congr fun x _ => by simp [hfree]
  simp only [generalize, hvars]

end Env

/-! ## Names that a program has -/

/-- The name of a variable, in an expression or in a pattern. -/
def Construct.varName? : Construct → Option String
  | expr (.var name _) => some name
  | pat (.var name _) => some name
  | _ => none

/-- No variable in the construct has the name of a binding of `extra`. -/
def Construct.Avoids (extra : Scope) (t : Construct) : Prop :=
  t.All fun part => ∀ name ∈ part.varName?, extra.get? name = none

theorem Construct.Avoids.child {extra : Scope} {t part : Construct} (h : t.Avoids extra)
    (hpart : part ∈ t.children) : part.Avoids extra :=
  (Construct.all_iff.mp h).2 part hpart

theorem Construct.Avoids.get?_eq_none {extra : Scope} {t : Construct} (h : t.Avoids extra) {name : String}
    (hname : t.varName? = some name) : extra.get? name = none :=
  (Construct.all_iff.mp h).1 name hname

/-! ## Logs with more bindings -/

/-- The event with the added bindings in the scope that it shows, if it shows one. -/
def Event.widen (extra : Scope) : Event → Event
  | .scope shown => .scope (shown.union extra)
  | e => e

theorem Event.widen_eq_self {extra : Scope} {e : Event} (h : ∀ scope, e ≠ .scope scope) :
    e.widen extra = e := by
  cases e with
  | scope shown => exact absurd rfl (h shown)
  | infer | unify | newVar | push | pop | pause => rfl

theorem Event.map_widen_eq_self {extra : Scope} {added : List Event}
    (h : ∀ e ∈ added, ∀ scope, e ≠ .scope scope) : added.map (Event.widen extra) = added :=
  (List.map_congr_left fun e he => widen_eq_self (h e he)).trans (List.map_id added)

/-- The trace with the added bindings in every scope that it shows. -/
def Trace.widen (extra : Scope) (trace : Trace) : Trace :=
  { trace with events := trace.events.map (Event.widen extra) }

/-- No scope that the trace shows binds a name that `extra` binds. -/
def Trace.Lacks (extra : Scope) (trace : Trace) : Prop :=
  ∀ scope, .scope scope ∈ trace.events → Scope.Lacks extra scope

namespace Context

variable {extra : Scope} {ctx : Context} {e : Event}

/-- The state with the added bindings in every scope it keeps. -/
def widen (extra : Scope) (ctx : Context) : Context :=
  { ctx with
    events := ctx.events.map (Event.widen extra)
    latestScope := ctx.latestScope.map fun scope => scope.union extra }

/-- No scope in the state binds a name that `extra` binds. -/
structure Lacks (extra : Scope) (ctx : Context) : Prop where
  latest : ∀ scope ∈ ctx.latestScope, Scope.Lacks extra scope
  events : ∀ scope, .scope scope ∈ ctx.events → Scope.Lacks extra scope

theorem lacks_initial (extra : Scope) : Lacks extra {} where
  latest _ h := by cases h
  events _ h := by cases h; contradiction

@[simp] theorem subst_widen : (ctx.widen extra).subst = ctx.subst := rfl

/-- Logging events that show no scope adds no scope to the state. -/
theorem Lacks.of_append {ctx' : Context} {added : List Event} (h : ctx.Lacks extra)
    (hadded : ∀ e ∈ added, ∀ scope, e ≠ .scope scope) (hlatest : ctx'.latestScope = ctx.latestScope)
    (hevents : ctx'.events.toList = ctx.events.toList ++ added) : ctx'.Lacks extra := by
  refine ⟨fun scope hscope => h.latest scope (hlatest ▸ hscope), fun scope hscope => ?_⟩
  rw [← Array.mem_toList_iff, hevents, List.mem_append] at hscope
  rcases hscope with hscope | hscope
  · exact h.events scope (Array.mem_toList_iff.mp hscope)
  · exact absurd rfl (hadded _ hscope scope)

theorem Lacks.of_push {ctx' : Context} (h : ctx.Lacks extra) (he : ∀ scope, e ≠ .scope scope)
    (hlatest : ctx'.latestScope = ctx.latestScope) (hevents : ctx'.events = ctx.events.push e) :
    ctx'.Lacks extra :=
  h.of_append (List.forall_mem_singleton.mpr he) hlatest (by rw [hevents, Array.toList_push])

end Context

/-! ## Two runs side by side -/

namespace InferM

variable {α β : Type} {extra : Scope} {R : α → α → Prop} {S : β → β → Prop}

/-- The runs end alike: both with one error or both with related results, and in states that differ by
the added bindings. -/
inductive Ends (extra : Scope) (R : α → α → Prop) :
    Except TypeError α × Context → Except TypeError α × Context → Prop
  | ok {a a' : α} {ctx ctx' : Context} (hR : R a a') (hctx : ctx.Lacks extra)
    (hctx' : ctx' = ctx.widen extra) : Ends extra R (.ok a, ctx) (.ok a', ctx')
  | error {e : TypeError} {ctx ctx' : Context} (hctx : ctx.Lacks extra)
    (hctx' : ctx' = ctx.widen extra) : Ends extra R (.error e, ctx) (.error e, ctx')

/-- From states that differ by the added bindings, the computations end alike. -/
def Agrees (extra : Scope) (R : α → α → Prop) (m m' : InferM α) : Prop :=
  ∀ ctx, ctx.Lacks extra → Ends extra R (exec m ctx) (exec m' (ctx.widen extra))

/-- Both results are the same, and have the property. -/
def Both (P : α → Prop) (a a' : α) : Prop := a' = a ∧ P a

namespace Agrees

variable {m m' : InferM α} {f f' : α → InferM β}

theorem pure {a a' : α} (h : R a a') : Agrees extra R (pure a) (pure a') :=
  fun _ hctx => .ok h hctx rfl

theorem throw {e : TypeError} : Agrees extra R (throw e) (throw e) := fun _ hctx => .error hctx rfl

theorem bind (h : Agrees extra R m m') (hf : ∀ a a', R a a' → Agrees extra S (f a) (f' a')) :
    Agrees extra S (m >>= f) (m' >>= f') := by
  intro ctx hctx
  have hends := h ctx hctx
  rw [exec_bind, exec_bind]
  generalize exec m ctx = x at hends ⊢
  generalize exec m' (ctx.widen extra) = x' at hends ⊢
  cases hends with
  | ok hR hctx hctx' =>
    subst hctx'
    exact hf _ _ hR _ hctx
  | error hctx hctx' => exact .error hctx hctx'

/-- Go on with one result in both runs. -/
theorem next (h : Agrees extra Eq m m') (hf : ∀ a, Agrees extra S (f a) (f' a)) :
    Agrees extra S (m >>= f) (m' >>= f') := by
  refine h.bind fun a a' ha => ?_
  rw [ha]
  exact hf a'

/-- Go on with one result in both runs, and what is known of it. -/
theorem keep {P : α → Prop} (h : Agrees extra (Both P) m m')
    (hf : ∀ a, P a → Agrees extra S (f a) (f' a)) : Agrees extra S (m >>= f) (m' >>= f') := by
  refine h.bind fun a a' ha => ?_
  rw [ha.1]
  exact hf a ha.2

/-- Both fail on a condition, and otherwise go on. -/
theorem guard {c : Prop} [Decidable c] {e : TypeError} {g g' : Unit → InferM α}
    (h : Agrees extra R (g ()) (g' ())) :
    Agrees extra R (if c then MonadExcept.throw e >>= g else g ())
      (if c then MonadExcept.throw e >>= g' else g' ()) := by
  split
  · exact next throw fun _ => h
  · exact h

/-! ### Elementary steps -/

theorem emit {e : Event} (he : ∀ scope, e ≠ .scope scope) : Agrees extra Eq (emit e) (emit e) := by
  intro ctx hctx
  rw [exec_emit, exec_emit]
  exact .ok rfl (hctx.of_push he rfl rfl) (by simp [Context.widen, Event.widen_eq_self he])

theorem infer {src : Region} {t : Ty} :
    Agrees extra Eq (InferM.emit (.infer src t)) (InferM.emit (.infer src t)) :=
  emit (by simp)

theorem pause {title : String} : Agrees extra Eq (pause title) (pause title) := emit (by simp)

theorem freshVar {origin : Origin} : Agrees extra Eq (freshVar origin) (freshVar origin) := by
  intro ctx hctx
  rw [exec_freshVar, exec_freshVar]
  exact .ok rfl (hctx.of_push (e := .newVar _) (by simp) rfl rfl) (by simp [Context.widen, Event.widen])

theorem push {src : Region} {line : StackLine} : Agrees extra Eq (push src line) (push src line) := by
  intro ctx hctx
  rw [exec_push, exec_push]
  exact .ok rfl (hctx.of_push (e := .push src line) (by simp) rfl rfl)
    (by simp [Context.widen, Event.widen])

theorem pop : Agrees extra Eq pop pop := by
  intro ctx hctx
  rw [exec_pop, exec_pop]
  exact .ok rfl (hctx.of_push (e := .pop) (by simp) rfl rfl) (by simp [Context.widen, Event.widen])

theorem replace {src : Region} {line : StackLine} :
    Agrees extra Eq (replace src line) (replace src line) := pop.next fun _ => push

theorem subst : Agrees extra Eq subst subst := fun _ hctx => .ok rfl hctx rfl

theorem resolve {t : Ty} : Agrees extra Eq (resolve t) (resolve t) := subst.next fun _ => .pure rfl

theorem resolveAll {ts : List Ty} : Agrees extra Eq (resolveAll ts) (resolveAll ts) :=
  subst.next fun _ => .pure rfl

theorem mapM {γ : Type} {g : γ → InferM α} (hg : ∀ c, Agrees extra Eq (g c) (g c)) (cs : List γ) :
    Agrees extra Eq (cs.mapM g) (cs.mapM g) := by
  induction cs with
  | nil => exact .pure rfl
  | cons c cs ih =>
    rw [List.mapM_cons]
    exact (hg c).next fun _ => ih.next fun _ => .pure rfl

theorem freshSubst {vars : List String} : Agrees extra Eq (freshSubst vars) (freshSubst vars) :=
  (mapM (fun _ => freshVar.next fun _ => .pure rfl) vars).next fun _ => .pure rfl

theorem instantiate {s : Scheme} : Agrees extra Eq (instantiate s) (instantiate s) :=
  freshSubst.next fun _ => .pure rfl

/-- Unification looks at the bindings of variables and at no scope. -/
theorem unify {one two : Ty} {src : Region} {oneName twoName : String} {message : Option String} :
    Agrees extra Eq (unify one two src oneName twoName message)
      (unify one two src oneName twoName message) := by
  intro ctx hctx
  -- The bindings of both states are the same, so that the same case applies to both.
  cases hu : (one.apply ctx.subst).unify (two.apply ctx.subst) with
  | error e =>
    have hu' : (one.apply (ctx.widen extra).subst).unify (two.apply (ctx.widen extra).subst) = .error e := hu
    rw [exec_unify_error hu, exec_unify_error hu']
    exact .error hctx rfl
  | ok delta =>
    have hu' : (one.apply (ctx.widen extra).subst).unify (two.apply (ctx.widen extra).subst) = .ok delta := hu
    cases hs : delta.compose ctx.subst with
    | error e =>
      have hs' : delta.compose (ctx.widen extra).subst = .error e := hs
      rw [exec_unify_overwrite hu hs, exec_unify_overwrite hu' hs']
      exact .error (hctx.of_push (e := .unify _) (by simp) rfl rfl) (by simp [Context.widen, Event.widen])
    | ok s =>
      have hs' : delta.compose (ctx.widen extra).subst = .ok s := hs
      rw [exec_unify_ok hu hs, exec_unify_ok hu' hs']
      have hadded : ∀ e ∈ unifyEvents (one.apply ctx.subst) (two.apply ctx.subst) delta s src oneName
          twoName message, ∀ scope, e ≠ .scope scope := by
        intro e he scope
        obtain ⟨step, rfl⟩ := exists_eq_unify_of_mem_unifyEvents he
        simp
      refine .ok rfl (hctx.of_append hadded rfl Array.toList_appendList) ?_
      simp only [Context.widen, Context.mk.injEq, true_and, and_true]
      apply Array.ext'
      rw [Array.toList_appendList, Array.toList_map, Array.toList_map, Array.toList_appendList,
        List.map_append, Event.map_widen_eq_self hadded]

/-! ### Environments and scopes -/

section

variable {env : Env} {Δ : Scope} (hclosed : Scope.Closed extra)

include hclosed

/-- Go on with the environment under the bindings so far. -/
theorem withEnv {g g' : Env → InferM β} (henv : Scope.Lacks extra env.scope)
    (hg : ∀ env₁ : Env, Scope.Lacks extra env₁.scope → Agrees extra S (g env₁) (g' (env₁.extend extra))) :
    Agrees extra S (resolveEnv env >>= g) (resolveEnv (env.extend extra) >>= g') := by
  refine bind (R := fun env₁ env₁' => Scope.Lacks extra env₁.scope ∧ env₁' = env₁.extend extra) ?_ ?_
  · refine subst.next fun σ => .pure ⟨henv.apply σ, ?_⟩
    exact Env.apply_extend_of_closed hclosed σ
  · intro env₁ env₁' h
    rw [h.2]
    exact hg env₁ h.1

omit hclosed in
/-- Go on with the scope under the bindings so far. -/
theorem withScope {g g' : Scope → InferM β} (hΔ : Scope.Lacks extra Δ)
    (hg : ∀ Δ₁, Scope.Lacks extra Δ₁ → Agrees extra S (g Δ₁) (g' Δ₁)) :
    Agrees extra S (resolveScope Δ >>= g) (resolveScope Δ >>= g') :=
  keep (subst.next fun σ => .pure ⟨rfl, hΔ.apply σ⟩) hg

/-- **A scope is logged in both runs or in neither**: with the added bindings it is the one last logged
exactly if it is so without them. -/
theorem noteScope (henv : Scope.Lacks extra env.scope) :
    Agrees extra Eq (noteScope env) (noteScope (env.extend extra)) := by
  intro ctx hctx
  have hcurrent : Scope.apply ctx.subst (env.extend extra).scope =
      (Scope.apply ctx.subst env.scope).union extra := hclosed.apply_union ctx.subst env.scope
  have hsame : (ctx.widen extra).latestScope.map (Scope.apply ctx.subst) =
        some (Scope.apply ctx.subst (env.extend extra).scope) ↔
      ctx.latestScope.map (Scope.apply ctx.subst) = some (Scope.apply ctx.subst env.scope) := by
    rw [hcurrent]
    cases hlatest : ctx.latestScope with
    | none => simp [Context.widen, hlatest]
    | some latest =>
      have hlacks : Scope.Lacks extra latest := hctx.latest latest hlatest
      simp only [Context.widen, hlatest, Option.map_some, Option.some.injEq, hclosed.apply_union]
      exact (hlacks.apply _).union_inj (henv.apply _)
  rw [exec_noteScope_eq, exec_noteScope_eq, Context.subst_widen]
  by_cases hlogged : ctx.latestScope.map (Scope.apply ctx.subst) = some (Scope.apply ctx.subst env.scope)
  · rw [if_pos hlogged, if_pos (hsame.mpr hlogged)]
    exact .ok rfl hctx rfl
  · rw [if_neg hlogged, if_neg (mt hsame.mp hlogged), hcurrent]
    refine .ok rfl ⟨?_, ?_⟩ ?_
    · intro scope hscope
      cases hscope
      exact henv
    · intro scope hscope
      rcases Array.mem_push.mp hscope with hscope | hscope
      · exact hctx.events scope hscope
      · cases hscope
        exact henv.apply _
    · simp [Context.widen, Event.widen, Env.extend]

theorem recording {src : Region} {find find' : InferM Ty} (henv : Scope.Lacks extra env.scope)
    (h : Agrees extra Eq find find') :
    Agrees extra Eq (recording env src find) (recording (env.extend extra) src find') :=
  (noteScope hclosed henv).next fun _ => h.next fun _ => infer.next fun _ => .pure rfl

end

end Agrees

/-! ## Inference with more bindings -/

mutual

/-- A pattern is typed alike, and binds only names that it has. -/
theorem agrees_pattern (env : Env) : (p : Pat) → (Construct.pat p).Avoids extra →
    Agrees extra (Both fun r => Scope.Lacks extra r.2) (pattern env p) (pattern (env.extend extra) p)
  | .any src, _ => by
    rw [pattern, pattern]
    exact .next .freshVar fun _ => .pure ⟨rfl, .empty⟩
  | .var name src, havoids => by
    rw [pattern, pattern]
    exact .next .freshVar fun _ => .pure ⟨rfl, .singleton (havoids.get?_eq_none rfl) _⟩
  | .prim value src, _ => by
    rw [pattern, pattern]
    exact .pure ⟨rfl, .empty⟩
  | .str value src, _ => by
    rw [pattern, pattern]
    exact .pure ⟨rfl, .empty⟩
  | .con name args src, havoids => by
    have hargs : ∀ p ∈ args, (Construct.pat p).Avoids extra := fun p hp =>
      havoids.child (List.mem_map_of_mem hp)
    rw [pattern, pattern, Env.constructors_extend]
    split
    · exact .throw
    · exact .guard (.next .freshSubst fun _ => .keep (agrees_fields env _ .empty args hargs) fun _ hΔ =>
        .next .resolve fun _ => .pure ⟨rfl, hΔ⟩)

theorem agrees_fields (env : Env) : (declared : List Ty) → {scope : Scope} → Scope.Lacks extra scope →
    (ps : List Pat) → (∀ p ∈ ps, (Construct.pat p).Avoids extra) →
    Agrees extra (Both (Scope.Lacks extra)) (fields env declared scope ps)
      (fields (env.extend extra) declared scope ps)
  | _, _, hscope, [], _ => by
    rw [fields, fields]
    exact .pure ⟨rfl, hscope⟩
  | [], _, hscope, p :: ps, _ => by
    rw [fields, fields]
    exact .pure ⟨rfl, hscope⟩
  | d :: ds, _, hscope, p :: ps, havoids => by
    obtain ⟨hp, hps⟩ := List.forall_mem_cons.mp havoids
    rw [fields, fields]
    exact .keep (agrees_pattern env p hp) fun _ hΔ => .next .unify fun _ =>
      agrees_fields env ds (hscope.union hΔ) ps hps

end

theorem agrees_params {env : Env} {scope : Scope} (hscope : Scope.Lacks extra scope) {ps : List Pat}
    (havoids : ∀ p ∈ ps, (Construct.pat p).Avoids extra) :
    Agrees extra (Both fun r => Scope.Lacks extra r.2) (params env scope ps)
      (params (env.extend extra) scope ps) := by
  induction ps generalizing scope with
  | nil => exact .pure ⟨rfl, hscope⟩
  | cons p ps ih =>
    obtain ⟨hp, hps⟩ := List.forall_mem_cons.mp havoids
    exact .keep (agrees_pattern env p hp) fun _ hΔ => .withScope hΔ fun _ hΔ => .next .infer fun _ =>
      .keep (ih (hscope.union hΔ) hps) fun _ hΔ => .pure ⟨rfl, hΔ⟩

/-- The expression is typed alike in every environment that lacks the names. -/
def AgreesExpr (extra : Scope) (e : Expr) : Prop :=
  ∀ env : Env, Scope.Lacks extra env.scope → Agrees extra Eq (expr env e) (expr (env.extend extra) e)

/-- The statement is typed alike in every environment that lacks the names, and does not bind them. -/
def AgreesStmt (extra : Scope) (s : Stmt) : Prop :=
  ∀ env : Env, Scope.Lacks extra env.scope →
    Agrees extra (Both fun r => Scope.Lacks extra (r.scope.getD .empty)) (stmt env s)
      (stmt (env.extend extra) s)

section

variable {env : Env} {scope Δ : Scope} {e : Expr} {es : List Expr} {e? : Option Expr} {s : Stmt}
  {src : Region}

/-- Other bindings may come on top of those added. -/
theorem AgreesExpr.under (h : AgreesExpr extra e) (henv : Scope.Lacks extra env.scope)
    (hΔ : Scope.Lacks extra Δ) :
    Agrees extra Eq (expr (env.extend Δ) e) (expr ((env.extend extra).extend Δ) e) := by
  rw [Env.extend_comm hΔ]
  exact h _ (henv.union hΔ)

theorem AgreesStmt.under (h : AgreesStmt extra s) (henv : Scope.Lacks extra env.scope)
    (hΔ : Scope.Lacks extra Δ) :
    Agrees extra (Both fun r => Scope.Lacks extra (r.scope.getD .empty)) (stmt (env.extend Δ) s)
      (stmt ((env.extend extra).extend Δ) s) := by
  rw [Env.extend_comm hΔ]
  exact h _ (henv.union hΔ)

theorem agrees_returned (henv : Scope.Lacks extra env.scope) (h : ∀ e ∈ e?, AgreesExpr extra e) :
    Agrees extra Eq (returned env e?) (returned (env.extend extra) e?) := by
  cases e? with
  | none =>
    rw [returned, returned]
    exact .pure rfl
  | some e =>
    rw [returned, returned]
    exact h e rfl _ henv

variable (hclosed : Scope.Closed extra)

include hclosed

theorem agrees_embedded (henv : Scope.Lacks extra env.scope) (h : ∀ e ∈ es, AgreesExpr extra e) :
    Agrees extra Eq (embedded env es) (embedded (env.extend extra) es) := by
  induction es with
  | nil =>
    rw [embedded, embedded]
    exact .pure rfl
  | cons e es ih =>
    obtain ⟨he, hes⟩ := List.forall_mem_cons.mp h
    rw [embedded, embedded]
    exact .withEnv hclosed henv fun _ henv => .next (he _ henv) fun _ => ih hes

theorem agrees_exprs (henv : Scope.Lacks extra env.scope) (h : ∀ e ∈ es, AgreesExpr extra e) :
    Agrees extra Eq (exprs env es) (exprs (env.extend extra) es) := by
  induction es with
  | nil =>
    rw [exprs, exprs]
    exact .pure rfl
  | cons e es ih =>
    obtain ⟨he, hes⟩ := List.forall_mem_cons.mp h
    rw [exprs, exprs]
    exact .withEnv hclosed henv fun _ henv => .next (he _ henv) fun _ => .next (ih hes) fun _ => .pure rfl

theorem agrees_otherwise (henv : Scope.Lacks extra env.scope) (h : ∀ e ∈ e?, AgreesExpr extra e) :
    Agrees extra Eq (otherwise env e?) (otherwise (env.extend extra) e?) := by
  cases e? with
  | none =>
    rw [otherwise, otherwise]
    exact .pure rfl
  | some e =>
    rw [otherwise, otherwise]
    exact .withEnv hclosed henv fun _ henv => h e rfl _ henv

theorem agrees_cases {targetTy result : Ty} {cs : List Case} (henv : Scope.Lacks extra env.scope)
    (hpats : ∀ p e, Case.mk p e ∈ cs → (Construct.pat p).Avoids extra)
    (h : ∀ p e, Case.mk p e ∈ cs → AgreesExpr extra e) :
    Agrees extra Eq (cases env targetTy result cs) (cases (env.extend extra) targetTy result cs) := by
  induction cs with
  | nil =>
    rw [cases, cases]
    exact .pure rfl
  | cons c cs ih =>
    obtain ⟨p, e⟩ := c
    have hp := hpats p e List.mem_cons_self
    have he := h p e List.mem_cons_self
    have hcs := ih (fun p' e' h' => hpats p' e' (List.mem_cons_of_mem _ h'))
      fun p' e' h' => h p' e' (List.mem_cons_of_mem _ h')
    rw [cases, cases]
    exact .keep (agrees_pattern env p hp) fun _ hΔ => .next .unify fun _ => .withScope hΔ fun _ hΔ =>
      .withEnv hclosed henv fun _ henv => .next (he.under henv hΔ) fun _ => .next .resolve fun _ =>
      .next .unify fun _ => hcs

theorem agrees_stmts {last : Ty} {ss : List Stmt} (henv : Scope.Lacks extra env.scope)
    (hscope : Scope.Lacks extra scope) (h : ∀ s ∈ ss, AgreesStmt extra s) :
    Agrees extra Eq (stmts env scope last ss) (stmts (env.extend extra) scope last ss) := by
  induction ss generalizing scope last with
  | nil =>
    rw [stmts, stmts]
    exact .resolve
  | cons s ss ih =>
    obtain ⟨hs, hss⟩ := List.forall_mem_cons.mp h
    rw [stmts, stmts]
    exact .withEnv hclosed henv fun _ henv => .withScope hscope fun _ hΔ =>
      .keep (hs.under henv hΔ) fun _ hr => ih (hscope.union hr) hss

theorem agrees_lambda (hreturn : extra.get? "return" = none) {args : List Pat} {body : Expr}
    (hargs : ∀ p ∈ args, (Construct.pat p).Avoids extra) (hbody : AgreesExpr extra body) :
    AgreesExpr extra (.lambda args body src) := by
  intro env henv
  rw [expr, expr]
  exact .recording hclosed henv (.guard (.next .freshVar fun ret => .next .push fun _ =>
    .next .pause fun _ => .keep (agrees_params (.singleton hreturn _) hargs) fun _ hΔ =>
    .next .resolveAll fun _ => .next .replace fun _ => .next .pause fun _ =>
    .next (hbody.under henv hΔ) fun _ => .next .resolve fun _ => .next .unify fun _ =>
    .next .resolveAll fun _ => .next .resolve fun _ => .next .replace fun _ => .next .pause fun _ =>
    .next .pop fun _ => .pure rfl))

theorem agrees_call {target : Expr} {args : List Expr} (htarget : AgreesExpr extra target)
    (hargs : ∀ e ∈ args, AgreesExpr extra e) : AgreesExpr extra (.call target args src) := by
  intro env henv
  rw [expr, expr]
  exact .recording hclosed henv (.guard (.next .freshVar fun _ => .next .infer fun _ =>
    .next .push fun _ => .next .pause fun _ => .next (htarget _ henv) fun _ =>
    .next (agrees_exprs hclosed henv hargs) fun _ => .next .resolve fun _ => .next .resolveAll fun _ =>
    .next .replace fun _ => .next .pause fun _ => .next .resolve fun _ => .next .unify fun _ =>
    .next .resolve fun _ => .next .replace fun _ => .next .pause fun _ => .next .pop fun _ => .resolve))

/-- A binding gets one scheme in both runs: the environments hold the same variables back. -/
theorem agrees_letBind {pat : Pat} {init : Expr} (hpat : (Construct.pat pat).Avoids extra)
    (hinit : AgreesExpr extra init) : AgreesStmt extra (.letBind pat init src) := by
  intro env henv
  cases pat with
  | var name patSrc =>
    have hname : extra.get? name = none := hpat.get?_eq_none rfl
    rw [stmt, stmt]
    refine .next .push fun _ => .next .pause fun _ => .next .replace fun _ => .next .pause fun _ =>
      .next .freshVar fun _ => .next .infer fun _ => .next .push fun _ => .next .pause fun _ =>
      .next .pop fun _ => .next .replace fun _ => .next .pause fun _ => .next .replace fun _ =>
      .next (hinit.under henv (.singleton hname _)) fun _ => .next .resolve fun _ => .next .unify fun _ =>
      .next .resolve fun _ => .next .resolve fun _ => .next .replace fun _ => .next .pause fun _ =>
      .next .pop fun _ => .next .resolve fun value => .withEnv hclosed henv fun env henv => ?_
    rw [Env.generalize_extend hclosed henv]
    exact .pure ⟨rfl, .singleton hname _⟩
  | any | con | str | prim =>
    simp only [stmt]
    exact .next .push fun _ => .next .pause fun _ => .keep (agrees_pattern env _ hpat) fun _ hΔ =>
      .next (hinit _ henv) fun _ => .next .unify fun _ => .next .pause fun _ => .next .pop fun _ =>
      .withScope hΔ fun _ hΔ => .pure ⟨rfl, hΔ⟩

theorem agrees_forLoop {init : Stmt} {cond update body : Expr} (hinit : AgreesStmt extra init)
    (hcond : AgreesExpr extra cond) (hupdate : AgreesExpr extra update) (hbody : AgreesExpr extra body) :
    AgreesStmt extra (.forLoop init cond update body src) := by
  intro env henv
  rw [stmt, stmt]
  refine .next .push fun _ => .next .pause fun _ => .keep (hinit _ henv) fun _ hr =>
    .withEnv hclosed henv fun env henv => .withScope hr fun Δ hΔ => ?_
  rw [Env.extend_comm hΔ]
  have henv : Scope.Lacks extra (env.extend Δ).scope := henv.union hΔ
  exact .next (hcond _ henv) fun _ => .next .unify fun _ => .withEnv hclosed henv fun _ henv =>
    .next (hupdate _ henv) fun _ => .withEnv hclosed henv fun _ henv => .next (hbody _ henv) fun _ =>
    .next .pop fun _ => .pure ⟨rfl, .empty⟩

/-- **Expressions and statements are typed alike with and without the added bindings.** -/
theorem agrees_program (hreturn : extra.get? "return" = none) :
    (∀ e, (Construct.expr e).Avoids extra → AgreesExpr extra e) ∧
      ∀ s, (Construct.stmt s).Avoids extra → AgreesStmt extra s := by
  refine Expr.induction ?block ?ifElse ?switch ?prim ?var ?str ?lambda ?call ?forLoop ?letBind ?expr
    ?ret
  case block =>
    intro ss src hss havoids env henv
    rw [expr, expr]
    exact .recording hclosed henv (agrees_stmts hclosed henv .empty fun s hs =>
      hss s hs (havoids.child (List.mem_map_of_mem hs)))
  case ifElse =>
    intro cond yes no src hcond hyes hno havoids env henv
    have hcond := hcond (havoids.child (by simp [Construct.children]))
    have hyes := hyes (havoids.child (by simp [Construct.children]))
    have hno : ∀ e ∈ no, AgreesExpr extra e := fun e he =>
      hno e he (havoids.child (by simpa [Construct.children] using .inr (.inr he)))
    rw [expr, expr]
    exact .recording hclosed henv (.next .push fun _ => .next .pause fun _ => .next (hcond _ henv) fun _ =>
      .next .unify fun _ => .withEnv hclosed henv fun _ henv' => .next (hyes _ henv') fun _ =>
      .next (agrees_otherwise hclosed henv hno) fun _ => .next .unify fun _ => .next .resolve fun _ =>
      .next .resolve fun _ => .next .replace fun _ => .next .pause fun _ => .next .pop fun _ => .resolve)
  case switch =>
    intro target cs src htarget hcs havoids env henv
    have hpart {p e} (h : Case.mk p e ∈ cs) {part} (hpart : part ∈ Case.parts (.mk p e)) :
        part.Avoids extra := havoids.child (List.mem_cons_of_mem _ (List.mem_flatMap_of_mem h hpart))
    have htarget := htarget (havoids.child List.mem_cons_self)
    rw [expr, expr]
    exact .recording hclosed henv (.next (htarget _ henv) fun _ => .next .freshVar fun _ =>
      .next .resolve fun _ => .next .push fun _ => .next .pause fun _ =>
      .next (agrees_cases hclosed henv (fun p e h => hpart h (by simp [Case.parts])) fun p e h =>
        hcs p e h (hpart h (by simp [Case.parts]))) fun _ => .next .pop fun _ => .resolve)
  case prim =>
    intro value src _ env henv
    rw [expr, expr]
    exact .recording hclosed henv (.pure rfl)
  -- The name is in the program, so it is none of those added.
  case var =>
    intro name src havoids env henv
    rw [expr, expr, Env.lookup_extend_of_none (havoids.get?_eq_none rfl)]
    refine .recording hclosed henv ?_
    split
    · exact .throw
    · exact .instantiate
  case str =>
    intro value embeds src hembeds havoids env henv
    rw [expr, expr]
    exact .recording hclosed henv (.next (agrees_embedded hclosed henv fun e he =>
      hembeds e he (havoids.child (List.mem_map_of_mem he))) fun _ => .pure rfl)
  case lambda =>
    intro args body src hbody havoids
    exact agrees_lambda hclosed hreturn
      (fun p hp => havoids.child (List.mem_cons_of_mem _ (List.mem_map_of_mem hp)))
      (hbody (havoids.child List.mem_cons_self))
  case call =>
    intro target args src htarget hargs havoids
    exact agrees_call hclosed (htarget (havoids.child List.mem_cons_self))
      fun e he => hargs e he (havoids.child (List.mem_cons_of_mem _ (List.mem_map_of_mem he)))
  case forLoop =>
    intro init cond update body src hinit hcond hupdate hbody havoids
    exact agrees_forLoop hclosed (hinit (havoids.child (by simp [Construct.children])))
      (hcond (havoids.child (by simp [Construct.children])))
      (hupdate (havoids.child (by simp [Construct.children])))
      (hbody (havoids.child (by simp [Construct.children])))
  case letBind =>
    intro pat init src hinit havoids
    exact agrees_letBind hclosed (havoids.child List.mem_cons_self)
      (hinit (havoids.child (by simp [Construct.children])))
  case expr =>
    intro value src hvalue havoids env henv
    have hvalue := hvalue (havoids.child List.mem_cons_self)
    rw [stmt, stmt]
    exact .next (hvalue _ henv) fun _ => .pure ⟨rfl, .empty⟩
  case ret =>
    intro value src hvalue havoids env henv
    have hvalue : ∀ e ∈ value, AgreesExpr extra e := fun e he =>
      hvalue e he (havoids.child (by simpa [Construct.children] using he))
    rw [stmt, stmt, Env.lookup_extend_of_none hreturn]
    refine .next .freshVar fun _ => ?_
    split
    · exact .throw
    · exact .next .push fun _ => .next .pause fun _ => .next (agrees_returned henv hvalue) fun _ =>
        .next .unify fun _ => .next .resolve fun _ => .next .replace fun _ => .next .pause fun _ =>
        .next .pop fun _ => .pure ⟨rfl, .empty⟩

end

end InferM

namespace Infer

open InferM

/-- **Unused closed bindings show in the scopes of the log and nowhere else.**  If the added schemes have
no free variables, and their names are new to the environment and are not in the program, then with and
without them inference finds one type or fails with one error.  The traces agree in the bindings of
variables, in the reasons for them and in the events, one by one, but for the added bindings in each scope
that is shown. -/
theorem program_extend {env : Env} {extra : Scope} {s : Stmt} (hclosed : Scope.Closed extra)
    (hreturn : extra.get? "return" = none) (hnew : Scope.Lacks extra env.scope)
    (hunused : (Construct.stmt s).Avoids extra) :
    (∃ t trace, program env s = .ok (t, trace) ∧ trace.Lacks extra ∧
      program (env.extend extra) s = .ok (t, trace.widen extra)) ∨
    ∃ error trace, program env s = .error ⟨error, trace⟩ ∧ trace.Lacks extra ∧
      program (env.extend extra) s = .error ⟨error, trace.widen extra⟩ := by
  have hends := (agrees_program hclosed hreturn).2 s hunused env hnew {} (Context.lacks_initial extra)
  have hinit : Context.widen extra {} = {} := by simp [Context.widen]
  rw [hinit] at hends
  rcases program_cases env s with ⟨r, ctx, hexec, hprogram⟩ | ⟨e, ctx, hexec, hprogram⟩
  · rcases program_cases (env.extend extra) s with ⟨r', ctx', hexec', hprogram'⟩ | ⟨e', ctx', hexec', -⟩
    · rw [hexec, hexec'] at hends
      obtain ⟨⟨rfl, -⟩, hlacks, rfl⟩ := hends
      exact .inl ⟨_, _, hprogram, hlacks.events, hprogram'⟩
    · rw [hexec, hexec'] at hends
      cases hends
  · rcases program_cases (env.extend extra) s with ⟨r', ctx', hexec', -⟩ | ⟨e', ctx', hexec', hprogram'⟩
    · rw [hexec, hexec'] at hends
      cases hends
    · rw [hexec, hexec'] at hends
      obtain ⟨⟩ | ⟨hlacks, rfl⟩ := hends
      exact .inr ⟨_, _, hprogram, hlacks.events, hprogram'⟩

/-- A binding of the identity.  Its bound variable is free in `sharingEnv`. -/
def spareScope : Scope := .singleton "spare" ⟨["t"], .fn [.var "t"] (.var "t")⟩

/-- An environment with a variable that holds generalisation back. -/
def sharingEnv : Env := { scope := .singleton "y" (.mono (.var "t")) }

/-- A function to `y`, bound by `let`: its type is generalised in the argument and not in the result. -/
def constantFunction : Stmt :=
  .letBind (.var "f" ⟨1, none⟩) (.lambda [.var "x" ⟨2, none⟩] (.var "y" ⟨3, none⟩) ⟨4, none⟩) ⟨5, none⟩

theorem program_extend_spareScope :
    (Scope.Closed spareScope ∧ spareScope.get? "return" = none ∧
      Scope.Lacks spareScope sharingEnv.scope ∧ (Construct.stmt constantFunction).Avoids spareScope) ∧
    ((∃ t trace, program sharingEnv constantFunction = .ok (t, trace) ∧ trace.Lacks spareScope ∧
        program (sharingEnv.extend spareScope) constantFunction = .ok (t, trace.widen spareScope)) ∨
      ∃ error trace, program sharingEnv constantFunction = .error ⟨error, trace⟩ ∧
        trace.Lacks spareScope ∧ program (sharingEnv.extend spareScope) constantFunction =
          .error ⟨error, trace.widen spareScope⟩) := by
  have hspare (name : String) (s : Scheme) (h : spareScope.get? name = some s) :
      name = "spare" ∧ s = ⟨["t"], .fn [.var "t"] (.var "t")⟩ := by
    rw [spareScope, Dict.get?_singleton] at h
    split at h
    · exact ⟨Std.LawfulEqOrd.eq_of_compare ‹_›, (Option.some.inj h).symm⟩
    · cases h
  have hclosed : Scope.Closed spareScope := by
    intro name s h
    obtain ⟨-, rfl⟩ := hspare name s h
    decide
  have hreturn : spareScope.get? "return" = none := by decide
  have hnew : Scope.Lacks spareScope sharingEnv.scope := by
    intro name s h
    obtain ⟨rfl, -⟩ := hspare name s h
    decide
  have hunused : (Construct.stmt constantFunction).Avoids spareScope := by
    have hpat {name : String} {src : Region} (h : spareScope.get? name = none) :
        (Construct.pat (.var name src)).Avoids spareScope := .leaf (by simpa [Construct.varName?] using h) rfl
    have hy : spareScope.get? "y" = none := by decide
    have hbody : (Construct.expr (.var "y" ⟨3, none⟩)).Avoids spareScope :=
      .leaf (by simpa [Construct.varName?] using hy) rfl
    have hlambda : (Construct.expr (.lambda [.var "x" ⟨2, none⟩] (.var "y" ⟨3, none⟩) ⟨4, none⟩)).Avoids
        spareScope := .of_children (by simp [Construct.varName?])
      (List.forall_mem_cons.mpr ⟨hbody, List.forall_mem_singleton.mpr (hpat (by decide))⟩)
    exact .of_children (by simp [Construct.varName?])
      (List.forall_mem_cons.mpr ⟨hpat (by decide), List.forall_mem_singleton.mpr hlambda⟩)
  exact ⟨⟨hclosed, hreturn, hnew, hunused⟩, program_extend hclosed hreturn hnew hunused⟩

end Infer
end TypeTrace
