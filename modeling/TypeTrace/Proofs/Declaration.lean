import Mathlib.Data.List.Nodup
import TypeTrace.Proofs.Invariant
import TypeTrace.Proofs.Liveness
import TypeTrace.Proofs.Session

/-!
# Variables are declared before use

Every variable is created once: the names come in the order of their numbers, each creation is logged,
and the state knows why each variable was created.  This is true of every session.  A program that starts
from the built-in environment uses no variables but those, because all its types are made from variables
that it created itself; and so every variable in an event of its log is created by an event before it.

## Main definitions

* `Context.Supplied`: the variables of a state are those logged, in order, and have an origin
* `Event.vars`: the variables in an event
* `TypeInvariant.declared`: the invariant that types mention no variable before it is created
* `Trace.Declared`: every variable in a trace is created before

## Main results

* `InferM.Stepwise.supplies`: no variable is created twice
* `variables_declared`: variables are declared before use and never reissued
-/

namespace TypeTrace

/-! ## The supply of variables -/

/-- The variables that the log creates are the first ones, in order, and they have an origin. -/
structure Context.Supplied (ctx : Context) : Prop where
  created : Event.created ctx.events.toList = (List.range ctx.nextId).map Name.ofNat
  origins : ∀ x, (∃ o, ctx.origins.get? x = some o) ↔ x ∈ Name.issued ctx.nextId

/-- The later state knows the origins of the earlier one. -/
def Context.Remembers (ctx ctx' : Context) : Prop :=
  ∀ x o, ctx.origins.get? x = some o → ctx'.origins.get? x = some o

namespace Context.Supplied

variable {ctx ctx' : Context}

theorem initial : Supplied {} := by
  refine ⟨rfl, fun x => ⟨?_, ?_⟩⟩
  · rintro ⟨o, ho⟩
    simp at ho
  · rintro ⟨i, hi, -⟩
    exact absurd hi (Nat.not_lt_zero i)

/-- Logging other events changes nothing. -/
theorem of_append (h : ctx.Supplied) {added : List Event}
    (hlog : ctx'.events.toList = ctx.events.toList ++ added) (hnew : Event.created added = [])
    (hnext : ctx'.nextId = ctx.nextId) (horigins : ctx'.origins = ctx.origins) :
    ctx'.Supplied ∧ ctx.Remembers ctx' := by
  refine ⟨⟨?_, ?_⟩, fun x o ho => horigins ▸ ho⟩
  · rw [hlog, Event.created_append, hnew, List.append_nil, hnext, h.created]
  · rw [hnext, horigins]
    exact h.origins

theorem of_push (h : ctx.Supplied) {e : Event} (hlog : ctx'.events = ctx.events.push e)
    (hnew : Event.created [e] = []) (hnext : ctx'.nextId = ctx.nextId)
    (horigins : ctx'.origins = ctx.origins) : ctx'.Supplied ∧ ctx.Remembers ctx' :=
  h.of_append (by rw [hlog, Array.toList_push]) hnew hnext horigins

/-- A new variable gets an origin, and no variable had its name. -/
theorem newVar (h : ctx.Supplied) (origin : Origin) :
    (InferM.exec (InferM.freshVar origin) ctx).2.Supplied ∧
      ctx.Remembers (InferM.exec (InferM.freshVar origin) ctx).2 := by
  rw [InferM.exec_freshVar]
  refine ⟨⟨?_, fun x => ?_⟩, fun x o ho => ?_⟩
  · rw [Array.toList_push, Event.created_append, h.created, List.range_succ, List.map_append]
    rfl
  · by_cases hx : x = Name.ofNat ctx.nextId
    · subst hx
      simp [Name.ofNat_mem_issued]
    · rw [Dict.get?_insert_of_ne _ _ hx, h.origins x]
      constructor
      · rintro ⟨i, hi, hi'⟩
        exact ⟨i, Nat.lt_succ_of_lt hi, hi'⟩
      · rintro ⟨i, hi, hi'⟩
        have hne : i ≠ ctx.nextId := fun hin => hx (hin ▸ hi')
        exact ⟨i, (Nat.lt_succ_iff_lt_or_eq.mp hi).resolve_right hne, hi'⟩
  · -- A variable that has an origin was created before, so it has another name.
    have hx : x ≠ Name.ofNat ctx.nextId := by
      rintro rfl
      exact absurd (Name.ofNat_mem_issued.mp ((h.origins _).mp ⟨o, ho⟩)) (Nat.lt_irrefl _)
    rwa [Dict.get?_insert_of_ne _ _ hx]

end Context.Supplied

/-- **No variable is created twice**, whether the computation succeeds or fails. -/
theorem InferM.Stepwise.supplies {α : Type} {m : InferM α} {n n' : Nat} (hm : Stepwise n n' m)
    {ctx : Context} (h : ctx.Supplied) :
    (exec m ctx).2.Supplied ∧ ctx.Remembers (exec m ctx).2 := by
  have hsame (ctx : Context) : ctx.Remembers ctx := fun x o ho => ho
  induction hm generalizing ctx with
  | pure a => exact ⟨h, hsame ctx⟩
  | throw e he => exact ⟨h, hsame ctx⟩
  | @bind _ _ _ _ _ m f hm hf ihm ihf =>
    obtain ⟨h₁, hold⟩ := ihm h
    rw [exec_bind]
    rcases hr : exec m ctx with ⟨e | a, ctx₁⟩
    all_goals rw [hr] at h₁ hold
    · exact ⟨h₁, hold⟩
    · obtain ⟨h₂, hold₂⟩ := ihf a h₁
      exact ⟨h₂, fun x o ho => hold₂ x o (hold x o ho)⟩
  | subst => exact ⟨h, hsame ctx⟩
  | infer src t => exact h.of_push rfl rfl rfl rfl
  | pause title => exact h.of_push rfl rfl rfl rfl
  -- Only here a variable is created; all other steps append events of another kind.
  | freshVar origin => exact h.newVar origin
  | unify one two src oneName twoName message =>
    obtain ⟨hnext, horigins, -, added, hlog, hadded⟩ :=
      exec_unify_frame one two src oneName twoName message ctx
    refine h.of_append hlog (List.filterMap_eq_nil_iff.mpr fun e he => ?_) hnext horigins
    obtain ⟨step, rfl⟩ := hadded e he
    rfl
  | push src line => exact h.of_push rfl rfl rfl rfl
  | pop => exact h.of_push rfl rfl rfl rfl
  | noteScope env =>
    rcases exec_noteScope env ctx with hr | hr
    all_goals rw [hr]
    · exact ⟨h, hsame ctx⟩
    · exact h.of_push rfl rfl rfl rfl

theorem Context.supplied_after (ops : List Operation) : (Context.after ops).Supplied :=
  after_induction (P := Supplied) .initial (fun _ op h => (op.stepwise_run.supplies h).1) ops

namespace Context.Supplied

variable {ctx : Context}

theorem nodup_created (h : ctx.Supplied) : (Event.created ctx.events.toList).Nodup := by
  rw [h.created]
  exact List.Nodup.map Name.ofNat_injective List.nodup_range

theorem mem_keys_iff (h : ctx.Supplied) {x : String} :
    x ∈ ctx.origins.keys ↔ x ∈ Name.issued ctx.nextId := by
  rw [Dict.mem_keys_iff, h.origins]

/-- The variables with an origin are those that the log creates. -/
theorem perm_keys (h : ctx.Supplied) :
    ctx.origins.keys.Perm (Event.created ctx.events.toList) := by
  have hkeys : ctx.origins.keys.Nodup :=
    List.pairwise_map.mpr (ctx.origins.ascending.imp fun hlt heq => by simp [heq] at hlt)
  refine (List.perm_ext_iff_of_nodup hkeys h.nodup_created).mpr fun x => ?_
  rw [h.mem_keys_iff, h.created]
  simp [Name.issued, eq_comm]

/-- What has been created before some point of the log: the first variables. -/
theorem mem_created (h : ctx.Supplied) {before after : List Event}
    (hsplit : ctx.events.toList = before ++ after) {x : String}
    (hx : x ∈ Name.issued (Event.created before).length) : x ∈ Event.created before := by
  have hcreated := h.created
  rw [hsplit, Event.created_append] at hcreated
  -- The log creates all names in order, so up to some point it creates the first ones.
  have htake : Event.created before =
      ((List.range ctx.nextId).map Name.ofNat).take (Event.created before).length := by
    rw [← hcreated, List.take_left]
  obtain ⟨i, hi, rfl⟩ := hx
  have hlength := congrArg List.length hcreated
  simp only [List.length_append, List.length_map, List.length_range] at hlength
  rw [htake, ← List.map_take, List.take_range]
  exact List.mem_map_of_mem (List.mem_range.mpr (by omega))

end Context.Supplied

/-! ## Variables in use -/

/-- The types in a line of explanation. -/
def StackLine.types (line : StackLine) : List Ty :=
  line.filterMap fun
    | .ty t => some t
    | _ => none

theorem StackLine.mem_types {line : StackLine} {t : Ty} : t ∈ line.types ↔ .ty t ∈ line := by
  simp only [types, List.mem_filterMap]
  constructor
  · rintro ⟨item, hitem, hty⟩
    cases item with
    | ty u =>
      cases hty
      exact hitem
    | text | kwd | hole => cases hty
  · exact fun ht => ⟨.ty t, ht, rfl⟩

/-- The variables in an event: those of its types, those that it binds, and those free in its
schemes. -/
def Event.vars : Event → List String
  | infer _ t => t.free
  | unify step =>
    step.one.free ++ step.two.free ++ step.delta.keys ++ step.delta.values.flatMap Ty.free
  | scope Δ => Scope.free Δ
  | push _ line => line.types.flatMap Ty.free
  | newVar _ | pop | pause _ => []

/-- Every variable in the trace is created before: those of an event by an event before it, and those of
the bindings have an origin. -/
structure Trace.Declared (trace : Trace) : Prop where
  events (before : List Event) (e : Event) (after : List Event)
    (hsplit : trace.events.toList = before ++ e :: after) (x : String) (hx : x ∈ e.vars) :
    x ∈ Event.created before
  bindings (x : String) (t : Ty) (hx : trace.subst.get? x = some t) :
    x ∈ trace.origins.keys ∧ ∀ y ∈ t.free, y ∈ trace.origins.keys

namespace TypeInvariant

theorem within_apply {A : Set String} {σ : Subst} {t : Ty}
    (hσ : ∀ x u, σ.get? x = some u → u.Within A) (ht : t.Within A) : (t.apply σ).Within A :=
  Subst.mem_of_mem_apply hσ ht

theorem within_fresh {n : Nat} {vars : List String} {t : Ty}
    (ht : ∀ x ∈ t.occurrences, x ∉ vars → x ∈ Name.issued n) :
    (t.apply (.fresh n vars)).Within (Name.issued (n + vars.length)) := by
  refine .fresh (fun x hx hmem => ?_) fun i _ hlt => Name.ofNat_mem_issued.mpr hlt
  exact Name.issued_mono (Nat.le_add_right n _) (ht x hx hmem)

theorem within_unify {A : Set String} {t u : Ty} {d : Subst} (hd : t.unify u = .ok d) (ht : t.Within A)
    (hu : u.Within A) {x : String} {v : Ty} (hx : d.get? x = some v) : (Ty.var x).Within A ∧ v.Within A := by
  have hmg := Ty.unify_ok hd
  obtain ⟨hmem, hv⟩ := hmg.resolved.mem_of_localTo hmg.localTo hx
  exact ⟨.var (hmem.elim (ht _) (hu _)), fun y hy => (hv y hy).elim (ht y) (hu y)⟩

/-- Types mention no variable before it is created. -/
def declared : TypeInvariant where
  ty n t := t.Within (Name.issued n)
  scheme n s := ∀ x ∈ s.free, x ∈ Name.issued n
  con := Constructor.Closed
  ty_mono hmn ht := ht.mono (Name.issued_mono hmn)
  scheme_mono hmn hs x hx := Name.issued_mono hmn (hs x hx)
  var n := .var (Name.ofNat_mem_issued.mpr (Nat.lt_succ_self n))
  prim n value := value.within_ty _
  string n := .con _
  void n := .con _
  fn _ hargs hresult := .fn hargs hresult
  apply := within_apply
  unify := within_unify
  unify_error he ht hu v hv x hx := (Ty.unify_error_vars he hv hx).elim (ht x) (hu x)
  mono ht x hx := ht x (Scheme.mem_free_mono.mp hx)
  generalize env ht x hx := ht x (Env.mem_free_generalize.mp hx).1
  scheme_apply hσ hs z hz := by
    obtain ⟨-, y, hy, hz⟩ := Scheme.mem_free_apply.mp hz
    refine within_apply hσ (.var (hs y hy)) z ?_
    rwa [Ty.apply_eq_assign, Ty.assign_var]
  instantiate hs := within_fresh fun x hx hn => hs x (Scheme.mem_free.mpr ⟨hx, hn⟩)
  construct hc n t ht := within_fresh fun x hx hn => absurd (hc t ht x hx) hn

theorem fits_of_closed {env : Env} (h : env.Closed) : declared.Fits 0 env := by
  refine ⟨fun name s hs => ⟨fun x hx => ?_, ?_⟩, h.constructors⟩
  · rw [h.free name s hs] at hx
    cases hx
  · rintro rfl
    cases h.returns.symm.trans hs

/-- The variables of an event that has the invariant are created. -/
theorem Logged.mem_issued {n : Nat} {e : Event} (h : declared.Logged n e) {x : String}
    (hx : x ∈ e.vars) : x ∈ Name.issued n := by
  cases e with
  | infer src t => exact h x (Ty.mem_free.mp hx)
  | unify step =>
    obtain ⟨hone, htwo, hdelta⟩ := h
    simp only [Event.vars, List.mem_append] at hx
    rcases hx with ((hx | hx) | hx) | hx
    · exact hone x (Ty.mem_free.mp hx)
    · exact htwo x (Ty.mem_free.mp hx)
    · obtain ⟨t, ht⟩ := (Dict.mem_keys_iff _ x).mp hx
      exact (hdelta x t ht).1 x (Ty.mem_occurrences_var.mpr rfl)
    · obtain ⟨t, ht, hx⟩ := List.mem_flatMap.mp hx
      obtain ⟨y, hy⟩ := (Dict.mem_values_iff _ t).mp ht
      exact (hdelta y t hy).2 x (Ty.mem_free.mp hx)
  | scope Δ =>
    obtain ⟨name, s, hs, hx⟩ := Scope.mem_free.mp hx
    exact h name s hs x hx
  | push src line =>
    obtain ⟨t, ht, hx⟩ := List.mem_flatMap.mp hx
    exact h t (StackLine.mem_types.mp ht) x (Ty.mem_free.mp hx)
  | newVar | pop | pause => cases hx

theorem State.declares {ctx : Context} (h : declared.State ctx) (hctx : ctx.Supplied) :
    ctx.trace.Declared := by
  refine ⟨fun before e after hsplit x hx => ?_, fun x t hx => ?_⟩
  · exact hctx.mem_created hsplit ((h.log before e after hsplit).mem_issued hx)
  · obtain ⟨hvar, ht⟩ := h.bindings x t hx
    refine ⟨hctx.mem_keys_iff.mpr (hvar x (Ty.mem_occurrences_var.mpr rfl)), fun y hy => ?_⟩
    exact hctx.mem_keys_iff.mpr (ht y (Ty.mem_free.mp hy))

end TypeInvariant

/-- **Variables are declared before use and never reissued.**  In every session the log creates the first
variables, one after the other, and exactly these have an origin, which later operations leave alone.
Every variable in the trace of a program is created before, whether inference succeeds or breaks off. -/
theorem variables_declared :
    (∀ ops : List Operation,
      Event.created (Context.after ops).events.toList =
        (List.range (Context.after ops).nextId).map Name.ofNat ∧
      (Event.created (Context.after ops).events.toList).Nodup ∧
      (Context.after ops).origins.keys.Perm (Event.created (Context.after ops).events.toList) ∧
      ∀ op x origin, (Context.after ops).origins.get? x = some origin →
        (Context.after (ops ++ [op])).origins.get? x = some origin) ∧
    ∀ s : Stmt,
      match Infer.program .builtin s with
      | .ok (t, trace) => trace.Declared ∧ ∀ x ∈ t.free, x ∈ trace.origins.keys
      | .error failure => failure.trace.Declared := by
  refine ⟨fun ops => ?_, fun s => ?_⟩
  · have h := Context.supplied_after ops
    refine ⟨h.created, h.nodup_created, h.perm_keys, fun op x origin ho => ?_⟩
    rw [Context.after_concat]
    exact (op.stepwise_run.supplies h).2 x origin ho
  · have hfits := TypeInvariant.fits_of_closed Env.builtin_closed
    obtain ⟨hstate, -, hok⟩ := TypeInvariant.declared.safe_program.2 s hfits {} .initial rfl
    have hsupplied := ((InferM.stepwise_stmt (n := 0) .builtin s).supplies .initial).1
    rcases InferM.program_cases .builtin s with ⟨r, ctx, hexec, hprogram⟩ | ⟨e, ctx, hexec, hprogram⟩
    all_goals
      rw [hexec] at hstate hsupplied
      rw [hprogram]
    · refine ⟨hstate.declares hsupplied, fun x hx => hsupplied.mem_keys_iff.mpr ?_⟩
      rw [hexec] at hok
      have hty := hstate.bindings.apply (hok r rfl).1
      exact hty x (Ty.mem_free.mp hx)
    · exact hstate.declares hsupplied

end TypeTrace
