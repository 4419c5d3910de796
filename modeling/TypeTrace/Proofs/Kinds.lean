import TypeTrace.Proofs.Declaration

/-!
# Types are well-kinded

Types may have functions without arguments, variables as heads, and heads with any number of arguments.
Inference produces none of these.  No operation on types looks at kinds; but inference puts a function
together only where it has found an argument, the heads `Array` and `,` come from the built-in
environment, with the right number of arguments, and unification compares the lengths of argument lists
before it compares heads.  So a head that is not itself a type of values is only ever compared with
itself, and never bound, logged or reported.

## Main definitions

* `Ty.WellKinded`: types of values, put together with the right number of arguments
* `Ty.Comparable`: the equations that come up when well-kinded types are unified
* `Event.types`, `Trace.WellKinded`: the types in an event, and traces of well-kinded types
* `TypeInvariant.wellKinded`: well-kindedness as an invariant of inference

## Main results

* `Ty.WellKinded.unify`: well-kinded types are unified by well-kinded types, or fail with such
* `types_wellKinded`: inference produces well-kinded types only
-/

namespace TypeTrace

namespace Ty

/-- The types that are put together from variables, constants, functions of at least one argument,
arrays of one type and pairs of two. -/
inductive WellKinded : Ty → Prop
  | var (x : String) : WellKinded (.var x)
  | con {c : String} (hc : c ∈ ["int", "bool", "string", "null", "void"]) : WellKinded (.con c)
  | fn {args : List Ty} {result : Ty} (hne : args ≠ []) (hargs : ∀ t ∈ args, WellKinded t)
    (hresult : WellKinded result) : WellKinded (.fn args result)
  | array {elem : Ty} (helem : WellKinded elem) : WellKinded (.app (.con "Array") [elem])
  | pair {a b : Ty} (ha : WellKinded a) (hb : WellKinded b) : WellKinded (.app (.con ",") [a, b])

namespace WellKinded

/-- Substituting well-kinded types keeps a type well-kinded: heads are constants, and argument lists
keep their lengths. -/
theorem apply {σ : Subst} {t : Ty} (hσ : σ.Into WellKinded) (ht : t.WellKinded) :
    (t.apply σ).WellKinded := by
  induction ht with
  | var x =>
    rw [Ty.apply]
    cases hx : σ.get? x with
    | none => exact .var x
    | some u => exact hσ x u hx
  | con hc =>
    rw [Ty.apply]
    exact .con hc
  | fn hne hargs hresult ihargs ihresult =>
    rw [Ty.apply, applyAll_eq_map]
    exact .fn (by simpa using hne) (List.forall_mem_map.mpr ihargs) ihresult
  | array helem ih =>
    rw [Ty.apply, applyAll_eq_map, Ty.apply]
    exact .array ih
  | pair ha hb iha ihb =>
    rw [Ty.apply, applyAll_eq_map, Ty.apply]
    exact .pair iha ihb

theorem prim (value : Prim) : value.ty.WellKinded := by
  cases value <;> exact .con (by decide)

end WellKinded

/-! ## Unification -/

/-- Both types are well-kinded, or both are the same constant, which may be the head of another type. -/
def Comparable (t u : Ty) : Prop :=
  (t.WellKinded ∧ u.WellKinded) ∨ ∃ c, t = .con c ∧ u = .con c

theorem Comparable.apply {σ : Subst} {t u : Ty} (hσ : σ.Into WellKinded) (h : Comparable t u) :
    Comparable (t.apply σ) (u.apply σ) := by
  rcases h with ⟨ht, hu⟩ | ⟨c, rfl, rfl⟩
  · exact .inl ⟨ht.apply hσ, hu.apply hσ⟩
  · exact .inr ⟨c, by rw [Ty.apply], by rw [Ty.apply]⟩

/-- Argument lists of well-kinded types give comparable equations. -/
theorem comparable_zip {ts us : List Ty} (hts : ∀ t ∈ ts, t.WellKinded)
    (hus : ∀ u ∈ us, u.WellKinded) : ∀ e ∈ ts.zip us, Comparable e.1 e.2 := by
  intro e he
  obtain ⟨ht, hu⟩ := List.of_mem_zip (a := e.1) (b := e.2) he
  exact .inl ⟨hts _ ht, hus _ hu⟩

/-- **A step keeps equations comparable**, and binds variables to well-kinded types. -/
theorem Comparable.reduce {t u : Ty} {d : Subst} {eqs : List (Ty × Ty)} (h : Comparable t u)
    (hr : Ty.reduce t u = .ok (d, eqs)) : d.Into WellKinded ∧ ∀ e ∈ eqs, Comparable e.1 e.2 := by
  have hbind : ∀ {x v}, v.WellKinded → (bind x v).map (·, ([] : List (Ty × Ty))) = .ok (d, eqs) →
      d.Into WellKinded ∧ ∀ e ∈ eqs, Comparable e.1 e.2 := by
    intro x v hv hmap
    obtain ⟨hb, rfl⟩ := map_bind_ok hmap
    refine ⟨?_, fun e he => absurd he List.not_mem_nil⟩
    rcases bind_eq_ok hb with ⟨-, rfl⟩ | ⟨-, rfl⟩
    · exact .empty
    · exact .singleton hv
  rcases h with ⟨ht, hu⟩ | ⟨c, rfl, rfl⟩
  · unfold Ty.reduce at hr
    split at hr
    case h_1 x => exact hbind hu hr
    case h_2 x _ => exact hbind ht hr
    case h_3 a b =>
      split at hr
      · cases hr
        exact ⟨.empty, fun e he => absurd he List.not_mem_nil⟩
      · cases hr
    case h_4 args result args' result' =>
      split at hr
      · cases hr
        cases ht with | fn _ hargs hresult =>
        cases hu with | fn _ hargs' hresult' =>
        exact ⟨.empty, List.forall_mem_cons.mpr ⟨.inl ⟨hresult, hresult'⟩, comparable_zip hargs hargs'⟩⟩
      · cases hr
    case h_5 target args target' args' =>
      split at hr
      · next hlen =>
        cases hr
        refine ⟨.empty, List.forall_mem_cons.mpr ?_⟩
        -- Lists of the same length belong to the same head.
        cases ht with
        | array helem =>
          cases hu with
          | array helem' => exact ⟨.inr ⟨_, rfl, rfl⟩, comparable_zip (by simpa) (by simpa)⟩
          | pair => cases hlen
        | pair ha hb =>
          cases hu with
          | array => cases hlen
          | pair ha' hb' =>
            exact ⟨.inr ⟨_, rfl, rfl⟩, comparable_zip (by simp [ha, hb]) (by simp [ha', hb'])⟩
      · cases hr
    case h_6 => cases hr
  · rw [Ty.reduce, if_pos rfl] at hr
    cases hr
    exact ⟨.empty, fun e he => absurd he List.not_mem_nil⟩

/-- **Unification of well-kinded types** binds variables to well-kinded types, or fails with an error
that mentions such types only. -/
theorem WellKinded.unify {t u : Ty} (ht : t.WellKinded) (hu : u.WellKinded) :
    (∀ s, t.unify u = .ok s → s.Into WellKinded) ∧
      ∀ e, t.unify u = .error e → ∀ v ∈ e.types, v.WellKinded := by
  obtain ⟨hok, herror⟩ := unify_keeps Comparable.reduce WellKinded.apply Comparable.apply (.inl ⟨ht, hu⟩)
  refine ⟨hok, fun e he v hv => ?_⟩
  obtain ⟨a, b, hab, ⟨e', hr⟩, hside⟩ := herror e he v hv
  rcases hab with ⟨ha, hb⟩ | ⟨c, rfl, rfl⟩
  · exact hside.elim (· ▸ ha) (· ▸ hb)
  · -- The same constant on both sides does not fail.
    rw [Ty.reduce, if_pos rfl] at hr
    cases hr

end Ty

/-! ## Inference -/

theorem Subst.fresh_into (n : Nat) (vars : List String) : (fresh n vars).Into Ty.WellKinded := by
  intro x v hx
  rcases get?_fresh n vars x with ⟨-, hget⟩ | ⟨i, -, -, hget⟩
  · rw [hget] at hx
    cases hx
  · rw [hget] at hx
    cases hx
    exact .var _

/-- Types are well-kinded. -/
def TypeInvariant.wellKinded : TypeInvariant where
  ty _ t := t.WellKinded
  scheme _ s := s.body.WellKinded
  con c := ∀ t ∈ c.result :: c.args, t.WellKinded
  ty_mono _ ht := ht
  scheme_mono _ hs := hs
  var n := .var _
  prim _ value := .prim value
  string _ := .con (by decide)
  void _ := .con (by decide)
  fn hne hargs hresult := .fn hne hargs hresult
  apply hσ ht := ht.apply hσ
  unify hd ht hu x v hx := ⟨.var x, (ht.unify hu).1 _ hd x v hx⟩
  unify_error he ht hu v hv := (ht.unify hu).2 _ he v hv
  mono ht := ht
  generalize _ ht := ht
  scheme_apply hσ hs := hs.apply fun x u hx => by
    rw [Dict.get?_without] at hx
    split at hx
    · cases hx
    · exact hσ x u hx
  instantiate hs := hs.apply (Subst.fresh_into _ _)
  construct hc n t ht := (hc t ht).apply (Subst.fresh_into _ _)

/-- The built-in values and constructors have well-kinded types. -/
theorem Env.builtin_fits (n : Nat) : TypeInvariant.wellKinded.Fits n .builtin := by
  have hvalues : ∀ e ∈ builtinValues, e.2.body.WellKinded := by
    simp [builtinValues, Scheme.mono, forElem, arithmetic, comparison, elem, Ty.int, Ty.bool, Ty.null,
      Ty.void, Ty.array, Ty.pair, Ty.WellKinded.var, Ty.WellKinded.con, Ty.WellKinded.fn,
      Ty.WellKinded.array, Ty.WellKinded.pair]
  refine ⟨fun name s hs => ?_, fun name c hc => ?_⟩
  · have hbody := hvalues (name, s) (Dict.mem_of_get?_ofList hs)
    exact ⟨hbody, fun _ => hbody⟩
  · have hmem := Dict.mem_of_get?_ofList hc
    simp only [List.mem_cons, Prod.mk.injEq, List.not_mem_nil, or_false] at hmem
    rcases hmem with ⟨-, rfl⟩ | ⟨-, rfl⟩
    · refine List.forall_mem_cons.mpr ⟨.pair (.var "a") (.var "b"), ?_⟩
      simp [Ty.WellKinded.var]
    · exact List.forall_mem_singleton.mpr (.con (by decide))

/-! ## Traces -/

/-- The types in an event; those of a scope are the types that its schemes quantify. -/
def Event.types : Event → List Ty
  | infer _ t => [t]
  | unify step => step.one :: step.two :: step.delta.values
  | scope Δ => Δ.values.map Scheme.body
  | push _ line => line.types
  | newVar _ | pop | pause _ => []

/-- All types in the trace are well-kinded. -/
structure Trace.WellKinded (trace : Trace) : Prop where
  events : ∀ e ∈ trace.events.toList, ∀ t ∈ e.types, t.WellKinded
  bindings : ∀ t ∈ trace.subst.values, t.WellKinded

namespace TypeInvariant

theorem Bindings.wellKinded_values {n : Nat} {σ : Subst} (h : wellKinded.Bindings n σ) :
    ∀ t ∈ σ.values, t.WellKinded := by
  intro t ht
  obtain ⟨x, hx⟩ := (Dict.mem_values_iff σ t).mp ht
  exact (h x t hx).2

theorem Logged.wellKinded_types {n : Nat} {e : Event} (h : wellKinded.Logged n e) :
    ∀ t ∈ e.types, t.WellKinded := by
  cases e with
  | infer src t => exact List.forall_mem_singleton.mpr h
  | unify step =>
    obtain ⟨hone, htwo, hdelta⟩ := h
    exact List.forall_mem_cons.mpr ⟨hone, List.forall_mem_cons.mpr ⟨htwo, hdelta.wellKinded_values⟩⟩
  | scope Δ =>
    refine List.forall_mem_map.mpr fun s hs => ?_
    obtain ⟨name, hname⟩ := (Dict.mem_values_iff Δ s).mp hs
    exact h name s hname
  | push src line =>
    exact fun t ht => h t (StackLine.mem_types.mp ht)
  | newVar | pop | pause => exact fun t ht => absurd ht List.not_mem_nil

theorem State.wellKinded_trace {ctx : Context} (h : wellKinded.State ctx) : ctx.trace.WellKinded := by
  refine ⟨fun e he => ?_, h.bindings.wellKinded_values⟩
  obtain ⟨before, after, hsplit⟩ := List.append_of_mem he
  exact (h.log before e after hsplit).wellKinded_types

end TypeInvariant

/-- **Inference produces well-kinded types only**: whatever the program, the type that is found, the
types in the trace, and those in the error of a run that breaks off are well-kinded. -/
theorem types_wellKinded (s : Stmt) :
    match Infer.program .builtin s with
    | .ok (t, trace) => t.WellKinded ∧ trace.WellKinded
    | .error failure => (∀ t ∈ failure.error.types, t.WellKinded) ∧ failure.trace.WellKinded := by
  obtain ⟨hstate, ⟨-, hfail⟩, hok⟩ :=
    TypeInvariant.wellKinded.safe_program.2 s (Env.builtin_fits 0) {} .initial rfl
  rcases InferM.program_cases .builtin s with ⟨r, ctx, hexec, hprogram⟩ | ⟨e, ctx, hexec, hprogram⟩
  all_goals
    rw [hexec] at hstate hfail hok
    rw [hprogram]
  · exact ⟨hstate.bindings.apply (hok r rfl).1, hstate.wellKinded_trace⟩
  · exact ⟨hfail e rfl, hstate.wellKinded_trace⟩

end TypeTrace
