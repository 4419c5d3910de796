import TypeTrace.Proofs.Assignment
import TypeTrace.Ty.Unify

/-!
# Unification finds most general unifiers

Reducing an equation loses and gains no solutions: an assignment solves it exactly when it absorbs
the binding and solves the parts.  Solving keeps the bindings found apart from the equations left,
so that no binding is ever made twice, and returns a substitution that every solution absorbs.

## Main definitions

* `Ty.Solves`: an assignment makes both sides of every equation equal
* `Ty.Clear`: bindings that are resolved and that the equations left do not mention
* `Ty.Reduces`: one step of a run, on the equations left
* `Subst.MostGeneral`: what the substitution for two types is

## Main results

* `Ty.reduce_solves`, `Ty.reduce_error`: one step of unification
* `Ty.solve_spec`: a run of unification
* `Ty.solve_keeps`: what every step keeps holds of the result, and of the equation that fails
* `Ty.unify_ok`, `Ty.unify_error`: unification succeeds exactly on types with a unifier, and then
  its result is the most general one
* `Ty.unify_computes_mgu`: all of this in terms of substitutions, for any two types
-/

namespace TypeTrace

/-- The types that an error mentions. -/
def TypeError.types : TypeError → List Ty
  | incompatible one two => [one, two]
  | occursCheck _ t => [t]
  | unboundVariable _ | arityMismatch .. | emptyLambda | emptyCall | unknownConstructor _
  | returnOutsideFunction | substitutionOverwrite _ => []

namespace Subst

/-- Every bound type has the property. -/
def Into (W : Ty → Prop) (s : Subst) : Prop := ∀ x v, s.get? x = some v → W v

variable {W : Ty → Prop}

theorem Into.empty : Into W Dict.empty := fun _ _ h => by simp at h

theorem Into.singleton {x : String} {t : Ty} (ht : W t) : Into W (.singleton x t) := by
  intro y v hy
  by_cases hyx : y = x
  · subst hyx
    rw [get?_singleton_self] at hy
    cases hy
    exact ht
  · rw [get?_singleton_of_ne t hyx] at hy
    cases hy

theorem Into.compose {new old s : Subst} (hnew : new.Into W) (hold : old.Into W)
    (happly : ∀ t, W t → W (t.apply new)) (hs : Subst.compose new old = .ok s) : s.Into W := by
  intro x v hx
  rcases get?_compose_cases hs hx with hx | ⟨u, hu, rfl⟩
  · exact hnew x v hx
  · exact happly u (hold x u hu)

end Subst

namespace Ty

/-- The assignment makes both sides of every equation equal. -/
def Solves (θ : Assignment) (eqs : List (Ty × Ty)) : Prop :=
  ∀ e ∈ eqs, e.1.assign θ = e.2.assign θ

theorem solves_nil (θ : Assignment) : Solves θ [] := fun _ h => absurd h List.not_mem_nil

theorem solves_cons {θ : Assignment} {t u : Ty} {eqs : List (Ty × Ty)} :
    Solves θ ((t, u) :: eqs) ↔ t.assign θ = u.assign θ ∧ Solves θ eqs :=
  List.forall_mem_cons

theorem solves_append {θ : Assignment} {l m : List (Ty × Ty)} :
    Solves θ (l ++ m) ↔ Solves θ l ∧ Solves θ m :=
  List.forall_mem_append

/-- Solving equations under a substitution is solving them with the substitution done first. -/
theorem solves_applyEquations {θ : Assignment} {d : Subst} {eqs : List (Ty × Ty)} :
    Solves θ (applyEquations d eqs) ↔ Solves (fun x => (d.assignment x).assign θ) eqs := by
  simp only [Solves, applyEquations, List.forall_mem_map, apply_eq_assign, assign_assign]

/-- Argument lists of one length are made equal by the solutions of the argument equations. -/
theorem solves_zip {θ : Assignment} {ts us : List Ty} (h : ts.length = us.length) :
    Solves θ (ts.zip us) ↔ ts.map (assign θ) = us.map (assign θ) := by
  induction ts generalizing us with
  | nil =>
    cases us with
    | nil => simp [Solves]
    | cons u us => simp at h
  | cons t ts ih =>
    cases us with
    | nil => simp at h
    | cons u us =>
      rw [List.zip_cons_cons, solves_cons, ih (Nat.succ.inj h), List.map_cons, List.map_cons,
        List.cons.injEq]

/-! ## One step -/

/-- An assignment absorbs the binding of a variable exactly when it makes both equal. -/
theorem absorbs_singleton {θ : Assignment} {x : String} {t : Ty} :
    θ.Absorbs (Subst.assignment (.singleton x t)) ↔ θ x = t.assign θ := by
  constructor
  · intro h
    have hx := h x
    rw [Subst.assignment_of_get? (Subst.get?_singleton_self x t)] at hx
    exact hx.symm
  · intro h y
    by_cases hy : y = x
    · subst hy
      rw [Subst.assignment_of_get? (Subst.get?_singleton_self y t), h]
    · rw [Subst.assignment_of_get?_none (Subst.get?_singleton_of_ne t hy), assign_var]

theorem bind_absorbs {x : String} {t : Ty} {d : Subst} (h : bind x t = .ok d) (θ : Assignment) :
    θ x = t.assign θ ↔ θ.Absorbs d.assignment := by
  rcases bind_eq_ok h with ⟨rfl, rfl⟩ | ⟨-, rfl⟩
  · rw [Subst.assignment_empty, assign_var]
    exact ⟨fun _ => θ.absorbs_var, fun _ => rfl⟩
  · exact absorbs_singleton.symm

theorem size_le_sizeAll {t : Ty} {ts : List Ty} (h : t ∈ ts) : t.size ≤ sizeAll ts := by
  induction ts with
  | nil => simp at h
  | cons u us ih =>
    rw [sizeAll]
    rcases List.mem_cons.mp h with rfl | h
    · omega
    · have := ih h
      omega

/-- A variable inside a larger type is inside a smaller part of it, under every assignment. -/
theorem exists_part {x : String} {t : Ty} (hx : x ∈ t.occurrences) (hne : t ≠ .var x) :
    ∃ p : Ty, x ∈ p.occurrences ∧ p.size < t.size ∧
      ∀ θ : Assignment, (p.assign θ).size < (t.assign θ).size := by
  have harg : ∀ {p : Ty} {args : List Ty} (θ : Assignment), p ∈ args →
      (p.assign θ).size ≤ sizeAll (args.map (assign θ)) := fun θ hp =>
    size_le_sizeAll (List.mem_map_of_mem hp)
  cases t with
  | var y => exact absurd (by rw [mem_occurrences_var.mp hx]) hne
  | con c => simp at hx
  | fn args result =>
    rcases mem_occurrences_fn.mp hx with hx | ⟨p, hp, hx⟩
    · refine ⟨result, hx, by rw [size]; omega, fun θ => ?_⟩
      rw [assign_fn, size]
      omega
    · have hle := size_le_sizeAll hp
      refine ⟨p, hx, by rw [size]; omega, fun θ => ?_⟩
      have := harg θ hp
      rw [assign_fn, size]
      omega
  | app target args =>
    rcases mem_occurrences_app.mp hx with hx | ⟨p, hp, hx⟩
    · refine ⟨target, hx, by rw [size]; omega, fun θ => ?_⟩
      rw [assign_app, size]
      omega
    · have hle := size_le_sizeAll hp
      refine ⟨p, hx, by rw [size]; omega, fun θ => ?_⟩
      have := harg θ hp
      rw [assign_app, size]
      omega

/-- The type of a variable is no larger than a type that the variable occurs in. -/
theorem size_le_size_assign (θ : Assignment) {x : String} {t : Ty} (hx : x ∈ t.occurrences) :
    (θ x).size ≤ (t.assign θ).size := by
  by_cases hne : t = .var x
  · rw [hne, assign_var]
  · obtain ⟨p, hp, hlt, hsize⟩ := exists_part hx hne
    exact (size_le_size_assign θ hp).trans (hsize θ).le
termination_by t.size

/-- **The occurs check is right**: no assignment makes a variable equal to a type that properly
contains it. -/
theorem ne_assign_of_occurs (θ : Assignment) {x : String} {t : Ty} (hx : x ∈ t.occurrences)
    (hne : t ≠ .var x) : θ x ≠ t.assign θ := by
  intro h
  obtain ⟨p, hp, -, hsize⟩ := exists_part hx hne
  have hle := size_le_size_assign θ hp
  have hlt := hsize θ
  rw [← h] at hlt
  omega

theorem bind_error {x : String} {t : Ty} {e : TypeError} (h : bind x t = .error e) :
    (∀ θ : Assignment, θ x ≠ t.assign θ) ∧ ∀ name, e ≠ .substitutionOverwrite name := by
  obtain ⟨rfl, hx, hne⟩ := bind_eq_error h
  exact ⟨fun θ => ne_assign_of_occurs θ hx hne, nofun⟩

theorem map_bind_error {x : String} {t : Ty} {e : TypeError}
    (h : (bind x t).map (·, ([] : List (Ty × Ty))) = .error e) : bind x t = .error e := by
  cases hb : bind x t with
  | ok s => simp [hb, Except.map] at h
  | error e' => simpa [hb, Except.map] using h

/-- **Reducing keeps the solutions**: an assignment solves an equation exactly when it absorbs the
binding and solves the parts. -/
theorem reduce_solves {t u : Ty} {d : Subst} {eqs : List (Ty × Ty)}
    (h : reduce t u = .ok (d, eqs)) (θ : Assignment) :
    t.assign θ = u.assign θ ↔ θ.Absorbs d.assignment ∧ Solves θ eqs := by
  unfold reduce at h
  split at h
  case h_1 x =>
    obtain ⟨hb, rfl⟩ := map_bind_ok h
    rw [assign_var, bind_absorbs hb]
    exact ⟨fun h => ⟨h, solves_nil θ⟩, And.left⟩
  case h_2 x _ =>
    obtain ⟨hb, rfl⟩ := map_bind_ok h
    rw [assign_var, eq_comm, bind_absorbs hb]
    exact ⟨fun h => ⟨h, solves_nil θ⟩, And.left⟩
  case h_3 a b =>
    split at h
    case isTrue hab =>
      cases h
      rw [hab, Subst.assignment_empty]
      exact ⟨fun _ => ⟨θ.absorbs_var, solves_nil θ⟩, fun _ => rfl⟩
    case isFalse => cases h
  case h_4 args result args' result' =>
    split at h
    case isTrue hlen =>
      cases h
      rw [Subst.assignment_empty, solves_cons, solves_zip hlen, assign_fn, assign_fn, fn.injEq]
      exact ⟨fun h => ⟨θ.absorbs_var, h.2, h.1⟩, fun h => ⟨h.2.2, h.2.1⟩⟩
    case isFalse => cases h
  case h_5 target args target' args' =>
    split at h
    case isTrue hlen =>
      cases h
      rw [Subst.assignment_empty, solves_cons, solves_zip hlen, assign_app, assign_app, app.injEq]
      exact ⟨fun h => ⟨θ.absorbs_var, h⟩, And.right⟩
    case isFalse => cases h
  case h_6 => cases h

/-- **An equation that cannot be reduced has no solutions.** -/
theorem reduce_error {t u : Ty} {e : TypeError} (h : reduce t u = .error e) :
    (∀ θ : Assignment, t.assign θ ≠ u.assign θ) ∧ ∀ name, e ≠ .substitutionOverwrite name := by
  unfold reduce at h
  split at h
  case h_1 x =>
    obtain ⟨hne, he⟩ := bind_error (map_bind_error h)
    exact ⟨fun θ hθ => hne θ (by rwa [assign_var] at hθ), he⟩
  case h_2 x _ =>
    obtain ⟨hne, he⟩ := bind_error (map_bind_error h)
    exact ⟨fun θ hθ => hne θ (by rw [assign_var] at hθ; exact hθ.symm), he⟩
  case h_3 a b =>
    split at h
    case isTrue => cases h
    case isFalse hab =>
      cases h
      exact ⟨fun θ hθ => hab (by simpa using hθ), nofun⟩
  case h_4 args result args' result' =>
    split at h
    case isTrue => cases h
    case isFalse hlen =>
      cases h
      refine ⟨fun θ hθ => hlen ?_, nofun⟩
      rw [assign_fn, assign_fn, fn.injEq] at hθ
      simpa using congrArg List.length hθ.1
  case h_5 target args target' args' =>
    split at h
    case isTrue => cases h
    case isFalse hlen =>
      cases h
      refine ⟨fun θ hθ => hlen ?_, nofun⟩
      rw [assign_app, assign_app, app.injEq] at hθ
      simpa using congrArg List.length hθ.2
  -- Neither side is a variable, and an assignment does not change the outermost constructor.
  case h_6 hvar hvar' hcon hfn happ =>
    cases h
    refine ⟨fun θ hθ => ?_, nofun⟩
    cases t <;> cases u <;> grind [assign_con, assign_fn, assign_app]

/-- The error of a step mentions the two sides of the equation. -/
theorem reduce_error_types {t u : Ty} {e : TypeError} (h : reduce t u = .error e) :
    ∀ v ∈ e.types, v = t ∨ v = u := by
  unfold reduce at h
  split at h
  case h_1 x =>
    obtain ⟨rfl, -⟩ := bind_eq_error (map_bind_error h)
    exact List.forall_mem_singleton.mpr (.inr rfl)
  case h_2 x _ =>
    obtain ⟨rfl, -⟩ := bind_eq_error (map_bind_error h)
    exact List.forall_mem_singleton.mpr (.inl rfl)
  case h_3 | h_4 | h_5 =>
    split at h
    · cases h
    · cases h
      simp [TypeError.types]
  case h_6 =>
    cases h
    simp [TypeError.types]

/-- The binding of a step is resolved. -/
theorem reduce_resolved {t u : Ty} {d : Subst} {eqs : List (Ty × Ty)}
    (h : reduce t u = .ok (d, eqs)) : d.Resolved := by
  rcases reduce_eq_ok h with ⟨rfl, -, -⟩ | ⟨x, v, rfl, -, hx, -, -⟩
  · exact Subst.resolved_empty
  · intro y w hy z hz
    by_cases hyx : y = x
    · subst hyx
      obtain rfl : v = w := by simpa [Subst.get?_singleton_self] using hy
      exact Subst.get?_singleton_of_ne v fun hzy => hx (hzy ▸ hz)
    · rw [Subst.get?_singleton_of_ne v hyx] at hy
      cases hy

/-- The binding of a step stays inside the equation. -/
theorem reduce_bound {t u : Ty} {d : Subst} {eqs : List (Ty × Ty)}
    (h : reduce t u = .ok (d, eqs)) {x : String} {v : Ty} (hx : d.get? x = some v) :
    (x ∈ t.occurrences ∨ x ∈ u.occurrences) ∧
      ∀ y ∈ v.occurrences, y ∈ t.occurrences ∨ y ∈ u.occurrences := by
  rcases reduce_eq_ok h with ⟨rfl, -, -⟩ | ⟨z, w, rfl, -, -, hz, hw⟩
  · simp at hx
  · by_cases hxz : x = z
    · subst hxz
      obtain rfl : w = v := by simpa [Subst.get?_singleton_self] using hx
      exact ⟨hz, hw⟩
    · rw [Subst.get?_singleton_of_ne w hxz] at hx
      cases hx

/-- The parts of an equation mention only its variables. -/
theorem reduce_vars {t u : Ty} {d : Subst} {eqs : List (Ty × Ty)}
    (h : reduce t u = .ok (d, eqs)) :
    ∀ y ∈ equationVars eqs, y ∈ t.occurrences ∨ y ∈ u.occurrences := by
  rcases reduce_eq_ok h with ⟨-, -, hvars⟩ | ⟨x, v, -, rfl, -, -, -⟩
  · exact hvars
  · simp [equationVars]

/-! ## A run -/

theorem mem_equationVars_cons {x : String} {t u : Ty} {eqs : List (Ty × Ty)} :
    x ∈ equationVars ((t, u) :: eqs) ↔
      (x ∈ t.occurrences ∨ x ∈ u.occurrences) ∨ x ∈ equationVars eqs := by
  simp [equationVars, or_assoc]

theorem mem_equationVars_append {x : String} {l m : List (Ty × Ty)} :
    x ∈ equationVars (l ++ m) ↔ x ∈ equationVars l ∨ x ∈ equationVars m := by
  simp [equationVars]

theorem mem_equationVars_apply {x : String} {d : Subst} {eqs : List (Ty × Ty)}
    (h : x ∈ equationVars (applyEquations d eqs)) :
    ∃ y ∈ equationVars eqs, x ∈ (d.assignment y).occurrences := by
  simp only [equationVars, applyEquations, List.mem_flatMap, List.mem_map, List.mem_append,
    apply_eq_assign] at h ⊢
  obtain ⟨_, ⟨e, he, rfl⟩, hx | hx⟩ := h
  · obtain ⟨y, hy, hx⟩ := mem_occurrences_assign.mp hx
    exact ⟨y, ⟨e, he, .inl hy⟩, hx⟩
  · obtain ⟨y, hy, hx⟩ := mem_occurrences_assign.mp hx
    exact ⟨y, ⟨e, he, .inr hy⟩, hx⟩

/-- The bindings found so far are resolved, and the equations left do not mention what they bind. -/
structure Clear (found : Subst) (eqs : List (Ty × Ty)) : Prop where
  /-- The bindings are resolved. -/
  resolved : found.Resolved
  /-- The equations left mention no bound variable. -/
  apart : ∀ x ∈ equationVars eqs, found.get? x = none

theorem clear_empty (eqs : List (Ty × Ty)) : Clear .empty eqs :=
  ⟨Subst.resolved_empty, fun x _ => Dict.get?_empty x⟩

/-- **A step of a run never fails to compose**, and keeps bindings and equations apart. -/
theorem Clear.step {found d : Subst} {t u : Ty} {eqs rest : List (Ty × Ty)}
    (hc : Clear found ((t, u) :: rest)) (h : reduce t u = .ok (d, eqs)) :
    ∃ found', d.compose found = .ok found' ∧ Clear found' (applyEquations d (eqs ++ rest)) := by
  have hfree : ∀ x, x ∈ t.occurrences ∨ x ∈ u.occurrences → found.get? x = none := fun x hx =>
    hc.apart x (mem_equationVars_cons.mpr (.inl hx))
  -- The equation mentions no bound variable, so the step binds a new one.
  have hdisj : ∀ x ∈ d.keys, x ∉ found.keys := by
    intro x hd hf
    obtain ⟨v, hv⟩ := (Dict.mem_keys_iff d x).mp hd
    obtain ⟨w, hw⟩ := (Dict.mem_keys_iff found x).mp hf
    rw [hfree x (reduce_bound h hv).1] at hw
    cases hw
  have hcomp := Subst.compose_eq_ok_iff.mpr ⟨hdisj, rfl⟩
  refine ⟨_, hcomp, (reduce_resolved h).compose hc.resolved ?_ hcomp, ?_⟩
  · exact fun x v hv y hy => hfree y ((reduce_bound h hv).2 y hy)
  · intro x hx
    have hd : d.get? x = none := by
      simp only [equationVars, applyEquations, List.mem_flatMap, List.mem_map,
        List.mem_append] at hx
      obtain ⟨_, ⟨e, -, rfl⟩, hx | hx⟩ := hx <;> exact (reduce_resolved h).get?_eq_none hx
    -- What is put in for the new variable comes from the equation as well.
    have hf : found.get? x = none := by
      obtain ⟨y, hy, hx⟩ := mem_equationVars_apply hx
      cases hdy : d.get? y with
      | some v =>
        rw [Subst.assignment_of_get? hdy] at hx
        exact hfree x ((reduce_bound h hdy).2 x hx)
      | none =>
        rw [Subst.assignment_of_get?_none hdy, mem_occurrences_var] at hx
        subst hx
        rcases mem_equationVars_append.mp hy with hy | hy
        · exact hfree x (reduce_vars h x hy)
        · exact hc.apart x (mem_equationVars_cons.mpr (.inr hy))
    rw [Subst.get?_compose hcomp, hd, hf]
    rfl

/-- What a run that ends in `s` has added to the bindings `found`: a solution of the equations,
over their variables, which all solutions absorb. -/
structure Solution (found s : Subst) (eqs : List (Ty × Ty)) (δ : Assignment) : Prop where
  /-- The result is what was found, with the solution applied. -/
  result : ∀ x, s.assignment x = (found.assignment x).assign δ
  /-- The solution stays inside the equations. -/
  localTo : δ.LocalTo {x | x ∈ equationVars eqs}
  /-- It solves the equations. -/
  solves : Solves δ eqs
  /-- Every solution absorbs it. -/
  general : ∀ θ : Assignment, Solves θ eqs → θ.Absorbs δ

theorem Solution.step {found found' d s : Subst} {t u : Ty} {eqs rest : List (Ty × Ty)}
    {δ : Assignment} (h : reduce t u = .ok (d, eqs)) (hcomp : d.compose found = .ok found')
    (hs : Solution found' s (applyEquations d (eqs ++ rest)) δ) :
    Solution found s ((t, u) :: rest) fun x => (d.assignment x).assign δ := by
  have hvars : ∀ x ∈ equationVars (eqs ++ rest), x ∈ equationVars ((t, u) :: rest) := by
    intro x hx
    rw [mem_equationVars_cons]
    exact (mem_equationVars_append.mp hx).imp_left (reduce_vars h x)
  -- The step binds a variable of the equation, to a type over variables of the equation.
  have hd : d.assignment.LocalTo {x | x ∈ equationVars ((t, u) :: rest)} := by
    refine ⟨fun x hx => Subst.assignment_of_get?_none ?_, fun x hx y hy => ?_⟩
    · by_contra hne
      obtain ⟨v, hv⟩ := Option.ne_none_iff_exists'.mp hne
      exact hx (mem_equationVars_cons.mpr (.inl (reduce_bound h hv).1))
    · cases hv : d.get? x with
      | none =>
        rw [Subst.assignment_of_get?_none hv, mem_occurrences_var] at hy
        exact hy ▸ hx
      | some v =>
        rw [Subst.assignment_of_get? hv] at hy
        exact mem_equationVars_cons.mpr (.inl ((reduce_bound h hv).2 y hy))
  have hδ : δ.LocalTo {x | x ∈ equationVars ((t, u) :: rest)} := by
    refine hs.localTo.mono fun x hx => ?_
    obtain ⟨y, hy, hx⟩ := mem_equationVars_apply hx
    exact hd.keeps y (hvars y hy) x hx
  -- The later solution solves what is left with the step applied, so the two together solve it.
  have hsolves := solves_append.mp (solves_applyEquations.mp hs.solves)
  refine ⟨fun x => ?_, hd.comp hδ, ?_, fun θ hθ => ?_⟩
  · rw [hs.result, Subst.assignment_compose hcomp, assign_assign]
  · refine solves_cons.mpr ⟨(reduce_solves h _).mpr ⟨fun x => ?_, hsolves.1⟩, hsolves.2⟩
    rw [← assign_assign, (reduce_resolved h).absorbs x]
  · obtain ⟨htu, hrest⟩ := solves_cons.mp hθ
    obtain ⟨habs, heqs⟩ := (reduce_solves h θ).mp htu
    refine habs.comp (hs.general θ (solves_applyEquations.mpr ?_))
    rw [funext habs]
    exact solves_append.mpr ⟨heqs, hrest⟩

/-- One equation after the other. -/
theorem solve_cons (found : Subst) (t u : Ty) (rest : List (Ty × Ty)) :
    solve found ((t, u) :: rest) = (reduce t u).bind fun r =>
      (r.1.compose found).bind fun found' => solve found' (applyEquations r.1 (r.2 ++ rest)) := by
  rw [solve]
  cases hr : reduce t u with
  | error e => rfl
  | ok r =>
    simp only [Except.bind]
    cases r.1.compose found <;> rfl

/-- An equation that is a binding. -/
theorem unify_of_reduce {t u : Ty} {d : Subst} (h : reduce t u = .ok (d, []))
    (hd : d.compose .empty = .ok d) : t.unify u = .ok d := by
  rw [unify, solve_cons, h]
  simp only [Except.bind, hd]
  rw [List.append_nil, applyEquations, List.map_nil, solve]

/-- Induction along a run.  The equations are kept clear, so a step is always composed with the bindings
found before. -/
@[elab_as_elim]
theorem Clear.induction {motive : Subst → List (Ty × Ty) → Prop}
    (done : ∀ found, found.Resolved → motive found [])
    (fail : ∀ found t u rest e, reduce t u = .error e → motive found ((t, u) :: rest))
    (step : ∀ found found' t u rest d parts, reduce t u = .ok (d, parts) →
      d.compose found = .ok found' →
      solve found ((t, u) :: rest) = solve found' (applyEquations d (parts ++ rest)) →
      motive found' (applyEquations d (parts ++ rest)) → motive found ((t, u) :: rest))
    {found : Subst} {eqs : List (Ty × Ty)} (hc : Clear found eqs) : motive found eqs := by
  induction found, eqs using solve.induct with
  | case1 found => exact done found hc.resolved
  | case2 found t u rest e hr => exact fail found t u rest e hr
  | case3 found t u rest d parts hr e he =>
    obtain ⟨found', hcomp, -⟩ := hc.step hr
    rw [he] at hcomp
    cases hcomp
  | case4 found t u rest d parts hr found' hcomp ih =>
    obtain ⟨found'', hcomp', hc'⟩ := hc.step hr
    obtain rfl : found' = found'' := Except.ok.inj (hcomp.symm.trans hcomp')
    refine step found found' t u rest d parts hr hcomp ?_ (ih hc')
    rw [solve_cons, hr]
    simp only [Except.bind, hcomp]

/-- **A run succeeds exactly when the equations have a solution**, and then returns a most general
one; it never binds a variable twice. -/
theorem solve_spec {found : Subst} {eqs : List (Ty × Ty)} (hc : Clear found eqs) :
    match solve found eqs with
    | .ok s => s.Resolved ∧ ∃ δ, Solution found s eqs δ
    | .error e => (∀ θ, ¬ Solves θ eqs) ∧ ∀ name, e ≠ .substitutionOverwrite name := by
  refine hc.induction ?done ?fail ?step
  case done =>
    intro found hres
    rw [solve]
    refine ⟨hres, .var, fun x => (assign_self _).symm, .var _, solves_nil _, ?_⟩
    exact fun θ _ => θ.absorbs_var
  case fail =>
    intro found t u rest e hr
    rw [solve_cons, hr]
    obtain ⟨hne, he⟩ := reduce_error hr
    exact ⟨fun θ hθ => hne θ (solves_cons.mp hθ).1, he⟩
  case step =>
    intro found found' t u rest d parts hr hcomp hrun ih
    rw [hrun]
    split
    case h_1 s hs =>
      rw [hs] at ih
      obtain ⟨hres, δ, hδ⟩ := ih
      exact ⟨hres, _, hδ.step hr hcomp⟩
    case h_2 e he =>
      rw [he] at ih
      -- A solution of all equations would absorb the binding, and so solve what the step leaves.
      refine ⟨fun θ hθ => ih.1 θ ?_, ih.2⟩
      obtain ⟨htu, hrest⟩ := solves_cons.mp hθ
      obtain ⟨habs, hparts⟩ := (reduce_solves hr θ).mp htu
      rw [solves_applyEquations, funext habs]
      exact solves_append.mpr ⟨hparts, hrest⟩

/-- **What every step keeps**: let reducing an equation with `P` bind variables to types with `W`, and
leave equations with `P`, and let both properties survive such bindings.  Then a run binds variables to
types with `W`, or it fails at an equation with `P`. -/
theorem solve_keeps {W : Ty → Prop} {P : Ty → Ty → Prop}
    (hreduce : ∀ {t u d eqs}, P t u → reduce t u = .ok (d, eqs) →
      d.Into W ∧ ∀ e ∈ eqs, P e.1 e.2)
    (htype : ∀ {d : Subst} {t}, d.Into W → W t → W (t.apply d))
    (hequation : ∀ {d : Subst} {t u}, d.Into W → P t u → P (t.apply d) (u.apply d))
    {found : Subst} {eqs : List (Ty × Ty)} (hc : Clear found eqs) :
    found.Into W → (∀ e ∈ eqs, P e.1 e.2) →
    match solve found eqs with
    | .ok s => s.Into W
    | .error err => ∃ t u, P t u ∧ reduce t u = .error err := by
  refine hc.induction ?done ?fail ?step
  case done =>
    intro found _ hfound _
    rw [solve]
    exact hfound
  case fail =>
    intro found t u rest err hr _ heqs
    rw [solve_cons, hr]
    exact ⟨t, u, heqs _ List.mem_cons_self, hr⟩
  case step =>
    intro found found' t u rest d parts hr hcomp hrun ih hfound heqs
    obtain ⟨hhead, hrest⟩ := List.forall_mem_cons.mp heqs
    obtain ⟨hd, hparts⟩ := hreduce hhead hr
    rw [hrun]
    refine ih (hd.compose hfound (fun _ ht => htype hd ht) hcomp) (List.forall_mem_map.mpr fun e he => ?_)
    exact hequation hd ((List.mem_append.mp he).elim (hparts e) (hrest e))

/-- One step of a run: the first equation is reduced, and its binding is applied to what is left. -/
def Reduces (eqs' eqs : List (Ty × Ty)) : Prop :=
  ∃ t u rest d parts, eqs = (t, u) :: rest ∧ reduce t u = .ok (d, parts) ∧
    eqs' = applyEquations d (parts ++ rest)

/-- **Every run ends**: variables are eliminated for good, and otherwise the equations shrink. -/
theorem wellFounded_reduces : WellFounded Reduces := by
  have hlex := (Prod.lex Nat.lt_wfRel Nat.lt_wfRel).wf
  refine Subrelation.wf ?_ (InvImage.wf equationRank hlex)
  rintro _ _ ⟨t, u, rest, d, parts, rfl, hr, rfl⟩
  exact equationRank_reduce_lt hr

end Ty

/-! ## Two types -/

/-- What the substitution that unification finds for `t` and `u` is. -/
structure Subst.MostGeneral (s : Subst) (t u : Ty) : Prop where
  /-- It is resolved. -/
  resolved : s.Resolved
  /-- It binds and mentions variables of the two types only. -/
  localTo : s.assignment.LocalTo {x | x ∈ t.occurrences ∨ x ∈ u.occurrences}
  /-- It makes them equal. -/
  unifies : t.apply s = u.apply s
  /-- Every assignment that makes them equal absorbs it. -/
  general : ∀ θ : Assignment, t.assign θ = u.assign θ → θ.Absorbs s.assignment

namespace Ty

variable {t u : Ty}

/-- **Unification finds a most general unifier.** -/
theorem unify_ok {s : Subst} (h : t.unify u = .ok s) : s.MostGeneral t u := by
  have hspec := solve_spec (clear_empty [(t, u)])
  rw [show solve .empty [(t, u)] = .ok s from h] at hspec
  obtain ⟨hres, δ, hδ⟩ := hspec
  have hs : s.assignment = δ := by
    funext x
    rw [hδ.result, Subst.assignment_empty, assign_var]
  have hsolves := (solves_cons.mp hδ.solves).1
  refine ⟨hres, ?_, ?_, fun θ hθ => ?_⟩
  · rw [hs]
    exact hδ.localTo.mono fun x hx => by simpa [equationVars] using hx
  · rw [apply_eq_assign, apply_eq_assign, hs, hsolves]
  · rw [hs]
    exact hδ.general θ (solves_cons.mpr ⟨hθ, solves_nil θ⟩)

/-- **Unification fails only on types without a unifier**, and never because a variable is bound
twice. -/
theorem unify_error {e : TypeError} (h : t.unify u = .error e) :
    (∀ θ : Assignment, t.assign θ ≠ u.assign θ) ∧ ∀ name, e ≠ .substitutionOverwrite name := by
  have hspec := solve_spec (clear_empty [(t, u)])
  rw [show solve .empty [(t, u)] = .error e from h] at hspec
  exact ⟨fun θ hθ => hspec.1 θ (solves_cons.mpr ⟨hθ, solves_nil θ⟩), hspec.2⟩

/-- What every step keeps, for the unification of two types: the error mentions types of equations only. -/
theorem unify_keeps {W : Ty → Prop} {P : Ty → Ty → Prop}
    (hreduce : ∀ {t u d eqs}, P t u → reduce t u = .ok (d, eqs) →
      d.Into W ∧ ∀ e ∈ eqs, P e.1 e.2)
    (htype : ∀ {d : Subst} {t}, d.Into W → W t → W (t.apply d))
    (hequation : ∀ {d : Subst} {t u}, d.Into W → P t u → P (t.apply d) (u.apply d)) (h : P t u) :
    (∀ s, t.unify u = .ok s → s.Into W) ∧
      ∀ e, t.unify u = .error e → ∀ v ∈ e.types, ∃ a b, P a b ∧ (∃ e', reduce a b = .error e') ∧
        (v = a ∨ v = b) := by
  have hrun := solve_keeps hreduce htype hequation (clear_empty [(t, u)]) .empty
    (List.forall_mem_singleton.mpr h)
  refine ⟨fun s hs => ?_, fun e he v hv => ?_⟩
  · rwa [show solve .empty [(t, u)] = .ok s from hs] at hrun
  · rw [show solve .empty [(t, u)] = .error e from he] at hrun
    obtain ⟨a, b, hab, hr⟩ := hrun
    exact ⟨a, b, hab, ⟨e, hr⟩, reduce_error_types hr v hv⟩

/-- The types in an error mention variables of the two types only. -/
theorem unify_error_vars {e : TypeError} (h : t.unify u = .error e) {v : Ty} (hv : v ∈ e.types)
    {x : String} (hx : x ∈ v.occurrences) : x ∈ t.occurrences ∨ x ∈ u.occurrences := by
  let A : Set String := {x | x ∈ t.occurrences ∨ x ∈ u.occurrences}
  let W (v : Ty) : Prop := ∀ x ∈ v.occurrences, x ∈ A
  have hreduce {a b : Ty} {d : Subst} {eqs : List (Ty × Ty)} (hab : W a ∧ W b)
      (hr : reduce a b = .ok (d, eqs)) : d.Into W ∧ ∀ e ∈ eqs, W e.1 ∧ W e.2 := by
    have hside (z : String) (hz : z ∈ a.occurrences ∨ z ∈ b.occurrences) : z ∈ A :=
      hz.elim (hab.1 z) (hab.2 z)
    have hpart (e : Ty × Ty) (he : e ∈ eqs) (z : String) (hz : z ∈ e.1.occurrences ++ e.2.occurrences) :=
      hside z (reduce_vars hr z (List.mem_flatMap.mpr ⟨e, he, hz⟩))
    refine ⟨fun y w hy z hz => hside z ((reduce_bound hr hy).2 z hz), fun e he => ⟨?_, ?_⟩⟩
    · exact fun z hz => hpart e he z (List.mem_append_left _ hz)
    · exact fun z hz => hpart e he z (List.mem_append_right _ hz)
  have hrun := unify_keeps (P := fun a b => W a ∧ W b) hreduce Subst.mem_of_mem_apply
    (fun hd hab => ⟨Subst.mem_of_mem_apply hd hab.1, Subst.mem_of_mem_apply hd hab.2⟩)
    ⟨fun y hy => .inl hy, fun y hy => .inr hy⟩
  obtain ⟨a, b, ⟨ha, hb⟩, -, rfl | rfl⟩ := hrun.2 e h v hv
  · exact ha x hx
  · exact hb x hx

/-- Types that some assignment makes equal are unified. -/
theorem exists_unify_ok {θ : Assignment} (h : t.assign θ = u.assign θ) :
    ∃ s, t.unify u = .ok s := by
  cases hs : t.unify u with
  | ok s => exact ⟨s, rfl⟩
  | error e => exact absurd h ((unify_error hs).1 θ)

end Ty

/-- **A unifier of types that are up to date can be added to the bindings**: it binds no variable
again and brings none back. -/
theorem Subst.MostGeneral.compose {s d : Subst} {t u : Ty} (hs : s.Resolved)
    (h : d.MostGeneral (t.apply s) (u.apply s)) :
    ∃ s', d.compose s = .ok s' ∧ s'.Resolved := by
  have hfree : ∀ x ∈ {x | x ∈ (t.apply s).occurrences ∨ x ∈ (u.apply s).occurrences},
      s.get? x = none := fun x hx => hx.elim hs.get?_eq_none hs.get?_eq_none
  -- Types that are up to date mention no bound variable.
  have hdisj : ∀ x ∈ d.keys, x ∉ s.keys := by
    intro x hd hx
    obtain ⟨v, hv⟩ := (Dict.mem_keys_iff d x).mp hd
    obtain ⟨w, hw⟩ := (Dict.mem_keys_iff s x).mp hx
    rw [hfree x (h.resolved.mem_of_localTo h.localTo hv).1] at hw
    cases hw
  have hcomp := Subst.compose_eq_ok_iff.mpr ⟨hdisj, rfl⟩
  refine ⟨_, hcomp, h.resolved.compose hs (fun x v hv y hy => ?_) hcomp⟩
  exact hfree y ((h.resolved.mem_of_localTo h.localTo hv).2 y hy)

namespace Ty

/-- **Unification computes most general unifiers**, for any two types.  Every run ends.  It succeeds
exactly if some substitution makes the types equal; then the result makes them equal, binds and puts
in variables of theirs only, puts in none that it binds, and every substitution that makes the types
equal factors through it.  A variable is never bound twice. -/
theorem unify_computes_mgu (one two : Ty) :
    Acc Reduces [(one, two)] ∧
    ((∃ s, one.unify two = .ok s) ↔ ∃ u : Subst, one.apply u = two.apply u) ∧
    (∀ s, one.unify two = .ok s →
      one.apply s = two.apply s ∧
      (∀ x ∈ s.keys, x ∈ one.free ∨ x ∈ two.free) ∧
      (∀ v ∈ s.values, ∀ x ∈ v.free, x ∈ one.free ∨ x ∈ two.free) ∧
      (∀ x ∈ s.keys, ∀ v ∈ s.values, x ∉ v.free) ∧
      ∀ u : Subst, one.apply u = two.apply u → ∀ t : Ty, t.apply u = (t.apply s).apply u) ∧
    ∀ name, one.unify two ≠ .error (.substitutionOverwrite name) := by
  refine ⟨wellFounded_reduces.apply _, ⟨?_, ?_⟩, fun s hs => ?_, fun name hname => ?_⟩
  · rintro ⟨s, hs⟩
    exact ⟨s, (unify_ok hs).unifies⟩
  · rintro ⟨u, hu⟩
    rw [apply_eq_assign, apply_eq_assign] at hu
    exact exists_unify_ok hu
  · have hmg := unify_ok hs
    refine ⟨hmg.unifies, fun x hx => ?_, fun v hv x hx => ?_, fun x hx v hv hxv => ?_,
      fun u hu t => ?_⟩
    · obtain ⟨v, hv⟩ := (Dict.mem_keys_iff s x).mp hx
      simpa using (hmg.resolved.mem_of_localTo hmg.localTo hv).1
    · obtain ⟨y, hy⟩ := (Dict.mem_values_iff s v).mp hv
      simpa using (hmg.resolved.mem_of_localTo hmg.localTo hy).2 x (mem_free.mp hx)
    · obtain ⟨y, hy⟩ := (Dict.mem_values_iff s v).mp hv
      obtain ⟨w, hw⟩ := (Dict.mem_keys_iff s x).mp hx
      rw [hmg.resolved y v hy x (mem_free.mp hxv)] at hw
      cases hw
    · -- A substitution that makes the types equal absorbs the result, seen as an assignment.
      rw [apply_eq_assign, apply_eq_assign] at hu
      rw [apply_eq_assign u (t.apply s), (hmg.general _ hu).apply, apply_eq_assign]
  · exact (unify_error hname).2 name rfl

end Ty
end TypeTrace
