import TypeTrace.Proofs.Assignment
import TypeTrace.Proofs.Typing

/-!
# Schemes and environments under an assignment

Inference and a derivation do not see the same environment: the schemes of inference may mention
variables whose types are not known yet.  An assignment settles these variables, and under it a
scheme stands for a set of types, which is compared with the instances that a derivation may use.

Substitutions act on schemes without renaming quantified variables.  Provided that none of these is
captured, substituting changes no instance under an assignment that absorbs the substitution.

## Main definitions

* `Scheme.Instance`: the types that a scheme stands for under an assignment
* `Scope.Rel`, `Env.Rel`: environments with the same names, and related schemes

## Main results

* `Scheme.isInstance_iff`: without unknown variables these are the instances
* `Scheme.instance_apply`: substitution without capture keeps instances
* `Env.mem_vars_generalize`, `Env.mem_free_generalize`: what is generalised
-/

namespace TypeTrace

theorem Prim.assign_ty (value : Prim) (θ : Assignment) : value.ty.assign θ = value.ty := by
  cases value <;> exact Ty.assign_con ..

/-! ## Schemes -/

namespace Scheme

variable {θ η : Assignment} {σ : Subst} {s : Scheme} {t u : Ty} {x y z : String}

theorem mem_free : x ∈ s.free ↔ x ∈ s.body.occurrences ∧ x ∉ s.vars := by
  simp [free]

@[simp] theorem mem_free_mono : x ∈ (mono t).free ↔ x ∈ t.occurrences := by
  simp [mem_free, mono]

theorem assignment_without (σ : Subst) (vars : List String) (x : String) :
    Subst.assignment (σ.without vars) x = if x ∈ vars then .var x else σ.assignment x := by
  rw [Subst.assignment, Dict.get?_without]
  by_cases hx : x ∈ vars <;> simp [hx, Subst.assignment]

/-- The free variables after a substitution are those put in for the free ones before, unless they
are captured. -/
theorem mem_free_apply :
    z ∈ (s.apply σ).free ↔ z ∉ s.vars ∧ ∃ y ∈ s.free, z ∈ (σ.assignment y).occurrences := by
  rw [mem_free, apply, Ty.mem_occurrences_apply, and_comm]
  refine and_congr_right fun hz => exists_congr fun y => ?_
  rw [assignment_without, mem_free]
  by_cases hy : y ∈ s.vars
  · have hne : z ≠ y := fun h => hz (h ▸ hy)
    simp [hy, hne]
  · simp [hy]

/-- The types that the scheme stands for, when its free variables have the types assigned. -/
def Instance (θ : Assignment) (s : Scheme) (u : Ty) : Prop :=
  ∃ ρ : Assignment, u = s.body.assign fun x => if x ∈ s.vars then ρ x else θ x

theorem instance_mono : (mono t).Instance θ u ↔ u = t.assign θ := by
  simp [Instance, mono]

/-- Only the free variables of a scheme count for its instances. -/
theorem Instance.congr (h : ∀ x ∈ s.free, θ x = η x) (hu : s.Instance θ u) : s.Instance η u := by
  obtain ⟨ρ, rfl⟩ := hu
  refine ⟨ρ, Ty.assign_congr fun x hx => ?_⟩
  by_cases hv : x ∈ s.vars
  · rw [if_pos hv, if_pos hv]
  · rw [if_neg hv, if_neg hv, h x (mem_free.mpr ⟨hx, hv⟩)]

/-- **Instances are instances under the assignment that fixes all variables.** -/
theorem isInstance_iff : s.IsInstance u ↔ s.Instance .var u := by
  constructor
  · rintro ⟨ρ, hρ, rfl⟩
    refine ⟨ρ.assignment, ?_⟩
    rw [Ty.apply_eq_assign]
    refine Ty.assign_congr fun x _ => ?_
    split
    · rfl
    · case isFalse hx =>
      refine Subst.assignment_of_get?_none (Option.eq_none_iff_forall_not_mem.mpr fun v hv => hx ?_)
      exact hρ x ((Dict.mem_keys_iff ρ x).mpr ⟨v, hv⟩)
  · rintro ⟨ρ, rfl⟩
    refine ⟨.ofAssignment ρ s.vars, fun x hx => Subst.mem_of_mem_keys_ofAssignment hx, ?_⟩
    rw [Ty.apply_eq_assign]
    refine Ty.assign_congr fun x _ => ?_
    rw [Subst.assignment, Subst.get?_ofAssignment]
    split <;> rfl

theorem isInstance_mono : (mono t).IsInstance u ↔ u = t := by
  rw [isInstance_iff, instance_mono, Ty.assign_self]

/-- Substitution without capture does not show under assignments that absorb it, whatever the quantified
variables stand for. -/
theorem assign_body_apply (hθ : θ.Absorbs σ.assignment)
    (hcapture : ∀ y ∈ s.free, ∀ z ∈ (σ.assignment y).occurrences, z ∉ s.vars) (ρ : Assignment) :
    (s.apply σ).body.assign (fun x => if x ∈ s.vars then ρ x else θ x) =
      s.body.assign fun x => if x ∈ s.vars then ρ x else θ x := by
  rw [apply, Ty.apply_eq_assign, Ty.assign_assign]
  refine Ty.assign_congr fun x hx => ?_
  rw [assignment_without]
  by_cases hv : x ∈ s.vars
  · rw [if_pos hv, Ty.assign_var]
  · rw [if_neg hv, if_neg hv, ← hθ x]
    refine Ty.assign_congr fun z hz => if_neg ?_
    exact hcapture x (mem_free.mpr ⟨hx, hv⟩) z hz

/-- **Substitution without capture keeps instances**, under assignments that absorb it. -/
theorem instance_apply (hθ : θ.Absorbs σ.assignment)
    (hcapture : ∀ y ∈ s.free, ∀ z ∈ (σ.assignment y).occurrences, z ∉ s.vars) :
    (s.apply σ).Instance θ u ↔ s.Instance θ u :=
  exists_congr fun ρ => Eq.congr_right (assign_body_apply hθ hcapture ρ)

end Scheme

/-! ## Environments -/

theorem Scope.mem_free {scope : Scope} {x : String} :
    x ∈ Scope.free scope ↔ ∃ name s, scope.get? name = some s ∧ x ∈ s.free := by
  simp only [free, Name.merge, Name.mem_distinct, List.mem_flatten, Dict.values, List.map_map,
    List.mem_map, ← Dict.mem_entries_iff]
  constructor
  · rintro ⟨_, ⟨⟨name, s⟩, he, rfl⟩, hx⟩
    exact ⟨name, s, he, hx⟩
  · rintro ⟨name, s, he, hx⟩
    exact ⟨_, ⟨(name, s), he, rfl⟩, hx⟩

theorem Scope.union_assoc (a b c : Scope) : (a.union b).union c = a.union (b.union c) :=
  Dict.ext_get? fun name => by simp [Dict.get?_union, Option.or_assoc]

theorem Scope.empty_union (a : Scope) : Dict.empty.union a = a :=
  Dict.ext_get? fun name => by simp [Dict.get?_union]

section

variable {P : String → Scheme → Prop} {a b : Scope}

/-- What holds of all bindings of two scopes holds of all bindings of their union. -/
theorem Scope.forall_union (ha : ∀ name s, a.get? name = some s → P name s)
    (hb : ∀ name s, b.get? name = some s → P name s) :
    ∀ name s, (a.union b).get? name = some s → P name s := by
  intro name s hs
  rw [Dict.get?_union] at hs
  rcases Option.or_eq_some_iff.mp hs with hs | ⟨-, hs⟩
  · exact hb name s hs
  · exact ha name s hs

theorem Scope.forall_singleton {name : String} {s : Scheme} (h : P name s) :
    ∀ name' s', Dict.get? (.singleton name s) name' = some s' → P name' s' := by
  intro name' s' hs
  rw [Dict.get?_singleton] at hs
  split at hs
  · next heq =>
    obtain rfl := Std.LawfulEqOrd.eq_of_compare heq
    cases hs
    exact h
  · cases hs

theorem Scope.forall_apply {σ : Subst} (h : ∀ name s, a.get? name = some s → P name (s.apply σ)) :
    ∀ name s, (Scope.apply σ a).get? name = some s → P name s := by
  intro name s hs
  rw [Scope.apply, Dict.get?_map] at hs
  obtain ⟨s₀, hs₀, rfl⟩ := Option.map_eq_some_iff.mp hs
  exact h name s₀ hs₀

end

theorem Scope.apply_union (σ : Subst) (a b : Scope) :
    Scope.apply σ (a.union b) = (Scope.apply σ a).union (Scope.apply σ b) :=
  Dict.ext_get? fun name => by simp only [apply, Dict.get?_map, Dict.get?_union, Option.map_or]

namespace Env

variable {env : Env} {Δ Δ' : Scope} {σ : Subst} {t : Ty} {x name : String}

theorem lookup_extend : (env.extend Δ).lookup name = (Δ.get? name).or (env.lookup name) :=
  Dict.get?_union ..

theorem lookup_extend_singleton (env : Env) (name : String) (s : Scheme) :
    (env.extend (.singleton name s)).lookup name = some s := by
  simp [lookup_extend, Dict.get?_singleton]

theorem lookup_apply : (env.apply σ).lookup name = (env.lookup name).map (Scheme.apply σ) :=
  Dict.get?_map ..

theorem extend_extend : (env.extend Δ).extend Δ' = env.extend (Δ.union Δ') := by
  simp [extend, Scope.union_assoc]

theorem apply_extend : (env.extend Δ).apply σ = (env.apply σ).extend (Scope.apply σ Δ) := by
  simp only [extend, apply, Scope.apply_union]

theorem mem_free : x ∈ env.free ↔ ∃ name s, env.lookup name = some s ∧ x ∈ s.free :=
  Scope.mem_free

/-- A variable is generalised if the type mentions it and the environment does not. -/
theorem mem_vars_generalize :
    x ∈ (env.generalize t).vars ↔ x ∈ t.occurrences ∧ x ∉ env.free := by
  simp [generalize]

theorem mem_free_generalize :
    x ∈ (env.generalize t).free ↔ x ∈ t.occurrences ∧ x ∈ env.free := by
  rw [Scheme.mem_free, mem_vars_generalize]
  exact and_congr_right fun hx => by simp [generalize] at hx; simp [hx]

end Env

/-! ## Related environments -/

variable {R : Scheme → Scheme → Prop}

/-- The scopes bind the same names, to related schemes. -/
def Scope.Rel (R : Scheme → Scheme → Prop) (Δ Δ' : Scope) : Prop :=
  ∀ name, Option.Rel R (Δ.get? name) (Δ'.get? name)

namespace Scope.Rel

variable {Δ Δ' Θ Θ' : Scope}

theorem empty : Scope.Rel R .empty .empty := fun _ => .none

theorem singleton {s s' : Scheme} (name : String) (h : R s s') :
    Scope.Rel R (.singleton name s) (.singleton name s') := fun name' => by
  rw [Dict.get?_singleton, Dict.get?_singleton]
  split
  · exact .some h
  · exact .none

theorem cases (h : Scope.Rel R Δ Δ') (name : String) :
    (Δ.get? name = none ∧ Δ'.get? name = none) ∨
      ∃ s s', Δ.get? name = some s ∧ Δ'.get? name = some s' ∧ R s s' := by
  have hname := h name
  generalize Δ.get? name = a, Δ'.get? name = b at hname
  cases hname with
  | none => exact .inl ⟨rfl, rfl⟩
  | some hr => exact .inr ⟨_, _, rfl, rfl, hr⟩

theorem union (h : Scope.Rel R Δ Δ') (k : Scope.Rel R Θ Θ') :
    Scope.Rel R (Δ.union Θ) (Δ'.union Θ') := fun name => by
  rw [Dict.get?_union, Dict.get?_union]
  rcases k.cases name with ⟨hΘ, hΘ'⟩ | ⟨s, s', hΘ, hΘ', hr⟩
  · rw [hΘ, hΘ', Option.none_or, Option.none_or]
    exact h name
  · rw [hΘ, hΘ', Option.some_or, Option.some_or]
    exact .some hr

/-- A relation may be changed scheme by scheme. -/
theorem imp {R' : Scheme → Scheme → Prop} (h : Scope.Rel R Δ Δ')
    (himp : ∀ name s s', Δ.get? name = some s → R s s' → R' s s') : Scope.Rel R' Δ Δ' :=
    fun name => by
  rcases h.cases name with ⟨hΔ, hΔ'⟩ | ⟨s, s', hΔ, hΔ', hr⟩ <;> rw [hΔ, hΔ']
  · exact .none
  · exact .some (himp name s s' hΔ hr)

/-- Substitute on one side. -/
theorem apply {σ : Subst} (h : Scope.Rel R Δ Δ')
    (himp : ∀ name s s', Δ.get? name = some s → R s s' → R (s.apply σ) s') :
    Scope.Rel R (Scope.apply σ Δ) Δ' := fun name => by
  rw [Scope.apply, Dict.get?_map]
  rcases h.cases name with ⟨hΔ, hΔ'⟩ | ⟨s, s', hΔ, hΔ', hr⟩ <;> rw [hΔ, hΔ']
  · exact .none
  · exact .some (himp name s s' hΔ hr)

end Scope.Rel

/-- The environments have the same names with related schemes, and the same constructors. -/
structure Env.Rel (R : Scheme → Scheme → Prop) (env Γ : Env) : Prop where
  scope : Scope.Rel R env.scope Γ.scope
  constructors : env.constructors = Γ.constructors

theorem Env.Rel.extend {env Γ : Env} {Δ Δ' : Scope} (h : env.Rel R Γ) (k : Scope.Rel R Δ Δ') :
    (env.extend Δ).Rel R (Γ.extend Δ') :=
  ⟨h.scope.union k, h.constructors⟩

theorem Env.Rel.lookup {env Γ : Env} (h : env.Rel R Γ) {name : String} {s : Scheme}
    (hs : env.lookup name = some s) : ∃ s', Γ.lookup name = some s' ∧ R s s' := by
  rcases h.scope.cases name with ⟨hnone, -⟩ | ⟨s₁, s', hs₁, hs', hr⟩
  · cases hnone.symm.trans hs
  · cases hs₁.symm.trans hs
    exact ⟨s', hs', hr⟩

theorem Env.Rel.lookup_right {env Γ : Env} (h : env.Rel R Γ) {name : String} {s' : Scheme}
    (hs' : Γ.lookup name = some s') : ∃ s, env.lookup name = some s ∧ R s s' := by
  rcases h.scope.cases name with ⟨-, hnone⟩ | ⟨s, s₁, hs, hs₁, hr⟩
  · cases hnone.symm.trans hs'
  · cases hs₁.symm.trans hs'
    exact ⟨s, hs, hr⟩

end TypeTrace
