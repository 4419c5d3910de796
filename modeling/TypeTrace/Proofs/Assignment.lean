import Mathlib.Data.Set.Basic
import TypeTrace.Ty.Subst

/-!
# Assignments

Substitutions are finite, and bind a variable at most once.  To compare the types that inference
finds with those that a derivation chooses, it is easier to let every variable stand for some
type: an assignment is a total function from variables to types.  A substitution is read as the
assignment that fixes the variables it does not bind.

An assignment *absorbs* another one if reading a type through the other one first changes nothing.
The assignments that absorb a resolved substitution are those that solve the equations which the
substitution was found for; everything that is proved about the growing substitution of inference
is proved through them.

## Main definitions

* `Ty.assign`: replace every variable by the type it is assigned
* `Subst.assignment`, `Subst.ofAssignment`: between substitutions and assignments
* `Assignment.Absorbs`, `Assignment.LocalTo`: absorption, and assignments confined to a set
* `Subst.Resolved`: no bound variable occurs in a bound type

## Main results

* `Ty.assign_congr`, `Ty.assign_assign`, `Ty.mem_occurrences_assign`: the algebra of assignments
* `Subst.assignment_compose`: composition is composition of assignments
* `Subst.Resolved.compose`: when a composition is resolved again
-/

namespace TypeTrace

/-- A type for every variable. -/
abbrev Assignment := String → Ty

namespace Ty

/-- Induction on types, with the arguments of a type as members of their list. -/
@[induction_eliminator]
theorem induction {motive : Ty → Prop} (var : ∀ x, motive (.var x)) (con : ∀ c, motive (.con c))
    (fn : ∀ args result, (∀ t ∈ args, motive t) → motive result → motive (.fn args result))
    (app : ∀ target args, motive target → (∀ t ∈ args, motive t) → motive (.app target args))
    (t : Ty) : motive t := by
  refine @Ty.rec motive (fun ts => ∀ t ∈ ts, motive t) var con ?_ ?_ ?_ ?_ t
  · exact fun args result hargs hresult => fn args result hargs hresult
  · exact fun target args htarget hargs => app target args htarget hargs
  · exact fun t ht => absurd ht List.not_mem_nil
  · exact fun t ts ht hts => List.forall_mem_cons.mpr ⟨ht, hts⟩

mutual

/-- Replace every variable by the type it is assigned. -/
def assign (θ : Assignment) : Ty → Ty
  | .var x => θ x
  | .con c => .con c
  | .fn args result => .fn (assignAll θ args) (result.assign θ)
  | .app target args => .app (target.assign θ) (assignAll θ args)

/-- Replace every variable in a list of types. -/
def assignAll (θ : Assignment) : List Ty → List Ty
  | [] => []
  | t :: ts => t.assign θ :: assignAll θ ts

end

theorem assignAll_eq_map (θ : Assignment) (ts : List Ty) : assignAll θ ts = ts.map (assign θ) := by
  induction ts with
  | nil => rfl
  | cons t ts ih => rw [assignAll, ih, List.map_cons]

@[simp] theorem assign_var (θ : Assignment) (x : String) : (var x).assign θ = θ x := by rw [assign]

@[simp] theorem assign_con (θ : Assignment) (c : String) : (con c).assign θ = con c := by
  rw [assign]

@[simp] theorem assign_fn (θ : Assignment) (args : List Ty) (result : Ty) :
    (fn args result).assign θ = fn (args.map (assign θ)) (result.assign θ) := by
  rw [assign, assignAll_eq_map]

@[simp] theorem assign_app (θ : Assignment) (target : Ty) (args : List Ty) :
    (app target args).assign θ = app (target.assign θ) (args.map (assign θ)) := by
  rw [assign, assignAll_eq_map]

@[simp] theorem mem_occurrences_var {x y : String} : y ∈ (var x).occurrences ↔ y = x := by
  simp [occurrences]

@[simp] theorem occurrences_con (c : String) : (con c).occurrences = [] := by rw [occurrences]

@[simp] theorem mem_occurrences_fn {x : String} {args : List Ty} {result : Ty} :
    x ∈ (fn args result).occurrences ↔ x ∈ result.occurrences ∨ ∃ t ∈ args, x ∈ t.occurrences := by
  rw [occurrences, List.mem_append, mem_occurrencesAll]

@[simp] theorem mem_occurrences_app {x : String} {target : Ty} {args : List Ty} :
    x ∈ (app target args).occurrences ↔ x ∈ target.occurrences ∨ ∃ t ∈ args, x ∈ t.occurrences := by
  rw [occurrences, List.mem_append, mem_occurrencesAll]

/-! ## The algebra of assignments -/

/-- **Only the variables of a type count**: two assignments give a type the same value exactly when
they agree on its variables. -/
theorem assign_eq_assign_iff {θ η : Assignment} (t : Ty) :
    t.assign θ = t.assign η ↔ ∀ x ∈ t.occurrences, θ x = η x := by
  induction t with
  | var x => simp
  | con c => simp
  | fn args result hargs hresult =>
    rw [assign_fn, assign_fn, fn.injEq, List.map_inj_left, forall₂_congr hargs, hresult]
    grind [mem_occurrences_fn]
  | app target args htarget hargs =>
    rw [assign_app, assign_app, app.injEq, List.map_inj_left, forall₂_congr hargs, htarget]
    grind [mem_occurrences_app]

theorem assign_congr {θ η : Assignment} {t : Ty} (h : ∀ x ∈ t.occurrences, θ x = η x) :
    t.assign θ = t.assign η :=
  (assign_eq_assign_iff t).mpr h

/-- Assigning every variable to itself changes nothing. -/
@[simp] theorem assign_self (t : Ty) : t.assign var = t := by
  induction t with
  | var x => rw [assign_var]
  | con c => rw [assign_con]
  | fn args result hargs hresult =>
    rw [assign_fn, hresult, List.map_congr_left hargs, List.map_id']
  | app target args htarget hargs =>
    rw [assign_app, htarget, List.map_congr_left hargs, List.map_id']

/-- First `θ`, then `η`. -/
theorem assign_assign (θ η : Assignment) (t : Ty) :
    (t.assign θ).assign η = t.assign fun x => (θ x).assign η := by
  induction t with
  | var x => simp only [assign_var]
  | con c => simp only [assign_con]
  | fn args result hargs hresult =>
    rw [assign_fn, assign_fn, assign_fn, hresult, List.map_map]
    exact congrArg (fn · _) (List.map_congr_left hargs)
  | app target args htarget hargs =>
    rw [assign_app, assign_app, assign_app, htarget, List.map_map]
    exact congrArg (app _) (List.map_congr_left hargs)

/-- The variables left by an assignment are those of the types put in. -/
theorem mem_occurrences_assign {θ : Assignment} {y : String} {t : Ty} :
    y ∈ (t.assign θ).occurrences ↔ ∃ x ∈ t.occurrences, y ∈ (θ x).occurrences := by
  induction t with
  | var x => simp
  | con c => simp
  | fn args result hargs hresult =>
    rw [assign_fn, mem_occurrences_fn, hresult]
    grind [mem_occurrences_fn]
  | app target args htarget hargs =>
    rw [assign_app, mem_occurrences_app, htarget]
    grind [mem_occurrences_app]

/-- An assignment that fixes the variables of a type fixes the type. -/
theorem assign_eq_self {θ : Assignment} {t : Ty} (h : ∀ x ∈ t.occurrences, θ x = .var x) :
    t.assign θ = t :=
  (assign_congr h).trans (assign_self t)

end Ty

/-! ## Substitutions as assignments -/

/-- A substitution as an assignment: the variables that it does not bind stand for themselves. -/
def Subst.assignment (s : Subst) : Assignment := fun x => (s.get? x).getD (.var x)

namespace Ty

/-- Applying a substitution is assigning the types it stands for. -/
theorem apply_eq_assign (s : Subst) (t : Ty) : t.apply s = t.assign s.assignment := by
  induction t with
  | var x => rw [apply, assign_var, Subst.assignment]
  | con c => rw [apply, assign_con]
  | fn args result hargs hresult =>
    rw [apply, applyAll_eq_map, assign_fn, hresult, List.map_congr_left hargs]
  | app target args htarget hargs =>
    rw [apply, applyAll_eq_map, assign_app, htarget, List.map_congr_left hargs]

theorem mem_occurrences_apply {s : Subst} {t : Ty} {y : String} :
    y ∈ (t.apply s).occurrences ↔ ∃ x ∈ t.occurrences, y ∈ (s.assignment x).occurrences := by
  rw [apply_eq_assign, mem_occurrences_assign]

end Ty

namespace Subst

theorem assignment_of_get? {s : Subst} {x : String} {t : Ty} (h : s.get? x = some t) :
    s.assignment x = t := by
  rw [assignment, h, Option.getD_some]

theorem assignment_of_get?_none {s : Subst} {x : String} (h : s.get? x = none) :
    s.assignment x = .var x := by
  rw [assignment, h, Option.getD_none]

/-- A set that has the variables of a type and of all bound types has those that are left when the
substitution is applied. -/
theorem mem_of_mem_apply {A : Set String} {s : Subst} {t : Ty}
    (hs : ∀ x u, s.get? x = some u → ∀ y ∈ u.occurrences, y ∈ A) (ht : ∀ x ∈ t.occurrences, x ∈ A) :
    ∀ y ∈ (t.apply s).occurrences, y ∈ A := by
  intro y hy
  obtain ⟨x, hx, hy⟩ := Ty.mem_occurrences_apply.mp hy
  cases hget : s.get? x with
  | none =>
    rw [assignment_of_get?_none hget, Ty.mem_occurrences_var] at hy
    exact hy ▸ ht x hx
  | some u =>
    rw [assignment_of_get? hget] at hy
    exact hs x u hget y hy

@[simp] theorem assignment_empty : assignment Dict.empty = Ty.var := by
  funext x
  exact assignment_of_get?_none (Dict.get?_empty x)

theorem get?_singleton_self (x : String) (t : Ty) :
    (Dict.singleton x t : Subst).get? x = some t := by
  rw [Dict.get?_singleton, if_pos Std.ReflOrd.compare_self]

theorem get?_singleton_of_ne {x y : String} (t : Ty) (h : y ≠ x) :
    (Dict.singleton x t : Subst).get? y = none := by
  rw [Dict.get?_singleton, if_neg]
  exact fun hc => h (Std.LawfulEqOrd.eq_of_compare hc)

/-- The substitution that agrees with an assignment on the listed variables. -/
def ofAssignment (θ : Assignment) : List String → Subst
  | [] => .empty
  | x :: xs => (ofAssignment θ xs).insert x (θ x)

theorem get?_ofAssignment (θ : Assignment) (xs : List String) (x : String) :
    (ofAssignment θ xs).get? x = if x ∈ xs then some (θ x) else none := by
  induction xs with
  | nil => simp [ofAssignment]
  | cons y ys ih =>
    rw [ofAssignment]
    by_cases h : x = y
    · subst h
      simp
    · rw [Dict.get?_insert_of_ne _ _ h, ih]
      simp [h]

theorem mem_of_mem_keys_ofAssignment {θ : Assignment} {xs : List String} {x : String}
    (h : x ∈ (ofAssignment θ xs).keys) : x ∈ xs := by
  obtain ⟨t, ht⟩ := (Dict.mem_keys_iff _ x).mp h
  rw [get?_ofAssignment] at ht
  by_contra hx
  rw [if_neg hx] at ht
  cases ht

/-- On a type with the listed variables, the substitution does what the assignment does. -/
theorem apply_ofAssignment {θ : Assignment} {xs : List String} {t : Ty}
    (h : ∀ x ∈ t.occurrences, x ∈ xs) : t.apply (ofAssignment θ xs) = t.assign θ := by
  rw [Ty.apply_eq_assign]
  refine Ty.assign_congr fun x hx => assignment_of_get? ?_
  rw [get?_ofAssignment, if_pos (h x hx)]

end Subst

/-! ## Absorption and locality -/

namespace Assignment

/-- Reading a type through `η` first changes nothing under `θ`. -/
def Absorbs (θ η : Assignment) : Prop := ∀ x, (η x).assign θ = θ x

/-- The assignment moves variables of `B` only, and puts in variables of `B` only. -/
structure LocalTo (B : Set String) (θ : Assignment) : Prop where
  /-- Other variables stand for themselves. -/
  fixes : ∀ x, x ∉ B → θ x = .var x
  /-- The variables of `B` stand for types over `B`. -/
  keeps : ∀ x ∈ B, ∀ y ∈ (θ x).occurrences, y ∈ B

variable {θ η δ : Assignment} {A B : Set String}

theorem Absorbs.assign (h : θ.Absorbs η) (t : Ty) : (t.assign η).assign θ = t.assign θ := by
  rw [Ty.assign_assign]
  exact Ty.assign_congr fun x _ => h x

theorem Absorbs.apply {s : Subst} (h : θ.Absorbs s.assignment) (t : Ty) :
    (t.apply s).assign θ = t.assign θ := by
  rw [Ty.apply_eq_assign, h.assign]

theorem absorbs_var (θ : Assignment) : θ.Absorbs Ty.var := fun x => Ty.assign_var θ x

/-- What absorbs two assignments absorbs them one after the other. -/
theorem Absorbs.comp (hη : θ.Absorbs η) (hδ : θ.Absorbs δ) :
    θ.Absorbs fun x => (η x).assign δ := fun x => by
  rw [hδ.assign, hη x]

/-- What absorbs a later state of an assignment absorbs the earlier one, if that is idempotent. -/
theorem Absorbs.of_comp (hη : η.Absorbs η) (h : θ.Absorbs fun x => (η x).assign δ) :
    θ.Absorbs η := fun x => by
  have hx : (η x).assign (fun y => (η y).assign δ) = (η x).assign δ := by
    rw [← Ty.assign_assign, hη x]
  rw [← h.assign, hx]
  exact h x

theorem LocalTo.var (B : Set String) : LocalTo B Ty.var :=
  ⟨fun _ _ => rfl, fun _ hx _ hy => Ty.mem_occurrences_var.mp hy ▸ hx⟩

theorem LocalTo.mono (h : LocalTo A θ) (hAB : A ⊆ B) : LocalTo B θ := by
  refine ⟨fun x hx => h.fixes x fun hA => hx (hAB hA), fun x hx y hy => ?_⟩
  by_cases hA : x ∈ A
  · exact hAB (h.keeps x hA y hy)
  · rw [h.fixes x hA, Ty.mem_occurrences_var] at hy
    exact hy ▸ hx

theorem LocalTo.mem_of_assign (h : LocalTo B θ) {t : Ty} (ht : ∀ x ∈ t.occurrences, x ∈ B) :
    ∀ y ∈ (t.assign θ).occurrences, y ∈ B := by
  intro y hy
  obtain ⟨x, hx, hy⟩ := Ty.mem_occurrences_assign.mp hy
  exact h.keeps x (ht x hx) y hy

theorem LocalTo.comp (hη : LocalTo B η) (hδ : LocalTo B δ) :
    LocalTo B fun x => (η x).assign δ := by
  refine ⟨fun x hx => ?_, fun x hx => hδ.mem_of_assign (hη.keeps x hx)⟩
  rw [hη.fixes x hx, Ty.assign_var, hδ.fixes x hx]

end Assignment

/-! ## Composition -/

namespace Subst

variable {new old s : Subst}

/-- **Composition is defined exactly on disjoint domains**, and then every lookup is known. -/
theorem compose_eq_ok_iff :
    compose new old = .ok s ↔
      (∀ x ∈ new.keys, x ∉ old.keys) ∧ s = (old.map (Ty.apply new)).union new := by
  unfold compose
  split
  case h_1 name h =>
    have hmem := List.mem_of_find?_eq_some h
    have hold : name ∈ old.keys := by
      rw [Dict.mem_keys_iff, ← Dict.contains_iff]
      exact List.find?_some h
    simp only [reduceCtorEq, false_iff, not_and]
    exact fun hdisj => absurd hold (hdisj name hmem)
  case h_2 h =>
    simp only [List.find?_eq_none, Dict.contains_iff, ← Dict.mem_keys_iff] at h
    simp only [Except.ok.injEq]
    exact ⟨fun hs => ⟨h, hs.symm⟩, fun hs => hs.2.symm⟩

/-- Composition reports nothing else than a name that is bound twice. -/
theorem compose_eq_error {e : TypeError} (h : compose new old = .error e) :
    ∃ name, e = .substitutionOverwrite name := by
  unfold compose at h
  split at h
  · cases h
    exact ⟨_, rfl⟩
  · cases h

theorem get?_compose (h : compose new old = .ok s) (x : String) :
    s.get? x = (new.get? x).or ((old.get? x).map (Ty.apply new)) := by
  rw [(compose_eq_ok_iff.mp h).2, Dict.get?_union, Dict.get?_map]

/-- Where a bound type of a composition comes from. -/
theorem get?_compose_cases (h : compose new old = .ok s) {x : String} {t : Ty}
    (hx : s.get? x = some t) :
    new.get? x = some t ∨ ∃ u, old.get? x = some u ∧ u.apply new = t := by
  rw [get?_compose h] at hx
  rcases Option.or_eq_some_iff.mp hx with hx | ⟨-, hx⟩
  · exact .inl hx
  · exact .inr (Option.map_eq_some_iff.mp hx)

/-- **Composition is composition of assignments.** -/
theorem assignment_compose (h : compose new old = .ok s) (x : String) :
    s.assignment x = (old.assignment x).assign new.assignment := by
  have hx := get?_compose h x
  cases hold : old.get? x with
  | none =>
    rw [assignment_of_get?_none hold, Ty.assign_var, assignment, assignment, hx, hold]
    simp
  | some t =>
    have hnew : new.get? x = none := by
      have hkeys : x ∉ new.keys := fun hn =>
        (compose_eq_ok_iff.mp h).1 x hn ((Dict.mem_keys_iff _ _).mpr ⟨t, hold⟩)
      simpa [Dict.mem_keys_iff, Option.eq_none_iff_forall_not_mem] using hkeys
    rw [assignment_of_get? hold, ← Ty.apply_eq_assign]
    refine assignment_of_get? ?_
    rw [hx, hnew, hold]
    rfl

/-- **The composition law**: composing is applying the older substitution, then the newer one. -/
theorem apply_compose (h : compose new old = .ok s) (t : Ty) :
    t.apply s = (t.apply old).apply new := by
  rw [Ty.apply_eq_assign, Ty.apply_eq_assign, Ty.apply_eq_assign, Ty.assign_assign]
  exact Ty.assign_congr fun x _ => assignment_compose h x

theorem compose_empty (s : Subst) : compose .empty s = .ok s := by
  refine compose_eq_ok_iff.mpr ⟨fun x hx => absurd hx List.not_mem_nil, Dict.ext_get? fun x => ?_⟩
  rw [Dict.get?_union, Dict.get?_map, Dict.get?_empty, Option.none_or]
  cases s.get? x <;> simp

theorem mem_keys_compose (h : compose new old = .ok s) {x : String} :
    x ∈ s.keys ↔ x ∈ new.keys ∨ x ∈ old.keys := by
  simp only [Dict.mem_keys_iff, get?_compose h]
  cases new.get? x <;> cases old.get? x <;> simp

/-- Bindings that are added one after the other can be added at once. -/
theorem compose_assoc {a b s s₁ s₂ : Subst} (h₁ : compose a s = .ok s₁)
    (h₂ : compose b s₁ = .ok s₂) : ∃ d, compose b a = .ok d ∧ compose d s = .ok s₂ := by
  have hdisj₁ := (compose_eq_ok_iff.mp h₁).1
  have hdisj₂ := (compose_eq_ok_iff.mp h₂).1
  have hd := compose_eq_ok_iff.mpr
    ⟨fun x hb ha => hdisj₂ x hb ((mem_keys_compose h₁).mpr (.inl ha)), rfl⟩
  refine ⟨_, hd, compose_eq_ok_iff.mpr ⟨fun x hx hs => ?_, Dict.ext_get? fun x => ?_⟩⟩
  · rcases (mem_keys_compose hd).mp hx with hx | hx
    · exact hdisj₂ x hx ((mem_keys_compose h₁).mpr (.inr hs))
    · exact hdisj₁ x hx hs
  · rw [get?_compose h₂, get?_compose h₁, Dict.get?_union _ (Dict.union _ _), Dict.get?_map,
      get?_compose hd]
    cases b.get? x with
    | some t => simp
    | none =>
      cases a.get? x with
      | some t => simp
      | none => cases s.get? x <;> simp [apply_compose hd]

/-- No bound variable occurs in a bound type. -/
def Resolved (s : Subst) : Prop :=
  ∀ x t, s.get? x = some t → ∀ y ∈ t.occurrences, s.get? y = none

theorem resolved_empty : Resolved Dict.empty := fun _ _ h => by simp at h

/-- The variables that a resolved substitution leaves in a type are not bound. -/
theorem Resolved.get?_eq_none (hs : s.Resolved) {t : Ty} {y : String}
    (hy : y ∈ (t.apply s).occurrences) : s.get? y = none := by
  rw [Ty.mem_occurrences_apply] at hy
  obtain ⟨x, -, hy⟩ := hy
  cases hx : s.get? x with
  | none =>
    rw [assignment_of_get?_none hx, Ty.mem_occurrences_var] at hy
    rw [hy, hx]
  | some u =>
    rw [assignment_of_get? hx] at hy
    exact hs x u hx y hy

/-- A resolved substitution absorbs itself. -/
theorem Resolved.absorbs (hs : s.Resolved) : s.assignment.Absorbs s.assignment := fun x => by
  refine Ty.assign_eq_self fun y hy => assignment_of_get?_none (hs.get?_eq_none (t := .var x) ?_)
  rwa [Ty.apply_eq_assign, Ty.assign_var]

/-- **Applying a resolved substitution twice is applying it once.** -/
theorem Resolved.apply_apply (hs : s.Resolved) (t : Ty) : (t.apply s).apply s = t.apply s := by
  rw [Ty.apply_eq_assign s (t.apply s), hs.absorbs.apply, Ty.apply_eq_assign]

/-- A resolved substitution that is local to a set binds and mentions its members only. -/
theorem Resolved.mem_of_localTo {B : Set String} (hs : s.Resolved) (hl : s.assignment.LocalTo B)
    {x : String} {t : Ty} (hx : s.get? x = some t) : x ∈ B ∧ ∀ y ∈ t.occurrences, y ∈ B := by
  have hxB : x ∈ B := by
    by_contra hn
    -- A variable bound to itself is not resolved.
    have ht : t = .var x := by rw [← assignment_of_get? hx, hl.fixes x hn]
    have := hs x t hx x (ht ▸ Ty.mem_occurrences_var.mpr rfl)
    rw [hx] at this
    cases this
  exact ⟨hxB, fun y hy => hl.keeps x hxB y (by rwa [assignment_of_get? hx])⟩

/-- **When a composition is resolved**: both parts are, and the newer one does not bring back what
the older one has eliminated. -/
theorem Resolved.compose (hnew : new.Resolved) (hold : old.Resolved)
    (hback : ∀ x t, new.get? x = some t → ∀ y ∈ t.occurrences, old.get? y = none)
    (h : Subst.compose new old = .ok s) : s.Resolved := by
  -- A variable that neither part binds is not bound by the composition.
  have hnone : ∀ y, new.get? y = none → old.get? y = none → s.get? y = none := by
    intro y hn ho
    rw [get?_compose h, hn, ho]
    rfl
  intro x t hx y hy
  rw [get?_compose h] at hx
  cases hn : new.get? x with
  | some u =>
    obtain rfl : u = t := by simpa [hn] using hx
    exact hnone y (hnew x u hn y hy) (hback x u hn y hy)
  | none =>
    obtain ⟨u, hu, rfl⟩ : ∃ u, old.get? x = some u ∧ u.apply new = t := by simpa [hn] using hx
    have hy' := hnew.get?_eq_none hy
    refine hnone y hy' ?_
    rw [Ty.mem_occurrences_apply] at hy
    obtain ⟨z, hz, hy⟩ := hy
    cases hzn : new.get? z with
    | none =>
      rw [assignment_of_get?_none hzn, Ty.mem_occurrences_var] at hy
      exact hy ▸ hold x u hu z hz
    | some v =>
      rw [assignment_of_get? hzn] at hy
      exact hback z v hzn y hy

end Subst
end TypeTrace
