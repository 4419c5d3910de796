import Mathlib.Data.List.Basic
import Mathlib.Data.Set.Function
import TypeTrace.Proofs.Supply
import TypeTrace.Ty.Canonical

/-!
# Renaming variables

Two types that differ in the names of their variables only are the same type for whoever reads
them.  The canonical form of a type is one of its renamings, and it is chosen by nothing but the
order in which the variables are read; renaming keeps that order, so types that rename into each
other have one canonical form, and types with one canonical form rename into each other through it.

## Main definitions

* `Ty.vars`: the variables of a type, as a set
* `Ty.rename`: the type with its variables renamed
* `Name.renumber`: the names of new variables for the listed ones
* `Ty.ordinal`: the name by which the canonical form calls a variable

## Main results

* `Ty.apply_fresh`: putting new variables for the listed ones is a renaming
* `Ty.canonical_eq_rename`: the canonical form is a renaming
* `Ty.canonical_rename`: renaming with different names for different variables does not change it
* `Ty.canonical_form`: it is a canonical form for renaming
-/

namespace TypeTrace

/-- Removing the later occurrences of names commutes with a renaming that keeps them apart. -/
theorem Name.distinct_map {f : String → String} {names : List String}
    (hf : Set.InjOn f {x | x ∈ names}) :
    distinct (names.map f) = (distinct names).map f := by
  unfold distinct
  match names with
  | [] => rfl
  | x :: rest =>
    have hfilter : (rest.map f).filter (fun b => !b == f x) =
        (rest.filter fun b => !b == x).map f := by
      rw [List.filter_map]
      refine congrArg (List.map f) (List.filter_congr fun y hy => ?_)
      have : f y = f x ↔ y = x := hf.eq_iff (List.mem_cons_of_mem x hy) List.mem_cons_self
      grind
    have hrest : Set.InjOn f {y | y ∈ rest.filter fun b => !b == x} :=
      hf.mono fun y hy => List.mem_cons_of_mem x (List.mem_filter.mp hy).1
    have ih := distinct_map hrest
    unfold distinct at ih
    rw [List.map_cons, List.eraseDups_cons, List.eraseDups_cons, hfilter, ih, List.map_cons]
termination_by names.length
decreasing_by
  have := List.length_filter_le (fun b => !b == x) rest
  simp only [List.length_cons]
  omega

/-- A name keeps its place in a list under a renaming that keeps the names apart. -/
theorem Name.idxOf_map {f : String → String} {names : List String}
    (hf : Set.InjOn f {x | x ∈ names}) {x : String} (hx : x ∈ names) :
    (names.map f).idxOf (f x) = names.idxOf x := by
  induction names with
  | nil => exact absurd hx List.not_mem_nil
  | cons y rest ih =>
    have hy : f y = f x ↔ y = x := hf.eq_iff List.mem_cons_self hx
    have hrest := ih (hf.mono fun z hz => List.mem_cons_of_mem y hz)
    rw [List.map_cons, List.idxOf_cons, List.idxOf_cons]
    grind

/-! ## Renumbering -/

namespace Name

/-- The names of new variables for the listed ones, numbered from `n`; other names stay. -/
def renumber (n : Nat) (vars : List String) (x : String) : String :=
  if x ∈ vars then ofNat (n + vars.idxOf x) else x

variable {n : Nat} {vars : List String} {x : String}

theorem renumber_of_mem (hx : x ∈ vars) : renumber n vars x = ofNat (n + vars.idxOf x) := if_pos hx

theorem renumber_of_notMem (hx : x ∉ vars) : renumber n vars x = x := if_neg hx

/-- Different variables of the list get different names. -/
theorem renumber_injOn (n : Nat) (vars : List String) : Set.InjOn (renumber n vars) {x | x ∈ vars} := by
  intro x hx y hy h
  rw [renumber_of_mem hx, renumber_of_mem hy] at h
  have hidx : vars.idxOf x = vars.idxOf y := Nat.add_left_cancel (ofNat_injective h)
  exact (List.idxOf_inj hx).mp hidx

/-- The names given to the variables of the list are none of those with smaller numbers. -/
theorem renumber_notMem_issued (hx : x ∈ vars) : renumber n vars x ∉ issued n := by
  rw [renumber_of_mem hx, ofNat_mem_issued]
  omega

end Name

namespace Subst

variable {n : Nat} {vars : List String} {x : String}

theorem get?_fresh_of_notMem (hx : x ∉ vars) : (fresh n vars).get? x = none := by
  rcases get?_fresh n vars x with ⟨-, hnone⟩ | ⟨i, -, hi, -⟩
  · exact hnone
  · exact absurd (List.mem_of_getElem? hi) hx

/-- In a list without repetitions the number of a new variable tells the place of the old one. -/
theorem get?_fresh_of_mem (hvars : vars.Nodup) (hx : x ∈ vars) :
    (fresh n vars).get? x = some (.var (Name.renumber n vars x)) := by
  rcases get?_fresh n vars x with ⟨hmem, -⟩ | ⟨i, hi, hget, hsome⟩
  · exact absurd hx hmem
  · obtain ⟨hlt, hx'⟩ := List.getElem?_eq_some_iff.mp hget
    have hidx : vars.idxOf x = i - n := by
      rw [← hx']
      exact hvars.idxOf_getElem _ hlt
    have hnumber : n + vars.idxOf x = i := by omega
    rw [hsome, Name.renumber_of_mem hx, hnumber]

end Subst

namespace Ty

/-- The variables of a type. -/
def vars (t : Ty) : Set String := {x | x ∈ t.free}

@[simp] theorem mem_vars {x : String} {t : Ty} : x ∈ t.vars ↔ x ∈ t.occurrences := mem_free

/-- The type with its variables renamed. -/
def rename (f : String → String) (t : Ty) : Ty := t.assign fun x => .var (f x)

theorem rename_congr {f g : String → String} {t : Ty} (h : Set.EqOn f g t.vars) :
    t.rename f = t.rename g :=
  assign_congr fun _ hx => congrArg var (h (mem_vars.mpr hx))

theorem rename_eq_self {f : String → String} {t : Ty} (h : Set.EqOn f id t.vars) :
    t.rename f = t :=
  assign_eq_self fun _ hx => congrArg var (h (mem_vars.mpr hx))

/-- First `f`, then `g`. -/
theorem rename_rename (f g : String → String) (t : Ty) :
    (t.rename f).rename g = t.rename (g ∘ f) := by
  rw [rename, rename, assign_assign]
  simp only [assign_var]
  rfl

/-- The variables of a renamed type are the renamed ones. -/
theorem vars_rename (f : String → String) (t : Ty) : (t.rename f).vars = f '' t.vars := by
  ext y
  rw [mem_vars, rename, mem_occurrences_assign, Set.mem_image]
  simp only [mem_occurrences_var, mem_vars, eq_comm]

/-- **Putting new variables for listed ones is a renaming.** -/
theorem apply_fresh {n : Nat} {vars : List String} (hvars : vars.Nodup) (t : Ty) :
    t.apply (.fresh n vars) = t.rename (Name.renumber n vars) := by
  rw [apply_eq_assign, rename]
  refine assign_congr fun x _ => ?_
  by_cases hx : x ∈ vars
  · exact Subst.assignment_of_get? (Subst.get?_fresh_of_mem hvars hx)
  · rw [Subst.assignment_fresh_of_notMem hx, Name.renumber_of_notMem hx]

/-! ## The order of reading -/

theorem readingAll_eq_flatMap (ts : List Ty) : readingAll ts = ts.flatMap reading := by
  induction ts with
  | nil => rfl
  | cons t ts ih => rw [readingAll, ih, List.flatMap_cons]

theorem mem_reading {x : String} {t : Ty} : x ∈ t.reading ↔ x ∈ t.occurrences := by
  induction t with
  | var y => simp [reading]
  | con c => simp [reading]
  | fn args result hargs hresult =>
    rw [reading, readingAll_eq_flatMap, List.mem_append, List.mem_flatMap, mem_occurrences_fn]
    grind
  | app target args htarget hargs =>
    rw [reading, readingAll_eq_flatMap, List.mem_append, List.mem_flatMap, mem_occurrences_app]
    grind

/-- **Renaming keeps the order of reading.** -/
theorem reading_rename (f : String → String) (t : Ty) :
    (t.rename f).reading = t.reading.map f := by
  unfold rename
  induction t with
  | var x => simp [reading]
  | con c => simp [reading]
  | fn args result hargs hresult =>
    rw [assign_fn, reading, reading, readingAll_eq_flatMap, readingAll_eq_flatMap, hresult,
      List.map_append, List.flatMap_map, List.map_flatMap, List.flatMap_congr hargs]
  | app target args htarget hargs =>
    rw [assign_app, reading, reading, readingAll_eq_flatMap, readingAll_eq_flatMap, htarget,
      List.map_append, List.flatMap_map, List.map_flatMap, List.flatMap_congr hargs]

/-! ## The canonical form -/

/-- The name by which the canonical form calls a variable: its number in the order of reading. -/
def ordinal (t : Ty) (x : String) : String := Name.ofNat ((Name.distinct t.reading).idxOf x)

theorem mem_distinct_reading {x : String} {t : Ty} :
    x ∈ Name.distinct t.reading ↔ x ∈ t.vars := by
  rw [Name.mem_distinct, mem_reading, mem_vars]

theorem ordinal_injOn (t : Ty) : Set.InjOn t.ordinal t.vars := by
  intro x hx y _ h
  exact (List.idxOf_inj (mem_distinct_reading.mpr hx)).mp (Name.ofNat_injective h)

/-- **The canonical form is a renaming.** -/
theorem canonical_eq_rename (t : Ty) : t.canonical = t.rename t.ordinal := by
  calc t.canonical
      = t.rename (Name.renumber 0 (Name.distinct t.reading)) := apply_fresh (Name.nodup_distinct _) t
    _ = t.rename t.ordinal := rename_congr fun x hx => by
        rw [Name.renumber_of_mem (mem_distinct_reading.mpr hx), Nat.zero_add, ordinal]

/-- A variable keeps its place in the order of reading when the variables are renamed. -/
theorem ordinal_rename {f : String → String} {t : Ty} (hf : Set.InjOn f t.vars) {x : String}
    (hx : x ∈ t.vars) : (t.rename f).ordinal (f x) = t.ordinal x := by
  have hreading : Set.InjOn f {x | x ∈ t.reading} :=
    hf.mono fun y hy => mem_vars.mpr (mem_reading.mp hy)
  have hdistinct : Set.InjOn f {x | x ∈ Name.distinct t.reading} :=
    hf.mono fun y hy => mem_distinct_reading.mp hy
  rw [ordinal, ordinal, reading_rename, Name.distinct_map hreading,
    Name.idxOf_map hdistinct (mem_distinct_reading.mpr hx)]

/-- **The canonical form does not depend on the names of the variables**, as long as different
variables have different names. -/
theorem canonical_rename {f : String → String} {t : Ty} (hf : Set.InjOn f t.vars) :
    (t.rename f).canonical = t.canonical := by
  rw [canonical_eq_rename, canonical_eq_rename, rename_rename]
  exact rename_congr fun x hx => ordinal_rename hf hx

/-- The canonical form calls different variables by different names, and all of its variables are
named so. -/
theorem ordinal_bijOn (t : Ty) : Set.BijOn t.ordinal t.vars t.canonical.vars := by
  rw [canonical_eq_rename, vars_rename]
  exact t.ordinal_injOn.bijOn_image

/-- Types with one canonical form rename into each other: forth by the names that the canonical
form gives to the variables of one, and back by those that it gives to the variables of the
other. -/
theorem exists_rename_of_canonical_eq {t u : Ty} (h : t.canonical = u.canonical) :
    ∃ f, Set.BijOn f t.vars u.vars ∧ t.rename f = u := by
  let back := Function.invFunOn u.ordinal u.vars
  have hinv : Set.InvOn back u.ordinal u.vars u.canonical.vars := u.ordinal_bijOn.invOn_invFunOn
  have ht : Set.BijOn t.ordinal t.vars u.canonical.vars := h ▸ t.ordinal_bijOn
  refine ⟨back ∘ t.ordinal, (u.ordinal_bijOn.symm hinv.symm).comp ht, ?_⟩
  calc t.rename (back ∘ t.ordinal)
      = t.canonical.rename back := by rw [canonical_eq_rename, rename_rename]
    _ = u.rename (back ∘ u.ordinal) := by rw [h, canonical_eq_rename, rename_rename]
    _ = u := rename_eq_self hinv.1

/-- **The canonical form is a canonical form for renaming.**  It is the type under a renaming that
keeps its variables apart, it is its own canonical form, and two types share it exactly if a
bijection between their variables renames one into the other. -/
theorem canonical_form (t u : Ty) :
    (∃ f, Set.InjOn f t.vars ∧ t.canonical = t.rename f) ∧
    t.canonical.canonical = t.canonical ∧
    (t.canonical = u.canonical ↔ ∃ f, Set.BijOn f t.vars u.vars ∧ t.rename f = u) := by
  refine ⟨⟨t.ordinal, t.ordinal_injOn, t.canonical_eq_rename⟩, ?_, ?_, ?_⟩
  · calc t.canonical.canonical
        = (t.rename t.ordinal).canonical := by rw [← canonical_eq_rename]
      _ = t.canonical := canonical_rename t.ordinal_injOn
  · exact exists_rename_of_canonical_eq
  · rintro ⟨f, hf, rfl⟩
    exact (canonical_rename hf.injOn).symm

end Ty
end TypeTrace
