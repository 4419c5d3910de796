import TypeTrace.Dict
import TypeTrace.Ty.Error

/-!
# Substitutions

A substitution is a dictionary from variables to types, applied to all variables of a type at
once.  Composing two substitutions is defined only where their domains are disjoint; a
unification never rebinds a variable that an earlier one has eliminated.

## Main definitions

* `Subst`, `Ty.apply`: substitutions and their action on types
* `Subst.compose`: first the older, then the newer substitution

## Main results

* `Ty.apply_empty`: the empty substitution changes nothing
* `Ty.mem_occurrences_apply_single`: which variables are left after one is eliminated
-/

namespace TypeTrace

/-- Finitely many variables, each with the type it stands for. -/
abbrev Subst := Dict String Ty

namespace Ty

mutual

/-- Replace every variable by the type it stands for. -/
def apply (s : Subst) : Ty → Ty
  | .var x => (s.get? x).getD (.var x)
  | .con c => .con c
  | .fn args result => .fn (applyAll s args) (result.apply s)
  | .app target args => .app (target.apply s) (applyAll s args)

/-- Replace every variable in a list of types. -/
def applyAll (s : Subst) : List Ty → List Ty
  | [] => []
  | t :: ts => t.apply s :: applyAll s ts

end

theorem applyAll_eq_map (s : Subst) (ts : List Ty) : applyAll s ts = ts.map (apply s) := by
  induction ts with
  | nil => rfl
  | cons t ts ih => rw [applyAll, ih, List.map_cons]

mutual

/-- **The empty substitution changes nothing.** -/
@[simp] theorem apply_empty : (t : Ty) → t.apply Dict.empty = t
  | .var x => by simp [apply]
  | .con c => by simp [apply]
  | .fn args result => by simp [apply, applyAll_empty args, apply_empty result]
  | .app target args => by simp [apply, applyAll_empty args, apply_empty target]

@[simp] theorem applyAll_empty : (ts : List Ty) → applyAll Dict.empty ts = ts
  | [] => rfl
  | t :: ts => by simp [applyAll, apply_empty t, applyAll_empty ts]

end

mutual

/-- **Eliminating `x`** leaves the other variables, and those of the type put for `x`. -/
theorem mem_occurrences_apply_single {x y : String} {u : Ty} :
    (t : Ty) → y ∈ (t.apply (Dict.singleton x u)).occurrences →
      (y ∈ t.occurrences ∧ y ≠ x) ∨ (x ∈ t.occurrences ∧ y ∈ u.occurrences)
  | .var z, h => by
    simp only [apply, Dict.get?_singleton] at h
    by_cases hz : compare z x = .eq
    · obtain rfl := Std.LawfulEqOrd.eq_of_compare hz
      exact .inr ⟨by simp [occurrences], by simpa using h⟩
    · have hzx : z ≠ x := fun e => hz (by simp [e])
      obtain rfl : y = z := by simpa [hz, occurrences] using h
      exact .inl ⟨by simp [occurrences], hzx⟩
  | .con c, h => by simp [apply, occurrences] at h
  | .fn args result, h => by
    simp only [apply, occurrences, List.mem_append] at h ⊢
    rcases h with h | h
    · rcases mem_occurrences_apply_single result h with h | h
      · exact .inl ⟨.inl h.1, h.2⟩
      · exact .inr ⟨.inl h.1, h.2⟩
    · rcases mem_occurrencesAll_apply_single args h with h | h
      · exact .inl ⟨.inr h.1, h.2⟩
      · exact .inr ⟨.inr h.1, h.2⟩
  | .app target args, h => by
    simp only [apply, occurrences, List.mem_append] at h ⊢
    rcases h with h | h
    · rcases mem_occurrences_apply_single target h with h | h
      · exact .inl ⟨.inl h.1, h.2⟩
      · exact .inr ⟨.inl h.1, h.2⟩
    · rcases mem_occurrencesAll_apply_single args h with h | h
      · exact .inl ⟨.inr h.1, h.2⟩
      · exact .inr ⟨.inr h.1, h.2⟩

theorem mem_occurrencesAll_apply_single {x y : String} {u : Ty} :
    (ts : List Ty) → y ∈ occurrencesAll (applyAll (Dict.singleton x u) ts) →
      (y ∈ occurrencesAll ts ∧ y ≠ x) ∨ (x ∈ occurrencesAll ts ∧ y ∈ u.occurrences)
  | [], h => by simp [applyAll, occurrencesAll] at h
  | t :: ts, h => by
    simp only [applyAll, occurrencesAll, List.mem_append] at h ⊢
    rcases h with h | h
    · rcases mem_occurrences_apply_single t h with h | h
      · exact .inl ⟨.inl h.1, h.2⟩
      · exact .inr ⟨.inl h.1, h.2⟩
    · rcases mem_occurrencesAll_apply_single ts h with h | h
      · exact .inl ⟨.inr h.1, h.2⟩
      · exact .inr ⟨.inr h.1, h.2⟩

end

end Ty

namespace Subst

/-- First `old`, then `new`.  The newer substitution may not bind a name that the older one
binds; the least such name is reported. -/
def compose (new old : Subst) : Except TypeError Subst :=
  match new.keys.find? old.contains with
  | some name => .error (.substitutionOverwrite name)
  | none => .ok ((old.map (Ty.apply new)).union new)

end Subst
end TypeTrace
