import TypeTrace.Proofs.Assignment

/-!
# Composition of substitutions

Composing is a partial operation: a newer substitution may not bind a name that an older one binds.  Where
it is defined it is composition of the actions on types, and both ways to compose three substitutions are
defined under the same condition and give the same.

A substitution is idempotent if applying it a second time changes nothing.  Two of them compose to another
one if the newer one does not bring back a name that the older one has eliminated; that their domains are
disjoint is not enough.

## Main definitions

* `Subst.Idempotent`: applying the substitution twice is applying it once

## Main results

* `Subst.least_of_compose_eq_error`: the least name that both bind is reported
* `Subst.compose_grouping`: three substitutions compose from the left as from the right
* `Subst.Idempotent.compose`: when a composition is idempotent
* `Subst.compose_laws`: the laws of composition
-/

namespace TypeTrace

theorem Dict.pairwise_keys {κ α : Type} [Ord κ] (d : Dict κ α) :
    d.keys.Pairwise fun a b => compare a b = .lt :=
  List.pairwise_map.mpr d.ascending

namespace Subst

variable {new old s : Subst}

/-! ## Where composition is defined -/

theorem exists_compose_iff : (∃ s, compose new old = .ok s) ↔ ∀ x ∈ new.keys, x ∉ old.keys := by
  constructor
  · rintro ⟨s, h⟩
    exact (compose_eq_ok_iff.mp h).1
  · exact fun h => ⟨_, compose_eq_ok_iff.mpr ⟨h, rfl⟩⟩

/-- **A composition that is not defined reports the least name that both bind.** -/
theorem least_of_compose_eq_error {e : TypeError} (h : compose new old = .error e) :
    ∃ name, e = .substitutionOverwrite name ∧ name ∈ new.keys ∧ name ∈ old.keys ∧
      ∀ x ∈ new.keys, x ∈ old.keys → (compare name x).isLE := by
  have hcontains (x : String) : old.contains x = true ↔ x ∈ old.keys := by
    rw [Dict.contains_iff, Dict.mem_keys_iff]
  unfold compose at h
  split at h
  · next name hfind =>
    cases h
    obtain ⟨hname, before, after, hkeys, hbefore⟩ := List.find?_eq_some_iff_append.mp hfind
    refine ⟨name, rfl, List.mem_of_find?_eq_some hfind, (hcontains name).mp hname, fun x hx hold => ?_⟩
    rw [hkeys] at hx
    rcases List.mem_append.mp hx with hx | hx
    · -- No name before the one that was found is bound by the older substitution.
      have hnone := hbefore x hx
      rw [(hcontains x).mpr hold] at hnone
      cases hnone
    · rcases List.mem_cons.mp hx with rfl | hx
      · rw [Std.ReflOrd.compare_self]
        rfl
      · have hsorted := new.pairwise_keys
        rw [hkeys] at hsorted
        have hlt := (List.pairwise_cons.mp (List.pairwise_append.mp hsorted).2.1).1 x hx
        rw [hlt]
        rfl
  · cases h

/-- **Three substitutions compose from the left as from the right**: one way is defined if the other one
is, and the results are equal. -/
theorem compose_grouping {first : Subst} :
    (∃ m, compose old first = .ok m ∧ compose new m = .ok s) ↔
      ∃ m, compose new old = .ok m ∧ compose m first = .ok s := by
  constructor
  · rintro ⟨m, h₁, h₂⟩
    exact compose_assoc h₁ h₂
  · rintro ⟨m, h₁, h₂⟩
    have hdisj := (compose_eq_ok_iff.mp h₁).1
    have hfirst := (compose_eq_ok_iff.mp h₂).1
    -- The names of the composition are those of both, so each is apart from the first substitution.
    obtain ⟨a, ha⟩ := exists_compose_iff.mpr fun x hx => hfirst x ((mem_keys_compose h₁).mpr (.inr hx))
    obtain ⟨b, hb⟩ : ∃ b, compose new a = .ok b := exists_compose_iff.mpr fun x hx hmem => by
      rcases (mem_keys_compose ha).mp hmem with hmem | hmem
      · exact hdisj x hx hmem
      · exact hfirst x ((mem_keys_compose h₁).mpr (.inl hx)) hmem
    obtain ⟨m', hm', hb'⟩ := compose_assoc ha hb
    cases h₁.symm.trans hm'
    cases h₂.symm.trans hb'
    exact ⟨a, ha, hb⟩

/-! ## Idempotence -/

/-- Applying the substitution a second time changes nothing. -/
def Idempotent (s : Subst) : Prop := ∀ t : Ty, (t.apply s).apply s = t.apply s

/-- What an idempotent substitution leaves in a type stands for itself. -/
theorem Idempotent.assignment_eq (hs : s.Idempotent) {t : Ty} {y : String}
    (hy : y ∈ (t.apply s).occurrences) : s.assignment y = .var y := by
  have happly := hs t
  rw [Ty.apply_eq_assign s (t.apply s)] at happly
  exact (Ty.assign_eq_assign_iff _).mp (happly.trans (Ty.assign_self _).symm) y hy

/-- **When a composition is idempotent**: both parts are, and the newer one does not bring back what the
older one has eliminated. -/
theorem Idempotent.compose (hnew : new.Idempotent) (hold : old.Idempotent)
    (hback : ∀ x t, new.get? x = some t → ∀ y ∈ t.occurrences, y ∉ old.keys)
    (h : Subst.compose new old = .ok s) : s.Idempotent := by
  intro t
  -- The older substitution has nothing left to do once both have been applied.
  have hdone : ((t.apply old).apply new).apply old = (t.apply old).apply new := by
    rw [Ty.apply_eq_assign old]
    refine Ty.assign_eq_self fun z hz => ?_
    obtain ⟨y, hy, hz⟩ := Ty.mem_occurrences_apply.mp hz
    cases hget : new.get? y with
    | none =>
      rw [assignment_of_get?_none hget, Ty.mem_occurrences_var] at hz
      exact hz ▸ hold.assignment_eq hy
    | some u =>
      rw [assignment_of_get? hget] at hz
      refine assignment_of_get?_none (Option.eq_none_iff_forall_not_mem.mpr fun v hv => ?_)
      exact hback y u hget z hz ((Dict.mem_keys_iff old z).mpr ⟨v, hv⟩)
  rw [apply_compose h, apply_compose h, hdone, hnew]

/-- **The laws of composition.**  Two substitutions compose if no name is bound by both, and otherwise the
least such name is reported.  The composition acts on types as the older substitution followed by the newer
one, and binds the names that one of them binds.  It is idempotent if both are and no name that the older
one binds occurs in a type that the newer one puts in.  Composition is associative. -/
theorem compose_laws (new old : Subst) :
    ((∃ s, compose new old = .ok s) ↔ ∀ x ∈ new.keys, x ∉ old.keys) ∧
    (∀ e, compose new old = .error e → ∃ name, e = .substitutionOverwrite name ∧ name ∈ new.keys ∧
      name ∈ old.keys ∧ ∀ x ∈ new.keys, x ∈ old.keys → (compare name x).isLE) ∧
    (∀ s, compose new old = .ok s →
      (∀ t : Ty, t.apply s = (t.apply old).apply new) ∧
      (∀ x, x ∈ s.keys ↔ x ∈ new.keys ∨ x ∈ old.keys) ∧
      (new.Idempotent → old.Idempotent →
        (∀ x t, new.get? x = some t → ∀ y ∈ t.occurrences, y ∉ old.keys) → s.Idempotent)) ∧
    ∀ first s, (∃ m, compose old first = .ok m ∧ compose new m = .ok s) ↔
      ∃ m, compose new old = .ok m ∧ compose m first = .ok s := by
  refine ⟨exists_compose_iff, fun e => least_of_compose_eq_error, fun s h => ?_, fun _ _ => compose_grouping⟩
  exact ⟨apply_compose h, fun x => mem_keys_compose h,
    fun hnew hold hback => hnew.compose hold hback h⟩

/-- With disjoint domains alone the composition need not be idempotent: here `y` stands for `x`, and `x`
for integers. -/
example : ∃ s, compose (.singleton "y" (.var "x")) (.singleton "x" .int) = .ok s ∧
    (Ty.var "y").apply s = .var "x" ∧ ((Ty.var "y").apply s).apply s = .int :=
  ⟨_, rfl, by decide, by decide⟩

end Subst
end TypeTrace
