import Mathlib.Data.List.Induction
import Mathlib.Data.Set.Basic
import Mathlib.Logic.Function.Basic
import TypeTrace.Proofs.Assignment

/-!
# The supply of variables

Inference names its variables by number and never uses a number twice, and names with different
numbers are different; so a new variable differs from all variables before it.  What a new variable
stands for can therefore be chosen freely, and the choice leaves older variables alone.

## Main definitions

* `Name.issued`: the names of the variables created so far
* `Subst.fresh`: consecutive new variables for the given ones

## Main results

* `Name.ofNat_injective`: names with different numbers are different
* `Assignment.exists_extension`: new variables can stand for anything
* `Name.exists_avoiding`: names can be renamed away from any list of names
-/

namespace TypeTrace

namespace Name

/-- The value of a numeral, the most significant letter first. -/
def value (cs : List Char) : Nat := cs.foldl (fun v c => 26 * v + (c.toNat - 'a'.toNat)) 0

theorem toNat_letter : ∀ d < 26, (letter d).toNat - 'a'.toNat = d := by decide

theorem ofNat_of_lt {n : Nat} (h : n < 26) : ofNat n = String.singleton (letter n) := by
  rw [ofNat, letters, if_pos h]
  rfl

/-- Reading a numeral gives the number back. -/
theorem value_letters (n : Nat) : value (letters n) = n := by
  induction n using letters.induct with
  | case1 n h =>
    rw [letters, if_pos h, value, List.foldl_cons, toNat_letter n h]
    simp
  | case2 n h ih =>
    rw [letters, if_neg h, value, List.foldl_append, ← value, ih, List.foldl_cons,
      toNat_letter _ (Nat.mod_lt n (by decide))]
    exact Nat.div_add_mod n 26

/-- **Names with different numbers are different.** -/
theorem ofNat_injective : Function.Injective ofNat := by
  intro m n h
  rw [← value_letters m, ← value_letters n, String.ofList_injective h]

/-- The names of the first `n` variables. -/
def issued (n : Nat) : Set String := {x | ∃ i < n, x = ofNat i}

theorem ofNat_mem_issued {i n : Nat} : ofNat i ∈ issued n ↔ i < n := by
  refine ⟨fun ⟨j, hj, h⟩ => ?_, fun h => ⟨i, h, rfl⟩⟩
  rwa [ofNat_injective h]

theorem issued_mono {m n : Nat} (h : m ≤ n) : issued m ⊆ issued n :=
  fun _ ⟨i, hi, hx⟩ => ⟨i, Nat.lt_of_lt_of_le hi h, hx⟩

/-- Names can be renamed away from any list of names: a prefix that is longer than all of them does
it. -/
theorem exists_avoiding (names : List String) :
    ∃ rename : String → String, Function.Injective rename ∧ ∀ x, rename x ∉ names := by
  obtain ⟨n, hn⟩ : ∃ n, ∀ x ∈ names, x.length < n := by
    induction names with
    | nil => exact ⟨0, fun x hx => absurd hx List.not_mem_nil⟩
    | cons y ys ih =>
      obtain ⟨n, hn⟩ := ih
      refine ⟨max n (y.length + 1), List.forall_mem_cons.mpr ⟨by omega, fun x hx => ?_⟩⟩
      have := hn x hx
      omega
  refine ⟨fun x => .ofList (List.replicate n 'a' ++ x.toList), fun x y h => ?_, fun x hx => ?_⟩
  · exact String.toList_injective (List.append_cancel_left (String.ofList_injective h))
  · have := hn _ hx
    rw [String.length_ofList, List.length_append, List.length_replicate] at this
    omega

end Name

/-- New variables can stand for anything, whatever the older ones stand for. -/
theorem Assignment.exists_extension (θ : Assignment) (n : Nat) (choice : Nat → Ty) :
    ∃ θ' : Assignment, (∀ x ∈ Name.issued n, θ' x = θ x) ∧
      ∀ i, n ≤ i → θ' (Name.ofNat i) = choice i := by
  classical
  refine ⟨fun x => if x ∈ Name.issued n then θ x else choice (Function.invFun Name.ofNat x),
    fun x hx => if_pos hx, fun i hi => ?_⟩
  change (if _ then _ else _) = _
  rw [if_neg (fun h => Nat.not_lt.mpr hi (Name.ofNat_mem_issued.mp h)),
    Function.leftInverse_invFun Name.ofNat_injective]

/-! ## New variables -/

namespace Subst

/-- New variables for the given ones, numbered from `n`. -/
def fresh (n : Nat) (vars : List String) : Subst :=
  .ofList ((vars.zipIdx n).map fun e => (e.1, .var (Name.ofNat e.2)))

/-- What a variable is renamed to: a new variable whose number leads back to it. -/
theorem get?_fresh (n : Nat) (vars : List String) (x : String) :
    (x ∉ vars ∧ (fresh n vars).get? x = none) ∨
    ∃ i, n ≤ i ∧ vars[i - n]? = some x ∧ (fresh n vars).get? x = some (.var (Name.ofNat i)) := by
  induction vars using List.reverseRecOn with
  | nil => exact .inl ⟨List.not_mem_nil, by simp [fresh, Dict.ofList]⟩
  | append_singleton vars y ih =>
    have hins : fresh n (vars ++ [y]) =
        (fresh n vars).insert y (.var (Name.ofNat (n + vars.length))) := by
      simp [fresh, Dict.ofList, List.zipIdx_append]
    rw [hins]
    by_cases hx : x = y
    · subst hx
      exact .inr ⟨n + vars.length, by simp⟩
    · rw [Dict.get?_insert_of_ne _ _ hx]
      rcases ih with ⟨hmem, hnone⟩ | ⟨i, hi, hvars, hsome⟩
      · exact .inl ⟨by simp [hmem, hx], hnone⟩
      · refine .inr ⟨i, hi, ?_, hsome⟩
        rw [List.getElem?_append_left (List.getElem?_eq_some_iff.mp hvars).1, hvars]

theorem assignment_fresh_of_notMem {n : Nat} {vars : List String} {x : String} (hx : x ∉ vars) :
    (fresh n vars).assignment x = .var x := by
  rcases get?_fresh n vars x with ⟨-, hget⟩ | ⟨i, -, hvars, -⟩
  · exact assignment_of_get?_none hget
  · exact absurd (List.mem_of_getElem? hvars) hx

end Subst
end TypeTrace
