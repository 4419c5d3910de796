import Mathlib.Data.List.Basic
import TypeTrace.Proofs.Supply

/-!
# The numbering of names

The names of type variables are the numerals of a positional system: the letters `a` to `z` are its digits,
with `a` for zero.  A numeral does not start with a zero unless it is zero, so after `z` comes `ba` and not
`aa`, and every such word is the name of one variable.

## Main definitions

* `Name.IsNumeral`: the words that are numerals

## Main results

* `Name.letters_value`: a numeral is written with the letters of its value
* `Name.ofNat_eq_iff`: which variable has a given name
* `Name.numeration`: names are the numerals of a positional system
-/

namespace TypeTrace.Name

/-- A word of the letters `a` to `z` that is not empty, and does not start with `a` unless it is `a`. -/
def IsNumeral (w : String) : Prop :=
  w ≠ "" ∧ w.toList.all Char.isLower ∧ (w.toList.head? = some 'a' → w = "a")

instance (w : String) : Decidable (IsNumeral w) := inferInstanceAs (Decidable (_ ∧ _ ∧ _))

/-! ## Digits -/

theorem isLower_letter : ∀ d < 26, (letter d).isLower := by decide

theorem letter_eq_a : ∀ d < 26, letter d = 'a' → d = 0 := by decide

/-- The digits of numerals are the numbers below 26. -/
theorem digit_bounds {c : Char} (h : c.isLower) : 97 ≤ c.toNat ∧ c.toNat ≤ 122 := by
  obtain ⟨hlow, hhigh⟩ := Bool.and_eq_true_iff.mp h
  exact ⟨of_decide_eq_true hlow, of_decide_eq_true hhigh⟩

theorem letter_digit {c : Char} (h : c.isLower) : letter (c.toNat - 'a'.toNat) = c := by
  have hlow : 'a'.toNat ≤ c.toNat := (digit_bounds h).1
  rw [letter, Nat.add_sub_cancel' hlow, Char.ofNat_toNat]

theorem digit_lt {c : Char} (h : c.isLower) : c.toNat - 'a'.toNat < 26 := by
  have hhigh := (digit_bounds h).2
  have ha : 'a'.toNat = 97 := rfl
  omega

/-- One more digit multiplies the value by the base. -/
theorem value_concat (cs : List Char) (c : Char) :
    value (cs ++ [c]) = 26 * value cs + (c.toNat - 'a'.toNat) := by
  rw [value, List.foldl_append, ← value]
  rfl

/-! ## Names are numerals -/

theorem letters_ne_nil (n : Nat) : letters n ≠ [] := by
  rw [letters]
  split <;> simp

theorem isLower_letters (n : Nat) : ∀ c ∈ letters n, c.isLower := by
  induction n using letters.induct with
  | case1 n h =>
    rw [letters, if_pos h]
    exact List.forall_mem_singleton.mpr (isLower_letter n h)
  | case2 n h ih =>
    rw [letters, if_neg h]
    refine List.forall_mem_append.mpr ⟨ih, List.forall_mem_singleton.mpr ?_⟩
    exact isLower_letter _ (Nat.mod_lt n (by decide))

/-- Only zero is written with a leading zero. -/
theorem eq_zero_of_head?_letters {n : Nat} (h : (letters n).head? = some 'a') : n = 0 := by
  induction n using letters.induct with
  | case1 n hn =>
    rw [letters, if_pos hn] at h
    exact letter_eq_a n hn (Option.some.inj h)
  | case2 n hn ih =>
    rw [letters, if_neg hn, List.head?_append_of_ne_nil _ (letters_ne_nil _)] at h
    have hzero := ih h
    omega

theorem letters_zero : letters 0 = ['a'] := by
  rw [letters, if_pos (by decide)]
  rfl

/-- A name is a numeral. -/
theorem isNumeral_ofNat (n : Nat) : IsNumeral (ofNat n) := by
  refine ⟨fun hempty => letters_ne_nil n ?_, ?_, fun hhead => ?_⟩
  · exact String.ofList_eq_empty_iff.mp hempty
  · rw [ofNat, String.toList_ofList]
    exact List.all_eq_true.mpr (isLower_letters n)
  · rw [ofNat, String.toList_ofList] at hhead
    rw [eq_zero_of_head?_letters hhead, ofNat, letters_zero]

/-! ## Numerals are names -/

/-- **A numeral is written with the letters of its value.** -/
theorem letters_value {cs : List Char} (hne : cs ≠ []) (hmem : ∀ c ∈ cs, c.isLower)
    (hlead : cs.head? = some 'a' → cs = ['a']) : letters (value cs) = cs := by
  induction cs using List.reverseRecOn with
  | nil => exact absurd rfl hne
  | append_singleton cs c ih =>
    obtain ⟨hcs, hc⟩ := List.forall_mem_append.mp hmem
    have hc := hc c List.mem_cons_self
    have hdigit := digit_lt hc
    rw [value_concat]
    rcases eq_or_ne cs [] with rfl | hcsne
    · rw [value, List.foldl_nil, Nat.mul_zero, Nat.zero_add, letters, if_pos hdigit, letter_digit hc,
        List.nil_append]
    · -- The digits before the last one do not start with a zero, so they are not the numeral of zero.
      have hhead : cs.head? ≠ some 'a' := by
        intro ha
        have hlength := congrArg List.length (hlead (by rwa [List.head?_append_of_ne_nil _ hcsne]))
        rw [List.length_append] at hlength
        exact hcsne (List.length_eq_zero_iff.mp (Nat.succ.inj hlength))
      have ih := ih hcsne hcs fun ha => absurd ha hhead
      have hpos : value cs ≠ 0 := by
        intro hzero
        rw [hzero, letters_zero] at ih
        exact hhead (by rw [← ih]; rfl)
      rw [letters, if_neg (by omega), show (26 * value cs + (c.toNat - 'a'.toNat)) / 26 = value cs by omega, ih,
        show (26 * value cs + (c.toNat - 'a'.toNat)) % 26 = c.toNat - 'a'.toNat by omega, letter_digit hc]

theorem ofNat_value {w : String} (h : IsNumeral w) : ofNat (value w.toList) = w := by
  obtain ⟨hne, hmem, hlead⟩ := h
  have hletters : letters (value w.toList) = w.toList :=
    letters_value (fun hnil => hne (String.toList_eq_nil_iff.mp hnil)) (List.all_eq_true.mp hmem) fun ha => by
      rw [hlead ha]
      rfl
  rw [ofNat, hletters, String.ofList_toList]

/-- Which variable has a given name: a numeral names the variable whose number it is, and other words name
none. -/
theorem ofNat_eq_iff {n : Nat} {w : String} : ofNat n = w ↔ IsNumeral w ∧ value w.toList = n := by
  constructor
  · rintro rfl
    rw [ofNat, String.toList_ofList, value_letters]
    exact ⟨isNumeral_ofNat n, rfl⟩
  · rintro ⟨hw, rfl⟩
    exact ofNat_value hw

/-- The first names are the numerals of small value. -/
theorem mem_issued_iff {n : Nat} {w : String} : w ∈ issued n ↔ IsNumeral w ∧ value w.toList < n := by
  constructor
  · rintro ⟨i, hi, rfl⟩
    obtain ⟨hw, hvalue⟩ := ofNat_eq_iff.mp (rfl : ofNat i = ofNat i)
    exact ⟨hw, Nat.lt_of_le_of_lt (Nat.le_of_eq hvalue) hi⟩
  · rintro ⟨hw, hlt⟩
    exact ⟨value w.toList, hlt, (ofNat_value hw).symm⟩

/-- **Names are the numerals of a positional system.**  Every name is a numeral, and reading it in base 26
gives the number back; every numeral is the name of exactly one number, and no other word is a name; so
different numbers have different names.  The names of the numbers below a bound are the numerals whose value
is below it. -/
theorem numeration :
    (∀ n, IsNumeral (ofNat n) ∧ value (ofNat n).toList = n) ∧
    (∀ w, IsNumeral w ↔ ∃! n, ofNat n = w) ∧
    (∀ m n, ofNat m = ofNat n ↔ m = n) ∧
    ∀ bound w, (∃ n < bound, ofNat n = w) ↔ IsNumeral w ∧ value w.toList < bound := by
  refine ⟨fun n => ofNat_eq_iff.mp rfl, fun w => ⟨fun hw => ?_, ?_⟩, fun m n => ofNat_injective.eq_iff,
    fun bound w => ?_⟩
  · refine ⟨value w.toList, ofNat_value hw, fun n hn => ?_⟩
    exact (ofNat_eq_iff.mp hn).2.symm
  · rintro ⟨n, rfl, -⟩
    exact isNumeral_ofNat n
  · rw [← mem_issued_iff]
    exact exists_congr fun n => and_congr_right fun _ => eq_comm

end TypeTrace.Name
