/-!
# Names of type variables

Fresh variables are named by the numerals of a positional system whose 26 digits are the letters
`a` to `z`, so `a`, …, `z`, `ba`, `bb`, … .  Lists of names serve as sets that remember the
order in which their members were met.

## Main definitions

* `Name.ofNat`: the name with a given number
* `Name.merge`: the names of several lists, each at its first occurrence

## Main results

* `Name.distinct_length_lt`: a set of names that misses a member of another one, and adds
  nothing to it, is smaller
-/

namespace TypeTrace.Name

/-- The letter that stands for the digit `d`, counting from `a`. -/
def letter (d : Nat) : Char := Char.ofNat ('a'.toNat + d)

/-- The letters of `n` in base 26, the most significant first. -/
def letters (n : Nat) : List Char :=
  if n < 26 then [letter n] else letters (n / 26) ++ [letter (n % 26)]
termination_by n

/-- The name with number `n`. -/
def ofNat (n : Nat) : String := String.ofList (letters n)

/-- The members of a list of names, each at its first occurrence. -/
def distinct (names : List String) : List String := names.eraseDups

/-- The names of several lists in order, each at its first occurrence. -/
def merge (lists : List (List String)) : List String := distinct lists.flatten

@[simp] theorem mem_distinct {x : String} {names : List String} :
    x ∈ distinct names ↔ x ∈ names :=
  List.mem_eraseDups

theorem nodup_distinct (names : List String) : (distinct names).Nodup := by
  unfold distinct
  match names with
  | [] => simp
  | x :: rest =>
    rw [List.eraseDups_cons, List.nodup_cons]
    exact ⟨by simp, nodup_distinct (rest.filter fun b => !b == x)⟩
termination_by names.length
decreasing_by
  have := List.length_filter_le (fun b => !b == x) rest
  simp only [List.length_cons]
  omega

theorem length_le_of_nodup_of_subset {l m : List String} (hn : l.Nodup) (hs : ∀ x ∈ l, x ∈ m) :
    l.length ≤ m.length := by
  induction l generalizing m with
  | nil => simp
  | cons a l ih =>
    have ha : a ∈ m := hs a List.mem_cons_self
    obtain ⟨hal, hl⟩ := List.nodup_cons.mp hn
    have hrest : ∀ x ∈ l, x ∈ m.erase a := fun x hx =>
      (List.mem_erase_of_ne fun h : x = a => hal (h ▸ hx)).mpr (hs x (List.mem_cons_of_mem _ hx))
    have hle := ih hl hrest
    have hpos : 0 < m.length := List.length_pos_of_mem ha
    rw [List.length_erase_of_mem ha] at hle
    simp only [List.length_cons]
    omega

theorem distinct_length_le {l m : List String} (h : ∀ x ∈ l, x ∈ m) :
    (distinct l).length ≤ (distinct m).length :=
  length_le_of_nodup_of_subset (nodup_distinct l) fun x hx => by simpa using h x (by simpa using hx)

/-- **A set of names that misses a member of a larger one is smaller.** -/
theorem distinct_length_lt {l m : List String} (h : ∀ x ∈ l, x ∈ m) {y : String} (hy : y ∈ m)
    (hyl : y ∉ l) : (distinct l).length < (distinct m).length := by
  have hn : (y :: distinct l).Nodup := List.nodup_cons.mpr ⟨by simpa using hyl, nodup_distinct l⟩
  have hs : ∀ x ∈ y :: distinct l, x ∈ distinct m := by
    intro x hx
    rcases List.mem_cons.mp hx with rfl | hx
    · simpa using hy
    · simpa using h x (by simpa using hx)
  exact Nat.lt_of_succ_le (length_le_of_nodup_of_subset hn hs)

end TypeTrace.Name
