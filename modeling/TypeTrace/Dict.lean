/-!
# Dictionaries

Finite maps kept as association lists with strictly increasing keys.  A dictionary has exactly
one representation, so two dictionaries are equal as soon as they answer every lookup alike, and
listing one always follows the order of its keys.

## Main definitions

* `Dict κ α`: a finite map from keys `κ` to values `α`
* `Dict.get?`, `Dict.insert`, `Dict.without`, `Dict.map`, `Dict.union`: lookup and updates

## Main results

* `Dict.ext_get?`: a dictionary is determined by its lookups
* `Dict.get?_insert`, `Dict.get?_map`, `Dict.get?_without`, `Dict.get?_union`: what each update
  does to a lookup
-/

namespace TypeTrace

universe u v w

variable {κ : Type u} {α : Type v} {β : Type w} [Ord κ]

/-- The keys of an association list are strictly increasing. -/
def Ascending (entries : List (κ × α)) : Prop :=
  entries.Pairwise fun a b => compare a.1 b.1 = .lt

/-- A finite map from `κ` to `α`, listed by strictly increasing key. -/
structure Dict (κ : Type u) (α : Type v) [Ord κ] where
  /-- The bindings, in key order. -/
  entries : List (κ × α)
  /-- Every key stands once, and before all greater ones. -/
  ascending : Ascending entries

namespace Dict

/-! ## Association lists -/

/-- The value bound to `k` in an association list. -/
def find? (k : κ) : List (κ × α) → Option α
  | [] => none
  | (k', a) :: rest => if compare k k' = .eq then some a else find? k rest

/-- Bind `k` to `a`, replacing an earlier binding, and keep the keys increasing. -/
def put (k : κ) (a : α) : List (κ × α) → List (κ × α)
  | [] => [(k, a)]
  | (k', b) :: rest =>
    match compare k k' with
    | .lt => (k, a) :: (k', b) :: rest
    | .eq => (k, a) :: rest
    | .gt => (k', b) :: put k a rest

section

-- The equations of these functions are made here, not by all the proofs at once that need them first.
attribute [local simp] find? put

end

theorem mem_put {k : κ} {a : α} {e : κ × α} {l : List (κ × α)} (h : e ∈ put k a l) :
    e = (k, a) ∨ e ∈ l := by
  induction l with
  | nil => simpa [put] using h
  | cons head rest ih =>
    obtain ⟨k', b⟩ := head
    unfold put at h
    split at h
    · simpa using h
    · rcases List.mem_cons.mp h with h | h
      · exact .inl h
      · exact .inr (List.mem_cons_of_mem _ h)
    · rcases List.mem_cons.mp h with h | h
      · exact .inr (h ▸ List.mem_cons_self)
      · exact (ih h).imp_right (List.mem_cons_of_mem _)

theorem find?_eq_none_of_lt [Std.LawfulEqOrd κ] {k : κ} {l : List (κ × α)}
    (h : ∀ e ∈ l, compare k e.1 = .lt) : find? k l = none := by
  induction l with
  | nil => rfl
  | cons head rest ih =>
    have hk := h head List.mem_cons_self
    simp [find?, hk, ih fun e he => h e (List.mem_cons_of_mem _ he)]

section

variable [Std.TransOrd κ] [Std.LawfulEqOrd κ]

theorem ascending_put {k : κ} {a : α} {l : List (κ × α)} (h : Ascending l) :
    Ascending (put k a l) := by
  induction l with
  | nil => simp [Ascending, put]
  | cons head rest ih =>
    obtain ⟨k', b⟩ := head
    have hrest : Ascending rest := List.Pairwise.of_cons h
    have hhead : ∀ e ∈ rest, compare k' e.1 = .lt := (List.pairwise_cons.mp h).1
    unfold put
    split
    case h_1 hlt =>
      refine List.pairwise_cons.mpr ⟨fun e he => ?_, h⟩
      rcases List.mem_cons.mp he with rfl | he
      · exact hlt
      · exact Std.TransCmp.lt_trans hlt (hhead e he)
    case h_2 heq =>
      obtain rfl := Std.LawfulEqOrd.eq_of_compare heq
      exact List.pairwise_cons.mpr ⟨hhead, hrest⟩
    case h_3 hgt =>
      refine List.pairwise_cons.mpr ⟨fun e he => ?_, ih hrest⟩
      rcases mem_put he with rfl | he
      · exact Std.OrientedCmp.gt_iff_lt.mp hgt
      · exact hhead e he

theorem find?_put (k k' : κ) (a : α) {l : List (κ × α)} (h : Ascending l) :
    find? k' (put k a l) = if compare k' k = .eq then some a else find? k' l := by
  induction l with
  | nil => simp [put, find?]
  | cons head rest ih =>
    obtain ⟨k₀, b⟩ := head
    have hrest : Ascending rest := List.Pairwise.of_cons h
    unfold put
    split
    case h_1 => simp [find?]
    case h_2 heq =>
      obtain rfl := Std.LawfulEqOrd.eq_of_compare heq
      by_cases hk : compare k' k = .eq <;> simp [find?, hk]
    case h_3 hgt =>
      simp only [find?, ih hrest]
      by_cases h₀ : compare k' k₀ = .eq
      · obtain rfl := Std.LawfulEqOrd.eq_of_compare h₀
        have : compare k' k = .lt := Std.OrientedCmp.gt_iff_lt.mp hgt
        simp [this]
      · simp [h₀]

/-- Of two lists with the same lookups, the second one does not start with a greater key: the first key
would be missing in it. -/
theorem compare_head_ne_lt {kx ky : κ} {a b : α} {xs ys : List (κ × α)}
    (hm : Ascending ((ky, b) :: ys))
    (h : ∀ k, find? k ((kx, a) :: xs) = find? k ((ky, b) :: ys)) : compare kx ky ≠ .lt := by
  intro hlt
  have hy : ∀ e ∈ ys, compare ky e.1 = .lt := (List.pairwise_cons.mp hm).1
  have hmissing : find? kx ((ky, b) :: ys) = none := by
    refine find?_eq_none_of_lt fun e he => ?_
    rcases List.mem_cons.mp he with rfl | he
    · exact hlt
    · exact Std.TransCmp.lt_trans hlt (hy e he)
  rw [← h kx] at hmissing
  simp [find?] at hmissing

/-- **Lookups determine the list**, once its keys are increasing. -/
theorem eq_of_find? {l m : List (κ × α)} (hl : Ascending l) (hm : Ascending m)
    (h : ∀ k, find? k l = find? k m) : l = m := by
  induction l generalizing m with
  | nil =>
    cases m with
    | nil => rfl
    | cons head rest => simpa [find?] using h head.1
  | cons x xs ih =>
    cases m with
    | nil => simpa [find?] using h x.1
    | cons y ys =>
      obtain ⟨kx, a⟩ := x
      obtain ⟨ky, b⟩ := y
      have hx : ∀ e ∈ xs, compare kx e.1 = .lt := (List.pairwise_cons.mp hl).1
      have hy : ∀ e ∈ ys, compare ky e.1 = .lt := (List.pairwise_cons.mp hm).1
      have hkk : kx = ky := by
        refine Std.LawfulEqOrd.eq_of_compare ?_
        match hc : compare kx ky with
        | .eq => rfl
        | .lt => exact absurd hc (compare_head_ne_lt hm h)
        | .gt =>
          have hc' : compare ky kx = .lt := Std.OrientedCmp.gt_iff_lt.mp hc
          exact absurd hc' (compare_head_ne_lt hl fun k => (h k).symm)
      subst hkk
      have hab : a = b := by simpa [find?] using h kx
      subst hab
      congr 1
      -- Both tails lack the common first key, and for other keys the heads are passed over.
      refine ih (List.Pairwise.of_cons hl) (List.Pairwise.of_cons hm) fun k => ?_
      have hk := h k
      by_cases he : compare k kx = .eq
      · obtain rfl := Std.LawfulEqOrd.eq_of_compare he
        rw [find?_eq_none_of_lt hx, find?_eq_none_of_lt hy]
      · simpa [find?, he] using hk

end

/-! ## Dictionaries -/

/-- The dictionary without bindings. -/
def empty : Dict κ α := ⟨[], List.Pairwise.nil⟩

instance : EmptyCollection (Dict κ α) := ⟨empty⟩

instance : Inhabited (Dict κ α) := ⟨empty⟩

instance [DecidableEq κ] [DecidableEq α] : DecidableEq (Dict κ α) := fun d e =>
  decidable_of_iff (d.entries = e.entries) ⟨fun h => by cases d; cases e; cases h; rfl, congrArg _⟩

/-- The value bound to `k`. -/
def get? (d : Dict κ α) (k : κ) : Option α := find? k d.entries

/-- The dictionary binds `k`. -/
def contains (d : Dict κ α) (k : κ) : Bool := (d.get? k).isSome

/-- Apply `f` to every value. -/
def map (f : α → β) (d : Dict κ α) : Dict κ β where
  entries := d.entries.map fun e => (e.1, f e.2)
  ascending := by
    have h := d.ascending
    simpa [Ascending, List.pairwise_map] using h

/-- Keep the bindings whose key satisfies `p`. -/
def filterKeys (p : κ → Bool) (d : Dict κ α) : Dict κ α where
  entries := d.entries.filter fun e => p e.1
  ascending := List.Pairwise.filter _ d.ascending

/-- Drop the bindings of the listed keys. -/
def without [BEq κ] (d : Dict κ α) (keys : List κ) : Dict κ α :=
  d.filterKeys fun k => !keys.contains k

/-- The keys, increasing. -/
def keys (d : Dict κ α) : List κ := d.entries.map Prod.fst

/-- The values, in key order. -/
def values (d : Dict κ α) : List α := d.entries.map Prod.snd

/-- The dictionary has no bindings. -/
def isEmpty (d : Dict κ α) : Bool := d.entries.isEmpty

@[simp] theorem get?_empty (k : κ) : (empty : Dict κ α).get? k = none := rfl

@[simp] theorem entries_empty : (empty : Dict κ α).entries = [] := rfl

@[simp] theorem get?_map (f : α → β) (d : Dict κ α) (k : κ) :
    (d.map f).get? k = (d.get? k).map f := by
  obtain ⟨l, hl⟩ := d
  simp only [get?, map]
  clear hl
  induction l with
  | nil => rfl
  | cons head rest ih =>
    by_cases h : compare k head.1 = .eq <;> simp [find?, h, ih]

@[simp] theorem contains_iff (d : Dict κ α) (k : κ) :
    d.contains k = true ↔ ∃ a, d.get? k = some a := by
  simp [contains, Option.isSome_iff_exists]

section

variable [Std.LawfulEqOrd κ]

theorem get?_filterKeys (p : κ → Bool) (d : Dict κ α) (k : κ) :
    (d.filterKeys p).get? k = if p k then d.get? k else none := by
  obtain ⟨l, hl⟩ := d
  simp only [get?, filterKeys]
  clear hl
  induction l with
  | nil => simp [find?]
  | cons head rest ih =>
    by_cases hk : compare k head.1 = .eq
    · obtain rfl := Std.LawfulEqOrd.eq_of_compare hk
      by_cases hp : p head.1 <;> simp_all [find?]
    · by_cases hp : p head.1 <;> simp [find?, hk, hp, ih]

theorem get?_without [BEq κ] (d : Dict κ α) (keys : List κ) (k : κ) :
    (d.without keys).get? k = if keys.contains k then none else d.get? k := by
  rw [without, get?_filterKeys]
  cases keys.contains k <;> simp

/-- A binding is listed exactly when its key is looked up with its value. -/
theorem mem_entries_iff [Std.OrientedOrd κ] (d : Dict κ α) (k : κ) (a : α) :
    (k, a) ∈ d.entries ↔ d.get? k = some a := by
  obtain ⟨l, hl⟩ := d
  simp only [get?]
  induction l with
  | nil => simp [find?]
  | cons head rest ih =>
    obtain ⟨k', b⟩ := head
    have hhead : ∀ e ∈ rest, compare k' e.1 = .lt := (List.pairwise_cons.mp hl).1
    by_cases hk : compare k k' = .eq
    · obtain rfl := Std.LawfulEqOrd.eq_of_compare hk
      have hnot : (k, a) ∉ rest := fun h => by simpa using hhead _ h
      simp [find?, hnot, eq_comm]
    · have hne : k ≠ k' := fun h => hk (by simp [h])
      simp [find?, hk, hne, ih (List.Pairwise.of_cons hl)]

theorem mem_keys_iff [Std.OrientedOrd κ] (d : Dict κ α) (k : κ) :
    k ∈ d.keys ↔ ∃ a, d.get? k = some a := by
  simp only [keys, List.mem_map, Prod.exists, exists_and_right, exists_eq_right]
  exact exists_congr fun a => mem_entries_iff d k a

theorem mem_values_iff [Std.OrientedOrd κ] (d : Dict κ α) (a : α) :
    a ∈ d.values ↔ ∃ k, d.get? k = some a := by
  simp only [values, List.mem_map, Prod.exists, exists_eq_right]
  exact exists_congr fun k => mem_entries_iff d k a

end

/-! ## Updates -/

variable [Std.TransOrd κ] [Std.LawfulEqOrd κ]

/-- **A dictionary is determined by its lookups.** -/
theorem ext_get? {d e : Dict κ α} (h : ∀ k, d.get? k = e.get? k) : d = e := by
  obtain ⟨l, hl⟩ := d
  obtain ⟨m, hm⟩ := e
  obtain rfl : l = m := eq_of_find? hl hm h
  rfl

/-- Bind `k` to `a`, replacing an earlier binding of `k`. -/
def insert (d : Dict κ α) (k : κ) (a : α) : Dict κ α :=
  ⟨put k a d.entries, ascending_put d.ascending⟩

/-- The dictionary with one binding. -/
def singleton (k : κ) (a : α) : Dict κ α := empty.insert k a

/-- The dictionary of a list of bindings, later ones winning. -/
def ofList (l : List (κ × α)) : Dict κ α := l.foldl (fun d e => d.insert e.1 e.2) empty

/-- Extend `d` by the bindings of `e`, which win over those of `d`. -/
def union (d e : Dict κ α) : Dict κ α := e.entries.foldr (fun x d => d.insert x.1 x.2) d

theorem get?_insert (d : Dict κ α) (k k' : κ) (a : α) :
    (d.insert k a).get? k' = if compare k' k = .eq then some a else d.get? k' :=
  find?_put k k' a d.ascending

@[simp] theorem get?_insert_self (d : Dict κ α) (k : κ) (a : α) :
    (d.insert k a).get? k = some a := by
  simp [get?_insert]

theorem get?_insert_of_ne (d : Dict κ α) {k k' : κ} (a : α) (h : k' ≠ k) :
    (d.insert k a).get? k' = d.get? k' := by
  rw [get?_insert, if_neg]
  exact fun hc => h (Std.LawfulEqOrd.eq_of_compare hc)

/-- One value is stored under a list of keys. -/
theorem get?_foldl_insert [DecidableEq κ] (keys : List κ) (a : α) (d : Dict κ α) (k : κ) :
    (keys.foldl (fun d key => d.insert key a) d).get? k =
      if k ∈ keys then some a else d.get? k := by
  induction keys generalizing d with
  | nil => simp
  | cons key keys ih =>
    rw [List.foldl_cons, ih, get?_insert]
    by_cases hkey : k = key <;> by_cases hk : k ∈ keys <;> simp [hkey, hk]

theorem mem_of_get?_ofList {l : List (κ × α)} {k : κ} {a : α} (h : (ofList l).get? k = some a) :
    (k, a) ∈ l := by
  -- What the dictionary at the start already binds may be in the result as well.
  have hfold : ∀ (l : List (κ × α)) (d : Dict κ α),
      (l.foldl (fun d e => d.insert e.1 e.2) d).get? k = some a → (k, a) ∈ l ∨ d.get? k = some a := by
    intro l
    induction l with
    | nil => exact fun d hd => .inr hd
    | cons e l ih =>
      intro d hd
      rcases ih _ hd with hmem | hget
      · exact .inl (List.mem_cons_of_mem _ hmem)
      · rw [get?_insert] at hget
        split at hget
        · next hk =>
          cases hget
          exact .inl (Std.LawfulEqOrd.eq_of_compare hk ▸ List.mem_cons_self)
        · exact .inr hget
  exact (hfold l empty h).resolve_right (by simp)

theorem get?_singleton (k k' : κ) (a : α) :
    (singleton k a : Dict κ α).get? k' = if compare k' k = .eq then some a else none := by
  rw [singleton, get?_insert, get?_empty]

theorem get?_union (d e : Dict κ α) (k : κ) : (d.union e).get? k = (e.get? k).or (d.get? k) := by
  obtain ⟨l, hl⟩ := e
  simp only [union, get?]
  clear hl
  induction l with
  | nil => rfl
  | cons head rest ih =>
    rw [List.foldr_cons, ← get?, get?_insert, get?, ih]
    by_cases hk : compare k head.1 = .eq <;> simp [find?, hk]

end Dict
end TypeTrace
