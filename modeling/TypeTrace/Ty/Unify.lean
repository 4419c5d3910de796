import TypeTrace.Ty.Subst

/-!
# Unification

Two types are unified by solving a list of equations from the left.  An equation is reduced to
the binding of a variable or to equations between its parts, results and heads before
arguments; a binding is applied to all equations that remain and composed with the bindings
found before.

## Main definitions

* `Ty.bind`: the substitution that makes a variable equal to a type
* `Ty.reduce`: one equation as a binding and smaller equations
* `Ty.solve`: solve a list of equations
* `Ty.unify`: the least substitution that makes two types equal
-/

namespace TypeTrace.Ty

/-- Make the variable `x` equal to `t`, unless `t` properly contains it. -/
def bind (x : String) (t : Ty) : Except TypeError Subst :=
  if t = .var x then .ok .empty
  else if x ∈ t.occurrences then .error (.occursCheck x t)
  else .ok (.singleton x t)

/-- What an equation between two types asks for: a binding, and equations between parts. -/
def reduce : Ty → Ty → Except TypeError (Subst × List (Ty × Ty))
  | .var x, t => (bind x t).map (·, [])
  | t, .var x => (bind x t).map (·, [])
  | .con a, .con b => if a = b then .ok (.empty, []) else .error (.incompatible (.con a) (.con b))
  | .fn args result, .fn args' result' =>
    if args.length = args'.length then .ok (.empty, (result, result') :: args.zip args')
    else .error (.arityMismatch args.length args'.length)
  | .app target args, .app target' args' =>
    if args.length = args'.length then .ok (.empty, (target, target') :: args.zip args')
    else .error (.arityMismatch args.length args'.length)
  | t, u => .error (.incompatible t u)

/-- The variables of a list of equations. -/
def equationVars (eqs : List (Ty × Ty)) : List String :=
  eqs.flatMap fun e => e.1.occurrences ++ e.2.occurrences

/-- The number of nodes in a list of equations. -/
def equationSize : List (Ty × Ty) → Nat
  | [] => 0
  | e :: eqs => e.1.size + e.2.size + equationSize eqs

/-- Apply a substitution to both sides of every equation. -/
def applyEquations (s : Subst) (eqs : List (Ty × Ty)) : List (Ty × Ty) :=
  eqs.map fun e => (e.1.apply s, e.2.apply s)

/-! ## Why solving ends -/

theorem bind_eq_ok {x : String} {t : Ty} {d : Subst} (h : bind x t = .ok d) :
    (t = .var x ∧ d = .empty) ∨ (x ∉ t.occurrences ∧ d = .singleton x t) := by
  unfold bind at h
  split at h
  · cases h; exact .inl ⟨‹_›, rfl⟩
  · split at h
    · cases h
    · cases h; exact .inr ⟨‹_›, rfl⟩

theorem bind_eq_error {x : String} {t : Ty} {e : TypeError} (h : bind x t = .error e) :
    e = .occursCheck x t ∧ x ∈ t.occurrences ∧ t ≠ .var x := by
  unfold bind at h
  split at h
  · cases h
  · split at h
    · cases h; exact ⟨rfl, ‹_›, ‹_›⟩
    · cases h

theorem equationSize_append (l m : List (Ty × Ty)) :
    equationSize (l ++ m) = equationSize l + equationSize m := by
  induction l with
  | nil => simp [equationSize]
  | cons e l ih => simp only [List.cons_append, equationSize, ih]; omega

theorem equationSize_zip_le (ts us : List Ty) :
    equationSize (ts.zip us) ≤ sizeAll ts + sizeAll us := by
  induction ts generalizing us with
  | nil => simp [equationSize]
  | cons t ts ih =>
    cases us with
    | nil => simp [equationSize]
    | cons u us =>
      have := ih us
      simp only [List.zip_cons_cons, equationSize, sizeAll]
      omega

theorem mem_equationVars_zip {x : String} {ts us : List Ty} (h : x ∈ equationVars (ts.zip us)) :
    x ∈ occurrencesAll ts ∨ x ∈ occurrencesAll us := by
  simp only [equationVars, List.mem_flatMap, List.mem_append] at h
  obtain ⟨e, he, hx⟩ := h
  obtain ⟨ht, hu⟩ := List.of_mem_zip (a := e.1) (b := e.2) he
  simp only [mem_occurrencesAll]
  exact hx.imp (fun h => ⟨_, ht, h⟩) fun h => ⟨_, hu, h⟩

/-- The equations of the parts of two functions, or of two applications, have variables of these only. -/
theorem mem_equationVars_parts {x : String} {t u : Ty} {ts us : List Ty}
    (h : x ∈ equationVars ((t, u) :: ts.zip us)) :
    (x ∈ t.occurrences ∨ x ∈ occurrencesAll ts) ∨ (x ∈ u.occurrences ∨ x ∈ occurrencesAll us) := by
  simp only [equationVars, List.flatMap_cons, List.mem_append] at h
  rcases h with (h | h) | h
  · exact .inl (.inl h)
  · exact .inr (.inl h)
  · exact (mem_equationVars_zip h).imp .inr .inr

/-- A step that binds a variable leaves no equations. -/
theorem map_bind_ok {x : String} {t : Ty} {d : Subst} {eqs : List (Ty × Ty)}
    (h : (bind x t).map (·, ([] : List (Ty × Ty))) = .ok (d, eqs)) :
    bind x t = .ok d ∧ eqs = [] := by
  cases hb : bind x t with
  | error e => simp [hb, Except.map] at h
  | ok s =>
    simp only [hb, Except.map, Except.ok.injEq, Prod.mk.injEq] at h
    exact ⟨by rw [h.1], h.2.symm⟩

/-- **Reducing an equation makes progress**: either nothing is bound and the parts are smaller
than the whole, or a variable of the equation is eliminated for good. -/
theorem reduce_eq_ok {t u : Ty} {d : Subst} {eqs : List (Ty × Ty)} (h : reduce t u = .ok (d, eqs)) :
    (d = .empty ∧ equationSize eqs < t.size + u.size ∧
        ∀ y ∈ equationVars eqs, y ∈ t.occurrences ∨ y ∈ u.occurrences) ∨
      ∃ x v, d = .singleton x v ∧ eqs = [] ∧ x ∉ v.occurrences ∧
        (x ∈ t.occurrences ∨ x ∈ u.occurrences) ∧
        ∀ y ∈ v.occurrences, y ∈ t.occurrences ∨ y ∈ u.occurrences := by
  have hpos := size_pos t
  unfold reduce at h
  split at h
  -- A variable on one side: binding it does nothing if the other side is the same variable.
  case h_1 x =>
    obtain ⟨hb, rfl⟩ := map_bind_ok h
    rcases bind_eq_ok hb with ⟨-, rfl⟩ | ⟨hx, rfl⟩
    · exact .inl ⟨rfl, by simp only [equationSize]; omega, by simp [equationVars]⟩
    · exact .inr ⟨x, u, rfl, rfl, hx, .inl (by simp [occurrences]), fun y hy => .inr hy⟩
  case h_2 x _ =>
    obtain ⟨hb, rfl⟩ := map_bind_ok h
    rcases bind_eq_ok hb with ⟨-, rfl⟩ | ⟨hx, rfl⟩
    · exact .inl ⟨rfl, by simp only [equationSize]; omega, by simp [equationVars]⟩
    · exact .inr ⟨x, t, rfl, rfl, hx, .inr (by simp [occurrences]), fun y hy => .inl hy⟩
  case h_3 a b =>
    split at h
    · cases h
      exact .inl ⟨rfl, by simp only [equationSize]; omega, by simp [equationVars]⟩
    · cases h
  -- Functions, and likewise applications, are taken apart: the nodes on top go away.
  case h_4 args result args' result' =>
    split at h
    · cases h
      refine .inl ⟨rfl, ?_, ?_⟩
      · have := equationSize_zip_le args args'
        simp only [equationSize, size]
        omega
      · intro y hy
        simp only [occurrences, List.mem_append]
        exact mem_equationVars_parts hy
    · cases h
  case h_5 target args target' args' =>
    split at h
    · cases h
      refine .inl ⟨rfl, ?_, ?_⟩
      · have := equationSize_zip_le args args'
        simp only [equationSize, size]
        omega
      · intro y hy
        simp only [occurrences, List.mem_append]
        exact mem_equationVars_parts hy
    · cases h
  case h_6 => cases h

theorem applyEquations_empty (eqs : List (Ty × Ty)) : applyEquations .empty eqs = eqs := by
  simp [applyEquations]

theorem mem_equationVars_apply_single {x y : String} {v : Ty} {eqs : List (Ty × Ty)}
    (h : y ∈ equationVars (applyEquations (.singleton x v) eqs)) :
    (y ∈ equationVars eqs ∧ y ≠ x) ∨ y ∈ v.occurrences := by
  simp only [equationVars, applyEquations, List.mem_flatMap, List.mem_map, List.mem_append] at h ⊢
  obtain ⟨_, ⟨e, he, rfl⟩, hy | hy⟩ := h
  · rcases mem_occurrences_apply_single e.1 hy with h | h
    · exact .inl ⟨⟨e, he, .inl h.1⟩, h.2⟩
    · exact .inr h.2
  · rcases mem_occurrences_apply_single e.2 hy with h | h
    · exact .inl ⟨⟨e, he, .inr h.1⟩, h.2⟩
    · exact .inr h.2

/-- The measure that falls with every reduced equation: variables left, then nodes left. -/
def equationRank (eqs : List (Ty × Ty)) : Nat × Nat :=
  ((Name.distinct (equationVars eqs)).length, equationSize eqs)

theorem equationRank_reduce_lt {t u : Ty} {d : Subst} {eqs rest : List (Ty × Ty)}
    (h : reduce t u = .ok (d, eqs)) :
    Prod.Lex (· < ·) (· < ·) (equationRank (applyEquations d (eqs ++ rest)))
      (equationRank ((t, u) :: rest)) := by
  rcases reduce_eq_ok h with ⟨rfl, hsize, hvars⟩ | ⟨x, v, rfl, rfl, hxv, hx, hv⟩
  -- Nothing is bound: no variable is new, and the equations get smaller.
  · rw [applyEquations_empty]
    have hle : (Name.distinct (equationVars (eqs ++ rest))).length ≤
        (Name.distinct (equationVars ((t, u) :: rest))).length := by
      refine Name.distinct_length_le fun y hy => ?_
      simp only [equationVars, List.flatMap_append, List.flatMap_cons, List.mem_append]
        at hy hvars ⊢
      exact hy.imp_left fun hy => hvars y hy
    have hlt : equationSize (eqs ++ rest) < equationSize ((t, u) :: rest) := by
      rw [equationSize_append]
      simp only [equationSize]
      omega
    rcases Nat.lt_or_eq_of_le hle with hlt' | heq
    · exact .left _ _ hlt'
    · simp only [equationRank, heq]
      exact .right _ hlt
  -- A variable is eliminated: it was in the equation, and is in none that is left.
  · refine .left _ _ (Name.distinct_length_lt (y := x) (fun y hy => ?_) ?_ fun hy => ?_)
    · simp only [equationVars, List.flatMap_cons, List.mem_append]
      rcases mem_equationVars_apply_single hy with ⟨hy, -⟩ | hy
      · exact .inr (by simpa [equationVars] using hy)
      · exact .inl (hv y hy)
    · simp only [equationVars, List.flatMap_cons, List.mem_append]
      exact .inl hx
    · rcases mem_equationVars_apply_single hy with ⟨-, hne⟩ | hy
      · exact hne rfl
      · exact hxv hy

/-! ## Solving -/

/-- Solve the equations from the left, adding to the bindings `found` so far, which the
equations no longer mention. -/
def solve (found : Subst) : List (Ty × Ty) → Except TypeError Subst
  | [] => .ok found
  | (t, u) :: rest =>
    match _h : reduce t u with
    | .error e => .error e
    | .ok (d, eqs) =>
      match d.compose found with
      | .error e => .error e
      | .ok found' => solve found' (applyEquations d (eqs ++ rest))
termination_by eqs => equationRank eqs
decreasing_by exact equationRank_reduce_lt ‹_›

/-- The substitution that makes two types equal, with the fewest bindings. -/
def unify (t u : Ty) : Except TypeError Subst := solve .empty [(t, u)]

end TypeTrace.Ty
