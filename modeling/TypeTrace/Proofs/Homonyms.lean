import TypeTrace.Proofs.Kinds
import TypeTrace.Proofs.Numeration
import TypeTrace.Proofs.Readability
import TypeTrace.Proofs.Renaming
import TypeTrace.Proofs.Rules

/-!
# Variables that are named like constants

Variables are named by numerals, and a printed type does not tell them from constants.  Most names of constants
are numerals too, so sooner or later a variable is created that is named like a constant; but not before the
variable with the number 5765, which is named `int`.  Up to there, every word that a run shows in a type stands
for a variable or for a constant, and never for both.

## Main definitions

* `Ty.constantNames`: the names of the constants that types are made of
* `Infer.shown`: the types that the result of a run shows
* `TypeInvariant.numbered`: all variables, quantified ones included, are among the first ones
* `emptyArrays`: programs that create as many variables as they have statements

## Main results

* `Name.ofNat_mem_constantNames_iff`: the variables that are named like constants
* `Infer.namesApart_of_created`: few variables are told from constants
* `homonyms`: when a variable can be taken for a constant
-/

namespace TypeTrace

/-! ## Numerals among the names of constants -/

/-- The names of the constants that types are made of. -/
def Ty.constantNames : List String := ["int", "bool", "string", "null", "void", "Array", ","]

theorem Ty.WellKinded.constants_subset {t : Ty} (h : t.WellKinded) : t.constants ⊆ constantNames := by
  induction h with
  | var x => exact List.nil_subset _
  | con hc =>
    rw [constants]
    exact List.cons_subset.mpr ⟨List.mem_append_left ["Array", ","] hc, List.nil_subset _⟩
  | fn _ _ _ ihargs ihresult =>
    rw [constants, List.append_subset]
    refine ⟨ihresult, fun c hc => ?_⟩
    obtain ⟨t, ht, hc⟩ := mem_constantsAll.mp hc
    exact ihargs t ht hc
  | array _ ih =>
    simp only [constants, constantsAll, List.append_nil, List.append_subset]
    exact ⟨by decide, ih⟩
  | pair _ _ iha ihb =>
    simp only [constants, constantsAll, List.append_nil, List.append_subset]
    exact ⟨by decide, iha, ihb⟩

namespace Name

/-- **The variables that are named like constants.** -/
theorem ofNat_mem_constantNames_iff {n : Nat} :
    ofNat n ∈ Ty.constantNames ↔ n ∈ [5765, 27415, 222851856, 242305, 378771] := by
  have hnumerals : (Ty.constantNames.filter (IsNumeral ·)).map (value ·.toList) =
      [5765, 27415, 222851856, 242305, 378771] := by
    decide
  rw [← hnumerals]
  simp only [List.mem_map, List.mem_filter, decide_eq_true_eq, and_assoc, ← ofNat_eq_iff]
  constructor
  · exact fun h => ⟨_, h, rfl⟩
  · rintro ⟨w, hw, rfl⟩
    exact hw

/-- The first of them is the one named `int`. -/
theorem exists_issued_iff {n : Nat} : (∃ x ∈ issued n, x ∈ Ty.constantNames) ↔ 5765 < n := by
  constructor
  · rintro ⟨x, ⟨i, hi, rfl⟩, hx⟩
    have hmem := ofNat_mem_constantNames_iff.mp hx
    simp only [List.mem_cons, List.not_mem_nil, or_false] at hmem
    omega
  · intro hn
    exact ⟨ofNat 5765, ofNat_mem_issued.mpr hn, ofNat_mem_constantNames_iff.mpr List.mem_cons_self⟩

end Name

/-- The variables of a canonical form are the first ones. -/
theorem Ty.vars_canonical (t : Ty) : t.canonical.vars = Name.issued t.free.length := by
  let order := Name.distinct t.reading
  have hmem (x : String) : x ∈ order ↔ x ∈ t.free := mem_distinct_reading
  have hnodup : order.Nodup := Name.nodup_distinct _
  have hlength : order.length = t.free.length :=
    ((List.perm_ext_iff_of_nodup hnodup (Name.nodup_distinct _)).mpr hmem).length_eq
  rw [canonical_eq_rename, vars_rename]
  ext y
  constructor
  · rintro ⟨x, hx, rfl⟩
    exact ⟨order.idxOf x, hlength ▸ List.idxOf_lt_length_of_mem ((hmem x).mpr hx), rfl⟩
  · rintro ⟨i, hi, rfl⟩
    have hi : i < order.length := hlength ▸ hi
    exact ⟨order[i], (hmem _).mp (List.getElem_mem hi), congrArg Name.ofNat (hnodup.idxOf_getElem i hi)⟩

/-! ## What a run shows -/

/-- The types that a scheme shows: the quantified type, and the quantified variables. -/
def Scheme.shown (s : Scheme) : List Ty := s.body :: s.vars.map .var

/-- The types that an event shows, variables that stand alone included. -/
def Event.shown : Event → List Ty
  | newVar x => [.var x]
  | infer _ t => [t]
  | unify step => step.one :: step.two :: (step.delta.keys.map .var ++ step.delta.values)
  | scope Δ => Δ.values.flatMap Scheme.shown
  | push _ line => line.types
  | pop | pause _ => []

/-- The types that a trace shows. -/
def Trace.shown (trace : Trace) : List Ty :=
  trace.events.toList.flatMap Event.shown ++ trace.origins.keys.map .var ++
    (trace.subst.keys.map .var ++ trace.subst.values)

/-- The variables that an error names. -/
def TypeError.variables : TypeError → List String
  | occursCheck x _ | substitutionOverwrite x => [x]
  | incompatible .. | unboundVariable _ | arityMismatch .. | emptyLambda | emptyCall | unknownConstructor _
  | returnOutsideFunction => []

namespace Infer

/-- The trace of a run, whether it succeeds or fails. -/
def trace : Except Failure (Ty × Trace) → Trace
  | .ok (_, trace) => trace
  | .error failure => failure.trace

/-- The types that the result of a run shows: the type that is found, as it is and in canonical form, or those
in the error; and those in the trace. -/
def shown (r : Except Failure (Ty × Trace)) : List Ty :=
  (match r with
    | .ok (t, _) => [t, t.canonical]
    | .error failure => failure.error.types ++ failure.error.variables.map .var) ++ (trace r).shown

end Infer

/-! ## Variables in errors -/

theorem Ty.reduce_error_variables {t u : Ty} {e : TypeError} (h : reduce t u = .error e) :
    ∀ x ∈ e.variables, ∃ v ∈ e.types, x ∈ v.occurrences := by
  unfold reduce at h
  split at h
  -- Only the occurs check names a variable, and it names one of the type beside it.
  case h_1 | h_2 =>
    obtain ⟨rfl, hx, -⟩ := bind_eq_error (map_bind_error h)
    exact List.forall_mem_singleton.mpr ⟨_, List.mem_singleton_self _, hx⟩
  case h_3 | h_4 | h_5 =>
    split at h
    · cases h
    · cases h
      simp [TypeError.variables]
  case h_6 =>
    cases h
    simp [TypeError.variables]

theorem Ty.unify_error_variables {t u : Ty} {e : TypeError} (h : t.unify u = .error e) :
    ∀ x ∈ e.variables, ∃ v ∈ e.types, x ∈ v.occurrences := by
  -- Nothing has to be kept on the way to the step that fails.
  have hrun := solve_keeps (W := fun _ => True) (P := fun _ _ => True)
    (fun _ _ => ⟨fun _ _ _ => trivial, fun _ _ => trivial⟩) (fun _ _ => trivial) (fun _ _ => trivial)
    (clear_empty [(t, u)]) (fun _ _ _ => trivial) (fun _ _ => trivial)
  rw [show solve .empty [(t, u)] = .error e from h] at hrun
  obtain ⟨a, b, -, hr⟩ := hrun
  exact reduce_error_variables hr

/-- A variable that an error names is one of a type in the error. -/
theorem InferM.Stepwise.error_variables {α : Type} {m : InferM α} {n n' : Nat} (hm : Stepwise n n' m)
    {ctx : Context} (h : ctx.Consistent) {e : TypeError} (he : (exec m ctx).1 = .error e) :
    ∀ x ∈ e.variables, ∃ t ∈ e.types, x ∈ t.occurrences := by
  induction hm generalizing ctx with
  -- An error that is thrown by hand is none of those that name a variable.
  | throw e' hover hoccurs =>
    cases he
    cases e with
    | occursCheck name t => exact absurd rfl (hoccurs name t)
    | substitutionOverwrite name => exact absurd rfl (hover name)
    | _ => simp [TypeError.variables]
  | @bind _ _ _ _ _ m f hm hf ihm ihf =>
    rw [exec_bind] at he
    have hkeeps := (hm.keeps h).1
    rcases hr : exec m ctx with ⟨e' | a, ctx'⟩
    all_goals rw [hr] at he hkeeps
    · exact ihm h (by rw [hr, Except.error.inj he])
    · exact ihf a hkeeps he
  | unify one two src oneName twoName message =>
    rcases exec_unify_cases one two src oneName twoName message h.resolved with
      ⟨e', hu, hexec⟩ | ⟨delta, s, hu, hs, hres, hexec⟩
    all_goals
      rw [hexec] at he
      cases he
    exact Ty.unify_error_variables hu
  | noteScope env =>
    rcases exec_noteScope env ctx with hr | hr
    all_goals
      rw [hr] at he
      cases he
  | pure | subst | infer | pause | freshVar | push | pop => cases he

/-! ## Invariants of what is shown -/

namespace TypeInvariant

/-- The property passes from schemes, and from types to canonical forms and to variables. -/
structure Spreads (T : TypeInvariant) : Prop where
  scheme {n : Nat} {s : Scheme} (hs : T.scheme n s) : ∀ t ∈ s.shown, T.ty n t
  canonical {n : Nat} {t : Ty} (ht : T.ty n t) : T.ty n t.canonical
  var {n : Nat} {t : Ty} (ht : T.ty n t) {x : String} (hx : x ∈ t.occurrences) : T.ty n (.var x)

variable {T : TypeInvariant}

theorem ty_of_mem_issued (T : TypeInvariant) {n : Nat} {x : String} (hx : x ∈ Name.issued n) :
    T.ty n (.var x) := by
  obtain ⟨i, hi, rfl⟩ := hx
  exact T.ty_mono hi (T.var i)

theorem Bindings.ty_of_mem {n : Nat} {σ : Subst} (h : T.Bindings n σ) :
    ∀ t ∈ σ.keys.map .var ++ σ.values, T.ty n t := by
  refine List.forall_mem_append.mpr ⟨List.forall_mem_map.mpr fun x hx => ?_, fun t ht => ?_⟩
  · obtain ⟨t, ht⟩ := (Dict.mem_keys_iff σ x).mp hx
    exact (h x t ht).1
  · obtain ⟨x, hx⟩ := (Dict.mem_values_iff σ t).mp ht
    exact (h x t hx).2

theorem Logged.ty_of_shown (hT : T.Spreads) {n : Nat} {e : Event} (h : T.Logged n e)
    (hnew : ∀ x ∈ Event.created [e], x ∈ Name.issued n) : ∀ t ∈ e.shown, T.ty n t := by
  cases e with
  | newVar x => exact List.forall_mem_singleton.mpr (T.ty_of_mem_issued (hnew x (List.mem_singleton_self x)))
  | infer src t => exact List.forall_mem_singleton.mpr h
  | unify step =>
    obtain ⟨hone, htwo, hdelta⟩ := h
    exact List.forall_mem_cons.mpr ⟨hone, List.forall_mem_cons.mpr ⟨htwo, hdelta.ty_of_mem⟩⟩
  | scope Δ =>
    intro t ht
    obtain ⟨s, hs, ht⟩ := List.mem_flatMap.mp ht
    obtain ⟨name, hname⟩ := (Dict.mem_values_iff Δ s).mp hs
    exact hT.scheme (h name s hname) t ht
  | push src line => exact fun t ht => h t (StackLine.mem_types.mp ht)
  | pop | pause => exact fun t ht => absurd ht List.not_mem_nil

theorem Logged.mono {m n : Nat} {e : Event} (h : T.Logged m e) (hmn : m ≤ n) : T.Logged n e := by
  cases e with
  | infer src t => exact T.ty_mono hmn h
  | unify step =>
    obtain ⟨hone, htwo, hdelta⟩ := h
    exact ⟨T.ty_mono hmn hone, T.ty_mono hmn htwo, hdelta.mono hmn⟩
  | scope Δ => exact fun name s hs => T.scheme_mono hmn (h name s hs)
  | push src line => exact fun t ht => T.ty_mono hmn (h t ht)
  | newVar | pop | pause => trivial

theorem State.ty_of_shown (hT : T.Spreads) {ctx : Context} (h : T.State ctx) (hctx : ctx.Supplied) :
    ∀ t ∈ ctx.trace.shown, T.ty ctx.nextId t := by
  refine List.forall_mem_append.mpr ⟨List.forall_mem_append.mpr ⟨fun t ht => ?_, ?_⟩, h.bindings.ty_of_mem⟩
  · obtain ⟨e, he, ht⟩ := List.mem_flatMap.mp ht
    obtain ⟨before, after, hsplit⟩ := List.append_of_mem he
    have hcreated := hctx.created
    rw [show ctx.events.toList = before ++ ([e] ++ after) from hsplit, Event.created_append,
      Event.created_append] at hcreated
    have hbefore : (Event.created before).length ≤ ctx.nextId := by
      have hlength := congrArg List.length hcreated
      rw [List.length_append, List.length_map, List.length_range] at hlength
      omega
    refine ((h.log before e after hsplit).mono hbefore).ty_of_shown hT (fun x hx => ?_) t ht
    have hmem : x ∈ (List.range ctx.nextId).map Name.ofNat :=
      hcreated ▸ List.mem_append_right _ (List.mem_append_left _ hx)
    obtain ⟨i, hi, rfl⟩ := List.mem_map.mp hmem
    exact Name.ofNat_mem_issued.mpr (List.mem_range.mp hi)
  · exact List.forall_mem_map.mpr fun x hx => T.ty_of_mem_issued (hctx.mem_keys_iff.mp hx)

/-- **What the result of a run shows has every property that inference keeps**, given the number of variables
that the run has created. -/
theorem ty_of_shown (hT : T.Spreads) (hfits : T.Fits 0 .builtin) (s : Stmt) :
    ∀ t ∈ Infer.shown (Infer.program .builtin s),
      T.ty (Event.created (Infer.trace (Infer.program .builtin s)).events.toList).length t := by
  obtain ⟨hstate, ⟨-, hfail⟩, hok⟩ := T.safe_program.2 s hfits {} .initial rfl
  have hstepwise := InferM.stepwise_stmt (n := 0) .builtin s
  have hsupplied := (hstepwise.supplies .initial).1
  rcases InferM.program_cases .builtin s with ⟨r, ctx, hexec, hprogram⟩ | ⟨e, ctx, hexec, hprogram⟩
  all_goals
    rw [hexec] at hstate hsupplied hfail hok
    have hcount : (Event.created ctx.events.toList).length = ctx.nextId := hstate.count
    rw [hprogram]
    change ∀ t ∈ _, T.ty (Event.created ctx.events.toList).length t
    rw [hcount]
    refine List.forall_mem_append.mpr ⟨?_, hstate.ty_of_shown hT hsupplied⟩
  · have hty := hstate.bindings.apply (hok r rfl).1
    exact List.forall_mem_cons.mpr ⟨hty, List.forall_mem_singleton.mpr (hT.canonical hty)⟩
  · refine List.forall_mem_append.mpr ⟨hfail e rfl, List.forall_mem_map.mpr fun x hx => ?_⟩
    obtain ⟨t, ht, hx⟩ := hstepwise.error_variables Context.consistent_initial (by rw [hexec]) x hx
    exact hT.var (hfail e rfl t ht) hx

/-! ## Few variables -/

theorem wellKinded_spreads : wellKinded.Spreads where
  scheme hs := by
    refine List.forall_mem_cons.mpr ⟨hs, List.forall_mem_map.mpr fun x _ => ?_⟩
    exact .var x
  canonical ht := ht.apply (Subst.fresh_into 0 _)
  var _ x _ := .var x

/-- All variables, quantified ones included, are among those created, or among the first `k`, which an
environment may use for its own. -/
def numbered (k : Nat) : TypeInvariant where
  ty n t := t.Within (Name.issued (max n k))
  scheme n s := s.body.Within (Name.issued (max n k)) ∧ ∀ x ∈ s.vars, x ∈ Name.issued (max n k)
  con := Constructor.Closed
  ty_mono hmn ht := ht.mono (Name.issued_mono (by omega))
  scheme_mono hmn hs :=
    ⟨hs.1.mono (Name.issued_mono (by omega)), fun x hx => Name.issued_mono (by omega) (hs.2 x hx)⟩
  var n := .var (Name.ofNat_mem_issued.mpr (by omega))
  prim n value := value.within_ty _
  string n := .con _
  void n := .con _
  fn _ hargs hresult := .fn hargs hresult
  apply := within_apply
  unify := within_unify
  unify_error he ht hu v hv x hx := (Ty.unify_error_vars he hv hx).elim (ht x) (hu x)
  mono ht := ⟨ht, fun x hx => absurd hx List.not_mem_nil⟩
  generalize env ht := ⟨ht, fun x hx => ht x (Env.mem_vars_generalize.mp hx).1⟩
  scheme_apply hσ hs := by
    refine ⟨within_apply (fun x u hx => ?_) hs.1, hs.2⟩
    rw [Dict.get?_without] at hx
    split at hx
    · cases hx
    · exact hσ x u hx
  instantiate hs := by
    refine .fresh (fun x hx _ => ?_) fun i _ hi => Name.ofNat_mem_issued.mpr (by omega)
    exact Name.issued_mono (by omega) (hs.1 x hx)
  construct hc n t ht := by
    refine .fresh (fun x hx hn => ?_) fun i _ hi => Name.ofNat_mem_issued.mpr (by omega)
    exact absurd (hc t ht x hx) hn

theorem numbered_spreads (k : Nat) : (numbered k).Spreads where
  scheme hs := by
    refine List.forall_mem_cons.mpr ⟨hs.1, List.forall_mem_map.mpr fun x hx => ?_⟩
    exact .var (hs.2 x hx)
  canonical {n t} ht x hx := by
    -- The variables of the type are different ones of those allowed, so there are not more of them.
    have hlength : t.free.length ≤ ((List.range (max n k)).map Name.ofNat).length := by
      refine Name.length_le_of_nodup_of_subset (Name.nodup_distinct _) fun y hy => ?_
      obtain ⟨i, hi, rfl⟩ := ht y (Ty.mem_free.mp hy)
      exact List.mem_map_of_mem (List.mem_range.mpr hi)
    rw [List.length_map, List.length_range] at hlength
    have hmem : x ∈ Name.issued t.free.length := t.vars_canonical ▸ Ty.mem_vars.mpr hx
    exact Name.issued_mono hlength hmem
  var ht x hx := .var (ht x hx)

/-- The built-in values quantify variables among the first eleven. -/
theorem numbered_fits : (numbered 11).Fits 0 .builtin := by
  have hvalues : ∀ e ∈ Env.builtin.scope.entries, ∀ x ∈ e.2.body.occurrences ++ e.2.vars,
      Name.IsNumeral x ∧ Name.value x.toList < 11 := by
    decide
  refine ⟨fun name s hs => ?_, Env.builtin_closed.constructors⟩
  have hentry (x : String) (hx : x ∈ s.body.occurrences ++ s.vars) : x ∈ Name.issued (max 0 11) :=
    Name.mem_issued_iff.mpr (hvalues (name, s) ((Dict.mem_entries_iff _ name s).mpr hs) x hx)
  have hbody : s.body.Within (Name.issued (max 0 11)) := fun x hx => hentry x (List.mem_append_left _ hx)
  exact ⟨⟨hbody, fun x hx => hentry x (List.mem_append_right _ hx)⟩, fun _ => hbody⟩

end TypeInvariant

/-- **As long as few variables are created, they are told from constants**: no name stands for a variable in a
type that the run shows and for a constant in such a type. -/
theorem Infer.namesApart_of_created (s : Stmt)
    (hcreated : (Event.created (trace (program .builtin s)).events.toList).length ≤ 5765) :
    ∀ t ∈ shown (program .builtin s), ∀ u ∈ shown (program .builtin s), t.NamesApart u := by
  have hnumbered := TypeInvariant.ty_of_shown (TypeInvariant.numbered_spreads 11) TypeInvariant.numbered_fits s
  have hkinded := TypeInvariant.ty_of_shown TypeInvariant.wellKinded_spreads (Env.builtin_fits 0) s
  have hapart {t u : Ty} (ht : t ∈ shown (program .builtin s)) (hu : u ∈ shown (program .builtin s)) :
      ∀ x ∈ t.free, x ∉ u.constants := by
    intro x hx hc
    have hissued : x ∈ Name.issued 5765 :=
      Name.issued_mono (by omega) (hnumbered t ht x (Ty.mem_free.mp hx))
    exact Nat.lt_irrefl _ (Name.exists_issued_iff.mp ⟨x, hissued, (hkinded u hu).constants_subset hc⟩)
  exact fun t ht u hu => ⟨hapart ht hu, hapart hu ht⟩

/-! ## Many variables -/

/-- The statement `[]`. -/
def emptyArray : Stmt := .expr (.var "[]" ⟨0, none⟩) ⟨0, none⟩

/-- A block of empty arrays, `{ []; …; [] }`.  Each of them has a type of its own. -/
def emptyArrays (n : Nat) : Stmt := .expr (.block (List.replicate n emptyArray) ⟨0, none⟩) ⟨0, none⟩

namespace InferM

theorem yields_emptyArray (n : Nat) :
    Yields (stmt ((Env.builtin.apply .empty).extend (Scope.apply .empty .empty)) emptyArray) ⟨n, .empty⟩
      { ty := .array (.var (Name.ofNat n)) } ⟨n + 1, .empty⟩ := by
  have hlookup : ((Env.builtin.apply .empty).extend (Scope.apply .empty .empty)).lookup "[]" =
      some ⟨["k"], .array (.var "k")⟩ := by
    decide
  have hinstance : (Ty.array (.var "k")).apply (.fresh n ["k"]) = .array (.var (Name.ofNat n)) := by
    have hk : (Subst.fresh n ["k"]).get? "k" = some (.var (Name.ofNat n)) := Dict.get?_insert_self ..
    rw [Ty.array, Ty.apply, Ty.applyAll_eq_map, Ty.apply, List.map_singleton, Ty.apply, hk]
    rfl
  exact yields_exprStmt.mpr ⟨_, yields_var.mpr ⟨_, hlookup, hinstance.symm, rfl⟩, rfl⟩

/-- A block goes on to empty arrays with one new variable for each. -/
theorem yields_emptyArrays (n k : Nat) :
    Yields (stmts .builtin .empty (.array (.var (Name.ofNat n))) (List.replicate k emptyArray))
      ⟨n + 1, .empty⟩ (.array (.var (Name.ofNat (n + k)))) ⟨n + k + 1, .empty⟩ := by
  induction k generalizing n with
  | zero => exact yields_stmts_nil.mpr ⟨(Ty.apply_empty _).symm, rfl⟩
  | succ k ih =>
    have hrest := ih (n + 1)
    rw [Nat.add_right_comm n 1 k] at hrest
    exact yields_stmts_cons.mpr ⟨_, _, yields_emptyArray (n + 1), hrest⟩

end InferM

/-- The type of a block of empty arrays is that of the last one, and all of them have created a variable. -/
theorem program_emptyArrays (n : Nat) :
    ∃ trace, Infer.program .builtin (emptyArrays (n + 1)) = .ok (.array (.var (Name.ofNat n)), trace) ∧
      Event.created trace.events.toList = (List.range (n + 1)).map Name.ofNat := by
  have hyields : InferM.Yields (InferM.stmt .builtin (emptyArrays (n + 1))) ⟨0, .empty⟩
      { ty := .array (.var (Name.ofNat n)) } ⟨n + 1, .empty⟩ := by
    have hrest := InferM.yields_emptyArrays 0 n
    simp only [Nat.zero_add] at hrest
    refine InferM.yields_exprStmt.mpr ⟨_, InferM.yields_block.mpr ?_, rfl⟩
    exact InferM.yields_stmts_cons.mpr ⟨_, _, InferM.yields_emptyArray 0, hrest⟩
  -- The run without its log is known; the log follows, since it lists all variables up to the last.
  have hstepwise := InferM.stepwise_stmt (n := 0) .builtin (emptyArrays (n + 1))
  have hsupplied := (hstepwise.supplies .initial).1
  obtain ⟨ctx, hexec, hstore⟩ := hyields.exec_eq hstepwise (show Context.store {} = _ from rfl)
  rcases InferM.program_cases .builtin (emptyArrays (n + 1)) with
    ⟨r, ctx', hexec', hprogram⟩ | ⟨e, ctx', hexec', hprogram⟩
  all_goals
    rw [hexec] at hexec'
    cases hexec'
  refine ⟨ctx.trace, ?_, ?_⟩
  · rw [hprogram, show ctx.subst = .empty from congrArg Store.subst hstore, Ty.apply_empty]
  · rw [hexec] at hsupplied
    rw [show n + 1 = ctx.nextId from (congrArg Store.nextId hstore).symm]
    exact hsupplied.created

/-- A function of as many arguments as there are variables in its type. -/
def manyVars (n : Nat) : Ty := .fn ((List.range n).map fun i => .var (Name.ofNat i)) .void

theorem le_length_free_manyVars (n : Nat) : n ≤ (manyVars n).free.length := by
  have hnodup : ((List.range n).map Name.ofNat).Nodup := List.Nodup.map Name.ofNat_injective List.nodup_range
  have hle := Name.length_le_of_nodup_of_subset (m := (manyVars n).free) hnodup fun x hx => by
    obtain ⟨i, hi, rfl⟩ := List.mem_map.mp hx
    refine Ty.mem_free.mpr (Ty.mem_occurrences_fn.mpr (.inr ⟨_, List.mem_map_of_mem hi, ?_⟩))
    exact Ty.mem_occurrences_var.mpr rfl
  rwa [List.length_map, List.length_range] at hle

/-- **A variable can be taken for a constant.**  The variable with the number 5765 is named `int`; a program
that creates it has the type of the arrays of this variable, which is printed like that of the arrays of
integers; and the canonical form of a type with more variables than that has this variable. -/
theorem homonym_int :
    (∃ trace, Infer.program .builtin (emptyArrays 5766) = .ok (.array (.var "int"), trace) ∧
      "int" ∈ Event.created trace.events.toList) ∧
    (Ty.array (.var "int")).render = (Ty.array .int).render ∧ Ty.array (.var "int") ≠ .array .int ∧
    ∃ t : Ty, "int" ∈ t.canonical.free := by
  have hint : Name.ofNat 5765 = "int" := Name.ofNat_eq_iff.mpr (by decide)
  obtain ⟨trace, hprogram, hcreated⟩ := program_emptyArrays 5765
  rw [hint] at hprogram
  refine ⟨⟨trace, hprogram, ?_⟩, rfl, by decide, manyVars 5766, ?_⟩
  · rw [hcreated, ← hint]
    exact List.mem_map_of_mem (List.mem_range.mpr (Nat.lt_succ_self _))
  · have hmem : "int" ∈ Name.issued (manyVars 5766).free.length :=
      hint ▸ Name.ofNat_mem_issued.mpr (le_length_free_manyVars 5766)
    rwa [← Ty.vars_canonical] at hmem

/-- **When a variable can be taken for a constant.**  Five variables are named like constants, and no other
one is.  In every session such a variable has been created if and only if more than 5765 variables have been.
The canonical form of a type has such a variable if and only if the type has more than 5765 variables.  In all
types that a run shows, if it creates no more than 5765 variables, every word stands for a variable or for a
constant, and never for both. -/
theorem homonyms :
    (∀ n, Name.ofNat n ∈ Ty.constantNames ↔ n ∈ [5765, 27415, 222851856, 242305, 378771]) ∧
    (∀ ops : List Operation,
      (∃ x ∈ Event.created (Context.after ops).events.toList, x ∈ Ty.constantNames) ↔
        5765 < (Context.after ops).nextId) ∧
    (∀ t : Ty, (∃ x ∈ t.canonical.free, x ∈ Ty.constantNames) ↔ 5765 < t.free.length) ∧
    ∀ s : Stmt, (Event.created (Infer.trace (Infer.program .builtin s)).events.toList).length ≤ 5765 →
      ∀ t ∈ Infer.shown (Infer.program .builtin s), ∀ u ∈ Infer.shown (Infer.program .builtin s),
        t.NamesApart u := by
  refine ⟨fun n => Name.ofNat_mem_constantNames_iff, fun ops => ?_, fun t => ?_, Infer.namesApart_of_created⟩
  · rw [← Name.exists_issued_iff, (Context.supplied_after ops).created]
    refine exists_congr fun x => and_congr_left fun _ => ?_
    simp [Name.issued, eq_comm]
  · rw [← Name.exists_issued_iff, ← Ty.vars_canonical]
    rfl

/-- A program with three variables shows none that could be taken for a constant. -/
theorem homonyms_emptyArrays :
    ∃ trace, Infer.program .builtin (emptyArrays 3) = .ok (.array (.var "c"), trace) ∧
      (Event.created trace.events.toList).length = 3 ∧
      ∀ t ∈ Infer.shown (.ok (.array (.var "c"), trace)), ∀ u ∈ Infer.shown (.ok (.array (.var "c"), trace)),
        t.NamesApart u := by
  have hc : Name.ofNat 2 = "c" := Name.ofNat_eq_iff.mpr (by decide)
  obtain ⟨trace, hprogram, hcreated⟩ := program_emptyArrays 2
  have hlength : (Event.created trace.events.toList).length = 3 := by
    rw [hcreated, List.length_map, List.length_range]
  have hapart := homonyms.2.2.2 (emptyArrays 3)
  rw [hprogram] at hapart
  rw [hc] at hprogram hapart
  exact ⟨trace, hprogram, hlength, hapart (hlength.trans_le (by decide))⟩

end TypeTrace
