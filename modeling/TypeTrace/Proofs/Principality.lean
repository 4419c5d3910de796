import TypeTrace.Proofs.Liveness

/-!
# Principal types

A program that has a type is one for which inference finds a type, and every type of the program is
an instance of it.  As for soundness, an assignment of types to variables relates derivations to
runs, but here it is extended along the way: for every derivation there is a run, and types for the
variables that the run creates, such that the assignment absorbs the bindings and turns the type
found into the derived one.

Unification succeeds since the assignment makes the two types equal, and the unifier is a most
general one, so that the assignment still absorbs the bindings.  A generalised function is covered
since what the environment of the run mentions stands for what the environment of the derivation
mentions (`Scheme.Complete.mentions`): what can be generalised there can be generalised here.

## Main definitions

* `Scheme.Complete`: the instances of a scheme are what another one stands for
* `InferM.Finds`: a run exists, with types for its new variables
* `InferM.ExprComplete`, `InferM.StmtComplete`: the invariant

## Main results

* `Store.Proper.exists_unifies`: unification succeeds on types that can be equal
* `Env.Sane.complete_generalize`: generalisation is complete
* `InferM.program_complete`: the invariant holds, in programs that do not generalise `return`
* `Infer.exists_principal_type`: completeness and principality
-/

namespace TypeTrace

/-- Every instance of the second scheme is a type that the first one stands for, and the second one
mentions what the first one depends on. -/
structure Scheme.Complete (θ : Assignment) (s s' : Scheme) : Prop where
  covers : ∀ u, s'.IsInstance u → s.Instance θ u
  mentions : ∀ y ∈ s.free, ∀ z ∈ (θ y).occurrences, z ∈ s'.free

namespace Scheme.Complete

variable {θ θ' : Assignment} {s s' : Scheme} {D : Set String} {c : Store}

theorem of_mono (t : Ty) : Scheme.Complete θ (mono t) (mono (t.assign θ)) := by
  refine ⟨fun u hu => instance_mono.mpr ?_, fun y hy z hz => mem_free_mono.mpr ?_⟩
  · exact isInstance_mono.mp hu
  · exact Ty.mem_occurrences_assign.mpr ⟨y, mem_free_mono.mp hy, hz⟩

theorem apply (h : Scheme.Complete θ s s') (hs : s.Sane D c) (hθ : θ.Absorbs c.subst.assignment) :
    Scheme.Complete θ (s.apply c.subst) s' := by
  refine ⟨fun u hu => (instance_apply hθ hs.not_captured).mpr (h.covers u hu), fun z hz w hw => ?_⟩
  obtain ⟨-, y, hy, hz⟩ := mem_free_apply.mp hz
  refine h.mentions y hy w ?_
  rw [← hθ y]
  exact Ty.mem_occurrences_assign.mpr ⟨z, hz, hw⟩

theorem congr (h : Scheme.Complete θ s s') (heq : ∀ x ∈ s.free, θ x = θ' x) :
    Scheme.Complete θ' s s' := by
  refine ⟨fun u hu => (h.covers u hu).congr heq, fun y hy z hz => h.mentions y hy z ?_⟩
  rwa [heq y hy]

end Scheme.Complete

section

variable {θ θ' : Assignment} {D : Set String} {c : Store}

theorem Scope.Rel.complete_apply {Δ Δ' : Scope} (h : Scope.Rel (Scheme.Complete θ) Δ Δ')
    (hΔ : Scope.Sane D c Δ) (hθ : θ.Absorbs c.subst.assignment) :
    Scope.Rel (Scheme.Complete θ) (Scope.apply c.subst Δ) Δ' :=
  h.apply fun name s _ hs hr => hr.apply (hΔ name s hs).1 hθ

theorem Env.Rel.complete_apply {env Γ : Env} (h : env.Rel (Scheme.Complete θ) Γ)
    (henv : env.Sane D c) (hθ : θ.Absorbs c.subst.assignment) :
    (env.apply c.subst).Rel (Scheme.Complete θ) Γ :=
  ⟨h.scope.complete_apply henv.scope hθ, h.constructors⟩

/-- What new variables stand for does not matter to older schemes. -/
theorem Scope.Rel.complete_congr {Δ Δ' : Scope} (h : Scope.Rel (Scheme.Complete θ) Δ Δ')
    (hΔ : Scope.Sane D c Δ) (heq : Set.EqOn θ θ' c.issued) :
    Scope.Rel (Scheme.Complete θ') Δ Δ' :=
  h.imp fun name s _ hs hr => hr.congr fun x hx => heq ((hΔ name s hs).1.live x hx).1

theorem Env.Rel.complete_congr {env Γ : Env} (h : env.Rel (Scheme.Complete θ) Γ)
    (henv : env.Sane D c) (heq : Set.EqOn θ θ' c.issued) : env.Rel (Scheme.Complete θ') Γ :=
  ⟨h.scope.complete_congr henv.scope heq, h.constructors⟩

theorem Ty.Within.assign_eq {t : Ty} (h : t.Within (c.live D)) (heq : Set.EqOn θ θ' c.issued) :
    t.assign θ' = t.assign θ :=
  Ty.assign_congr fun x hx => (heq (h x hx).1).symm

/-! ## New variables, unification and generalisation -/

/-- New variables may stand for anything. -/
theorem Store.Proper.exists_extension (hc : c.Proper D) (hθ : θ.Absorbs c.subst.assignment)
    (choice : Nat → Ty) :
    ∃ θ' : Assignment, θ'.Absorbs c.subst.assignment ∧ Set.EqOn θ θ' c.issued ∧
      ∀ i, c.nextId ≤ i → θ' (Name.ofNat i) = choice i := by
  obtain ⟨θ', hold, hnew⟩ := θ.exists_extension c.nextId choice
  refine ⟨θ', fun x => ?_, fun x hx => (hold x hx).symm, hnew⟩
  cases hget : c.subst.get? x with
  | none => rw [Subst.assignment_of_get?_none hget, Ty.assign_var]
  | some t =>
    -- A bound variable is an older one, and so are those of its type.
    obtain ⟨hx, ht⟩ := hc.issued x t hget
    have hθx := hθ x
    rw [Subst.assignment_of_get? hget] at hθx ⊢
    rw [hold x hx, ← hθx]
    exact Ty.assign_congr fun y hy => hold y (ht y hy)

/-- New variables for quantified ones may stand for any types. -/
theorem Store.Proper.exists_instance (hc : c.Proper D) (hθ : θ.Absorbs c.subst.assignment)
    (vars : List String) (ρ : Assignment) :
    ∃ θ' : Assignment, θ'.Absorbs c.subst.assignment ∧ Set.EqOn θ θ' c.issued ∧
      ∀ x ∈ vars, ((Subst.fresh c.nextId vars).assignment x).assign θ' = ρ x := by
  obtain ⟨θ', hθ', heq, hnew⟩ :=
    hc.exists_extension hθ fun i => ρ (vars[i - c.nextId]?.getD "")
  refine ⟨θ', hθ', heq, fun x hx => ?_⟩
  rcases Subst.get?_fresh c.nextId vars x with ⟨hmem, -⟩ | ⟨i, hi, hvars, hget⟩
  · exact absurd hx hmem
  · rw [Subst.assignment_of_get? hget, Ty.assign_var, hnew i hi, hvars, Option.getD_some]

/-- **Unification succeeds on types that can be equal**, and asks for no more than that. -/
theorem Store.Proper.exists_unifies (hc : c.Proper D) (hθ : θ.Absorbs c.subst.assignment)
    {one two : Ty} (heq : one.assign θ = two.assign θ) :
    ∃ c', c.Unifies one two c' ∧ θ.Absorbs c'.subst.assignment := by
  have hsolves : (one.apply c.subst).assign θ = (two.apply c.subst).assign θ := by
    rw [hθ.apply, hθ.apply, heq]
  -- The assignment is a unifier, so there is a most general one, and the assignment absorbs it.
  obtain ⟨d, hd⟩ := Ty.exists_unify_ok hsolves
  have hmg := Ty.unify_ok hd
  obtain ⟨s, hs, -⟩ := hmg.compose hc.resolved
  refine ⟨⟨c.nextId, s⟩, ⟨rfl, d, hd, hs⟩, ?_⟩
  have hcomp : Subst.assignment s = fun x => (c.subst.assignment x).assign d.assignment :=
    funext (Subst.assignment_compose hs)
  rw [hcomp]
  exact hθ.comp (hmg.general θ hsolves)

/-- **Generalisation is complete**: a derivation can generalise no variable that inference does not
generalise. -/
theorem Env.Sane.complete_generalize {env Γ : Env} (henv : env.Sane D c)
    (hθ : θ.Absorbs c.subst.assignment) (hrel : env.Rel (Scheme.Complete θ) Γ) (t : Ty) :
    Scheme.Complete θ ((env.apply c.subst).generalize (t.apply c.subst))
      (Γ.generalize (t.assign θ)) := by
  -- What the environment of inference mentions stands for what the other environment mentions.
  have hfree : ∀ y ∈ (env.apply c.subst).free, ∀ w ∈ (θ y).occurrences, w ∈ Γ.free := by
    intro y hy w hw
    obtain ⟨name, s, hs, hy⟩ := mem_free.mp hy
    obtain ⟨s', hs', hcomplete⟩ := (hrel.complete_apply henv hθ).lookup hs
    exact mem_free.mpr ⟨name, s', hs', hcomplete.mentions y hy w hw⟩
  refine ⟨fun u hu => ?_, fun y hy w hw => ?_⟩
  -- An instance in the derivation puts types in for variables of the types that variables of the
  -- run stand for; the run can have generalised variables stand for the outcome.
  · obtain ⟨ρ, rfl⟩ := Scheme.isInstance_iff.mp hu
    refine ⟨fun z => (θ z).assign fun w =>
      if w ∈ (Γ.generalize (t.assign θ)).vars then ρ w else .var w, ?_⟩
    change (t.assign θ).assign _ = (t.apply c.subst).assign _
    rw [← hθ.apply, Ty.assign_assign]
    refine Ty.assign_congr fun z hz => ?_
    by_cases hv : z ∈ ((env.apply c.subst).generalize (t.apply c.subst)).vars
    · rw [if_pos hv, hθ.apply]
    · rw [if_neg hv]
      -- A variable that is not generalised comes from the environment, with what it stands for.
      refine Ty.assign_eq_self fun w hw => if_neg fun hg => (mem_vars_generalize.mp hg).2 ?_
      refine hfree z ?_ w hw
      by_contra hz'
      exact hv (mem_vars_generalize.mpr ⟨hz, hz'⟩)
  · obtain ⟨hocc, hmem⟩ := mem_free_generalize.mp hy
    refine mem_free_generalize.mpr ⟨?_, hfree y hmem w hw⟩
    rw [← hθ.apply]
    exact Ty.mem_occurrences_assign.mpr ⟨y, hocc, hw⟩

end

namespace InferM

variable {α : Type} {D : Set String} {c : Store} {env Γ : Env} {θ : Assignment}

/-- The computation succeeds, and types can be found for the new variables such that the bindings
are absorbed and the result is as required. -/
def Finds (m : InferM α) (c : Store) (θ : Assignment) (Q : α → Assignment → Prop) : Prop :=
  ∃ (a : α) (c' : Store) (θ' : Assignment), Yields m c a c' ∧
    θ'.Absorbs c'.subst.assignment ∧ Set.EqOn θ θ' c.issued ∧ Q a θ'

theorem Finds.intro {m : InferM α} {Q : α → Assignment → Prop} {a : α} {c' : Store}
    {θ' : Assignment} (hy : Yields m c a c') (hθ' : θ'.Absorbs c'.subst.assignment)
    (heq : Set.EqOn θ θ' c.issued) (hQ : Q a θ') : Finds m c θ Q :=
  ⟨a, c', θ', hy, hθ', heq, hQ⟩

/-! ## Patterns -/

mutual

theorem pattern_complete (p : Pat) {c : Store} {θ : Assignment} {t : Ty} {Δ : Scope}
    (henv : env.Sane D c) (hc : c.Proper D) (hθ : θ.Absorbs c.subst.assignment)
    (hcon : env.constructors = Γ.constructors) (h : p.HasType Γ t Δ) :
    Finds (pattern env p) c θ fun r θ' =>
      r.1.assign θ' = t ∧ Scope.Rel (Scheme.Complete θ') r.2 Δ := by
  cases h with
  | any t src =>
    obtain ⟨θ', hθ', heq, hnew⟩ := hc.exists_extension hθ fun _ => t
    exact .intro (yields_any.mpr ⟨rfl, rfl⟩) hθ' heq ⟨hnew _ (Nat.le_refl _), .empty⟩
  | var name t src =>
    obtain ⟨θ', hθ', heq, hnew⟩ := hc.exists_extension hθ fun _ => t
    have ht : (Ty.var c.next).assign θ' = t := hnew _ (Nat.le_refl _)
    refine .intro (yields_patVar.mpr ⟨rfl, rfl⟩) hθ' heq ⟨ht, ?_⟩
    rw [← ht]
    exact .singleton name (.of_mono _)
  | prim value src =>
    exact .intro (yields_patPrim.mpr ⟨rfl, rfl⟩) hθ (Set.eqOn_refl ..) ⟨value.assign_ty θ, .empty⟩
  | str value src =>
    exact .intro (yields_patStr.mpr ⟨rfl, rfl⟩) hθ (Set.eqOn_refl ..) ⟨Ty.assign_con .., .empty⟩
  | @con name con args Δ src ρ hget hρ hargs =>
    rw [← hcon] at hget
    have hclosed := henv.constructors name con hget
    have hskip := hc.skip con.free.length
    -- The new variables are assigned what the derivation puts for those of the constructor.
    obtain ⟨θ₁, hθ₁, heq₁, hnew⟩ := hc.exists_instance hθ con.free ρ.assignment
    have hinst : ∀ t ∈ con.result :: con.args,
        (t.apply (.fresh c.nextId con.free)).assign θ₁ = t.apply ρ := by
      intro t ht
      rw [Ty.apply_eq_assign, Ty.assign_assign, Ty.apply_eq_assign]
      exact Ty.assign_congr fun x hx => hnew x (hclosed t ht x hx)
    have hmap : (con.args.map (Ty.apply (.fresh c.nextId con.free))).map (Ty.assign θ₁) =
        con.args.map (Ty.apply ρ) := by
      rw [List.map_map]
      exact List.map_congr_left fun t ht => hinst t (List.mem_cons_of_mem _ ht)
    rw [← hmap] at hargs
    obtain ⟨hresult, hdeclared⟩ := hclosed.within_fresh hc
    obtain ⟨scope, c', θ', hy, hθ', heq, hrel⟩ := fields_complete args (henv.evolve hskip)
      hskip.proper hdeclared .empty hθ₁ hcon .empty hargs
    rw [Scope.empty_union] at hrel
    refine .intro (yields_patCon.mpr ⟨con, scope, hget, ?_, hy, rfl⟩) hθ'
      (heq₁.trans (heq.mono hskip.issued_subset)) ⟨?_, hrel⟩
    · simpa using hargs.length_eq.symm
    · rw [hθ'.apply, hresult.assign_eq heq, hinst _ List.mem_cons_self]

theorem fields_complete (ps : List Pat) {c : Store} {θ : Assignment} {declared : List Ty}
    {scope Θ Δ : Scope} (henv : env.Sane D c) (hc : c.Proper D)
    (hdeclared : ∀ t ∈ declared, t.Within (c.live D)) (hscope : Scope.Sane D c scope)
    (hθ : θ.Absorbs c.subst.assignment) (hcon : env.constructors = Γ.constructors)
    (hrel : Scope.Rel (Scheme.Complete θ) scope Θ)
    (h : Pat.HaveTypes Γ ps (declared.map (Ty.assign θ)) Δ) :
    Finds (fields env declared scope ps) c θ fun scope' θ' =>
      Scope.Rel (Scheme.Complete θ') scope' (Θ.union Δ) := by
  cases ps with
  | nil =>
    obtain ⟨-, rfl⟩ := h.nil_inv
    exact .intro (yields_fields_nil.mpr ⟨rfl, rfl⟩) hθ (Set.eqOn_refl ..) hrel
  | cons p ps =>
    obtain ⟨t, ts, Δ₁, Δ₂, hts, rfl, hp, hps⟩ := h.cons_inv
    cases declared with
    | nil => cases hts
    | cons d ds =>
      obtain ⟨rfl, rfl⟩ := List.cons.inj hts
      obtain ⟨hd, hds⟩ := List.forall_mem_cons.mp hdeclared
      obtain ⟨⟨ty, extra⟩, c₁, θ₁, h₁, hθ₁, heq₁, hty, hextraRel⟩ :=
        pattern_complete p henv hc hθ hcon hp
      obtain ⟨hE₁, htyLive, hextra⟩ := pattern_evolves p henv hc h₁
      have hd₁ := hd.mono hE₁.live_subset
      -- The assignment makes the two types equal, so they unify, and it absorbs the new bindings
      -- too.
      obtain ⟨c₂, h₂, hθ₂⟩ := hE₁.proper.exists_unifies hθ₁ (hty.trans (hd.assign_eq heq₁).symm)
      have hE₂ := h₂.evolves hE₁.proper htyLive hd₁
      have hE := hE₁.trans hE₂
      have hmap : ds.map (Ty.assign θ) = ds.map (Ty.assign θ₁) :=
        List.map_congr_left fun t ht => ((hds t ht).assign_eq heq₁).symm
      rw [hmap] at hps
      obtain ⟨scope', c', θ', h₃, hθ', heq', hrel'⟩ := fields_complete ps (henv.evolve hE) hE.proper
        (fun t ht => (hds t ht).mono hE.live_subset)
        ((hscope.evolve hE).union (hextra.evolve hE₂)) hθ₂ hcon
        ((hrel.complete_congr hscope heq₁).union hextraRel) hps
      rw [Scope.union_assoc] at hrel'
      exact .intro (yields_fields_cons.mpr ⟨ty, extra, c₁, c₂, h₁, h₂, h₃⟩) hθ'
        (heq₁.trans (heq'.mono hE.issued_subset)) hrel'

end

theorem params_complete {ps : List Pat} {scope Θ Δ : Scope} {ts : List Ty} (henv : env.Sane D c)
    (hc : c.Proper D) (hscope : Scope.Sane D c scope) (hθ : θ.Absorbs c.subst.assignment)
    (hcon : env.constructors = Γ.constructors) (hrel : Scope.Rel (Scheme.Complete θ) scope Θ)
    (h : Pat.HaveTypes Γ ps ts Δ) :
    Finds (params env scope ps) c θ fun r θ' =>
      r.1.map (Ty.assign θ') = ts ∧ Scope.Rel (Scheme.Complete θ') r.2 (Θ.union Δ) := by
  induction ps generalizing c θ scope Θ Δ ts with
  | nil =>
    obtain ⟨rfl, rfl⟩ := h.nil_inv
    exact .intro (yields_params_nil.mpr ⟨rfl, rfl⟩) hθ (Set.eqOn_refl ..) ⟨rfl, hrel⟩
  | cons p ps ih =>
    obtain ⟨t, ts, Δ₁, Δ₂, rfl, rfl, hp, hps⟩ := h.cons_inv
    obtain ⟨⟨ty, extra⟩, c₁, θ₁, h₁, hθ₁, heq₁, hty, hextraRel⟩ :=
      pattern_complete p henv hc hθ hcon hp
    obtain ⟨hE₁, htyLive, hextra⟩ := pattern_evolves p henv hc h₁
    obtain ⟨⟨tys, scope'⟩, c', θ', h₂, hθ', heq', htys, hrel'⟩ := ih (henv.evolve hE₁) hE₁.proper
      ((hscope.evolve hE₁).union (hextra.apply hE₁.proper)) hθ₁
      ((hrel.complete_congr hscope heq₁).union (hextraRel.complete_apply hextra hθ₁)) hps
    rw [Scope.union_assoc] at hrel'
    refine .intro (yields_params_cons.mpr ⟨ty, extra, c₁, tys, scope', h₁, h₂, rfl⟩) hθ'
      (heq₁.trans (heq'.mono hE₁.issued_subset)) ⟨?_, hrel'⟩
    rw [List.map_cons, htys, htyLive.assign_eq heq', hty]

/-! ## Expressions and statements -/

/-- Inference of the expression succeeds if it has a type, and finds one that covers it: for every
assignment that absorbs the bindings so far, and every derivation in an environment that allows no
more, new variables can stand for types such that the type found is the derived one. -/
structure ExprComplete (e : Expr) : Prop where
  evolves : ExprEvolves e
  finds : ∀ {D : Set String} {c : Store} {env Γ : Env} {t : Ty} {θ : Assignment},
    env.Sane D c → c.Proper D → θ.Absorbs c.subst.assignment → env.Rel (Scheme.Complete θ) Γ →
    e.HasType Γ t → Finds (expr env e) c θ fun t' θ' => t'.assign θ' = t

/-- The same for statements, where no derivation binds more. -/
structure StmtComplete (s : Stmt) : Prop where
  evolves : StmtEvolves s
  finds : ∀ {D : Set String} {c : Store} {env Γ : Env} {t : Ty} {Δ : Scope} {θ : Assignment},
    env.Sane D c → c.Proper D → θ.Absorbs c.subst.assignment → env.Rel (Scheme.Complete θ) Γ →
    s.HasType Γ t Δ → Finds (stmt env s) c θ fun r θ' =>
      r.ty.assign θ' = t ∧ Scope.Rel (Scheme.Complete θ') (r.scope.getD .empty) Δ

theorem prim_complete {value : Prim} {src : Region} : ExprComplete (.prim value src) := by
  refine ⟨prim_evolves, fun {D c env Γ t θ} henv hc hθ hrel h => ?_⟩
  cases h
  exact .intro (yields_prim.mpr ⟨rfl, rfl⟩) hθ (Set.eqOn_refl ..) (value.assign_ty θ)

theorem var_complete {name : String} {src : Region} : ExprComplete (.var name src) := by
  refine ⟨var_evolves, fun {D c env Γ t θ} henv hc hθ hrel h => ?_⟩
  cases h with
  | @var _ _ s' _ _ hs' hinst =>
    obtain ⟨s, hs, hcomplete⟩ := hrel.lookup_right hs'
    obtain ⟨ρ, rfl⟩ := hcomplete.covers t hinst
    -- The new variables stand for what the derivation puts in for the quantified ones.
    obtain ⟨θ', hθ', heq, hnew⟩ := hc.exists_instance hθ s.vars ρ
    refine .intro (yields_var.mpr ⟨s, hs, rfl, rfl⟩) hθ' heq ?_
    rw [Ty.apply_eq_assign, Ty.assign_assign]
    refine Ty.assign_congr fun x hx => ?_
    by_cases hv : x ∈ s.vars
    · rw [if_pos hv, hnew x hv]
    · rw [if_neg hv, Subst.assignment_fresh_of_notMem hv, Ty.assign_var]
      exact (heq ((henv.scope name s hs).1.live x (Scheme.mem_free.mpr ⟨hx, hv⟩)).1).symm

theorem embedded_complete {es : List Expr} {ts : List Ty} (hes : ∀ e ∈ es, ExprComplete e)
    (henv : env.Sane D c) (hc : c.Proper D) (hθ : θ.Absorbs c.subst.assignment)
    (hrel : env.Rel (Scheme.Complete θ) Γ) (h : Expr.HaveTypes Γ es ts) :
    Finds (embedded env es) c θ fun _ _ => True := by
  induction es generalizing c θ ts with
  | nil => exact .intro (yields_embedded_nil.mpr rfl) hθ (Set.eqOn_refl ..) trivial
  | cons e es ih =>
    obtain ⟨he, hes⟩ := List.forall_mem_cons.mp hes
    cases h with
    | cons heType hesTypes =>
      obtain ⟨t', c₁, θ₁, h₁, hθ₁, heq₁, -⟩ :=
        he.finds (henv.apply hc) hc hθ (hrel.complete_apply henv hθ) heType
      obtain ⟨hE₁, -⟩ := he.evolves (henv.apply hc) hc h₁
      obtain ⟨_, c', θ', h₂, hθ', heq', -⟩ := ih hes (henv.evolve hE₁) hE₁.proper hθ₁
        (hrel.complete_congr henv heq₁) hesTypes
      exact .intro (yields_embedded_cons.mpr ⟨t', c₁, h₁, h₂⟩) hθ'
        (heq₁.trans (heq'.mono hE₁.issued_subset)) trivial

theorem exprs_complete {es : List Expr} {ts : List Ty} (hes : ∀ e ∈ es, ExprComplete e)
    (henv : env.Sane D c) (hc : c.Proper D) (hθ : θ.Absorbs c.subst.assignment)
    (hrel : env.Rel (Scheme.Complete θ) Γ) (h : Expr.HaveTypes Γ es ts) :
    Finds (exprs env es) c θ fun ts' θ' => ts'.map (Ty.assign θ') = ts := by
  induction es generalizing c θ ts with
  | nil =>
    cases h
    exact .intro (yields_exprs_nil.mpr ⟨rfl, rfl⟩) hθ (Set.eqOn_refl ..) rfl
  | cons e es ih =>
    obtain ⟨he, hes⟩ := List.forall_mem_cons.mp hes
    cases h with
    | cons heType hesTypes =>
      obtain ⟨t', c₁, θ₁, h₁, hθ₁, heq₁, ht'⟩ :=
        he.finds (henv.apply hc) hc hθ (hrel.complete_apply henv hθ) heType
      obtain ⟨hE₁, hlive⟩ := he.evolves (henv.apply hc) hc h₁
      obtain ⟨ts', c', θ', h₂, hθ', heq', hts'⟩ := ih hes (henv.evolve hE₁) hE₁.proper hθ₁
        (hrel.complete_congr henv heq₁) hesTypes
      refine .intro (yields_exprs_cons.mpr ⟨t', c₁, ts', h₁, h₂, rfl⟩) hθ'
        (heq₁.trans (heq'.mono hE₁.issued_subset)) ?_
      rw [List.map_cons, hts', hlive.assign_eq heq', ht']

theorem str_complete {value : String} {embeds : List Expr} {src : Region}
    (hembeds : ∀ e ∈ embeds, ExprComplete e) : ExprComplete (.str value embeds src) := by
  refine ⟨str_evolves fun e he => (hembeds e he).evolves, fun henv hc hθ hrel h => ?_⟩
  cases h with
  | str _ _ hts =>
    obtain ⟨_, c', θ', h₁, hθ', heq, -⟩ := embedded_complete hembeds henv hc hθ hrel hts
    exact .intro (yields_str.mpr ⟨rfl, h₁⟩) hθ' heq (Ty.assign_con ..)

theorem lambda_complete {args : List Pat} {body : Expr} {src : Region} (hbody : ExprComplete body) :
    ExprComplete (.lambda args body src) := by
  refine ⟨lambda_evolves hbody.evolves, fun {D c env Γ t θ} henv hc hθ hrel h => ?_⟩
  cases h with
  | @lambda _ _ ts Δ _ r _ hne hargs hbodyType =>
    have hskip := hc.skip 1
    have hret := Ty.Within.var hc.next_mem_live
    obtain ⟨θ₀, hθ₀, heq₀, hnew⟩ := hc.exists_extension hθ fun _ => r
    have hr : (Ty.var c.next).assign θ₀ = r := hnew _ (Nat.le_refl _)
    obtain ⟨⟨tys, scope⟩, c₁, θ₁, h₁, hθ₁, heq₁, htys, hscopeRel⟩ := params_complete
      (henv.evolve hskip) hskip.proper (.of_var "return" hret) hθ₀ hrel.constructors
      (.singleton "return" (.of_mono _)) hargs
    obtain ⟨hE₁, htysLive, hscope⟩ :=
      params_evolves (henv.evolve hskip) hskip.proper (.of_var "return" hret) h₁
    have henv₁ := (henv.evolve (hskip.trans hE₁)).extend hscope
    rw [hr] at hscopeRel
    rw [Env.extend_extend] at hbodyType
    have heq₀₁ := heq₀.trans (heq₁.mono hskip.issued_subset)
    obtain ⟨bodyTy, c₂, θ₂, h₂, hθ₂, heq₂, hbodyTy⟩ := hbody.finds henv₁ hE₁.proper hθ₁
      ((hrel.complete_congr henv heq₀₁).extend hscopeRel) hbodyType
    obtain ⟨hE₂, hbodyLive⟩ := hbody.evolves henv₁ hE₁.proper h₂
    -- The type found for the result is the one that `return` was given at the start.
    have hr₂ : (Ty.var c.next).assign θ₂ = r := by
      rw [(hret.mono hE₁.live_subset).assign_eq heq₂, hret.assign_eq heq₁, hr]
    obtain ⟨c', h₃, hθ'⟩ := hE₂.proper.exists_unifies hθ₂
      (hbodyTy.trans ((hθ₂.apply _).trans hr₂).symm)
    refine .intro (yields_lambda.mpr ⟨hne, tys, scope, c₁, bodyTy, c₂, h₁, h₂, h₃, rfl⟩) hθ'
      (heq₀₁.trans (heq₂.mono (hskip.trans hE₁).issued_subset)) ?_
    rw [Ty.assign_fn, hθ'.apply, hbodyTy, List.map_map, ← htys]
    refine congrArg (Ty.fn · r) (List.map_congr_left fun t ht => ?_)
    exact (hθ'.apply t).trans ((htysLive t ht).assign_eq heq₂)

theorem call_complete {target : Expr} {args : List Expr} {src : Region}
    (htarget : ExprComplete target) (hargs : ∀ e ∈ args, ExprComplete e) :
    ExprComplete (.call target args src) := by
  have hargs' : ∀ e ∈ args, ExprEvolves e := fun e he => (hargs e he).evolves
  refine ⟨call_evolves htarget.evolves hargs', fun {D c env Γ t θ} henv hc hθ hrel h => ?_⟩
  cases h with
  | @call _ _ _ ts _ _ hne htargetType hargsTypes =>
    have hskip := hc.skip 1
    have hnew := Ty.Within.var hc.next_mem_live
    -- The variable for the result is assigned the type of the call, before anything is inferred.
    obtain ⟨θ₀, hθ₀, heq₀, hval⟩ := hc.exists_extension hθ fun _ => t
    have ht : (Ty.var c.next).assign θ₀ = t := hval _ (Nat.le_refl _)
    obtain ⟨targetTy, c₁, θ₁, h₁, hθ₁, heq₁, htargetTy⟩ := htarget.finds (henv.evolve hskip)
      hskip.proper hθ₀ (hrel.complete_congr henv heq₀) htargetType
    obtain ⟨hE₁, htargetLive⟩ := htarget.evolves (henv.evolve hskip) hskip.proper h₁
    have henv₁ := henv.evolve (hskip.trans hE₁)
    have heq₀₁ := heq₀.trans (heq₁.mono hskip.issued_subset)
    obtain ⟨argTys, c₂, θ₂, h₂, hθ₂, heq₂, hargTys⟩ := exprs_complete hargs henv₁ hE₁.proper hθ₁
      (hrel.complete_congr henv heq₀₁) hargsTypes
    obtain ⟨hE₂, -⟩ := exprs_evolves hargs' henv₁ hE₁.proper h₂
    have ht₂ : (Ty.var c.next).assign θ₂ = t := by
      rw [(hnew.mono hE₁.live_subset).assign_eq heq₂, hnew.assign_eq heq₁, ht]
    -- Under the assignment the target is the function from the arguments to that type.
    have hunify : (targetTy.apply c₂.subst).assign θ₂ =
        (Ty.fn argTys (.var c.next)).assign θ₂ := by
      rw [hθ₂.apply, htargetLive.assign_eq heq₂, htargetTy, Ty.assign_fn, hargTys, ht₂]
    obtain ⟨c', h₃, hθ'⟩ := hE₂.proper.exists_unifies hθ₂ hunify
    refine .intro (yields_call.mpr ⟨hne, targetTy, c₁, argTys, c₂, h₁, h₂, h₃, rfl⟩) hθ'
      (heq₀₁.trans (heq₂.mono (hskip.trans hE₁).issued_subset)) ?_
    rw [hθ'.apply, ht₂]

theorem otherwise_complete {no : Option Expr} {t : Ty} (hno : ∀ e ∈ no, ExprComplete e)
    (henv : env.Sane D c) (hc : c.Proper D) (hθ : θ.Absorbs c.subst.assignment)
    (hrel : env.Rel (Scheme.Complete θ) Γ)
    (h : (no = none ∧ t = .void) ∨ ∃ e, no = some e ∧ e.HasType Γ t) :
    Finds (otherwise env no) c θ fun t' θ' => t'.assign θ' = t := by
  rcases h with ⟨rfl, rfl⟩ | ⟨e, rfl, he⟩
  · exact .intro (yields_otherwise_none.mpr ⟨rfl, rfl⟩) hθ (Set.eqOn_refl ..) (Ty.assign_con ..)
  · obtain ⟨t', c', θ', h₁, hθ', heq, ht'⟩ :=
      (hno e rfl).finds (henv.apply hc) hc hθ (hrel.complete_apply henv hθ) he
    exact .intro (yields_otherwise_some.mpr h₁) hθ' heq ht'

theorem ifElse_complete {cond yes : Expr} {no : Option Expr} {src : Region}
    (hcond : ExprComplete cond) (hyes : ExprComplete yes) (hno : ∀ e ∈ no, ExprComplete e) :
    ExprComplete (.ifElse cond yes no src) := by
  have hno' : ∀ e ∈ no, ExprEvolves e := fun e he => (hno e he).evolves
  refine ⟨ifElse_evolves hcond.evolves hyes.evolves hno',
    fun {D c env Γ t θ} henv hc hθ hrel h => ?_⟩
  obtain ⟨hcondType, hyesType, hnoType⟩ := h.ifElse_inv
  obtain ⟨condTy, c₁, θ₁, h₁, hθ₁, heq₁, hcondTy⟩ := hcond.finds henv hc hθ hrel hcondType
  obtain ⟨hE₁, hcondLive⟩ := hcond.evolves henv hc h₁
  obtain ⟨c₂, h₂, hθ₂⟩ := hE₁.proper.exists_unifies hθ₁ (hcondTy.trans (Ty.assign_con ..).symm)
  have hE₂ := hE₁.trans (h₂.evolves hE₁.proper hcondLive (.con _))
  have henv₂ := henv.evolve hE₂
  have hrel₁ := hrel.complete_congr henv heq₁
  obtain ⟨yesTy, c₃, θ₃, h₃, hθ₃, heq₃, hyesTy⟩ := hyes.finds (henv₂.apply hE₂.proper) hE₂.proper
    hθ₂ (hrel₁.complete_apply henv₂ hθ₂) hyesType
  obtain ⟨hE₃, hyesLive⟩ := hyes.evolves (henv₂.apply hE₂.proper) hE₂.proper h₃
  have heq₁₃ := heq₁.trans (heq₃.mono hE₂.issued_subset)
  have hE₂₃ := hE₂.trans hE₃
  obtain ⟨noTy, c₄, θ₄, h₄, hθ₄, heq₄, hnoTy⟩ := otherwise_complete hno (henv.evolve hE₂₃)
    hE₃.proper hθ₃ (hrel.complete_congr henv heq₁₃) hnoType
  obtain ⟨hE₄, -⟩ := otherwise_evolves hno' (henv.evolve hE₂₃) hE₃.proper h₄
  -- What the second branch adds to the assignment does not change the type of the first.
  have hyesTy₄ : yesTy.assign θ₄ = t := (hyesLive.assign_eq heq₄).trans hyesTy
  obtain ⟨c', h₅, hθ'⟩ := hE₄.proper.exists_unifies hθ₄ (hyesTy₄.trans hnoTy.symm)
  refine .intro (yields_ifElse.mpr
    ⟨condTy, c₁, c₂, yesTy, c₃, noTy, c₄, h₁, h₂, h₃, h₄, h₅, rfl⟩) hθ'
    (heq₁₃.trans (heq₄.mono hE₂₃.issued_subset)) ?_
  rw [hθ'.apply, hyesTy₄]

theorem cases_complete {targetTy result : Ty} {cs : List Case} {u t : Ty}
    (hcs : ∀ p e, Case.mk p e ∈ cs → ExprComplete e) (henv : env.Sane D c) (hc : c.Proper D)
    (htarget : targetTy.Within (c.live D)) (hresult : result.Within (c.live D))
    (hθ : θ.Absorbs c.subst.assignment) (hrel : env.Rel (Scheme.Complete θ) Γ)
    (hu : targetTy.assign θ = u) (ht : result.assign θ = t) (h : Case.HaveTypes Γ u t cs) :
    Finds (cases env targetTy result cs) c θ fun _ θ' => result.assign θ' = t := by
  -- After each case the result still stands for the common type of the bodies.
  induction cs generalizing c θ with
  | nil => exact .intro (yields_cases_nil.mpr rfl) hθ (Set.eqOn_refl ..) ht
  | cons first cs ih =>
    cases h with
    | @cons _ p e _ _ _ Δ hpType heType hcsTypes =>
      have he := hcs p e List.mem_cons_self
      obtain ⟨⟨patTy, scope⟩, c₁, θ₁, h₁, hθ₁, heq₁, hpatTy, hscopeRel⟩ :=
        pattern_complete p henv hc hθ hrel.constructors hpType
      obtain ⟨hE₁, hpat, hscope⟩ := pattern_evolves p henv hc h₁
      obtain ⟨c₂, h₂, hθ₂⟩ := hE₁.proper.exists_unifies hθ₁
        (hpatTy.trans (hu.symm.trans (htarget.assign_eq heq₁).symm))
      have hE₂ := h₂.evolves hE₁.proper hpat (htarget.mono hE₁.live_subset)
      have hE₁₂ := hE₁.trans hE₂
      have henv₂ := henv.evolve hE₁₂
      have hscope₂ := hscope.evolve hE₂
      have hinner := (henv₂.apply hE₂.proper).extend (hscope₂.apply hE₂.proper)
      have hrel₁ := hrel.complete_congr henv heq₁
      obtain ⟨bodyTy, c₃, θ₃, h₃, hθ₃, heq₃, hbodyTy⟩ := he.finds hinner hE₂.proper hθ₂
        ((hrel₁.complete_apply henv₂ hθ₂).extend (hscopeRel.complete_apply hscope₂ hθ₂)) heType
      obtain ⟨hE₃, hbody⟩ := he.evolves hinner hE₂.proper h₃
      have hE₁₃ := hE₁₂.trans hE₃
      have heq₁₃ := heq₁.trans (heq₃.mono hE₁₂.issued_subset)
      have ht₃ : result.assign θ₃ = t := (hresult.assign_eq heq₁₃).trans ht
      obtain ⟨c₄, h₄, hθ₄⟩ := hE₃.proper.exists_unifies hθ₃
        ((hθ₃.apply result).trans (ht₃.trans hbodyTy.symm))
      have hE₄ := h₄.evolves hE₃.proper
        (hE₃.proper.within_apply (hresult.mono hE₁₃.live_subset)) hbody
      have hE := hE₁₃.trans hE₄
      obtain ⟨_, c', θ', h₅, hθ', heq', ht'⟩ := ih
        (fun p e he => hcs p e (List.mem_cons_of_mem _ he)) (henv.evolve hE) hE.proper
        (htarget.mono hE.live_subset) (hresult.mono hE.live_subset) hθ₄
        (hrel.complete_congr henv heq₁₃) ((htarget.assign_eq heq₁₃).trans hu) ht₃ hcsTypes
      exact .intro (yields_cases_cons.mpr
        ⟨patTy, scope, c₁, c₂, bodyTy, c₃, c₄, h₁, h₂, h₃, h₄, h₅⟩) hθ'
        (heq₁₃.trans (heq'.mono hE.issued_subset)) ht'

theorem switch_complete {target : Expr} {cs : List Case} {src : Region}
    (htarget : ExprComplete target) (hcs : ∀ p e, Case.mk p e ∈ cs → ExprComplete e) :
    ExprComplete (.switch target cs src) := by
  have hcs' : ∀ p e, Case.mk p e ∈ cs → ExprEvolves e := fun p e he => (hcs p e he).evolves
  refine ⟨switch_evolves htarget.evolves hcs', fun {D c env Γ t θ} henv hc hθ hrel h => ?_⟩
  cases h with
  | switch _ htargetType hcsTypes =>
    obtain ⟨targetTy, c₁, θ₁, h₁, hθ₁, heq₁, htargetTy⟩ :=
      htarget.finds henv hc hθ hrel htargetType
    obtain ⟨hE₁, htargetLive⟩ := htarget.evolves henv hc h₁
    have hskip := hE₁.proper.skip 1
    have hE := hE₁.trans hskip
    -- The variable for the result stands for the type of the bodies before any body is inferred.
    obtain ⟨θ₂, hθ₂, heq₂, hval⟩ := hE₁.proper.exists_extension hθ₁ fun _ => t
    have ht : (Ty.var c₁.next).assign θ₂ = t := hval _ (Nat.le_refl _)
    have heq₁₂ := heq₁.trans (heq₂.mono hE₁.issued_subset)
    obtain ⟨_, c', θ', h₂, hθ', heq', ht'⟩ := cases_complete hcs (henv.evolve hE) hskip.proper
      (htargetLive.mono hskip.live_subset) (.var hE₁.proper.next_mem_live) hθ₂
      (hrel.complete_congr henv heq₁₂) ((htargetLive.assign_eq heq₂).trans htargetTy) ht hcsTypes
    refine .intro (yields_switch.mpr ⟨targetTy, c₁, h₁, h₂, rfl⟩) hθ'
      (heq₁₂.trans (heq'.mono hE.issued_subset)) ?_
    rw [hθ'.apply, ht']

theorem stmts_complete {scope : Scope} {last t u : Ty} {ss : List Stmt}
    (hss : ∀ s ∈ ss, StmtComplete s) (henv : (env.extend scope).Sane D c) (hc : c.Proper D)
    (hθ : θ.Absorbs c.subst.assignment) (hrel : (env.extend scope).Rel (Scheme.Complete θ) Γ)
    (hu : last.assign θ = u) (h : Stmt.BlockHasType Γ u ss t) :
    Finds (stmts env scope last ss) c θ fun t' θ' => t'.assign θ' = t := by
  -- More variables are dead after each statement, and the environments grow on both sides.
  induction ss generalizing D c θ scope last u Γ with
  | nil =>
    cases h
    exact .intro (yields_stmts_nil.mpr ⟨rfl, rfl⟩) hθ (Set.eqOn_refl ..) ((hθ.apply last).trans hu)
  | cons s ss ih =>
    obtain ⟨hs, hss⟩ := List.forall_mem_cons.mp hss
    cases h with
    | cons hsType hssType =>
      obtain ⟨r, c₁, θ₁, h₁, hθ₁, heq₁, hty, hΔ⟩ :=
        hs.finds (henv.apply hc) hc hθ (hrel.complete_apply henv hθ) hsType
      obtain ⟨hE₁, D', hD, hc₁, -, hsane, -⟩ := hs.evolves (henv.apply hc) hc h₁
      have henv₁ := henv.of_apply hc hE₁ hD hsane
      have hrel₁ := (hrel.complete_congr henv heq₁).extend hΔ
      rw [Env.extend_extend] at henv₁ hrel₁
      rw [Env.apply_extend] at h₁
      obtain ⟨t', c', θ', h₂, hθ', heq', ht'⟩ := ih hss henv₁ hc₁ hθ₁ hrel₁ hty hssType
      exact .intro (yields_stmts_cons.mpr ⟨r, c₁, h₁, h₂⟩) hθ'
        (heq₁.trans (heq'.mono hE₁.issued_subset)) ht'

theorem block_complete {ss : List Stmt} {src : Region} (hss : ∀ s ∈ ss, StmtComplete s) :
    ExprComplete (.block ss src) := by
  refine ⟨block_evolves fun s hs => (hss s hs).evolves, fun henv hc hθ hrel h => ?_⟩
  cases h with
  | block _ hbody =>
    obtain ⟨t', c', θ', h₁, hθ', heq, ht'⟩ := stmts_complete hss (henv.extend .empty) hc hθ hrel
      (Ty.assign_con ..) hbody
    exact .intro (yields_block.mpr h₁) hθ' heq ht'

theorem exprStmt_complete {e : Expr} {src : Region} (he : ExprComplete e) :
    StmtComplete (.expr e src) := by
  refine ⟨exprStmt_evolves he.evolves, fun henv hc hθ hrel h => ?_⟩
  cases h with
  | expr _ heType =>
    obtain ⟨t', c', θ', h₁, hθ', heq, ht'⟩ := he.finds henv hc hθ hrel heType
    exact .intro (yields_exprStmt.mpr ⟨t', h₁, rfl⟩) hθ' heq ⟨ht', .empty⟩

theorem returned_complete {value : Option Expr} {t : Ty} (hvalue : ∀ e ∈ value, ExprComplete e)
    (henv : env.Sane D c) (hc : c.Proper D) (hθ : θ.Absorbs c.subst.assignment)
    (hrel : env.Rel (Scheme.Complete θ) Γ)
    (h : (value = none ∧ t = .void) ∨ ∃ e, value = some e ∧ e.HasType Γ t) :
    Finds (returned env value) c θ fun t' θ' => t'.assign θ' = t := by
  rcases h with ⟨rfl, rfl⟩ | ⟨e, rfl, he⟩
  · exact .intro (yields_returned_none.mpr ⟨rfl, rfl⟩) hθ (Set.eqOn_refl ..) (Ty.assign_con ..)
  · obtain ⟨t', c', θ', h₁, hθ', heq, ht'⟩ := (hvalue e rfl).finds henv hc hθ hrel he
    exact .intro (yields_returned_some.mpr h₁) hθ' heq ht'

theorem ret_complete {value : Option Expr} {src : Region} (hvalue : ∀ e ∈ value, ExprComplete e) :
    StmtComplete (.ret value src) := by
  have hvalue' : ∀ e ∈ value, ExprEvolves e := fun e he => (hvalue e he).evolves
  refine ⟨ret_evolves hvalue', fun {D c env Γ t Δ θ} henv hc hθ hrel h => ?_⟩
  obtain ⟨rfl, s', u, hs', hinst, hvalueType⟩ := h.ret_inv
  obtain ⟨s, hs, hcomplete⟩ := hrel.lookup_right hs'
  obtain ⟨hsane, hmono⟩ := henv.scope "return" s hs
  have hskip := hc.skip 1
  have hnew := Ty.Within.var hc.next_mem_live
  -- A `return` statement has any type, so the new variable stands for the derived one.
  obtain ⟨θ₀, hθ₀, heq₀, hval⟩ := hc.exists_extension hθ fun _ => t
  have ht : (Ty.var c.next).assign θ₀ = t := hval _ (Nat.le_refl _)
  obtain ⟨found, c₁, θ₁, h₁, hθ₁, heq₁, hfound⟩ := returned_complete hvalue (henv.evolve hskip)
    hskip.proper hθ₀ (hrel.complete_congr henv heq₀) hvalueType
  obtain ⟨hE₁, -⟩ := returned_evolves hvalue' (henv.evolve hskip) hskip.proper h₁
  have heq₀₁ := heq₀.trans (heq₁.mono hskip.issued_subset)
  -- Nothing is quantified, so the only instance is the body of the scheme.
  have hbody : s.body.assign θ₁ = u := by
    obtain ⟨ρ, hρ⟩ := hcomplete.covers u hinst
    rw [(hsane.within_body (hmono rfl)).assign_eq heq₀₁, hρ]
    exact Ty.assign_congr fun x _ => (if_neg (by rw [hmono rfl]; exact List.not_mem_nil)).symm
  obtain ⟨c', h₂, hθ'⟩ := hE₁.proper.exists_unifies hθ₁ (hbody.trans hfound.symm)
  exact .intro (yields_ret.mpr ⟨s, found, c₁, hs, h₁, h₂, rfl⟩) hθ' heq₀₁
    ⟨(hnew.assign_eq heq₁).trans ht, .empty⟩

theorem letVar_complete {name : String} {patSrc src : Region} {init : Expr}
    (hname : init.isLambda → name ≠ "return") (hinit : ExprComplete init) :
    StmtComplete (.letBind (.var name patSrc) init src) := by
  refine ⟨letVar_evolves hname hinit.evolves, fun {D c env Γ t Δ θ} henv hc hθ hrel h => ?_⟩
  cases h with
  | letPat _ hvar => exact absurd rfl (hvar name patSrc)
  | @letVar _ _ _ u _ _ hinitType =>
    have hskip := hc.skip 1
    have hnew := Ty.Within.var hc.next_mem_live
    -- While the initialiser is inferred, the name has the type that the derivation gives it.
    obtain ⟨θ₀, hθ₀, heq₀, hval⟩ := hc.exists_extension hθ fun _ => u
    have hu : (Ty.var c.next).assign θ₀ = u := hval _ (Nat.le_refl _)
    have henv₀ := (henv.evolve hskip).extend (.of_var name hnew)
    have hself : Scheme.Complete θ₀ (.mono (.var c.next)) (.mono u) := by
      simpa only [hu] using Scheme.Complete.of_mono (θ := θ₀) (.var c.next)
    obtain ⟨value, c₁, θ₁, h₁, hθ₁, heq₁, hvalue⟩ := hinit.finds henv₀ hskip.proper hθ₀
      ((hrel.complete_congr henv heq₀).extend (.singleton name hself)) hinitType
    obtain ⟨hE₁, hvalueLive⟩ := hinit.evolves henv₀ hskip.proper h₁
    have hnew₁ : (Ty.var c.next).assign θ₁ = u := (hnew.assign_eq heq₁).trans hu
    obtain ⟨c', h₂, hθ'⟩ := hE₁.proper.exists_unifies hθ₁
      ((hθ₁.apply _).trans (hnew₁.trans hvalue.symm))
    have hE := (hskip.trans hE₁).trans
      (h₂.evolves hE₁.proper (hE₁.proper.within_apply (hnew.mono hE₁.live_subset)) hvalueLive)
    have heq := heq₀.trans (heq₁.mono hskip.issued_subset)
    refine .intro (yields_letVar.mpr ⟨value, c₁, h₁, h₂, rfl⟩) hθ' heq
      ⟨Ty.assign_con .., .singleton name ?_⟩
    subst hvalue
    by_cases hlambda : init.isLambda
    · rw [if_pos hlambda, if_pos hlambda]
      exact (henv.evolve hE).complete_generalize hθ' (hrel.complete_congr henv heq) value
    · rw [if_neg hlambda, if_neg hlambda, ← hθ'.apply]
      exact .of_mono _

theorem letPat_complete {p : Pat} {src : Region} {init : Expr}
    (hp : ∀ name patSrc, p ≠ .var name patSrc) (hinit : ExprComplete init) :
    StmtComplete (.letBind p init src) := by
  refine ⟨letPat_evolves hp hinit.evolves, fun {D c env Γ t Δ θ} henv hc hθ hrel h => ?_⟩
  cases h with
  -- A pattern that is a variable is subject to the other rule.
  | letVar => exact absurd rfl (hp _ _)
  | letPat _ _ hpType hinitType =>
    obtain ⟨⟨patTy, scope⟩, c₁, θ₁, h₁, hθ₁, heq₁, hpatTy, hΔ⟩ :=
      pattern_complete p henv hc hθ hrel.constructors hpType
    obtain ⟨hE₁, hpat, hscope⟩ := pattern_evolves p henv hc h₁
    obtain ⟨value, c₂, θ₂, h₂, hθ₂, heq₂, hvalue⟩ := hinit.finds (henv.evolve hE₁) hE₁.proper hθ₁
      (hrel.complete_congr henv heq₁) hinitType
    obtain ⟨hE₂, hvalueLive⟩ := hinit.evolves (henv.evolve hE₁) hE₁.proper h₂
    obtain ⟨c', h₃, hθ'⟩ := hE₂.proper.exists_unifies hθ₂
      ((hpat.assign_eq heq₂).trans (hpatTy.trans hvalue.symm))
    have hE₃ := h₃.evolves hE₂.proper (hpat.mono hE₂.live_subset) hvalueLive
    exact .intro ((yields_letPat hp).mpr ⟨patTy, scope, c₁, value, c₂, h₁, h₂, h₃, rfl⟩) hθ'
      (heq₁.trans (heq₂.mono hE₁.issued_subset))
      ⟨Ty.assign_con .., (hΔ.complete_congr hscope heq₂).complete_apply
        (hscope.evolve (hE₂.trans hE₃)) hθ'⟩

theorem letBind_complete {p : Pat} {src : Region} {init : Expr}
    (hname : "return" ∉ p.functionName init) (hinit : ExprComplete init) :
    StmtComplete (.letBind p init src) := by
  by_cases hvar : ∃ name patSrc, p = .var name patSrc
  · obtain ⟨name, patSrc, rfl⟩ := hvar
    refine letVar_complete (fun hlambda hn => hname ?_) hinit
    simp [Pat.functionName, hlambda, hn]
  · exact letPat_complete (fun name patSrc hp => hvar ⟨name, patSrc, hp⟩) hinit

theorem forLoop_complete {init : Stmt} {cond update body : Expr} {src : Region}
    (hinit : StmtComplete init) (hcond : ExprComplete cond) (hupdate : ExprComplete update)
    (hbody : ExprComplete body) : StmtComplete (.forLoop init cond update body src) := by
  refine ⟨forLoop_evolves hinit.evolves hcond.evolves hupdate.evolves hbody.evolves,
    fun {D c env Γ t Δ θ} henv hc hθ hrel h => ?_⟩
  cases h with
  | forLoop _ hinitType hcondType hupdateType hbodyType =>
    obtain ⟨first, c₁, θ₁, h₁, hθ₁, heq₁, -, hΔ⟩ := hinit.finds henv hc hθ hrel hinitType
    obtain ⟨hE₁, D', hD, hc₁, -, hsane, -⟩ := hinit.evolves henv hc h₁
    -- What the first statement generalises is dead from here on, and nothing outside mentions it.
    have hinner := hsane.apply hc₁
    have hrel₁ := ((hrel.complete_congr henv heq₁).extend hΔ).complete_apply hsane hθ₁
    rw [Env.apply_extend] at hinner hrel₁
    obtain ⟨condTy, c₂, θ₂, h₂, hθ₂, heq₂, hcondTy⟩ := hcond.finds hinner hc₁ hθ₁ hrel₁ hcondType
    obtain ⟨hE₂, hcondLive⟩ := hcond.evolves hinner hc₁ h₂
    obtain ⟨c₃, h₃, hθ₃⟩ := hE₂.proper.exists_unifies hθ₂
      (hcondTy.trans (Ty.assign_con ..).symm)
    have hE₃ := hE₂.trans (h₃.evolves hE₂.proper hcondLive (.con _))
    have hinner₃ := (hinner.evolve hE₃).apply hE₃.proper
    have hrel₃ := (hrel₁.complete_congr hinner heq₂).complete_apply (hinner.evolve hE₃) hθ₃
    obtain ⟨updateTy, c₄, θ₄, h₄, hθ₄, heq₄, -⟩ :=
      hupdate.finds hinner₃ hE₃.proper hθ₃ hrel₃ hupdateType
    obtain ⟨hE₄, -⟩ := hupdate.evolves hinner₃ hE₃.proper h₄
    have hinner₄ := hinner₃.evolve hE₄
    obtain ⟨bodyTy, c', θ', h₅, hθ', heq', -⟩ := hbody.finds (hinner₄.apply hE₄.proper) hE₄.proper
      hθ₄ ((hrel₃.complete_congr hinner₃ heq₄).complete_apply hinner₄ hθ₄) hbodyType
    -- No part changes what is assigned to a variable that was issued before it.
    have heq₂₄ := heq₂.trans (heq₄.mono hE₃.issued_subset)
    have heq₂' := heq₂₄.trans (heq'.mono (hE₃.trans hE₄).issued_subset)
    exact .intro (yields_forLoop.mpr
      ⟨first, c₁, condTy, c₂, c₃, updateTy, c₄, bodyTy, h₁, h₂, h₃, h₄, h₅, rfl⟩) hθ'
      (heq₁.trans (heq₂'.mono hE₁.issued_subset)) ⟨Ty.assign_con .., .empty⟩

/-- **Inference finds a type that covers every other one**, in programs that do not generalise
`return`. -/
theorem program_complete :
    (∀ e : Expr, "return" ∉ e.functions → ExprComplete e) ∧
    ∀ s : Stmt, "return" ∉ s.functions → StmtComplete s := by
  refine Expr.induction_avoiding "return" ?block ?ifElse ?switch ?prim ?var ?str ?lambda ?call
    ?forLoop ?letBind ?expr ?ret
  case block => exact fun _ _ => block_complete
  case ifElse => exact fun _ _ _ _ => ifElse_complete
  case switch => exact fun _ _ _ => switch_complete
  case prim => exact fun _ _ => prim_complete
  case var => exact fun _ _ => var_complete
  case str => exact fun _ _ _ => str_complete
  case lambda => exact fun _ _ _ => lambda_complete
  case call => exact fun _ _ _ => call_complete
  case forLoop => exact fun _ _ _ _ _ => forLoop_complete
  case letBind => exact fun _ _ _ => letBind_complete
  case expr => exact fun _ _ => exprStmt_complete
  case ret => exact fun _ _ => ret_complete

end InferM

/-! ## Programs -/

/-- The instances of the schemes of a closed environment are what they stand for, whatever is
assigned. -/
theorem Env.Closed.rel_complete {env : Env} (h : env.Closed) (θ : Assignment) :
    env.Rel (Scheme.Complete θ) env := by
  refine ⟨fun name => ?_, rfl⟩
  cases hs : env.scope.get? name with
  | none => exact .none
  | some s =>
    have hfree : ∀ x, x ∉ s.free := fun x hx => by
      rw [h.free name s hs] at hx
      cases hx
    exact .some ⟨fun u hu => (Scheme.isInstance_iff.mp hu).congr fun x hx => absurd hx (hfree x),
      fun y hy => absurd hy (hfree y)⟩

/-- **Completeness and principality**: a program that has a type is one for which inference finds a
type, and each of its types is an instance of that one, provided that no function is bound to the
name `return`. -/
theorem Infer.exists_principal_type {s : Stmt} (hs : "return" ∉ s.functions) {t : Ty}
    (h : s.Types .builtin t) :
    ∃ ty trace, Infer.program .builtin s = .ok (ty, trace) ∧ ∃ θ : Subst, ty.apply θ = t := by
  have hclosed := Env.builtin_closed
  obtain ⟨Δ, hΔ⟩ := h
  have habsorbs : Assignment.Absorbs Ty.var Store.initial.subst.assignment := fun x => by
    rw [Ty.assign_self]
    exact congrFun Subst.assignment_empty x
  obtain ⟨r, c, θ, hy, hθ, -, hty, -⟩ := (InferM.program_complete.2 s hs).finds hclosed.sane
    Store.proper_initial habsorbs (hclosed.rel_complete _) hΔ
  obtain ⟨trace, htrace⟩ := Infer.program_eq_ok_iff.mpr ⟨r, c, hy, rfl⟩
  refine ⟨_, trace, htrace, Subst.ofAssignment θ (r.ty.apply c.subst).occurrences, ?_⟩
  rw [Subst.apply_ofAssignment fun x hx => hx, hθ.apply, hty]

/-- The identity, bound by `let` and applied to itself:
`(x) => { let id = (y) => y; return id(id)(x) }`. -/
def identityApplied : Stmt :=
  let src : Region := ⟨0, none⟩
  let id : Expr := .var "id" src
  .expr (.lambda [.var "x" src] (.block
    [.letBind (.var "id" src) (.lambda [.var "y" src] (.var "y" src) src) src,
      .ret (some (.call (.call id [id] src) [.var "x" src] src)) src] src) src) src

/-- One of its types, and not the most general one. -/
theorem identityApplied_types : identityApplied.Types .builtin (.fn [.int] .int) := by
  let src : Region := ⟨0, none⟩
  let Γ := (Env.builtin.extend (.singleton "return" (.mono .int))).extend
    ((Dict.singleton "x" (.mono .int)).union .empty)
  let idTy : Ty := .fn [.var "u"] (.var "u")
  let Γ' := Γ.extend (.singleton "id" (Γ.generalize idTy))
  have hmono : ∀ t : Ty, (Scheme.mono t).IsInstance t := fun t => Scheme.isInstance_mono.mpr rfl
  have hlet : Stmt.HasType Γ (.letBind (.var "id" src)
      (.lambda [.var "y" src] (.var "y" src) src) src) .void
      (.singleton "id" (Γ.generalize idTy)) :=
    .letVar src src (.lambda src (List.cons_ne_nil _ _) (.cons (.var ..) .nil)
      (.var src (Env.lookup_extend_singleton ..) (hmono _)))
  have hid : ∀ t, Expr.HasType Γ' (.var "id" src) (.fn [t] t) := by
    have hu : "u" ∈ (Γ.generalize idTy).vars := Env.mem_vars_generalize.mpr (by decide)
    refine fun t => .var src (Env.lookup_extend_singleton ..)
      (Scheme.isInstance_iff.mpr ⟨fun _ => t, ?_⟩)
    change _ = idTy.assign _
    simp [idTy, hu]
  have hlookup : Γ'.lookup "x" = some (.mono .int) ∧ Γ'.lookup "return" = some (.mono .int) := by
    simp [Γ', Γ, Env.lookup_extend, Dict.get?_union, Dict.get?_singleton]
  have hx : Expr.HasType Γ' (.var "x" src) .int := .var src hlookup.1 (hmono .int)
  -- The two uses of the identity are at different types.
  have hself : Expr.HasType Γ' (.call (.var "id" src) [.var "id" src] src) (.fn [.int] .int) :=
    .call src (List.cons_ne_nil _ _) (hid (.fn [.int] .int)) (.cons (hid .int) (.nil _))
  have hret := Stmt.HasType.ret .int src hlookup.2 (hmono .int)
    (.call src (List.cons_ne_nil _ _) hself (.cons hx (.nil _)))
  exact ⟨.empty, .expr src (.lambda src (List.cons_ne_nil _ _) (.cons (.var ..) .nil)
    (.block src (.cons hlet (.cons hret (.nil _ _)))))⟩

theorem Infer.exists_principal_type_identityApplied :
    "return" ∉ identityApplied.functions ∧ identityApplied.Types .builtin (.fn [.int] .int) ∧
      ∃ ty trace, Infer.program .builtin identityApplied = .ok (ty, trace) ∧
        ∃ θ : Subst, ty.apply θ = .fn [.int] .int :=
  ⟨by decide, identityApplied_types, Infer.exists_principal_type (by decide) identityApplied_types⟩

end TypeTrace
