import Mathlib
import TypeTrace.Proofs.Liveness

/-!
# Soundness of inference

The type that inference finds for a program is one of its types.  The invariant relates a run to
derivations through an assignment of types to variables.  If the assignment absorbs the bindings at
the end of the run, then it turns the type found into one that can be derived, in any environment
whose schemes have the instances that those of the run stand for.

Derivations need no substitution lemma: the assignment is arbitrary, so the same run gives a
derivation for each of them.  That is how a generalised function is sound.  For the derivation of
its initialiser, the generalised variables are sent to names that occur nowhere else, and these can
be generalised in the derivation.

## Main definitions

* `Scheme.Sound`: what a scheme stands for are instances of another one
* `InferM.ExprSound`, `InferM.StmtSound`: the invariant

## Main results

* `Env.Sane.exists_generalizing`: generalisation is sound
* `InferM.program_sound`: the invariant holds, in programs that do not generalise `return`
* `Infer.types_of_program_eq_ok`: soundness
* `Infer.returnRebound_unsound`: a program with a function that is called `return`
-/

namespace TypeTrace

/-- Every type that the first scheme stands for is an instance of the second one. -/
def Scheme.Sound (θ : Assignment) (s s' : Scheme) : Prop := ∀ u, s.Instance θ u → s'.IsInstance u

namespace Scheme.Sound

variable {θ : Assignment} {s s' : Scheme} {D : Set String} {c : Store}

theorem of_mono (t : Ty) : Scheme.Sound θ (mono t) (mono (t.assign θ)) := by
  intro u hu
  exact isInstance_mono.mpr (instance_mono.mp hu)

theorem apply (h : Scheme.Sound θ s s') (hs : s.Sane D c) (hθ : θ.Absorbs c.subst.assignment) :
    Scheme.Sound θ (s.apply c.subst) s' :=
  fun u hu => h u ((instance_apply hθ hs.not_captured).mp hu)

end Scheme.Sound

theorem Scope.Rel.sound_apply {θ : Assignment} {Δ Δ' : Scope} {D : Set String} {c : Store}
    (h : Scope.Rel (Scheme.Sound θ) Δ Δ') (hΔ : Scope.Sane D c Δ)
    (hθ : θ.Absorbs c.subst.assignment) :
    Scope.Rel (Scheme.Sound θ) (Scope.apply c.subst Δ) Δ' :=
  h.apply fun name s _ hs hr => hr.apply (hΔ name s hs).1 hθ

theorem Env.Rel.sound_apply {θ : Assignment} {env Γ : Env} {D : Set String} {c : Store}
    (h : env.Rel (Scheme.Sound θ) Γ) (henv : env.Sane D c) (hθ : θ.Absorbs c.subst.assignment) :
    (env.apply c.subst).Rel (Scheme.Sound θ) Γ :=
  ⟨h.scope.sound_apply henv.scope hθ, h.constructors⟩

/-- What absorbs the bindings of a unification makes the types equal. -/
theorem Store.Unifies.assign_eq {c c' : Store} {one two : Ty} (h : c.Unifies one two c')
    {θ : Assignment} (hθ : θ.Absorbs c'.subst.assignment) : one.assign θ = two.assign θ := by
  obtain ⟨-, d, hd, hcomp⟩ := h
  calc one.assign θ = (one.apply c'.subst).assign θ := (hθ.apply one).symm
    _ = ((one.apply c.subst).apply d).assign θ := by rw [Subst.apply_compose hcomp]
    _ = ((two.apply c.subst).apply d).assign θ := by rw [(Ty.unify_ok hd).unifies]
    _ = (two.apply c'.subst).assign θ := by rw [Subst.apply_compose hcomp]
    _ = two.assign θ := hθ.apply two

/-- **Generalisation is sound.** -/
theorem Env.Sane.exists_generalizing {env Γ : Env} {D : Set String} {c : Store} {θ : Assignment}
    (henv : env.Sane D c) (hc : c.Proper D) (hθ : θ.Absorbs c.subst.assignment)
    (hrel : env.Rel (Scheme.Sound θ) Γ) (t : Ty) :
    ∃ θ' : Assignment, θ'.Absorbs c.subst.assignment ∧ env.Rel (Scheme.Sound θ') Γ ∧
      Scheme.Sound θ ((env.apply c.subst).generalize (t.apply c.subst))
        (Γ.generalize (t.assign θ')) := by
  let S := (env.apply c.subst).generalize (t.apply c.subst)
  -- The generalised variables get names that neither the environment of the derivation nor a type
  -- that the others stand for mentions.
  obtain ⟨rename, hinj, havoid⟩ := Name.exists_avoiding
    (Γ.free ++ (t.apply c.subst).occurrences.flatMap fun y => (θ y).occurrences)
  let η : Assignment := fun z => if z ∈ S.vars then .var (rename z) else θ z
  -- The bindings first, so that the assignment absorbs them.
  let θ' : Assignment := fun x => (c.subst.assignment x).assign η
  have ht : t.assign θ' = (t.apply c.subst).assign η := by
    rw [Ty.apply_eq_assign, Ty.assign_assign]
  refine ⟨θ', fun x => ?_, ⟨hrel.scope.imp fun name s s' hs hsound u hu => hsound u ?_,
    hrel.constructors⟩, fun u hu => ?_⟩
  · rw [← Ty.assign_assign, hc.resolved.absorbs x]
  -- Nothing that leads from the environment is renamed, so its schemes stand for the same types.
  · refine hu.congr fun y hy => ?_
    rw [← hθ y]
    refine Ty.assign_congr fun z hz => if_neg fun hv => ?_
    exact (mem_vars_generalize.mp hv).2 (henv.mem_free_apply hs hy hz)
  -- The derivation generalises the new names, and its instance undoes the renaming.
  · obtain ⟨ρ, rfl⟩ := hu
    rw [Scheme.isInstance_iff, ht]
    refine ⟨Function.extend rename ρ .var, ?_⟩
    change _ = Ty.assign _ ((t.apply c.subst).assign η)
    rw [Ty.assign_assign]
    refine Ty.assign_congr fun z hz => ?_
    by_cases hv : z ∈ S.vars
    · have hη : η z = .var (rename z) := if_pos hv
      have hmem : rename z ∈ (Γ.generalize ((t.apply c.subst).assign η)).vars := by
        refine mem_vars_generalize.mpr ⟨Ty.mem_occurrences_assign.mpr ⟨z, hz, ?_⟩, fun hΓ => ?_⟩
        · rw [hη, Ty.mem_occurrences_var]
        · exact havoid z (List.mem_append_left _ hΓ)
      rw [hη, Ty.assign_var, if_pos hmem, hinj.extend_apply]
      exact if_pos hv
    · have hη : η z = θ z := if_neg hv
      rw [hη]
      refine (if_neg hv).trans (Ty.assign_eq_self fun w hw => ?_).symm
      -- What the environment knows is not renamed.
      have hw' : ¬ ∃ a, rename a = w := by
        rintro ⟨a, rfl⟩
        exact havoid a (List.mem_append_right _ (List.mem_flatMap.mpr ⟨z, hz, hw⟩))
      rw [Function.extend_apply' _ _ _ hw', ite_self]

/-! ## Patterns -/

/-- An instance of a constructor with new variables is one of its instances in a derivation. -/
theorem Constructor.Closed.apply_fresh {con : Constructor} (h : con.Closed) (n : Nat)
    (θ : Assignment) : ∃ ρ : Subst, (∀ x ∈ ρ.keys, x ∈ con.free) ∧
      ∀ t ∈ con.result :: con.args, (t.apply (.fresh n con.free)).assign θ = t.apply ρ := by
  refine ⟨.ofAssignment (fun x => (Subst.assignment (.fresh n con.free) x).assign θ) con.free,
    fun x hx => Subst.mem_of_mem_keys_ofAssignment hx, fun t ht => ?_⟩
  rw [Subst.apply_ofAssignment (h t ht), Ty.apply_eq_assign, Ty.assign_assign]

namespace InferM

variable {D : Set String} {c c' : Store} {env Γ : Env} {θ : Assignment}

mutual

theorem pattern_sound (p : Pat) {c c' : Store} {r : Ty × Scope} (henv : env.Sane D c)
    (hc : c.Proper D) (h : Yields (pattern env p) c r c') (hθ : θ.Absorbs c'.subst.assignment)
    (hcon : env.constructors = Γ.constructors) :
    ∃ Δ, p.HasType Γ (r.1.assign θ) Δ ∧ Scope.Rel (Scheme.Sound θ) r.2 Δ := by
  cases p with
  | any src =>
    obtain ⟨rfl, rfl⟩ := yields_any.mp h
    exact ⟨.empty, .any _ src, .empty⟩
  | var name src =>
    obtain ⟨rfl, rfl⟩ := yields_patVar.mp h
    exact ⟨_, .var name _ src, .singleton name (.of_mono _)⟩
  | prim value src =>
    obtain ⟨rfl, rfl⟩ := yields_patPrim.mp h
    rw [value.assign_ty]
    exact ⟨.empty, .prim value src, .empty⟩
  | str value src =>
    obtain ⟨rfl, rfl⟩ := yields_patStr.mp h
    exact ⟨.empty, .str value src, .empty⟩
  | con name args src =>
    obtain ⟨con, scope, hget, hlen, hfields, rfl⟩ := yields_patCon.mp h
    have hskip := hc.skip con.free.length
    have hclosed := henv.constructors name con hget
    -- The fresh instance of the constructor, under the assignment, is the instance that the rule
    -- asks for.
    obtain ⟨ρ, hρ, hinst⟩ := hclosed.apply_fresh c.nextId θ
    obtain ⟨Δ, hargs, hrel⟩ := fields_sound args (henv.evolve hskip) hskip.proper
      (hclosed.within_fresh hc).2 .empty (by simpa using hlen) hfields hθ hcon .empty
    rw [hθ.apply, hinst _ List.mem_cons_self]
    rw [Scope.empty_union] at hrel
    refine ⟨Δ, .con src ρ (hcon ▸ hget) hρ ?_, hrel⟩
    rw [List.map_map] at hargs
    have hmap : con.args.map (Ty.assign θ ∘ Ty.apply (.fresh c.nextId con.free)) =
        con.args.map (Ty.apply ρ) :=
      List.map_congr_left fun t ht => hinst t (List.mem_cons_of_mem _ ht)
    rwa [hmap] at hargs

theorem fields_sound (ps : List Pat) {c c' : Store} {declared : List Ty} {scope scope' Θ : Scope}
    (henv : env.Sane D c) (hc : c.Proper D) (hdeclared : ∀ t ∈ declared, t.Within (c.live D))
    (hscope : Scope.Sane D c scope) (hlen : declared.length = ps.length)
    (h : Yields (fields env declared scope ps) c scope' c') (hθ : θ.Absorbs c'.subst.assignment)
    (hcon : env.constructors = Γ.constructors) (hrel : Scope.Rel (Scheme.Sound θ) scope Θ) :
    ∃ Δ, Pat.HaveTypes Γ ps (declared.map (Ty.assign θ)) Δ ∧
      Scope.Rel (Scheme.Sound θ) scope' (Θ.union Δ) := by
  cases ps with
  | nil =>
    obtain rfl := List.eq_nil_of_length_eq_zero hlen
    obtain ⟨rfl, rfl⟩ := yields_fields_nil.mp h
    exact ⟨.empty, .nil, hrel⟩
  | cons p ps =>
    cases declared with
    | nil => cases hlen
    | cons d ds =>
      obtain ⟨hd, hds⟩ := List.forall_mem_cons.mp hdeclared
      obtain ⟨ty, extra, c₁, c₂, hp, hunify, hps⟩ := yields_fields_cons.mp h
      obtain ⟨hE₁, hty, hextra⟩ := pattern_evolves p henv hc hp
      have hE₂ := hunify.evolves hE₁.proper hty (hd.mono hE₁.live_subset)
      have hE := hE₁.trans hE₂
      have hds' : ∀ t ∈ ds, t.Within (c₂.live D) := fun t ht => (hds t ht).mono hE.live_subset
      have hscope' := (hscope.evolve hE).union (hextra.evolve hE₂)
      obtain ⟨hE₃, -⟩ := fields_evolves ps (henv.evolve hE) hE.proper hds' hscope' hps
      have hθ₂ := hE₃.absorbs hE₂.proper hθ
      obtain ⟨Δ, hpat, hΔ⟩ := pattern_sound p henv hc hp (hE₂.absorbs hE₁.proper hθ₂) hcon
      obtain ⟨Δ', hpats, hΔ'⟩ := fields_sound ps (henv.evolve hE) hE.proper hds' hscope'
        (Nat.succ.inj hlen) hps hθ hcon (hrel.union hΔ)
      -- The field has the declared type, since the assignment makes the two equal.
      rw [hunify.assign_eq hθ₂] at hpat
      rw [Scope.union_assoc] at hΔ'
      exact ⟨Δ.union Δ', .cons hpat hpats, hΔ'⟩

end

theorem params_sound {ps : List Pat} {scope Θ : Scope} {r : List Ty × Scope} (henv : env.Sane D c)
    (hc : c.Proper D) (hscope : Scope.Sane D c scope) (h : Yields (params env scope ps) c r c')
    (hθ : θ.Absorbs c'.subst.assignment) (hcon : env.constructors = Γ.constructors)
    (hrel : Scope.Rel (Scheme.Sound θ) scope Θ) :
    ∃ Δ, Pat.HaveTypes Γ ps (r.1.map (Ty.assign θ)) Δ ∧
      Scope.Rel (Scheme.Sound θ) r.2 (Θ.union Δ) := by
  induction ps generalizing c scope Θ r with
  | nil =>
    obtain ⟨rfl, rfl⟩ := yields_params_nil.mp h
    exact ⟨.empty, .nil, hrel⟩
  | cons p ps ih =>
    obtain ⟨ty, extra, c₁, tys, scope', hp, hps, rfl⟩ := yields_params_cons.mp h
    obtain ⟨hE₁, -, hextra⟩ := pattern_evolves p henv hc hp
    have hscope' := (hscope.evolve hE₁).union (hextra.apply hE₁.proper)
    obtain ⟨hE₂, -⟩ := params_evolves (henv.evolve hE₁) hE₁.proper hscope' hps
    have hθ₁ := hE₂.absorbs hE₁.proper hθ
    obtain ⟨Δ, hpat, hΔ⟩ := pattern_sound p henv hc hp hθ₁ hcon
    obtain ⟨Δ', hpats, hΔ'⟩ := ih (henv.evolve hE₁) hE₁.proper hscope' hps
      (hrel.union (hΔ.sound_apply hextra hθ₁))
    rw [Scope.union_assoc] at hΔ'
    exact ⟨Δ.union Δ', .cons hpat hpats, hΔ'⟩

/-! ## Expressions and statements -/

/-- Inference of the expression finds one of its types: under every assignment that absorbs the
bindings at the end, and in every environment that knows as much, it has the type found. -/
structure ExprSound (e : Expr) : Prop where
  evolves : ExprEvolves e
  hasType : ∀ {D : Set String} {c c' : Store} {env Γ : Env} {t : Ty} {θ : Assignment},
    env.Sane D c → c.Proper D → Yields (expr env e) c t c' → θ.Absorbs c'.subst.assignment →
    env.Rel (Scheme.Sound θ) Γ → e.HasType Γ (t.assign θ)

/-- Inference of the statement finds one of its types, and binds no more than a derivation may. -/
structure StmtSound (s : Stmt) : Prop where
  evolves : StmtEvolves s
  hasType : ∀ {D : Set String} {c c' : Store} {env Γ : Env} {r : StmtResult} {θ : Assignment},
    env.Sane D c → c.Proper D → Yields (stmt env s) c r c' → θ.Absorbs c'.subst.assignment →
    env.Rel (Scheme.Sound θ) Γ →
    ∃ Δ, s.HasType Γ (r.ty.assign θ) Δ ∧ Scope.Rel (Scheme.Sound θ) (r.scope.getD .empty) Δ

theorem prim_sound {value : Prim} {src : Region} : ExprSound (.prim value src) := by
  refine ⟨prim_evolves, fun {D c c' env Γ t θ} henv hc h hθ hrel => ?_⟩
  obtain ⟨rfl, rfl⟩ := yields_prim.mp h
  rw [value.assign_ty]
  exact .prim Γ value src

theorem var_sound {name : String} {src : Region} : ExprSound (.var name src) := by
  refine ⟨var_evolves, fun {D c c' env Γ t θ} henv hc h hθ hrel => ?_⟩
  obtain ⟨s, hs, rfl, rfl⟩ := yields_var.mp h
  obtain ⟨s', hs', hsound⟩ := hrel.lookup hs
  -- The new variables stand for the types that are put in for the quantified ones.
  refine .var src hs'
    (hsound _ ⟨fun x => (Subst.assignment (.fresh c.nextId s.vars) x).assign θ, ?_⟩)
  rw [Ty.apply_eq_assign, Ty.assign_assign]
  refine Ty.assign_congr fun x _ => ?_
  by_cases hx : x ∈ s.vars
  · rw [if_pos hx]
  · rw [if_neg hx, Subst.assignment_fresh_of_notMem hx, Ty.assign_var]

theorem embedded_sound {es : List Expr} (hes : ∀ e ∈ es, ExprSound e) (henv : env.Sane D c)
    (hc : c.Proper D) (h : Yields (embedded env es) c () c') (hθ : θ.Absorbs c'.subst.assignment)
    (hrel : env.Rel (Scheme.Sound θ) Γ) : ∃ ts, Expr.HaveTypes Γ es ts := by
  induction es generalizing c with
  | nil => exact ⟨[], .nil Γ⟩
  | cons e es ih =>
    obtain ⟨he, hes⟩ := List.forall_mem_cons.mp hes
    obtain ⟨t, c₁, h₁, h₂⟩ := yields_embedded_cons.mp h
    obtain ⟨hE₁, -⟩ := he.evolves (henv.apply hc) hc h₁
    have hE₂ := embedded_evolves (fun e he => (hes e he).evolves) (henv.evolve hE₁) hE₁.proper h₂
    have hθ₁ := hE₂.absorbs hE₁.proper hθ
    obtain ⟨ts, hts⟩ := ih hes (henv.evolve hE₁) hE₁.proper h₂
    exact ⟨_, .cons (he.hasType (henv.apply hc) hc h₁ hθ₁
      (hrel.sound_apply henv (hE₁.absorbs hc hθ₁))) hts⟩

theorem exprs_sound {es : List Expr} {ts : List Ty} (hes : ∀ e ∈ es, ExprSound e)
    (henv : env.Sane D c) (hc : c.Proper D) (h : Yields (exprs env es) c ts c')
    (hθ : θ.Absorbs c'.subst.assignment) (hrel : env.Rel (Scheme.Sound θ) Γ) :
    Expr.HaveTypes Γ es (ts.map (Ty.assign θ)) := by
  induction es generalizing c ts with
  | nil =>
    obtain ⟨rfl, rfl⟩ := yields_exprs_nil.mp h
    exact .nil Γ
  | cons e es ih =>
    obtain ⟨he, hes⟩ := List.forall_mem_cons.mp hes
    obtain ⟨t, c₁, ts', h₁, h₂, rfl⟩ := yields_exprs_cons.mp h
    obtain ⟨hE₁, -⟩ := he.evolves (henv.apply hc) hc h₁
    obtain ⟨hE₂, -⟩ :=
      exprs_evolves (fun e he => (hes e he).evolves) (henv.evolve hE₁) hE₁.proper h₂
    have hθ₁ := hE₂.absorbs hE₁.proper hθ
    exact .cons (he.hasType (henv.apply hc) hc h₁ hθ₁
      (hrel.sound_apply henv (hE₁.absorbs hc hθ₁))) (ih hes (henv.evolve hE₁) hE₁.proper h₂)

theorem str_sound {value : String} {embeds : List Expr} {src : Region}
    (hembeds : ∀ e ∈ embeds, ExprSound e) : ExprSound (.str value embeds src) := by
  refine ⟨str_evolves fun e he => (hembeds e he).evolves, fun henv hc h hθ hrel => ?_⟩
  obtain ⟨rfl, h₁⟩ := yields_str.mp h
  obtain ⟨ts, hts⟩ := embedded_sound hembeds henv hc h₁ hθ hrel
  exact .str value src hts

theorem lambda_sound {args : List Pat} {body : Expr} {src : Region} (hbody : ExprSound body) :
    ExprSound (.lambda args body src) := by
  refine ⟨lambda_evolves hbody.evolves, fun {D c c' env Γ t θ} henv hc h hθ hrel => ?_⟩
  obtain ⟨hne, tys, scope, c₁, bodyTy, c₂, h₁, h₂, h₃, rfl⟩ := yields_lambda.mp h
  have hskip := hc.skip 1
  have hret := Ty.Within.var hc.next_mem_live
  obtain ⟨hE₁, htys, hscope⟩ :=
    params_evolves (henv.evolve hskip) hskip.proper (.of_var "return" hret) h₁
  have henv₁ := (henv.evolve (hskip.trans hE₁)).extend hscope
  obtain ⟨hE₂, hbodyTy⟩ := hbody.evolves henv₁ hE₁.proper h₂
  have hE₃ := h₃.evolves hE₂.proper hbodyTy
    (hE₂.proper.within_apply (hret.mono (hE₁.trans hE₂).live_subset))
  have hθ₂ := hE₃.absorbs hE₂.proper hθ
  have hθ₁ := hE₂.absorbs hE₁.proper hθ₂
  -- The type of the body is the one that `return` stands for.
  have hreturn : θ c.next = bodyTy.assign θ := by
    rw [h₃.assign_eq hθ, hθ₂.apply, Ty.assign_var]
  obtain ⟨Δ, hargs, hΔ⟩ := params_sound (henv.evolve hskip) hskip.proper (.of_var "return" hret)
    h₁ hθ₁ hrel.constructors (.singleton "return" (.of_mono _))
  have hbodyType := hbody.hasType henv₁ hE₁.proper h₂ hθ₂ (hrel.extend hΔ)
  rw [← Env.extend_extend, Ty.assign_var, hreturn] at hbodyType
  have hfn : (Ty.fn (tys.map (Ty.apply c'.subst)) (bodyTy.apply c'.subst)).assign θ =
      .fn (tys.map (Ty.assign θ)) (bodyTy.assign θ) := by
    rw [Ty.assign_fn, List.map_map, hθ.apply]
    exact congrArg (Ty.fn · _) (List.map_congr_left fun t _ => hθ.apply t)
  rw [hfn]
  exact .lambda src hne hargs hbodyType

theorem call_sound {target : Expr} {args : List Expr} {src : Region} (htarget : ExprSound target)
    (hargs : ∀ e ∈ args, ExprSound e) : ExprSound (.call target args src) := by
  have hargs' : ∀ e ∈ args, ExprEvolves e := fun e he => (hargs e he).evolves
  refine ⟨call_evolves htarget.evolves hargs', fun {D c c' env Γ t θ} henv hc h hθ hrel => ?_⟩
  obtain ⟨hne, targetTy, c₁, argTys, c₂, h₁, h₂, h₃, rfl⟩ := yields_call.mp h
  have hskip := hc.skip 1
  obtain ⟨hE₁, htargetTy⟩ := htarget.evolves (henv.evolve hskip) hskip.proper h₁
  have henv₁ := henv.evolve (hskip.trans hE₁)
  obtain ⟨hE₂, hargTys⟩ := exprs_evolves hargs' henv₁ hE₁.proper h₂
  have hnew := (Ty.Within.var hc.next_mem_live).mono (hE₁.trans hE₂).live_subset
  have hE₃ := h₃.evolves hE₂.proper
    (hE₂.proper.within_apply (htargetTy.mono hE₂.live_subset)) (.fn hargTys hnew)
  -- The assignment absorbs the last store, and so each of those before it.
  have hθ₂ := hE₃.absorbs hE₂.proper hθ
  have hθ₁ := hE₂.absorbs hE₁.proper hθ₂
  have htype := htarget.hasType (henv.evolve hskip) hskip.proper h₁ hθ₁ hrel
  rw [← hθ₂.apply, h₃.assign_eq hθ, Ty.assign_fn] at htype
  rw [hθ.apply]
  exact .call src hne htype (exprs_sound hargs henv₁ hE₁.proper h₂ hθ₂ hrel)

theorem otherwise_sound {no : Option Expr} {t : Ty} (hno : ∀ e ∈ no, ExprSound e)
    (henv : env.Sane D c) (hc : c.Proper D) (h : Yields (otherwise env no) c t c')
    (hθ : θ.Absorbs c'.subst.assignment) (hrel : env.Rel (Scheme.Sound θ) Γ) :
    (no = none ∧ t.assign θ = .void) ∨ ∃ e, no = some e ∧ e.HasType Γ (t.assign θ) := by
  cases no with
  | none =>
    obtain ⟨rfl, rfl⟩ := yields_otherwise_none.mp h
    exact .inl ⟨rfl, Ty.assign_con ..⟩
  | some e =>
    have h₁ := yields_otherwise_some.mp h
    obtain ⟨hE, -⟩ := (hno e rfl).evolves (henv.apply hc) hc h₁
    exact .inr ⟨e, rfl, (hno e rfl).hasType (henv.apply hc) hc h₁ hθ
      (hrel.sound_apply henv (hE.absorbs hc hθ))⟩

theorem ifElse_sound {cond yes : Expr} {no : Option Expr} {src : Region} (hcond : ExprSound cond)
    (hyes : ExprSound yes) (hno : ∀ e ∈ no, ExprSound e) :
    ExprSound (.ifElse cond yes no src) := by
  have hno' : ∀ e ∈ no, ExprEvolves e := fun e he => (hno e he).evolves
  refine ⟨ifElse_evolves hcond.evolves hyes.evolves hno',
    fun {D c c' env Γ t θ} henv hc h hθ hrel => ?_⟩
  obtain ⟨condTy, c₁, c₂, yesTy, c₃, noTy, c₄, h₁, h₂, h₃, h₄, h₅, rfl⟩ := yields_ifElse.mp h
  obtain ⟨hE₁, hcondTy⟩ := hcond.evolves henv hc h₁
  have hE₂ := h₂.evolves hE₁.proper hcondTy (.con _)
  have henv₂ := henv.evolve (hE₁.trans hE₂)
  obtain ⟨hE₃, hyesTy⟩ := hyes.evolves (henv₂.apply hE₂.proper) hE₂.proper h₃
  obtain ⟨hE₄, hnoTy⟩ := otherwise_evolves hno' (henv₂.evolve hE₃) hE₃.proper h₄
  have hE₅ := h₅.evolves hE₄.proper (hyesTy.mono hE₄.live_subset) hnoTy
  have hθ₄ := hE₅.absorbs hE₄.proper hθ
  have hθ₃ := hE₄.absorbs hE₃.proper hθ₄
  have hθ₂ := hE₃.absorbs hE₂.proper hθ₃
  have hcondType := hcond.hasType henv hc h₁ (hE₂.absorbs hE₁.proper hθ₂) hrel
  rw [h₂.assign_eq hθ₂] at hcondType
  have hyesType := hyes.hasType (henv₂.apply hE₂.proper) hE₂.proper h₃ hθ₃
    (hrel.sound_apply henv₂ hθ₂)
  rw [hθ.apply]
  -- Without an `else` there is no other value, and the branch must be void.
  rcases otherwise_sound hno (henv₂.evolve hE₃) hE₃.proper h₄ hθ₄ hrel with
    ⟨rfl, hvoid⟩ | ⟨e, rfl, hnoType⟩
  · rw [h₅.assign_eq hθ, hvoid] at hyesType ⊢
    exact .ifOnly src hcondType hyesType
  · rw [← h₅.assign_eq hθ] at hnoType
    exact .ifElse src hcondType hyesType hnoType

theorem cases_sound {targetTy result : Ty} {cs : List Case}
    (hcs : ∀ p e, Case.mk p e ∈ cs → ExprSound e) (henv : env.Sane D c) (hc : c.Proper D)
    (htarget : targetTy.Within (c.live D)) (hresult : result.Within (c.live D))
    (h : Yields (cases env targetTy result cs) c () c') (hθ : θ.Absorbs c'.subst.assignment)
    (hrel : env.Rel (Scheme.Sound θ) Γ) :
    Case.HaveTypes Γ (targetTy.assign θ) (result.assign θ) cs := by
  induction cs generalizing c with
  | nil => exact .nil ..
  | cons first cs ih =>
    obtain ⟨p, e⟩ := first
    have he := hcs p e List.mem_cons_self
    have hcs' : ∀ p e, Case.mk p e ∈ cs → ExprSound e := fun p e he =>
      hcs p e (List.mem_cons_of_mem _ he)
    obtain ⟨patTy, scope, c₁, c₂, bodyTy, c₃, c₄, hp, hunify, h₃, hunify', hrest⟩ :=
      yields_cases_cons.mp h
    -- Forwards through the run: every store stays proper, and the types found stay inside it.
    obtain ⟨hE₁, hpat, hscope⟩ := pattern_evolves p henv hc hp
    have hE₂ := hunify.evolves hE₁.proper hpat (htarget.mono hE₁.live_subset)
    have hE₁₂ := hE₁.trans hE₂
    have henv₂ := henv.evolve hE₁₂
    have hscope₂ := hscope.evolve hE₂
    have hinner := (henv₂.apply hE₂.proper).extend (hscope₂.apply hE₂.proper)
    obtain ⟨hE₃, hbody⟩ := he.evolves hinner hE₂.proper h₃
    have hE₁₃ := hE₁₂.trans hE₃
    have hE₄ := hunify'.evolves hE₃.proper
      (hE₃.proper.within_apply (hresult.mono hE₁₃.live_subset)) hbody
    have hE := hE₁₃.trans hE₄
    have hE₅ := cases_evolves (fun p e he => (hcs' p e he).evolves) (henv.evolve hE) hE.proper
      (htarget.mono hE.live_subset) (hresult.mono hE.live_subset) hrest
    -- Backwards: the assignment absorbs the stores before, and so it respects what each step
    -- unified.
    have hθ₄ := hE₅.absorbs hE₄.proper hθ
    have hθ₃ := hE₄.absorbs hE₃.proper hθ₄
    have hθ₂ := hE₃.absorbs hE₂.proper hθ₃
    obtain ⟨Δ, hpatType, hΔ⟩ := pattern_sound p henv hc hp (hE₂.absorbs hE₁.proper hθ₂)
      hrel.constructors
    rw [hunify.assign_eq hθ₂] at hpatType
    have hbodyType := he.hasType hinner hE₂.proper h₃ hθ₃
      ((hrel.sound_apply henv₂ hθ₂).extend (hΔ.sound_apply hscope₂ hθ₂))
    rw [← hunify'.assign_eq hθ₄, hθ₃.apply] at hbodyType
    exact .cons hpatType hbodyType (ih hcs' (henv.evolve hE) hE.proper
      (htarget.mono hE.live_subset) (hresult.mono hE.live_subset) hrest)

theorem switch_sound {target : Expr} {cs : List Case} {src : Region} (htarget : ExprSound target)
    (hcs : ∀ p e, Case.mk p e ∈ cs → ExprSound e) : ExprSound (.switch target cs src) := by
  have hcs' : ∀ p e, Case.mk p e ∈ cs → ExprEvolves e := fun p e he => (hcs p e he).evolves
  refine ⟨switch_evolves htarget.evolves hcs', fun {D c c' env Γ t θ} henv hc h hθ hrel => ?_⟩
  obtain ⟨targetTy, c₁, h₁, h₂, rfl⟩ := yields_switch.mp h
  obtain ⟨hE₁, htargetTy⟩ := htarget.evolves henv hc h₁
  have hskip := hE₁.proper.skip 1
  have henv₁ := henv.evolve (hE₁.trans hskip)
  have htargetTy' := htargetTy.mono hskip.live_subset
  have hnew := Ty.Within.var hE₁.proper.next_mem_live
  have hE₂ := cases_evolves hcs' henv₁ hskip.proper htargetTy' hnew h₂
  have hθ₁ := hskip.absorbs hE₁.proper (hE₂.absorbs hskip.proper hθ)
  rw [hθ.apply]
  exact .switch src (htarget.hasType henv hc h₁ hθ₁ hrel)
    (cases_sound hcs henv₁ hskip.proper htargetTy' hnew h₂ hθ hrel)

theorem stmts_sound {scope : Scope} {last t : Ty} {ss : List Stmt} (hss : ∀ s ∈ ss, StmtSound s)
    (henv : (env.extend scope).Sane D c) (hc : c.Proper D) (hlast : last.Within (c.live D))
    (h : Yields (stmts env scope last ss) c t c') (hθ : θ.Absorbs c'.subst.assignment)
    (hrel : (env.extend scope).Rel (Scheme.Sound θ) Γ) :
    Stmt.BlockHasType Γ (last.assign θ) ss (t.assign θ) := by
  induction ss generalizing D c scope last Γ with
  | nil =>
    obtain ⟨rfl, rfl⟩ := yields_stmts_nil.mp h
    rw [hθ.apply]
    exact .nil Γ _
  | cons s ss ih =>
    obtain ⟨hs, hss⟩ := List.forall_mem_cons.mp hss
    obtain ⟨r, c₁, h₁, h₂⟩ := yields_stmts_cons.mp h
    rw [← Env.apply_extend] at h₁
    obtain ⟨hE₁, D', hD, hc₁, hty, hsane, -⟩ := hs.evolves (henv.apply hc) hc h₁
    have henv₁ := henv.of_apply hc hE₁ hD hsane
    rw [Env.extend_extend] at henv₁
    obtain ⟨hE₂, -⟩ := stmts_evolves (fun s hs => (hss s hs).evolves) henv₁ hc₁ hty h₂
    have hθ₁ := hE₂.absorbs hc₁ hθ
    -- The statement sees the scope up to date, which stands for the same types.
    obtain ⟨Δ, hsType, hΔ⟩ := hs.hasType (henv.apply hc) hc h₁ hθ₁
      (hrel.sound_apply henv (hE₁.absorbs hc hθ₁))
    have hrel₁ := hrel.extend hΔ
    rw [Env.extend_extend] at hrel₁
    exact .cons hsType (ih hss henv₁ hc₁ hty h₂ hrel₁)

theorem block_sound {ss : List Stmt} {src : Region} (hss : ∀ s ∈ ss, StmtSound s) :
    ExprSound (.block ss src) := by
  refine ⟨block_evolves fun s hs => (hss s hs).evolves, fun henv hc h hθ hrel => ?_⟩
  exact .block src (stmts_sound hss (henv.extend .empty) hc (.con _) (yields_block.mp h) hθ hrel)

theorem exprStmt_sound {e : Expr} {src : Region} (he : ExprSound e) : StmtSound (.expr e src) := by
  refine ⟨exprStmt_evolves he.evolves, fun henv hc h hθ hrel => ?_⟩
  obtain ⟨t, h₁, rfl⟩ := yields_exprStmt.mp h
  exact ⟨.empty, .expr src (he.hasType henv hc h₁ hθ hrel), .empty⟩

theorem ret_sound {value : Option Expr} {src : Region} (hvalue : ∀ e ∈ value, ExprSound e) :
    StmtSound (.ret value src) := by
  have hvalue' : ∀ e ∈ value, ExprEvolves e := fun e he => (hvalue e he).evolves
  refine ⟨ret_evolves hvalue', fun {D c c' env Γ r θ} henv hc h hθ hrel => ?_⟩
  obtain ⟨s, found, c₁, hs, h₁, h₂, rfl⟩ := yields_ret.mp h
  obtain ⟨hsane, hmono⟩ := henv.scope "return" s hs
  have hskip := hc.skip 1
  obtain ⟨hE₁, hfound⟩ := returned_evolves hvalue' (henv.evolve hskip) hskip.proper h₁
  have hbody := (hsane.within_body (hmono rfl)).mono (hskip.trans hE₁).live_subset
  have hE₂ := h₂.evolves hE₁.proper hbody hfound
  obtain ⟨s', hs', hsound⟩ := hrel.lookup hs
  -- Nothing is quantified, so the scheme stands for the type of the value and for no other one.
  have hinst : s'.IsInstance (found.assign θ) := by
    refine hsound _ ⟨θ, ?_⟩
    rw [← h₂.assign_eq hθ]
    exact Ty.assign_congr fun x _ => (ite_self _).symm
  cases value with
  | none =>
    obtain ⟨rfl, rfl⟩ := yields_returned_none.mp h₁
    exact ⟨.empty, .retVoid _ src hs' hinst, .empty⟩
  | some e =>
    have htype := (hvalue e rfl).hasType (henv.evolve hskip) hskip.proper
      (yields_returned_some.mp h₁) (hE₂.absorbs hE₁.proper hθ) hrel
    exact ⟨.empty, .ret _ src hs' hinst htype, .empty⟩

theorem letVar_sound {name : String} {patSrc src : Region} {init : Expr}
    (hname : init.isLambda → name ≠ "return") (hinit : ExprSound init) :
    StmtSound (.letBind (.var name patSrc) init src) := by
  refine ⟨letVar_evolves hname hinit.evolves, fun {D c c' env Γ r θ} henv hc h hθ hrel => ?_⟩
  obtain ⟨value, c₁, h₁, h₂, rfl⟩ := yields_letVar.mp h
  have hskip := hc.skip 1
  have hnew := Ty.Within.var hc.next_mem_live
  have henv₁ := (henv.evolve hskip).extend (.of_var name hnew)
  obtain ⟨hE₁, hvalue⟩ := hinit.evolves henv₁ hskip.proper h₁
  have hE₂ := h₂.evolves hE₁.proper (hE₁.proper.within_apply (hnew.mono hE₁.live_subset)) hvalue
  -- The derivation for the initialiser, for any choice of types for the variables.
  have htype : ∀ η : Assignment, η.Absorbs c'.subst.assignment → env.Rel (Scheme.Sound η) Γ →
      init.HasType (Γ.extend (.singleton name (.mono (value.assign η)))) (value.assign η) := by
    intro η hη hrel'
    have hη₁ := hE₂.absorbs hE₁.proper hη
    have hself : η c.next = value.assign η := by
      rw [← h₂.assign_eq hη, hη₁.apply, Ty.assign_var]
    have := hinit.hasType henv₁ hskip.proper h₁ hη₁ (hrel'.extend (.singleton name (.of_mono _)))
    rwa [Ty.assign_var, hself] at this
  -- A function is typed with its variables renamed; the scheme still fits the types for `θ`.
  by_cases hlambda : init.isLambda
  · have hE := (hskip.trans hE₁).trans hE₂
    obtain ⟨η, hη, hrel', hsound⟩ :=
      (henv.evolve hE).exists_generalizing hE.proper hθ hrel value
    refine ⟨_, .letVar patSrc src (htype η hη hrel'), .singleton name ?_⟩
    rwa [if_pos hlambda, if_pos hlambda]
  · refine ⟨_, .letVar patSrc src (htype θ hθ hrel), .singleton name ?_⟩
    rw [if_neg hlambda, if_neg hlambda, ← hθ.apply]
    exact .of_mono _

theorem letPat_sound {p : Pat} {src : Region} {init : Expr}
    (hp : ∀ name patSrc, p ≠ .var name patSrc) (hinit : ExprSound init) :
    StmtSound (.letBind p init src) := by
  refine ⟨letPat_evolves hp hinit.evolves, fun {D c c' env Γ r θ} henv hc h hθ hrel => ?_⟩
  obtain ⟨patTy, scope, c₁, value, c₂, h₁, h₂, h₃, rfl⟩ := (yields_letPat hp).mp h
  obtain ⟨hE₁, hpat, hscope⟩ := pattern_evolves p henv hc h₁
  obtain ⟨hE₂, hvalue⟩ := hinit.evolves (henv.evolve hE₁) hE₁.proper h₂
  have hE₃ := h₃.evolves hE₂.proper (hpat.mono hE₂.live_subset) hvalue
  have hθ₂ := hE₃.absorbs hE₂.proper hθ
  obtain ⟨Δ, hpatType, hΔ⟩ := pattern_sound p henv hc h₁ (hE₂.absorbs hE₁.proper hθ₂)
    hrel.constructors
  rw [h₃.assign_eq hθ] at hpatType
  exact ⟨Δ, .letPat src hp hpatType (hinit.hasType (henv.evolve hE₁) hE₁.proper h₂ hθ₂ hrel),
    hΔ.sound_apply (hscope.evolve (hE₂.trans hE₃)) hθ⟩

theorem forLoop_sound {init : Stmt} {cond update body : Expr} {src : Region}
    (hinit : StmtSound init) (hcond : ExprSound cond) (hupdate : ExprSound update)
    (hbody : ExprSound body) : StmtSound (.forLoop init cond update body src) := by
  refine ⟨forLoop_evolves hinit.evolves hcond.evolves hupdate.evolves hbody.evolves,
    fun {D c c' env Γ r θ} henv hc h hθ hrel => ?_⟩
  obtain ⟨first, c₁, condTy, c₂, c₃, updateTy, c₄, bodyTy, h₁, h₂, h₃, h₄, h₅, rfl⟩ :=
    yields_forLoop.mp h
  obtain ⟨hE₁, D', hD, hc₁, -, hsane, -⟩ := hinit.evolves henv hc h₁
  have hinner := hsane.apply hc₁
  rw [Env.apply_extend] at hinner
  obtain ⟨hE₂, hcondTy⟩ := hcond.evolves hinner hc₁ h₂
  have hE₃ := h₃.evolves hE₂.proper hcondTy (.con _)
  have hinner₃ := (hinner.evolve (hE₂.trans hE₃))
  obtain ⟨hE₄, -⟩ := hupdate.evolves (hinner₃.apply hE₃.proper) hE₃.proper h₄
  have hinner₄ := (hinner₃.apply hE₃.proper).evolve hE₄
  obtain ⟨hE₅, -⟩ := hbody.evolves (hinner₄.apply hE₄.proper) hE₄.proper h₅
  -- The assignment absorbs the bindings after each part, from the last one back.
  have hθ₄ := hE₅.absorbs hE₄.proper hθ
  have hθ₃ := hE₄.absorbs hE₃.proper hθ₄
  have hθ₂ := hE₃.absorbs hE₂.proper hθ₃
  have hθ₁ := hE₂.absorbs hc₁ hθ₂
  obtain ⟨Δ, hinitType, hΔ⟩ := hinit.hasType henv hc h₁ hθ₁ hrel
  have hrel₁ := (hrel.extend hΔ).sound_apply hsane hθ₁
  rw [Env.apply_extend] at hrel₁
  have hrel₃ := hrel₁.sound_apply hinner₃ hθ₃
  have hcondType := hcond.hasType hinner hc₁ h₂ hθ₂ hrel₁
  rw [h₃.assign_eq hθ₃] at hcondType
  exact ⟨.empty, .forLoop src hinitType hcondType
    (hupdate.hasType (hinner₃.apply hE₃.proper) hE₃.proper h₄ hθ₄ hrel₃)
    (hbody.hasType (hinner₄.apply hE₄.proper) hE₄.proper h₅ hθ (hrel₃.sound_apply hinner₄ hθ₄)),
    .empty⟩

theorem letBind_sound {p : Pat} {src : Region} {init : Expr}
    (hname : "return" ∉ p.functionName init) (hinit : ExprSound init) :
    StmtSound (.letBind p init src) := by
  by_cases hvar : ∃ name patSrc, p = .var name patSrc
  · obtain ⟨name, patSrc, rfl⟩ := hvar
    refine letVar_sound (fun hlambda hn => hname ?_) hinit
    simp [Pat.functionName, hlambda, hn]
  · exact letPat_sound (fun name patSrc hp => hvar ⟨name, patSrc, hp⟩) hinit

/-- **Inference finds types of the phrase**, in programs that do not generalise `return`. -/
theorem program_sound :
    (∀ e : Expr, "return" ∉ e.functions → ExprSound e) ∧
    ∀ s : Stmt, "return" ∉ s.functions → StmtSound s := by
  refine Expr.induction_avoiding "return" ?block ?ifElse ?switch ?prim ?var ?str ?lambda ?call
    ?forLoop ?letBind ?expr ?ret
  case block => exact fun _ _ => block_sound
  case ifElse => exact fun _ _ _ _ => ifElse_sound
  case switch => exact fun _ _ _ => switch_sound
  case prim => exact fun _ _ => prim_sound
  case var => exact fun _ _ => var_sound
  case str => exact fun _ _ _ => str_sound
  case lambda => exact fun _ _ _ => lambda_sound
  case call => exact fun _ _ _ => call_sound
  case forLoop => exact fun _ _ _ _ _ => forLoop_sound
  case letBind => exact fun _ _ _ => letBind_sound
  case expr => exact fun _ _ => exprStmt_sound
  case ret => exact fun _ _ => ret_sound

end InferM

/-! ## Programs -/

/-- The schemes of a closed environment stand for their instances, whatever is assigned. -/
theorem Env.Closed.rel_sound {env : Env} (h : env.Closed) (θ : Assignment) :
    env.Rel (Scheme.Sound θ) env := by
  refine ⟨fun name => ?_, rfl⟩
  cases hs : env.scope.get? name with
  | none => exact .none
  | some s =>
    refine .some fun u hu => Scheme.isInstance_iff.mpr (hu.congr fun x hx => ?_)
    rw [h.free name s hs] at hx
    cases hx

/-- **Soundness**: the type that inference finds for a program is one of its types, and so is every
instance of it, provided that no function is bound to the name `return`. -/
theorem Infer.types_of_program_eq_ok {s : Stmt} (hs : "return" ∉ s.functions) {t : Ty}
    {trace : Trace} (h : Infer.program .builtin s = .ok (t, trace)) :
    s.Types .builtin t ∧ ∀ θ : Subst, s.Types .builtin (t.apply θ) := by
  have hclosed := Env.builtin_closed
  obtain ⟨r, c, hy, rfl⟩ := Infer.program_eq_ok_iff.mp ⟨trace, h⟩
  have hsound := InferM.program_sound.2 s hs
  obtain ⟨hE, -⟩ := hsound.evolves hclosed.sane Store.proper_initial hy
  have hinst : ∀ θ : Subst, s.Types .builtin ((r.ty.apply c.subst).apply θ) := by
    intro θ
    -- First the bindings, then the substitution: this absorbs the bindings, which are resolved.
    let η : Assignment := fun x => (c.subst.assignment x).assign θ.assignment
    have hη : η.Absorbs c.subst.assignment := fun x => by
      rw [← Ty.assign_assign, hE.proper.resolved.absorbs x]
    obtain ⟨Δ, hΔ, -⟩ := hsound.hasType hclosed.sane Store.proper_initial hy hη
      (hclosed.rel_sound η)
    rw [Ty.apply_eq_assign, Ty.apply_eq_assign, Ty.assign_assign]
    exact ⟨Δ, hΔ⟩
  refine ⟨?_, hinst⟩
  have := hinst .empty
  rwa [Ty.apply_empty] at this

/-- A function with a generalised identity in it: `(x) => { let id = (y) => y; return id(x) }`. -/
def identityUsed : Stmt :=
  let src : Region := ⟨0, none⟩
  .expr (.lambda [.var "x" src] (.block
    [.letBind (.var "id" src) (.lambda [.var "y" src] (.var "y" src) src) src,
      .ret (some (.call (.var "id" src) [.var "x" src] src)) src] src) src) src

set_option maxRecDepth 100000 in
theorem Infer.types_identityUsed :
    "return" ∉ identityUsed.functions ∧
      ∃ trace, Infer.program .builtin identityUsed = .ok (.fn [.var "b"] (.var "b"), trace) ∧
        identityUsed.Types .builtin (.fn [.var "b"] (.var "b")) ∧
        ∀ θ : Subst, identityUsed.Types .builtin (Ty.apply θ (.fn [.var "b"] (.var "b"))) := by
  have hs : "return" ∉ identityUsed.functions := by decide
  have hrun : (Infer.program .builtin identityUsed).map Prod.fst =
      .ok (.fn [.var "b"] (.var "b")) := by cbv
  obtain ⟨trace, h⟩ := Infer.exists_trace hrun
  exact ⟨hs, trace, h, Infer.types_of_program_eq_ok hs h⟩

/-! ## Functions that are called `return`

A `return` statement reads the type of its value off the scheme of the name, and that scheme is not
instantiated. If the scheme quantifies variables, these are bound like unknown types, and a binding
to one of them is captured where the scheme is substituted. -/

/-- A generalised function keeps the type of an outer variable that is its result. -/
theorem Env.eq_fn_of_isInstance_generalize {Γ : Env} {name : String} {ts : List Ty} {b u : Ty}
    (hb : Γ.lookup name = some (.mono b)) (hu : (Γ.generalize (.fn ts b)).IsInstance u) :
    ∃ ts', u = .fn ts' b := by
  obtain ⟨ρ, rfl⟩ := Scheme.isInstance_iff.mp hu
  refine ⟨_, (Ty.assign_fn ..).trans (congrArg _ (Ty.assign_eq_self fun x hx => if_neg ?_))⟩
  intro hv
  exact (mem_vars_generalize.mp hv).2 (mem_free.mpr ⟨name, _, hb, Scheme.mem_free_mono.mpr hx⟩)

/-- A function that returns an outer variable is bound at types with that variable's one only. -/
theorem Stmt.HasType.constant_inv {Γ : Env} {f x y : String} {b t : Ty} {Δ : Scope}
    {patSrc argSrc bodySrc funSrc src : Region} (hy : Γ.lookup y = some (.mono b))
    (hf : y ≠ f) (hret : y ≠ "return") (hx : y ≠ x)
    (h : Stmt.HasType Γ (.letBind (.var f patSrc)
      (.lambda [.var x argSrc] (.var y bodySrc) funSrc) src) t Δ) :
    ∃ s, Δ = .singleton f s ∧ ∀ u, s.IsInstance u → ∃ ts, u = .fn ts b := by
  cases h with
  | letPat _ hvar => exact absurd rfl (hvar f patSrc)
  | letVar _ _ hinit =>
    refine ⟨_, rfl, fun u hu => ?_⟩
    obtain ⟨ts, Δ, r, rfl, hargs, hbody⟩ := hinit.lambda_inv
    obtain ⟨a, _, Δ₁, Δ₂, rfl, rfl, harg, hrest⟩ := hargs.cons_inv
    obtain ⟨rfl, rfl⟩ := hrest.nil_inv
    obtain rfl := harg.var_inv
    obtain ⟨s, hs, hinst⟩ := hbody.var_inv
    obtain rfl : .mono b = s := by
      simpa [Env.lookup_extend, Dict.get?_union, Dict.get?_singleton, hf, hret, hx, hy] using hs
    obtain rfl := Scheme.isInstance_mono.mp hinst
    exact Env.eq_fn_of_isInstance_generalize hy hu

/-- A function that binds another one to the name `return` and calls it at the end:
`(z, q) => { let return = (x) => q; return z; ((g) => g(q))(z); return(1) }`. -/
def returnRebound : Stmt :=
  let src : Region := ⟨0, none⟩
  let z : Expr := .var "z" src
  let q : Expr := .var "q" src
  .expr (.lambda [.var "z" src, .var "q" src] (.block
    [.letBind (.var "return" src) (.lambda [.var "x" src] q src) src,
      .ret (some z) src,
      .expr (.call (.lambda [.var "g" src] (.call (.var "g" src) [q] src) src) [z] src) src,
      .expr (.call (.var "return" src) [.prim (.int 1) src] src) src] src) src) src

/-- The types of `returnRebound` end in the type of `q`. -/
theorem returnRebound_inv {t : Ty} (h : returnRebound.Types .builtin t) :
    ∃ a b, t = .fn [a, b] b := by
  obtain ⟨Δ, h⟩ := h
  obtain ⟨-, h⟩ := h.expr_inv
  obtain ⟨_, _, r, rfl, hargs, hbody⟩ := h.lambda_inv
  obtain ⟨a, _, _, _, rfl, rfl, hz, hargs⟩ := hargs.cons_inv
  obtain ⟨b, _, _, _, rfl, rfl, hq, hargs⟩ := hargs.cons_inv
  obtain ⟨rfl, rfl⟩ := hargs.nil_inv
  obtain rfl := hz.var_inv
  obtain rfl := hq.var_inv
  -- The function that is called `return` ends in the type of `q` wherever it is used.
  obtain ⟨_, _, hlet, hbody⟩ := hbody.block_inv.cons_inv
  have hlookup : ((Env.builtin.extend (.singleton "return" (.mono r))).extend
      ((Dict.singleton "z" (.mono a)).union ((Dict.singleton "q" (.mono b)).union .empty))).lookup
      "q" = some (.mono b) := by
    simp [Env.lookup_extend, Dict.get?_union, Dict.get?_singleton]
  obtain ⟨s, rfl, hs⟩ := hlet.constant_inv hlookup (by decide) (by decide) (by decide)
  -- The next two statements bind nothing, so it is the one that is called at the end.
  obtain ⟨_, _, hret, hbody⟩ := hbody.cons_inv
  obtain ⟨rfl, -⟩ := hret.ret_inv
  obtain ⟨_, _, happly, hbody⟩ := hbody.cons_inv
  obtain ⟨rfl, -⟩ := happly.expr_inv
  obtain ⟨_, _, hcall, hbody⟩ := hbody.cons_inv
  obtain rfl := hbody.nil_inv
  obtain ⟨-, hcall⟩ := hcall.expr_inv
  obtain ⟨_, htarget, -⟩ := hcall.call_inv
  obtain ⟨s', hs', hinst⟩ := htarget.var_inv
  obtain rfl : s = s' := by
    simpa [Env.lookup_extend, Dict.get?_union, Dict.get?_singleton] using hs'
  obtain ⟨ts, hts⟩ := hs _ hinst
  exact ⟨a, b, by rw [(Ty.fn.inj hts).2]⟩

set_option maxRecDepth 100000 in
/-- **A function that is called `return` makes inference unsound.** -/
theorem Infer.returnRebound_unsound :
    "return" ∈ returnRebound.functions ∧
      (∃ trace, Infer.program .builtin returnRebound =
        .ok (.fn [.fn [.var "f"] (.var "f"), .var "f"] .int, trace)) ∧
      ¬ returnRebound.Types .builtin (.fn [.fn [.var "f"] (.var "f"), .var "f"] .int) := by
  refine ⟨by decide, Infer.exists_trace (by cbv), fun h => ?_⟩
  obtain ⟨a, b, hab⟩ := returnRebound_inv h
  cases hab

end TypeTrace
