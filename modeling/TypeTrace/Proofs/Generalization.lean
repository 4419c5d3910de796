import TypeTrace.Proofs.Execution
import TypeTrace.Proofs.Instance
import TypeTrace.Proofs.Renaming

/-!
# Generalising and instantiating

A type is generalised over the variables that the environment does not mention, and instantiated with
new variables for these.  Doing one after the other renames: every generalised variable gets a name of its
own that was not in use, and all other variables stay.  New names are given out by number, in the order in
which the variables stand in the scheme, so different variables get different names as long as the scheme
lists none of them twice.

If the environment mentions nothing, all variables are renamed at once.  This is a renaming whatever the
names in use were, since substitution is simultaneous: a new name that the type also has as an old one is
renamed itself.

## Main results

* `Env.nodup_vars_generalize`: a generalised type lists no variable twice
* `InferM.instantiate_generalize`: instantiating a generalised type renames the generalised variables
-/

namespace TypeTrace

/-- A generalised type lists no variable twice. -/
theorem Env.nodup_vars_generalize (env : Env) (t : Ty) : (env.generalize t).vars.Nodup :=
  (Name.nodup_distinct t.occurrences).filter _

namespace InferM

theorem exec_instantiate (s : Scheme) (ctx : Context) :
    (exec (instantiate s) ctx).1 = .ok (s.body.apply (.fresh ctx.nextId s.vars)) := by
  obtain ⟨ctx', hfresh, -⟩ := exec_freshSubst s.vars ctx
  simp only [instantiate, exec_bind, hfresh, exec_pure]

/-- **Instantiating a generalised type renames the generalised variables.**  The scheme lists the variables
of the type that the environment does not mention, each once, and leaves those that it mentions free.  If
all variables of the type and of the environment were given out before, the instance is the type with
new and different names for the listed variables and for no others.  In an environment that binds nothing,
the instance differs from the type in the names of variables only, whichever names are in use. -/
theorem instantiate_generalize (ctx : Context) (env : Env) (t : Ty) :
    (env.generalize t).vars.Nodup ∧
    (∀ x, x ∈ (env.generalize t).vars ↔ x ∈ t.free ∧ x ∉ env.free) ∧
    (∀ x, x ∈ (env.generalize t).free ↔ x ∈ t.free ∧ x ∈ env.free) ∧
    ((∀ x ∈ t.free, x ∈ Name.issued ctx.nextId) → (∀ x ∈ env.free, x ∈ Name.issued ctx.nextId) →
      ∃ (ρ : Subst) (f : String → String),
        (exec (instantiate (env.generalize t)) ctx).1 = .ok (t.apply ρ) ∧
        Set.InjOn f {x | x ∈ (env.generalize t).vars} ∧
        (∀ x ∈ (env.generalize t).vars, ρ.get? x = some (.var (f x)) ∧
          f x ∉ Name.issued ctx.nextId ∧ f x ∉ t.free ∧ f x ∉ env.free) ∧
        (∀ x ∉ (env.generalize t).vars, ρ.get? x = none) ∧
        ∀ x ∈ env.free, (Ty.var x).apply ρ = .var x) ∧
    (env.scope = .empty →
      ∃ u, (exec (instantiate (env.generalize t)) ctx).1 = .ok u ∧ u.canonical = t.canonical) := by
  have hnodup := env.nodup_vars_generalize t
  have hvars (x : String) : x ∈ (env.generalize t).vars ↔ x ∈ t.free ∧ x ∉ env.free := by
    rw [Env.mem_vars_generalize, Ty.mem_free]
  refine ⟨hnodup, hvars, ?_, ?_, ?_⟩
  · intro x
    rw [Env.mem_free_generalize, Ty.mem_free]
  · intro ht henv
    refine ⟨.fresh ctx.nextId (env.generalize t).vars,
      Name.renumber ctx.nextId (env.generalize t).vars, exec_instantiate _ ctx,
      Name.renumber_injOn _ _, fun x hx => ?_, fun x hx => Subst.get?_fresh_of_notMem hx, fun x hx => ?_⟩
    · -- What was not given out before is neither in the type nor in the environment.
      have hnew := Name.renumber_notMem_issued (n := ctx.nextId) hx
      exact ⟨Subst.get?_fresh_of_mem hnodup hx, hnew, fun h => hnew (ht _ h), fun h => hnew (henv _ h)⟩
    · have hx' : x ∉ (env.generalize t).vars := fun h => ((hvars x).mp h).2 hx
      rw [Ty.apply, Subst.get?_fresh_of_notMem hx']
      rfl
  · intro hscope
    have hnone (x : String) : x ∉ env.free := by
      rw [Env.mem_free]
      rintro ⟨name, s, hlookup, -⟩
      rw [Env.lookup, hscope, Dict.get?_empty] at hlookup
      cases hlookup
    refine ⟨_, exec_instantiate _ ctx, ?_⟩
    rw [Ty.apply_fresh hnodup]
    refine Ty.canonical_rename ((Name.renumber_injOn _ _).mono fun x hx => ?_)
    exact (hvars x).mpr ⟨hx, hnone x⟩

/-- A type and an environment that share a variable. -/
def sharedTy : Ty := .fn [.var (Name.ofNat 0), .var (Name.ofNat 1)] (.var (Name.ofNat 2))

/-- The environment that binds a name to the variable that `sharedTy` shares with it. -/
def sharedEnv : Env := { scope := .singleton "x" (.mono (.var (Name.ofNat 0))) }

theorem instantiate_generalize_shared :
    (∀ x ∈ sharedTy.free, x ∈ Name.issued 3) ∧ (∀ x ∈ sharedEnv.free, x ∈ Name.issued 3) ∧
    ∃ (ρ : Subst) (f : String → String),
      (exec (instantiate (sharedEnv.generalize sharedTy)) { nextId := 3 }).1 = .ok (sharedTy.apply ρ) ∧
      Set.InjOn f {x | x ∈ (sharedEnv.generalize sharedTy).vars} ∧
      ∀ x ∈ sharedEnv.free, (Ty.var x).apply ρ = .var x := by
  have hty : ∀ x ∈ sharedTy.free, x ∈ Name.issued 3 := by
    intro x hx
    rw [Ty.mem_free, sharedTy, Ty.mem_occurrences_fn] at hx
    simp only [List.mem_cons, List.not_mem_nil, or_false, exists_eq_or_imp, exists_eq_left,
      Ty.mem_occurrences_var] at hx
    rcases hx with rfl | rfl | rfl
    all_goals exact Name.ofNat_mem_issued.mpr (by decide)
  have henv : ∀ x ∈ sharedEnv.free, x ∈ Name.issued 3 := by
    intro x hx
    obtain ⟨name, s, hlookup, hx⟩ := Env.mem_free.mp hx
    rw [Env.lookup, sharedEnv, Dict.get?_singleton] at hlookup
    split at hlookup
    · cases hlookup
      rw [Scheme.mem_free_mono, Ty.mem_occurrences_var] at hx
      exact hx ▸ Name.ofNat_mem_issued.mpr (by decide)
    · cases hlookup
  obtain ⟨-, -, -, hinstance, -⟩ := instantiate_generalize { nextId := 3 } sharedEnv sharedTy
  obtain ⟨ρ, f, hexec, hf, -, -, hfixed⟩ := hinstance hty henv
  exact ⟨hty, henv, ρ, f, hexec, hf, hfixed⟩

end InferM
end TypeTrace
