import Mathlib.Data.Set.Lattice
import TypeTrace.Env.Builtin
import TypeTrace.Proofs.Instance
import TypeTrace.Proofs.Rules
import TypeTrace.Proofs.Unification

/-!
# Live and dead variables

Substitutions act on schemes without renaming quantified variables, so a scheme would change its
meaning if a type that mentions a quantified variable were put in for a free one.  Inference never
does that, for a reason that spans the whole program: once a variable is generalised, nothing that
is still in use leads to it.  The environment does not mention it, or it would not have been
generalised; every use of the scheme has new variables in its place; and unification binds the
variables of the types that it is given to types over these variables.

So the variables that have been generalised are *dead*: a set of variables that only grows while a
block is read from left to right.  A variable is *live* if the bindings so far lead from it to no
dead variable, and everything that inference touches is live.

## Main definitions

* `Store.live`, `Store.Proper`: live variables, and stores that fit a set of dead ones
* `Store.Evolves`: later stores, with new variables and with bindings of live ones
* `Scope.Sane`, `Env.Sane`: free variables of schemes are live, and quantified ones are dead
* `Scope.Sealed`: what the program generalises is dead and stays unbound
* `Env.Closed`: nothing is free in schemes, and nothing is called `return`

## Main results

* `Store.Unifies.evolves`: unification of live types keeps to live variables
* `InferM.program_evolves`: so does inference
* `Env.builtin_closed`: the built-in environment is a place to start from
-/

namespace TypeTrace

/-- The variables of the type are in the set. -/
def Ty.Within (A : Set String) (t : Ty) : Prop := ∀ x ∈ t.occurrences, x ∈ A

namespace Ty.Within

variable {A B : Set String}

theorem mono {t : Ty} (h : t.Within A) (hAB : A ⊆ B) : t.Within B := fun x hx => hAB (h x hx)

theorem con (c : String) : (Ty.con c).Within A := fun x hx => by simp at hx

theorem var {x : String} (h : x ∈ A) : (Ty.var x).Within A := fun y hy => by
  rwa [mem_occurrences_var.mp hy]

theorem fn {args : List Ty} {result : Ty} (hargs : ∀ t ∈ args, t.Within A)
    (hresult : result.Within A) : (Ty.fn args result).Within A := fun x hx => by
  rcases mem_occurrences_fn.mp hx with hx | ⟨t, ht, hx⟩
  · exact hresult x hx
  · exact hargs t ht x hx

/-- New variables for some variables of a type are the only ones that come in. -/
theorem fresh {n : Nat} {vars : List String} {t : Ty} (hold : ∀ x ∈ t.occurrences, x ∉ vars → x ∈ A)
    (hnew : ∀ i, n ≤ i → i < n + vars.length → Name.ofNat i ∈ A) :
    (t.apply (.fresh n vars)).Within A := by
  intro z hz
  obtain ⟨x, hx, hz⟩ := mem_occurrences_apply.mp hz
  rcases Subst.get?_fresh n vars x with ⟨hmem, hget⟩ | ⟨i, hi, hvars, hget⟩
  · rw [Subst.assignment_of_get?_none hget, mem_occurrences_var] at hz
    exact hz ▸ hold x hx hmem
  · rw [Subst.assignment_of_get? hget, mem_occurrences_var] at hz
    have hlt := (List.getElem?_eq_some_iff.mp hvars).1
    exact hz ▸ hnew i hi (by omega)

end Ty.Within

/-! ## Stores -/

namespace Store

variable {D D' : Set String} {c c' c'' : Store}

/-- The names of the variables created so far. -/
def issued (c : Store) : Set String := Name.issued c.nextId

/-- The variables that the bindings lead to no dead variable. -/
def live (D : Set String) (c : Store) : Set String :=
  {x | x ∈ c.issued ∧ ∀ z ∈ (c.subst.assignment x).occurrences, z ∉ D}

/-- The bindings are resolved, and no variable is dead or bound or put in before it is created. -/
structure Proper (D : Set String) (c : Store) : Prop where
  resolved : c.subst.Resolved
  issued : ∀ x t, c.subst.get? x = some t → x ∈ c.issued ∧ t.Within c.issued
  dead : D ⊆ c.issued

/-- The second store is a later one: it has more variables, and bindings of variables that are not
dead, by types without dead variables. -/
structure Evolves (D : Set String) (c c' : Store) : Prop where
  proper : c'.Proper D
  le : c.nextId ≤ c'.nextId
  step : ∃ δ : Assignment, δ.LocalTo Dᶜ ∧
    ∀ x, c'.subst.assignment x = (c.subst.assignment x).assign δ

theorem live_anti (h : D ⊆ D') : c.live D' ⊆ c.live D :=
  fun _ hx => ⟨hx.1, fun z hz hzD => hx.2 z hz (h hzD)⟩

theorem Proper.anti (hc : c.Proper D') (h : D ⊆ D') : c.Proper D :=
  ⟨hc.resolved, hc.issued, h.trans hc.dead⟩

/-- What the bindings put in for a live variable is live and not bound. -/
theorem Proper.mem_live (hc : c.Proper D) {x z : String} (hx : x ∈ c.live D)
    (hz : z ∈ (c.subst.assignment x).occurrences) :
    z ∈ c.live D ∧ c.subst.assignment z = .var z := by
  have hself : c.subst.assignment z = .var z := by
    refine Subst.assignment_of_get?_none (hc.resolved.get?_eq_none (t := .var x) ?_)
    rwa [Ty.apply_eq_assign, Ty.assign_var]
  have hissued : z ∈ c.issued := by
    cases hget : c.subst.get? x with
    | none =>
      rw [Subst.assignment_of_get?_none hget, Ty.mem_occurrences_var] at hz
      exact hz ▸ hx.1
    | some t =>
      rw [Subst.assignment_of_get? hget] at hz
      exact (hc.issued x t hget).2 z hz
  refine ⟨⟨hissued, fun w hw => ?_⟩, hself⟩
  rw [hself, Ty.mem_occurrences_var] at hw
  exact hw ▸ hx.2 z hz

theorem Proper.within_apply (hc : c.Proper D) {t : Ty} (ht : t.Within (c.live D)) :
    (t.apply c.subst).Within (c.live D) := by
  intro z hz
  obtain ⟨x, hx, hz⟩ := Ty.mem_occurrences_apply.mp hz
  exact (hc.mem_live (ht x hx) hz).1

theorem not_dead_of_mem_apply {t : Ty} (ht : t.Within (c.live D)) {z : String}
    (hz : z ∈ (t.apply c.subst).occurrences) : z ∉ D := by
  obtain ⟨x, hx, hz⟩ := Ty.mem_occurrences_apply.mp hz
  exact (ht x hx).2 z hz

/-! ### Later stores -/

namespace Evolves

theorem refl (hc : c.Proper D) : c.Evolves D c :=
  ⟨hc, Nat.le_refl _, .var, .var _, fun _ => (Ty.assign_self _).symm⟩

theorem trans (h : c.Evolves D c') (h' : c'.Evolves D c'') : c.Evolves D c'' := by
  obtain ⟨δ, hδ, hstep⟩ := h.step
  obtain ⟨δ', hδ', hstep'⟩ := h'.step
  refine ⟨h'.proper, Nat.le_trans h.le h'.le, _, hδ.comp hδ', fun x => ?_⟩
  rw [hstep', hstep, Ty.assign_assign]

/-- With fewer dead variables more is allowed. -/
theorem anti (h : c.Evolves D' c') (hD : D ⊆ D') : c.Evolves D c' := by
  obtain ⟨δ, hδ, hstep⟩ := h.step
  exact ⟨h.proper.anti hD, h.le, δ, hδ.mono (Set.compl_subset_compl.mpr hD), hstep⟩

theorem issued_subset (h : c.Evolves D c') : c.issued ⊆ c'.issued := Name.issued_mono h.le

/-- Live variables stay alive. -/
theorem live_subset (h : c.Evolves D c') : c.live D ⊆ c'.live D := by
  intro x hx
  obtain ⟨δ, hδ, hstep⟩ := h.step
  refine ⟨h.issued_subset hx.1, fun z hz => ?_⟩
  rw [hstep] at hz
  exact hδ.mem_of_assign hx.2 z hz

/-- A dead variable that is not bound stays so. -/
theorem get?_eq_none (h : c.Evolves D c') {x : String} (hx : x ∈ D) (hfree : c.subst.get? x = none) :
    c'.subst.get? x = none := by
  obtain ⟨δ, hδ, hstep⟩ := h.step
  have hself : c'.subst.assignment x = .var x := by
    rw [hstep, Subst.assignment_of_get?_none hfree, Ty.assign_var]
    exact hδ.fixes x fun hn => hn hx
  refine h.proper.resolved.get?_eq_none (t := .var x) ?_
  rw [Ty.apply_eq_assign, Ty.assign_var, hself]
  exact Ty.mem_occurrences_var.mpr rfl

/-- What absorbs the later bindings absorbs the earlier ones. -/
theorem absorbs (h : c.Evolves D c') (hc : c.Proper D) {θ : Assignment}
    (hθ : θ.Absorbs c'.subst.assignment) : θ.Absorbs c.subst.assignment := by
  obtain ⟨δ, -, hstep⟩ := h.step
  exact .of_comp hc.resolved.absorbs (funext hstep ▸ hθ)

end Evolves

/-! ### New variables and unification -/

theorem Proper.skip (hc : c.Proper D) (n : Nat) : c.Evolves D (c.skip n) := by
  have hsub : c.issued ⊆ (c.skip n).issued := Name.issued_mono (Nat.le_add_right _ n)
  refine ⟨⟨hc.resolved, fun x t hx => ?_, hc.dead.trans hsub⟩, Nat.le_add_right _ n, .var, .var _,
    fun x => (Ty.assign_self _).symm⟩
  obtain ⟨hmem, ht⟩ := hc.issued x t hx
  exact ⟨hsub hmem, ht.mono hsub⟩

/-- New variables are live. -/
theorem Proper.ofNat_mem_live (hc : c.Proper D) {i n : Nat} (hi : c.nextId ≤ i)
    (hn : i < c.nextId + n) : Name.ofNat i ∈ (c.skip n).live D := by
  -- Bound variables and dead ones have been created before.
  have hnew : Name.ofNat i ∉ c.issued := fun h => Nat.not_lt.mpr hi (Name.ofNat_mem_issued.mp h)
  have hself : c.subst.assignment (Name.ofNat i) = .var (Name.ofNat i) :=
    Subst.assignment_of_get?_none <| Option.eq_none_iff_forall_not_mem.mpr fun t ht =>
      hnew (hc.issued _ t ht).1
  refine ⟨Name.ofNat_mem_issued.mpr hn, fun z hz hzD => hnew ?_⟩
  have hz' : z ∈ (c.subst.assignment (Name.ofNat i)).occurrences := hz
  rw [hself, Ty.mem_occurrences_var] at hz'
  exact hz' ▸ hc.dead hzD

theorem Proper.next_mem_live (hc : c.Proper D) : c.next ∈ (c.skip 1).live D :=
  hc.ofNat_mem_live (Nat.le_refl _) (Nat.lt_succ_self _)

/-- New variables for some variables of a type leave it live, if the others are. -/
theorem Proper.within_fresh (hc : c.Proper D) {vars : List String} {t : Ty}
    (ht : ∀ x ∈ t.occurrences, x ∉ vars → x ∈ c.live D) :
    (t.apply (.fresh c.nextId vars)).Within ((c.skip vars.length).live D) := by
  refine .fresh (fun x hx hmem => ?_) fun i hi hlt => hc.ofNat_mem_live hi hlt
  exact (hc.skip _).live_subset (ht x hx hmem)

/-- **Unification of live types keeps to live variables.** -/
theorem Unifies.evolves {one two : Ty} (h : c.Unifies one two c') (hc : c.Proper D)
    (hone : one.Within (c.live D)) (htwo : two.Within (c.live D)) : c.Evolves D c' := by
  obtain ⟨hn, d, hd, hcomp⟩ := h
  have hmg := Ty.unify_ok hd
  have hissued : c'.issued = c.issued := congrArg Name.issued hn
  -- The unifier only knows the variables of the two types, which are created and not dead.
  have hvars : ∀ x, x ∈ (one.apply c.subst).occurrences ∨ x ∈ (two.apply c.subst).occurrences →
      x ∈ c.issued ∧ x ∉ D := by
    rintro x (hx | hx)
    · exact ⟨(hc.within_apply hone x hx).1, not_dead_of_mem_apply hone hx⟩
    · exact ⟨(hc.within_apply htwo x hx).1, not_dead_of_mem_apply htwo hx⟩
  have hbound : ∀ x t, d.get? x = some t → x ∈ c.issued ∧ t.Within c.issued := by
    intro x t hx
    obtain ⟨hmem, ht⟩ := hmg.resolved.mem_of_localTo hmg.localTo hx
    exact ⟨(hvars x hmem).1, fun y hy => (hvars y (ht y hy)).1⟩
  refine ⟨⟨?resolved, ?issued, ?dead⟩, hn.ge, d.assignment, ?_, Subst.assignment_compose hcomp⟩
  case resolved =>
    obtain ⟨s, hs, hres⟩ := hmg.compose hc.resolved
    rw [hcomp] at hs
    cases hs
    exact hres
  case issued =>
    intro x t hx
    rw [hissued]
    rw [Subst.get?_compose hcomp] at hx
    rcases Option.or_eq_some_iff.mp hx with hx | ⟨-, hx⟩
    · exact hbound x t hx
    · obtain ⟨u, hu, rfl⟩ := Option.map_eq_some_iff.mp hx
      obtain ⟨hmem, hwithin⟩ := hc.issued x u hu
      refine ⟨hmem, fun z hz => ?_⟩
      obtain ⟨y, hy, hz⟩ := Ty.mem_occurrences_apply.mp hz
      cases hget : d.get? y with
      | none =>
        rw [Subst.assignment_of_get?_none hget, Ty.mem_occurrences_var] at hz
        exact hz ▸ hwithin y hy
      | some v =>
        rw [Subst.assignment_of_get? hget] at hz
        exact (hbound y v hget).2 z hz
  case dead =>
    rw [hissued]
    exact hc.dead
  · exact hmg.localTo.mono fun x hx => (hvars x hx).2

end Store

/-! ## Environments -/

/-- Free variables are live, and quantified ones are dead if there are any free ones. -/
structure Scheme.Sane (D : Set String) (c : Store) (s : Scheme) : Prop where
  live : ∀ y ∈ s.free, y ∈ c.live D
  dead : ∀ y ∈ s.free, ∀ x ∈ s.vars, x ∈ D

namespace Scheme.Sane

variable {D D' : Set String} {c c' : Store} {s : Scheme} {t : Ty}

theorem of_mono (ht : t.Within (c.live D)) : (mono t).Sane D c :=
  ⟨fun y hy => ht y (mem_free_mono.mp hy), fun _ _ _ hx => absurd hx List.not_mem_nil⟩

theorem within_body (h : s.Sane D c) (hvars : s.vars = []) : s.body.Within (c.live D) := by
  intro x hx
  refine h.live x (mem_free.mpr ⟨hx, ?_⟩)
  rw [hvars]
  exact List.not_mem_nil

/-- The bindings capture no quantified variable. -/
theorem not_captured (h : s.Sane D c) :
    ∀ y ∈ s.free, ∀ z ∈ (c.subst.assignment y).occurrences, z ∉ s.vars :=
  fun y hy z hz hv => (h.live y hy).2 z hz (h.dead y hy z hv)

theorem evolve (h : s.Sane D c) (hE : c.Evolves D c') : s.Sane D c' :=
  ⟨fun y hy => hE.live_subset (h.live y hy), h.dead⟩

theorem apply (h : s.Sane D c) (hc : c.Proper D) : (s.apply c.subst).Sane D c := by
  refine ⟨fun z hz => ?_, fun z hz => ?_⟩
  all_goals obtain ⟨-, y, hy, hz⟩ := mem_free_apply.mp hz
  · exact (hc.mem_live (h.live y hy) hz).1
  · exact h.dead y hy

/-- A scheme may be brought up to date before or after more variables die. -/
theorem of_apply (h : s.Sane D c) (hc : c.Proper D) (hE : c.Evolves D c') (hD : D ⊆ D')
    (h' : (s.apply c.subst).Sane D' c') : s.Sane D' c' := by
  refine ⟨fun y hy => ⟨hE.issued_subset (h.live y hy).1, fun z hz => ?_⟩,
    fun y hy x hx => hD (h.dead y hy x hx)⟩
  obtain ⟨δ, -, hstep⟩ := hE.step
  rw [hstep] at hz
  obtain ⟨w, hw, hz⟩ := Ty.mem_occurrences_assign.mp hz
  -- The old bindings lead from `y` to `w`, which is free in the scheme that is up to date.
  have hfree := h'.live w (mem_free_apply.mpr ⟨h.not_captured y hy w hw, y, hy, hw⟩)
  refine hfree.2 z ?_
  rwa [hstep, (hc.mem_live (h.live y hy) hw).2, Ty.assign_var]

end Scheme.Sane

/-- The schemes fit the dead variables, and `return` is not generalised. -/
def Scope.Sane (D : Set String) (c : Store) (scope : Scope) : Prop :=
  ∀ name s, scope.get? name = some s → s.Sane D c ∧ (name = "return" → s.vars = [])

namespace Scope.Sane

variable {D D' : Set String} {c c' : Store} {Δ Δ' : Scope}

theorem empty : Scope.Sane D c .empty := fun _ _ h => by simp at h

theorem singleton {name : String} {s : Scheme} (hs : s.Sane D c)
    (hname : name = "return" → s.vars = []) : Scope.Sane D c (.singleton name s) :=
  Scope.forall_singleton ⟨hs, hname⟩

theorem union (h : Scope.Sane D c Δ) (h' : Scope.Sane D c Δ') : Scope.Sane D c (Δ.union Δ') :=
  Scope.forall_union h h'

theorem evolve (h : Scope.Sane D c Δ) (hE : c.Evolves D c') : Scope.Sane D c' Δ :=
  fun name s hs => ⟨(h name s hs).1.evolve hE, (h name s hs).2⟩

theorem apply (h : Scope.Sane D c Δ) (hc : c.Proper D) :
    Scope.Sane D c (Scope.apply c.subst Δ) :=
  Scope.forall_apply fun name s hs => ⟨(h name s hs).1.apply hc, (h name s hs).2⟩

end Scope.Sane

/-- Nothing in the scope is generalised. -/
def Scope.Monomorphic (Δ : Scope) : Prop := ∀ name s, Δ.get? name = some s → s.vars = []

/-- What is generalised in the scope is dead and not bound. -/
def Scope.Sealed (D : Set String) (c : Store) (Δ : Scope) : Prop :=
  ∀ name s, Δ.get? name = some s → ∀ x ∈ s.vars, x ∈ D ∧ c.subst.get? x = none

namespace Scope.Monomorphic

variable {Δ Δ' : Scope}

theorem empty : Scope.Monomorphic .empty := fun _ _ h => by simp at h

theorem singleton (name : String) (t : Ty) : Scope.Monomorphic (.singleton name (.mono t)) :=
  Scope.forall_singleton rfl

theorem union (h : Scope.Monomorphic Δ) (h' : Scope.Monomorphic Δ') :
    Scope.Monomorphic (Δ.union Δ') :=
  Scope.forall_union h h'

theorem apply (h : Scope.Monomorphic Δ) (σ : Subst) : Scope.Monomorphic (Scope.apply σ Δ) :=
  Scope.forall_apply fun name s hs => h name s hs

theorem sealed (h : Scope.Monomorphic Δ) {D : Set String} {c : Store} : Scope.Sealed D c Δ :=
  fun name s hs x hx => by
    rw [h name s hs] at hx
    cases hx

end Scope.Monomorphic

namespace Scope.Sealed

variable {D D' : Set String} {c c' : Store} {Δ Δ' : Scope}

theorem union (h : Scope.Sealed D c Δ) (h' : Scope.Sealed D c Δ') : Scope.Sealed D c (Δ.union Δ') :=
  Scope.forall_union h h'

theorem evolve (h : Scope.Sealed D c Δ) (hE : c.Evolves D c') : Scope.Sealed D c' Δ :=
  fun name s hs x hx => ⟨(h name s hs x hx).1, hE.get?_eq_none (h name s hs x hx).1 (h name s hs x hx).2⟩

theorem mono (h : Scope.Sealed D c Δ) (hD : D ⊆ D') : Scope.Sealed D' c Δ :=
  fun name s hs x hx => ⟨hD (h name s hs x hx).1, (h name s hs x hx).2⟩

theorem apply (h : Scope.Sealed D c Δ) (σ : Subst) : Scope.Sealed D c (Scope.apply σ Δ) :=
  Scope.forall_apply fun name s hs => h name s hs

end Scope.Sealed

/-- Every variable of the constructor is one that uses instantiate. -/
def Constructor.Closed (con : Constructor) : Prop :=
  ∀ t ∈ con.result :: con.args, ∀ x ∈ t.occurrences, x ∈ con.free

/-- With new variables, a closed constructor is live. -/
theorem Constructor.Closed.within_fresh {con : Constructor} (h : con.Closed) {D : Set String}
    {c : Store} (hc : c.Proper D) :
    (con.result.apply (.fresh c.nextId con.free)).Within ((c.skip con.free.length).live D) ∧
    ∀ t ∈ con.args.map (Ty.apply (.fresh c.nextId con.free)),
      t.Within ((c.skip con.free.length).live D) := by
  have hfresh : ∀ t ∈ con.result :: con.args, (t.apply (.fresh c.nextId con.free)).Within
      ((c.skip con.free.length).live D) := fun t ht =>
    hc.within_fresh fun x hx hn => absurd (h t ht x hx) hn
  exact ⟨hfresh _ List.mem_cons_self,
    List.forall_mem_map.mpr fun t ht => hfresh t (List.mem_cons_of_mem _ ht)⟩

/-- The schemes fit the dead variables, and constructors are closed. -/
structure Env.Sane (D : Set String) (c : Store) (env : Env) : Prop where
  scope : Scope.Sane D c env.scope
  constructors : ∀ name con, env.constructors.get? name = some con → con.Closed

namespace Env.Sane

variable {D D' : Set String} {c c' : Store} {env : Env} {Δ : Scope} {t : Ty}

theorem extend (h : env.Sane D c) (hΔ : Scope.Sane D c Δ) : (env.extend Δ).Sane D c :=
  ⟨h.scope.union hΔ, h.constructors⟩

theorem evolve (h : env.Sane D c) (hE : c.Evolves D c') : env.Sane D c' :=
  ⟨h.scope.evolve hE, h.constructors⟩

theorem apply (h : env.Sane D c) (hc : c.Proper D) : (env.apply c.subst).Sane D c :=
  ⟨h.scope.apply hc, h.constructors⟩

/-- An environment may be brought up to date before or after more variables die. -/
theorem of_apply (h : env.Sane D c) (hc : c.Proper D) (hE : c.Evolves D c') (hD : D ⊆ D')
    (h' : ((env.apply c.subst).extend Δ).Sane D' c') : (env.extend Δ).Sane D' c' := by
  refine ⟨fun name s hs => ?_, h.constructors⟩
  have hlookup : ((env.apply c.subst).extend Δ).lookup name =
      (Δ.get? name).or ((env.lookup name).map (Scheme.apply c.subst)) := by
    rw [lookup_extend, lookup_apply]
  -- A scheme of the extension is up to date already; one of the environment is not.
  rcases Option.or_eq_some_iff.mp (lookup_extend.symm.trans hs) with hΔ | ⟨hΔ, henv⟩
  · exact h'.scope name s (by rwa [hΔ, Option.some_or] at hlookup)
  · rw [hΔ, henv, Option.none_or] at hlookup
    obtain ⟨hsane, hret⟩ := h'.scope name _ hlookup
    exact ⟨(h.scope name s henv).1.of_apply hc hE hD hsane, hret⟩

/-- What the bindings lead to from the environment is free in the environment that is up to date. -/
theorem mem_free_apply (h : env.Sane D c) {name : String} {s : Scheme}
    (hs : env.lookup name = some s) {y z : String} (hy : y ∈ s.free)
    (hz : z ∈ (c.subst.assignment y).occurrences) : z ∈ (env.apply c.subst).free := by
  refine mem_free.mpr ⟨name, s.apply c.subst, ?_, ?_⟩
  · rw [lookup_apply, hs, Option.map_some]
  · exact Scheme.mem_free_apply.mpr ⟨(h.scope name s hs).1.not_captured y hy z hz, y, hy, hz⟩

/-- **Generalising kills variables that nothing leads to**: the environment stays sane when the
variables that are generalised die. -/
theorem generalize (h : env.Sane D c) (hc : c.Proper D) (ht : t.Within (c.live D)) {name : String}
    (hname : name ≠ "return") :
    ∃ D', D ⊆ D' ∧ c.Proper D' ∧
      (env.extend (.singleton name ((env.apply c.subst).generalize (t.apply c.subst)))).Sane D' c ∧
      Scope.Sealed D' c (.singleton name ((env.apply c.subst).generalize (t.apply c.subst))) := by
  let S := (env.apply c.subst).generalize (t.apply c.subst)
  have hvars : ∀ x ∈ S.vars, x ∈ c.issued ∧ x ∉ (env.apply c.subst).free ∧ c.subst.get? x = none :=
    fun x hx => by
      obtain ⟨hocc, hfree⟩ := mem_vars_generalize.mp hx
      exact ⟨(hc.within_apply ht x hocc).1, hfree, hc.resolved.get?_eq_none hocc⟩
  let D' : Set String := D ∪ {x | x ∈ S.vars}
  -- The older schemes: a generalised variable is not free in the environment that is up to date,
  -- so nothing leads to it from there.
  have holder : Scope.Sane D' c env.scope := by
    intro name' s hs
    obtain ⟨hsane, hret⟩ := h.scope name' s hs
    refine ⟨⟨fun y hy => ⟨(hsane.live y hy).1, ?_⟩, fun y hy x hx => .inl (hsane.dead y hy x hx)⟩,
      hret⟩
    rintro z hz (hzD | hzS)
    · exact (hsane.live y hy).2 z hz hzD
    · exact (hvars z hzS).2.1 (h.mem_free_apply hs hy hz)
  -- The new scheme: its free variables are free in the environment as well.
  have hnew : S.Sane D' c := by
    refine ⟨fun y hy => ?_, fun y hy x hx => .inr hx⟩
    obtain ⟨hocc, hfree⟩ := mem_free_generalize.mp hy
    have hlive := hc.within_apply ht y hocc
    refine ⟨hlive.1, ?_⟩
    rintro z hz (hzD | hzS)
    · exact hlive.2 z hz hzD
    · -- A variable of the type that is up to date leads to itself only.
      have hself : c.subst.assignment y = .var y := by
        obtain ⟨x, hx, hy'⟩ := Ty.mem_occurrences_apply.mp hocc
        exact (hc.mem_live (ht x hx) hy').2
      rw [hself, Ty.mem_occurrences_var] at hz
      exact (hvars z hzS).2.1 (hz ▸ hfree)
  have hdead : D' ⊆ c.issued := Set.union_subset hc.dead fun x hx => (hvars x hx).1
  have hsealed : Scope.Sealed D' c (.singleton name S) :=
    Scope.forall_singleton fun x hx => ⟨.inr hx, (hvars x hx).2.2⟩
  exact ⟨D', Set.subset_union_left, ⟨hc.resolved, hc.issued, hdead⟩,
    ⟨holder.union (.singleton hnew fun hn => absurd hn hname), h.constructors⟩, hsealed⟩

end Env.Sane

theorem Scope.Sane.of_var {D : Set String} {c : Store} (name : String) {t : Ty}
    (ht : t.Within (c.live D)) : Scope.Sane D c (.singleton name (.mono t)) :=
  .singleton (.of_mono ht) fun _ => rfl

theorem Prim.within_ty (value : Prim) (A : Set String) : value.ty.Within A := by
  cases value <;> exact .con _

/-! ## Inference -/

namespace InferM

variable {D : Set String} {c c' : Store} {env : Env}

mutual

theorem pattern_evolves (p : Pat) {c c' : Store} {r : Ty × Scope} (henv : env.Sane D c)
    (hc : c.Proper D) (h : Yields (pattern env p) c r c') :
    c.Evolves D c' ∧ r.1.Within (c'.live D) ∧ Scope.Sane D c' r.2 := by
  cases p with
  | any src =>
    obtain ⟨rfl, rfl⟩ := yields_any.mp h
    exact ⟨hc.skip 1, .var hc.next_mem_live, .empty⟩
  | var name src =>
    obtain ⟨rfl, rfl⟩ := yields_patVar.mp h
    have hnew := Ty.Within.var hc.next_mem_live
    exact ⟨hc.skip 1, hnew, .of_var name hnew⟩
  | prim value src =>
    obtain ⟨rfl, rfl⟩ := yields_patPrim.mp h
    exact ⟨.refl hc, value.within_ty _, .empty⟩
  | str value src =>
    obtain ⟨rfl, rfl⟩ := yields_patStr.mp h
    exact ⟨.refl hc, .con _, .empty⟩
  | con name args src =>
    -- The variables of the constructor are created first, so the declared types are live.
    obtain ⟨con, scope, hcon, hlen, hfields, rfl⟩ := yields_patCon.mp h
    have hskip := hc.skip con.free.length
    obtain ⟨hresult, hargs⟩ := (henv.constructors name con hcon).within_fresh hc
    obtain ⟨hE, hscope⟩ := fields_evolves args (henv.evolve hskip) hskip.proper hargs .empty hfields
    exact ⟨hskip.trans hE, hE.proper.within_apply (hresult.mono hE.live_subset), hscope⟩

theorem fields_evolves (ps : List Pat) {c c' : Store} {declared : List Ty} {scope scope' : Scope}
    (henv : env.Sane D c) (hc : c.Proper D) (hdeclared : ∀ t ∈ declared, t.Within (c.live D))
    (hscope : Scope.Sane D c scope) (h : Yields (fields env declared scope ps) c scope' c') :
    c.Evolves D c' ∧ Scope.Sane D c' scope' := by
  cases ps with
  | nil =>
    obtain ⟨rfl, rfl⟩ := yields_fields_nil.mp h
    exact ⟨.refl hc, hscope⟩
  | cons p ps =>
    cases declared with
    | nil =>
      -- Patterns without a declared type are left out.
      rw [fields, yields_pure] at h
      obtain ⟨rfl, rfl⟩ := h
      exact ⟨.refl hc, hscope⟩
    | cons d ds =>
      obtain ⟨hd, hds⟩ := List.forall_mem_cons.mp hdeclared
      obtain ⟨ty, extra, c₁, c₂, hp, hunify, hps⟩ := yields_fields_cons.mp h
      obtain ⟨hE₁, hty, hextra⟩ := pattern_evolves p henv hc hp
      have hE₂ := hunify.evolves hE₁.proper hty (hd.mono hE₁.live_subset)
      have hE := hE₁.trans hE₂
      obtain ⟨hE₃, hscope'⟩ := fields_evolves ps (henv.evolve hE) hE.proper
        (fun t ht => (hds t ht).mono hE.live_subset)
        ((hscope.evolve hE).union (hextra.evolve hE₂)) hps
      exact ⟨hE.trans hE₃, hscope'⟩

end

theorem params_evolves {ps : List Pat} {scope : Scope} {r : List Ty × Scope}
    (henv : env.Sane D c) (hc : c.Proper D) (hscope : Scope.Sane D c scope)
    (h : Yields (params env scope ps) c r c') :
    c.Evolves D c' ∧ (∀ t ∈ r.1, t.Within (c'.live D)) ∧ Scope.Sane D c' r.2 := by
  induction ps generalizing c scope r with
  | nil =>
    obtain ⟨rfl, rfl⟩ := yields_params_nil.mp h
    exact ⟨.refl hc, fun t ht => absurd ht List.not_mem_nil, hscope⟩
  | cons p ps ih =>
    obtain ⟨ty, extra, c₁, tys, scope', hp, hps, rfl⟩ := yields_params_cons.mp h
    obtain ⟨hE₁, hty, hextra⟩ := pattern_evolves p henv hc hp
    obtain ⟨hE₂, htys, hscope'⟩ := ih (henv.evolve hE₁) hE₁.proper
      ((hscope.evolve hE₁).union (hextra.apply hE₁.proper)) hps
    refine ⟨hE₁.trans hE₂, List.forall_mem_cons.mpr ⟨hty.mono hE₂.live_subset, htys⟩, hscope'⟩

mutual

/-- Patterns generalise nothing. -/
theorem pattern_monomorphic (p : Pat) {c c' : Store} {r : Ty × Scope}
    (h : Yields (pattern env p) c r c') : Scope.Monomorphic r.2 := by
  cases p with
  | any src =>
    obtain ⟨rfl, -⟩ := yields_any.mp h
    exact .empty
  | var name src =>
    obtain ⟨rfl, -⟩ := yields_patVar.mp h
    exact .singleton name _
  | prim value src =>
    obtain ⟨rfl, -⟩ := yields_patPrim.mp h
    exact .empty
  | str value src =>
    obtain ⟨rfl, -⟩ := yields_patStr.mp h
    exact .empty
  | con name args src =>
    obtain ⟨con, scope, -, -, hfields, rfl⟩ := yields_patCon.mp h
    exact fields_monomorphic args .empty hfields

theorem fields_monomorphic (ps : List Pat) {c c' : Store} {declared : List Ty} {scope scope' : Scope}
    (hscope : Scope.Monomorphic scope) (h : Yields (fields env declared scope ps) c scope' c') :
    Scope.Monomorphic scope' := by
  cases ps with
  | nil =>
    obtain ⟨rfl, -⟩ := yields_fields_nil.mp h
    exact hscope
  | cons p ps =>
    cases declared with
    | nil =>
      rw [fields, yields_pure] at h
      exact h.1 ▸ hscope
    | cons d ds =>
      obtain ⟨ty, extra, c₁, c₂, hp, -, hps⟩ := yields_fields_cons.mp h
      exact fields_monomorphic ps (hscope.union (pattern_monomorphic p hp)) hps

end

theorem params_monomorphic {ps : List Pat} {scope : Scope} {r : List Ty × Scope}
    (hscope : Scope.Monomorphic scope) (h : Yields (params env scope ps) c r c') :
    Scope.Monomorphic r.2 := by
  induction ps generalizing c scope r with
  | nil =>
    obtain ⟨rfl, -⟩ := yields_params_nil.mp h
    exact hscope
  | cons p ps ih =>
    obtain ⟨ty, extra, c₁, tys, scope', hp, hps, rfl⟩ := yields_params_cons.mp h
    exact ih (r := (tys, scope')) (hscope.union ((pattern_monomorphic p hp).apply _)) hps

/-- What inference of an expression keeps: it touches live variables only, and finds a type over
live variables. -/
def ExprEvolves (e : Expr) : Prop :=
  ∀ {D : Set String} {c c' : Store} {env : Env} {t : Ty}, env.Sane D c → c.Proper D →
    Yields (expr env e) c t c' → c.Evolves D c' ∧ t.Within (c'.live D)

/-- What inference of a statement keeps: in addition, the environment with what the statement binds
is sane, though more variables may be dead by then. -/
def StmtEvolves (s : Stmt) : Prop :=
  ∀ {D : Set String} {c c' : Store} {env : Env} {r : StmtResult}, env.Sane D c → c.Proper D →
    Yields (stmt env s) c r c' → c.Evolves D c' ∧ ∃ D', D ⊆ D' ∧ c'.Proper D' ∧
      r.ty.Within (c'.live D') ∧ (env.extend (r.scope.getD .empty)).Sane D' c' ∧
      Scope.Sealed D' c' (r.scope.getD .empty)

theorem embedded_evolves {es : List Expr} (hes : ∀ e ∈ es, ExprEvolves e) (henv : env.Sane D c)
    (hc : c.Proper D) (h : Yields (embedded env es) c () c') : c.Evolves D c' := by
  induction es generalizing c with
  | nil =>
    obtain rfl := yields_embedded_nil.mp h
    exact .refl hc
  | cons e es ih =>
    obtain ⟨he, hes⟩ := List.forall_mem_cons.mp hes
    obtain ⟨t, c₁, h₁, h₂⟩ := yields_embedded_cons.mp h
    obtain ⟨hE, -⟩ := he (henv.apply hc) hc h₁
    exact hE.trans (ih hes (henv.evolve hE) hE.proper h₂)

theorem exprs_evolves {es : List Expr} {ts : List Ty} (hes : ∀ e ∈ es, ExprEvolves e)
    (henv : env.Sane D c) (hc : c.Proper D) (h : Yields (exprs env es) c ts c') :
    c.Evolves D c' ∧ ∀ t ∈ ts, t.Within (c'.live D) := by
  induction es generalizing c ts with
  | nil =>
    obtain ⟨rfl, rfl⟩ := yields_exprs_nil.mp h
    exact ⟨.refl hc, fun t ht => absurd ht List.not_mem_nil⟩
  | cons e es ih =>
    obtain ⟨he, hes⟩ := List.forall_mem_cons.mp hes
    obtain ⟨t, c₁, ts', h₁, h₂, rfl⟩ := yields_exprs_cons.mp h
    obtain ⟨hE₁, ht⟩ := he (henv.apply hc) hc h₁
    obtain ⟨hE₂, hts⟩ := ih hes (henv.evolve hE₁) hE₁.proper h₂
    exact ⟨hE₁.trans hE₂, List.forall_mem_cons.mpr ⟨ht.mono hE₂.live_subset, hts⟩⟩

theorem otherwise_evolves {no : Option Expr} {t : Ty} (hno : ∀ e ∈ no, ExprEvolves e)
    (henv : env.Sane D c) (hc : c.Proper D) (h : Yields (otherwise env no) c t c') :
    c.Evolves D c' ∧ t.Within (c'.live D) := by
  cases no with
  | none =>
    obtain ⟨rfl, rfl⟩ := yields_otherwise_none.mp h
    exact ⟨.refl hc, .con _⟩
  | some e => exact hno e rfl (henv.apply hc) hc (yields_otherwise_some.mp h)

theorem returned_evolves {value : Option Expr} {t : Ty} (hvalue : ∀ e ∈ value, ExprEvolves e)
    (henv : env.Sane D c) (hc : c.Proper D) (h : Yields (returned env value) c t c') :
    c.Evolves D c' ∧ t.Within (c'.live D) := by
  cases value with
  | none =>
    obtain ⟨rfl, rfl⟩ := yields_returned_none.mp h
    exact ⟨.refl hc, .con _⟩
  | some e => exact hvalue e rfl henv hc (yields_returned_some.mp h)

theorem cases_evolves {targetTy result : Ty} {cs : List Case}
    (hcs : ∀ p e, Case.mk p e ∈ cs → ExprEvolves e) (henv : env.Sane D c) (hc : c.Proper D)
    (htarget : targetTy.Within (c.live D)) (hresult : result.Within (c.live D))
    (h : Yields (cases env targetTy result cs) c () c') : c.Evolves D c' := by
  induction cs generalizing c with
  | nil =>
    obtain rfl := yields_cases_nil.mp h
    exact .refl hc
  | cons first cs ih =>
    obtain ⟨p, e⟩ := first
    obtain ⟨patTy, scope, c₁, c₂, bodyTy, c₃, c₄, hp, hunify, he, hunify', hrest⟩ :=
      yields_cases_cons.mp h
    obtain ⟨hE₁, hpat, hscope⟩ := pattern_evolves p henv hc hp
    have hE₂ := hunify.evolves hE₁.proper hpat (htarget.mono hE₁.live_subset)
    have hE₁₂ := hE₁.trans hE₂
    -- The body is inferred with the bindings of the pattern, after the pattern has met the target.
    obtain ⟨hE₃, hbody⟩ := hcs p e List.mem_cons_self
      (((henv.evolve hE₁₂).apply hE₂.proper).extend ((hscope.evolve hE₂).apply hE₂.proper))
      hE₂.proper he
    have hE₁₃ := hE₁₂.trans hE₃
    have hE₄ := hunify'.evolves hE₃.proper
      (hE₃.proper.within_apply (hresult.mono hE₁₃.live_subset)) hbody
    have hE := hE₁₃.trans hE₄
    exact hE.trans (ih (fun p e he => hcs p e (List.mem_cons_of_mem _ he)) (henv.evolve hE)
      hE.proper (htarget.mono hE.live_subset) (hresult.mono hE.live_subset) hrest)

/-- The statements of a block, from left to right: the set of dead variables grows with every
statement, and what is dead at the end is of no concern outside. -/
theorem stmts_evolves {scope : Scope} {last t : Ty} {ss : List Stmt} (hss : ∀ s ∈ ss, StmtEvolves s)
    (henv : (env.extend scope).Sane D c) (hc : c.Proper D) (hlast : last.Within (c.live D))
    (h : Yields (stmts env scope last ss) c t c') : c.Evolves D c' ∧ t.Within (c'.live D) := by
  induction ss generalizing D c scope last with
  | nil =>
    obtain ⟨rfl, rfl⟩ := yields_stmts_nil.mp h
    exact ⟨.refl hc, hc.within_apply hlast⟩
  | cons s ss ih =>
    obtain ⟨hs, hss⟩ := List.forall_mem_cons.mp hss
    obtain ⟨r, c₁, h₁, h₂⟩ := yields_stmts_cons.mp h
    rw [← Env.apply_extend] at h₁
    obtain ⟨hE₁, D', hD, hc₁, hty, hsane, -⟩ := hs (henv.apply hc) hc h₁
    have henv₁ := henv.of_apply hc hE₁ hD hsane
    rw [Env.extend_extend] at henv₁
    obtain ⟨hE₂, ht⟩ := ih hss henv₁ hc₁ hty h₂
    exact ⟨hE₁.trans (hE₂.anti hD), ht.mono (Store.live_anti hD)⟩

theorem prim_evolves {value : Prim} {src : Region} :
    ExprEvolves (.prim value src) := by
  intro D c c' env t henv hc h
  obtain ⟨rfl, rfl⟩ := yields_prim.mp h
  exact ⟨.refl hc, value.within_ty _⟩

theorem var_evolves {name : String} {src : Region} :
    ExprEvolves (.var name src) := by
  intro D c c' env t henv hc h
  obtain ⟨s, hs, rfl, rfl⟩ := yields_var.mp h
  refine ⟨hc.skip _, hc.within_fresh fun x hx hn => ?_⟩
  exact (henv.scope name s hs).1.live x (Scheme.mem_free.mpr ⟨hx, hn⟩)

theorem str_evolves {value : String} {embeds : List Expr} {src : Region}
    (hembeds : ∀ e ∈ embeds, ExprEvolves e) :
    ExprEvolves (.str value embeds src) := by
  intro D c c' env t henv hc h
  obtain ⟨rfl, h₁⟩ := yields_str.mp h
  exact ⟨embedded_evolves hembeds henv hc h₁, .con _⟩

theorem block_evolves {ss : List Stmt} {src : Region} (hss : ∀ s ∈ ss, StmtEvolves s) :
    ExprEvolves (.block ss src) := by
  intro D c c' env t henv hc h
  exact stmts_evolves hss (henv.extend .empty) hc (.con _) (yields_block.mp h)

theorem lambda_evolves {args : List Pat} {body : Expr} {src : Region} (hbody : ExprEvolves body) :
    ExprEvolves (.lambda args body src) := by
  intro D c c' env t henv hc h
  obtain ⟨-, tys, scope, c₁, bodyTy, c₂, h₁, h₂, h₃, rfl⟩ := yields_lambda.mp h
  have hskip := hc.skip 1
  have hret := Ty.Within.var hc.next_mem_live
  obtain ⟨hE₁, htys, hscope⟩ :=
    params_evolves (henv.evolve hskip) hskip.proper (.of_var "return" hret) h₁
  have hE₀₁ := hskip.trans hE₁
  -- The body sees the parameters in the environment from before they were inferred.
  obtain ⟨hE₂, hbodyTy⟩ := hbody ((henv.evolve hE₀₁).extend hscope) hE₁.proper h₂
  have hE₁₂ := hE₁.trans hE₂
  have hE₃ := h₃.evolves hE₂.proper hbodyTy
    (hE₂.proper.within_apply (hret.mono hE₁₂.live_subset))
  have hE₂₃ := hE₂.trans hE₃
  refine ⟨hE₀₁.trans hE₂₃, .fn (List.forall_mem_map.mpr fun t ht => ?_) ?_⟩
  · exact hE₃.proper.within_apply ((htys t ht).mono hE₂₃.live_subset)
  · exact hE₃.proper.within_apply (hbodyTy.mono hE₃.live_subset)

theorem call_evolves {target : Expr} {args : List Expr} {src : Region}
    (htarget : ExprEvolves target) (hargs : ∀ e ∈ args, ExprEvolves e) :
    ExprEvolves (.call target args src) := by
  intro D c c' env t henv hc h
  obtain ⟨-, targetTy, c₁, argTys, c₂, h₁, h₂, h₃, rfl⟩ := yields_call.mp h
  have hskip := hc.skip 1
  obtain ⟨hE₁, htargetTy⟩ := htarget (henv.evolve hskip) hskip.proper h₁
  have hE₀₁ := hskip.trans hE₁
  obtain ⟨hE₂, hargTys⟩ := exprs_evolves hargs (henv.evolve hE₀₁) hE₁.proper h₂
  have hnew := (Ty.Within.var hc.next_mem_live).mono (hE₁.trans hE₂).live_subset
  have hE₃ := h₃.evolves hE₂.proper
    (hE₂.proper.within_apply (htargetTy.mono hE₂.live_subset)) (.fn hargTys hnew)
  exact ⟨(hE₀₁.trans hE₂).trans hE₃, hE₃.proper.within_apply (hnew.mono hE₃.live_subset)⟩

theorem ifElse_evolves {cond yes : Expr} {no : Option Expr} {src : Region}
    (hcond : ExprEvolves cond) (hyes : ExprEvolves yes) (hno : ∀ e ∈ no, ExprEvolves e) :
    ExprEvolves (.ifElse cond yes no src) := by
  intro D c c' env t henv hc h
  obtain ⟨condTy, c₁, c₂, yesTy, c₃, noTy, c₄, h₁, h₂, h₃, h₄, h₅, rfl⟩ := yields_ifElse.mp h
  obtain ⟨hE₁, hcondTy⟩ := hcond henv hc h₁
  have hE₂ := hE₁.trans (h₂.evolves hE₁.proper hcondTy (.con _))
  obtain ⟨hE₃, hyesTy⟩ := hyes ((henv.evolve hE₂).apply hE₂.proper) hE₂.proper h₃
  have hE₂₃ := hE₂.trans hE₃
  obtain ⟨hE₄, hnoTy⟩ := otherwise_evolves hno (henv.evolve hE₂₃) hE₃.proper h₄
  have hyesTy' := hyesTy.mono hE₄.live_subset
  have hE₅ := h₅.evolves hE₄.proper hyesTy' hnoTy
  exact ⟨(hE₂₃.trans hE₄).trans hE₅, hE₅.proper.within_apply (hyesTy'.mono hE₅.live_subset)⟩

theorem switch_evolves {target : Expr} {cs : List Case} {src : Region}
    (htarget : ExprEvolves target) (hcs : ∀ p e, Case.mk p e ∈ cs → ExprEvolves e) :
    ExprEvolves (.switch target cs src) := by
  intro D c c' env t henv hc h
  obtain ⟨targetTy, c₁, h₁, h₂, rfl⟩ := yields_switch.mp h
  obtain ⟨hE₁, htargetTy⟩ := htarget henv hc h₁
  have hskip := hE₁.proper.skip 1
  have hnew := Ty.Within.var hE₁.proper.next_mem_live
  have hE₂ := cases_evolves hcs (henv.evolve (hE₁.trans hskip)) hskip.proper
    (htargetTy.mono hskip.live_subset) hnew h₂
  exact ⟨(hE₁.trans hskip).trans hE₂, hE₂.proper.within_apply (hnew.mono hE₂.live_subset)⟩

theorem exprStmt_evolves {e : Expr} {src : Region} (he : ExprEvolves e) :
    StmtEvolves (.expr e src) := by
  intro D c c' env r henv hc h
  obtain ⟨t, h₁, rfl⟩ := yields_exprStmt.mp h
  obtain ⟨hE, ht⟩ := he henv hc h₁
  exact ⟨hE, D, subset_rfl, hE.proper, ht, henv.evolve hE, Scope.Monomorphic.empty.sealed⟩

theorem ret_evolves {value : Option Expr} {src : Region} (hvalue : ∀ e ∈ value, ExprEvolves e) :
    StmtEvolves (.ret value src) := by
  intro D c c' env r henv hc h
  obtain ⟨s, found, c₁, hs, h₁, h₂, rfl⟩ := yields_ret.mp h
  obtain ⟨hsane, hmono⟩ := henv.scope "return" s hs
  have hskip := hc.skip 1
  obtain ⟨hE₁, hfound⟩ := returned_evolves hvalue (henv.evolve hskip) hskip.proper h₁
  have hE₀₁ := hskip.trans hE₁
  -- The scheme of `return` is not instantiated, so its body has to be live as it stands.
  have hbody := hsane.within_body (hmono rfl)
  have hE₂ := h₂.evolves hE₁.proper (hbody.mono hE₀₁.live_subset) hfound
  have hnew := (Ty.Within.var hc.next_mem_live).mono (hE₁.trans hE₂).live_subset
  have hE := hE₀₁.trans hE₂
  exact ⟨hE, D, subset_rfl, hE.proper, hnew, henv.evolve hE, Scope.Monomorphic.empty.sealed⟩

theorem letVar_evolves {name : String} {patSrc src : Region} {init : Expr}
    (hname : init.isLambda → name ≠ "return") (hinit : ExprEvolves init) :
    StmtEvolves (.letBind (.var name patSrc) init src) := by
  intro D c c' env r henv hc h
  obtain ⟨value, c₁, h₁, h₂, rfl⟩ := yields_letVar.mp h
  have hskip := hc.skip 1
  have hnew := Ty.Within.var hc.next_mem_live
  obtain ⟨hE₁, hvalue⟩ := hinit ((henv.evolve hskip).extend (.of_var name hnew)) hskip.proper h₁
  have hE₂ := h₂.evolves hE₁.proper (hE₁.proper.within_apply (hnew.mono hE₁.live_subset)) hvalue
  have hE := (hskip.trans hE₁).trans hE₂
  have hvalue' := hvalue.mono hE₂.live_subset
  refine ⟨hE, ?_⟩
  -- This is where variables die: those that a function is generalised over.
  by_cases hlambda : init.isLambda
  · obtain ⟨D', hD, hc', hsane⟩ := (henv.evolve hE).generalize hE.proper hvalue' (hname hlambda)
    exact ⟨D', hD, hc', .con _, by simpa [hlambda] using hsane⟩
  · refine ⟨D, subset_rfl, hE.proper, .con _, ?_⟩
    have hsane := (henv.evolve hE).extend (.of_var name (hE.proper.within_apply hvalue'))
    simpa [hlambda] using And.intro hsane (Scope.Monomorphic.singleton name _).sealed

theorem letPat_evolves {p : Pat} {src : Region} {init : Expr}
    (hp : ∀ name patSrc, p ≠ .var name patSrc) (hinit : ExprEvolves init) :
    StmtEvolves (.letBind p init src) := by
  intro D c c' env r henv hc h
  obtain ⟨patTy, scope, c₁, value, c₂, h₁, h₂, h₃, rfl⟩ := (yields_letPat hp).mp h
  obtain ⟨hE₁, hpat, hscope⟩ := pattern_evolves p henv hc h₁
  obtain ⟨hE₂, hvalue⟩ := hinit (henv.evolve hE₁) hE₁.proper h₂
  have hE₃ := h₃.evolves hE₂.proper (hpat.mono hE₂.live_subset) hvalue
  have hE₂₃ := hE₂.trans hE₃
  have hE := hE₁.trans hE₂₃
  exact ⟨hE, D, subset_rfl, hE.proper, .con _,
    (henv.evolve hE).extend ((hscope.evolve hE₂₃).apply hE.proper),
    ((pattern_monomorphic p h₁).apply _).sealed⟩

theorem letBind_evolves {p : Pat} {src : Region} {init : Expr}
    (hname : "return" ∉ p.functionName init) (hinit : ExprEvolves init) :
    StmtEvolves (.letBind p init src) := by
  by_cases hvar : ∃ name patSrc, p = .var name patSrc
  · obtain ⟨name, patSrc, rfl⟩ := hvar
    refine letVar_evolves (fun hlambda hn => hname ?_) hinit
    simp [Pat.functionName, hlambda, hn]
  · exact letPat_evolves (fun name patSrc hp => hvar ⟨name, patSrc, hp⟩) hinit

theorem forLoop_evolves {init : Stmt} {cond update body : Expr} {src : Region}
    (hinit : StmtEvolves init) (hcond : ExprEvolves cond) (hupdate : ExprEvolves update)
    (hbody : ExprEvolves body) :
    StmtEvolves (.forLoop init cond update body src) := by
  intro D c c' env r henv hc h
  obtain ⟨first, c₁, condTy, c₂, c₃, updateTy, c₄, bodyTy, h₁, h₂, h₃, h₄, h₅, rfl⟩ :=
    yields_forLoop.mp h
  obtain ⟨hE₁, D', hD, hc₁, -, hsane, -⟩ := hinit henv hc h₁
  have hinner := hsane.apply hc₁
  rw [Env.apply_extend] at hinner
  obtain ⟨hE₂, hcondTy⟩ := hcond hinner hc₁ h₂
  have hE₃ := hE₂.trans (h₃.evolves hE₂.proper hcondTy (.con _))
  have hinner₃ := (hinner.evolve hE₃).apply hE₃.proper
  obtain ⟨hE₄, -⟩ := hupdate hinner₃ hE₃.proper h₄
  obtain ⟨hE₅, -⟩ := hbody ((hinner₃.evolve hE₄).apply hE₄.proper) hE₄.proper h₅
  -- What died in the first statement need not be dead after the loop.
  have hE := hE₁.trans (((hE₃.trans hE₄).trans hE₅).anti hD)
  exact ⟨hE, D, subset_rfl, hE.proper, .con _, henv.evolve hE, Scope.Monomorphic.empty.sealed⟩

/-- **Inference keeps to live variables**, in programs that do not generalise `return`. -/
theorem program_evolves :
    (∀ e : Expr, "return" ∉ e.functions → ExprEvolves e) ∧
    ∀ s : Stmt, "return" ∉ s.functions → StmtEvolves s := by
  refine Expr.induction_avoiding "return" ?block ?ifElse ?switch ?prim ?var ?str ?lambda ?call
    ?forLoop ?letBind ?expr ?ret
  case block => exact fun _ _ => block_evolves
  case ifElse => exact fun _ _ _ _ => ifElse_evolves
  case switch => exact fun _ _ _ => switch_evolves
  case prim => exact fun _ _ => prim_evolves
  case var => exact fun _ _ => var_evolves
  case str => exact fun _ _ _ => str_evolves
  case lambda => exact fun _ _ _ => lambda_evolves
  case call => exact fun _ _ _ => call_evolves
  case forLoop => exact fun _ _ _ _ _ => forLoop_evolves
  case letBind => exact fun _ _ _ => letBind_evolves
  case expr => exact fun _ _ => exprStmt_evolves
  case ret => exact fun _ _ => ret_evolves

end InferM

/-! ## Closed environments -/

/-- Nothing in the environment depends on unknown types, and nothing is called `return`. -/
structure Env.Closed (env : Env) : Prop where
  free : ∀ name s, env.lookup name = some s → s.free = []
  returns : env.lookup "return" = none
  constructors : ∀ name con, env.constructors.get? name = some con → con.Closed

theorem Env.builtin_closed : Env.builtin.Closed := by
  have hvalues : ∀ e ∈ builtin.scope.entries, e.2.free = [] := by decide
  have hcons : ∀ e ∈ builtin.constructors.entries,
      ∀ t ∈ e.2.result :: e.2.args, ∀ x ∈ t.occurrences, x ∈ e.2.free := by decide
  exact ⟨fun name s hs => hvalues (name, s) ((Dict.mem_entries_iff _ name s).mpr hs), by decide,
    fun name con hcon => hcons (name, con) ((Dict.mem_entries_iff _ name con).mpr hcon)⟩

/-- A closed environment is sane at the start of a program. -/
theorem Env.Closed.sane {env : Env} (h : env.Closed) : env.Sane ∅ .initial := by
  refine ⟨fun name s hs => ⟨⟨fun y hy => ?_, fun y hy => ?_⟩, ?_⟩, h.constructors⟩
  · rw [h.free name s hs] at hy
    cases hy
  · rw [h.free name s hs] at hy
    cases hy
  · rintro rfl
    cases h.returns.symm.trans hs

theorem Store.proper_initial : Store.initial.Proper ∅ :=
  ⟨Subst.resolved_empty, fun x t hx => by simp [initial] at hx, Set.empty_subset _⟩

end TypeTrace
