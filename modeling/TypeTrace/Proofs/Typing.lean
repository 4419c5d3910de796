import TypeTrace.Infer.Pattern

/-!
# Typing rules

Which types a phrase has, as rules that say nothing about how a type is found.  A variable has every
instance of its scheme.  The parameters of a function are bound in its body together with the type
of its result, which stands under the name `return`, and a `return` statement itself has every
type.  Statements bind names for the statements after them; a function that `let` binds to a name
is generalised, over the type variables that the environment does not mention, and is typed with
the name at one type.

A phrase has many types.  That inference finds only types of a phrase, and finds one of which all
others are instances, is stated against these rules.

## Main definitions

* `Scheme.IsInstance`: the types that a scheme stands for
* `Pat.HasType`: the types of patterns, and what they bind
* `Expr.HasType`, `Stmt.HasType`: the types of expressions, and of statements with what they bind

## Main results

* `Expr.HasType.lambda_inv`, `Expr.HasType.ifElse_inv`, `Stmt.HasType.ret_inv`, …: what a
  derivation for a construct is made of
-/

namespace TypeTrace

/-- The type is the body of the scheme with types put in for quantified variables. -/
def Scheme.IsInstance (s : Scheme) (t : Ty) : Prop :=
  ∃ ρ : Subst, (∀ x ∈ ρ.keys, x ∈ s.vars) ∧ t = s.body.apply ρ

mutual

/-- In `Γ` the pattern matches values of the type, and binds the scope. -/
inductive Pat.HasType (Γ : Env) : Pat → Ty → Scope → Prop
  | any (t : Ty) (src : Region) : Pat.HasType Γ (.any src) t .empty
  | var (name : String) (t : Ty) (src : Region) :
    Pat.HasType Γ (.var name src) t (.singleton name (.mono t))
  | prim (value : Prim) (src : Region) : Pat.HasType Γ (.prim value src) value.ty .empty
  | str (value : String) (src : Region) : Pat.HasType Γ (.str value src) .string .empty
  /-- The fields have the declared types, for some types of the constructor's own variables. -/
  | con {name : String} {con : Constructor} {args : List Pat} {Δ : Scope} (src : Region) (ρ : Subst)
    (hcon : Γ.constructors.get? name = some con) (hρ : ∀ x ∈ ρ.keys, x ∈ con.free)
    (hargs : Pat.HaveTypes Γ args (con.args.map (Ty.apply ρ)) Δ) :
    Pat.HasType Γ (.con name args src) (con.result.apply ρ) Δ

/-- In `Γ` the patterns match values of the types, and together bind the scope; of two bindings of
one name the later one counts. -/
inductive Pat.HaveTypes (Γ : Env) : List Pat → List Ty → Scope → Prop
  | nil : Pat.HaveTypes Γ [] [] .empty
  | cons {p : Pat} {ps : List Pat} {t : Ty} {ts : List Ty} {Δ Δ' : Scope}
    (hp : Pat.HasType Γ p t Δ) (hps : Pat.HaveTypes Γ ps ts Δ') :
    Pat.HaveTypes Γ (p :: ps) (t :: ts) (Δ.union Δ')

end

mutual

/-- In `Γ` the expression has the type. -/
inductive Expr.HasType : Env → Expr → Ty → Prop
  | prim (Γ : Env) (value : Prim) (src : Region) : Expr.HasType Γ (.prim value src) value.ty
  /-- The embedded expressions may have any types. -/
  | str {Γ : Env} {embeds : List Expr} {ts : List Ty} (value : String) (src : Region)
    (hembeds : Expr.HaveTypes Γ embeds ts) : Expr.HasType Γ (.str value embeds src) .string
  | var {Γ : Env} {name : String} {s : Scheme} {t : Ty} (src : Region)
    (hlookup : Γ.lookup name = some s) (hinst : s.IsInstance t) :
    Expr.HasType Γ (.var name src) t
  | block {Γ : Env} {ss : List Stmt} {t : Ty} (src : Region)
    (hbody : Stmt.BlockHasType Γ .void ss t) : Expr.HasType Γ (.block ss src) t
  /-- The body sees the type of the result as `return`, and then the parameters. -/
  | lambda {Γ : Env} {args : List Pat} {ts : List Ty} {Δ : Scope} {body : Expr} {r : Ty}
    (src : Region) (hne : args ≠ []) (hargs : Pat.HaveTypes Γ args ts Δ)
    (hbody : Expr.HasType ((Γ.extend (.singleton "return" (.mono r))).extend Δ) body r) :
    Expr.HasType Γ (.lambda args body src) (.fn ts r)
  | call {Γ : Env} {target : Expr} {args : List Expr} {ts : List Ty} {t : Ty} (src : Region)
    (hne : args ≠ []) (htarget : Expr.HasType Γ target (.fn ts t))
    (hargs : Expr.HaveTypes Γ args ts) : Expr.HasType Γ (.call target args src) t
  | ifElse {Γ : Env} {cond yes no : Expr} {t : Ty} (src : Region)
    (hcond : Expr.HasType Γ cond .bool) (hyes : Expr.HasType Γ yes t)
    (hno : Expr.HasType Γ no t) : Expr.HasType Γ (.ifElse cond yes (some no) src) t
  /-- A missing second branch has no value. -/
  | ifOnly {Γ : Env} {cond yes : Expr} (src : Region) (hcond : Expr.HasType Γ cond .bool)
    (hyes : Expr.HasType Γ yes .void) : Expr.HasType Γ (.ifElse cond yes none src) .void
  | switch {Γ : Env} {target : Expr} {cs : List Case} {u t : Ty} (src : Region)
    (htarget : Expr.HasType Γ target u) (hcases : Case.HaveTypes Γ u t cs) :
    Expr.HasType Γ (.switch target cs src) t

/-- In `Γ` the expressions have the types. -/
inductive Expr.HaveTypes : Env → List Expr → List Ty → Prop
  | nil (Γ : Env) : Expr.HaveTypes Γ [] []
  | cons {Γ : Env} {e : Expr} {es : List Expr} {t : Ty} {ts : List Ty}
    (he : Expr.HasType Γ e t) (hes : Expr.HaveTypes Γ es ts) :
    Expr.HaveTypes Γ (e :: es) (t :: ts)

/-- In `Γ` the patterns of the cases match values of the first type, and their bodies have the
second one. -/
inductive Case.HaveTypes : Env → Ty → Ty → List Case → Prop
  | nil (Γ : Env) (u t : Ty) : Case.HaveTypes Γ u t []
  | cons {Γ : Env} {p : Pat} {e : Expr} {cs : List Case} {u t : Ty} {Δ : Scope}
    (hp : Pat.HasType Γ p u Δ) (he : Expr.HasType (Γ.extend Δ) e t)
    (hcs : Case.HaveTypes Γ u t cs) : Case.HaveTypes Γ u t (.mk p e :: cs)

/-- In `Γ` the statements of a block have the type of the last one; without any they have the type
that is given first. -/
inductive Stmt.BlockHasType : Env → Ty → List Stmt → Ty → Prop
  | nil (Γ : Env) (t : Ty) : Stmt.BlockHasType Γ t [] t
  | cons {Γ : Env} {s : Stmt} {ss : List Stmt} {last u t : Ty} {Δ : Scope}
    (hs : Stmt.HasType Γ s u Δ) (hss : Stmt.BlockHasType (Γ.extend Δ) u ss t) :
    Stmt.BlockHasType Γ last (s :: ss) t

/-- In `Γ` the statement has the type, and binds the scope. -/
inductive Stmt.HasType : Env → Stmt → Ty → Scope → Prop
  | expr {Γ : Env} {e : Expr} {t : Ty} (src : Region) (he : Expr.HasType Γ e t) :
    Stmt.HasType Γ (.expr e src) t .empty
  /-- The value has the type that `return` stands for. -/
  | ret {Γ : Env} {s : Scheme} {u : Ty} {e : Expr} (t : Ty) (src : Region)
    (hlookup : Γ.lookup "return" = some s) (hinst : s.IsInstance u)
    (he : Expr.HasType Γ e u) : Stmt.HasType Γ (.ret (some e) src) t .empty
  | retVoid {Γ : Env} {s : Scheme} (t : Ty) (src : Region)
    (hlookup : Γ.lookup "return" = some s) (hinst : s.IsInstance .void) :
    Stmt.HasType Γ (.ret none src) t .empty
  /-- The initialiser sees the name at one type; only functions are generalised. -/
  | letVar {Γ : Env} {name : String} {init : Expr} {t : Ty} (patSrc src : Region)
    (hinit : Expr.HasType (Γ.extend (.singleton name (.mono t))) init t) :
    Stmt.HasType Γ (.letBind (.var name patSrc) init src) .void
      (.singleton name (if init.isLambda then Γ.generalize t else .mono t))
  /-- The initialiser does not see what other patterns bind. -/
  | letPat {Γ : Env} {p : Pat} {init : Expr} {t : Ty} {Δ : Scope} (src : Region)
    (hvar : ∀ name patSrc, p ≠ .var name patSrc) (hp : Pat.HasType Γ p t Δ)
    (hinit : Expr.HasType Γ init t) : Stmt.HasType Γ (.letBind p init src) .void Δ
  /-- The loop sees what its first statement binds. -/
  | forLoop {Γ : Env} {init : Stmt} {cond update body : Expr} {u v w : Ty} {Δ : Scope}
    (src : Region) (hinit : Stmt.HasType Γ init u Δ)
    (hcond : Expr.HasType (Γ.extend Δ) cond .bool)
    (hupdate : Expr.HasType (Γ.extend Δ) update v) (hbody : Expr.HasType (Γ.extend Δ) body w) :
    Stmt.HasType Γ (.forLoop init cond update body src) .void .empty

end

/-- In `Γ` the program has the type, whatever it binds. -/
def Stmt.Types (Γ : Env) (s : Stmt) (t : Ty) : Prop := ∃ Δ, Stmt.HasType Γ s t Δ

/-! ## Inversion -/

theorem Pat.HasType.var_inv {Γ : Env} {name : String} {src : Region} {t : Ty} {Δ : Scope}
    (h : Pat.HasType Γ (.var name src) t Δ) : Δ = .singleton name (.mono t) := by
  cases h
  rfl

theorem Pat.HaveTypes.nil_inv {Γ : Env} {ts : List Ty} {Δ : Scope}
    (h : Pat.HaveTypes Γ [] ts Δ) : ts = [] ∧ Δ = .empty := by
  cases h
  exact ⟨rfl, rfl⟩

theorem Pat.HaveTypes.cons_inv {Γ : Env} {p : Pat} {ps : List Pat} {ts : List Ty} {Δ : Scope}
    (h : Pat.HaveTypes Γ (p :: ps) ts Δ) : ∃ t ts' Δ₁ Δ₂, ts = t :: ts' ∧ Δ = Δ₁.union Δ₂ ∧
      Pat.HasType Γ p t Δ₁ ∧ Pat.HaveTypes Γ ps ts' Δ₂ := by
  cases h with
  | cons hp hps => exact ⟨_, _, _, _, rfl, rfl, hp, hps⟩

theorem Pat.HaveTypes.length_eq {Γ : Env} {ps : List Pat} {ts : List Ty} {Δ : Scope}
    (h : Pat.HaveTypes Γ ps ts Δ) : ps.length = ts.length := by
  induction ps generalizing ts Δ with
  | nil =>
    obtain ⟨rfl, -⟩ := h.nil_inv
    rfl
  | cons p ps ih =>
    obtain ⟨t, ts', Δ₁, Δ₂, rfl, -, -, hps⟩ := h.cons_inv
    rw [List.length_cons, List.length_cons, ih hps]

theorem Expr.HasType.var_inv {Γ : Env} {name : String} {src : Region} {t : Ty}
    (h : Expr.HasType Γ (.var name src) t) : ∃ s, Γ.lookup name = some s ∧ s.IsInstance t := by
  cases h with
  | var _ hlookup hinst => exact ⟨_, hlookup, hinst⟩

theorem Expr.HasType.block_inv {Γ : Env} {ss : List Stmt} {src : Region} {t : Ty}
    (h : Expr.HasType Γ (.block ss src) t) : Stmt.BlockHasType Γ .void ss t := by
  cases h with
  | block _ hbody => exact hbody

theorem Expr.HasType.lambda_inv {Γ : Env} {args : List Pat} {body : Expr} {src : Region} {t : Ty}
    (h : Expr.HasType Γ (.lambda args body src) t) :
    ∃ ts Δ r, t = .fn ts r ∧ Pat.HaveTypes Γ args ts Δ ∧
      Expr.HasType ((Γ.extend (.singleton "return" (.mono r))).extend Δ) body r := by
  cases h with
  | lambda _ _ hargs hbody => exact ⟨_, _, _, rfl, hargs, hbody⟩

theorem Expr.HasType.call_inv {Γ : Env} {target : Expr} {args : List Expr} {src : Region} {t : Ty}
    (h : Expr.HasType Γ (.call target args src) t) :
    ∃ ts, Expr.HasType Γ target (.fn ts t) ∧ Expr.HaveTypes Γ args ts := by
  cases h with
  | call _ _ htarget hargs => exact ⟨_, htarget, hargs⟩

/-- The two rules for `if` as one. -/
theorem Expr.HasType.ifElse_inv {Γ : Env} {cond yes : Expr} {no : Option Expr} {src : Region}
    {t : Ty} (h : Expr.HasType Γ (.ifElse cond yes no src) t) :
    Expr.HasType Γ cond .bool ∧ Expr.HasType Γ yes t ∧
      ((no = none ∧ t = .void) ∨ ∃ e, no = some e ∧ Expr.HasType Γ e t) := by
  cases h with
  | ifElse _ hcond hyes hno => exact ⟨hcond, hyes, .inr ⟨_, rfl, hno⟩⟩
  | ifOnly _ hcond hyes => exact ⟨hcond, hyes, .inl ⟨rfl, rfl⟩⟩

theorem Stmt.BlockHasType.nil_inv {Γ : Env} {last t : Ty} (h : Stmt.BlockHasType Γ last [] t) :
    t = last := by
  cases h
  rfl

theorem Stmt.BlockHasType.cons_inv {Γ : Env} {s : Stmt} {ss : List Stmt} {last t : Ty}
    (h : Stmt.BlockHasType Γ last (s :: ss) t) :
    ∃ u Δ, Stmt.HasType Γ s u Δ ∧ Stmt.BlockHasType (Γ.extend Δ) u ss t := by
  cases h with
  | cons hs hss => exact ⟨_, _, hs, hss⟩

theorem Stmt.HasType.expr_inv {Γ : Env} {e : Expr} {src : Region} {t : Ty} {Δ : Scope}
    (h : Stmt.HasType Γ (.expr e src) t Δ) : Δ = .empty ∧ Expr.HasType Γ e t := by
  cases h with
  | expr _ he => exact ⟨rfl, he⟩

/-- The two rules for `return` as one. -/
theorem Stmt.HasType.ret_inv {Γ : Env} {value : Option Expr} {src : Region} {t : Ty} {Δ : Scope}
    (h : Stmt.HasType Γ (.ret value src) t Δ) :
    Δ = .empty ∧ ∃ s u, Γ.lookup "return" = some s ∧ s.IsInstance u ∧
      ((value = none ∧ u = .void) ∨ ∃ e, value = some e ∧ Expr.HasType Γ e u) := by
  cases h with
  | ret _ _ hlookup hinst he => exact ⟨rfl, _, _, hlookup, hinst, .inr ⟨_, rfl, he⟩⟩
  | retVoid _ _ hlookup hinst => exact ⟨rfl, _, _, hlookup, hinst, .inl ⟨rfl, rfl⟩⟩

end TypeTrace
