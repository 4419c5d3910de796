import TypeTrace.Ty.Scheme

/-!
# Type environments

What a program may refer to: values with their schemes, the constructors of patterns, and the
declared types they belong to.

## Main definitions

* `Scope`, `Env`: bindings of values, and the whole environment
* `Env.extend`: an environment with more bindings
* `Env.generalize`: quantify the variables of a type that the environment does not mention
-/

namespace TypeTrace

/-- Values in scope, with their schemes. -/
abbrev Scope := Dict String Scheme

/-- A constructor of patterns: its own type variables, its fields, and the type it builds. -/
structure Constructor where
  /-- The variables that every use instantiates. -/
  free : List String
  /-- The types of the fields. -/
  args : List Ty
  /-- The type of the whole. -/
  result : Ty
deriving DecidableEq, Inhabited

/-- A declared type: how many parameters it takes, and its constructors. -/
structure TypeDecl where
  /-- The number of parameters. -/
  arity : Nat
  /-- The names of the constructors. -/
  constructors : List String
deriving DecidableEq, Inhabited

/-- A name for a type with parameters. -/
structure Alias where
  /-- The parameters. -/
  args : List String
  /-- The type that the name abbreviates. -/
  body : Ty
deriving DecidableEq, Inhabited

/-- A type environment. -/
structure Env where
  /-- The values in scope. -/
  scope : Scope := .empty
  /-- The constructors of patterns. -/
  constructors : Dict String Constructor := .empty
  /-- The declared types. -/
  types : Dict String TypeDecl := .empty
  /-- The abbreviations. -/
  aliases : Dict String Alias := .empty
deriving DecidableEq, Inhabited

namespace Scope

/-- The variables free in a scope, by the order of its names. -/
def free (s : Scope) : List String := Name.merge (s.values.map Scheme.free)

/-- Substitute in every scheme of a scope. -/
def apply (σ : Subst) (s : Scope) : Scope := s.map (Scheme.apply σ)

end Scope

namespace Env

/-- Add bindings, which hide earlier ones of the same names. -/
def extend (env : Env) (extra : Scope) : Env := { env with scope := env.scope.union extra }

/-- The scheme of a value. -/
def lookup (env : Env) (name : String) : Option Scheme := env.scope.get? name

/-- The variables free in the scope. -/
def free (env : Env) : List String := Scope.free env.scope

/-- Substitute in the scope. -/
def apply (σ : Subst) (env : Env) : Env := { env with scope := Scope.apply σ env.scope }

/-- Quantify the variables of `t` that the environment does not mention. -/
def generalize (env : Env) (t : Ty) : Scheme :=
  let mentioned := env.free
  ⟨t.free.filter fun x => !mentioned.contains x, t⟩

end Env
end TypeTrace
