import TypeTrace.Ty.Subst

/-!
# Type schemes

A scheme is a type with some of its variables quantified.  Substitutions act on the other
variables only; bound variables are not renamed.

## Main definitions

* `Scheme`, `Scheme.mono`: schemes, and those without quantifiers
* `Scheme.free`, `Scheme.apply`, `Scheme.render`: free variables, substitution, text
-/

namespace TypeTrace

/-- The type `body` for all values of the variables `vars`. -/
structure Scheme where
  /-- The quantified variables. -/
  vars : List String
  /-- The type they range over. -/
  body : Ty
deriving DecidableEq, Inhabited

namespace Scheme

/-- The scheme that stands for one type only. -/
def mono (body : Ty) : Scheme := ⟨[], body⟩

/-- The variables of the body that are not quantified. -/
def free (s : Scheme) : List String := s.body.free.filter fun x => !s.vars.contains x

/-- Substitute in the body, leaving the quantified variables alone. -/
def apply (σ : Subst) (s : Scheme) : Scheme := ⟨s.vars, s.body.apply (σ.without s.vars)⟩

/-- The text of a scheme: `forall a b. body`, or the body alone. -/
def render (s : Scheme) : String :=
  if s.vars.isEmpty then s.body.render
  else "forall " ++ " ".intercalate s.vars ++ ". " ++ s.body.render

end Scheme
end TypeTrace
