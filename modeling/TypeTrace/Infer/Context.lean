import TypeTrace.Infer.Event
import TypeTrace.Ty.Unify

/-!
# The state of inference

Inference keeps one substitution, which only grows, together with the log and the stack of
explanations.  A step that fails keeps what it has already logged, so that a viewer can show how
far inference came.

## Main definitions

* `Context`: the state
* `InferM`: computations on the state that may fail with a type error
* `InferM.freshVar`, `InferM.instantiate`, `InferM.unify`: variables and unification
* `InferM.push`, `InferM.pop`, `InferM.replace`, `InferM.pause`: explanations
* `InferM.noteScope`: log the scope when it has changed
-/

namespace TypeTrace

/-- The state of inference. -/
structure Context where
  /-- The number of variables created. -/
  nextId : Nat := 0
  /-- The bindings so far. -/
  subst : Subst := .empty
  /-- The log. -/
  events : Array Event := #[]
  /-- The variables created, and why. -/
  origins : Dict String Origin := .empty
  /-- The scope last logged. -/
  latestScope : Option Scope := none
  /-- The lines of explanation, the latest first. -/
  stack : List StackLine := []
deriving DecidableEq, Inhabited

/-- The record of an inference that has come this far. -/
def Context.trace (ctx : Context) : Trace := ⟨ctx.events, ctx.subst, ctx.origins⟩

/-- Computations on the state that may fail; a failure keeps the state. -/
abbrev InferM := ExceptT TypeError (StateM Context)

namespace InferM

/-- Add an entry to the log. -/
def emit (e : Event) : InferM Unit := modify fun ctx => { ctx with events := ctx.events.push e }

/-- The bindings so far. -/
def subst : InferM Subst := do return (← get).subst

/-- The type with the bindings so far applied. -/
def resolve (t : Ty) : InferM Ty := do return t.apply (← subst)

/-- The environment with the bindings so far applied. -/
def resolveEnv (env : Env) : InferM Env := do return env.apply (← subst)

/-- The scope with the bindings so far applied. -/
def resolveScope (scope : Scope) : InferM Scope := do return Scope.apply (← subst) scope

/-! ## Variables and unification -/

/-- Create a type variable. -/
def freshVar (origin : Origin) : InferM Ty := do
  let name := Name.ofNat (← get).nextId
  modify fun ctx =>
    { ctx with nextId := ctx.nextId + 1, origins := ctx.origins.insert name origin }
  emit (.newVar name)
  return .var name

/-- A new variable for each of the given ones. -/
def freshSubst (vars : List String) : InferM Subst := do
  return .ofList (← vars.mapM fun x => do return (x, ← freshVar (.free x)))

/-- The type of a scheme with new variables for the quantified ones. -/
def instantiate (s : Scheme) : InferM Ty := do return s.body.apply (← freshSubst s.vars)

/-- Make two types equal.  If that binds variables, the types are logged once more with the
bindings applied. -/
def unify (one two : Ty) (src : Region) (oneName twoName : String) (message : Option String) :
    InferM Unit := do
  let one ← resolve one
  let two ← resolve two
  let delta ← MonadExcept.ofExcept (one.unify two)
  -- From here on the state changes; types that do not unify leave it as it was.
  emit (.unify ⟨one, two, delta, src, oneName, twoName, message⟩)
  let subst ← MonadExcept.ofExcept (delta.compose (← subst))
  modify fun ctx => { ctx with subst }
  unless delta.isEmpty do
    emit (.unify ⟨one.apply subst, two.apply subst, delta, src, oneName, twoName, message⟩)

/-! ## Explanations -/

/-- Add a line of explanation. -/
def push (src : Region) (line : StackLine) : InferM Unit := do
  modify fun ctx => { ctx with stack := line :: ctx.stack }
  emit (.push src line)

/-- Drop the latest line of explanation. -/
def pop : InferM Unit := do
  modify fun ctx => { ctx with stack := ctx.stack.tail }
  emit .pop

/-- Replace the latest line of explanation. -/
def replace (src : Region) (line : StackLine) : InferM Unit := do
  pop
  push src line

/-- Mark a place where a viewer should pause. -/
def pause (title : String) : InferM Unit := emit (.pause title)

/-! ## Phrases -/

/-- Log the scope, unless the scope last logged is the same under the bindings so far. -/
def noteScope (env : Env) : InferM Unit := do
  let current ← resolveScope env.scope
  let shown ← match (← get).latestScope with
    | none => pure none
    | some latest => do pure (some (← resolveScope latest))
  unless shown = some current do
    emit (.scope current)
    modify fun ctx => { ctx with latestScope := some env.scope }

/-- Find the type of an expression: log a change of scope before, and the type after. -/
def recording (env : Env) (src : Region) (find : InferM Ty) : InferM Ty := do
  noteScope env
  let ty ← find
  emit (.infer src ty)
  return ty

end InferM
end TypeTrace
