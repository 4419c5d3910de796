import TypeTrace.Name

/-!
# Types

A type is a variable, a constant, a function of several arguments, or a type applied to several
arguments.  Argument lists may be empty; inference never builds such types, but the operations
on types are defined on them as well.

## Main definitions

* `Ty`: types, with decidable equality
* `Ty.occurrences`, `Ty.free`: the variables of a type, a function's result before its arguments
* `Ty.size`: the number of nodes
-/

namespace TypeTrace

/-- Types. -/
inductive Ty where
  /-- A type variable. -/
  | var (name : String)
  /-- A constant such as `int`. -/
  | con (name : String)
  /-- A function of the arguments `args`. -/
  | fn (args : List Ty) (result : Ty)
  /-- A type constructor applied to arguments, such as `Array(int)`. -/
  | app (target : Ty) (args : List Ty)
deriving Inhabited

namespace Ty

mutual

/-- Equality of types is decidable. -/
protected def decEq : (t u : Ty) → Decidable (t = u)
  | .var m, .var n => if h : m = n then .isTrue (congrArg _ h) else .isFalse fun e => h (var.inj e)
  | .con m, .con n => if h : m = n then .isTrue (congrArg _ h) else .isFalse fun e => h (con.inj e)
  | .fn as r, .fn bs q =>
    match Ty.decEq r q, Ty.decEqAll as bs with
    | .isTrue h, .isTrue h' => .isTrue (by rw [h, h'])
    | .isFalse h, _ => .isFalse fun e => h (fn.inj e).2
    | _, .isFalse h => .isFalse fun e => h (fn.inj e).1
  | .app f as, .app g bs =>
    match Ty.decEq f g, Ty.decEqAll as bs with
    | .isTrue h, .isTrue h' => .isTrue (by rw [h, h'])
    | .isFalse h, _ => .isFalse fun e => h (app.inj e).1
    | _, .isFalse h => .isFalse fun e => h (app.inj e).2
  | .var _, .con _ | .var _, .fn .. | .var _, .app .. => .isFalse nofun
  | .con _, .var _ | .con _, .fn .. | .con _, .app .. => .isFalse nofun
  | .fn .., .var _ | .fn .., .con _ | .fn .., .app .. => .isFalse nofun
  | .app .., .var _ | .app .., .con _ | .app .., .fn .. => .isFalse nofun

/-- Equality of lists of types is decidable. -/
protected def decEqAll : (ts us : List Ty) → Decidable (ts = us)
  | [], [] => .isTrue rfl
  | t :: ts, u :: us =>
    match Ty.decEq t u, Ty.decEqAll ts us with
    | .isTrue h, .isTrue h' => .isTrue (by rw [h, h'])
    | .isFalse h, _ => .isFalse fun e => h (List.cons.inj e).1
    | _, .isFalse h => .isFalse fun e => h (List.cons.inj e).2
  | [], _ :: _ | _ :: _, [] => .isFalse nofun

end

instance : DecidableEq Ty := Ty.decEq

/-! ## The types of literals and data -/

/-- Integers. -/
def int : Ty := .con "int"

/-- Truth values. -/
def bool : Ty := .con "bool"

/-- Text. -/
def string : Ty := .con "string"

/-- The type of a statement without a value. -/
def void : Ty := .con "void"

/-- The type of the empty tuple. -/
def null : Ty := .con "null"

/-- Arrays of `elem`. -/
def array (elem : Ty) : Ty := .app (.con "Array") [elem]

/-- Pairs of `a` and `b`. -/
def pair (a b : Ty) : Ty := .app (.con ",") [a, b]

/-! ## Variables and size -/

mutual

/-- Every occurrence of a variable, a function's result before its arguments. -/
def occurrences : Ty → List String
  | .var x => [x]
  | .con _ => []
  | .fn args result => result.occurrences ++ occurrencesAll args
  | .app target args => target.occurrences ++ occurrencesAll args

/-- Every occurrence of a variable in a list of types. -/
def occurrencesAll : List Ty → List String
  | [] => []
  | t :: ts => t.occurrences ++ occurrencesAll ts

end

/-- The variables of a type, each at its first occurrence. -/
def free (t : Ty) : List String := Name.distinct t.occurrences

mutual

/-- The number of nodes of a type. -/
def size : Ty → Nat
  | .var _ => 1
  | .con _ => 1
  | .fn args result => 1 + result.size + sizeAll args
  | .app target args => 1 + target.size + sizeAll args

/-- The number of nodes of a list of types. -/
def sizeAll : List Ty → Nat
  | [] => 0
  | t :: ts => t.size + sizeAll ts

end

theorem size_pos (t : Ty) : 0 < t.size := by
  cases t <;> simp only [size] <;> omega

theorem occurrencesAll_eq_flatMap (ts : List Ty) : occurrencesAll ts = ts.flatMap occurrences := by
  induction ts with
  | nil => rfl
  | cons t ts ih => rw [occurrencesAll, ih, List.flatMap_cons]

@[simp] theorem mem_occurrencesAll {x : String} {ts : List Ty} :
    x ∈ occurrencesAll ts ↔ ∃ t ∈ ts, x ∈ t.occurrences := by
  rw [occurrencesAll_eq_flatMap, List.mem_flatMap]

@[simp] theorem mem_free {x : String} {t : Ty} : x ∈ t.free ↔ x ∈ t.occurrences :=
  Name.mem_distinct

end Ty
end TypeTrace
