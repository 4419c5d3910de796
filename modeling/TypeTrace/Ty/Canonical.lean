import TypeTrace.Ty.Subst

/-!
# Canonical variable names

Inference names variables by the order in which it creates them.  For display and comparison the
variables of a type are renamed to `a`, `b`, … in the order in which they are read.

## Main definitions

* `Ty.reading`: the occurrences of variables in the order of the printed type
* `Ty.canonical`: the type with its variables named in reading order
-/

namespace TypeTrace.Ty

mutual

/-- Every occurrence of a variable, in the order in which the printed type shows them. -/
def reading : Ty → List String
  | .var x => [x]
  | .con _ => []
  | .fn args result => readingAll args ++ result.reading
  | .app target args => target.reading ++ readingAll args

/-- Every occurrence of a variable in a list of types, as printed. -/
def readingAll : List Ty → List String
  | [] => []
  | t :: ts => t.reading ++ readingAll ts

end

/-- The renaming that numbers the variables of a type in reading order. -/
def numbering (t : Ty) : Subst :=
  .ofList ((Name.distinct t.reading).zipIdx.map fun p => (p.1, .var (Name.ofNat p.2)))

/-- The type with its variables named `a`, `b`, … in reading order. -/
def canonical (t : Ty) : Ty := t.apply t.numbering

end TypeTrace.Ty
