import TypeTrace.Ty.Basic

/-!
# Printed types

Functions are written `(a, b) => c` and applications `F(a, b)`; an application of the constant
`,` is a tuple and is written `(a, b)`.

## Main definitions

* `Ty.render`: the text of a type
-/

namespace TypeTrace.Ty

mutual

/-- The text of a type. -/
def render : Ty → String
  | .var x => x
  | .con c => c
  | .fn args result => "(" ++ ", ".intercalate (renderAll args) ++ ") => " ++ result.render
  | .app (.con ",") args => "(" ++ ", ".intercalate (renderAll args) ++ ")"
  | .app target args => target.render ++ "(" ++ ", ".intercalate (renderAll args) ++ ")"

/-- The texts of a list of types. -/
def renderAll : List Ty → List String
  | [] => []
  | t :: ts => t.render :: renderAll ts

end

end TypeTrace.Ty
