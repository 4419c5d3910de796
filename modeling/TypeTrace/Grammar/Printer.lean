import TypeTrace.Grammar.Basic
import TypeTrace.Text.Quoted

/-!
# Printed matchers

Matchers are written as nested calls of their combinators, leaving out what does not affect which
nodes they take.

## Main definitions

* `Matcher.render`: the text of a matcher
-/

namespace TypeTrace

/-- The kinds of list that a matcher accepts, as text. -/
def ListMatch.render : ListMatch → String
  | exact .round => "Exact(Round)"
  | exact .square => "Exact(Square)"
  | exact .curly => "Exact(Curly)"
  | exact .angle => "Exact(Angle)"
  | exact .smooshed => "Exact(Smooshed)"
  | exact .spaced => "Exact(Spaced)"
  | plain => "Plain"

namespace Matcher

variable {V : Type}

mutual

/-- The text of a matcher. -/
def render : Matcher V → String
  | any => "any"
  | kwd word _ => "kwd(" ++ Text.quote word ++ ")"
  | id _ => "id"
  | number => "number"
  | text inner => "text(" ++ inner.render ++ ")"
  | list kind inner _ => "list(" ++ kind.render ++ ", " ++ inner.render ++ ")"
  | table kind row => "table(" ++ kind.name ++ ", " ++ row.render ++ ")"
  | seq items => "seq[" ++ ", ".intercalate (renderAll items) ++ "]"
  | or items => "or[" ++ ", ".intercalate (renderAll items) ++ "]"
  | star inner => "star(" ++ inner.render ++ ")"
  | opt inner => "opt(" ++ inner.render ++ ")"
  | group name inner => "group(" ++ Text.quote name ++ ", " ++ inner.render ++ ")"
  | ref rule _ => "ref(" ++ Text.quote rule ++ ")"
  | tx inner _ => "tx(" ++ inner.render ++ ")"

/-- The texts of a list of matchers. -/
def renderAll : List (Matcher V) → List String
  | [] => []
  | m :: ms => m.render :: renderAll ms

end

end Matcher
end TypeTrace
