import TypeTrace.Cst.Region
import TypeTrace.Dict

/-!
# Grammars

A grammar describes how sibling nodes of a syntax tree are read as phrases of a language.  It is
data: matchers built from a few combinators, under names through which they refer to each other.
What a phrase denotes is left to a type of values.

## Main definitions

* `Role`, `Metadata`: what a node turns out to be, for highlighting
* `MatchValue`: how the values of a grammar are built from nodes
* `Bindings`: the named parts of a phrase
* `Matcher`, `Grammar`: the combinators, and named rules with reserved words
-/

namespace TypeTrace

/-- The role of a node in the program. -/
inductive Role where
  | kwd
  | punct
  | decl
  | ref
  | bop
  | attr
  | fnArgs
  /-- A node that no rule accounts for. -/
  | unparsed
deriving DecidableEq, Inhabited, Repr

/-- The name of a role. -/
def Role.name : Role → String
  | kwd => "kwd"
  | punct => "punct"
  | decl => "decl"
  | ref => "ref"
  | bop => "bop"
  | attr => "attribute"
  | fnArgs => "fn-args"
  | unparsed => "unparsed"

/-- The roles of nodes. -/
abbrev Metadata := Dict Loc Role

/-- The values that matchers produce. -/
class MatchValue (V : Type) where
  /-- A word. -/
  ofId : String → Loc → V
  /-- A number. -/
  ofNumber : Nat → Loc → V
  /-- A node as it is. -/
  ofNode : Loc → V
  /-- The values of several phrases. -/
  ofMany : List V → V
  /-- A string literal, with the values of its embedded expressions. -/
  ofText : List (TextSpan V) → Loc → V
  /-- The value of an absent phrase. -/
  absent : V

/-- The named parts of a phrase, the latest first. -/
abbrev Bindings (V : Type) := List (String × V)

namespace Bindings

variable {V : Type}

/-- The latest part with the given name. -/
def get? (b : Bindings V) (name : String) : Option V := b.lookup name

/-- Take out the latest part with the given name. -/
def take? (name : String) : Bindings V → Option (V × Bindings V)
  | [] => none
  | (n, v) :: b =>
    if n = name then some (v, b) else (take? name b).map fun (w, rest) => (w, (n, v) :: rest)

end Bindings

/-- Which kinds of list a matcher accepts. -/
inductive ListMatch where
  /-- One kind only. -/
  | exact (kind : ListKind)
  /-- Any list between brackets. -/
  | plain
deriving DecidableEq, Inhabited

/-- The matcher accepts a list of the given kind. -/
def ListMatch.accepts : ListMatch → ListKind → Bool
  | exact kind, found => kind == found
  | plain, found => found.isPlain

/-- How some of the next siblings are read as a phrase. -/
inductive Matcher (V : Type) where
  /-- Any node. -/
  | any
  /-- One given word. -/
  | kwd (text : String) (role : Role)
  /-- A word that is neither reserved nor a number. -/
  | id (role : Option Role)
  /-- A word of digits. -/
  | number
  /-- A string literal whose embedded expressions match `inner`. -/
  | text (inner : Matcher V)
  /-- A list whose members all match `inner`. -/
  | list (kind : ListMatch) (inner : Matcher V) (role : Option Role)
  /-- A table each of whose rows matches `row`. -/
  | table (kind : ListKind) (row : Matcher V)
  /-- All of the matchers, one after another. -/
  | seq (items : List (Matcher V))
  /-- The first of the matchers that succeeds. -/
  | or (items : List (Matcher V))
  /-- As many repetitions as possible. -/
  | star (inner : Matcher V)
  /-- The matcher, or nothing. -/
  | opt (inner : Matcher V)
  /-- The matcher, its value bound to a name. -/
  | group (name : String) (inner : Matcher V)
  /-- The rule with the given name, its value bound to a name if one is given. -/
  | ref (rule : String) (name : Option String)
  /-- The matcher, with a value built from the parts it names and the nodes it takes. -/
  | tx (inner : Matcher V) (build : Bindings V → Region → Option V)
deriving Inhabited

namespace Matcher

variable {V : Type}

mutual

/-- The number of combinators in a matcher. -/
def size : Matcher V → Nat
  | any | kwd .. | id _ | number | ref .. => 1
  | text inner | list _ inner _ | table _ inner | star inner | opt inner | group _ inner
  | tx inner _ => inner.size + 1
  | seq items | or items => sizeAll items + 1

/-- The number of combinators in a list of matchers. -/
def sizeAll : List (Matcher V) → Nat
  | [] => 0
  | m :: ms => m.size + sizeAll ms

end

section

-- The equations of these functions are made here, not by all the proofs at once that need them first.
attribute [local simp] size sizeAll

end

end Matcher

/-- Named rules and reserved words. -/
structure Grammar (V : Type) where
  /-- The rules by name. -/
  rules : Dict String (Matcher V)
  /-- The words that cannot be names. -/
  kwds : List String
  /-- The greatest depth of a tree that is matched at all. -/
  maxNesting : Nat := 20

namespace Grammar

variable {V : Type} (g : Grammar V)

/-- The rule with the given name. -/
def rule? (name : String) : Option (Matcher V) := g.rules.get? name

/-- The word is reserved. -/
def isKwd (text : String) : Bool := g.kwds.contains text

/-- The number of combinators in all rules. -/
def size : Nat := Matcher.sizeAll g.rules.values

end Grammar
end TypeTrace
