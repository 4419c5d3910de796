import TypeTrace.Env

/-!
# The builtin environment

The values, constructors and types that every program may use: integers with their operators,
truth values, arrays and pairs.

## Main definitions

* `Env.builtinValues`: the builtin values with their schemes
* `Env.builtin`: the environment in which a program is typed
-/

namespace TypeTrace.Env

/-- The quantified variable of the schemes on arrays. -/
def elem : Ty := .var "k"

/-- A scheme over the element type of arrays. -/
def forElem (body : Ty) : Scheme := ⟨["k"], body⟩

/-- An operator on integers with an integer result. -/
def arithmetic : Scheme := .mono (.fn [.int, .int] .int)

/-- An operator on integers with a truth value as result. -/
def comparison : Scheme := .mono (.fn [.int, .int] .bool)

/-- The builtin values with their schemes. -/
def builtinValues : List (String × Scheme) :=
  [ ("null", .mono .null),
    ("true", .mono .bool),
    ("false", .mono .bool),
    ("void", .mono .void),
    ("length", forElem (.fn [.array elem] .int)),
    ("index", forElem (.fn [.array elem, .int] elem)),
    ("push", forElem (.fn [.array elem, elem] .void)),
    ("concat", forElem (.fn [.array elem, .array elem] (.array elem))),
    ("[]", forElem (.array elem)),
    ("::", forElem (.fn [elem, .array elem] (.array elem))),
    ("+", arithmetic),
    ("+=", arithmetic),
    ("-", arithmetic),
    ("-=", arithmetic),
    (">", comparison),
    ("<", comparison),
    ("<=", comparison),
    ("=", forElem (.fn [elem, elem] .int)),
    (",", ⟨["a", "b"], .fn [.var "a", .var "b"] (.pair (.var "a") (.var "b"))⟩) ]

/-- The environment of a program: the builtin values, pairs and the empty tuple as patterns. -/
def builtin : Env where
  scope := .ofList builtinValues
  constructors := .ofList
    [ (",", ⟨["a", "b"], [.var "a", .var "b"], .pair (.var "a") (.var "b")⟩),
      ("null", ⟨[], [], .null⟩) ]
  types := .ofList [("Array", ⟨1, []⟩), (",", ⟨2, [","]⟩), ("null", ⟨0, ["null"]⟩)]

end TypeTrace.Env
