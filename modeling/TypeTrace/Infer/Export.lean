import TypeTrace.Infer.Event
import TypeTrace.Json.Basic

/-!
# Traces as JSON

The form in which a trace is handed to a viewer.  Objects that stand for one of several variants
name it in their first member; absent optional members are left out; maps become objects in the
order of their keys.

## Main definitions

* `Ty.toJson`, `Scheme.toJson`, `Subst.toJson`, `Scope.toJson`: types and what names stand for
* `Event.toJson`, `Origin.toJson`, `Trace.toJson`: the log
-/

namespace TypeTrace

open Json (tagged)

/-- A map as an object. -/
def Dict.toJson {α : Type} (f : α → Json) (d : Dict String α) : Json :=
  .obj (d.entries.map fun (name, a) => (name, f a))

mutual

/-- A type as JSON. -/
def Ty.toJson : Ty → Json
  | .var name => tagged "var" [("name", .str name)]
  | .con name => tagged "con" [("name", .str name)]
  | .fn args result => tagged "fn" [("args", .arr (toJsonAll args)), ("result", result.toJson)]
  | .app target args => tagged "app" [("target", target.toJson), ("args", .arr (toJsonAll args))]

/-- The types of a list as JSON. -/
def Ty.toJsonAll : List Ty → List Json
  | [] => []
  | t :: ts => t.toJson :: toJsonAll ts

end

/-- A scheme as JSON. -/
def Scheme.toJson (s : Scheme) : Json :=
  .obj [("vars", .arr (s.vars.map .str)), ("body", s.body.toJson)]

/-- A substitution as JSON. -/
def Subst.toJson (s : Subst) : Json := Dict.toJson Ty.toJson s

/-- A scope as JSON. -/
def Scope.toJson (s : Scope) : Json := Dict.toJson Scheme.toJson s

/-- A region as JSON. -/
def Region.toJson (r : Region) : Json :=
  .obj (("left", .ofNat r.left) :: (r.right.map fun loc => ("right", Json.ofNat loc)).toList)

/-- The origin of a variable as JSON. -/
def Origin.toJson : Origin → Json
  | free prev => tagged "free" [("prev", .str prev)]
  | returnAny src => tagged "return-any" [("src", src.toJson)]
  | patVar name src => tagged "pat-var" [("name", .str name), ("src", src.toJson)]
  | patAny src => tagged "pat-any" [("src", src.toJson)]
  | lambdaReturn src => tagged "lambda-return" [("src", src.toJson)]
  | callResult src => tagged "apply-result" [("src", src.toJson)]
  | switchResult src => tagged "match-result" [("src", src.toJson)]

/-- A piece of an explanation as JSON. -/
def StackItem.toJson : StackItem → Json
  | text s => .obj [("text", .str s)]
  | kwd s => .obj [("kwd", .str s)]
  | ty t => .obj [("type", t.toJson)]
  | hole active => .obj [("hole", .obj [("active", .bool active)])]

/-- The members of a unification in an exported log. -/
def UnifyStep.members (s : UnifyStep) : List (String × Json) :=
  [ ("one", s.one.toJson),
    ("two", s.two.toJson),
    ("subst", s.delta.toJson),
    ("src", s.src.toJson),
    ("oneName", .str s.oneName),
    ("twoName", .str s.twoName) ] ++
  (s.message.map fun text => ("message", Json.str text)).toList

/-- An entry of the log as JSON. -/
def Event.toJson : Event → Json
  | newVar name => tagged "new-var" [("name", .str name)]
  | infer src ty => tagged "infer" [("src", src.toJson), ("value", ty.toJson)]
  | unify step => tagged "unify" step.members
  | scope s => tagged "scope" [("scope", s.toJson)]
  | push src line =>
    tagged "stack-push" [("src", src.toJson), ("value", .arr (line.map StackItem.toJson))]
  | pop => tagged "stack-pop" []
  | pause title => tagged "stack-break" [("title", .str title)]

/-- A trace as JSON. -/
def Trace.toJson (t : Trace) : Json :=
  .obj
    [ ("events", .arr (t.events.toList.map Event.toJson)),
      ("subst", t.subst.toJson),
      ("tvarMeta", t.origins.toJson Origin.toJson) ]

end TypeTrace
