import TypeTrace.Infer.Event

/-!
# Outlines of traces

A trace as lines of text: the explanations as they are added, indented by the number of those
above them, with the pauses and the unifications that bind variables in between.

## Main definitions

* `Event.outline`: the lines for a log
* `Trace.outline`: the lines for a trace, with the number of steps
-/

namespace TypeTrace

/-- Indent a line by a number of levels. -/
def indented (depth : Nat) (line : String) : String := "".pushn ' ' (2 * depth) ++ line

/-- The lines for a log that starts below `depth` explanations. -/
def Event.outline (depth : Nat) : List Event → List String
  | [] => []
  | .push _ line :: events => indented depth line.render :: outline (depth + 1) events
  | .pop :: events => outline (depth - 1) events
  | .pause title :: events => indented depth ("-- " ++ title) :: outline depth events
  | .unify step :: events =>
    if step.delta.isEmpty then outline depth events
    else
      indented depth ("unify " ++ step.one.render ++ " ~ " ++ step.two.render) ::
        outline depth events
  | _ :: events => outline depth events

/-- The lines for a trace, the last of them with the number of steps. -/
def Trace.outline (t : Trace) : List String :=
  let events := t.events.toList
  Event.outline 0 events ++ ["steps: " ++ toString (Event.stepCount events)]

end TypeTrace
