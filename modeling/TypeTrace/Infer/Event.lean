import TypeTrace.Cst.Region
import TypeTrace.Env

/-!
# Inference events

Inference leaves a log from which every step of a derivation can be shown: variables as they are
created, types as they are found, unifications with the bindings they add, scopes as they change,
and a stack of explanations with pauses.  Types are logged as they are at the time; applying the
bindings of all later unifications brings them up to date.

## Main definitions

* `Origin`: why a type variable was created
* `StackItem`, `UnifyStep`, `Event`, `Trace`: the log
* `Event.stepCount`: the number of steps that a viewer pauses at
* `Event.deltas`, `Event.replay`: the bindings in order, and the logged types brought up to date
-/

namespace TypeTrace

/-- Why a type variable was created. -/
inductive Origin where
  /-- It instantiates the quantified variable `prev`. -/
  | free (prev : String)
  /-- It is the type of a `return`, which has any type. -/
  | returnAny (src : Region)
  /-- It is the type of a pattern variable. -/
  | patVar (name : String) (src : Region)
  /-- It is the type of a pattern that matches everything. -/
  | patAny (src : Region)
  /-- It is the type of what a function returns. -/
  | lambdaReturn (src : Region)
  /-- It is the type of a call. -/
  | callResult (src : Region)
  /-- It is the type of a `switch`. -/
  | switchResult (src : Region)
deriving DecidableEq, Inhabited

/-- A piece of an explanation. -/
inductive StackItem where
  | text (text : String)
  | kwd (text : String)
  | ty (ty : Ty)
  /-- A part whose type is not known yet; the active one is worked on. -/
  | hole (active : Bool)
deriving DecidableEq, Inhabited

/-- A line of explanation. -/
abbrev StackLine := List StackItem

/-- The text of a piece of an explanation. -/
def StackItem.render : StackItem → String
  | text s => s
  | kwd s => s
  | ty t => t.render
  | hole false => "_"
  | hole true => "[_]"

/-- The text of a line of explanation. -/
def StackLine.render (line : StackLine) : String := " ".intercalate (line.map StackItem.render)

/-- A unification. -/
structure UnifyStep where
  /-- The first type. -/
  one : Ty
  /-- The second type. -/
  two : Ty
  /-- The bindings that make them equal. -/
  delta : Subst
  /-- Where the types meet. -/
  src : Region
  /-- What the first type is. -/
  oneName : String
  /-- What the second type is. -/
  twoName : String
  /-- A remark. -/
  message : Option String
deriving DecidableEq

/-- An entry of the log. -/
inductive Event where
  /-- A type variable is created. -/
  | newVar (name : String)
  /-- The type of a phrase is found. -/
  | infer (src : Region) (ty : Ty)
  /-- Two types are unified. -/
  | unify (step : UnifyStep)
  /-- The scope is not the one last logged. -/
  | scope (scope : Scope)
  /-- A line of explanation is added. -/
  | push (src : Region) (line : StackLine)
  /-- The latest line of explanation is dropped. -/
  | pop
  /-- A viewer should pause. -/
  | pause (title : String)
deriving DecidableEq

/-- The record of a whole inference. -/
structure Trace where
  /-- The log. -/
  events : Array Event
  /-- All bindings of variables. -/
  subst : Subst
  /-- The variables that were created, and why. -/
  origins : Dict String Origin
deriving DecidableEq

namespace Event

/-- A viewer pauses at marked places and at unifications that bind variables. -/
def isStep : Event → Bool
  | pause _ => true
  | unify step => !step.delta.isEmpty
  | _ => false

/-- The number of steps that a viewer pauses at. -/
def stepCount (events : List Event) : Nat := events.countP isStep

/-- The bindings of a unification. -/
def delta? : Event → Option Subst
  | unify step => some step.delta
  | _ => none

/-- The bindings of all unifications in order. -/
def deltas (events : List Event) : List Subst := events.filterMap delta?

/-- The types that were found, with all bindings applied. -/
def replay (events : List Event) : List (Region × Ty) :=
  let ds := deltas events
  events.filterMap fun
    | infer src ty => some (src, ds.foldl (fun t d => t.apply d) ty)
    | _ => none

end Event
end TypeTrace
