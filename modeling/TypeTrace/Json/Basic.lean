/-!
# JSON values

The data format of alphabet files and of exported traces.

## Main definitions

* `Json`: values; the members of an object are kept in order, with repetitions
* `Json.ofNat`, `Json.tagged`: frequent values
* `Json.field?`: the members of an object by name
-/

namespace TypeTrace

/-- A JSON value. -/
inductive Json where
  | null
  | bool (value : Bool)
  /-- A number, by the text that denotes it. -/
  | num (literal : String)
  | str (text : String)
  | arr (items : List Json)
  | obj (members : List (String × Json))
deriving Inhabited

namespace Json

/-- A natural number. -/
def ofNat (n : Nat) : Json := num (toString n)

/-- An integer. -/
def ofInt (n : Int) : Json := num (toString n)

/-- An object that names its variant in the member `type`. -/
def tagged (tag : String) (members : List (String × Json)) : Json :=
  obj (("type", str tag) :: members)

/-- The values of the members of an object with the given name. -/
def fields (name : String) (members : List (String × Json)) : List Json :=
  (members.filter (·.1 == name)).map Prod.snd

/-- The text of a string value. -/
def str? : Json → Option String
  | str text => some text
  | _ => none

/-- The truth value of a boolean. -/
def bool? : Json → Option Bool
  | bool value => some value
  | _ => none

end Json
end TypeTrace
