import TypeTrace.Cst.Basic

/-!
# Regions of a syntax tree

Every phrase of a program remembers the nodes it was read from: one node, or a range of
neighbouring ones.

## Main definitions

* `Region`: a node, or a range of nodes
* `Region.merge`: the region from the start of one to the end of another
* `Cst.regionSource?`: the source text of a region
-/

namespace TypeTrace

/-- The nodes from `left` to `right`, or `left` alone. -/
structure Region where
  /-- The first node. -/
  left : Loc
  /-- The last node, if it is another one. -/
  right : Option Loc := none
deriving DecidableEq, Inhabited, Repr

namespace Region

/-- The last node of a region. -/
def last (r : Region) : Loc := r.right.getD r.left

/-- The region from one node to another. -/
def between (left right : Loc) : Region := ⟨left, if right = left then none else some right⟩

/-- From the start of `r` to the end of `s`. -/
def merge (r s : Region) : Region := between r.left s.last

/-- A region as text: `003`, or `003..009`. -/
def render (r : Region) : String :=
  match r.right with
  | none => Loc.render r.left
  | some right => Loc.render r.left ++ ".." ++ Loc.render right

end Region

/-- The source text of a region, empty if the last node ends before the first one starts. -/
def Cst.regionSource? (cst : Cst) (src : List Char) (r : Region) : Option (List Char) := do
  let start := (← cst.span? r.left).start
  let stop := (← cst.span? r.last).stop
  Text.slice? src start (max stop start)

end TypeTrace
