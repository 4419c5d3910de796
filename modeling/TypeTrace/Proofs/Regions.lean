import TypeTrace.Proofs.Forms
import TypeTrace.Proofs.Nesting

/-!
# Regions of programs

Every construct of a program remembers a first and a last node.  What it covers of the source is from the
start of the one to the end of the other.  Constructs that are read from siblings lie between the start of
the first and the end of the last sibling, one after another; constructs that are read from the members of
a node lie inside the node.  From this, and from the order of the nodes of a syntax tree, it follows for
every form of the language that its parts lie inside it, also where the region is put together from the
regions of parts: for operators, for suffixes, and for the block that all items of a source make.

## Main definitions

* `Lined`: things that follow each other between two positions
* `Cst.Row`: nodes that follow each other
* `Region.Spans`: what a region covers of the source
* `Construct`, `Construct.children`: patterns, expressions and statements, and what is directly in them
* `Construct.Within`: a construct lies between two positions, and so do its parts, inside it

## Main results

* `Language.Made.within`: every form of the language lies between the ends of what it is read from
* `Language.parseAll_regions`: the regions of a program are parts of the source, and nested
-/

namespace TypeTrace

/-! ## Things that follow each other -/

section Lined

variable {α β : Type}

/-- `P lo hi x` says that `x` lies between two positions. -/
structure Bounding (P : Nat → Nat → α → Prop) : Prop where
  le {lo hi : Nat} {x : α} (h : P lo hi x) : lo ≤ hi
  mono {lo lo' hi hi' : Nat} {x : α} (hlo : lo' ≤ lo) (hhi : hi ≤ hi') (h : P lo hi x) : P lo' hi' x

/-- Things that follow each other between two positions. -/
def Lined (P : Nat → Nat → α → Prop) : Nat → Nat → List α → Prop
  | lo, hi, [] => lo ≤ hi
  | lo, hi, x :: xs => ∃ mid, P lo mid x ∧ Lined P mid hi xs

variable {P : Nat → Nat → α → Prop} {lo lo' hi hi' : Nat} {x : α} {xs ys : List α}

theorem Lined.le (hP : Bounding P) (h : Lined P lo hi xs) : lo ≤ hi := by
  induction xs generalizing lo with
  | nil => exact h
  | cons x xs ih =>
    obtain ⟨mid, hx, hxs⟩ := h
    exact Nat.le_trans (hP.le hx) (ih hxs)

theorem Lined.mono (hP : Bounding P) (hlo : lo' ≤ lo) (hhi : hi ≤ hi') (h : Lined P lo hi xs) :
    Lined P lo' hi' xs := by
  induction xs generalizing lo lo' with
  | nil => exact Nat.le_trans hlo (Nat.le_trans h hhi)
  | cons x xs ih =>
    obtain ⟨mid, hx, hxs⟩ := h
    exact ⟨mid, hP.mono hlo (Nat.le_refl mid) hx, ih (Nat.le_refl mid) hxs⟩

theorem Lined.split (h : Lined P lo hi (xs ++ ys)) : ∃ mid, Lined P lo mid xs ∧ Lined P mid hi ys := by
  induction xs generalizing lo with
  | nil => exact ⟨lo, Nat.le_refl lo, h⟩
  | cons x xs ih =>
    obtain ⟨mid, hx, hxs⟩ := h
    obtain ⟨mid', hxs, hys⟩ := ih hxs
    exact ⟨mid', ⟨mid, hx, hxs⟩, hys⟩

theorem Lined.of_infix (hP : Bounding P) (h : Lined P lo hi ys) (hxs : xs <:+: ys) : Lined P lo hi xs := by
  obtain ⟨before, after, rfl⟩ := hxs
  obtain ⟨mid, hbefore, hafter⟩ := h.split
  obtain ⟨mid', hbefore, hxs⟩ := hbefore.split
  exact hxs.mono hP (hbefore.le hP) (hafter.le hP)

theorem Lined.mem (hP : Bounding P) (h : Lined P lo hi xs) (hx : x ∈ xs) : P lo hi x := by
  obtain ⟨before, after, rfl⟩ := List.append_of_mem hx
  obtain ⟨mid, hbefore, mid', hx, hafter⟩ := h.split
  exact hP.mono (hbefore.le hP) (hafter.le hP) hx

/-- What follows each other reaches from where the first starts to where the last ends, if everything has
a start and an end. -/
theorem Lined.exists_ends (hP : Bounding P) {E : Nat → Nat → α → Prop}
    (hE : ∀ lo hi x, P lo hi x → ∃ start stop, lo ≤ start ∧ stop ≤ hi ∧ E start stop x ∧ P start stop x)
    (h : Lined P lo hi xs) (hne : xs ≠ []) :
    ∃ start stop, lo ≤ start ∧ stop ≤ hi ∧ (∃ stop', E start stop' (xs.head hne)) ∧
      (∃ start', E start' stop (xs.getLast hne)) ∧ Lined P start stop xs := by
  induction xs generalizing lo with
  | nil => exact absurd rfl hne
  | cons x xs ih =>
    obtain ⟨mid, hx, hxs⟩ := h
    -- Only the start of the first and the end of the last matter; what is between them stays as it is.
    obtain ⟨start, stop, hstart, hstop, hends, hx⟩ := hE lo mid x hx
    cases xs with
    | nil =>
      exact ⟨start, stop, hstart, Nat.le_trans hstop hxs, ⟨stop, hends⟩, ⟨start, hends⟩, stop, hx,
        Nat.le_refl stop⟩
    | cons y ys =>
      obtain ⟨start', stop', hstart', hstop', -, hlast, hxs⟩ := ih hxs (List.cons_ne_nil y ys)
      exact ⟨start, stop', hstart, hstop', ⟨stop, hends⟩, hlast, stop, hx,
        hxs.mono hP (Nat.le_trans hstop hstart') (Nat.le_refl stop')⟩

end Lined

/-! ## Nodes -/

namespace Cst

variable {cst : Cst} {src : List Char} {lo hi : Nat} {l : Loc} {locs : List Loc}

/-- A node of the tree covers a part of the source between two positions. -/
def Places (cst : Cst) (lo hi : Nat) (l : Loc) : Prop :=
  ∃ span above, cst.Path l above ∧ cst.span? l = some span ∧ lo ≤ span.start ∧ span.start ≤ span.stop ∧
    span.stop ≤ hi

/-- Nodes of the tree that follow each other between two positions. -/
abbrev Row (cst : Cst) (lo hi : Nat) (locs : List Loc) : Prop := Lined cst.Places lo hi locs

theorem bounding_places : Bounding cst.Places where
  le := by
    rintro lo hi l ⟨span, above, -, -, hlo, hle, hhi⟩
    omega
  mono := by
    rintro lo lo' hi hi' l hlo' hhi' ⟨span, above, hpath, hspan, hlo, hle, hhi⟩
    exact ⟨span, above, hpath, hspan, Nat.le_trans hlo' hlo, hle, Nat.le_trans hhi hhi'⟩

theorem row_of_pairwise (hle : lo ≤ hi) (horder : locs.Pairwise cst.Precedes)
    (hplaces : ∀ l ∈ locs, cst.Places lo hi l) : cst.Row lo hi locs := by
  induction locs generalizing lo with
  | nil => exact hle
  | cons l locs ih =>
    rw [List.pairwise_cons] at horder
    obtain ⟨span, above, hpath, hspan, hlo, hspanle, hhi⟩ := hplaces l List.mem_cons_self
    refine ⟨span.stop, ⟨span, above, hpath, hspan, hlo, hspanle, Nat.le_refl _⟩, ih hhi horder.2 ?_⟩
    -- All others come after the first, so they start where it ends at the earliest.
    intro l' hl'
    obtain ⟨span', above', hpath', hspan', -, hspanle', hhi'⟩ := hplaces l' (List.mem_cons_of_mem _ hl')
    obtain ⟨-, s, s', hs, hs', hbefore⟩ := horder.1 l' hl'
    cases hspan.symm.trans hs
    cases hspan'.symm.trans hs'
    exact ⟨span', above', hpath', hspan', hbefore, hspanle', hhi'⟩

/-- A node with a span is one of the tree, and has a place in the source. -/
theorem Nested.covers_of_span? (h : cst.Nested src) {span : Span} (hspan : cst.span? l = some span) :
    span.start ≤ span.stop ∧ span.stop ≤ Text.byteLength src ∧ Text.Boundary src span.start ∧
      Text.Boundary src span.stop := by
  have hl : l < cst.nodes.size := by
    obtain ⟨entry, hentry, -⟩ := Option.map_eq_some_iff.1 hspan
    exact (Array.getElem?_eq_some_iff.1 hentry).1
  obtain ⟨span', -, hspan', hle, hstop, hbound, hbound', -⟩ := h.covers l hl
  cases hspan.symm.trans hspan'
  exact ⟨hle, hstop, hbound, hbound'⟩

/-- The members of a node follow each other inside the node. -/
theorem Places.row_children (hnested : cst.Nested src) (h : cst.Places lo hi l) :
    cst.Row lo hi (cst.children l) := by
  obtain ⟨span, above, hpath, hspan, hlo, hle, hhi⟩ := h
  refine row_of_pairwise (by omega) (hnested.ordered l above hpath) ?_
  intro child hchild
  obtain ⟨inner, outer, hinner, houter, hstart, hstop⟩ := hnested.inside l above hpath child hchild
  cases hspan.symm.trans houter
  have hcovers := hnested.covers_of_span? hinner
  exact ⟨inner, l :: above, hpath.child hchild, hinner, by omega, hcovers.1, by omega⟩

/-- The items of a source follow each other. -/
theorem MadeOf.row_roots {forest spares : List Tree} (h : cst.MadeOf src forest spares)
    (hnested : cst.Nested src) : cst.Row 0 (Text.byteLength src) cst.roots := by
  refine row_of_pairwise (Nat.zero_le _) hnested.roots fun root hroot => ?_
  obtain ⟨t, ht, rfl⟩ := h.exists_tree_of_path (.root hroot)
  have hspan := (h.holds_of_mem ht).span?_eq
  have hcovers := hnested.covers_of_span? hspan
  exact ⟨t.span, [], .root hroot, hspan, Nat.zero_le _, hcovers.1, hcovers.2.1⟩

theorem Row.part (before after : List Loc) (h : cst.Row lo hi (before ++ locs ++ after)) : cst.Row lo hi locs :=
  h.of_infix bounding_places ⟨before, after, rfl⟩

/-- The members of a node of a row. -/
theorem Row.members (hnested : cst.Nested src) (h : cst.Row lo hi locs) (hl : l ∈ locs) {node : Node}
    (hnode : cst.node? l = some node) : cst.Row lo hi node.children := by
  have hrow := (h.mem bounding_places hl).row_children hnested
  rwa [children, hnode] at hrow

end Cst

/-! ## Regions -/

namespace Region

variable {cst : Cst} {src : List Char} {r s t : Region} {lo hi start start' stop stop' : Nat}

/-- A region covers the source from where its first node starts to where its last node ends. -/
structure Spans (cst : Cst) (r : Region) (start stop : Nat) : Prop where
  left : ∃ span, cst.span? r.left = some span ∧ span.start = start
  last : ∃ span, cst.span? r.last = some span ∧ span.stop = stop
  le : start ≤ stop

/-- From the start of one region to the end of another. -/
theorem Spans.of_ends (hr : r.Spans cst start stop') (hs : s.Spans cst start' stop) (hle : start ≤ stop)
    (hleft : t.left = r.left) (hlast : t.last = s.last) : t.Spans cst start stop :=
  ⟨hleft ▸ hr.left, hlast ▸ hs.last, hle⟩

theorem last_between (left right : Loc) : (between left right).last = right := by
  by_cases h : right = left
  · simp [between, last, h]
  · simp [between, last, h]

theorem Spans.merge (hr : r.Spans cst start stop') (hs : s.Spans cst start' stop) (hle : start ≤ stop) :
    (r.merge s).Spans cst start stop :=
  hr.of_ends hs hle rfl (last_between r.left s.last)

/-- The text of a region. -/
theorem Spans.exists_source (hnested : cst.Nested src) (h : r.Spans cst start stop) :
    ∃ text, cst.regionSource? src r = some text := by
  obtain ⟨⟨span, hspan, rfl⟩, ⟨span', hspan', rfl⟩, hle⟩ := h
  obtain ⟨text, htext⟩ := (hnested.covers_of_span? hspan).2.2.1.exists_slice?
    (hnested.covers_of_span? hspan').2.2.2 hle
  refine ⟨text, ?_⟩
  simp [Cst.regionSource?, hspan, hspan', Nat.max_eq_left hle, htext]

theorem left_regionOf {taken : List Loc} (hne : taken ≠ []) (parent : Loc) :
    (Matcher.regionOf taken [] parent).left = taken.head hne := by
  rcases taken with _ | ⟨first, _ | ⟨second, more⟩⟩
  · exact absurd rfl hne
  · rfl
  · simp [Matcher.regionOf]

theorem last_regionOf {taken : List Loc} (hne : taken ≠ []) (parent : Loc) :
    (Matcher.regionOf taken [] parent).last = taken.getLast hne := by
  rcases taken with _ | ⟨first, _ | ⟨second, more⟩⟩
  · exact absurd rfl hne
  · rfl
  · have htake : (first :: second :: more).take ((first :: second :: more).length - 0) =
        first :: second :: more := List.take_length
    simp only [Matcher.regionOf, List.length_nil, htake, last, Option.getD_some]
    rw [List.getLast_cons (List.cons_ne_nil second more), List.getLast_eq_getLastD, List.getLastD_cons]

/-- Siblings that are taken cover what their region covers. -/
theorem exists_spans {taken : List Loc} (parent : Loc) (h : cst.Row lo hi taken) (hne : taken ≠ []) :
    ∃ start stop, lo ≤ start ∧ stop ≤ hi ∧ (Matcher.regionOf taken [] parent).Spans cst start stop ∧
      cst.Row start stop taken := by
  have hnode (lo hi : Nat) (l : Loc) (hl : cst.Places lo hi l) : ∃ start stop, lo ≤ start ∧ stop ≤ hi ∧
      (⟨l, none⟩ : Region).Spans cst start stop ∧ cst.Places start stop l := by
    obtain ⟨span, above, hpath, hspan, hlo, hle, hhi⟩ := hl
    exact ⟨span.start, span.stop, hlo, hhi, ⟨⟨span, hspan, rfl⟩, ⟨span, hspan, rfl⟩, hle⟩, span, above, hpath,
      hspan, Nat.le_refl _, hle, Nat.le_refl _⟩
  obtain ⟨start, stop, hlo, hhi, ⟨_, hhead⟩, ⟨_, hlast⟩, hrow⟩ := h.exists_ends Cst.bounding_places hnode hne
  refine ⟨start, stop, hlo, hhi, hhead.of_ends hlast (hrow.le Cst.bounding_places) (left_regionOf hne parent)
    (last_regionOf hne parent), hrow⟩

end Region

/-! ## Constructs -/

/-- A pattern, an expression or a statement. -/
inductive Construct where
  | pat (pat : Pat)
  | expr (expr : Expr)
  | stmt (stmt : Stmt)

/-- The pattern and the body of a case. -/
def Case.parts : Case → List Construct
  | mk pat body => [.pat pat, .expr body]

namespace Construct

/-- Where a construct was read from. -/
def region : Construct → Region
  | pat p => p.region
  | expr e => e.region
  | stmt s => s.region

/-- The constructs directly in a construct.  Those of a case are in the `switch`. -/
def children : Construct → List Construct
  | pat (.con _ args _) => args.map pat
  | pat (.any _) | pat (.var ..) | pat (.str ..) | pat (.prim ..) => []
  | expr (.block stmts _) => stmts.map stmt
  | expr (.ifElse cond yes no _) => [expr cond, expr yes] ++ no.toList.map expr
  | expr (.switch target cases _) => expr target :: cases.flatMap Case.parts
  | expr (.prim ..) | expr (.var ..) => []
  | expr (.str _ embeds _) => embeds.map expr
  | expr (.lambda args body _) => expr body :: args.map pat
  | expr (.call target args _) => expr target :: args.map expr
  | stmt (.forLoop init cond update body _) => [stmt init, expr cond, expr update, expr body]
  | stmt (.letBind p init _) => [pat p, expr init]
  | stmt (.expr value _) => [expr value]
  | stmt (.ret value _) => value.toList.map expr

/-- A construct is another one, or somewhere in it. -/
def Below : Construct → Construct → Prop :=
  Relation.ReflTransGen fun t part => part ∈ t.children

/-- A construct lies between two positions, and its parts lie inside it. -/
inductive Within (cst : Cst) : Nat → Nat → Construct → Prop
  | mk {lo hi start stop : Nat} {t : Construct} (hspans : t.region.Spans cst start stop) (hlo : lo ≤ start)
    (hhi : stop ≤ hi) (hparts : ∀ part ∈ t.children, Within cst start stop part) : Within cst lo hi t

variable {cst : Cst} {lo hi mid start stop : Nat} {t part : Construct}

/-- Between its own ends. -/
theorem Within.exists_ends (h : t.Within cst lo hi) : ∃ start stop, lo ≤ start ∧ stop ≤ hi ∧
    t.region.Spans cst start stop ∧ t.Within cst start stop := by
  obtain ⟨hspans, hlo, hhi, hparts⟩ := h
  exact ⟨_, _, hlo, hhi, hspans, hspans, Nat.le_refl _, Nat.le_refl _, hparts⟩

theorem bounding_within : Bounding (Within cst) where
  le := by
    rintro lo hi t ⟨hspans, hlo, hhi, -⟩
    exact Nat.le_trans hlo (Nat.le_trans hspans.le hhi)
  mono := by
    rintro lo lo' hi hi' t hlo' hhi' ⟨hspans, hlo, hhi, hparts⟩
    exact ⟨hspans, Nat.le_trans hlo' hlo, Nat.le_trans hhi hhi', hparts⟩

theorem Within.child (h : t.Within cst lo hi) (hpart : part ∈ t.children) : part.Within cst lo hi := by
  obtain ⟨hspans, hlo, hhi, hparts⟩ := h
  exact bounding_within.mono hlo hhi (hparts part hpart)

/-- A construct around another one, with the same region. -/
theorem Within.wrap (h : part.Within cst lo hi) (hregion : t.region = part.region)
    (hchildren : t.children = [part]) : t.Within cst lo hi := by
  obtain ⟨start, stop, hlo, hhi, hspans, hpart⟩ := h.exists_ends
  refine ⟨hregion ▸ hspans, hlo, hhi, ?_⟩
  simpa [hchildren] using hpart

/-- A construct that is read from siblings lies between their ends, if its parts do. -/
theorem within_of_row {taken : List Loc} (parent : Loc) (hne : taken ≠ []) (hrow : cst.Row lo hi taken)
    (hregion : t.region = Matcher.regionOf taken [] parent)
    (hparts : ∀ start stop, cst.Row start stop taken → ∀ part ∈ t.children, part.Within cst start stop) :
    t.Within cst lo hi := by
  obtain ⟨start, stop, hlo, hhi, hspans, hrow⟩ := Region.exists_spans parent hrow hne
  exact ⟨hregion ▸ hspans, hlo, hhi, hparts start stop hrow⟩

/-- A construct that reaches from an expression to the end of a region after it. -/
theorem Within.merge {target : Expr} {src : Region} (htarget : (expr target).Within cst lo mid)
    (hsrc : src.Spans cst start stop) (hmid : mid ≤ start) (hhi : stop ≤ hi)
    (hregion : t.region = target.region.merge src)
    (hparts : ∀ part ∈ t.children, part = .expr target ∨ part.Within cst mid stop) : t.Within cst lo hi := by
  obtain ⟨start', stop', hlo, hstop', hspans, htarget⟩ := htarget.exists_ends
  have hle := hspans.le
  have hle' := hsrc.le
  refine ⟨hregion ▸ hspans.merge hsrc (by omega), hlo, hhi, ?_⟩
  -- The target has the start of the whole; all else lies after the target and before the end.
  intro part hpart
  rcases hparts part hpart with rfl | hpart
  · exact bounding_within.mono (Nat.le_refl _) (by omega) htarget
  · exact bounding_within.mono (by omega) (Nat.le_refl _) hpart

/-- A variable with the region of a node. -/
theorem within_var {l : Loc} (name : String) (h : cst.Places lo hi l) :
    (expr (.var name ⟨l, none⟩)).Within cst lo hi := by
  have hrow : cst.Row lo hi [l] := ⟨hi, h, Nat.le_refl hi⟩
  exact within_of_row l (List.cons_ne_nil l []) hrow rfl fun _ _ _ => nofun

end Construct

open Construct (Within bounding_within within_of_row within_var)

variable {cst : Cst} {lo hi mid start stop : Nat}

/-! ## Tuples and arrays -/

section Tuples

variable {region : Region} {es : List Expr}

/-- A call of a variable that has the region of the call. -/
theorem within_call_var (name : String) (hspans : region.Spans cst start stop)
    (hes : ∀ e ∈ es, (Construct.expr e).Within cst start stop) :
    (Construct.expr (.call (.var name region) es region)).Within cst start stop := by
  refine ⟨hspans, Nat.le_refl _, Nat.le_refl _, ?_⟩
  have hvar : (Construct.expr (.var name region)).Within cst start stop :=
    ⟨hspans, Nat.le_refl _, Nat.le_refl _, nofun⟩
  simpa [Construct.children] using ⟨hvar, hes⟩

theorem within_tuple (hspans : region.Spans cst start stop)
    (hes : ∀ e ∈ es, (Construct.expr e).Within cst start stop) :
    (Construct.expr (Phrase.tuple region es)).Within cst start stop := by
  induction es using Phrase.tuple.induct with
  | case1 => exact ⟨hspans, Nat.le_refl _, Nat.le_refl _, nofun⟩
  | case2 only =>
    -- One member stands for itself, and may cover less than the brackets.
    exact hes only List.mem_cons_self
  | case3 first second rest ih =>
    have hrest := ih fun e he => hes e (List.mem_cons_of_mem _ he)
    rw [Phrase.tuple]
    exact within_call_var "," hspans (by simpa using ⟨hes first List.mem_cons_self, hrest⟩)

theorem within_array (hspans : region.Spans cst start stop)
    (hes : ∀ e ∈ es, (Construct.expr e).Within cst start stop) :
    (Construct.expr (Phrase.array region es)).Within cst start stop := by
  induction es with
  | nil => exact ⟨hspans, Nat.le_refl _, Nat.le_refl _, nofun⟩
  | cons first rest ih =>
    have hrest := ih fun e he => hes e (List.mem_cons_of_mem _ he)
    rw [Phrase.array]
    exact within_call_var "::" hspans (by simpa using ⟨hes first List.mem_cons_self, hrest⟩)

theorem within_tuplePat {ps : List Pat} (hspans : region.Spans cst start stop)
    (hps : ∀ p ∈ ps, (Construct.pat p).Within cst start stop) :
    (Construct.pat (Phrase.tuplePat region ps)).Within cst start stop := by
  induction ps using Phrase.tuplePat.induct with
  | case1 => exact ⟨hspans, Nat.le_refl _, Nat.le_refl _, nofun⟩
  | case2 only => exact hps only List.mem_cons_self
  | case3 first second rest ih =>
    have hrest := ih fun p hp => hps p (List.mem_cons_of_mem _ hp)
    rw [Phrase.tuplePat]
    refine ⟨hspans, Nat.le_refl _, Nat.le_refl _, ?_⟩
    simpa [Construct.children] using ⟨hps first List.mem_cons_self, hrest⟩

end Tuples

/-! ## Operators -/

/-- An operator and the operand after it lie between two positions. -/
def OperationWithin (cst : Cst) (lo hi : Nat) (o : Word × Expr) : Prop :=
  ∃ mid, cst.Places lo mid o.1.loc ∧ (Construct.expr o.2).Within cst mid hi

/-- Operands and operators that follow each other lie between the ends of their tree. -/
theorem Operator.Grouping.within (t : Operator.Grouping) (hfirst : (Construct.expr t.first).Within cst lo mid)
    (hrest : Lined (OperationWithin cst) mid hi t.rest) : (Construct.expr t.expr).Within cst lo hi := by
  induction t generalizing lo mid hi with
  | operand value => exact bounding_within.mono (Nat.le_refl _) hrest hfirst
  | apply op left right ihleft ihright =>
    obtain ⟨mid₁, hleft, mid₂, ⟨mid₃, hop, hright⟩, hrest⟩ := hrest.split
    have hleft := ihleft hfirst hleft
    -- The left side, the operator and the right side follow each other, and the call is around them.
    obtain ⟨start, stop, hstart, hstop, hspans, hright⟩ := (ihright hright hrest).exists_ends
    have hle := Cst.bounding_places.le hop
    have hle' := hspans.le
    refine hleft.merge hspans (by omega) hstop rfl fun part hpart => ?_
    simp only [expr, Construct.children, List.map_cons, List.map_nil, List.mem_cons, List.not_mem_nil,
      or_false] at hpart
    rcases hpart with rfl | rfl | rfl
    · exact .inr (within_var _ (Cst.bounding_places.mono (Nat.le_refl _) (by omega) hop))
    · exact .inl rfl
    · exact .inr (bounding_within.mono (by omega) (Nat.le_refl _) hright)

/-! ## Suffixes -/

namespace Suffix

/-- Where a suffix was read from. -/
def region : Suffix → Region
  | attr _ src | index _ src | call _ src => src

/-- What a suffix brings into the call that it makes. -/
def parts : Suffix → List Construct
  | attr name _ => [.expr (method name)]
  | index value src => [.expr (.var "index" src), .expr value]
  | call args _ => args.map .expr

/-- A suffix lies between two positions, and what it brings with it lies inside it. -/
def Within (cst : Cst) (lo hi : Nat) (s : Suffix) : Prop :=
  ∃ start stop, lo ≤ start ∧ stop ≤ hi ∧ s.region.Spans cst start stop ∧
    ∀ part ∈ s.parts, part.Within cst start stop

theorem Within.le {s : Suffix} (h : s.Within cst lo hi) : lo ≤ hi := by
  obtain ⟨start, stop, hstart, hstop, hspans, -⟩ := h
  exact Nat.le_trans hstart (Nat.le_trans hspans.le hstop)

theorem Within.part {s : Suffix} (h : s.Within cst lo hi) {part : Construct} (hpart : part ∈ s.parts) :
    part.Within cst lo hi := by
  obtain ⟨start, stop, hstart, hstop, -, hparts⟩ := h
  exact bounding_within.mono hstart hstop (hparts part hpart)

/-- A call that is made by some suffixes, of which the last one ends it. -/
theorem Within.merge {s : Suffix} {target : Expr} {t : Construct} {mid' : Nat}
    (hs : s.Within cst mid' hi) (htarget : (Construct.expr target).Within cst lo mid) (hmid : mid ≤ mid')
    (hregion : t.region = target.region.merge s.region)
    (hparts : ∀ part ∈ t.children, part = .expr target ∨ part.Within cst mid mid' ∨ part ∈ s.parts) :
    t.Within cst lo hi := by
  obtain ⟨start, stop, hstart, hstop, hspans, hs⟩ := hs
  have hle := hspans.le
  refine htarget.merge hspans (by omega) hstop hregion fun part hpart => ?_
  rcases hparts part hpart with rfl | hpart | hpart
  · exact .inl rfl
  · exact .inr (bounding_within.mono (Nat.le_refl _) (by omega) hpart)
  · exact .inr (bounding_within.mono (by omega) (Nat.le_refl _) (hs part hpart))

/-- An expression and suffixes that follow it lie between the ends of what they make. -/
theorem within_applyAll {target : Expr} {suffixes : List Suffix}
    (htarget : (Construct.expr target).Within cst lo mid) (h : Lined (Suffix.Within cst) mid hi suffixes) :
    (Construct.expr (applyAll target suffixes)).Within cst lo hi := by
  induction suffixes using Suffix.induction generalizing mid target with
  | nil => exact bounding_within.mono (Nat.le_refl _) h htarget
  | method name nameSrc args src rest ih =>
    obtain ⟨mid₁, hattr, mid₂, hcall, hrest⟩ := h
    refine ih (hcall.merge htarget hattr.le rfl fun part hpart => ?_) hrest
    simp only [Construct.children, List.map_cons, List.mem_cons] at hpart
    rcases hpart with rfl | rfl | hpart
    · exact .inr (.inl (hattr.part List.mem_cons_self))
    · exact .inl rfl
    · exact .inr (.inr hpart)
  | attr name src rest halone ih =>
    obtain ⟨mid₁, hattr, hrest⟩ := h
    rw [applyAll_attr halone]
    refine ih (hattr.merge htarget (Nat.le_refl mid) rfl fun part hpart => ?_) hrest
    simp only [Construct.children, List.map_cons, List.map_nil, List.mem_cons, List.not_mem_nil,
      or_false] at hpart
    rcases hpart with rfl | rfl
    · exact .inr (.inr List.mem_cons_self)
    · exact .inl rfl
  | index value src rest ih =>
    obtain ⟨mid₁, hindex, hrest⟩ := h
    refine ih (hindex.merge htarget (Nat.le_refl mid) rfl fun part hpart => ?_) hrest
    simp only [Construct.children, List.map_cons, List.map_nil, List.mem_cons, List.not_mem_nil,
      or_false] at hpart
    rcases hpart with rfl | rfl | rfl
    · exact .inr (.inr List.mem_cons_self)
    · exact .inl rfl
    · exact .inr (.inr (List.mem_cons_of_mem _ List.mem_cons_self))
  | call args src rest ih =>
    obtain ⟨mid₁, hcall, hrest⟩ := h
    refine ih (hcall.merge htarget (Nat.le_refl mid) rfl fun part hpart => ?_) hrest
    rcases List.mem_cons.1 hpart with rfl | hpart
    · exact .inl rfl
    · exact .inr (.inr hpart)

end Suffix

/-! ## Forms of the language -/

/-- A phrase lies between two positions. -/
def Phrase.Within (cst : Cst) (lo hi : Nat) : Phrase → Prop
  | pat p => (Construct.pat p).Within cst lo hi
  | expr e => (Construct.expr e).Within cst lo hi
  | stmt s => (Construct.stmt s).Within cst lo hi
  | word w => cst.Places lo hi w.loc
  | absent | node _ | number .. | text .. | many _ | suffix _ | case _ => True

/-- An expression as a statement keeps its region. -/
theorem Phrase.Within.stmt? {v : Phrase} {s : Stmt} (h : v.Within cst lo hi) (hs : v.stmt? = some s) :
    (Construct.stmt s).Within cst lo hi := by
  cases v with
  | stmt s' =>
    cases hs
    exact h
  | expr e =>
    cases hs
    exact Construct.Within.wrap h rfl rfl
  | absent | node | word | number | text | many | pat | suffix | case => cases hs

/-- A statement as a body keeps its region, or is the expression in it. -/
theorem Phrase.Within.body? {v : Phrase} {e : Expr} (h : v.Within cst lo hi) (he : v.body? = some e) :
    (Construct.expr e).Within cst lo hi := by
  cases v with
  | expr e' =>
    cases he
    exact h
  | stmt s =>
    cases s with
    | expr value src =>
      -- The statement is dropped, and with it a region around that of its expression.
      cases he
      exact Construct.Within.child h List.mem_cons_self
    | forLoop | letBind | ret =>
      cases he
      exact Construct.Within.wrap h rfl rfl
  | absent | node | word | number | text | many | pat | suffix | case => cases he

namespace Language

/-- Phrases lie between the ends of the siblings that they are read from, of which there is one at least. -/
def ranges (cst : Cst) : Reading := fun rule _ taken v =>
  Form rule v ∧ taken ≠ [] ∧ ∀ lo hi, cst.Row lo hi taken → v.Within cst lo hi

theorem ranges_formed : (ranges cst).Formed := fun _ _ _ _ h => h.1

variable {src : List Char} {rule : String} {parent : Loc} {taken : List Loc} {v : Phrase}

theorem ranges.expr {e : Expr} (h : ranges cst rule parent taken (.expr e)) (hrow : cst.Row lo hi taken) :
    (Construct.expr e).Within cst lo hi := h.2.2 lo hi hrow

theorem ranges.pat {p : Pat} (h : ranges cst rule parent taken (.pat p)) (hrow : cst.Row lo hi taken) :
    (Construct.pat p).Within cst lo hi := h.2.2 lo hi hrow

/-- Phrases that follow each other, read from siblings that do. -/
theorem Series.lined {α : Type} {P : List Loc → α → Prop} {Q : Nat → Nat → α → Prop} {as : List α}
    (h : Series P as taken) (hrow : cst.Row lo hi taken)
    (hP : ∀ t a lo hi, P t a → cst.Row lo hi t → Q lo hi a) : Lined Q lo hi as := by
  induction as generalizing taken lo with
  | nil =>
    obtain rfl : taken = [] := h
    exact hrow
  | cons a as ih =>
    obtain ⟨t, t', rfl, -, ha, has⟩ := h
    obtain ⟨mid, ht, ht'⟩ := hrow.split
    exact ⟨mid, hP t a lo mid ha ht, ih has ht'⟩

/-- Phrases that are read from the members of a node. -/
theorem Series.within {α : Type} {P : List Loc → α → Prop} {as : List α} (construct : α → Construct)
    (h : Series P as taken) (hrow : cst.Row lo hi taken)
    (hP : ∀ t a, P t a → cst.Row lo hi t → (construct a).Within cst lo hi) :
    ∀ a ∈ as, (construct a).Within cst lo hi := by
  intro a ha
  obtain ⟨t, ht, hPa⟩ := h.mem ha
  exact hP t a hPa (hrow.of_infix Cst.bounding_places ht)

theorem SuffixOf.within (hnested : cst.Nested src) {s : Suffix} (h : SuffixOf (ranges cst) cst taken s)
    (hrow : cst.Row lo hi taken) : s.Within cst lo hi := by
  cases h with
  | @attr l w =>
    obtain ⟨start, stop, hstart, hstop, hspans, hrow⟩ := Region.exists_spans l hrow (List.cons_ne_nil _ _)
    have hname := hrow.mem Cst.bounding_places (List.mem_cons_of_mem l List.mem_cons_self)
    have hmethod : (Construct.expr (Suffix.method w)).Within cst start stop := within_var w.text hname
    exact ⟨start, stop, hstart, hstop, hspans, by simpa [Suffix.parts] using hmethod⟩
  | @index l children multiline e hnode he =>
    obtain ⟨start, stop, hstart, hstop, hspans, hrow⟩ := Region.exists_spans l hrow (List.cons_ne_nil _ _)
    have hindex := he.expr (hrow.members hnested List.mem_cons_self hnode)
    have hvar : (Construct.expr (.var "index" ⟨l, none⟩)).Within cst start stop :=
      within_var "index" (hrow.mem Cst.bounding_places List.mem_cons_self)
    exact ⟨start, stop, hstart, hstop, hspans, by simpa [Suffix.parts] using ⟨hvar, hindex⟩⟩
  | @call l children multiline es hnode hes =>
    obtain ⟨start, stop, hstart, hstop, hspans, hrow⟩ := Region.exists_spans l hrow (List.cons_ne_nil _ _)
    have hargs := hes.within .expr (hrow.members hnested List.mem_cons_self hnode)
      fun t e he hrow => he.expr hrow
    exact ⟨start, stop, hstart, hstop, hspans, by simpa [Suffix.parts] using hargs⟩

theorem Made.taken_ne_nil (h : Made (ranges cst) cst rule parent taken v) : taken ≠ [] := by
  cases h with
  | letBind htaken | ifElse htaken => simp [htaken]
  | exprStmt he | blockStmt he | single _ he | ifExpr he => exact he.2.1
  | suffixed he | operations he => simp [he.2.1]
  | _ => exact List.cons_ne_nil _ _

theorem CaseOf.within {c : Case} (h : CaseOf (ranges cst) parent taken c) (hrow : cst.Row lo hi taken) :
    ∀ part ∈ c.parts, part.Within cst lo hi := by
  obtain ⟨t, t', p, v, body, rfl, hp, hv, hbody, rfl⟩ := h
  have hpat := hp.pat (.part [] t' hrow)
  have hbody := (hv.2.2 lo hi (.part t [] (by simpa using hrow))).body? hbody
  simpa [Case.parts] using ⟨hpat, hbody⟩

theorem OperationOf.within {o : Word × Expr} (h : OperationOf (ranges cst) parent taken o)
    (hrow : cst.Row lo hi taken) : OperationWithin cst lo hi o := by
  obtain ⟨t, t', rfl, hop, hright⟩ := h
  obtain ⟨mid, ht, ht'⟩ := hrow.split
  exact ⟨mid, hop.2.2 lo mid ht, hright.expr ht'⟩

/-- **Every form of the language lies between the ends of what it is read from**, and its parts lie inside
it. -/
theorem Made.within (hnested : cst.Nested src) (h : Made (ranges cst) cst rule parent taken v)
    (hrow : cst.Row lo hi taken) : v.Within cst lo hi := by
  have hne := h.taken_ne_nil
  cases h with
  -- Statements.
  | @letBind _ l l' _ t t' p e htaken _ _ hp he =>
    refine within_of_row parent hne hrow rfl fun start stop hrow => ?_
    rw [htaken] at hrow
    have hpat := hp.pat (.part [l] (l' :: t') (by simpa using hrow))
    have hinit := he.expr (.part (l :: t ++ [l']) [] (by simpa using hrow))
    simpa [Construct.children] using ⟨hpat, hinit⟩
  | @ret _ l t e _ he =>
    refine within_of_row parent hne hrow rfl fun start stop hrow => ?_
    have hvalue := he.expr (.part [l] [] (by simpa using hrow))
    simpa [Construct.children] using hvalue
  | @forLoop _ l l' t t₁ t₂ t₃ multiline v init cond update body _ hnode hinit hv hcond hupdate hbody =>
    refine within_of_row parent hne hrow rfl fun start stop hrow => ?_
    have hhead : cst.Row start stop (t₁ ++ (t₂ ++ t₃)) :=
      hrow.members hnested (List.mem_cons_of_mem l List.mem_cons_self) hnode
    have hinit := (hinit.2.2 start stop (.part [] (t₂ ++ t₃) (by simpa using hhead))).stmt? hv
    have hcond := hcond.expr (.part t₁ t₃ (by simpa using hhead))
    have hupdate := hupdate.expr (.part (t₁ ++ t₂) [] (by simpa using hhead))
    have hbody := hbody.expr (.part [l, l'] [] (by simpa using hrow))
    simpa [Construct.children] using ⟨hinit, hcond, hupdate, hbody⟩
  | block hnode hstmts =>
    refine within_of_row parent hne hrow rfl fun start stop hrow => ?_
    have hstmts := hstmts.within .stmt (hrow.members hnested List.mem_cons_self hnode)
      fun t s hs hrow => (hs.choose_spec.2.2.2 start stop hrow).stmt? hs.choose_spec.1
    simpa [Construct.children] using hstmts
  | exprStmt he =>
    refine within_of_row parent hne hrow rfl fun start stop hrow => ?_
    simpa [Construct.children] using he.expr hrow
  | blockStmt hv | single _ hv | ifExpr hv => exact hv.2.2 lo hi hrow
  | spacedStmt hnode _ hv => exact hv.2.2 lo hi (hrow.members hnested List.mem_cons_self hnode)
  -- Expressions.
  | spaced hnode hv | smooshed hnode hv => exact hv.2.2 lo hi (hrow.members hnested List.mem_cons_self hnode)
  | @str _ l spans s es hnode hes =>
    refine within_of_row parent hne hrow rfl fun start stop hrow => ?_
    have hembeds (e : Expr) (he : e ∈ es) : (Construct.expr e).Within cst start stop := by
      obtain ⟨item, hchild, he⟩ := exists_of_mem_right hes he
      have hitem := (hrow.members hnested List.mem_cons_self hnode).mem Cst.bounding_places hchild
      exact he.expr ⟨stop, hitem, Nat.le_refl stop⟩
    simpa [Construct.children] using hembeds
  | tuple hnode hes =>
    obtain ⟨start, stop, hstart, hstop, hspans, hrow⟩ := Region.exists_spans parent hrow hne
    have hes := hes.within .expr (hrow.members hnested List.mem_cons_self hnode) fun _ _ he => he.expr
    exact bounding_within.mono hstart hstop (within_tuple hspans hes)
  | array hnode hes =>
    obtain ⟨start, stop, hstart, hstop, hspans, hrow⟩ := Region.exists_spans parent hrow hne
    have hes := hes.within .expr (hrow.members hnested List.mem_cons_self hnode) fun _ _ he => he.expr
    exact bounding_within.mono hstart hstop (within_array hspans hes)
  | suffixed he hsuffixes =>
    obtain ⟨mid, ht, ht'⟩ := hrow.split
    exact Suffix.within_applyAll (he.expr ht) (hsuffixes.lined ht' fun _ _ _ _ hs => hs.within hnested)
  | @lambda _ l l' children t multiline ps body hnode hps _ hbody =>
    refine within_of_row parent hne hrow rfl fun start stop hrow => ?_
    have hargs := hps.within .pat (hrow.members hnested List.mem_cons_self hnode) fun _ _ hp => hp.pat
    have ht : cst.Row start stop t := .part [l, l'] [] (by simpa using hrow)
    have hbody : (Construct.expr body).Within cst start stop := hbody.elim (·.expr ht) (·.expr ht)
    simpa [Construct.children] using ⟨hbody, hargs⟩
  | @switch _ l l' l'' children _ _ rows target cases _ hnode htarget hnode' hcases =>
    refine within_of_row parent hne hrow rfl fun start stop hrow => ?_
    have htarget := htarget.expr (hrow.members hnested (by simp) hnode)
    have hrows : cst.Row start stop rows.flatten := hrow.members hnested (by simp) hnode'
    have hcases (c : Case) (hc : c ∈ cases) : ∀ part ∈ c.parts, part.Within cst start stop := by
      obtain ⟨cells, hcells, hc⟩ := exists_of_mem_right hcases hc
      obtain ⟨before, after, rfl⟩ := List.append_of_mem hcells
      exact hc.within (.part before.flatten after.flatten (by simpa using hrows))
    simp only [Construct.children, List.forall_mem_cons, List.forall_mem_flatMap]
    exact ⟨htarget, hcases⟩
  | @ifElse _ l l' children _ t t' multiline cond yes no htaken _ hnode hcond hyes _ hno =>
    refine within_of_row parent hne hrow rfl fun start stop hrow => ?_
    rw [htaken] at hrow
    have hcond := hcond.expr (hrow.members hnested (by simp) hnode)
    have hyes := hyes.expr (.part [l, l'] t' (by simpa using hrow))
    have hno (e : Expr) (he : e ∈ no) : (Construct.expr e).Within cst start stop := by
      obtain ⟨l'', t'', rfl, -, he⟩ := hno e he
      have ht'' : cst.Row start stop t'' := .part (l :: l' :: t ++ [l'']) [] (by simpa using hrow)
      exact he.elim (·.expr ht'') (·.expr ht'')
    simpa [Construct.children] using ⟨hcond, hyes, hno⟩
  | @operations _ t t' first rest tree hfirst hrest htree =>
    obtain ⟨mid, ht, ht'⟩ := hrow.split
    -- The tree has the operands and operators in the order in which they stand in the row.
    obtain ⟨rfl, rfl⟩ := htree.inorder
    exact tree.within (hfirst.expr ht) (hrest.lined ht' fun _ _ _ _ ho => ho.within)
  | bop =>
    have hop := hrow.mem Cst.bounding_places List.mem_cons_self
    exact hop
  -- Patterns.
  | conPat hnode _ hnode' hps =>
    refine within_of_row parent hne hrow rfl fun start stop hrow => ?_
    have hmembers := hrow.members hnested List.mem_cons_self hnode
    have hfields := hmembers.members hnested (List.mem_cons_of_mem _ List.mem_cons_self) hnode'
    simpa [Construct.children] using hps.within .pat hfields fun _ _ hp => hp.pat
  | tuplePat hnode hps =>
    obtain ⟨start, stop, hstart, hstop, hspans, hrow⟩ := Region.exists_spans parent hrow hne
    have hps := hps.within .pat (hrow.members hnested List.mem_cons_self hnode) fun _ _ hp => hp.pat
    exact bounding_within.mono hstart hstop (within_tuplePat hspans hps)
  | bareReturn | number | var | anyPat | numberPat | boolPat | strPat | varPat =>
    exact within_of_row parent hne hrow rfl fun _ _ _ => nofun

/-! ## Programs -/

theorem keeps_ranges (hnested : cst.Nested src) : Matcher.Keeps (ranges cst).contract grammar cst :=
  keeps_of_made ranges_formed fun _ _ _ _ h =>
    ⟨h.formed ranges_formed, h.taken_ne_nil, fun _ _ hrow => h.within hnested hrow⟩

theorem Parsed.of_result {p : Parsed} {stmt : Stmt} {metadata : Metadata}
    (h : p.result = .ok (stmt, metadata)) : p.stmt = some stmt ∧ p.metadata = metadata := by
  unfold result at h
  split at h
  · cases h
  · split at h
    · next hstmt _ =>
      cases h
      exact ⟨hstmt, rfl⟩
    · cases h
    · cases h
    · cases h

/-- Of several items, each is read by itself. -/
theorem exists_of_parseRoots_cons {root : Loc} {roots : List Loc} {stmts : List Stmt} {metadata : Metadata}
    (h : parseRoots cst (root :: roots) = .ok (stmts, metadata)) :
    ∃ stmt stmts' more, stmts = stmt :: stmts' ∧ (parse cst root).stmt = some stmt ∧
      parseRoots cst roots = .ok (stmts', more) ∧ metadata = (parse cst root).metadata.union more := by
  rw [parseRoots] at h
  rcases hresult : (parse cst root).result with e | ⟨stmt, md⟩
  · rw [hresult] at h
    cases h
  · rcases hmore : parseRoots cst roots with e | ⟨stmts', more⟩
    · rw [hresult, hmore] at h
      cases h
    · rw [hresult, hmore] at h
      cases h
      obtain ⟨hstmt, rfl⟩ := Parsed.of_result hresult
      exact ⟨stmt, stmts', more, rfl, hstmt, rfl, rfl⟩

/-- The statement that an item is read as lies between the ends of the item. -/
theorem within_of_parse (hnested : cst.Nested src) {root : Loc} {stmt : Stmt}
    (h : (parse cst root).stmt = some stmt) (hroot : cst.Places lo hi root) :
    (Construct.stmt stmt).Within cst lo hi := by
  obtain ⟨v, hv, hstmt⟩ := Option.bind_eq_some_iff.1 h
  have hranges := reading_of_value (keeps_ranges hnested) hv
  exact (hranges.2.2 lo hi ⟨hi, hroot, Nat.le_refl hi⟩).stmt? hstmt

/-- The statements that items are read as follow each other. -/
theorem lined_of_parseRoots (hnested : cst.Nested src) {roots : List Loc} {stmts : List Stmt}
    {metadata : Metadata} (h : parseRoots cst roots = .ok (stmts, metadata)) (hrow : cst.Row lo hi roots) :
    Lined (Within cst) lo hi (stmts.map .stmt) := by
  induction roots generalizing lo stmts metadata with
  | nil =>
    cases h
    exact hrow
  | cons root roots ih =>
    obtain ⟨stmt, stmts', more, rfl, hstmt, hmore, -⟩ := exists_of_parseRoots_cons h
    obtain ⟨mid, hroot, hroots⟩ := hrow
    exact ⟨mid, within_of_parse hnested hstmt hroot, ih hmore hroots⟩

/-- Several statements make a block that reaches from the first to the last of them. -/
theorem within_block {first second : Stmt} {rest : List Stmt} {region : Region}
    (h : Lined (Within cst) lo hi ((first :: second :: rest).map .stmt))
    (hregion : region = first.region.merge ((second :: rest).getLastD second).region) :
    (Construct.expr (.block (first :: second :: rest) region)).Within cst lo hi := by
  have hne : (first :: second :: rest).map Construct.stmt ≠ [] := List.cons_ne_nil _ _
  obtain ⟨start, stop, hstart, hstop, ⟨_, hhead⟩, ⟨_, hlast⟩, hlined⟩ :=
    h.exists_ends bounding_within (fun _ _ _ ht => ht.exists_ends) hne
  have hend : ((first :: second :: rest).map Construct.stmt).getLast hne =
      .stmt ((second :: rest).getLastD second) := by
    rw [List.getLast_map, List.getLast_cons (List.cons_ne_nil second rest), List.getLast_eq_getLastD,
      List.getLastD_cons]
  rw [hend] at hlast
  refine ⟨hregion ▸ hhead.merge hlast (hlined.le bounding_within), hstart, hstop, ?_⟩
  intro part hpart
  exact hlined.mem bounding_within hpart

/-- A program is the only statement of its source, or a block of several. -/
theorem exists_of_parseAll {stmt : Stmt} {metadata : Metadata} (h : parseAll cst = .ok (stmt, metadata)) :
    ∃ stmts, parseRoots cst cst.roots = .ok (stmts, metadata) ∧
      (stmts = [stmt] ∨ ∃ first second rest region, stmts = first :: second :: rest ∧
        region = first.region.merge ((second :: rest).getLastD second).region ∧
        stmt = .expr (.block stmts region) region) := by
  rw [parseAll] at h
  rcases hroots : parseRoots cst cst.roots with e | ⟨stmts, md⟩
  · rw [hroots] at h
    cases h
  · rw [hroots] at h
    rcases stmts with _ | ⟨first, _ | ⟨second, rest⟩⟩
    · cases h
    · cases h
      exact ⟨_, rfl, .inl rfl⟩
    · cases h
      exact ⟨_, rfl, .inr ⟨first, second, rest, _, rfl, rfl, rfl⟩⟩

/-- A program lies between the ends of its source. -/
theorem within_of_parseAll (hnested : cst.Nested src) {stmt : Stmt} {metadata : Metadata}
    (h : parseAll cst = .ok (stmt, metadata)) (hrow : cst.Row lo hi cst.roots) :
    (Construct.stmt stmt).Within cst lo hi := by
  obtain ⟨stmts, hroots, hstmt⟩ := exists_of_parseAll h
  have hlined := lined_of_parseRoots hnested hroots hrow
  rcases hstmt with rfl | ⟨first, second, rest, region, rfl, hregion, rfl⟩
  · exact hlined.mem bounding_within List.mem_cons_self
  · exact (within_block hlined hregion).wrap rfl rfl

/-- **The regions of a program are parts of its source, and nested.**  The first and the last node of every
construct are nodes of the syntax tree, the one does not start after the other ends, there is a text between
these ends, and all constructs in it lie between them. -/
theorem parseAll_regions {a : Alphabet} {src : List Char} {cst : Cst} {stmt : Stmt} {metadata : Metadata}
    (hlex : Cst.lex a src = .ok cst) (hparse : parseAll cst = .ok (stmt, metadata)) (t : Construct)
    (ht : (Construct.stmt stmt).Below t) :
    ∃ start stop text, t.region.Spans cst start stop ∧ cst.regionSource? src t.region = some text ∧
      ∀ part ∈ t.children, ∃ start' stop', part.region.Spans cst start' stop' ∧ start ≤ start' ∧
        stop' ≤ stop := by
  obtain ⟨forest, spares, next, stop, hmade, horderly⟩ := Cst.exists_orderly hlex
  have hnested := hmade.nested horderly
  -- On the way down from the program: every part lies where the whole does.
  have hwithin : ∃ lo hi, t.Within cst lo hi := by
    induction ht with
    | refl => exact ⟨_, _, within_of_parseAll hnested hparse (hmade.row_roots hnested)⟩
    | tail _ hpart ih =>
      obtain ⟨lo, hi, hwithin⟩ := ih
      exact ⟨lo, hi, hwithin.child hpart⟩
  obtain ⟨lo, hi, hwithin⟩ := hwithin
  obtain ⟨hspans, -, -, hparts⟩ := hwithin
  obtain ⟨text, htext⟩ := hspans.exists_source hnested
  refine ⟨_, _, text, hspans, htext, ?_⟩
  intro part hpart
  obtain ⟨start', stop', hstart, hstop, hspans', -⟩ := (hparts part hpart).exists_ends
  exact ⟨start', stop', hspans', hstart, hstop⟩

/-- What follows from evaluating the region of a program. -/
theorem exists_of_region {lexed : Except LexError Cst} {region : Region}
    (h : (lexed.toOption.bind fun cst => (parseAll cst).toOption).map (fun p => p.1.region) = some region) :
    ∃ cst stmt metadata, lexed = .ok cst ∧ parseAll cst = .ok (stmt, metadata) ∧ stmt.region = region := by
  rcases lexed with e | cst
  · cases h
  · rcases hparse : parseAll cst with e | ⟨stmt, metadata⟩
    · simp [Except.toOption, hparse] at h
    · exact ⟨cst, stmt, metadata, rfl, hparse, by simpa [Except.toOption, hparse] using h⟩

/-- Two items, with a call, an attribute, an index, an embedded expression, an operator and an operand in
brackets. -/
def nestedSource : List Char := "f(a).b[\"$\x7bc\x7d\"];\nx + (y)".toList

theorem parseAll_regions_nestedSource :
    ∃ cst stmt metadata, Cst.lex .js nestedSource = .ok cst ∧ parseAll cst = .ok (stmt, metadata) ∧
      stmt.region = ⟨3, some 12⟩ ∧ ∀ t, (Construct.stmt stmt).Below t →
        ∃ start stop text, t.region.Spans cst start stop ∧
          cst.regionSource? nestedSource t.region = some text ∧
          ∀ part ∈ t.children, ∃ start' stop', part.region.Spans cst start' stop' ∧ start ≤ start' ∧
            stop' ≤ stop := by
  have hregion : ((Cst.lex .js nestedSource).toOption.bind fun cst => (parseAll cst).toOption).map
      (fun p => p.1.region) = some ⟨3, some 12⟩ := by decide +kernel
  obtain ⟨cst, stmt, metadata, hlex, hparse, hregion⟩ := exists_of_region hregion
  exact ⟨cst, stmt, metadata, hlex, hparse, hregion, parseAll_regions hlex hparse⟩

end Language

end TypeTrace
