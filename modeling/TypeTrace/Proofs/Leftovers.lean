import TypeTrace.Proofs.Positions

/-!
# Leftovers

A list or a row of a table has to be matched without a rest.  If a match of its members leaves some
of them, it fails, and the record keeps what was left, so that an error can point at it.  The report
travels through all calls around the one that failed: a success drops it, and a failure without a
report of its own leaves it alone.  What it holds when matching ends are therefore siblings that some
matcher did leave, or nothing.

## Main definitions

* `Matcher.Leftover`: what a match has left of the members of a list or of a row
* `Matcher.Reports`: nested calls report leftovers only

## Main results

* `Matcher.Reports.step`: one combinator reports leftovers only if the calls for its parts do
* `Grammar.parse_leftovers`: what a node that is no phrase is reported with
-/

namespace TypeTrace

namespace Matcher

open MatchM

variable {V : Type} [MatchValue V] {g : Grammar V} {cst : Cst}

/-! ## What is reported -/

/-- What a match has left of the members of a list or of a row of a table, at `root` or below it. -/
def Leftover (g : Grammar V) (cst : Cst) (root : Loc) (left : List Loc) : Prop :=
  left ≠ [] ∧ ∃ l siblings m v journal bindings, cst.Below root l ∧ cst.Groups l siblings ∧
    Matches g cst m siblings l (some ⟨(v, left), journal, bindings⟩)

/-- The record reports nothing but a leftover. -/
def Honest (g : Grammar V) (cst : Cst) (root : Loc) (s : MatchRecord V) : Prop :=
  s.unparsed = [] ∨ Leftover g cst root s.unparsed

/-- Nested calls follow the rules, and below `root` they report leftovers only. -/
structure Reports (g : Grammar V) (cst : Cst) (root : Loc) (call : MatchCall V) : Prop where
  follows : Follows g cst call
  honest (m : Matcher V) (nodes : List Loc) (parent : Loc) (s : MatchRecord V)
    (hnodes : ∀ l ∈ nodes, cst.Below root l) (hs : Honest g cst root s) :
    Ensures (call m nodes parent) s fun _ s' => Honest g cst root s'

omit [MatchValue V] in
/-- What holds of the record before a word, and after it was looked at, holds in the end. -/
theorem ensures_stepWord_record {Q : MatchRecord V → Prop} {nodes : List Loc} {s : MatchRecord V}
    {accept : String → Loc → MatchM V (Option V)} (hs : Q s)
    (haccept : ∀ found loc, Ensures (accept found loc) s fun _ s' => Q s') :
    Ensures (stepWord cst nodes accept) s fun _ s' => Q s' := by
  cases nodes with
  | nil => exact ensures_pure.mpr hs
  | cons loc rest =>
    rcases hnode : cst.node? loc with _ | (found | spans | ⟨kind, children, multiline⟩ | rows)
    case some.id =>
      simp only [stepWord, hnode, ensures_bind]
      refine (haccept found loc).mono fun r s' hs' => ?_
      cases r with
      | none => exact ensures_pure.mpr hs'
      | some v => exact ensures_pure.mpr hs'
    all_goals
      simp only [stepWord, hnode]
      exact ensures_pure.mpr hs

/-- A role that is noted, or not, changes no report. -/
theorem ensures_note?_honest {root loc : Loc} {role : Option Role} {s : MatchRecord V}
    (hs : Honest g cst root s) : Ensures (note? loc role) s fun _ s' => Honest g cst root s' := by
  cases role with
  | none => exact ensures_pure.mpr hs
  | some role => exact ensures_modify.mpr hs

namespace Reports

variable {root : Loc} {call : MatchCall V}

theorem call_spec (h : Reports g cst root call) (m : Matcher V) {nodes : List Loc} (parent : Loc)
    {s : MatchRecord V} (hnodes : ∀ l ∈ nodes, cst.Below root l) (hs : Honest g cst root s) :
    Ensures (call m nodes parent) s fun r s' =>
      Honest g cst root s' ∧ Settles (Matches g cst m nodes parent) s r s' :=
  fun r s' hr => ⟨h.honest m nodes parent s hnodes hs r s' hr, h.follows m nodes parent s r s' hr⟩

theorem stepSeq (h : Reports g cst root call) (parent : Loc) (ms : List (Matcher V))
    {nodes : List Loc} {s : MatchRecord V} (hnodes : ∀ l ∈ nodes, cst.Below root l)
    (hs : Honest g cst root s) :
    Ensures (stepSeq call parent ms nodes) s fun _ s' => Honest g cst root s' := by
  induction ms generalizing nodes s with
  | nil => exact ensures_pure.mpr hs
  | cons m ms ih =>
    simp only [Matcher.stepSeq, ensures_bind]
    refine (h.call_spec m parent hnodes hs).mono fun r s₁ hr => ?_
    rcases r with _ | ⟨v, mid⟩
    · exact ensures_pure.mpr hr.1
    · obtain ⟨hs₁, _, _, hhead, _⟩ := hr
      have hmid : ∀ l ∈ mid, cst.Below root l := fun l hl =>
        hnodes l ((hhead.suffix _ rfl).subset hl)
      simp only [ensures_bind]
      refine (ih hmid hs₁).mono fun r s₂ hs₂ => ?_
      cases r with
      | none => exact ensures_pure.mpr hs₂
      | some p => exact ensures_pure.mpr hs₂

theorem stepOr (h : Reports g cst root call) (parent : Loc) (ms : List (Matcher V))
    {nodes : List Loc} {s : MatchRecord V} (hnodes : ∀ l ∈ nodes, cst.Below root l)
    (hs : Honest g cst root s) :
    Ensures (stepOr call nodes parent ms) s fun _ s' => Honest g cst root s' := by
  induction ms generalizing s with
  | nil => exact ensures_pure.mpr hs
  | cons m ms ih =>
    simp only [Matcher.stepOr, ensures_bind]
    refine (h.honest m nodes parent s hnodes hs).mono fun r s₁ hs₁ => ?_
    cases r with
    | none => exact ih hs₁
    | some hit => exact ensures_pure.mpr hs₁

theorem stepStar (h : Reports g cst root call) (m : Matcher V) (parent : Loc) (n : Nat)
    {nodes : List Loc} {s : MatchRecord V} (hnodes : ∀ l ∈ nodes, cst.Below root l)
    (hs : Honest g cst root s) :
    Ensures (stepStar call m parent n nodes) s fun _ s' => Honest g cst root s' := by
  induction n generalizing nodes s with
  | zero => exact ensures_pure.mpr hs
  | succ n ih =>
    simp only [Matcher.stepStar, ensures_bind, ensures_get]
    refine (h.call_spec m parent hnodes hs).mono fun r s₁ hr => ?_
    rcases r with _ | ⟨v, mid⟩
    · exact ensures_pure.mpr hr.1
    · obtain ⟨hs₁, _, _, hround, _⟩ := hr
      have hmid : ∀ l ∈ mid, cst.Below root l := fun l hl =>
        hnodes l ((hround.suffix _ rfl).subset hl)
      by_cases htaken : mid.length < nodes.length
      · simp only [if_pos htaken, ensures_bind]
        exact (ih hmid hs₁).mono fun p s₂ hs₂ => ensures_pure.mpr hs₂
      · simp only [if_neg htaken, ensures_bind, ensures_get, ensures_set]
        exact ensures_pure.mpr hs₁

theorem stepSpans (h : Reports g cst root call) (m : Matcher V) (spans : List (TextSpan Loc))
    {s : MatchRecord V} (hspans : ∀ item, .embed item ∈ spans → cst.Below root item)
    (hs : Honest g cst root s) :
    Ensures (stepSpans call m spans) s fun _ s' => Honest g cst root s' := by
  induction spans generalizing s with
  | nil => exact ensures_pure.mpr hs
  | cons span spans ih =>
    have hrest : ∀ item, .embed item ∈ spans → cst.Below root item := fun item hitem =>
      hspans item (List.mem_cons_of_mem span hitem)
    cases span with
    | text t =>
      simp only [Matcher.stepSpans, ensures_bind]
      refine (ih hrest hs).mono fun r s₁ hs₁ => ?_
      cases r with
      | none => exact ensures_pure.mpr hs₁
      | some vs => exact ensures_pure.mpr hs₁
    | embed item =>
      have hitem : ∀ l ∈ [item], cst.Below root l := fun l hl =>
        List.mem_singleton.mp hl ▸ hspans item List.mem_cons_self
      simp only [Matcher.stepSpans, ensures_bind]
      refine (h.honest m [item] item s hitem hs).mono fun r s₁ hs₁ => ?_
      rcases r with _ | ⟨v, _ | ⟨left, rest⟩⟩
      · exact ensures_pure.mpr hs₁
      · simp only [ensures_bind]
        refine (ih hrest hs₁).mono fun r s₂ hs₂ => ?_
        cases r with
        | none => exact ensures_pure.mpr hs₂
        | some vs => exact ensures_pure.mpr hs₂
      · exact ensures_pure.mpr hs₁

/-- What is left of a row is reported. -/
theorem stepRows (h : Reports g cst root call) (m : Matcher V) {table : Loc}
    (htable : cst.Below root table) (rows : List (List Loc)) {s : MatchRecord V}
    (hrows : ∀ cells ∈ rows, cst.Groups table cells) (hs : Honest g cst root s) :
    Ensures (stepRows call m table rows) s fun _ s' => Honest g cst root s' := by
  induction rows generalizing s with
  | nil => exact ensures_pure.mpr hs
  | cons cells rows ih =>
    have hcells : cst.Groups table cells := hrows cells List.mem_cons_self
    simp only [Matcher.stepRows, ensures_bind]
    refine (h.call_spec m table (fun l hl => htable.tail (hcells.mem_children hl)) hs).mono
      fun r s₁ hr => ?_
    rcases r with _ | ⟨v, _ | ⟨cell, rest⟩⟩
    · exact ensures_pure.mpr hr.1
    · simp only [ensures_bind]
      refine (ih (fun cells hmem => hrows cells (List.mem_cons_of_mem _ hmem)) hr.1).mono
        fun r s₂ hs₂ => ?_
      cases r with
      | none => exact ensures_pure.mpr hs₂
      | some vs => exact ensures_pure.mpr hs₂
    -- The rest of the row is the report, and the match of the row is what left it.
    · obtain ⟨-, journal, bindings, hrow, -⟩ := hr
      simp only [report, ensures_bind, ensures_modify]
      exact ensures_pure.mpr (.inr ⟨List.cons_ne_nil cell rest, table, cells, m, v, journal,
        bindings, htable, hcells, hrow⟩)

theorem text (h : Reports g cst root call) (inner : Matcher V) {nodes : List Loc} (parent : Loc)
    {s : MatchRecord V} (hnodes : ∀ l ∈ nodes, cst.Below root l) (hs : Honest g cst root s) :
    Ensures (Matcher.step call g cst (.text inner) nodes parent) s
      fun _ s' => Honest g cst root s' := by
  cases nodes with
  | nil => exact ensures_pure.mpr hs
  | cons loc rest =>
    rcases hnode : cst.node? loc with _ | (found | spans | ⟨kind, children, multiline⟩ | rows)
    case some.text =>
      have hspans : ∀ item, .embed item ∈ spans → cst.Below root item := fun item hitem =>
        (hnodes loc List.mem_cons_self).tail (Cst.mem_children_of_embed hnode hitem)
      simp only [Matcher.step, hnode, ensures_bind]
      refine (h.stepSpans inner spans hspans hs).mono fun r s' hs' => ?_
      cases r with
      | none => exact ensures_pure.mpr hs'
      | some vs => exact ensures_pure.mpr hs'
    all_goals
      simp only [Matcher.step, hnode]
      exact ensures_pure.mpr hs

/-- What is left of the members of a list is reported. -/
theorem list (h : Reports g cst root call) (kind : ListMatch) (inner : Matcher V)
    (role : Option Role) {nodes : List Loc} (parent : Loc) {s : MatchRecord V}
    (hnodes : ∀ l ∈ nodes, cst.Below root l) (hs : Honest g cst root s) :
    Ensures (Matcher.step call g cst (.list kind inner role) nodes parent) s
      fun _ s' => Honest g cst root s' := by
  cases nodes with
  | nil => exact ensures_pure.mpr hs
  | cons loc rest =>
    rcases hnode : cst.node? loc with _ | (found | spans | ⟨found, children, multiline⟩ | rows)
    case some.list =>
      by_cases hkind : kind.accepts found = true
      · have hbelow : cst.Below root loc := hnodes loc List.mem_cons_self
        have hgroup : cst.Groups loc children := .inl ⟨found, multiline, hnode⟩
        simp only [Matcher.step, hnode, if_pos hkind, ensures_bind]
        refine (h.call_spec inner loc (fun l hl => hbelow.tail (hgroup.mem_children hl)) hs).mono
          fun r s₁ hr => ?_
        rcases r with _ | ⟨v, _ | ⟨child, left⟩⟩
        · exact ensures_pure.mpr hr.1
        · simp only [ensures_bind]
          exact (ensures_note?_honest hr.1).mono fun _ s₂ hs₂ => ensures_pure.mpr hs₂
        -- The match of the members is what left the rest.
        · obtain ⟨-, journal, bindings, hinner, -⟩ := hr
          simp only [report, ensures_bind, ensures_modify]
          exact ensures_pure.mpr (.inr ⟨List.cons_ne_nil child left, loc, children, inner, v,
            journal, bindings, hbelow, hgroup, hinner⟩)
      · simp only [Matcher.step, hnode, if_neg hkind]
        exact ensures_pure.mpr hs
    all_goals
      simp only [Matcher.step, hnode]
      exact ensures_pure.mpr hs

theorem table (h : Reports g cst root call) (kind : ListKind) (row : Matcher V) {nodes : List Loc}
    (parent : Loc) {s : MatchRecord V} (hnodes : ∀ l ∈ nodes, cst.Below root l)
    (hs : Honest g cst root s) :
    Ensures (Matcher.step call g cst (.table kind row) nodes parent) s
      fun _ s' => Honest g cst root s' := by
  cases nodes with
  | nil => exact ensures_pure.mpr hs
  | cons loc rest =>
    rcases hnode : cst.node? loc with _ | (found | spans | ⟨found, children, multiline⟩ |
      ⟨found, rows, multiline⟩)
    case some.table =>
      by_cases hkind : found = kind
      · have hrows : ∀ cells ∈ rows, cst.Groups loc cells := fun cells hcells =>
          .inr ⟨found, rows, multiline, hnode, hcells⟩
        simp only [Matcher.step, hnode, if_pos hkind, ensures_bind]
        refine (h.stepRows row (hnodes loc List.mem_cons_self) rows hrows hs).mono
          fun r s' hs' => ?_
        cases r with
        | none => exact ensures_pure.mpr hs'
        | some vs => exact ensures_pure.mpr hs'
      · simp only [Matcher.step, hnode, if_neg hkind]
        exact ensures_pure.mpr hs
    all_goals
      simp only [Matcher.step, hnode]
      exact ensures_pure.mpr hs

theorem ref (h : Reports g cst root call) (rule : String) (name : Option String)
    {nodes : List Loc} (parent : Loc) {s : MatchRecord V} (hnodes : ∀ l ∈ nodes, cst.Below root l)
    (hs : Honest g cst root s) :
    Ensures (Matcher.step call g cst (.ref rule name) nodes parent) s
      fun _ s' => Honest g cst root s' := by
  cases hrule : g.rule? rule with
  | none =>
    simp only [Matcher.step, hrule]
    exact ensures_pure.mpr hs
  | some target =>
    simp only [Matcher.step, hrule, ensures_bind]
    refine (h.honest target nodes parent s hnodes hs).mono fun r s' hs' => ?_
    rcases r with _ | ⟨v, rest⟩
    · exact ensures_pure.mpr hs'
    · cases name with
      | none => exact ensures_pure.mpr hs'
      | some name =>
        simp only [MatchM.name, ensures_bind, ensures_modify]
        exact ensures_pure.mpr hs'

theorem tx (h : Reports g cst root call) (inner : Matcher V)
    (build : Bindings V → Region → Option V) {nodes : List Loc} (parent : Loc) {s : MatchRecord V}
    (hnodes : ∀ l ∈ nodes, cst.Below root l) (hs : Honest g cst root s) :
    Ensures (Matcher.step call g cst (.tx inner build) nodes parent) s
      fun _ s' => Honest g cst root s' := by
  simp only [Matcher.step, setBindings, ensures_bind, ensures_get, ensures_modify]
  have hown : Honest g cst root { s with bindings := [] } := hs
  refine (h.honest inner nodes parent _ hnodes hown).mono fun r s' hs' => ?_
  rcases r with _ | ⟨v, rest⟩
  · exact ensures_pure.mpr hs'
  · cases hbuild : build s'.bindings (regionOf nodes rest parent) with
    | none =>
      simp only [hbuild]
      exact ensures_pure.mpr hs'
    | some v =>
      simp only [hbuild]
      exact ensures_pure.mpr hs'

/-- **One combinator reports leftovers only** if the calls for its parts do. -/
theorem step (h : Reports g cst root call) (m : Matcher V) {nodes : List Loc} (parent : Loc)
    {s : MatchRecord V} (hnodes : ∀ l ∈ nodes, cst.Below root l) (hs : Honest g cst root s) :
    Ensures (m.step call g cst nodes parent) s fun _ s' => Honest g cst root s' := by
  cases m with
  | any =>
    cases nodes with
    | nil => exact ensures_pure.mpr hs
    | cons loc rest => exact ensures_pure.mpr hs
  | kwd word role =>
    refine ensures_stepWord_record hs fun found loc => ?_
    by_cases hword : found = word
    · simp only [if_pos hword, note, ensures_bind, ensures_modify]
      exact ensures_pure.mpr hs
    · simp only [if_neg hword]
      exact ensures_pure.mpr hs
  | id role =>
    refine ensures_stepWord_record hs fun found loc => ?_
    by_cases hname : (g.isKwd found || isDigits found) = true
    · simp only [if_pos hname]
      exact ensures_pure.mpr hs
    · simp only [if_neg hname, ensures_bind]
      exact (ensures_note?_honest hs).mono fun _ s' hs' => ensures_pure.mpr hs'
  | number =>
    refine ensures_stepWord_record hs fun found loc => ?_
    by_cases hdigits : (isDigits found && digitsValue found ≤ maxNumber) = true
    · simp only [if_pos hdigits]
      exact ensures_pure.mpr hs
    · simp only [if_neg hdigits]
      exact ensures_pure.mpr hs
  | text inner => exact h.text inner parent hnodes hs
  | list kind inner role => exact h.list kind inner role parent hnodes hs
  | table kind row => exact h.table kind row parent hnodes hs
  | seq items =>
    simp only [Matcher.step, ensures_bind]
    refine (h.stepSeq parent items hnodes hs).mono fun r s' hs' => ?_
    cases r with
    | none => exact ensures_pure.mpr hs'
    | some p => exact ensures_pure.mpr hs'
  | or items => exact h.stepOr parent items hnodes hs
  | star inner =>
    simp only [Matcher.step, ensures_bind]
    exact (h.stepStar inner parent _ hnodes hs).mono fun p s' hs' => ensures_pure.mpr hs'
  | opt inner =>
    simp only [Matcher.step, ensures_bind]
    refine (h.honest inner nodes parent s hnodes hs).mono fun r s' hs' => ?_
    cases r with
    | none => exact ensures_pure.mpr hs'
    | some hit => exact ensures_pure.mpr hs'
  | group name inner =>
    simp only [Matcher.step, ensures_bind]
    refine (h.honest inner nodes parent s hnodes hs).mono fun r s' hs' => ?_
    rcases r with _ | ⟨v, rest⟩
    · exact ensures_pure.mpr hs'
    · simp only [MatchM.name, ensures_bind, ensures_modify]
      exact ensures_pure.mpr hs'
  | ref rule name => exact h.ref rule name parent hnodes hs
  | tx inner build => exact h.tx inner build parent hnodes hs

end Reports

/-- A report travels through an attempt, unless it is replaced by another one or dropped. -/
theorem Honest.attempt {α : Type} {root : Loc} {m : MatchM V (Option α)} {s : MatchRecord V}
    (hs : Honest g cst root s)
    (h : Ensures m { s with unparsed := [] } fun _ s' => Honest g cst root s') :
    Ensures (attempt m) s fun _ s' => Honest g cst root s' := by
  simp only [MatchM.attempt, report, ensures_bind, ensures_get, ensures_modify]
  refine h.mono fun r s' hs' => ?_
  cases r with
  | some a =>
    simp only [ensures_bind, ensures_modify, ensures_pure]
    exact hs
  | none =>
    simp only [ensures_bind, ensures_get, ensures_set, ensures_pure]
    cases hstuck : s'.unparsed with
    | nil => exact hs
    | cons l left =>
      rw [Honest, hstuck] at hs'
      exact hs'

end Matcher

namespace Grammar

open Matcher

variable {V : Type} [MatchValue V] (g : Grammar V) (cst : Cst)

/-- **The engine reports leftovers only**, with whatever bound on nested calls. -/
theorem match?_reports (root : Loc) (fuel : Nat) : Reports g cst root (g.match? cst fuel) := by
  induction fuel with
  | zero => exact ⟨match?_follows g cst 0, fun m nodes parent s _ _ a s' h => nomatch h⟩
  | succ fuel ih =>
    exact ⟨match?_follows g cst (fuel + 1), fun m nodes parent s hnodes hs =>
      hs.attempt (ih.step m parent hnodes (.inl rfl))⟩

/-- How reading a node by a matcher ends: with a value and no report, or without a value, without
roles, and with a report of nothing, of the node itself or of a leftover below it. -/
theorem run_cases (m : Matcher V) (root : Loc) :
    (∃ v, (g.run cst m root).1 = some v ∧ (g.run cst m root).2.unparsed = []) ∨
    ((g.run cst m root).1 = none ∧ (g.run cst m root).2.journal = [] ∧
      ((g.run cst m root).2.unparsed = [root] ∨ Honest g cst root (g.run cst m root).2)) := by
  unfold run
  cases hend : g.match? cst (g.nestedCalls cst) m [root] root .empty with
  | none => exact .inr ⟨rfl, rfl, .inr (.inl rfl)⟩
  | some p =>
    obtain ⟨r, s⟩ := p
    have hroot : ∀ l ∈ [root], cst.Below root l := fun l hl => List.mem_singleton.mp hl ▸ .refl
    obtain ⟨hhonest, hsettles⟩ :=
      (match?_reports g cst root _).call_spec m root hroot (.inl rfl) r s hend
    rcases r with _ | ⟨v, _ | ⟨l, left⟩⟩
    · obtain ⟨_, hjournal, _⟩ := hsettles
      exact .inr ⟨rfl, hjournal, .inr hhonest⟩
    · obtain ⟨journal, bindings, _, hs⟩ := hsettles
      exact .inl ⟨v, rfl, congrArg _ hs⟩
    · -- There was one sibling and it is left, so nothing was noted.
      obtain ⟨journal, bindings, hmatch, hs⟩ := hsettles
      refine .inr ⟨rfl, ?_, .inl rfl⟩
      have hjournal : journal = [] := (hmatch.took _ rfl).journal_eq_nil (by simp)
      rw [hs, hjournal]
      rfl

/-- How reading a node by a rule ends, if it is not nested too deep: with a value and no report, or
without a value, and then the nodes reported, or the node itself, are all that has a role. -/
theorem parse_cases (rule : String) {root : Loc} (hdepth : ¬ g.maxNesting < (cst.nesting root).1) :
    (g.parse cst rule root).tooDeep = none ∧
    ((∃ v, (g.parse cst rule root).value = some v ∧ (g.parse cst rule root).unparsed = []) ∨
    ((g.parse cst rule root).value = none ∧
      ((g.parse cst rule root).unparsed = [] ∨ (g.parse cst rule root).unparsed = [root] ∨
        Leftover g cst root (g.parse cst rule root).unparsed) ∧
      ∀ l role, (g.parse cst rule root).metadata.get? l = some role ↔
        role = .unparsed ∧ (l ∈ (g.parse cst rule root).unparsed ∨
          (g.parse cst rule root).unparsed = [] ∧ l = root))) := by
  refine ⟨by simp [parse, hdepth], ?_⟩
  -- A rule that does not exist matches nothing, and so the node itself is marked.
  rcases hrule : g.rule? rule with _ | m
  · refine .inr ⟨by simp [parse, hdepth, hrule], .inl (by simp [parse, hdepth, hrule,
      MatchRecord.empty]), fun l role => ?_⟩
    simp only [parse, hdepth, hrule, if_false, Dict.get?_foldl_insert, MatchRecord.empty,
      List.reverse_nil, Dict.ofList, List.foldl_nil, Dict.get?_empty]
    grind
  · rcases g.run_cases cst m root with ⟨v, hvalue, hunparsed⟩ | ⟨hvalue, hjournal, hunparsed⟩
    · exact .inl ⟨v, by simp [parse, hdepth, hrule, hvalue, hunparsed]⟩
    · refine .inr ⟨by simp [parse, hdepth, hrule, hvalue], ?_, fun l role => ?_⟩
      · simp only [parse, hdepth, hrule, if_false]
        rcases hunparsed with h | h | h
        · exact .inr (.inl h)
        · exact .inl h
        · exact .inr (.inr h)
      · simp only [parse, hdepth, hrule, hvalue, hjournal, if_false, Dict.get?_foldl_insert,
          List.reverse_nil, Dict.ofList, List.foldl_nil, Dict.get?_empty]
        grind

/-- **Failed matches report only real leftovers.**  A node that is read as a phrase leaves no report.
If it is no phrase, the nodes with a role are those reported, or the node itself if nothing was, and
all of them are marked as unparsed; what is reported is the node, or a final segment of the members
of a list or of a row of a table below the node, which some matcher left when it was tried there.  A
node is refused for its depth exactly if it is deeper than the grammar admits. -/
theorem parse_leftovers (rule : String) (root : Loc) :
    ((g.parse cst rule root).value ≠ none → (g.parse cst rule root).unparsed = []) ∧
    ((g.parse cst rule root).value = none → ∀ l role,
      (g.parse cst rule root).metadata.get? l = some role ↔
        role = .unparsed ∧ (l ∈ (g.parse cst rule root).unparsed ∨
          (g.parse cst rule root).unparsed = [] ∧ l = root)) ∧
    ((g.parse cst rule root).unparsed = [] ∨ (g.parse cst rule root).unparsed = [root] ∨
      ∃ l siblings, cst.Below root l ∧ cst.Groups l siblings ∧
        (g.parse cst rule root).unparsed ≠ [] ∧ (g.parse cst rule root).unparsed <:+ siblings ∧
        ∃ m v journal bindings, Matches g cst m siblings l
          (some ⟨(v, (g.parse cst rule root).unparsed), journal, bindings⟩)) ∧
    (∀ nesting, (g.parse cst rule root).tooDeep = some nesting ↔
      g.maxNesting < (cst.nesting root).1 ∧
        nesting = ⟨(cst.nesting root).2, (cst.nesting root).1, g.maxNesting⟩) := by
  by_cases hdepth : g.maxNesting < (cst.nesting root).1
  · have hparse : g.parse cst rule root = ⟨none, .singleton root .unparsed, [],
        some ⟨(cst.nesting root).2, (cst.nesting root).1, g.maxNesting⟩⟩ := by
      simp [parse, hdepth]
    rw [hparse]
    refine ⟨fun h => absurd rfl h, fun _ l role => ?_, .inl rfl, fun nesting => ?_⟩
    · rw [Dict.get?_singleton]
      grind
    · simp only [Option.some.injEq, hdepth, true_and, eq_comm]
  · obtain ⟨hnone, hcases⟩ := g.parse_cases cst rule hdepth
    refine ⟨?_, ?_, ?_, fun nesting => by simp [hnone, hdepth]⟩
    · intro hvalue
      rcases hcases with ⟨v, -, hunparsed⟩ | ⟨hfail, -⟩
      · exact hunparsed
      · exact absurd hfail hvalue
    · intro hvalue l role
      rcases hcases with ⟨v, hsome, -⟩ | ⟨-, -, hmetadata⟩
      · cases hvalue.symm.trans hsome
      · exact hmetadata l role
    · rcases hcases with ⟨v, -, hunparsed⟩ | ⟨-, hunparsed | hunparsed | hunparsed, -⟩
      · exact .inl hunparsed
      · exact .inl hunparsed
      · exact .inr (.inl hunparsed)
      · obtain ⟨hne, l, siblings, m, v, journal, bindings, hbelow, hgroup, hmatch⟩ := hunparsed
        exact .inr (.inr ⟨l, siblings, hbelow, hgroup, hne, hmatch.suffix _ rfl, m, v, journal,
          bindings, hmatch⟩)

/-- A list of the word `a`, or of the words `a c`. -/
def oneOrTwoWords : Grammar Phrase where
  rules := .singleton "words" (.or [.list (.exact .spaced) (.kwd "a" .kwd) none,
    .list (.exact .spaced) (.seq [.kwd "a" .kwd, .kwd "c" .punct]) none])
  kwds := []

/-- On the words `a b` both alternatives take `a` and note it, the first leaves `b`, and the second
fails without a report: `b` is reported, and neither role of `a` is left. -/
theorem parse_leftovers_twoWords :
    (oneOrTwoWords.parse twoWords "words" 0).value = none ∧
    (oneOrTwoWords.parse twoWords "words" 0).unparsed = [2] ∧
    ∀ l role, (oneOrTwoWords.parse twoWords "words" 0).metadata.get? l = some role ↔
      role = .unparsed ∧ l = 2 := by
  have hvalue : (oneOrTwoWords.parse twoWords "words" 0).value = none := by decide +kernel
  have hunparsed : (oneOrTwoWords.parse twoWords "words" 0).unparsed = [2] := by decide +kernel
  refine ⟨hvalue, hunparsed, fun l role => ?_⟩
  rw [(parse_leftovers oneOrTwoWords twoWords "words" 0).2.1 hvalue l role, hunparsed]
  simp

end Grammar
end TypeTrace
