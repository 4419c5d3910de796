import Mathlib.Data.List.Sort
import TypeTrace.Analysis
import TypeTrace.Proofs.Builders
import TypeTrace.Proofs.Leftovers
import TypeTrace.Proofs.Lines
import TypeTrace.Proofs.Regions

/-!
# Where syntax errors are reported

A text whose tree is no program is reported at one position.  It is the start of a node in the first
item that is no statement: of the item itself, of the first of the nodes that were left in it, or of a
node that is too deep.  Nodes that were left are kept sorted by their places in the store, and the
first of them is the leftmost one because siblings are stored in the order in which they are read.

## Main definitions

* `Cst.AtDepth`: the level of a node below another one
* `Cst.StartsAt`: where a node starts
* `Language.ErrorAt`: a position at which an error in an item may be reported

## Main results

* `Cst.atDepth_nesting`: the node reported as deepest is as deep as reported
* `Language.unparsed_eq`: the nodes reported as unparsed are those that matching has left
* `Language.exists_errorAt`: an item that is no statement has a position at which it is reported
* `Analysis.syntax_error_located`: syntax errors are located in the first item that is no statement
-/

namespace TypeTrace

namespace Cst

/-- The level of a node below another one, which is the first level. -/
inductive AtDepth (cst : Cst) (root : Loc) : Nat → Loc → Prop
  | root : AtDepth cst root 1 root
  | child {depth : Nat} {l child : Loc} (h : AtDepth cst root depth l)
    (hchild : child ∈ cst.children l) : AtDepth cst root (depth + 1) child

/-- The first byte of a node. -/
def StartsAt (cst : Cst) (l : Loc) (pos : Nat) : Prop := (cst.span? l).map Span.start = some pos

variable {cst : Cst} {root l : Loc} {src : List Char}

theorem below_of_atDepth {depth : Nat} (h : cst.AtDepth root depth l) : cst.Below root l := by
  induction h with
  | root => exact .refl
  | child _ hchild ih => exact ih.tail hchild

/-- The search for the deepest node compares nodes by their levels. -/
theorem atDepth_deepest (fuel : Nat) (stack : List (Loc × Nat)) (best : Nat × Loc)
    (hstack : ∀ e ∈ stack, cst.AtDepth root e.2 e.1) (hbest : cst.AtDepth root best.1 best.2) :
    cst.AtDepth root (cst.deepest fuel stack best).1 (cst.deepest fuel stack best).2 := by
  induction fuel generalizing stack best with
  | zero => exact hbest
  | succ fuel ih =>
    match stack with
    | [] => exact hbest
    | (l, depth) :: stack =>
      have hl : cst.AtDepth root depth l := hstack _ List.mem_cons_self
      refine ih _ _ (fun e he => ?_) ?_
      · rcases List.mem_append.mp he with he | he
        · obtain ⟨child, hchild, rfl⟩ := List.mem_map.mp he
          exact hl.child (List.mem_reverse.mp hchild)
        · exact hstack e (List.mem_cons_of_mem _ he)
      · split
        · exact hl
        · exact hbest

/-- **The node reported as deepest is as deep as reported.** -/
theorem atDepth_nesting (cst : Cst) (root : Loc) :
    cst.AtDepth root (cst.nesting root).1 (cst.nesting root).2 :=
  atDepth_deepest _ _ _ (by simp [AtDepth.root]) .root

end Cst

/-- All that is below a tree lies inside it. -/
theorem Tree.inside_of_mem_nodes {src : List Char} {t u : Tree} (h : ∀ v ∈ t.nodes, v.Laid src)
    (hu : u ∈ t.nodes) : t.span.start ≤ u.span.start ∧ u.span.stop ≤ t.span.stop := by
  induction t using Tree.induction with
  | h t ih =>
    have hself := h t t.mem_nodes_self
    rw [Tree.nodes_eq] at hu
    rcases List.mem_cons.mp hu with rfl | hu
    · exact ⟨Nat.le_refl _, Nat.le_refl _⟩
    · obtain ⟨child, hchild, hu⟩ := List.mem_flatMap.mp hu
      have hbelow : ∀ v ∈ child.nodes, v ∈ t.nodes := fun v hv =>
        Tree.nodes_subset (Tree.mem_nodes_of_mem_children t.mem_nodes_self hchild) hv
      have hinner := ih child hchild (fun v hv => h v (hbelow v hv)) hu
      have houter := hself.inside child hchild
      exact ⟨Nat.le_trans houter.1 hinner.1, Nat.le_trans hinner.2 houter.2⟩

namespace Cst

variable {cst : Cst} {root l : Loc} {src : List Char}

/-- A node below a root starts between two characters, and inside the root. -/
theorem exists_startsAt {a : Alphabet} (hlex : Cst.lex a src = .ok cst) (hroot : root ∈ cst.roots)
    (hl : cst.Below root l) : ∃ span pos, cst.StartsAt l pos ∧ Text.Boundary src pos ∧
      cst.span? root = some span ∧ span.start ≤ pos ∧ pos < span.stop := by
  obtain ⟨forest, spares, next, stop, hmade, horderly⟩ := exists_orderly hlex
  obtain ⟨t, ht, rfl⟩ := List.mem_map.mp (hmade.roots ▸ hroot)
  have htree : t ∈ forest.flatMap Tree.nodes := List.mem_flatMap.mpr ⟨t, ht, t.mem_nodes_self⟩
  have hnodes : ∀ u ∈ t.nodes, u ∈ forest.flatMap Tree.nodes := fun u hu =>
    List.mem_flatMap.mpr ⟨t, ht, hu⟩
  have hlaid : ∀ u ∈ t.nodes, u.Laid src := fun u hu =>
    MadeOf.laid horderly (List.mem_append_left _ (hnodes u hu))
  obtain ⟨u, hu, rfl⟩ := (hmade.below_iff htree).mp hl
  obtain ⟨hstart, hstop⟩ := Tree.inside_of_mem_nodes hlaid hu
  refine ⟨t.span, u.span.start, ?_, (hlaid u hu).start, (hmade.holds_of_mem htree).span?_eq, hstart,
    Nat.lt_of_lt_of_le (hlaid u hu).lt hstop⟩
  rw [StartsAt, (hmade.holds_of_mem (hnodes u hu)).span?_eq]
  rfl

/-- Members of a list, or cells of a row, follow each other. -/
theorem Groups.pairwise {siblings : List Loc} (h : cst.Groups l siblings)
    (hnested : cst.Nested src) {above : List Loc} (hpath : cst.Path l above) :
    siblings.Pairwise cst.Precedes := by
  refine (hnested.ordered l above hpath).sublist ?_
  rcases h with ⟨kind, multiline, hnode⟩ | ⟨kind, rows, multiline, hnode, hrow⟩
  · simp [children, hnode, Node.children]
  · simpa [children, hnode, Node.children] using List.sublist_flatten_of_mem hrow

end Cst

namespace Language

variable {cst : Cst} {root : Loc} {src : List Char} {a : Alphabet}

/-! ## The errors of an item -/

theorem Parsed.unparsed_pairwise (p : Parsed) : p.unparsed.Pairwise (· < ·) := by
  rw [Parsed.unparsed, List.pairwise_map]
  exact (p.metadata.ascending.imp fun h => Nat.compare_eq_lt.mp h).filter _

/-- An item that no rule accepts is reported itself, unless other nodes are. -/
theorem Parsed.result_of_none {p : Parsed} (hdepth : p.tooDeep = none) (hstmt : p.stmt = none) :
    p.result = .error (.noMatch p.root) ∨
      p.result = .error (.unparsed p.unparsed) ∧ p.unparsed ≠ [p.root] := by
  simp only [Parsed.result, hdepth, hstmt]
  split
  · contradiction
  · exact .inl rfl
  · next l _ hl =>
    rw [hl]
    by_cases hroot : l = p.root
    · exact .inl (by rw [if_pos hroot])
    · exact .inr ⟨by rw [if_neg hroot], by simpa using hroot⟩
  · next hnil hone => exact .inr ⟨rfl, hone _ rfl⟩

/-- An item that is read as a phrase is a statement without a rest. -/
theorem exists_result_of_value (hlex : Cst.lex a src = .ok cst) (hroot : root ∈ cst.roots)
    {v : Phrase} (hvalue : (grammar.parse cst "stmt" root).value = some v) :
    ∃ stmt metadata, (parse cst root).result = .ok (stmt, metadata) := by
  obtain ⟨stmt, hv⟩ := exists_stmt?_of_value hvalue
  have hstmt : (parse cst root).stmt = some stmt := by
    simp only [parse, hvalue, Option.bind_some, hv]
  obtain ⟨L, stop, -, hmade⟩ := Cst.exists_reads hlex
  obtain ⟨t, ht, rfl⟩ := List.mem_map.mp (hmade.roots ▸ hroot)
  obtain ⟨-, -, -, hdepth⟩ := parse_of_stmt hstmt
  exact ⟨stmt, _, result_eq_ok hstmt hdepth fun l hl =>
    (accounts_of_stmt hmade ht hstmt).parsed _ ((get?_metadata hmade ht hstmt l _).mp hl) rfl⟩

/-- What matching has left of some siblings is in the order of the source. -/
theorem pairwise_of_leftover (hlex : Cst.lex a src = .ok cst) (hroot : root ∈ cst.roots)
    {left : List Loc} (h : Matcher.Leftover grammar cst root left) : left.Pairwise cst.Precedes := by
  obtain ⟨-, l, siblings, m, v, journal, bindings, hbelow, hgroup, hmatch⟩ := h
  obtain ⟨above, hpath⟩ := (Cst.Path.root hroot).exists_of_below hbelow
  obtain ⟨forest, spares, next, stop, hmade, horderly⟩ := Cst.exists_orderly hlex
  exact (hgroup.pairwise (hmade.nested horderly) hpath).sublist (hmatch.suffix _ rfl).sublist

theorem below_of_leftover {left : List Loc} (h : Matcher.Leftover grammar cst root left) {l : Loc}
    (hl : l ∈ left) : cst.Below root l := by
  obtain ⟨-, parent, siblings, m, v, journal, bindings, hbelow, hgroup, hmatch⟩ := h
  exact hbelow.tail (hgroup.mem_children ((hmatch.suffix _ rfl).subset hl))

/-- How an item is refused: for its depth, as a whole, or for what matching has left in it, which is
then reported in the order of the source. -/
theorem error_cases (hlex : Cst.lex a src = .ok cst) (hroot : root ∈ cst.roots) {error : ParseError}
    (h : (parse cst root).result = .error error) :
    (∃ nesting, error = .tooDeep nesting ∧ cst.AtDepth root nesting.depth nesting.loc) ∨
    error = .noMatch root ∨
    error = .unparsed (grammar.parse cst "stmt" root).unparsed ∧
      Matcher.Leftover grammar cst root (grammar.parse cst "stmt" root).unparsed := by
  by_cases hdepth : grammar.maxNesting < (cst.nesting root).1
  · have hresult : (parse cst root).result = .error (.tooDeep
        ⟨(cst.nesting root).2, (cst.nesting root).1, grammar.maxNesting⟩) := by
      simp [Parsed.result, parse, Grammar.parse, hdepth]
    obtain rfl := Except.error.inj (h.symm.trans hresult)
    exact .inl ⟨_, rfl, cst.atDepth_nesting root⟩
  · obtain ⟨hnone, ⟨v, hvalue, -⟩ | ⟨hvalue, hunparsed, hmetadata⟩⟩ :=
      grammar.parse_cases cst "stmt" hdepth
    · obtain ⟨stmt, metadata, hok⟩ := exists_result_of_value hlex hroot hvalue
      cases h.symm.trans hok
    · have hstmt : (parse cst root).stmt = none := by simp only [parse, hvalue, Option.bind_none]
      have hmem (l : Loc) : l ∈ (parse cst root).unparsed ↔
          l ∈ (grammar.parse cst "stmt" root).unparsed ∨
            (grammar.parse cst "stmt" root).unparsed = [] ∧ l = root :=
        Parsed.mem_unparsed.trans ((hmetadata l _).trans (and_iff_right rfl))
      rcases Parsed.result_of_none hnone hstmt with hresult | ⟨hresult, hne⟩
      · exact .inr (.inl (Except.error.inj (h.symm.trans hresult)))
      · -- Both lists are sorted by place, so they are equal if they have the same members.
        have hsorted := (parse cst root).unparsed_pairwise
        have heq {locs : List Loc} (hlocs : locs.Pairwise (· < ·))
            (h : ∀ l, l ∈ (parse cst root).unparsed ↔ l ∈ locs) : (parse cst root).unparsed = locs :=
          hsorted.eq_of_mem_iff hlocs h
        rcases hunparsed with hu | hu | hu
        · exact absurd (heq (List.pairwise_singleton _ root) fun l => by simp [hmem, hu]) hne
        · exact absurd (heq (List.pairwise_singleton _ root) fun l => by simp [hmem, hu]) hne
        · have hpairwise := pairwise_of_leftover hlex hroot hu
          have hlocs := heq (hpairwise.imp fun hprec => hprec.1) fun l => by simp [hmem, hu.1]
          refine .inr (.inr ⟨?_, hu⟩)
          rw [← hlocs]
          exact Except.error.inj (h.symm.trans hresult)

/-- A position for an error in an item: between two characters of the item, and the start of the item,
of the leftmost of the nodes that matching has left in it, or of a node that is as deep as reported. -/
structure ErrorAt (cst : Cst) (src : List Char) (root : Loc) (error : ParseError) (pos : Nat) :
    Prop where
  boundary : Text.Boundary src pos
  inside : ∃ span, cst.span? root = some span ∧ span.start ≤ pos ∧ pos < span.stop
  noMatch (l : Loc) (h : error = .noMatch l) : l = root ∧ cst.StartsAt l pos
  unparsed (locs : List Loc) (h : error = .unparsed locs) :
    locs = (grammar.parse cst "stmt" root).unparsed ∧ Matcher.Leftover grammar cst root locs ∧
    ∃ first ∈ locs, cst.StartsAt first pos ∧ ∀ l ∈ locs, l ≠ first → cst.Precedes first l
  tooDeep (nesting : Nesting) (h : error = .tooDeep nesting) :
    cst.AtDepth root nesting.depth nesting.loc ∧ cst.StartsAt nesting.loc pos

/-- **An item that is no statement has a position at which it is reported.** -/
theorem exists_errorAt (hlex : Cst.lex a src = .ok cst) (hroot : root ∈ cst.roots)
    {error : ParseError} (h : (parse cst root).result = .error error) :
    ∃ pos, (error.loc?.bind cst.span?).map Span.start = some pos ∧
      ErrorAt cst src root error pos := by
  rcases error_cases hlex hroot h with ⟨nesting, rfl, hdeep⟩ | rfl | ⟨rfl, hleft⟩
  · obtain ⟨span, pos, hpos, hboundary, hspan, hle, hlt⟩ :=
      Cst.exists_startsAt hlex hroot (Cst.below_of_atDepth hdeep)
    exact ⟨pos, hpos, hboundary, ⟨span, hspan, hle, hlt⟩, nofun, nofun, fun _ heq => by
      cases heq; exact ⟨hdeep, hpos⟩⟩
  · obtain ⟨span, pos, hpos, hboundary, hspan, hle, hlt⟩ := Cst.exists_startsAt hlex hroot .refl
    exact ⟨pos, hpos, hboundary, ⟨span, hspan, hle, hlt⟩, fun _ heq => by
      cases heq; exact ⟨rfl, hpos⟩, nofun, nofun⟩
  · have hpairwise := pairwise_of_leftover hlex hroot hleft
    have hbelow {l : Loc} := below_of_leftover (l := l) hleft
    rcases hlocs : (grammar.parse cst "stmt" root).unparsed with _ | ⟨first, rest⟩
    · exact absurd hlocs hleft.1
    · rw [hlocs] at hpairwise hbelow
      obtain ⟨span, pos, hpos, hboundary, hspan, hle, hlt⟩ :=
        Cst.exists_startsAt hlex hroot (hbelow List.mem_cons_self)
      refine ⟨pos, hpos, hboundary, ⟨span, hspan, hle, hlt⟩, nofun, fun locs heq => ?_, nofun⟩
      cases heq
      refine ⟨hlocs.symm, hlocs ▸ hleft, first, List.mem_cons_self, hpos, fun l hl hne => ?_⟩
      exact (List.pairwise_cons.mp hpairwise).1 l ((List.mem_cons.mp hl).resolve_left hne)

/-! ## The first item that is no statement -/

/-- Items are read in order, up to the first that is no statement. -/
theorem exists_of_parseRoots_error {roots : List Loc} {error : ParseError}
    (h : parseRoots cst roots = .error error) : ∃ before root after, roots = before ++ root :: after ∧
      (∀ r ∈ before, ∃ stmt metadata, (parse cst r).result = .ok (stmt, metadata)) ∧
      (parse cst root).result = .error error := by
  induction roots with
  | nil => cases h
  | cons root roots ih =>
    cases hresult : (parse cst root).result with
    | error e =>
      obtain rfl : e = error := by simpa [parseRoots, hresult, bind, Except.bind] using h
      exact ⟨[], root, roots, rfl, by simp, hresult⟩
    | ok p =>
      obtain ⟨stmt, metadata⟩ := p
      cases hrest : parseRoots cst roots with
      | ok q => simp [parseRoots, hresult, hrest, bind, Except.bind, pure, Except.pure] at h
      | error e =>
        obtain rfl : e = error := by simpa [parseRoots, hresult, hrest, bind, Except.bind] using h
        obtain ⟨before, r, after, rfl, hbefore, hr⟩ := ih hrest
        exact ⟨root :: before, r, after, rfl,
          List.forall_mem_cons.mpr ⟨⟨stmt, metadata, hresult⟩, hbefore⟩, hr⟩

theorem parseRoots_of_parseAll_error {error : ParseError} (h : parseAll cst = .error error)
    (hinput : error ≠ .emptyInput) : parseRoots cst cst.roots = .error error := by
  unfold parseAll at h
  rcases hroots : parseRoots cst cst.roots with e | ⟨stmts, metadata⟩
  · simpa [hroots, bind, Except.bind] using h
  · rw [hroots] at h
    rcases stmts with _ | ⟨first, _ | ⟨second, rest⟩⟩
    · cases h
      exact absurd rfl hinput
    · cases h
    · cases h

end Language

namespace Analysis

open Language

/-- **Syntax errors are located inside the first item that is no statement.**  If a source is refused
for its syntax and is not empty, a position is reported; all items before some item are statements, and
the position is in that item, at a node of it that the cause names.  The report gives the line and the
column of the position. -/
theorem syntax_error_located {a : Alphabet} {src : List Char} {error : ParseError}
    {reported : Option Nat} (h : ofSource a src = .error (.parse error reported))
    (hinput : error ≠ .emptyInput) :
    ∃ cst before root after pos line column, Cst.lex a src = .ok cst ∧
      cst.roots = before ++ root :: after ∧ cst.roots.Pairwise cst.Precedes ∧
      (∀ r ∈ before, ∃ stmt metadata, (parse cst r).result = .ok (stmt, metadata)) ∧
      (parse cst root).result = .error error ∧
      reported = some pos ∧ ErrorAt cst src root error pos ∧
      ((AnalysisError.parse error reported).report src).line = some line ∧
      ((AnalysisError.parse error reported).report src).col = some column ∧
      Text.Located src pos line column := by
  cases hlex : Cst.lex a src with
  | error e => simp [ofSource, hlex] at h
  | ok cst =>
    have hparse : parseAll cst = .error error ∧
        (error.loc?.bind cst.span?).map Span.start = reported := by
      simp only [ofSource, hlex, ofCst] at h
      split at h
      · next e he =>
        cases h
        exact ⟨he, rfl⟩
      · split at h <;> cases h
    obtain ⟨before, root, after, hroots, hbefore, hroot⟩ :=
      exists_of_parseRoots_error (parseRoots_of_parseAll_error hparse.1 hinput)
    obtain ⟨pos, hpos, hat⟩ := exists_errorAt hlex (hroots ▸ by simp) hroot
    obtain rfl : reported = some pos := hparse.2.symm.trans hpos
    obtain ⟨forest, spares, next, stop, hmade, horderly⟩ := Cst.exists_orderly hlex
    exact ⟨cst, before, root, after, pos, _, _, rfl, hroots, hmade.roots_pairwise horderly, hbefore,
      hroot, rfl, hat, rfl, rfl, Text.located_locate hat.boundary⟩

/-- What follows from evaluating why, and where, a text is refused. -/
theorem ofSource_of_refused {a : Alphabet} {src : List Char} {error : ParseError} {pos : Option Nat}
    (h : (Cst.lex a src).toOption.map (fun cst => ((parseAll cst).map fun _ => (),
      (error.loc?.bind cst.span?).map Span.start)) = some (.error error, pos)) :
    ofSource a src = .error (.parse error pos) := by
  rcases hlex : Cst.lex a src with e | cst
  · simp [hlex, Except.toOption] at h
  · rcases hparse : parseAll cst with e | p
    · simp only [hlex, hparse, Except.toOption, Except.map, Option.map_some, Option.some.injEq,
        Prod.mk.injEq, Except.error.injEq] at h
      obtain ⟨rfl, rfl⟩ := h
      simp only [ofSource, hlex, ofCst, hparse]
    · simp [hlex, hparse, Except.toOption, Except.map] at h

/-- Two items: a string literal with a letter of two bytes, and on the next line an operation on an
array whose first member is no expression, so that both members are left. -/
def rowSource : List Char := "\"é\";\n [(a b), 1] + 2".toList

theorem syntax_error_located_rowSource :
    ofSource .js rowSource = .error (.parse (.unparsed [3, 7]) (some 8)) ∧
    ∃ cst before root after, Cst.lex .js rowSource = .ok cst ∧ cst.roots = before ++ root :: after ∧
      ErrorAt cst rowSource root (.unparsed [3, 7]) 8 ∧ Text.Located rowSource 8 2 3 := by
  have h : ofSource .js rowSource = .error (.parse (.unparsed [3, 7]) (some 8)) :=
    ofSource_of_refused (by decide +kernel)
  refine ⟨h, ?_⟩
  obtain ⟨cst, before, root, after, pos, line, column, hlex, hroots, -, -, -, hpos, hat, hline, hcol,
    hlocated⟩ := syntax_error_located h nofun
  obtain rfl := Option.some.inj hpos
  obtain rfl : 2 = line := Option.some.inj (Eq.trans (by decide +kernel) hline)
  obtain rfl : 3 = column := Option.some.inj (Eq.trans (by decide +kernel) hcol)
  exact ⟨cst, before, root, after, hlex, hroots, hat, hlocated⟩

end Analysis
end TypeTrace
