import TypeTrace.Proofs.Bracketing
import TypeTrace.Proofs.Demand
import TypeTrace.Proofs.Reentry
import TypeTrace.Proofs.Relayout

/-!
# How deep reading a program recurs

Nodes may be nested up to a limit, and yet that limit alone does not bound the calls that reading a node
nests.  In a row of functions, `() => () => a`, brackets are nested no deeper than in one of them, but the
body of each function is read while the call for the function is under way: six more calls are nested for
every arrow.  So every number of calls is too small for some program of two levels.

Besides the limit it is the arrows and the words `else` in one row of siblings that count.  Before it has
come to one of them, a rule of the language asks, among its own siblings, for lower rules only, and where
no row has more than `w` of them a number of nested calls that depends on `w` only is enough.

## Main definitions

* `Language.reentryWords`: the words after which a rule comes up again
* `Language.layer`: the rank of a rule that asks for lower rules up to such a word
* `Language.arrowSource`: functions in a row

## Main results

* `Language.grammar_layered`: the rules of the language are layered
* `Language.recursion_bounded`: nesting and reentry words bound the nested calls
* `Language.needs_arrows`: functions in a row are read one inside the other
* `Language.recursion_unbounded`: nesting alone does not bound the nested calls
-/

namespace TypeTrace

namespace Language

open Matcher Grammar

/-! ## Functions in a row -/

/-- The shapes of `n` function heads without parameters, `() =>`, in a row, and of a name. -/
def arrowShapes : Nat → List Shape
  | 0 => [.id "a"]
  | n + 1 => .list .round [] :: .id "=>" :: arrowShapes n

/-- Rules that never take a parenthesis first. -/
def notRound : List String := ["let", "return", "for", "block"]

/-- Rules that never take words with blanks between them. -/
def notSpaced : List String :=
  ["block", "expr num", "expr var", "expr text", "expr tuple", "expr array", "expr!"]

theorem grammar_refuses_round : RulesRefuse grammar .round notRound := fun name hname m hrule =>
  have hall : ∀ e ∈ grammar.rules.entries, e.1 ∈ notRound → e.2.refuses .round notRound = true := by
    decide +kernel
  hall (name, m) (mem_rules hrule) hname

theorem grammar_refuses_spaced : RulesRefuse grammar .spaced notSpaced := fun name hname m hrule =>
  have hall : ∀ e ∈ grammar.rules.entries, e.1 ∈ notSpaced → e.2.refuses .spaced notSpaced = true := by
    decide +kernel
  hall (name, m) (mem_rules hrule) hname

variable {cst : Cst} {nodes : List Loc} {n : Nat}

theorem exists_arrow (h : List.Forall₂ cst.Shows nodes (arrowShapes (n + 1))) :
    ∃ args arrow rest multiline, nodes = args :: arrow :: rest ∧
      cst.node? args = some (.list .round [] multiline) ∧ cst.node? arrow = some (.id "=>") ∧
      List.Forall₂ cst.Shows rest (arrowShapes n) := by
  cases h with
  | @cons args _ _ _ hargs h =>
    cases h with
    | @cons arrow _ rest _ harrow hrest =>
      cases hargs with
      | @list _ _ children multiline _ hargs hchildren =>
        cases harrow with
        | id harrow =>
          cases hchildren
          exact ⟨args, arrow, rest, multiline, rfl, hargs, harrow, hrest⟩

/-- The body of a function is read six calls deeper, and if it is a function the same rule comes up. -/
theorem needs_arrow (h : List.Forall₂ cst.Shows nodes (arrowShapes (n + 2))) (parent : Loc) :
    ∃ nodes', List.Forall₂ cst.Shows nodes' (arrowShapes (n + 1)) ∧
      grammar.Needs cst 6 (spacedRule, nodes, parent) (spacedRule, nodes', parent) := by
  obtain ⟨args, arrow, body, multiline, rfl, hargs, harrow, hbody⟩ := exists_arrow h
  obtain ⟨args', arrow', body', multiline', hbody', hargs', -, -⟩ := exists_arrow hbody
  refine ⟨body, hbody, ?_⟩
  have hpasses : Passes grammar cst parent
      [.list (.exact .round) (manyAs "args" "pat") (some .fnArgs), punct "=>"]
      (args :: arrow :: body) body :=
    .cons (leaves_emptyList hargs rfl) (.cons (leaves_kwd _ harrow) (.nil body))
  -- A body that is a function begins with a parenthesis, so it is not read as a block.
  have hblock : ∀ i ∈ [use "block"], Fails grammar cst i body parent := by
    subst hbody'
    exact List.forall_mem_singleton.mpr (fails_of_refuses grammar_refuses_round (by decide) hargs')
  have hrule : grammar.rule? "expr " = some spacedRule := rfl
  exact (Needs.or [] lambdaRule _ nofun).trans <| (Needs.tx _).trans <| (Needs.seq _ _ [] hpasses).trans <|
    (Needs.group "body").trans <| (Needs.or _ _ [] hblock).trans <| Needs.ref none hrule

/-- Functions in a row are read one inside the other. -/
theorem needs_arrows (h : List.Forall₂ cst.Shows nodes (arrowShapes (n + 1))) (parent : Loc) :
    ∃ nodes', grammar.Needs cst (6 * n) (spacedRule, nodes, parent) (spacedRule, nodes', parent) := by
  induction n generalizing nodes with
  | zero => exact ⟨nodes, .refl _⟩
  | succ n ih =>
    obtain ⟨mid, hmid, hneeds⟩ := needs_arrow h parent
    obtain ⟨nodes', hneeds'⟩ := ih hmid
    refine ⟨nodes', ?_⟩
    rw [show 6 * (n + 1) = 6 + 6 * n by omega]
    exact hneeds.trans hneeds'

/-- An item that consists of functions in a row is read by the rule for them. -/
theorem needs_item {root : Loc} (h : cst.Shows root (.list .spaced (arrowShapes (n + 1)))) :
    ∃ nodes, List.Forall₂ cst.Shows nodes (arrowShapes (n + 1)) ∧
      grammar.Needs cst 6 (stmtRule, [root], root) (spacedRule, nodes, root) := by
  cases h with
  | @list _ _ nodes multiline _ hroot hnodes =>
    obtain ⟨args, arrow, body, multiline', hargs, hround, -, -⟩ := exists_arrow hnodes
    refine ⟨nodes, hnodes, ?_⟩
    have hspaced {m : Rule} (hm : m.refuses .spaced notSpaced = true) :
        Fails grammar cst m [root] root :=
      fails_of_refuses grammar_refuses_spaced hm hroot
    -- The words in it begin with a parenthesis, so none of the statements made of words fits.
    have hwords : Fails grammar cst (listOf .spaced (.or [use "let", use "return", use "for"])) [root]
        root := by
      intro r hr
      cases hr with
      | list hnode _ hinner =>
        cases hnode.symm.trans hroot
        subst hargs
        rw [hinner.refused grammar_refuses_round (by decide) hround]
        rfl
      | listMiss => rfl
    have hstmts : ∀ i ∈ [listOf .spaced (.or [use "let", use "return", use "for"]),
        .tx (keyword "return") Build.bareReturn, use "block"], Fails grammar cst i [root] root := by
      simp only [List.forall_mem_cons]
      exact ⟨hwords, hspaced (by decide), hspaced (by decide), nofun⟩
    have hexprs : ∀ i ∈ [use "expr num", use "expr var", use "expr text", use "expr tuple",
        use "expr array", use "expr!"], Fails grammar cst i [root] root := by
      simp only [List.forall_mem_cons]
      exact ⟨hspaced (by decide), hspaced (by decide), hspaced (by decide), hspaced (by decide),
        hspaced (by decide), hspaced (by decide), nofun⟩
    have hexpr : grammar.rule? "expr" = some exprRule := rfl
    have hrule : grammar.rule? "expr " = some spacedRule := rfl
    exact (Needs.or _ _ [] hstmts).trans <| (Needs.tx _).trans <| (Needs.ref _ hexpr).trans <|
      (Needs.or _ _ [] hexprs).trans <| (Needs.list none hroot rfl).trans <| Needs.ref none hrule

/-! ### A source -/

/-- `n` function heads without parameters, `() =>`, in a row, and a name. -/
def arrowSource : Nat → List Char
  | 0 => ['a']
  | n + 1 => '(' :: ')' :: ' ' :: '=' :: '>' :: ' ' :: arrowSource n

theorem exists_lex_arrowSource (n : Nat) : ∃ cst, Cst.lex .js (arrowSource n) = .ok cst := by
  have hscan : Mark.scan Alphabet.js.tableNew.contains Alphabet.js.isGap [] (arrowSource n) = some [] := by
    induction n with
    | zero => rfl
    | succ n ih => exact ih
  rw [Cst.lex_ok_iff, Mark.wellBracketed, hscan]
  rfl

/-- The pieces of such a source. -/
def arrowPieces : Nat → List Piece
  | 0 => [.char 'a']
  | n + 1 => .atom (.list .round []) :: .char ' ' :: .char '=' :: .char '>' :: .char ' ' :: arrowPieces n

theorem read_arrowSource (n k : Nat) :
    Piece.read .js ((arrowSource n).length + k) (arrowSource n) = some (arrowPieces n, none) := by
  induction n generalizing k with
  | zero =>
    rw [arrowSource, List.length_singleton, Nat.add_comm]
    simp [Piece.read, Piece.read_nil, ListKind.ofOpener?, ListKind.ofCloser?, arrowPieces]
  | succ n ih =>
    have hlength : (arrowSource (n + 1)).length + k = (arrowSource n).length + (k + 1) + 4 + 1 := by
      simp only [arrowSource, List.length_cons]
      omega
    rw [hlength, arrowSource]
    simp [Piece.read, ih, ListKind.ofOpener?, ListKind.ofCloser?, Piece.closedBy, arrowPieces]
    rfl

theorem words_arrowPieces (n : Nat) :
    ((arrowPieces n).splitOnP (Piece.isChar Alphabet.js.space.contains)).filterMap (Piece.word .js) =
      arrowShapes n := by
  induction n with
  | zero => rfl
  | succ n ih =>
    have hblank : Piece.isChar Alphabet.js.space.contains (.char ' ') = true := rfl
    have hpieces : arrowPieces (n + 1) =
        [.atom (.list .round [])] ++ .char ' ' :: ([.char '=', .char '>'] ++ .char ' ' :: arrowPieces n) := rfl
    rw [hpieces, List.splitOnP_append_cons _ _ hblank, List.splitOnP_append_cons _ _ hblank,
      List.filterMap_append, List.filterMap_append, ih]
    rfl

theorem uncut_arrowPieces (n : Nat) :
    ∀ x ∈ arrowPieces n, Piece.isChar Alphabet.js.sep.contains x = false := by
  induction n with
  | zero => exact List.forall_mem_singleton.mpr rfl
  | succ n ih =>
    simp only [arrowPieces, List.forall_mem_cons]
    exact ⟨rfl, rfl, rfl, rfl, rfl, ih⟩

theorem members_arrowPieces (n : Nat) :
    Piece.members .js (arrowPieces (n + 1)) = [.list .spaced (arrowShapes (n + 1))] := by
  rw [Piece.members, Piece.items, List.splitOnP_eq_singleton (uncut_arrowPieces _), List.filterMap_cons,
    Piece.item, words_arrowPieces]
  rfl

theorem ofSource_arrowSource (n : Nat) :
    Shape.ofSource? .js (arrowSource (n + 1)) = some [.list .spaced (arrowShapes (n + 1))] := by
  have hread := read_arrowSource (n + 1) 0
  rw [Nat.add_zero] at hread
  rw [Shape.ofSource?, hread]
  exact congrArg some (members_arrowPieces n)

theorem children_of_mem_arrowShapes {s : Shape} (hs : s ∈ arrowShapes n) : s.children = [] := by
  induction n with
  | zero =>
    obtain rfl := List.mem_singleton.mp hs
    rfl
  | succ n ih =>
    rcases List.mem_cons.mp hs with rfl | hs
    · rfl
    · rcases List.mem_cons.mp hs with rfl | hs
      · rfl
      · exact ih hs

/-- Functions in a row are nested two levels deep. -/
theorem exists_arrows (n : Nat) : ∃ cst root, Cst.lex .js (arrowSource (n + 1)) = .ok cst ∧
    root ∈ cst.roots ∧ (cst.nesting root).1 ≤ 2 ∧
    cst.Shows root (.list .spaced (arrowShapes (n + 1))) := by
  obtain ⟨cst, hlex⟩ := exists_lex_arrowSource (n + 1)
  have hshows := Cst.shows_of_ofSource? hlex (ofSource_arrowSource n)
  obtain ⟨pieces, forest, spares, hmade, -, -⟩ := Cst.exists_pieces hlex
  obtain ⟨t, rfl, ht⟩ := List.map_eq_singleton_iff.mp ((hmade.shows_roots_iff _).mp hshows).symm
  rw [hmade.roots, List.map_singleton] at hshows
  obtain ⟨hroot, -⟩ := List.forall₂_cons.mp hshows
  refine ⟨cst, t.loc, hlex, by simp [hmade.roots], ?_, hroot⟩
  rw [hmade.nesting_eq (List.mem_singleton_self t), Tree.height_le_succ_iff]
  intro child hchild
  -- What is in the item has nothing in it.
  have hshape : child.shape ∈ arrowShapes (n + 1) := by
    have hchildren := t.children_shape
    rw [ht, Shape.children] at hchildren
    rw [hchildren]
    exact List.mem_map_of_mem hchild
  have hempty := child.children_shape
  rw [children_of_mem_arrowShapes hshape, eq_comm, List.map_eq_nil_iff] at hempty
  rw [Tree.height_le_succ_iff, hempty]
  exact List.forall_mem_nil _

/-! ## Rows with few words that lead back to a rule -/

/-- The words after which a rule comes up again among its own siblings: a function may have a function as
its body, and an `if` may have an `if` as its other branch. -/
def reentryWords : List String := ["=>", "else"]

/-- The rank of a rule among those that are asked for on one row: a statement of words ends in such an
expression, it in operands, and these in the kinds of expressions that are a single node. -/
def layer (rule : String) : Nat :=
  if rule ∈ ["let", "return"] then 3
  else if rule ∈ ["stmt", "expr..", "expr "] then 2
  else if rule ∈ ["expr", "if", "for"] then 1
  else 0

theorem grammar_layered : grammar.Layered reentryWords layer 4 where
  lt_top rule := by
    unfold layer
    split <;> [omega; split <;> [omega; split <;> omega]]
  descends name rule m hrule hasks := by
    have hall : ∀ e ∈ grammar.rules.entries, ∀ rule ∈ e.2.asks reentryWords, layer rule < layer e.1 := by
      decide +kernel
    exact hall (name, m) (mem_rules hrule) rule hasks

/-- **Nesting and reentry words bound the nested calls.**  Where a node is not nested deeper than the limit
and no row of siblings in it has more than `w` of the words, reading it as a statement comes to an outcome
within a number of nested calls that depends on the rules, the limit and `w` only. -/
theorem recursion_bounded {a : Alphabet} {src : List Char} {cst : Cst} (hlex : Cst.lex a src = .ok cst)
    {root : Loc} (hdepth : (cst.nesting root).1 ≤ grammar.maxNesting) {w : Nat}
    (hrows : ∀ l, cst.Below root l → ∀ row ∈ cst.rowsBelow l, cst.countMarks reentryWords row ≤ w) :
    ∃ out, ∀ fuel, grammar.callsWithin w ≤ fuel →
      grammar.match? cst fuel stmtRule [root] root .empty = some out :=
  have hrule : grammar.rule? "stmt" = some stmtRule := rfl
  grammar_layered.exists_match? hlex hrule hdepth hrows .empty

/-- A condition with a function in each branch:
`if (a) \x7b [() => 1, (b) => b] \x7d else \x7b (c) => c \x7d`. -/
def branchSource : List Char := "if (a) \x7b [() => 1, (b) => b] \x7d else \x7b (c) => c \x7d".toList

theorem recursion_bounded_branches : ∃ cst root out, Cst.lex .js branchSource = .ok cst ∧
    cst.roots = [root] ∧ (cst.nesting root).1 ≤ grammar.maxNesting ∧
    (∀ l, ∀ row ∈ cst.rowsBelow l, cst.countMarks reentryWords row ≤ 1) ∧
    ∀ fuel, grammar.callsWithin 1 ≤ fuel →
      grammar.match? cst fuel stmtRule [root] root .empty = some out := by
  obtain ⟨cst, hlex⟩ : ∃ cst, Cst.lex .js branchSource = .ok cst := ⟨_, rfl⟩
  have hcst : (Cst.lex .js branchSource).toOption.all (fun cst => cst.roots.length = 1 &&
      (cst.roots.all fun root => (cst.nesting root).1 ≤ grammar.maxNesting) &&
      (List.range cst.nodes.size).all fun l =>
        (cst.rowsBelow l).all fun row => cst.countMarks reentryWords row ≤ 1) = true := by
    decide +kernel
  simp only [hlex, Except.toOption, Option.all_some, Bool.and_eq_true, List.all_eq_true,
    decide_eq_true_eq, List.mem_range] at hcst
  obtain ⟨⟨hone, hdepth⟩, hmarks⟩ := hcst
  obtain ⟨root, hroot⟩ := List.length_eq_one_iff.mp hone
  have hrows (l : Loc) (row : List Loc) (hrow : row ∈ cst.rowsBelow l) :
      cst.countMarks reentryWords row ≤ 1 := by
    by_cases hl : l < cst.nodes.size
    · exact hmarks l hl row hrow
    · simp [Cst.rowsBelow, Cst.node?, Array.getElem?_eq_none (Nat.le_of_not_lt hl)] at hrow
  have hnesting := hdepth root (by simp [hroot])
  obtain ⟨out, hout⟩ := recursion_bounded hlex hnesting fun l _ => hrows l
  exact ⟨cst, root, out, hlex, hroot, hnesting, hrows, hout⟩

/-- **Nesting alone does not bound the nested calls.**  No number of them is enough for every node that is
nested no deeper than the limit. -/
theorem recursion_unbounded : ¬∃ calls, ∀ (a : Alphabet) (src : List Char) (cst : Cst) (root : Loc),
    Cst.lex a src = .ok cst → root ∈ cst.roots → (cst.nesting root).1 ≤ grammar.maxNesting →
    ∃ out, grammar.match? cst calls stmtRule [root] root .empty = some out := by
  rintro ⟨calls, henough⟩
  -- As many functions in a row as there are calls: each of them takes six.
  obtain ⟨cst, root, hlex, hroot, hdepth, hshows⟩ := exists_arrows calls
  obtain ⟨nodes, hnodes, hitem⟩ := needs_item hshows
  obtain ⟨nodes', hneeds⟩ := needs_arrows hnodes root
  obtain ⟨out, hout⟩ := henough .js _ cst root hlex hroot (Nat.le_trans hdepth (by decide))
  obtain ⟨fuel, hfuel, -⟩ := (hitem.trans hneeds) calls ⟨.empty, out, hout⟩
  omega

end Language
end TypeTrace
