import TypeTrace.Analysis
import TypeTrace.Proofs.Cutting
import TypeTrace.Proofs.Height
import TypeTrace.Proofs.Mirroring
import TypeTrace.Proofs.Phrases

/-!
# Sources of one shape

Two sources may be laid out differently, and be read with different alphabets, and still have syntax
trees of one shape: blanks, separators, line breaks and the spelling of brackets of tables leave no
other trace than the places and positions of nodes.  Neither of these matters to what is read from the
trees.  The sources are the same program, apart from regions, or no program for the same reason; and the
program has one type, in the same variables, or none.

## Main definitions

* `Language.mirror`: phrases correspond if they are equal apart from regions and places
* `Language.gist`, `Analysis.gist`: what reading and analysing say apart from places

## Main results

* `Cst.MadeOf.alike`: trees of one shape correspond
* `Language.gist_parse`: items of one shape are read alike
* `Analysis.layout_insensitive`: sources of one shape are analysed alike
-/

namespace TypeTrace

/-! ## Trees of one shape -/

/-- Lists with the same images are related member by member. -/
theorem forall₂_of_map_eq {α β γ : Type} {R : α → β → Prop} {f : α → γ} {f' : β → γ} {l : List α}
    {l' : List β} (h : l.map f = l'.map f') (hR : ∀ a ∈ l, ∀ b ∈ l', f a = f' b → R a b) :
    List.Forall₂ R l l' := by
  induction l generalizing l' with
  | nil =>
    obtain rfl := List.map_eq_nil_iff.mp h.symm
    exact .nil
  | cons a l ih =>
    cases l' with
    | nil => cases h
    | cons b l' =>
      obtain ⟨hhead, htail⟩ := List.cons.inj h
      refine .cons (hR a List.mem_cons_self b List.mem_cons_self hhead) (ih htail ?_)
      exact fun a ha b hb => hR a (List.mem_cons_of_mem _ ha) b (List.mem_cons_of_mem _ hb)

/-- The topmost nodes of trees of one shape are alike. -/
theorem Tree.rel_of_shape {t t' : Tree} {R : Loc → Loc → Prop} (h : t.shape = t'.shape)
    (hR : ∀ u ∈ t.children, ∀ u' ∈ t'.children, u.shape = u'.shape → R u.loc u'.loc)
    (multiline multiline' : Bool) : Node.Rel R (t.node multiline) (t'.node multiline') := by
  cases t with
  | id l r s =>
    cases t' with
    | id l' r' s' =>
      obtain rfl : s = s' := by simpa using h
      exact .id s
    | text | list | table => simp at h
  | text l r spans =>
    cases t' with
    | text l' r' spans' =>
      have hspans : spans.map (TextSpan.map shape) = spans'.map (TextSpan.map shape) := by
        simpa using h
      refine .text (List.forall₂_map_left_iff.mpr (List.forall₂_map_right_iff.mpr ?_))
      refine forall₂_of_map_eq hspans fun span hmem span' hmem' hspan => ?_
      cases span with
      | text s =>
        cases span' with
        | text s' =>
          obtain rfl : s = s' := by simpa [TextSpan.map] using hspan
          exact .text s
        | embed => simp [TextSpan.map] at hspan
      | embed u =>
        cases span' with
        | text => simp [TextSpan.map] at hspan
        | embed u' =>
          refine .embed (hR u (List.mem_filterMap.mpr ⟨_, hmem, rfl⟩) u'
            (List.mem_filterMap.mpr ⟨_, hmem', rfl⟩) ?_)
          simpa [TextSpan.map] using hspan
    | id | list | table => simp at h
  | list l r kind parts =>
    cases t' with
    | list l' r' kind' parts' =>
      obtain ⟨rfl, hparts⟩ : kind = kind' ∧ parts.map shape = parts'.map shape := by simpa using h
      refine .list kind (List.forall₂_map_left_iff.mpr (List.forall₂_map_right_iff.mpr ?_))
      exact forall₂_of_map_eq hparts hR
    | id | text | table => simp at h
  | table l r rows =>
    cases t' with
    | table l' r' rows' =>
      have hrows : rows.map (·.map shape) = rows'.map (·.map shape) := by simpa using h
      refine .table .curly (List.forall₂_map_left_iff.mpr (List.forall₂_map_right_iff.mpr ?_))
      refine forall₂_of_map_eq hrows fun row hrow row' hrow' hcells => ?_
      refine List.forall₂_map_left_iff.mpr (List.forall₂_map_right_iff.mpr ?_)
      exact forall₂_of_map_eq hcells fun u hu u' hu' =>
        hR u (List.mem_flatten.mpr ⟨row, hrow, hu⟩) u' (List.mem_flatten.mpr ⟨row', hrow', hu'⟩)
    | id | text | list => simp at h

namespace Cst

/-- The nodes stand for trees of one shape, and are two given nodes at the same time. -/
def Twins (forest forest' : List Tree) (root root' : Loc) (l l' : Loc) : Prop :=
  ∃ t ∈ forest.flatMap Tree.nodes, ∃ t' ∈ forest'.flatMap Tree.nodes,
    t.loc = l ∧ t'.loc = l' ∧ t.shape = t'.shape ∧ (l = root ↔ l' = root')

variable {cst cst' : Cst} {src src' : List Char} {forest spares forest' spares' : List Tree}
  {root root' l l' : Loc}

/-- **Trees of one shape correspond**, node by node; the two given nodes are below no others. -/
theorem MadeOf.alike (h : cst.MadeOf src forest spares) (h' : cst'.MadeOf src' forest' spares')
    (hroot : ∀ t ∈ forest.flatMap Tree.nodes, ∀ u ∈ t.children, u.loc ≠ root)
    (hroot' : ∀ t ∈ forest'.flatMap Tree.nodes, ∀ u ∈ t.children, u.loc ≠ root')
    (htwins : Twins forest forest' root root' l l') :
    Option.Rel (Node.Rel (Twins forest forest' root root')) (cst.node? l) (cst'.node? l') := by
  obtain ⟨t, ht, t', ht', rfl, rfl, hshape, -⟩ := htwins
  obtain ⟨multiline, hnode⟩ := (h.holds_of_mem ht).node?_eq
  obtain ⟨multiline', hnode'⟩ := (h'.holds_of_mem ht').node?_eq
  rw [hnode, hnode']
  refine .some (Tree.rel_of_shape hshape (fun u hu u' hu' hchild => ?_) _ _)
  refine ⟨u, mem_of_mem_children ht hu, u', mem_of_mem_children ht' hu', rfl, rfl, hchild, ?_⟩
  exact iff_of_false (hroot t ht u hu) (hroot' t' ht' u' hu')

end Cst

/-! ## Phrases that correspond -/

namespace Language

open Build Matcher

variable {cst cst' : Cst} {R : Loc → Loc → Prop}

/-- Phrases correspond if they are equal apart from regions and places. -/
def mirror (halike : ∀ {l l'}, R l l' → Option.Rel (Node.Rel R) (cst.node? l) (cst'.node? l')) :
    Mirror Phrase cst cst' where
  node := R
  value v v' := v.bare = v'.bare
  alike := halike
  ofId _ _ _ := rfl
  ofNumber _ _ _ := rfl
  ofNode _ _ := rfl
  ofMany {vs vs'} h := by
    have hvs : vs.map Phrase.bare = vs'.map Phrase.bare := by
      induction h with
      | nil => rfl
      | cons hv _ ih => rw [List.map_cons, List.map_cons, hv, ih]
    simp only [MatchValue.ofMany, Phrase.bare, Phrase.bareAll_eq_map, hvs]
  ofText {vs vs'} h l l' := by
    have hvs : vs.map (TextSpan.map Phrase.bare) = vs'.map (TextSpan.map Phrase.bare) := by
      induction h with
      | nil => rfl
      | cons hv _ ih =>
        rw [List.map_cons, List.map_cons, ih]
        cases hv with
        | text s => rfl
        | embed hv => rw [TextSpan.map, TextSpan.map, hv]
    simp only [MatchValue.ofText, Phrase.bare, Phrase.bareSpans_eq_map, hvs]
  absent := rfl

/-- A function that is blind to regions keeps the correspondence. -/
theorem respects_of_blind
    {halike : ∀ {l l'}, R l l' → Option.Rel (Node.Rel R) (cst.node? l) (cst'.node? l')}
    {build : Bindings Phrase → Region → Option Phrase} (h : Blind build) :
    (mirror halike).RespectsBuild build := by
  intro b b' src src' hb
  have hbare : Bindings.bare b = Bindings.bare b' := by
    induction hb with
    | nil => rfl
    | cons he _ ih =>
      have hv := he.2
      simp only [mirror] at hv
      simp only [Bindings.bare, List.map_cons] at ih ⊢
      rw [he.1, hv, ih]
  -- What is built depends on the bindings without their regions, and those are the same.
  have hbuild : (build b src).map Phrase.bare = (build b' src').map Phrase.bare := by
    rw [← h, ← h, hbare]
  generalize build b src = x at hbuild ⊢
  generalize build b' src' = x' at hbuild ⊢
  cases x with
  | none =>
    obtain rfl := Option.map_eq_none_iff.mp hbuild.symm
    exact .none
  | some v =>
    obtain ⟨v', rfl, hv⟩ := Option.map_eq_some_iff.mp hbuild.symm
    exact .some hv.symm

/-- No function that builds a phrase of the language looks at regions. -/
theorem grammar_blind (name : String) (m : Rule) (hrule : grammar.rule? name = some m) (inner : Rule)
    (build : Bindings Phrase → Region → Option Phrase) (hbuild : .tx inner build ∈ m.parts) :
    Blind build := by
  have hmem := (Dict.get?_ofList_iff (by decide) name m).1 hrule
  refine (?_ : ∀ e ∈ _, ∀ inner build, Matcher.tx inner build ∈ (e.2 : Rule).parts → Blind build)
    (name, m) hmem inner build hbuild
  simp only [List.forall_mem_cons]
  simp [stmtRule, letRule, returnRule, forRule, blockRule, exprRule, suffixedRule, suffixRule,
    spacedRule, lambdaRule, switchRule, ifRule, operationsRule, patRule, keyword, punct, listOf, use, useAs,
    manyAs, parts, partsAll, Operator.words, or_imp, forall_and, blind_bareReturn, blind_exprStmt,
    blind_letBind, blind_ret, blind_forLoop, blind_block, blind_number, blind_var, blind_str, blind_tuple,
    blind_array, blind_attr, blind_index, blind_call, blind_suffixed, blind_lambda, blind_case, blind_switch,
    blind_ifElse, blind_operations, blind_anyPat, blind_numberPat, blind_boolPat, blind_strPat, blind_varPat,
    blind_conPat, blind_tuplePat]

theorem grammar_respects
    {halike : ∀ {l l'}, R l l' → Option.Rel (Node.Rel R) (cst.node? l) (cst'.node? l')} (name : String)
    (m : Rule) (hrule : grammar.rule? name = some m) : (mirror halike).Respects m :=
  fun inner build hbuild => respects_of_blind (grammar_blind name m hrule inner build hbuild)

/-! ## Items of one shape -/

/-- What reading says apart from places: the statement without regions, or the code of the reason why
there is none. -/
def gist (found : Except ParseError (Stmt × Metadata)) : Except String Stmt :=
  (found.mapError ParseError.code).map fun p => p.1.bare

theorem Parsed.nodup_unparsed (p : Parsed) : p.unparsed.Nodup := by
  have hkeys : (p.metadata.entries.map Prod.fst).Nodup := by
    refine List.Pairwise.map _ (fun e e' hlt heq => ?_) p.metadata.ascending
    simp [heq] at hlt
  exact hkeys.sublist (List.filter_sublist.map Prod.fst)

/-- An item that is no statement is reported as a whole, unless some other node was not accounted
for. -/
theorem Parsed.gist_of_none {p : Parsed} (hdepth : p.tooDeep = none) (hstmt : p.stmt = none) :
    gist p.result = .error (if ∀ l ∈ p.unparsed, l = p.root then "PAR001" else "PAR002") := by
  have hnodup := p.nodup_unparsed
  rw [gist, result, hdepth]
  rcases hlocs : p.unparsed with _ | ⟨l, _ | ⟨l', locs⟩⟩
  · simp [hstmt, Except.mapError, Except.map, ParseError.code]
  · by_cases hl : l = p.root
    · simp [hstmt, hl, Except.mapError, Except.map, ParseError.code]
    · simp [hstmt, hl, Except.mapError, Except.map, ParseError.code]
  · -- Two nodes are not accounted for, and one of them is not the item.
    rw [hlocs] at hnodup
    have hne : ¬∀ m ∈ l :: l' :: locs, m = p.root := by
      intro hall
      have hl := hall l List.mem_cons_self
      have hl' := hall l' (List.mem_cons_of_mem _ List.mem_cons_self)
      exact (List.nodup_cons.mp hnodup).1 (by rw [hl, hl']; exact List.mem_cons_self)
    rw [if_neg hne]
    simp [hstmt, Except.mapError, Except.map, ParseError.code]

section Single

variable {src : List Char} {forest spares : List Tree} {t : Tree} {record : MatchRecord Phrase}

/-- An item that is nested too deep. -/
theorem gist_of_tooDeep {root : Loc} (h : grammar.maxNesting < (cst.nesting root).1) :
    gist (parse cst root).result = .error "PAR003" := by
  simp [gist, Parsed.result, parse, Grammar.parse, h, Except.mapError, Except.map, ParseError.code]

/-- An item that no rule accepts. -/
theorem gist_of_failure {root : Loc} (hdepth : ¬grammar.maxNesting < (cst.nesting root).1)
    (hrun : grammar.match? cst (grammar.nestedCalls cst) stmtRule [root] root .empty =
      some (none, record)) :
    gist (parse cst root).result =
      .error (if ∀ l ∈ record.unparsed, l = root then "PAR001" else "PAR002") := by
  have hjournal : record.journal = [] :=
    (Grammar.match?_follows grammar cst _ stmtRule [root] root _ _ _ hrun).2.1
  rw [Parsed.gist_of_none (by simp [parse, Grammar.parse, hdepth])
    (by simp [parse, Grammar.parse, hdepth, rule?_stmt, Grammar.run, hrun])]
  have hroot : (parse cst root).root = root := rfl
  -- Without a report the node itself is marked, and otherwise the nodes that are reported.
  rcases hlocs : record.unparsed with _ | ⟨l, locs⟩
  · have hmem (m : Loc) : m ∈ (parse cst root).unparsed ↔ m = root := by
      rw [Parsed.mem_unparsed]
      simp [parse, Grammar.parse, hdepth, rule?_stmt, Grammar.run, hrun, hjournal, hlocs, Dict.ofList,
        Dict.get?_insert]
    simp [hmem, hroot]
  · have hmem (m : Loc) : m ∈ (parse cst root).unparsed ↔ m ∈ l :: locs := by
      rw [Parsed.mem_unparsed]
      simp only [parse, Grammar.parse, hdepth, rule?_stmt, Grammar.run, hrun, hjournal, hlocs,
        Dict.get?_foldl_insert, if_false]
      simp [Dict.ofList, or_iff_not_imp_left]
    simp only [hmem, hroot]

/-- An item that is a phrase: all of it is accounted for. -/
theorem gist_of_success (hmade : cst.MadeOf src forest spares) (ht : t ∈ forest) {v : Phrase}
    (hdepth : ¬grammar.maxNesting < (cst.nesting t.loc).1)
    (hrun : grammar.match? cst (grammar.nestedCalls cst) stmtRule [t.loc] t.loc .empty =
      some (some (v, []), record)) :
    gist (parse cst t.loc).result = (v.bare.stmt?).elim (.error "PAR001") .ok := by
  have hvalue : (grammar.run cst stmtRule t.loc).1 = some v := by simp [Grammar.run, hrun]
  have haccounts : Accounts [t] record.journal := by
    obtain ⟨bindings, hmatches⟩ := Grammar.matches_of_run hvalue
    have htakes := hmatches.takes grammar_thorough (grammar_thorough "stmt" _ rule?_stmt) _ rfl [t] rfl
      (hmade.has_root ht)
    simpa [Grammar.run, hrun] using htakes.all
  have hmetadata : (parse cst t.loc).metadata = .ofList record.journal.reverse := by
    simp [parse, Grammar.parse, hdepth, rule?_stmt, Grammar.run, hrun]
  -- Every node of the item has one entry in the journal, so no later entry marks it as unparsed.
  have hparsed (l : Loc) : (parse cst t.loc).metadata.get? l ≠ some .unparsed := by
    rw [hmetadata]
    intro hl
    rw [Dict.get?_ofList_iff (by rw [List.map_reverse, List.nodup_reverse]; exact haccounts.nodup),
      List.mem_reverse] at hl
    exact haccounts.parsed _ hl rfl
  have hdeep : (parse cst t.loc).tooDeep = none := by simp [parse, Grammar.parse, hdepth]
  have hstmt : (parse cst t.loc).stmt = v.stmt? := by
    simp [parse, Grammar.parse, hdepth, rule?_stmt, Grammar.run, hrun]
  rw [Phrase.stmt?_bare]
  rcases hv : v.stmt? with _ | stmt
  · rw [Parsed.gist_of_none hdeep (hstmt.trans hv), if_pos]
    · rfl
    · exact fun l hl => absurd (Parsed.mem_unparsed.mp hl) (hparsed l)
  · rw [gist, result_eq_ok (hstmt.trans hv) hdeep hparsed]
    rfl

end Single

/-- Nodes that correspond are read side by side, and both readings end. -/
theorem exists_runs {a a' : Alphabet} {src src' : List Char} (hlex : Cst.lex a src = .ok cst)
    (hlex' : Cst.lex a' src' = .ok cst')
    (halike : ∀ {l l'}, R l l' → Option.Rel (Node.Rel R) (cst.node? l) (cst'.node? l')) {l l' : Loc}
    (hl : R l l') :
    ∃ r record r' record',
      grammar.match? cst (grammar.nestedCalls cst) stmtRule [l] l .empty = some (r, record) ∧
      grammar.match? cst' (grammar.nestedCalls cst') stmtRule [l'] l' .empty = some (r', record') ∧
      Option.Rel (mirror halike).Hit r r' ∧ (mirror halike).Record record record' := by
  obtain ⟨⟨r, record⟩, hrun⟩ := grammar_ranked.exists_match? hlex rule?_stmt l .empty
  obtain ⟨⟨r', record'⟩, hrun'⟩ := grammar_ranked.exists_match? hlex' rule?_stmt l' .empty
  -- With as many nested calls as either of the runs takes, they go side by side.
  have hruns := Mirror.match? (M := mirror halike) grammar_respects
    (max (grammar.nestedCalls cst) (grammar.nestedCalls cst')) stmtRule
    (grammar_respects "stmt" stmtRule rule?_stmt) [l] [l'] l l' (.cons hl .nil) .empty .empty ⟨.nil, .nil⟩
  rw [hrun _ (le_max_left _ _), hrun' _ (le_max_right _ _)] at hruns
  cases hruns with
  | some h => exact ⟨r, record, r', record', hrun _ (Nat.le_refl _), hrun' _ (Nat.le_refl _), h⟩

/-- **Items of one shape are read alike.** -/
theorem gist_parse {a a' : Alphabet} {src src' : List Char} {forest spares forest' spares' : List Tree}
    (hlex : Cst.lex a src = .ok cst) (hlex' : Cst.lex a' src' = .ok cst')
    (hmade : cst.MadeOf src forest spares) (hmade' : cst'.MadeOf src' forest' spares') {t t' : Tree}
    (ht : t ∈ forest) (ht' : t' ∈ forest') (hshape : t.shape = t'.shape) :
    gist (parse cst t.loc).result = gist (parse cst' t'.loc).result := by
  have hheight : (cst.nesting t.loc).1 = (cst'.nesting t'.loc).1 := by
    rw [hmade.nesting_eq ht, hmade'.nesting_eq ht', Tree.height_eq_of_shape hshape]
  by_cases hdepth : grammar.maxNesting < (cst.nesting t.loc).1
  · rw [gist_of_tooDeep hdepth, gist_of_tooDeep (hheight ▸ hdepth)]
  have hself {forest : List Tree} {t : Tree} (ht : t ∈ forest) : t ∈ forest.flatMap Tree.nodes :=
    List.mem_flatMap.mpr ⟨t, ht, t.mem_nodes_self⟩
  have htwins : Cst.Twins forest forest' t.loc t'.loc t.loc t'.loc :=
    ⟨t, hself ht, t', hself ht', rfl, rfl, hshape, iff_of_true rfl rfl⟩
  obtain ⟨r, record, r', record', hends, hends', hresult, hrecord⟩ := exists_runs hlex hlex'
    (hmade.alike hmade' (fun u hu v hv => (hmade.root_ne_child ht hu hv).symm)
      (fun u hu v hv => (hmade'.root_ne_child ht' hu hv).symm)) htwins
  rcases hresult with @⟨⟨v, rest⟩, ⟨v', rest'⟩, hv, hrest⟩ | _
  · -- A statement takes the only node there is.
    have hlt := Grammar.match?_consumes grammar_consumes (grammar_consumes "stmt" stmtRule rule?_stmt) hends
    cases hrest with
    | cons => simp at hlt
    | nil =>
      rw [gist_of_success hmade ht hdepth hends, gist_of_success hmade' ht' (hheight ▸ hdepth) hends']
      rw [show v.bare = v'.bare from hv]
  · rw [gist_of_failure hdepth hends, gist_of_failure (hheight ▸ hdepth) hends']
    have hstuck : (∀ l ∈ record.unparsed, l = t.loc) ↔ ∀ l ∈ record'.unparsed, l = t'.loc := by
      have hlocs := hrecord.unparsed
      generalize record.unparsed = locs at hlocs ⊢
      generalize record'.unparsed = locs' at hlocs ⊢
      induction hlocs with
      | nil => simp
      | cons hl _ ih =>
        obtain ⟨-, -, -, -, -, -, -, hroot⟩ := hl
        rw [List.forall_mem_cons, List.forall_mem_cons]
        exact and_congr hroot ih
    simp only [hstuck]

/-! ## Sources of one shape -/

/-- What reading several items says apart from places. -/
def gists (found : Except ParseError (List Stmt × Metadata)) : Except String (List Stmt) :=
  (found.mapError ParseError.code).map fun p => p.1.map Stmt.bare

theorem gists_cons (cst : Cst) (root : Loc) (roots : List Loc) :
    gists (parseRoots cst (root :: roots)) = (do
      let stmt ← gist (parse cst root).result
      let stmts ← gists (parseRoots cst roots)
      return stmt :: stmts) := by
  rw [parseRoots]
  rcases (parse cst root).result with e | ⟨stmt, metadata⟩
  · rfl
  · rcases parseRoots cst roots with e | ⟨stmts, more⟩ <;> rfl

theorem gists_congr {roots roots' : List Loc}
    (h : List.Forall₂ (fun l l' => gist (parse cst l).result = gist (parse cst' l').result) roots roots') :
    gists (parseRoots cst roots) = gists (parseRoots cst' roots') := by
  induction h with
  | nil => rfl
  | cons hhead _ ih => rw [gists_cons, gists_cons, hhead, ih]

/-- The program that some statements form, without regions. -/
def programOf : List Stmt → Except String Stmt
  | [] => .error "PAR000"
  | [stmt] => .ok stmt
  | first :: second :: rest => .ok (.expr (.block (first :: second :: rest) .blank) .blank)

theorem gist_parseAll (cst : Cst) :
    gist (parseAll cst) = gists (parseRoots cst cst.roots) >>= programOf := by
  rw [parseAll]
  rcases parseRoots cst cst.roots with e | ⟨stmts, metadata⟩
  · rfl
  · rcases stmts with _ | ⟨first, _ | ⟨second, rest⟩⟩
    · rfl
    · rfl
    · simp [gist, gists, programOf, Except.mapError, Except.map, Stmt.bare, Expr.bare, bind, Except.bind,
        pure, Except.pure]

end Language

/-- A source that has a syntax tree is cut up into pieces, and the items of the tree have the shapes of
the pieces' items. -/
theorem Cst.exists_pieces {a : Alphabet} {src : List Char} {cst : Cst} (h : Cst.lex a src = .ok cst) :
    ∃ pieces forest spares, cst.MadeOf src forest spares ∧
      (∀ n, src.length ≤ n → Piece.read a n src = some (pieces, none)) ∧
      forest.map Tree.shape = Piece.members a pieces := by
  obtain ⟨L, stop, hreads, hmade⟩ := exists_reads h
  obtain ⟨-, hadds⟩ := hreads.adds
  obtain ⟨pieces, P, hshows, hread⟩ := hadds (Level.Shows.nothing 1)
  exact ⟨pieces, L.members, _, hmade, fun n hn => hread hn .ended, hshows.shape_members⟩

theorem Cst.shows_of_ofSource? {a : Alphabet} {src : List Char} {cst : Cst} (h : Cst.lex a src = .ok cst)
    {shapes : List Shape} (hshapes : Shape.ofSource? a src = some shapes) :
    List.Forall₂ cst.Shows cst.roots shapes := by
  obtain ⟨pieces, forest, spares, hmade, hread, hshape⟩ := exists_pieces h
  rw [Shape.ofSource?, hread _ (Nat.le_refl _)] at hshapes
  rw [hmade.shows_roots_iff, hshape]
  exact (Option.some.inj hshapes).symm

namespace Analysis

open TypeTrace.Language

/-- What an analysis says about a source apart from places. -/
inductive Gist where
  /-- The type of the program, how it is displayed, and the bindings in the end. -/
  | typed (ty : Ty) (display : String) (bindings : Subst)
  /-- Why the program has no type. -/
  | illTyped (error : TypeError)
  /-- The code of the reason why the source is no program. -/
  | noProgram (code : String)
  /-- Why the source has no tree. -/
  | noTree (error : LexError)

/-- The gist of an outcome: regions, the log and the places of errors are left out. -/
def gist : Except AnalysisError Analysis → Gist
  | .ok r => .typed r.ty r.display r.trace.subst
  | .error (.lex e) => .noTree e
  | .error (.parse e _) => .noProgram e.code
  | .error (.type failure) => .illTyped failure.error

/-- What inference says about a program, as the gist of its analysis. -/
def Gist.ofFindings : Except TypeError (Ty × Subst) → Gist
  | .ok (ty, bindings) => .typed ty ty.canonical.render bindings
  | .error e => .illTyped e

theorem gist_of_program {cst : Cst} {stmt : Stmt} {metadata : Metadata}
    (h : parseAll cst = .ok (stmt, metadata)) :
    gist (ofCst cst) = .ofFindings (Infer.findings Env.builtin stmt) := by
  rw [ofCst, h, Infer.findings]
  dsimp only
  rcases Infer.program Env.builtin stmt with failure | ⟨ty, trace⟩ <;> rfl

theorem gist_of_parseError {cst : Cst} {e : ParseError} (h : parseAll cst = .error e) :
    gist (ofCst cst) = .noProgram e.code := by
  rw [ofCst, h]
  rfl

/-- Trees from which the same is read, apart from places, are analysed alike. -/
theorem gist_ofCst_congr {cst cst' : Cst} (h : Language.gist (parseAll cst) = Language.gist (parseAll cst')) :
    gist (ofCst cst) = gist (ofCst cst') := by
  rcases hparse : parseAll cst with e | ⟨stmt, metadata⟩
  all_goals rcases hparse' : parseAll cst' with e' | ⟨stmt', metadata'⟩
  all_goals rw [hparse, hparse'] at h
  · rw [gist_of_parseError hparse, gist_of_parseError hparse', Except.error.inj h]
  · cases h
  · cases h
  · rw [gist_of_program hparse, gist_of_program hparse', Infer.findings_congr (Except.ok.inj h)]

/-- **Sources of one shape are analysed alike.**  If the syntax trees of two sources, read with any two
alphabets, have items of the same shapes, the same program is read from them, apart from regions, or no
program for a reason of the same kind; and the program has the same type, in the same variables, with
the same bindings in the end, or has no type for the same reason. -/
theorem layout_insensitive {a a' : Alphabet} {src src' : List Char} {cst cst' : Cst} {shapes : List Shape}
    (hlex : Cst.lex a src = .ok cst) (hlex' : Cst.lex a' src' = .ok cst')
    (hshapes : List.Forall₂ cst.Shows cst.roots shapes)
    (hshapes' : List.Forall₂ cst'.Shows cst'.roots shapes) :
    Language.gist (parseAll cst) = Language.gist (parseAll cst') ∧
      gist (ofSource a src) = gist (ofSource a' src') := by
  obtain ⟨-, forest, spares, hmade, -, -⟩ := Cst.exists_pieces hlex
  obtain ⟨-, forest', spares', hmade', -, -⟩ := Cst.exists_pieces hlex'
  have hforest : forest.map Tree.shape = forest'.map Tree.shape :=
    ((hmade.shows_roots_iff shapes).mp hshapes).symm.trans ((hmade'.shows_roots_iff shapes).mp hshapes')
  have hroots : gists (parseRoots cst cst.roots) = gists (parseRoots cst' cst'.roots) := by
    refine gists_congr ?_
    rw [hmade.roots, hmade'.roots, List.forall₂_map_left_iff, List.forall₂_map_right_iff]
    exact forall₂_of_map_eq hforest fun t ht t' ht' => gist_parse hlex hlex' hmade hmade' ht ht'
  have hprogram : Language.gist (parseAll cst) = Language.gist (parseAll cst') := by
    rw [gist_parseAll, gist_parseAll, hroots]
  refine ⟨hprogram, ?_⟩
  rw [ofSource, hlex, ofSource, hlex']
  exact gist_ofCst_congr hprogram

/-- A function that pairs numbers up, and a call of it: `let k = (x) => [x ,1]` and, on the next line,
`k(2)`. -/
def pairSource : List Char := "let k = (x) => [x ,1]\nk(2)".toList

/-- The same in one line and with other separators: `let_k_=_(x)_=>_[x|1]|k(2 )`. -/
def pairSource' : List Char := "let_k_=_(x)_=>_[x|1]|k(2 )".toList

/-- Items are separated by bars, and words by underscores and blanks. -/
def barred : Alphabet := { Alphabet.js with sep := ['|'], space := ['_', ' '] }

theorem layout_insensitive_pair :
    ∃ cst cst', Cst.lex .js pairSource = .ok cst ∧ Cst.lex barred pairSource' = .ok cst' ∧
      Language.gist (parseAll cst) = Language.gist (parseAll cst') ∧
      gist (ofSource .js pairSource) = gist (ofSource barred pairSource') := by
  obtain ⟨cst, hlex⟩ : ∃ cst, Cst.lex .js pairSource = .ok cst := ⟨_, rfl⟩
  obtain ⟨cst', hlex'⟩ : ∃ cst, Cst.lex barred pairSource' = .ok cst := ⟨_, rfl⟩
  have hshapes : Shape.ofSource? .js pairSource = some
      [.list .spaced [.id "let", .id "k", .id "=", .list .round [.id "x"], .id "=>",
        .list .square [.id "x", .id "1"]], .list .smooshed [.id "k", .list .round [.id "2"]]] := rfl
  have hshapes' : Shape.ofSource? barred pairSource' = Shape.ofSource? .js pairSource := rfl
  exact ⟨cst, cst', hlex, hlex', layout_insensitive hlex hlex' (Cst.shows_of_ofSource? hlex hshapes)
    (Cst.shows_of_ofSource? hlex' (hshapes'.trans hshapes))⟩

end Analysis
end TypeTrace
