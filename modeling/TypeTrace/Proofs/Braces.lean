import TypeTrace.Proofs.Bracketing
import TypeTrace.Proofs.Relayout
import TypeTrace.Proofs.Session

/-!
# Programs in braces

Several statements at the top of a source form a block, and a block may also be written out.  A source
in braces is one item, a list of the items of the source, unless its first character makes a table of
the braces.  Each of the items is read in the list as it is read at the top: the rules for statements
look at one node and never at the nodes after it.  The program of the source in braces is then the block
that the source stands for, or a block around its only statement; and such a block is typed as the
statement in it.

## Main definitions

* `Matcher.solitary`: matchers that look at one node only
* `Language.ReadsAs`: a node that is read as a phrase

## Main results

* `Cst.exists_braces`: a source in braces has one item, a list of the items of the source
* `Matcher.Matches.among`: what a solitary matcher makes of a node does not depend on its siblings
* `Language.gist_braces`: a list in braces is the block of its members
* `Infer.findings_block`: a block of one statement is typed as the statement
* `Analysis.explicit_block_agrees`: a program in braces is analysed as without them
-/

namespace TypeTrace

/-! ## Between brackets -/

namespace Mark

variable {opensTable isGap : Char → Bool} {marks marks' outer : List Mark} {c : Char}
  {next : Option Char} {skip : Bool}

theorem fill_append (houter : fill outer = outer) : fill (marks ++ outer) = fill marks ++ outer := by
  cases marks with
  | nil => exact houter
  | cons mark marks => cases mark <;> rfl

/-- A character outside string literals does to the innermost marks what it does to them alone. -/
theorem stepPlain_append (houter : fill outer = outer)
    (h : stepPlain opensTable isGap marks c next = some (marks', skip)) :
    stepPlain opensTable isGap (marks ++ outer) c next = some (marks' ++ outer, skip) := by
  unfold stepPlain at h ⊢
  rcases hopen : ListKind.ofOpener? c with _ | kind
  · rcases hclose : ListKind.ofCloser? c with _ | kind
    · simp only [hopen, hclose, fill_append houter] at h ⊢
      split_ifs at h ⊢ <;> cases h <;> rfl
    · -- The bracket that is closed is one of the innermost.
      cases marks with
      | nil => simp [hopen, hclose] at h
      | cons mark marks =>
        simp only [hopen, hclose, List.cons_append] at h ⊢
        split_ifs at h ⊢
        cases h
        rfl
  · simp only [hopen, fill_append houter] at h ⊢
    split_ifs at h ⊢ <;> cases h <;> rfl

/-- A character does to the innermost marks what it does to them alone. -/
theorem step_append (houter : fill outer = outer) (htext : text ∉ outer.head?)
    (h : step opensTable isGap marks c next = some (marks', skip)) :
    step opensTable isGap (marks ++ outer) c next = some (marks' ++ outer, skip) := by
  rcases marks with _ | ⟨mark, marks⟩
  · rcases outer with _ | ⟨mark, outer⟩
    · simpa using h
    · cases mark with
      | text => exact absurd rfl htext
      | list | table | embed => exact stepPlain_append houter h
  · cases mark with
    | text =>
      simp only [step, stepText, List.cons_append] at h ⊢
      split_ifs at h ⊢
      · cases h; rfl
      · obtain ⟨_, rfl, h⟩ := Option.map_eq_some_iff.mp h
        cases h
        rfl
      · cases h; rfl
      · cases h; rfl
    | list | table | embed => exact stepPlain_append houter h

/-- If nothing is open after the last character, it does not depend on what follows. -/
theorem step_last (h : step opensTable isGap marks c none = some ([], skip)) (next : Option Char) :
    step opensTable isGap marks c next = some ([], false) := by
  -- The next character is looked at after an opening brace and inside a string literal only, and
  -- after both something is open.
  have hplain (h : stepPlain opensTable isGap marks c none = some ([], skip)) :
      stepPlain opensTable isGap marks c next = some ([], false) := by
    unfold stepPlain at h ⊢
    rcases hopen : ListKind.ofOpener? c with _ | kind
    · rcases hclose : ListKind.ofCloser? c with _ | kind
      · simp only [hopen, hclose] at h ⊢
        split_ifs at h ⊢ <;> simp_all
      · cases marks with
        | nil => simp [hopen, hclose] at h
        | cons mark marks =>
          simp only [hopen, hclose] at h ⊢
          split_ifs at h ⊢
          simp_all
    · simp [hopen] at h
  rcases marks with _ | ⟨mark, marks⟩
  · exact hplain h
  · cases mark with
    | text =>
      simp only [step, stepText] at h ⊢
      split_ifs at h ⊢ <;> simp_all
    | list | table | embed => exact hplain h

theorem scan_cons {rest : List Char} (h : step opensTable isGap marks c rest.head? = some (marks', false)) :
    scan opensTable isGap marks (c :: rest) = scan opensTable isGap marks' rest := by
  rw [scan, h]

/-- A text after which nothing is open leaves alone what is around it. -/
theorem scan_append (houter : fill outer = outer) (htext : text ∉ outer.head?) (more : List Char)
    (src : List Char) (h : scan opensTable isGap marks src = some []) :
    scan opensTable isGap (marks ++ outer) (src ++ more) = scan opensTable isGap outer more := by
  fun_induction scan opensTable isGap marks src with
  | case1 marks =>
    obtain rfl := Option.some.inj h
    rfl
  | case2 => cases h
  | case3 marks c marks' x rest hstep ih =>
    have hframed := step_append houter htext hstep
    rw [List.head?_cons] at hframed
    simp only [List.cons_append, scan, List.head?_cons, hframed]
    exact ih h
  | case4 marks c marks' skip rest hskip hstep ih =>
    cases rest with
    | nil =>
      -- The last character: nothing is open after it, whatever comes next.
      obtain rfl := Option.some.inj h
      exact scan_cons (step_append houter htext (step_last hstep more.head?))
    | cons x rest =>
      obtain rfl : skip = false := Bool.eq_false_iff.mpr fun hskips => hskip x rest hskips rfl
      have hframed : step opensTable isGap (marks ++ outer) c (x :: rest ++ more).head? =
          some (marks' ++ outer, false) := step_append houter htext hstep
      rw [List.cons_append, scan_cons hframed]
      exact ih h

/-- A well-bracketed text may stand in braces, if it does not begin a table there. -/
theorem wellBracketed_braces {src : List Char} (hne : src ≠ [])
    (hmark : ∀ c ∈ src.head?, opensTable c = false) (h : wellBracketed opensTable isGap src) :
    wellBracketed opensTable isGap ('\x7b' :: src ++ ['\x7d']) := by
  have hsrc : scan opensTable isGap [] src = some [] := by simpa [wellBracketed] using h
  obtain ⟨c, rest, rfl⟩ := List.exists_cons_of_ne_nil hne
  have hopen : step opensTable isGap [] '\x7b' (some c) = some ([list .curly], false) := by
    have hc : opensTable c = false := hmark c rfl
    simp [step, stepPlain, ListKind.ofOpener?, hc, fill]
  have hscan : scan opensTable isGap ([] ++ [list .curly]) (c :: rest ++ ['\x7d']) =
      scan opensTable isGap [list .curly] ['\x7d'] := scan_append rfl (by simp) _ _ hsrc
  rw [wellBracketed, List.cons_append, scan_cons hopen, ← List.nil_append [list .curly], hscan]
  rfl

end Mark

/-- Reading does not depend on what follows the text that is read, unless its end and that would begin
an embedded expression. -/
theorem Reads.append {a : Alphabet} {s s' : Stage} {pos pos' : Nat} {cs cs' : List Char}
    (h : Reads a s pos cs s' pos' cs') {more : List Char} (hmore : more.head? ≠ some '\x7b') :
    Reads a s pos (cs ++ more) s' pos' (cs' ++ more) := by
  induction h with
  | done => exact .done
  | plain hread _ ih => exact .plain hread ih
  | @bracket inTable L inner b c s' pos stop pos' opening inside rest cs' hopen hinner hclose _ ihinner
      ihmore =>
    rw [List.append_assoc]
    refine .bracket ?_ ihinner hclose ihmore
    -- The bracket is closed, so its first character is its own.
    obtain ⟨between, rfl, -⟩ := hinner.exists_between
    cases hopen with
    | list hopen hmark =>
      refine .list hopen fun hkind mark hhead => hmark hkind mark ?_
      cases between with
      | nil => exact hhead
      | cons => exact hhead
    | table hopen hmark => exact .table hopen hmark
  | quoted _ _ ihinner ihmore => exact .quoted ihinner ihmore
  | @char T c s' pos pos' cs cs' hquote hescape hembed _ ih =>
    refine .char hquote hescape (fun hc => ?_) ih
    cases cs with
    | nil => exact hmore
    | cons => exact hembed hc
  | escape _ ih => exact .escape ih
  | embed _ hitems _ ihinner ihmore => exact .embed ihinner hitems ihmore

/-- A construct alone makes one item, of its own shape. -/
theorem Piece.members_atom (a : Alphabet) (shape : Shape) : members a [.atom shape] = [shape] := rfl

/-- The place of a node is not that of the whole source. -/
theorem Cst.MadeOf.place_ne_zero {cst : Cst} {src : List Char} {forest spares : List Tree} {t : Tree}
    (h : cst.MadeOf src forest spares) (ht : t ∈ forest.flatMap Tree.nodes) : t.loc ≠ 0 := by
  have hplace := h.numbered.mem_iff.1 (List.mem_map_of_mem (List.mem_append_left _ ht))
  exact Nat.ne_zero_of_lt hplace.1

/-- **A source in braces has one item**, a list of the items of the source. -/
theorem Cst.exists_braces {a : Alphabet} {src : List Char} {cst : Cst} (hlex : Cst.lex a src = .ok cst)
    (hne : src ≠ []) (hmark : ∀ c ∈ src.head?, a.tableNew.contains c = false) :
    ∃ forest spares cst' t spares', cst.MadeOf src forest spares ∧
      Cst.lex a ('\x7b' :: src ++ ['\x7d']) = .ok cst' ∧
      cst'.MadeOf ('\x7b' :: src ++ ['\x7d']) [t] spares' ∧
      t.shape = .list .curly (forest.map Tree.shape) := by
  have hbrackets := Mark.wellBracketed_braces hne hmark ((Cst.lex_ok_iff a src).mp ⟨cst, hlex⟩)
  obtain ⟨cst', hlex'⟩ := (Cst.lex_ok_iff a _).mpr hbrackets
  obtain ⟨pieces', forest', spares', hmade', hread', hshape'⟩ := exists_pieces hlex'
  obtain ⟨L, stop, hreads, hmade⟩ := exists_reads hlex
  -- The source is read in the braces as it is read alone, up to the closing one.
  have hframed : Reads a _ 0 (src ++ ['\x7d']) _ stop ['\x7d'] := hreads.append (by simp)
  obtain ⟨-, hadds⟩ := hframed.adds
  obtain ⟨pieces, P, hshows, hread⟩ := hadds (Level.Shows.nothing 1)
  have hinner := hread (Nat.le_refl _) (.closed rfl)
  have hopens : (Bracket.list .curly).Opens a ['\x7b'] (src ++ ['\x7d']) := by
    refine .list rfl fun _ mark hhead => hmark mark ?_
    obtain ⟨c, rest, rfl⟩ := List.exists_cons_of_ne_nil hne
    exact hhead
  have hbraces := Piece.read_bracket hopens hinner (Piece.read_nil _)
  have hpieces := (hread' _ (by simp)).symm.trans hbraces
  obtain ⟨rfl, -⟩ := Prod.mk.inj (Option.some.inj hpieces)
  rw [Piece.members_atom] at hshape'
  obtain ⟨t, rfl, hshape⟩ := List.map_eq_singleton_iff.mp hshape'
  refine ⟨L.members, _, cst', t, spares', hmade, hlex', hmade', ?_⟩
  rw [hshape, hshows.shape_members]
  rfl

/-! ## Matchers that look at one node -/

namespace Matcher

variable {V : Type} {g : Grammar V} {cst : Cst} {solo : List String} {l : Loc} {rest : List Loc}
  {parent : Loc}

mutual

/-- The matcher looks at the first sibling only, if the rules named in `solo` do. -/
def solitary (solo : List String) : Matcher V → Bool
  | any | kwd .. | id _ | number | text _ | list .. | table .. => true
  | ref rule _ => solo.contains rule
  | seq _ | star _ | opt _ => false
  | group _ inner | tx inner _ => inner.solitary solo
  | or items => allSolitary solo items

/-- Each of the matchers looks at the first sibling only. -/
def allSolitary (solo : List String) : List (Matcher V) → Bool
  | [] => true
  | m :: ms => m.solitary solo && allSolitary solo ms

end

/-- The rules named in `solo` look at the first sibling only. -/
def RulesSolitary (g : Grammar V) (solo : List String) : Prop :=
  ∀ name ∈ solo, ∀ m, g.rule? name = some m → m.solitary solo = true

/-- What is made of one sibling, and the same with others after it. -/
inductive Among (rest : List Loc) : Verdict V → Verdict V → Prop
  | miss : Among rest none none
  | hit (v : V) (journal : List (Loc × Role)) (bindings : Bindings V) :
    Among rest (some ⟨(v, []), journal, bindings⟩) (some ⟨(v, rest), journal, bindings⟩)

namespace Among

variable {r r' : Verdict V}

theorem takeFirst {accept : Loc → Option (V × List (Loc × Role))} :
    Among rest (takeFirst [l] accept) (takeFirst (l :: rest) accept) := by
  simp only [Matcher.takeFirst]
  cases accept l with
  | none => exact .miss
  | some p => exact .hit _ _ _

theorem inside (role : Option Role) (r : Verdict V) :
    Among rest (inside l role [] r) (inside l role rest r) := by
  rcases r with _ | ⟨⟨v, _ | ⟨child, left⟩⟩, journal, bindings⟩
  · exact .miss
  · exact .hit _ _ _
  · exact .miss

theorem map {α : Type} (f : α → V) (r : Option (Gain V α)) :
    Among rest (r.map (·.map fun x => (f x, []))) (r.map (·.map fun x => (f x, rest))) := by
  cases r with
  | none => exact .miss
  | some gain => exact .hit _ _ _

theorem named (h : Among rest r r') (name : Option String) :
    Among rest (r.map (·.named name)) (r'.map (·.named name)) := by
  cases h with
  | miss => exact .miss
  | hit => exact .hit _ _ _

/-- The region of a single node does not depend on its siblings. -/
theorem built (h : Among rest r r') (build : Bindings V → Region → Option V) (parent' : Loc) :
    Among rest (built build [l] parent r) (built build (l :: rest) parent' r') := by
  cases h with
  | miss => exact .miss
  | hit v journal bindings =>
    have hregion : regionOf (l :: rest) rest parent' = regionOf [l] [] parent := by simp [regionOf]
    simp only [Matcher.built, Option.bind_some, hregion]
    cases build bindings (regionOf [l] [] parent) with
    | none => exact .miss
    | some v => exact .hit _ _ _

end Among

variable [MatchValue V]

mutual

/-- **What a solitary matcher makes of one sibling** it makes of it among others. -/
theorem Matches.among (hg : RulesSolitary g solo) {m : Matcher V} {nodes : List Loc} {parent : Loc}
    {r : Verdict V} (h : Matches g cst m nodes parent r) (l : Loc) (hnodes : nodes = [l])
    (hm : m.solitary solo = true) (rest : List Loc) (parent' : Loc) :
    ∃ r', Among rest r r' ∧ Matches g cst m (l :: rest) parent' r' :=
  match h with
  -- By recursion on the derivation: a solitary matcher looks at the first sibling and, if it
  -- succeeds, takes it, so the others stay.
  | .any .. => by
    subst hnodes
    exact ⟨_, .takeFirst, .any _ _⟩
  | .kwd .. => by
    subst hnodes
    exact ⟨_, .takeFirst, .kwd _ _ _ _⟩
  | .id .. => by
    subst hnodes
    exact ⟨_, .takeFirst, .id _ _ _⟩
  | .number .. => by
    subst hnodes
    exact ⟨_, .takeFirst, .number _ _⟩
  | .text hnode hspans => by
    cases hnodes
    exact ⟨_, .map _ _, .text hnode hspans⟩
  | .textMiss hmiss => by
    subst hnodes
    exact ⟨_, .miss, .textMiss hmiss⟩
  | .list hnode hkind hinner => by
    cases hnodes
    exact ⟨_, .inside _ _, .list hnode hkind hinner⟩
  | .listMiss hmiss => by
    subst hnodes
    exact ⟨_, .miss, .listMiss hmiss⟩
  | .table hnode hrows => by
    cases hnodes
    exact ⟨_, .map _ _, .table hnode hrows⟩
  | .tableMiss hmiss => by
    subst hnodes
    exact ⟨_, .miss, .tableMiss hmiss⟩
  | .or hitems => by
    obtain ⟨r', hr, hmatches⟩ := hitems.among hg l hnodes hm rest parent'
    exact ⟨r', hr, .or hmatches⟩
  | .group hinner => by
    obtain ⟨r', hr, hmatches⟩ := hinner.among hg l hnodes hm rest parent'
    exact ⟨_, hr.named _, .group hmatches⟩
  | .ref hrule htarget => by
    have htargets := hg _ (List.contains_iff_mem.mp hm) _ hrule
    obtain ⟨r', hr, hmatches⟩ := htarget.among hg l hnodes htargets rest parent'
    exact ⟨_, hr.named _, .ref hrule hmatches⟩
  | .refMiss hrule => ⟨_, .miss, .refMiss hrule⟩
  | .tx hinner => by
    obtain ⟨r', hr, hmatches⟩ := hinner.among hg l hnodes hm rest parent'
    subst hnodes
    exact ⟨_, hr.built _ parent', .tx hmatches⟩
  -- These may look further, and are not solitary.
  | .seq _ | .star _ | .opt _ => nomatch hm
termination_by structural h

theorem MatchesFirst.among (hg : RulesSolitary g solo) {ms : List (Matcher V)} {nodes : List Loc}
    {parent : Loc} {r : Verdict V} (h : MatchesFirst g cst ms nodes parent r) (l : Loc)
    (hnodes : nodes = [l]) (hms : allSolitary solo ms = true) (rest : List Loc) (parent' : Loc) :
    ∃ r', Among rest r r' ∧ MatchesFirst g cst ms (l :: rest) parent' r' :=
  match h with
  | .nil .. => ⟨_, .miss, .nil _ _⟩
  | .hit hhead => by
    obtain ⟨_, hr, hmatches⟩ := hhead.among hg l hnodes (Bool.and_eq_true_iff.mp hms).1 rest parent'
    cases hr with
    | hit => exact ⟨_, .hit _ _ _, .hit hmatches⟩
  | .next hhead htail => by
    obtain ⟨hm, hms⟩ := Bool.and_eq_true_iff.mp hms
    obtain ⟨_, hr, hmatches⟩ := hhead.among hg l hnodes hm rest parent'
    obtain ⟨r', hr', hrest⟩ := htail.among hg l hnodes hms rest parent'
    cases hr with
    | miss => exact ⟨r', hr', .next hmatches hrest⟩
termination_by structural h

end

end Matcher

/-! ## Statements in a row -/

namespace Language

open Matcher

variable {a : Alphabet} {src : List Char} {cst : Cst}

/-- The rules that look at one node. -/
def soloRules : List String :=
  [ "stmt", "block", "expr", "expr num", "expr var", "expr text", "expr tuple", "expr array", "expr!" ]

theorem grammar_solitary : RulesSolitary grammar soloRules := fun name hname m hrule =>
  have hall : ∀ e ∈ grammar.rules.entries, e.1 ∈ soloRules → e.2.solitary soloRules = true := by
    decide +kernel
  hall (name, m) (Grammar.mem_rules hrule) hname

/-- There is no statement where there is nothing. -/
theorem matches_stmt_nil (cst : Cst) (parent : Loc) : Matches grammar cst stmtRule [] parent none := by
  have hcounts : cst.Counts [] 0 := .nil
  obtain ⟨⟨r, record⟩, hrun, -⟩ := grammar_ranked.match?_alike (m := stmtRule) hcounts
    (fun rule _ => grammar_ranked.lt_top rule) (Nat.le_refl _) (Nat.le_refl _) parent .empty
  have hsettles := Grammar.match?_follows grammar cst _ stmtRule [] parent _ _ _ hrun
  rcases r with _ | ⟨v, rest⟩
  · exact hsettles.1
  · have hlt := Grammar.match?_consumes grammar_consumes (grammar_consumes "stmt" stmtRule rule?_stmt) hrun
    simp at hlt

/-- The place is read as the phrase, if it stands alone. -/
def ReadsAs (cst : Cst) (l : Loc) (v : Phrase) : Prop :=
  ∃ journal bindings, Matches grammar cst stmtRule [l] l (some ⟨(v, []), journal, bindings⟩)

/-- Nodes that are read as statements alone are read as such in a row. -/
theorem rounds_of_readsAs {nodes : List Loc} {vs : List Phrase}
    (h : List.Forall₂ (ReadsAs cst) nodes vs) (parent : Loc) :
    ∃ journal bindings,
      MatchesRounds grammar cst (use "stmt") nodes parent ⟨(vs, []), journal, bindings⟩ := by
  induction h with
  | nil => exact ⟨_, _, .stop (.ref rule?_stmt (matches_stmt_nil cst parent))⟩
  | @cons l v nodes vs hhead _ ih =>
    obtain ⟨journal, bindings, hmatches⟩ := hhead
    obtain ⟨journals, others, hrounds⟩ := ih
    obtain ⟨_, hr, hmatches⟩ := hmatches.among grammar_solitary l rfl rfl nodes parent
    cases hr with
    | hit => exact ⟨_, _, .more (.ref rule?_stmt hmatches) (by simp) hrounds⟩

/-- **A list in braces is read as a block**, if its members are read as statements. -/
theorem readsAs_block {l : Loc} {children : List Loc} {multiline : Bool} {vs : List Phrase}
    {stmts : List Stmt} (hnode : cst.node? l = some (.list .curly children multiline))
    (hvs : List.Forall₂ (ReadsAs cst) children vs) (hstmts : vs.mapM Phrase.stmt? = some stmts) :
    ReadsAs cst l (.expr (.block stmts ⟨l, none⟩)) := by
  obtain ⟨journal, bindings, hrounds⟩ := rounds_of_readsAs hvs l
  have hcontents : Matches grammar cst (manyAs "contents" "stmt") children l
      (some ⟨(.many vs, []), journal, ("contents", .many vs) :: bindings⟩) :=
    .group (.star hrounds)
  have hlist : Matches grammar cst (listOf .curly (manyAs "contents" "stmt")) [l] l
      (some ⟨(.many vs, []), journal, ("contents", .many vs) :: bindings⟩) :=
    .list hnode rfl hcontents
  have hbuild : Build.block (("contents", .many vs) :: bindings) ⟨l, none⟩ =
      some (.expr (.block stmts ⟨l, none⟩)) := by
    simp [Build.block, Build.part, Bindings.get?, Phrase.manyOf?, Phrase.many?, hstmts]
  have hblock : Matches grammar cst blockRule [l] l
      (some ⟨(.expr (.block stmts ⟨l, none⟩), []), journal, []⟩) := by
    have htx : Matches grammar cst blockRule [l] l (built Build.block [l] l _) := .tx hlist
    simpa [built, regionOf, hbuild] using htx
  -- A list in braces is no spaced list and no word.
  have hspaced (inner : Rule) : Matches grammar cst (listOf .spaced inner) [l] l none := by
    refine .listMiss fun found children' multiline' hfound => ?_
    cases hfound.symm.trans hnode
    simp [ListMatch.accepts]
  have hword : Matches grammar cst (.tx (keyword "return") Build.bareReturn) [l] l none := by
    have hfirst : ∀ word, firstNode? cst [l] ≠ some (.id word) := by simp [firstNode?, hnode]
    have hkeyword : Matches grammar cst (keyword "return") [l] l none :=
      takeWord_eq_none hfirst _ ▸ .kwd "return" .kwd [l] l
    exact .tx hkeyword
  exact ⟨_, _, .or (.next (hspaced _) (.next hword (.hit (.ref rfl hblock))))⟩

/-- A node that has the shape of an item is read as what the item is read as. -/
theorem exists_readsAs {a' : Alphabet} {src' : List Char} {cst' : Cst}
    {forest spares forest' spares' : List Tree} (hlex : Cst.lex a src = .ok cst)
    (hlex' : Cst.lex a' src' = .ok cst') (hmade : cst.MadeOf src forest spares)
    (hmade' : cst'.MadeOf src' forest' spares') {t t' : Tree} (ht : t ∈ forest)
    (ht' : t' ∈ forest'.flatMap Tree.nodes) (hshape : t.shape = t'.shape) {s : Stmt}
    (h : gist (parse cst t.loc).result = .ok s) :
    ∃ v, ReadsAs cst' t'.loc v ∧ v.stmt?.map Stmt.bare = some s := by
  by_cases hdepth : grammar.maxNesting < (cst.nesting t.loc).1
  · rw [gist_of_tooDeep hdepth] at h
    cases h
  have htwins : Cst.Twins forest forest' 0 0 t.loc t'.loc :=
    ⟨t, List.mem_flatMap.mpr ⟨t, ht, t.mem_nodes_self⟩, t', ht', rfl, rfl, hshape, iff_of_false
      (hmade.place_ne_zero (List.mem_flatMap.mpr ⟨t, ht, t.mem_nodes_self⟩)) (hmade'.place_ne_zero ht')⟩
  obtain ⟨r, record, r', record', hends, hends', hresult, -⟩ := exists_runs hlex hlex'
    (hmade.alike hmade' (fun u hu v hv => hmade.place_ne_zero (Cst.MadeOf.mem_of_mem_children hu hv))
      (fun u hu v hv => hmade'.place_ne_zero (Cst.MadeOf.mem_of_mem_children hu hv))) htwins
  -- The two runs agree, so the run on the item tells how the run on the node ends.
  cases hresult with
  | none =>
    rw [gist_of_failure hdepth hends] at h
    cases h
  | @some p p' hp =>
    obtain ⟨v, rest⟩ := p
    obtain ⟨v', rest'⟩ := p'
    obtain ⟨hv, hrest⟩ := hp
    -- A statement takes a node, so nothing is left of one node.
    have hlt := Grammar.match?_consumes grammar_consumes (grammar_consumes "stmt" stmtRule rule?_stmt) hends
    cases hrest with
    | cons => simp at hlt
    | nil =>
      rw [gist_of_success hmade ht hdepth hends, show v.bare = v'.bare from hv, Phrase.stmt?_bare] at h
      obtain ⟨journal, bindings, hmatches, -⟩ :=
        Grammar.match?_follows grammar cst' _ stmtRule _ _ _ _ _ hends'
      refine ⟨v', ⟨journal, bindings, hmatches⟩, ?_⟩
      rcases hstmt : v'.stmt? with _ | stmt
      · rw [hstmt] at h
        cases h
      · rw [hstmt] at h
        exact congrArg some (Except.ok.inj h)

theorem gist_of_gists {roots : List Loc} {ss : List Stmt} (h : gists (parseRoots cst roots) = .ok ss) :
    List.Forall₂ (fun l s => gist (parse cst l).result = .ok s) roots ss := by
  induction roots generalizing ss with
  | nil =>
    obtain rfl : [] = ss := Except.ok.inj h
    exact .nil
  | cons root roots ih =>
    rw [gists_cons] at h
    rcases hroot : gist (parse cst root).result with e | s
    · rw [hroot] at h
      cases h
    · rcases hroots : gists (parseRoots cst roots) with e | ss'
      · rw [hroot, hroots] at h
        cases h
      · rw [hroot, hroots] at h
        obtain rfl : s :: ss' = ss := Except.ok.inj h
        exact .cons hroot (ih hroots)

/-- Nodes that have the shapes of some items are read as what the items are read as. -/
theorem exists_readsAs_all {a' : Alphabet} {src' : List Char} {cst' : Cst}
    {forest spares forest' spares' : List Tree} (hlex : Cst.lex a src = .ok cst)
    (hlex' : Cst.lex a' src' = .ok cst') (hmade : cst.MadeOf src forest spares)
    (hmade' : cst'.MadeOf src' forest' spares') {ts ts' : List Tree} (hts : ∀ t ∈ ts, t ∈ forest)
    (hts' : ∀ t ∈ ts', t ∈ forest'.flatMap Tree.nodes) (hshape : ts.map Tree.shape = ts'.map Tree.shape)
    {ss : List Stmt}
    (h : List.Forall₂ (fun l s => gist (parse cst l).result = .ok s) (ts.map Tree.loc) ss) :
    ∃ vs stmts, List.Forall₂ (ReadsAs cst') (ts'.map Tree.loc) vs ∧
      vs.mapM Phrase.stmt? = some stmts ∧ stmts.map Stmt.bare = ss := by
  induction ts generalizing ts' ss with
  | nil =>
    obtain rfl := List.map_eq_nil_iff.mp hshape.symm
    cases h
    exact ⟨[], [], .nil, rfl, rfl⟩
  | cons t ts ih =>
    obtain ⟨t', ts', rfl, hhead, htail⟩ := List.map_eq_cons_iff.mp hshape.symm
    obtain ⟨ht, hts⟩ := List.forall_mem_cons.mp hts
    obtain ⟨ht', hts'⟩ := List.forall_mem_cons.mp hts'
    cases h with
    | @cons _ s _ ss hs hss =>
      obtain ⟨v, hv, hbare⟩ := exists_readsAs hlex hlex' hmade hmade' ht ht' hhead.symm hs
      obtain ⟨stmt, hstmt, rfl⟩ := Option.map_eq_some_iff.mp hbare
      obtain ⟨vs, stmts, hvs, hstmts, rfl⟩ := ih hts hts' htail.symm hss
      exact ⟨v :: vs, stmt :: stmts, .cons hv hvs, by simp [hstmt, hstmts], rfl⟩

/-! ## Programs in braces -/

/-- An item that is read as a phrase, and is not nested too deep, is what the phrase is. -/
theorem gist_of_readsAs {forest spares : List Tree} (hlex : Cst.lex a src = .ok cst)
    (hmade : cst.MadeOf src forest spares) {t : Tree} (ht : t ∈ forest)
    (hdepth : ¬grammar.maxNesting < (cst.nesting t.loc).1) {v : Phrase} (h : ReadsAs cst t.loc v) :
    gist (parse cst t.loc).result = (v.bare.stmt?).elim (.error "PAR001") .ok := by
  obtain ⟨journal, bindings, hmatches⟩ := h
  exact gist_of_success hmade ht hdepth (grammar_ranked.match?_eq_of_matches hlex rule?_stmt hmatches)

/-- **A list in braces is the block of its members**, if each of them has the shape of a statement and
it is not nested too deep. -/
theorem gist_braces {src' : List Char} {cst' : Cst} {forest spares spares' : List Tree} {t : Tree}
    (hlex : Cst.lex a src = .ok cst) (hlex' : Cst.lex a src' = .ok cst')
    (hmade : cst.MadeOf src forest spares) (hmade' : cst'.MadeOf src' [t] spares')
    (hshape : t.shape = .list .curly (forest.map Tree.shape))
    (hdepth : ∀ t ∈ forest, t.height ≤ grammar.maxNesting - 1) {ss : List Stmt}
    (h : List.Forall₂ (fun l s => gist (parse cst l).result = .ok s) (forest.map Tree.loc) ss) :
    gist (parse cst' t.loc).result = .ok (.expr (.block ss .blank) .blank) := by
  have ht : t ∈ [t] := List.mem_singleton_self t
  have hself : t ∈ [t].flatMap Tree.nodes := List.mem_flatMap.mpr ⟨t, ht, t.mem_nodes_self⟩
  -- The braces add one level to what is in them.
  have hheight : ¬grammar.maxNesting < (cst'.nesting t.loc).1 := by
    rw [hmade'.nesting_eq ht, Nat.not_lt]
    refine (Tree.height_le_succ_iff (k := grammar.maxNesting - 1)).mpr fun u hu => ?_
    have hchild : u.shape ∈ t.shape.children := t.children_shape ▸ List.mem_map_of_mem hu
    rw [hshape] at hchild
    obtain ⟨t', ht', hshape'⟩ := List.mem_map.mp hchild
    rw [Tree.height_eq_of_shape hshape'.symm]
    exact hdepth t' ht'
  cases t with
  | list l r kind members =>
    obtain ⟨rfl, hmembers⟩ : kind = .curly ∧ members.map Tree.shape = forest.map Tree.shape := by
      simpa using hshape
    obtain ⟨multiline, hnode⟩ := (hmade'.holds_of_mem hself).node?_eq
    obtain ⟨vs, stmts, hvs, hstmts, rfl⟩ := exists_readsAs_all hlex hlex' hmade hmade' (fun _ ht => ht)
      (fun u hu => Cst.MadeOf.mem_of_mem_children hself hu) hmembers.symm h
    rw [gist_of_readsAs hlex' hmade' ht hheight (readsAs_block hnode hvs hstmts)]
    simp only [Phrase.bare, Phrase.stmt?, Expr.bare, Expr.region, Stmt.bareAll_eq_map, Option.elim_some]
  | id | text | table => simp at hshape

end Language

/-- Where nothing is bound, an environment stays as it is. -/
theorem Env.extend_empty (env : Env) : (env.apply .empty).extend (Scope.apply .empty .empty) = env := by
  have hscheme (s : Scheme) : Scheme.apply .empty s = s := by
    have hwithout : Dict.without (.empty : Subst) s.vars = .empty :=
      Dict.ext_get? fun x => by simp [Dict.get?_without]
    rw [Scheme.apply, hwithout, Ty.apply_empty]
  have hscope : ((Scope.apply .empty env.scope).union (Scope.apply .empty .empty) : Scope) = env.scope := by
    refine Dict.ext_get? fun name => ?_
    rw [Dict.get?_union, Scope.apply, Scope.apply, Dict.get?_map, Dict.get?_map, Dict.get?_empty]
    rcases env.scope.get? name with _ | s
    · rfl
    · exact congrArg some (hscheme s)
  rw [extend, apply, hscope]

namespace Infer

open InferM

/-- **A block of one statement is typed as the statement.** -/
theorem findings_block (env : Env) (s : Stmt) (src src' : Region) :
    findings env (.expr (.block [s] src) src') = findings env s := by
  obtain ⟨ctx₀, hnote, hstore⟩ :
      ∃ ctx₀, exec (noteScope env) {} = (.ok (), ctx₀) ∧ ctx₀.store = ({} : Context).store := by
    rcases exec_noteScope env {} with hr | hr
    · exact ⟨_, hr, rfl⟩
    · exact ⟨_, hr, rfl⟩
  have hsubst : ctx₀.subst = .empty := congrArg Store.subst hstore
  obtain ⟨hout, hend⟩ := (stepwise_stmt (n := 0) env s).same ctx₀ {} hstore
  rw [findings_eq, findings_eq, ← hout, ← hend]
  rcases hrun : exec (stmt env s) ctx₀ with ⟨e | r, ctx⟩
  · have hblock : exec (stmt env (.expr (.block [s] src) src')) {} = (.error e, ctx) := by
      simp [stmt, expr, stmts, recording, exec_bind, hnote, resolveEnv, resolveScope, hsubst,
        Env.extend_empty, hrun]
    rw [hblock]
  · have hblock : exec (stmt env (.expr (.block [s] src) src')) {} =
        (.ok { ty := r.ty.apply ctx.subst },
          (exec (emit (.infer src (r.ty.apply ctx.subst))) ctx).2) := by
      simp only [stmt, expr, stmts, recording, exec_bind, hnote, resolveEnv, resolveScope, hsubst,
        Env.extend_empty, hrun, resolve, exec_pure, exec_subst]
      rfl
    -- The type of the statement is resolved twice, which is as good as once.
    have hresolved : ctx.subst.Resolved := by
      have hkeeps := ((stepwise_stmt (n := 0) env s).keeps Context.consistent_initial).1.resolved
      have hend' : ctx.subst = (exec (stmt env s) {}).2.subst := by
        rw [hrun] at hend
        exact congrArg Store.subst hend
      rwa [hend']
    rw [hblock]
    change Except.ok (((r.ty.apply ctx.subst).apply ctx.subst), ctx.subst) = .ok (r.ty.apply ctx.subst, ctx.subst)
    rw [hresolved.apply_apply]

end Infer

namespace Analysis

open TypeTrace.Language

/-- A source that is analysed up to its type has a program, made of the statements in it. -/
theorem exists_statements {a : Alphabet} {src : List Char}
    (h : (∃ r, ofSource a src = .ok r) ∨ ∃ failure, ofSource a src = .error (.type failure)) :
    ∃ cst stmt metadata ss, Cst.lex a src = .ok cst ∧ parseAll cst = .ok (stmt, metadata) ∧
      gists (parseRoots cst cst.roots) = .ok ss ∧ programOf ss = .ok stmt.bare := by
  rcases hlex : Cst.lex a src with e | cst
  · simp [ofSource, hlex] at h
  rcases hparse : parseAll cst with e | ⟨stmt, metadata⟩
  · simp [ofSource, hlex, ofCst, hparse] at h
  have hgist := gist_parseAll cst
  rcases hss : gists (parseRoots cst cst.roots) with e | ss
  · rw [hparse, hss] at hgist
    cases hgist
  · rw [hparse, hss] at hgist
    exact ⟨cst, stmt, metadata, ss, rfl, hparse, hss, hgist.symm⟩

/-- **An explicit block around a program changes nothing.**  If a source is a program, no item of which
is nested as deep as is allowed, and it does not begin like a table, the source in braces has the same
type, in the same variables, with the same bindings in the end, or no type for the same reason. -/
theorem explicit_block_agrees {a : Alphabet} {src : List Char}
    (hmark : ∀ c ∈ src.head?, a.tableNew.contains c = false)
    (hprogram : (∃ r, ofSource a src = .ok r) ∨ ∃ failure, ofSource a src = .error (.type failure))
    (hdepth : ∀ cst, Cst.lex a src = .ok cst → ∀ root ∈ cst.roots,
      (cst.nesting root).1 ≤ grammar.maxNesting - 1) :
    gist (ofSource a ('\x7b' :: src ++ ['\x7d'])) = gist (ofSource a src) := by
  obtain ⟨cst, stmt, metadata, ss, hlex, hparse, hss, hprog⟩ := exists_statements hprogram
  -- An empty source is no program.
  have hne : src ≠ [] := by
    rintro rfl
    obtain rfl : ss = [] := by
      cases hlex
      exact (Except.ok.inj hss).symm
    cases hprog
  obtain ⟨forest, spares, cst', t, spares', hmade, hlex', hmade', hshape⟩ :=
    Cst.exists_braces hlex hne hmark
  have hheights (u : Tree) (hu : u ∈ forest) : u.height ≤ grammar.maxNesting - 1 := by
    rw [← hmade.nesting_eq hu]
    exact hdepth cst hlex u.loc (hmade.roots ▸ List.mem_map_of_mem hu)
  have hgist : Language.gist (parseAll cst') = .ok (.expr (.block ss .blank) .blank) := by
    rw [gist_parseAll, hmade'.roots, List.map_singleton, gists_cons,
      gist_braces hlex hlex' hmade hmade' hshape hheights (hmade.roots ▸ gist_of_gists hss)]
    rfl
  have hsource : ofSource a src = ofCst cst := by rw [ofSource, hlex]
  have hsource' : ofSource a ('\x7b' :: src ++ ['\x7d']) = ofCst cst' := by rw [ofSource, hlex']
  rw [hsource, hsource']
  rcases ss with _ | ⟨first, _ | ⟨second, rest⟩⟩
  · cases hprog
  · -- A single statement is the program; in braces it is a block of one statement.
    obtain rfl : first = stmt.bare := Except.ok.inj hprog
    rcases hparse' : parseAll cst' with e | ⟨stmt', metadata'⟩
    · rw [hparse'] at hgist
      cases hgist
    · rw [hparse'] at hgist
      have hbare : stmt'.bare = (Stmt.expr (.block [stmt] .blank) .blank).bare := by
        simpa [Stmt.bare, Expr.bare] using Except.ok.inj hgist
      rw [gist_of_program hparse, gist_of_program hparse', Infer.findings_congr hbare,
        Infer.findings_block]
  · refine gist_ofCst_congr ?_
    rw [hgist, hparse]
    exact hprog

/-- A function bound to a name, and a call of it: `let f = (x) => x` and, on the next line, `f(1)`. -/
def callSource : List Char := "let f = (x) => x\nf(1)".toList

theorem explicit_block_agrees_call :
    ((∃ r, ofSource .js callSource = .ok r) ∨
        ∃ failure, ofSource .js callSource = .error (.type failure)) ∧
      gist (ofSource .js ('\x7b' :: callSource ++ ['\x7d'])) = gist (ofSource .js callSource) := by
  obtain ⟨cst, hlex⟩ : ∃ cst, Cst.lex .js callSource = .ok cst := ⟨_, rfl⟩
  have hcst : (Cst.lex .js callSource).toOption.all (fun cst => (parseAll cst).toOption.isSome &&
      cst.roots.all fun root => (cst.nesting root).1 ≤ grammar.maxNesting - 1) = true := by
    decide +kernel
  simp only [hlex, Except.toOption, Option.all_some, Bool.and_eq_true, List.all_eq_true,
    decide_eq_true_eq] at hcst
  obtain ⟨hparse, hdepth⟩ := hcst
  have hprogram : (∃ r, ofSource .js callSource = .ok r) ∨
      ∃ failure, ofSource .js callSource = .error (.type failure) := by
    rcases hprog : parseAll cst with e | ⟨stmt, metadata⟩
    · simp [hprog] at hparse
    · rw [ofSource, hlex]
      simp only [ofCst, hprog]
      rcases Infer.program Env.builtin stmt with failure | ⟨ty, trace⟩
      · exact .inr ⟨failure, rfl⟩
      · exact .inl ⟨_, rfl⟩
  have hmark (c : Char) (hc : c ∈ callSource.head?) : Alphabet.js.tableNew.contains c = false := by
    obtain rfl : 'l' = c := Option.some.inj hc
    rfl
  refine ⟨hprogram, explicit_block_agrees hmark hprogram fun cst' hlex' => ?_⟩
  obtain rfl : cst = cst' := Except.ok.inj (hlex.symm.trans hlex')
  exact hdepth

end Analysis
end TypeTrace
