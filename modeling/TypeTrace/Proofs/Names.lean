import TypeTrace.Proofs.Numerals
import TypeTrace.Proofs.Rules

/-!
# Names of a program

A variable of a program is a name in the source, an operator, or a name that belongs to a form with brackets;
a name is neither reserved nor a number.  Patterns bind names only, and none of those that are patterns of
another kind, as these are tried first.  `return` is reserved, so programs find the type that a function
returns under this name in `return` statements only, and never bind it themselves.

## Main definitions

* `Language.VarOrigin`: what a variable of an expression is read from
* `Construct.Sourced`: variables and integers agree with what they are read from
* `Construct.looksUp`: the name that typing a construct looks up

## Main results

* `Language.Made.sourced`: the forms of the language make up no variable and no integer
* `Language.sourced_of_parseAll`: neither do programs
* `Language.names_and_numbers`: names and numbers of a program are apart, and `return` is no name
-/

namespace TypeTrace

/-! ## Where names come from -/

namespace Language

/-- What a variable of an expression is read from: a name, a word with the role of an operator, or a list
in brackets that stands for a call. -/
inductive VarOrigin (cst : Cst) (metadata : Metadata) (l : Loc) : String → Prop
  | name {name : String} (hname : IsName cst l name) : VarOrigin cst metadata l name
  | operator {op : String} (hnode : cst.node? l = some (.id op)) (hop : op ∈ Operator.words)
    (hrole : metadata.get? l = some .bop) : VarOrigin cst metadata l op
  | brackets {name : String} {kind : ListKind} {children : List Loc} {multiline : Bool}
    (hnode : cst.node? l = some (.list kind children multiline))
    (hname : name ∈ ["null", ",", "[]", "::", "index"]) : VarOrigin cst metadata l name

end Language

open Language

/-- Variables and integers agree with what they are read from. -/
def Construct.Sourced (cst : Cst) (metadata : Metadata) : Construct → Prop
  | expr (.var name src) => src.right = none ∧ VarOrigin cst metadata src.left name
  | pat (.var name src) => src.right = none ∧ IsName cst src.left name ∧ name ∉ ["_", "true", "false"]
  | expr (.prim value src) | pat (.prim value src) =>
    ∀ i, value = .int i → src.right = none ∧ ∃ n : Nat, i = n ∧ IsNumber cst src.left n
  | _ => True

variable {cst : Cst} {metadata : Metadata}

/-- Variables and integers in a phrase agree with what they are read from; a word is an operator. -/
def Phrase.Sourced (cst : Cst) (metadata : Metadata) : Phrase → Prop
  | pat p => (Construct.pat p).All (Construct.Sourced cst metadata)
  | expr e => (Construct.expr e).All (Construct.Sourced cst metadata)
  | stmt s => (Construct.stmt s).All (Construct.Sourced cst metadata)
  | word w => VarOrigin cst metadata w.loc w.text
  | _ => True

theorem Phrase.Sourced.stmt? {v : Phrase} {s : Stmt} (h : v.Sourced cst metadata) (hs : v.stmt? = some s) :
    (Construct.stmt s).All (Construct.Sourced cst metadata) := by
  rcases eq_of_stmt? hs with rfl | ⟨e, rfl, rfl⟩
  · exact h
  · exact .of_children trivial (List.forall_mem_singleton.2 h)

theorem Phrase.Sourced.body? {v : Phrase} {e : Expr} (h : v.Sourced cst metadata) (he : v.body? = some e) :
    (Construct.expr e).All (Construct.Sourced cst metadata) := by
  rcases eq_of_body? he with rfl | ⟨src, rfl⟩ | ⟨s, rfl, rfl⟩
  · exact h
  · exact (Construct.all_iff.1 h).2 _ List.mem_cons_self
  · exact .of_children trivial (List.forall_mem_singleton.2 h)

namespace Language

open Matcher

/-! ## Forms of the language -/

/-- Phrases make up no variable and no integer. -/
def origins (cst : Cst) (metadata : Metadata) : Reading := fun rule _ _ v =>
  Form rule v ∧ v.Sourced cst metadata

theorem origins_formed : (origins cst metadata).Formed := fun _ _ _ _ h => h.1

variable {rule : String} {parent l : Loc} {taken : List Loc} {v : Phrase}

theorem origins.expr {e : Expr} (h : origins cst metadata rule parent taken (.expr e)) :
    (Construct.expr e).All (Construct.Sourced cst metadata) := h.2

theorem origins.pat {p : Pat} (h : origins cst metadata rule parent taken (.pat p)) :
    (Construct.pat p).All (Construct.Sourced cst metadata) := h.2

/-- The members of a series of phrases. -/
theorem Series.all {α : Type} {R : List Loc → α → Prop} {as : List α} {Q : α → Prop} (h : Series R as taken)
    (hR : ∀ t a, R t a → Q a) : ∀ a ∈ as, Q a := by
  intro a ha
  obtain ⟨t, -, hRa⟩ := h.mem ha
  exact hR t a hRa

theorem sourced_brackets {kind : ListKind} {children : List Loc} {multiline : Bool}
    (hnode : cst.node? l = some (.list kind children multiline)) {name : String}
    (hname : name ∈ ["null", ",", "[]", "::", "index"]) :
    Construct.Sourced cst metadata (.expr (.var name ⟨l, none⟩)) :=
  ⟨rfl, .brackets hnode hname⟩

theorem SuffixOf.sourced {s : Suffix} (h : SuffixOf (origins cst metadata) cst taken s) :
    ∀ part ∈ s.parts, part.All (Construct.Sourced cst metadata) := by
  cases h with
  | attr _ hname =>
    simp only [Suffix.parts, List.forall_mem_singleton]
    exact .leaf ⟨rfl, .name hname⟩ rfl
  | index hnode he =>
    simp only [Suffix.parts, List.forall_mem_cons, List.not_mem_nil, false_implies, implies_true, and_true]
    exact ⟨.leaf (sourced_brackets hnode (by simp)) rfl, he.expr⟩
  | call _ hes =>
    simp only [Suffix.parts, List.forall_mem_map]
    exact hes.all fun _ _ he => he.expr

theorem CaseOf.sourced {c : Case} (h : CaseOf (origins cst metadata) parent taken c) :
    ∀ part ∈ c.parts, part.All (Construct.Sourced cst metadata) := by
  obtain ⟨t, t', p, v, body, -, hp, hv, hbody, rfl⟩ := h
  simpa [Case.parts] using And.intro hp.pat (hv.2.body? hbody)

/-- **The forms of the language make up no variable and no integer**, if operators have their role, and names
that are patterns of another kind are no variables. -/
theorem Made.sourced (h : Made (origins cst metadata) cst rule parent taken v)
    (hbop : ∀ w, v = .word w → metadata.get? w.loc = some .bop)
    (hvar : ∀ l name src, taken = [l] → cst.node? l = some (.id name) → v = .pat (.var name src) →
      name ∉ ["_", "true", "false"]) : v.Sourced cst metadata := by
  cases h with
  -- Statements.
  | letBind _ _ _ hp he =>
    exact .of_children trivial (by simpa [Construct.children] using And.intro hp.pat he.expr)
  | ret _ he => exact .of_children trivial (by simpa [Construct.children] using he.expr)
  | forLoop _ _ hinit hv hcond hupdate hbody =>
    have hparts := And.intro (hinit.2.stmt? hv) (And.intro hcond.expr (And.intro hupdate.expr hbody.expr))
    exact .of_children trivial (by simpa [Construct.children] using hparts)
  | block _ hstmts =>
    have hall := hstmts.all fun t s hs => hs.choose_spec.2.2.stmt? hs.choose_spec.1
    exact .of_children trivial (by simpa [Construct.children] using hall)
  | bareReturn => exact .leaf trivial rfl
  | exprStmt he => exact .of_children trivial (by simpa [Construct.children] using he.expr)
  | blockStmt hv | single _ hv | ifExpr hv | spacedStmt _ _ hv | spaced _ hv | smooshed _ hv => exact hv.2
  -- Expressions.
  | number hn =>
    refine .leaf (fun n heq => ?_) rfl
    cases heq
    exact ⟨rfl, _, rfl, hn⟩
  | var hname => exact .leaf ⟨rfl, .name hname⟩ rfl
  | @str _ l spans s es _ hes =>
    have hall (e : Expr) (he : e ∈ es) : (Construct.expr e).All (Construct.Sourced cst metadata) := by
      obtain ⟨item, -, he⟩ := exists_of_mem_right hes he
      exact he.expr
    exact .of_children trivial (by simpa [Construct.children] using hall)
  | tuple hnode hes =>
    exact Construct.all_tuple (fun _ _ _ => trivial) (sourced_brackets hnode (by simp))
      (sourced_brackets hnode (by simp)) (hes.all fun _ _ he => he.expr)
  | array hnode hes =>
    exact Construct.all_array (fun _ _ _ => trivial) (sourced_brackets hnode (by simp))
      (sourced_brackets hnode (by simp)) (hes.all fun _ _ he => he.expr)
  | suffixed he hsuffixes =>
    exact Construct.all_applyAll (fun _ _ _ => trivial) he.expr (hsuffixes.all fun _ _ hs => hs.sourced)
  | lambda _ hps _ hbody =>
    have hbody := hbody.elim (·.expr) (·.expr)
    have hargs := hps.all fun _ _ hp => hp.pat
    exact .of_children trivial (by simpa [Construct.children] using And.intro hbody hargs)
  | @switch _ l l' l'' children _ _ rows target cases _ _ htarget _ hcases =>
    have hall (c : Case) (hc : c ∈ cases) : ∀ part ∈ c.parts, part.All (Construct.Sourced cst metadata) := by
      obtain ⟨cells, -, hc⟩ := exists_of_mem_right hcases hc
      exact hc.sourced
    refine .of_children trivial ?_
    simp only [Construct.children, List.forall_mem_cons, List.forall_mem_flatMap]
    exact ⟨htarget.expr, hall⟩
  | @ifElse _ l l' children _ t t' multiline cond yes no _ _ _ hcond hyes _ hno =>
    have hno (e : Expr) (he : e ∈ no) : (Construct.expr e).All (Construct.Sourced cst metadata) := by
      obtain ⟨l'', t'', -, -, he⟩ := hno e he
      exact he.elim (·.expr) (·.expr)
    have hparts := And.intro hcond.expr (And.intro hyes.expr hno)
    exact .of_children trivial (by simpa [Construct.children] using hparts)
  | operations hfirst hrest htree =>
    obtain ⟨rfl, rfl⟩ := htree.inorder
    -- The rule for operators gives a word, with the role that makes a variable of it.
    refine Construct.all_grouping (fun _ _ _ => trivial) hfirst.expr (hrest.all ?_)
    rintro t o ⟨t₁, t₂, -, hop, hright⟩
    exact ⟨⟨rfl, hop.2⟩, hright.expr⟩
  | bop hnode hop => exact .operator hnode hop (hbop _ rfl)
  -- Patterns.
  | anyPat | strPat => exact .leaf trivial rfl
  | numberPat hn =>
    refine .leaf (fun n heq => ?_) rfl
    cases heq
    exact ⟨rfl, _, rfl, hn⟩
  | boolPat => exact .leaf (by simp [Construct.Sourced]) rfl
  | varPat hname => exact .leaf ⟨rfl, hname, hvar _ _ _ rfl hname.1 rfl⟩ rfl
  | conPat _ _ _ hps =>
    exact .of_children trivial (by simpa [Construct.children] using hps.all fun _ _ hp => hp.pat)
  | tuplePat _ hps => exact Construct.all_tuplePat (fun _ _ _ => trivial) (hps.all fun _ _ hp => hp.pat)

/-! ## Operators and patterns -/

theorem rule_of_word {w : Word} (h : Form rule (.word w)) : rule = "bop" := by
  by_contra hrule
  simp [Form, hrule] at h

theorem rule_of_pat {p : Pat} (h : Form rule (.pat p)) : rule = "pat" := by
  by_contra hrule
  simp [Form, hrule] at h

variable {rest : List Loc} {word : String}

/-- One of some words is noted with its role. -/
theorem noted_of_words {words : List String} {role : Role} {nodes : List Loc}
    {gain : Gain Phrase (Phrase × List Loc)}
    (h : MatchesFirst grammar cst (words.map (.kwd · role)) nodes parent (some gain)) :
    ∃ w : Word, gain.result.1 = .word w ∧ (w.loc, role) ∈ gain.journal := by
  induction words with
  | nil => cases h
  | cons word words ih =>
    cases h with
    | hit hhead =>
      have htake := (Matches.kwd word role nodes parent).unique hhead
      obtain ⟨l, rest, found, v, journal, -, -, haccept, rfl⟩ := mem_takeWord htake
      split at haccept
      · cases haccept
        exact ⟨⟨found, l⟩, rfl, List.mem_cons_self⟩
      · cases haccept
    | next _ htail => exact ih htail

theorem matches_kwd (hnode : cst.node? l = some (.id word)) (role : Role) (rest : List Loc) (parent : Loc) :
    Matches grammar cst (.kwd word role) (l :: rest) parent
      (some ⟨(.word ⟨word, l⟩, rest), [(l, role)], []⟩) := by
  have h : Matches grammar cst (.kwd word role) (l :: rest) parent _ := .kwd word role (l :: rest) parent
  simpa [takeWord, takeFirst, hnode, MatchValue.ofId] using h

theorem matches_kwd_of_ne (hnode : cst.node? l = some (.id word)) (word' : String) (hne : word ≠ word')
    (role : Role) (rest : List Loc) (parent : Loc) :
    Matches grammar cst (.kwd word' role) (l :: rest) parent none := by
  have h : Matches grammar cst (.kwd word' role) (l :: rest) parent _ := .kwd word' role (l :: rest) parent
  simpa [takeWord, takeFirst, hnode, hne] using h

theorem matches_number_of_not_digits (hnode : cst.node? l = some (.id word)) (hword : isDigits word = false)
    (rest : List Loc) (parent : Loc) : Matches grammar cst .number (l :: rest) parent none := by
  have h : Matches grammar cst .number (l :: rest) parent _ := .number (l :: rest) parent
  simpa [takeWord, takeFirst, hnode, hword] using h

/-- The words that are patterns of their own are tried before names. -/
theorem matches_patRule_of_word (hnode : cst.node? l = some (.id word))
    (hword : word ∈ ["_", "true", "false"]) (rest : List Loc) (parent : Loc) :
    ∃ p journal, Matches grammar cst patRule (l :: rest) parent (some ⟨(.pat p, rest), journal, []⟩) ∧
      ∀ name src, p ≠ .var name src := by
  have hcases : word = "_" ∨ word = "true" ∨ word = "false" := by simpa using hword
  -- The alternatives before the one for names, in their order: `_`, numbers, truth values.
  rcases hcases with rfl | rfl | rfl
  · have hany := matches_kwd hnode .kwd rest parent
    exact ⟨_, _, .or (.hit (.tx hany)), nofun⟩
  · have hany := matches_kwd_of_ne hnode "_" (by decide) .kwd rest parent
    have hnumber := matches_number_of_not_digits hnode (by decide) rest parent
    have htrue := matches_kwd hnode .kwd rest parent
    exact ⟨_, _, .or (.next (.tx hany) (.next (.tx (.group hnumber)) (.hit (.tx (.group (.or (.hit htrue))))))),
      nofun⟩
  · have hany := matches_kwd_of_ne hnode "_" (by decide) .kwd rest parent
    have hnumber := matches_number_of_not_digits hnode (by decide) rest parent
    have htrue := matches_kwd_of_ne hnode "true" (by decide) .kwd rest parent
    have hfalse := matches_kwd hnode .kwd rest parent
    exact ⟨_, _, .or (.next (.tx hany) (.next (.tx (.group hnumber))
      (.hit (.tx (.group (.or (.next htrue (.hit hfalse)))))))), nofun⟩

theorem keepsNoting_origins (cst : Cst) (metadata : Metadata) :
    KeepsNoting (origins cst metadata).contract grammar cst fun e => metadata.get? e.1 = some e.2 := by
  intro rule m hrule parent taken rest v journal b hmatches hnoted hyields
  obtain ⟨hb, hmade⟩ := made_of_yields origins_formed hrule hyields
  have hform := hmade.formed origins_formed
  refine ⟨hb, hform, hmade.sourced ?_ ?_⟩
  · -- Only the rule for operators gives a word, and what it takes it notes as an operator.
    rintro w rfl
    obtain rfl := rule_of_word hform
    obtain rfl : .or (Operator.words.map (.kwd · .bop)) = m := Option.some.inj hrule
    cases hmatches with
    | or hitems =>
      obtain ⟨w', heq, hmem⟩ := noted_of_words hitems
      cases heq
      exact hnoted _ hmem
  · -- With such a word an earlier alternative would have matched, and there is one outcome only.
    rintro l name src rfl hnode rfl hname
    obtain rfl := rule_of_pat hform
    obtain rfl : patRule = m := Option.some.inj hrule
    obtain ⟨p, journal', hpat, hne⟩ := matches_patRule_of_word hnode hname rest parent
    have heq := hmatches.unique hpat
    simp only [Option.some.injEq, Gain.mk.injEq, Prod.mk.injEq, Phrase.pat.injEq] at heq
    exact hne name src heq.1.1.symm

/-! ## Programs -/

variable {src : List Char} {stmt : Stmt}

/-- The statement that an item is read as makes up no variable and no integer, if the roles noted for the
item count. -/
theorem sourced_of_parse {root : Loc} (h : (parse cst root).stmt = some stmt)
    (hnoted : ∀ e ∈ (grammar.run cst stmtRule root).2.journal, metadata.get? e.1 = some e.2) :
    (Construct.stmt stmt).All (Construct.Sourced cst metadata) := by
  obtain ⟨v, hv, hstmt⟩ := Option.bind_eq_some_iff.1 h
  obtain ⟨m, hrule, hrun, -⟩ := Grammar.parse_of_value hv
  obtain rfl := Option.some.inj (rule?_stmt.symm.trans hrule)
  exact (reading_of_noted (keepsNoting_origins cst metadata) hrule hrun hnoted).2.stmt? hstmt

theorem exists_root_of_get? {roots : List Loc} {stmts : List Stmt}
    (h : parseRoots cst roots = .ok (stmts, metadata)) {l : Loc} {role : Role}
    (hl : metadata.get? l = some role) : ∃ root ∈ roots, (parse cst root).metadata.get? l = some role := by
  induction roots generalizing stmts metadata with
  | nil =>
    cases h
    cases hl
  | cons root roots ih =>
    obtain ⟨stmt, stmts', more, -, -, hmore, rfl⟩ := exists_of_parseRoots_cons h
    rw [Dict.get?_union, Option.or_eq_some_iff] at hl
    rcases hl with hl | ⟨-, hl⟩
    · obtain ⟨root', hroot', hl⟩ := ih hmore hl
      exact ⟨root', List.mem_cons_of_mem _ hroot', hl⟩
    · exact ⟨root, List.mem_cons_self, hl⟩

/-- The roles in an item are those in the program, if other items have no roles for the same nodes. -/
theorem get?_of_parseRoots {roots : List Loc} {stmts : List Stmt}
    (h : parseRoots cst roots = .ok (stmts, metadata)) {root l : Loc} (hroot : root ∈ roots) {role : Role}
    (hl : (parse cst root).metadata.get? l = some role)
    (hsole : ∀ root' ∈ roots, ∀ role', (parse cst root').metadata.get? l = some role' → root' = root) :
    metadata.get? l = some role := by
  -- Of several items with a role for the node the last one would win, but there is only one.
  have hsame (role' : Role) (hrole' : metadata.get? l = some role') : role' = role := by
    obtain ⟨root', hroot', hl'⟩ := exists_root_of_get? h hrole'
    obtain rfl := hsole root' hroot' role' hl'
    exact Option.some.inj (hl'.symm.trans hl)
  have hsome : metadata.get? l ≠ none := by
    clear hsole hsame
    induction roots generalizing stmts metadata with
    | nil => cases hroot
    | cons first roots ih =>
      obtain ⟨stmt, stmts', more, -, -, hmore, rfl⟩ := exists_of_parseRoots_cons h
      rw [Dict.get?_union, Ne, Option.or_eq_none_iff, not_and_or]
      rcases List.mem_cons.1 hroot with rfl | hroot
      · exact .inr (by simp [hl])
      · exact .inl (ih hmore hroot)
  obtain ⟨role', hrole'⟩ := Option.ne_none_iff_exists'.1 hsome
  rw [hrole', hsame role' hrole']

theorem below_of_get?_metadata {forest spares : List Tree} {t : Tree} (hmade : cst.MadeOf src forest spares)
    (ht : t ∈ forest) (hstmt : (parse cst t.loc).stmt = some stmt) {l : Loc} {role : Role}
    (hl : (parse cst t.loc).metadata.get? l = some role) : cst.Below t.loc l := by
  have hmem := (accounts_of_stmt hmade ht hstmt).below _ ((get?_metadata hmade ht hstmt l role).1 hl)
  rw [List.flatMap_singleton] at hmem
  exact (hmade.below_iff (List.mem_flatMap.2 ⟨t, ht, t.mem_nodes_self⟩)).2 (List.mem_map.1 hmem)

/-- **Programs make up no variable and no integer.** -/
theorem sourced_of_parseAll {a : Alphabet} (hlex : Cst.lex a src = .ok cst)
    (h : parseAll cst = .ok (stmt, metadata)) :
    (Construct.stmt stmt).All (Construct.Sourced cst metadata) := by
  obtain ⟨L, stop, -, hmade⟩ := Cst.exists_reads hlex
  obtain ⟨stmts, hroots, hstmt⟩ := exists_of_parseAll h
  have hitems := forall₂_of_parseRoots hroots
  have hall (s : Stmt) (hmem : s ∈ stmts) : (Construct.stmt s).All (Construct.Sourced cst metadata) := by
    obtain ⟨root, hroot, hs⟩ := exists_of_mem_right hitems hmem
    obtain ⟨t, ht, rfl⟩ := List.mem_map.1 (hmade.roots ▸ hroot)
    refine sourced_of_parse hs fun e he => ?_
    have hrole := (get?_metadata hmade ht hs e.1 e.2).2 he
    -- Nodes with a role are in the item that they were read with, and no node is in two items.
    refine get?_of_parseRoots hroots hroot hrole fun root' hroot' role' hrole' => ?_
    obtain ⟨s', -, hs'⟩ := exists_of_mem_right (List.Forall₂.flip hitems) hroot'
    obtain ⟨t', ht', rfl⟩ := List.mem_map.1 (hmade.roots ▸ hroot')
    rw [hmade.root_unique ht' ht (below_of_get?_metadata hmade ht' hs' hrole')
      (below_of_get?_metadata hmade ht hs hrole)]
  rcases hstmt with rfl | ⟨first, second, rest, region, -, -, rfl⟩
  · exact hall stmt List.mem_cons_self
  · have hblock : (Construct.expr (.block stmts region)).All (Construct.Sourced cst metadata) :=
      .of_children trivial (by simpa [Construct.children] using hall)
    exact .of_children trivial (List.forall_mem_singleton.2 hblock)

end Language

/-! ## The name `return` -/

namespace InferM

variable {env : Env}

mutual

/-- A pattern binds its own variables only. -/
theorem pattern_binds (p : Pat) {c c' : Store} {r : Ty × Scope} (h : Yields (pattern env p) c r c')
    {name : String} {scheme : Scheme} (hname : r.2.get? name = some scheme) :
    ∃ src, (Construct.pat p).Below (.pat (.var name src)) := by
  cases p with
  | any src =>
    obtain ⟨rfl, rfl⟩ := yields_any.mp h
    cases hname
  | var name' src =>
    obtain ⟨rfl, rfl⟩ := yields_patVar.mp h
    rw [Dict.get?_singleton] at hname
    split at hname
    · next heq =>
      obtain rfl := Std.LawfulEqOrd.eq_of_compare heq
      exact ⟨src, .refl⟩
    · cases hname
  | prim value src =>
    obtain ⟨rfl, rfl⟩ := yields_patPrim.mp h
    cases hname
  | str value src =>
    obtain ⟨rfl, rfl⟩ := yields_patStr.mp h
    cases hname
  | con con args src =>
    obtain ⟨con, scope, -, -, hfields, rfl⟩ := yields_patCon.mp h
    -- The fields add their variables to an empty scope.
    rcases fields_binds args hfields hname with hempty | ⟨p, hp, src', hbelow⟩
    · cases hempty
    · exact ⟨src', .child (List.mem_map_of_mem hp) hbelow⟩

theorem fields_binds (ps : List Pat) {c c' : Store} {declared : List Ty} {scope scope' : Scope}
    (h : Yields (fields env declared scope ps) c scope' c') {name : String} {scheme : Scheme}
    (hname : scope'.get? name = some scheme) :
    scope.get? name = some scheme ∨ ∃ p ∈ ps, ∃ src, (Construct.pat p).Below (.pat (.var name src)) := by
  cases ps with
  | nil =>
    obtain ⟨rfl, rfl⟩ := yields_fields_nil.mp h
    exact .inl hname
  | cons p ps =>
    cases declared with
    | nil =>
      -- Patterns without a declared type are left out.
      rw [fields, yields_pure] at h
      obtain ⟨rfl, rfl⟩ := h
      exact .inl hname
    | cons d ds =>
      obtain ⟨ty, extra, c₁, c₂, hp, -, hps⟩ := yields_fields_cons.mp h
      rcases fields_binds ps hps hname with hname | ⟨p', hp', hbelow⟩
      · rw [Dict.get?_union, Option.or_eq_some_iff] at hname
        rcases hname with hname | ⟨-, hname⟩
        · exact .inr ⟨p, List.mem_cons_self, pattern_binds p hp hname⟩
        · exact .inl hname
      · exact .inr ⟨p', List.mem_cons_of_mem _ hp', hbelow⟩

end

end InferM

/-- The name that typing a construct looks up in the environment. -/
def Construct.looksUp : Construct → Option String
  | expr (.var name _) => some name
  | stmt (.ret ..) => some "return"
  | _ => none

namespace Language

open Matcher

theorem VarOrigin.ne_return {l : Loc} {name : String} (h : VarOrigin cst metadata l name) :
    name ≠ "return" := by
  rintro rfl
  cases h with
  | name hname => exact hname.2.1 (by decide)
  | operator _ hop => exact absurd hop (by decide)
  | brackets _ hname => exact absurd hname (by decide)

/-- **Names and numbers of a program are apart, and `return` is no name.**  An item with a number that is not
less than the 63rd power of two is no statement.  In a program, every word of digits is an integer with the
value of its digits, and every variable and every integer comes from a word of its kind; only `return`
statements look up `return`, and no pattern binds it. -/
theorem names_and_numbers {a : Alphabet} {src : List Char} {cst : Cst} (hlex : Cst.lex a src = .ok cst) :
    (∀ root l word, cst.Below root l → cst.node? l = some (.id word) → isDigits word = true →
      9223372036854775807 < digitsValue word → ∃ error, (parse cst root).result = .error error) ∧
    ∀ stmt metadata, parseAll cst = .ok (stmt, metadata) →
      (∀ root ∈ cst.roots, ∀ l word, cst.Below root l → cst.node? l = some (.id word) →
        isDigits word = true → digitsValue word ≤ 9223372036854775807 ∧
        (Construct.stmt stmt).HasNumber l (digitsValue word)) ∧
      ∀ t, (Construct.stmt stmt).Below t → t.Sourced cst metadata ∧
        (t.looksUp = some "return" → ∃ value region, t = .stmt (.ret value region)) ∧
        ∀ p, t = .pat p → ∀ env c c' ty scope,
          InferM.Yields (InferM.pattern env p) c (ty, scope) c' → scope.get? "return" = none := by
  refine ⟨?_, fun stmt metadata hparse => ⟨?_, fun t ht => ?_⟩⟩
  · intro root l word hl hnode hdigits hlarge
    rcases hresult : (parse cst root).result with error | ⟨stmt, metadata⟩
    · exact ⟨error, rfl⟩
    · have hcovers := covers_of_parse (Parsed.of_result hresult).1 root List.mem_cons_self l word hl hnode hdigits
      exact absurd hcovers.1 (Nat.not_le.2 hlarge)
  · intro root hroot l word hl hnode hdigits
    exact covers_of_parseAll hparse root hroot l word hl hnode hdigits
  · have hsourced := sourced_of_parseAll hlex hparse
    refine ⟨hsourced t ht, fun hreads => ?_, ?_⟩
    · -- A construct that looks up a name is a variable or a `return`, and a variable has another name.
      rcases t with p | e | s
      · cases hreads
      · cases e with
        | var name region => exact absurd (Option.some.inj hreads) (hsourced _ ht).2.ne_return
        | prim | str | block | lambda | call | ifElse | switch => cases hreads
      · cases s with
        | ret value region => exact ⟨value, region, rfl⟩
        | expr | letBind | forLoop => cases hreads
    · rintro p rfl env c c' ty scope hyields
      by_contra hbound
      obtain ⟨scheme, hscheme⟩ := Option.ne_none_iff_exists'.1 hbound
      obtain ⟨region, hbelow⟩ := InferM.pattern_binds p hyields hscheme
      have hname := (hsourced _ (ht.trans hbelow)).2.1
      exact hname.2.1 (by decide)

/-- Two items, with a number each, and with `=` as an operator. -/
def sumSource : List Char := "x + 12;\ny = 7".toList

/-- A call with a number that is one too large. -/
def largeSource : List Char := "f(9223372036854775808)".toList

theorem names_and_numbers_sumSource :
    (∃ cst stmt metadata, Cst.lex .js sumSource = .ok cst ∧ parseAll cst = .ok (stmt, metadata) ∧
      (Construct.stmt stmt).HasNumber 4 12 ∧ (Construct.stmt stmt).HasNumber 8 7 ∧
      (Construct.stmt stmt).All (Construct.Sourced cst metadata)) ∧
    ∃ cst error, Cst.lex .js largeSource = .ok cst ∧ (parse cst 3).result = .error error := by
  constructor
  · have hregion : ((Cst.lex .js sumSource).toOption.bind fun cst => (parseAll cst).toOption).map
        (fun p => p.1.region) = some ⟨2, some 6⟩ := by decide +kernel
    obtain ⟨cst, stmt, metadata, hlex, hparse, -⟩ := exists_of_region hregion
    have hnodes : (Cst.lex .js sumSource).toOption.map (fun cst =>
        (cst.roots, cst.children 2, cst.node? 4, cst.children 6, cst.node? 8)) =
        some ([2, 6], [1, 3, 4], some (.id "12"), [5, 7, 8], some (.id "7")) := by decide +kernel
    rw [hlex] at hnodes
    simp only [Except.toOption, Option.map_some, Option.some.injEq, Prod.mk.injEq] at hnodes
    obtain ⟨hroots, hfirst, htwelve, hsecond, hseven⟩ := hnodes
    obtain ⟨hnumbers, hsourced⟩ := (names_and_numbers hlex).2 stmt metadata hparse
    have hbelow : cst.Below 2 4 := Relation.ReflTransGen.single (hfirst ▸ by decide)
    have hbelow' : cst.Below 6 8 := Relation.ReflTransGen.single (hsecond ▸ by decide)
    refine ⟨cst, stmt, metadata, hlex, hparse, ?_, ?_, fun t ht => (hsourced t ht).1⟩
    · exact (hnumbers 2 (hroots ▸ by decide) 4 "12" hbelow htwelve (by decide)).2
    · exact (hnumbers 6 (hroots ▸ by decide) 8 "7" hbelow' hseven (by decide)).2
  · have hnodes : (Cst.lex .js largeSource).toOption.map (fun cst =>
        (cst.children 3, cst.children 2, cst.node? 4)) =
        some ([1, 2], [4], some (.id "9223372036854775808")) := by decide +kernel
    rcases hlex : Cst.lex .js largeSource with e | cst
    · rw [hlex] at hnodes
      cases hnodes
    · rw [hlex] at hnodes
      simp only [Except.toOption, Option.map_some, Option.some.injEq, Prod.mk.injEq] at hnodes
      obtain ⟨hroot, hargs, hlarge⟩ := hnodes
      have hbelow : cst.Below 3 4 :=
        .head (b := 2) (hroot ▸ by decide) (.single (hargs ▸ by decide))
      obtain ⟨error, herror⟩ := (names_and_numbers hlex).1 3 4 _ hbelow hlarge (by decide) (by decide)
      exact ⟨cst, error, rfl, herror⟩

end Language
end TypeTrace
