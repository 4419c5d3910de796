import TypeTrace.Proofs.Height

/-!
# Rules that come up again among siblings

The engine goes down into the tree, and it also goes on along siblings: the body of an arrow function is
whatever follows the arrow, and there the rule for functions comes up again, while the calls for the
functions before it are still under way.  How many calls are nested therefore depends on the depth of
the tree and on the number of places, among the siblings in one list, where a rule may come up again.
In a layered grammar these places follow certain words.  A rule that has not come to such a word asks,
among its own siblings, for rules of a lower rank only.

## Main definitions

* `Cst.rowsBelow`: the rows of siblings below a node
* `Matcher.asks`: the rules that a matcher may ask for before it has come to one of certain words
* `Grammar.Layered`: rules that ask in this way for those of a lower rank only
* `Cst.Within`: nodes below which trees are not too deep and rows have few of the words

## Main results

* `Cst.within_nesting`: below a node the tree is as deep as the node is nested
* `Matcher.Asked.cases`: what a matcher asks for
* `Grammar.Layered.budget`: numbers of nested calls that suffice for a layered grammar
* `Grammar.Layered.exists_match?`: nesting and words bound the calls that reading a node nests
-/

namespace TypeTrace

namespace Cst

variable {cst : Cst} {marks : List String} {nodes rest : List Loc} {l : Loc} {w : Nat}

/-! ## Rows of siblings -/

/-- The rows of siblings right below a node: the members of a list, each row of a table, and each
expression that is embedded in a string literal, by itself. -/
def rowsBelow (cst : Cst) (l : Loc) : List (List Loc) :=
  match cst.node? l with
  | some (.list _ children _) => [children]
  | some (.table _ rows _) => rows
  | some (.text spans) => (Node.text spans).children.map ([·])
  | _ => []

/-- The node is one of the given words. -/
def isMark (cst : Cst) (marks : List String) (l : Loc) : Bool :=
  match cst.node? l with
  | some (.id s) => marks.contains s
  | _ => false

/-- How many of the nodes are one of the given words. -/
def countMarks (cst : Cst) (marks : List String) (nodes : List Loc) : Nat :=
  nodes.countP (cst.isMark marks)

theorem countMarks_le (h : rest <:+ nodes) : cst.countMarks marks rest ≤ cst.countMarks marks nodes :=
  h.sublist.countP_le

theorem flatten_rowsBelow (cst : Cst) (l : Loc) : (cst.rowsBelow l).flatten = cst.children l := by
  rw [rowsBelow, children]
  rcases cst.node? l with _ | (s | spans | ⟨kind, children, multiline⟩ | ⟨kind, rows, multiline⟩)
  · rfl
  · rfl
  · rw [← List.flatMap_def, List.flatMap_singleton']
    rfl
  · simp [Node.children]
  · rfl

/-- The tree below a node is `h` levels deep at most, the node included, and no row of siblings in it
has more than `w` of the given words. -/
inductive Within (cst : Cst) (marks : List String) (w : Nat) : Nat → Loc → Prop
  | node {h : Nat} {l : Loc} (hmarks : ∀ row ∈ cst.rowsBelow l, cst.countMarks marks row ≤ w)
    (hbelow : ∀ row ∈ cst.rowsBelow l, ∀ child ∈ row, Within cst marks w h child) :
    Within cst marks w (h + 1) l

/-- Below a node the tree is as deep as the node is nested. -/
theorem within_nesting {a : Alphabet} {src : List Char} (hlex : Cst.lex a src = .ok cst)
    (hrows : ∀ l', cst.Below l l' → ∀ row ∈ cst.rowsBelow l', cst.countMarks marks row ≤ w) :
    cst.Within marks w (cst.nesting l).1 l := by
  obtain ⟨n, -, hcounts⟩ := exists_counts_of_lex hlex l
  -- The nodes below are visited as they are counted, and any greater depth will do as well.
  suffices hall : ∀ {nodes n}, cst.Counts nodes n → ∀ l ∈ nodes, ∀ h, (cst.nesting l).1 ≤ h →
      (∀ l', cst.Below l l' → ∀ row ∈ cst.rowsBelow l', cst.countMarks marks row ≤ w) →
      cst.Within marks w h l from
    hall hcounts l (List.mem_singleton_self l) _ (Nat.le_refl _) hrows
  intro nodes n hcounts
  induction hcounts with
  | nil => simp
  | @cons parent _ _ _ _ _ hbelow hrest =>
    refine List.forall_mem_cons.mpr ⟨fun h hle hrows => ?_, hrest⟩
    rw [nesting_eq_children hlex] at hle
    obtain ⟨h, rfl⟩ : ∃ h', h = h' + 1 := ⟨h - 1, by omega⟩
    refine .node (hrows _ .refl) fun row hrow child hchild => ?_
    have hmem : child ∈ cst.children parent := by
      rw [← flatten_rowsBelow]
      exact List.mem_flatten.mpr ⟨row, hrow, hchild⟩
    exact hbelow child hmem h (foldr_max_le_iff.mp (Nat.le_of_succ_le_succ hle) child hmem)
      fun l' hl' => hrows l' (.head hmem hl')

/-- The steps that are left to some siblings: one for each of the words among them, and for each level
below them one and those that a row may have. -/
def Steps (cst : Cst) (marks : List String) (w : Nat) (nodes : List Loc) (n : Nat) : Prop :=
  ∃ h, (∀ l ∈ nodes, cst.Within marks w h l) ∧ n = h * (w + 1) + cst.countMarks marks nodes

namespace Steps

variable {n : Nat}

theorem suffix (hsteps : Steps cst marks w nodes n) (hsuffix : rest <:+ nodes) :
    ∃ n', Steps cst marks w rest n' ∧ n' + cst.countMarks marks nodes = n + cst.countMarks marks rest := by
  obtain ⟨h, hwithin, rfl⟩ := hsteps
  exact ⟨_, ⟨h, fun l hl => hwithin l (hsuffix.subset hl), rfl⟩, by omega⟩

theorem descend {row : List Loc} (hsteps : Steps cst marks w (l :: rest) n) (hrow : row ∈ cst.rowsBelow l) :
    ∃ n' < n, Steps cst marks w row n' := by
  obtain ⟨h, hwithin, rfl⟩ := hsteps
  cases hwithin l List.mem_cons_self with
  | @node h _ hmarks hbelow =>
    refine ⟨_, ?_, h, hbelow row hrow, rfl⟩
    have hrow := hmarks row hrow
    rw [Nat.succ_mul]
    omega

end Steps

end Cst

/-! ## What is asked for among siblings -/

namespace Matcher

variable {V : Type} {marks : List String}

/-- The matcher accepts one of the given words and nothing else. -/
def isMark (marks : List String) : Matcher V → Bool
  | kwd word _ => marks.contains word
  | _ => false

mutual

/-- The rules that the matcher may ask for, among its own siblings, before it has come to one of the
given words. -/
def asks (marks : List String) : Matcher V → List String
  | any | kwd .. | id _ | number | text _ | list .. | table .. => []
  | ref rule _ => [rule]
  | star inner | opt inner | group _ inner | tx inner _ => inner.asks marks
  | seq items => asksSeq marks items
  | or items => asksOr marks items

/-- What the items of a sequence ask for, up to the first that is one of the words. -/
def asksSeq (marks : List String) : List (Matcher V) → List String
  | [] => []
  | m :: ms => m.asks marks ++ if m.isMark marks then [] else asksSeq marks ms

/-- What the alternatives ask for. -/
def asksOr (marks : List String) : List (Matcher V) → List String
  | [] => []
  | m :: ms => m.asks marks ++ asksOr marks ms

end

theorem asks_subset_asksOr {m : Matcher V} {items : List (Matcher V)} (hm : m ∈ items) :
    m.asks marks ⊆ asksOr marks items := by
  induction items with
  | nil => cases hm
  | cons i items ih =>
    rw [asksOr]
    rcases List.mem_cons.mp hm with rfl | hm
    · exact List.subset_append_left _ _
    · exact List.subset_append_of_subset_right _ (ih hm)

theorem asks_subset_asksSeq {before after : List (Matcher V)} {m : Matcher V}
    (hbefore : ∀ i ∈ before, i.isMark marks = false) :
    m.asks marks ⊆ asksSeq marks (before ++ m :: after) := by
  induction before with
  | nil =>
    rw [List.nil_append, asksSeq]
    exact List.subset_append_left _ _
  | cons i before ih =>
    obtain ⟨hi, hbefore⟩ := List.forall_mem_cons.mp hbefore
    rw [List.cons_append, asksSeq, hi]
    exact List.subset_append_of_subset_right _ (ih hbefore)

variable [MatchValue V] {g : Grammar V} {cst : Cst} {nodes nodes' : List Loc} {parent : Loc}

/-- A word that is matched is not left. -/
theorem Matches.countMarks_lt {m : Matcher V} (hm : m.isMark marks = true)
    {gain : Gain V (V × List Loc)} (h : Matches g cst m nodes parent (some gain)) :
    cst.countMarks marks gain.result.2 < cst.countMarks marks nodes := by
  cases m with
  | kwd word role =>
    have hword : marks.contains word = true := hm
    have htake := (Matches.kwd word role nodes parent).unique h
    rcases nodes with _ | ⟨l, rest⟩
    · cases htake
    · obtain ⟨⟨v, journal⟩, haccept, rfl⟩ := Option.map_eq_some_iff.mp htake
      dsimp only at haccept
      have hmark : cst.isMark marks l = true := by
        rcases hnode : cst.node? l with _ | (found | spans | list | table)
        case some.id =>
          rw [hnode] at haccept
          dsimp only at haccept
          split at haccept
          · next hfound => simpa [Cst.isMark, hnode, hfound] using hword
          · cases haccept
        all_goals
          rw [hnode] at haccept
          cases haccept
      simp [Cst.countMarks, hmark]
  | any | id | number | text | list | table | seq | or | star | opt | group | ref | tx => cases hm

theorem MatchesAll.exists_of_cons {m : Matcher V} {ms : List (Matcher V)}
    {gain : Gain V (List V × List Loc)} (h : MatchesAll g cst (m :: ms) nodes parent (some gain)) :
    ∃ head inner, Matches g cst m nodes parent (some head) ∧
      MatchesAll g cst ms head.result.2 parent (some inner) ∧ gain.result.2 = inner.result.2 := by
  generalize hr : some gain = r at h
  cases h with
  | stop => cases hr
  | @cons _ _ _ mid _ v journal bindings r hhead htail =>
    obtain ⟨inner, rfl, rfl⟩ := Option.map_eq_some_iff.mp hr.symm
    exact ⟨⟨(v, mid), journal, bindings⟩, inner, hhead, htail, rfl⟩

/-- Items one of which is a word leave fewer of the words. -/
theorem MatchesAll.countMarks_lt {ms : List (Matcher V)} {gain : Gain V (List V × List Loc)}
    (h : MatchesAll g cst ms nodes parent (some gain)) {m : Matcher V} (hmem : m ∈ ms)
    (hm : m.isMark marks = true) :
    cst.countMarks marks gain.result.2 < cst.countMarks marks nodes := by
  induction ms generalizing nodes gain with
  | nil => cases hmem
  | cons i ms ih =>
    obtain ⟨head, inner, hhead, htail, hleft⟩ := h.exists_of_cons
    rw [hleft]
    rcases List.mem_cons.mp hmem with rfl | hmem
    · -- The word is taken first, and what the others leave is left of the rest.
      exact Nat.lt_of_le_of_lt (Cst.countMarks_le (htail.suffix inner rfl)) (hhead.countMarks_lt hm)
    · exact Nat.lt_of_lt_of_le (ih htail hmem) (Cst.countMarks_le (hhead.suffix head rfl))

/-- What a matcher asks for: a rule; or a part of itself on the siblings that are left, that asks for
nothing else among these or has fewer of the words left; or a part of itself on a row further down. -/
theorem Asked.cases {m m' : Matcher V} (h : Asked g cst m' nodes' m nodes) (marks : List String) :
    (∃ rule name, m = .ref rule name ∧ g.rule? rule = some m' ∧ nodes' = nodes) ∨
    m'.size < m.size ∧
      (nodes' <:+ nodes ∧ (m'.asks marks ⊆ m.asks marks ∨
          cst.countMarks marks nodes' < cst.countMarks marks nodes) ∨
        ∃ l rest, nodes = l :: rest ∧ nodes' ∈ cst.rowsBelow l) := by
  cases m with
  | any | kwd | id | number => cases h.subtask
  | text inner =>
    cases h.subtask with
    | text hnode hitem =>
      refine .inr ⟨by simp [size], .inr ⟨_, _, rfl, ?_⟩⟩
      simp only [Cst.rowsBelow, hnode]
      exact List.mem_map_of_mem (List.mem_filterMap.mpr ⟨_, hitem, rfl⟩)
  | list kind inner role =>
    cases h.subtask with
    | list hnode =>
      refine .inr ⟨by simp [size], .inr ⟨_, _, rfl, ?_⟩⟩
      simp only [Cst.rowsBelow, hnode]
      exact List.mem_singleton_self _
  | table kind row =>
    cases h.subtask with
    | table hnode hcells =>
      refine .inr ⟨by simp [size], .inr ⟨_, _, rfl, ?_⟩⟩
      simp only [Cst.rowsBelow, hnode]
      exact hcells
  | seq items =>
    obtain ⟨before, after, parent, gain, rfl, hbefore, rfl⟩ := h.matched items rfl
    have hsize : m'.size ≤ sizeAll (before ++ m' :: after) := size_le_sizeAll (by simp)
    refine .inr ⟨by rw [size]; omega, .inl ⟨hbefore.suffix gain rfl, ?_⟩⟩
    -- An item behind a mark has fewer marks left; any other is one of those that the sequence asks
    -- for.
    by_cases hmarks : ∃ i ∈ before, i.isMark marks = true
    · obtain ⟨i, hi, hmark⟩ := hmarks
      exact .inr (hbefore.countMarks_lt hi hmark)
    · refine .inl (asks_subset_asksSeq fun i hi => ?_)
      exact Bool.eq_false_iff.mpr fun hmark => hmarks ⟨i, hi, hmark⟩
  | or items =>
    cases h.subtask with
    | or hm =>
      have hsize := size_le_sizeAll hm
      exact .inr ⟨by rw [size]; omega, .inl ⟨List.suffix_rfl, .inl (asks_subset_asksOr hm)⟩⟩
  | star inner =>
    cases h.subtask with
    | star hmid => exact .inr ⟨by simp [size], .inl ⟨hmid, .inl (List.Subset.refl _)⟩⟩
  | opt inner =>
    cases h.subtask with
    | opt => exact .inr ⟨by simp [size], .inl ⟨List.suffix_rfl, .inl (List.Subset.refl _)⟩⟩
  | group name inner =>
    cases h.subtask with
    | group => exact .inr ⟨by simp [size], .inl ⟨List.suffix_rfl, .inl (List.Subset.refl _)⟩⟩
  | ref rule name =>
    cases h.subtask with
    | ref hrule => exact .inl ⟨rule, name, rfl, hrule, rfl⟩
  | tx inner build =>
    cases h.subtask with
    | tx => exact .inr ⟨by simp [size], .inl ⟨List.suffix_rfl, .inl (List.Subset.refl _)⟩⟩

end Matcher

/-! ## Layered grammars -/

namespace Grammar

open Matcher

variable {V : Type} {g : Grammar V} {rank : String → Nat} {top : Nat} {marks : List String}

/-- Before it has come to one of the words, a rule asks, among its own siblings, for rules of a lower
rank only. -/
structure Layered (g : Grammar V) (marks : List String) (rank : String → Nat) (top : Nat) : Prop where
  lt_top (rule : String) : rank rule < top
  descends (name rule : String) (m : Matcher V) (hrule : g.rule? name = some m)
    (hasks : rule ∈ m.asks marks) : rank rule < rank name

/-- **Numbers of nested calls that suffice for a layered grammar.** -/
theorem Layered.budget [MatchValue V] (h : g.Layered marks rank top) (cst : Cst) (w : Nat) :
    g.Budget cst fun m nodes c => ∃ n k, cst.Steps marks w nodes n ∧
      (∀ rule ∈ m.asks marks, rank rule < k) ∧ c = g.callsFor rank n k m where
  pos := by
    rintro m nodes _ ⟨n, k, -, -, rfl⟩
    exact Nat.lt_of_lt_of_le m.size_pos (Nat.le_add_left _ _)
  asked := by
    rintro m m' nodes nodes' _ ⟨n, k, hsteps, hasks, rfl⟩ hasked
    rcases hasked.cases marks with ⟨rule, name, rfl, hrule, rfl⟩ | ⟨hsize, hpart⟩
    · -- A rule asks for rules of a lower rank than its own.
      refine ⟨_, ?_, n, rank rule, hsteps, fun rule' => h.descends rule rule' m' hrule, rfl⟩
      have hbelow := sizeBelow_rule hrule (hasks rule (List.mem_singleton_self rule))
      simp only [callsFor, Matcher.size]
      omega
    · obtain ⟨n', hsteps', hn | ⟨hn, hsub⟩⟩ :
          ∃ n', cst.Steps marks w nodes' n' ∧ (n' < n ∨ n' ≤ n ∧ m'.asks marks ⊆ m.asks marks) := by
        rcases hpart with ⟨hsuffix, hpart⟩ | ⟨l, rest, rfl, hrow⟩
        · obtain ⟨n', hsteps', hn⟩ := hsteps.suffix hsuffix
          have hle : cst.countMarks marks nodes' ≤ cst.countMarks marks nodes := Cst.countMarks_le hsuffix
          refine ⟨n', hsteps', hpart.symm.imp (fun hlt => by omega) fun hsub => ⟨by omega, hsub⟩⟩
        · obtain ⟨n', hlt', hsteps'⟩ := hsteps.descend hrow
          exact ⟨n', hsteps', .inl hlt'⟩
      · -- With fewer steps left, all rules may be asked for again.
        refine ⟨_, ?_, n', top, hsteps', fun rule _ => h.lt_top rule, rfl⟩
        have hmul : (n' + 1) * g.size ≤ n * g.size := Nat.mul_le_mul_right _ hn
        have htop := g.sizeBelow_le rank top
        rw [Nat.succ_mul] at hmul
        simp only [callsFor]
        omega
      · refine ⟨_, ?_, n', k, hsteps', fun rule hrule => hasks rule (hsub hrule), rfl⟩
        have hmul : n' * g.size ≤ n * g.size := Nat.mul_le_mul_right _ hn
        simp only [callsFor]
        omega

/-- Nested calls that suffice for a layered grammar where nodes are not nested too deep and no row has
more than `w` of the words. -/
def callsWithin (g : Grammar V) (w : Nat) : Nat := (g.maxNesting * (w + 1) + 3) * g.size

theorem callsFor_le_callsWithin {name : String} {m : Matcher V} (hrule : g.rule? name = some m)
    {n w : Nat} (hn : n ≤ g.maxNesting * (w + 1) + 1) (rank : String → Nat) (k : Nat) :
    g.callsFor rank n k m ≤ g.callsWithin w := by
  have hbelow := g.sizeBelow_le rank k
  have hsize := size_le_of_rule hrule
  calc g.callsFor rank n k m
      ≤ n * g.size + g.size + g.size := by rw [callsFor]; omega
    _ = (n + 2) * g.size := by rw [Nat.add_mul, Nat.two_mul, Nat.add_assoc]
    _ ≤ g.callsWithin w := Nat.mul_le_mul_right _ (Nat.add_le_add_right hn 2)

/-- **With a layered grammar nesting and words bound the calls** that reading a node nests: every rule
comes to an outcome within `callsWithin`, and more nested calls do not change it. -/
theorem Layered.exists_match? [MatchValue V] (h : g.Layered marks rank top) {a : Alphabet}
    {src : List Char} {cst : Cst} (hlex : Cst.lex a src = .ok cst) {name : String} {m : Matcher V}
    (hrule : g.rule? name = some m) {root : Loc} (hdepth : (cst.nesting root).1 ≤ g.maxNesting) {w : Nat}
    (hrows : ∀ l, cst.Below root l → ∀ row ∈ cst.rowsBelow l, cst.countMarks marks row ≤ w)
    (record : MatchRecord V) :
    ∃ out, ∀ fuel, g.callsWithin w ≤ fuel → g.match? cst fuel m [root] root record = some out := by
  have hsteps : cst.Steps marks w [root] ((cst.nesting root).1 * (w + 1) + cst.countMarks marks [root]) :=
    ⟨_, List.forall_mem_singleton.mpr (Cst.within_nesting hlex hrows), rfl⟩
  have hn : (cst.nesting root).1 * (w + 1) + cst.countMarks marks [root] ≤ g.maxNesting * (w + 1) + 1 :=
    Nat.add_le_add (Nat.mul_le_mul_right _ hdepth) List.countP_le_length
  exact (h.budget cst w).exists_match? ⟨_, top, hsteps, fun rule _ => h.lt_top rule, rfl⟩
    (callsFor_le_callsWithin hrule hn rank top) root record

end Grammar
end TypeTrace
