import TypeTrace.Proofs.Accounting
import TypeTrace.Proofs.Ranking

/-!
# Matching ends

A grammar can keep the engine busy without end, but not a ranked one on a syntax tree of a source.  One
combinator ends if all that it asks for does, and then so does the whole run, since what is asked for
takes fewer nested calls each time.  Two runs are followed side by side, with different bounds on
nested calls: once a bound suffices, a greater one changes nothing.

The rules of the language can be ranked.  Each of them takes a node whenever it succeeds, and so does
every round of a repetition in them.

## Main definitions

* `MatchM.Alike`: two computations that end in the same way
* `Matcher.Asked`: the tasks that come up in doing one
* `Grammar.Budget`: numbers of nested calls that get smaller from task to task
* `Language.rank`: the rank of a rule
* `Cst.Stored`: a tree as the store has it

## Main results

* `Matcher.alike_step`: one combinator ends if all that it asks for does
* `Grammar.Budget.match?_alike`: within a budget matching ends
* `Grammar.Ranked.match?_alike`: with a ranked grammar matching ends
* `Cst.exists_stored_of_lex`: every place in the syntax tree of a source is that of a tree
* `Cst.exists_counts_of_lex`: the nodes below a place in a syntax tree are no more than all nodes
* `Language.matching_terminates`: reading a program ends
-/

namespace TypeTrace

/-! ## Computations that end -/

namespace MatchM

variable {V α β : Type} {m m' : MatchM V α} {s : MatchRecord V}

/-- Both computations end, from the record `s`, with one result and one record. -/
def Alike (m m' : MatchM V α) (s : MatchRecord V) : Prop :=
  ∃ p, m s = some p ∧ m' s = some p

theorem alike_pure (a : α) : Alike (pure a) (pure a) s :=
  ⟨(a, s), rfl, rfl⟩

theorem alike_modify (f : MatchRecord V → MatchRecord V) : Alike (modify f) (modify f) s :=
  ⟨(⟨⟩, f s), rfl, rfl⟩

theorem alike_get : Alike (get : MatchM V _) get s :=
  ⟨(s, s), rfl, rfl⟩

theorem alike_set (s' : MatchRecord V) : Alike (set s' : MatchM V PUnit) (set s') s :=
  ⟨(⟨⟩, s'), rfl, rfl⟩

theorem alike_note? (loc : Loc) (role : Option Role) :
    Alike (note? loc role : MatchM V Unit) (note? loc role) s := by
  cases role with
  | none => exact alike_pure ()
  | some role => exact alike_modify _

theorem Alike.bind {f f' : α → MatchM V β} (h : Alike m m' s)
    (hf : ∀ a s', m s = some (a, s') → Alike (f a) (f' a) s') : Alike (m >>= f) (m' >>= f') s := by
  obtain ⟨⟨a, s'⟩, hm, hm'⟩ := h
  obtain ⟨p, hp, hp'⟩ := hf a s' hm
  exact ⟨p, Option.bind_eq_some_iff.mpr ⟨_, hm, hp⟩, Option.bind_eq_some_iff.mpr ⟨_, hm', hp'⟩⟩

theorem bind_eq_none {f : α → MatchM V β} (h : m s = none) : (m >>= f) s = none :=
  Option.bind_eq_none_iff.mpr fun p hp => by cases h.symm.trans hp

theorem attempt_eq_none {m : MatchM V (Option α)} (h : m { s with unparsed := [] } = none) :
    attempt m s = none := by
  refine Option.eq_none_iff_forall_ne_some.mpr fun p hp => ?_
  have hends : Ensures (attempt m) s fun _ _ => False := by
    simp only [attempt, report, ensures_bind, ensures_get, ensures_modify]
    exact fun a s' hm => by cases h.symm.trans hm
  exact hends p.1 p.2 hp

theorem Alike.attempt {m m' : MatchM V (Option α)} (h : Alike m m' { s with unparsed := [] }) :
    Alike (attempt m) (attempt m') s := by
  refine alike_get.bind ?_
  rintro _ _ ⟨⟩
  refine (alike_modify _).bind ?_
  rintro _ _ ⟨⟩
  refine h.bind fun r s' _ => ?_
  cases r with
  | none => exact alike_get.bind fun _ _ _ => (alike_set _).bind fun _ _ _ => alike_pure _
  | some a => exact (alike_modify _).bind fun _ _ _ => alike_pure _

end MatchM

/-! ## One combinator ends -/

namespace Matcher

open MatchM

variable {V : Type} {cst : Cst}

theorem alike_stepWord {nodes : List Loc} {s : MatchRecord V}
    {accept : String → Loc → MatchM V (Option V)}
    (haccept : ∀ found loc, Alike (accept found loc) (accept found loc) s) :
    Alike (stepWord cst nodes accept) (stepWord cst nodes accept) s := by
  cases nodes with
  | nil => exact alike_pure none
  | cons loc rest =>
    rw [stepWord]
    split
    · refine (haccept _ loc).bind fun r s' _ => ?_
      cases r with
      | none => exact alike_pure none
      | some v => exact alike_pure _
    · exact alike_pure none

variable [MatchValue V] {g : Grammar V} {call call' : MatchCall V}

/-- A task that comes up in doing another one: if it is an item of a sequence, the items before it have
been matched. -/
structure Asked (g : Grammar V) (cst : Cst) (m' : Matcher V) (nodes' : List Loc) (m : Matcher V)
    (nodes : List Loc) : Prop where
  subtask : Subtask g cst (m', nodes') (m, nodes)
  matched (items : List (Matcher V)) (h : m = .seq items) :
    ∃ before after parent gain, items = before ++ m' :: after ∧
      MatchesAll g cst before nodes parent (some gain) ∧ gain.result.2 = nodes'

/-- The matcher is a sequence. -/
def isSeq : Matcher V → Bool
  | seq _ => true
  | _ => false

theorem Asked.of_subtask {m m' : Matcher V} {nodes nodes' : List Loc} (hm : m.isSeq = false)
    (h : Subtask g cst (m', nodes') (m, nodes)) : Asked g cst m' nodes' m nodes where
  subtask := h
  matched := by
    rintro items rfl
    cases hm

/-- An item comes up once the items before it have been matched. -/
theorem alike_stepSeq (hcall : Follows g cst call) (parent : Loc) (ms : List (Matcher V))
    (nodes : List Loc) (s : MatchRecord V)
    (hitems : ∀ before m after gain, ms = before ++ m :: after →
      MatchesAll g cst before nodes parent (some gain) →
      ∀ s, Alike (call m gain.result.2 parent) (call' m gain.result.2 parent) s) :
    Alike (stepSeq call parent ms nodes) (stepSeq call' parent ms nodes) s := by
  induction ms generalizing nodes s with
  | nil => exact alike_pure _
  | cons m ms ih =>
    refine (hitems [] m ms ⟨([], nodes), [], []⟩ rfl (.nil nodes parent) s).bind fun r s₁ hr => ?_
    match r, hcall m nodes parent s r s₁ hr with
    | none, _ => exact alike_pure none
    | some (v, mid), ⟨journal, bindings, hhead, _⟩ =>
      refine (ih mid s₁ fun before i after gain hms hbefore => ?_).bind fun r s₂ _ => ?_
      · have hmatched : MatchesAll g cst (m :: before) nodes parent
            (some ((gain.map fun p => (v :: p.1, p.2)).after journal bindings)) := .cons hhead hbefore
        have hitem := hitems (m :: before) i after _ (by rw [hms]; rfl) hmatched
        exact hitem
      · cases r with
        | none => exact alike_pure none
        | some p => exact alike_pure _

omit [MatchValue V] in
theorem alike_stepOr (nodes : List Loc) (parent : Loc) (ms : List (Matcher V)) (s : MatchRecord V)
    (hitems : ∀ m ∈ ms, ∀ s, Alike (call m nodes parent) (call' m nodes parent) s) :
    Alike (stepOr call nodes parent ms) (stepOr call' nodes parent ms) s := by
  induction ms generalizing s with
  | nil => exact alike_pure none
  | cons m ms ih =>
    refine (hitems m List.mem_cons_self s).bind fun r s₁ _ => ?_
    cases r with
    | none => exact ih s₁ fun i hi => hitems i (List.mem_cons_of_mem m hi)
    | some hit => exact alike_pure _

theorem alike_stepStar (hcall : Follows g cst call) (m : Matcher V) (parent : Loc) (n : Nat)
    (nodes : List Loc) (s : MatchRecord V)
    (hround : ∀ mid, mid <:+ nodes → ∀ s, Alike (call m mid parent) (call' m mid parent) s) :
    Alike (stepStar call m parent n nodes) (stepStar call' m parent n nodes) s := by
  induction n generalizing nodes s with
  | zero => exact alike_pure _
  | succ n ih =>
    refine alike_get.bind ?_
    rintro _ _ ⟨⟩
    refine (hround nodes List.suffix_rfl s).bind fun r s₁ hr => ?_
    match r, hcall m nodes parent s r s₁ hr with
    | none, _ => exact alike_pure _
    | some (v, mid), ⟨journal, bindings, hhead, _⟩ =>
      have hsuffix : mid <:+ nodes := hhead.suffix _ rfl
      by_cases htaken : mid.length < nodes.length
      · simp only [if_pos htaken]
        refine (ih mid s₁ fun left hleft => hround left (hleft.trans hsuffix)).bind fun p s₂ _ => ?_
        exact alike_pure _
      · simp only [if_neg htaken]
        exact alike_get.bind fun _ _ _ => (alike_set _).bind fun _ _ _ => alike_pure _

omit [MatchValue V] in
theorem alike_stepSpans (m : Matcher V) (spans : List (TextSpan Loc)) (s : MatchRecord V)
    (hitems : ∀ item, .embed item ∈ spans →
      ∀ s, Alike (call m [item] item) (call' m [item] item) s) :
    Alike (stepSpans call m spans) (stepSpans call' m spans) s := by
  induction spans generalizing s with
  | nil => exact alike_pure _
  | cons span spans ih =>
    have hrest (s : MatchRecord V) : Alike (stepSpans call m spans) (stepSpans call' m spans) s :=
      ih s fun item hitem => hitems item (List.mem_cons_of_mem span hitem)
    cases span with
    | text t =>
      refine (hrest s).bind fun r s₁ _ => ?_
      cases r with
      | none => exact alike_pure none
      | some vs => exact alike_pure _
    | embed item =>
      refine (hitems item List.mem_cons_self s).bind fun r s₁ _ => ?_
      rcases r with _ | ⟨v, _ | ⟨left, rest⟩⟩
      · exact alike_pure none
      · refine (hrest s₁).bind fun r s₂ _ => ?_
        cases r with
        | none => exact alike_pure none
        | some vs => exact alike_pure _
      · exact alike_pure none

omit [MatchValue V] in
theorem alike_stepRows (m : Matcher V) (table : Loc) (rows : List (List Loc)) (s : MatchRecord V)
    (hrows : ∀ cells ∈ rows, ∀ s, Alike (call m cells table) (call' m cells table) s) :
    Alike (stepRows call m table rows) (stepRows call' m table rows) s := by
  induction rows generalizing s with
  | nil => exact alike_pure _
  | cons cells rows ih =>
    refine (hrows cells List.mem_cons_self s).bind fun r s₁ _ => ?_
    have hrest := ih s₁ fun cells hcells => hrows cells (List.mem_cons_of_mem _ hcells)
    rcases r with _ | ⟨v, _ | ⟨cell, rest⟩⟩
    · exact alike_pure none
    · refine hrest.bind fun r s₂ _ => ?_
      cases r with
      | none => exact alike_pure none
      | some vs => exact alike_pure _
    · exact (alike_modify _).bind fun _ _ _ => alike_pure none

section Below

variable {nodes : List Loc} {parent : Loc} {s : MatchRecord V}

theorem alike_text {inner : Matcher V}
    (hsub : ∀ item, Subtask g cst (inner, [item]) (.text inner, nodes) →
      ∀ parent s, Alike (call inner [item] parent) (call' inner [item] parent) s) :
    Alike (step call g cst (.text inner) nodes parent) (step call' g cst (.text inner) nodes parent) s := by
  cases nodes with
  | nil => exact alike_pure none
  | cons loc rest =>
    rcases hnode : cst.node? loc with _ | (found | spans | ⟨kind, children, multiline⟩ | rows)
    case some.text =>
      simp only [Matcher.step, hnode]
      refine (alike_stepSpans inner spans s fun item hitem =>
        hsub item (.text hnode hitem) item).bind fun r s' _ => ?_
      cases r with
      | none => exact alike_pure none
      | some vs => exact alike_pure _
    all_goals
      simp only [Matcher.step, hnode]
      exact alike_pure none

theorem alike_list {kind : ListMatch} {inner : Matcher V} {role : Option Role}
    (hsub : ∀ children, Subtask g cst (inner, children) (.list kind inner role, nodes) →
      ∀ parent s, Alike (call inner children parent) (call' inner children parent) s) :
    Alike (step call g cst (.list kind inner role) nodes parent)
      (step call' g cst (.list kind inner role) nodes parent) s := by
  cases nodes with
  | nil => exact alike_pure none
  | cons loc rest =>
    rcases hnode : cst.node? loc with _ | (found | spans | ⟨found, children, multiline⟩ | rows)
    case some.list =>
      by_cases hkind : kind.accepts found = true
      · simp only [Matcher.step, hnode, if_pos hkind]
        refine (hsub children (.list hnode) loc s).bind fun r s' _ => ?_
        rcases r with _ | ⟨v, _ | ⟨child, left⟩⟩
        · exact alike_pure none
        · exact (alike_note? loc role).bind fun _ _ _ => alike_pure _
        · exact (alike_modify _).bind fun _ _ _ => alike_pure none
      · simp only [Matcher.step, hnode, if_neg hkind]
        exact alike_pure none
    all_goals
      simp only [Matcher.step, hnode]
      exact alike_pure none

theorem alike_table {kind : ListKind} {row : Matcher V}
    (hsub : ∀ cells, Subtask g cst (row, cells) (.table kind row, nodes) →
      ∀ parent s, Alike (call row cells parent) (call' row cells parent) s) :
    Alike (step call g cst (.table kind row) nodes parent)
      (step call' g cst (.table kind row) nodes parent) s := by
  cases nodes with
  | nil => exact alike_pure none
  | cons loc rest =>
    rcases hnode : cst.node? loc with _ | (found | spans | ⟨found, children, multiline⟩ |
      ⟨found, rows, multiline⟩)
    case some.table =>
      simp only [Matcher.step, hnode]
      split
      · next hkind =>
        subst hkind
        refine (alike_stepRows row loc rows s fun cells hcells =>
          hsub cells (.table hnode hcells) loc).bind fun r s' _ => ?_
        cases r with
        | none => exact alike_pure none
        | some vs => exact alike_pure _
      · exact alike_pure none
    all_goals
      simp only [Matcher.step, hnode]
      exact alike_pure none

end Below

/-- **One combinator ends** if all that it asks for does, and how it ends depends on nothing else. -/
theorem alike_step (hcall : Follows g cst call) (m : Matcher V) (nodes : List Loc) (parent : Loc)
    (s : MatchRecord V)
    (hsub : ∀ m' nodes', Asked g cst m' nodes' m nodes →
      ∀ parent s, Alike (call m' nodes' parent) (call' m' nodes' parent) s) :
    Alike (step call g cst m nodes parent) (step call' g cst m nodes parent) s := by
  cases m with
  | any =>
    cases nodes with
    | nil => exact alike_pure none
    | cons loc rest => exact alike_pure _
  | kwd word role =>
    refine alike_stepWord fun found loc => ?_
    split
    · exact (alike_modify _).bind fun _ _ _ => alike_pure _
    · exact alike_pure none
  | id role =>
    refine alike_stepWord fun found loc => ?_
    split
    · exact alike_pure none
    · exact (alike_note? loc role).bind fun _ _ _ => alike_pure _
  | number =>
    refine alike_stepWord fun found loc => ?_
    split
    · exact alike_pure _
    · exact alike_pure none
  | text inner => exact alike_text fun item hitem => hsub inner [item] (.of_subtask rfl hitem)
  | list kind inner role => exact alike_list fun children hlist => hsub inner children (.of_subtask rfl hlist)
  | table kind row => exact alike_table fun cells hcells => hsub row cells (.of_subtask rfl hcells)
  -- Only an item that the items before it lead to is asked for.
  | seq items =>
    refine (alike_stepSeq hcall parent items nodes s fun before m after gain hitems hbefore => ?_).bind
      fun r s' _ => ?_
    · subst hitems
      refine hsub m gain.result.2 ⟨.seq (hbefore.suffix gain rfl) (hbefore.mayIdle gain rfl), ?_⟩ parent
      rintro _ ⟨⟩
      exact ⟨before, after, parent, gain, rfl, hbefore, rfl⟩
    · cases r with
      | none => exact alike_pure none
      | some p => exact alike_pure _
  | or items =>
    exact alike_stepOr nodes parent items s fun m hm => hsub m nodes (.of_subtask rfl (.or hm)) parent
  | star inner =>
    exact (alike_stepStar hcall inner parent _ nodes s fun mid hmid =>
      hsub inner mid (.of_subtask rfl (.star hmid)) parent).bind fun p s' _ => alike_pure _
  | opt inner =>
    refine (hsub inner nodes (.of_subtask rfl .opt) parent s).bind fun r s' _ => ?_
    cases r with
    | none => exact alike_pure _
    | some hit => exact alike_pure _
  | group name inner =>
    refine (hsub inner nodes (.of_subtask rfl .group) parent s).bind fun r s' _ => ?_
    cases r with
    | none => exact alike_pure none
    | some p => exact (alike_modify _).bind fun _ _ _ => alike_pure _
  | ref rule name =>
    cases hrule : g.rule? rule with
    | none =>
      simp only [Matcher.step, hrule]
      exact alike_pure none
    | some target =>
      simp only [Matcher.step, hrule]
      refine (hsub target nodes (.of_subtask rfl (.ref hrule)) parent s).bind fun r s' _ => ?_
      cases r with
      | none => exact alike_pure none
      | some p =>
        cases name with
        | none => exact alike_pure _
        | some name => exact (alike_modify _).bind fun _ _ _ => alike_pure _
  | tx inner build =>
    refine alike_get.bind fun _ _ _ => (alike_modify _).bind fun _ s' _ => ?_
    refine (hsub inner nodes (.of_subtask rfl .tx) parent s').bind fun r _ _ => ?_
    refine alike_get.bind fun r' _ _ => (alike_modify _).bind fun _ _ _ => ?_
    cases r with
    | none => exact alike_pure none
    | some p =>
      dsimp only
      split
      · exact alike_pure none
      · exact alike_pure _

end Matcher

/-! ## Runs end -/

namespace Grammar

open MatchM Matcher

variable {V : Type} [MatchValue V] {g : Grammar V} {rank : String → Nat} {top k : Nat} {cst : Cst}

/-- Numbers of nested calls, fewer for what a task asks for than for the task. -/
structure Budget (g : Grammar V) (cst : Cst) (calls : Matcher V → List Loc → Nat → Prop) : Prop where
  pos {m : Matcher V} {nodes : List Loc} {c : Nat} (h : calls m nodes c) : 0 < c
  asked {m m' : Matcher V} {nodes nodes' : List Loc} {c : Nat} (h : calls m nodes c)
    (hasked : Asked g cst m' nodes' m nodes) : ∃ c' < c, calls m' nodes' c'

/-- **Within a budget matching ends**, and more nested calls change nothing. -/
theorem Budget.match?_alike {calls : Matcher V → List Loc → Nat → Prop} (h : g.Budget cst calls)
    {m : Matcher V} {nodes : List Loc} {c fuel fuel' : Nat} (hcalls : calls m nodes c) (hfuel : c ≤ fuel)
    (hfuel' : c ≤ fuel') (parent : Loc) (s : MatchRecord V) :
    Alike (g.match? cst fuel m nodes parent) (g.match? cst fuel' m nodes parent) s := by
  have hpos := h.pos hcalls
  induction fuel generalizing m nodes c fuel' parent s with
  | zero => omega
  | succ fuel ih =>
    cases fuel' with
    | zero => omega
    | succ fuel' =>
      refine (alike_step (match?_follows g cst fuel) m nodes parent _
        fun m' nodes' hasked parent' s' => ?_).attempt
      obtain ⟨c', hlt, hcalls'⟩ := h.asked hcalls hasked
      exact ih hcalls' (by omega) (by omega) parent' s' (h.pos hcalls')

theorem Budget.exists_match? {calls : Matcher V → List Loc → Nat → Prop} (h : g.Budget cst calls)
    {m : Matcher V} {nodes : List Loc} {c enough : Nat} (hcalls : calls m nodes c) (henough : c ≤ enough)
    (parent : Loc) (record : MatchRecord V) :
    ∃ out, ∀ fuel, enough ≤ fuel → g.match? cst fuel m nodes parent record = some out := by
  obtain ⟨out, hout, -⟩ := h.match?_alike hcalls henough henough parent record
  refine ⟨out, fun fuel hfuel => ?_⟩
  obtain ⟨out', hout', hfuel'⟩ :=
    h.match?_alike hcalls henough (Nat.le_trans henough hfuel) parent record
  rw [hfuel', ← hout', hout]

theorem Ranked.budget (h : g.Ranked rank top) : g.Budget cst fun m nodes c =>
    ∃ n k, cst.Counts nodes n ∧ (∀ rule, m.Begins g rule → rank rule < k) ∧ c = g.callsFor rank n k m where
  pos := by
    rintro m nodes _ ⟨n, k, -, -, rfl⟩
    exact Nat.lt_of_lt_of_le m.size_pos (Nat.le_add_left _ _)
  asked := by
    rintro m m' nodes nodes' _ ⟨n, k, hnodes, hbegins, rfl⟩ hasked
    obtain ⟨n', k', hnodes', hbegins', hlt⟩ := h.subtask hasked.subtask hnodes hbegins
    exact ⟨_, hlt, n', k', hnodes', hbegins', rfl⟩

/-- **With a ranked grammar matching ends**, and more nested calls change nothing. -/
theorem Ranked.match?_alike (h : g.Ranked rank top) {n : Nat} {m : Matcher V} {nodes : List Loc}
    (hnodes : cst.Counts nodes n) (hbegins : ∀ rule, m.Begins g rule → rank rule < k)
    {fuel fuel' : Nat} (hfuel : g.callsFor rank n k m ≤ fuel) (hfuel' : g.callsFor rank n k m ≤ fuel')
    (parent : Loc) (s : MatchRecord V) :
    Alike (g.match? cst fuel m nodes parent) (g.match? cst fuel' m nodes parent) s :=
  h.budget.match?_alike ⟨n, k, hnodes, hbegins, rfl⟩ hfuel hfuel' parent s

/-- A matcher that takes a node, in a grammar of rules that do, leaves fewer siblings. -/
theorem match?_consumes (hg : RulesConsume g) {m : Matcher V} (hm : m.consumes = true) {fuel : Nat}
    {nodes rest : List Loc} {parent : Loc} {s s' : MatchRecord V} {v : V}
    (h : g.match? cst fuel m nodes parent s = some (some (v, rest), s')) :
    rest.length < nodes.length := by
  obtain ⟨journal, bindings, hmatches, -⟩ := match?_follows g cst fuel m nodes parent s _ _ h
  have hsuffix : rest <:+ nodes := hmatches.suffix _ rfl
  refine Nat.lt_of_le_of_ne hsuffix.length_le fun hlength => ?_
  have hidle := hmatches.mayIdle _ rfl (hsuffix.eq_of_length hlength)
  exact absurd hm (Bool.eq_false_iff.mp (hidle.consumes_eq hg))

/-- A rule that asks for itself first never ends. -/
theorem match?_selfReference {name : String} {part : Option String} {items : List (Matcher V)}
    (hrule : g.rule? name = some (.seq (.ref name part :: items))) (fuel : Nat) (nodes : List Loc)
    (parent : Loc) (s : MatchRecord V) :
    g.match? cst fuel (.seq (.ref name part :: items)) nodes parent s = none := by
  induction fuel using Nat.strongRecOn generalizing s with
  | ind fuel ih =>
    -- The rule asks for itself by its name, which takes two nested calls.
    match fuel with
    | 0 | 1 => rfl
    | fuel + 2 =>
      have hself (s : MatchRecord V) :
          g.match? cst (fuel + 1) (.ref name part) nodes parent s = none := by
        refine attempt_eq_none ?_
        simp only [Matcher.step, hrule]
        exact bind_eq_none (ih fuel (by omega) _)
      exact attempt_eq_none (bind_eq_none (bind_eq_none (hself _)))

end Grammar

/-! ## Syntax trees of sources -/

theorem Numbered.length_eq {first next : Loc} {locs : List Loc} (h : Numbered first next locs) :
    locs.length = next - first := by
  have hperm : locs.Perm (List.range' first (next - first)) := by
    refine (List.perm_ext_iff_of_nodup h.nodup List.nodup_range').2 fun l => ?_
    rw [h.mem_iff, List.mem_range'_1, Nat.add_sub_cancel' h.le]
  rw [hperm.length_eq, List.length_range']

namespace Tree

theorem nodes_sublist_flatMap {t : Tree} {ts : List Tree} (ht : t ∈ ts) :
    t.nodes.Sublist (ts.flatMap nodes) := by
  rw [List.flatMap_def]
  exact List.sublist_flatten_of_mem (List.mem_map_of_mem ht)

theorem nodes_sublist {t u : Tree} (hu : u ∈ t.nodes) : u.nodes.Sublist t.nodes := by
  induction t using Tree.induction with
  | h t ih =>
    rw [nodes_eq t] at hu ⊢
    rcases List.mem_cons.1 hu with rfl | hu
    · rw [nodes_eq]
    · obtain ⟨child, hchild, hu⟩ := List.mem_flatMap.1 hu
      exact (ih child hchild hu).trans ((nodes_sublist_flatMap hchild).cons t)

end Tree

namespace Cst

variable {cst : Cst} {src : List Char} {forest spares : List Tree} {l : Loc}

theorem Counts.append {nodes nodes' : List Loc} {n n' : Nat} (h : cst.Counts nodes n)
    (h' : cst.Counts nodes' n') : cst.Counts (nodes ++ nodes') (n + n') := by
  induction h with
  | nil => rwa [Nat.zero_add]
  | @cons l rest below later hbelow _ _ ih =>
    rw [show below + later + 1 + n' = below + (later + n') + 1 by omega]
    exact hbelow.cons ih

theorem counts_map {ts : List Tree} (h : ∀ t ∈ ts, cst.Counts [t.loc] t.nodes.length) :
    cst.Counts (ts.map Tree.loc) (ts.flatMap Tree.nodes).length := by
  induction ts with
  | nil => exact .nil
  | cons t ts ih =>
    obtain ⟨ht, hts⟩ := List.forall_mem_cons.mp h
    rw [List.flatMap_cons, List.length_append]
    exact ht.append (ih hts)

/-- A tree is counted by its nodes. -/
theorem counts_tree (t : Tree) (h : ∀ u ∈ t.nodes, cst.Holds u) :
    cst.Counts [t.loc] t.nodes.length := by
  induction t using Tree.induction with
  | h t ih =>
    rw [Tree.nodes_eq] at h ⊢
    obtain ⟨ht, hbelow⟩ := List.forall_mem_cons.mp h
    have hchildren : cst.Counts (cst.children t.loc) (t.children.flatMap Tree.nodes).length := by
      rw [ht.children_eq]
      exact counts_map fun child hchild =>
        ih child hchild fun u hu => hbelow u (List.mem_flatMap.2 ⟨child, hchild, hu⟩)
    exact hchildren.cons .nil

/-- Nothing is below a place without a node. -/
theorem children_eq_nil (hl : cst.nodes.size ≤ l) : cst.children l = [] := by
  simp [Cst.children, node?, Array.getElem?_eq_none hl]

/-- A tree as the store has it: all its nodes are there, and those below it lie well over the source. -/
structure Stored (cst : Cst) (src : List Char) (t : Tree) : Prop where
  holds (u : Tree) (hu : u ∈ t.nodes) : cst.Holds u
  laid (u : Tree) (hu : u ∈ t.children.flatMap Tree.nodes) : u.Laid src
  ordered : t.children.Pairwise Tree.Before
  length_le : t.nodes.length ≤ cst.nodes.size

namespace MadeOf

theorem size_eq (h : cst.MadeOf src forest spares) :
    cst.nodes.size = (forest.flatMap Tree.nodes).length + spares.length + 1 := by
  have hlength := h.numbered.length_eq
  rw [List.length_map, List.length_append] at hlength
  exact (Nat.sub_eq_iff_eq_add h.numbered.le).1 hlength.symm

variable {next : Loc} {stop : Nat} {t : Tree}

theorem stored (h : cst.MadeOf src forest spares)
    (horderly : Orderly src 1 next 0 stop forest.reverse spares) (hholds : cst.Holds t)
    (hsub : (t.children.flatMap Tree.nodes).Sublist (forest.flatMap Tree.nodes))
    (hordered : t.children.Pairwise Tree.Before) : cst.Stored src t where
  holds u hu := by
    rw [Tree.nodes_eq] at hu
    rcases List.mem_cons.1 hu with rfl | hu
    · exact hholds
    · exact h.holds_of_mem (hsub.subset hu)
  laid u hu := laid horderly (List.mem_append_left _ (hsub.subset hu))
  ordered := hordered
  length_le := by
    have hlength := hsub.length_le
    rw [Tree.nodes_eq, List.length_cons, h.size_eq]
    omega

theorem exists_stored (h : cst.MadeOf src forest spares)
    (horderly : Orderly src 1 next 0 stop forest.reverse spares) (hl : l < cst.nodes.size) :
    ∃ t, t.loc = l ∧ cst.Stored src t := by
  rcases h.exists_tree hl with rfl | ⟨t, ht, rfl⟩
  · -- All trees are below the node of the whole source.
    exact ⟨_, rfl, h.stored horderly h.top (.refl _) (List.pairwise_reverse.1 horderly.order)⟩
  · have hholds := h.holds t ht
    rcases List.mem_append.1 ht with hmem | hspare
    · obtain ⟨root, hroot, hnode⟩ := List.mem_flatMap.1 hmem
      refine ⟨t, rfl, h.stored horderly hholds ?_ (laid horderly ht).ordered⟩
      refine .trans ?_ ((Tree.nodes_sublist hnode).trans (Tree.nodes_sublist_flatMap hroot))
      rw [Tree.nodes_eq t]
      exact List.sublist_cons_self ..
    · -- A list that gave way is not one of the trees, but the tree that is stored in it is.
      obtain ⟨l, r, kind, only, rfl⟩ : ∃ l r kind only, t = .list l r kind [only] := by
        cases horderly.spare t hspare with
        | spaced | embedded => exact ⟨_, _, _, _, rfl⟩
      obtain ⟨u, hu, hloc⟩ := List.mem_map.1 (horderly.places _ hspare only (List.mem_singleton_self _))
      obtain ⟨root, hroot, hnode⟩ := List.mem_flatMap.1 hu
      refine ⟨.list l r kind [u], rfl, h.stored horderly ?_ ?_ (List.pairwise_singleton ..)⟩
      · obtain ⟨multiline, hlist⟩ := hholds
        exact ⟨multiline, hlist.trans (by simp [Tree.node, Tree.span, hloc])⟩
      · rw [Tree.children, List.flatMap_singleton]
        exact (Tree.nodes_sublist hnode).trans (Tree.nodes_sublist_flatMap (List.mem_reverse.1 hroot))

end MadeOf

/-- Every place in the syntax tree of a source is that of a tree. -/
theorem exists_stored_of_lex {a : Alphabet} (h : Cst.lex a src = .ok cst) (hl : l < cst.nodes.size) :
    ∃ t, t.loc = l ∧ cst.Stored src t := by
  obtain ⟨forest, spares, next, stop, hmade, horderly⟩ := exists_orderly h
  exact hmade.exists_stored horderly hl

theorem size_pos_of_lex {a : Alphabet} (h : Cst.lex a src = .ok cst) : 0 < cst.nodes.size := by
  obtain ⟨L, stop, -, hmade⟩ := exists_reads h
  rw [hmade.size_eq]
  exact Nat.succ_pos _

/-- The nodes below a place in the syntax tree of a source are no more than all nodes. -/
theorem exists_counts_of_lex {a : Alphabet} (h : Cst.lex a src = .ok cst) (l : Loc) :
    ∃ n ≤ cst.nodes.size, cst.Counts [l] n := by
  by_cases hl : l < cst.nodes.size
  · obtain ⟨t, rfl, ht⟩ := exists_stored_of_lex h hl
    exact ⟨t.nodes.length, ht.length_le, counts_tree t ht.holds⟩
  · have hcounts : cst.Counts (cst.children l) 0 := children_eq_nil (Nat.le_of_not_lt hl) ▸ .nil
    exact ⟨1, size_pos_of_lex h, hcounts.cons .nil⟩

theorem exists_counts_all {a : Alphabet} (h : Cst.lex a src = .ok cst) (nodes : List Loc) :
    ∃ n, cst.Counts nodes n := by
  induction nodes with
  | nil => exact ⟨0, .nil⟩
  | cons l nodes ih =>
    obtain ⟨n, -, hl⟩ := exists_counts_of_lex h l
    obtain ⟨n', hnodes⟩ := ih
    exact ⟨n + n', hl.append hnodes⟩

theorem two_mul_size_le_positions (cst : Cst) : 2 * cst.nodes.size + 2 ≤ cst.positions := by
  have hfold {f : Nat → Node × Span → Nat} (hf : ∀ n e, n + 2 ≤ f n e) (nodes : List (Node × Span))
      (n : Nat) : 2 * nodes.length + n ≤ nodes.foldl f n := by
    induction nodes generalizing n with
    | nil => simp
    | cons e nodes ih =>
      have hhead := hf n e
      have htail := ih (f n e)
      rw [List.length_cons, List.foldl_cons]
      omega
  rw [positions, ← Array.foldl_toList, ← Array.length_toList]
  refine hfold (fun n e => ?_) _ 2
  obtain ⟨node, span⟩ := e
  dsimp only
  omega

end Cst

/-! ## Nested calls that suffice -/

namespace Grammar

open Matcher

variable {V : Type} {g : Grammar V} {rank : String → Nat} {top : Nat} {name : String} {m : Matcher V}

theorem size_le_of_rule (hrule : g.rule? name = some m) : m.size ≤ g.size :=
  size_le_sizeAll (List.mem_map.2 ⟨(name, m), mem_rules hrule, rfl⟩)

theorem callsFor_le_nestedCalls (hrule : g.rule? name = some m) {cst : Cst} {n : Nat}
    (hn : n ≤ cst.nodes.size) (rank : String → Nat) (k : Nat) : g.callsFor rank n k m ≤ g.nestedCalls cst := by
  have hbelow := g.sizeBelow_le rank k
  have hsize := size_le_of_rule hrule
  have hpositions : n + 2 ≤ cst.positions := by
    have := cst.two_mul_size_le_positions
    omega
  calc g.callsFor rank n k m
      ≤ n * g.size + g.size + g.size := by rw [callsFor]; omega
    _ = g.size * (n + 2) := by rw [Nat.mul_add, Nat.mul_comm, Nat.mul_two, Nat.add_assoc]
    _ ≤ g.size * cst.positions := Nat.mul_le_mul_left _ hpositions
    _ ≤ g.nestedCalls cst := Nat.le_succ _

/-- With a ranked grammar every rule comes to an outcome, at every node of the syntax tree of a source,
and more nested calls do not change it. -/
theorem Ranked.exists_match? [MatchValue V] (h : g.Ranked rank top) {a : Alphabet} {src : List Char}
    {cst : Cst} (hlex : Cst.lex a src = .ok cst) (hrule : g.rule? name = some m) (root : Loc)
    (record : MatchRecord V) :
    ∃ out, ∀ fuel, g.nestedCalls cst ≤ fuel → g.match? cst fuel m [root] root record = some out := by
  obtain ⟨n, hn, hcounts⟩ := Cst.exists_counts_of_lex hlex root
  exact h.budget.exists_match? ⟨n, top, hcounts, fun rule _ => h.lt_top rule, rfl⟩
    (callsFor_le_nestedCalls hrule hn rank top) root record

/-- What the rules of ordered choice say of a rule at a node, matching finds. -/
theorem Ranked.match?_eq_of_matches [MatchValue V] (h : g.Ranked rank top) {a : Alphabet} {src : List Char}
    {cst : Cst} (hlex : Cst.lex a src = .ok cst) (hrule : g.rule? name = some m) {root : Loc}
    {gain : Gain V (V × List Loc)} (hmatches : m.Matches g cst [root] root (some gain)) :
    g.match? cst (g.nestedCalls cst) m [root] root .empty =
      some (some gain.result, ⟨gain.journal, gain.bindings, []⟩) := by
  -- Matching ends, and there is only one way in which it can end.
  obtain ⟨⟨r, record⟩, hrun⟩ := h.exists_match? hlex hrule root .empty
  have hends := hrun _ (Nat.le_refl _)
  have hsettles := match?_follows g cst _ m [root] root _ _ _ hends
  rcases r with _ | hit
  · cases hsettles.1.unique hmatches
  · obtain ⟨journal, bindings, hhit, hrecord⟩ := hsettles
    cases hhit.unique hmatches
    rw [hends, hrecord]
    simp [MatchRecord.empty]

end Grammar

/-! ## The rules of the language -/

namespace Language

open Matcher

/-- The rank of a rule: an expression that is a single node comes after the rules for the kinds of
such expressions, and before all rules that begin with an expression. -/
def rank (rule : String) : Nat :=
  if rule = "expr" then 1 else if rule ∈ ["stmt", "expr..", "expr "] then 2 else 0

/-- Every rule takes a node. -/
theorem grammar_consumes : RulesConsume grammar := fun name m hrule =>
  have hall : ∀ e ∈ grammar.rules.entries, e.2.consumes = true := by decide +kernel
  hall (name, m) (Grammar.mem_rules hrule)

theorem grammar_ranked : grammar.Ranked rank 3 where
  lt_top rule := by
    unfold rank
    split <;> [omega; split <;> omega]
  descends name rule m hrule hbegins := by
    have hall : ∀ e ∈ grammar.rules.entries, ∀ rule ∈ e.2.leads, rank rule < rank e.1 := by
      decide +kernel
    exact hall (name, m) (Grammar.mem_rules hrule) rule
      (hbegins.mem_leads grammar_consumes)

/-- Every round of a repetition takes a node. -/
theorem star_consumes {name : String} {m inner : Rule} (hrule : grammar.rule? name = some m)
    (hinner : .star inner ∈ m.parts) : inner.consumes = true := by
  have hall : ∀ e ∈ grammar.rules.entries, (e.2.parts.all fun
      | .star inner => inner.consumes
      | _ => true) = true := by
    decide +kernel
  have hparts := hall (name, m) (Grammar.mem_rules hrule)
  exact List.all_eq_true.mp hparts (.star inner) hinner

/-- **Reading a program ends.**  No rule of the language leads back to itself before a node is taken or
gone into, and every round of a repetition that succeeds takes a node.  So in the syntax tree of a
source all that matching asks for, directly or not, has an end, and every rule, that of statements among
them, comes to an outcome at every node, which more nested calls do not change.  A rule that asks for
itself first comes to none, however many calls may be nested. -/
theorem matching_terminates :
    (∀ name, ¬Relation.TransGen grammar.Leads name name) ∧
    (∀ name m inner, grammar.rule? name = some m → .star inner ∈ m.parts →
      ∀ cst fuel nodes parent s v rest s',
        grammar.match? cst fuel inner nodes parent s = some (some (v, rest), s') →
        rest.length < nodes.length) ∧
    grammar.rule? "stmt" = some stmtRule ∧
    (∀ a src cst, Cst.lex a src = .ok cst → WellFounded (Subtask grammar cst) ∧
      ∀ name m, grammar.rule? name = some m → ∀ root record, ∃ out,
        ∀ fuel, grammar.nestedCalls cst ≤ fuel →
          grammar.match? cst fuel m [root] root record = some out) ∧
    ∀ (g : Grammar Phrase) (name : String) (part : Option String) (items : List Rule),
      g.rule? name = some (.seq (.ref name part :: items)) →
      ∀ cst fuel nodes parent record,
        g.match? cst fuel (.seq (.ref name part :: items)) nodes parent record = none := by
  refine ⟨grammar_ranked.not_leads_self, ?_, rfl, ?_, ?_⟩
  · intro name m inner hrule hinner cst fuel nodes parent s v rest s' hends
    exact Grammar.match?_consumes grammar_consumes (star_consumes hrule hinner) hends
  · intro a src cst hlex
    refine ⟨grammar_ranked.wellFounded_subtask (Cst.exists_counts_all hlex), ?_⟩
    exact fun name m hrule => grammar_ranked.exists_match? hlex hrule
  · intro g name part items hrule cst fuel nodes parent record
    exact Grammar.match?_selfReference hrule fuel nodes parent record

end Language
end TypeTrace
