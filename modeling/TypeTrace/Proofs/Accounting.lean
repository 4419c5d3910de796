import TypeTrace.Proofs.Nesting
import TypeTrace.Proofs.Rollback
import TypeTrace.Syntax.Parser
import Mathlib.Data.List.Induction
import Mathlib.Data.List.Perm.Basic

/-!
# Programs account for their words

A program that is read has no part that the rules pass over: every word of it is a number, or has a
role, and every role was noted once.  That holds of all grammars whose rules are thorough, that is,
which take a node only together with all words in it.

## Main definitions

* `Matcher.Thorough`: matchers that pass over no word
* `Accounts`: roles noted for all words of some trees
* `Cst.Below`: the nodes below a node

## Main results

* `Matcher.Matches.accounts`: a successful match accounts for the trees it takes
* `Language.grammar_thorough`: the rules of the language pass over no word
* `Language.parse_accounts`: a program that is read accounts for all of its words
-/

namespace TypeTrace

/-! ## Roles noted for trees -/

/-- The roles noted in a journal are those of nodes of some trees, no node has two, and every word has
one, unless it is a number. -/
structure Accounts (ts : List Tree) (journal : List (Loc × Role)) : Prop where
  below (e : Loc × Role) (he : e ∈ journal) : e.1 ∈ (ts.flatMap Tree.nodes).map Tree.loc
  parsed (e : Loc × Role) (he : e ∈ journal) : e.2 ≠ .unparsed
  word (l : Loc) (r : Span) (s : String) (hword : .id l r s ∈ ts.flatMap Tree.nodes) :
    l ∈ journal.map Prod.fst ∨ Matcher.isDigits s = true
  nodup : (journal.map Prod.fst).Nodup

/-- A syntax tree has all nodes of some trees, in different places. -/
structure Cst.Has (cst : Cst) (ts : List Tree) : Prop where
  holds (t : Tree) (ht : t ∈ ts.flatMap Tree.nodes) : cst.Holds t
  nodup : ((ts.flatMap Tree.nodes).map Tree.loc).Nodup

namespace Cst.Has

variable {cst : Cst} {ts us : List Tree} {t : Tree}

theorem left (h : cst.Has (ts ++ us)) : cst.Has ts where
  holds t ht := h.holds t (by simp_all)
  nodup := by
    have hnodup := h.nodup
    rw [List.flatMap_append, List.map_append, List.nodup_append] at hnodup
    exact hnodup.1

theorem right (h : cst.Has (ts ++ us)) : cst.Has us where
  holds t ht := h.holds t (by simp_all)
  nodup := by
    have hnodup := h.nodup
    rw [List.flatMap_append, List.map_append, List.nodup_append] at hnodup
    exact hnodup.2.1

theorem head (h : cst.Has (t :: ts)) : cst.Has [t] := by
  rw [← List.singleton_append] at h
  exact h.left

theorem holds_head (h : cst.Has (t :: ts)) : cst.Holds t :=
  h.holds t (List.mem_append_left _ t.mem_nodes_self)

theorem children (h : cst.Has [t]) : cst.Has t.children where
  holds u hu := h.holds u (by simp [Tree.nodes_eq t, hu])
  nodup := by
    have hnodup := h.nodup
    rw [List.flatMap_singleton, Tree.nodes_eq] at hnodup
    exact (List.nodup_cons.1 hnodup).2

end Cst.Has

theorem Cst.MadeOf.has_root {cst : Cst} {src : List Char} {forest spares : List Tree}
    (h : cst.MadeOf src forest spares) {t : Tree} (ht : t ∈ forest) : cst.Has [t] where
  holds u hu := h.holds_of_mem (List.mem_flatMap.2 ⟨t, ht, by simpa using hu⟩)
  nodup := by
    have hnodup := h.numbered.nodup
    rw [List.map_append, List.nodup_append, List.map_flatMap, List.nodup_flatMap] at hnodup
    rw [List.flatMap_singleton]
    exact hnodup.1.1 t ht

namespace Accounts

variable {cst : Cst} {ts us : List Tree} {t : Tree} {journal more : List (Loc × Role)}

theorem nil : Accounts [] [] where
  below := by simp
  parsed := by simp
  word := by simp
  nodup := .nil

theorem append (h : Accounts ts journal) (h' : Accounts us more) (hhas : cst.Has (ts ++ us)) :
    Accounts (ts ++ us) (more ++ journal) where
  below e he := by
    rw [List.flatMap_append, List.map_append, List.mem_append]
    rcases List.mem_append.1 he with he | he
    · exact .inr (h'.below e he)
    · exact .inl (h.below e he)
  parsed e he := by
    rcases List.mem_append.1 he with he | he
    · exact h'.parsed e he
    · exact h.parsed e he
  word l r s hword := by
    rw [List.map_append, List.mem_append]
    rw [List.flatMap_append, List.mem_append] at hword
    rcases hword with hword | hword
    · exact (h.word l r s hword).imp_left .inr
    · exact (h'.word l r s hword).imp_left .inl
  nodup := by
    have hnodup := hhas.nodup
    rw [List.flatMap_append, List.map_append, List.nodup_append] at hnodup
    rw [List.map_append, List.nodup_append]
    refine ⟨h'.nodup, h.nodup, fun l hl l' hl' heq => ?_⟩
    -- A node that is noted by both is in trees of both, but the trees share no node.
    obtain ⟨e, he, rfl⟩ := List.mem_map.1 hl
    obtain ⟨e', he', rfl⟩ := List.mem_map.1 hl'
    exact hnodup.2.2 _ (h.below e' he') _ (h'.below e he) heq.symm

/-- A word with a role. -/
theorem word_noted {l : Loc} {r : Span} {s : String} {role : Role} (hrole : role ≠ .unparsed) :
    Accounts [.id l r s] [(l, role)] where
  below e he := by
    obtain rfl := List.mem_singleton.1 he
    rw [List.flatMap_singleton, Tree.nodes_of_leaf rfl]
    exact List.mem_singleton_self l
  parsed e he := by
    obtain rfl := List.mem_singleton.1 he
    exact hrole
  word l' r' s' hword := by
    rw [List.flatMap_singleton, Tree.nodes_of_leaf rfl, List.mem_singleton] at hword
    cases hword
    simp
  nodup := by simp

/-- A number. -/
theorem digits {l : Loc} {r : Span} {s : String} (hs : Matcher.isDigits s = true) :
    Accounts [.id l r s] [] where
  below := by simp
  parsed := by simp
  word l' r' s' hword := by
    rw [List.flatMap_singleton, Tree.nodes_of_leaf rfl, List.mem_singleton] at hword
    cases hword
    exact .inr hs
  nodup := .nil

/-- A tree with a role of its own, or none, over trees accounted for. -/
theorem parent (h : Accounts t.children journal) (hhas : cst.Has [t]) (hword : ∀ l r s, t ≠ .id l r s)
    {role : Option Role} (hrole : role ≠ some .unparsed) :
    Accounts [t] (role.toList.map (t.loc, ·) ++ journal) := by
  have hnodes : [t].flatMap Tree.nodes = t :: t.children.flatMap Tree.nodes := by
    rw [List.flatMap_singleton, Tree.nodes_eq]
  refine ⟨fun e he => ?_, fun e he => ?_, fun l r s hmem => ?_, ?_⟩
  · rw [hnodes, List.map_cons, List.mem_cons]
    rcases List.mem_append.1 he with he | he
    · obtain ⟨role', -, rfl⟩ := List.mem_map.1 he
      exact .inl rfl
    · exact .inr (h.below e he)
  · rcases List.mem_append.1 he with he | he
    · obtain ⟨role', hrole', rfl⟩ := List.mem_map.1 he
      rintro rfl
      exact hrole (Option.mem_toList.1 hrole')
    · exact h.parsed e he
  · rw [hnodes, List.mem_cons] at hmem
    rcases hmem with heq | hmem
    · exact absurd heq.symm (hword l r s)
    · rw [List.map_append, List.mem_append]
      exact (h.word l r s hmem).imp_left .inr
  -- The tree itself is not among the nodes below it.
  · have hnodup := hhas.nodup
    rw [hnodes, List.map_cons, List.nodup_cons] at hnodup
    rw [List.map_append, List.nodup_append]
    refine ⟨by cases role <;> simp, h.nodup, fun l hl l' hl' heq => ?_⟩
    obtain ⟨e, he, rfl⟩ := List.mem_map.1 hl
    obtain ⟨role', -, rfl⟩ := List.mem_map.1 he
    obtain ⟨e', he', rfl⟩ := List.mem_map.1 hl'
    have heq : t.loc = e'.1 := heq
    exact hnodup.1 (heq ▸ h.below e' he')

end Accounts

/-! ## Nodes of trees -/

namespace Cst.Holds

variable {cst : Cst} {t : Tree}

theorem node?_eq (h : cst.Holds t) : ∃ multiline, cst.node? t.loc = some (t.node multiline) := by
  obtain ⟨multiline, hnode⟩ := h
  exact ⟨multiline, by simp [node?, hnode]⟩

theorem exists_eq_text (h : cst.Holds t) {spans : List (TextSpan Loc)}
    (hnode : cst.node? t.loc = some (.text spans)) :
    ∃ l r parts, t = .text l r parts ∧ spans = parts.map (TextSpan.map Tree.loc) := by
  obtain ⟨multiline, hnode'⟩ := h.node?_eq
  cases t <;> simp_all [Tree.node]

theorem exists_eq_list (h : cst.Holds t) {kind : ListKind} {children : List Loc} {multiline : Bool}
    (hnode : cst.node? t.loc = some (.list kind children multiline)) :
    ∃ l r parts, t = .list l r kind parts ∧ children = parts.map Tree.loc := by
  obtain ⟨multiline, hnode'⟩ := h.node?_eq
  cases t <;> simp_all [Tree.node]

theorem exists_eq_table (h : cst.Holds t) {kind : ListKind} {rows : List (List Loc)} {multiline : Bool}
    (hnode : cst.node? t.loc = some (.table kind rows multiline)) :
    ∃ l r parts, t = .table l r parts ∧ rows = parts.map (·.map Tree.loc) := by
  obtain ⟨multiline, hnode'⟩ := h.node?_eq
  cases t <;> simp_all [Tree.node]

end Cst.Holds

/-! ## Thorough matchers -/

namespace Matcher

/-- The matcher passes over no word: it notes a role for every word that it takes, except for numbers,
and it takes a node only together with all that is below.  A string literal need not be looked into if
the builder refuses those that embed anything. -/
inductive Thorough : Matcher Phrase → Prop
  | kwd {word : String} {role : Role} (hrole : role ≠ .unparsed) : Thorough (.kwd word role)
  | id {role : Role} (hrole : role ≠ .unparsed) : Thorough (.id (some role))
  | number : Thorough .number
  | text {inner : Matcher Phrase} (hinner : Thorough inner) : Thorough (.text inner)
  | list {kind : ListMatch} {inner : Matcher Phrase} {role : Option Role} (hinner : Thorough inner)
    (hrole : role ≠ some .unparsed) : Thorough (.list kind inner role)
  | table {kind : ListKind} {row : Matcher Phrase} (hrow : Thorough row) : Thorough (.table kind row)
  | seq {items : List (Matcher Phrase)} (hitems : ∀ m ∈ items, Thorough m) : Thorough (.seq items)
  | or {items : List (Matcher Phrase)} (hitems : ∀ m ∈ items, Thorough m) : Thorough (.or items)
  | star {inner : Matcher Phrase} (hinner : Thorough inner) : Thorough (.star inner)
  | opt {inner : Matcher Phrase} (hinner : Thorough inner) : Thorough (.opt inner)
  | group {name : String} {inner : Matcher Phrase} (hinner : Thorough inner) :
    Thorough (.group name inner)
  | ref {rule : String} {name : Option String} : Thorough (.ref rule name)
  | tx {inner : Matcher Phrase} {build : Bindings Phrase → Region → Option Phrase}
    (hinner : Thorough inner) : Thorough (.tx inner build)
  | literal {name : String} {build : Bindings Phrase → Region → Option Phrase}
    (hrefuses : ∀ spans l src v, build [(name, .text spans l)] src = some v →
      Phrase.embedsOf spans = []) : Thorough (.tx (.group name (.text .any)) build)

/-- Some of the trees are taken, which the journal accounts for, and the others are left. -/
def Takes (ts : List Tree) (left : List Loc) (journal : List (Loc × Role)) : Prop :=
  ∃ taken rest, ts = taken ++ rest ∧ left = rest.map Tree.loc ∧ Accounts taken journal

theorem Takes.nothing (ts : List Tree) : Takes ts (ts.map Tree.loc) [] :=
  ⟨[], ts, rfl, rfl, .nil⟩

theorem Takes.first {t : Tree} {ts : List Tree} {journal : List (Loc × Role)}
    (h : Accounts [t] journal) : Takes (t :: ts) (ts.map Tree.loc) journal :=
  ⟨[t], ts, rfl, rfl, h⟩

variable {cst : Cst} {g : Grammar Phrase} {ts : List Tree}

/-- A word is taken. -/
theorem takes_of_takeWord {accept : String → Loc → Option (Phrase × List (Loc × Role))}
    {gain : Gain Phrase (Phrase × List Loc)} (hgain : takeWord cst (ts.map Tree.loc) accept = some gain)
    (hhas : cst.Has ts)
    (haccept : ∀ l r s v journal, accept s l = some (v, journal) → Accounts [.id l r s] journal) :
    Takes ts gain.result.2 gain.journal := by
  cases ts with
  | nil => simp [takeWord, takeFirst] at hgain
  | cons t ts =>
    simp only [takeWord, takeFirst, List.map_cons] at hgain
    obtain ⟨⟨v, journal⟩, hfirst, rfl⟩ := Option.map_eq_some_iff.1 hgain
    split at hfirst
    · next found hnode =>
      obtain ⟨l, r, rfl⟩ := hhas.holds_head.exists_eq_id hnode
      exact .first (haccept l r found v journal hfirst)
    · simp at hfirst

/-- Trees are taken one after another. -/
theorem Takes.append {mid left : List Loc} {journal more : List (Loc × Role)}
    (h : Takes ts mid journal) (hhas : cst.Has ts)
    (hrest : ∀ rest, mid = rest.map Tree.loc → cst.Has rest → Takes rest left more) :
    Takes ts left (more ++ journal) := by
  obtain ⟨taken, rest, rfl, rfl, haccounts⟩ := h
  obtain ⟨taken', rest', rfl, rfl, haccounts'⟩ := hrest rest rfl hhas.right
  rw [← List.append_assoc] at hhas ⊢
  exact ⟨taken ++ taken', rest', rfl, rfl, haccounts.append haccounts' hhas.left⟩

/-- If nothing is left, all trees are taken. -/
theorem Takes.all {journal : List (Loc × Role)} (h : Takes ts [] journal) : Accounts ts journal := by
  obtain ⟨taken, rest, rfl, hleft, haccounts⟩ := h
  obtain rfl : rest = [] := List.map_eq_nil_iff.1 hleft.symm
  rwa [List.append_nil]

/-- The first tree is taken, if it is no word and all below it is accounted for. -/
theorem takes_parent {t : Tree} {journal : List (Loc × Role)} (hhas : cst.Has (t :: ts))
    (h : Accounts t.children journal) (hword : ∀ l r s, t ≠ .id l r s) (role : Option Role)
    (hrole : role ≠ some .unparsed) :
    Takes (t :: ts) (ts.map Tree.loc) (role.toList.map (t.loc, ·) ++ journal) :=
  .first (h.parent hhas.head hword hrole)

section Parents

variable {loc : Loc} {rest : List Loc} {gain : Gain Phrase (Phrase × List Loc)}

theorem takes_text {spans : List (TextSpan Loc)} {r : Option (Gain Phrase (List (TextSpan Phrase)))}
    (hnode : cst.node? loc = some (.text spans))
    (hspans : ∀ gain ∈ r, ∀ parts : List (TextSpan Tree), spans = parts.map (TextSpan.map Tree.loc) →
      cst.Has (parts.filterMap TextSpan.item?) →
      Accounts (parts.filterMap TextSpan.item?) gain.journal)
    (hgain : gain ∈ r.map (·.map fun vs => (MatchValue.ofText vs loc, rest)))
    (hnodes : loc :: rest = ts.map Tree.loc) (hhas : cst.Has ts) :
    Takes ts gain.result.2 gain.journal := by
  obtain ⟨inner, hinner, rfl⟩ := Option.map_eq_some_iff.1 hgain
  obtain ⟨t, ts, rfl, rfl, rfl⟩ := List.map_eq_cons_iff.1 hnodes.symm
  obtain ⟨l, r, parts, rfl, hparts⟩ := hhas.holds_head.exists_eq_text hnode
  exact takes_parent hhas (hspans inner hinner parts hparts hhas.head.children) nofun none nofun

theorem takes_list {found : ListKind} {children : List Loc} {multiline : Bool} {role : Option Role}
    {r : Verdict Phrase} (hnode : cst.node? loc = some (.list found children multiline))
    (hrole : role ≠ some .unparsed)
    (hinner : ∀ gain ∈ r, ∀ parts : List Tree, children = parts.map Tree.loc → cst.Has parts →
      Takes parts gain.result.2 gain.journal)
    (hgain : gain ∈ inside loc role rest r) (hnodes : loc :: rest = ts.map Tree.loc)
    (hhas : cst.Has ts) : Takes ts gain.result.2 gain.journal := by
  obtain ⟨⟨⟨v, left⟩, journal, bindings⟩, hmem, hinside⟩ := Option.bind_eq_some_iff.1 hgain
  obtain ⟨t, ts, rfl, rfl, rfl⟩ := List.map_eq_cons_iff.1 hnodes.symm
  obtain ⟨l, r, parts, rfl, hparts⟩ := hhas.holds_head.exists_eq_list hnode
  cases left with
  | cons => cases hinside
  | nil =>
    cases hinside
    exact takes_parent hhas (hinner _ hmem parts hparts hhas.head.children).all nofun role hrole

theorem takes_table {kind : ListKind} {rows : List (List Loc)} {multiline : Bool}
    {r : Option (Gain Phrase (List Phrase))}
    (hnode : cst.node? loc = some (.table kind rows multiline))
    (hrows : ∀ gain ∈ r, ∀ parts : List (List Tree), rows = parts.map (·.map Tree.loc) →
      cst.Has parts.flatten → Accounts parts.flatten gain.journal)
    (hgain : gain ∈ r.map (·.map fun vs => (MatchValue.ofMany vs, rest)))
    (hnodes : loc :: rest = ts.map Tree.loc) (hhas : cst.Has ts) :
    Takes ts gain.result.2 gain.journal := by
  obtain ⟨inner, hinner, rfl⟩ := Option.map_eq_some_iff.1 hgain
  obtain ⟨t, ts, rfl, rfl, rfl⟩ := List.map_eq_cons_iff.1 hnodes.symm
  obtain ⟨l, r, parts, rfl, hparts⟩ := hhas.holds_head.exists_eq_table hnode
  exact takes_parent hhas (hrows inner hinner parts hparts hhas.head.children) nofun none nofun

end Parents

theorem takes_getD_absent {nodes : List Loc} {r : Verdict Phrase} (hnodes : nodes = ts.map Tree.loc)
    (h : ∀ gain ∈ r, Takes ts gain.result.2 gain.journal) :
    Takes ts (r.getD ⟨(MatchValue.absent, nodes), [], []⟩).result.2
      (r.getD ⟨(MatchValue.absent, nodes), [], []⟩).journal := by
  subst hnodes
  cases r with
  | none => exact .nothing ts
  | some gain => exact h gain rfl

/-- Without looking at what is embedded, nothing is noted or named. -/
theorem matchesSpans_any {spans : List (TextSpan Loc)} {gain : Gain Phrase (List (TextSpan Phrase))}
    (h : MatchesSpans g cst .any spans (some gain)) :
    gain.journal = [] ∧ gain.bindings = [] ∧
      (Phrase.embedsOf gain.result = [] → spans.filterMap TextSpan.item? = []) := by
  induction spans generalizing gain with
  | nil =>
    obtain rfl := Option.some.inj (h.unique (.nil _))
    exact ⟨rfl, rfl, fun _ => rfl⟩
  | cons span spans ih =>
    -- With the verdict as a variable the derivation can be split by its last rule.
    obtain ⟨r, hr⟩ : ∃ r, r = some gain := ⟨_, rfl⟩
    rw [← hr] at h
    cases h with
    | text hrest =>
      obtain ⟨inner, rfl, rfl⟩ := Option.map_eq_some_iff.1 hr
      obtain ⟨hjournal, hbindings, hembeds⟩ := ih hrest
      exact ⟨hjournal, hbindings, hembeds⟩
    | stop => cases hr
    | embed hitem hrest =>
      obtain ⟨inner, rfl, rfl⟩ := Option.map_eq_some_iff.1 hr
      obtain ⟨hjournal, hbindings, -⟩ := ih hrest
      have htaken := hitem.unique (.any _ _)
      simp only [takeFirst, Option.map_some, Option.some.injEq, Gain.mk.injEq] at htaken
      obtain ⟨-, rfl, rfl⟩ := htaken
      refine ⟨?_, ?_, fun hnone => ?_⟩
      · simpa [Gain.after, Gain.map] using hjournal
      · simpa [Gain.after, Gain.map] using hbindings
      · simp [Gain.after, Gain.map, Phrase.embedsOf] at hnone

/-- A string literal is taken that embeds nothing. -/
theorem takes_literal {nodes : List Loc} {parent : Loc} {r : Verdict Phrase} {name : String}
    {build : Bindings Phrase → Region → Option Phrase} {src : Region} {v : Phrase}
    (h : Matches g cst (.text .any) nodes parent r)
    (hrefuses : ∀ spans l src v, build [(name, .text spans l)] src = some v →
      Phrase.embedsOf spans = [])
    {gain : Gain Phrase (Phrase × List Loc)} (hgain : gain ∈ r)
    (hv : build (gain.named (some name)).bindings src = some v)
    (hnodes : nodes = ts.map Tree.loc) (hhas : cst.Has ts) : Takes ts gain.result.2 gain.journal := by
  cases h with
  | textMiss => cases hgain
  | @text _ loc rest _ spans _ hnode hspans =>
    obtain ⟨inner, rfl, rfl⟩ := Option.map_eq_some_iff.1 hgain
    obtain ⟨hjournal, hbindings, hembeds⟩ := matchesSpans_any hspans
    have hv : build ((name, .text inner.result loc) :: inner.bindings) src = some v := hv
    have hitems := hembeds (hrefuses _ _ _ _ (hbindings ▸ hv))
    refine takes_text hnode (fun gain hgain parts hparts _ => ?_) hgain hnodes hhas
    obtain rfl := Option.some.inj hgain
    have hleaf : parts.filterMap TextSpan.item? = [] := by
      refine List.filterMap_eq_nil_iff.2 fun part hpart => ?_
      have hspan := List.filterMap_eq_nil_iff.1 hitems (part.map Tree.loc)
        (hparts ▸ List.mem_map_of_mem hpart)
      simpa using hspan
    rw [hleaf, hjournal]
    exact .nil

mutual

/-- A successful match of a thorough matcher accounts for the trees it takes. -/
theorem Matches.takes {m : Matcher Phrase} {nodes : List Loc} {parent : Loc} {r : Verdict Phrase}
    (h : Matches g cst m nodes parent r) (hg : ∀ name m, g.rule? name = some m → m.Thorough)
    (hm : m.Thorough) (gain : Gain Phrase (Phrase × List Loc)) (hgain : gain ∈ r) (ts : List Tree)
    (hnodes : nodes = ts.map Tree.loc) (hhas : cst.Has ts) : Takes ts gain.result.2 gain.journal :=
  match h with
  -- By recursion on the derivation. Words, and nodes that are gone into, are where something is
  -- taken; the other combinators pass on what their parts take.
  | .any .. => nomatch hm
  | .kwd .. => by
    subst hnodes
    cases hm with
    | kwd hrole =>
      refine takes_of_takeWord hgain hhas fun l r s v journal haccept => ?_
      split at haccept <;> cases haccept
      exact .word_noted hrole
  | .id .. => by
    subst hnodes
    cases hm with
    | id hrole =>
      refine takes_of_takeWord hgain hhas fun l r s v journal haccept => ?_
      split at haccept <;> cases haccept
      exact .word_noted hrole
  | .number .. => by
    subst hnodes
    refine takes_of_takeWord hgain hhas fun l r s v journal haccept => ?_
    split at haccept
    · next hdigits =>
      cases haccept
      exact .digits (Bool.and_eq_true_iff.1 hdigits).1
    · cases haccept
  | .text hnode hspans => by
    cases hm with
    | text hm => exact takes_text hnode (hspans.accounts hg hm) hgain hnodes hhas
  | .list hnode hkind hinner => by
    cases hm with
    | list hm hrole => exact takes_list hnode hrole (hinner.takes hg hm) hgain hnodes hhas
  | .table hnode hrows => by
    cases hm with
    | table hm => exact takes_table hnode (hrows.accounts hg hm) hgain hnodes hhas
  | .textMiss _ | .listMiss _ | .tableMiss _ | .refMiss _ => nomatch hgain
  | .seq hitems => by
    obtain ⟨inner, hinner, rfl⟩ := Option.map_eq_some_iff.1 hgain
    cases hm with
    | seq hm => exact hitems.takes hg hm inner hinner ts hnodes hhas
  | .or hitems => by
    cases hm with
    | or hm => exact hitems.takes hg hm gain hgain ts hnodes hhas
  | .star hrounds => by
    obtain rfl := Option.some.inj hgain
    cases hm with
    | star hm => exact hrounds.takes hg hm ts hnodes hhas
  | .opt hinner => by
    obtain rfl := Option.some.inj hgain
    cases hm with
    | opt hm =>
      exact takes_getD_absent hnodes fun inner hmem => hinner.takes hg hm inner hmem ts hnodes hhas
  | .group hinner => by
    obtain ⟨inner, hmem, rfl⟩ := Option.map_eq_some_iff.1 hgain
    cases hm with
    | group hm => exact hinner.takes hg hm inner hmem ts hnodes hhas
  | .ref hrule htarget => by
    obtain ⟨inner, hmem, rfl⟩ := Option.map_eq_some_iff.1 hgain
    exact htarget.takes hg (hg _ _ hrule) inner hmem ts hnodes hhas
  | .tx hinner => by
    obtain ⟨inner, hmem, hbuild⟩ := Option.bind_eq_some_iff.1 hgain
    obtain ⟨v, hv, rfl⟩ := Option.map_eq_some_iff.1 hbuild
    cases hm with
    | tx hm => exact hinner.takes hg hm inner hmem ts hnodes hhas
    -- The pieces of the literal are passed over, but its builder refuses it if one is embedded.
    | literal hrefuses =>
      cases hinner with
      | group hinner =>
        obtain ⟨text, htext, rfl⟩ := Option.map_eq_some_iff.1 hmem
        have htakes : Takes ts text.result.2 text.journal :=
          takes_literal hinner hrefuses htext hv hnodes hhas
        exact htakes
termination_by structural h

theorem MatchesAll.takes {ms : List (Matcher Phrase)} {nodes : List Loc} {parent : Loc}
    {r : Option (Gain Phrase (List Phrase × List Loc))} (h : MatchesAll g cst ms nodes parent r)
    (hg : ∀ name m, g.rule? name = some m → m.Thorough) (hms : ∀ m ∈ ms, m.Thorough)
    (gain : Gain Phrase (List Phrase × List Loc)) (hgain : gain ∈ r) (ts : List Tree)
    (hnodes : nodes = ts.map Tree.loc) (hhas : cst.Has ts) : Takes ts gain.result.2 gain.journal :=
  match h with
  | .nil .. => by
    cases hgain
    subst hnodes
    exact .nothing ts
  | .stop _ => nomatch hgain
  | .cons hhead htail => by
    obtain ⟨inner, hmem, rfl⟩ := Option.map_eq_some_iff.1 hgain
    obtain ⟨hm, hms⟩ := List.forall_mem_cons.1 hms
    exact (hhead.takes hg hm _ rfl ts hnodes hhas).append hhas fun rest hrest hhas =>
      htail.takes hg hms inner hmem rest hrest hhas
termination_by structural h

theorem MatchesFirst.takes {ms : List (Matcher Phrase)} {nodes : List Loc} {parent : Loc}
    {r : Verdict Phrase} (h : MatchesFirst g cst ms nodes parent r)
    (hg : ∀ name m, g.rule? name = some m → m.Thorough) (hms : ∀ m ∈ ms, m.Thorough)
    (gain : Gain Phrase (Phrase × List Loc)) (hgain : gain ∈ r) (ts : List Tree)
    (hnodes : nodes = ts.map Tree.loc) (hhas : cst.Has ts) : Takes ts gain.result.2 gain.journal :=
  match h with
  | .nil .. => nomatch hgain
  | .hit hhead => hhead.takes hg (hms _ List.mem_cons_self) gain hgain ts hnodes hhas
  | .next _ htail => htail.takes hg (fun m hm => hms m (List.mem_cons_of_mem _ hm)) gain hgain ts hnodes hhas
termination_by structural h

theorem MatchesRounds.takes {m : Matcher Phrase} {nodes : List Loc} {parent : Loc}
    {gain : Gain Phrase (List Phrase × List Loc)} (h : MatchesRounds g cst m nodes parent gain)
    (hg : ∀ name m, g.rule? name = some m → m.Thorough) (hm : m.Thorough) (ts : List Tree)
    (hnodes : nodes = ts.map Tree.loc) (hhas : cst.Has ts) : Takes ts gain.result.2 gain.journal :=
  match h with
  | .stop _ | .idle .. => by
    subst hnodes
    exact .nothing ts
  | .more hround _ hrest =>
    (hround.takes hg hm _ rfl ts hnodes hhas).append hhas fun rest hnodes hhas =>
      hrest.takes hg hm rest hnodes hhas
termination_by structural h

theorem MatchesSpans.accounts {m : Matcher Phrase} {spans : List (TextSpan Loc)}
    {r : Option (Gain Phrase (List (TextSpan Phrase)))} (h : MatchesSpans g cst m spans r)
    (hg : ∀ name m, g.rule? name = some m → m.Thorough) (hm : m.Thorough)
    (gain : Gain Phrase (List (TextSpan Phrase))) (hgain : gain ∈ r) (parts : List (TextSpan Tree))
    (hspans : spans = parts.map (TextSpan.map Tree.loc))
    (hhas : cst.Has (parts.filterMap TextSpan.item?)) :
    Accounts (parts.filterMap TextSpan.item?) gain.journal :=
  match h with
  | .nil _ => by
    cases hgain
    obtain rfl := List.map_eq_nil_iff.1 hspans.symm
    exact .nil
  | .text hrest => by
    obtain ⟨inner, hmem, rfl⟩ := Option.map_eq_some_iff.1 hgain
    obtain ⟨part, parts, rfl, hpart, hparts⟩ := List.map_eq_cons_iff.1 hspans.symm
    cases part with
    | text => exact hrest.accounts hg hm inner hmem parts hparts.symm hhas
    | embed => cases hpart
  | .stop .. => nomatch hgain
  | .embed hitem hrest => by
    obtain ⟨inner, hmem, rfl⟩ := Option.map_eq_some_iff.1 hgain
    obtain ⟨part, parts, rfl, hpart, hparts⟩ := List.map_eq_cons_iff.1 hspans.symm
    cases part with
    | text => cases hpart
    | embed t =>
      have hloc := TextSpan.embed.inj hpart
      have hhas : cst.Has ([t] ++ parts.filterMap TextSpan.item?) := hhas
      have hfirst := (hitem.takes hg hm _ rfl [t] (by rw [← hloc]; rfl) hhas.left).all
      exact hfirst.append (hrest.accounts hg hm inner hmem parts hparts.symm hhas.right) hhas
termination_by structural h

theorem MatchesRows.accounts {m : Matcher Phrase} {table : Loc} {rows : List (List Loc)}
    {r : Option (Gain Phrase (List Phrase))} (h : MatchesRows g cst m table rows r)
    (hg : ∀ name m, g.rule? name = some m → m.Thorough) (hm : m.Thorough)
    (gain : Gain Phrase (List Phrase)) (hgain : gain ∈ r) (parts : List (List Tree))
    (hrows : rows = parts.map (·.map Tree.loc)) (hhas : cst.Has parts.flatten) :
    Accounts parts.flatten gain.journal :=
  match h with
  | .nil .. => by
    cases hgain
    obtain rfl := List.map_eq_nil_iff.1 hrows.symm
    exact .nil
  | .stop .. => nomatch hgain
  | .row hrow hrest => by
    obtain ⟨inner, hmem, rfl⟩ := Option.map_eq_some_iff.1 hgain
    obtain ⟨cells, parts, rfl, hcells, hparts⟩ := List.map_eq_cons_iff.1 hrows.symm
    rw [List.flatten_cons] at hhas ⊢
    have hfirst := (hrow.takes hg hm _ rfl cells hcells.symm hhas.left).all
    exact hfirst.append (hrest.accounts hg hm inner hmem parts hparts.symm hhas.right) hhas
termination_by structural h

end

end Matcher

/-! ## Dictionaries of lists -/

namespace Dict

variable {κ α : Type} [Ord κ] [Std.TransOrd κ] [Std.LawfulEqOrd κ]

/-- If every key is bound once, it does not matter that later bindings win. -/
theorem get?_ofList_iff {l : List (κ × α)} (hl : (l.map Prod.fst).Nodup) (k : κ) (a : α) :
    (ofList l).get? k = some a ↔ (k, a) ∈ l := by
  induction l using List.reverseRecOn with
  | nil => simp [ofList]
  | append_singleton l e ih =>
    have hconcat : ofList (l ++ [e]) = (ofList l).insert e.1 e.2 := by simp [ofList]
    rw [List.map_append, List.nodup_append] at hl
    rw [hconcat, List.mem_append, List.mem_singleton]
    by_cases hk : k = e.1
    · subst hk
      have hfresh : (e.1, a) ∉ l := fun hmem =>
        hl.2.2 e.1 (List.mem_map.2 ⟨_, hmem, rfl⟩) e.1 (by simp) rfl
      simp [hfresh, Prod.ext_iff, eq_comm]
    · rw [get?_insert_of_ne _ _ hk, ih hl.1]
      simp [Prod.ext_iff, hk]

theorem entries_ofList_perm {l : List (κ × α)} (hl : (l.map Prod.fst).Nodup) :
    (ofList l).entries.Perm l := by
  have hentries : (ofList l).entries.Nodup :=
    (ofList l).ascending.imp fun hlt heq => by simp [heq] at hlt
  refine (List.perm_ext_iff_of_nodup hentries (List.Nodup.of_map _ hl)).2 fun e => ?_
  rw [mem_entries_iff, get?_ofList_iff hl]

end Dict

/-! ## The rules of the language -/

namespace Matcher.Thorough

variable {inner : Matcher Phrase} {role : Role} {role? : Option Role} {items : List (Matcher Phrase)}

attribute [simp] number ref

@[simp] theorem kwd_iff {word : String} : (Matcher.kwd word role).Thorough ↔ role ≠ .unparsed :=
  ⟨fun h => by cases h; assumption, .kwd⟩

@[simp] theorem id_iff : (Matcher.id (some role)).Thorough ↔ role ≠ .unparsed :=
  ⟨fun h => by cases h; assumption, .id⟩

@[simp] theorem text_iff : (Matcher.text inner).Thorough ↔ inner.Thorough :=
  ⟨fun h => by cases h; assumption, .text⟩

@[simp] theorem list_iff {kind : ListMatch} :
    (Matcher.list kind inner role?).Thorough ↔ inner.Thorough ∧ role? ≠ some .unparsed :=
  ⟨fun h => by cases h; exact ⟨‹_›, ‹_›⟩, fun h => .list h.1 h.2⟩

@[simp] theorem table_iff {kind : ListKind} : (Matcher.table kind inner).Thorough ↔ inner.Thorough :=
  ⟨fun h => by cases h; assumption, .table⟩

@[simp] theorem seq_iff : (Matcher.seq items).Thorough ↔ ∀ m ∈ items, m.Thorough :=
  ⟨fun h => by cases h; assumption, .seq⟩

@[simp] theorem or_iff : (Matcher.or items).Thorough ↔ ∀ m ∈ items, m.Thorough :=
  ⟨fun h => by cases h; assumption, .or⟩

@[simp] theorem star_iff : (Matcher.star inner).Thorough ↔ inner.Thorough :=
  ⟨fun h => by cases h; assumption, .star⟩

@[simp] theorem opt_iff : (Matcher.opt inner).Thorough ↔ inner.Thorough :=
  ⟨fun h => by cases h; assumption, .opt⟩

@[simp] theorem group_iff {name : String} : (Matcher.group name inner).Thorough ↔ inner.Thorough :=
  ⟨fun h => by cases h; assumption, .group⟩

attribute [simp] tx

end Matcher.Thorough

namespace Language

/-- String literals that embed something are no patterns. -/
theorem thorough_strPat : (Matcher.tx (.group "value" (.text .any)) Build.strPat).Thorough := by
  refine .literal fun spans l src v hv => ?_
  simp only [Build.strPat, Build.textPart, Build.part, Bindings.get?, List.lookup_cons, beq_self_eq_true,
    Option.bind_some, Option.bind_eq_bind] at hv
  split at hv
  · next hempty => exact List.isEmpty_iff.1 hempty
  · cases hv

/-- The rules of the language pass over no word. -/
theorem grammar_thorough (name : String) (m : Rule) (hrule : grammar.rule? name = some m) :
    m.Thorough := by
  have hmem := (Dict.get?_ofList_iff (by decide) name m).1 hrule
  refine (?_ : ∀ e ∈ _, (e.2 : Rule).Thorough) (name, m) hmem
  simp [stmtRule, letRule, returnRule, forRule, blockRule, exprRule, suffixedRule, suffixRule,
    spacedRule, lambdaRule, switchRule, ifRule, operationsRule, patRule, thorough_strPat, keyword, punct,
    listOf, use, useAs, manyAs]

/-- The rule that items are read by. -/
theorem rule?_stmt : grammar.rule? "stmt" = some stmtRule := rfl

end Language

/-! ## Reading a program -/

namespace Grammar

variable {V : Type} [MatchValue V] {g : Grammar V} {cst : Cst} {m : Matcher V} {root : Loc} {v : V}

/-- A node that is read as a phrase is matched by the rules, and the record is what they note. -/
theorem matches_of_run (h : (g.run cst m root).1 = some v) :
    ∃ bindings, Matcher.Matches g cst m [root] root
      (some ⟨(v, []), (g.run cst m root).2.journal, bindings⟩) := by
  unfold run at h ⊢
  split at h
  · cases h
  · cases h
  · next v' record hends =>
    cases h
    obtain ⟨journal, bindings, hmatches, rfl⟩ := match?_follows g cst _ m [root] root _ _ _ hends
    exact ⟨bindings, by simpa [MatchRecord.empty] using hmatches⟩
  · cases h

/-- What reading a node records, if it is a phrase. -/
theorem parse_of_value {rule : String} (h : (g.parse cst rule root).value = some v) :
    ∃ m, g.rule? rule = some m ∧ (g.run cst m root).1 = some v ∧
      (g.parse cst rule root).metadata = .ofList (g.run cst m root).2.journal.reverse ∧
      (g.parse cst rule root).tooDeep = none := by
  by_cases hdepth : g.maxNesting < (cst.nesting root).1
  · simp [parse, hdepth] at h
  · rcases hrule : g.rule? rule with _ | m
    · simp [parse, hdepth, hrule] at h
    · have hvalue : (g.run cst m root).1 = some v := by simpa [parse, hdepth, hrule] using h
      refine ⟨m, rfl, hvalue, ?_, ?_⟩
      · simp [parse, hdepth, hrule, hvalue]
      · simp [parse, hdepth]

end Grammar

namespace Language

variable {cst : Cst} {root : Loc} {stmt : Stmt}

/-- What reading an item records, if it is a statement. -/
theorem parse_of_stmt (h : (parse cst root).stmt = some stmt) :
    ∃ v, (grammar.run cst stmtRule root).1 = some v ∧
      (parse cst root).metadata = .ofList (grammar.run cst stmtRule root).2.journal.reverse ∧
      (parse cst root).tooDeep = none := by
  obtain ⟨v, hvalue, -⟩ := Option.bind_eq_some_iff.1 h
  obtain ⟨m, hrule, hrun, hmetadata, hdepth⟩ := Grammar.parse_of_value hvalue
  obtain rfl := Option.some.inj (rule?_stmt.symm.trans hrule)
  exact ⟨v, hrun, hmetadata, hdepth⟩

theorem Parsed.mem_unparsed {p : Parsed} {l : Loc} :
    l ∈ p.unparsed ↔ p.metadata.get? l = some .unparsed := by
  simp only [Parsed.unparsed, List.mem_map, List.mem_filter]
  constructor
  · rintro ⟨⟨l, role⟩, ⟨he, hrole⟩, rfl⟩
    obtain rfl : role = .unparsed := by simpa using hrole
    exact (Dict.mem_entries_iff _ _ _).mp he
  · intro hl
    exact ⟨(l, .unparsed), ⟨(Dict.mem_entries_iff _ _ _).mpr hl, by simp⟩, rfl⟩

theorem result_eq_ok {p : Parsed} (hstmt : p.stmt = some stmt) (hdepth : p.tooDeep = none)
    (hparsed : ∀ l, p.metadata.get? l ≠ some .unparsed) : p.result = .ok (stmt, p.metadata) := by
  have hunparsed : p.unparsed = [] :=
    List.eq_nil_iff_forall_not_mem.2 fun l hl => hparsed l (Parsed.mem_unparsed.1 hl)
  simp [Parsed.result, hdepth, hstmt, hunparsed]

/-- The roles noted while an item is read as a statement account for its tree. -/
theorem accounts_of_stmt {src : List Char} {forest spares : List Tree} {t : Tree}
    (hmade : cst.MadeOf src forest spares) (ht : t ∈ forest)
    (hstmt : (parse cst t.loc).stmt = some stmt) :
    Accounts [t] (grammar.run cst stmtRule t.loc).2.journal := by
  obtain ⟨v, hrun, -⟩ := parse_of_stmt hstmt
  obtain ⟨bindings, hmatches⟩ := Grammar.matches_of_run hrun
  have htakes := hmatches.takes grammar_thorough (grammar_thorough "stmt" _ rule?_stmt) _ rfl [t] rfl
    (hmade.has_root ht)
  exact htakes.all

theorem get?_metadata {src : List Char} {forest spares : List Tree} {t : Tree}
    (hmade : cst.MadeOf src forest spares) (ht : t ∈ forest)
    (hstmt : (parse cst t.loc).stmt = some stmt) (l : Loc) (role : Role) :
    (parse cst t.loc).metadata.get? l = some role ↔
      (l, role) ∈ (grammar.run cst stmtRule t.loc).2.journal := by
  obtain ⟨-, -, hmetadata, -⟩ := parse_of_stmt hstmt
  have hnodup := (accounts_of_stmt hmade ht hstmt).nodup
  rw [hmetadata, Dict.get?_ofList_iff (by rwa [List.map_reverse, List.nodup_reverse]), List.mem_reverse]

/-- **No word is passed over.**  If an item of a source is read as a statement, every word in it is a
number or has a role, the nodes with a role are in the item, each was noted once, none of them is
unaccounted for, and the statement is the result. -/
theorem parse_accounts {a : Alphabet} {src : List Char} (hlex : Cst.lex a src = .ok cst)
    (hroot : root ∈ cst.roots) (hstmt : (parse cst root).stmt = some stmt) :
    (∀ l s, cst.Below root l → cst.node? l = some (.id s) →
      (∃ role, (parse cst root).metadata.get? l = some role) ∨ Matcher.isDigits s = true) ∧
    (∀ l ∈ (parse cst root).metadata.keys, cst.Below root l) ∧
    (((grammar.run cst stmtRule root).2.journal.map Prod.fst).Nodup ∧
      (parse cst root).metadata.entries.Perm (grammar.run cst stmtRule root).2.journal) ∧
    (∀ l, (parse cst root).metadata.get? l ≠ some .unparsed) ∧
    (parse cst root).result = .ok (stmt, (parse cst root).metadata) := by
  obtain ⟨L, stop, -, hmade⟩ := Cst.exists_reads hlex
  obtain ⟨t, ht, rfl⟩ := List.mem_map.1 (hmade.roots ▸ hroot)
  obtain ⟨-, -, hmetadata, hdepth⟩ := parse_of_stmt hstmt
  have haccounts := accounts_of_stmt hmade ht hstmt
  have hget := get?_metadata hmade ht hstmt
  have hbelow (l : Loc) := hmade.below_iff (l := l) (List.mem_flatMap.2 ⟨t, ht, t.mem_nodes_self⟩)
  have hparsed (l : Loc) : (parse cst t.loc).metadata.get? l ≠ some .unparsed := fun hl =>
    haccounts.parsed _ ((hget l _).1 hl) rfl
  refine ⟨fun l s hl hnode => ?_, fun l hl => ?_, ⟨haccounts.nodup, ?_⟩, hparsed,
    result_eq_ok hstmt hdepth hparsed⟩
  · obtain ⟨u, hu, rfl⟩ := (hbelow l).1 hl
    have hholds := (hmade.has_root ht).holds u (by simpa using hu)
    obtain ⟨l, r, rfl⟩ := hholds.exists_eq_id hnode
    refine (haccounts.word l r s (by simpa using hu)).imp_left fun hnoted => ?_
    obtain ⟨⟨l', role⟩, he, rfl⟩ := List.mem_map.1 hnoted
    exact ⟨role, (hget _ _).2 he⟩
  · obtain ⟨role, hrole⟩ := (Dict.mem_keys_iff _ _).1 hl
    have hmem := haccounts.below _ ((hget l role).1 hrole)
    rw [List.flatMap_singleton] at hmem
    exact (hbelow l).2 (List.mem_map.1 hmem)
  · rw [hmetadata]
    refine (Dict.entries_ofList_perm ?_).trans (List.reverse_perm _)
    rw [List.map_reverse, List.nodup_reverse]
    exact haccounts.nodup

/-- A function bound to a name, with a string literal in its body: `let f = (x) => "a${x}"`. -/
def letSource : List Char := "let f = (x) => \"a$\x7bx\x7d\"".toList

theorem parse_accounts_letSource :
    ∃ cst root stmt, Cst.lex .js letSource = .ok cst ∧ root ∈ cst.roots ∧
      (parse cst root).stmt = some stmt ∧
      (parse cst root).result = .ok (stmt, (parse cst root).metadata) ∧
      ∀ l s, cst.Below root l → cst.node? l = some (.id s) →
        (∃ role, (parse cst root).metadata.get? l = some role) ∨ Matcher.isDigits s = true := by
  obtain ⟨cst, hlex⟩ : ∃ cst, Cst.lex .js letSource = .ok cst := ⟨_, rfl⟩
  have hparsed : (Cst.lex .js letSource).toOption.map (fun cst =>
      cst.roots.map fun root => (root, (parse cst root).stmt.isSome)) = some [(2, true)] := by
    decide +kernel
  rw [hlex] at hparsed
  obtain ⟨root, roots, hroots, hroot, -⟩ := List.map_eq_cons_iff.1 (Option.some.inj hparsed)
  obtain ⟨stmt, hstmt⟩ := Option.isSome_iff_exists.1 (congrArg Prod.snd hroot)
  have hmem : root ∈ cst.roots := hroots ▸ List.mem_cons_self
  have haccounts := parse_accounts hlex hmem hstmt
  exact ⟨cst, root, stmt, hlex, hmem, hstmt, haccounts.2.2.2.2, haccounts.1⟩

end Language

end TypeTrace
