import TypeTrace.Proofs.OrderedChoice
import Mathlib.Data.List.Basic
import Mathlib.Logic.Relation

/-!
# Ranked grammars

A matcher asks for its parts and for rules, and these for others.  What it asks for before it has taken
a node decides whether that has an end: it has, if the rules can be ranked so that each of them asks
first for rules of a lower rank only.  What is asked for has then fewer nodes left, or begins with rules
of a lower rank, or is a part of the matcher that asks, and these three add up to a number of nested
calls that suffices.

## Main definitions

* `Matcher.MayIdle`, `Matcher.Begins`: matchers that may take nothing, and the rules that a matcher may
  ask for before it has taken a node
* `Matcher.consumes`, `Matcher.leads`: the same, computed, for grammars whose rules all take nodes
* `Cst.Counts`: the number of nodes below some siblings
* `Matcher.Subtask`: what matching asks for
* `Grammar.Leads`, `Grammar.Ranked`: rules that lead to others, and to those of a lower rank only

## Main results

* `Matcher.Matches.mayIdle`: only matchers that may idle take nothing
* `Grammar.Ranked.not_leads_self`: no rule of a ranked grammar leads back to itself
* `Grammar.Ranked.subtask`: what a ranked grammar asks for takes fewer nested calls
* `Grammar.Ranked.wellFounded_subtask`: it has an end
-/

namespace TypeTrace

/-! ## What comes first -/

namespace Matcher

variable {V : Type} {g : Grammar V}

/-- The matcher may succeed without taking a node. -/
inductive MayIdle (g : Grammar V) : Matcher V → Prop
  | seq {items : List (Matcher V)} (hitems : ∀ m ∈ items, MayIdle g m) : MayIdle g (.seq items)
  | or {items : List (Matcher V)} {m : Matcher V} (hm : m ∈ items) (hidle : MayIdle g m) :
    MayIdle g (.or items)
  | star (inner : Matcher V) : MayIdle g (.star inner)
  | opt (inner : Matcher V) : MayIdle g (.opt inner)
  | group {name : String} {inner : Matcher V} (hinner : MayIdle g inner) :
    MayIdle g (.group name inner)
  | ref {rule : String} {name : Option String} {target : Matcher V}
    (hrule : g.rule? rule = some target) (htarget : MayIdle g target) : MayIdle g (.ref rule name)
  | tx {inner : Matcher V} {build : Bindings V → Region → Option V} (hinner : MayIdle g inner) :
    MayIdle g (.tx inner build)

/-- The matcher may ask for the rule before it has taken a node. -/
inductive Begins (g : Grammar V) : Matcher V → String → Prop
  | seq {before after : List (Matcher V)} {m : Matcher V} {rule : String}
    (hbefore : ∀ i ∈ before, MayIdle g i) (hm : Begins g m rule) :
    Begins g (.seq (before ++ m :: after)) rule
  | or {items : List (Matcher V)} {m : Matcher V} {rule : String} (hmem : m ∈ items)
    (hm : Begins g m rule) : Begins g (.or items) rule
  | star {inner : Matcher V} {rule : String} (hinner : Begins g inner rule) :
    Begins g (.star inner) rule
  | opt {inner : Matcher V} {rule : String} (hinner : Begins g inner rule) :
    Begins g (.opt inner) rule
  | group {name : String} {inner : Matcher V} {rule : String} (hinner : Begins g inner rule) :
    Begins g (.group name inner) rule
  | ref (rule : String) (name : Option String) : Begins g (.ref rule name) rule
  | tx {inner : Matcher V} {build : Bindings V → Region → Option V} {rule : String}
    (hinner : Begins g inner rule) : Begins g (.tx inner build) rule

section Idle

theorem takeFirst_ne {nodes : List Loc} {accept : Loc → Option (V × List (Loc × Role))}
    {gain : Gain V (V × List Loc)} (h : gain ∈ takeFirst nodes accept) : gain.result.2 ≠ nodes := by
  cases nodes with
  | nil => cases h
  | cons loc rest =>
    obtain ⟨p, -, rfl⟩ := Option.map_eq_some_iff.mp h
    exact (List.cons_ne_self loc rest).symm

variable [MatchValue V] {cst : Cst}

mutual

/-- Only matchers that may idle succeed and leave all siblings. -/
theorem Matches.mayIdle {m : Matcher V} {nodes : List Loc} {parent : Loc} {r : Verdict V}
    (h : Matches g cst m nodes parent r) : ∀ gain ∈ r, gain.result.2 = nodes → MayIdle g m :=
  match h with
  | .any .. | .kwd .. | .id .. | .number .. => fun gain hgain hidle =>
    absurd hidle (takeFirst_ne hgain)
  | .textMiss _ | .listMiss _ | .tableMiss _ | .refMiss _ => nofun
  -- A node that is gone into is taken as a whole, whatever is inside.
  | .text _ _ | .table _ _ => fun gain hgain hidle => by
    obtain ⟨inner, -, rfl⟩ := Option.map_eq_some_iff.mp hgain
    exact absurd hidle.symm (List.cons_ne_self _ _)
  | .list .. => fun gain hgain hidle => by
    obtain ⟨⟨⟨v, left⟩, journal, bindings⟩, -, hinner⟩ := Option.bind_eq_some_iff.mp hgain
    cases left with
    | nil => cases hinner; exact absurd hidle.symm (List.cons_ne_self _ _)
    | cons => cases hinner
  | .seq hitems => fun gain hgain hidle => by
    obtain ⟨inner, hinner, rfl⟩ := Option.map_eq_some_iff.mp hgain
    exact .seq (hitems.mayIdle inner hinner hidle)
  | .or hitems => fun gain hgain hidle => by
    obtain ⟨m, hm, hmayIdle⟩ := hitems.mayIdle gain hgain hidle
    exact .or hm hmayIdle
  | .star _ => fun _ _ _ => .star _
  | .opt _ => fun _ _ _ => .opt _
  | .group hinner => fun gain hgain hidle => by
    obtain ⟨inner, hmem, rfl⟩ := Option.map_eq_some_iff.mp hgain
    exact .group (hinner.mayIdle inner hmem hidle)
  | .ref hrule htarget => fun gain hgain hidle => by
    obtain ⟨inner, hmem, rfl⟩ := Option.map_eq_some_iff.mp hgain
    exact .ref hrule (htarget.mayIdle inner hmem hidle)
  | .tx hinner => fun gain hgain hidle => by
    obtain ⟨inner, hmem, hbuilt⟩ := Option.bind_eq_some_iff.mp hgain
    obtain ⟨v, -, rfl⟩ := Option.map_eq_some_iff.mp hbuilt
    exact .tx (hinner.mayIdle inner hmem hidle)
termination_by structural h

theorem MatchesAll.mayIdle {ms : List (Matcher V)} {nodes : List Loc} {parent : Loc}
    {r : Option (Gain V (List V × List Loc))} (h : MatchesAll g cst ms nodes parent r) :
    ∀ gain ∈ r, gain.result.2 = nodes → ∀ m ∈ ms, MayIdle g m :=
  match h with
  | .nil .. => fun _ _ _ => nofun
  | .stop _ => nofun
  | .cons hhead htail => fun gain hgain hidle => by
    obtain ⟨inner, hinner, rfl⟩ := Option.map_eq_some_iff.mp hgain
    -- What is left in the end is left of what the first matcher leaves.
    have hle := hidle ▸ (htail.suffix inner hinner).length_le
    have hmid := (hhead.suffix _ rfl).eq_of_length_le hle
    refine List.forall_mem_cons.mpr ⟨hhead.mayIdle _ rfl hmid, ?_⟩
    exact htail.mayIdle inner hinner (hidle.trans hmid.symm)
termination_by structural h

theorem MatchesFirst.mayIdle {ms : List (Matcher V)} {nodes : List Loc} {parent : Loc}
    {r : Verdict V} (h : MatchesFirst g cst ms nodes parent r) :
    ∀ gain ∈ r, gain.result.2 = nodes → ∃ m ∈ ms, MayIdle g m :=
  match h with
  | .nil .. => nofun
  | .hit hhead => fun gain hgain hidle => ⟨_, List.mem_cons_self, hhead.mayIdle gain hgain hidle⟩
  | .next _ htail => fun gain hgain hidle => by
    obtain ⟨m, hm, hmayIdle⟩ := htail.mayIdle gain hgain hidle
    exact ⟨m, List.mem_cons_of_mem _ hm, hmayIdle⟩
termination_by structural h

end

end Idle

/-! ## Rules that take nodes

If all rules take a node whenever they succeed, what comes first can be computed. -/

mutual

/-- The matcher takes a node whenever it succeeds, if all rules do. -/
def consumes : Matcher V → Bool
  | any | kwd .. | id _ | number | text _ | list .. | table .. | ref .. => true
  | star _ | opt _ => false
  | group _ inner | tx inner _ => inner.consumes
  | seq items => anyConsumes items
  | or items => allConsume items

/-- One of the matchers takes a node. -/
def anyConsumes : List (Matcher V) → Bool
  | [] => false
  | m :: ms => m.consumes || anyConsumes ms

/-- Each of the matchers takes a node. -/
def allConsume : List (Matcher V) → Bool
  | [] => true
  | m :: ms => m.consumes && allConsume ms

end

mutual

/-- The rules that the matcher may ask for before it has taken a node, if all rules take one. -/
def leads : Matcher V → List String
  | any | kwd .. | id _ | number | text _ | list .. | table .. => []
  | ref rule _ => [rule]
  | star inner | opt inner | group _ inner | tx inner _ => inner.leads
  | seq items => leadsSeq items
  | or items => leadsOr items

/-- The rules that come first in a sequence. -/
def leadsSeq : List (Matcher V) → List String
  | [] => []
  | m :: ms => m.leads ++ if m.consumes then [] else leadsSeq ms

/-- The rules that come first in an alternative. -/
def leadsOr : List (Matcher V) → List String
  | [] => []
  | m :: ms => m.leads ++ leadsOr ms

end

mutual

/-- The matcher and all matchers in it. -/
def parts (m : Matcher V) : List (Matcher V) :=
  m :: match m with
  | any | kwd .. | id _ | number | ref .. => []
  | text inner | list _ inner _ | table _ inner | star inner | opt inner | group _ inner
  | tx inner _ => inner.parts
  | seq items | or items => partsAll items

/-- The matchers and all matchers in them. -/
def partsAll : List (Matcher V) → List (Matcher V)
  | [] => []
  | m :: ms => m.parts ++ partsAll ms

end

theorem anyConsumes_iff {items : List (Matcher V)} :
    anyConsumes items = true ↔ ∃ m ∈ items, m.consumes = true := by
  induction items with
  | nil => simp [anyConsumes]
  | cons m ms ih => simp [anyConsumes, ih]

theorem allConsume_iff {items : List (Matcher V)} :
    allConsume items = true ↔ ∀ m ∈ items, m.consumes = true := by
  induction items with
  | nil => simp [allConsume]
  | cons m ms ih => simp [allConsume, ih]

/-- All rules take a node whenever they succeed. -/
def RulesConsume (g : Grammar V) : Prop :=
  ∀ name m, g.rule? name = some m → m.consumes = true

theorem MayIdle.consumes_eq (hg : RulesConsume g) {m : Matcher V} (h : MayIdle g m) :
    m.consumes = false := by
  induction h with
  | seq _ ih =>
    rw [consumes, Bool.eq_false_iff, Ne, anyConsumes_iff]
    rintro ⟨m, hm, hconsumes⟩
    exact Bool.eq_false_iff.mp (ih m hm) hconsumes
  | or hm _ ih =>
    rw [consumes, Bool.eq_false_iff, Ne, allConsume_iff]
    exact fun hall => Bool.eq_false_iff.mp ih (hall _ hm)
  | star | opt => rfl
  | group _ ih | tx _ ih => exact ih
  | ref hrule _ ih => exact absurd (hg _ _ hrule) (Bool.eq_false_iff.mp ih)

theorem Begins.mem_leads (hg : RulesConsume g) {m : Matcher V} {rule : String} (h : Begins g m rule) :
    rule ∈ m.leads := by
  induction h with
  | @seq before after m rule hbefore _ ih =>
    rw [leads]
    -- The items before the one that is reached need not consume anything, so none of them ends the
    -- leads.
    induction before with
    | nil => exact List.mem_append_left _ ih
    | cons i before ihbefore =>
      obtain ⟨hi, hbefore⟩ := List.forall_mem_cons.mp hbefore
      rw [List.cons_append, leadsSeq, hi.consumes_eq hg]
      exact List.mem_append_right _ (ihbefore hbefore)
  | @or items m rule hmem _ ih =>
    rw [leads]
    induction items with
    | nil => cases hmem
    | cons i items ihitems =>
      rw [leadsOr, List.mem_append]
      rcases List.mem_cons.mp hmem with rfl | hmem
      · exact .inl ih
      · exact .inr (ihitems hmem)
  | star _ ih | opt _ ih | group _ ih | tx _ ih => exact ih
  | ref rule name => exact List.mem_singleton_self rule

end Matcher

/-! ## Nodes that are left -/

/-- The siblings and the nodes below them are `n` in number.  A tree that had a way back to a node of
itself would have no such number. -/
inductive Cst.Counts (cst : Cst) : List Loc → Nat → Prop
  | nil : Counts cst [] 0
  | cons {l : Loc} {rest : List Loc} {n k : Nat} (hbelow : Counts cst (cst.children l) n)
    (hrest : Counts cst rest k) : Counts cst (l :: rest) (n + k + 1)

namespace Cst.Counts

variable {cst : Cst} {l : Loc} {nodes nodes' rest : List Loc} {n : Nat}

theorem sublist (h : cst.Counts nodes n) (hsub : nodes'.Sublist nodes) :
    ∃ n' ≤ n, cst.Counts nodes' n' := by
  induction hsub generalizing n with
  | slnil => exact ⟨n, Nat.le_refl n, h⟩
  | cons l _ ih =>
    cases h with
    | cons hbelow hrest =>
      obtain ⟨n', hle, hcounts⟩ := ih hrest
      exact ⟨n', by omega, hcounts⟩
  | cons_cons l _ ih =>
    cases h with
    | cons hbelow hrest =>
      obtain ⟨n', hle, hcounts⟩ := ih hrest
      exact ⟨_, by omega, hbelow.cons hcounts⟩

/-- Fewer nodes are left after some are taken. -/
theorem suffix (h : cst.Counts nodes n) (hsuffix : rest <:+ nodes) (hne : rest ≠ nodes) :
    ∃ n' < n, cst.Counts rest n' := by
  cases h with
  | nil => exact absurd (List.suffix_nil.mp hsuffix) hne
  | cons hbelow hrest =>
    have hlater := (List.suffix_cons_iff.mp hsuffix).resolve_left hne
    obtain ⟨n', hle, hcounts⟩ := hrest.sublist hlater.sublist
    exact ⟨n', by omega, hcounts⟩

/-- Fewer nodes are left below the first one. -/
theorem descend (h : cst.Counts (l :: rest) n) (hsub : nodes.Sublist (cst.children l)) :
    ∃ n' < n, cst.Counts nodes n' := by
  cases h with
  | cons hbelow hrest =>
    obtain ⟨n', hle, hcounts⟩ := hbelow.sublist hsub
    exact ⟨n', by omega, hcounts⟩

end Cst.Counts

/-! ## What matching asks for -/

namespace Matcher

variable {V : Type} {g : Grammar V} {cst : Cst}

/-- A matcher with the siblings that it has to match. -/
abbrev Task (V : Type) := Matcher V × List Loc

/-- The first task may have to be done for the second one. -/
inductive Subtask (g : Grammar V) (cst : Cst) : Task V → Task V → Prop
  | text {inner : Matcher V} {loc item : Loc} {rest : List Loc} {spans : List (TextSpan Loc)}
    (hnode : cst.node? loc = some (.text spans)) (hitem : .embed item ∈ spans) :
    Subtask g cst (inner, [item]) (.text inner, loc :: rest)
  | list {kind : ListMatch} {inner : Matcher V} {role : Option Role} {loc : Loc} {rest : List Loc}
    {found : ListKind} {children : List Loc} {multiline : Bool}
    (hnode : cst.node? loc = some (.list found children multiline)) :
    Subtask g cst (inner, children) (.list kind inner role, loc :: rest)
  | table {kind : ListKind} {row : Matcher V} {loc : Loc} {rest cells : List Loc}
    {rows : List (List Loc)} {multiline : Bool}
    (hnode : cst.node? loc = some (.table kind rows multiline)) (hcells : cells ∈ rows) :
    Subtask g cst (row, cells) (.table kind row, loc :: rest)
  /-- If nothing was taken, all earlier items idled. -/
  | seq {before after : List (Matcher V)} {m : Matcher V} {nodes mid : List Loc}
    (hmid : mid <:+ nodes) (hidle : mid = nodes → ∀ i ∈ before, MayIdle g i) :
    Subtask g cst (m, mid) (.seq (before ++ m :: after), nodes)
  | or {items : List (Matcher V)} {m : Matcher V} {nodes : List Loc} (hm : m ∈ items) :
    Subtask g cst (m, nodes) (.or items, nodes)
  | star {inner : Matcher V} {nodes mid : List Loc} (hmid : mid <:+ nodes) :
    Subtask g cst (inner, mid) (.star inner, nodes)
  | opt {inner : Matcher V} {nodes : List Loc} : Subtask g cst (inner, nodes) (.opt inner, nodes)
  | group {name : String} {inner : Matcher V} {nodes : List Loc} :
    Subtask g cst (inner, nodes) (.group name inner, nodes)
  | ref {rule : String} {name : Option String} {target : Matcher V} {nodes : List Loc}
    (hrule : g.rule? rule = some target) : Subtask g cst (target, nodes) (.ref rule name, nodes)
  | tx {inner : Matcher V} {build : Bindings V → Region → Option V} {nodes : List Loc} :
    Subtask g cst (inner, nodes) (.tx inner build, nodes)

theorem size_pos (m : Matcher V) : 0 < m.size := by
  cases m <;> simp [size]

theorem sizeAll_append (ms ms' : List (Matcher V)) :
    sizeAll (ms ++ ms') = sizeAll ms + sizeAll ms' := by
  induction ms with
  | nil => simp [sizeAll]
  | cons m ms ih => rw [List.cons_append, sizeAll, sizeAll, ih, Nat.add_assoc]

theorem sizeAll_le_of_sublist {ms ms' : List (Matcher V)} (h : ms.Sublist ms') :
    sizeAll ms ≤ sizeAll ms' := by
  induction h with
  | slnil => exact Nat.le_refl _
  | cons m _ ih => exact Nat.le_trans ih (Nat.le_add_left _ _)
  | cons_cons m _ ih => exact Nat.add_le_add_left ih _

theorem size_le_sizeAll {m : Matcher V} {ms : List (Matcher V)} (hm : m ∈ ms) :
    m.size ≤ sizeAll ms :=
  sizeAll_le_of_sublist (List.singleton_sublist.mpr hm)

/-- A subtask is the task of a rule, or a part of the matcher on the same siblings, at its beginning,
or a part of the matcher with fewer nodes left. -/
theorem Subtask.cases {m m' : Matcher V} {nodes nodes' : List Loc}
    (h : Subtask g cst (m', nodes') (m, nodes)) :
    (∃ rule name, m = .ref rule name ∧ g.rule? rule = some m' ∧ nodes' = nodes) ∨
    m'.size < m.size ∧ (nodes' = nodes ∧ (∀ rule, Begins g m' rule → Begins g m rule) ∨
      ∀ n, cst.Counts nodes n → ∃ n' < n, cst.Counts nodes' n') := by
  cases h with
  | text hnode hitem =>
    refine .inr ⟨by simp [size], .inr fun n hn => hn.descend ?_⟩
    rw [List.singleton_sublist, Cst.children, hnode]
    exact List.mem_filterMap.mpr ⟨_, hitem, rfl⟩
  | list hnode =>
    refine .inr ⟨by simp [size], .inr fun n hn => hn.descend ?_⟩
    rw [Cst.children, hnode]
    exact List.Sublist.refl _
  | table hnode hcells =>
    refine .inr ⟨by simp [size], .inr fun n hn => hn.descend ?_⟩
    rw [Cst.children, hnode]
    exact List.sublist_flatten_of_mem hcells
  | @seq before after _ _ _ hmid hidle =>
    have hsize : m'.size ≤ sizeAll (before ++ m' :: after) := size_le_sizeAll (by simp)
    refine .inr ⟨by rw [size]; omega, ?_⟩
    -- Items that idled leave the next one at the beginning; any other item has taken nodes.
    by_cases htaken : nodes' = nodes
    · exact .inl ⟨htaken, fun rule hrule => .seq (hidle htaken) hrule⟩
    · exact .inr fun n hn => hn.suffix hmid htaken
  | or hm =>
    have hsize := size_le_sizeAll hm
    exact .inr ⟨by rw [size]; omega, .inl ⟨rfl, fun rule hrule => .or hm hrule⟩⟩
  | star hmid =>
    refine .inr ⟨by simp [size], ?_⟩
    by_cases htaken : nodes' = nodes
    · exact .inl ⟨htaken, fun rule hrule => .star hrule⟩
    · exact .inr fun n hn => hn.suffix hmid htaken
  | opt => exact .inr ⟨by simp [size], .inl ⟨rfl, fun rule hrule => .opt hrule⟩⟩
  | group => exact .inr ⟨by simp [size], .inl ⟨rfl, fun rule hrule => .group hrule⟩⟩
  | ref hrule => exact .inl ⟨_, _, rfl, hrule, rfl⟩
  | tx => exact .inr ⟨by simp [size], .inl ⟨rfl, fun rule hrule => .tx hrule⟩⟩

end Matcher

/-! ## Ranked grammars -/

namespace Grammar

open Matcher

variable {V : Type} {g : Grammar V} {rank : String → Nat} {top k : Nat} {cst : Cst}

/-- Before it has taken a node, a rule asks for rules of a lower rank only. -/
structure Ranked (g : Grammar V) (rank : String → Nat) (top : Nat) : Prop where
  lt_top (rule : String) : rank rule < top
  descends (name rule : String) (m : Matcher V) (hrule : g.rule? name = some m)
    (hbegins : m.Begins g rule) : rank rule < rank name

/-- A rule may ask for another one before it has taken a node. -/
def Leads (g : Grammar V) (name rule : String) : Prop :=
  ∃ m, g.rule? name = some m ∧ m.Begins g rule

/-- No rule of a ranked grammar leads back to itself. -/
theorem Ranked.not_leads_self (h : g.Ranked rank top) (name : String) :
    ¬Relation.TransGen g.Leads name name := by
  have hdescends {name rule : String} (hleads : Relation.TransGen g.Leads name rule) :
      rank rule < rank name := by
    induction hleads with
    | single hstep =>
      obtain ⟨m, hrule, hbegins⟩ := hstep
      exact h.descends _ _ m hrule hbegins
    | tail _ hstep ih =>
      obtain ⟨m, hrule, hbegins⟩ := hstep
      exact Nat.lt_trans (h.descends _ _ m hrule hbegins) ih
  exact fun hcycle => Nat.lt_irrefl _ (hdescends hcycle)

theorem mem_rules {name : String} {m : Matcher V} (hrule : g.rule? name = some m) :
    (name, m) ∈ g.rules.entries :=
  (Dict.mem_entries_iff _ _ _).2 hrule

/-- The number of combinators in the rules of a rank below `k`. -/
def sizeBelow (g : Grammar V) (rank : String → Nat) (k : Nat) : Nat :=
  sizeAll ((g.rules.entries.filter fun e => rank e.1 < k).map Prod.snd)

theorem sizeBelow_le (g : Grammar V) (rank : String → Nat) (k : Nat) :
    g.sizeBelow rank k ≤ g.size :=
  sizeAll_le_of_sublist (List.filter_sublist.map Prod.snd)

/-- A rule is below the ranks above its own, together with all rules below it. -/
theorem sizeBelow_rule {name : String} {m : Matcher V} (hrule : g.rule? name = some m)
    (hk : rank name < k) : g.sizeBelow rank (rank name) + m.size ≤ g.sizeBelow rank k := by
  -- The rule counts on the right only; every other rule that counts on the left counts there too.
  obtain ⟨before, after, hentries⟩ := List.append_of_mem (mem_rules hrule)
  have hpart (entries : List (String × Matcher V)) :
      sizeAll ((entries.filter fun e => rank e.1 < rank name).map Prod.snd) ≤
        sizeAll ((entries.filter fun e => rank e.1 < k).map Prod.snd) := by
    refine sizeAll_le_of_sublist ((List.monotone_filter_right entries fun e he => ?_).map Prod.snd)
    simp only [decide_eq_true_eq] at he ⊢
    omega
  have hbefore := hpart before
  have hafter := hpart after
  simp only [sizeBelow, hentries, List.filter_append, List.filter_cons, List.map_append, sizeAll_append,
    decide_eq_true_eq, if_pos hk, Nat.lt_irrefl, if_false, List.map_cons, sizeAll]
  omega

/-- Nested calls that suffice for a matcher that begins with rules of a rank below `k`, if `n` nodes
are left. -/
def callsFor (g : Grammar V) (rank : String → Nat) (n k : Nat) (m : Matcher V) : Nat :=
  n * g.size + g.sizeBelow rank k + m.size

/-- **A subtask takes fewer nested calls.** -/
theorem Ranked.subtask (h : g.Ranked rank top) {m m' : Matcher V} {nodes nodes' : List Loc} {n : Nat}
    (hsub : Subtask g cst (m', nodes') (m, nodes)) (hnodes : cst.Counts nodes n)
    (hbegins : ∀ rule, m.Begins g rule → rank rule < k) :
    ∃ n' k', cst.Counts nodes' n' ∧ (∀ rule, m'.Begins g rule → rank rule < k') ∧
      g.callsFor rank n' k' m' < g.callsFor rank n k m := by
  rcases hsub.cases with ⟨rule, name, rfl, hrule, rfl⟩ | ⟨hsize, ⟨rfl, hbegins'⟩ | hfewer⟩
  · -- A rule begins with rules of a lower rank than its own.
    refine ⟨n, rank rule, hnodes, fun rule' => h.descends rule rule' m' hrule, ?_⟩
    have hbelow := sizeBelow_rule hrule (hbegins rule (.ref rule name))
    simp only [callsFor, Matcher.size]
    omega
  · refine ⟨n, k, hnodes, fun rule hrule => hbegins rule (hbegins' rule hrule), ?_⟩
    simp only [callsFor]
    omega
  · -- With fewer nodes left, all rules may be asked for again.
    obtain ⟨n', hlt, hcounts⟩ := hfewer n hnodes
    refine ⟨n', top, hcounts, fun rule _ => h.lt_top rule, ?_⟩
    have hmul : (n' + 1) * g.size ≤ n * g.size := Nat.mul_le_mul_right _ hlt
    have htop := g.sizeBelow_le rank top
    rw [Nat.succ_mul] at hmul
    simp only [callsFor]
    omega

/-- What a ranked grammar asks for, is asked for in turn and so on, has an end. -/
theorem Ranked.wellFounded_subtask (h : g.Ranked rank top)
    (hcst : ∀ nodes, ∃ n, cst.Counts nodes n) : WellFounded (Subtask g cst) := by
  have hacc (calls : Nat) (m : Matcher V) (nodes : List Loc) (n k : Nat) (hnodes : cst.Counts nodes n)
      (hbegins : ∀ rule, m.Begins g rule → rank rule < k) (hcalls : g.callsFor rank n k m ≤ calls) :
      Acc (Subtask g cst) (m, nodes) := by
    -- On nested calls and not on nodes: a rule that is asked for has as many nodes left.
    induction calls generalizing m nodes n k with
    | zero =>
      have hpos := m.size_pos
      simp only [callsFor] at hcalls
      omega
    | succ calls ih =>
      refine ⟨_, fun task hsub => ?_⟩
      obtain ⟨m', nodes'⟩ := task
      obtain ⟨n', k', hnodes', hbegins', hlt⟩ := h.subtask hsub hnodes hbegins
      exact ih m' nodes' n' k' hnodes' hbegins' (by omega)
  refine ⟨fun task => ?_⟩
  obtain ⟨m, nodes⟩ := task
  obtain ⟨n, hnodes⟩ := hcst nodes
  exact hacc _ m nodes n top hnodes (fun rule _ => h.lt_top rule) (Nat.le_refl _)

end Grammar
end TypeTrace
