import TypeTrace.Proofs.Contracts
import TypeTrace.Proofs.Nesting
import TypeTrace.Proofs.Rollback

/-!
# Positions among siblings

A match starts at some position among siblings and takes those from there up to another position.  Whatever
the grammar, it never goes back and never beyond the last sibling, so what is left of the members of a list
or of a row can always be cut off there, and a builder is given the first and the last sibling that were
taken.  All roles that a match notes are those of the siblings it takes, or of nodes below them.  A
repetition goes on only after a round that took something, so the siblings bound the number of its rounds.

## Main definitions

* `Cst.Groups`: the siblings that a matcher may have to take completely
* `Matcher.Took`: what a match has taken, and where it noted roles
* `Matcher.Advances`: the same for a match from one position to another
* `Region.Ends`: the ends of the region between two positions
* `Matcher.Iterates`: a repetition begins some number of rounds

## Main results

* `Matcher.Matches.took`: a match notes roles of nodes that it takes, or below these
* `Matcher.Iterates.le`: a repetition has at most one round more than there are siblings
* `Grammar.match?_positions`: positions stay in range
-/

namespace TypeTrace

/-- The members of a list, or the cells of a row of a table. -/
def Cst.Groups (cst : Cst) (l : Loc) (siblings : List Loc) : Prop :=
  (∃ kind multiline, cst.node? l = some (.list kind siblings multiline)) ∨
  ∃ kind rows multiline, cst.node? l = some (.table kind rows multiline) ∧ siblings ∈ rows

namespace Cst

variable {cst : Cst} {l m : Loc}

theorem Groups.mem_children {siblings : List Loc} (h : cst.Groups l siblings) (hm : m ∈ siblings) :
    m ∈ cst.children l := by
  rcases h with ⟨kind, multiline, hnode⟩ | ⟨kind, rows, multiline, hnode, hrow⟩
  · simpa [children, hnode, Node.children] using hm
  · simpa [children, hnode, Node.children] using ⟨siblings, hrow, hm⟩

theorem mem_children_of_embed {spans : List (TextSpan Loc)}
    (hnode : cst.node? l = some (.text spans)) (hm : .embed m ∈ spans) : m ∈ cst.children l := by
  simp only [children, hnode, Node.children, Option.map_some, Option.getD_some, List.mem_filterMap]
  exact ⟨_, hm, rfl⟩

end Cst

namespace Matcher

variable {V : Type}

/-! ## What a match takes -/

/-- Some siblings were taken and `rest` is left, and all roles noted are those of siblings taken, or of nodes
below them. -/
def Took (cst : Cst) (nodes rest : List Loc) (journal : List (Loc × Role)) : Prop :=
  ∃ taken, nodes = taken ++ rest ∧ ∀ e ∈ journal, ∃ l ∈ taken, cst.Below l e.1

namespace Took

variable {cst : Cst} {nodes mid rest : List Loc} {journal journal' : List (Loc × Role)}

theorem nothing (nodes : List Loc) : Took cst nodes nodes [] := ⟨[], rfl, by simp⟩

theorem first {loc : Loc} (h : ∀ e ∈ journal, cst.Below loc e.1) : Took cst (loc :: rest) rest journal :=
  ⟨[loc], rfl, fun e he => ⟨loc, List.mem_cons_self, h e he⟩⟩

/-- First one match, then another one where it stopped. -/
theorem trans (h : Took cst nodes mid journal) (h' : Took cst mid rest journal') :
    Took cst nodes rest (journal' ++ journal) := by
  obtain ⟨taken, rfl, hbelow⟩ := h
  obtain ⟨taken', rfl, hbelow'⟩ := h'
  refine ⟨taken ++ taken', (List.append_assoc ..).symm, List.forall_mem_append.mpr ⟨?_, ?_⟩⟩
  all_goals intro e he
  · obtain ⟨l, hl, hle⟩ := hbelow' e he
    exact ⟨l, List.mem_append_right _ hl, hle⟩
  · obtain ⟨l, hl, hle⟩ := hbelow e he
    exact ⟨l, List.mem_append_left _ hl, hle⟩

/-- **A match that takes nothing notes nothing.** -/
theorem journal_eq_nil (h : Took cst nodes rest journal) (hidle : nodes.length ≤ rest.length) :
    journal = [] := by
  obtain ⟨taken, rfl, hbelow⟩ := h
  obtain rfl : taken = [] := by
    rw [List.length_append] at hidle
    exact List.length_eq_zero_iff.mp (by omega)
  refine List.eq_nil_iff_forall_not_mem.mpr fun e he => ?_
  obtain ⟨l, hl, -⟩ := hbelow e he
  cases hl

end Took

section

variable [MatchValue V] {g : Grammar V} {cst : Cst}

omit [MatchValue V] in
theorem took_of_takeFirst {nodes : List Loc} {accept : Loc → Option (V × List (Loc × Role))}
    {gain : Gain V (V × List Loc)} (h : gain ∈ takeFirst nodes accept)
    (hnoted : ∀ loc v journal, accept loc = some (v, journal) → ∀ e ∈ journal, e.1 = loc) :
    Took cst nodes gain.result.2 gain.journal := by
  obtain ⟨loc, rest, v, journal, rfl, haccept, rfl⟩ := mem_takeFirst h
  exact .first fun e he => hnoted loc v journal haccept e he ▸ .refl

omit [MatchValue V] in
theorem took_of_takeWord {nodes : List Loc} {accept : String → Loc → Option (V × List (Loc × Role))}
    {gain : Gain V (V × List Loc)} (h : gain ∈ takeWord cst nodes accept)
    (hnoted : ∀ word loc v journal, accept word loc = some (v, journal) → ∀ e ∈ journal, e.1 = loc) :
    Took cst nodes gain.result.2 gain.journal := by
  obtain ⟨loc, rest, word, v, journal, rfl, -, haccept, rfl⟩ := mem_takeWord h
  exact .first fun e he => hnoted word loc v journal haccept e he ▸ .refl

mutual

/-- **A match notes roles of the siblings that it takes, or of nodes below them.** -/
theorem Matches.took {m : Matcher V} {nodes : List Loc} {parent : Loc} {r : Verdict V}
    (h : Matches g cst m nodes parent r) : ∀ gain ∈ r, Took cst nodes gain.result.2 gain.journal :=
  match h with
  | .any .. => fun gain hgain => took_of_takeFirst hgain fun loc v journal haccept => by
    cases haccept
    simp
  | .kwd .. => fun gain hgain => took_of_takeWord hgain fun word loc v journal haccept => by
    split at haccept
    · cases haccept
      simp
    · cases haccept
  | .id role .. => fun gain hgain => took_of_takeWord hgain fun word loc v journal haccept => by
    split at haccept
    · cases haccept
    · cases haccept
      cases role <;> simp
  | .number .. => fun gain hgain => took_of_takeWord hgain fun word loc v journal haccept => by
    split at haccept
    · cases haccept
      simp
    · cases haccept
  -- What is noted inside a node is below it, and the node is the sibling that is taken.
  | .textMiss _ | .listMiss _ | .tableMiss _ | .refMiss _ => nofun
  | .text hnode hspans => fun gain hgain => by
    obtain ⟨inner, hmem, rfl⟩ := Option.map_eq_some_iff.mp hgain
    refine .first fun e he => ?_
    obtain ⟨item, hitem, hbelow⟩ := hspans.noted inner hmem e he
    exact .head (Cst.mem_children_of_embed hnode hitem) hbelow
  | @Matches.list _ _ _ _ _ _ role loc _ _ _ children _ _ hnode _ hinner => fun gain hgain => by
    obtain ⟨⟨⟨v, left⟩, journal, bindings⟩, hmem, hinside⟩ := Option.bind_eq_some_iff.mp hgain
    cases left with
    | cons => cases hinside
    | nil =>
      cases hinside
      refine .first (List.forall_mem_append.mpr ⟨fun e he => ?_, fun e he => ?_⟩)
      · -- The role of the list itself.
        obtain ⟨_, -, rfl⟩ := List.mem_map.mp he
        exact .refl
      · obtain ⟨taken, htaken, hbelow⟩ := hinner.took _ hmem
        obtain ⟨l, hl, hle⟩ := hbelow e he
        have hchild : l ∈ children := by
          rw [htaken]
          exact List.mem_append_left _ hl
        exact .head (Cst.Groups.mem_children (.inl ⟨_, _, hnode⟩) hchild) hle
  | .table hnode hrows => fun gain hgain => by
    obtain ⟨inner, hmem, rfl⟩ := Option.map_eq_some_iff.mp hgain
    refine .first fun e he => ?_
    obtain ⟨cells, hcells, l, hl, hle⟩ := hrows.noted inner hmem e he
    exact .head (Cst.Groups.mem_children (.inr ⟨_, _, _, hnode, hcells⟩) hl) hle
  | .seq hitems => fun gain hgain => by
    obtain ⟨inner, hmem, rfl⟩ := Option.map_eq_some_iff.mp hgain
    exact hitems.took inner hmem
  | .or hitems => hitems.took
  | .star hrounds => fun gain hgain => by
    cases hgain
    exact hrounds.took
  | .opt (r := none) _ => fun gain hgain => by
    obtain rfl := Option.some.inj hgain
    exact .nothing _
  | .opt (r := some inner) hinner => fun gain hgain => by
    obtain rfl := Option.some.inj hgain
    exact hinner.took inner rfl
  | .group hinner | .ref _ hinner => fun gain hgain => by
    obtain ⟨inner, hmem, rfl⟩ := Option.map_eq_some_iff.mp hgain
    exact hinner.took inner hmem
  | .tx hinner => fun gain hgain => by
    obtain ⟨inner, hmem, hbuild⟩ := Option.bind_eq_some_iff.mp hgain
    obtain ⟨v, -, rfl⟩ := Option.map_eq_some_iff.mp hbuild
    exact hinner.took inner hmem
termination_by structural h

theorem MatchesAll.took {ms : List (Matcher V)} {nodes : List Loc} {parent : Loc}
    {r : Option (Gain V (List V × List Loc))} (h : MatchesAll g cst ms nodes parent r) :
    ∀ gain ∈ r, Took cst nodes gain.result.2 gain.journal :=
  match h with
  | .nil .. => fun gain hgain => by
    cases hgain
    exact .nothing _
  | .stop _ => nofun
  | .cons hhead htail => fun gain hgain => by
    obtain ⟨inner, hmem, rfl⟩ := Option.map_eq_some_iff.mp hgain
    exact (hhead.took _ rfl).trans (htail.took inner hmem)
termination_by structural h

theorem MatchesFirst.took {ms : List (Matcher V)} {nodes : List Loc} {parent : Loc} {r : Verdict V}
    (h : MatchesFirst g cst ms nodes parent r) : ∀ gain ∈ r, Took cst nodes gain.result.2 gain.journal :=
  match h with
  | .nil .. => nofun
  | .hit hhead => hhead.took
  | .next _ htail => htail.took
termination_by structural h

/-- The round that ends a repetition takes and notes nothing. -/
theorem MatchesRounds.took {m : Matcher V} {nodes : List Loc} {parent : Loc}
    {gain : Gain V (List V × List Loc)} (h : MatchesRounds g cst m nodes parent gain) :
    Took cst nodes gain.result.2 gain.journal :=
  match h with
  | .stop _ | .idle .. => .nothing _
  | .more hround _ hrest => (hround.took _ rfl).trans hrest.took
termination_by structural h

theorem MatchesSpans.noted {m : Matcher V} {spans : List (TextSpan Loc)}
    {r : Option (Gain V (List (TextSpan V)))} (h : MatchesSpans g cst m spans r) :
    ∀ gain ∈ r, ∀ e ∈ gain.journal, ∃ item, .embed item ∈ spans ∧ cst.Below item e.1 :=
  match h with
  | .nil _ => fun gain hgain => by
    cases hgain
    simp
  | .text hrest => fun gain hgain e he => by
    obtain ⟨inner, hmem, rfl⟩ := Option.map_eq_some_iff.mp hgain
    obtain ⟨item, hitem, hbelow⟩ := hrest.noted inner hmem e he
    exact ⟨item, List.mem_cons_of_mem _ hitem, hbelow⟩
  | .stop .. => nofun
  | @MatchesSpans.embed _ _ _ _ _ item _ _ _ _ _ hitem hrest => fun gain hgain => by
    obtain ⟨inner, hmem, rfl⟩ := Option.map_eq_some_iff.mp hgain
    refine List.forall_mem_append.mpr ⟨fun e he => ?_, fun e he => ?_⟩
    · obtain ⟨item', hitem', hbelow⟩ := hrest.noted inner hmem e he
      exact ⟨item', List.mem_cons_of_mem _ hitem', hbelow⟩
    -- An embedded item is matched as the only sibling, and is taken.
    · obtain ⟨taken, htaken, hbelow⟩ := hitem.took _ rfl
      obtain ⟨l, hl, hle⟩ := hbelow e he
      obtain rfl : [item] = taken := htaken.trans (List.append_nil taken)
      obtain rfl := List.mem_singleton.mp hl
      exact ⟨l, List.mem_cons_self, hle⟩
termination_by structural h

theorem MatchesRows.noted {m : Matcher V} {table : Loc} {rows : List (List Loc)}
    {r : Option (Gain V (List V))} (h : MatchesRows g cst m table rows r) :
    ∀ gain ∈ r, ∀ e ∈ gain.journal, ∃ cells ∈ rows, ∃ l ∈ cells, cst.Below l e.1 :=
  match h with
  | .nil .. => fun gain hgain => by
    cases hgain
    simp
  | .stop .. => nofun
  | @MatchesRows.row _ _ _ _ _ _ cells _ _ _ _ _ hrow hrest => fun gain hgain => by
    obtain ⟨inner, hmem, rfl⟩ := Option.map_eq_some_iff.mp hgain
    refine List.forall_mem_append.mpr ⟨fun e he => ?_, fun e he => ?_⟩
    · obtain ⟨cells', hcells', hbelow⟩ := hrest.noted inner hmem e he
      exact ⟨cells', List.mem_cons_of_mem _ hcells', hbelow⟩
    · obtain ⟨taken, htaken, hbelow⟩ := hrow.took _ rfl
      obtain rfl : cells = taken := htaken.trans (List.append_nil taken)
      exact ⟨cells, List.mem_cons_self, hbelow e he⟩
termination_by structural h

end

end

/-! ## Positions -/

/-- A match has gone on from position `start` of the siblings `nodes` to position `stop`, and has noted roles
of siblings between the two, or of nodes below them. -/
structure Advances (cst : Cst) (nodes : List Loc) (start stop : Nat) (journal : List (Loc × Role)) : Prop where
  le : start ≤ stop
  le_length : stop ≤ nodes.length
  noted : ∀ e ∈ journal, ∃ i l, start ≤ i ∧ i < stop ∧ nodes[i]? = some l ∧ cst.Below l e.1
  idle : stop = start → journal = []

theorem Took.advances {cst : Cst} {nodes rest : List Loc} {start : Nat} {journal : List (Loc × Role)}
    (hstart : start ≤ nodes.length) (h : Took cst (nodes.drop start) rest journal) :
    ∃ stop, rest = nodes.drop stop ∧ Advances cst nodes start stop journal := by
  have hidle := h.journal_eq_nil
  obtain ⟨taken, htaken, hbelow⟩ := h
  have hlength := congrArg List.length htaken
  rw [List.length_drop, List.length_append] at hlength
  refine ⟨start + taken.length, ?_, ⟨Nat.le_add_right .., by omega, ?_, fun hstop => hidle ?_⟩⟩
  · rw [← List.drop_drop, htaken, List.drop_left]
  · intro e he
    obtain ⟨l, hl, hle⟩ := hbelow e he
    -- The `i`-th sibling taken is `i` positions after the start.
    obtain ⟨i, hi, rfl⟩ := List.getElem_of_mem hl
    refine ⟨start + i, taken[i], by omega, by omega, ?_, hle⟩
    rw [← List.getElem?_drop, htaken, List.getElem?_append_left hi, List.getElem?_eq_getElem hi]
  · rw [List.length_drop]
    omega

end Matcher

/-- The ends of the region from one position among siblings up to another one: the first and the last sibling
between the two, or the parent if there is none. -/
structure Region.Ends (r : Region) (nodes : List Loc) (start stop : Nat) (parent : Loc) : Prop where
  nothing : stop = start → r = ⟨parent, none⟩
  left : start < stop → nodes[start]? = some r.left
  last : start < stop → nodes[stop - 1]? = some r.last
  right : r.right = none ↔ stop ≤ start + 1

namespace Matcher

theorem regionOf_ends {taken : List Loc} (parent : Loc) (hne : taken ≠ []) :
    taken.head? = some (regionOf taken [] parent).left ∧
    taken.getLast? = some (regionOf taken [] parent).last ∧
    ((regionOf taken [] parent).right = none ↔ taken.length = 1) := by
  match taken with
  | [only] => simp [regionOf, Region.last]
  | first :: second :: more =>
    simp [regionOf, Region.last, List.getLast?_cons, List.getLastD_eq_getLast?]

theorem ends_regionOf {nodes : List Loc} {start stop : Nat} (parent : Loc) (hle : start ≤ stop)
    (hstop : stop ≤ nodes.length) :
    (regionOf (nodes.drop start) (nodes.drop stop) parent).Ends nodes start stop parent := by
  -- The siblings between the two positions, of which the region is made.
  obtain ⟨taken, htaken, hlength⟩ : ∃ taken, nodes.drop start = taken ++ nodes.drop stop ∧
      taken.length = stop - start := by
    refine ⟨(nodes.drop start).take (stop - start), ?_, ?_⟩
    · have hdrop : nodes.drop stop = (nodes.drop start).drop (stop - start) := by
        rw [List.drop_drop, Nat.add_sub_cancel' hle]
      rw [hdrop, List.take_append_drop]
    · rw [List.length_take, List.length_drop]
      omega
  have hget (i : Nat) (hi : i < stop - start) : nodes[start + i]? = taken[i]? := by
    rw [← List.getElem?_drop, htaken, List.getElem?_append_left (by omega)]
  rw [htaken, regionOf_append]
  rcases eq_or_ne taken [] with rfl | hne
  · have hstop : stop = start := by
      rw [List.length_nil] at hlength
      omega
    exact ⟨fun _ => rfl, fun h => by omega, fun h => by omega, ⟨fun _ => by omega, fun _ => rfl⟩⟩
  · have hpos := List.length_pos_iff.mpr hne
    obtain ⟨hhead, hlast, hright⟩ := regionOf_ends parent hne
    refine ⟨fun h => by omega, fun h => ?_, fun h => ?_, ?_⟩
    · rw [← hhead, List.head?_eq_getElem?, ← hget 0 (by omega), Nat.add_zero]
    · rw [← hlast, List.getLast?_eq_getElem?, ← hget _ (by omega)]
      congr 1
      omega
    · rw [hright]
      omega

/-! ## Rounds of a repetition -/

variable {V : Type} (call : MatchCall V) (m : Matcher V) (parent : Loc)

/-- A repetition that starts with the given siblings and record begins at least `k` rounds: every round but
the last one succeeds and takes something. -/
inductive Iterates : List Loc → MatchRecord V → Nat → Prop
  | first (nodes : List Loc) (s : MatchRecord V) : Iterates nodes s 1
  | next {nodes mid : List Loc} {s s' : MatchRecord V} {v : V} {k : Nat}
    (hround : call m nodes parent s = some (some (v, mid), s')) (htaken : mid.length < nodes.length)
    (hrest : Iterates mid s' k) : Iterates nodes s (k + 1)

variable {call m parent}

/-- **A repetition has at most one round more than there are siblings.** -/
theorem Iterates.le {nodes : List Loc} {s : MatchRecord V} {k : Nat} (h : Iterates call m parent nodes s k) :
    k ≤ nodes.length + 1 := by
  induction h with
  | first => omega
  | next _ htaken _ ih => omega

/-- The bound on the rounds of a repetition is never what ends it. -/
theorem stepStar_eq (nodes : List Loc) (n n' : Nat) (hn : nodes.length < n)
    (hn' : nodes.length < n') :
    stepStar call m parent n nodes = stepStar call m parent n' nodes := by
  induction n generalizing nodes n' with
  | zero => exact absurd hn (Nat.not_lt_zero _)
  | succ n ih =>
    cases n' with
    | zero => exact absurd hn' (Nat.not_lt_zero _)
    | succ n' =>
      rw [stepStar, stepStar]
      refine bind_congr fun before => bind_congr fun r => ?_
      rcases r with _ | ⟨v, rest⟩
      · rfl
      · by_cases htaken : rest.length < nodes.length
        · simp only [if_pos htaken, ih rest n' (by omega) (by omega)]
        · simp only [if_neg htaken]

end Matcher

theorem MatchM.bind_apply {V α β : Type} {m : MatchM V α} {f : α → MatchM V β} {s s' : MatchRecord V}
    {a : α} (h : m s = some (a, s')) : (m >>= f) s = f a s' := by
  change (m s).bind _ = _
  rw [h]
  rfl

namespace Grammar

open MatchM Matcher

variable {V : Type} [MatchValue V] (g : Grammar V) (cst : Cst)

/-- A match that succeeds has gone on to a later position, or none. -/
theorem match?_advances {fuel : Nat} {m : Matcher V} {nodes : List Loc} {start : Nat}
    (hstart : start ≤ nodes.length) {parent : Loc} {record record' : MatchRecord V} {v : V} {rest : List Loc}
    (h : g.match? cst fuel m (nodes.drop start) parent record = some (some (v, rest), record')) :
    ∃ stop journal, rest = nodes.drop stop ∧ Advances cst nodes start stop journal ∧
      record'.journal = journal ++ record.journal := by
  obtain ⟨journal, bindings, hmatch, rfl⟩ := match?_follows g cst fuel m _ parent record _ _ h
  obtain ⟨stop, hrest, hadvances⟩ := (hmatch.took _ rfl).advances hstart
  exact ⟨stop, journal, hrest, hadvances, rfl⟩

/-- A builder is called with the parts named inside, and with the region of the siblings taken. -/
theorem match?_tx {fuel : Nat} {inner : Matcher V} {build : Bindings V → Region → Option V}
    {nodes : List Loc} {parent : Loc} {record record' : MatchRecord V} {v : V} {rest : List Loc}
    (h : g.match? cst fuel inner nodes parent ⟨record.journal, [], []⟩ = some (some (v, rest), record')) :
    ∃ record'', g.match? cst (fuel + 1) (.tx inner build) nodes parent record =
      some ((build record'.bindings (regionOf nodes rest parent)).map (·, rest), record'') := by
  -- The match is attempted without a report, and the names from outside are kept from the builder.
  have hstep : Matcher.step (g.match? cst fuel) g cst (.tx inner build) nodes parent
      { record with unparsed := [] } =
      some ((build record'.bindings (regionOf nodes rest parent)).map (·, rest),
        { record' with bindings := record.bindings }) := by
    rw [Matcher.step, bind_apply rfl, bind_apply rfl, bind_apply h, bind_apply rfl, bind_apply rfl]
    dsimp only
    cases build record'.bindings (regionOf nodes rest parent) with
    | none => rfl
    | some v => rfl
  refine (show ∃ record'', attempt _ record = _ from ?_)
  rw [attempt, bind_apply rfl, bind_apply rfl, bind_apply hstep]
  cases build record'.bindings (regionOf nodes rest parent) with
  | none => exact ⟨_, rfl⟩
  | some v => exact ⟨_, rfl⟩

/-- **Positions stay in range.**  Whatever the grammar and the tree, a match that starts at a position among
siblings and succeeds has gone on to a position that is not before it and not beyond the last sibling, where
what is left begins; all roles noted are those of siblings between the two positions or of nodes below them,
and there are none if the two are the same.  A builder is called for the region that ends with the first and
the last sibling between the two, or that is the parent.  A repetition begins at most one round more than
there are siblings from its position on, so a bound of that many rounds is as good as any greater one. -/
theorem match?_positions (fuel : Nat) (nodes : List Loc) (start : Nat) (hstart : start ≤ nodes.length)
    (parent : Loc) (record : MatchRecord V) :
    (∀ m v rest record',
      g.match? cst fuel m (nodes.drop start) parent record = some (some (v, rest), record') →
      ∃ stop journal, rest = nodes.drop stop ∧ Advances cst nodes start stop journal ∧
        record'.journal = journal ++ record.journal) ∧
    (∀ inner build v rest record',
      g.match? cst fuel inner (nodes.drop start) parent ⟨record.journal, [], []⟩ =
        some (some (v, rest), record') →
      ∃ stop region, (∃ journal, Advances cst nodes start stop journal) ∧
        region.Ends nodes start stop parent ∧
        ∃ record'', g.match? cst (fuel + 1) (.tx inner build) (nodes.drop start) parent record =
          some ((build record'.bindings region).map (·, nodes.drop stop), record'')) ∧
    ∀ inner, (∀ k, Iterates (g.match? cst fuel) inner parent (nodes.drop start) record k →
        k ≤ nodes.length - start + 1) ∧
      ∀ bound > nodes.length - start, stepStar (g.match? cst fuel) inner parent bound (nodes.drop start) =
        stepStar (g.match? cst fuel) inner parent (nodes.length - start + 1) (nodes.drop start) := by
  have hlength : (nodes.drop start).length = nodes.length - start := List.length_drop
  refine ⟨?_, ?_, fun inner => ⟨fun k hk => ?_, ?_⟩⟩
  · intro m v rest record' h
    exact match?_advances g cst hstart h
  · intro inner build v rest record' h
    obtain ⟨stop, journal, rfl, hadvances, -⟩ := match?_advances g cst hstart h
    exact ⟨stop, _, ⟨journal, hadvances⟩, ends_regionOf parent hadvances.le hadvances.le_length,
      match?_tx g cst h⟩
  · exact hlength ▸ hk.le
  · exact fun bound hbound => stepStar_eq _ _ _ (by omega) (by omega)

/-- From the second of two words on: a repetition takes this word and begins a second round after it, where it
stops, and a builder is called for the region of this word. -/
theorem match?_positions_twoWords :
    let g : Grammar Phrase := { rules := .empty, kwds := [] }
    let inner : Matcher Phrase := .kwd "b" .punct
    let build : Bindings Phrase → Region → Option Phrase := fun _ region => some (.word ⟨"b", region.left⟩)
    let record : MatchRecord Phrase := ⟨[(1, .decl)], [], []⟩
    g.match? twoWords 2 (.star inner) ([1, 2].drop 1) 0 record =
      some (some (.many [.word ⟨"b", 2⟩], []), ⟨[(2, .punct), (1, .decl)], [], []⟩) ∧
    (∃ stop journal, [] = [1, 2].drop stop ∧ Advances twoWords [1, 2] 1 stop journal ∧
      [(2, .punct), (1, .decl)] = journal ++ [(1, .decl)]) ∧
    (∃ stop region, (∃ journal, Advances twoWords [1, 2] 1 stop journal) ∧ region.Ends [1, 2] 1 stop 0 ∧
      ∃ record'', g.match? twoWords 3 (.tx inner build) ([1, 2].drop 1) 0 record =
        some ((build [] region).map (·, [1, 2].drop stop), record'')) ∧
    Iterates (g.match? twoWords 2) inner 0 ([1, 2].drop 1) record 2 ∧ 2 ≤ [1, 2].length - 1 + 1 := by
  intro g inner build record
  have hstar : g.match? twoWords 2 (.star inner) ([1, 2].drop 1) 0 record =
      some (some (.many [.word ⟨"b", 2⟩], []), ⟨[(2, .punct), (1, .decl)], [], []⟩) := by
    rfl
  have hround : g.match? twoWords 2 inner ([1, 2].drop 1) 0 record =
      some (some (.word ⟨"b", 2⟩, []), ⟨[(2, .punct), (1, .decl)], [], []⟩) := by
    rfl
  have hiterates : Iterates (g.match? twoWords 2) inner 0 ([1, 2].drop 1) record 2 :=
    .next hround (by decide) (.first ..)
  have hpositions := match?_positions g twoWords 2 [1, 2] 1 (by decide) 0 record
  exact ⟨hstar, hpositions.1 _ _ _ _ hstar, hpositions.2.1 inner build _ _ _ hround, hiterates,
    (hpositions.2.2 inner).1 2 hiterates⟩

end Grammar
end TypeTrace
