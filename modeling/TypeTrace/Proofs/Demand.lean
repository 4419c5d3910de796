import TypeTrace.Proofs.Termination

/-!
# Calls that have to be made

How many calls the engine has to nest.  A call that ends has made, one level further down, the calls that
its matcher asks for: an alternative if those before it fail, an item of a sequence if those before it
succeed.  So with the outcome of some matchers one can follow a run down, and the levels add up.

Whether a matcher fails is clear, in many cases, from the first of the siblings.  A matcher refuses a list
of some kind if whatever it can begin with is something else.

## Main definitions

* `Matcher.Fails`, `Matcher.Leaves`: matchers that always fail, or always succeed
* `Matcher.refuses`: matchers that never take a list of some kind first
* `Grammar.Needs`: a call that does not end unless another one, some levels down, does

## Main results

* `Matcher.Matches.refused`: where a list comes first, a matcher that refuses it fails
* `Grammar.Needs.trans`, `Grammar.Needs.or`, `Grammar.Needs.seq`: how a run is followed down
-/

namespace TypeTrace

/-! ## Computations that have ended -/

namespace MatchM

variable {V α β : Type} {s : MatchRecord V}

theorem exists_of_bind {m : MatchM V α} {f : α → MatchM V β} {p : β × MatchRecord V}
    (h : (m >>= f) s = some p) : ∃ a s', m s = some (a, s') ∧ f a s' = some p := by
  obtain ⟨⟨a, s'⟩, hm, hf⟩ := Option.bind_eq_some_iff.mp h
  exact ⟨a, s', hm, hf⟩

theorem exists_of_attempt {m : MatchM V (Option α)} {p : Option α × MatchRecord V}
    (h : attempt m s = some p) : ∃ s' p', m s' = some p' := by
  by_contra hnone
  have hm : m { s with unparsed := [] } = none :=
    Option.eq_none_iff_forall_ne_some.mpr fun p' hp' => hnone ⟨_, p', hp'⟩
  rw [attempt_eq_none hm] at h
  cases h

end MatchM

namespace Matcher

variable {V : Type} [MatchValue V] {g : Grammar V} {cst : Cst} {m : Matcher V}
  {before after : List (Matcher V)} {nodes mid rest : List Loc} {parent : Loc}

/-- The matcher never succeeds on the siblings. -/
def Fails (g : Grammar V) (cst : Cst) (m : Matcher V) (nodes : List Loc) (parent : Loc) : Prop :=
  ∀ r, Matches g cst m nodes parent r → r = none

/-- The matcher always succeeds on the siblings, and leaves `rest`. -/
def Leaves (g : Grammar V) (cst : Cst) (m : Matcher V) (nodes : List Loc) (parent : Loc)
    (rest : List Loc) : Prop :=
  ∀ r, Matches g cst m nodes parent r → ∃ gain, r = some gain ∧ gain.result.2 = rest

/-- One matcher after the other succeeds, and `rest` is left. -/
inductive Passes (g : Grammar V) (cst : Cst) (parent : Loc) :
    List (Matcher V) → List Loc → List Loc → Prop
  | nil (nodes : List Loc) : Passes g cst parent [] nodes nodes
  | cons {m : Matcher V} {ms : List (Matcher V)} {nodes mid rest : List Loc}
    (hm : Leaves g cst m nodes parent mid) (hms : Passes g cst parent ms mid rest) :
    Passes g cst parent (m :: ms) nodes rest

section Calls

variable {call : MatchCall V} {s : MatchRecord V}

/-- An alternative is tried if those before it fail. -/
theorem exists_of_stepOr (hcall : Follows g cst call)
    (hbefore : ∀ i ∈ before, Fails g cst i nodes parent) {p : MatchResult V × MatchRecord V}
    (h : stepOr call nodes parent (before ++ m :: after) s = some p) :
    ∃ s' p', call m nodes parent s' = some p' := by
  induction before generalizing s with
  | nil =>
    obtain ⟨r, s', hm, -⟩ := MatchM.exists_of_bind h
    exact ⟨s, (r, s'), hm⟩
  | cons i before ih =>
    obtain ⟨hi, hbefore⟩ := List.forall_mem_cons.mp hbefore
    obtain ⟨r, s', hr, hrest⟩ := MatchM.exists_of_bind h
    match r, hcall i nodes parent s r s' hr with
    | none, _ => exact ih hbefore hrest
    | some (v, rest), ⟨journal, bindings, hmatches, _⟩ => cases hi _ hmatches

/-- An item of a sequence is tried if those before it succeed. -/
theorem exists_of_stepSeq (hcall : Follows g cst call)
    (hbefore : Passes g cst parent before nodes mid) {p : Option (List V × List Loc) × MatchRecord V}
    (h : stepSeq call parent (before ++ m :: after) nodes s = some p) :
    ∃ s' p', call m mid parent s' = some p' := by
  induction hbefore generalizing s p with
  | nil nodes =>
    obtain ⟨r, s', hm, -⟩ := MatchM.exists_of_bind h
    exact ⟨s, (r, s'), hm⟩
  | @cons i before nodes mid rest hi _ ih =>
    obtain ⟨r, s', hr, hrest⟩ := MatchM.exists_of_bind h
    match r, hcall i nodes parent s r s' hr with
    | none, ⟨hmatches, _⟩ =>
      obtain ⟨gain, hgain, -⟩ := hi _ hmatches
      cases hgain
    | some (v, mid), ⟨journal, bindings, hmatches, _⟩ =>
      obtain ⟨gain, hgain, hmid⟩ := hi _ hmatches
      cases hgain
      cases hmid
      obtain ⟨r', s'', hseq, -⟩ := MatchM.exists_of_bind hrest
      exact ih hseq

end Calls

/-! ## Matchers that refuse a list -/

mutual

/-- The matcher never takes a list of the given kind first, if the given rules never do. -/
def refuses (kind : ListKind) (rules : List String) : Matcher V → Bool
  | kwd .. | id _ | number | text _ | table .. => true
  | list accepted _ _ => !accepted.accepts kind
  | ref rule _ => rules.contains rule
  | any | star _ | opt _ => false
  | group _ inner | tx inner _ => inner.refuses kind rules
  | seq items => firstRefuses kind rules items
  | or items => allRefuse kind rules items

/-- The first of the matchers never takes such a list first. -/
def firstRefuses (kind : ListKind) (rules : List String) : List (Matcher V) → Bool
  | [] => false
  | m :: _ => m.refuses kind rules

/-- None of the matchers takes such a list first. -/
def allRefuse (kind : ListKind) (rules : List String) : List (Matcher V) → Bool
  | [] => true
  | m :: ms => m.refuses kind rules && allRefuse kind rules ms

end

/-- The given rules never take a list of the given kind first. -/
def RulesRefuse (g : Grammar V) (kind : ListKind) (rules : List String) : Prop :=
  ∀ name ∈ rules, ∀ m, g.rule? name = some m → m.refuses kind rules = true

section Refusals

variable {kind : ListKind} {rules : List String} {children : List Loc} {multiline : Bool}

mutual

/-- Where a list of the given kind comes first, a matcher that refuses it fails. -/
theorem Matches.refused (hg : RulesRefuse g kind rules) {m : Matcher V} {nodes : List Loc} {parent : Loc}
    {r : Verdict V} (h : Matches g cst m nodes parent r) (hm : m.refuses kind rules = true)
    (hnode : firstNode? cst nodes = some (.list kind children multiline)) : r = none :=
  match h with
  | .kwd .. | .id .. | .number .. => takeWord_eq_none (by simp [hnode]) _
  | .textMiss _ | .listMiss _ | .tableMiss _ | .refMiss _ => rfl
  | .text hnode' _ | .table hnode' _ => by cases hnode'.symm.trans hnode
  | .list hnode' hkind _ => by
    cases hnode'.symm.trans hnode
    simp [refuses, hkind] at hm
  | .seq hitems => by rw [hitems.refused hg hm hnode]; rfl
  | .or hitems => hitems.refused hg hm hnode
  | .group hinner => by rw [hinner.refused hg hm hnode]; rfl
  | .ref hrule htarget => by
    rw [htarget.refused hg (hg _ (List.contains_iff_mem.mp hm) _ hrule) hnode]
    rfl
  | .tx hinner => by rw [hinner.refused hg hm hnode]; rfl
  | .any .. | .star _ | .opt _ => nomatch hm
termination_by structural h

theorem MatchesAll.refused (hg : RulesRefuse g kind rules) {ms : List (Matcher V)} {nodes : List Loc}
    {parent : Loc} {r : Option (Gain V (List V × List Loc))} (h : MatchesAll g cst ms nodes parent r)
    (hms : firstRefuses kind rules ms = true)
    (hnode : firstNode? cst nodes = some (.list kind children multiline)) : r = none :=
  match h with
  | .nil .. => nomatch hms
  | .stop _ => rfl
  | .cons hhead _ => nomatch hhead.refused hg hms hnode
termination_by structural h

theorem MatchesFirst.refused (hg : RulesRefuse g kind rules) {ms : List (Matcher V)} {nodes : List Loc}
    {parent : Loc} {r : Verdict V} (h : MatchesFirst g cst ms nodes parent r)
    (hms : allRefuse kind rules ms = true)
    (hnode : firstNode? cst nodes = some (.list kind children multiline)) : r = none :=
  match h with
  | .nil .. => rfl
  | .hit hhead => nomatch hhead.refused hg (Bool.and_eq_true_iff.mp hms).1 hnode
  | .next _ htail => htail.refused hg (Bool.and_eq_true_iff.mp hms).2 hnode
termination_by structural h

end

theorem fails_of_refuses (hg : RulesRefuse g kind rules) (hm : m.refuses kind rules = true)
    (hnode : firstNode? cst nodes = some (.list kind children multiline)) : Fails g cst m nodes parent :=
  fun _ h => h.refused hg hm hnode

end Refusals

/-! ## Matchers that succeed -/

theorem leaves_kwd {word : String} {l : Loc} (role : Role) (hnode : cst.node? l = some (.id word)) :
    Leaves g cst (.kwd word role) (l :: rest) parent rest := by
  intro r h
  have htake := (Matches.kwd word role (l :: rest) parent).unique h
  simp only [takeWord, takeFirst, hnode, if_true, Option.map_some] at htake
  exact ⟨_, htake.symm, rfl⟩

/-- A repetition in an empty list succeeds. -/
theorem leaves_emptyList {kind : ListMatch} {name : String} {inner : Matcher V} {role : Option Role}
    {l : Loc} {found : ListKind} {multiline : Bool} (hnode : cst.node? l = some (.list found [] multiline))
    (hkind : kind.accepts found = true) :
    Leaves g cst (.list kind (.group name (.star inner)) role) (l :: rest) parent rest := by
  intro r h
  cases h with
  | list hnode' _ hinner =>
    cases hnode'.symm.trans hnode
    cases hinner with
    | group hstar =>
      cases hstar with
      | @star _ _ _ gain hrounds =>
        obtain ⟨⟨vs, left⟩, journal, bindings⟩ := gain
        obtain rfl : left = [] := List.suffix_nil.mp hrounds.suffix
        exact ⟨_, rfl, rfl⟩
  | listMiss hmiss => exact absurd hkind (hmiss _ _ _ hnode)

end Matcher

namespace Grammar

open MatchM Matcher

variable {V : Type} [MatchValue V] {g : Grammar V} {cst : Cst} {m : Matcher V} {nodes : List Loc}
  {parent : Loc}

/-- A matcher, the siblings that it has to match, and their parent. -/
abbrev Call (V : Type) := Matcher V × List Loc × Loc

/-- With the given bound on nested calls the call ends, from some record. -/
def Ends (g : Grammar V) (cst : Cst) (fuel : Nat) (c : Call V) : Prop :=
  ∃ s p, g.match? cst fuel c.1 c.2.1 c.2.2 s = some p

/-- A call does not end unless another one, nested `k` deep in it, does. -/
def Needs (g : Grammar V) (cst : Cst) (k : Nat) (c c' : Call V) : Prop :=
  ∀ fuel, g.Ends cst fuel c → ∃ fuel', fuel = fuel' + k ∧ g.Ends cst fuel' c'

namespace Needs

variable {k k' : Nat} {c c' c'' : Call V}

theorem refl (c : Call V) : g.Needs cst 0 c c := fun fuel h => ⟨fuel, rfl, h⟩

theorem trans (h : g.Needs cst k c c') (h' : g.Needs cst k' c' c'') : g.Needs cst (k + k') c c'' := by
  intro fuel hends
  obtain ⟨fuel', rfl, hends'⟩ := h fuel hends
  obtain ⟨fuel'', rfl, hends''⟩ := h' fuel' hends'
  exact ⟨fuel'', by omega, hends''⟩

/-- What one combinator has to call. -/
theorem of_step (h : ∀ call s p, Follows g cst call → m.step call g cst nodes parent s = some p →
    ∃ s' p', call c'.1 c'.2.1 c'.2.2 s' = some p') : g.Needs cst 1 (m, nodes, parent) c' := by
  rintro fuel ⟨s, p, hrun⟩
  cases fuel with
  | zero => cases hrun
  | succ fuel =>
    obtain ⟨s', p', hstep⟩ := exists_of_attempt hrun
    exact ⟨fuel, rfl, h _ s' p' (match?_follows g cst fuel) hstep⟩

theorem or (before : List (Matcher V)) (m : Matcher V) (after : List (Matcher V))
    (hbefore : ∀ i ∈ before, Fails g cst i nodes parent) :
    g.Needs cst 1 (.or (before ++ m :: after), nodes, parent) (m, nodes, parent) :=
  of_step fun _ _ _ hcall hstep => exists_of_stepOr hcall hbefore hstep

theorem seq (before : List (Matcher V)) (m : Matcher V) (after : List (Matcher V)) {mid : List Loc}
    (hbefore : Passes g cst parent before nodes mid) :
    g.Needs cst 1 (.seq (before ++ m :: after), nodes, parent) (m, mid, parent) := by
  refine of_step fun call s p hcall hstep => ?_
  obtain ⟨r, s', hseq, -⟩ := exists_of_bind hstep
  exact exists_of_stepSeq hcall hbefore hseq

theorem group (name : String) : g.Needs cst 1 (.group name m, nodes, parent) (m, nodes, parent) := by
  refine of_step fun call s p _ hstep => ?_
  obtain ⟨r, s', hinner, -⟩ := exists_of_bind hstep
  exact ⟨s, _, hinner⟩

theorem ref {rule : String} (name : Option String) (hrule : g.rule? rule = some m) :
    g.Needs cst 1 (.ref rule name, nodes, parent) (m, nodes, parent) := by
  refine of_step fun call s p _ hstep => ?_
  simp only [Matcher.step, hrule] at hstep
  obtain ⟨r, s', htarget, -⟩ := exists_of_bind hstep
  exact ⟨s, _, htarget⟩

theorem tx (build : Bindings V → Region → Option V) :
    g.Needs cst 1 (.tx m build, nodes, parent) (m, nodes, parent) := by
  refine of_step fun call s p _ hstep => ?_
  obtain ⟨_, _, -, hset⟩ := exists_of_bind hstep
  obtain ⟨_, s', -, hcall⟩ := exists_of_bind hset
  obtain ⟨r, _, hinner, -⟩ := exists_of_bind hcall
  exact ⟨s', _, hinner⟩

theorem list {kind : ListMatch} (role : Option Role) {l : Loc} {rest children : List Loc} {found : ListKind}
    {multiline : Bool} (hnode : cst.node? l = some (.list found children multiline))
    (hkind : kind.accepts found = true) :
    g.Needs cst 1 (.list kind m role, l :: rest, parent) (m, children, l) := by
  refine of_step fun call s p _ hstep => ?_
  simp only [Matcher.step, hnode, if_pos hkind] at hstep
  obtain ⟨r, s', hinner, -⟩ := exists_of_bind hstep
  exact ⟨s, _, hinner⟩

end Needs

end Grammar

end TypeTrace
