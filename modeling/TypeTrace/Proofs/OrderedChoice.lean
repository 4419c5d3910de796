import TypeTrace.Grammar.Engine

/-!
# Ordered choice

What a matcher does to the siblings that are left, said by rules that keep no record.  A match either
fails, or succeeds with a value, the siblings it leaves, the roles it notes and the parts it names.
A choice contributes what its first successful alternative contributes, and nothing of the others; a
repetition goes on as long as rounds succeed and take something, and the round that ends it
contributes nothing; a builder sees the parts named inside it, and none of them leaves.

A grammar may lead from a matcher back to itself, and then no rule gives an outcome.

## Main definitions

* `Gain`: what a successful match contributes
* `Matcher.Matches`: the rules, for one matcher

## Main results

* `Matcher.Matches.unique`: the rules allow one outcome only
* `Matcher.Matches.suffix`: a match takes siblings from the left
-/

namespace TypeTrace

/-- What a successful match contributes; of roles and named parts the latest come first. -/
structure Gain (V α : Type) where
  /-- The result. -/
  result : α
  /-- The roles noted. -/
  journal : List (Loc × Role)
  /-- The parts named. -/
  bindings : Bindings V

namespace Gain

variable {V α β : Type}

/-- Change the result. -/
def map (f : α → β) (gain : Gain V α) : Gain V β := ⟨f gain.result, gain.journal, gain.bindings⟩

/-- The gain together with what was noted and named before. -/
def after (gain : Gain V α) (journal : List (Loc × Role)) (bindings : Bindings V) : Gain V α :=
  ⟨gain.result, gain.journal ++ journal, gain.bindings ++ bindings⟩

/-- Name the value of a match, if there is a name for it. -/
def named (name : Option String) (gain : Gain V (V × α)) : Gain V (V × α) :=
  { gain with bindings := name.toList.map (·, gain.result.1) ++ gain.bindings }

end Gain

namespace Matcher

variable {V : Type}

/-- How a match ends: with a failure, or with a value and the siblings that are left. -/
abbrev Verdict (V : Type) := Option (Gain V (V × List Loc))

/-- Take the first sibling, if `accept` gives a value and roles for it. -/
def takeFirst (nodes : List Loc) (accept : Loc → Option (V × List (Loc × Role))) : Verdict V :=
  match nodes with
  | [] => none
  | loc :: rest => (accept loc).map fun (v, journal) => ⟨(v, rest), journal, []⟩

/-- Take the first sibling, if it is a word for which `accept` gives a value and roles. -/
def takeWord (cst : Cst) (nodes : List Loc)
    (accept : String → Loc → Option (V × List (Loc × Role))) : Verdict V :=
  takeFirst nodes fun loc =>
    match cst.node? loc with
    | some (.id found) => accept found loc
    | _ => none

/-- The first of some siblings. -/
def firstNode? (cst : Cst) (nodes : List Loc) : Option Node := nodes.head?.bind cst.node?

/-- What comes first is no word. -/
theorem takeWord_eq_none {cst : Cst} {nodes : List Loc}
    (h : ∀ word, firstNode? cst nodes ≠ some (.id word))
    (accept : String → Loc → Option (V × List (Loc × Role))) : takeWord cst nodes accept = none := by
  cases nodes with
  | nil => rfl
  | cons l rest =>
    rw [takeWord, takeFirst, Option.map_eq_none_iff]
    split
    · next word hword => exact absurd hword (h word)
    · rfl

/-- A match inside `loc` counts if it leaves nothing; the siblings after `loc` are then left. -/
def inside (loc : Loc) (role : Option Role) (rest : List Loc) (verdict : Verdict V) : Verdict V :=
  verdict.bind fun gain =>
    match gain.result with
    | (_, _ :: _) => none
    | (v, []) => some ⟨(v, rest), role.toList.map (loc, ·) ++ gain.journal, gain.bindings⟩

/-- A builder turns the parts named inside it into one value, and may refuse them. -/
def built (build : Bindings V → Region → Option V) (nodes : List Loc) (parent : Loc)
    (verdict : Verdict V) : Verdict V :=
  verdict.bind fun gain =>
    (build gain.bindings (regionOf nodes gain.result.2 parent)).map fun v =>
      ⟨(v, gain.result.2), gain.journal, []⟩

variable [MatchValue V] (g : Grammar V) (cst : Cst)

mutual

/-- How matching the siblings `nodes` of a node `parent` ends. -/
inductive Matches : Matcher V → List Loc → Loc → Verdict V → Prop
  | any (nodes : List Loc) (parent : Loc) :
    Matches .any nodes parent (takeFirst nodes fun loc => some (MatchValue.ofNode loc, []))
  | kwd (word : String) (role : Role) (nodes : List Loc) (parent : Loc) :
    Matches (.kwd word role) nodes parent (takeWord cst nodes fun found loc =>
      if found = word then some (MatchValue.ofId found loc, [(loc, role)]) else none)
  | id (role : Option Role) (nodes : List Loc) (parent : Loc) :
    Matches (.id role) nodes parent (takeWord cst nodes fun found loc =>
      if g.isKwd found || isDigits found then none
      else some (MatchValue.ofId found loc, role.toList.map (loc, ·)))
  | number (nodes : List Loc) (parent : Loc) :
    Matches .number nodes parent (takeWord cst nodes fun found loc =>
      if isDigits found && digitsValue found ≤ maxNumber then
        some (MatchValue.ofNumber (digitsValue found) loc, [])
      else none)
  | text {inner : Matcher V} {loc : Loc} {rest : List Loc} {parent : Loc}
    {spans : List (TextSpan Loc)} {r : Option (Gain V (List (TextSpan V)))}
    (hnode : cst.node? loc = some (.text spans)) (hspans : MatchesSpans inner spans r) :
    Matches (.text inner) (loc :: rest) parent
      (r.map (·.map fun vs => (MatchValue.ofText vs loc, rest)))
  | textMiss {inner : Matcher V} {nodes : List Loc} {parent : Loc}
    (h : ∀ spans, firstNode? cst nodes ≠ some (.text spans)) :
    Matches (.text inner) nodes parent none
  /-- The members have to be matched without a rest. -/
  | list {kind : ListMatch} {inner : Matcher V} {role : Option Role} {loc : Loc} {rest : List Loc}
    {parent : Loc} {found : ListKind} {children : List Loc} {multiline : Bool} {r : Verdict V}
    (hnode : cst.node? loc = some (.list found children multiline)) (hkind : kind.accepts found)
    (hinner : Matches inner children loc r) :
    Matches (.list kind inner role) (loc :: rest) parent (inside loc role rest r)
  | listMiss {kind : ListMatch} {inner : Matcher V} {role : Option Role} {nodes : List Loc}
    {parent : Loc}
    (h : ∀ found children multiline,
      firstNode? cst nodes = some (.list found children multiline) → ¬ kind.accepts found) :
    Matches (.list kind inner role) nodes parent none
  | table {kind : ListKind} {row : Matcher V} {loc : Loc} {rest : List Loc} {parent : Loc}
    {rows : List (List Loc)} {multiline : Bool} {r : Option (Gain V (List V))}
    (hnode : cst.node? loc = some (.table kind rows multiline)) (hrows : MatchesRows row loc rows r) :
    Matches (.table kind row) (loc :: rest) parent
      (r.map (·.map fun vs => (MatchValue.ofMany vs, rest)))
  | tableMiss {kind : ListKind} {row : Matcher V} {nodes : List Loc} {parent : Loc}
    (h : ∀ rows multiline, firstNode? cst nodes ≠ some (.table kind rows multiline)) :
    Matches (.table kind row) nodes parent none
  | seq {items : List (Matcher V)} {nodes : List Loc} {parent : Loc}
    {r : Option (Gain V (List V × List Loc))} (hitems : MatchesAll items nodes parent r) :
    Matches (.seq items) nodes parent (r.map (·.map fun p => (MatchValue.ofMany p.1, p.2)))
  | or {items : List (Matcher V)} {nodes : List Loc} {parent : Loc} {r : Verdict V}
    (hitems : MatchesFirst items nodes parent r) : Matches (.or items) nodes parent r
  | star {inner : Matcher V} {nodes : List Loc} {parent : Loc} {gain : Gain V (List V × List Loc)}
    (hrounds : MatchesRounds inner nodes parent gain) :
    Matches (.star inner) nodes parent (some (gain.map fun p => (MatchValue.ofMany p.1, p.2)))
  | opt {inner : Matcher V} {nodes : List Loc} {parent : Loc} {r : Verdict V}
    (hinner : Matches inner nodes parent r) :
    Matches (.opt inner) nodes parent (some (r.getD ⟨(MatchValue.absent, nodes), [], []⟩))
  | group {name : String} {inner : Matcher V} {nodes : List Loc} {parent : Loc} {r : Verdict V}
    (hinner : Matches inner nodes parent r) :
    Matches (.group name inner) nodes parent (r.map (·.named (some name)))
  | ref {rule : String} {name : Option String} {target : Matcher V} {nodes : List Loc} {parent : Loc}
    {r : Verdict V} (hrule : g.rule? rule = some target) (htarget : Matches target nodes parent r) :
    Matches (.ref rule name) nodes parent (r.map (·.named name))
  | refMiss {rule : String} {name : Option String} {nodes : List Loc} {parent : Loc}
    (hrule : g.rule? rule = none) : Matches (.ref rule name) nodes parent none
  | tx {inner : Matcher V} {build : Bindings V → Region → Option V} {nodes : List Loc} {parent : Loc}
    {r : Verdict V} (hinner : Matches inner nodes parent r) :
    Matches (.tx inner build) nodes parent (built build nodes parent r)

/-- All of the matchers, one after another. -/
inductive MatchesAll : List (Matcher V) → List Loc → Loc → Option (Gain V (List V × List Loc)) → Prop
  | nil (nodes : List Loc) (parent : Loc) : MatchesAll [] nodes parent (some ⟨([], nodes), [], []⟩)
  | stop {m : Matcher V} {ms : List (Matcher V)} {nodes : List Loc} {parent : Loc}
    (hhead : Matches m nodes parent none) : MatchesAll (m :: ms) nodes parent none
  | cons {m : Matcher V} {ms : List (Matcher V)} {nodes mid : List Loc} {parent : Loc} {v : V}
    {journal : List (Loc × Role)} {bindings : Bindings V} {r : Option (Gain V (List V × List Loc))}
    (hhead : Matches m nodes parent (some ⟨(v, mid), journal, bindings⟩))
    (htail : MatchesAll ms mid parent r) :
    MatchesAll (m :: ms) nodes parent
      (r.map fun gain => (gain.map fun p => (v :: p.1, p.2)).after journal bindings)

/-- The first of the matchers that succeeds. -/
inductive MatchesFirst : List (Matcher V) → List Loc → Loc → Verdict V → Prop
  | nil (nodes : List Loc) (parent : Loc) : MatchesFirst [] nodes parent none
  | hit {m : Matcher V} {ms : List (Matcher V)} {nodes : List Loc} {parent : Loc}
    {gain : Gain V (V × List Loc)} (hhead : Matches m nodes parent (some gain)) :
    MatchesFirst (m :: ms) nodes parent (some gain)
  | next {m : Matcher V} {ms : List (Matcher V)} {nodes : List Loc} {parent : Loc} {r : Verdict V}
    (hhead : Matches m nodes parent none) (htail : MatchesFirst ms nodes parent r) :
    MatchesFirst (m :: ms) nodes parent r

/-- As many rounds of a matcher as succeed and take something. -/
inductive MatchesRounds : Matcher V → List Loc → Loc → Gain V (List V × List Loc) → Prop
  | stop {m : Matcher V} {nodes : List Loc} {parent : Loc} (hround : Matches m nodes parent none) :
    MatchesRounds m nodes parent ⟨([], nodes), [], []⟩
  | idle {m : Matcher V} {nodes : List Loc} {parent : Loc} {gain : Gain V (V × List Loc)}
    (hround : Matches m nodes parent (some gain))
    (hidle : nodes.length ≤ gain.result.2.length) :
    MatchesRounds m nodes parent ⟨([], nodes), [], []⟩
  | more {m : Matcher V} {nodes mid : List Loc} {parent : Loc} {v : V}
    {journal : List (Loc × Role)} {bindings : Bindings V} {gain : Gain V (List V × List Loc)}
    (hround : Matches m nodes parent (some ⟨(v, mid), journal, bindings⟩))
    (htaken : mid.length < nodes.length) (hrest : MatchesRounds m mid parent gain) :
    MatchesRounds m nodes parent
      ((gain.map fun p => (v :: p.1, p.2)).after journal bindings)

/-- The embedded expressions of a string literal, each without a rest. -/
inductive MatchesSpans :
    Matcher V → List (TextSpan Loc) → Option (Gain V (List (TextSpan V))) → Prop
  | nil (m : Matcher V) : MatchesSpans m [] (some ⟨[], [], []⟩)
  | text {m : Matcher V} {s : String} {spans : List (TextSpan Loc)}
    {r : Option (Gain V (List (TextSpan V)))} (hrest : MatchesSpans m spans r) :
    MatchesSpans m (.text s :: spans) (r.map (·.map (.text s :: ·)))
  | stop {m : Matcher V} {item : Loc} {spans : List (TextSpan Loc)} {r : Verdict V}
    (hitem : Matches m [item] item r)
    (hstop : ∀ v journal bindings, r ≠ some ⟨(v, []), journal, bindings⟩) :
    MatchesSpans m (.embed item :: spans) none
  | embed {m : Matcher V} {item : Loc} {spans : List (TextSpan Loc)} {v : V}
    {journal : List (Loc × Role)} {bindings : Bindings V}
    {r : Option (Gain V (List (TextSpan V)))}
    (hitem : Matches m [item] item (some ⟨(v, []), journal, bindings⟩))
    (hrest : MatchesSpans m spans r) :
    MatchesSpans m (.embed item :: spans)
      (r.map fun gain => (gain.map (.embed v :: ·)).after journal bindings)

/-- The rows of a table, each without a rest. -/
inductive MatchesRows : Matcher V → Loc → List (List Loc) → Option (Gain V (List V)) → Prop
  | nil (m : Matcher V) (table : Loc) : MatchesRows m table [] (some ⟨[], [], []⟩)
  | stop {m : Matcher V} {table : Loc} {cells : List Loc} {rows : List (List Loc)} {r : Verdict V}
    (hrow : Matches m cells table r)
    (hstop : ∀ v journal bindings, r ≠ some ⟨(v, []), journal, bindings⟩) :
    MatchesRows m table (cells :: rows) none
  | row {m : Matcher V} {table : Loc} {cells : List Loc} {rows : List (List Loc)} {v : V}
    {journal : List (Loc × Role)} {bindings : Bindings V} {r : Option (Gain V (List V))}
    (hrow : Matches m cells table (some ⟨(v, []), journal, bindings⟩))
    (hrest : MatchesRows m table rows r) :
    MatchesRows m table (cells :: rows)
      (r.map fun gain => (gain.map (v :: ·)).after journal bindings)

end

/-! ## One outcome only -/

variable {g cst}

mutual

theorem Matches.unique {m : Matcher V} {nodes : List Loc} {parent : Loc} {r r' : Verdict V}
    (h : Matches g cst m nodes parent r) (h' : Matches g cst m nodes parent r') : r = r' :=
  match h with
  -- By recursion on the first derivation. Where a matcher has two rules, what the one says of the
  -- node excludes the other.
  | .any .. | .kwd .. | .id .. | .number .. => by cases h'; rfl
  | .text hnode hspans => by
    cases h' with
    | text hnode' hspans' =>
      cases hnode'.symm.trans hnode
      rw [hspans.unique hspans']
    | textMiss h => exact absurd hnode (h _)
  | .textMiss h => by
    cases h' with
    | text hnode' => exact absurd hnode' (h _)
    | textMiss => rfl
  | .list hnode hkind hinner => by
    cases h' with
    | list hnode' _ hinner' =>
      cases hnode'.symm.trans hnode
      rw [hinner.unique hinner']
    | listMiss h => exact absurd hkind (h _ _ _ hnode)
  | .listMiss h => by
    cases h' with
    | list hnode' hkind' => exact absurd hkind' (h _ _ _ hnode')
    | listMiss => rfl
  | .table hnode hrows => by
    cases h' with
    | table hnode' hrows' =>
      cases hnode'.symm.trans hnode
      rw [hrows.unique hrows']
    | tableMiss h => exact absurd hnode (h _ _)
  | .tableMiss h => by
    cases h' with
    | table hnode' => exact absurd hnode' (h _ _)
    | tableMiss => rfl
  | .seq hitems => by
    cases h' with
    | seq hitems' => rw [hitems.unique hitems']
  | .or hitems => by
    cases h' with
    | or hitems' => exact hitems.unique hitems'
  | .star hrounds => by
    cases h' with
    | star hrounds' => rw [hrounds.unique hrounds']
  | .opt hinner => by
    cases h' with
    | opt hinner' => rw [hinner.unique hinner']
  | .group hinner => by
    cases h' with
    | group hinner' => rw [hinner.unique hinner']
  | .ref hrule htarget => by
    cases h' with
    | ref hrule' htarget' =>
      cases hrule'.symm.trans hrule
      rw [htarget.unique htarget']
    | refMiss hrule' => cases hrule.symm.trans hrule'
  | .refMiss hrule => by
    cases h' with
    | ref hrule' => cases hrule.symm.trans hrule'
    | refMiss => rfl
  | .tx hinner => by
    cases h' with
    | tx hinner' => rw [hinner.unique hinner']
termination_by structural h

theorem MatchesAll.unique {ms : List (Matcher V)} {nodes : List Loc} {parent : Loc}
    {r r' : Option (Gain V (List V × List Loc))} (h : MatchesAll g cst ms nodes parent r)
    (h' : MatchesAll g cst ms nodes parent r') : r = r' :=
  match h, h' with
  | .nil .., .nil .. => rfl
  | .stop _, .stop _ => rfl
  | .stop hhead, .cons hhead' _ => by cases hhead.unique hhead'
  | .cons hhead _, .stop hhead' => by cases hhead.unique hhead'
  | .cons hhead htail, .cons hhead' htail' => by
    cases hhead.unique hhead'
    rw [htail.unique htail']
termination_by structural h

theorem MatchesFirst.unique {ms : List (Matcher V)} {nodes : List Loc} {parent : Loc}
    {r r' : Verdict V} (h : MatchesFirst g cst ms nodes parent r)
    (h' : MatchesFirst g cst ms nodes parent r') : r = r' :=
  match h, h' with
  | .nil .., .nil .. => rfl
  | .hit hhead, .hit hhead' => hhead.unique hhead'
  | .hit hhead, .next hhead' _ => by cases hhead.unique hhead'
  | .next hhead _, .hit hhead' => by cases hhead.unique hhead'
  | .next _ htail, .next _ htail' => htail.unique htail'
termination_by structural h

theorem MatchesRounds.unique {m : Matcher V} {nodes : List Loc} {parent : Loc}
    {gain gain' : Gain V (List V × List Loc)} (h : MatchesRounds g cst m nodes parent gain)
    (h' : MatchesRounds g cst m nodes parent gain') : gain = gain' :=
  match h, h' with
  | .stop _, .stop _ | .stop _, .idle .. | .idle .., .stop _ | .idle .., .idle .. => rfl
  | .stop hround, .more hround' .. => by cases hround.unique hround'
  | .more hround .., .stop hround' => by cases hround.unique hround'
  | .idle hround hidle, .more hround' htaken _ => by
    cases hround.unique hround'
    exact absurd htaken (Nat.not_lt.mpr hidle)
  | .more hround htaken _, .idle hround' hidle => by
    cases hround.unique hround'
    exact absurd htaken (Nat.not_lt.mpr hidle)
  | .more hround _ hrest, .more hround' _ hrest' => by
    cases hround.unique hround'
    rw [hrest.unique hrest']
termination_by structural h

theorem MatchesSpans.unique {m : Matcher V} {spans : List (TextSpan Loc)}
    {r r' : Option (Gain V (List (TextSpan V)))} (h : MatchesSpans g cst m spans r)
    (h' : MatchesSpans g cst m spans r') : r = r' :=
  match h, h' with
  | .nil _, .nil _ => rfl
  | .text hrest, .text hrest' => by rw [hrest.unique hrest']
  | .stop .., .stop .. => rfl
  | .stop hitem hstop, .embed hitem' _ => absurd (hitem.unique hitem') (hstop _ _ _)
  | .embed hitem _, .stop hitem' hstop => absurd (hitem.unique hitem').symm (hstop _ _ _)
  | .embed hitem hrest, .embed hitem' hrest' => by
    cases hitem.unique hitem'
    rw [hrest.unique hrest']
termination_by structural h

theorem MatchesRows.unique {m : Matcher V} {table : Loc} {rows : List (List Loc)}
    {r r' : Option (Gain V (List V))} (h : MatchesRows g cst m table rows r)
    (h' : MatchesRows g cst m table rows r') : r = r' :=
  match h, h' with
  | .nil .., .nil .. => rfl
  | .stop .., .stop .. => rfl
  | .stop hrow hstop, .row hrow' _ => absurd (hrow.unique hrow') (hstop _ _ _)
  | .row hrow _, .stop hrow' hstop => absurd (hrow.unique hrow').symm (hstop _ _ _)
  | .row hrow hrest, .row hrow' hrest' => by
    cases hrow.unique hrow'
    rw [hrest.unique hrest']
termination_by structural h

end

/-! ## What is left -/

omit [MatchValue V] in
theorem takeFirst_suffix {nodes : List Loc} {accept : Loc → Option (V × List (Loc × Role))}
    {gain : Gain V (V × List Loc)} (h : gain ∈ takeFirst nodes accept) :
    gain.result.2 <:+ nodes := by
  cases nodes with
  | nil => cases h
  | cons loc rest =>
    obtain ⟨p, -, rfl⟩ := Option.map_eq_some_iff.mp h
    exact List.suffix_cons loc rest

theorem suffix_getD_absent {nodes : List Loc} {r : Verdict V}
    (h : ∀ gain ∈ r, gain.result.2 <:+ nodes) :
    (r.getD ⟨(MatchValue.absent, nodes), [], []⟩).result.2 <:+ nodes := by
  cases r with
  | none => exact List.suffix_rfl
  | some gain => exact h gain rfl

mutual

/-- A match takes siblings from the left. -/
theorem Matches.suffix {m : Matcher V} {nodes : List Loc} {parent : Loc} {r : Verdict V}
    (h : Matches g cst m nodes parent r) : ∀ gain ∈ r, gain.result.2 <:+ nodes :=
  match h with
  | .any .. | .kwd .. | .id .. | .number .. => fun _ => takeFirst_suffix
  | .textMiss _ | .listMiss _ | .tableMiss _ | .refMiss _ => nofun
  | .text _ _ | .table _ _ => fun gain hgain => by
    obtain ⟨inner, -, rfl⟩ := Option.map_eq_some_iff.mp hgain
    exact List.suffix_cons _ _
  | .list .. => fun gain hgain => by
    obtain ⟨⟨⟨v, left⟩, journal, bindings⟩, -, hinner⟩ := Option.bind_eq_some_iff.mp hgain
    cases left with
    | nil => cases hinner; exact List.suffix_cons _ _
    | cons => cases hinner
  | .seq hitems => fun gain hgain => by
    obtain ⟨inner, hinner, rfl⟩ := Option.map_eq_some_iff.mp hgain
    exact hitems.suffix inner hinner
  | .or hitems => hitems.suffix
  | .star hrounds => fun gain hgain => by
    cases hgain
    exact hrounds.suffix
  | .opt hinner => fun gain hgain => by
    obtain rfl := Option.some.inj hgain
    exact suffix_getD_absent hinner.suffix
  | .group hinner | .ref _ hinner => fun gain hgain => by
    obtain ⟨inner, hmem, rfl⟩ := Option.map_eq_some_iff.mp hgain
    exact hinner.suffix inner hmem
  | .tx hinner => fun gain hgain => by
    obtain ⟨inner, hmem, hbuild⟩ := Option.bind_eq_some_iff.mp hgain
    obtain ⟨v, -, rfl⟩ := Option.map_eq_some_iff.mp hbuild
    exact hinner.suffix inner hmem
termination_by structural h

theorem MatchesAll.suffix {ms : List (Matcher V)} {nodes : List Loc} {parent : Loc}
    {r : Option (Gain V (List V × List Loc))} (h : MatchesAll g cst ms nodes parent r) :
    ∀ gain ∈ r, gain.result.2 <:+ nodes :=
  match h with
  | .nil .. => fun gain hgain => by cases hgain; exact List.suffix_rfl
  | .stop _ => nofun
  | .cons hhead htail => fun gain hgain => by
    obtain ⟨inner, hmem, rfl⟩ := Option.map_eq_some_iff.mp hgain
    exact (htail.suffix inner hmem).trans (hhead.suffix _ rfl)
termination_by structural h

theorem MatchesFirst.suffix {ms : List (Matcher V)} {nodes : List Loc} {parent : Loc}
    {r : Verdict V} (h : MatchesFirst g cst ms nodes parent r) :
    ∀ gain ∈ r, gain.result.2 <:+ nodes :=
  match h with
  | .nil .. => nofun
  | .hit hhead => hhead.suffix
  | .next _ htail => htail.suffix
termination_by structural h

theorem MatchesRounds.suffix {m : Matcher V} {nodes : List Loc} {parent : Loc}
    {gain : Gain V (List V × List Loc)} (h : MatchesRounds g cst m nodes parent gain) :
    gain.result.2 <:+ nodes :=
  match h with
  | .stop _ => List.suffix_rfl
  | .idle .. => List.suffix_rfl
  | .more hround _ hrest => hrest.suffix.trans (hround.suffix _ rfl)
termination_by structural h

end

end Matcher

end TypeTrace
