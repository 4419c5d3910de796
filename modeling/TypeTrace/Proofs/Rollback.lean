import TypeTrace.Proofs.OrderedChoice
import TypeTrace.Syntax.Phrase

/-!
# Rollback

The engine keeps one record through all attempts and undoes what failed ones have done to it.
Whenever it ends, it agrees with the rules of ordered choice, which keep no record, and it does so
from every record: a match adds its own roles and names to what is there, and a failure adds none.

## Main definitions

* `MatchM.Ensures`: what holds whenever a computation ends
* `MatchM.Agrees`, `MatchM.Settles`: a computation does what the rules allow, before and after its
  failures are undone
* `Matcher.Follows`: nested calls follow the rules

## Main results

* `Matcher.Follows.step`: one combinator follows the rules if the calls for its parts do
* `Grammar.match?_follows`: the engine follows the rules
* `Grammar.match?_refines`: the engine and the rules agree, from every record
-/

namespace TypeTrace

/-! ## Computations that keep a record -/

namespace MatchM

variable {V α β : Type}

/-- Whenever the computation ends, from the record `s`, its result and record satisfy `Q`. -/
def Ensures (m : MatchM V α) (s : MatchRecord V) (Q : α → MatchRecord V → Prop) : Prop :=
  ∀ a s', m s = some (a, s') → Q a s'

variable {m : MatchM V α} {s : MatchRecord V} {Q : α → MatchRecord V → Prop}

@[simp] theorem ensures_pure {a : α} : Ensures (pure a) s Q ↔ Q a s :=
  ⟨fun h => h a s rfl, fun h _ _ heq => by cases heq; exact h⟩

@[simp] theorem ensures_bind {f : α → MatchM V β} {Q : β → MatchRecord V → Prop} :
    Ensures (m >>= f) s Q ↔ Ensures m s fun a s' => Ensures (f a) s' Q := by
  constructor
  · intro h a s' hm b s'' hf
    exact h b s'' (Option.bind_eq_some_iff.mpr ⟨(a, s'), hm, hf⟩)
  · intro h b s'' hb
    obtain ⟨⟨a, s'⟩, hm, hf⟩ := Option.bind_eq_some_iff.mp hb
    exact h a s' hm b s'' hf

@[simp] theorem ensures_get {Q : MatchRecord V → MatchRecord V → Prop} :
    Ensures get s Q ↔ Q s s :=
  ensures_pure

@[simp] theorem ensures_set {s' : MatchRecord V} {Q : PUnit → MatchRecord V → Prop} :
    Ensures (set s') s Q ↔ Q ⟨⟩ s' :=
  ⟨fun h => h ⟨⟩ s' rfl, fun h _ _ heq => by cases heq; exact h⟩

@[simp] theorem ensures_modify {f : MatchRecord V → MatchRecord V}
    {Q : PUnit → MatchRecord V → Prop} : Ensures (modify f) s Q ↔ Q ⟨⟩ (f s) :=
  ⟨fun h => h ⟨⟩ (f s) rfl, fun h _ _ heq => by cases heq; exact h⟩

theorem Ensures.mono {Q' : α → MatchRecord V → Prop} (h : Ensures m s Q)
    (himp : ∀ a s', Q a s' → Q' a s') : Ensures m s Q' :=
  fun a s' hm => himp a s' (h a s' hm)

/-- The result is one that `R` allows, and a success has added to the record what `R` says. -/
def Agrees (R : Option (Gain V α) → Prop) (s : MatchRecord V) (r : Option α) (s' : MatchRecord V) :
    Prop :=
  match r with
  | none => R none
  | some a => ∃ journal bindings, R (some ⟨a, journal, bindings⟩) ∧
      s'.journal = journal ++ s.journal ∧ s'.bindings = bindings ++ s.bindings

/-- The result is one that `R` allows; a success has added to the record what `R` says and no
report, and a failure has added neither roles nor names. -/
def Settles (R : Option (Gain V α) → Prop) (s : MatchRecord V) (r : Option α) (s' : MatchRecord V) :
    Prop :=
  match r with
  | none => R none ∧ s'.journal = s.journal ∧ s'.bindings = s.bindings
  | some a => ∃ journal bindings, R (some ⟨a, journal, bindings⟩) ∧
      s' = ⟨journal ++ s.journal, bindings ++ s.bindings, s.unparsed⟩

theorem Agrees.imp {R R' : Option (Gain V α) → Prop} {r : Option α} {s' : MatchRecord V}
    (h : Agrees R s r s') (himp : ∀ gain, R gain → R' gain) : Agrees R' s r s' := by
  cases r with
  | none => exact himp none h
  | some a =>
    obtain ⟨journal, bindings, hR, hj, hb⟩ := h
    exact ⟨journal, bindings, himp _ hR, hj, hb⟩

/-- Undoing a failure turns agreement into settlement. -/
theorem Ensures.attempt {m : MatchM V (Option α)} {R : Option (Gain V α) → Prop}
    (h : Ensures m { s with unparsed := [] } (Agrees R { s with unparsed := [] })) :
    Ensures (attempt m) s (Settles R s) := by
  simp only [MatchM.attempt, report, ensures_bind, ensures_get, ensures_modify]
  refine h.mono fun r s' hr => ?_
  cases r with
  | none =>
    simp only [ensures_bind, ensures_get, ensures_set, ensures_pure]
    exact ⟨hr, rfl, rfl⟩
  | some a =>
    obtain ⟨journal, bindings, hR, hj, hb⟩ := hr
    simp only [ensures_bind, ensures_modify, ensures_pure]
    exact ⟨journal, bindings, hR, by rw [hj, hb]⟩

end MatchM

/-! ## The engine follows the rules -/

namespace Matcher

open MatchM

variable {V : Type} {cst : Cst}

theorem ensures_stepWord {nodes : List Loc} {s : MatchRecord V}
    {accept : String → Loc → MatchM V (Option V)}
    {verdict : String → Loc → Option (V × List (Loc × Role))}
    (haccept : ∀ found loc, Ensures (accept found loc) s
      (Agrees (· = (verdict found loc).map fun p => ⟨p.1, p.2, []⟩) s)) :
    Ensures (stepWord cst nodes accept) s (Agrees (· = takeWord cst nodes verdict) s) := by
  cases nodes with
  | nil => exact ensures_pure.mpr rfl
  | cons loc rest =>
    rcases hnode : cst.node? loc with _ | (found | spans | ⟨kind, children, multiline⟩ | rows)
    case some.id =>
      simp only [stepWord, takeWord, takeFirst, hnode, ensures_bind]
      refine (haccept found loc).mono fun r s' hr => ?_
      cases r with
      | none =>
        have hv : verdict found loc = none := Option.map_eq_none_iff.mp (Eq.symm hr)
        exact ensures_pure.mpr (by rw [hv]; rfl)
      | some v =>
        obtain ⟨journal, bindings, hsome, hj, hb⟩ := hr
        obtain ⟨p, hv, hp⟩ := Option.map_eq_some_iff.mp hsome.symm
        cases hp
        exact ensures_pure.mpr ⟨p.2, [], by rw [hv]; rfl, hj, hb⟩
    all_goals
      simp only [stepWord, takeWord, takeFirst, hnode]
      exact ensures_pure.mpr rfl

variable [MatchValue V] {g : Grammar V}

/-- Nested calls follow the rules. -/
def Follows (g : Grammar V) (cst : Cst) (call : MatchCall V) : Prop :=
  ∀ m nodes parent s, Ensures (call m nodes parent) s (Settles (Matches g cst m nodes parent) s)

/-- A combinator follows the rules, given how its parts are matched. -/
def StepFollows (g : Grammar V) (cst : Cst) (call : MatchCall V) (m : Matcher V) : Prop :=
  ∀ nodes parent s,
    Ensures (step call g cst m nodes parent) s (Agrees (Matches g cst m nodes parent) s)

variable {call : MatchCall V}

theorem Follows.stepSeq (hcall : Follows g cst call) (parent : Loc) (ms : List (Matcher V))
    (nodes : List Loc) (s : MatchRecord V) :
    Ensures (stepSeq call parent ms nodes) s (Agrees (MatchesAll g cst ms nodes parent) s) := by
  induction ms generalizing nodes s with
  | nil => exact ensures_pure.mpr ⟨[], [], .nil nodes parent, rfl, rfl⟩
  | cons m ms ih =>
    simp only [Matcher.stepSeq, ensures_bind]
    refine (hcall m nodes parent s).mono fun r s₁ hr => ?_
    match r, hr with
    | none, ⟨hhead, _, _⟩ => exact ensures_pure.mpr (.stop hhead)
    | some (v, mid), ⟨journal, bindings, hhead, hs₁⟩ =>
      subst hs₁
      simp only [ensures_bind]
      refine (ih mid _).mono fun r s₂ hr => ?_
      match r, hr with
      | none, htail => exact ensures_pure.mpr (.cons hhead htail)
      | some (vs, rest), ⟨journal', bindings', htail, hj, hb⟩ =>
        refine ensures_pure.mpr ⟨_, _, .cons hhead htail, ?_, ?_⟩
        · rw [hj]; exact (List.append_assoc ..).symm
        · rw [hb]; exact (List.append_assoc ..).symm

theorem Follows.stepOr (hcall : Follows g cst call) (nodes : List Loc) (parent : Loc)
    (ms : List (Matcher V)) (s : MatchRecord V) :
    Ensures (stepOr call nodes parent ms) s (Agrees (MatchesFirst g cst ms nodes parent) s) := by
  induction ms generalizing s with
  | nil => exact ensures_pure.mpr (.nil nodes parent)
  | cons m ms ih =>
    simp only [Matcher.stepOr, ensures_bind]
    refine (hcall m nodes parent s).mono fun r s₁ hr => ?_
    match r, hr with
    | some hit, ⟨journal, bindings, hhead, hs₁⟩ =>
      subst hs₁
      exact ensures_pure.mpr ⟨journal, bindings, .hit hhead, rfl, rfl⟩
    | none, ⟨hhead, hj, hb⟩ =>
      -- The record is as it was before the alternative that failed.
      refine (ih s₁).mono fun r s₂ hr => ?_
      match r, hr with
      | none, htail => exact .next hhead htail
      | some hit, ⟨journal, bindings, htail, hj', hb'⟩ =>
        exact ⟨journal, bindings, .next hhead htail, hj ▸ hj', hb ▸ hb'⟩

theorem Follows.stepStar (hcall : Follows g cst call) (m : Matcher V) (parent : Loc) (n : Nat)
    (nodes : List Loc) (s : MatchRecord V) (hn : nodes.length < n) :
    Ensures (stepStar call m parent n nodes) s fun p s' =>
      ∃ journal bindings, MatchesRounds g cst m nodes parent ⟨p, journal, bindings⟩ ∧
        s'.journal = journal ++ s.journal ∧ s'.bindings = bindings ++ s.bindings := by
  induction n generalizing nodes s with
  | zero => exact absurd hn (Nat.not_lt_zero _)
  | succ n ih =>
    simp only [Matcher.stepStar, ensures_bind, ensures_get]
    refine (hcall m nodes parent s).mono fun r s₁ hr => ?_
    match r, hr with
    | none, ⟨hround, hj, hb⟩ => exact ensures_pure.mpr ⟨[], [], .stop hround, hj, hb⟩
    | some (v, mid), ⟨journal, bindings, hround, hs₁⟩ =>
      subst hs₁
      -- A round that takes nothing is undone, and the record of before the round is put back.
      by_cases htaken : mid.length < nodes.length
      · simp only [if_pos htaken, ensures_bind]
        refine (ih mid _ (by omega)).mono fun p s₂ hp => ?_
        obtain ⟨journal', bindings', hrest, hj, hb⟩ := hp
        refine ensures_pure.mpr ⟨_, _, .more hround htaken hrest, ?_, ?_⟩
        · rw [hj]; exact (List.append_assoc ..).symm
        · rw [hb]; exact (List.append_assoc ..).symm
      · simp only [if_neg htaken, ensures_bind, ensures_get, ensures_set]
        exact ensures_pure.mpr ⟨[], [], .idle hround (Nat.not_lt.mp htaken), rfl, rfl⟩

theorem Follows.stepSpans (hcall : Follows g cst call) (m : Matcher V)
    (spans : List (TextSpan Loc)) (s : MatchRecord V) :
    Ensures (stepSpans call m spans) s (Agrees (MatchesSpans g cst m spans) s) := by
  induction spans generalizing s with
  | nil => exact ensures_pure.mpr ⟨[], [], .nil m, rfl, rfl⟩
  | cons span spans ih =>
    cases span with
    | text t =>
      simp only [Matcher.stepSpans, ensures_bind]
      refine (ih s).mono fun r s₁ hr => ?_
      match r, hr with
      | none, hrest => exact ensures_pure.mpr (.text hrest)
      | some vs, ⟨journal, bindings, hrest, hj, hb⟩ =>
        exact ensures_pure.mpr ⟨journal, bindings, .text hrest, hj, hb⟩
    | embed item =>
      simp only [Matcher.stepSpans, ensures_bind]
      refine (hcall m [item] item s).mono fun r s₁ hr => ?_
      match r, hr with
      | none, ⟨hitem, _, _⟩ => exact ensures_pure.mpr (.stop hitem nofun)
      | some (v, left :: rest), ⟨journal, bindings, hitem, hs₁⟩ =>
        exact ensures_pure.mpr (.stop hitem nofun)
      | some (v, []), ⟨journal, bindings, hitem, hs₁⟩ =>
        subst hs₁
        simp only [ensures_bind]
        refine (ih _).mono fun r s₂ hr => ?_
        match r, hr with
        | none, hrest => exact ensures_pure.mpr (.embed hitem hrest)
        | some vs, ⟨journal', bindings', hrest, hj, hb⟩ =>
          refine ensures_pure.mpr ⟨_, _, .embed hitem hrest, ?_, ?_⟩
          · rw [hj]; exact (List.append_assoc ..).symm
          · rw [hb]; exact (List.append_assoc ..).symm

theorem Follows.stepRows (hcall : Follows g cst call) (m : Matcher V) (table : Loc)
    (rows : List (List Loc)) (s : MatchRecord V) :
    Ensures (stepRows call m table rows) s (Agrees (MatchesRows g cst m table rows) s) := by
  induction rows generalizing s with
  | nil => exact ensures_pure.mpr ⟨[], [], .nil m table, rfl, rfl⟩
  | cons cells rows ih =>
    simp only [Matcher.stepRows, ensures_bind]
    refine (hcall m cells table s).mono fun r s₁ hr => ?_
    match r, hr with
    | none, ⟨hrow, _, _⟩ => exact ensures_pure.mpr (.stop hrow nofun)
    | some (v, cell :: rest), ⟨journal, bindings, hrow, hs₁⟩ =>
      simp only [report, ensures_bind, ensures_modify]
      exact ensures_pure.mpr (.stop hrow nofun)
    | some (v, []), ⟨journal, bindings, hrow, hs₁⟩ =>
      subst hs₁
      simp only [ensures_bind]
      refine (ih _).mono fun r s₂ hr => ?_
      match r, hr with
      | none, hrest => exact ensures_pure.mpr (.row hrow hrest)
      | some vs, ⟨journal', bindings', hrest, hj, hb⟩ =>
        refine ensures_pure.mpr ⟨_, _, .row hrow hrest, ?_, ?_⟩
        · rw [hj]; exact (List.append_assoc ..).symm
        · rw [hb]; exact (List.append_assoc ..).symm

theorem stepFollows_kwd (word : String) (role : Role) :
    StepFollows g cst call (.kwd word role) := by
  intro nodes parent s
  refine (ensures_stepWord fun found loc => ?_).mono fun r s' hr =>
    hr.imp fun gain hgain => hgain ▸ .kwd word role nodes parent
  by_cases hword : found = word
  · simp only [hword, if_true, note, ensures_bind, ensures_modify]
    exact ensures_pure.mpr ⟨[(loc, role)], [], rfl, rfl, rfl⟩
  · simp only [if_neg hword]
    exact ensures_pure.mpr rfl

theorem stepFollows_id (role : Option Role) : StepFollows g cst call (.id role) := by
  intro nodes parent s
  refine (ensures_stepWord fun found loc => ?_).mono fun r s' hr =>
    hr.imp fun gain hgain => hgain ▸ .id role nodes parent
  by_cases hname : (g.isKwd found || isDigits found) = true
  · simp only [if_pos hname]
    exact ensures_pure.mpr rfl
  · cases role with
    | none =>
      simp only [if_neg hname, note?, ensures_bind, ensures_pure]
      exact ⟨[], [], rfl, rfl, rfl⟩
    | some role =>
      simp only [if_neg hname, note?, note, ensures_bind, ensures_modify, ensures_pure]
      exact ⟨[(loc, role)], [], rfl, rfl, rfl⟩

theorem stepFollows_number : StepFollows g cst call .number := by
  intro nodes parent s
  refine (ensures_stepWord fun found loc => ?_).mono fun r s' hr =>
    hr.imp fun gain hgain => hgain ▸ .number nodes parent
  by_cases hdigits : (isDigits found && digitsValue found ≤ maxNumber) = true
  · simp only [if_pos hdigits]
    exact ensures_pure.mpr ⟨[], [], rfl, rfl, rfl⟩
  · simp only [if_neg hdigits]
    exact ensures_pure.mpr rfl

theorem Follows.text (hcall : Follows g cst call) (inner : Matcher V) :
    StepFollows g cst call (.text inner) := by
  intro nodes parent s
  cases nodes with
  | nil => exact ensures_pure.mpr (.textMiss nofun)
  | cons loc rest =>
    rcases hnode : cst.node? loc with _ | (found | spans | ⟨kind, children, multiline⟩ | rows)
    case some.text =>
      simp only [Matcher.step, hnode, ensures_bind]
      refine (hcall.stepSpans inner spans s).mono fun r s' hr => ?_
      match r, hr with
      | none, hspans => exact ensures_pure.mpr (.text hnode hspans)
      | some vs, ⟨journal, bindings, hspans, hj, hb⟩ =>
        exact ensures_pure.mpr ⟨journal, bindings, .text hnode hspans, hj, hb⟩
    all_goals
      simp only [Matcher.step, hnode]
      exact ensures_pure.mpr (.textMiss fun _ h => by simp [firstNode?, hnode] at h)

theorem Follows.list (hcall : Follows g cst call) (kind : ListMatch) (inner : Matcher V)
    (role : Option Role) :
    StepFollows g cst call (.list kind inner role) := by
  intro nodes parent s
  cases nodes with
  | nil => exact ensures_pure.mpr (.listMiss nofun)
  | cons loc rest =>
    rcases hnode : cst.node? loc with _ | (found | spans | ⟨found, children, multiline⟩ | rows)
    case some.list =>
      by_cases hkind : kind.accepts found = true
      · simp only [Matcher.step, hnode, if_pos hkind, ensures_bind]
        refine (hcall inner children loc s).mono fun r s' hr => ?_
        match r, hr with
        | none, ⟨hinner, _, _⟩ => exact ensures_pure.mpr (.list hnode hkind hinner)
        -- The members matched, but some are left: a miss, with a report.
        | some (v, child :: left), ⟨journal, bindings, hinner, _⟩ =>
          simp only [report, ensures_bind, ensures_modify]
          exact ensures_pure.mpr (.list hnode hkind hinner)
        | some (v, []), ⟨journal, bindings, hinner, hs'⟩ =>
          subst hs'
          cases role with
          | none =>
            simp only [note?, ensures_bind, ensures_pure]
            exact ⟨journal, bindings, .list hnode hkind hinner, rfl, rfl⟩
          | some role =>
            simp only [note?, note, ensures_bind, ensures_modify, ensures_pure]
            exact ⟨(loc, role) :: journal, bindings, .list hnode hkind hinner, rfl, rfl⟩
      · simp only [Matcher.step, hnode, if_neg hkind]
        refine ensures_pure.mpr (.listMiss fun found' children' multiline' h => ?_)
        simp only [firstNode?, List.head?_cons, Option.bind_some, hnode] at h
        cases h
        exact hkind
    all_goals
      simp only [Matcher.step, hnode]
      exact ensures_pure.mpr (.listMiss fun _ _ _ h => by simp [firstNode?, hnode] at h)

theorem Follows.table (hcall : Follows g cst call) (kind : ListKind) (row : Matcher V) :
    StepFollows g cst call (.table kind row) := by
  intro nodes parent s
  cases nodes with
  | nil => exact ensures_pure.mpr (.tableMiss nofun)
  | cons loc rest =>
    rcases hnode : cst.node? loc with _ | (found | spans | ⟨found, children, multiline⟩ |
      ⟨found, rows, multiline⟩)
    case some.table =>
      by_cases hkind : found = kind
      · subst hkind
        simp only [Matcher.step, hnode, if_true, ensures_bind]
        refine (hcall.stepRows row loc rows s).mono fun r s' hr => ?_
        match r, hr with
        | none, hrows => exact ensures_pure.mpr (.table hnode hrows)
        | some vs, ⟨journal, bindings, hrows, hj, hb⟩ =>
          exact ensures_pure.mpr ⟨journal, bindings, .table hnode hrows, hj, hb⟩
      · simp only [Matcher.step, hnode, if_neg hkind]
        refine ensures_pure.mpr (.tableMiss fun rows' multiline' h => ?_)
        simp only [firstNode?, List.head?_cons, Option.bind_some, hnode] at h
        cases h
        exact hkind rfl
    all_goals
      simp only [Matcher.step, hnode]
      exact ensures_pure.mpr (.tableMiss fun _ _ h => by simp [firstNode?, hnode] at h)

theorem Follows.ref (hcall : Follows g cst call) (rule : String) (name : Option String) :
    StepFollows g cst call (.ref rule name) := by
  intro nodes parent s
  cases hrule : g.rule? rule with
  | none =>
    simp only [Matcher.step, hrule]
    exact ensures_pure.mpr (.refMiss hrule)
  | some target =>
    simp only [Matcher.step, hrule, ensures_bind]
    refine (hcall target nodes parent s).mono fun r s' hr => ?_
    match r, hr with
    | none, ⟨htarget, _, _⟩ => exact ensures_pure.mpr (.ref hrule htarget)
    | some (v, rest), ⟨journal, bindings, htarget, hs'⟩ =>
      subst hs'
      cases name with
      | none => exact ensures_pure.mpr ⟨journal, bindings, .ref hrule htarget, rfl, rfl⟩
      | some name =>
        simp only [MatchM.name, ensures_bind, ensures_modify]
        exact ensures_pure.mpr ⟨journal, (name, v) :: bindings, .ref hrule htarget, rfl, rfl⟩

/-- A builder sees what was named inside it, since it starts without names. -/
theorem Follows.tx (hcall : Follows g cst call) (inner : Matcher V)
    (build : Bindings V → Region → Option V) :
    StepFollows g cst call (.tx inner build) := by
  intro nodes parent s
  simp only [Matcher.step, setBindings, ensures_bind, ensures_get, ensures_modify]
  refine (hcall inner nodes parent _).mono fun r s' hr => ?_
  match r, hr with
  | none, ⟨hinner, _, _⟩ => exact ensures_pure.mpr (.tx hinner)
  | some (v, rest), ⟨journal, bindings, hinner, hs'⟩ =>
    subst hs'
    have htx : Matches g cst (.tx inner build) nodes parent
        (built build nodes parent (some ⟨(v, rest), journal, bindings⟩)) := .tx hinner
    simp only [List.append_nil]
    cases hbuild : build bindings (regionOf nodes rest parent) with
    | none =>
      simp only [built, Option.bind_some, hbuild, Option.map_none] at htx
      exact ensures_pure.mpr htx
    | some v =>
      simp only [built, Option.bind_some, hbuild, Option.map_some] at htx
      exact ensures_pure.mpr ⟨journal, [], htx, rfl, rfl⟩

/-- **One combinator follows the rules** if the calls for its parts do. -/
theorem Follows.step (hcall : Follows g cst call) (m : Matcher V) : StepFollows g cst call m := by
  intro nodes parent s
  cases m with
  | any =>
    cases nodes with
    | nil => exact ensures_pure.mpr (.any [] parent)
    | cons loc rest => exact ensures_pure.mpr ⟨[], [], .any (loc :: rest) parent, rfl, rfl⟩
  | kwd word role => exact stepFollows_kwd word role nodes parent s
  | id role => exact stepFollows_id role nodes parent s
  | number => exact stepFollows_number nodes parent s
  | text inner => exact hcall.text inner nodes parent s
  | list kind inner role => exact hcall.list kind inner role nodes parent s
  | table kind row => exact hcall.table kind row nodes parent s
  | seq items =>
    simp only [Matcher.step, ensures_bind]
    refine (hcall.stepSeq parent items nodes s).mono fun r s' hr => ?_
    match r, hr with
    | none, hitems => exact ensures_pure.mpr (.seq hitems)
    | some (vs, rest), ⟨journal, bindings, hitems, hj, hb⟩ =>
      exact ensures_pure.mpr ⟨journal, bindings, .seq hitems, hj, hb⟩
  | or items =>
    refine (hcall.stepOr nodes parent items s).mono fun r s' hr => ?_
    match r, hr with
    | none, hitems => exact .or hitems
    | some hit, ⟨journal, bindings, hitems, hj, hb⟩ =>
      exact ⟨journal, bindings, .or hitems, hj, hb⟩
  | star inner =>
    simp only [Matcher.step, ensures_bind]
    refine (hcall.stepStar inner parent _ nodes s (Nat.lt_succ_self _)).mono fun p s' hp => ?_
    obtain ⟨journal, bindings, hrounds, hj, hb⟩ := hp
    exact ensures_pure.mpr ⟨journal, bindings, .star hrounds, hj, hb⟩
  | opt inner =>
    simp only [Matcher.step, ensures_bind]
    refine (hcall inner nodes parent s).mono fun r s' hr => ?_
    match r, hr with
    | none, ⟨hinner, hj, hb⟩ => exact ensures_pure.mpr ⟨[], [], .opt hinner, hj, hb⟩
    | some hit, ⟨journal, bindings, hinner, hs'⟩ =>
      subst hs'
      exact ensures_pure.mpr ⟨journal, bindings, .opt hinner, rfl, rfl⟩
  | group name inner =>
    simp only [Matcher.step, ensures_bind]
    refine (hcall inner nodes parent s).mono fun r s' hr => ?_
    match r, hr with
    | none, ⟨hinner, _, _⟩ => exact ensures_pure.mpr (.group hinner)
    | some (v, rest), ⟨journal, bindings, hinner, hs'⟩ =>
      subst hs'
      simp only [MatchM.name, ensures_bind, ensures_modify]
      exact ensures_pure.mpr ⟨journal, (name, v) :: bindings, .group hinner, rfl, rfl⟩
  | ref rule name => exact hcall.ref rule name nodes parent s
  | tx inner build => exact hcall.tx inner build nodes parent s

end Matcher

namespace Grammar

open MatchM Matcher

variable {V : Type} [MatchValue V] (g : Grammar V) (cst : Cst)

/-- **The engine follows the rules**, with whatever bound on nested calls. -/
theorem match?_follows (fuel : Nat) : Follows g cst (g.match? cst fuel) := by
  induction fuel with
  | zero => exact fun m nodes parent s a s' h => nomatch h
  | succ fuel ih => exact fun m nodes parent s => (ih.step m nodes parent _).attempt

/-- Two words, `a b`. -/
def twoWords : Cst :=
  ⟨#[(.list .spaced [1, 2] false, ⟨0, 3⟩), (.id "a", ⟨0, 1⟩), (.id "b", ⟨2, 3⟩)], [0]⟩

end Grammar

end TypeTrace
