import TypeTrace.Proofs.Ranking
import TypeTrace.Proofs.Shape
import Mathlib.Data.Option.Defs

/-!
# Matching in mirrored trees

What matching does with a syntax tree depends on the shape of the tree only.  Two runs of the engine on
trees of one shape go through the same steps: they run out of nested calls at the same time, fail at
corresponding nodes, and succeed with values that differ in the places of nodes at most.

How nodes and values of the two runs correspond is a *mirror*.  The argument needs no more of it than
that corresponding nodes are alike and that corresponding values are made from corresponding ones.

## Main definitions

* `Node.Rel`: two nodes are alike, with a relation between their children
* `Mirror`: a correspondence of nodes and of values
* `Mirror.Record`, `Mirror.Runs`: records that correspond, and computations that keep them so
* `Mirror.Respects`: all builders of a matcher keep the correspondence

## Main results

* `Mirror.step`: one combinator keeps the correspondence
* `Mirror.match?`: whole runs of the engine keep it
-/

namespace TypeTrace

/-- Two nodes are alike, with `R` between their children. -/
inductive Node.Rel (R : Loc → Loc → Prop) : Node → Node → Prop
  | id (s : String) : Node.Rel R (.id s) (.id s)
  | text {spans spans' : List (TextSpan Loc)} (h : List.Forall₂ (TextSpan.Rel R) spans spans') :
    Node.Rel R (.text spans) (.text spans')
  | list (kind : ListKind) {children children' : List Loc} {multiline multiline' : Bool}
    (h : List.Forall₂ R children children') :
    Node.Rel R (.list kind children multiline) (.list kind children' multiline')
  | table (kind : ListKind) {rows rows' : List (List Loc)} {multiline multiline' : Bool}
    (h : List.Forall₂ (List.Forall₂ R) rows rows') :
    Node.Rel R (.table kind rows multiline) (.table kind rows' multiline')

/-- How nodes of two syntax trees, and values read from them, correspond. -/
structure Mirror (V : Type) [MatchValue V] (cst cst' : Cst) where
  /-- The nodes correspond. -/
  node : Loc → Loc → Prop
  /-- The values correspond. -/
  value : V → V → Prop
  alike {l l' : Loc} (h : node l l') : Option.Rel (Node.Rel node) (cst.node? l) (cst'.node? l')
  ofId (s : String) (l l' : Loc) : value (MatchValue.ofId s l) (MatchValue.ofId s l')
  ofNumber (n : Nat) (l l' : Loc) : value (MatchValue.ofNumber n l) (MatchValue.ofNumber n l')
  ofNode (l l' : Loc) : value (MatchValue.ofNode l) (MatchValue.ofNode l')
  ofMany {vs vs' : List V} (h : List.Forall₂ value vs vs') :
    value (MatchValue.ofMany vs) (MatchValue.ofMany vs')
  ofText {vs vs' : List (TextSpan V)} (h : List.Forall₂ (TextSpan.Rel value) vs vs') (l l' : Loc) :
    value (MatchValue.ofText vs l) (MatchValue.ofText vs' l')
  absent : value MatchValue.absent MatchValue.absent

namespace Mirror

variable {V : Type} [MatchValue V] {cst cst' : Cst} (M : Mirror V cst cst') {α β : Type}

/-! ## Records and computations -/

/-- The named parts correspond. -/
def Parts : Bindings V → Bindings V → Prop :=
  List.Forall₂ fun e e' => e.1 = e'.1 ∧ M.value e.2 e'.2

/-- The records correspond.  Roles are left out: no matcher looks at them. -/
structure Record (s s' : MatchRecord V) : Prop where
  bindings : M.Parts s.bindings s'.bindings
  unparsed : List.Forall₂ M.node s.unparsed s'.unparsed

/-- From records that correspond, both computations run out of nested calls, or both end, with results
that `Q` relates and records that correspond. -/
def Runs (Q : α → α → Prop) (m m' : MatchM V α) : Prop :=
  ∀ s s', M.Record s s' → Option.Rel (fun p p' => Q p.1 p'.1 ∧ M.Record p.2 p'.2) (m s) (m' s')

/-- A value and the siblings that are left correspond. -/
def Hit (p p' : V × List Loc) : Prop := M.value p.1 p'.1 ∧ List.Forall₂ M.node p.2 p'.2

/-- Several values and the siblings that are left correspond. -/
def Hits (p p' : List V × List Loc) : Prop :=
  List.Forall₂ M.value p.1 p'.1 ∧ List.Forall₂ M.node p.2 p'.2

variable {M}

namespace Runs

variable {Q : α → α → Prop} {m m' : MatchM V α}

theorem pure {a a' : α} (h : Q a a') : M.Runs Q (pure a) (pure a') :=
  fun _ _ hs => .some ⟨h, hs⟩

theorem bind {P : β → β → Prop} {f f' : α → MatchM V β} (h : M.Runs Q m m')
    (hf : ∀ a a', Q a a' → M.Runs P (f a) (f' a')) : M.Runs P (m >>= f) (m' >>= f') := by
  intro s s' hs
  have hm := h s s' hs
  change Option.Rel _ ((m s).bind fun p => f p.1 p.2) ((m' s').bind fun p => f' p.1 p.2)
  generalize m s = x at hm ⊢
  generalize m' s' = x' at hm ⊢
  cases hm with
  | none => exact .none
  | some hp => exact hf _ _ hp.1 _ _ hp.2

theorem get : M.Runs M.Record get get := fun _ _ hs => .some ⟨hs, hs⟩

theorem set {t t' : MatchRecord V} (h : M.Record t t') : M.Runs (fun _ _ => True) (set t) (set t') :=
  fun _ _ _ => .some ⟨trivial, h⟩

theorem modify {f f' : MatchRecord V → MatchRecord V}
    (h : ∀ s s', M.Record s s' → M.Record (f s) (f' s')) :
    M.Runs (fun _ _ => True) (modify f) (modify f') :=
  fun _ _ hs => .some ⟨trivial, h _ _ hs⟩

theorem note (l l' : Loc) (role : Role) :
    M.Runs (fun _ _ => True) (MatchM.note l role) (MatchM.note l' role) :=
  modify fun _ _ hs => ⟨hs.bindings, hs.unparsed⟩

theorem note? (l l' : Loc) (role : Option Role) :
    M.Runs (fun _ _ => True) (MatchM.note? l role) (MatchM.note? l' role) := by
  cases role with
  | none => exact pure trivial
  | some role => exact note l l' role

theorem name (n : String) {v v' : V} (h : M.value v v') :
    M.Runs (fun _ _ => True) (MatchM.name n v) (MatchM.name n v') :=
  modify fun _ _ hs => ⟨.cons ⟨rfl, h⟩ hs.bindings, hs.unparsed⟩

theorem setBindings {b b' : Bindings V} (h : M.Parts b b') :
    M.Runs (fun _ _ => True) (MatchM.setBindings b) (MatchM.setBindings b') :=
  modify fun _ _ hs => ⟨h, hs.unparsed⟩

theorem report {locs locs' : List Loc} (h : List.Forall₂ M.node locs locs') :
    M.Runs (fun _ _ => True) (MatchM.report locs) (MatchM.report locs') :=
  modify fun _ _ hs => ⟨hs.bindings, h⟩

/-- Both attempts undo what they have recorded, except for corresponding nodes at which they got
stuck. -/
theorem attempt {Q : α → α → Prop} {m m' : MatchM V (Option α)} (h : M.Runs (Option.Rel Q) m m') :
    M.Runs (Option.Rel Q) (MatchM.attempt m) (MatchM.attempt m') := by
  refine get.bind fun before before' hbefore => (report .nil).bind fun _ _ _ => h.bind ?_
  rintro _ _ (⟨hQ⟩ | _)
  · exact (report hbefore.unparsed).bind fun _ _ _ => pure (.some hQ)
  · have hempty {l l' : List Loc} (hl : List.Forall₂ M.node l l') : l.isEmpty = l'.isEmpty := by
      cases hl <;> rfl
    refine get.bind fun s s' hs => ?_
    dsimp only
    rw [hempty hs.unparsed]
    refine bind (set ⟨hbefore.bindings, ?_⟩) fun _ _ _ => pure .none
    dsimp only
    split
    · exact hbefore.unparsed
    · exact hs.unparsed

end Runs

/-! ## One combinator -/

variable (M)

/-- A builder makes corresponding values from corresponding parts. -/
def RespectsBuild (build : Bindings V → Region → Option V) : Prop :=
  ∀ b b' src src', M.Parts b b' → Option.Rel M.value (build b src) (build b' src')

/-- All builders of the matcher keep the correspondence. -/
def Respects (m : Matcher V) : Prop :=
  ∀ inner build, .tx inner build ∈ m.parts → M.RespectsBuild build

/-- Nested calls keep the correspondence, for matchers whose builders do. -/
def Calls (call call' : MatchCall V) : Prop :=
  ∀ m, M.Respects m → ∀ nodes nodes' parent parent', List.Forall₂ M.node nodes nodes' →
    M.Runs (Option.Rel M.Hit) (call m nodes parent) (call' m nodes' parent')

variable {M} {call call' : MatchCall V}

theorem Respects.of_subset {m m' : Matcher V} (h : M.Respects m) (hsub : m'.parts ⊆ m.parts) :
    M.Respects m' :=
  fun inner build hmem => h inner build (hsub hmem)

theorem Respects.inner {m inner : Matcher V} (h : M.Respects m) (hparts : m.parts = m :: inner.parts) :
    M.Respects inner :=
  h.of_subset (hparts ▸ List.subset_cons_self _ _)

/-- Items of a sequence and alternatives keep the correspondence. -/
theorem Respects.of_mem {items : List (Matcher V)} {m i : Matcher V} (h : M.Respects m)
    (hitems : m = .seq items ∨ m = .or items) (hi : i ∈ items) : M.Respects i := by
  have hsub : i.parts ⊆ Matcher.partsAll items := by
    clear hitems
    induction items with
    | nil => cases hi
    | cons j items ih =>
      rw [Matcher.partsAll]
      rcases List.mem_cons.mp hi with rfl | hi
      · exact List.subset_append_left _ _
      · exact List.subset_append_of_subset_right _ (ih hi)
  rcases hitems with rfl | rfl
  all_goals exact h.of_subset fun p hp => List.mem_cons_of_mem _ (hsub hp)

theorem stepSeq (hcall : M.Calls call call') {ms : List (Matcher V)} (hms : ∀ m ∈ ms, M.Respects m)
    (parent parent' : Loc) {nodes nodes' : List Loc} (hnodes : List.Forall₂ M.node nodes nodes') :
    M.Runs (Option.Rel M.Hits) (Matcher.stepSeq call parent ms nodes)
      (Matcher.stepSeq call' parent' ms nodes') := by
  induction ms generalizing nodes nodes' with
  | nil => exact .pure (.some ⟨.nil, hnodes⟩)
  | cons m ms ih =>
    obtain ⟨hm, hms⟩ := List.forall_mem_cons.mp hms
    refine (hcall m hm nodes nodes' parent parent' hnodes).bind ?_
    rintro _ _ (⟨hv, hmid⟩ | _)
    · refine (ih hms hmid).bind ?_
      rintro _ _ (⟨hvs, hrest⟩ | _)
      · exact .pure (.some ⟨.cons hv hvs, hrest⟩)
      · exact .pure .none
    · exact .pure .none

theorem stepOr (hcall : M.Calls call call') {ms : List (Matcher V)} (hms : ∀ m ∈ ms, M.Respects m)
    (parent parent' : Loc) {nodes nodes' : List Loc} (hnodes : List.Forall₂ M.node nodes nodes') :
    M.Runs (Option.Rel M.Hit) (Matcher.stepOr call nodes parent ms)
      (Matcher.stepOr call' nodes' parent' ms) := by
  induction ms with
  | nil => exact .pure .none
  | cons m ms ih =>
    obtain ⟨hm, hms⟩ := List.forall_mem_cons.mp hms
    refine (hcall m hm nodes nodes' parent parent' hnodes).bind ?_
    rintro _ _ (⟨hhit⟩ | _)
    · exact .pure (.some hhit)
    · exact ih hms

theorem stepStar (hcall : M.Calls call call') {m : Matcher V} (hm : M.Respects m) (parent parent' : Loc)
    (n : Nat) {nodes nodes' : List Loc} (hnodes : List.Forall₂ M.node nodes nodes') :
    M.Runs M.Hits (Matcher.stepStar call m parent n nodes) (Matcher.stepStar call' m parent' n nodes') := by
  induction n generalizing nodes nodes' with
  | zero => exact .pure ⟨.nil, hnodes⟩
  | succ n ih =>
    refine Runs.get.bind fun before before' hbefore => ?_
    refine (hcall m hm nodes nodes' parent parent' hnodes).bind ?_
    rintro _ _ (@⟨⟨v, rest⟩, ⟨v', rest'⟩, hv, hrest⟩ | _)
    · dsimp only at hv hrest ⊢
      rw [hrest.length_eq, hnodes.length_eq]
      split
      · exact (ih hrest).bind fun p p' hp => .pure ⟨.cons hv hp.1, hp.2⟩
      · refine Runs.get.bind fun s s' hs => ?_
        exact .bind (.set ⟨hbefore.bindings, hs.unparsed⟩) fun _ _ _ => .pure ⟨.nil, hnodes⟩
    · exact .pure ⟨.nil, hnodes⟩

theorem stepSpans (hcall : M.Calls call call') {m : Matcher V} (hm : M.Respects m)
    {spans spans' : List (TextSpan Loc)} (hspans : List.Forall₂ (TextSpan.Rel M.node) spans spans') :
    M.Runs (Option.Rel (List.Forall₂ (TextSpan.Rel M.value))) (Matcher.stepSpans call m spans)
      (Matcher.stepSpans call' m spans') := by
  induction hspans with
  | nil => exact .pure (.some .nil)
  | @cons span span' spans spans' hspan _ ih =>
    cases hspan with
    | text s =>
      refine ih.bind ?_
      rintro _ _ (⟨hvs⟩ | _)
      · exact .pure (.some (.cons (.text s) hvs))
      · exact .pure .none
    | @embed item item' hitem =>
      refine (hcall m hm [item] [item'] item item' (.cons hitem .nil)).bind ?_
      rintro _ _ (@⟨⟨v, rest⟩, ⟨v', rest'⟩, hv, hrest⟩ | _)
      · cases hrest with
        | nil =>
          refine ih.bind ?_
          rintro _ _ (⟨hvs⟩ | _)
          · exact .pure (.some (.cons (.embed hv) hvs))
          · exact .pure .none
        | cons => exact .pure .none
      · exact .pure .none

theorem stepRows (hcall : M.Calls call call') {m : Matcher V} (hm : M.Respects m) (table table' : Loc)
    {rows rows' : List (List Loc)} (hrows : List.Forall₂ (List.Forall₂ M.node) rows rows') :
    M.Runs (Option.Rel (List.Forall₂ M.value)) (Matcher.stepRows call m table rows)
      (Matcher.stepRows call' m table' rows') := by
  induction hrows with
  | nil => exact .pure (.some .nil)
  | @cons cells cells' rows rows' hcells _ ih =>
    refine (hcall m hm cells cells' table table' hcells).bind ?_
    rintro _ _ (@⟨⟨v, rest⟩, ⟨v', rest'⟩, hv, hrest⟩ | _)
    · cases hrest with
      | nil =>
        refine ih.bind ?_
        rintro _ _ (⟨hvs⟩ | _)
        · exact .pure (.some (.cons hv hvs))
        · exact .pure .none
      | cons hcell hrest => exact (Runs.report (.cons hcell hrest)).bind fun _ _ _ => .pure .none
    · exact .pure .none

theorem stepWord {accept : String → Loc → MatchM V (Option V)} {nodes nodes' : List Loc}
    (hnodes : List.Forall₂ M.node nodes nodes')
    (haccept : ∀ s l l', M.Runs (Option.Rel M.value) (accept s l) (accept s l')) :
    M.Runs (Option.Rel M.Hit) (Matcher.stepWord cst nodes accept)
      (Matcher.stepWord cst' nodes' accept) := by
  cases hnodes with
  | nil => exact .pure .none
  | @cons l l' rest rest' hl hrest =>
    have halike := M.alike hl
    rw [Matcher.stepWord, Matcher.stepWord]
    generalize cst.node? l = x at halike ⊢
    generalize cst'.node? l' = x' at halike ⊢
    rcases halike with @⟨_, _, s | _ | _ | _⟩ | _
    · refine (haccept s l l').bind ?_
      rintro _ _ (⟨hv⟩ | _)
      · exact .pure (.some ⟨hv, hrest⟩)
      · exact .pure .none
    all_goals exact .pure .none

section Below

variable {g : Grammar V} {nodes nodes' : List Loc} (hcall : M.Calls call call')
  (hnodes : List.Forall₂ M.node nodes nodes') (parent parent' : Loc)

include hcall hnodes

theorem text {inner : Matcher V} (hinner : M.Respects inner) :
    M.Runs (Option.Rel M.Hit) (Matcher.step call g cst (.text inner) nodes parent)
      (Matcher.step call' g cst' (.text inner) nodes' parent') := by
  cases hnodes with
  | nil => exact .pure .none
  | @cons l l' rest rest' hl hrest =>
    have halike := M.alike hl
    simp only [Matcher.step]
    generalize cst.node? l = x at halike ⊢
    generalize cst'.node? l' = x' at halike ⊢
    rcases halike with @⟨_, _, s | hspans | _ | _⟩ | _
    · exact .pure .none
    · refine (stepSpans hcall hinner hspans).bind ?_
      rintro _ _ (⟨hvs⟩ | _)
      · exact .pure (.some ⟨M.ofText hvs l l', hrest⟩)
      · exact .pure .none
    all_goals exact .pure .none

theorem list {inner : Matcher V} (hinner : M.Respects inner) (kind : ListMatch) (role : Option Role) :
    M.Runs (Option.Rel M.Hit) (Matcher.step call g cst (.list kind inner role) nodes parent)
      (Matcher.step call' g cst' (.list kind inner role) nodes' parent') := by
  cases hnodes with
  | nil => exact .pure .none
  | @cons l l' rest rest' hl hrest =>
    have halike := M.alike hl
    simp only [Matcher.step]
    -- The two nodes are known only to be alike, so all that is left of them is the form that they
    -- share.
    generalize cst.node? l = x at halike ⊢
    generalize cst'.node? l' = x' at halike ⊢
    rcases halike with @⟨_, _, s | _ | ⟨found, hchildren⟩ | _⟩ | _
    · exact .pure .none
    · exact .pure .none
    · dsimp only
      split
      · refine (hcall inner hinner _ _ l l' hchildren).bind ?_
        rintro _ _ (@⟨⟨v, left⟩, ⟨v', left'⟩, hv, hleft⟩ | _)
        · cases hleft with
          | nil => exact (Runs.note? l l' role).bind fun _ _ _ => .pure (.some ⟨hv, hrest⟩)
          | cons hchild hleft => exact (Runs.report (.cons hchild hleft)).bind fun _ _ _ => .pure .none
        · exact .pure .none
      · exact .pure .none
    all_goals exact .pure .none

theorem table {row : Matcher V} (hrow : M.Respects row) (kind : ListKind) :
    M.Runs (Option.Rel M.Hit) (Matcher.step call g cst (.table kind row) nodes parent)
      (Matcher.step call' g cst' (.table kind row) nodes' parent') := by
  cases hnodes with
  | nil => exact .pure .none
  | @cons l l' rest rest' hl hrest =>
    have halike := M.alike hl
    simp only [Matcher.step]
    generalize cst.node? l = x at halike ⊢
    generalize cst'.node? l' = x' at halike ⊢
    rcases halike with @⟨_, _, s | _ | _ | ⟨found, hrows⟩⟩ | _
    · exact .pure .none
    · exact .pure .none
    · exact .pure .none
    · dsimp only
      split
      · refine (stepRows hcall hrow l l' hrows).bind ?_
        rintro _ _ (⟨hvs⟩ | _)
        · exact .pure (.some ⟨M.ofMany hvs, hrest⟩)
        · exact .pure .none
      · exact .pure .none
    · exact .pure .none

theorem ref (hg : ∀ name m, g.rule? name = some m → M.Respects m) (rule : String) (n : Option String) :
    M.Runs (Option.Rel M.Hit) (Matcher.step call g cst (.ref rule n) nodes parent)
      (Matcher.step call' g cst' (.ref rule n) nodes' parent') := by
  rcases hrule : g.rule? rule with _ | target
  · simp only [Matcher.step, hrule]
    exact .pure .none
  · simp only [Matcher.step, hrule]
    refine (hcall target (hg rule target hrule) nodes nodes' parent parent' hnodes).bind ?_
    rintro _ _ (@⟨⟨v, rest⟩, ⟨v', rest'⟩, hv, hrest⟩ | _)
    · cases n with
      | none => exact .pure (.some ⟨hv, hrest⟩)
      | some n => exact (Runs.name n hv).bind fun _ _ _ => .pure (.some ⟨hv, hrest⟩)
    · exact .pure .none

theorem tx {inner : Matcher V} {build : Bindings V → Region → Option V} (hinner : M.Respects inner)
    (hbuild : M.RespectsBuild build) :
    M.Runs (Option.Rel M.Hit) (Matcher.step call g cst (.tx inner build) nodes parent)
      (Matcher.step call' g cst' (.tx inner build) nodes' parent') := by
  refine Runs.get.bind fun outer outer' houter => (Runs.setBindings .nil).bind fun _ _ _ => ?_
  refine (hcall inner hinner nodes nodes' parent parent' hnodes).bind fun r r' hr => ?_
  refine Runs.get.bind fun own own' hown => (Runs.setBindings houter.bindings).bind fun _ _ _ => ?_
  rcases hr with @⟨⟨v, rest⟩, ⟨v', rest'⟩, -, hrest⟩ | _
  · have hv := hbuild own.bindings own'.bindings (Matcher.regionOf nodes rest parent)
      (Matcher.regionOf nodes' rest' parent') hown.bindings
    dsimp only
    generalize build own.bindings (Matcher.regionOf nodes rest parent) = x at hv ⊢
    generalize build own'.bindings (Matcher.regionOf nodes' rest' parent') = x' at hv ⊢
    rcases hv with ⟨hv⟩ | _
    · exact .pure (.some ⟨hv, hrest⟩)
    · exact .pure .none
  · exact .pure .none

/-- **One combinator keeps the correspondence** if the calls for its parts do. -/
theorem step (hg : ∀ name m, g.rule? name = some m → M.Respects m) {m : Matcher V} (hm : M.Respects m) :
    M.Runs (Option.Rel M.Hit) (Matcher.step call g cst m nodes parent)
      (Matcher.step call' g cst' m nodes' parent') := by
  cases m with
  | any =>
    cases hnodes with
    | nil => exact .pure .none
    | cons hl hrest => exact .pure (.some ⟨M.ofNode _ _, hrest⟩)
  | kwd word role =>
    refine stepWord hnodes fun s l l' => ?_
    split
    · exact (Runs.note l l' role).bind fun _ _ _ => .pure (.some (M.ofId s l l'))
    · exact .pure .none
  | id role =>
    refine stepWord hnodes fun s l l' => ?_
    split
    · exact .pure .none
    · exact (Runs.note? l l' role).bind fun _ _ _ => .pure (.some (M.ofId s l l'))
  | number =>
    refine stepWord hnodes fun s l l' => ?_
    split
    · exact .pure (.some (M.ofNumber _ l l'))
    · exact .pure .none
  | text inner => exact text hcall hnodes parent parent' (hm.inner rfl)
  | list kind inner role =>
    exact list hcall hnodes parent parent' (hm.inner rfl) kind role
  | table kind row => exact table hcall hnodes parent parent' (hm.inner rfl) kind
  | seq items =>
    refine (stepSeq hcall (fun i hi => hm.of_mem (.inl rfl) hi) parent parent' hnodes).bind ?_
    rintro _ _ (⟨hvs, hrest⟩ | _)
    · exact .pure (.some ⟨M.ofMany hvs, hrest⟩)
    · exact .pure .none
  | or items => exact stepOr hcall (fun i hi => hm.of_mem (.inr rfl) hi) parent parent' hnodes
  | star inner =>
    simp only [Matcher.step]
    -- Corresponding siblings are equally many, so both repetitions have the same bound.
    rw [hnodes.length_eq]
    exact (stepStar hcall (hm.inner rfl) parent parent' _ hnodes).bind
      fun p p' hp => .pure (.some ⟨M.ofMany hp.1, hp.2⟩)
  | opt inner =>
    refine (hcall inner (hm.inner rfl) nodes nodes' parent parent' hnodes).bind ?_
    rintro _ _ (⟨hhit⟩ | _)
    · exact .pure (.some hhit)
    · exact .pure (.some ⟨M.absent, hnodes⟩)
  | group n inner =>
    refine (hcall inner (hm.inner rfl) nodes nodes' parent parent' hnodes).bind ?_
    rintro _ _ (@⟨⟨v, rest⟩, ⟨v', rest'⟩, hv, hrest⟩ | _)
    · exact (Runs.name n hv).bind fun _ _ _ => .pure (.some ⟨hv, hrest⟩)
    · exact .pure .none
  | ref rule n => exact ref hcall hnodes parent parent' hg rule n
  | tx inner build =>
    exact tx hcall hnodes parent parent' (hm.inner rfl)
      (hm inner build List.mem_cons_self)

end Below

/-! ## Runs of the engine -/

/-- **Whole runs of the engine keep the correspondence**, with whatever bound on nested calls. -/
theorem match? {g : Grammar V} (hg : ∀ name m, g.rule? name = some m → M.Respects m) (fuel : Nat) :
    M.Calls (g.match? cst fuel) (g.match? cst' fuel) := by
  induction fuel with
  | zero => exact fun m hm nodes nodes' parent parent' hnodes s s' hs => .none
  | succ fuel ih =>
    exact fun m hm nodes nodes' parent parent' hnodes => (step ih hnodes parent parent' hg hm).attempt

end Mirror
end TypeTrace
