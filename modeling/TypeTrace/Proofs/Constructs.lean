import TypeTrace.Proofs.Regions

/-!
# What is in a construct

Tuples, arrays, suffixes and operators have no constructs of their own: they are calls, and patterns for
constructors, that are put around the constructs read from a source.  Nothing that was read is lost in
this, and nothing else is in the result but the calls and the variables that are called.

## Main definitions

* `Construct.All`: a property of a construct and of all constructs in it

## Main results

* `Construct.all_iff`: the property of a construct, and of those directly in it
* `Construct.below_tuple`, `Construct.below_applyAll`, `Construct.below_operand`, …: no part is lost
* `Construct.all_tuple`, `Construct.all_applyAll`, `Construct.all_grouping`, …: what is in the result
-/

namespace TypeTrace
namespace Construct

variable {t part u : Construct} {P : Construct → Prop}

/-- A property of a construct and of all constructs in it. -/
def All (P : Construct → Prop) (t : Construct) : Prop := ∀ part, t.Below part → P part

theorem Below.child (hpart : part ∈ t.children) (h : part.Below u) : t.Below u :=
  Relation.ReflTransGen.head hpart h

theorem below_child (hpart : part ∈ t.children) : t.Below part :=
  Relation.ReflTransGen.single hpart

theorem Below.trans (h : t.Below part) (h' : part.Below u) : t.Below u :=
  Relation.ReflTransGen.trans h h'

theorem all_iff : t.All P ↔ P t ∧ ∀ part ∈ t.children, part.All P := by
  constructor
  · exact fun h => ⟨h t .refl, fun part hpart u hu => h u (.child hpart hu)⟩
  · rintro ⟨ht, hparts⟩ u hu
    rcases Relation.ReflTransGen.cases_head hu with rfl | ⟨part, hpart, hu⟩
    · exact ht
    · exact hparts part hpart u hu

theorem All.of_children (ht : P t) (hparts : ∀ part ∈ t.children, part.All P) : t.All P :=
  all_iff.2 ⟨ht, hparts⟩

/-- A construct without parts. -/
theorem All.leaf (ht : P t) (hnone : t.children = []) : t.All P := by
  refine .of_children ht fun part hpart => ?_
  rw [hnone] at hpart
  cases hpart

/-! ## Tuples and arrays -/

section

variable {src : Region} {e : Expr} {es : List Expr} {p : Pat} {ps : List Pat}

theorem below_tuple (he : e ∈ es) : (expr (Phrase.tuple src es)).Below (.expr e) := by
  induction es with
  | nil => cases he
  | cons first rest ih =>
    cases rest with
    | nil =>
      -- One member stands for itself, without a call around it.
      obtain rfl := List.mem_singleton.1 he
      exact .refl
    | cons second rest =>
      rcases List.mem_cons.1 he with rfl | he
      · exact below_child (by simp [Phrase.tuple, children])
      · exact .child (by simp [Phrase.tuple, children]) (ih he)

theorem below_array (he : e ∈ es) : (expr (Phrase.array src es)).Below (.expr e) := by
  induction es with
  | nil => cases he
  | cons first rest ih =>
    rcases List.mem_cons.1 he with rfl | he
    · exact below_child (by simp [Phrase.array, children])
    · exact .child (by simp [Phrase.array, children]) (ih he)

theorem below_tuplePat (hp : p ∈ ps) : (pat (Phrase.tuplePat src ps)).Below (.pat p) := by
  induction ps with
  | nil => cases hp
  | cons first rest ih =>
    cases rest with
    | nil =>
      obtain rfl := List.mem_singleton.1 hp
      exact .refl
    | cons second rest =>
      rcases List.mem_cons.1 hp with rfl | hp
      · exact below_child (by simp [Phrase.tuplePat, children])
      · exact .child (by simp [Phrase.tuplePat, children]) (ih hp)

variable (hcall : ∀ target args src, P (.expr (.call target args src)))

include hcall in
/-- A call of a variable. -/
theorem all_call {name : String} {src' : Region} {args : List Expr} (hname : P (.expr (.var name src)))
    (hargs : ∀ e ∈ args, (expr e).All P) : (expr (.call (.var name src) args src')).All P := by
  refine .of_children (hcall _ _ _) ?_
  simp only [children, List.forall_mem_cons, List.forall_mem_map]
  exact ⟨.leaf hname rfl, hargs⟩

include hcall in
theorem all_tuple (hnull : P (.expr (.var "null" src))) (hpair : P (.expr (.var "," src)))
    (hes : ∀ e ∈ es, (expr e).All P) : (expr (Phrase.tuple src es)).All P := by
  induction es with
  | nil => exact .leaf hnull rfl
  | cons first rest ih =>
    obtain ⟨hfirst, hrest⟩ := List.forall_mem_cons.1 hes
    cases rest with
    | nil => exact hfirst
    | cons second rest => exact all_call hcall hpair (by simpa using ⟨hfirst, ih hrest⟩)

include hcall in
theorem all_array (hnil : P (.expr (.var "[]" src))) (hcons : P (.expr (.var "::" src)))
    (hes : ∀ e ∈ es, (expr e).All P) : (expr (Phrase.array src es)).All P := by
  induction es with
  | nil => exact .leaf hnil rfl
  | cons first rest ih =>
    obtain ⟨hfirst, hrest⟩ := List.forall_mem_cons.1 hes
    exact all_call hcall hcons (by simpa using ⟨hfirst, ih hrest⟩)

theorem all_tuplePat (hcon : ∀ name args src, P (.pat (.con name args src)))
    (hps : ∀ p ∈ ps, (pat p).All P) : (pat (Phrase.tuplePat src ps)).All P := by
  induction ps with
  | nil => exact .leaf (hcon _ _ _) rfl
  | cons first rest ih =>
    obtain ⟨hfirst, hrest⟩ := List.forall_mem_cons.1 hps
    cases rest with
    | nil => exact hfirst
    | cons second rest =>
      refine .of_children (hcon _ _ _) ?_
      simpa [Phrase.tuplePat, children] using ⟨hfirst, ih hrest⟩

/-! ## Suffixes and operators -/

/-- Induction along the calls that suffixes make: one suffix, or an attribute and the call after it, make a
call out of what they are applied to and their own parts. -/
theorem applyAll_induction {motive : Expr → List Suffix → Prop} (base : ∀ target, motive target [])
    (call : ∀ target used rest fn args src,
      Suffix.applyAll target (used ++ rest) = Suffix.applyAll (.call fn args src) rest →
      (∀ part, part ∈ (expr (.call fn args src)).children ↔
        part = .expr target ∨ ∃ s ∈ used, part ∈ s.parts) →
      motive (.call fn args src) rest → motive target (used ++ rest))
    (target : Expr) (suffixes : List Suffix) : motive target suffixes := by
  induction suffixes using Suffix.induction generalizing target with
  | nil => exact base target
  | method name nameSrc args src rest ih =>
    refine call target [.attr name nameSrc, .call args src] rest _ _ _ rfl (fun part => ?_) (ih _)
    simp [children, Suffix.parts, or_left_comm]
  | attr name src rest halone ih =>
    refine call target [.attr name src] rest _ _ _ (Suffix.applyAll_attr halone) (fun part => ?_) (ih _)
    simp [children, Suffix.parts, or_comm]
  | index value src rest ih =>
    refine call target [.index value src] rest _ _ _ rfl (fun part => ?_) (ih _)
    simp [children, Suffix.parts, or_left_comm]
  | call args src rest ih =>
    refine call target [.call args src] rest _ _ _ rfl (fun part => ?_) (ih _)
    simp [children, Suffix.parts]

/-- The base of some suffixes, and what they bring with them. -/
theorem below_applyAll {target : Expr} {suffixes : List Suffix}
    (h : part = .expr target ∨ ∃ s ∈ suffixes, part ∈ s.parts) :
    (expr (Suffix.applyAll target suffixes)).Below part := by
  induction target, suffixes using applyAll_induction generalizing part with
  | base target =>
    rcases h with rfl | ⟨s, hs, -⟩
    · exact .refl
    · cases hs
  | call target used rest fn args src happly hparts ih =>
    rw [happly]
    have hbase := ih (.inl rfl)
    rcases h with rfl | ⟨s, hs, hpart⟩
    · exact hbase.trans (below_child ((hparts _).2 (.inl rfl)))
    · rcases List.mem_append.1 hs with hs | hs
      · exact hbase.trans (below_child ((hparts _).2 (.inr ⟨s, hs, hpart⟩)))
      · exact ih (.inr ⟨s, hs, hpart⟩)

include hcall in
theorem all_applyAll {target : Expr} {suffixes : List Suffix} (htarget : (expr target).All P)
    (hsuffixes : ∀ s ∈ suffixes, ∀ part ∈ s.parts, part.All P) :
    (expr (Suffix.applyAll target suffixes)).All P := by
  induction target, suffixes using applyAll_induction with
  | base target => exact htarget
  | call target used rest fn args src happly hparts ih =>
    rw [happly]
    refine ih (.of_children (hcall _ _ _) fun part hpart => ?_) fun s hs =>
      hsuffixes s (List.mem_append_right _ hs)
    rcases (hparts part).1 hpart with rfl | ⟨s, hs, hpart⟩
    · exact htarget
    · exact hsuffixes s (List.mem_append_left _ hs) part hpart

theorem below_first (tree : Operator.Grouping) : (expr tree.expr).Below (.expr tree.first) := by
  induction tree with
  | operand value => exact .refl
  | apply op left right ihleft _ =>
    exact .child (by simp [Operator.Grouping.expr, children]) ihleft

theorem below_operand {tree : Operator.Grouping} {o : Word × Expr} (ho : o ∈ tree.rest) :
    (expr tree.expr).Below (.expr o.2) := by
  induction tree with
  | operand value => cases ho
  | apply op left right ihleft ihright =>
    have hleft : .expr left.expr ∈ (expr (Operator.Grouping.apply op left right).expr).children := by
      simp [Operator.Grouping.expr, children]
    have hright : .expr right.expr ∈ (expr (Operator.Grouping.apply op left right).expr).children := by
      simp [Operator.Grouping.expr, children]
    -- From left to right: the left side, the operator of the tree, and the right side after its first operand.
    rcases List.mem_append.1 ho with ho | ho
    · exact .child hleft (ihleft ho)
    · rcases List.mem_cons.1 ho with rfl | ho
      · exact .child hright (below_first right)
      · exact .child hright (ihright ho)

include hcall in
theorem all_grouping {tree : Operator.Grouping} (hfirst : (expr tree.first).All P)
    (hrest : ∀ o ∈ tree.rest, P (.expr (.var o.1.text ⟨o.1.loc, none⟩)) ∧ (expr o.2).All P) :
    (expr tree.expr).All P := by
  induction tree with
  | operand value => exact hfirst
  | apply op left right ihleft ihright =>
    simp only [Operator.Grouping.rest, List.forall_mem_append, List.forall_mem_cons] at hrest
    obtain ⟨hleft, ⟨hop, hmid⟩, hright⟩ := hrest
    exact all_call hcall hop (by simpa using ⟨ihleft hfirst hleft, ihright hmid hright⟩)

end

end Construct

/-! ## Phrases as statements and as bodies -/

namespace Phrase

variable {v : Phrase} {s : Stmt} {e : Expr}

theorem eq_of_stmt? (h : v.stmt? = some s) : v = .stmt s ∨ ∃ e, v = .expr e ∧ s = .expr e e.region := by
  cases v with
  | stmt s' => exact .inl (congrArg _ (Option.some.inj h))
  | expr e => exact .inr ⟨e, rfl, (Option.some.inj h).symm⟩
  | absent | node | word | number | text | many | pat | suffix | case => cases h

theorem eq_of_body? (h : v.body? = some e) :
    v = .expr e ∨ (∃ src, v = .stmt (.expr e src)) ∨ ∃ s, v = .stmt s ∧ e = .block [s] s.region := by
  cases v with
  | expr e' => exact .inl (congrArg _ (Option.some.inj h))
  | stmt s =>
    cases s with
    | expr e' src =>
      cases h
      exact .inr (.inl ⟨src, rfl⟩)
    | forLoop | letBind | ret => exact .inr (.inr ⟨_, rfl, (Option.some.inj h).symm⟩)
  | absent | node | word | number | text | many | pat | suffix | case => cases h

end Phrase

end TypeTrace
