import TypeTrace.Syntax.Operator

/-!
# Operators and precedence

A sequence of operands and operators stands for a tree.  The operator at the top of the tree is one of
the loosest in the sequence: the last of these if they group to the left, and the first if they group to
the right.  On both sides of it stand shorter sequences, for which the same is true.

Climbing finds this tree in one pass, without looking for loosest operators.  What waits on its stacks is
a sequence of trees with operators between them.  Each of these operators binds tighter than the one
below it, or as tight and groups to the right; so all operators to the right of a pending operator belong
to its right side, and the operators that were applied before it was read belong to its left side.

## Main definitions

* `Operator.Grouping`: operands with operators between them, as a tree
* `Operator.SplitsAt`, `Operator.Groups`: the tree of a sequence, found by splitting it
* `Operator.stacksAfter`: the stacks after a part of a sequence
* `Operator.Stacked`: what the stacks hold

## Main results

* `Operator.Groups.unique`: a sequence has one tree at most
* `Operator.Stacked.reduceWhile`: applying pending operators keeps what the stacks hold
* `Operator.climb_builds_tree`: climbing finds the tree of a sequence
-/

namespace TypeTrace.Operator

/-! ## The tree of a sequence -/

/-- Operands with operators between them, as a tree. -/
inductive Grouping where
  | operand (value : Expr)
  | apply (op : Word) (left right : Grouping)

namespace Grouping

/-- The tree as an expression.  The operator is a variable, called with both sides; the call reaches from
the start of the left side to the end of the right one. -/
def expr : Grouping → Expr
  | operand value => value
  | apply op left right =>
    .call (.var op.text ⟨op.loc, none⟩) [left.expr, right.expr]
      (left.expr.region.merge right.expr.region)

/-- The leftmost operand. -/
def first : Grouping → Expr
  | operand value => value
  | apply _ left _ => left.first

/-- The operators from left to right, each with the operand after it. -/
def rest : Grouping → List (Word × Expr)
  | operand _ => []
  | apply op left right => left.rest ++ (op, right.first) :: right.rest

end Grouping

/-- An operator at which a sequence is split: it is one of the loosest, and of these it is the last if
they group to the left, and the first if they group to the right. -/
structure SplitsAt (before : List (Word × Expr)) (op : Word) (after : List (Word × Expr))
    (level : Nat) (assoc : Assoc) : Prop where
  level_eq : level? op.text = some (level, assoc)
  loosest (p : Word × Expr) (hp : p ∈ before ++ after) :
    ∃ l a, level? p.1.text = some (l, a) ∧ level ≤ l
  last (hassoc : assoc = .left) (p : Word × Expr) (hp : p ∈ after) (a : Assoc) :
    level? p.1.text ≠ some (level, a)
  first (hassoc : assoc = .right) (p : Word × Expr) (hp : p ∈ before) (a : Assoc) :
    level? p.1.text ≠ some (level, a)

/-- The tree of an operand and the operators and operands after it: the sequence is split, both sides are
grouped, and the operator between them is put on top. -/
inductive Groups : Expr → List (Word × Expr) → Grouping → Prop
  | operand (value : Expr) : Groups value [] (.operand value)
  | split {first right : Expr} {before after : List (Word × Expr)} {op : Word} {level : Nat}
    {assoc : Assoc} {t u : Grouping} (hsplits : SplitsAt before op after level assoc)
    (hleft : Groups first before t) (hright : Groups right after u) :
    Groups first (before ++ (op, right) :: after) (.apply op t u)

/-! ## Which of two operators is applied first -/

theorem levelIn_eq_some {op : String} {start level : Nat} {assoc : Assoc}
    {table : List (List String × Assoc)} (h : levelIn op start table = some (level, assoc)) :
    ∃ i row, level = start + i ∧ table[i]? = some row ∧ op ∈ row.1 ∧ row.2 = assoc := by
  induction table generalizing start with
  | nil => cases h
  | cons row table ih =>
    rw [levelIn] at h
    split at h
    · next hmem =>
      cases h
      exact ⟨0, row, rfl, rfl, List.contains_iff_mem.1 hmem, rfl⟩
    · obtain ⟨i, found, rfl, hrow, hop, hassoc⟩ := ih h
      exact ⟨i + 1, found, by omega, hrow, hop, hassoc⟩

theorem exists_levelIn {op : String} (start : Nat) {table : List (List String × Assoc)}
    {row : List String × Assoc} (hrow : row ∈ table) (hop : op ∈ row.1) :
    ∃ level assoc, levelIn op start table = some (level, assoc) := by
  induction table generalizing start with
  | nil => cases hrow
  | cons row' table ih =>
    rw [levelIn]
    split
    · exact ⟨start, row'.2, rfl⟩
    · next hmem =>
      rcases List.mem_cons.1 hrow with rfl | hrow
      · exact absurd (List.contains_iff_mem.2 hop) hmem
      · exact ih (start + 1) hrow

/-- The operators that have a level are those of the table. -/
theorem exists_level?_iff {op : String} :
    (∃ level assoc, level? op = some (level, assoc)) ↔ ∃ row ∈ levels, op ∈ row.1 := by
  constructor
  · rintro ⟨level, assoc, h⟩
    obtain ⟨i, row, -, hrow, hop, -⟩ := levelIn_eq_some h
    exact ⟨row, List.mem_of_getElem? hrow, hop⟩
  · rintro ⟨row, hrow, hop⟩
    exact exists_levelIn 0 hrow hop

/-- All operators of a level group alike. -/
theorem assoc_eq_of_level {op op' : String} {level : Nat} {a a' : Assoc}
    (h : level? op = some (level, a)) (h' : level? op' = some (level, a')) : a = a' := by
  obtain ⟨i, row, hi, hrow, -, rfl⟩ := levelIn_eq_some h
  obtain ⟨j, row', hj, hrow', -, rfl⟩ := levelIn_eq_some h'
  obtain rfl : i = j := by omega
  rw [hrow] at hrow'
  cases hrow'
  rfl

/-- An operator of level `l` and one of level `l'` to the right of it: the one on the given side is applied
first if it binds tighter, or if both are of one level, which groups to this side. -/
def Prefers (side : Assoc) (l : Nat) (a : Assoc) (l' : Nat) : Prop :=
  match side with
  | .left => l' < l ∨ l' = l ∧ a = .left
  | .right => l < l' ∨ l' = l ∧ a = .right

/-- Of two operators, one left of the other, the one on the given side is applied first. -/
def AppliedFirst (side : Assoc) (op op' : Word) : Prop :=
  ∃ l a l' a', level? op.text = some (l, a) ∧ level? op'.text = some (l', a') ∧ Prefers side l a l'

section AppliedFirst

variable {side : Assoc} {p q r : Word} {l l' : Nat} {a a' : Assoc}

theorem appliedFirst_iff (hp : level? p.text = some (l, a)) (hq : level? q.text = some (l', a')) :
    AppliedFirst side p q ↔ Prefers side l a l' := by
  constructor
  · rintro ⟨m, b, m', b', hp', hq', hprefers⟩
    cases hp.symm.trans hp'
    cases hq.symm.trans hq'
    exact hprefers
  · exact fun hprefers => ⟨l, a, l', a', hp, hq, hprefers⟩

theorem Prefers.trans {m : Nat} {b : Assoc} (h : Prefers side l a l') (h' : Prefers side l' b m) :
    Prefers side l a m := by
  cases side <;> grind [Prefers]

theorem AppliedFirst.trans (h : AppliedFirst side p q) (h' : AppliedFirst side q r) :
    AppliedFirst side p r := by
  obtain ⟨l, a, l', a', hp, hq, hprefers⟩ := h
  obtain ⟨m, b, m', b', hq', hr, hprefers'⟩ := h'
  cases hq.symm.trans hq'
  exact ⟨l, a, m', b', hp, hr, hprefers.trans hprefers'⟩

/-- Of two operators only one is applied first. -/
theorem AppliedFirst.not_right (h : AppliedFirst .left p q) : ¬AppliedFirst .right p q := by
  obtain ⟨l, a, l', a', hp, hq, hleft⟩ := h
  rw [appliedFirst_iff hp hq]
  intro hright
  grind [Prefers]

theorem prefers_right_of_not_left (h : ¬Prefers .left l a l') : Prefers .right l a l' := by
  cases a <;> grind [Prefers]

/-- A pending operator is complete if it is applied before the operator that follows. -/
theorem Pending.endsAt_iff {p : Pending} {level : Nat} :
    p.endsAt level = true ↔ Prefers .left p.level p.assoc level := by
  simp [endsAt, Prefers]

/-- A sequence is split at an operator that is applied after all others. -/
theorem splitsAt_iff {before after : List (Word × Expr)} (hop : level? p.text = some (l, a)) :
    SplitsAt before p after l a ↔
      (∀ e ∈ before, AppliedFirst .left e.1 p) ∧ ∀ e ∈ after, AppliedFirst .right p e.1 := by
  constructor
  · intro h
    constructor
    · intro e he
      obtain ⟨m, b, hlevel, hle⟩ := h.loosest e (List.mem_append_left _ he)
      rw [appliedFirst_iff hlevel hop]
      rcases Nat.lt_or_eq_of_le hle with hlt | rfl
      · exact .inl hlt
      · -- It is one of the loosest and not the last of them, so these group to the left.
        obtain rfl := assoc_eq_of_level hlevel hop
        cases b with
        | left => exact .inr ⟨rfl, rfl⟩
        | right => exact absurd hlevel (h.first rfl e he _)
    · intro e he
      obtain ⟨m, b, hlevel, hle⟩ := h.loosest e (List.mem_append_right _ he)
      rw [appliedFirst_iff hop hlevel]
      rcases Nat.lt_or_eq_of_le hle with hlt | rfl
      · exact .inl hlt
      · cases a with
        | left => exact absurd hlevel (h.last rfl e he _)
        | right => exact .inr ⟨rfl, rfl⟩
  -- Conversely, what is applied first is not looser, and equally loose only on the side to which it
  -- groups.
  · rintro ⟨hbefore, hafter⟩
    refine ⟨hop, ?_, ?_, ?_⟩
    · intro e he
      rcases List.mem_append.1 he with he | he
      · obtain ⟨m, b, m', b', hlevel, hop', hprefers⟩ := hbefore e he
        cases hop.symm.trans hop'
        exact ⟨m, b, hlevel, by grind [Prefers]⟩
      · obtain ⟨m, b, m', b', hop', hlevel, hprefers⟩ := hafter e he
        cases hop.symm.trans hop'
        exact ⟨m', b', hlevel, by grind [Prefers]⟩
    · rintro rfl e he b hlevel
      have hprefers := (appliedFirst_iff hop hlevel).1 (hafter e he)
      grind [Prefers]
    · rintro rfl e he b hlevel
      obtain rfl := assoc_eq_of_level hlevel hop
      have hprefers := (appliedFirst_iff hlevel hop).1 (hbefore e he)
      grind [Prefers]

end AppliedFirst

/-! ## One tree only -/

/-- A sequence is split in one place only. -/
theorem SplitsAt.unique {before before' after after' : List (Word × Expr)} {op op' : Word}
    {right right' : Expr} {l l' : Nat} {a a' : Assoc} (h : SplitsAt before op after l a)
    (h' : SplitsAt before' op' after' l' a')
    (heq : before ++ (op, right) :: after = before' ++ (op', right') :: after') :
    before = before' ∧ op = op' ∧ right = right' ∧ after = after' := by
  obtain ⟨hbefore, hafter⟩ := (splitsAt_iff h.level_eq).1 h
  obtain ⟨hbefore', hafter'⟩ := (splitsAt_iff h'.level_eq).1 h'
  rcases List.append_eq_append_iff.1 heq with ⟨between, rfl, hrest⟩ | ⟨between, rfl, hrest⟩
  · cases between with
    | nil => simp_all
    | cons e between =>
      -- The first operator stands before the second, and each would have to be applied last.
      simp only [List.cons_append, List.cons.injEq] at hrest
      obtain ⟨rfl, rfl⟩ := hrest
      exact absurd (hafter (op', right') (by simp)) (hbefore' (op, right) (by simp)).not_right
  · cases between with
    | nil => simp_all
    | cons e between =>
      simp only [List.cons_append, List.cons.injEq] at hrest
      obtain ⟨rfl, rfl⟩ := hrest
      exact absurd (hafter' (op, right) (by simp)) (hbefore (op', right') (by simp)).not_right

/-- **A sequence has one tree at most.** -/
theorem Groups.unique {first : Expr} {rest : List (Word × Expr)} {t t' : Grouping}
    (h : Groups first rest t) (h' : Groups first rest t') : t = t' := by
  induction h generalizing t' with
  | operand value =>
    generalize hnil : ([] : List (Word × Expr)) = rest at h'
    cases h' with
    | operand => rfl
    | split => simp at hnil
  | @split first right before after op level assoc t u hsplits hleft hright ihleft ihright =>
    generalize hrest : before ++ (op, right) :: after = rest at h'
    cases h' with
    | operand => simp at hrest
    | split hsplits' hleft' hright' =>
      obtain ⟨rfl, rfl, rfl, rfl⟩ := hsplits.unique hsplits' hrest
      rw [ihleft hleft', ihright hright']

/-- The tree of a sequence has its operands and operators, in order. -/
theorem Groups.inorder {first : Expr} {rest : List (Word × Expr)} {t : Grouping}
    (h : Groups first rest t) : t.first = first ∧ t.rest = rest := by
  induction h with
  | operand value => exact ⟨rfl, rfl⟩
  | split hsplits hleft hright ihleft ihright =>
    refine ⟨ihleft.1, ?_⟩
    rw [Grouping.rest, ihleft.2, ihright.1, ihright.2]

/-! ## What the stacks hold -/

/-- The stacks after some operators and operands, given the stacks before. -/
def stacksAfter (ops : List Pending) (operands : List Expr) :
    List (Word × Expr) → Option (List Pending × List Expr)
  | [] => some (ops, operands)
  | (op, right) :: rest =>
    (level? op.text).bind fun found =>
      (reduceWhile (·.endsAt found.1) ops operands).bind fun both =>
        stacksAfter (⟨op, found.1, found.2⟩ :: both.1) (right :: both.2) rest

/-- Climbing goes through the sequence and then applies all operators that are left. -/
theorem climbWith_eq (ops : List Pending) (operands : List Expr) (rest : List (Word × Expr)) :
    climbWith ops operands rest =
      (stacksAfter ops operands rest).bind fun both =>
        (reduceWhile (fun _ => true) both.1 both.2).bind (·.2.head?) := by
  induction rest generalizing ops operands with
  | nil => rfl
  | cons e rest ih =>
    obtain ⟨op, right⟩ := e
    rw [climbWith, stacksAfter]
    cases level? op.text with
    | none => rfl
    | some found =>
      simp only [Option.bind_eq_bind, Option.bind_some]
      cases reduceWhile (·.endsAt found.1) ops operands with
      | none => rfl
      | some both => exact ih (⟨op, found.1, found.2⟩ :: both.1) (right :: both.2)

/-- The stacks hold a sequence: trees, the latest first, and between them the operators that are pending.
A pending operator is applied after all operators in the trees on both sides of it, and after the pending
operators above it. -/
inductive Stacked (first : Expr) : List (Word × Expr) → List Pending → List Grouping → Prop
  | bottom {rest : List (Word × Expr)} {t : Grouping} (ht : Groups first rest t) :
    Stacked first rest [] [t]
  | push {rest more : List (Word × Expr)} {p : Pending} {ops : List Pending} {right : Expr}
    {t u : Grouping} {ts : List Grouping} (hbelow : Stacked first rest ops (t :: ts))
    (hp : level? p.op.text = some (p.level, p.assoc)) (hu : Groups right more u)
    (hleft : ∀ e ∈ t.rest, AppliedFirst .left e.1 p.op)
    (hright : ∀ e ∈ more, AppliedFirst .right p.op e.1)
    (hops : ∀ q ∈ ops.head?, AppliedFirst .right q.op p.op) :
    Stacked first (rest ++ (p.op, right) :: more) (p :: ops) (u :: t :: ts)

namespace Stacked

variable {first : Expr} {rest : List (Word × Expr)} {p : Pending} {ops : List Pending}
  {t u : Grouping} {ts : List Grouping}

/-- There is one operand more than there are pending operators. -/
theorem length_eq (h : Stacked first rest ops ts) : ts.length = ops.length + 1 := by
  induction h with
  | bottom => rfl
  | push _ _ _ _ _ _ ih => simp [ih]

/-- The pending operators are operators. -/
theorem level_eq (h : Stacked first rest ops ts) :
    ∀ p ∈ ops, level? p.op.text = some (p.level, p.assoc) := by
  induction h with
  | bottom => simp
  | push _ hp _ _ _ _ ih => exact List.forall_mem_cons.2 ⟨hp, ih⟩

theorem groups_apply {before after : List (Word × Expr)} {left right : Expr}
    (ht : Groups left before t) (hu : Groups right after u)
    (hp : level? p.op.text = some (p.level, p.assoc))
    (hleft : ∀ e ∈ t.rest, AppliedFirst .left e.1 p.op)
    (hright : ∀ e ∈ after, AppliedFirst .right p.op e.1) :
    Groups left (before ++ (p.op, right) :: after) (.apply p.op t u) := by
  rw [ht.inorder.2] at hleft
  exact .split ((splitsAt_iff hp).2 ⟨hleft, hright⟩) ht hu

/-- **One operator is applied**, and the stacks hold the same sequence. -/
theorem reduce (h : Stacked first rest (p :: ops) (u :: t :: ts)) :
    Stacked first rest ops (.apply p.op t u :: ts) := by
  cases h with
  | push hbelow hp hu hleft hright hops =>
    cases hbelow with
    | bottom ht => exact .bottom (groups_apply ht hu hp hleft hright)
    | @push rest' more' q ops' right' _ _ _ hbelow' hq ht hleft' hright' hops' =>
      rw [List.append_assoc, List.cons_append]
      refine .push hbelow' hq (groups_apply ht hu hp hleft hright) hleft' ?_ hops'
      -- What belongs to the right side of the next pending operator: the old right side, the operator
      -- that was applied, and all that belonged to it.
      have hqp := hops q rfl
      intro e he
      rcases List.mem_append.1 he with he | he
      · exact hright' e he
      · rcases List.mem_cons.1 he with rfl | he
        · exact hqp
        · exact hqp.trans (hright e he)

/-- **Operators are applied** as long as they are complete, and there are always operands enough.  What
the latest tree then consists of are operators that were complete, and operators applied before these. -/
theorem reduceWhile (ends : Pending → Bool) (low : Word → Prop)
    (hlow : ∀ p, level? p.op.text = some (p.level, p.assoc) → ends p = true →
      low p.op ∧ ∀ op, AppliedFirst .left op p.op → low op)
    (h : Stacked first rest ops (t :: ts)) (ht : ∀ e ∈ t.rest, low e.1) :
    ∃ ops' t' ts', Operator.reduceWhile ends ops ((t :: ts).map Grouping.expr) =
        some (ops', (t' :: ts').map Grouping.expr) ∧
      Stacked first rest ops' (t' :: ts') ∧ (∀ e ∈ t'.rest, low e.1) ∧
      ∀ p ∈ ops'.head?, ends p = false := by
  induction ops generalizing t ts with
  | nil => exact ⟨[], t, ts, rfl, h, ht, by simp⟩
  | cons p ops ih =>
    by_cases hp : ends p = true
    · obtain ⟨u, us, rfl⟩ : ∃ u us, ts = u :: us := by
        cases h
        exact ⟨_, _, rfl⟩
      -- The tree that is built has the left operand, the operator and the right operand; for each
      -- of the three it is known that their operators are low.
      have hnext := ih h.reduce ?_
      · simpa [Operator.reduceWhile, hp, Grouping.expr, apply] using hnext
      · obtain ⟨hpop, hbefore⟩ := hlow p (h.level_eq p List.mem_cons_self) hp
        intro e he
        rcases List.mem_append.1 he with he | he
        · cases h with
          | push _ _ _ hleft => exact hbefore e.1 (hleft e he)
        · rcases List.mem_cons.1 he with rfl | he
          · exact hpop
          · exact ht e he
    · refine ⟨p :: ops, t, ts, ?_, h, ht, ?_⟩
      · simp [Operator.reduceWhile, hp]
      · simpa using hp

/-- **A sequence is read**, operator by operator, and then the stacks hold it too. -/
theorem stacksAfter {more : List (Word × Expr)} (h : Stacked first rest ops (t :: ts)) (ht : t.rest = [])
    (hmore : ∀ e ∈ more, ∃ level assoc, level? e.1.text = some (level, assoc)) :
    ∃ ops' t' ts', Operator.stacksAfter ops ((t :: ts).map Grouping.expr) more =
        some (ops', (t' :: ts').map Grouping.expr) ∧
      Stacked first (rest ++ more) ops' (t' :: ts') := by
  induction more generalizing rest ops t ts with
  | nil => exact ⟨ops, t, ts, rfl, by rwa [List.append_nil]⟩
  | cons e more ih =>
    obtain ⟨op, right⟩ := e
    obtain ⟨⟨level, assoc, hop⟩, hmore⟩ := List.forall_mem_cons.1 hmore
    have hlow (p : Pending) (hp : level? p.op.text = some (p.level, p.assoc))
        (hends : p.endsAt level = true) : AppliedFirst .left p.op op ∧
          ∀ q, AppliedFirst .left q p.op → AppliedFirst .left q op := by
      have hleft : AppliedFirst .left p.op op := (appliedFirst_iff hp hop).2 (Pending.endsAt_iff.1 hends)
      exact ⟨hleft, fun q hq => hq.trans hleft⟩
    -- The operators that are complete are applied, and the one that is then on top is not complete.
    obtain ⟨ops', t', ts', hreduce, hstacked, hleft, htop⟩ :=
      h.reduceWhile (·.endsAt level) (AppliedFirst .left · op) hlow (by simp [ht])
    have hops (q : Pending) (hq : q ∈ ops'.head?) : AppliedFirst .right q.op op := by
      have hlevel := hstacked.level_eq q (List.mem_of_mem_head? hq)
      refine (appliedFirst_iff hlevel hop).2 (prefers_right_of_not_left fun hprefers => ?_)
      exact Bool.eq_false_iff.1 (htop q hq) (Pending.endsAt_iff.2 hprefers)
    have hpush : Stacked first (rest ++ [(op, right)]) (⟨op, level, assoc⟩ :: ops')
        (.operand right :: t' :: ts') :=
      .push (p := ⟨op, level, assoc⟩) hstacked hop (.operand right) hleft (by simp) hops
    obtain ⟨ops₁, t₁, ts₁, hstacks, hrest⟩ := ih hpush rfl hmore
    refine ⟨ops₁, t₁, ts₁, ?_, ?_⟩
    · rw [Operator.stacksAfter, hop, Option.bind_some, hreduce, Option.bind_some]
      exact hstacks
    · simpa using hrest

/-- With all operators applied, the tree of the sequence is left. -/
theorem finish (h : Stacked first rest ops ts) :
    ∃ t, Operator.reduceWhile (fun _ => true) ops (ts.map Grouping.expr) = some ([], [t.expr]) ∧
      Groups first rest t := by
  obtain ⟨t, ts, rfl⟩ : ∃ t us, ts = t :: us := by cases h <;> exact ⟨_, _, rfl⟩
  obtain ⟨ops', t', ts', hreduce, hstacked, -, htop⟩ :=
    h.reduceWhile (fun _ => true) (fun _ => True) (by simp) (by simp)
  cases hstacked with
  | bottom ht => exact ⟨t', hreduce, ht⟩
  | push => simp at htop

end Stacked

/-- If all operators have a level, climbing gives the tree of the sequence. -/
theorem exists_climb (first : Expr) {rest : List (Word × Expr)}
    (hrest : ∀ e ∈ rest, ∃ level assoc, level? e.1.text = some (level, assoc)) :
    ∃ t, climb first rest = some t.expr ∧ Groups first rest t := by
  have hstart : Stacked first [] [] [.operand first] := .bottom (.operand first)
  obtain ⟨ops, t, ts, hstacks, hstacked⟩ := hstart.stacksAfter rfl hrest
  obtain ⟨tree, hreduce, hgroups⟩ := hstacked.finish
  refine ⟨tree, ?_, hgroups⟩
  have hstacks : stacksAfter [] [first] rest = _ := hstacks
  rw [climb, climbWith_eq, hstacks, Option.bind_some, hreduce]
  rfl

/-- Without a level for one of the operators there are no stacks after it. -/
theorem stacksAfter_eq_none {e : Word × Expr} {rest : List (Word × Expr)} (he : e ∈ rest)
    (hlevel : level? e.1.text = none) (ops : List Pending) (operands : List Expr) :
    stacksAfter ops operands rest = none := by
  induction rest generalizing ops operands with
  | nil => cases he
  | cons e' rest ih =>
    rw [stacksAfter]
    rcases List.mem_cons.1 he with rfl | he
    · rw [hlevel, Option.bind_none]
    · simp only [ih he, Option.bind_fun_none]

/-- **Climbing builds the precedence tree.**  If all operators of a sequence are in the table, then after
every part of the sequence the stacks have operands enough, whatever is applied; and climbing gives the
tree of the sequence, which is the only one and has all operands and operators in order.  If one of them
is not in the table, climbing gives nothing. -/
theorem climb_builds_tree (first : Expr) (rest : List (Word × Expr)) :
    ((∀ e ∈ rest, ∃ row ∈ levels, e.1.text ∈ row.1) →
      (∀ before after, rest = before ++ after → ∃ ops operands,
        stacksAfter [] [first] before = some (ops, operands) ∧ operands.length = ops.length + 1 ∧
          ∀ ends, (reduceWhile ends ops operands).isSome) ∧
      ∃ t, climb first rest = some t.expr ∧ Groups first rest t ∧
        (∀ t', Groups first rest t' → t' = t) ∧ t.first = first ∧ t.rest = rest) ∧
    ((∃ e ∈ rest, ∀ row ∈ levels, e.1.text ∉ row.1) → climb first rest = none) := by
  have hstart : Stacked first [] [] [.operand first] := .bottom (.operand first)
  constructor
  · intro hknown
    have hlevels (e : Word × Expr) (he : e ∈ rest) : ∃ level assoc, level? e.1.text = some (level, assoc) :=
      exists_level?_iff.2 (hknown e he)
    constructor
    · rintro before after rfl
      obtain ⟨ops, t, ts, hstacks, hstacked⟩ :=
        hstart.stacksAfter rfl fun e he => hlevels e (List.mem_append_left _ he)
      refine ⟨ops, _, hstacks, by simpa using hstacked.length_eq, fun ends => ?_⟩
      obtain ⟨ops', t', ts', hreduce, -⟩ :=
        hstacked.reduceWhile ends (fun _ => True) (by simp) (by simp)
      rw [hreduce]
      rfl
    · obtain ⟨tree, hclimb, hgroups⟩ := exists_climb first hlevels
      exact ⟨tree, hclimb, hgroups, fun t' ht' => ht'.unique hgroups, hgroups.inorder.1, hgroups.inorder.2⟩
  · rintro ⟨e, he, hunknown⟩
    have hlevel : level? e.1.text = none := by
      cases hfound : level? e.1.text with
      | none => rfl
      | some found =>
        obtain ⟨row, hrow, hop⟩ := exists_level?_iff.1 ⟨found.1, found.2, hfound⟩
        exact absurd hop (hunknown row hrow)
    rw [climb, climbWith_eq, stacksAfter_eq_none he hlevel, Option.bind_none]

end TypeTrace.Operator
