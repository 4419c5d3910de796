import TypeTrace.Proofs.Termination

/-!
# The height of syntax trees

A tree has as many levels as its longest way down has nodes.  The search for a deepest node keeps a stack
of nodes that wait to be visited, the last child of a node on top of it, and holds on to the first node that
it meets on the lowest level so far.  So it comes to the number of levels, and to the last node on the lowest
one.  In the syntax tree of a source it visits no node twice, and nodes on one level lie one after the other.

## Main definitions

* `Tree.height`, `Tree.level`, `Tree.lowest`: the levels of a tree, and the last node on the lowest one
* `Shape.children`: the shapes right below a shape
* `Cst.Searches`: the search, without a bound on the nodes that it visits
* `Cst.level`, `Cst.Earlier`: the nodes some levels below a node, and their order in the source

## Main results

* `Tree.height_eq_of_shape`: trees of one shape are of one height
* `Cst.Searches.tree`: what the search finds in a tree
* `Cst.nesting_eq_height`: how deep a tree is nested
* `Cst.nesting_of_lex`: how deep the syntax tree of a source is nested, and where
-/

namespace TypeTrace

/-! ## Levels of a tree -/

/-- The shapes right below a shape, in source order. -/
def Shape.children : Shape → List Shape
  | id _ => []
  | text spans => spans.filterMap TextSpan.item?
  | list _ children => children
  | table _ rows => rows.flatten

theorem foldr_max_le_iff {α : Type} {f : α → Nat} {xs : List α} {k : Nat} :
    (xs.map f).foldr max 0 ≤ k ↔ ∀ x ∈ xs, f x ≤ k := by
  induction xs with
  | nil => simp
  | cons x xs ih => simp only [List.map_cons, List.foldr_cons, List.forall_mem_cons, Nat.max_le, ih]

namespace Tree

variable {t t' u : Tree} {k : Nat}

/-- The number of levels of a tree, the topmost node being the first. -/
def height (t : Tree) : Nat := (t.children.attach.map fun child => height child.1).foldr max 0 + 1
termination_by sizeOf t
decreasing_by exact sizeOf_lt_of_mem_children child.2

theorem height_eq (t : Tree) : t.height = (t.children.map height).foldr max 0 + 1 := by
  rw [height]
  simp

theorem height_pos (t : Tree) : 0 < t.height := by
  rw [height_eq]
  exact Nat.succ_pos _

/-- A tree has one more level than the highest tree below it. -/
theorem height_le_succ_iff : t.height ≤ k + 1 ↔ ∀ child ∈ t.children, child.height ≤ k := by
  rw [height_eq, Nat.succ_le_succ_iff, foldr_max_le_iff]

theorem children_shape (t : Tree) : t.shape.children = t.children.map shape := by
  cases t with
  | id => rw [shape_id, Shape.children, children, List.map_nil]
  | text loc span spans =>
    simp only [shape_text, Shape.children, children, List.filterMap_map, List.map_filterMap]
    exact congrArg (List.filterMap · spans) (funext (TextSpan.item?_map shape))
  | list => rw [shape_list, Shape.children, children]
  | table => rw [shape_table, Shape.children, children, List.map_flatten]

/-- The heights of the trees right below depend on their shapes only. -/
theorem height_eq_of_children (h : t.children.map height = t'.children.map height) :
    t.height = t'.height := by
  rw [height_eq, height_eq, h]

/-- **Trees of one shape are of one height.** -/
theorem height_eq_of_shape (h : t.shape = t'.shape) : t.height = t'.height := by
  induction t using Tree.induction generalizing t' with
  | h t ih =>
    have hchildren : t.children.map shape = t'.children.map shape := by
      rw [← children_shape, ← children_shape, h]
    have hlength : t.children.length = t'.children.length := by
      simpa using congrArg List.length hchildren
    -- Trees at the same place among the children have one shape.
    refine height_eq_of_children (List.ext_getElem (by simpa using hlength) fun i hi hi' => ?_)
    rw [List.getElem_map, List.getElem_map]
    refine ih _ (List.getElem_mem _) ?_
    have hget := List.getElem_of_eq hchildren (i := i) (by simpa using hi)
    rwa [List.getElem_map, List.getElem_map] at hget

/-- The trees that begin `k` levels below the topmost node, in source order. -/
def level : Nat → Tree → List Tree
  | 0, t => [t]
  | k + 1, t => t.children.flatMap (level k)

theorem level_eq_nil_iff : t.level k = [] ↔ t.height ≤ k := by
  induction k generalizing t with
  | zero => simp [level, Nat.ne_of_gt t.height_pos]
  | succ k ih => simp only [level, List.flatMap_eq_nil_iff, ih, height_le_succ_iff]

theorem flatMap_level_eq_nil_iff {ts : List Tree} :
    ts.flatMap (level k) = [] ↔ (ts.map height).foldr max 0 ≤ k := by
  simp only [List.flatMap_eq_nil_iff, level_eq_nil_iff, foldr_max_le_iff]

/-- The last one of the trees on the lowest level. -/
def lowest (t : Tree) : Tree := (t.level (t.height - 1)).getLast?.getD t

theorem getLast?_level (t : Tree) : (t.level (t.height - 1)).getLast? = some t.lowest := by
  have hne : t.level (t.height - 1) ≠ [] := fun hnil => by
    have hle := level_eq_nil_iff.mp hnil
    have hpos := t.height_pos
    omega
  rw [lowest, List.getLast?_eq_some_getLast hne, Option.getD_some]

theorem mem_nodes_of_mem_level (h : u ∈ t.level k) : u ∈ t.nodes := by
  induction k generalizing t with
  | zero => exact List.mem_singleton.mp h ▸ t.mem_nodes_self
  | succ k ih =>
    obtain ⟨child, hchild, hu⟩ := List.mem_flatMap.mp h
    exact nodes_subset (mem_nodes_of_mem_children t.mem_nodes_self hchild) (ih hu)

/-- Trees on one level lie one after the other if all above them do. -/
theorem pairwise_flatMap_level {src : List Char} {ts : List Tree}
    (hlaid : ∀ u ∈ ts.flatMap nodes, u.Laid src) (hordered : ts.Pairwise fun t u => t.span.stop ≤ u.span.start) :
    (ts.flatMap (level k)).Pairwise fun t u => t.span.stop ≤ u.span.start := by
  induction k generalizing ts with
  | zero => simpa [level] using hordered
  | succ k ih =>
    have hmem {t child : Tree} (ht : t ∈ ts) (hchild : child ∈ t.children) : child ∈ ts.flatMap nodes :=
      List.mem_flatMap.mpr ⟨t, ht, mem_nodes_of_mem_children t.mem_nodes_self hchild⟩
    have hself {t : Tree} (ht : t ∈ ts) : t.Laid src :=
      hlaid t (List.mem_flatMap.mpr ⟨t, ht, t.mem_nodes_self⟩)
    rw [show ts.flatMap (level (k + 1)) = (ts.flatMap children).flatMap (level k) from
      List.flatMap_assoc.symm]
    refine ih (fun u hu => hlaid u ?_) (List.pairwise_flatMap.mpr ⟨fun t ht => ?_, ?_⟩)
    · obtain ⟨child, hchild, hu⟩ := List.mem_flatMap.mp hu
      obtain ⟨t, ht, hchild⟩ := List.mem_flatMap.mp hchild
      exact List.mem_flatMap.mpr
        ⟨t, ht, nodes_subset (mem_nodes_of_mem_children t.mem_nodes_self hchild) hu⟩
    · exact (hself ht).ordered.imp fun hbefore => hbefore.2
    · -- Children of different trees are kept apart by the trees that they lie in.
      refine hordered.imp_of_mem fun ht hu hle x hx y hy => ?_
      have hxt := (hself ht).inside x hx
      have hyu := (hself hu).inside y hy
      omega

end Tree

/-! ## The deepest of some nodes -/

/-- The deeper one of two nodes, or the first one if they are on one level. -/
def deeper (best other : Nat × Loc) : Nat × Loc := if best.1 < other.1 then other else best

theorem deeper_self (best : Nat × Loc) : deeper best best = best := if_neg (Nat.lt_irrefl _)

theorem deeper_assoc (x y z : Nat × Loc) : deeper (deeper x y) z = deeper x (deeper y z) := by
  grind [deeper]

namespace Tree

variable {depth : Nat}

/-- The last node on the lowest level of a tree that begins on the level `depth`. -/
def summit (depth : Nat) (t : Tree) : Nat × Loc := (depth + (t.height - 1), t.lowest.loc)

/-- The deepest node of some siblings, the last sibling being looked at first. -/
def summits (depth : Nat) (best : Nat × Loc) (ts : List Tree) : Nat × Loc :=
  ts.foldr (fun t best => deeper best (t.summit depth)) best

theorem summits_deeper (best x : Nat × Loc) (ts : List Tree) :
    summits depth (deeper best x) ts = deeper best (summits depth x ts) := by
  induction ts with
  | nil => rfl
  | cons t ts ih =>
    rw [summits, List.foldr_cons, ← summits, ih, deeper_assoc]
    rfl

/-- Below a node on the level `depth` the lowest level of all siblings counts. -/
theorem summits_eq (l : Loc) (ts : List Tree) :
    summits (depth + 1) (depth, l) ts = (depth + (ts.map height).foldr max 0,
      ((ts.flatMap (level ((ts.map height).foldr max 0 - 1))).getLast?.map loc).getD l) := by
  induction ts with
  | nil => rfl
  | cons t ts ih =>
    have hpos := t.height_pos
    rw [summits, List.foldr_cons, ← summits, ih, List.map_cons, List.foldr_cons, List.flatMap_cons]
    generalize hdepth : (ts.map height).foldr max 0 = below
    rcases Nat.lt_or_ge below t.height with hlt | hge
    · -- No sibling after `t` gets as deep as `t`.
      have hnil : ts.flatMap (level (t.height - 1)) = [] := flatMap_level_eq_nil_iff.mpr (by omega)
      rw [deeper, summit, if_pos (by dsimp only; omega), Nat.max_eq_left (Nat.le_of_lt hlt), hnil,
        List.append_nil, getLast?_level]
      exact Prod.ext (by dsimp only; omega) rfl
    · have hne : ts.flatMap (level (below - 1)) ≠ [] := fun hnil => by
        have hle := flatMap_level_eq_nil_iff.mp hnil
        omega
      rw [deeper, summit, if_neg (by dsimp only; omega), Nat.max_eq_right hge,
        List.getLast?_append_of_ne_nil _ hne]

theorem summit_eq (t : Tree) : t.summit depth = summits (depth + 1) (depth, t.loc) t.children := by
  have hheight : t.height - 1 = (t.children.map height).foldr max 0 := by rw [height_eq, Nat.add_sub_cancel]
  have hlast := t.getLast?_level
  rw [summits_eq, summit, hheight]
  rw [hheight] at hlast
  refine Prod.ext rfl ?_
  dsimp only
  generalize hbelow : (t.children.map height).foldr max 0 = below at hlast ⊢
  cases below with
  | zero =>
    have hnil : t.children.flatMap (level 0) = [] := flatMap_level_eq_nil_iff.mpr (Nat.le_of_eq hbelow)
    rw [level, List.getLast?_singleton, Option.some.injEq] at hlast
    rw [Nat.zero_sub, hnil, ← hlast]
    rfl
  | succ k =>
    rw [level] at hlast
    rw [Nat.add_sub_cancel, hlast]
    rfl

end Tree

/-! ## The search for a deepest node -/

namespace Cst

variable {cst : Cst} {src : List Char} {forest spares : List Tree} {t : Tree} {stack : List (Loc × Nat)}
  {best r : Nat × Loc} {depth n : Nat} {l : Loc}

/-- The search for a deepest node, without a bound: from the nodes on the stack, with their levels, and the
deepest node so far, it goes on for `n` nodes and comes to a result. -/
inductive Searches (cst : Cst) : List (Loc × Nat) → Nat × Loc → Nat → Nat × Loc → Prop
  | done (best : Nat × Loc) : Searches cst [] best 0 best
  | visit {l : Loc} {depth n : Nat} {stack : List (Loc × Nat)} {best r : Nat × Loc}
    (h : Searches cst ((cst.children l).reverse.map (·, depth + 1) ++ stack) (deeper best (depth, l)) n r) :
    Searches cst ((l, depth) :: stack) best (n + 1) r

namespace Searches

/-- With a bound that is not too small the search comes to its result. -/
theorem deepest_eq (h : cst.Searches stack best n r) {fuel : Nat} (hfuel : n ≤ fuel) :
    cst.deepest fuel stack best = r := by
  induction h generalizing fuel with
  | done best =>
    cases fuel with
    | zero => rfl
    | succ fuel => rfl
  | visit h ih =>
    cases fuel with
    | zero => exact absurd hfuel (Nat.not_succ_le_zero _)
    | succ fuel => exact ih (Nat.le_of_succ_le_succ hfuel)

theorem siblings {ts : List Tree}
    (htrees : ∀ t ∈ ts, ∀ {stack best n r}, cst.Searches stack (deeper best (t.summit depth)) n r →
      cst.Searches ((t.loc, depth) :: stack) best (t.nodes.length + n) r)
    (h : cst.Searches stack (Tree.summits depth best ts) n r) :
    cst.Searches ((ts.map Tree.loc).reverse.map (·, depth) ++ stack) best
      ((ts.flatMap Tree.nodes).length + n) r := by
  induction ts generalizing stack n with
  | nil => simpa [Tree.summits] using h
  | cons t ts ih =>
    obtain ⟨ht, hts⟩ := List.forall_mem_cons.mp htrees
    have hvisit := ih hts (ht h)
    rw [List.map_cons, List.reverse_cons, List.map_append, List.append_assoc, List.flatMap_cons,
      List.length_append, Nat.add_comm t.nodes.length, Nat.add_assoc]
    exact hvisit

/-- **What the search finds in a tree**: after it has visited every node once, the last node on the lowest
level, unless it knew a deeper one. -/
theorem tree (t : Tree) (hholds : ∀ u ∈ t.nodes, cst.Holds u)
    (h : cst.Searches stack (deeper best (t.summit depth)) n r) :
    cst.Searches ((t.loc, depth) :: stack) best (t.nodes.length + n) r := by
  induction t using Tree.induction generalizing stack best depth n r with
  | h t ih =>
    rw [t.nodes_eq, List.forall_mem_cons] at hholds
    obtain ⟨ht, hbelow⟩ := hholds
    rw [t.nodes_eq, List.length_cons, Nat.add_right_comm]
    refine .visit ?_
    rw [ht.children_eq]
    refine siblings (fun child hchild _ _ _ _ hrest => ih child hchild (fun u hu => ?_) hrest) ?_
    · exact hbelow u (List.mem_flatMap.mpr ⟨child, hchild, hu⟩)
    · rwa [Tree.summits_deeper, ← Tree.summit_eq]

/-- A search that begins with a tree alone. -/
theorem root (t : Tree) (hholds : ∀ u ∈ t.nodes, cst.Holds u) :
    cst.Searches [(t.loc, 1)] (1, t.loc) t.nodes.length (t.summit 1) := by
  have hsummit : deeper (1, t.loc) (t.summit 1) = t.summit 1 := by
    rw [Tree.summit_eq, ← Tree.summits_deeper, deeper_self]
  have hsearch : cst.Searches [(t.loc, 1)] (1, t.loc) (t.nodes.length + 0)
      (deeper (1, t.loc) (t.summit 1)) := tree t hholds (.done _)
  rwa [hsummit] at hsearch

end Searches

theorem nesting_eq_summit (hholds : ∀ u ∈ t.nodes, cst.Holds u)
    (hsize : t.nodes.length ≤ cst.nodes.size) : cst.nesting t.loc = t.summit 1 :=
  (Searches.root t hholds).deepest_eq (Nat.le_succ_of_le hsize)

/-- **How deep a tree is nested** is its height. -/
theorem nesting_eq_height (hholds : ∀ u ∈ t.nodes, cst.Holds u)
    (hsize : t.nodes.length ≤ cst.nodes.size) : (cst.nesting t.loc).1 = t.height := by
  rw [nesting_eq_summit hholds hsize, Tree.summit]
  exact Nat.add_sub_cancel' t.height_pos

theorem MadeOf.nesting_eq (h : cst.MadeOf src forest spares) (ht : t ∈ forest) :
    (cst.nesting t.loc).1 = t.height := by
  have hsub := Tree.nodes_sublist_flatMap ht
  refine nesting_eq_height (fun u hu => h.holds_of_mem (hsub.subset hu)) ?_
  have hlength := hsub.length_le
  rw [h.size_eq]
  omega

/-! ## Syntax trees of sources -/

/-- The nodes `k` levels below a node, in the order of the children. -/
def level (cst : Cst) : Nat → Loc → List Loc
  | 0, l => [l]
  | k + 1, l => (cst.children l).flatMap (cst.level k)

/-- A node covers a part of the source that is not empty and that ends before another node. -/
def Earlier (cst : Cst) (l l' : Loc) : Prop :=
  ∃ span span', cst.span? l = some span ∧ cst.span? l' = some span' ∧ span.start < span.stop ∧
    span.stop ≤ span'.start

theorem level_loc (k : Nat) (hholds : ∀ u ∈ t.nodes, cst.Holds u) :
    cst.level k t.loc = (t.level k).map Tree.loc := by
  induction k generalizing t with
  | zero => rfl
  | succ k ih =>
    rw [level, Tree.level, (hholds t t.mem_nodes_self).children_eq, List.flatMap_map, List.map_flatMap]
    refine List.flatMap_congr fun child hchild => ih fun u hu => hholds u ?_
    exact Tree.nodes_subset (Tree.mem_nodes_of_mem_children t.mem_nodes_self hchild) hu

/-- Nodes on one level below a node lie one after the other. -/
theorem Stored.pairwise_level (h : cst.Stored src t) (k : Nat) : (cst.level k t.loc).Pairwise cst.Earlier := by
  cases k with
  | zero => exact List.pairwise_singleton ..
  | succ k =>
    have hholds {u : Tree} (hu : u ∈ t.level (k + 1)) : cst.Holds u :=
      h.holds u (Tree.mem_nodes_of_mem_level hu)
    have hlaid {u : Tree} (hu : u ∈ t.level (k + 1)) : u.Laid src := by
      obtain ⟨child, hchild, hu⟩ := List.mem_flatMap.mp hu
      exact h.laid u (List.mem_flatMap.mpr ⟨child, hchild, Tree.mem_nodes_of_mem_level hu⟩)
    rw [level_loc _ h.holds, List.pairwise_map]
    refine (Tree.pairwise_flatMap_level h.laid (h.ordered.imp fun hbefore => hbefore.2)).imp_of_mem ?_
    intro u v hu hv hle
    exact ⟨u.span, v.span, (hholds hu).span?_eq, (hholds hv).span?_eq, (hlaid hu).lt, hle⟩

section

variable {a : Alphabet} (hlex : Cst.lex a src = .ok cst)

theorem searches_outside (hl : cst.nodes.size ≤ l) : cst.Searches [(l, 1)] (1, l) 1 (1, l) := by
  refine .visit ?_
  rw [children_eq_nil hl, deeper_self]
  exact .done _

theorem nesting_outside (hl : cst.nodes.size ≤ l) : cst.nesting l = (1, l) :=
  (searches_outside hl).deepest_eq (Nat.succ_pos _)

include hlex

/-- The search ends, after no more visits than there are nodes. -/
theorem exists_searches (l : Loc) :
    ∃ visits ≤ cst.nodes.size, cst.Searches [(l, 1)] (1, l) visits (cst.nesting l) := by
  rcases Nat.lt_or_ge l cst.nodes.size with hl | hl
  · obtain ⟨t, rfl, ht⟩ := exists_stored_of_lex hlex hl
    rw [nesting_eq_summit ht.holds ht.length_le]
    exact ⟨t.nodes.length, ht.length_le, .root t ht.holds⟩
  · rw [nesting_outside hl]
    exact ⟨1, size_pos_of_lex hlex, searches_outside hl⟩

/-- A node is nested one level deeper than the deepest one of its children. -/
theorem nesting_eq_children (l : Loc) :
    (cst.nesting l).1 = ((cst.children l).map fun child => (cst.nesting child).1).foldr max 0 + 1 := by
  rcases Nat.lt_or_ge l cst.nodes.size with hl | hl
  · obtain ⟨t, rfl, ht⟩ := exists_stored_of_lex hlex hl
    rw [nesting_eq_height ht.holds ht.length_le, (ht.holds t t.mem_nodes_self).children_eq, t.height_eq,
      List.map_map]
    congr 2
    refine List.map_congr_left fun child hchild => ?_
    have hmem := Tree.mem_nodes_of_mem_children t.mem_nodes_self hchild
    refine (nesting_eq_height (fun u hu => ht.holds u (Tree.nodes_subset hmem hu)) ?_).symm
    exact Nat.le_trans (Tree.nodes_sublist hmem).length_le ht.length_le
  · rw [nesting_outside hl, children_eq_nil hl]
    rfl

/-- No other numbers are one more than the greatest number of a child. -/
theorem eq_nesting_of_children {height : Loc → Nat}
    (hheight : ∀ l, height l = ((cst.children l).map height).foldr max 0 + 1) (l : Loc) :
    height l = (cst.nesting l).1 := by
  obtain ⟨n, -, hcounts⟩ := exists_counts_of_lex hlex l
  suffices hall : ∀ {ls n}, cst.Counts ls n → ∀ l ∈ ls, height l = (cst.nesting l).1 from
    hall hcounts l (List.mem_singleton_self l)
  intro ls n h
  induction h with
  | nil => simp
  | cons _ _ hbelow hrest =>
    refine List.forall_mem_cons.mpr ⟨?_, hrest⟩
    rw [hheight, nesting_eq_children hlex, List.map_congr_left hbelow]

/-- What the search finds is the last node on the lowest level, and that is the last one in the source. -/
theorem getLast?_level_nesting (l : Loc) :
    (cst.level ((cst.nesting l).1 - 1) l).getLast? = some (cst.nesting l).2 ∧
    (cst.level ((cst.nesting l).1 - 1) l).Pairwise cst.Earlier := by
  rcases Nat.lt_or_ge l cst.nodes.size with hl | hl
  · obtain ⟨t, rfl, ht⟩ := exists_stored_of_lex hlex hl
    refine ⟨?_, ht.pairwise_level _⟩
    rw [nesting_eq_height ht.holds ht.length_le, level_loc _ ht.holds, List.getLast?_map, t.getLast?_level,
      nesting_eq_summit ht.holds ht.length_le]
    rfl
  · rw [nesting_outside hl]
    exact ⟨rfl, List.pairwise_singleton ..⟩

end

/-- **How deep the syntax tree of a source is nested, and where.**  For every place, whether it has a node or
not, the search for a deepest node ends, after no more visits than there are nodes.  It finds the height of
the tree below the place, which is one more than the greatest height of a child, and no other numbers are so
for all places; and with it the last node on the lowest level, which all other nodes there come before in the
source.  Without a node a place is a leaf. -/
theorem nesting_of_lex {a : Alphabet} (hlex : Cst.lex a src = .ok cst) :
    (∀ l, ∃ visits ≤ cst.nodes.size, cst.Searches [(l, 1)] (1, l) visits (cst.nesting l)) ∧
    (∀ l, (cst.nesting l).1 = ((cst.children l).map fun child => (cst.nesting child).1).foldr max 0 + 1) ∧
    (∀ height : Loc → Nat, (∀ l, height l = ((cst.children l).map height).foldr max 0 + 1) →
      ∀ l, height l = (cst.nesting l).1) ∧
    (∀ l, (cst.level ((cst.nesting l).1 - 1) l).getLast? = some (cst.nesting l).2 ∧
      (cst.level ((cst.nesting l).1 - 1) l).Pairwise cst.Earlier) ∧
    ∀ l, cst.nodes.size ≤ l → cst.nesting l = (1, l) :=
  ⟨exists_searches hlex, nesting_eq_children hlex, fun _ hheight => eq_nesting_of_children hlex hheight,
    getLast?_level_nesting hlex, fun _ hl => nesting_outside hl⟩

/-- A table with brackets in one cell and an embedded expression in the next: `{:(a),"${b}";c,d}`. -/
def tableSource : List Char := "\x7b:(a),\"$\x7bb\x7d\";c,d\x7d".toList

/-- The words `a` and `b` are on the lowest level of the table, and `b` is the last one there. -/
theorem nesting_of_lex_table :
    ∃ cst, Cst.lex .js tableSource = .ok cst ∧ cst.nesting 1 = (3, 6) ∧ cst.level 2 1 = [3, 6] ∧
      cst.Earlier 3 6 ∧ ∃ visits ≤ 9, cst.Searches [(1, 1)] (1, 1) visits (3, 6) := by
  obtain ⟨cst, hlex⟩ : ∃ cst, Cst.lex .js tableSource = .ok cst := ⟨_, rfl⟩
  have hvalues : (Cst.lex .js tableSource).toOption.map
      (fun cst => (cst.nodes.size, cst.nesting 1, cst.level 2 1)) = some (9, (3, 6), [3, 6]) := by
    decide +kernel
  rw [hlex] at hvalues
  obtain ⟨hsize, hnesting, hlevel⟩ :
      cst.nodes.size = 9 ∧ cst.nesting 1 = (3, 6) ∧ cst.level 2 1 = [3, 6] := by
    simpa using Option.some.inj hvalues
  obtain ⟨hsearches, -, -, hlowest, -⟩ := nesting_of_lex hlex
  have hsearch := hsearches 1
  have hordered := (hlowest 1).2
  rw [hnesting, hsize] at hsearch
  rw [hnesting, show (3, 6).1 - 1 = 2 from rfl, hlevel] at hordered
  exact ⟨cst, hlex, hnesting, hlevel, List.rel_of_pairwise_cons hordered (List.mem_singleton_self _), hsearch⟩

end Cst
end TypeTrace
