import TypeTrace.Proofs.Drafting
import TypeTrace.Proofs.Layout
import Mathlib.Data.List.Nodup
import Mathlib.Data.List.Pairwise
import Mathlib.Logic.Relation

/-!
# Syntax trees are nested forests

The nodes of a syntax tree hang together as a forest: every node that has not given way to the only
tree below it is reached from the roots, along one path only.  The forest lies over the source:
children inside their parents, siblings one after the other.

## Main definitions

* `Cst.Path`, `Cst.Below`: the way from a root to a node, and the nodes below a node
* `Cst.GaveWay`: lists that stand aside for the only member in them
* `Cst.Nested`: the nodes of a syntax tree are a forest over the source

## Main results

* `Cst.MadeOf.path_unique`, `Cst.MadeOf.exists_path`, `Cst.MadeOf.acyclic`: ways through a syntax tree
* `Cst.nested_of_lex`: the syntax tree of a source is nested
-/

namespace TypeTrace

/-! ## Trees and the trees below them -/

namespace Tree

theorem mem_nodes_of_mem_children {t u v : Tree} (hu : u ∈ t.nodes) (hv : v ∈ u.children) :
    v ∈ t.nodes := by
  induction t using induction with
  | h t ih =>
    rw [nodes_eq] at hu ⊢
    rcases List.mem_cons.1 hu with rfl | hu
    · exact List.mem_cons_of_mem _ (List.mem_flatMap.2 ⟨v, hv, v.mem_nodes_self⟩)
    · obtain ⟨child, hchild, hu⟩ := List.mem_flatMap.1 hu
      exact List.mem_cons_of_mem _ (List.mem_flatMap.2 ⟨child, hchild, ih child hchild hu⟩)

theorem nodes_subset {t u v : Tree} (hu : u ∈ t.nodes) (hv : v ∈ u.nodes) : v ∈ t.nodes := by
  induction u using induction with
  | h u ih =>
    rw [nodes_eq] at hv
    rcases List.mem_cons.1 hv with rfl | hv
    · exact hu
    · obtain ⟨child, hchild, hv⟩ := List.mem_flatMap.1 hv
      exact ih child hchild (mem_nodes_of_mem_children hu hchild) hv

theorem flatMap_nodes_perm_of (ts : List Tree)
    (h : ∀ t ∈ ts, t.nodes.Perm (t :: t.nodes.flatMap children)) :
    (ts.flatMap nodes).Perm (ts ++ (ts.flatMap nodes).flatMap children) := by
  induction ts with
  | nil => exact .nil
  | cons t ts ih =>
    obtain ⟨ht, hts⟩ := List.forall_mem_cons.1 h
    rw [List.flatMap_cons, List.flatMap_append]
    calc t.nodes ++ ts.flatMap nodes
        |>.Perm (t :: t.nodes.flatMap children ++ (ts ++ (ts.flatMap nodes).flatMap children)) :=
          ht.append (ih hts)
      _ |>.Perm (t :: ts ++ (t.nodes.flatMap children ++ (ts.flatMap nodes).flatMap children)) :=
          (List.perm_append_comm_assoc ..).cons t

/-- Every node is a root, or right below one other node. -/
theorem flatMap_nodes_perm (ts : List Tree) :
    (ts.flatMap nodes).Perm (ts ++ (ts.flatMap nodes).flatMap children) := by
  refine flatMap_nodes_perm_of ts fun t ht => ?_
  clear ht
  induction t using induction with
  | h t ih =>
    rw [nodes_eq, List.flatMap_cons]
    exact (flatMap_nodes_perm_of t.children ih).cons t

end Tree

/-! ## Ways through a syntax tree -/

namespace Cst

/-- The way up from a node: the nodes above it, from its parent to a root. -/
inductive Path (cst : Cst) : Loc → List Loc → Prop
  | root {l : Loc} (hroot : l ∈ cst.roots) : Path cst l []
  | child {l parent : Loc} {above : List Loc} (hparent : Path cst parent above)
    (hchild : l ∈ cst.children parent) : Path cst l (parent :: above)

/-- A node is another one, or somewhere below it. -/
def Below (cst : Cst) : Loc → Loc → Prop :=
  Relation.ReflTransGen fun parent child => child ∈ cst.children parent

variable {cst : Cst} {src : List Char} {forest spares : List Tree} {t u v w : Tree} {l : Loc}

theorem Path.exists_of_below {above : List Loc} (h : cst.Path l above) {m : Loc} (hm : cst.Below l m) :
    ∃ above', cst.Path m above' := by
  induction hm with
  | refl => exact ⟨above, h⟩
  | tail _ hchild ih =>
    obtain ⟨above', hpath⟩ := ih
    exact ⟨_, hpath.child hchild⟩

namespace Holds

theorem children_eq (h : cst.Holds t) : cst.children t.loc = t.children.map Tree.loc := by
  obtain ⟨multiline, hnode⟩ := h
  simp [Cst.children, node?, hnode]

theorem span?_eq (h : cst.Holds t) : cst.span? t.loc = some t.span := by
  obtain ⟨multiline, hnode⟩ := h
  simp [span?, hnode]

theorem source?_eq (h : cst.Holds t) (src : List Char) :
    cst.source? src t.loc = Text.slice? src t.span.start t.span.stop := by
  rw [source?, h.span?_eq, Option.bind_some]

end Holds

namespace MadeOf

/-- Trees in the same place are the same. -/
theorem eq_of_loc (h : cst.MadeOf src forest spares) (ht : t ∈ forest.flatMap Tree.nodes)
    (hu : u ∈ forest.flatMap Tree.nodes) (hloc : t.loc = u.loc) : t = u :=
  List.inj_on_of_nodup_map h.numbered.nodup (List.mem_append_left _ ht) (List.mem_append_left _ hu) hloc

theorem holds_of_mem (h : cst.MadeOf src forest spares) (ht : t ∈ forest.flatMap Tree.nodes) :
    cst.Holds t :=
  h.holds t (List.mem_append_left _ ht)

theorem mem_of_mem_children (ht : t ∈ forest.flatMap Tree.nodes) (hu : u ∈ t.children) :
    u ∈ forest.flatMap Tree.nodes := by
  obtain ⟨root, hroot, ht⟩ := List.mem_flatMap.1 ht
  exact List.mem_flatMap.2 ⟨root, hroot, Tree.mem_nodes_of_mem_children ht hu⟩

theorem nodup_children (h : cst.MadeOf src forest spares) :
    ((forest ++ (forest.flatMap Tree.nodes).flatMap Tree.children).map Tree.loc).Nodup := by
  have hnodup := h.numbered.nodup
  rw [List.map_append] at hnodup
  exact ((Tree.flatMap_nodes_perm forest).map Tree.loc).nodup_iff.1 (List.nodup_append.1 hnodup).1

/-- A root is not below another node. -/
theorem root_ne_child (h : cst.MadeOf src forest spares) (ht : t ∈ forest)
    (hu : u ∈ forest.flatMap Tree.nodes) (hv : v ∈ u.children) : t.loc ≠ v.loc := by
  have hnodup := h.nodup_children
  rw [List.map_append, List.nodup_append] at hnodup
  exact hnodup.2.2 _ (List.mem_map_of_mem ht) _
    (List.mem_map_of_mem (List.mem_flatMap.2 ⟨u, hu, hv⟩))

/-- A node is right below one other node at most. -/
theorem parent_unique (h : cst.MadeOf src forest spares) (ht : t ∈ forest.flatMap Tree.nodes)
    (hu : u ∈ forest.flatMap Tree.nodes) (hv : v ∈ t.children) (hw : w ∈ u.children)
    (hloc : v.loc = w.loc) : t = u := by
  have hnodup := h.nodup_children
  rw [List.map_append, List.map_flatMap, List.nodup_append, List.nodup_flatMap] at hnodup
  have hsymm : Std.Symm (Function.onFun List.Disjoint fun x : Tree => x.children.map Tree.loc) :=
    ⟨fun _ _ hdisjoint _ hy hx => hdisjoint hx hy⟩
  by_contra hne
  have hdisjoint := hnodup.2.1.2.forall ht hu hne
  exact hdisjoint (List.mem_map_of_mem hv) (hloc ▸ List.mem_map_of_mem hw)

/-- The nodes reached from the roots are those of the forest. -/
theorem exists_tree_of_path (h : cst.MadeOf src forest spares) {above : List Loc}
    (hpath : cst.Path l above) : ∃ t ∈ forest.flatMap Tree.nodes, t.loc = l := by
  induction hpath with
  | root hroot =>
    rw [h.roots] at hroot
    obtain ⟨t, ht, rfl⟩ := List.mem_map.1 hroot
    exact ⟨t, List.mem_flatMap.2 ⟨t, ht, t.mem_nodes_self⟩, rfl⟩
  | child _ hchild ih =>
    obtain ⟨parent, hparent, rfl⟩ := ih
    rw [(h.holds_of_mem hparent).children_eq] at hchild
    obtain ⟨t, ht, rfl⟩ := List.mem_map.1 hchild
    exact ⟨t, mem_of_mem_children hparent ht, rfl⟩

theorem path_unique (h : cst.MadeOf src forest spares) {above above' : List Loc}
    (hpath : cst.Path l above) (hpath' : cst.Path l above') : above = above' := by
  induction hpath generalizing above' with
  | root hroot =>
    cases hpath' with
    | root => rfl
    | child hparent hchild =>
      obtain ⟨u, hu, rfl⟩ := h.exists_tree_of_path hparent
      rw [(h.holds_of_mem hu).children_eq] at hchild
      rw [h.roots] at hroot
      obtain ⟨v, hv, rfl⟩ := List.mem_map.1 hchild
      obtain ⟨t, ht, hloc⟩ := List.mem_map.1 hroot
      -- A root is no child, so the path cannot go on.
      exact absurd hloc (h.root_ne_child ht hu hv)
  | child hparent hchild ih =>
    obtain ⟨t, ht, rfl⟩ := h.exists_tree_of_path hparent
    rw [(h.holds_of_mem ht).children_eq] at hchild
    obtain ⟨v, hv, rfl⟩ := List.mem_map.1 hchild
    cases hpath' with
    | root hroot =>
      rw [h.roots] at hroot
      obtain ⟨r, hr, hloc⟩ := List.mem_map.1 hroot
      exact absurd hloc (h.root_ne_child hr ht hv)
    | child hparent' hchild' =>
      obtain ⟨u, hu, rfl⟩ := h.exists_tree_of_path hparent'
      rw [(h.holds_of_mem hu).children_eq] at hchild'
      obtain ⟨w, hw, hloc⟩ := List.mem_map.1 hchild'
      -- Different trees have different places, so the parent is the same.
      obtain rfl := h.parent_unique ht hu hv hw hloc.symm
      rw [ih hparent']

/-- The nodes below a node are those of its tree. -/
theorem below_iff (h : cst.MadeOf src forest spares) (ht : t ∈ forest.flatMap Tree.nodes) :
    cst.Below t.loc l ↔ ∃ u ∈ t.nodes, u.loc = l := by
  constructor
  · intro hbelow
    induction hbelow with
    | refl => exact ⟨t, t.mem_nodes_self, rfl⟩
    | tail _ hchild ih =>
      obtain ⟨u, hu, rfl⟩ := ih
      obtain ⟨root, hroot, ht⟩ := List.mem_flatMap.1 ht
      have hmem := List.mem_flatMap.2 ⟨root, hroot, Tree.nodes_subset ht hu⟩
      rw [(h.holds_of_mem hmem).children_eq] at hchild
      obtain ⟨v, hv, rfl⟩ := List.mem_map.1 hchild
      exact ⟨v, Tree.mem_nodes_of_mem_children hu hv, rfl⟩
  · rintro ⟨u, hu, rfl⟩
    induction t using Tree.induction with
    | h t ih =>
      rw [Tree.nodes_eq] at hu
      rcases List.mem_cons.1 hu with rfl | hu
      · exact .refl
      · obtain ⟨child, hchild, hu⟩ := List.mem_flatMap.1 hu
        refine .head ?_ (ih child hchild (mem_of_mem_children ht hchild) hu)
        rw [(h.holds_of_mem ht).children_eq]
        exact List.mem_map_of_mem hchild

/-- A node is below one root only. -/
theorem root_unique (h : cst.MadeOf src forest spares) (ht : t ∈ forest) (hu : u ∈ forest)
    (hl : cst.Below t.loc l) (hl' : cst.Below u.loc l) : t = u := by
  obtain ⟨v, hv, rfl⟩ := (h.below_iff (List.mem_flatMap.2 ⟨t, ht, t.mem_nodes_self⟩)).1 hl
  obtain ⟨w, hw, hloc⟩ := (h.below_iff (List.mem_flatMap.2 ⟨u, hu, u.mem_nodes_self⟩)).1 hl'
  have hnodup := h.numbered.nodup
  rw [List.map_append, List.map_flatMap, List.nodup_append, List.nodup_flatMap] at hnodup
  have hsymm : Std.Symm (Function.onFun List.Disjoint fun x : Tree => x.nodes.map Tree.loc) :=
    ⟨fun _ _ hdisjoint _ hy hx => hdisjoint hx hy⟩
  by_contra hne
  have hdisjoint := hnodup.1.2.forall ht hu hne
  exact hdisjoint (List.mem_map_of_mem hv) (hloc ▸ List.mem_map_of_mem hw)

theorem exists_path (h : cst.MadeOf src forest spares) (ht : t ∈ forest.flatMap Tree.nodes) :
    ∃ above, cst.Path t.loc above := by
  obtain ⟨root, hroot, ht⟩ := List.mem_flatMap.1 ht
  have hpath : cst.Path root.loc [] := .root (h.roots ▸ List.mem_map_of_mem hroot)
  refine hpath.exists_of_below ((h.below_iff ?_).2 ⟨t, ht, rfl⟩)
  exact List.mem_flatMap.2 ⟨root, hroot, root.mem_nodes_self⟩

/-- A place is that of the whole source, or of a tree. -/
theorem exists_tree (h : cst.MadeOf src forest spares) (hl : l < cst.nodes.size) :
    l = Draft.top ∨ ∃ t ∈ forest.flatMap Tree.nodes ++ spares, t.loc = l := by
  rcases Nat.eq_zero_or_pos l with rfl | hpos
  · exact .inl rfl
  · exact .inr (List.mem_map.1 (h.numbered.mem_iff.2 ⟨hpos, hl⟩))

/-- What is right below some node is a node of the forest. -/
theorem mem_locs_of_mem_children (h : cst.MadeOf src forest spares)
    (hshared : ∀ t ∈ spares, ∀ child ∈ t.children, child.loc ∈ (forest.flatMap Tree.nodes).map Tree.loc)
    {parent : Loc} (hl : l ∈ cst.children parent) : l ∈ (forest.flatMap Tree.nodes).map Tree.loc := by
  have hparent : parent < cst.nodes.size := by
    by_contra hge
    simp [Cst.children, node?, Array.getElem?_eq_none (Nat.le_of_not_lt hge)] at hl
  rcases h.exists_tree hparent with rfl | ⟨t, ht, rfl⟩
  · have htop := h.top.children_eq
    obtain ⟨t, ht, rfl⟩ := List.mem_map.1 (htop ▸ hl)
    exact List.mem_map_of_mem (List.mem_flatMap.2 ⟨t, ht, t.mem_nodes_self⟩)
  · rw [(h.holds t ht).children_eq] at hl
    obtain ⟨child, hchild, rfl⟩ := List.mem_map.1 hl
    rcases List.mem_append.1 ht with ht | ht
    · exact List.mem_map_of_mem (mem_of_mem_children ht hchild)
    · exact hshared t ht child hchild

/-- Trees get smaller on every way down. -/
theorem exists_smaller (h : cst.MadeOf src forest spares) (ht : t ∈ forest.flatMap Tree.nodes)
    (hdown : Relation.TransGen (fun parent child => child ∈ cst.children parent) t.loc l) :
    ∃ u ∈ forest.flatMap Tree.nodes, u.loc = l ∧ sizeOf u < sizeOf t := by
  have hstep {u : Tree} {m : Loc} (hu : u ∈ forest.flatMap Tree.nodes) (hm : m ∈ cst.children u.loc) :
      ∃ v ∈ forest.flatMap Tree.nodes, v.loc = m ∧ sizeOf v < sizeOf u := by
    rw [(h.holds_of_mem hu).children_eq] at hm
    obtain ⟨v, hv, rfl⟩ := List.mem_map.1 hm
    exact ⟨v, mem_of_mem_children hu hv, rfl, Tree.sizeOf_lt_of_mem_children hv⟩
  induction hdown with
  | single hchild => exact hstep ht hchild
  | tail _ hchild ih =>
    obtain ⟨u, hu, rfl, hlt⟩ := ih
    obtain ⟨v, hv, rfl, hlt'⟩ := hstep hu hchild
    exact ⟨v, hv, rfl, Nat.lt_trans hlt' hlt⟩

theorem acyclic (h : cst.MadeOf src forest spares)
    (hshared : ∀ t ∈ spares, ∀ child ∈ t.children, child.loc ∈ (forest.flatMap Tree.nodes).map Tree.loc)
    (l : Loc) :
    ¬Relation.TransGen (fun parent child => child ∈ cst.children parent) l l := by
  intro hcycle
  obtain ⟨parent, -, hchild⟩ := Relation.TransGen.tail'_iff.1 hcycle
  obtain ⟨t, ht, rfl⟩ := List.mem_map.1 (h.mem_locs_of_mem_children hshared hchild)
  obtain ⟨u, hu, hloc, hlt⟩ := h.exists_smaller ht hcycle
  obtain rfl := h.eq_of_loc hu ht hloc
  exact Nat.lt_irrefl _ hlt

end MadeOf

/-! ## Forests over the source -/

/-- A node stands aside for its only child: it is a list around one word or atom, or the brackets of
an embedded expression of one item. -/
def GaveWay (cst : Cst) (src : List Char) (l : Loc) : Prop :=
  ∃ kind only multiline, cst.node? l = some (.list kind [only] multiline) ∧
    (kind = .smooshed ∨ kind = .spaced ∨
      kind = .curly ∧ ∃ text, cst.source? src l = some ('$' :: '\x7b' :: text))

theorem Holds.gaveWay (h : cst.Holds t) (hspare : t.Spare src) : cst.GaveWay src t.loc := by
  obtain ⟨multiline, hnode⟩ := h
  cases hspare with
  | @spaced l r only =>
    exact ⟨.spaced, only.loc, multiline, by simp [node?, hnode, Tree.node], .inr (.inl rfl)⟩
  | @embedded l r only text htext =>
    refine ⟨.curly, only.loc, multiline, by simp [node?, hnode, Tree.node], .inr (.inr ⟨rfl, text, ?_⟩)⟩
    rw [source?, span?, hnode]
    exact htext

theorem Holds.exists_eq_id (h : cst.Holds t) {s : String} (hword : cst.node? t.loc = some (.id s)) :
    ∃ l r, t = .id l r s := by
  obtain ⟨multiline, hnode⟩ := h
  have hnode : t.node multiline = .id s := by simpa [node?, hnode] using hword
  cases t with
  | id l r s' =>
    obtain rfl : s' = s := by simpa [Tree.node] using hnode
    exact ⟨l, r, rfl⟩
  | text | list | table => simp [Tree.node] at hnode

/-- A node covers a part of the source that starts and ends between characters. -/
def Covers (cst : Cst) (src : List Char) (l : Loc) : Prop :=
  ∃ span text, cst.span? l = some span ∧ span.start ≤ span.stop ∧ span.stop ≤ Text.byteLength src ∧
    Text.Boundary src span.start ∧ Text.Boundary src span.stop ∧ cst.source? src l = some text

/-- A node lies inside another one. -/
def Inside (cst : Cst) (l parent : Loc) : Prop :=
  ∃ inner outer, cst.span? l = some inner ∧ cst.span? parent = some outer ∧
    outer.start ≤ inner.start ∧ inner.stop ≤ outer.stop

/-- A node comes before another one, in the source and in the store. -/
def Precedes (cst : Cst) (l l' : Loc) : Prop :=
  l < l' ∧ ∃ span span', cst.span? l = some span ∧ cst.span? l' = some span' ∧ span.stop ≤ span'.start

/-- The nodes of a syntax tree are a forest over the source. -/
structure Nested (cst : Cst) (src : List Char) : Prop where
  path (l : Loc) (hl : l < cst.nodes.size) (htop : l ≠ 0) (hstays : ¬cst.GaveWay src l) :
    ∃! above, cst.Path l above
  acyclic (l : Loc) : ¬Relation.TransGen (fun parent child => child ∈ cst.children parent) l l
  covers (l : Loc) (hl : l < cst.nodes.size) : cst.Covers src l
  inside (l : Loc) (above : List Loc) (hpath : cst.Path l above) (child : Loc)
    (hchild : child ∈ cst.children l) : cst.Inside child l
  ordered (l : Loc) (above : List Loc) (hpath : cst.Path l above) :
    (cst.children l).Pairwise cst.Precedes
  roots : cst.roots.Pairwise cst.Precedes
  word (l : Loc) (s : String) (hword : cst.node? l = some (.id s)) :
    s ≠ "" ∧ cst.source? src l = some s.toList

namespace MadeOf

variable {next : Loc} {stop : Nat}

theorem laid (horderly : Orderly src 1 next 0 stop forest.reverse spares)
    (ht : t ∈ forest.flatMap Tree.nodes ++ spares) : t.Laid src :=
  horderly.laid t (by simpa using ht)

theorem existsUnique_path (h : cst.MadeOf src forest spares)
    (horderly : Orderly src 1 next 0 stop forest.reverse spares) (hl : l < cst.nodes.size)
    (htop : l ≠ 0) (hstays : ¬cst.GaveWay src l) : ∃! above, cst.Path l above := by
  rcases h.exists_tree hl with rfl | ⟨t, ht, rfl⟩
  · exact absurd rfl htop
  · rcases List.mem_append.1 ht with ht | ht
    · obtain ⟨above, hpath⟩ := h.exists_path ht
      exact ⟨above, hpath, fun above' hpath' => h.path_unique hpath' hpath⟩
    · exact absurd ((h.holds t (List.mem_append_right _ ht)).gaveWay (horderly.spare t ht)) hstays

theorem covers (h : cst.MadeOf src forest spares)
    (horderly : Orderly src 1 next 0 stop forest.reverse spares) (hl : l < cst.nodes.size) :
    cst.Covers src l := by
  rcases h.exists_tree hl with rfl | ⟨t, ht, rfl⟩
  · refine ⟨_, src, h.top.span?_eq, Nat.zero_le _, Nat.le_refl _, ⟨[], src, rfl, rfl⟩,
      ⟨src, [], by simp, rfl⟩, (h.top.source?_eq src).trans ?_⟩
    simpa [Text.byteLength, Tree.span] using Text.slice?_append [] src []
  · have hholds := h.holds t ht
    have hlaid := laid horderly ht
    obtain ⟨text, htext⟩ := hlaid.start.exists_slice? hlaid.stop hlaid.le
    exact ⟨t.span, text, hholds.span?_eq, hlaid.le, hlaid.stop.le, hlaid.start, hlaid.stop,
      (hholds.source?_eq src).trans htext⟩

theorem inside (h : cst.MadeOf src forest spares)
    (horderly : Orderly src 1 next 0 stop forest.reverse spares) {above : List Loc}
    (hpath : cst.Path l above) {child : Loc} (hchild : child ∈ cst.children l) : cst.Inside child l := by
  obtain ⟨t, ht, rfl⟩ := h.exists_tree_of_path hpath
  have hholds := h.holds_of_mem ht
  rw [hholds.children_eq] at hchild
  obtain ⟨u, hu, rfl⟩ := List.mem_map.1 hchild
  exact ⟨u.span, t.span, (h.holds_of_mem (mem_of_mem_children ht hu)).span?_eq, hholds.span?_eq,
    (laid horderly (List.mem_append_left _ ht)).inside u hu⟩

theorem precedes (h : cst.MadeOf src forest spares) (ht : t ∈ forest.flatMap Tree.nodes)
    (hu : u ∈ forest.flatMap Tree.nodes) (hbefore : t.Before u) : cst.Precedes t.loc u.loc :=
  ⟨hbefore.1, t.span, u.span, (h.holds_of_mem ht).span?_eq, (h.holds_of_mem hu).span?_eq, hbefore.2⟩

theorem children_pairwise (h : cst.MadeOf src forest spares)
    (horderly : Orderly src 1 next 0 stop forest.reverse spares) {above : List Loc}
    (hpath : cst.Path l above) : (cst.children l).Pairwise cst.Precedes := by
  obtain ⟨t, ht, rfl⟩ := h.exists_tree_of_path hpath
  rw [(h.holds_of_mem ht).children_eq, List.pairwise_map]
  exact (laid horderly (List.mem_append_left _ ht)).ordered.imp_of_mem fun hu hv =>
    h.precedes (mem_of_mem_children ht hu) (mem_of_mem_children ht hv)

theorem roots_pairwise (h : cst.MadeOf src forest spares)
    (horderly : Orderly src 1 next 0 stop forest.reverse spares) :
    cst.roots.Pairwise cst.Precedes := by
  have hself {t : Tree} (ht : t ∈ forest) : t ∈ forest.flatMap Tree.nodes :=
    List.mem_flatMap.2 ⟨t, ht, t.mem_nodes_self⟩
  rw [h.roots, List.pairwise_map]
  exact (List.pairwise_reverse.1 horderly.order).imp_of_mem fun ht hu =>
    h.precedes (hself ht) (hself hu)

theorem word_eq (h : cst.MadeOf src forest spares)
    (horderly : Orderly src 1 next 0 stop forest.reverse spares) {s : String}
    (hword : cst.node? l = some (.id s)) : s ≠ "" ∧ cst.source? src l = some s.toList := by
  have hl : l < cst.nodes.size := by
    by_contra hge
    simp [node?, Array.getElem?_eq_none (Nat.le_of_not_lt hge)] at hword
  rcases h.exists_tree hl with rfl | ⟨t, ht, rfl⟩
  · obtain ⟨multiline, hnode⟩ := h.top
    have hnode : cst.nodes[Draft.top]? = _ := hnode
    simp [node?, hnode, Tree.node] at hword
  · have hholds := h.holds t ht
    obtain ⟨l, r, rfl⟩ := hholds.exists_eq_id hword
    rw [hholds.source?_eq]
    exact (laid horderly ht).word l r s rfl

/-- A syntax tree made of orderly trees is nested. -/
theorem nested (h : cst.MadeOf src forest spares)
    (horderly : Orderly src 1 next 0 stop forest.reverse spares) : cst.Nested src where
  path _ hl htop hstays := h.existsUnique_path horderly hl htop hstays
  acyclic := h.acyclic fun t ht child hchild => by simpa using horderly.places t ht child hchild
  covers _ hl := h.covers horderly hl
  inside _ _ hpath _ hchild := h.inside horderly hpath hchild
  ordered _ _ hpath := h.children_pairwise horderly hpath
  roots := h.roots_pairwise horderly
  word _ _ hword := h.word_eq horderly hword

end MadeOf

/-- The syntax tree of a source is made of trees that lie in order. -/
theorem exists_orderly {a : Alphabet} (h : Cst.lex a src = .ok cst) : ∃ forest spares next stop,
    cst.MadeOf src forest spares ∧ Orderly src 1 next 0 stop forest.reverse spares := by
  obtain ⟨L, stop, hreads, hmade⟩ := exists_reads h
  have hlies : L.Lies src false 1 0 stop := hreads.lies [] rfl rfl (.nothing (Nat.le_refl 0) 1)
  have horderly := hlies.settle.orderly
  rw [L.forest_settle (hlies.flat rfl)] at horderly
  exact ⟨_, _, _, _, hmade, horderly⟩

/-- The syntax tree of a source is a forest over the source. -/
theorem nested_of_lex {a : Alphabet} (h : Cst.lex a src = .ok cst) : cst.Nested src := by
  obtain ⟨forest, spares, next, stop, hmade, horderly⟩ := exists_orderly h
  exact hmade.nested horderly

/-- A character of two bytes, a word with a blank but no other word after it, and a string literal that
embeds one item, then two: `é ,"${b}${c;d}"`. -/
def sparseSource : List Char := 'é' :: " ,\"$\x7bb\x7d$\x7bc;d\x7d\"".toList

theorem nested_of_lex_sparse :
    ∃ cst, Cst.lex .js sparseSource = .ok cst ∧ cst.nodes.size = 9 ∧ cst.Nested sparseSource := by
  obtain ⟨cst, hlex⟩ : ∃ cst, Cst.lex .js sparseSource = .ok cst := ⟨_, rfl⟩
  have hsize : (Cst.lex .js sparseSource).toOption.map (·.nodes.size) = some 9 := by decide +kernel
  rw [hlex] at hsize
  exact ⟨cst, hlex, Option.some.inj hsize, nested_of_lex hlex⟩

end Cst

end TypeTrace
