import TypeTrace.Proofs.Reading
import Mathlib.Data.List.Nodup

/-!
# Places

Every node of a tree has its own place, and the places of all nodes read so far are consecutive.
Closing a list or starting a new one moves nodes between the parts of a level, but neither loses a
place nor gives one twice.
-/

namespace TypeTrace

/-- Each place from `first` up to `next` is among the given ones once, and no other place is. -/
structure Numbered (first next : Loc) (locs : List Loc) : Prop where
  le : first ≤ next
  count (l : Loc) : locs.count l = if first ≤ l ∧ l < next then 1 else 0

namespace Numbered

variable {first next next' l : Loc} {locs locs' : List Loc}

theorem mem_iff (h : Numbered first next locs) : l ∈ locs ↔ first ≤ l ∧ l < next := by
  rw [← List.count_pos_iff, h.count]
  split <;> simp_all

theorem nodup (h : Numbered first next locs) : locs.Nodup := by
  rw [List.nodup_iff_count_le_one]
  intro l
  rw [h.count]
  split <;> omega

theorem grow (h : Numbered first next locs) (hle : next ≤ next')
    (hcount : ∀ l, locs'.count l = locs.count l + if next ≤ l ∧ l < next' then 1 else 0) :
    Numbered first next' locs' := by
  refine ⟨Nat.le_trans h.le hle, fun l => ?_⟩
  have := h.le
  rw [hcount, h.count]
  grind

end Numbered

namespace Tree

theorem nodes_wrap (loc : Loc) (kind : ListKind) (parts : List Tree) :
    (wrap loc kind parts).nodes = wrap loc kind parts :: parts.reverse.flatMap nodes := by
  rw [nodes_eq]
  rfl

theorem mem_nodes_wrap {t : Tree} {loc : Loc} {kind : ListKind} {parts : List Tree} :
    t ∈ (wrap loc kind parts).nodes ↔ t = wrap loc kind parts ∨ ∃ part ∈ parts, t ∈ part.nodes := by
  simp [nodes_wrap]

theorem loc_wrap (l : Loc) (kind : ListKind) (parts : List Tree) : (wrap l kind parts).loc = l := rfl

theorem count_locs_reverse (l : Loc) (ts : List Tree) :
    ((ts.reverse.flatMap nodes).map loc).count l = ((ts.flatMap nodes).map loc).count l :=
  (((List.reverse_perm ts).flatMap_right nodes).map loc).count_eq l

end Tree

/-! ## Places of a level -/

attribute [simp] Frame.target

namespace Level

variable (L : Level)

/-- The lists around the current word and item. -/
def frames : List Frame :=
  (match L.atoms with
    | _ :: _ :: _ => [.smooshed L.smooshed]
    | _ => []) ++
  match L.words with
    | [] => []
    | _ => [.spaced L.spaced]

/-- The finished trees. -/
def forest : List Tree := L.atoms ++ L.words ++ L.items ++ L.above.flatten

/-- All finished nodes. -/
def nodes : List Tree := L.forest.flatMap Tree.nodes ++ L.spares

/-- The places of all nodes. -/
def locs : List Loc := L.frames.map Frame.target ++ L.nodes.map Tree.loc

variable {L} {t s : Tree}

theorem mem_nodes : t ∈ L.nodes ↔ (∃ s ∈ L.forest, t ∈ s.nodes) ∨ t ∈ L.spares := by
  simp only [nodes, List.mem_append, List.mem_flatMap]

theorem mem_nodes_of_mem_forest (ht : t ∈ L.forest) : t ∈ L.nodes :=
  List.mem_append_left _ (List.mem_flatMap.2 ⟨t, ht, t.mem_nodes_self⟩)

theorem mem_locs_of_mem_nodes (ht : t ∈ L.nodes) : t.loc ∈ L.locs :=
  List.mem_append_right _ (List.mem_map_of_mem ht)

theorem frames_of_nil (hatoms : L.atoms.length ≤ 1) (hwords : L.words = []) : L.frames = [] := by
  unfold frames
  split <;> simp_all

theorem frames_of_ne_nil (hatoms : L.atoms.length ≤ 1) (hwords : L.words ≠ []) :
    L.frames = [.spaced L.spaced] := by
  unfold frames
  split
  · simp_all
  · split <;> simp_all

theorem spaced_mem_frames (hwords : L.words ≠ []) : .spaced L.spaced ∈ L.frames := by
  refine List.mem_append_right _ ?_
  split <;> simp_all

theorem smooshed_mem_frames (hatoms : 2 ≤ L.atoms.length) : .smooshed L.smooshed ∈ L.frames := by
  refine List.mem_append_left _ ?_
  split
  · simp
  · rcases hL : L.atoms with _ | ⟨x, _ | ⟨y, zs⟩⟩ <;> simp_all

theorem spaced_mem_locs (hwords : L.words ≠ []) : L.spaced ∈ L.locs :=
  List.mem_append_left _ (List.mem_map_of_mem (spaced_mem_frames hwords))

theorem smooshed_mem_locs (hatoms : 2 ≤ L.atoms.length) : L.smooshed ∈ L.locs :=
  List.mem_append_left _ (List.mem_map_of_mem (smooshed_mem_frames hatoms))

/-! ## What reading does to places -/

/-- What placing a tree leaves alone. -/
theorem place_eq (L : Level) (t : Tree) : L.place t =
    { L with
      atoms := t :: L.atoms, run := none, next := (L.place t).next, smooshed := (L.place t).smooshed } := by
  unfold place
  split <;> simp_all

@[simp] theorem atoms_place : (L.place t).atoms = t :: L.atoms := by rw [place_eq]

@[simp] theorem above_place : (L.place t).above = L.above := by rw [place_eq]

@[simp] theorem items_place : (L.place t).items = L.items := by rw [place_eq]

@[simp] theorem words_place : (L.place t).words = L.words := by rw [place_eq]

@[simp] theorem run_place : (L.place t).run = none := by rw [place_eq]

theorem next_lt_next_place (L : Level) (t : Tree) : L.next < (L.place t).next := by
  unfold place
  split <;> simp

theorem mem_nodes_place (hleaf : t.children = []) :
    s ∈ (L.place t).nodes ↔ s = t ∨ s ∈ L.nodes := by
  unfold place
  split <;> simp_all [nodes, forest, Tree.nodes_of_leaf hleaf]

theorem numbered_place {first : Loc} (hleaf : t.children = []) (hloc : t.loc = L.next)
    (h : Numbered first L.next L.locs) : Numbered first (L.place t).next (L.place t).locs := by
  refine h.grow ?_ fun l => ?_
  · unfold place
    split <;> simp
  · rcases hL : L.atoms with _ | ⟨x, _ | ⟨y, zs⟩⟩ <;>
      simp [place, locs, frames, nodes, forest, hL, Tree.nodes_of_leaf hleaf, hloc,
        List.count_cons, -List.count_eq_one_of_mem] <;>
      grind

theorem mem_nodes_fill {x : Tree} {xs : List Tree} (hL : L.atoms = x :: xs)
    {next : Loc} {spares : List Tree} (hs : s ∈ (L.fill t next spares).nodes) :
    s ∈ t.nodes ++ spares ∨ s ∈ { L with atoms := xs }.nodes := by
  simp only [mem_nodes, fill, forest, hL, List.tail_cons, List.mem_append, List.mem_cons] at hs ⊢
  grind

theorem numbered_fill {first next : Loc} {x : Tree} {xs spares : List Tree} (hL : L.atoms = x :: xs)
    (hx : x.children = []) (hloc : t.loc = x.loc) (h : Numbered first L.next L.locs)
    (hinner : Numbered L.next next ((t.children.flatMap Tree.nodes ++ spares).map Tree.loc)) :
    Numbered first next (L.fill t next spares).locs := by
  refine h.grow hinner.le fun l => ?_
  have hcount := hinner.count l
  rw [← hcount]
  cases xs <;>
    simp [fill, locs, frames, nodes, forest, hL, Tree.nodes_of_leaf hx, Tree.nodes_eq t, hloc,
      List.count_cons, -List.count_eq_one_of_mem] <;>
    grind

/-- What ending a word leaves alone. -/
theorem settleWord_eq (L : Level) :
    L.settleWord = { L with run := none, atoms := L.settleWord.atoms } := by
  unfold settleWord
  split <;> rfl

@[simp] theorem next_settleWord : L.settleWord.next = L.next := by rw [settleWord_eq]

@[simp] theorem words_settleWord : L.settleWord.words = L.words := by rw [settleWord_eq]

@[simp] theorem items_settleWord : L.settleWord.items = L.items := by rw [settleWord_eq]

@[simp] theorem above_settleWord : L.settleWord.above = L.above := by rw [settleWord_eq]

@[simp] theorem run_settleWord : L.settleWord.run = none := by rw [settleWord_eq]

theorem length_atoms_settleWord (L : Level) : L.settleWord.atoms.length ≤ 1 := by
  unfold settleWord
  split
  · simp
  · rcases hL : L.atoms with _ | ⟨x, _ | ⟨y, zs⟩⟩ <;> simp_all

theorem settleWord_of_length_le_one (hatoms : L.atoms.length ≤ 1) :
    L.settleWord = { L with run := none } := by
  unfold settleWord
  split
  · simp_all
  · rfl

theorem mem_nodes_settleWord (ht : t ∈ L.settleWord.nodes) :
    t = .wrap L.smooshed .smooshed L.atoms ∨ t ∈ L.nodes := by
  unfold settleWord at ht
  split at ht
  · next x y zs hL =>
    simp only [mem_nodes, forest, List.mem_append, List.mem_singleton] at ht ⊢
    grind [Tree.mem_nodes_wrap]
  · exact .inr ht

theorem count_locs_settleWord (l : Loc) : L.settleWord.locs.count l = L.locs.count l := by
  unfold settleWord
  split
  · next x y zs hL =>
    simp [locs, frames, nodes, forest, hL, Tree.nodes_wrap, Tree.loc_wrap, List.count_cons,
      Tree.count_locs_reverse, -List.count_eq_one_of_mem]
    grind
  · rfl

/-- What ending an item leaves alone. -/
theorem settleItem_eq (L : Level) : L.settleItem =
    { L with words := [], atoms := L.settleItem.atoms, spares := L.settleItem.spares } := by
  obtain ⟨⟩ := L
  unfold settleItem
  split <;> simp_all

@[simp] theorem next_settleItem : L.settleItem.next = L.next := by rw [settleItem_eq]

@[simp] theorem words_settleItem : L.settleItem.words = [] := by rw [settleItem_eq]

@[simp] theorem run_settleItem : L.settleItem.run = L.run := by rw [settleItem_eq]

theorem length_atoms_settleItem (hatoms : L.atoms.length ≤ 1) : L.settleItem.atoms.length ≤ 1 := by
  unfold settleItem
  split <;> simp_all

theorem mem_nodes_settleItem (ht : t ∈ L.settleItem.nodes) :
    t = .wrap L.spaced .spaced (L.atoms ++ L.words) ∨ t ∈ L.nodes := by
  unfold settleItem at ht
  split at ht
  · exact .inr ht
  · next only hparts hne =>
    simp only [mem_nodes, forest, List.mem_append, List.mem_cons] at ht ⊢
    grind
  · next hne hone =>
    simp only [mem_nodes, forest, List.mem_append, List.mem_singleton] at ht ⊢
    grind [Tree.mem_nodes_wrap]

theorem count_locs_settleItem (l : Loc) (hatoms : L.atoms.length ≤ 1) :
    L.settleItem.locs.count l = L.locs.count l := by
  unfold settleItem
  split
  · rfl
  · next only hparts hne =>
    obtain ⟨hL, hw⟩ : L.atoms = [] ∧ L.words = [only] := by
      rcases List.append_eq_singleton_iff.1 hparts with h | h
      · exact h
      · exact absurd h.2 hne
    simp [locs, nodes, forest, hL, hw, frames, Tree.loc_wrap, List.count_cons,
      -List.count_eq_one_of_mem]
    grind
  · next hne hone =>
    simp [locs, nodes, forest, frames, Tree.nodes_wrap, Tree.loc_wrap, List.count_cons,
      Tree.count_locs_reverse, -List.count_eq_one_of_mem]
    grind

@[simp] theorem words_settle : L.settle.words = [] := words_settleItem

@[simp] theorem next_settle : L.settle.next = L.next := next_settleItem.trans next_settleWord

@[simp] theorem above_settle : L.settle.above = L.above := by
  rw [settle, settleItem_eq, above_settleWord]

@[simp] theorem items_settle : L.settle.items = L.items := by
  rw [settle, settleItem_eq, items_settleWord]

@[simp] theorem run_settle : L.settle.run = none := run_settleItem.trans run_settleWord

theorem length_atoms_settle (L : Level) : L.settle.atoms.length ≤ 1 :=
  length_atoms_settleItem L.length_atoms_settleWord

/-- What a blank after a word leaves alone. -/
theorem pause_eq (L : Level) : L.pause =
    { L with
      words := L.atoms ++ L.words, atoms := [], spaced := L.pause.spaced, next := L.pause.next } := by
  obtain ⟨⟩ := L
  unfold pause
  split <;> simp_all

@[simp] theorem above_space : L.space.above = L.above := by
  rw [space, pause_eq, above_settleWord]

@[simp] theorem items_space : L.space.items = L.items := by
  rw [space, pause_eq, items_settleWord]

@[simp] theorem words_space : L.space.words = L.settleWord.atoms ++ L.words := by
  rw [space, pause_eq, words_settleWord]

@[simp] theorem atoms_space : L.space.atoms = [] := by rw [space, pause_eq]

@[simp] theorem run_space : L.space.run = none := by
  rw [space, pause_eq, run_settleWord]

theorem nodes_separate : L.separate.nodes = L.settle.nodes := by
  simp [separate, nodes, forest]

theorem nodes_endRow : L.endRow.nodes = L.settle.nodes := by
  simp [endRow, separate, nodes, forest]

theorem locs_separate : L.separate.locs = L.settle.locs := by
  rw [locs, locs, nodes_separate, frames_of_nil (by simp [separate]) (by simp [separate]),
    frames_of_nil L.length_atoms_settle words_settle]

theorem locs_endRow : L.endRow.locs = L.settle.locs := by
  rw [locs, locs, nodes_endRow, frames_of_nil (by simp [endRow, separate]) (by simp [endRow, separate]),
    frames_of_nil L.length_atoms_settle words_settle]

end Level

/-- The trees right below a bracket are those read inside. -/
theorem Bracket.children_tree {b : Bracket} {L : Level} (hflat : b ≠ .table → L.above = [])
    (l : Loc) (r : Span) : (b.tree l r L).children = L.settle.forest.reverse := by
  cases b with
  | list kind =>
    simp [tree, Tree.children, Level.members, Level.separate, Level.forest, hflat (by simp)]
  | table =>
    simp only [tree, Tree.children, Level.rows, List.flatten_filter_not_isEmpty]
    rw [List.map_reverse, ← List.reverse_flatten]
    simp [Level.endRow, Level.separate, Level.forest]

namespace Literal

variable (T : Literal)

/-- All finished nodes of a string literal. -/
def nodes : List Tree := (T.spans.filterMap TextSpan.item?).flatMap Tree.nodes ++ T.spares

@[simp] theorem next_char (c : Char) : (T.char c).next = T.next := by
  unfold char
  split <;> rfl

@[simp] theorem nodes_char (c : Char) : (T.char c).nodes = T.nodes := by
  unfold char
  split <;> simp_all [nodes, List.filterMap_cons]

variable {T} {r : Span} {L : Level} {t : Tree}

@[simp] theorem next_embed : (T.embed r L).next = L.next := by
  unfold embed
  split <;> rfl

theorem nodes_items : (T.items r L).nodes = T.items r L :: L.members.flatMap Tree.nodes :=
  Tree.nodes_eq _

theorem mem_nodes_embed :
    t ∈ (T.embed r L).nodes ↔ t ∈ (T.items r L).nodes ++ L.separate.spares ∨ t ∈ T.nodes := by
  unfold embed
  split
  · next hmembers =>
    simp only [nodes, nodes_items, hmembers, List.filterMap_cons, TextSpan.item?_embed, List.flatMap_cons,
      List.flatMap_nil, List.mem_append, List.mem_cons]
    grind
  · simp only [nodes, List.filterMap_cons, TextSpan.item?_embed, List.flatMap_cons, List.mem_append]
    grind

theorem count_locs_embed (l : Loc) :
    ((T.embed r L).nodes.map Tree.loc).count l =
      (((T.items r L).nodes ++ L.separate.spares).map Tree.loc).count l +
        (T.nodes.map Tree.loc).count l := by
  unfold embed
  split
  · next hmembers =>
    simp [nodes, nodes_items, hmembers, List.count_cons, -List.count_eq_one_of_mem]
    grind
  · simp [nodes]
    grind

end Literal
end TypeTrace
