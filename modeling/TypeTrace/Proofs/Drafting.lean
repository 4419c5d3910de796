import TypeTrace.Proofs.Store

/-!
# Drafts follow the reading of trees

What one character does to a draft is what reading it does to the contents of the innermost bracket,
or to the innermost string literal.  So a source that has a syntax tree at all is read along
`Reads`, and the store of its tree holds exactly the nodes read.

## Main definitions

* `Draft.At`: a draft is inside a bracket, with the given contents so far
* `Draft.Complete`: a draft whose innermost bracket ends here
* `Draft.Spells`: a draft is inside a string literal
* `Cst.Holds`, `Cst.MadeOf`: the nodes of a finished syntax tree

## Main results

* `Draft.follows`: a draft that leads to a syntax tree follows the reading of trees
* `Cst.exists_reads`: a source that has a syntax tree is read to its end, and the tree is made of the
  trees read
-/

namespace TypeTrace
namespace Draft

variable {d e m : Draft} {site : Site} {L : Level} {t : Tree} {a : Alphabet}

/-! ## The current word -/

section Word

variable (d)

@[simp] theorem word_add (l : Loc) : (d.add l).word = d.word := by
  simp only [add]
  split <;> rfl

@[simp] theorem word_closeWrapper (w : Loc) : (d.closeWrapper w).word = d.word := by
  unfold closeWrapper
  split <;> rfl

theorem word_closeWrappersOn (items : Bool) (path : List Frame) :
    (closeWrappersOn items path d).word = d.word := by
  fun_induction closeWrappersOn items path d <;> simp_all

@[simp] theorem word_closeWrappers (items : Bool) : (d.closeWrappers items).word = d.word :=
  word_closeWrappersOn d items d.path

@[simp] theorem word_pause (pos : Nat) : (d.pause pos).word = d.word := by
  unfold pause
  split <;> rfl

end Word

/-- A draft holds the contents of a bracket that have been read so far, and may go on with the
latest word of them. -/
structure At (d : Draft) (site : Site) (L : Level) : Prop extends d.Lays site L where
  word : d.word = L.current

theorem Lays.toAt (h : d.Lays site L) (hword : d.word = none) (hrun : L.run = none) : d.At site L :=
  ⟨h, by simp [hword, Level.current, hrun]⟩

namespace At

theorem separate (h : d.At site L) : d.separate.At site L.separate :=
  h.toLays.separate.toAt (word_closeWrappers d.endWord true) Level.run_settle

theorem endRow (h : d.At site L) (htable : site.bracket = .table) : d.endRow.At site L.endRow :=
  (h.toLays.endRow htable).toAt (word_closeWrappers d.endWord true) Level.run_settle

theorem space (h : d.At site L) (pos : Nat) : (d.space pos).At site L.space := by
  refine (h.toLays.space pos).toAt ?_ Level.run_space
  rw [space_eq, word_pause, word_closeWrappers]
  rfl

end At

theorem minted_mint {sketch : Sketch} (hloc : t.loc = d.next) (hdraws : sketch.Draws t)
    (hleaf : t.children = []) (word : Option (Loc × Nat)) :
    d.Minted ({ d with word }.mint sketch t.span) sketch t where
  loc := hloc
  path := rfl
  next := next_mint _ _ _
  old hl := (nodes_mint _ _ _ _).trans (if_neg (by exact Nat.ne_of_lt hl))
  new := (nodes_mint _ _ _ _).trans (if_pos hloc)
  draws := hdraws
  leaf := hleaf

namespace At

/-- A character that starts a word. -/
theorem glyph_fresh (h : d.At site L) (pos : Nat) (c : Char) (cls : Nat) :
    { (d.mint (.id c.toString) ⟨pos, pos + c.utf8Size⟩).add d.next with
      word := some (d.next, cls) }.At site
      { L.place (.id L.next ⟨pos, pos + c.utf8Size⟩ c.toString) with run := some cls } := by
  obtain ⟨t, ht⟩ : ∃ t : Tree, t = .id d.next ⟨pos, pos + c.utf8Size⟩ c.toString := ⟨_, rfl⟩
  have hm : d.Minted (d.mint (.id c.toString) t.span) (.id c.toString) t :=
    minted_mint (by rw [ht]; rfl) (by rw [ht]; rfl) (by rw [ht]; rfl) d.word
  have hadd := (h.toLays.add hm).withWord (some (d.next, cls)) (some cls)
  rw [← h.next]
  subst ht
  refine ⟨hadd, ?_⟩
  unfold Level.place
  split <;> rfl

/-- A character that extends the current word. -/
theorem glyph_extend (h : d.At site L) (pos : Nat) (c : Char) {l : Loc} {r : Span} {s : String}
    {xs : List Tree} (hL : L.atoms = .id l r s :: xs) :
    ((d.revise l fun
        | .id text => .id (text.push c)
        | sketch => sketch).setStop l (pos + c.utf8Size)).At site
      { L with atoms := .id l ⟨r.start, pos + c.utf8Size⟩ (s.push c) :: xs } := by
  -- The new tree and the new draft get names, so that rewriting does not look into them.
  obtain ⟨t, ht⟩ : ∃ t : Tree, t = .id l ⟨r.start, pos + c.utf8Size⟩ (s.push c) := ⟨_, rfl⟩
  obtain ⟨d', hd'⟩ : ∃ d', d' = (d.revise l fun
      | .id text => .id (text.push c)
      | sketch => sketch).setStop l (pos + c.utf8Size) := ⟨_, rfl⟩
  have hleaf : t.children = [] := by rw [ht]; rfl
  have hfill : d'.Lays site (L.fill t L.next []) := by
    refine h.toLays.fill hL rfl ?_ ?_ ?_ ?_ ?_ ?_
    · rw [ht]; rfl
    · rw [hd']; rfl
    · simp [hd', h.next]
    -- Only the node of the word changes, and it stays a word.
    · intro l' _ hne
      replace hne : l ≠ l' := Ne.symm hne
      rw [hd', nodes_setStop, if_neg hne, nodes_revise, if_neg hne]
    · intro t' ht'
      obtain rfl : t' = t := by simpa [Tree.nodes_of_leaf hleaf] using ht'
      have hmem : .id l r s ∈ L.nodes := Level.mem_nodes_of_mem_forest (by simp [Level.forest, hL])
      obtain ⟨sketch, hnode, hdraws⟩ := h.drawn _ hmem
      obtain rfl : sketch = .id s := by
        cases sketch <;> simp_all [Sketch.Draws]
      simp only [Tree.loc, Tree.span] at hnode
      refine ⟨.id (s.push c), ?_, by rw [ht]; rfl⟩
      simp only [ht, hd', Tree.loc, Tree.span]
      rw [nodes_setStop, if_pos rfl, nodes_revise, if_pos rfl, hnode]
      rfl
    · exact ⟨Nat.le_refl _, fun l => by simp [hleaf]⟩
  have hlevel : L.fill t L.next [] = { L with atoms := t :: xs } := by
    simp [Level.fill, hL]
  rw [← hd', ← ht, ← hlevel]
  refine ⟨hfill, ?_⟩
  have hword : d'.word = L.current := by
    rw [← h.word, hd']
    rfl
  rw [hword, hlevel, ht]
  cases hrun : L.run <;> simp [Level.current, hL, hrun]

theorem glyph (h : d.At site L) (pos : Nat) (c : Char) (cls : Nat) :
    (d.glyph pos c cls).At site (L.glyph pos c cls) := by
  have hword := h.word
  -- The draft remembers a current word exactly if the level does.
  rcases hcurrent : L.current with _ | ⟨l, cur⟩
  · have hL : L.glyph pos c cls =
        { L.place (.id L.next ⟨pos, pos + c.utf8Size⟩ c.toString) with run := some cls } := by
      unfold Level.glyph
      unfold Level.current at hcurrent
      split
      · simp_all
      · rfl
    rw [hL]
    simp only [Draft.glyph, hword, hcurrent]
    exact h.glyph_fresh pos c cls
  · obtain ⟨r, s, xs, hrun, hL⟩ : ∃ r s xs, L.run = some cur ∧ L.atoms = .id l r s :: xs := by
      unfold Level.current at hcurrent
      split at hcurrent
      · simp_all
      · simp at hcurrent
    simp only [Draft.glyph, Level.glyph, hword, hcurrent, hL, hrun]
    by_cases hcls : cur = cls
    · simp only [hcls, if_true]
      exact hcls ▸ hrun ▸ h.glyph_extend pos c hL
    · simp only [hcls, if_false]
      exact h.glyph_fresh pos c cls

end At

/-! ## Brackets -/

/-- Nodes that are not the target do not change when another one is placed. -/
theorem nodes_add (m : Draft) (l : Loc) {l' : Loc} (hlt : l' < m.next) (hne : l' ≠ m.target) :
    (m.add l).nodes[l']? = m.nodes[l']? := by
  simp only [add]
  split
  · rw [nodes_reviseSlots, if_neg hne.symm]
  · rw [nodes_reviseSlots, if_neg hne.symm]
  · rw [nodes_reviseSlots, if_neg hne.symm]
  · rw [wrap, nodes_enter, nodes_reviseSlots, if_neg hne.symm, nodes_mint, if_neg (by lia)]

theorem Lays.target_lt (h : d.Lays site L) : d.target < L.next := by
  by_cases hatoms : L.atoms.length ≤ 1
  · rw [h.target_eq hatoms]
    exact h.parent_lt
  · have hL : 2 ≤ L.atoms.length := by omega
    have : d.target = L.smooshed := by
      rcases hL : L.atoms with _ | ⟨x, _ | ⟨y, zs⟩⟩ <;> simp_all [target, h.path, Level.frames]
    rw [this]
    exact h.lt_next (Level.smooshed_mem_locs hL)

/-- Where the inside of a node is read that has just been placed. -/
def inside (e : Draft) (t : Tree) (frame : Frame) : Spot :=
  ⟨frame :: e.path, t.loc, t.span, e.nodes, e.next⟩

/-- A new node is placed, and its inside will be read next. -/
theorem At.openNode (h : d.At site L) {sketch : Sketch} (hloc : t.loc = L.next)
    (hdraws : sketch.Draws t) (hleaf : t.children = []) (frame : Loc → Frame) :
    ∃ e : Draft, d.openNode sketch t.span frame = e.enter (frame t.loc) ∧
      e.At site (L.place t) ∧ e.nodes[t.loc]? = some (sketch, t.span) := by
  have hloc' : t.loc = d.next := hloc.trans h.next.symm
  have hm : d.Minted (d.endWord.mint sketch t.span) sketch t := minted_mint hloc' hdraws hleaf none
  refine ⟨(d.endWord.mint sketch t.span).add t.loc, ?_, ?_, ?_⟩
  · rw [Draft.openNode, ← hloc']
  · exact (h.toLays.add hm).toAt (word_add _ _) Level.run_place
  · have := h.toLays.target_lt
    have := h.next
    rw [nodes_add _ _ (by rw [hm.next]; lia) (by rw [hm.target]; lia), hm.new]

/-- All contents of a bracket have been read. -/
structure Complete (d : Draft) (site : Site) (L : Level) : Prop where
  path : d.path = site.path
  next : d.next = L.next
  kept (l : Loc) (hl : l < site.first) (hne : l ≠ site.loc) : d.nodes[l]? = site.store[l]?
  node : ∃ sketch, d.nodes[site.loc]? = some (sketch, site.span) ∧
    ∀ span, sketch.Draws (site.bracket.tree site.loc span L)
  flat (hlist : site.bracket ≠ .table) : L.above = []
  loc_lt : site.loc < site.first
  drawn (t : Tree) (ht : t ∈ L.settle.nodes) : d.Drawn t
  numbered : Numbered site.first L.next (L.settle.nodes.map Tree.loc)

theorem Lays.complete (h : d.Lays site L) : (d.closeWrappers true).Complete site L := by
  have hend := h.closeWrappers_true
  have hframes := Level.frames_of_nil L.length_atoms_settle Level.words_settle
  obtain ⟨above, hbase, habove⟩ := hend.base
  have hnumbered := hend.numbered
  rw [Level.locs, hframes, Level.next_settle] at hnumbered
  have hfilled : Slots.filled (.ending L.settle.itemLoc? L.settle.items) =
      (L.separate.items.map Tree.loc).reverse := by
    simp only [Level.itemLoc?, Level.words_settle]
    exact Level.filled_ending_wordLoc? L.length_atoms_settle L.settle.items
  refine ⟨?_, ?_, hend.kept, ⟨_, hbase, fun span => ?_⟩, h.flat, h.loc_lt, hend.drawn, hnumbered⟩
  · rw [hend.path, hframes, List.nil_append]
  · rw [hend.next, Level.next_settle]
  · cases site.bracket with
    | list kind =>
      refine ⟨rfl, ?_⟩
      rw [hfilled, Level.members, List.map_reverse]
    | table =>
      -- Rows are kept from the last to the first; the row that is still open comes on top of them.
      have hrows : ((Slots.ending L.settle.itemLoc? L.settle.items :: above).reverse.map Slots.filled) =
          (L.endRow.above.reverse.map List.reverse).map (·.map Tree.loc) := by
        have hseparate : L.separate.above = L.settle.above := rfl
        rw [List.map_reverse, List.map_cons, hfilled, habove]
        simp [Level.endRow, hseparate]
      have hempty : ((fun row : List Loc => !row.isEmpty) ∘ fun row : List Tree => row.map Tree.loc) =
          fun row => !row.isEmpty := by
        funext row
        simp
      change List.filter _ (List.map _ _) = _
      rw [hrows, List.filter_map, hempty]
      rfl

theorem At.complete (h : d.At site L) : (d.endWord.closeWrappers true).Complete site L :=
  (h.withWord none L.run).complete

/-- Nothing has been read inside a bracket. -/
theorem at_nothing (hfits : site.Fits) (hlt : site.loc < site.first) (hpath : d.path = site.path)
    (hword : d.word = none) (hnext : d.next = site.first) (hstore : d.nodes = site.store)
    (hnode : d.nodes[site.loc]? = some (site.bracket.sketch [] [], site.span)) :
    d.At site { next := site.first } where
  fits := hfits
  loc_lt := hlt
  path := hpath
  next := hnext
  flat _ := rfl
  kept l _ _ := by rw [hstore]
  base := ⟨[], hnode, rfl⟩
  spaced hw := absurd rfl hw
  smooshed hge := by simp at hge
  drawn t ht := by simp [Level.nodes, Level.forest] at ht
  numbered := ⟨Nat.le_refl _, fun l => by simp [Level.locs, Level.frames, Level.nodes, Level.forest]⟩
  word := hword

namespace Complete

theorem numbered_children (h : d.Complete site L) (r : Span) :
    Numbered site.first L.next
      (((site.bracket.tree site.loc r L).children.flatMap Tree.nodes ++ L.separate.spares).map
        Tree.loc) := by
  refine h.numbered.grow (Nat.le_refl _) fun l => ?_
  rw [Bracket.children_tree h.flat, Level.nodes, List.map_append, List.map_append, List.count_append,
    List.count_append, Tree.count_locs_reverse]
  have : L.separate.spares = L.settle.spares := rfl
  grind

theorem mem_nodes_settle (h : d.Complete site L) {r : Span}
    (ht : t ∈ (site.bracket.tree site.loc r L).children.flatMap Tree.nodes ++ L.separate.spares) :
    t ∈ L.settle.nodes := by
  rw [Bracket.children_tree h.flat] at ht
  simpa [Level.nodes, Level.separate] using ht

theorem filled_slots (h : d.Complete site L) {kind : ListKind} (hlist : site.bracket = .list kind) :
    Slots.filled (d.slots site.loc) = L.members.map Tree.loc := by
  obtain ⟨sketch, hnode, hdraws⟩ := h.node
  have hdraws := hdraws site.span
  rw [hlist] at hdraws
  cases sketch with
  | list kind' places =>
    rw [slots, hnode]
    exact hdraws.2
  | _ => exact hdraws.elim

/-- The node of a bracket that is closed at byte `stop`, and all nodes inside, are there. -/
theorem drawn_setStop (h : d.Complete site L) (stop : Nat)
    (ht : t ∈ (site.bracket.tree site.loc ⟨site.span.start, stop⟩ L).nodes ++ L.separate.spares) :
    (d.setStop site.loc stop).Drawn t := by
  rw [Tree.nodes_eq, List.cons_append] at ht
  rcases List.mem_cons.1 ht with rfl | ht
  · obtain ⟨sketch, hnode, hdraws⟩ := h.node
    refine ⟨sketch, ?_, hdraws _⟩
    rw [Bracket.loc_tree, Bracket.span_tree, nodes_setStop, if_pos rfl, hnode]
    rfl
  · have ht := h.mem_nodes_settle ht
    have := h.loc_lt
    have := (h.numbered.mem_iff.1 (List.mem_map_of_mem ht)).1
    refine (h.drawn t ht).congr ?_
    rw [nodes_setStop, if_neg (by lia)]

end Complete

/-- A closing bracket ends the contents of the innermost one. -/
theorem At.close {b : Bracket} {M inner : Level} {x : Tree} {xs : List Tree} (h : e.At site M)
    (hM : M.atoms = x :: xs) (hrun : M.run = none) (hx : x.children = [])
    (hinner : d.At ⟨e.inside x (b.frame x.loc), b⟩ inner) (pos : Nat) :
    ∃ d', d.close b.kind pos = .ok d' ∧ d'.At site
      (M.fill (b.tree x.loc ⟨x.span.start, pos + 1⟩ inner) inner.next inner.separate.spares) := by
  -- Words and items that are still open end first; then the path shows the bracket.
  have hend := hinner.complete
  obtain ⟨d', hd'⟩ : ∃ d', d' = d.endWord.closeWrappers true := ⟨_, rfl⟩
  rw [← hd'] at hend
  refine ⟨(d'.setStop x.loc (pos + 1)).leave, ?_, ?_⟩
  · have hpath : d'.path = b.frame x.loc :: e.path := hend.path
    rw [Draft.close, ← hd', hpath]
    cases b <;> simp [Bracket.frame, Bracket.kind]
  · have hdrawn {t : Tree} := hend.drawn_setStop (t := t) (pos + 1)
    refine (h.toLays.fill hM hx ?_ ?_ ?_ ?_ ?_ ?_).toAt ?_ hrun
    · simp
    · simp [hend.path, inside]
    · simp [hend.next]
    · intro l hl hne
      rw [nodes_leave, nodes_setStop, if_neg (Ne.symm hne)]
      exact hend.kept l (Nat.lt_of_lt_of_eq hl h.next.symm) hne
    · exact fun s hs => (hdrawn hs).congr rfl
    · exact h.next ▸ hend.numbered_children _
    · rw [hd']
      exact word_closeWrappers d.endWord true

/-! ## String literals -/

/-- A draft holds the part of a string literal that has been read so far. -/
structure Spells (d : Draft) (spot : Spot) (T : Literal) : Prop where
  path : d.path = spot.path
  head : ∃ path, spot.path = .text spot.loc :: path
  word : d.word = none
  loc_lt : spot.loc < spot.first
  next : d.next = T.next
  kept (l : Loc) (hl : l < spot.first) (hne : l ≠ spot.loc) : d.nodes[l]? = spot.store[l]?
  node : d.nodes[spot.loc]? = some (.text (T.spans.map (TextSpan.map Tree.loc)), spot.span)
  drawn (t : Tree) (ht : t ∈ T.nodes) : d.Drawn t
  numbered : Numbered spot.first T.next (T.nodes.map Tree.loc)

variable {spot : Spot} {T : Literal}

/-- Where an expression is read that is embedded in a string literal at byte `pos`. -/
def embedded (d : Draft) (text : Loc) (pos : Nat) : Site :=
  ⟨(d.mint (.list .curly []) ⟨pos, pos + 2⟩).inside (.list d.next ⟨pos, pos + 2⟩ .curly [])
    (.embed text d.next), .list .curly⟩

theorem at_openEmbed (hword : d.word = none) (text : Loc) (pos : Nat) :
    (d.openEmbed text pos).At (d.embedded text pos) { next := d.next + 1 } := by
  have hfirst : (d.embedded text pos).first = d.next + 1 := next_mint _ _ _
  refine hfirst ▸ at_nothing .embed ?_ rfl hword rfl rfl ?_
  · rw [hfirst]
    exact Nat.lt_succ_self _
  · rw [openEmbed, nodes_enter]
    exact (nodes_mint _ _ _ _).trans (if_pos rfl)

namespace Spells

theorem ne_loc (h : d.Spells spot T) (ht : t ∈ T.nodes) : t.loc ≠ spot.loc := by
  have := h.loc_lt
  have := (h.numbered.mem_iff.1 (List.mem_map_of_mem ht)).1
  lia

theorem char (h : d.Spells spot T) (c : Char) :
    (d.textChar spot.loc c).Spells spot (T.char c) := by
  refine ⟨h.path, h.head, h.word, h.loc_lt, ?_, fun l hl hne => ?_, ?_, fun t ht => ?_, ?_⟩
  · simp [textChar, h.next]
  · rw [textChar, nodes_revise, if_neg (Ne.symm hne), h.kept l hl hne]
  · rw [textChar, nodes_revise, if_pos rfl, h.node]
    unfold Literal.char
    rcases hT : T.spans with _ | ⟨s | item, spans⟩ <;> simp [TextSpan.map]
  · rw [Literal.nodes_char] at ht
    refine (h.drawn t ht).congr ?_
    rw [textChar, nodes_revise, if_neg (h.ne_loc ht).symm]
  · rw [Literal.nodes_char, Literal.next_char]
    exact h.numbered

/-- An embedded expression ends, and a piece of text refers to it. -/
theorem embed (h : d.Spells spot T) {inner : Level} {pos stop : Nat} {item : Tree}
    (hend : e.Complete (d.embedded spot.loc pos) inner) (hword : e.word = none)
    (hspans : (T.embed ⟨pos, stop⟩ inner).spans = .embed item :: T.spans) :
    ((e.setStop d.next stop).revise spot.loc fun
      | .text spans => .text (.embed item.loc :: spans)
      | sketch => sketch).leave.Spells spot (T.embed ⟨pos, stop⟩ inner) := by
  have hnext := h.next
  have hlt := h.loc_lt
  have hle := h.numbered.le
  have hfirst : (d.embedded spot.loc pos).first = d.next + 1 := next_mint _ _ _
  have hkept (l : Loc) (hl : l < d.next) : e.nodes[l]? = d.nodes[l]? := by
    rw [hend.kept l (by lia) (Nat.ne_of_lt hl)]
    exact (nodes_mint _ _ _ _).trans (if_neg (Nat.ne_of_lt hl))
  have hinner : Numbered (d.next + 1) inner.next
      ((inner.members.flatMap Tree.nodes ++ inner.separate.spares).map Tree.loc) :=
    hfirst ▸ hend.numbered_children ⟨pos, stop⟩
  refine ⟨?_, h.head, hword, h.loc_lt, ?_, fun l hl hne => ?_, ?_, fun t ht => ?_, ?_⟩
  · rw [path_leave, path_revise, path_setStop, hend.path, ← h.path]
    rfl
  · simp [hend.next]
  · rw [nodes_leave, nodes_revise, if_neg (Ne.symm hne), nodes_setStop, if_neg (by lia),
      hkept l (by lia), h.kept l hl hne]
  · rw [nodes_leave, nodes_revise, if_pos rfl, nodes_setStop, if_neg (by lia), hkept _ (by lia),
      h.node, hspans]
    rfl
  -- The nodes of the expression are new, and those of the literal so far are below `d.next`.
  · rcases Literal.mem_nodes_embed.1 ht with ht | ht
    · have hitems : T.items ⟨pos, stop⟩ inner = (d.embedded spot.loc pos).bracket.tree
          (d.embedded spot.loc pos).loc ⟨pos, stop⟩ inner := by
        rw [Literal.items, ← hnext]
        rfl
      rw [hitems] at ht
      refine (hend.drawn_setStop stop ht).congr ?_
      have hge : d.next ≤ t.loc := by
        rw [Tree.nodes_eq, List.cons_append] at ht
        rcases List.mem_cons.1 ht with rfl | ht
        · exact Nat.le_refl _
        · have := (hinner.mem_iff.1 (List.mem_map_of_mem ht)).1
          lia
      rw [nodes_leave, nodes_revise, if_neg (by lia)]
      rfl
    · have := (h.numbered.mem_iff.1 (List.mem_map_of_mem ht)).2
      refine (h.drawn t ht).congr ?_
      rw [nodes_leave, nodes_revise, if_neg (h.ne_loc ht).symm, nodes_setStop, if_neg (by lia),
        hkept _ (by lia)]
  -- Places go on from those of the literal: first that of the list, then those in it.
  · have hle' := hinner.le
    refine h.numbered.grow (by rw [Literal.next_embed]; lia) fun l => ?_
    have hcount := hinner.count l
    rw [Literal.count_locs_embed, Literal.nodes_items, List.cons_append, List.map_cons,
      List.count_cons, Nat.add_comm _ (List.count l (T.nodes.map Tree.loc))]
    have hloc : (T.items ⟨pos, stop⟩ inner).loc = d.next := hnext.symm
    rw [hloc, Literal.next_embed, hcount]
    grind

theorem closeEmbed_one {text items only : Loc} (h : Slots.filled (e.slots items) = [only])
    (pos : Nat) : e.closeEmbed text items pos = .ok ((e.setStop items (pos + 1)).revise text fun
      | .text spans => .text (.embed only :: spans)
      | sketch => sketch).leave := by
  unfold Draft.closeEmbed
  split
  · next heq => cases h.symm.trans heq
  · next heq =>
    cases h.symm.trans heq
    rfl
  · next hne => exact absurd h (hne only)

theorem closeEmbed_many {text items first second : Loc} {more : List Loc}
    (h : Slots.filled (e.slots items) = first :: second :: more) (pos : Nat) :
    e.closeEmbed text items pos = .ok ((e.setStop items (pos + 1)).revise text fun
      | .text spans => .text (.embed items :: spans)
      | sketch => sketch).leave := by
  unfold Draft.closeEmbed
  split
  · next heq => cases h.symm.trans heq
  · next heq => cases h.symm.trans heq
  · rfl

/-- A closing bracket ends an embedded expression, unless that is empty. -/
theorem closeEmbed (h : d.Spells spot T) {inner : Level} {pos : Nat}
    (hinner : e.At (d.embedded spot.loc pos) inner) (stop : Nat) :
    (inner.members = [] ∧ ∃ err, e.close .curly stop = .error err) ∨
      inner.members ≠ [] ∧ ∃ d', e.close .curly stop = .ok d' ∧
        d'.Spells spot (T.embed ⟨pos, stop + 1⟩ inner) := by
  have hend := hinner.complete
  obtain ⟨e', he'⟩ : ∃ e', e' = e.endWord.closeWrappers true := ⟨_, rfl⟩
  rw [← he'] at hend
  have hpath : e'.path = .embed spot.loc d.next :: d.path := hend.path
  have hword : e'.word = none := he' ▸ word_closeWrappers e.endWord true
  have hfilled : Slots.filled (e'.slots d.next) = inner.members.map Tree.loc :=
    hend.filled_slots rfl
  have hclose : e.close .curly stop = e'.closeEmbed spot.loc d.next stop := by
    simp only [close, ← he', hpath, if_true]
  rw [hclose]
  -- No item is an error, a single item stands for the expression, and several stay in their list.
  rcases hmembers : inner.members with _ | ⟨only, _ | ⟨second, more⟩⟩
  · refine .inl ⟨rfl, .emptyEmbed (e'.startOf d.next), ?_⟩
    simp only [Draft.closeEmbed, hfilled, hmembers, List.map_nil]
  · have hspans : (T.embed ⟨pos, stop + 1⟩ inner).spans = .embed only :: T.spans := by
      simp only [Literal.embed, hmembers]
    have hone : Slots.filled (e'.slots d.next) = [only.loc] := by simp only [hfilled, hmembers, List.map]
    exact .inr ⟨by simp, _, closeEmbed_one hone stop, h.embed hend hword hspans⟩
  · have hspans : (T.embed ⟨pos, stop + 1⟩ inner).spans =
        .embed (T.items ⟨pos, stop + 1⟩ inner) :: T.spans := by
      simp only [Literal.embed, hmembers]
    have hloc : (T.items ⟨pos, stop + 1⟩ inner).loc = d.next := h.next.symm
    have htwo : Slots.filled (e'.slots d.next) = only.loc :: second.loc :: more.map Tree.loc := by
      simp only [hfilled, hmembers, List.map]
    have hspells := h.embed hend hword hspans
    rw [hloc] at hspells
    exact .inr ⟨by simp, _, closeEmbed_many htwo stop, hspells⟩

/-- The closing quote ends a string literal. -/
theorem close {M : Level} {x : Tree} {xs : List Tree} (hinner : d.Spells (e.inside x (.text x.loc)) T)
    (h : e.At site M) (hM : M.atoms = x :: xs) (hrun : M.run = none) (hx : x.children = [])
    (pos : Nat) :
    (d.setStop x.loc (pos + 1)).leave.At site
      (M.fill (.text x.loc ⟨x.span.start, pos + 1⟩ T.spans.reverse) T.next T.spares) := by
  have hnodes : (Tree.text x.loc ⟨x.span.start, pos + 1⟩ T.spans.reverse).children =
      (T.spans.filterMap TextSpan.item?).reverse := by
    simp [Tree.children]
  have hnode : d.nodes[x.loc]? = some (.text (T.spans.map (TextSpan.map Tree.loc)), x.span) :=
    hinner.node
  refine (h.toLays.fill hM hx ?_ ?_ ?_ ?_ ?_ ?_).toAt ?_ hrun
  · rfl
  · simp [hinner.path, inside]
  · simp [hinner.next]
  · intro l hl hne
    rw [nodes_leave, nodes_setStop, if_neg (Ne.symm hne)]
    exact hinner.kept l (Nat.lt_of_lt_of_eq hl h.next.symm) hne
  · intro t ht
    rw [Tree.nodes_eq, List.cons_append] at ht
    rcases List.mem_cons.1 ht with rfl | ht
    · refine ⟨.text (T.spans.map (TextSpan.map Tree.loc)), ?_, (List.map_reverse ..).symm⟩
      change (d.setStop x.loc (pos + 1)).nodes[x.loc]? = _
      rw [nodes_setStop, if_pos rfl, hnode]
      rfl
    · have ht : t ∈ T.nodes := by simpa [hnodes, Literal.nodes] using ht
      have hne : t.loc ≠ x.loc := hinner.ne_loc ht
      refine (hinner.drawn t ht).congr ?_
      rw [nodes_leave, nodes_setStop, if_neg hne.symm]
  · rw [← h.next, hnodes]
    refine hinner.numbered.grow (Nat.le_refl _) fun l => ?_
    rw [Literal.nodes, List.map_append, List.map_append, List.count_append, List.count_append,
      Tree.count_locs_reverse]
    grind
  · exact hinner.word

end Spells

/-! ## Runs -/

theorem readPlain_eq (a : Alphabet) (d : Draft) (pos : Nat) (c : Char) (next : Option Char) :
    d.readPlain a pos c next = match a.role (inTable d.path) c with
      | .opens kind =>
        if kind = .curly ∧ (next.map a.tableNew.contains).getD false then
          .ok (d.openNode (.table [] []) ⟨pos, pos + 2⟩ .table, true)
        else .ok (d.openNode (.list kind []) ⟨pos, pos + 1⟩ (.list kind), false)
      | .closes kind => (d.close kind pos).map (·, false)
      | .quotes => .ok (d.openNode (.text []) ⟨pos, pos + 1⟩ .text, false)
      | .endsRow => .ok (d.endRow, false)
      | .separates => .ok (d.separate, false)
      | .blank => .ok (d.space pos, false)
      | .word cls => .ok (d.glyph pos c cls, false) := by
  rcases hopen : ListKind.ofOpener? c with _ | kind
  · rcases hclose : ListKind.ofCloser? c with _ | kind
    · simp only [readPlain, Alphabet.role, Alphabet.kindOf, hopen, hclose]
      split_ifs <;> simp_all
    · simp only [readPlain, Alphabet.role, hopen, hclose]
  · simp only [readPlain, Alphabet.role, hopen]

/-- Reading on leads to the given tree. -/
def LeadsTo (a : Alphabet) (src : List Char) (cst : Cst) (d : Draft) (pos : Nat) (cs : List Char) :
    Prop :=
  (d.readAll a pos cs).bind (·.finish src) = .ok cst

namespace LeadsTo

variable {src cs : List Char} {cst : Cst} {d' : Draft} {pos : Nat} {c c' : Char}

theorem finish (h : LeadsTo a src cst d pos []) : d.finish src = .ok cst := h

theorem step (h : LeadsTo a src cst d pos (c :: cs))
    (hread : d.read a pos c cs.head? = .ok (d', false)) :
    LeadsTo a src cst d' (pos + c.utf8Size) cs := by
  rw [LeadsTo, readAll, hread] at h
  exact h

theorem skip (h : LeadsTo a src cst d pos (c :: c' :: cs))
    (hread : d.read a pos c (some c') = .ok (d', true)) :
    LeadsTo a src cst d' (pos + c.utf8Size + c'.utf8Size) cs := by
  rw [LeadsTo, readAll, List.head?_cons, hread] at h
  exact h

theorem ne_error (h : LeadsTo a src cst d pos (c :: cs)) (err : LexError) :
    d.read a pos c cs.head? ≠ .error err := by
  intro hread
  rw [LeadsTo, readAll, hread] at h
  cases h

end LeadsTo

theorem At.read_eq (h : d.At site L) (pos : Nat) (c : Char) (next : Option Char) :
    d.read a pos c next = d.readPlain a pos c next := by
  have hpath (text : Loc) (path : List Frame) : d.path ≠ .text text :: path := by
    rw [h.path, Level.frames]
    rcases L.atoms with _ | ⟨x, _ | ⟨y, zs⟩⟩ <;> rcases L.words with _ | ⟨w, ws⟩ <;>
      cases h.fits <;> simp
  unfold read
  split
  · exact absurd ‹_› (hpath _ _)
  · rfl

theorem At.inTable_eq (h : d.At site L) : inTable d.path = site.bracket.isTable := by
  rw [h.path, Level.frames]
  rcases L.atoms with _ | ⟨x, _ | ⟨y, zs⟩⟩ <;> rcases L.words with _ | ⟨w, ws⟩ <;>
    cases h.fits <;> rfl

/-- A source cannot end inside a bracket. -/
theorem At.finish_ne_ok (h : d.At site L) (hpath : site.path ≠ []) (src : List Char) (cst : Cst) :
    d.finish src ≠ .ok cst := by
  have hend : (d.closeWrappers true).path = site.path := by
    rw [h.toLays.closeWrappers_true.path,
      Level.frames_of_nil L.length_atoms_settle Level.words_settle, List.nil_append]
  unfold finish
  split
  · simp
  · simp
  · simp only [hend]
    split <;> simp_all

/-- Where a source ends, the lists around the last word and item end. -/
theorem At.finish_top (h : d.At site L) (hpath : site.path = []) (src : List Char) :
    d.finish src = .ok ((d.closeWrappers true).toCst src) := by
  have hend : (d.closeWrappers true).path = site.path := by
    rw [h.toLays.closeWrappers_true.path,
      Level.frames_of_nil L.length_atoms_settle Level.words_settle, List.nil_append]
  have hhead : (∀ text path, d.path ≠ .text text :: path) ∧
      ∀ text items path, d.path ≠ .embed text items :: path := by
    rw [h.path, hpath, Level.frames]
    rcases L.atoms with _ | ⟨x, _ | ⟨y, zs⟩⟩ <;> rcases L.words with _ | ⟨w, ws⟩ <;> simp
  unfold finish
  split
  · exact absurd ‹_› (hhead.1 _ _)
  · exact absurd ‹_› (hhead.2 _ _ _)
  · simp only [hend, hpath]

/-- A source cannot end inside a string literal. -/
theorem Spells.finish_ne_ok (h : d.Spells spot T) (src : List Char) (cst : Cst) :
    d.finish src ≠ .ok cst := by
  obtain ⟨path, hpath⟩ := h.head
  simp [finish, h.path, hpath]

section Follow

variable (a : Alphabet) (src : List Char) (cst : Cst)

/-- The contents of a bracket are read along `Reads` up to the closing bracket, in texts of length
`n` at most. -/
def FollowsContents (n : Nat) : Prop :=
  ∀ ⦃d : Draft⦄ ⦃site : Site⦄ ⦃L : Level⦄ ⦃pos : Nat⦄ ⦃cs : List Char⦄, cs.length ≤ n →
    d.At site L → LeadsTo a src cst d pos cs →
    ∃ d' L' pos' rest,
      Reads a (.contents site.bracket.isTable L) pos cs (.contents site.bracket.isTable L') pos' rest ∧
      d'.At site L' ∧ LeadsTo a src cst d' pos' rest ∧ rest.length ≤ cs.length ∧
      ∀ c ∈ rest.head?, (ListKind.ofCloser? c).isSome

/-- A string literal is read along `Reads` up to its closing quote, in texts of length `n` at
most. -/
def FollowsLiteral (n : Nat) : Prop :=
  ∀ ⦃d : Draft⦄ ⦃spot : Spot⦄ ⦃T : Literal⦄ ⦃pos : Nat⦄ ⦃cs : List Char⦄, cs.length ≤ n →
    d.Spells spot T → LeadsTo a src cst d pos cs →
    ∃ d' T' pos' rest, Reads a (.literal T) pos cs (.literal T') pos' ('"' :: rest) ∧
      d'.Spells spot T' ∧ LeadsTo a src cst d' pos' ('"' :: rest) ∧ rest.length < cs.length

variable {a src cst} {n pos : Nat} {c : Char} {cs : List Char}

/-- Characters that are neither brackets nor quotes. -/
theorem At.read_plain (h : d.At site L) {L' : Level} (next : Option Char)
    (hread : L.read? pos c (a.role site.bracket.isTable c) = some L') :
    ∃ d', d.read a pos c next = .ok (d', false) ∧ d'.At site L' := by
  rw [h.read_eq, readPlain_eq, h.inTable_eq]
  rcases hrole : a.role site.bracket.isTable c with kind | kind | _ | _ | _ | _ | cls
  · simp [hrole, Level.read?] at hread
  · simp [hrole, Level.read?] at hread
  · simp [hrole, Level.read?] at hread
  · obtain rfl : L.endRow = L' := by simpa [hrole, Level.read?] using hread
    have htable : site.bracket = .table := by
      rcases hb : site.bracket with kind | _
      · rw [hb] at hrole
        exact absurd hrole (a.role_false_ne_endsRow c)
      · rfl
    exact ⟨_, rfl, h.endRow htable⟩
  · obtain rfl : L.separate = L' := by simpa [hrole, Level.read?] using hread
    exact ⟨_, rfl, h.separate⟩
  · obtain rfl : L.space = L' := by simpa [hrole, Level.read?] using hread
    exact ⟨_, rfl, h.space pos⟩
  · obtain rfl : L.glyph pos c cls = L' := by simpa [hrole, Level.read?] using hread
    exact ⟨_, rfl, h.glyph pos c cls⟩

theorem At.read_close (h : d.At site L) {kind : ListKind} (hclose : ListKind.ofCloser? c = some kind)
    (next : Option Char) : d.read a pos c next = (d.close kind pos).map (·, false) := by
  rw [h.read_eq, readPlain_eq]
  simp only [Alphabet.role, (ListKind.closer_cases hclose).1, hclose]

/-- The inside of a new bracket is read next. -/
theorem At.openBracket (h : d.At site L) (b : Bracket) (pos : Nat) {x : Tree}
    (hx : x = b.stub L.next pos) :
    ∃ e : Draft, d.openNode (b.sketch [] []) x.span (b.frame ·) = e.enter (b.frame x.loc) ∧
      e.At site (L.place x) ∧
      (e.enter (b.frame x.loc)).At ⟨e.inside x (b.frame x.loc), b⟩ { next := (L.place x).next } := by
  have hdraws : (b.sketch [] []).Draws x := by
    rw [hx]
    cases b <;> simp [Bracket.sketch, Bracket.stub, Sketch.Draws, Slots.filled]
  obtain ⟨e, hopen, he, hnode⟩ := h.openNode (by simp [hx]) hdraws (by simp [hx]) (b.frame ·)
  refine ⟨e, hopen, he, ?_⟩
  have hfits : Site.Fits ⟨e.inside x (b.frame x.loc), b⟩ := by
    cases b with
    | list kind => exact .list
    | table => exact .table
  have hword : e.word = none := by
    simpa only [Level.current, Level.run_place] using he.word
  have hlt : x.loc < e.next := by
    rw [he.next, hx, Bracket.loc_stub]
    exact L.next_lt_next_place _
  exact he.next ▸ at_nothing hfits hlt rfl hword rfl rfl hnode

theorem At.read_open (h : d.At site L) {b : Bracket} {opening text : List Char} {x : Tree}
    (hx : x = b.stub L.next pos) (hopen : b.Opens a opening text)
    (hlead : LeadsTo a src cst d pos (opening ++ text)) :
    ∃ e d' : Draft, e.At site (L.place x) ∧
      d'.At ⟨e.inside x (b.frame x.loc), b⟩ { next := (L.place x).next } ∧
      LeadsTo a src cst d' (pos + Text.byteLength opening) text := by
  obtain ⟨e, hd, he, hinside⟩ := h.openBracket b pos hx
  refine ⟨e, _, he, hinside, ?_⟩
  rw [← hd, hx]
  cases hopen with
  | @list c kind _ hopen hmark =>
    refine hlead.step ?_
    rw [h.read_eq, readPlain_eq]
    simp only [Alphabet.role, hopen]
    rw [if_neg]
    · rfl
    · rintro ⟨rfl, htable⟩
      rcases htext : text.head? with _ | mark
      · simp [htext] at htable
      · simp_all
  | @table c mark _ hopen hmark =>
    have hread : d.read a pos c (some mark) = .ok (d.openNode (Bracket.table.sketch [] [])
        (Bracket.table.stub L.next pos).span (Bracket.table.frame ·), true) := by
      rw [h.read_eq, readPlain_eq]
      simp only [Alphabet.role, hopen]
      rw [if_pos (by simpa using hmark)]
      rfl
    simpa [Text.byteLength, Nat.add_assoc] using hlead.skip hread

/-- A closing bracket of another kind is an error. -/
theorem At.close_ne_ok {b : Bracket} {x : Tree} {inner : Level}
    (h : d.At ⟨e.inside x (b.frame x.loc), b⟩ inner) {kind : ListKind} (hkind : kind ≠ b.kind)
    (pos : Nat) : ∃ err, d.close kind pos = .error err := by
  have hpath : (d.endWord.closeWrappers true).path = b.frame x.loc :: e.path := h.complete.path
  cases b <;> simp_all [Draft.close, Bracket.frame, Bracket.kind]

/-- A bracket is read as a whole. -/
theorem FollowsContents.bracket (hn : FollowsContents a src cst n) {b : Bracket}
    {opening text : List Char} (hopen : b.Opens a opening text) (hlen : text.length ≤ n)
    (h : d.At site L) (hlead : LeadsTo a src cst d pos (opening ++ text)) :
    ∃ d' L' pos' rest, Reads a (.contents site.bracket.isTable L) pos (opening ++ text)
        (.contents site.bracket.isTable L') pos' rest ∧
      d'.At site L' ∧ LeadsTo a src cst d' pos' rest ∧ rest.length ≤ text.length ∧
      ∀ c ∈ rest.head?, (ListKind.ofCloser? c).isSome := by
  obtain ⟨x, hx⟩ : ∃ x, x = b.stub L.next pos := ⟨_, rfl⟩
  obtain ⟨e, d₁, he, hinside, hlead₁⟩ := h.read_open hx hopen hlead
  obtain ⟨d₂, inner, stop, rest, hreads, hinner, hlead₂, hrest, hcloser⟩ := hn hlen hinside hlead₁
  -- A syntax tree is reached, so the text does not end here, and the bracket is closed by its own
  -- kind.
  rcases rest with _ | ⟨c, rest⟩
  · exact absurd hlead₂.finish (hinner.finish_ne_ok (by simp [inside]) src cst)
  · obtain ⟨kind, hclose⟩ := Option.isSome_iff_exists.1 (hcloser c rfl)
    have hread : d₂.read a stop c rest.head? = (d₂.close kind stop).map (·, false) :=
      hinner.read_close hclose rest.head?
    by_cases hkind : kind = b.kind
    · subst hkind
      obtain ⟨d₃, hd₃, hfilled⟩ := he.close Level.atoms_place Level.run_place (by simp [hx]) hinner stop
      rw [hd₃] at hread
      have hlead₃ := hlead₂.step hread
      rw [(ListKind.closer_cases hclose).2] at hlead₃
      obtain ⟨d', L', pos', rest', hmore, h', hlead', hrest', hcloser'⟩ :=
        hn (by simp at hrest; omega) hfilled hlead₃
      simp only [hx, Bracket.loc_stub, Bracket.start_stub] at hmore
      exact ⟨d', L', pos', rest', .bracket hopen (hx ▸ hreads) hclose hmore, h', hlead',
        by simp at hrest; omega, hcloser'⟩
    · obtain ⟨err, herr⟩ := hinner.close_ne_ok hkind stop
      exact absurd (hread.trans (by rw [herr]; rfl)) (hlead₂.ne_error err)

/-- The inside of a new string literal is read next. -/
theorem At.openQuote (h : d.At site L) (pos : Nat) {x : Tree}
    (hx : x = .text L.next ⟨pos, pos + 1⟩ []) :
    ∃ e : Draft, d.openNode (.text []) x.span .text = e.enter (.text x.loc) ∧
      e.At site (L.place x) ∧
      (e.enter (.text x.loc)).Spells (e.inside x (.text x.loc)) { next := (L.place x).next } := by
  obtain ⟨e, hopen, he, hnode⟩ := h.openNode (by rw [hx]; rfl)
    (show (Sketch.text []).Draws x by rw [hx]; rfl) (by rw [hx]; rfl) .text
  have hword : e.word = none := by
    simpa only [Level.current, Level.run_place] using he.word
  have hlt : x.loc < e.next := by
    rw [he.next, hx]
    exact L.next_lt_next_place _
  refine ⟨e, hopen, he, rfl, ⟨_, rfl⟩, hword, hlt, he.next, fun _ _ _ => rfl, hnode, ?_, ?_⟩
  · intro t ht
    simp [Literal.nodes] at ht
  · exact ⟨Nat.le_of_eq he.next, fun l => by simp [Literal.nodes, inside, he.next]⟩

theorem At.read_quote (h : d.At site L) (next : Option Char) :
    d.read a pos '"' next = .ok (d.openNode (.text []) ⟨pos, pos + 1⟩ .text, false) := by
  rw [h.read_eq, readPlain_eq]
  simp [Alphabet.role, ListKind.ofOpener?, ListKind.ofCloser?]

/-- A string literal is read as a whole. -/
theorem FollowsContents.quoted (hn : FollowsContents a src cst n) (hn' : FollowsLiteral a src cst n)
    {text : List Char} (hlen : text.length ≤ n) (h : d.At site L)
    (hlead : LeadsTo a src cst d pos ('"' :: text)) :
    ∃ d' L' pos' rest, Reads a (.contents site.bracket.isTable L) pos ('"' :: text)
        (.contents site.bracket.isTable L') pos' rest ∧
      d'.At site L' ∧ LeadsTo a src cst d' pos' rest ∧ rest.length ≤ text.length ∧
      ∀ c ∈ rest.head?, (ListKind.ofCloser? c).isSome := by
  obtain ⟨x, hx⟩ : ∃ x, x = Tree.text L.next ⟨pos, pos + 1⟩ [] := ⟨_, rfl⟩
  obtain ⟨e, hopen, he, hinside⟩ := h.openQuote pos hx
  have hlead₁ := hlead.step (h.read_quote text.head?)
  rw [show (⟨pos, pos + 1⟩ : Span) = x.span by rw [hx]; rfl, hopen] at hlead₁
  obtain ⟨d₂, T, stop, rest, hreads, hinner, hlead₂, hrest⟩ := hn' hlen hinside hlead₁
  have hfilled := hinner.close he Level.atoms_place Level.run_place (by rw [hx]; rfl) stop
  have hread : d₂.read a stop '"' rest.head? = .ok ((d₂.setStop x.loc (stop + 1)).leave, false) := by
    simp [read, hinner.path, inside, readText]
  obtain ⟨d', L', pos', rest', hmore, h', hlead', hrest', hcloser⟩ :=
    hn (by omega) hfilled (hlead₂.step hread)
  subst hx
  exact ⟨d', L', pos', rest', .quoted hreads hmore, h', hlead', by omega, hcloser⟩

theorem Spells.read_eq (h : d.Spells spot T) (next : Option Char) :
    d.read a pos c next = d.readText spot.loc pos c next := by
  obtain ⟨path, hpath⟩ := h.head
  rw [read, h.path, hpath]

/-- An embedded expression is read as a whole. -/
theorem FollowsLiteral.embed (hn : FollowsContents a src cst n) (hn' : FollowsLiteral a src cst n)
    {text : List Char} (hlen : text.length ≤ n) (h : d.Spells spot T)
    (hlead : LeadsTo a src cst d pos ('$' :: '\x7b' :: text)) :
    ∃ d' T' pos' rest, Reads a (.literal T) pos ('$' :: '\x7b' :: text) (.literal T') pos' ('"' :: rest) ∧
      d'.Spells spot T' ∧ LeadsTo a src cst d' pos' ('"' :: rest) ∧ rest.length < text.length := by
  have hread : d.read a pos '$' (some '\x7b') = .ok (d.openEmbed spot.loc pos, true) := by
    rw [h.read_eq]
    simp [readText]
  have hlead₁ := hlead.skip hread
  have hinside := at_openEmbed h.word spot.loc pos
  obtain ⟨d₂, inner, stop, rest, hreads, hinner, hlead₂, hrest, hcloser⟩ := hn hlen hinside hlead₁
  -- As for brackets: the expression is closed, by a curly bracket, and is not empty.
  rcases rest with _ | ⟨c, rest⟩
  · exact absurd hlead₂.finish (hinner.finish_ne_ok (by simp [embedded, inside]) src cst)
  · obtain ⟨kind, hclose⟩ := Option.isSome_iff_exists.1 (hcloser c rfl)
    have hread : d₂.read a stop c rest.head? = (d₂.close kind stop).map (·, false) :=
      hinner.read_close hclose rest.head?
    by_cases hkind : kind = .curly
    · subst hkind
      obtain rfl : c = '\x7d' := ListKind.eq_of_ofCloser?_curly hclose
      rcases h.closeEmbed hinner stop with ⟨-, err, herr⟩ | ⟨hmembers, d₃, hd₃, hspells⟩
      · exact absurd (hread.trans (by rw [herr]; rfl)) (hlead₂.ne_error err)
      · rw [hd₃] at hread
        obtain ⟨d', T', pos', rest', hmore, h', hlead', hrest'⟩ :=
          hn' (by simp at hrest; omega) hspells (hlead₂.step hread)
        rw [h.next] at hreads
        exact ⟨d', T', pos', rest', .embed hreads hmembers hmore, h', hlead',
          by simp at hrest; omega⟩
    · have hpath : (d₂.endWord.closeWrappers true).path = .embed spot.loc d.next :: d.path :=
        hinner.complete.path
      have herr : d₂.close kind stop = .error (.unexpectedClose (some .curly) kind stop) := by
        simp only [close, hpath, hkind, if_false]
      exact absurd (hread.trans (by rw [herr]; rfl)) (hlead₂.ne_error _)

/-- What one more character of a string literal does. -/
theorem FollowsLiteral.succ (hn : FollowsContents a src cst n) (hn' : FollowsLiteral a src cst n) :
    FollowsLiteral a src cst (n + 1) := by
  intro d spot T pos cs hlen h hlead
  rcases cs with _ | ⟨c, cs⟩
  · exact absurd hlead.finish (h.finish_ne_ok src cst)
  replace hlen : cs.length ≤ n := by simpa using hlen
  -- The cases are those that reading inside a literal tells apart, in the same order.
  by_cases hquote : c = '"'
  · subst hquote
    exact ⟨d, T, pos, cs, .done, h, hlead, by simp⟩
  by_cases hescape : c = '\\'
  · subst hescape
    rcases cs with _ | ⟨escaped, cs⟩
    · refine absurd ?_ (hlead.ne_error (.unterminatedText (d.startOf spot.loc)))
      rw [h.read_eq]
      simp [readText]
    · have hread : d.read a pos '\\' (some escaped) =
          .ok (d.textChar spot.loc (unescape escaped), true) := by
        rw [h.read_eq]
        simp [readText]
      obtain ⟨d', T', pos', rest, hmore, h', hlead', hrest⟩ :=
        hn' (by simp at hlen; omega) (h.char (unescape escaped)) (hlead.skip hread)
      exact ⟨d', T', pos', rest, .escape hmore, h', hlead', by simp; omega⟩
  by_cases hembed : c = '$' ∧ cs.head? = some '\x7b'
  · obtain ⟨rfl, hhead⟩ := hembed
    obtain ⟨text, rfl⟩ := List.head?_eq_some_iff.1 hhead
    obtain ⟨d', T', pos', rest, hreads, h', hlead', hrest⟩ :=
      FollowsLiteral.embed hn hn' (by simp at hlen; omega) h hlead
    exact ⟨d', T', pos', rest, hreads, h', hlead', by simp; omega⟩
  · have hread : d.read a pos c cs.head? = .ok (d.textChar spot.loc c, false) := by
      rw [h.read_eq]
      simp only [readText, hquote, hescape, hembed, if_false]
    obtain ⟨d', T', pos', rest, hmore, h', hlead', hrest⟩ := hn' hlen (h.char c) (hlead.step hread)
    exact ⟨d', T', pos', rest, .char hquote hescape (fun hc hhead => hembed ⟨hc, hhead⟩) hmore, h',
      hlead', by simp; omega⟩

/-- What one more character inside a bracket does. -/
theorem FollowsContents.succ (hn : FollowsContents a src cst n) (hn' : FollowsLiteral a src cst n) :
    FollowsContents a src cst (n + 1) := by
  intro d site L pos cs hlen h hlead
  rcases cs with _ | ⟨c, cs⟩
  · exact ⟨d, L, pos, [], .done, h, hlead, by simp, by simp⟩
  replace hlen : cs.length ≤ n := by simpa using hlen
  -- Characters that open and close nothing change the level only; all others are known by their
  -- role.
  rcases hplain : L.read? pos c (a.role site.bracket.isTable c) with _ | L'
  · rcases hrole : a.role site.bracket.isTable c with kind | kind | _ | _ | _ | _ | cls
    · have hopen := Alphabet.ofOpener?_of_role hrole
      obtain ⟨b, opening, text, hcs, hopens⟩ := Bracket.exists_opens a hopen cs
      rw [hcs] at hlead ⊢
      have hlen' := congrArg List.length hcs
      have hpos := hopens.length_pos
      simp only [List.length_cons, List.length_append] at hlen' ⊢
      obtain ⟨d', L', pos', rest, hreads, h', hlead', hrest, hcloser⟩ :=
        hn.bracket hopens (by omega) h hlead
      exact ⟨d', L', pos', rest, hreads, h', hlead', by omega, hcloser⟩
    · have hclose := Alphabet.ofCloser?_of_role hrole
      exact ⟨d, L, pos, c :: cs, .done, h, hlead, Nat.le_refl _, by simp [hclose]⟩
    · obtain rfl := Alphabet.eq_of_role_quotes hrole
      obtain ⟨d', L', pos', rest, hreads, h', hlead', hrest, hcloser⟩ := hn.quoted hn' hlen h hlead
      exact ⟨d', L', pos', rest, hreads, h', hlead', by simp; omega, hcloser⟩
    all_goals simp [hrole, Level.read?] at hplain
  · obtain ⟨d₁, hread, h₁⟩ := h.read_plain cs.head? hplain
    obtain ⟨d', L', pos', rest, hmore, h', hlead', hrest, hcloser⟩ := hn hlen h₁ (hlead.step hread)
    exact ⟨d', L', pos', rest, .plain hplain hmore, h', hlead', by simp; omega, hcloser⟩

theorem follows (n : Nat) : FollowsContents a src cst n ∧ FollowsLiteral a src cst n := by
  induction n with
  | zero =>
    refine ⟨fun d site L pos cs hlen h hlead => ?_, fun d spot T pos cs hlen h hlead => ?_⟩
    · obtain rfl := List.eq_nil_of_length_eq_zero (Nat.le_zero.1 hlen)
      exact ⟨d, L, pos, [], .done, h, hlead, Nat.le_refl _, by simp⟩
    · obtain rfl := List.eq_nil_of_length_eq_zero (Nat.le_zero.1 hlen)
      exact absurd hlead.finish (h.finish_ne_ok src cst)
  | succ n ih => exact ⟨.succ ih.1 ih.2, .succ ih.1 ih.2⟩

end Follow

end Draft

/-! ## Finished trees -/

/-- The topmost node of a tree, for a source that has it on several lines or not. -/
def Tree.node (multiline : Bool) : Tree → Node
  | id _ _ s => .id s
  | text _ _ spans => .text (spans.map (TextSpan.map loc))
  | list _ _ kind children => .list kind (children.map loc) multiline
  | table _ _ rows => .table .curly (rows.map (·.map loc)) multiline

@[simp] theorem Tree.children_node (multiline : Bool) (t : Tree) :
    (t.node multiline).children = t.children.map loc := by
  cases t with
  | id => rfl
  | text _ _ spans =>
    simp only [node, Node.children, children, List.filterMap_map, List.map_filterMap]
    congr 1
    funext span
    cases span <;> rfl
  | list => rfl
  | table => simp [node, Node.children, children, List.map_flatten]

/-- A syntax tree has the topmost node of a tree. -/
def Cst.Holds (cst : Cst) (t : Tree) : Prop :=
  ∃ multiline, cst.nodes[t.loc]? = some (t.node multiline, t.span)

/-- A syntax tree is made of the given trees, and nodes that gave way to the only tree below
them. -/
structure Cst.MadeOf (cst : Cst) (src : List Char) (forest spares : List Tree) : Prop where
  roots : cst.roots = forest.map Tree.loc
  top : cst.Holds (.list Draft.top ⟨0, Text.byteLength src⟩ .curly forest)
  holds (t : Tree) (ht : t ∈ forest.flatMap Tree.nodes ++ spares) : cst.Holds t
  numbered : Numbered 1 cst.nodes.size ((forest.flatMap Tree.nodes ++ spares).map Tree.loc)

theorem Sketch.Draws.finishNode {sketch : Sketch} {t : Tree} (h : sketch.Draws t) (src : List Char)
    (span : Span) : ∃ multiline, Draft.finishNode src sketch span = t.node multiline := by
  refine ⟨((Text.slice? src span.start span.stop).map (·.contains '\n')).getD false, ?_⟩
  cases sketch <;> cases t <;> simp_all [Sketch.Draws, Draft.finishNode, Tree.node]

namespace Draft

variable {d : Draft} {src : List Char} {t : Tree}

theorem Drawn.holds (h : d.Drawn t) (src : List Char) : (d.toCst src).Holds t := by
  obtain ⟨sketch, hnode, hdraws⟩ := h
  obtain ⟨multiline, hfinish⟩ := hdraws.finishNode src t.span
  exact ⟨multiline, by simp [toCst, hnode, hfinish]⟩

/-- The source has been read to its end. -/
theorem Complete.madeOf {store : Array (Sketch × Span)} {L : Level}
    (h : d.Complete ⟨⟨[], top, ⟨0, Text.byteLength src⟩, store, 1⟩, .list .curly⟩ L) :
    (d.toCst src).MadeOf src L.members L.separate.spares where
  roots := h.filled_slots rfl
  top := by
    obtain ⟨sketch, hnode, hdraws⟩ := h.node
    exact Drawn.holds ⟨sketch, hnode, hdraws _⟩ src
  holds t ht := (h.drawn t (h.mem_nodes_settle (r := ⟨0, 0⟩) ht)).holds src
  numbered := by
    have hsize : (d.toCst src).nodes.size = L.next := (Array.size_map ..).trans h.next
    rw [hsize]
    exact h.numbered_children ⟨0, 0⟩

end Draft

/-- A source that has a syntax tree is read to its end, and the syntax tree is made of the trees read
from it. -/
theorem Cst.exists_reads {a : Alphabet} {src : List Char} {cst : Cst} (h : Cst.lex a src = .ok cst) :
    ∃ L stop, Reads a (.contents false { next := 1 }) 0 src (.contents false L) stop [] ∧
      cst.MadeOf src L.members L.separate.spares := by
  have hstart : (Draft.start (Text.byteLength src)).At
      ⟨⟨[], Draft.top, ⟨0, Text.byteLength src⟩, (Draft.start (Text.byteLength src)).nodes, 1⟩,
        .list .curly⟩ { next := 1 } :=
    Draft.at_nothing .top Nat.zero_lt_one rfl rfl rfl rfl rfl
  obtain ⟨d, L, stop, rest, hreads, hd, hlead, -, hcloser⟩ :=
    (Draft.follows src.length).1 (Nat.le_refl _) hstart h
  rcases rest with _ | ⟨c, rest⟩
  · refine ⟨L, stop, hreads, ?_⟩
    obtain rfl : (d.closeWrappers true).toCst src = cst := by
      simpa using (hd.finish_top rfl src).symm.trans hlead.finish
    exact hd.toLays.complete.madeOf
  · obtain ⟨kind, hclose⟩ := Option.isSome_iff_exists.1 (hcloser c rfl)
    have hpath : (d.endWord.closeWrappers true).path = [] := hd.complete.path
    have herr : d.close kind stop = .error (.unexpectedClose none kind stop) := by
      simp only [Draft.close, hpath]
    exact absurd ((hd.read_close hclose rest.head?).trans (by rw [herr]; rfl)) (hlead.ne_error _)

end TypeTrace
