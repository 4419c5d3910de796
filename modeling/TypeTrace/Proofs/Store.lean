import TypeTrace.Proofs.Places

/-!
# The store of a draft

While the contents of a bracket are read, the store of the draft holds the finished nodes and the
open lists around the current word and item, each of which refers to what is finished of it.
Placing a tree, ending words and items, and leaving blanks keep the store in step with the contents.

## Main definitions

* `Draft.Drawn`: the store has the topmost node of a tree
* `Site`: the bracket whose contents are read, and what is around it
* `Draft.Lays`: the store of a draft holds the given contents of a bracket

## Main results

* `Draft.Lays.add`, `Draft.Lays.fill`: a new tree is placed, and its inside filled in
* `Draft.Lays.closeWrappers_true`, `Draft.Lays.separate`, `Draft.Lays.endRow`, `Draft.Lays.space`: what
  separators and blanks do
-/

namespace TypeTrace

/-! ## Open nodes -/

/-- The slots of an open list: finished trees, the latest first, and after them a tree that may still
change, or a blank. -/
def Slots.ending (latest : Option Loc) (before : List Tree) : Slots :=
  match latest with
  | none => Slots.blank (before.map (some ·.loc))
  | some loc => some loc :: before.map (some ·.loc)

namespace Slots

@[simp] theorem replace_ending (l l' : Loc) (before : List Tree) :
    replace l (ending (some l') before) = ending (some l) before := rfl

theorem blank_ending_some (t : Tree) (before : List Tree) :
    blank (ending (some t.loc) before) = ending none (t :: before) := rfl

theorem blank_ending_none (before : List Tree) :
    blank (ending none before) = ending none before := by
  cases before <;> rfl

@[simp] theorem ending_none_ne (l : Loc) (before : List Tree) (slots : Slots) :
    ending none before ≠ some l :: slots := by
  cases before <;> simp [ending, blank]

@[simp] theorem filled_ending (latest : Option Loc) (before : List Tree) :
    filled (ending latest before) = (before.map Tree.loc).reverse ++ latest.toList := by
  cases latest <;> cases before <;> simp [ending, filled, blank, List.filterMap_map]

end Slots

namespace Level

variable (L : Level)

/-- The node of the current word. -/
def wordLoc? : Option Loc :=
  match L.atoms with
  | [] => none
  | [t] => some t.loc
  | _ => some L.smooshed

/-- The node of the current item. -/
def itemLoc? : Option Loc :=
  match L.words with
  | [] => L.wordLoc?
  | _ => some L.spaced

/-- The list that the current word is part of. -/
def parent (base : Loc) : Loc :=
  match L.words with
  | [] => base
  | _ => L.spaced

/-- What stands before the current word in the list that it is part of. -/
def siblings : List Tree :=
  match L.words with
  | [] => L.items
  | words => words

/-- Ending the current word leaves a blank slot after it. -/
theorem blank_ending_wordLoc? {L : Level} (hatoms : L.atoms.length ≤ 1) (before : List Tree) :
    Slots.blank (.ending L.wordLoc? before) = .ending none (L.atoms ++ before) := by
  rcases hL : L.atoms with _ | ⟨x, _ | ⟨y, zs⟩⟩
  · simp only [wordLoc?, hL, List.nil_append, Slots.blank_ending_none]
  · simp only [wordLoc?, hL, List.cons_append, List.nil_append, Slots.blank_ending_some]
  · simp [hL] at hatoms

theorem filled_ending_wordLoc? {L : Level} (hatoms : L.atoms.length ≤ 1) (before : List Tree) :
    Slots.filled (.ending L.wordLoc? before) = ((L.atoms ++ before).map Tree.loc).reverse := by
  rcases hL : L.atoms with _ | ⟨x, _ | ⟨y, zs⟩⟩
  · simp [wordLoc?, hL]
  · simp [wordLoc?, hL]
  · simp [hL] at hatoms

/-- The word that the next character may extend. -/
def current : Option (Loc × Nat) :=
  match L.run, L.atoms with
  | some cls, .id loc _ _ :: _ => some (loc, cls)
  | _, _ => none

end Level

/-- The sketch of an open bracket. -/
def Bracket.sketch (slots : Slots) (above : List Slots) : Bracket → Sketch
  | list kind => .list kind slots
  | table => .table slots above

/-- The frame of an open bracket. -/
def Bracket.frame (loc : Loc) : Bracket → Frame
  | list kind => .list kind loc
  | table => .table loc

/-- A sketch shows the topmost node of a tree. -/
def Sketch.Draws : Sketch → Tree → Prop
  | .id s, .id _ _ s' => s = s'
  | .text spans, .text _ _ spans' => spans.reverse = spans'.map (TextSpan.map Tree.loc)
  | .list kind slots, .list _ _ kind' children => kind = kind' ∧ slots.filled = children.map Tree.loc
  | .table row above, .table _ _ rows =>
    ((row :: above).reverse.map Slots.filled).filter (!·.isEmpty) = rows.map (·.map Tree.loc)
  | _, _ => False

/-- Change the slots of a sketch. -/
def Sketch.onSlots (f : Slots → Slots) : Sketch → Sketch
  | .list kind slots => .list kind (f slots)
  | .table row above => .table (f row) above
  | sketch => sketch

@[simp] theorem Bracket.onSlots_sketch (b : Bracket) (f : Slots → Slots) (slots : Slots)
    (above : List Slots) : (b.sketch slots above).onSlots f = b.sketch (f slots) above := by
  cases b <;> rfl

namespace Draft

variable (d : Draft)

/-- The topmost node of a tree is in the store. -/
def Drawn (t : Tree) : Prop := ∃ sketch, d.nodes[t.loc]? = some (sketch, t.span) ∧ sketch.Draws t

theorem nodes_mint (sketch : Sketch) (span : Span) (l : Loc) :
    (d.mint sketch span).nodes[l]? = if l = d.next then some (sketch, span) else d.nodes[l]? :=
  Array.getElem?_push

theorem nodes_revise (w l : Loc) (f : Sketch → Sketch) :
    (d.revise w f).nodes[l]? =
      if w = l then (d.nodes[l]?).map fun n => (f n.1, n.2) else d.nodes[l]? := by
  simp [revise, Array.getElem?_modify]

theorem nodes_setStop (w l : Loc) (stop : Nat) :
    (d.setStop w stop).nodes[l]? =
      if w = l then (d.nodes[l]?).map fun n => (n.1, ⟨n.2.start, stop⟩) else d.nodes[l]? := by
  simp [setStop, Array.getElem?_modify]

theorem nodes_reviseSlots (w l : Loc) (f : Slots → Slots) :
    (d.reviseSlots w f).nodes[l]? = if w = l then
      (d.nodes[l]?).map fun n => (n.1.onSlots fun _ => f (d.slots w), n.2) else d.nodes[l]? := by
  have hrevise : d.reviseSlots w f = d.revise w (Sketch.onSlots f) := rfl
  rw [hrevise, nodes_revise]
  split
  · next heq =>
    subst heq
    rcases hnode : d.nodes[w]? with _ | ⟨sketch, span⟩
    · rfl
    · cases sketch <;> simp [Sketch.onSlots, slots, hnode]
  · rfl

theorem nodes_onSlots_slots (l : Loc) :
    ((d.nodes[l]?).map fun n => (n.1.onSlots fun _ => d.slots l, n.2)) = d.nodes[l]? := by
  rcases hnode : d.nodes[l]? with _ | ⟨sketch, span⟩
  · rfl
  · cases sketch <;> simp [Sketch.onSlots, slots, hnode]

theorem slots_mint (sketch : Sketch) (span : Span) {l : Loc} (h : l ≠ d.next) :
    (d.mint sketch span).slots l = d.slots l := by
  simp only [slots, nodes_mint, h, if_false]

section
variable (sketch : Sketch) (span : Span) (l : Loc) (n : Nat) (f : Sketch → Sketch) (g : Slots → Slots)
  (frame : Frame)
@[simp] theorem next_mint : (d.mint sketch span).next = d.next + 1 := by simp [next, mint]
@[simp] theorem next_revise : (d.revise l f).next = d.next := by simp [next, revise]
@[simp] theorem next_reviseSlots : (d.reviseSlots l g).next = d.next := by simp [reviseSlots]
@[simp] theorem next_setStop : (d.setStop l n).next = d.next := by simp [next, setStop]
@[simp] theorem next_enter : (d.enter frame).next = d.next := rfl
@[simp] theorem next_leave : d.leave.next = d.next := rfl
@[simp] theorem next_endWord : d.endWord.next = d.next := rfl
@[simp] theorem path_mint : (d.mint sketch span).path = d.path := rfl
@[simp] theorem path_revise : (d.revise l f).path = d.path := rfl
@[simp] theorem path_reviseSlots : (d.reviseSlots l g).path = d.path := rfl
@[simp] theorem path_setStop : (d.setStop l n).path = d.path := rfl
@[simp] theorem path_enter : (d.enter frame).path = frame :: d.path := rfl
@[simp] theorem path_leave : d.leave.path = d.path.tail := rfl
@[simp] theorem path_endWord : d.endWord.path = d.path := rfl
@[simp] theorem nodes_enter : (d.enter frame).nodes = d.nodes := rfl
@[simp] theorem nodes_leave : d.leave.nodes = d.nodes := rfl
@[simp] theorem nodes_endWord : d.endWord.nodes = d.nodes := rfl
end

end Draft

/-- Where a bracket or string literal is read: the constructs open there with its own first, its node
and the bytes it covers so far, the store as it was at its beginning, and the first place given
inside. -/
structure Spot where
  path : List Frame
  loc : Loc
  span : Span
  store : Array (Sketch × Span)
  first : Loc

/-- Where the contents of a bracket are read. -/
structure Site extends Spot where
  bracket : Bracket

/-- The innermost construct is the bracket at the given node. -/
inductive Site.Fits : Site → Prop
  | top {span : Span} {store : Array (Sketch × Span)} {first : Loc} :
    Fits ⟨⟨[], Draft.top, span, store, first⟩, .list .curly⟩
  | list {kind : ListKind} {loc : Loc} {path : List Frame} {span : Span}
    {store : Array (Sketch × Span)} {first : Loc} :
    Fits ⟨⟨.list kind loc :: path, loc, span, store, first⟩, .list kind⟩
  | table {loc : Loc} {path : List Frame} {span : Span}
    {store : Array (Sketch × Span)} {first : Loc} :
    Fits ⟨⟨.table loc :: path, loc, span, store, first⟩, .table⟩
  | embed {text loc : Loc} {path : List Frame} {span : Span}
    {store : Array (Sketch × Span)} {first : Loc} :
    Fits ⟨⟨.embed text loc :: path, loc, span, store, first⟩, .list .curly⟩

/-- Where the earliest of some trees starts. -/
def Tree.startOf (ts : List Tree) : Nat := (ts.getLast?.map (·.span.start)).getD 0

/-- A draft holds the contents of a bracket that have been read so far. -/
structure Draft.Lays (d : Draft) (site : Site) (L : Level) : Prop where
  fits : site.Fits
  loc_lt : site.loc < site.first
  path : d.path = L.frames ++ site.path
  next : d.next = L.next
  flat (hlist : site.bracket ≠ .table) : L.above = []
  kept (l : Loc) (hl : l < site.first) (hne : l ≠ site.loc) : d.nodes[l]? = site.store[l]?
  base : ∃ above, d.nodes[site.loc]? =
      some (site.bracket.sketch (.ending L.itemLoc? L.items) above, site.span) ∧
    above.map Slots.filled = L.above.map fun row => (row.map Tree.loc).reverse
  spaced (hwords : L.words ≠ []) : ∃ stop, d.nodes[L.spaced]? =
    some (.list .spaced (.ending L.wordLoc? L.words), ⟨Tree.startOf L.words, stop⟩)
  smooshed (hatoms : 2 ≤ L.atoms.length) : ∃ stop, d.nodes[L.smooshed]? =
    some (.list .smooshed (L.atoms.map (some ·.loc)), ⟨Tree.startOf L.atoms, stop⟩)
  drawn (t : Tree) (ht : t ∈ L.nodes) : d.Drawn t
  numbered : Numbered site.first L.next L.locs

namespace Draft

variable {d : Draft} {site : Site} {L : Level}

theorem Drawn.congr {d' : Draft} {t : Tree} (h : d.Drawn t)
    (heq : d'.nodes[t.loc]? = d.nodes[t.loc]?) : d'.Drawn t := by
  obtain ⟨sketch, hnode, hdraws⟩ := h
  exact ⟨sketch, heq.trans hnode, hdraws⟩

/-- Inside a smooshed list everything touches; elsewhere the latest slot decides. -/
theorem add_eq (d : Draft) (l : Loc) (h : ∀ w, d.path.head? ≠ some (.smooshed w)) :
    d.add l = match d.slots d.target with
      | [] => d.reviseSlots d.target (some l :: ·)
      | none :: _ => d.reviseSlots d.target (Slots.replace l)
      | some before :: _ =>
        d.wrap d.target .smooshed [some l, some before] ⟨d.startOf before, d.stopOf l⟩ .smooshed := by
  unfold add
  split <;> simp_all

namespace Lays

variable {d' : Draft} {L' : Level} {l : Loc} {t : Tree}

theorem first_le (h : d.Lays site L) (hl : l ∈ L.locs) : site.first ≤ l :=
  (h.numbered.mem_iff.1 hl).1

theorem lt_next (h : d.Lays site L) (hl : l ∈ L.locs) : l < L.next := (h.numbered.mem_iff.1 hl).2

/-- Open nodes are not finished ones. -/
theorem ne_of_mem_nodes (h : d.Lays site L) (ht : t ∈ L.nodes) {f : Frame} (hf : f ∈ L.frames) :
    t.loc ≠ f.target := by
  have hdisjoint := (List.nodup_append.1 h.numbered.nodup).2.2
  exact (hdisjoint _ (List.mem_map_of_mem hf) _ (List.mem_map_of_mem ht)).symm

theorem ne_spaced (h : d.Lays site L) (ht : t ∈ L.nodes) (hwords : L.words ≠ []) :
    t.loc ≠ L.spaced :=
  h.ne_of_mem_nodes ht (Level.spaced_mem_frames hwords)

theorem ne_smooshed (h : d.Lays site L) (ht : t ∈ L.nodes) (hatoms : 2 ≤ L.atoms.length) :
    t.loc ≠ L.smooshed :=
  h.ne_of_mem_nodes ht (Level.smooshed_mem_frames hatoms)

/-- The current word may change; the list that it is part of then refers to the new word. -/
theorem reword (h : d.Lays site L) {next smooshed : Loc} {atoms spares : List Tree} {run : Option Nat}
    (hL' : L' = { L with next, smooshed, atoms, spares, run })
    (hpath : d'.path = L'.frames ++ site.path) (hnext : d'.next = next)
    (hsame : ∀ l < site.first, l ≠ L.parent site.loc → d'.nodes[l]? = d.nodes[l]?)
    (hparent : d'.nodes[L.parent site.loc]? = (d.nodes[L.parent site.loc]?).map fun n =>
      (n.1.onSlots fun _ => .ending L'.wordLoc? L.siblings, n.2))
    (hsmooshed : 2 ≤ atoms.length → ∃ stop, d'.nodes[smooshed]? =
      some (.list .smooshed (atoms.map (some ·.loc)), ⟨Tree.startOf atoms, stop⟩))
    (hdrawn : ∀ t ∈ L'.nodes, d'.Drawn t) (hnumbered : Numbered site.first next L'.locs) :
    d'.Lays site L' := by
  subst hL'
  refine ⟨h.fits, h.loc_lt, hpath, hnext, h.flat, fun l hl hne => ?_, ?_, fun hw => ?_, hsmooshed, hdrawn,
    hnumbered⟩
  · have hparent : l ≠ L.parent site.loc := by
      unfold Level.parent
      split
      · exact hne
      · next hw =>
        have := h.first_le (Level.spaced_mem_locs hw)
        lia
    rw [hsame l hl hparent, h.kept l hl hne]
  · obtain ⟨above, hnode, hfilled⟩ := h.base
    refine ⟨above, ?_, hfilled⟩
    by_cases hw : L.words = []
    · simp_all [Level.parent, Level.itemLoc?, Level.siblings]
    · have hne : site.loc ≠ L.parent site.loc := by
        have := h.first_le (Level.spaced_mem_locs hw)
        have := h.loc_lt
        simp only [Level.parent]
        lia
      rw [hsame _ h.loc_lt hne, hnode]
      simp_all [Level.itemLoc?]
  · obtain ⟨stop, hnode⟩ := h.spaced hw
    refine ⟨stop, ?_⟩
    simp_all [Level.parent, Level.siblings, Sketch.onSlots]

theorem slots_parent (h : d.Lays site L) :
    d.slots (L.parent site.loc) = .ending L.wordLoc? L.siblings := by
  by_cases hw : L.words = []
  · obtain ⟨above, hnode, -⟩ := h.base
    simp only [Level.parent, Level.siblings, hw, slots, hnode, Level.itemLoc?]
    cases site.bracket <;> rfl
  · obtain ⟨stop, hnode⟩ := h.spaced hw
    simp only [Level.parent, Level.siblings, slots, hnode]

theorem parent_lt (h : d.Lays site L) : L.parent site.loc < L.next := by
  unfold Level.parent
  split
  · exact Nat.lt_of_lt_of_le h.loc_lt h.numbered.le
  · next hw => exact h.lt_next (Level.spaced_mem_locs hw)

theorem target_eq (h : d.Lays site L) (hatoms : L.atoms.length ≤ 1) :
    d.target = L.parent site.loc := by
  have hsite : (site.path.head?.map Frame.target).getD top = site.loc := by
    cases h.fits <;> rfl
  rw [target, h.path]
  by_cases hw : L.words = []
  · simpa [Level.frames_of_nil hatoms hw, Level.parent, hw] using hsite
  · simp [Level.frames_of_ne_nil hatoms hw, Level.parent]

theorem head_ne_smooshed (h : d.Lays site L) (hatoms : L.atoms.length ≤ 1) (w : Loc) :
    d.path.head? ≠ some (.smooshed w) := by
  have hsite : site.path.head? ≠ some (.smooshed w) := by
    cases h.fits <;> simp
  rw [h.path]
  by_cases hw : L.words = []
  · simpa [Level.frames_of_nil hatoms hw] using hsite
  · simp [Level.frames_of_ne_nil hatoms hw]

theorem ne_parent (h : d.Lays site L) (ht : t ∈ L.nodes) : t.loc ≠ L.parent site.loc := by
  by_cases hw : L.words = []
  · have := h.first_le (Level.mem_locs_of_mem_nodes ht)
    have := h.loc_lt
    simp only [Level.parent, hw]
    lia
  · simpa only [Level.parent] using h.ne_spaced ht hw

theorem smooshed_ne_parent (h : d.Lays site L) (hatoms : 2 ≤ L.atoms.length) :
    L.smooshed ≠ L.parent site.loc := by
  have hmem := h.first_le (Level.smooshed_mem_locs hatoms)
  by_cases hw : L.words = []
  · have := h.loc_lt
    simp only [Level.parent, hw]
    lia
  · have hnodup := (List.nodup_append.1 h.numbered.nodup).1
    rcases hL : L.atoms with _ | ⟨x, _ | ⟨y, zs⟩⟩
    · simp [hL] at hatoms
    · simp [hL] at hatoms
    · simpa [Level.frames, hL, hw, Level.parent] using hnodup

/-- The current word may change without moving. -/
theorem reword_same (h : d.Lays site L) {next : Loc} {atoms spares : List Tree} {run : Option Nat}
    (hL' : L' = { L with next, atoms, spares, run }) (hword : L'.wordLoc? = L.wordLoc?)
    (hpath : d'.path = L'.frames ++ site.path) (hnext : d'.next = next)
    (hsame : ∀ l, l < site.first ∨ l = L.parent site.loc → d'.nodes[l]? = d.nodes[l]?)
    (hsmooshed : 2 ≤ atoms.length → ∃ stop, d'.nodes[L.smooshed]? =
      some (.list .smooshed (atoms.map (some ·.loc)), ⟨Tree.startOf atoms, stop⟩))
    (hdrawn : ∀ t ∈ L'.nodes, d'.Drawn t) (hnumbered : Numbered site.first next L'.locs) :
    d'.Lays site L' := by
  refine h.reword hL' hpath hnext (fun l hl _ => hsame l (.inl hl)) ?_ hsmooshed hdrawn hnumbered
  rw [hsame _ (.inr rfl), hword, ← h.slots_parent, nodes_onSlots_slots]

end Lays

/-! ## Placing a tree -/

section Place

variable {m : Draft} {sketch : Sketch} {t : Tree}

/-- A new node has been created, and is not yet part of anything. -/
structure Minted (d m : Draft) (sketch : Sketch) (t : Tree) : Prop where
  loc : t.loc = d.next
  path : m.path = d.path
  next : m.next = d.next + 1
  old {l : Loc} (hl : l < d.next) : m.nodes[l]? = d.nodes[l]?
  new : m.nodes[t.loc]? = some (sketch, t.span)
  draws : sketch.Draws t
  leaf : t.children = []

namespace Minted

theorem slots (hm : d.Minted m sketch t) {l : Loc} (hl : l < d.next) : m.slots l = d.slots l := by
  simp only [Draft.slots, hm.old hl]

theorem startOf (hm : d.Minted m sketch t) {l : Loc} (hl : l < d.next) :
    m.startOf l = d.startOf l := by
  simp only [Draft.startOf, hm.old hl]

theorem target (hm : d.Minted m sketch t) : m.target = d.target := by
  simp only [Draft.target, hm.path]

end Minted

theorem Lays.startOf_eq (h : d.Lays site L) (ht : t ∈ L.nodes) : d.startOf t.loc = t.span.start := by
  obtain ⟨sketch, hnode, -⟩ := h.drawn t ht
  simp [Draft.startOf, hnode]

theorem Lays.stopOf_eq (h : d.Lays site L) (ht : t ∈ L.nodes) : d.stopOf t.loc = t.span.stop := by
  obtain ⟨sketch, hnode, -⟩ := h.drawn t ht
  simp [Draft.stopOf, hnode]

/-- The first atom of a word goes into the blank slot, or the empty list. -/
theorem Lays.add_first (h : d.Lays site L) (hm : d.Minted m sketch t) (hL : L.atoms = []) :
    (m.add t.loc).Lays site (L.place t) := by
  have hnext := h.next
  have hparent := h.parent_lt
  -- What `add` does depends on whether something is there already; in either case the last slot is
  -- filled.
  have hadd : ∃ f, m.add t.loc = m.reviseSlots (L.parent site.loc) f ∧
      f (.ending none L.siblings) = .ending (some t.loc) L.siblings := by
    rw [add_eq _ _ (hm.path ▸ h.head_ne_smooshed (by simp [hL])), hm.target,
      h.target_eq (by simp [hL]), hm.slots (by lia), h.slots_parent]
    simp only [Level.wordLoc?, hL]
    rcases L.siblings with _ | ⟨s, rest⟩
    · exact ⟨_, rfl, rfl⟩
    · exact ⟨_, rfl, rfl⟩
  obtain ⟨f, hadd, hf⟩ := hadd
  rw [hadd]
  have hplace : L.place t = { L with next := L.next + 1, atoms := [t], run := none } := by
    simp [Level.place, hL]
  have hnumbered := Level.numbered_place hm.leaf (hm.loc.trans hnext) h.numbered
  refine h.reword hplace ?_ ?_ ?_ ?_ (by simp) ?_ (hplace ▸ hnumbered)
  · simp [hplace, hL, Level.frames, hm.path, h.path]
  · simp [hm.next, hnext]
  · intro l hl hne
    have := h.numbered.le
    rw [nodes_reviseSlots, if_neg (Ne.symm hne), hm.old (by lia)]
  · rw [nodes_reviseSlots, if_pos rfl, hm.old (by lia), hm.slots (by lia), h.slots_parent]
    simp [hplace, hL, Level.wordLoc?, hf]
  · intro s hs
    rcases (Level.mem_nodes_place hm.leaf).1 hs with rfl | hs
    · have := hm.loc
      exact ⟨sketch, by rw [nodes_reviseSlots, if_neg (by lia), hm.new], hm.draws⟩
    · have := h.lt_next (Level.mem_locs_of_mem_nodes hs)
      refine (h.drawn s hs).congr ?_
      rw [nodes_reviseSlots, if_neg (h.ne_parent hs).symm, hm.old (by lia)]

/-- With the second atom of a word, a list is opened around the two. -/
theorem Lays.add_second (h : d.Lays site L) (hm : d.Minted m sketch t) {x : Tree}
    (hL : L.atoms = [x]) : (m.add t.loc).Lays site (L.place t) := by
  have hnext := h.next
  have hparent := h.parent_lt
  have hloc := hm.loc
  have hx : x ∈ L.nodes := Level.mem_nodes_of_mem_forest (by simp [Level.forest, hL])
  have hxlt := h.lt_next (Level.mem_locs_of_mem_nodes hx)
  -- The list around the two takes the slot of the first atom, and starts where that atom does.
  have hadd : m.add t.loc = m.wrap (L.parent site.loc) .smooshed [some t.loc, some x.loc]
      ⟨x.span.start, m.stopOf t.loc⟩ .smooshed := by
    rw [add_eq _ _ (hm.path ▸ h.head_ne_smooshed (by simp [hL])), hm.target,
      h.target_eq (by simp [hL]), hm.slots (by lia), h.slots_parent, ← h.startOf_eq hx,
      ← hm.startOf (by lia)]
    simp only [Level.wordLoc?, hL, Slots.ending]
  rw [hadd, wrap, hm.next, hnext]
  have hplace : L.place t = { L with
      next := L.next + 2, smooshed := L.next + 1, atoms := [t, x], run := none } := by
    simp [Level.place, hL]
  have hnumbered := Level.numbered_place hm.leaf (hm.loc.trans hnext) h.numbered
  refine h.reword hplace ?_ ?_ ?_ ?_ (fun _ => ⟨m.stopOf t.loc, ?_⟩) ?_ (hplace ▸ hnumbered)
  · simp [hplace, hL, Level.frames, hm.path, h.path]
  · simp [hm.next, hnext]
  · intro l hl hne
    have := h.numbered.le
    rw [nodes_enter, nodes_reviseSlots, if_neg (Ne.symm hne), nodes_mint, hm.next, if_neg (by lia),
      hm.old (by lia)]
  · rw [nodes_enter, nodes_reviseSlots, if_pos rfl, slots_mint _ _ _ (by rw [hm.next]; lia), nodes_mint,
      hm.next, if_neg (by lia), hm.old (by lia), hm.slots (by lia), h.slots_parent]
    simp [hplace, hL, Level.wordLoc?]
  · rw [nodes_enter, nodes_reviseSlots, if_neg (by lia), nodes_mint, hm.next, if_pos (by lia)]
    rfl
  · intro s hs
    rcases (Level.mem_nodes_place hm.leaf).1 hs with rfl | hs
    · refine ⟨sketch, ?_, hm.draws⟩
      rw [nodes_enter, nodes_reviseSlots, if_neg (by lia), nodes_mint, hm.next, if_neg (by lia),
        hm.new]
    · have := h.lt_next (Level.mem_locs_of_mem_nodes hs)
      refine (h.drawn s hs).congr ?_
      rw [nodes_enter, nodes_reviseSlots, if_neg (h.ne_parent hs).symm, nodes_mint, hm.next,
        if_neg (by lia), hm.old (by lia)]

/-- Further atoms of a word are added to the list around it. -/
theorem Lays.add_more (h : d.Lays site L) (hm : d.Minted m sketch t) (hatoms : 2 ≤ L.atoms.length) :
    (m.add t.loc).Lays site (L.place t) := by
  obtain ⟨x, y, zs, hL⟩ : ∃ x y zs, L.atoms = x :: y :: zs := by
    rcases hL : L.atoms with _ | ⟨x, _ | ⟨y, zs⟩⟩ <;> simp_all
  have hnext := h.next
  have hparent := h.parent_lt
  have hloc := hm.loc
  have hlt := h.lt_next (Level.smooshed_mem_locs hatoms)
  have hge := h.first_le (Level.smooshed_mem_locs hatoms)
  obtain ⟨stop, hnode⟩ := h.smooshed hatoms
  have hslots : m.slots L.smooshed = L.atoms.map (some ·.loc) := by
    rw [hm.slots (by lia), slots, hnode]
  -- The path ends in the list around the word, so this is where the atom goes.
  have hadd : m.add t.loc = m.reviseSlots L.smooshed (some t.loc :: ·) := by
    have hpath : m.path = .smooshed L.smooshed :: m.path.tail := by
      simp [hm.path, h.path, Level.frames, hL]
    have htarget : m.target = L.smooshed := by rw [target, hpath]; rfl
    rw [add, htarget, hpath]
    rfl
  rw [hadd]
  have hplace : L.place t = { L with next := L.next + 1, atoms := t :: L.atoms, run := none } := by
    simp [Level.place, hL]
  have hnumbered := Level.numbered_place hm.leaf (hm.loc.trans hnext) h.numbered
  refine h.reword_same hplace ?_ ?_ ?_ ?_ (fun _ => ⟨stop, ?_⟩) ?_ (hplace ▸ hnumbered)
  · simp [hplace, hL, Level.wordLoc?]
  · simp [hplace, hL, Level.frames, hm.path, h.path]
  · simp [hm.next, hnext]
  · intro l hl
    have hne : L.smooshed ≠ l := by
      have := h.smooshed_ne_parent hatoms
      lia
    have := h.numbered.le
    rw [nodes_reviseSlots, if_neg hne, hm.old (by lia)]
  · rw [nodes_reviseSlots, if_pos rfl, hm.old (by lia), hnode, hslots]
    simp [Sketch.onSlots, Tree.startOf, hL]
  · intro s hs
    rcases (Level.mem_nodes_place hm.leaf).1 hs with rfl | hs
    · exact ⟨sketch, by rw [nodes_reviseSlots, if_neg (by lia), hm.new], hm.draws⟩
    · have := h.lt_next (Level.mem_locs_of_mem_nodes hs)
      have := h.ne_smooshed hs hatoms
      refine (h.drawn s hs).congr ?_
      rw [nodes_reviseSlots, if_neg this.symm, hm.old (by lia)]

/-- A new node is placed after what is there. -/
theorem Lays.add (h : d.Lays site L) (hm : d.Minted m sketch t) :
    (m.add t.loc).Lays site (L.place t) := by
  rcases hL : L.atoms with _ | ⟨x, _ | ⟨y, zs⟩⟩
  · exact h.add_first hm hL
  · exact h.add_second hm hL
  · exact h.add_more hm (by simp [hL])

end Place

/-! ## Closing words and items -/

theorem closeWrapper_one {w only : Loc} (h : Slots.filled (d.slots w) = [only]) :
    d.closeWrapper w =
      (d.leave.setStop w (d.stopOf only)).reviseSlots d.leave.target (Slots.replace only) := by
  simp only [closeWrapper, h]

theorem closeWrapper_many {w last : Loc} {before : List Loc} (hbefore : before ≠ [])
    (h : Slots.filled (d.slots w) = before ++ [last]) :
    d.closeWrapper w = d.leave.setStop w (d.stopOf last) := by
  rcases before with _ | ⟨b, _ | ⟨b', rest⟩⟩
  · contradiction
  · simp only [closeWrapper, h, List.cons_append, List.nil_append, List.getLastD_cons, List.getLastD_nil]
  · simp only [closeWrapper, h, List.cons_append, List.getLastD_cons, List.getLastD_concat]

namespace Lays

variable {d' : Draft} {L' : Level}

/-- The current word ends. -/
theorem closeWord (h : d.Lays site L) (hatoms : 2 ≤ L.atoms.length) :
    (d.closeWrapper L.smooshed).Lays site L.settleWord := by
  obtain ⟨x, y, zs, hL⟩ : ∃ x y zs, L.atoms = x :: y :: zs := by
    rcases hL : L.atoms with _ | ⟨x, _ | ⟨y, zs⟩⟩ <;> simp_all
  obtain ⟨stop, hnode⟩ := h.smooshed hatoms
  have hx : x ∈ L.nodes := Level.mem_nodes_of_mem_forest (by simp [Level.forest, hL])
  have hge := h.first_le (Level.smooshed_mem_locs hatoms)
  -- The list has two members or more, so it is kept, and ends where its last member does.
  have hfilled : Slots.filled (d.slots L.smooshed) = ((y :: zs).map Tree.loc).reverse ++ [x.loc] := by
    rw [slots, hnode]
    simp [Slots.filled, hL, List.filterMap_map]
  rw [closeWrapper_many (by simp) hfilled, h.stopOf_eq hx]
  have hsettle : L.settleWord =
      { L with run := none, atoms := [.wrap L.smooshed .smooshed L.atoms] } := by
    simp [Level.settleWord, hL]
  refine h.reword_same hsettle ?_ ?_ ?_ ?_ (by simp) ?_ ?_
  · simp [hsettle, Level.wordLoc?, hL, Tree.wrap, Tree.loc]
  · simp [hsettle, Level.frames, hL, h.path]
  · simp [h.next]
  · intro l hl
    have hne : L.smooshed ≠ l := by
      have := h.smooshed_ne_parent hatoms
      lia
    rw [nodes_setStop, if_neg hne, nodes_leave]
  · intro t ht
    rcases Level.mem_nodes_settleWord ht with rfl | ht
    · refine ⟨.list .smooshed (L.atoms.map (some ·.loc)), ?_, rfl, ?_⟩
      · rw [Tree.loc_wrap, nodes_setStop, if_pos rfl, nodes_leave, hnode]
        simp [Tree.wrap, Tree.span, Tree.startOf, hL]
      · simp [Slots.filled, List.filterMap_map]
    · refine (h.drawn t ht).congr ?_
      rw [nodes_setStop, if_neg (h.ne_smooshed ht hatoms).symm, nodes_leave]
  · exact h.numbered.grow (Nat.le_refl _) fun l => by
      rw [Level.count_locs_settleWord]
      grind

/-- Between two items nothing but the list of items may have changed. -/
theorem rebase (h : d.Lays site L) (hwords : L'.words = []) (hatoms : L'.atoms.length ≤ 1)
    (hpath : d'.path = site.path) (hnext : d'.next = L'.next)
    (hflat : site.bracket ≠ .table → L'.above = [])
    (hsame : ∀ l < site.first, l ≠ site.loc → d'.nodes[l]? = d.nodes[l]?)
    (hbase : ∃ above, d'.nodes[site.loc]? =
        some (site.bracket.sketch (.ending L'.wordLoc? L'.items) above, site.span) ∧
      above.map Slots.filled = L'.above.map fun row => (row.map Tree.loc).reverse)
    (hdrawn : ∀ t ∈ L'.nodes, d'.Drawn t) (hnumbered : Numbered site.first L'.next L'.locs) :
    d'.Lays site L' where
  fits := h.fits
  loc_lt := h.loc_lt
  path := by rw [hpath, Level.frames_of_nil hatoms hwords, List.nil_append]
  next := hnext
  flat := hflat
  kept l hl hne := by rw [hsame l hl hne, h.kept l hl hne]
  base := by simpa [Level.itemLoc?, hwords] using hbase
  spaced hw := absurd hwords hw
  smooshed hge := by omega
  drawn := hdrawn
  numbered := hnumbered

theorem filled_spaced (h : d.Lays site L) (hatoms : L.atoms.length ≤ 1) (hwords : L.words ≠ []) :
    Slots.filled (d.slots L.spaced) = ((L.atoms ++ L.words).map Tree.loc).reverse := by
  obtain ⟨stop, hnode⟩ := h.spaced hwords
  rw [slots, hnode]
  exact Level.filled_ending_wordLoc? hatoms L.words

/-- The current item ends. -/
theorem closeItem (h : d.Lays site L) (hatoms : L.atoms.length ≤ 1) (hwords : L.words ≠ []) :
    (d.closeWrapper L.spaced).Lays site L.settleItem := by
  obtain ⟨stop, hnode⟩ := h.spaced hwords
  obtain ⟨above, hbase, habove⟩ := h.base
  have hge := h.first_le (Level.spaced_mem_locs hwords)
  have hlt := h.loc_lt
  have hfilled := h.filled_spaced hatoms hwords
  have hleave : d.leave.path = site.path := by
    rw [path_leave, h.path, Level.frames_of_ne_nil hatoms hwords]
    rfl
  have hnumbered : Numbered site.first L.settleItem.next L.settleItem.locs :=
    h.numbered.grow (Nat.le_of_eq Level.next_settleItem.symm) fun l => by
      rw [Level.count_locs_settleItem l hatoms, Level.next_settleItem]
      grind
  obtain ⟨p, ps, hparts⟩ : ∃ p ps, L.atoms ++ L.words = p :: ps :=
    List.exists_cons_of_ne_nil (by simp [hwords])
  have hp : p ∈ L.nodes := Level.mem_nodes_of_mem_forest (by
    rw [Level.forest, hparts, List.append_assoc, List.cons_append]
    exact List.mem_cons_self)
  -- The list around the item ends where its last word ends, and other nodes do not change.
  have hdrawn (d' : Draft)
      (hS : d'.nodes[L.spaced]? = (d.leave.setStop L.spaced p.span.stop).nodes[L.spaced]?)
      (hold : ∀ l ≠ site.loc, l ≠ L.spaced → d'.nodes[l]? = d.nodes[l]?) (t : Tree)
      (ht : t ∈ L.settleItem.nodes) : d'.Drawn t := by
    rcases Level.mem_nodes_settleItem ht with rfl | ht
    · refine ⟨.list .spaced (.ending L.wordLoc? L.words), ?_, rfl, ?_⟩
      · rw [Tree.loc_wrap, hS, nodes_setStop, if_pos rfl, nodes_leave, hnode, hparts]
        have hlast : (L.atoms ++ L.words).getLast? = L.words.getLast? :=
          List.getLast?_append_of_ne_nil _ hwords
        simp [Tree.wrap, Tree.span, Tree.startOf, ← hlast, hparts]
      · rw [List.map_reverse, ← hfilled, slots, hnode]
    · have := h.first_le (Level.mem_locs_of_mem_nodes ht)
      exact (h.drawn t ht).congr (hold _ (by lia) (h.ne_spaced ht hwords))
  rcases ps with _ | ⟨q, ps⟩
  -- A list around a single word is not kept: the word takes its place, and it becomes a spare node.
  · obtain ⟨hL, hw⟩ : L.atoms = [] ∧ L.words = [p] := by
      rcases List.append_eq_singleton_iff.1 hparts with h | h
      · exact h
      · exact absurd h.2 hwords
    have hclose : d.closeWrapper L.spaced = (d.leave.setStop L.spaced p.span.stop).reviseSlots
        site.loc (Slots.replace p.loc) := by
      have htarget : d.leave.target = site.loc := by
        rw [target, hleave]
        cases h.fits <;> rfl
      rw [closeWrapper_one (by rw [hfilled, hparts]; rfl), h.stopOf_eq hp, htarget]
    have hsettle : L.settleItem = { L with
        words := [], atoms := [p], spares := .wrap L.spaced .spaced [p] :: L.spares } := by
      unfold Level.settleItem
      split <;> simp_all
    have hslots : (d.leave.setStop L.spaced p.span.stop).slots site.loc =
        .ending (some L.spaced) L.items := by
      rw [slots, nodes_setStop, if_neg (by lia), nodes_leave, hbase]
      cases site.bracket <;> simp [Bracket.sketch, Level.itemLoc?, hw]
    rw [hclose]
    refine h.rebase Level.words_settleItem (Level.length_atoms_settleItem hatoms) hleave ?_
      (by simpa [hsettle] using h.flat) ?_ ?_
      (hdrawn _ ?_ ?_) hnumbered
    · simp [h.next]
    · intro l hl hne
      rw [nodes_reviseSlots, if_neg (Ne.symm hne), nodes_setStop, if_neg (by lia), nodes_leave]
    · refine ⟨above, ?_, ?_⟩
      · rw [nodes_reviseSlots, if_pos rfl, hslots, nodes_setStop, if_neg (by lia), nodes_leave, hbase]
        simp [hsettle, Level.wordLoc?]
      · rw [hsettle, habove]
    · rw [nodes_reviseSlots, if_neg (by lia)]
    · intro l hne hne'
      rw [nodes_reviseSlots, if_neg (Ne.symm hne), nodes_setStop, if_neg (Ne.symm hne'), nodes_leave]
  · have hclose : d.closeWrapper L.spaced = d.leave.setStop L.spaced p.span.stop := by
      have : Slots.filled (d.slots L.spaced) = ((q :: ps).map Tree.loc).reverse ++ [p.loc] := by
        rw [hfilled, hparts, List.map_cons, List.reverse_cons]
      rw [closeWrapper_many (by simp) this, h.stopOf_eq hp]
    have hsettle : L.settleItem =
        { L with words := [], atoms := [.wrap L.spaced .spaced (p :: q :: ps)] } := by
      unfold Level.settleItem
      split <;> simp_all
    rw [hclose]
    refine h.rebase Level.words_settleItem (Level.length_atoms_settleItem hatoms) hleave ?_
      (by simpa [hsettle] using h.flat) ?_ ?_
      (hdrawn _ rfl ?_) hnumbered
    · simp [h.next]
    · intro l hl hne
      rw [nodes_setStop, if_neg (by lia), nodes_leave]
    · refine ⟨above, ?_, ?_⟩
      · rw [nodes_setStop, if_neg (by lia), nodes_leave, hbase]
        simp [hsettle, Level.itemLoc?, Level.wordLoc?, Tree.loc_wrap]
      · rw [hsettle, habove]
    · intro l _ hne
      rw [nodes_setStop, if_neg hne.symm, nodes_leave]

/-- Which word the next character extends does not matter for the nodes. -/
theorem withWord (h : d.Lays site L) (word : Option (Loc × Nat)) (run : Option Nat) :
    { d with word }.Lays site { L with run } :=
  ⟨h.fits, h.loc_lt, h.path, h.next, h.flat, h.kept, h.base, h.spaced, h.smooshed, h.drawn, h.numbered⟩

theorem closeWrappersOn_site (hfits : site.Fits) (items : Bool) :
    closeWrappersOn items site.path d = d := by
  cases hfits <;> rfl

/-- First the current word ends. -/
theorem exists_closeWrappers (h : d.Lays site L) :
    ∃ d', d'.Lays site L.settleWord ∧ ∀ items, d.closeWrappers items =
      closeWrappersOn items (L.settleWord.frames ++ site.path) d' := by
  by_cases hatoms : 2 ≤ L.atoms.length
  · refine ⟨_, h.closeWord hatoms, fun items => ?_⟩
    obtain ⟨x, y, zs, hL⟩ : ∃ x y zs, L.atoms = x :: y :: zs := by
      rcases hL : L.atoms with _ | ⟨x, _ | ⟨y, zs⟩⟩ <;> simp_all
    simp [closeWrappers, h.path, Level.frames, Level.settleWord, hL, closeWrappersOn]
  · have hsettle := Level.settleWord_of_length_le_one (L := L) (by omega)
    refine ⟨d, hsettle ▸ h.withWord d.word none, fun items => ?_⟩
    rw [closeWrappers, h.path, hsettle]
    rfl

theorem closeWrappers_false (h : d.Lays site L) : (d.closeWrappers false).Lays site L.settleWord := by
  obtain ⟨d', h', hclose⟩ := h.exists_closeWrappers
  have hid : closeWrappersOn false (L.settleWord.frames ++ site.path) d' = d' := by
    by_cases hw : L.settleWord.words = []
    · rw [Level.frames_of_nil L.length_atoms_settleWord hw]
      exact closeWrappersOn_site h.fits false
    · rw [Level.frames_of_ne_nil L.length_atoms_settleWord hw]
      rfl
  rw [hclose, hid]
  exact h'

theorem closeWrappers_true (h : d.Lays site L) : (d.closeWrappers true).Lays site L.settle := by
  obtain ⟨d', h', hclose⟩ := h.exists_closeWrappers
  have hatoms := L.length_atoms_settleWord
  rw [hclose]
  by_cases hw : L.settleWord.words = []
  · have hsettle : L.settle = L.settleWord := by
      simp only [Level.settle, Level.settleItem, hw]
    rw [Level.frames_of_nil hatoms hw, hsettle]
    exact (closeWrappersOn_site h.fits true).symm ▸ h'
  · rw [Level.frames_of_ne_nil hatoms hw]
    exact (closeWrappersOn_site h.fits true).symm ▸ h'.closeItem hatoms hw

/-! ## Separators and blanks -/

/-- Between two items only the list of items is open. -/
theorem slots_base (h : d.Lays site L) (hwords : L.words = []) :
    d.slots site.loc = .ending L.wordLoc? L.items := by
  simpa only [Level.parent, Level.siblings, hwords] using h.slots_parent

theorem separate (h : d.Lays site L) : d.separate.Lays site L.separate := by
  have hend := (h.withWord none L.run).closeWrappers_true
  change (d.endWord.closeWrappers true).Lays site L.settle at hend
  have hatoms := L.length_atoms_settle
  have hwords : L.settle.words = [] := Level.words_settleItem
  obtain ⟨above, hbase, habove⟩ := hend.base
  have htarget := hend.target_eq hatoms
  simp only [Level.parent, hwords] at htarget
  rw [Draft.separate, htarget]
  refine hend.rebase hwords (by simp [Level.separate]) ?_ ?_ hend.flat ?_ ⟨above, ?_, habove⟩ ?_ ?_
  · simp [hend.path, Level.frames_of_nil hatoms hwords]
  · simp [hend.next, Level.separate]
  · intro l hl hne
    rw [nodes_reviseSlots, if_neg (Ne.symm hne)]
  · rw [nodes_reviseSlots, if_pos rfl, hend.slots_base hwords,
      Level.blank_ending_wordLoc? hatoms, hbase]
    simp [Level.wordLoc?, Level.separate]
  · intro t ht
    rw [Level.nodes_separate] at ht
    refine (hend.drawn t ht).congr ?_
    have := hend.first_le (Level.mem_locs_of_mem_nodes ht)
    have := h.loc_lt
    rw [nodes_reviseSlots, if_neg (by lia)]
  · rw [Level.locs_separate]
    exact hend.numbered

theorem endRow (h : d.Lays site L) (htable : site.bracket = .table) : d.endRow.Lays site L.endRow := by
  have hend := (h.withWord none L.run).closeWrappers_true
  change (d.endWord.closeWrappers true).Lays site L.settle at hend
  have hatoms := L.length_atoms_settle
  have hwords : L.settle.words = [] := Level.words_settle
  obtain ⟨above, hbase, habove⟩ := hend.base
  have htarget := hend.target_eq hatoms
  simp only [Level.parent, hwords] at htarget
  rw [Draft.endRow, htarget]
  refine hend.rebase (by simp [Level.endRow, Level.separate]) (by simp [Level.endRow, Level.separate])
    ?_ ?_ (absurd htable) ?_ ⟨.ending L.settle.wordLoc? L.settle.items :: above, ?_, ?_⟩ ?_ ?_
  · simp [hend.path, Level.frames_of_nil hatoms hwords]
  · simp [hend.next, Level.endRow, Level.separate]
  · intro l hl hne
    rw [nodes_revise, if_neg (Ne.symm hne)]
  · rw [nodes_revise, if_pos rfl, hbase, htable]
    simp [Level.wordLoc?, Level.itemLoc?, Level.endRow, Level.separate, Bracket.sketch, Slots.ending, Slots.blank]
  · rw [List.map_cons, habove, Level.filled_ending_wordLoc? hatoms]
    rfl
  · intro t ht
    rw [Level.nodes_endRow] at ht
    refine (hend.drawn t ht).congr ?_
    have := hend.first_le (Level.mem_locs_of_mem_nodes ht)
    have := h.loc_lt
    rw [nodes_revise, if_neg (by lia)]
  · rw [Level.locs_endRow]
    exact hend.numbered

/-- After its first word, a list is opened around an item. -/
theorem wrapWord (h : d.Lays site L) (hwords : L.words = []) {x : Tree} (hL : L.atoms = [x])
    (stop : Nat) :
    (d.wrap site.loc .spaced [none, some x.loc] ⟨x.span.start, stop⟩ .spaced).Lays site
      { L with words := [x], atoms := [], spaced := L.next, next := L.next + 1 } := by
  obtain ⟨above, hbase, habove⟩ := h.base
  have hnext := h.next
  have hlt := h.loc_lt
  have hle := h.numbered.le
  rw [wrap, hnext]
  refine ⟨h.fits, h.loc_lt, ?_, ?_, h.flat, fun l hl hne => ?_, ⟨above, ?_, habove⟩,
    fun _ => ⟨stop, ?_⟩,
    fun hge => ?_, fun t ht => ?_, h.numbered.grow (Nat.le_succ _) fun l => ?_⟩
  · simp [h.path, Level.frames, hL, hwords]
  · simp [hnext]
  · rw [nodes_enter, nodes_reviseSlots, if_neg (Ne.symm hne), nodes_mint, if_neg (by lia),
      h.kept l hl hne]
  · rw [nodes_enter, nodes_reviseSlots, if_pos rfl, slots_mint _ _ _ (by lia), h.slots_base hwords,
      nodes_mint, if_neg (by lia), hbase]
    simp [Level.itemLoc?, Level.wordLoc?, hL]
  · rw [nodes_enter, nodes_reviseSlots, if_neg (by lia), nodes_mint, if_pos (by lia)]
    rfl
  · simp at hge
  · replace ht : t ∈ L.nodes := by simpa [Level.nodes, Level.forest, hL, hwords] using ht
    have := h.first_le (Level.mem_locs_of_mem_nodes ht)
    have := h.lt_next (Level.mem_locs_of_mem_nodes ht)
    refine (h.drawn t ht).congr ?_
    rw [nodes_enter, nodes_reviseSlots, if_neg (by lia), nodes_mint, if_neg (by lia)]
  · simp [Level.locs, Level.frames, Level.nodes, Level.forest, hL, hwords, List.count_cons]
    grind

/-- After each further word, the list around the item is left with a blank slot. -/
theorem blankWord (h : d.Lays site L) (hwords : L.words ≠ []) (hatoms : L.atoms.length ≤ 1) :
    (d.reviseSlots L.spaced Slots.blank).Lays site
      { L with words := L.atoms ++ L.words, atoms := [] } := by
  obtain ⟨above, hbase, habove⟩ := h.base
  obtain ⟨stop, hnode⟩ := h.spaced hwords
  have hge := h.first_le (Level.spaced_mem_locs hwords)
  have hlt := h.loc_lt
  have hparent : L.atoms ++ L.words ≠ [] := by simp [hwords]
  have hslots : d.slots L.spaced = .ending L.wordLoc? L.words := by rw [slots, hnode]
  refine ⟨h.fits, h.loc_lt, ?_, by simp [h.next], h.flat, fun l hl hne => ?_, ⟨above, ?_, habove⟩,
    fun _ => ⟨stop, ?_⟩, fun hge => ?_, fun t ht => ?_, ?_⟩
  · rw [path_reviseSlots, h.path, Level.frames_of_ne_nil hatoms hwords,
      Level.frames_of_ne_nil (by simp) hparent]
  · rw [nodes_reviseSlots, if_neg (by lia), h.kept l hl hne]
  · rw [nodes_reviseSlots, if_neg (by lia), hbase]
    simp [Level.itemLoc?]
  · rw [nodes_reviseSlots, if_pos rfl, hnode, hslots, Level.blank_ending_wordLoc? hatoms]
    simp [Sketch.onSlots, Level.wordLoc?, Tree.startOf, List.getLast?_append_of_ne_nil _ hwords]
  · simp at hge
  · replace ht : t ∈ L.nodes := by simpa [Level.nodes, Level.forest] using ht
    refine (h.drawn t ht).congr ?_
    rw [nodes_reviseSlots, if_neg (h.ne_spaced ht hwords).symm]
  · have hnumbered := h.numbered
    rw [Level.locs, Level.frames_of_ne_nil hatoms hwords] at hnumbered
    rw [Level.locs, Level.frames_of_ne_nil (by simp) hparent]
    simpa [Level.nodes, Level.forest] using hnumbered

end Lays

/-- Leave a blank after the current word, if there is one. -/
def pause (d : Draft) (pos : Nat) : Draft :=
  match d.path.head?, d.slots d.target with
  | some (.spaced _), _ => d.reviseSlots d.target Slots.blank
  | _, some before :: _ =>
    d.wrap d.target .spaced [none, some before] ⟨d.startOf before, pos + 1⟩ .spaced
  | _, _ => d

theorem space_eq (d : Draft) (pos : Nat) :
    d.space pos = (d.endWord.closeWrappers false).pause pos := rfl

namespace Lays

theorem pause_first (h : d.Lays site L) (hatoms : L.atoms.length ≤ 1) (hwords : L.words = [])
    (pos : Nat) : (d.pause pos).Lays site L.pause := by
  have hhead (w : Loc) : d.path.head? ≠ some (.spaced w) := by
    rw [h.path, Level.frames_of_nil hatoms hwords]
    cases h.fits <;> simp
  have hslots := h.slots_base hwords
  have htarget := h.target_eq hatoms
  simp only [Level.parent, hwords] at htarget
  unfold Draft.pause
  rw [htarget, hslots]
  rcases hL : L.atoms with _ | ⟨x, _ | ⟨y, zs⟩⟩
  · have hpause : L.pause = L := by simp only [Level.pause, hL]
    rw [hpause]
    split
    · exact absurd ‹_› (hhead _)
    · next heq _ => exact absurd heq (by simp [Level.wordLoc?, hL])
    · exact h
  · have hpause : L.pause =
        { L with words := [x], atoms := [], spaced := L.next, next := L.next + 1 } := by
      simp only [Level.pause, hL, hwords]
    have hx : x ∈ L.nodes := Level.mem_nodes_of_mem_forest (by simp [Level.forest, hL])
    rw [hpause]
    split
    · exact absurd ‹_› (hhead _)
    · next before _ heq _ =>
      have hbefore : before = x.loc := by
        simp only [Level.wordLoc?, hL, Slots.ending, List.cons.injEq, Option.some.injEq] at heq
        exact heq.1.symm
      rw [hbefore, h.startOf_eq hx]
      exact h.wrapWord hwords hL (pos + 1)
    · next hne =>
      exact (hne x.loc (L.items.map (some ·.loc)) (by simp [Level.wordLoc?, hL, Slots.ending])).elim
  · simp [hL] at hatoms

theorem pause_next (h : d.Lays site L) (hatoms : L.atoms.length ≤ 1) (hwords : L.words ≠ [])
    (pos : Nat) : (d.pause pos).Lays site L.pause := by
  have hhead : d.path.head? = some (.spaced L.spaced) := by
    rw [h.path, Level.frames_of_ne_nil hatoms hwords]
    rfl
  have htarget := h.target_eq hatoms
  simp only [Level.parent] at htarget
  have hpause : L.pause = { L with words := L.atoms ++ L.words, atoms := [] } := by
    unfold Level.pause
    split
    · next hL => rw [hL, List.nil_append, ← hL]
    · contradiction
    · rfl
  unfold Draft.pause
  rw [hhead, htarget, hpause]
  exact h.blankWord hwords hatoms

theorem space (h : d.Lays site L) (pos : Nat) : (d.space pos).Lays site L.space := by
  have hend := (h.withWord none L.run).closeWrappers_false
  change (d.endWord.closeWrappers false).Lays site L.settleWord at hend
  rw [space_eq, Level.space]
  by_cases hw : L.settleWord.words = []
  · exact hend.pause_first L.length_atoms_settleWord hw pos
  · exact hend.pause_next L.length_atoms_settleWord hw pos

/-! ## Filling in what has been read inside the latest atom -/

theorem ne_head (h : d.Lays site L) {x t : Tree} {xs : List Tree} (hL : L.atoms = x :: xs)
    (ht : t ∈ { L with atoms := xs }.nodes) : t.loc ≠ x.loc := by
  have hnodes : L.nodes = x.nodes ++ { L with atoms := xs }.nodes := by
    simp [Level.nodes, Level.forest, hL]
  have hnodup := (List.nodup_append.1 h.numbered.nodup).2.1
  rw [hnodes, List.map_append] at hnodup
  have hdisjoint := (List.nodup_append.1 hnodup).2.2
  exact (hdisjoint _ (List.mem_map_of_mem x.mem_nodes_self) _ (List.mem_map_of_mem ht)).symm

theorem fill {d' : Draft} (h : d.Lays site L) {x t : Tree} {xs spares : List Tree} {next : Loc}
    (hL : L.atoms = x :: xs) (hx : x.children = []) (hloc : t.loc = x.loc) (hpath : d'.path = d.path)
    (hnext : d'.next = next) (hsame : ∀ l < L.next, l ≠ x.loc → d'.nodes[l]? = d.nodes[l]?)
    (hdrawn : ∀ s ∈ t.nodes ++ spares, d'.Drawn s)
    (hinner : Numbered L.next next ((t.children.flatMap Tree.nodes ++ spares).map Tree.loc)) :
    d'.Lays site (L.fill t next spares) := by
  have hmem : x ∈ L.nodes := Level.mem_nodes_of_mem_forest (by simp [Level.forest, hL])
  have hge := h.first_le (Level.mem_locs_of_mem_nodes hmem)
  have hparent := h.parent_lt
  have hle := h.numbered.le
  refine h.reword_same rfl ?_ ?_ hnext (fun l hl => ?_) (fun hatoms => ?_) (fun s hs => ?_)
    (Level.numbered_fill hL hx hloc h.numbered hinner)
  · cases xs <;> simp [Level.fill, Level.wordLoc?, hL, hloc]
  · rw [hpath, h.path]
    cases xs <;> simp [Level.fill, Level.frames, hL]
  · have := h.ne_parent hmem
    exact hsame l (by lia) (by lia)
  · replace hatoms : 2 ≤ L.atoms.length := by simpa [hL] using hatoms
    obtain ⟨stop, hnode⟩ := h.smooshed hatoms
    have hne := h.ne_smooshed hmem hatoms
    have hlt := h.lt_next (Level.smooshed_mem_locs hatoms)
    refine ⟨stop, ?_⟩
    rw [hsame _ hlt hne.symm, hnode]
    cases xs
    · simp [hL] at hatoms
    · simp [hL, hloc, Tree.startOf]
  · rcases Level.mem_nodes_fill hL hs with hs | hs
    · exact hdrawn s hs
    · have hne := h.ne_head hL hs
      have hs : s ∈ L.nodes := by
        simp only [Level.mem_nodes, Level.forest, hL, List.mem_append, List.mem_cons] at hs ⊢
        grind
      exact (h.drawn s hs).congr (hsame _ (h.lt_next (Level.mem_locs_of_mem_nodes hs)) hne)

end Lays

end Draft
end TypeTrace
