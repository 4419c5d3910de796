import TypeTrace.Proofs.Places

/-!
# How trees lie in the source

Trees read one after the other lie one after the other in the source, and their places increase.  A
tree covers the trees below it, ends between characters, and the text of a word is the text that it
covers.  All this holds of the contents of a bracket at every point, with the lists around the
current word and item still open.

## Main definitions

* `Text.Boundary`: a position between characters
* `Tree.Before`, `Tree.Laid`: the order of trees, and how a tree covers the trees below
* `Orderly`: trees that lie one after the other between two points
* `Level.Lies`, `Literal.Lies`: how the contents of a bracket or string literal lie

## Main results

* `Reads.lies`: reading keeps the trees in order
-/

namespace TypeTrace

/-! ## Boundaries and slices -/

namespace Text

variable {src before before' after after' text : List Char} {c : Char} {n start stop : Nat}

/-- Two characters meet at a position, or the text starts or ends there. -/
def Boundary (src : List Char) (pos : Nat) : Prop :=
  ∃ before after, src = before ++ after ∧ byteLength before = pos

theorem Boundary.le (h : Boundary src n) : n ≤ byteLength src := by
  obtain ⟨before, after, rfl, rfl⟩ := h
  rw [byteLength_append]
  exact Nat.le_add_right _ _

theorem eq_nil_of_byteLength_eq_zero {cs : List Char} (h : byteLength cs = 0) : cs = [] := by
  cases cs with
  | nil => rfl
  | cons c cs =>
    have := c.utf8Size_pos
    simp only [byteLength] at h
    omega

/-- A position cuts a text in one way only. -/
theorem append_inj_of_byteLength (h : before ++ after = before' ++ after')
    (hlen : byteLength before = byteLength before') : before = before' ∧ after = after' := by
  have hafter : some after = some after' := by
    rw [← dropBytes?_append before after, h, hlen, dropBytes?_append]
  cases hafter
  exact ⟨List.append_cancel_right h, rfl⟩

theorem exists_of_dropBytes? {cs rest : List Char} (h : dropBytes? n cs = some rest) :
    ∃ before, cs = before ++ rest ∧ byteLength before = n := by
  fun_induction dropBytes? n cs with
  | case1 cs => exact ⟨[], by simpa using h, rfl⟩
  | case2 => simp at h
  | case3 n c cs hle ih =>
    obtain ⟨before, rfl, hn⟩ := ih h
    exact ⟨c :: before, rfl, by simp only [byteLength]; omega⟩
  | case4 => simp at h

theorem exists_of_takeBytes? {cs text : List Char} (h : takeBytes? n cs = some text) :
    ∃ after, cs = text ++ after ∧ byteLength text = n := by
  fun_induction takeBytes? n cs generalizing text with
  | case1 cs => exact ⟨cs, by simp_all, by simp_all [byteLength]⟩
  | case2 => simp at h
  | case3 n c cs hle ih =>
    obtain ⟨text, htext, rfl⟩ := Option.map_eq_some_iff.1 h
    obtain ⟨after, rfl, hn⟩ := ih htext
    exact ⟨after, rfl, by simp only [byteLength]; omega⟩
  | case4 => simp at h

theorem slice?_append (before text after : List Char) :
    slice? (before ++ (text ++ after)) (byteLength before) (byteLength before + byteLength text) =
      some text := by
  rw [slice?, if_pos (Nat.le_add_right _ _), dropBytes?_append, Nat.add_sub_cancel_left,
    Option.bind_some, takeBytes?_append]

theorem exists_of_slice? (h : slice? src start stop = some text) :
    ∃ before after, src = before ++ (text ++ after) ∧ byteLength before = start ∧
      start + byteLength text = stop := by
  unfold slice? at h
  split at h
  · next hle =>
    obtain ⟨rest, hdrop, htake⟩ := Option.bind_eq_some_iff.1 h
    obtain ⟨before, rfl, hbefore⟩ := exists_of_dropBytes? hdrop
    obtain ⟨after, rfl, htext⟩ := exists_of_takeBytes? htake
    exact ⟨before, after, rfl, hbefore, by omega⟩
  · simp at h

/-- There is a text between any two boundaries. -/
theorem Boundary.exists_slice? (hstart : Boundary src start) (hstop : Boundary src stop)
    (hle : start ≤ stop) : ∃ text, slice? src start stop = some text := by
  obtain ⟨before, after, rfl, rfl⟩ := hstart
  obtain ⟨before', after', hsrc, rfl⟩ := hstop
  rcases List.append_eq_append_iff.1 hsrc with ⟨text, rfl, rfl⟩ | ⟨text, rfl, rfl⟩
  · exact ⟨text, by rw [byteLength_append, slice?_append]⟩
  · have hnil : text = [] := by
      rw [byteLength_append] at hle
      exact eq_nil_of_byteLength_eq_zero (by omega)
    subst hnil
    exact ⟨[], by simpa [byteLength] using slice?_append before' [] after⟩

/-- A slice that ends before a character grows by it. -/
theorem slice?_concat (hsrc : src = before ++ c :: after)
    (h : slice? src start (byteLength before) = some text) :
    slice? src start (byteLength before + c.utf8Size) = some (text ++ [c]) := by
  obtain ⟨before', after', hsrc', rfl, hlen⟩ := exists_of_slice? h
  obtain ⟨rfl, rfl⟩ : before = before' ++ text ∧ c :: after = after' := by
    refine append_inj_of_byteLength (by rw [← hsrc, hsrc', List.append_assoc]) ?_
    rw [← hlen, byteLength_append]
  rw [hsrc', ← hlen]
  simpa [byteLength_append, byteLength, Nat.add_assoc] using slice?_append before' (text ++ [c]) after

end Text

/-! ## Trees in order -/

namespace Tree

/-- A tree comes before another one, in the source and in the store. -/
def Before (t u : Tree) : Prop := t.loc < u.loc ∧ t.span.stop ≤ u.span.start

/-- A tree covers a part of the source that is not empty, the trees right below lie in it one after the
other, and a word covers its own text. -/
structure Laid (src : List Char) (t : Tree) : Prop where
  start : Text.Boundary src t.span.start
  stop : Text.Boundary src t.span.stop
  lt : t.span.start < t.span.stop
  inside (child : Tree) (hchild : child ∈ t.children) :
    t.span.start ≤ child.span.start ∧ child.span.stop ≤ t.span.stop
  ordered : t.children.Pairwise Before
  word (l : Loc) (r : Span) (s : String) (hword : t = .id l r s) :
    s ≠ "" ∧ Text.slice? src r.start r.stop = some s.toList

theorem Laid.le {src : List Char} {t : Tree} (h : t.Laid src) : t.span.start ≤ t.span.stop :=
  Nat.le_of_lt h.lt

/-- A list that gave way to the only tree in it: a word with a blank after it that no other word
follows, or the brackets of an embedded expression. -/
inductive Spare (src : List Char) : Tree → Prop
  | spaced {l : Loc} {r : Span} {only : Tree} : Spare src (.list l r .spaced [only])
  | embedded {l : Loc} {r : Span} {only : Tree} {text : List Char}
    (htext : Text.slice? src r.start r.stop = some ('$' :: '\x7b' :: text)) :
    Spare src (.list l r .curly [only])

/-- All of a tree lies well, and so do lists that gave way to trees in it. -/
structure Stands (src : List Char) (t : Tree) (spares : List Tree) : Prop where
  laid (u : Tree) (hu : u ∈ t.nodes ++ spares) : u.Laid src
  spare (u : Tree) (hu : u ∈ spares) : u.Spare src
  places (u : Tree) (hu : u ∈ spares) (child : Tree) (hchild : child ∈ u.children) :
    child.loc ∈ t.nodes.map loc

theorem Stands.of_leaf {src : List Char} {t : Tree} (hleaf : t.children = []) (h : t.Laid src) :
    t.Stands src [] where
  laid u hu := by
    rw [List.append_nil, nodes_of_leaf hleaf] at hu
    rwa [List.mem_singleton.1 hu]
  spare := by simp
  places := by simp

end Tree

/-- Trees, the latest first, that lie one after the other, from byte `start` up to `pos`, with places
from `first` up to `next`; and lists that gave way to trees among them or below. -/
structure Orderly (src : List Char) (first next : Loc) (start pos : Nat) (ts spares : List Tree) :
    Prop where
  first_le : first ≤ next
  start_le : start ≤ pos
  order : ts.Pairwise fun t u => u.Before t
  locs (t : Tree) (ht : t ∈ ts) : first ≤ t.loc ∧ t.loc < next
  spans (t : Tree) (ht : t ∈ ts) : start ≤ t.span.start ∧ t.span.stop ≤ pos
  laid (t : Tree) (ht : t ∈ ts.flatMap Tree.nodes ++ spares) : t.Laid src
  spare (t : Tree) (ht : t ∈ spares) : t.Spare src
  places (t : Tree) (ht : t ∈ spares) (child : Tree) (hchild : child ∈ t.children) :
    child.loc ∈ (ts.flatMap Tree.nodes).map Tree.loc

namespace Orderly

variable {src : List Char} {first next next' : Loc} {start pos pos' : Nat}
  {ts parts rest spares more : List Tree} {t : Tree} {l : Loc} {kind : ListKind}

theorem nil (hle : start ≤ pos) : Orderly src next next start pos [] [] where
  first_le := Nat.le_refl _
  start_le := hle
  order := .nil
  locs := by simp
  spans := by simp
  laid := by simp
  spare := by simp
  places := by simp

theorem laid_of_mem (h : Orderly src first next start pos ts spares) (ht : t ∈ ts) : t.Laid src :=
  h.laid t (List.mem_append_left _ (List.mem_flatMap.2 ⟨t, ht, t.mem_nodes_self⟩))

theorem mono (h : Orderly src first next start pos ts spares) (hnext : next ≤ next')
    (hpos : pos ≤ pos') : Orderly src first next' start pos' ts spares where
  first_le := Nat.le_trans h.first_le hnext
  start_le := Nat.le_trans h.start_le hpos
  order := h.order
  locs t ht := ⟨(h.locs t ht).1, Nat.lt_of_lt_of_le (h.locs t ht).2 hnext⟩
  spans t ht := ⟨(h.spans t ht).1, Nat.le_trans (h.spans t ht).2 hpos⟩
  laid := h.laid
  spare := h.spare
  places := h.places

/-- Another tree follows. -/
theorem cons (h : Orderly src first next start pos ts spares) (hloc : next ≤ t.loc)
    (hnext : t.loc < next') (hstart : pos ≤ t.span.start) (hstop : t.span.stop ≤ pos')
    (ht : t.Stands src more) : Orderly src first next' start pos' (t :: ts) (more ++ spares) := by
  have hle := (ht.laid t (List.mem_append_left _ t.mem_nodes_self)).le
  have hfirst := h.first_le
  have hpos := h.start_le
  refine ⟨by lia, by omega, List.pairwise_cons.2 ⟨fun u hu => ?_, h.order⟩, ?_, ?_, ?_, ?_, ?_⟩
  · have hlocs := h.locs u hu
    have hspans := h.spans u hu
    exact ⟨by lia, by omega⟩
  · intro u hu
    rcases List.mem_cons.1 hu with rfl | hu
    · exact ⟨by lia, hnext⟩
    · have hlocs := h.locs u hu
      exact ⟨hlocs.1, by lia⟩
  · intro u hu
    rcases List.mem_cons.1 hu with rfl | hu
    · exact ⟨by omega, hstop⟩
    · have hspans := h.spans u hu
      exact ⟨hspans.1, by omega⟩
  · intro u hu
    simp only [List.flatMap_cons, List.mem_append] at hu
    rcases hu with (hu | hu) | (hu | hu)
    · exact ht.laid u (List.mem_append_left _ hu)
    · exact h.laid u (List.mem_append_left _ hu)
    · exact ht.laid u (List.mem_append_right _ hu)
    · exact h.laid u (List.mem_append_right _ hu)
  · intro u hu
    rcases List.mem_append.1 hu with hu | hu
    · exact ht.spare u hu
    · exact h.spare u hu
  · intro u hu child hchild
    rw [List.flatMap_cons, List.map_append]
    rcases List.mem_append.1 hu with hu | hu
    · exact List.mem_append_left _ (ht.places u hu child hchild)
    · exact List.mem_append_right _ (h.places u hu child hchild)

/-- A tree with the given trees right below covers them. -/
theorem laid_parent (h : Orderly src first next start pos ts spares)
    (hchildren : t.children = ts.reverse) (hword : ∀ l r s, t ≠ .id l r s)
    (hstart : Text.Boundary src t.span.start) (hstop : Text.Boundary src t.span.stop)
    (hle : t.span.start ≤ start) (hle' : pos ≤ t.span.stop) (hlt : t.span.start < t.span.stop) :
    t.Laid src where
  start := hstart
  stop := hstop
  lt := hlt
  inside child hchild := by
    have hspans := h.spans child (by simpa [hchildren] using hchild)
    exact ⟨Nat.le_trans hle hspans.1, Nat.le_trans hspans.2 hle'⟩
  ordered := by
    rw [hchildren, List.pairwise_reverse]
    exact h.order
  word l r s heq := absurd heq (hword l r s)

/-- All of such a tree lies well. -/
theorem stands_parent (h : Orderly src first next start pos ts spares)
    (hchildren : t.children = ts.reverse) (hlaid : t.Laid src) : t.Stands src spares := by
  have hnodes (u : Tree) : u ∈ t.nodes ↔ u = t ∨ u ∈ ts.flatMap Tree.nodes := by
    simp [Tree.nodes_eq t, hchildren]
  refine ⟨fun u hu => ?_, h.spare, fun u hu child hchild => ?_⟩
  · rcases List.mem_append.1 hu with hu | hu
    · rcases (hnodes u).1 hu with rfl | hu
      · exact hlaid
      · exact h.laid u (List.mem_append_left _ hu)
    · exact h.laid u (List.mem_append_right _ hu)
  · obtain ⟨v, hv, hloc⟩ := List.mem_map.1 (h.places u hu child hchild)
    exact List.mem_map.2 ⟨v, (hnodes v).2 (.inr hv), hloc⟩

theorem stop_le_head {x : Tree} (h : Orderly src first next start pos ts spares)
    (hx : ts.head? = some x) (ht : t ∈ ts) : t.span.stop ≤ x.span.stop := by
  obtain ⟨before, rfl⟩ := List.head?_eq_some_iff.1 hx
  rcases List.mem_cons.1 ht with rfl | ht
  · exact Nat.le_refl _
  · have hx := (h.laid_of_mem List.mem_cons_self).le
    have hbefore := (List.pairwise_cons.1 h.order).1 t ht
    exact Nat.le_trans hbefore.2 hx

theorem last_le_start {y : Tree} (h : Orderly src first next start pos ts spares)
    (hy : ts.getLast? = some y) (ht : t ∈ ts) : y.span.start ≤ t.span.start := by
  obtain ⟨after, rfl⟩ := List.getLast?_eq_some_iff.1 hy
  have hle := (h.laid_of_mem (List.mem_append_right after (List.mem_singleton_self y))).le
  rcases List.mem_append.1 ht with ht | ht
  · have hbefore := (List.pairwise_append.1 h.order).2.2 t ht y (List.mem_singleton_self y)
    exact Nat.le_trans hle hbefore.2
  · obtain rfl := List.mem_singleton.1 ht
    exact Nat.le_refl _

/-- What a list around the first trees covers. -/
theorem exists_span_wrap (h : Orderly src first next start pos (parts ++ rest) spares)
    (hne : parts ≠ []) (l : Loc) (kind : ListKind) :
    ∃ x ∈ parts, ∃ y ∈ parts, (Tree.wrap l kind parts).span = ⟨y.span.start, x.span.stop⟩ ∧
      Orderly src first next y.span.start x.span.stop parts [] := by
  obtain ⟨x, hx⟩ : ∃ x, parts.head? = some x := ⟨_, List.head?_eq_some_head hne⟩
  obtain ⟨y, hy⟩ : ∃ y, parts.getLast? = some y := ⟨_, List.getLast?_eq_some_getLast hne⟩
  have hxmem := List.mem_of_head? hx
  have hymem := List.mem_of_getLast? hy
  have hparts : Orderly src first next start pos parts [] :=
    { first_le := h.first_le, start_le := h.start_le, order := (List.pairwise_append.1 h.order).1
      locs := fun t ht => h.locs t (List.mem_append_left _ ht)
      spans := fun t ht => h.spans t (List.mem_append_left _ ht)
      laid := fun t ht => h.laid t (by simp_all)
      spare := by simp, places := by simp }
  refine ⟨x, hxmem, y, hymem, by simp [Tree.wrap, Tree.span, hx, hy], { hparts with
    start_le := ?_
    spans := fun t ht => ⟨hparts.last_le_start hy ht, hparts.stop_le_head hx ht⟩ }⟩
  exact Nat.le_trans (hparts.laid_of_mem hymem).le (hparts.stop_le_head hx hymem)

/-- A list around the first trees covers them. -/
theorem laid_wrap (h : Orderly src first next start pos (parts ++ rest) spares) (hne : parts ≠ [])
    (l : Loc) (kind : ListKind) : (Tree.wrap l kind parts).Laid src := by
  obtain ⟨x, hx, y, hy, hspan, hparts⟩ := h.exists_span_wrap hne l kind
  have hstart : (Tree.wrap l kind parts).span.start = y.span.start := by rw [hspan]
  have hstop : (Tree.wrap l kind parts).span.stop = x.span.stop := by rw [hspan]
  refine hparts.laid_parent rfl nofun (hstart ▸ (hparts.laid_of_mem hy).start)
    (hstop ▸ (hparts.laid_of_mem hx).stop) (Nat.le_of_eq hstart) (Nat.le_of_eq hstop.symm) ?_
  rw [hstart, hstop]
  exact Nat.lt_of_lt_of_le (hparts.laid_of_mem hy).lt (hparts.spans y hy).2

/-- A list around the first trees takes their place. -/
theorem wrap (h : Orderly src first next start pos (parts ++ rest) spares) (hne : parts ≠ [])
    (hfirst : first ≤ l) (hnext : l < next) (hrest : ∀ t ∈ rest, t.loc < l) (kind : ListKind) :
    Orderly src first next start pos (Tree.wrap l kind parts :: rest) spares := by
  obtain ⟨x, hx, y, hy, hspan, hparts⟩ := h.exists_span_wrap hne l kind
  have hxspan := h.spans x (List.mem_append_left _ hx)
  have hyspan := h.spans y (List.mem_append_left _ hy)
  have horder := List.pairwise_append.1 h.order
  -- The list reaches from the first of its parts to the last, so it comes where they came.
  refine ⟨h.first_le, h.start_le, List.pairwise_cons.2 ⟨fun t ht => ?_, horder.2.1⟩, ?_, ?_, ?_,
    h.spare, ?_⟩
  · refine ⟨hrest t ht, ?_⟩
    rw [hspan]
    exact (horder.2.2 y hy t ht).2
  · intro t ht
    rcases List.mem_cons.1 ht with rfl | ht
    · exact ⟨hfirst, hnext⟩
    · exact h.locs t (List.mem_append_right _ ht)
  · intro t ht
    rcases List.mem_cons.1 ht with rfl | ht
    · rw [hspan]
      exact ⟨hyspan.1, hxspan.2⟩
    · exact h.spans t (List.mem_append_right _ ht)
  · intro t ht
    simp only [List.flatMap_cons, Tree.nodes_wrap, List.mem_append, List.mem_cons] at ht
    rcases ht with ((rfl | ht) | ht) | ht
    · exact h.laid_wrap hne l kind
    · exact h.laid t (by simp_all)
    · exact h.laid t (by simp_all)
    · exact h.laid t (by simp_all)
  · intro t ht child hchild
    have hplace := h.places t ht child hchild
    simp only [List.flatMap_cons, Tree.nodes_wrap, List.flatMap_append, List.map_append, List.map_cons,
      List.mem_append, List.mem_cons, List.mem_map, List.mem_flatMap, List.mem_reverse] at hplace ⊢
    grind

/-- A list gives way to a tree. -/
theorem giveWay (h : Orderly src first next start pos ts spares) (hlaid : t.Laid src)
    (hspare : t.Spare src)
    (hplaces : ∀ child ∈ t.children, child.loc ∈ (ts.flatMap Tree.nodes).map Tree.loc) :
    Orderly src first next start pos ts (t :: spares) where
  first_le := h.first_le
  start_le := h.start_le
  order := h.order
  locs := h.locs
  spans := h.spans
  laid u hu := by
    rcases List.mem_append.1 hu with hu | hu
    · exact h.laid u (List.mem_append_left _ hu)
    · rcases List.mem_cons.1 hu with rfl | hu
      · exact hlaid
      · exact h.laid u (List.mem_append_right _ hu)
  spare := List.forall_mem_cons.2 ⟨hspare, h.spare⟩
  places := List.forall_mem_cons.2 ⟨hplaces, h.places⟩

/-- The latest tree grows. -/
theorem grow {x : Tree} (h : Orderly src first next start pos (x :: ts) spares) (hloc : t.loc = x.loc)
    (hstart : t.span.start = x.span.start) (hstop : t.span.stop = pos') (hpos : pos ≤ pos')
    (hx : x.children = []) (ht : t.children = []) (hlaid : t.Laid src) :
    Orderly src first next start pos' (t :: ts) spares := by
  obtain ⟨hbefore, horder⟩ := List.pairwise_cons.1 h.order
  refine ⟨h.first_le, Nat.le_trans h.start_le hpos, List.pairwise_cons.2 ⟨fun u hu => ?_, horder⟩,
    ?_, ?_, ?_, h.spare, ?_⟩
  · have := hbefore u hu
    exact ⟨hloc ▸ this.1, hstart ▸ this.2⟩
  · intro u hu
    rcases List.mem_cons.1 hu with rfl | hu
    · exact hloc ▸ h.locs x List.mem_cons_self
    · exact h.locs u (List.mem_cons_of_mem _ hu)
  · intro u hu
    rcases List.mem_cons.1 hu with rfl | hu
    · exact ⟨hstart ▸ (h.spans x List.mem_cons_self).1, Nat.le_of_eq hstop⟩
    · have := h.spans u (List.mem_cons_of_mem _ hu)
      exact ⟨this.1, Nat.le_trans this.2 hpos⟩
  · intro u hu
    simp only [List.flatMap_cons, Tree.nodes_of_leaf ht, List.mem_append, List.mem_singleton] at hu
    rcases hu with (rfl | hu) | hu
    · exact hlaid
    · exact h.laid u (by simp_all)
    · exact h.laid u (by simp_all)
  · intro u hu child hchild
    have hplace := h.places u hu child hchild
    simpa [Tree.nodes_of_leaf ht, Tree.nodes_of_leaf hx, hloc] using hplace

end Orderly

/-! ## Contents of brackets -/

/-- A place given out after some trees were finished. -/
structure Vacant (first next l : Loc) (ts : List Tree) : Prop where
  first_le : first ≤ l
  lt_next : l < next
  after (t : Tree) (ht : t ∈ ts) : t.loc < l

theorem Vacant.mono {first next next' l : Loc} {ts : List Tree} (h : Vacant first next l ts)
    (hle : next ≤ next') : Vacant first next' l ts :=
  ⟨h.first_le, Nat.lt_of_lt_of_le h.lt_next hle, h.after⟩

/-- The contents of a bracket lie in the source in order, with places for the lists around the current
word and item. -/
structure Level.Lies (src : List Char) (inTable : Bool) (first : Loc) (start pos : Nat) (L : Level) :
    Prop where
  orderly : Orderly src first L.next start pos L.forest L.spares
  spaced (hwords : L.words ≠ []) : Vacant first L.next L.spaced (L.items ++ L.above.flatten)
  smooshed (hatoms : 2 ≤ L.atoms.length) :
    Vacant first L.next L.smooshed (L.words ++ (L.items ++ L.above.flatten))
  run (cls : Nat) (hrun : L.run = some cls) (t : Tree) (ht : L.atoms.head? = some t) :
    t.span.stop = pos
  flat (hlist : inTable = false) : L.above = []

namespace Level

theorem forest_eq (L : Level) :
    L.forest = L.atoms ++ (L.words ++ (L.items ++ L.above.flatten)) := by
  simp [forest]

theorem forest_settle (L : Level) (hflat : L.above = []) : L.settle.forest = L.members.reverse := by
  simp [forest, members, separate, hflat]

@[simp] theorem spares_place (L : Level) (t : Tree) : (L.place t).spares = L.spares := by
  unfold place
  split <;> rfl

@[simp] theorem spaced_place (L : Level) (t : Tree) : (L.place t).spaced = L.spaced := by
  unfold place
  split <;> rfl

theorem fill_place_self (L : Level) (t : Tree) :
    (L.place t).fill t (L.place t).next [] = L.place t := by
  unfold fill
  rw [atoms_place, List.tail_cons, List.nil_append, ← atoms_place]

namespace Lies

variable {src : List Char} {inTable : Bool} {first : Loc} {start pos pos' : Nat} {L M : Level}

theorem nothing (hle : start ≤ pos) (next : Loc) :
    ({ next } : Level).Lies src inTable next start pos where
  orderly := .nil hle
  spaced h := absurd rfl h
  smooshed h := by simp at h
  run _ h := by simp at h
  flat _ := rfl

/-- The same trees are divided otherwise. -/
theorem regroup (h : L.Lies src inTable first start pos) (hforest : M.forest = L.forest)
    (hspares : M.spares = L.spares) (hnext : L.next ≤ M.next) (hpos : pos ≤ pos')
    (hwords : M.words ≠ [] → Vacant first M.next M.spaced (M.items ++ M.above.flatten))
    (hatoms : M.atoms.length ≤ 1) (hrun : M.run = none)
    (hflat : inTable = false → M.above = []) : M.Lies src inTable first start pos' where
  orderly := by
    rw [hforest, hspares]
    exact h.orderly.mono hnext hpos
  spaced := hwords
  smooshed hge := by omega
  run cls hcls := by simp [hrun] at hcls
  flat := hflat

theorem settleWord (h : L.Lies src inTable first start pos) :
    L.settleWord.Lies src inTable first start pos := by
  unfold Level.settleWord
  split
  · next x y zs hL =>
    have hatoms : 2 ≤ L.atoms.length := by simp [hL]
    obtain ⟨hfirst, hnext, hafter⟩ := h.smooshed hatoms
    have horderly := h.orderly
    rw [forest_eq] at horderly
    refine ⟨?_, h.spaced, fun hge => by simp at hge, nofun, h.flat⟩
    rw [forest_eq]
    exact horderly.wrap (by simp [hL]) hfirst hnext hafter .smooshed
  · exact ⟨h.orderly, h.spaced, h.smooshed, nofun, h.flat⟩

theorem settleItem (h : L.Lies src inTable first start pos) (hrun : L.run = none) : L.settleItem.Lies src inTable first start pos := by
  have horderly := h.orderly
  rw [forest_eq, ← List.append_assoc] at horderly
  unfold Level.settleItem
  split
  · exact h
  · next only hparts hne =>
    have hlaid := horderly.laid_wrap (by simp [hparts]) L.spaced .spaced
    rw [hparts] at horderly hlaid
    refine ⟨?_, fun hw => absurd rfl hw, fun hge => by simp at hge, fun cls hcls => ?_, h.flat⟩
    · simp only [forest_eq, List.nil_append, List.singleton_append]
      refine horderly.giveWay hlaid .spaced fun child hchild => ?_
      obtain rfl := List.mem_singleton.1 hchild
      exact List.mem_map_of_mem (List.mem_append_left _ child.mem_nodes_self)
    · simp [hrun] at hcls
  · next hne hone =>
    obtain ⟨hfirst, hnext, hafter⟩ := h.spaced hne
    refine ⟨?_, fun hw => absurd rfl hw, fun hge => by simp at hge, fun cls hcls => ?_, h.flat⟩
    · rw [forest_eq]
      exact horderly.wrap (List.append_ne_nil_of_right_ne_nil _ hne) hfirst hnext hafter .spaced
    · simp [hrun] at hcls

theorem settle (h : L.Lies src inTable first start pos) : L.settle.Lies src inTable first start pos :=
  h.settleWord.settleItem run_settleWord

theorem separate (h : L.Lies src inTable first start pos) (hpos : pos ≤ pos') :
    L.separate.Lies src inTable first start pos' := by
  refine h.settle.regroup ?_ rfl (Nat.le_refl _) hpos ?_ ?_ run_settle h.settle.flat
  · simp [forest, Level.separate]
  · simp [Level.separate]
  · simp [Level.separate]

theorem endRow (h : L.Lies src true first start pos) (hpos : pos ≤ pos') :
    L.endRow.Lies src true first start pos' := by
  refine (h.separate hpos).regroup ?_ rfl (Nat.le_refl _) (Nat.le_refl _) ?_ ?_ run_settle nofun
  · simp [forest, Level.separate, Level.endRow]
  · simp [Level.separate, Level.endRow]
  · simp [Level.separate, Level.endRow]

theorem pause (h : L.Lies src inTable first start pos) (hatoms : L.atoms.length ≤ 1)
    (hrun : L.run = none) (hpos : pos ≤ pos') : L.pause.Lies src inTable first start pos' := by
  unfold Level.pause
  split
  · exact h.regroup rfl rfl (Nat.le_refl _) hpos h.spaced hatoms hrun h.flat
  · next hwords _ =>
    refine h.regroup ?_ rfl (Nat.le_succ _) hpos (fun _ => ⟨h.orderly.first_le, Nat.lt_succ_self _, ?_⟩)
      (by simp) hrun h.flat
    · simp [forest, hwords]
    · intro t ht
      refine (h.orderly.locs t ?_).2
      rw [forest_eq]
      exact List.mem_append_right _ (List.mem_append_right _ ht)
  · next hwords =>
    refine h.regroup ?_ rfl (Nat.le_refl _) hpos (fun _ => h.spaced hwords) (by simp) hrun h.flat
    simp [forest]

theorem space (h : L.Lies src inTable first start pos) (hpos : pos ≤ pos') :
    L.space.Lies src inTable first start pos' :=
  h.settleWord.pause L.length_atoms_settleWord run_settleWord hpos

/-- A tree is read that starts here. -/
theorem fill (h : L.Lies src inTable first start pos) {x t : Tree} {next : Loc} {spares : List Tree}
    (hloc : t.loc = L.next) (hnext : (L.place x).next ≤ next)
    (hstart : t.span.start = pos) (hstop : t.span.stop = pos')
    (ht : t.Stands src spares) :
    ((L.place x).fill t next spares).Lies src inTable first start pos' := by
  -- The tree takes the next place, so all that was read before has a smaller one.
  have hlt := L.next_lt_next_place x
  have hle : L.next ≤ next := by lia
  have hbefore (u : Tree) (hu : u ∈ L.words ++ (L.items ++ L.above.flatten)) : u.loc < L.next := by
    refine (h.orderly.locs u ?_).2
    rw [forest_eq]
    exact List.mem_append_right _ hu
  refine ⟨?_, fun hwords => ?_, fun hatoms => ?_, fun cls hcls u hu => ?_, fun hlist => ?_⟩
  · have hcons : Orderly src first next start pos' (t :: L.forest) (spares ++ L.spares) :=
      h.orderly.cons (Nat.le_of_eq hloc.symm) (by lia) (Nat.le_of_eq hstart.symm) (Nat.le_of_eq hstop)
        ht
    simpa [forest_eq, Level.fill] using hcons
  · have hspaced := h.spaced (by simpa [Level.fill] using hwords)
    simpa [Level.fill] using hspaced.mono hle
  · rcases hL : L.atoms with _ | ⟨y, _ | ⟨z, zs⟩⟩
    · simp [Level.fill, hL] at hatoms
    · -- The list around the word gets its place now.
      have hplace : (L.place x).smooshed = L.next + 1 ∧ (L.place x).next = L.next + 2 := by
        simp [place, hL]
      have hfirst := h.orderly.first_le
      refine ⟨?_, ?_, fun u hu => ?_⟩
      · change first ≤ (L.place x).smooshed
        lia
      · change (L.place x).smooshed < next
        lia
      · have := hbefore u (by simpa [Level.fill] using hu)
        change u.loc < (L.place x).smooshed
        lia
    · have hsmooshed := h.smooshed (by simp [hL])
      have hplace : (L.place x).smooshed = L.smooshed := by simp [place, hL]
      simpa [Level.fill, hplace] using hsmooshed.mono hle
  · simp [Level.fill] at hcls
  · simpa [Level.fill] using h.flat hlist

/-- A character extends the latest atom. -/
theorem extend (h : L.Lies src inTable first start pos) {l : Loc} {r : Span} {s : String}
    {xs : List Tree} {c : Char} {cls : Nat} {before after : List Char}
    (hsrc : src = before ++ c :: after) (hpos : Text.byteLength before = pos)
    (hL : L.atoms = .id l r s :: xs) (hrun : L.run = some cls) :
    { L with atoms := .id l ⟨r.start, pos + c.utf8Size⟩ (s.push c) :: xs }.Lies src inTable first start
      (pos + c.utf8Size) := by
  subst hpos
  have horderly := h.orderly
  rw [forest_eq, hL] at horderly
  have hold := horderly.laid_of_mem List.mem_cons_self
  have hstop : r.stop = Text.byteLength before := h.run cls hrun (.id l r s) (by rw [hL]; rfl)
  have hslice : Text.slice? src r.start r.stop = some s.toList := (hold.word l r s rfl).2
  -- The latest atom ends where the character stands, so its text grows by just this character.
  refine ⟨?_, h.spaced, fun hatoms => h.smooshed (by simpa [hL] using hatoms), ?_, h.flat⟩
  · rw [forest_eq]
    refine horderly.grow rfl rfl rfl (Nat.le_add_right _ _) rfl rfl ⟨hold.start, ?_, ?_, nofun, .nil, ?_⟩
    · refine ⟨before ++ [c], after, by simp [hsrc], ?_⟩
      simp [Text.byteLength_append, Text.byteLength, Tree.span]
    · have hlt : r.start < r.stop := hold.lt
      simp only [Tree.span]
      omega
    · rintro _ _ _ ⟨⟩
      refine ⟨by simp, ?_⟩
      rw [String.toList_push]
      exact Text.slice?_concat hsrc (hstop ▸ hslice)
  · rintro _ _ t ⟨⟩
    rfl

/-- A character begins a word. -/
theorem begin (h : L.Lies src inTable first start pos) {c : Char} {before after : List Char}
    (hsrc : src = before ++ c :: after) (hpos : Text.byteLength before = pos) (run : Option Nat) :
    { L.place (.id L.next ⟨pos, pos + c.utf8Size⟩ c.toString) with run }.Lies src inTable first start
      (pos + c.utf8Size) := by
  subst hpos
  have hplace : (L.place (.id L.next ⟨Text.byteLength before, Text.byteLength before + c.utf8Size⟩
      c.toString)).Lies src inTable first start (Text.byteLength before + c.utf8Size) := by
    rw [← fill_place_self]
    refine h.fill rfl (Nat.le_refl _) rfl rfl (.of_leaf rfl ?_)
    refine ⟨⟨before, c :: after, hsrc, rfl⟩, ⟨before ++ [c], after, by simp [hsrc], ?_⟩,
      Nat.lt_add_of_pos_right c.utf8Size_pos, nofun, .nil, ?_⟩
    · simp [Text.byteLength_append, Text.byteLength, Tree.span]
    · rintro _ _ _ ⟨⟩
      refine ⟨by simp, ?_⟩
      have := Text.slice?_append before [c] after
      simpa [hsrc, Text.byteLength] using this
  refine ⟨hplace.orderly, hplace.spaced, hplace.smooshed, fun _ _ t ht => ?_, hplace.flat⟩
  obtain rfl : _ = t := by simpa using ht
  rfl

/-- A character is read that is not itself a bracket or quote. -/
theorem read? {L' : Level} (h : L.Lies src inTable first start pos) {a : Alphabet} {c : Char}
    {before after : List Char} (hsrc : src = before ++ c :: after)
    (hpos : Text.byteLength before = pos)
    (hread : L.read? pos c (a.role inTable c) = some L') :
    L'.Lies src inTable first start (pos + c.utf8Size) := by
  have hle : pos ≤ pos + c.utf8Size := Nat.le_add_right _ _
  rcases hrole : a.role inTable c with _ | _ | _ | _ | _ | _ | cls <;> rw [hrole] at hread <;> cases hread
  · cases inTable with
    | false => exact absurd hrole (a.role_false_ne_endsRow c)
    | true => exact h.endRow hle
  · exact h.separate hle
  · exact h.space hle
  · unfold Level.glyph
    split
    · next hrun hL =>
      split
      · exact h.extend hsrc hpos hL hrun
      · exact h.begin hsrc hpos _
    · exact h.begin hsrc hpos _

/-- A bracket ends. -/
theorem stands_tree {b : Bracket} (h : L.Lies src b.isTable first start pos) {r : Span}
    (hstart : Text.Boundary src r.start) (hstop : Text.Boundary src r.stop) (hle : r.start ≤ start)
    (hle' : pos < r.stop) (l : Loc) : (b.tree l r L).Stands src L.separate.spares := by
  have hchildren : (b.tree l r L).children = L.settle.forest.reverse := by
    refine Bracket.children_tree (fun hb => h.flat ?_) l r
    cases b with
    | list => rfl
    | table => exact absurd rfl hb
  have hword (l' : Loc) (r' : Span) (s : String) : b.tree l r L ≠ .id l' r' s := by
    cases b <;> simp [Bracket.tree]
  have hlt : r.start < r.stop :=
    Nat.lt_of_le_of_lt hle (Nat.lt_of_le_of_lt h.orderly.start_le hle')
  exact h.settle.orderly.stands_parent hchildren
    (h.settle.orderly.laid_parent hchildren hword (by simpa) (by simpa) (by simpa)
      (by simpa using Nat.le_of_lt hle') (by simpa))

end Lies

end Level

/-! ## String literals -/

/-- What a string literal embeds lies in the source in order. -/
def Literal.Lies (src : List Char) (first : Loc) (start pos : Nat) (T : Literal) : Prop :=
  Orderly src first T.next start pos (T.spans.filterMap TextSpan.item?) T.spares

namespace Literal.Lies

variable {src : List Char} {first : Loc} {start pos pos' : Nat} {T : Literal}

theorem char (h : T.Lies src first start pos) (hpos : pos ≤ pos') (c : Char) :
    (T.char c).Lies src first start pos' := by
  have hchar : (T.char c).spans.filterMap TextSpan.item? = T.spans.filterMap TextSpan.item? ∧
      (T.char c).spares = T.spares := by
    unfold Literal.char
    split <;> simp_all [List.filterMap_cons]
  unfold Literal.Lies
  rw [hchar.1, hchar.2, next_char]
  exact h.mono (Nat.le_refl _) hpos

/-- An embedded expression ends. -/
theorem embed (h : T.Lies src first start pos) {L : Level} {stop : Nat} {text : List Char}
    (hL : L.Lies src false (T.next + 1) (pos + 2) stop)
    (hstart : Text.Boundary src pos) (hstop : Text.Boundary src (stop + 1))
    (htext : Text.slice? src pos (stop + 1) = some ('$' :: '\x7b' :: text)) :
    (T.embed ⟨pos, stop + 1⟩ L).Lies src first start (stop + 1) := by
  have hfirst := hL.orderly.first_le
  have hitems : (T.items ⟨pos, stop + 1⟩ L).Stands src L.separate.spares :=
    Level.Lies.stands_tree (b := .list .curly) hL hstart hstop (by simp) (by simp) T.next
  unfold Literal.Lies Literal.embed
  split
  -- A single item is put in directly, and the list around it gives way.
  · next only hmembers =>
    have hinner := hL.settle.orderly
    rw [L.forest_settle (hL.flat rfl), hmembers, List.reverse_singleton] at hinner
    have honly : only.Stands src (T.items ⟨pos, stop + 1⟩ L :: L.separate.spares) := by
      refine ⟨fun u hu => hitems.laid u ?_, List.forall_mem_cons.2 ⟨?_, hitems.spare⟩,
        List.forall_mem_cons.2 ⟨?_, fun u hu child hchild => ?_⟩⟩
      · rw [nodes_items, hmembers]
        simp only [List.mem_append, List.mem_cons, List.flatMap_singleton] at hu ⊢
        grind
      · rw [items, hmembers]
        exact .embedded htext
      · simpa [items, hmembers, Tree.children] using ⟨only, only.mem_nodes_self, rfl⟩
      · simpa using hinner.places u hu child hchild
    obtain ⟨hloc, hnext⟩ := hinner.locs only (List.mem_singleton_self only)
    obtain ⟨hfrom, hto⟩ := hinner.spans only (List.mem_singleton_self only)
    simp only [List.filterMap_cons, TextSpan.item?_embed]
    exact h.cons (by lia) (by simpa using hnext) (by omega) (by omega) honly
  · simp only [List.filterMap_cons, TextSpan.item?_embed]
    refine h.cons (Nat.le_refl _) ?_ (Nat.le_refl _) (Nat.le_refl _) hitems
    change T.next < L.next
    lia

end Literal.Lies

/-! ## Reading -/

/-- What has been read lies in the source in order. -/
def Stage.Lies (src : List Char) (first : Loc) (start pos : Nat) : Stage → Prop
  | contents inTable L => L.Lies src inTable first start pos
  | literal T => T.Lies src first start pos

/-- Reading keeps the trees in order. -/
theorem Reads.lies {a : Alphabet} {src : List Char} {s s' : Stage} {pos pos' : Nat} {cs cs' : List Char}
    (h : Reads a s pos cs s' pos' cs') (before : List Char) (hsrc : src = before ++ cs)
    (hpos : Text.byteLength before = pos) {first : Loc} {start : Nat}
    (hs : s.Lies src first start pos) : s'.Lies src first start pos' := by
  induction h generalizing before first start with
  -- By induction on the reading. What has been consumed is named in each case, to say where the
  -- next piece starts and which bytes a bracket covers.
  | done => exact hs
  | @plain inTable L L' c s' pos pos' cs cs' hread hmore ih =>
    refine ih (before ++ [c]) ?_ ?_ (Level.Lies.read? hs hsrc hpos hread)
    · simp [hsrc]
    · simp [Text.byteLength_append, Text.byteLength, hpos]
  | @bracket inTable L inner b c s' pos stop pos' opening inside rest cs' hopen hinner hclose hmore
      ihinner ihmore =>
    obtain ⟨between, rfl, hstop⟩ := hinner.exists_between
    have hinside : inner.Lies src b.isTable (L.place (b.stub L.next pos)).next
        (pos + Text.byteLength opening) stop :=
      ihinner (before ++ opening) (by simp [hsrc]) (by rw [Text.byteLength_append, hpos])
        (.nothing (Nat.le_refl _) _)
    have hend : Text.byteLength (before ++ (opening ++ between ++ [c])) = stop + 1 := by
      simp only [Text.byteLength_append, Text.byteLength, hpos, hstop, (ListKind.closer_cases hclose).2]
      omega
    refine ihmore (before ++ (opening ++ between ++ [c])) (by simp [hsrc]) hend ?_
    have hstands := hinside.stands_tree (r := ⟨pos, stop + 1⟩) ⟨before, _, hsrc, hpos⟩
      ⟨_, rest, by simp [hsrc], hend⟩ (Nat.le_add_right _ _) (Nat.lt_succ_self _) L.next
    exact Level.Lies.fill hs (by simp) hinside.orderly.first_le (by simp) (by simp) hstands
  | @quoted inTable L T s' pos stop pos' inside rest cs' hinner hmore ihinner ihmore =>
    obtain ⟨between, rfl, hstop⟩ := hinner.exists_between
    have hinside : T.Lies src (L.place (.text L.next ⟨pos, pos + 1⟩ [])).next (pos + 1) stop :=
      ihinner (before ++ ['"']) (by simp [hsrc])
        (by simp [Text.byteLength_append, Text.byteLength, hpos, show '"'.utf8Size = 1 from rfl])
        (Orderly.nil (Nat.le_refl _))
    have hend : Text.byteLength (before ++ ('"' :: (between ++ ['"']))) = stop + 1 := by
      simp only [Text.byteLength_append, Text.byteLength, hpos, hstop, show '"'.utf8Size = 1 from rfl]
      omega
    refine ihmore (before ++ ('"' :: (between ++ ['"']))) (by simp [hsrc]) hend ?_
    have hchildren : (Tree.text L.next ⟨pos, stop + 1⟩ T.spans.reverse).children =
        (T.spans.filterMap TextSpan.item?).reverse := by
      simp [Tree.children]
    have hlaid := hinside.laid_parent hchildren (by simp) ⟨before, _, hsrc, hpos⟩
      ⟨_, rest, by simp [hsrc], hend⟩ (Nat.le_succ _) (Nat.le_succ _)
      (Nat.lt_succ_of_le (Nat.le_trans (Nat.le_succ _) hinside.start_le))
    exact Level.Lies.fill hs rfl hinside.first_le rfl rfl (hinside.stands_parent hchildren hlaid)
  | @char T c s' pos pos' cs cs' hquote hescape hembed hmore ih =>
    refine ih (before ++ [c]) ?_ ?_ (Literal.Lies.char hs (Nat.le_add_right _ _) c)
    · simp [hsrc]
    · simp [Text.byteLength_append, Text.byteLength, hpos]
  | @escape T c s' pos pos' cs cs' hmore ih =>
    refine ih (before ++ ['\\', c]) ?_ ?_ (Literal.Lies.char hs (by omega) _)
    · simp [hsrc]
    · simp [Text.byteLength_append, Text.byteLength, hpos, show '\\'.utf8Size = 1 from rfl, Nat.add_assoc]
  | @embed T L s' pos stop pos' inside rest cs' hinner hitems hmore ihinner ihmore =>
    obtain ⟨between, rfl, hstop⟩ := hinner.exists_between
    have hsize : '$'.utf8Size = 1 ∧ '\x7b'.utf8Size = 1 ∧ '\x7d'.utf8Size = 1 := ⟨rfl, rfl, rfl⟩
    have hinside : L.Lies src false (T.next + 1) (pos + 2) stop :=
      ihinner (before ++ ['$', '\x7b']) (by simp [hsrc])
        (by simp [Text.byteLength_append, Text.byteLength, hpos, hsize]) (.nothing (Nat.le_refl _) _)
    have hend : Text.byteLength (before ++ ('$' :: '\x7b' :: (between ++ ['\x7d']))) = stop + 1 := by
      simp only [Text.byteLength_append, Text.byteLength, hpos, hstop, hsize]
      omega
    have htext : Text.slice? src pos (stop + 1) = some ('$' :: '\x7b' :: (between ++ ['\x7d'])) := by
      have hsrc' : src = before ++ (('$' :: '\x7b' :: (between ++ ['\x7d'])) ++ rest) := by simp [hsrc]
      rw [← hend, ← hpos, hsrc', Text.byteLength_append]
      exact Text.slice?_append _ _ _
    refine ihmore (before ++ ('$' :: '\x7b' :: (between ++ ['\x7d']))) (by simp [hsrc]) hend ?_
    exact Literal.Lies.embed hs hinside ⟨before, _, hsrc, hpos⟩ ⟨_, rest, by simp [hsrc], hend⟩ htext

end TypeTrace
