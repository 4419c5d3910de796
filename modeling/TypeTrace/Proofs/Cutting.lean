import TypeTrace.Proofs.Drafting
import Mathlib.Data.List.SplitBy

/-!
# Syntax trees and cut up sources

Reading from left to right finds the shapes that cutting up the source finds.
-/

namespace TypeTrace

/-! ## Cutting up a list that grows -/

section Lists

variable {α : Type} {p : α → Bool} {r : α → α → Bool} {l last : List α} {before : List (List α)} {x : α}

/-- Elements with property `p` cut a list into some parts and a last one, which may still grow. -/
structure Cut (p : α → Bool) (l : List α) (before : List (List α)) (last : List α) : Prop where
  grow (more : List α) : (l ++ more).splitOnP p = before ++ (last ++ more).splitOnP p
  uncut (y : α) (hy : y ∈ last) : p y = false

namespace Cut

theorem nil : Cut p [] [] [] := ⟨fun _ => rfl, by simp⟩

theorem splitOnP_eq (h : Cut p l before last) : l.splitOnP p = before ++ [last] := by
  have := h.grow []
  rwa [List.append_nil, List.append_nil, List.splitOnP_eq_singleton h.uncut] at this

/-- Another element that cuts begins a new part. -/
theorem cut (h : Cut p l before last) (hx : p x = true) :
    Cut p (l ++ [x]) (before ++ [last]) [] where
  grow more := by
    rw [List.append_assoc, h.grow, List.singleton_append, List.splitOnP_append_cons last more hx,
      List.splitOnP_eq_singleton h.uncut, List.append_assoc, List.nil_append]
  uncut := by simp

/-- Another element that does not cut belongs to the last part. -/
theorem keep (h : Cut p l before last) (hx : p x = false) :
    Cut p (l ++ [x]) before (last ++ [x]) where
  grow more := by
    rw [List.append_assoc, h.grow, List.append_assoc]
  uncut y hy := by
    rcases List.mem_append.1 hy with hy | hy
    · exact h.uncut y hy
    · rwa [List.mem_singleton.1 hy]

end Cut

/-- Another element that runs on extends the last group. -/
theorem splitBy_concat_extend {groups : List (List α)} {group : List α} {y : α}
    (h : l.splitBy r = groups ++ [group]) (hlast : l.getLast? = some y) (hr : r y x = true) :
    (l ++ [x]).splitBy r = groups ++ [group ++ [x]] := by
  have hmem : group ∈ l.splitBy r := by simp [h]
  have hne : group ≠ [] := List.ne_nil_of_mem_splitBy hmem
  have hflat : l = groups.flatten ++ group := by
    simpa [h] using (List.flatten_splitBy r l).symm
  have hy : group.getLast? = some y := by
    rw [← hlast, hflat, List.getLast?_append_of_ne_nil _ hne]
  have hjoin : l ++ [x] = (groups ++ [group ++ [x]]).flatten := by
    simp [hflat]
  -- The groups are the only way to cut a list into chains with a break between any two of them.
  rw [hjoin]
  refine List.splitBy_flatten ?_ ?_ ?_
  · intro hnil
    rcases List.mem_append.1 hnil with hnil | hnil
    · exact List.ne_nil_of_mem_splitBy (show [] ∈ l.splitBy r by simp [h, hnil]) rfl
    · simp at hnil
  · intro m hm
    rcases List.mem_append.1 hm with hm | hm
    · exact List.isChain_of_mem_splitBy (show m ∈ l.splitBy r by simp [h, hm])
    · rw [List.mem_singleton.1 hm, List.isChain_append]
      exact ⟨List.isChain_of_mem_splitBy hmem, by simp, by simpa [hy] using hr⟩
  · have hchain := List.isChain_getLast_head_splitBy r l
    rw [h, List.isChain_append] at hchain
    refine List.isChain_append.2 ⟨hchain.1, by simp, fun b hb c hc => ?_⟩
    obtain ⟨hbne, hgne, hfalse⟩ := hchain.2.2 b hb group rfl
    obtain rfl : group ++ [x] = c := by simpa using hc
    exact ⟨hbne, by simp, by rwa [List.head_append_of_ne_nil hgne]⟩

/-- Another element that does not run on begins a new group. -/
theorem splitBy_concat_begin (h : ∀ y ∈ l.getLast?, r y x = false) :
    (l ++ [x]).splitBy r = l.splitBy r ++ [[x]] := by
  rw [List.splitBy_append_cons [] h]
  rfl

theorem filterMap_singleton {β : Type} (f : α → Option β) (x : α) :
    [x].filterMap f = (f x).toList := by
  cases hx : f x <;> simp [hx]

end Lists

namespace Piece

variable {a : Alphabet} {pieces : List Piece} {c c' : Char}

theorem chars_concat (pieces : List Piece) (c : Char) :
    chars (pieces ++ [char c]) = (chars pieces).push c := by
  simp [chars]

theorem ofRun_of_getLast? (h : pieces.getLast? = some (char c)) : ofRun pieces = .id (chars pieces) := by
  unfold ofRun
  split <;> simp_all

theorem spanOfRun_of_getLast? (h : pieces.getLast? = some (char c)) :
    spanOfRun pieces = .text (chars pieces) := by
  unfold spanOfRun
  split <;> simp_all

theorem chars_singleton (c : Char) : chars [char c] = c.toString := by
  simp [chars]

/-- The last group of a text that ends with a character. -/
theorem exists_last_group {r : Piece → Piece → Bool} (h : pieces.getLast? = some (char c)) :
    ∃ groups group, pieces.splitBy r = groups ++ [group] ∧ group.getLast? = some (char c) := by
  have hflat := List.flatten_splitBy r pieces
  rcases List.eq_nil_or_concat (pieces.splitBy r) with hnil | ⟨groups, group, hgroups⟩
  · simp_all
  · rw [List.concat_eq_append] at hgroups
    refine ⟨groups, group, hgroups, ?_⟩
    have hne : group ≠ [] := List.ne_nil_of_mem_splitBy (show group ∈ pieces.splitBy r by simp [hgroups])
    rw [← h, ← hflat, hgroups, List.flatten_append, List.flatten_singleton,
      List.getLast?_append_of_ne_nil _ hne]

/-- The class of the last character. -/
def lastClass (a : Alphabet) (pieces : List Piece) : Option Nat :=
  match pieces.getLast? with
  | some (char c) => some (a.classOf c)
  | _ => none

theorem atoms_concat_atom (shape : Shape) :
    atoms a (pieces ++ [atom shape]) = atoms a pieces ++ [shape] := by
  rw [atoms, splitBy_concat_begin, List.map_append]
  · rfl
  · intro y _
    cases y <;> rfl

/-- A character of another class than the one before it begins a word. -/
theorem atoms_concat_begin (h : lastClass a pieces ≠ some (a.classOf c)) :
    atoms a (pieces ++ [char c]) = atoms a pieces ++ [.id c.toString] := by
  rw [atoms, splitBy_concat_begin, List.map_append, ← chars_singleton]
  · rfl
  · intro y hy
    cases y with
    | char c' => simpa [runsOn, lastClass, Option.mem_def.1 hy] using h
    | atom => rfl

/-- A character of the same class as the one before it extends the word. -/
theorem atoms_concat_extend (h : lastClass a pieces = some (a.classOf c)) :
    ∃ before s, atoms a pieces = before ++ [.id s] ∧
      atoms a (pieces ++ [char c]) = before ++ [.id (s.push c)] := by
  obtain ⟨c', hlast, hclass⟩ : ∃ c', pieces.getLast? = some (char c') ∧ a.classOf c' = a.classOf c := by
    unfold lastClass at h
    split at h
    · exact ⟨_, ‹_›, by simpa using h⟩
    · simp at h
  obtain ⟨groups, group, hgroups, hgroup⟩ := exists_last_group
    (r := runsOn fun c c' => a.classOf c == a.classOf c') hlast
  refine ⟨groups.map ofRun, chars group, ?_, ?_⟩
  · rw [atoms, hgroups, List.map_append, List.map_singleton, ofRun_of_getLast? hgroup]
  · rw [atoms, splitBy_concat_extend hgroups hlast (by simp [runsOn, hclass]), List.map_append,
      List.map_singleton, ofRun_of_getLast? List.getLast?_concat, chars_concat]

theorem spans_concat_atom (shape : Shape) :
    spans (pieces ++ [atom shape]) = spans pieces ++ [.embed shape] := by
  rw [spans, splitBy_concat_begin, List.map_append]
  · rfl
  · intro y _
    cases y <;> rfl

theorem spans_concat_begin (h : ∀ c', pieces.getLast? ≠ some (char c')) :
    spans (pieces ++ [char c]) = spans pieces ++ [.text c.toString] := by
  rw [spans, splitBy_concat_begin, List.map_append, ← chars_singleton]
  · rfl
  · intro y hy
    cases y with
    | char c' => exact absurd hy (h c')
    | atom => rfl

theorem spans_concat_extend (hlast : pieces.getLast? = some (char c')) :
    ∃ before s, spans pieces = before ++ [.text s] ∧
      spans (pieces ++ [char c]) = before ++ [.text (s.push c)] := by
  obtain ⟨groups, group, hgroups, hgroup⟩ := exists_last_group (r := runsOn fun _ _ => true) hlast
  refine ⟨groups.map spanOfRun, chars group, ?_, ?_⟩
  · rw [spans, hgroups, List.map_append, List.map_singleton, spanOfRun_of_getLast? hgroup]
  · rw [spans, splitBy_concat_extend hgroups hlast rfl, List.map_append, List.map_singleton,
      spanOfRun_of_getLast? List.getLast?_concat, chars_concat]

end Piece

theorem Piece.join_of_two_le {kind : ListKind} {shapes : List Shape} (h : 2 ≤ shapes.length) :
    Piece.join kind shapes = some (.list kind shapes) := by
  unfold join
  split <;> simp_all

theorem Tree.shape_wrap (l : Loc) (kind : ListKind) (parts : List Tree) :
    (wrap l kind parts).shape = .list kind (parts.map shape).reverse := by
  rw [wrap, shape_list, List.map_reverse]

/-! ## What a level shows -/

namespace Alphabet

variable (a : Alphabet) (inTable : Bool) (c : Char)

/-- The character ends rows. -/
def endsRow : Bool := inTable && a.tableRow.contains c

/-- The character ends items, unless it ends rows. -/
def separates : Bool := inTable && a.tableCol.contains c || a.sep.contains c

variable {a inTable c}

theorem endsRow_of_role (h : a.role inTable c = .endsRow) : a.endsRow inTable c = true := by
  unfold role at h
  split at h
  · simp at h
  · simp at h
  · split_ifs at h
    simp_all [endsRow]

theorem separates_of_role (h : a.role inTable c = .separates) :
    a.endsRow inTable c = false ∧ a.separates inTable c = true := by
  unfold role at h
  split at h
  · simp at h
  · simp at h
  · split_ifs at h <;> simp_all [endsRow, separates]

theorem blank_of_role (h : a.role inTable c = .blank) :
    a.endsRow inTable c = false ∧ a.separates inTable c = false ∧ a.space.contains c = true := by
  unfold role at h
  split at h
  · simp at h
  · simp at h
  · split_ifs at h
    simp_all [endsRow, separates]

theorem word_of_role {cls : Nat} (h : a.role inTable c = .word cls) :
    a.endsRow inTable c = false ∧ a.separates inTable c = false ∧ a.space.contains c = false ∧
      cls = a.classOf c := by
  unfold role at h
  split at h
  · simp at h
  · simp at h
  · split_ifs at h
    simp_all [endsRow, separates]

end Alphabet

/-- The contents of a bracket cut up as far as they go: rows and the last row, items of that row and
the last item, words of that item and the last word. -/
structure Parts where
  rows : List (List Piece) := []
  row : List Piece := []
  items : List (List Piece) := []
  item : List Piece := []
  words : List (List Piece) := []
  word : List Piece := []

/-- What has been read of the contents of a bracket shows the same as the cut up contents. -/
structure Level.Shows (a : Alphabet) (inTable : Bool) (L : Level) (pieces : List Piece) (P : Parts) :
    Prop where
  row : Cut (Piece.isChar (a.endsRow inTable)) pieces P.rows P.row
  item : Cut (Piece.isChar (a.separates inTable)) P.row P.items P.item
  word : Cut (Piece.isChar a.space.contains) P.item P.words P.word
  above : P.rows.map (Piece.items a (a.separates inTable)) =
    L.above.reverse.map fun row => (row.map Tree.shape).reverse
  items : P.items.filterMap (Piece.item a) = (L.items.map Tree.shape).reverse
  words : P.words.filterMap (Piece.word a) = (L.words.map Tree.shape).reverse
  atoms : Piece.atoms a P.word = (L.atoms.map Tree.shape).reverse
  run : L.run = Piece.lastClass a P.word
  id (cls : Nat) (hrun : L.run = some cls) : ∃ l r s xs, L.atoms = .id l r s :: xs

namespace Level

variable {a : Alphabet} {inTable : Bool} {L L' : Level} {pieces : List Piece} {P : Parts} {c : Char}

theorem shapes_settleWord (L : Level) :
    L.settleWord.atoms.map Tree.shape =
      (Piece.join .smooshed (L.atoms.map Tree.shape).reverse).toList := by
  unfold settleWord
  split
  · next hL =>
    rw [Piece.join_of_two_le (by simp [hL])]
    simp [Tree.shape_wrap]
  · next hL =>
    rcases hatoms : L.atoms with _ | ⟨x, _ | ⟨y, zs⟩⟩
    · simp [Piece.join]
    · simp [Piece.join]
    · exact absurd hatoms (hL x y zs)

theorem shapes_settleItem (L : Level) (hatoms : L.atoms.length ≤ 1) :
    L.settleItem.atoms.map Tree.shape =
      (Piece.join .spaced ((L.atoms ++ L.words).map Tree.shape).reverse).toList := by
  unfold settleItem
  split
  · next hwords =>
    rcases hL : L.atoms with _ | ⟨x, _ | ⟨y, zs⟩⟩
    · simp [Piece.join, hwords]
    · simp [Piece.join, hwords]
    · simp [hL] at hatoms
  · next hparts _ => simp [hparts, Piece.join]
  · next hwords hone =>
    have hlen : 2 ≤ (L.atoms ++ L.words).length := by
      rcases hparts : L.atoms ++ L.words with _ | ⟨x, _ | ⟨y, zs⟩⟩
      · exact absurd (List.append_eq_nil_iff.1 hparts).2 hwords
      · exact absurd hparts (hone x)
      · simp
    rw [Piece.join_of_two_le (by rwa [List.length_reverse, List.length_map])]
    simp [Tree.shape_wrap]

/-- The current item, when it ends. -/
theorem shapes_settle (L : Level) :
    L.settle.atoms.map Tree.shape = (Piece.join .spaced ((L.words.map Tree.shape).reverse ++
      (Piece.join .smooshed (L.atoms.map Tree.shape).reverse).toList)).toList := by
  rw [settle, shapes_settleItem _ L.length_atoms_settleWord, List.map_append, L.shapes_settleWord,
    List.reverse_append, words_settleWord]
  cases Piece.join .smooshed (L.atoms.map Tree.shape).reverse <;> rfl

namespace Shows

theorem nothing (next : Loc) : ({ next } : Level).Shows a inTable [] {} where
  row := .nil
  item := .nil
  word := .nil
  above := rfl
  items := rfl
  words := rfl
  atoms := rfl
  run := rfl
  id _ h := by simp at h

/-- The word of the last pieces. -/
theorem word_eq (h : L.Shows a inTable pieces P) :
    (Piece.word a P.word).toList = L.settleWord.atoms.map Tree.shape := by
  rw [Piece.word, h.atoms, L.shapes_settleWord]

/-- The item of the last pieces. -/
theorem item_eq (h : L.Shows a inTable pieces P) :
    (Piece.item a P.item).toList = L.settle.atoms.map Tree.shape := by
  rw [Piece.item, h.word.splitOnP_eq, List.filterMap_append, h.words, L.shapes_settle, ← h.atoms,
    filterMap_singleton]
  rfl

/-- Pieces that belong to the current word. -/
theorem keep (h : L.Shows a inTable pieces P) {x : Piece}
    (hrow : x.isChar (a.endsRow inTable) = false) (hitem : x.isChar (a.separates inTable) = false)
    (hword : x.isChar a.space.contains = false) {M : Level} (habove : M.above = L.above)
    (hitems : M.items = L.items) (hwords : M.words = L.words)
    (hatoms : Piece.atoms a (P.word ++ [x]) = (M.atoms.map Tree.shape).reverse)
    (hrun : M.run = Piece.lastClass a (P.word ++ [x]))
    (hid : ∀ cls, M.run = some cls → ∃ l r s xs, M.atoms = .id l r s :: xs) :
    M.Shows a inTable (pieces ++ [x]) { P with
      row := P.row ++ [x], item := P.item ++ [x], word := P.word ++ [x] } where
  row := h.row.keep hrow
  item := h.item.keep hitem
  word := h.word.keep hword
  above := habove ▸ h.above
  items := hitems ▸ h.items
  words := hwords ▸ h.words
  atoms := hatoms
  run := hrun
  id := hid

theorem space (h : L.Shows a inTable pieces P) (hrole : a.role inTable c = .blank) :
    L.space.Shows a inTable (pieces ++ [.char c]) { P with
      row := P.row ++ [.char c], item := P.item ++ [.char c], words := P.words ++ [P.word],
      word := [] } := by
  obtain ⟨hrow, hitem, hword⟩ := Alphabet.blank_of_role hrole
  refine ⟨h.row.keep hrow, h.item.keep hitem, h.word.cut hword, ?_, ?_, ?_, ?_, ?_, ?_⟩
  · rw [above_space]
    exact h.above
  · rw [items_space]
    exact h.items
  · rw [List.filterMap_append, h.words, filterMap_singleton, words_space, List.map_append,
      List.reverse_append, ← h.word_eq]
    cases Piece.word a P.word <;> rfl
  · rw [atoms_space]
    rfl
  · exact run_space
  · simp

/-- The items of the last row. -/
theorem items_eq (h : L.Shows a inTable pieces P) :
    Piece.items a (a.separates inTable) P.row = (L.separate.items.map Tree.shape).reverse := by
  rw [Piece.items, h.item.splitOnP_eq, List.filterMap_append, h.items, filterMap_singleton]
  simp only [Level.separate, items_settle, List.map_append, List.reverse_append, ← h.item_eq]
  cases Piece.item a P.item <;> rfl

theorem separate (h : L.Shows a inTable pieces P) (hrole : a.role inTable c = .separates) :
    L.separate.Shows a inTable (pieces ++ [.char c]) { P with
      row := P.row ++ [.char c], items := P.items ++ [P.item], item := [], words := [],
      word := [] } := by
  obtain ⟨hrow, hitem⟩ := Alphabet.separates_of_role hrole
  refine ⟨h.row.keep hrow, h.item.cut hitem, .nil, ?_, ?_, ?_, rfl, run_settle, ?_⟩
  · exact above_settle (L := L) ▸ h.above
  · rw [← h.items_eq, Piece.items, h.item.splitOnP_eq]
  · simp [Level.separate]
  · simp [Level.separate]

theorem endRow (h : L.Shows a inTable pieces P) (hrole : a.role inTable c = .endsRow) :
    L.endRow.Shows a inTable (pieces ++ [.char c]) { rows := P.rows ++ [P.row] } := by
  have hrow := Alphabet.endsRow_of_role hrole
  refine ⟨h.row.cut hrow, .nil, .nil, ?_, rfl, ?_, rfl, run_settle, ?_⟩
  · rw [List.map_append, h.above, List.map_singleton, h.items_eq]
    simp [Level.endRow, Level.separate]
  · simp [Level.endRow, Level.separate]
  · simp [Level.endRow, Level.separate]

theorem glyph (h : L.Shows a inTable pieces P) {cls : Nat} (hrole : a.role inTable c = .word cls)
    (pos : Nat) :
    (L.glyph pos c cls).Shows a inTable (pieces ++ [.char c]) { P with
      row := P.row ++ [.char c], item := P.item ++ [.char c], word := P.word ++ [.char c] } := by
  obtain ⟨hrow, hitem, hword, rfl⟩ := Alphabet.word_of_role hrole
  have hlast : Piece.lastClass a (P.word ++ [.char c]) = some (a.classOf c) := by
    simp [Piece.lastClass]
  -- The level and the pieces decide alike whether the character runs on: by the class of the last
  -- one.
  by_cases hrun : L.run = some (a.classOf c)
  · obtain ⟨l, r, s, xs, hL⟩ := h.id _ hrun
    have hglyph : L.glyph pos c (a.classOf c) =
        { L with atoms := .id l ⟨r.start, pos + c.utf8Size⟩ (s.push c) :: xs } := by
      simp only [Level.glyph, hrun, hL, if_true]
    obtain ⟨before, s', hbefore, hafter⟩ := Piece.atoms_concat_extend (h.run ▸ hrun)
    rw [h.atoms, hL, List.map_cons, List.reverse_cons, Tree.shape_id] at hbefore
    have hbefore : (xs.map Tree.shape).reverse = before ∧ s = s' := by simpa using hbefore
    rw [hglyph]
    refine h.keep (x := .char c) hrow hitem hword rfl rfl rfl ?_ (hrun.trans hlast.symm) ?_
    · rw [hafter, ← hbefore.1, ← hbefore.2]
      simp
    · exact fun _ _ => ⟨_, _, _, _, rfl⟩
  · have hglyph : L.glyph pos c (a.classOf c) =
        { L.place (.id L.next ⟨pos, pos + c.utf8Size⟩ c.toString) with run := some (a.classOf c) } := by
      unfold Level.glyph
      split
      · next current _ _ _ _ hcurrent _ =>
        have hne : current ≠ a.classOf c := by
          rintro rfl
          exact hrun hcurrent
        simp only [hne, if_false]
      · rfl
    rw [hglyph]
    refine h.keep (x := .char c) hrow hitem hword above_place items_place words_place ?_ hlast.symm ?_
    · rw [Piece.atoms_concat_begin (h.run ▸ hrun), h.atoms, atoms_place]
      simp
    · exact fun _ _ => ⟨_, _, _, _, atoms_place⟩

/-- A bracket or string literal. -/
theorem fill (h : L.Shows a inTable pieces P) (x t : Tree) (next : Loc) (spares : List Tree) :
    ((L.place x).fill t next spares).Shows a inTable (pieces ++ [.atom t.shape]) { P with
      row := P.row ++ [.atom t.shape], item := P.item ++ [.atom t.shape],
      word := P.word ++ [.atom t.shape] } := by
  refine h.keep rfl rfl rfl ?_ ?_ ?_ ?_ ?_ ?_
  · simp [Level.fill]
  · simp [Level.fill]
  · simp [Level.fill]
  · simp [Level.fill, Piece.atoms_concat_atom, h.atoms]
  · simp [Level.fill, Piece.lastClass]
  · simp [Level.fill]

/-- Any character that is not itself a bracket or quote. -/
theorem read? (h : L.Shows a inTable pieces P) {pos : Nat}
    (hread : L.read? pos c (a.role inTable c) = some L') :
    ∃ P', L'.Shows a inTable (pieces ++ [.char c]) P' := by
  rcases hrole : a.role inTable c with _ | _ | _ | _ | _ | _ | cls <;> rw [hrole] at hread <;> cases hread
  · exact ⟨_, h.endRow hrole⟩
  · exact ⟨_, h.separate hrole⟩
  · exact ⟨_, h.space hrole⟩
  · exact ⟨_, h.glyph hrole pos⟩

theorem shape_members (h : L.Shows a false pieces P) :
    L.members.map Tree.shape = Piece.members a pieces := by
  -- No character ends rows here, so all pieces are in the last row.
  have huncut : pieces.splitOnP (Piece.isChar (a.endsRow false)) = [pieces] :=
    List.splitOnP_eq_singleton fun x _ => by cases x <;> rfl
  have hrow : P.row = pieces := by
    have := huncut.symm.trans h.row.splitOnP_eq
    rcases hrows : P.rows <;> simp_all
  rw [members, List.map_reverse, ← h.items_eq, hrow]
  rfl

theorem shape_rows (h : L.Shows a true pieces P) :
    L.rows.map (·.map Tree.shape) = Piece.rows a pieces := by
  have hrows : (pieces.splitOnP (Piece.isChar (a.endsRow true))).map (Piece.items a (a.separates true)) =
      (L.endRow.above.reverse.map List.reverse).map (·.map Tree.shape) := by
    rw [h.row.splitOnP_eq, List.map_append, h.above, List.map_singleton, h.items_eq]
    simp [Level.endRow, Level.separate]
  have hempty : ((fun row : List Shape => !row.isEmpty) ∘ fun row : List Tree => row.map Tree.shape) =
      fun row => !row.isEmpty := by
    funext row
    simp
  change _ = List.filter _ ((pieces.splitOnP (Piece.isChar (a.endsRow true))).map
    (Piece.items a (a.separates true)))
  rw [hrows, List.filter_map, hempty]
  rfl

end Shows

end Level

/-- What has been read of a string literal shows the same as its cut up contents. -/
structure Literal.Shows (T : Literal) (pieces : List Piece) : Prop where
  spans : Piece.spans pieces = (T.spans.map (TextSpan.map Tree.shape)).reverse
  text : (∃ s spans, T.spans = .text s :: spans) ↔ ∃ c, pieces.getLast? = some (.char c)

namespace Literal.Shows

variable {T : Literal} {pieces : List Piece}

theorem nothing (next : Loc) : ({ next } : Literal).Shows [] where
  spans := rfl
  text := by simp

theorem char (h : T.Shows pieces) (c : Char) : (T.char c).Shows (pieces ++ [.char c]) := by
  -- A character extends the text before it, unless there is none or something embedded comes
  -- between.
  by_cases hlast : ∃ c', pieces.getLast? = some (.char c')
  · obtain ⟨s, rest, hspans⟩ := h.text.2 hlast
    obtain ⟨c', hlast⟩ := hlast
    obtain ⟨before, s', hbefore, hafter⟩ := Piece.spans_concat_extend (c := c) hlast
    rw [h.spans, hspans] at hbefore
    have hbefore : (rest.map (TextSpan.map Tree.shape)).reverse = before ∧ s = s' := by
      simpa [TextSpan.map] using hbefore
    have hchar : T.char c = { T with spans := .text (s.push c) :: rest } := by
      simp only [Literal.char, hspans]
    rw [hchar]
    refine ⟨?_, by simp⟩
    rw [hafter, ← hbefore.1, ← hbefore.2]
    simp [TextSpan.map]
  · have hchar : T.char c = { T with spans := .text c.toString :: T.spans } := by
      unfold Literal.char
      split
      · exact absurd (h.text.1 ⟨_, _, ‹_›⟩) hlast
      · rfl
    rw [hchar]
    refine ⟨?_, by simp⟩
    rw [Piece.spans_concat_begin fun c' hc' => hlast ⟨c', hc'⟩, h.spans]
    simp [TextSpan.map]

theorem embed (h : T.Shows pieces) {a : Alphabet} {inner : List Piece} {L : Level} {P : Parts}
    (hL : L.Shows a false inner P) (r : Span) :
    (T.embed r L).Shows (pieces ++ [.atom (Piece.embedded a inner)]) := by
  have hmembers := hL.shape_members
  have hspans : (T.embed r L).spans.map (TextSpan.map Tree.shape) =
      .embed (Piece.embedded a inner) :: T.spans.map (TextSpan.map Tree.shape) := by
    unfold Literal.embed Piece.embedded
    rw [← hmembers]
    rcases hm : L.members with _ | ⟨x, _ | ⟨y, zs⟩⟩ <;> simp [TextSpan.map, Literal.items, hm]
  refine ⟨?_, ?_⟩
  · rw [Piece.spans_concat_atom, h.spans, hspans, List.reverse_cons]
  · have hne (s : String) (spans : List (TextSpan Tree)) : (T.embed r L).spans ≠ .text s :: spans := by
      unfold Literal.embed
      split <;> simp
    simp [hne]

end Literal.Shows

/-! ## Reading and cutting up -/

/-- Where reading stops: at the end of the text, or before a closing bracket. -/
inductive Stops : List Char → Option (ListKind × List Char) → Prop
  | ended : Stops [] none
  | closed {c : Char} {kind : ListKind} {rest : List Char} (h : ListKind.ofCloser? c = some kind) :
    Stops (c :: rest) (some (kind, rest))

/-- The text between two points, cut up, shows what reading it adds. -/
def Stage.Adds (a : Alphabet) : Stage → List Char → Stage → List Char → Prop
  | .contents inTable L, cs, .contents inTable' L', cs' => inTable' = inTable ∧
    ∀ ⦃before P⦄, L.Shows a inTable before P →
      ∃ pieces P', L'.Shows a inTable (before ++ pieces) P' ∧ ∀ ⦃n stop⦄, cs.length ≤ n → Stops cs' stop →
        Piece.read a n cs = some (pieces, stop)
  | .literal T, cs, .literal T', cs' => ∀ ⦃before⦄, T.Shows before →
      ∃ pieces, T'.Shows (before ++ pieces) ∧ ∀ ⦃n rest⦄, cs.length ≤ n → cs' = '"' :: rest →
        Piece.readText a n cs = some (pieces, rest)
  | _, _, _, _ => False

/-- The shape of a bracket with the given contents. -/
def Bracket.shape (a : Alphabet) (pieces : List Piece) : Bracket → Shape
  | list kind => .list kind (Piece.members a pieces)
  | table => .table .curly (Piece.rows a pieces)

theorem Level.Shows.shape_tree {a : Alphabet} {b : Bracket} {L : Level} {pieces : List Piece}
    {P : Parts} (h : L.Shows a b.isTable pieces P) (l : Loc) (r : Span) :
    (b.tree l r L).shape = b.shape a pieces := by
  cases b with
  | list kind => rw [Bracket.tree, Tree.shape_list, h.shape_members, Bracket.shape]
  | table => rw [Bracket.tree, Tree.shape_table, h.shape_rows, Bracket.shape]

namespace Piece

variable {a : Alphabet} {n : Nat} {c : Char} {cs inside rest : List Char}
  {inner more : List Piece} {stop : Option (ListKind × List Char)}

theorem read_nil (n : Nat) : read a n [] = some ([], none) := by
  cases n <;> rw [read]

theorem read_closer {kind : ListKind} (h : ListKind.ofCloser? c = some kind) :
    read a (n + 1) (c :: cs) = some ([], some (kind, cs)) := by
  simp only [read, (ListKind.closer_cases h).1, h]

theorem read_char {L L' : Level} {pos : Nat} {inTable : Bool}
    (h : L.read? pos c (a.role inTable c) = some L') (hmore : read a n cs = some (more, stop)) :
    read a (n + 1) (c :: cs) = some (.char c :: more, stop) := by
  have hopen : ListKind.ofOpener? c = none := by
    rcases hopen : ListKind.ofOpener? c with _ | kind
    · rfl
    · simp [Alphabet.role, hopen, Level.read?] at h
  have hclose : ListKind.ofCloser? c = none := by
    rcases hclose : ListKind.ofCloser? c with _ | kind
    · rfl
    · simp [Alphabet.role, hopen, hclose, Level.read?] at h
  have hquote : c ≠ '"' := by
    rintro rfl
    simp [Alphabet.role, hopen, hclose, Level.read?] at h
  simp only [read, hopen, hclose, hquote, if_false, hmore]
  rfl

theorem read_bracket {b : Bracket} {opening : List Char} (hopen : b.Opens a opening inside)
    (hinner : read a n inside = some (inner, some (b.kind, rest)))
    (hmore : read a n rest = some (more, stop)) :
    read a (n + 1) (opening ++ inside) = some (.atom (b.shape a inner) :: more, stop) := by
  cases hopen with
  | @list c kind _ hopen hmark =>
    -- A curly bracket that opens a list is not followed by a mark for tables.
    have hlist : ¬(kind = .curly ∧ (inside.head?.map a.tableNew.contains).getD false = true) := by
      rintro ⟨rfl, htable⟩
      rcases hhead : inside.head? with _ | mark
      · simp [hhead] at htable
      · rw [hhead, Option.map_some, Option.getD_some, hmark rfl mark hhead] at htable
        simp at htable
    have hclosed : (read a n inside).bind (closedBy kind) = some (inner, rest) := by
      simp [hinner, closedBy, Bracket.kind]
    simp only [List.singleton_append, read, hopen, hlist, if_false]
    rw [hclosed]
    simp [hmore, Bracket.shape]
  | @table c mark _ hopen hmark =>
    have hclosed : (read a n inside).bind (closedBy .curly) = some (inner, rest) := by
      simp [hinner, closedBy, Bracket.kind]
    simp only [List.cons_append, List.nil_append, read, hopen, List.head?_cons, Option.map_some, hmark,
      Option.getD_some, and_self, if_true, List.tail_cons]
    rw [hclosed]
    simp [hmore, Bracket.shape]

theorem read_quote (hinner : readText a n inside = some (inner, rest))
    (hmore : read a n rest = some (more, stop)) :
    read a (n + 1) ('"' :: inside) = some (.atom (.text (spans inner)) :: more, stop) := by
  simp [read, ListKind.ofOpener?, ListKind.ofCloser?, hinner, hmore]

theorem readText_quote : readText a (n + 1) ('"' :: cs) = some ([], cs) := by
  simp [readText]

theorem readText_char (hquote : c ≠ '"') (hescape : c ≠ '\\')
    (hembed : c = '$' → cs.head? ≠ some '\x7b') (hmore : readText a n cs = some (more, rest)) :
    readText a (n + 1) (c :: cs) = some (.char c :: more, rest) := by
  have : ¬(c = '$' ∧ cs.head? = some '\x7b') := fun h => hembed h.1 h.2
  simp [readText, hquote, hescape, this, hmore]

theorem readText_escape (hmore : readText a n cs = some (more, rest)) :
    readText a (n + 1) ('\\' :: c :: cs) = some (.char (Draft.unescape c) :: more, rest) := by
  simp [readText, hmore]

theorem readText_embed (hinner : read a n inside = some (inner, some (.curly, rest)))
    {rest' : List Char} (hmore : readText a n rest = some (more, rest')) :
    readText a (n + 1) ('$' :: '\x7b' :: inside) = some (.atom (embedded a inner) :: more, rest') := by
  simp [readText, hinner, hmore, closedBy]

end Piece

namespace Stage

variable {a : Alphabet} {s' : Stage} {cs rest cs' : List Char} {x : Piece}

/-- Reading goes on after one more piece of the contents of a bracket. -/
theorem Adds.contents {inTable : Bool} {L L' : Level} (hlen : rest.length < cs.length)
    (hshows : ∀ {before P}, L.Shows a inTable before P → ∃ P', L'.Shows a inTable (before ++ [x]) P')
    (hread : ∀ {n more stop}, cs.length ≤ n + 1 → Piece.read a n rest = some (more, stop) →
      Piece.read a (n + 1) cs = some (x :: more, stop))
    (h : (Stage.contents inTable L').Adds a rest s' cs') :
    (Stage.contents inTable L).Adds a cs s' cs' := by
  cases s' with
  | literal => exact h.elim
  | contents inTable' M =>
    refine ⟨h.1, fun before P hL => ?_⟩
    obtain ⟨P', hL'⟩ := hshows hL
    obtain ⟨pieces, Q, hM, hpieces⟩ := h.2 hL'
    refine ⟨x :: pieces, Q, by simpa using hM, fun n stop hn hstop => ?_⟩
    obtain ⟨m, rfl⟩ := Nat.exists_eq_succ_of_ne_zero (show n ≠ 0 by omega)
    exact hread hn (hpieces (by omega) hstop)

/-- Reading goes on after one more piece of a string literal. -/
theorem Adds.literal {T T' : Literal} (hlen : rest.length < cs.length)
    (hshows : ∀ {before}, T.Shows before → T'.Shows (before ++ [x]))
    (hread : ∀ {n more after}, cs.length ≤ n + 1 → Piece.readText a n rest = some (more, after) →
      Piece.readText a (n + 1) cs = some (x :: more, after))
    (h : (Stage.literal T').Adds a rest s' cs') : (Stage.literal T).Adds a cs s' cs' := by
  cases s' with
  | contents => exact h.elim
  | literal U =>
    intro before hT
    obtain ⟨pieces, hU, hpieces⟩ := h (hshows hT)
    refine ⟨x :: pieces, by simpa using hU, fun n after hn hafter => ?_⟩
    obtain ⟨m, rfl⟩ := Nat.exists_eq_succ_of_ne_zero (show n ≠ 0 by omega)
    exact hread hn (hpieces (by omega) hafter)

end Stage

/-- Reading a text and cutting it up show the same. -/
theorem Reads.adds {a : Alphabet} {s s' : Stage} {pos pos' : Nat} {cs cs' : List Char}
    (h : Reads a s pos cs s' pos' cs') : s.Adds a cs s' cs' := by
  induction h with
  | @done s pos cs =>
    cases s with
    | contents inTable L =>
      refine ⟨rfl, fun before P hL => ⟨[], P, by simpa using hL, fun n stop hn hstop => ?_⟩⟩
      cases hstop with
      | ended => exact Piece.read_nil n
      | closed hclose =>
        obtain ⟨m, rfl⟩ := Nat.exists_eq_succ_of_ne_zero (Nat.ne_zero_of_lt hn)
        exact Piece.read_closer hclose
    | literal T =>
      refine fun before hT => ⟨[], by simpa using hT, fun n rest hn hrest => ?_⟩
      subst hrest
      obtain ⟨m, rfl⟩ := Nat.exists_eq_succ_of_ne_zero (Nat.ne_zero_of_lt hn)
      exact Piece.readText_quote
  | @plain inTable L L' c s' pos pos' cs cs' hread hmore ih =>
    refine ih.contents (x := .char c) (by simp) (fun hL => hL.read? hread) fun _ hrest => ?_
    exact Piece.read_char hread hrest
  -- Contents are read with what is left of the bound, which exceeds the length of the text after
  -- the opening delimiter.
  | @bracket inTable L inner b c s' pos stop pos' opening inside rest cs' hopen hinner hclose hmore
      ihinner ihmore =>
    obtain ⟨pieces, P, hpieces, hread⟩ := ihinner.2 (.nothing _)
    obtain ⟨between, rfl, -⟩ := hinner.exists_between
    have hpos := hopen.length_pos
    refine ihmore.contents ?_ (fun hL => ⟨_, hL.fill _ _ _ _⟩) fun hn hrest => ?_
    · simp only [List.length_append, List.length_cons]
      omega
    · rw [hpieces.shape_tree]
      refine Piece.read_bracket hopen (hread ?_ (.closed hclose)) hrest
      simp only [List.length_append] at hn ⊢
      omega
  | @quoted inTable L T s' pos stop pos' inside rest cs' hinner hmore ihinner ihmore =>
    obtain ⟨pieces, hpieces, hread⟩ := ihinner (.nothing _)
    obtain ⟨between, rfl, -⟩ := hinner.exists_between
    refine ihmore.contents ?_ (fun hL => ⟨_, hL.fill _ _ _ _⟩) fun hn hrest => ?_
    · simp only [List.length_append, List.length_cons]
      omega
    · rw [Tree.shape_text, List.map_reverse, ← hpieces.spans]
      exact Piece.read_quote (hread (by simpa using hn) rfl) hrest
  | @char T c s' pos pos' cs cs' hquote hescape hembed hmore ih =>
    refine ih.literal (x := .char c) (by simp) (fun hT => hT.char c) fun _ hrest => ?_
    exact Piece.readText_char hquote hescape hembed hrest
  | @escape T c s' pos pos' cs cs' hmore ih =>
    refine ih.literal (by simp +arith) (fun hT => hT.char _) fun _ hrest => ?_
    exact Piece.readText_escape hrest
  | @embed T L s' pos stop pos' inside rest cs' hinner hitems hmore ihinner ihmore =>
    obtain ⟨pieces, P, hpieces, hread⟩ := ihinner.2 (.nothing _)
    obtain ⟨between, rfl, -⟩ := hinner.exists_between
    refine ihmore.literal ?_ (fun hT => hT.embed hpieces _) fun hn hrest => ?_
    · simp only [List.length_append, List.length_cons]
      omega
    · refine Piece.readText_embed (hread ?_ (.closed rfl)) hrest
      simp only [List.length_cons] at hn
      omega

/-! ## Syntax trees -/

theorem forall₂_iff_eq_map {α β : Type} {R : α → β → Prop} {f : α → β} {l : List α} {l' : List β}
    (h : ∀ x ∈ l, ∀ y, R x y ↔ y = f x) : List.Forall₂ R l l' ↔ l' = l.map f := by
  induction l generalizing l' with
  | nil => simp
  | cons x l ih =>
    obtain ⟨hx, hl⟩ := List.forall_mem_cons.1 h
    simp [List.forall₂_cons_left_iff, hx, ih hl]

namespace Cst

variable {cst : Cst} {l : Loc} {s : Shape}

namespace Shows

theorem id_iff {text : String} (hnode : cst.node? l = some (.id text)) :
    cst.Shows l s ↔ s = .id text := by
  refine ⟨fun h => ?_, fun h => h ▸ .id hnode⟩
  cases h <;> simp_all

theorem text_iff {spans : List (TextSpan Loc)} (hnode : cst.node? l = some (.text spans)) :
    cst.Shows l s ↔
      ∃ shapes, List.Forall₂ (TextSpan.Rel cst.Shows) spans shapes ∧ s = .text shapes := by
  refine ⟨fun h => ?_, fun ⟨_, hspans, h⟩ => h ▸ .text hnode hspans⟩
  cases h <;> simp_all

theorem list_iff {kind : ListKind} {children : List Loc} {multiline : Bool}
    (hnode : cst.node? l = some (.list kind children multiline)) :
    cst.Shows l s ↔ ∃ shapes, List.Forall₂ cst.Shows children shapes ∧ s = .list kind shapes := by
  refine ⟨fun h => ?_, fun ⟨_, hchildren, h⟩ => h ▸ .list hnode hchildren⟩
  cases h <;> simp_all

theorem table_iff {kind : ListKind} {rows : List (List Loc)} {multiline : Bool}
    (hnode : cst.node? l = some (.table kind rows multiline)) :
    cst.Shows l s ↔
      ∃ shapes, List.Forall₂ (List.Forall₂ cst.Shows) rows shapes ∧ s = .table kind shapes := by
  refine ⟨fun h => ?_, fun ⟨_, hrows, h⟩ => h ▸ .table hnode hrows⟩
  cases h <;> simp_all

end Shows

/-- A syntax tree that has all nodes of a tree shows its shape, and no other. -/
theorem shows_iff_of_holds (t : Tree) (h : ∀ x ∈ t.nodes, cst.Holds x) (s : Shape) :
    cst.Shows t.loc s ↔ s = t.shape := by
  induction t using Tree.induction generalizing s with
  | h t ih =>
    -- The nodes of a child are among those of the tree.
    have hchild (child : Tree) (hmem : child ∈ t.children) (s : Shape) :
        cst.Shows child.loc s ↔ s = child.shape := by
      refine ih child hmem (fun x hx => h x ?_) s
      rw [Tree.nodes_eq]
      exact List.mem_cons_of_mem _ (List.mem_flatMap.2 ⟨child, hmem, hx⟩)
    obtain ⟨multiline, hnode⟩ := h t t.mem_nodes_self
    have hnode : cst.node? t.loc = some (t.node multiline) := by
      rw [node?, hnode, Option.map_some]
    cases t with
    | id => rw [Shows.id_iff hnode, Tree.shape_id]
    | text l r spans =>
      have hspan (span : TextSpan Tree) (hmem : span ∈ spans) (x : TextSpan Shape) :
          TextSpan.Rel cst.Shows (span.map Tree.loc) x ↔ x = span.map Tree.shape := by
        cases span with
        | text s => exact ⟨fun h => by cases h; rfl, fun h => h ▸ .text s⟩
        | embed item =>
          have hitem := hchild item (List.mem_filterMap.2 ⟨_, hmem, rfl⟩)
          exact ⟨fun h => by cases h with | embed h => rw [(hitem _).1 h]; rfl,
            fun h => h ▸ .embed ((hitem _).2 rfl)⟩
      simp [Shows.text_iff hnode, List.forall₂_map_left_iff, forall₂_iff_eq_map hspan]
    | list l r kind children =>
      have hmember (child : Tree) (hmem : child ∈ children) := hchild child hmem
      simp [Shows.list_iff hnode, List.forall₂_map_left_iff, forall₂_iff_eq_map hmember]
    | table l r rows =>
      have hrow (row : List Tree) (hmem : row ∈ rows) (x : List Shape) :
          List.Forall₂ (fun cell => cst.Shows cell.loc) row x ↔ x = row.map Tree.shape :=
        forall₂_iff_eq_map fun cell hcell => hchild cell (List.mem_flatten.2 ⟨row, hmem, hcell⟩)
      simp [Shows.table_iff hnode, List.forall₂_map_left_iff, forall₂_iff_eq_map hrow]

theorem MadeOf.shows_roots_iff {src : List Char} {forest spares : List Tree}
    (h : cst.MadeOf src forest spares) (shapes : List Shape) :
    List.Forall₂ cst.Shows cst.roots shapes ↔ shapes = forest.map Tree.shape := by
  rw [h.roots, List.forall₂_map_left_iff]
  refine forall₂_iff_eq_map fun t ht => shows_iff_of_holds t fun x hx => h.holds x ?_
  exact List.mem_append_left _ (List.mem_flatMap.2 ⟨t, ht, hx⟩)

/-- The trees below the roots of a syntax tree have the shapes found by cutting up the source, and no
others. -/
theorem roots_show_source {a : Alphabet} {src : List Char} (h : Cst.lex a src = .ok cst) :
    ∃ shapes, Shape.ofSource? a src = some shapes ∧
      ∀ shapes', List.Forall₂ cst.Shows cst.roots shapes' ↔ shapes' = shapes := by
  obtain ⟨L, stop, hreads, hmade⟩ := exists_reads h
  obtain ⟨-, hadds⟩ := hreads.adds
  obtain ⟨pieces, P, hshows, hread⟩ := hadds (Level.Shows.nothing 1)
  have hmembers : L.members.map Tree.shape = Piece.members a pieces := hshows.shape_members
  refine ⟨Piece.members a pieces, ?_, ?_⟩
  · rw [Shape.ofSource?, hread le_rfl .ended]
  · rw [← hmembers]
    exact hmade.shows_roots_iff

/-- A word of three atoms that touch, one of them a string literal with an embedded expression, and a
table of two rows: `f="\n${x}",{:a b:;c}`. -/
def mixedSource : List Char := "f=\"\\n$\x7bx\x7d\",\x7b:a b:;c\x7d".toList

theorem roots_show_source_mixed :
    ∃ cst, Cst.lex .js mixedSource = .ok cst ∧
      ∀ shapes, List.Forall₂ cst.Shows cst.roots shapes ↔ shapes =
        [.list .smooshed [.id "f", .id "=", .text [.text "\n", .embed (.id "x")]],
          .table .curly [[.list .spaced [.id "a", .id "b"]], [.id "c"]]] := by
  obtain ⟨cst, hlex⟩ : ∃ cst, Cst.lex .js mixedSource = .ok cst := ⟨_, rfl⟩
  obtain ⟨shapes, hsource, hshows⟩ := roots_show_source hlex
  obtain rfl := Option.some.inj (hsource.symm.trans rfl)
  exact ⟨cst, hlex, hshows⟩

end Cst

end TypeTrace
