import TypeTrace.Proofs.Shape

/-!
# Reading source text into trees

A draft keeps a tree in a store of nodes, and lists grow while other nodes refer to them.  Here the
same reading is described on trees: the contents of a bracket are read from left to right, and a
bracket or string literal inside is read as a whole before it becomes a part of them.  Trees keep
the places and positions of their nodes, so that they determine the store.

## Main definitions

* `Tree`: syntax trees with places and positions
* `Level`: the contents of a bracket up to some point; `Literal`: those of a string literal
* `Reads`: reading leads from one point of the source to another
-/

namespace TypeTrace

namespace TextSpan

variable {α β : Type}

/-- The embedded expression. -/
def item? : TextSpan α → Option α
  | text _ => none
  | embed item => some item

/-- Change the embedded expression. -/
def map (f : α → β) : TextSpan α → TextSpan β
  | text s => text s
  | embed item => embed (f item)

@[simp] theorem item?_text (s : String) : (text s : TextSpan α).item? = none := rfl

@[simp] theorem item?_embed (item : α) : (embed item).item? = some item := rfl

@[simp] theorem item?_map (f : α → β) (span : TextSpan α) : (span.map f).item? = span.item?.map f := by
  cases span <;> rfl

end TextSpan

/-! ## Trees -/

/-- A syntax tree, every node of which has a place and covers some bytes. -/
inductive Tree where
  | id (loc : Loc) (span : Span) (text : String)
  | text (loc : Loc) (span : Span) (spans : List (TextSpan Tree))
  | list (loc : Loc) (span : Span) (kind : ListKind) (children : List Tree)
  | table (loc : Loc) (span : Span) (rows : List (List Tree))

namespace Tree

/-- The place of the topmost node. -/
def loc : Tree → Loc
  | id loc .. | text loc .. | list loc .. | table loc .. => loc

/-- The bytes of the topmost node. -/
def span : Tree → Span
  | id _ span _ | text _ span _ | list _ span .. | table _ span _ => span

/-- The trees below the topmost node, in source order. -/
def children : Tree → List Tree
  | id .. => []
  | text _ _ spans => spans.filterMap TextSpan.item?
  | list _ _ _ children => children
  | table _ _ rows => rows.flatten

theorem sizeOf_lt_of_mem_children {t child : Tree} (h : child ∈ t.children) :
    sizeOf child < sizeOf t := by
  cases t with
  | id => simp [children] at h
  | text loc span spans =>
    obtain ⟨s, hs, hitem⟩ := List.mem_filterMap.1 h
    cases s with
    | text => simp [TextSpan.item?] at hitem
    | embed item =>
      obtain rfl : item = child := by simpa [TextSpan.item?] using hitem
      have := List.sizeOf_lt_of_mem hs
      simp only [text.sizeOf_spec, TextSpan.embed.sizeOf_spec] at this ⊢
      omega
  | list loc span kind children =>
    have := List.sizeOf_lt_of_mem (show child ∈ children from h)
    simp only [list.sizeOf_spec]
    omega
  | table loc span rows =>
    obtain ⟨row, hrow, hcell⟩ := List.mem_flatten.1 h
    have := List.sizeOf_lt_of_mem hcell
    have := List.sizeOf_lt_of_mem hrow
    simp only [table.sizeOf_spec]
    omega

/-- What holds of a tree if it holds of the trees right below holds of all trees. -/
theorem induction {P : Tree → Prop} (h : ∀ t, (∀ child ∈ t.children, P child) → P t) (t : Tree) :
    P t :=
  h t fun child _ => induction h child
termination_by sizeOf t
decreasing_by exact sizeOf_lt_of_mem_children ‹_›

/-- The tree and all trees below it. -/
def nodes (t : Tree) : List Tree :=
  t :: t.children.attach.flatMap fun child => nodes child.1
termination_by sizeOf t
decreasing_by exact sizeOf_lt_of_mem_children child.2

theorem nodes_eq (t : Tree) : t.nodes = t :: t.children.flatMap nodes := by
  rw [nodes]
  simp [List.flatMap_subtype]

theorem mem_nodes_self (t : Tree) : t ∈ t.nodes := by
  rw [nodes_eq]
  exact List.mem_cons_self

theorem nodes_of_leaf {t : Tree} (hleaf : t.children = []) : t.nodes = [t] := by
  rw [nodes_eq, hleaf, List.flatMap_nil]

/-- The shape of a tree. -/
def shape : Tree → Shape
  | id _ _ s => .id s
  | text _ _ spans => .text (spans.attach.map fun
    | ⟨.text s, _⟩ => .text s
    | ⟨.embed item, _⟩ => .embed item.shape)
  | list _ _ kind children => .list kind (children.map shape)
  | table _ _ rows => .table .curly (rows.map (·.map shape))
decreasing_by
  · exact sizeOf_lt_of_mem_children (List.mem_filterMap.2 ⟨_, ‹_›, rfl⟩)
  · exact sizeOf_lt_of_mem_children ‹_›
  · exact sizeOf_lt_of_mem_children (List.mem_flatten.2 ⟨_, ‹_›, ‹_›⟩)

@[simp] theorem shape_id (l : Loc) (r : Span) (s : String) : (id l r s).shape = .id s := by
  rw [shape]

@[simp] theorem shape_text (l : Loc) (r : Span) (spans : List (TextSpan Tree)) :
    (text l r spans).shape = .text (spans.map (TextSpan.map shape)) := by
  rw [shape, ← List.attach_map_val (l := spans)]
  congr 1
  refine List.map_congr_left fun s _ => ?_
  obtain ⟨s | item, _⟩ := s <;> rfl

@[simp] theorem shape_list (l : Loc) (r : Span) (kind : ListKind) (ts : List Tree) :
    (list l r kind ts).shape = .list kind (ts.map shape) := by
  rw [shape]

@[simp] theorem shape_table (l : Loc) (r : Span) (rows : List (List Tree)) :
    (table l r rows).shape = .table .curly (rows.map (·.map shape)) := by
  rw [shape]

/-- The list around some trees, the latest of which comes first. -/
def wrap (loc : Loc) (kind : ListKind) (parts : List Tree) : Tree :=
  list loc ⟨(parts.getLast?.map (·.span.start)).getD 0, (parts.head?.map (·.span.stop)).getD 0⟩ kind
    parts.reverse

end Tree

/-! ## Contents of brackets -/

/-- The contents of a bracket up to some point.  What has been read last comes first everywhere. -/
structure Level where
  /-- The place that the next node gets. -/
  next : Loc
  /-- The finished rows, if the bracket is that of a table. -/
  above : List (List Tree) := []
  /-- The finished items, of the latest row if the bracket is that of a table. -/
  items : List Tree := []
  /-- The finished words of the current item. -/
  words : List Tree := []
  /-- The atoms of the current word. -/
  atoms : List Tree := []
  /-- The place of the list around the current item, once a word of it is finished. -/
  spaced : Loc := 0
  /-- The place of the list around the current word, once it has two atoms. -/
  smooshed : Loc := 0
  /-- The class of the latest atom, if another character may extend it. -/
  run : Option Nat := none
  /-- Lists that have a node, but gave way to the only tree in them. -/
  spares : List Tree := []

namespace Level

variable (L : Level)

/-- End the current word.  It becomes one atom, and nothing extends it. -/
def settleWord : Level :=
  match L.atoms with
  | _ :: _ :: _ => { L with run := none, atoms := [.wrap L.smooshed .smooshed L.atoms] }
  | _ => { L with run := none }

/-- End the current item, the last word of which has ended.  It becomes one atom. -/
def settleItem : Level :=
  match L.words, L.atoms ++ L.words with
  | [], _ => L
  | _, [only] =>
    { L with words := [], atoms := [only], spares := .wrap L.spaced .spaced [only] :: L.spares }
  | _, parts => { L with words := [], atoms := [.wrap L.spaced .spaced parts] }

/-- End the current word and item. -/
def settle : Level := L.settleWord.settleItem

/-- Read a separator. -/
def separate : Level := { L.settle with items := L.settle.atoms ++ L.settle.items, atoms := [] }

/-- Read the end of a row. -/
def endRow : Level :=
  { L.separate with above := L.separate.items :: L.separate.above, items := [] }

/-- Leave a blank after the current word, if there is one. -/
def pause : Level :=
  match L.atoms, L.words with
  | [], _ => L
  | atoms, [] => { L with words := atoms, atoms := [], spaced := L.next, next := L.next + 1 }
  | atoms, words => { L with words := atoms ++ words, atoms := [] }

/-- Read a blank. -/
def space : Level := L.settleWord.pause

/-- Place a tree after what is there.  It has the next place, and a list around it and the atom
before it, if that is needed now, the one after. -/
def place (t : Tree) : Level :=
  match L.atoms with
  | [first] =>
    { L with atoms := [t, first], smooshed := L.next + 1, next := L.next + 2, run := none }
  | atoms => { L with atoms := t :: atoms, next := L.next + 1, run := none }

/-- Put a tree in the place of the latest atom, whose inside has now been read. -/
def fill (t : Tree) (next : Loc) (spares : List Tree) : Level :=
  { L with atoms := t :: L.atoms.tail, next, spares := spares ++ L.spares }

/-- Read a character of a word. -/
def glyph (pos : Nat) (c : Char) (cls : Nat) : Level :=
  let fresh := { L.place (.id L.next ⟨pos, pos + c.utf8Size⟩ c.toString) with run := some cls }
  match L.run, L.atoms with
  | some current, .id loc span text :: atoms =>
    if current = cls then
      { L with atoms := .id loc ⟨span.start, pos + c.utf8Size⟩ (text.push c) :: atoms }
    else fresh
  | _, _ => fresh

/-- The members of a list that ends here. -/
def members : List Tree := L.separate.items.reverse

/-- The rows of a table that ends here. -/
def rows : List (List Tree) := (L.endRow.above.reverse.map List.reverse).filter (!·.isEmpty)

end Level

/-- A string literal up to some point.  What has been read last comes first. -/
structure Literal where
  /-- The place that the next node gets. -/
  next : Loc
  /-- The pieces of text so far. -/
  spans : List (TextSpan Tree) := []
  /-- Lists that have a node, but gave way to the only tree in them. -/
  spares : List Tree := []

namespace Literal

variable (T : Literal)

/-- Read a character that stands for itself, or an escape for it. -/
def char (c : Char) : Literal :=
  match T.spans with
  | .text s :: spans => { T with spans := .text (s.push c) :: spans }
  | spans => { T with spans := .text c.toString :: spans }

/-- The list of the items of an embedded expression. -/
def items (span : Span) (L : Level) : Tree := .list T.next span .curly L.members

/-- Read an embedded expression with the given contents.  One item is embedded itself, several as the
list of them. -/
def embed (span : Span) (L : Level) : Literal :=
  match L.members with
  | [only] =>
    { next := L.next, spans := .embed only :: T.spans,
      spares := T.items span L :: (L.separate.spares ++ T.spares) }
  | _ =>
    { next := L.next, spans := .embed (T.items span L) :: T.spans,
      spares := L.separate.spares ++ T.spares }

end Literal

/-! ## Reading -/

/-- What a character does inside a bracket. -/
inductive CharRole where
  | opens (kind : ListKind)
  | closes (kind : ListKind)
  | quotes
  | endsRow
  | separates
  | blank
  | word (cls : Nat)
deriving DecidableEq

/-- What a character does inside the bracket of a table, or inside another bracket. -/
def Alphabet.role (a : Alphabet) (inTable : Bool) (c : Char) : CharRole :=
  match ListKind.ofOpener? c, ListKind.ofCloser? c with
  | some kind, _ => .opens kind
  | none, some kind => .closes kind
  | none, none =>
    if c = '"' then .quotes
    else if inTable ∧ a.tableRow.contains c then .endsRow
    else if inTable ∧ a.tableCol.contains c then .separates
    else if a.sep.contains c then .separates
    else if a.space.contains c then .blank
    else .word (a.classOf c)

theorem ListKind.closer_cases {kind : ListKind} {c : Char} (h : ListKind.ofCloser? c = some kind) :
    ListKind.ofOpener? c = none ∧ c.utf8Size = 1 := by
  unfold ofCloser? at h
  split at h <;> first | exact ⟨rfl, rfl⟩ | cases h

theorem ListKind.eq_of_ofCloser?_curly {c : Char} (h : ListKind.ofCloser? c = some .curly) :
    c = '\x7d' := by
  unfold ofCloser? at h
  split at h <;> first | rfl | cases h

theorem Alphabet.ofOpener?_of_role {a : Alphabet} {inTable : Bool} {c : Char} {kind : ListKind}
    (h : a.role inTable c = .opens kind) : ListKind.ofOpener? c = some kind := by
  unfold role at h
  split at h
  · simp_all
  · simp at h
  · split_ifs at h

theorem Alphabet.ofCloser?_of_role {a : Alphabet} {inTable : Bool} {c : Char} {kind : ListKind}
    (h : a.role inTable c = .closes kind) : ListKind.ofCloser? c = some kind := by
  unfold role at h
  split at h
  · simp at h
  · simp_all
  · split_ifs at h

theorem Alphabet.eq_of_role_quotes {a : Alphabet} {inTable : Bool} {c : Char}
    (h : a.role inTable c = .quotes) : c = '"' := by
  unfold role at h
  split at h
  · simp at h
  · simp at h
  · split_ifs at h
    assumption

theorem Alphabet.role_false_ne_endsRow (a : Alphabet) (c : Char) : a.role false c ≠ .endsRow := by
  unfold role
  split
  · simp
  · simp
  · split_ifs <;> simp_all

/-- What a character does to the contents of a bracket, if it is not itself a bracket or quote. -/
def Level.read? (L : Level) (pos : Nat) (c : Char) : CharRole → Option Level
  | .endsRow => some L.endRow
  | .separates => some L.separate
  | .blank => some L.space
  | .word cls => some (L.glyph pos c cls)
  | .opens _ | .closes _ | .quotes => none

/-- The brackets whose contents are read: those of lists and of tables. -/
inductive Bracket where
  | list (kind : ListKind)
  | table
deriving DecidableEq

namespace Bracket

/-- The kind of the closing bracket. -/
def kind : Bracket → ListKind
  | list kind => kind
  | table => .curly

/-- The bracket is that of a table. -/
def isTable : Bracket → Bool
  | list _ => false
  | table => true

/-- The tree of a bracket with nothing inside so far. -/
def stub (loc : Loc) (pos : Nat) : Bracket → Tree
  | list kind => .list loc ⟨pos, pos + 1⟩ kind []
  | table => .table loc ⟨pos, pos + 2⟩ []

/-- The tree of a bracket with the given contents. -/
def tree (loc : Loc) (span : Span) (L : Level) : Bracket → Tree
  | list kind => .list loc span kind L.members
  | table => .table loc span L.rows

section

variable (b : Bracket) (l : Loc) (pos : Nat) (r : Span) (L : Level)

@[simp] theorem loc_stub : (b.stub l pos).loc = l := by
  cases b <;> rfl

@[simp] theorem start_stub : (b.stub l pos).span.start = pos := by
  cases b <;> rfl

@[simp] theorem children_stub : (b.stub l pos).children = [] := by
  cases b <;> rfl

@[simp] theorem loc_tree : (b.tree l r L).loc = l := by
  cases b <;> rfl

@[simp] theorem span_tree : (b.tree l r L).span = r := by
  cases b <;> rfl

end

/-- A text begins a bracket, if another text follows. -/
inductive Opens (a : Alphabet) : Bracket → List Char → List Char → Prop
  | list {c : Char} {kind : ListKind} {inside : List Char} (hopen : ListKind.ofOpener? c = some kind)
    (hmark : kind = .curly → ∀ mark ∈ inside.head?, a.tableNew.contains mark = false) :
    Opens a (.list kind) [c] inside
  | table {c mark : Char} {inside : List Char} (hopen : ListKind.ofOpener? c = some .curly)
    (hmark : a.tableNew.contains mark = true) :
    Opens a .table [c, mark] inside

theorem Opens.length_pos {a : Alphabet} {b : Bracket} {opening inside : List Char}
    (h : b.Opens a opening inside) : 0 < opening.length := by
  cases h <;> simp

/-- A text that starts with an opening bracket begins a bracket. -/
theorem exists_opens (a : Alphabet) {c : Char} {kind : ListKind}
    (hopen : ListKind.ofOpener? c = some kind) (cs : List Char) :
    ∃ b opening inside, c :: cs = opening ++ inside ∧ Opens a b opening inside := by
  by_cases htable : kind = .curly ∧ ∃ mark ∈ cs.head?, a.tableNew.contains mark = true
  · obtain ⟨rfl, mark, hhead, hmark⟩ := htable
    obtain ⟨inside, rfl⟩ := List.head?_eq_some_iff.1 hhead
    exact ⟨.table, [c, mark], inside, rfl, .table hopen hmark⟩
  · refine ⟨.list kind, [c], cs, rfl, .list hopen fun hkind mark hhead => ?_⟩
    exact Bool.eq_false_iff.2 fun hmark => htable ⟨hkind, mark, hhead, hmark⟩

end Bracket

/-- What is being read: the contents of a bracket, of a table or not, or a string literal. -/
inductive Stage where
  | contents (inTable : Bool) (L : Level)
  | literal (T : Literal)

/-- Reading leads from one point to another, inside the same bracket or string literal.  A point is
given by what is being read, the position, and the text that follows. -/
inductive Reads (a : Alphabet) : Stage → Nat → List Char → Stage → Nat → List Char → Prop
  | done {s : Stage} {pos : Nat} {cs : List Char} : Reads a s pos cs s pos cs
  | plain {inTable : Bool} {L L' : Level} {c : Char} {s' : Stage} {pos pos' : Nat}
    {cs cs' : List Char} (hread : L.read? pos c (a.role inTable c) = some L')
    (hmore : Reads a (.contents inTable L') (pos + c.utf8Size) cs s' pos' cs') :
    Reads a (.contents inTable L) pos (c :: cs) s' pos' cs'
  | bracket {inTable : Bool} {L inner : Level} {b : Bracket} {c : Char} {s' : Stage}
    {pos stop pos' : Nat} {opening inside rest cs' : List Char}
    (hopen : b.Opens a opening inside)
    (hinner : Reads a (.contents b.isTable { next := (L.place (b.stub L.next pos)).next })
      (pos + Text.byteLength opening) inside (.contents b.isTable inner) stop (c :: rest))
    (hclose : ListKind.ofCloser? c = some b.kind)
    (hmore : Reads a (.contents inTable ((L.place (b.stub L.next pos)).fill
      (b.tree L.next ⟨pos, stop + 1⟩ inner) inner.next inner.separate.spares)) (stop + 1) rest
      s' pos' cs') :
    Reads a (.contents inTable L) pos (opening ++ inside) s' pos' cs'
  | quoted {inTable : Bool} {L : Level} {T : Literal} {s' : Stage} {pos stop pos' : Nat}
    {inside rest cs' : List Char}
    (hinner : Reads a (.literal { next := (L.place (.text L.next ⟨pos, pos + 1⟩ [])).next })
      (pos + 1) inside (.literal T) stop ('"' :: rest))
    (hmore : Reads a (.contents inTable ((L.place (.text L.next ⟨pos, pos + 1⟩ [])).fill
      (.text L.next ⟨pos, stop + 1⟩ T.spans.reverse) T.next T.spares)) (stop + 1) rest
      s' pos' cs') :
    Reads a (.contents inTable L) pos ('"' :: inside) s' pos' cs'
  | char {T : Literal} {c : Char} {s' : Stage} {pos pos' : Nat} {cs cs' : List Char}
    (hquote : c ≠ '"') (hescape : c ≠ '\\') (hembed : c = '$' → cs.head? ≠ some '\x7b')
    (hmore : Reads a (.literal (T.char c)) (pos + c.utf8Size) cs s' pos' cs') :
    Reads a (.literal T) pos (c :: cs) s' pos' cs'
  | escape {T : Literal} {c : Char} {s' : Stage} {pos pos' : Nat} {cs cs' : List Char}
    (hmore : Reads a (.literal (T.char (Draft.unescape c))) (pos + 1 + c.utf8Size) cs s' pos' cs') :
    Reads a (.literal T) pos ('\\' :: c :: cs) s' pos' cs'
  | embed {T : Literal} {L : Level} {s' : Stage} {pos stop pos' : Nat} {inside rest cs' : List Char}
    (hinner : Reads a (.contents false { next := T.next + 1 }) (pos + 2) inside
      (.contents false L) stop ('\x7d' :: rest))
    (hitems : L.members ≠ [])
    (hmore : Reads a (.literal (T.embed ⟨pos, stop + 1⟩ L)) (stop + 1) rest s' pos' cs') :
    Reads a (.literal T) pos ('$' :: '\x7b' :: inside) s' pos' cs'

/-- The text between two points ends where the second one is. -/
theorem Reads.exists_between {a : Alphabet} {s s' : Stage} {pos pos' : Nat} {cs cs' : List Char}
    (h : Reads a s pos cs s' pos' cs') :
    ∃ between, cs = between ++ cs' ∧ pos' = pos + Text.byteLength between := by
  induction h with
  | done => exact ⟨[], rfl, rfl⟩
  | @plain _ _ _ c _ _ _ _ _ _ _ ih =>
    obtain ⟨more, rfl, rfl⟩ := ih
    exact ⟨c :: more, rfl, by simp only [Text.byteLength]; omega⟩
  | @bracket _ _ _ _ c _ _ _ _ opening _ _ _ _ _ hclose _ ihinner ihmore =>
    obtain ⟨inner, rfl, rfl⟩ := ihinner
    obtain ⟨more, rfl, rfl⟩ := ihmore
    refine ⟨opening ++ (inner ++ c :: more), by simp, ?_⟩
    simp only [Text.byteLength_append, Text.byteLength, (ListKind.closer_cases hclose).2]
    omega
  | quoted _ _ ihinner ihmore =>
    obtain ⟨inner, rfl, rfl⟩ := ihinner
    obtain ⟨more, rfl, rfl⟩ := ihmore
    refine ⟨'"' :: (inner ++ '"' :: more), by simp, ?_⟩
    simp only [Text.byteLength_append, Text.byteLength, show '"'.utf8Size = 1 from rfl]
    omega
  | @char _ c _ _ _ _ _ _ _ _ _ ih =>
    obtain ⟨more, rfl, rfl⟩ := ih
    exact ⟨c :: more, rfl, by simp only [Text.byteLength]; omega⟩
  | @escape _ c _ _ _ _ _ _ ih =>
    obtain ⟨more, rfl, rfl⟩ := ih
    refine ⟨'\\' :: c :: more, rfl, ?_⟩
    simp only [Text.byteLength, show '\\'.utf8Size = 1 from rfl]
    omega
  | embed _ _ _ ihinner ihmore =>
    obtain ⟨inner, rfl, rfl⟩ := ihinner
    obtain ⟨more, rfl, rfl⟩ := ihmore
    refine ⟨'$' :: '\x7b' :: (inner ++ '\x7d' :: more), by simp, ?_⟩
    simp only [Text.byteLength_append, Text.byteLength, show '$'.utf8Size = 1 from rfl,
      show '\x7b'.utf8Size = 1 from rfl, show '\x7d'.utf8Size = 1 from rfl]
    omega

end TypeTrace
