import TypeTrace.Proofs.Drafting

/-!
# Well-bracketed sources

Which sources have a syntax tree can be told without building one.  A scan keeps a stack of marks, one
for every bracket, string literal and embedded expression that is open, and looks at nothing else than
brackets, quotes and escapes; only whether something stands in an embedded expression depends on what
other characters are.  A draft has more constructs open than there are marks, since the lists around
words and items open and close on their own.  They come and go inside the innermost bracket, though, and
so every character does to the marks what it does to the draft.

## Main definitions

* `Mark`, `Mark.scan`: open constructs, and the scan for them
* `Alphabet.isGap`: the characters that do not count as contents
* `Draft.Inside`: the constructs open in a draft are those that are marked

## Main results

* `Draft.Inside.step`, `Draft.Inside.readAll`: reading and scanning go along with each other
* `Cst.lex_ok_iff_wellBracketed`: the sources that have a syntax tree are the well-bracketed ones
-/

namespace TypeTrace

/-! ## Marks -/

/-- A construct that is open. -/
inductive Mark where
  | list (kind : ListKind)
  | table
  /-- A string literal. -/
  | text
  /-- An embedded expression, in which something stands or not. -/
  | embed (filled : Bool)
deriving DecidableEq

namespace Mark

/-- Something stands in the innermost construct. -/
def fill : List Mark → List Mark
  | embed _ :: outer => embed true :: outer
  | marks => marks

/-- A closing bracket of the given kind ends the construct. -/
def closedBy (kind : ListKind) : Mark → Bool
  | list opened => kind = opened
  | table => kind = .curly
  | text => false
  | embed filled => kind = .curly && filled

/-- Scan a character inside a string literal, knowing the one after it; `outer` are the marks around the
literal.  The answer says whether the character after it is skipped. -/
def stepText (outer : List Mark) (c : Char) (next : Option Char) : Option (List Mark × Bool) :=
  if c = '"' then some (outer, false)
  else if c = '\\' then next.map fun _ => (text :: outer, true)
  else if c = '$' ∧ next = some '\x7b' then some (embed false :: text :: outer, true)
  else some (text :: outer, false)

variable (opensTable isGap : Char → Bool)

/-- Scan a character outside string literals. -/
def stepPlain (marks : List Mark) (c : Char) (next : Option Char) : Option (List Mark × Bool) :=
  match ListKind.ofOpener? c, ListKind.ofCloser? c with
  | some kind, _ =>
    if kind = .curly ∧ next.any opensTable then some (table :: fill marks, true)
    else some (list kind :: fill marks, false)
  | none, some kind =>
    match marks with
    | [] => none
    | mark :: outer => if mark.closedBy kind then some (outer, false) else none
  | none, none =>
    if c = '"' then some (text :: fill marks, false)
    else if isGap c then some (marks, false)
    else some (fill marks, false)

/-- Scan a character, knowing the one after it. -/
def step (marks : List Mark) (c : Char) (next : Option Char) : Option (List Mark × Bool) :=
  match marks with
  | text :: outer => stepText outer c next
  | marks => stepPlain opensTable isGap marks c next

/-- The marks after all characters of a text, if none of them is out of place. -/
def scan (marks : List Mark) : List Char → Option (List Mark)
  | [] => some marks
  | c :: rest =>
    match step opensTable isGap marks c rest.head? with
    | none => none
    | some (marks, skip) =>
      match skip, rest with
      | true, _ :: rest => scan marks rest
      | _, rest => scan marks rest

/-- Every closing bracket matches, and nothing is open at the end. -/
def wellBracketed (src : List Char) : Bool := scan opensTable isGap [] src = some []

end Mark

/-- The character stands between items or words. -/
def Alphabet.isGap (a : Alphabet) (c : Char) : Bool := a.sep.contains c || a.space.contains c

/-! ## Contents -/

namespace Level

variable {L : Level}

/-- Something has been read inside the bracket. -/
def filled (L : Level) : Bool := L.atoms ++ L.words ++ L.items ≠ []

theorem filled_of_atoms {x : Tree} {xs : List Tree} (h : L.atoms = x :: xs) : L.filled = true := by
  simp [filled, h]

theorem atoms_settleWord_eq_nil : L.settleWord.atoms = [] ↔ L.atoms = [] := by
  unfold settleWord
  split <;> simp_all

theorem atoms_settleItem_eq_nil : L.settleItem.atoms = [] ↔ L.atoms = [] ∧ L.words = [] := by
  unfold settleItem
  split <;> simp_all

theorem atoms_settle_eq_nil : L.settle.atoms = [] ↔ L.atoms = [] ∧ L.words = [] := by
  rw [settle, atoms_settleItem_eq_nil, atoms_settleWord_eq_nil, words_settleWord]

theorem filled_separate : L.separate.filled = L.filled := by
  simp [filled, separate, atoms_settle_eq_nil, and_assoc]

theorem filled_space : L.space.filled = L.filled := by
  simp [filled, atoms_settleWord_eq_nil]

theorem filled_glyph (pos : Nat) (c : Char) (cls : Nat) : (L.glyph pos c cls).filled = true := by
  unfold glyph
  split
  · split
    · exact filled_of_atoms rfl
    · exact filled_of_atoms atoms_place
  · exact filled_of_atoms atoms_place

theorem members_eq_nil_iff : L.members = [] ↔ L.filled = false := by
  rw [← filled_separate]
  simp [members, filled, separate, and_comm]

end Level

/-! ## Open constructs of a draft -/

/-- What is being read, and where. -/
inductive Place where
  | contents (site : Site) (L : Level)
  | literal (spot : Spot) (T : Literal)

/-- The mark of a bracket. -/
def Bracket.mark : Bracket → Mark
  | list kind => .list kind
  | table => .table

namespace Draft

/-- A draft is inside the constructs that are marked.  Around the innermost one stands another draft: the
one that was there before the construct began. -/
inductive Inside : Draft → Place → List Mark → Prop
  | top {d : Draft} {span : Span} {store : Array (Sketch × Span)} {first : Loc} {L : Level}
    (h : d.At ⟨⟨[], top, span, store, first⟩, .list .curly⟩ L) :
    Inside d (.contents ⟨⟨[], top, span, store, first⟩, .list .curly⟩ L) []
  | bracket {d e : Draft} {site : Site} {M L : Level} {b : Bracket} {x : Tree} {xs : List Tree}
    {marks : List Mark} (houter : Inside e (.contents site M) marks) (hM : M.atoms = x :: xs)
    (hrun : M.run = none) (hx : x.children = []) (h : d.At ⟨e.inside x (b.frame x.loc), b⟩ L) :
    Inside d (.contents ⟨e.inside x (b.frame x.loc), b⟩ L) (b.mark :: marks)
  | text {d e : Draft} {site : Site} {M : Level} {T : Literal} {x : Tree} {xs : List Tree}
    {marks : List Mark} (houter : Inside e (.contents site M) marks) (hM : M.atoms = x :: xs)
    (hrun : M.run = none) (hx : x.children = []) (h : d.Spells (e.inside x (.text x.loc)) T) :
    Inside d (.literal (e.inside x (.text x.loc)) T) (.text :: marks)
  | embed {d e : Draft} {spot : Spot} {T : Literal} {L : Level} {pos : Nat} {marks : List Mark}
    (houter : Inside e (.literal spot T) marks) (h : d.At (e.embedded spot.loc pos) L) :
    Inside d (.contents (e.embedded spot.loc pos) L) (.embed L.filled :: marks)

/-- Reading and scanning come to the same: both refuse to go on, or both go on. -/
inductive Agree : Except LexError (Draft × Bool) → Option (List Mark × Bool) → Prop
  | refuse {err : LexError} : Agree (.error err) none
  | proceed {d : Draft} {place : Place} {marks : List Mark} {skip : Bool} (h : d.Inside place marks) :
    Agree (.ok (d, skip)) (some (marks, skip))

namespace Inside

variable {d d' : Draft} {site : Site} {spot : Spot} {L L' : Level} {T T' : Literal}
  {marks : List Mark} {a : Alphabet} {pos : Nat} {c : Char} {next : Option Char}
  {place : Place}

theorem toAt (h : d.Inside (.contents site L) marks) : d.At site L := by
  cases h <;> assumption

theorem spells (h : d.Inside (.literal spot T) marks) : d.Spells spot T := by
  cases h
  assumption

/-- Reading on inside a bracket changes its contents, but not what is open. -/
theorem keep (h : d.Inside (.contents site L) marks) (hat : d'.At site L')
    (hfilled : site.bracket.isTable = false → L'.filled = L.filled) :
    d'.Inside (.contents site L') marks := by
  cases h with
  | top => exact .top hat
  | bracket houter hM hrun hx => exact .bracket houter hM hrun hx hat
  | embed houter => exact hfilled rfl ▸ .embed houter hat

/-- The inside of the latest atom has been read. -/
theorem ended (h : d.Inside (.contents site L) marks) {x t : Tree} {xs : List Tree} {next : Loc}
    {spares : List Tree} (hL : L.atoms = x :: xs) (hat : d'.At site (L.fill t next spares)) :
    d'.Inside (.contents site (L.fill t next spares)) marks :=
  h.keep hat fun _ => (Level.filled_of_atoms rfl).trans (Level.filled_of_atoms hL).symm

theorem respell (h : d.Inside (.literal spot T) marks) (hspells : d'.Spells spot T') :
    d'.Inside (.literal spot T') marks := by
  cases h with
  | text houter hM hrun hx => exact .text houter hM hrun hx hspells

/-- What is read inside a bracket fills it. -/
theorem fill (h : d.Inside (.contents site L) marks) (hat : d'.At site L')
    (hfilled : site.bracket.isTable = false → L'.filled = true) :
    d'.Inside (.contents site L') (Mark.fill marks) := by
  cases h with
  | top => exact .top hat
  | @bracket _ _ _ _ _ b _ _ _ houter hM hrun hx =>
    cases b <;> exact .bracket houter hM hrun hx hat
  | embed houter =>
    -- Only the mark of an embedded expression tells whether something stands inside.
    rw [Mark.fill, ← hfilled rfl]
    exact .embed houter hat

/-- Outside string literals, no string literal is innermost. -/
theorem step_eq (h : d.Inside (.contents site L) marks) (opensTable isGap : Char → Bool) (c : Char)
    (next : Option Char) :
    Mark.step opensTable isGap marks c next = Mark.stepPlain opensTable isGap marks c next := by
  cases h with
  | top => rfl
  | @bracket _ _ _ _ _ b => cases b <;> rfl
  | embed => rfl

/-! ## One character -/

theorem openBracket (h : d.Inside (.contents site L) marks) (b : Bracket) (pos : Nat) :
    ∃ place, (d.openNode (b.sketch [] []) (b.stub L.next pos).span (b.frame ·)).Inside place
      (b.mark :: Mark.fill marks) := by
  -- The bracket itself is an atom of the construct that it stands in.
  obtain ⟨e, hopen, he, hinside⟩ := h.toAt.openBracket b pos rfl
  have houter := h.fill he fun _ => Level.filled_of_atoms Level.atoms_place
  rw [hopen]
  exact ⟨_, .bracket houter Level.atoms_place Level.run_place (by simp) hinside⟩

theorem openQuote (h : d.Inside (.contents site L) marks) (pos : Nat) :
    ∃ place, (d.openNode (.text []) ⟨pos, pos + 1⟩ .text).Inside place (.text :: Mark.fill marks) := by
  obtain ⟨e, hopen, he, hinside⟩ := h.toAt.openQuote pos rfl
  have houter := h.fill he fun _ => Level.filled_of_atoms Level.atoms_place
  rw [show (⟨pos, pos + 1⟩ : Span) = (Tree.text L.next ⟨pos, pos + 1⟩ []).span from rfl, hopen]
  exact ⟨_, .text houter Level.atoms_place Level.run_place rfl hinside⟩

theorem read_open (h : d.Inside (.contents site L) marks) {kind : ListKind}
    (hopen : ListKind.ofOpener? c = some kind) :
    Agree (d.read a pos c next) (Mark.step a.tableNew.contains a.isGap marks c next) := by
  have hrole : a.role site.bracket.isTable c = .opens kind := by
    simp only [Alphabet.role, hopen]
  have hmark : (next.map a.tableNew.contains).getD false = next.any a.tableNew.contains := by
    cases next <;> rfl
  rw [h.step_eq, h.toAt.read_eq, readPlain_eq, h.toAt.inTable_eq, hrole]
  simp only [Mark.stepPlain, hopen, hmark]
  split
  · obtain ⟨place, hinside⟩ := h.openBracket .table pos
    exact .proceed hinside
  · obtain ⟨place, hinside⟩ := h.openBracket (.list kind) pos
    exact .proceed hinside

/-- A closing bracket ends the innermost construct or is out of place. -/
theorem close (h : d.Inside (.contents site L) marks) (kind : ListKind) (pos : Nat) :
    (∃ d' place mark outer, d.close kind pos = .ok d' ∧ marks = mark :: outer ∧
      mark.closedBy kind = true ∧ d'.Inside place outer) ∨
    (∃ err, d.close kind pos = .error err) ∧ ∀ mark ∈ marks.head?, mark.closedBy kind = false := by
  have hend := h.toAt.complete.path
  cases h with
  | top h =>
    refine .inr ⟨⟨.unexpectedClose none kind pos, ?_⟩, by simp⟩
    simp only [Draft.close, hend]
  | @bracket _ _ _ _ _ b _ _ _ houter hM hrun hx h =>
    by_cases hkind : kind = b.kind
    · subst hkind
      obtain ⟨d', hclose, hat⟩ := houter.toAt.close hM hrun hx h pos
      have hmark : b.mark.closedBy b.kind = true := by
        cases b <;> simp [Bracket.mark, Bracket.kind, Mark.closedBy]
      exact .inl ⟨d', _, b.mark, _, hclose, rfl, hmark, houter.ended hM hat⟩
    · refine .inr ⟨h.close_ne_ok hkind pos, ?_⟩
      cases b <;> simpa [Bracket.mark, Mark.closedBy, Bracket.kind] using hkind
  | embed houter h =>
    by_cases hkind : kind = .curly
    · subst hkind
      -- The draft refuses to close an embedded expression without items, as the mark does.
      rcases houter.spells.closeEmbed h pos with ⟨hnil, err, hclose⟩ | ⟨hne, d', hclose, hspells⟩
      · refine .inr ⟨⟨err, hclose⟩, ?_⟩
        simp [Mark.closedBy, Level.members_eq_nil_iff.1 hnil]
      · have hmark : (Mark.embed L.filled).closedBy .curly = true := by
          simpa [Mark.closedBy, Level.members_eq_nil_iff] using hne
        exact .inl ⟨d', _, _, _, hclose, rfl, hmark, houter.respell hspells⟩
    · refine .inr ⟨⟨.unexpectedClose (some .curly) kind pos, ?_⟩, ?_⟩
      · simp only [Draft.close, hend, embedded, inside, hkind, if_false]
      · simp [Mark.closedBy, hkind]

theorem read_close (h : d.Inside (.contents site L) marks) {kind : ListKind}
    (hclose : ListKind.ofCloser? c = some kind) :
    Agree (d.read a pos c next) (Mark.step a.tableNew.contains a.isGap marks c next) := by
  rw [h.step_eq, h.toAt.read_close hclose]
  simp only [Mark.stepPlain, (ListKind.closer_cases hclose).1, hclose]
  rcases h.close kind pos with ⟨d', place, mark, outer, hd', rfl, hmark, hinside⟩ | ⟨⟨err, herr⟩, hmark⟩
  · simp only [hd', hmark, if_true]
    exact .proceed hinside
  · rw [herr]
    rcases marks with _ | ⟨mark, outer⟩
    · exact .refuse
    · simp only [hmark mark rfl]
      exact .refuse

/-- A character that is neither a bracket nor a quote changes the contents of a bracket.  It fills a list
unless it stands between items or words. -/
theorem exists_read? (L : Level) (pos : Nat) (hopen : ListKind.ofOpener? c = none) (hclose : ListKind.ofCloser? c = none)
    (hquote : c ≠ '"') (inTable : Bool) :
    ∃ L', L.read? pos c (a.role inTable c) = some L' ∧
      (inTable = false → L'.filled = (L.filled || !a.isGap c)) := by
  simp only [Alphabet.role, hopen, hclose, hquote, if_false]
  split_ifs with hrow hcol hsep hspace
  · exact ⟨_, rfl, by simp [hrow.1]⟩
  · exact ⟨_, rfl, by simp [hcol.1]⟩
  · have hgap : a.isGap c = true := by rw [Alphabet.isGap, hsep, Bool.true_or]
    exact ⟨_, rfl, fun _ => by simp [hgap, Level.filled_separate]⟩
  · have hgap : a.isGap c = true := by rw [Alphabet.isGap, hspace, Bool.or_true]
    exact ⟨_, rfl, fun _ => by simp [hgap, Level.filled_space]⟩
  · have hgap : a.isGap c = false := by simp only [Alphabet.isGap, hsep, hspace, Bool.or_false]
    exact ⟨_, rfl, fun _ => by simp [hgap, Level.filled_glyph]⟩

theorem read_other (h : d.Inside (.contents site L) marks) (hopen : ListKind.ofOpener? c = none)
    (hclose : ListKind.ofCloser? c = none) (hquote : c ≠ '"') :
    Agree (d.read a pos c next) (Mark.step a.tableNew.contains a.isGap marks c next) := by
  obtain ⟨L', hread, hfilled⟩ := exists_read? (a := a) L pos hopen hclose hquote site.bracket.isTable
  obtain ⟨d', hd', hat⟩ := h.toAt.read_plain next hread
  rw [hd', h.step_eq]
  simp only [Mark.stepPlain, hopen, hclose, hquote, if_false]
  split
  · next hgap => exact .proceed (h.keep hat fun hlist => by simpa [hgap] using hfilled hlist)
  · next hgap => exact .proceed (h.fill hat fun hlist => by simpa [hgap] using hfilled hlist)

theorem read_text (h : d.Inside (.literal spot T) marks) :
    Agree (d.read a pos c next) (Mark.step a.tableNew.contains a.isGap marks c next) := by
  have hspells := h.spells
  rw [hspells.read_eq]
  cases h with
  | text houter hM hrun hx h =>
    simp only [Mark.step, Mark.stepText, readText]
    split_ifs with hquote hescape hembed
    · have hat := h.close houter.toAt hM hrun hx pos
      exact .proceed (houter.ended hM hat)
    · cases next with
      | none => exact .refuse
      | some escaped => exact .proceed (.text houter hM hrun hx (h.char _))
    · exact .proceed (.embed (.text houter hM hrun hx h) (at_openEmbed h.word _ pos))
    · exact .proceed (.text houter hM hrun hx (h.char c))

/-- **One character** does to the marks what it does to the draft. -/
theorem step (h : d.Inside place marks) (pos : Nat) (c : Char) (next : Option Char) :
    Agree (d.read a pos c next) (Mark.step a.tableNew.contains a.isGap marks c next) := by
  cases place with
  | literal spot T => exact h.read_text
  | contents site L =>
    rcases hopen : ListKind.ofOpener? c with _ | kind
    · rcases hclose : ListKind.ofCloser? c with _ | kind
      · by_cases hquote : c = '"'
        · subst hquote
          obtain ⟨place, hinside⟩ := h.openQuote pos
          rw [h.toAt.read_quote, h.step_eq]
          exact .proceed hinside
        · exact h.read_other hopen hclose hquote
      · exact h.read_close hclose
    · exact h.read_open hopen

theorem step_error {err : LexError} (h : d.Inside place marks) (hread : d.read a pos c next = .error err) :
    Mark.step a.tableNew.contains a.isGap marks c next = none := by
  have hagree := h.step (a := a) pos c next
  rw [hread] at hagree
  generalize Mark.step _ _ marks c next = scanned at hagree ⊢
  cases hagree
  rfl

theorem step_ok {skip : Bool} (h : d.Inside place marks) (hread : d.read a pos c next = .ok (d', skip)) :
    ∃ place' marks', Mark.step a.tableNew.contains a.isGap marks c next = some (marks', skip) ∧
      d'.Inside place' marks' := by
  have hagree := h.step (a := a) pos c next
  rw [hread] at hagree
  generalize Mark.step _ _ marks c next = scanned at hagree ⊢
  cases hagree with
  | proceed hinside => exact ⟨_, _, rfl, hinside⟩

/-! ## Whole sources -/

/-- **All characters** do to the marks what they do to the draft. -/
theorem readAll (h : d.Inside place marks) (pos : Nat) (cs : List Char) :
    (∃ err, d.readAll a pos cs = .error err ∧
      Mark.scan a.tableNew.contains a.isGap marks cs = none) ∨
    ∃ d' place' marks', d.readAll a pos cs = .ok d' ∧
      Mark.scan a.tableNew.contains a.isGap marks cs = some marks' ∧ d'.Inside place' marks' := by
  -- A character may be skipped, so the induction is that of the reader itself.
  fun_induction Draft.readAll a d pos cs generalizing place marks with
  | case1 d pos => exact .inr ⟨d, place, marks, rfl, rfl, h⟩
  | case2 d pos c rest err hread =>
    refine .inl ⟨err, rfl, ?_⟩
    rw [Mark.scan, h.step_error hread]
  | case3 d pos c d' c' rest hread ih =>
    obtain ⟨place', marks', hstep, hinside⟩ := h.step_ok hread
    rw [Mark.scan, hstep]
    exact ih hinside
  | case4 d pos c d' skip rest hskip hread ih =>
    obtain ⟨place', marks', hstep, hinside⟩ := h.step_ok hread
    have hscan : Mark.scan a.tableNew.contains a.isGap marks (c :: rest) =
        Mark.scan a.tableNew.contains a.isGap marks' rest := by
      rw [Mark.scan, hstep]
      -- Nothing is skipped at the end of the source, even if the character asks for it.
      rcases skip with _ | _ <;> rcases rest with _ | ⟨c', rest⟩
      case true.cons => exact (hskip c' rest rfl rfl).elim
      all_goals rfl
    rw [hscan]
    exact ih hinside

/-- A source can end where nothing is open, and only there. -/
theorem finish_ok_iff (h : d.Inside place marks) (src : List Char) :
    (∃ cst, d.finish src = .ok cst) ↔ marks = [] := by
  cases h with
  | top h => simp [h.finish_top rfl]
  | bracket _ _ _ _ h => simpa using h.finish_ne_ok (by simp [inside]) src
  | text _ _ _ _ h => simpa using h.finish_ne_ok src
  | embed _ h => simpa using h.finish_ne_ok (by simp [embedded, inside]) src

end Inside

/-- Nothing is open at the start. -/
theorem inside_start (len : Nat) : ∃ place, (start len).Inside place [] :=
  ⟨_, .top (at_nothing .top Nat.zero_lt_one rfl rfl rfl rfl rfl)⟩

end Draft

theorem Cst.lex_ok_iff (a : Alphabet) (src : List Char) :
    (∃ cst, Cst.lex a src = .ok cst) ↔ Mark.wellBracketed a.tableNew.contains a.isGap src := by
  obtain ⟨place, hstart⟩ := Draft.inside_start (Text.byteLength src)
  rcases hstart.readAll (a := a) 0 src with
    ⟨err, hread, hscan⟩ | ⟨d, place', marks, hread, hscan, hinside⟩
  · simp [Cst.lex, Mark.wellBracketed, hread, hscan, Except.bind]
  · simpa [Cst.lex, Mark.wellBracketed, hread, hscan, Except.bind] using hinside.finish_ok_iff src

/-- **The sources that have a syntax tree are the well-bracketed ones.**  Alphabets with the same table
marks that tell the same characters from contents have syntax trees for the same sources. -/
theorem Cst.lex_ok_iff_wellBracketed (a : Alphabet) (src : List Char) :
    ((∃ cst, Cst.lex a src = .ok cst) ↔ Mark.wellBracketed a.tableNew.contains a.isGap src) ∧
      ∀ b : Alphabet, (∀ c, b.tableNew.contains c = a.tableNew.contains c) →
        (∀ c, b.isGap c = a.isGap c) →
        ((∃ cst, Cst.lex b src = .ok cst) ↔ ∃ cst, Cst.lex a src = .ok cst) := by
  refine ⟨Cst.lex_ok_iff a src, fun b hnew hgap => ?_⟩
  rw [Cst.lex_ok_iff, Cst.lex_ok_iff, funext hnew, funext hgap]

/-- Whether a character separates items or words makes no difference. -/
theorem Cst.lex_ok_iff_blanksSeparate :
    (∃ cst, Cst.lex { Alphabet.js with sep := " \t\r,;\n".toList, space := [], punct := [] }
        "f(\"$\x7b \x7b: 1 \x7d \x7d\")".toList = .ok cst) ↔
      ∃ cst, Cst.lex .js "f(\"$\x7b \x7b: 1 \x7d \x7d\")".toList = .ok cst := by
  refine (Cst.lex_ok_iff_wellBracketed .js _).2 _ (fun _ => rfl) fun c => ?_
  simp [Alphabet.isGap, Alphabet.js, Bool.or_comm, Bool.or_assoc, Bool.or_left_comm]

-- An empty table counts as contents of an embedded expression, and a separator does not.
example : Mark.wellBracketed Alphabet.js.tableNew.contains Alphabet.js.isGap
      "\"$\x7b \x7b: \x7d \x7d\"".toList = true ∧
    Mark.wellBracketed Alphabet.js.tableNew.contains Alphabet.js.isGap "\"$\x7b ; \x7d\"".toList = false := by
  decide +kernel

end TypeTrace
