import TypeTrace.Proofs.Bracketing

/-!
# Where lexical errors point

A lexical error names a bracket, a quote or an embedded expression, and gives a byte position.  The scan
for well-bracketed sources, which keeps a mark for every construct that is open, can also keep the byte
at which each of them begins.  A draft knows these bytes too: they are the starts of the nodes of its open
constructs, and no operation on drafts changes where a node starts.  So the position in an error is that of
the delimiter that the scan has at the top of its stack.

There is one exception.  Whether a string literal is open is asked before the lists around the last words
are closed, so a source that ends inside an embedded expression with such a list open is reported as an
unclosed bracket at its very first byte.

## Main definitions

* `Mark.Scans`: a scan of the first characters of a source, with where the open constructs begin
* `Draft.Grows`: a draft goes on with the same brackets open
* `Draft.opened`: where the open brackets of a draft begin
* `LexError.PointsAt`: an error stands at the delimiter that it is about
* `Cst.strandsWords`: a source ends inside an embedded expression, with the last words not yet closed

## Main results

* `Mark.Scans.opens`: every open construct begins with its delimiter
* `Draft.Sound.read`: what one character does to the beginnings of open brackets
* `Mark.Scans.follow`: reading a source keeps the beginnings that scanning it finds
* `Cst.lex_error_pointsAt`: errors point at their delimiters, with the exception above
-/

namespace TypeTrace

/-- A piece of text stands at a byte position of a source. -/
def Text.StandsAt (src : List Char) (pos : Nat) (text : List Char) : Prop :=
  ∃ before after, src = before ++ text ++ after ∧ Text.byteLength before = pos

/-! ## Scans that know where constructs begin -/

namespace Mark

/-- The text that begins a construct. -/
def Opens (a : Alphabet) : Mark → List Char → Prop
  | list kind, s => ∃ c, s = [c] ∧ ListKind.ofOpener? c = some kind
  | table, s => ∃ c, s = ['\x7b', c] ∧ a.tableNew.contains c = true
  | text, s => s = ['"']
  | embed _, s => s = ['$', '\x7b']

/-- The kind of the closing bracket that ends a construct. -/
def kind? : Mark → Option ListKind
  | list kind => some kind
  | table => some .curly
  | text => none
  | embed _ => some .curly

/-- Where the open constructs begin after a character at byte `pos`: one that has been opened begins
there, and one that has been closed is forgotten. -/
def track (pos : Nat) (marks marks' : List Mark) (starts : List Nat) : List Nat :=
  if marks.length < marks'.length then pos :: starts
  else starts.drop (marks.length - marks'.length)

/-- The characters `before` have been scanned, and `after` follows them.  The open constructs are those
marked, and begin at the bytes `starts`. -/
inductive Scans (a : Alphabet) (src : List Char) :
    List Char → List Char → List Mark → List Nat → Prop
  | start : Scans a src [] src [] []
  | step {before after : List Char} {c : Char} {marks marks' : List Mark} {starts : List Nat}
    {skip : Bool} (h : Scans a src before (c :: after) marks starts)
    (hstep : Mark.step a.tableNew.contains a.isGap marks c after.head? = some (marks', skip)) :
    Scans a src (before ++ c :: after.take skip.toNat) (after.drop skip.toNat) marks'
      (track (Text.byteLength before) marks marks' starts)

/-- The constructs that are open at the end of a source, and where they begin.  A backslash at the very
end escapes nothing, and leaves its string literal open. -/
def OpenAtEnd (a : Alphabet) (src : List Char) (marks : List Mark) (starts : List Nat) : Prop :=
  Scans a src src [] marks starts ∨
    (∃ outer, marks = text :: outer) ∧ ∃ before, Scans a src before ['\\'] marks starts

variable {a : Alphabet} {src before after : List Char} {marks marks' : List Mark} {starts : List Nat}
  {c : Char} {next : Option Char} {skip : Bool}

/-- Nothing has been opened or closed, but there may be contents now. -/
def Kept (marks marks' : List Mark) : Prop := marks' = marks ∨ marks' = fill marks

theorem Kept.forall₂ {starts : List Nat} {P : Mark → Nat → Prop} (h : Kept marks marks')
    (hP : ∀ filled pos, P (embed filled) pos → P (embed true) pos)
    (hmarks : List.Forall₂ P marks starts) : List.Forall₂ P marks' starts := by
  rcases h with rfl | rfl
  · exact hmarks
  · cases hmarks with
    | nil => exact .nil
    | @cons mark pos outer starts hmark houter =>
      cases mark with
      | embed filled => exact .cons (hP filled pos hmark) houter
      | _ => exact .cons hmark houter

theorem Kept.length_eq (h : Kept marks marks') : marks'.length = marks.length := by
  rcases h with rfl | rfl
  · rfl
  · unfold fill
    split <;> rfl

theorem stepText_cases {outer : List Mark} (h : stepText outer c next = some (marks', skip)) :
    Kept (text :: outer) marks' ∨
    (∃ filled, marks' = embed filled :: text :: outer ∧
      (embed filled).Opens a (c :: next.toList.take skip.toNat)) ∨
    marks' = outer := by
  unfold stepText at h
  split_ifs at h with hquote hescape hembed
  · cases h
    exact .inr (.inr rfl)
  · rcases next with _ | escaped
    · cases h
    · cases h
      exact .inl (.inl rfl)
  · obtain ⟨rfl, rfl⟩ := hembed
    cases h
    exact .inr (.inl ⟨false, rfl, rfl⟩)
  · cases h
    exact .inl (.inl rfl)

theorem stepPlain_cases
    (h : stepPlain a.tableNew.contains a.isGap marks c next = some (marks', skip)) :
    Kept marks marks' ∨
    (∃ mark outer, marks' = mark :: outer ∧ Kept marks outer ∧
      mark.Opens a (c :: next.toList.take skip.toNat)) ∨
    ∃ mark, marks = mark :: marks' := by
  unfold stepPlain at h
  split at h
  · next kind hopen =>
    split_ifs at h with htable
    · -- The character after a curly bracket makes it open a table, and belongs to it.
      obtain ⟨rfl, hnext⟩ := htable
      rcases next with _ | mark
      · cases hnext
      · cases h
        have hc : c = '\x7b' := by
          unfold ListKind.ofOpener? at hopen
          split at hopen <;> simp_all
        exact .inr (.inl ⟨table, _, rfl, .inr rfl, mark, by simp [hc], hnext⟩)
    · cases h
      exact .inr (.inl ⟨list kind, _, rfl, .inr rfl, c, by simp, hopen⟩)
  · rcases marks with _ | ⟨mark, outer⟩
    · cases h
    · simp only at h
      split_ifs at h
      cases h
      exact .inr (.inr ⟨mark, rfl⟩)
  · split_ifs at h with hquote hgap
    · cases h
      exact .inr (.inl ⟨text, _, rfl, .inr rfl, by simp [Opens, hquote]⟩)
    · cases h
      exact .inl (.inl rfl)
    · cases h
      exact .inl (.inr rfl)

/-- **One character** leaves the open constructs as they are, opens another one inside them, or closes the
innermost one. -/
theorem step_cases (h : step a.tableNew.contains a.isGap marks c next = some (marks', skip)) :
    Kept marks marks' ∨
    (∃ mark outer, marks' = mark :: outer ∧ Kept marks outer ∧
      mark.Opens a (c :: next.toList.take skip.toNat)) ∨
    ∃ mark, marks = mark :: marks' := by
  rcases marks with _ | ⟨mark, outer⟩
  · exact stepPlain_cases h
  · cases mark with
    | text =>
      rcases stepText_cases (a := a) h with hkept | ⟨filled, rfl, hopens⟩ | rfl
      · exact .inl hkept
      · exact .inr (.inl ⟨_, _, rfl, .inl rfl, hopens⟩)
      · exact .inr (.inr ⟨text, rfl⟩)
    | _ => exact stepPlain_cases h

namespace Scans

theorem append (h : Scans a src before after marks starts) : before ++ after = src := by
  induction h with
  | start => rfl
  | step h hstep ih => simpa using ih

/-- **Every open construct begins with its delimiter.** -/
theorem opens (h : Scans a src before after marks starts) :
    List.Forall₂ (fun mark pos => ∃ s, Opens a mark s ∧ Text.StandsAt src pos s) marks starts := by
  induction h with
  | start => exact .nil
  | @step before after c marks marks' starts skip h hstep ih =>
    rcases step_cases hstep with hkept | ⟨mark, outer, rfl, hkept, hopens⟩ | ⟨mark, rfl⟩
    · have htrack : track (Text.byteLength before) marks marks' starts = starts := by
        simp [track, hkept.length_eq]
      rw [htrack]
      exact hkept.forall₂ (fun _ _ hpos => hpos) ih
    · have htrack : track (Text.byteLength before) marks (mark :: outer) starts =
          Text.byteLength before :: starts := by
        simp [track, hkept.length_eq]
      rw [htrack]
      -- The delimiter is made of the characters that this step goes over.
      refine .cons ⟨_, hopens, before, after.drop skip.toNat, ?_, rfl⟩
        (hkept.forall₂ (fun _ _ hpos => hpos) ih)
      have htake : after.head?.toList.take skip.toNat = after.take skip.toNat := by
        cases skip <;> cases after <;> simp
      rw [htake, ← h.append]
      simp
    · cases ih with
      | @cons _ pos _ starts _ houter =>
        have htrack : track (Text.byteLength before) (mark :: marks') marks' (pos :: starts) = starts := by
          rw [track, if_neg (by simp), List.length_cons, Nat.add_sub_cancel_left, List.drop_one,
            List.tail_cons]
        rw [htrack]
        exact houter

theorem scan_eq (h : Scans a src before after marks starts) :
    scan a.tableNew.contains a.isGap [] src = scan a.tableNew.contains a.isGap marks after := by
  induction h with
  | start => rfl
  | @step before after c marks marks' starts skip h hstep ih =>
    rw [ih, scan, hstep]
    cases skip <;> cases after <;> rfl

/-- Every source can be scanned to its end, or to a character that is out of place. -/
theorem exists_last (a : Alphabet) (src : List Char) :
    (∃ marks starts, Scans a src src [] marks starts) ∨
    ∃ before c after marks starts, Scans a src before (c :: after) marks starts ∧
      Mark.step a.tableNew.contains a.isGap marks c after.head? = none := by
  suffices hlast : ∀ n before after marks starts, after.length ≤ n →
      Scans a src before after marks starts →
      (∃ marks starts, Scans a src src [] marks starts) ∨
      ∃ before c after marks starts, Scans a src before (c :: after) marks starts ∧
        Mark.step a.tableNew.contains a.isGap marks c after.head? = none from
    hlast src.length [] src [] [] (Nat.le_refl _) .start
  intro n
  -- The characters left become fewer with every step.
  induction n with
  | zero =>
    intro before after marks starts hn h
    obtain rfl := List.length_eq_zero_iff.1 (Nat.le_zero.1 hn)
    have hsrc := h.append
    rw [List.append_nil] at hsrc
    exact .inl ⟨marks, starts, hsrc ▸ h⟩
  | succ n ih =>
    intro before after marks starts hn h
    rcases after with _ | ⟨c, after⟩
    · exact ih before [] marks starts (Nat.zero_le n) h
    · rcases hstep : Mark.step a.tableNew.contains a.isGap marks c after.head? with _ | ⟨marks', skip⟩
      · exact .inr ⟨before, c, after, marks, starts, h, hstep⟩
      · refine ih _ _ _ _ ?_ (h.step hstep)
        rw [List.length_drop]
        rw [List.length_cons] at hn
        omega

/-- What is open at the end can be told without the bytes at which it begins. -/
theorem exists_of_scan (h : scan a.tableNew.contains a.isGap [] src = some marks) :
    ∃ starts, Scans a src src [] marks starts := by
  rcases exists_last a src with ⟨marks', starts, hscan⟩ | ⟨before, c, after, marks', starts, hscan, hstep⟩
  · have heq := hscan.scan_eq.symm.trans h
    cases heq
    exact ⟨starts, hscan⟩
  · rw [hscan.scan_eq, scan, hstep] at h
    cases h

end Scans
end Mark

/-! ## Where the open brackets of a draft begin -/

/-- The construct begins with a delimiter; the others are the lists around words and items. -/
def Frame.isDelimiter : Frame → Bool
  | list .. | table _ | text _ | embed .. => true
  | smooshed _ | spaced _ => false

namespace Draft

/-- The open constructs that begin with a delimiter, the innermost first. -/
def delimiters (d : Draft) : List Frame := d.path.filter Frame.isDelimiter

/-- Where the open constructs begin, the innermost first. -/
def opened (d : Draft) : List Nat := d.delimiters.map (d.startOf ·.target)

variable {d d' e : Draft} {frame : Frame} {a : Alphabet} {pos : Nat} {c : Char} {next : Option Char}
  {skip : Bool}

theorem startOf_mint (sketch : Sketch) (span : Span) {l : Loc} (hl : l < d.next) :
    (d.mint sketch span).startOf l = d.startOf l := by
  simp only [startOf, nodes_mint, Nat.ne_of_lt hl, if_false]

theorem startOf_mint_next (sketch : Sketch) (span : Span) :
    (d.mint sketch span).startOf d.next = span.start := by
  simp only [startOf, nodes_mint, if_true, Option.map_some, Option.getD_some]

@[simp] theorem startOf_revise (w l : Loc) (f : Sketch → Sketch) :
    (d.revise w f).startOf l = d.startOf l := by
  simp only [startOf, nodes_revise]
  split
  · cases d.nodes[l]? <;> rfl
  · rfl

@[simp] theorem startOf_setStop (w l : Loc) (stop : Nat) :
    (d.setStop w stop).startOf l = d.startOf l := by
  simp only [startOf, nodes_setStop]
  split
  · cases d.nodes[l]? <;> rfl
  · rfl

/-- A draft goes on, and the same brackets stay open.  No node is moved to another start. -/
structure Grows (d d' : Draft) : Prop where
  next : d.next ≤ d'.next
  starts (l : Loc) (hl : l < d.next) : d'.startOf l = d.startOf l
  delimiters : d'.delimiters = d.delimiters

namespace Grows

@[refl] theorem refl (d : Draft) : d.Grows d := ⟨Nat.le_refl _, fun _ _ => rfl, rfl⟩

theorem trans (h : d.Grows d') (h' : d'.Grows e) : d.Grows e where
  next := Nat.le_trans h.next h'.next
  starts := by
    intro l hl
    rw [h'.starts l (Nat.lt_of_lt_of_le hl h.next), h.starts l hl]
  delimiters := h'.delimiters.trans h.delimiters

theorem endWord (d : Draft) : d.Grows d.endWord := ⟨Nat.le_refl _, fun _ _ => rfl, rfl⟩

theorem mint (d : Draft) (sketch : Sketch) (span : Span) : d.Grows (d.mint sketch span) :=
  ⟨by simp, fun _ hl => startOf_mint sketch span hl, rfl⟩

theorem revise (d : Draft) (l : Loc) (f : Sketch → Sketch) : d.Grows (d.revise l f) :=
  ⟨by simp, by simp, rfl⟩

theorem setStop (d : Draft) (l : Loc) (stop : Nat) : d.Grows (d.setStop l stop) :=
  ⟨by simp, by simp, rfl⟩

theorem enter (d : Draft) (h : frame.isDelimiter = false) : d.Grows (d.enter frame) :=
  ⟨Nat.le_refl _, fun _ _ => rfl, by simp [Draft.delimiters, h]⟩

theorem leave {path : List Frame} (hpath : d.path = frame :: path) (h : frame.isDelimiter = false) :
    d.Grows d.leave :=
  ⟨Nat.le_refl _, fun _ _ => rfl, by simp [Draft.delimiters, hpath, h]⟩

theorem wrap (d : Draft) (parent : Loc) (kind : ListKind) (slots : Slots) (span : Span)
    {frame : Loc → Frame} (h : ∀ l, (frame l).isDelimiter = false) :
    d.Grows (d.wrap parent kind slots span frame) :=
  ((mint d _ span).trans (revise _ parent _)).trans (enter _ (h _))

theorem add (d : Draft) (l : Loc) : d.Grows (d.add l) := by
  simp only [Draft.add]
  split
  · exact revise d _ _
  · exact revise d _ _
  · exact revise d _ _
  · exact wrap d _ _ _ _ fun _ => rfl

theorem closeWrapper {path : List Frame} (w : Loc) (hpath : d.path = frame :: path)
    (h : frame.isDelimiter = false) : d.Grows (d.closeWrapper w) ∧ (d.closeWrapper w).path = path := by
  have hleave := leave hpath h
  unfold Draft.closeWrapper
  split
  · exact ⟨hleave, by simp [hpath]⟩
  · exact ⟨(hleave.trans (setStop _ _ _)).trans (revise _ _ _), by simp [hpath]⟩
  · exact ⟨hleave.trans (setStop _ _ _), by simp [hpath]⟩

theorem closeWrappersOn (items : Bool) (path : List Frame) (hpath : d.path = path) :
    d.Grows (closeWrappersOn items path d) := by
  -- The path given is always that of the draft, and gets shorter with every list that is closed.
  fun_induction Draft.closeWrappersOn items path d with
  | case1 loc path d ih =>
    have hclose := closeWrapper loc hpath rfl
    exact hclose.1.trans (ih hclose.2)
  | case2 loc path d hitems ih =>
    have hclose := closeWrapper loc hpath rfl
    exact hclose.1.trans (ih hclose.2)
  | case3 => rfl
  | case4 => rfl

theorem closeWrappers (d : Draft) (items : Bool) : d.Grows (d.closeWrappers items) :=
  closeWrappersOn items d.path rfl

theorem endItem (d : Draft) (items : Bool) : d.Grows (d.endWord.closeWrappers items) :=
  (endWord d).trans (closeWrappers _ items)

theorem separate (d : Draft) : d.Grows d.separate := by
  simp only [Draft.separate]
  exact (endItem d true).trans (revise _ _ _)

theorem endRow (d : Draft) : d.Grows d.endRow := by
  simp only [Draft.endRow]
  exact (endItem d true).trans (revise _ _ _)

theorem space (d : Draft) (pos : Nat) : d.Grows (d.space pos) := by
  have hend := endItem d false
  unfold Draft.space
  simp only
  split
  · exact hend.trans (revise _ _ _)
  · exact hend.trans (wrap _ _ _ _ _ fun _ => rfl)
  · exact hend

theorem glyph (d : Draft) (pos : Nat) (c : Char) (cls : Nat) : d.Grows (d.glyph pos c cls) := by
  have hfresh : d.Grows
      { (d.mint (.id c.toString) ⟨pos, pos + c.utf8Size⟩).add d.next with word := some (d.next, cls) } :=
    have hadd := (mint d (.id c.toString) ⟨pos, pos + c.utf8Size⟩).trans (add _ d.next)
    ⟨hadd.next, hadd.starts, hadd.delimiters⟩
  unfold Draft.glyph
  split
  · exact hfresh
  · simp only
    split
    · exact (revise d _ _).trans (setStop _ _ _)
    · exact hfresh

end Grows

/-- Open brackets have nodes, and the topmost list starts where the source does. -/
structure Sound (d : Draft) : Prop where
  top_lt : top < d.next
  top : d.startOf top = 0
  delimiters (frame : Frame) (h : frame ∈ d.delimiters) : frame.target < d.next

namespace Sound

theorem start (length : Nat) : (start length).Sound := ⟨Nat.zero_lt_one, rfl, by simp [Draft.delimiters, Draft.start]⟩

theorem grow (h : d.Sound) (hgrows : d.Grows d') : d'.Sound where
  top_lt := Nat.lt_of_lt_of_le h.top_lt hgrows.next
  top := (hgrows.starts _ h.top_lt).trans h.top
  delimiters := by
    intro frame hframe
    rw [hgrows.delimiters] at hframe
    exact Nat.lt_of_lt_of_le (h.delimiters frame hframe) hgrows.next

theorem opened_eq (h : d.Sound) (hgrows : d.Grows d') : d'.opened = d.opened := by
  rw [opened, opened, hgrows.delimiters]
  refine List.map_congr_left ?_
  intro frame hframe
  exact hgrows.starts _ (h.delimiters frame hframe)

theorem enter (h : d.Sound) (hframe : frame.target < d.next) : (d.enter frame).Sound where
  top_lt := h.top_lt
  top := h.top
  delimiters := by
    intro frame' hmem
    rcases List.mem_cons.1 (List.mem_filter.1 hmem).1 with rfl | hpath
    · exact hframe
    · exact h.delimiters frame' (List.mem_filter.2 ⟨hpath, (List.mem_filter.1 hmem).2⟩)

theorem leave (h : d.Sound) : d.leave.Sound where
  top_lt := h.top_lt
  top := h.top
  delimiters := by
    intro frame hmem
    obtain ⟨hpath, hframe⟩ := List.mem_filter.1 hmem
    exact h.delimiters frame (List.mem_filter.2 ⟨List.mem_of_mem_tail hpath, hframe⟩)

end Sound

theorem opened_enter (h : frame.isDelimiter = true) :
    (d.enter frame).opened = d.startOf frame.target :: d.opened := by
  simp only [opened, delimiters, path_enter, List.filter_cons, h, if_true, List.map_cons]
  rfl

theorem opened_leave {path : List Frame} (hpath : d.path = frame :: path)
    (h : frame.isDelimiter = true) : d.opened = d.startOf frame.target :: d.leave.opened := by
  simp only [opened, delimiters, path_leave, hpath, List.filter_cons, h, if_true, List.map_cons,
    List.tail_cons]
  rfl

/-! ## One character -/

/-- **What a draft can become**: it goes on with the same brackets open, another one is opened at byte
`pos`, or the innermost one is closed. -/
inductive Turns (pos : Nat) (d : Draft) : Draft → Prop
  | keep {d' : Draft} (h : d.Grows d') : Turns pos d d'
  | opens {e : Draft} {frame : Frame} (h : d.Grows e) (hframe : frame.isDelimiter = true)
    (htarget : frame.target < e.next) (hstart : e.startOf frame.target = pos) :
    Turns pos d (e.enter frame)
  | closes {e : Draft} {frame : Frame} {path : List Frame} (h : d.Grows e)
    (hpath : e.path = frame :: path) (hframe : frame.isDelimiter = true) : Turns pos d e.leave

namespace Turns

theorem openNode (d : Draft) (sketch : Sketch) (span : Span) {frame : Loc → Frame}
    (hframe : ∀ l, (frame l).isDelimiter = true) (htarget : ∀ l, (frame l).target = l) :
    Turns span.start d (d.openNode sketch span frame) := by
  have hadd := Grows.add (d.endWord.mint sketch span) d.next
  have hlt : d.next < (d.endWord.mint sketch span).next := by simp
  refine .opens (((Grows.endWord d).trans (.mint _ sketch span)).trans hadd) (hframe _) ?_ ?_
  · rw [htarget]
    exact Nat.lt_of_lt_of_le hlt hadd.next
  · rw [htarget, hadd.starts _ hlt]
    exact startOf_mint_next sketch span

theorem close {kind : ListKind} (h : d.close kind pos = .ok d') : Turns pos d d' := by
  have hend := Grows.endItem d true
  simp only [Draft.close] at h
  split at h
  · next text items path hpath =>
    split_ifs at h
    simp only [closeEmbed] at h
    split at h
    · cases h
    all_goals
      cases h
      exact .closes ((hend.trans (.setStop _ _ _)).trans (.revise _ _ _)) hpath rfl
  · next expected loc path hpath =>
    split_ifs at h
    cases h
    exact .closes (hend.trans (.setStop _ _ _)) hpath rfl
  · next loc path hpath =>
    split_ifs at h
    cases h
    exact .closes (hend.trans (.setStop _ _ _)) hpath rfl
  · cases h

theorem readText {text : Loc} {path : List Frame} (hpath : d.path = .text text :: path)
    (h : d.readText text pos c next = .ok (d', skip)) : Turns pos d d' := by
  unfold Draft.readText at h
  split_ifs at h
  · cases h
    exact .closes (.setStop d _ _) hpath rfl
  · rcases next with _ | escaped
    · cases h
    · cases h
      exact .keep (.revise d _ _)
  · cases h
    exact .opens (.mint d _ _) rfl (by simp [Frame.target]) (startOf_mint_next _ _)
  · cases h
    exact .keep (.revise d _ _)

theorem readPlain (h : d.readPlain a pos c next = .ok (d', skip)) : Turns pos d d' := by
  unfold Draft.readPlain at h
  split at h
  · split_ifs at h
    · cases h
      exact openNode d _ ⟨pos, pos + 2⟩ (fun _ => rfl) fun _ => rfl
    · cases h
      exact openNode d _ ⟨pos, pos + 1⟩ (fun _ => rfl) fun _ => rfl
  · next kind _ _ =>
    rcases hd : d.close kind pos with err | d''
    · rw [hd] at h
      cases h
    · rw [hd] at h
      cases h
      exact close hd
  · split_ifs at h
    · cases h
      exact openNode d _ ⟨pos, pos + 1⟩ (fun _ => rfl) fun _ => rfl
    · cases h
      exact .keep (.endRow d)
    · cases h
      exact .keep (.separate d)
    · split at h
      · cases h
        exact .keep (.separate d)
      · cases h
        exact .keep (.space d pos)
      · cases h
        exact .keep (.refl d)
      · cases h
        exact .keep (.glyph d pos c _)

theorem read (h : d.read a pos c next = .ok (d', skip)) : Turns pos d d' := by
  unfold Draft.read at h
  split at h
  · next text path hpath => exact readText hpath h
  · exact readPlain h

theorem sound (h : Turns pos d d') (hd : d.Sound) : d'.Sound := by
  cases h with
  | keep h => exact hd.grow h
  | opens h _ htarget => exact (hd.grow h).enter htarget
  | closes h => exact (hd.grow h).leave

theorem opened_eq (h : Turns pos d d') (hd : d.Sound) :
    d'.opened = d.opened ∨ d'.opened = pos :: d.opened ∨ ∃ start, d.opened = start :: d'.opened := by
  cases h with
  | keep h => exact .inl (hd.opened_eq h)
  | opens h hframe _ hstart =>
    refine .inr (.inl ?_)
    rw [opened_enter hframe, hstart, hd.opened_eq h]
  | closes h hpath hframe =>
    rw [← hd.opened_eq h]
    exact .inr (.inr ⟨_, opened_leave hpath hframe⟩)

end Turns

end Draft

/-! ## Marks of open brackets -/

/-- The mark is that of the construct. -/
def Frame.Marked : Frame → Mark → Prop
  | list kind _, mark => mark = .list kind
  | table _, mark => mark = .table
  | text _, mark => mark = .text
  | embed _ _, mark => ∃ filled, mark = .embed filled
  | smooshed _, _ | spaced _, _ => False

theorem Bracket.marked (b : Bracket) (loc : Loc) : (b.frame loc).Marked b.mark := by
  cases b <;> rfl

@[simp] theorem Bracket.isDelimiter_frame (b : Bracket) (loc : Loc) :
    (b.frame loc).isDelimiter = true := by
  cases b <;> rfl

@[simp] theorem Bracket.target_frame (b : Bracket) (loc : Loc) : (b.frame loc).target = loc := by
  cases b <;> rfl

/-- If there is a list around the current word or item, then something has been read. -/
theorem Level.frames_cases (L : Level) :
    L.frames = [] ∨ ∃ frame frames, L.frames = frame :: frames ∧ frame.isDelimiter = false ∧
      L.filled = true := by
  unfold frames filled
  rcases L.atoms with _ | ⟨x, _ | ⟨y, zs⟩⟩ <;> rcases L.words with _ | ⟨w, ws⟩ <;>
    simp [Frame.isDelimiter]

/-- The lists around the current word and item have no delimiters. -/
@[simp] theorem Level.filter_frames (L : Level) : L.frames.filter Frame.isDelimiter = [] := by
  unfold frames
  rcases L.atoms with _ | ⟨x, _ | ⟨y, zs⟩⟩ <;> rcases L.words with _ | ⟨w, ws⟩ <;> rfl

namespace Draft

variable {d d' e : Draft} {a : Alphabet} {pos : Nat} {c : Char} {next : Option Char} {skip : Bool}
  {site : Site} {spot : Spot} {L : Level} {T : Literal} {place : Place} {marks marks' : List Mark}

theorem At.delimiters_eq (h : d.At site L) : d.delimiters = site.path.filter Frame.isDelimiter := by
  rw [delimiters, h.path, List.filter_append, Level.filter_frames, List.nil_append]

theorem At.delimiters_bracket {b : Bracket} {x : Tree}
    (h : d.At ⟨e.inside x (b.frame x.loc), b⟩ L) : d.delimiters = b.frame x.loc :: e.delimiters :=
  h.delimiters_eq.trans (List.filter_cons_of_pos (b.isDelimiter_frame _))

theorem At.delimiters_embedded {text : Loc} (h : d.At (e.embedded text pos) L) :
    d.delimiters = .embed text e.next :: e.delimiters :=
  h.delimiters_eq.trans (List.filter_cons_of_pos rfl)

theorem Spells.delimiters_eq {x : Tree} (h : d.Spells (e.inside x (.text x.loc)) T) :
    d.delimiters = .text x.loc :: e.delimiters := by
  rw [delimiters, h.path]
  exact List.filter_cons_of_pos rfl

namespace Inside

theorem marked (h : d.Inside place marks) : List.Forall₂ Frame.Marked d.delimiters marks := by
  induction h with
  | top h =>
    rw [h.delimiters_eq]
    exact .nil
  | bracket houter hM hrun hx h ih =>
    rw [h.delimiters_bracket]
    exact .cons (Bracket.marked _ _) ih
  | text houter hM hrun hx h ih =>
    rw [h.delimiters_eq]
    exact .cons rfl ih
  | embed houter h ih =>
    rw [h.delimiters_embedded]
    exact .cons ⟨_, rfl⟩ ih

theorem length_opened (h : d.Inside place marks) : d.opened.length = marks.length := by
  rw [opened, List.length_map, h.marked.length_eq]

/-- A character that is read opens, keeps and closes what it opens, keeps and closes in the scan. -/
theorem opened_read (h : d.Inside place marks) (hd : d.Sound)
    (hread : d.read a pos c next = .ok (d', skip)) :
    ∃ place' marks', Mark.step a.tableNew.contains a.isGap marks c next = some (marks', skip) ∧
      d'.Inside place' marks' ∧ d'.Sound ∧ d'.opened = Mark.track pos marks marks' d.opened := by
  obtain ⟨place', marks', hstep, hinside⟩ := h.step_ok hread
  have hturns := Turns.read hread
  refine ⟨place', marks', hstep, hinside, hturns.sound hd, ?_⟩
  have hlen := h.length_opened
  have hlen' := hinside.length_opened
  -- How many constructs are open tells which of the three it was.
  rcases hturns.opened_eq hd with heq | heq | ⟨start, heq⟩
  · rw [heq] at hlen' ⊢
    simp [Mark.track, ← hlen, ← hlen']
  · rw [heq] at hlen' ⊢
    simp [Mark.track, ← hlen, ← hlen']
  · rw [heq, List.length_cons] at hlen
    rw [heq, Mark.track, if_neg (by omega), ← hlen, ← hlen', Nat.add_sub_cancel_left, List.drop_one,
      List.tail_cons]

end Inside
end Draft

/-- **Reading follows scanning.**  Where a scan has come to, a draft has come to, with the same constructs
open from the same bytes on. -/
theorem Mark.Scans.follow {a : Alphabet} {src before after : List Char} {marks : List Mark}
    {starts : List Nat} (h : Scans a src before after marks starts) :
    ∃ (d : Draft) (place : Place), (Draft.start (Text.byteLength src)).readAll a 0 src =
        d.readAll a (Text.byteLength before) after ∧
      d.Inside place marks ∧ d.Sound ∧ d.opened = starts := by
  induction h with
  | start =>
    obtain ⟨place, hinside⟩ := Draft.inside_start (Text.byteLength src)
    exact ⟨_, place, rfl, hinside, .start _, rfl⟩
  | @step before after c marks marks' starts skip h hstep ih =>
    obtain ⟨d, place, hreads, hinside, hsound, rfl⟩ := ih
    rcases hread : d.read a (Text.byteLength before) c after.head? with err | ⟨d', skip'⟩
    · rw [hinside.step_error hread] at hstep
      cases hstep
    · obtain ⟨place', marks'', hstep', hinside', hsound', hopened⟩ := hinside.opened_read hsound hread
      rw [hstep] at hstep'
      cases hstep'
      refine ⟨d', place', hreads.trans ?_, hinside', hsound', hopened⟩
      rw [Draft.readAll, hread, Text.byteLength_append]
      cases skip <;> cases after <;> simp [Text.byteLength, Nat.add_assoc]

/-! ## Errors -/

namespace Draft

/-- The latest words are still being collected, inside an embedded expression. -/
def strandsWords (d : Draft) : Bool :=
  d.path.head?.any (!·.isDelimiter) && d.delimiters.head?.any fun frame => frame matches .embed _ _

variable {d d' e : Draft} {a : Alphabet} {pos : Nat} {c : Char} {next : Option Char} {skip : Bool}
  {site : Site} {spot : Spot} {L : Level} {T : Literal} {place : Place} {marks marks' : List Mark}
  {src : List Char} {err : LexError}

/-- Why a character at byte `pos` cannot be read, where the constructs that are marked are open from the
bytes `starts` on. -/
inductive StopsWith (pos : Nat) (c : Char) (next : Option Char) : List Mark → List Nat → LexError → Prop
  | mismatch {marks : List Mark} {starts : List Nat} {expected : Option ListKind} {found : ListKind}
    (hclose : ListKind.ofCloser? c = some found)
    (hmarks : marks.head?.map Mark.kind? = expected.map some) (hne : expected ≠ some found) :
    StopsWith pos c next marks starts (.unexpectedClose expected found pos)
  | empty {marks : List Mark} {start : Nat} {starts : List Nat}
    (hclose : ListKind.ofCloser? c = some .curly) :
    StopsWith pos c next (.embed false :: marks) (start :: starts) (.emptyEmbed start)
  | escape {marks : List Mark} {start : Nat} {starts : List Nat} (hc : c = '\\') (hnext : next = none) :
    StopsWith pos c next (.text :: marks) (start :: starts) (.unterminatedText start)

/-- Why a source cannot end where the constructs that are marked are open from the bytes `starts` on. -/
inductive EndsWith : Bool → List Mark → List Nat → LexError → Prop
  | bracket (b : Bracket) {marks : List Mark} {start : Nat} {starts : List Nat} :
    EndsWith false (b.mark :: marks) (start :: starts) (.unclosedList b.kind start)
  | text {marks : List Mark} {start : Nat} {starts : List Nat} :
    EndsWith false (.text :: marks) (start :: starts) (.unterminatedText start)
  | embed {filled : Bool} {marks : List Mark} {start quote : Nat} {starts : List Nat} :
    EndsWith false (.embed filled :: .text :: marks) (start :: quote :: starts) (.unterminatedText quote)
  | stranded {marks : List Mark} {starts : List Nat} :
    EndsWith true (.embed true :: .text :: marks) starts (.unclosedList .curly 0)

/-- The node of the innermost open bracket starts where the bracket does, also when the lists around the
last words are closed. -/
theorem Sound.opened_head (hd : d.Sound) (hgrows : d.Grows e) {frame : Frame} {path : List Frame}
    (hpath : e.path = frame :: path) (hframe : frame.isDelimiter = true) :
    ∃ starts, d.opened = e.startOf frame.target :: starts :=
  ⟨_, (hd.opened_eq hgrows).symm.trans (opened_leave hpath hframe)⟩

theorem At.finish_bracket {b : Bracket} {x : Tree} (h : d.At ⟨e.inside x (b.frame x.loc), b⟩ L)
    (src : List Char) :
    d.finish src = .error (.unclosedList b.kind ((d.closeWrappers true).startOf x.loc)) := by
  have hend : (d.closeWrappers true).path = b.frame x.loc :: e.path := h.toLays.complete.path
  have hhead (text items : Loc) (path : List Frame) :
      d.path ≠ .text text :: path ∧ d.path ≠ .embed text items :: path := by
    rw [h.path]
    rcases L.frames_cases with hframes | ⟨frame, frames, hframes, hframe, -⟩
    · cases b <;> simp [hframes, inside, Bracket.frame]
    · rw [hframes]
      constructor <;> rintro ⟨⟩ <;> cases hframe
  unfold finish
  split
  · next text path hpath => exact absurd hpath (hhead text text path).1
  · next text items path hpath => exact absurd hpath (hhead text items path).2
  · simp only [hend]
    cases b <;> rfl

theorem At.finish_embedded {text : Loc} (h : d.At (e.embedded text pos) L) (hframes : L.frames = [])
    (src : List Char) : d.finish src = .error (.unterminatedText (d.startOf text)) := by
  simp only [finish, h.path, hframes, List.nil_append, embedded, inside]

/-- The lists around the last words hide the embedded expression. -/
theorem At.finish_embedded_words {text : Loc} {frame : Frame} {frames : List Frame}
    (h : d.At (e.embedded text pos) L) (hframes : L.frames = frame :: frames)
    (hframe : frame.isDelimiter = false) (src : List Char) :
    d.finish src = .error (.unclosedList .curly ((d.closeWrappers true).startOf top)) := by
  have hend : (d.closeWrappers true).path = .embed text e.next :: e.path := h.toLays.complete.path
  have hpath : d.path = frame :: (frames ++ .embed text e.next :: e.path) := by
    rw [h.path, hframes]
    rfl
  cases frame <;> simp_all [finish, Frame.isDelimiter]

namespace Inside

theorem close_error {kind : ListKind} (h : d.Inside (.contents site L) marks) (hd : d.Sound)
    (hclose : ListKind.ofCloser? c = some kind) (herr : d.close kind pos = .error err) :
    StopsWith pos c next marks d.opened err := by
  have hpath := h.toAt.complete.path
  cases h with
  -- With nothing open, every closing bracket is a mismatch.
  | top h =>
    simp only [Draft.close, hpath] at herr
    cases herr
    exact .mismatch hclose rfl (by simp)
  | @bracket _ _ _ _ _ b _ _ _ houter hM hrun hx h =>
    cases b <;> simp only [Draft.close, hpath, inside, Bracket.frame] at herr <;> split_ifs at herr with hkind <;>
      cases herr <;> exact .mismatch hclose rfl (by simpa [eq_comm] using hkind)
  | @embed _ e spot _ _ _ _ houter h =>
    -- A curly bracket ends the embedded expression, and fails to only if there is nothing in it.
    by_cases hkind : kind = .curly
    · subst hkind
      rcases houter.spells.closeEmbed h pos with ⟨hnil, -⟩ | ⟨-, d', hok, -⟩
      · obtain ⟨starts, hopened⟩ := hd.opened_head (.endItem d true) hpath rfl
        simp only [Draft.close, hpath, embedded, inside, if_true, closeEmbed] at herr
        split at herr <;> cases herr
        rw [hopened, Level.members_eq_nil_iff.1 hnil]
        exact .empty hclose
      · rw [hok] at herr
        cases herr
    · simp only [Draft.close, hpath, embedded, inside, hkind, if_false] at herr
      cases herr
      exact .mismatch hclose rfl (by simpa [eq_comm] using hkind)

/-- **A character that cannot be read** is a closing bracket that does not match or ends an empty embedded
expression, or a backslash at the end of the source. -/
theorem read_error (h : d.Inside place marks) (hd : d.Sound)
    (herr : d.read a pos c next = .error err) : StopsWith pos c next marks d.opened err := by
  cases place with
  | literal spot T =>
    have hread : d.read a pos c next = d.readText spot.loc pos c next := h.spells.read_eq next
    cases h with
    | @text _ e _ _ _ x _ _ houter hM hrun hx h =>
      obtain ⟨starts, hopened⟩ := hd.opened_head (.refl d) h.path rfl
      rw [hread] at herr
      unfold readText at herr
      split_ifs at herr with hquote hescape hembed
      rcases next with _ | escaped
      · cases herr
        rw [hopened]
        exact .escape hescape rfl
      · cases herr
  | contents site L =>
    -- Outside of string literals, only a closing bracket can fail.
    rw [h.toAt.read_eq, readPlain] at herr
    split at herr
    · split_ifs at herr
    · next kind hopen hclose =>
      rcases hd' : d.close kind pos with err' | d'
      · rw [hd'] at herr
        cases herr
        exact h.close_error hd hclose hd'
      · rw [hd'] at herr
        cases herr
    · split_ifs at herr
      split at herr <;> cases herr

/-- **A source that cannot end** has a bracket or a string literal open.  An embedded expression is taken
for a bracket if there are words in it that are still being collected. -/
theorem finish_error (h : d.Inside place marks) (hd : d.Sound) (herr : d.finish src = .error err) :
    EndsWith d.strandsWords marks d.opened err := by
  cases h with
  | top h =>
    rw [h.finish_top rfl] at herr
    cases herr
  | @bracket _ e _ _ _ b x _ _ houter hM hrun hx h =>
    have hpath : (d.closeWrappers true).path = b.frame x.loc :: e.path := h.toLays.complete.path
    obtain ⟨starts, hopened⟩ := hd.opened_head (.closeWrappers d true) hpath (by simp)
    have hstrands : d.strandsWords = false := by
      cases b <;> simp [strandsWords, h.delimiters_bracket, Bracket.frame]
    rw [h.finish_bracket] at herr
    cases herr
    rw [hopened, hstrands, Bracket.target_frame]
    exact .bracket b
  | @text _ e _ _ _ x _ _ houter hM hrun hx h =>
    obtain ⟨starts, hopened⟩ := hd.opened_head (.refl d) h.path rfl
    have hstrands : d.strandsWords = false := by
      simp [strandsWords, h.delimiters_eq]
    simp only [finish, h.path, inside] at herr
    cases herr
    rw [hopened, hstrands]
    exact .text
  | @embed _ e _ T L start _ houter h =>
    cases houter with
    | @text _ e' _ _ _ x _ marks _ _ _ _ hquote =>
      have hopened : d.opened = d.startOf e.next :: d.startOf x.loc ::
          e'.delimiters.map (d.startOf ·.target) := by
        simp [opened, h.delimiters_embedded, hquote.delimiters_eq, Frame.target, inside]
      -- Lists of words that are being collected lie on top of the embedded expression and hide it.
      rcases L.frames_cases with hframes | ⟨frame, frames, hframes, hframe, hfilled⟩
      · have hstrands : d.strandsWords = false := by
          simp [strandsWords, h.path, hframes, embedded, inside, Frame.isDelimiter]
        rw [h.finish_embedded hframes] at herr
        cases herr
        rw [hopened, hstrands]
        exact .embed
      · have hstrands : d.strandsWords = true := by
          simp [strandsWords, h.path, hframes, hframe, h.delimiters_embedded]
        rw [h.finish_embedded_words hframes hframe,
          (Grows.closeWrappers d true).starts _ hd.top_lt, hd.top] at herr
        cases herr
        rw [hstrands, hfilled]
        exact .stranded

end Inside
end Draft
/-! ## Whole sources -/

/-- The construct is a string literal, or an expression that is embedded in one. -/
def Mark.isQuoted : Mark → Bool
  | list _ | table => false
  | text | embed _ => true

/-- **An error points at the delimiter that it names.** -/
def LexError.PointsAt (a : Alphabet) (src : List Char) : LexError → Prop
  -- A closing bracket of one kind, while the innermost open construct needs another or none is open.
  | unexpectedClose expected found pos => ∃ before c after marks starts,
      Mark.Scans a src before (c :: after) marks starts ∧ Text.byteLength before = pos ∧
        ListKind.ofCloser? c = some found ∧ marks.head?.map Mark.kind? = expected.map some ∧
        expected ≠ some found
  -- The opening bracket of the list or table that is innermost at the end.
  | unclosedList kind pos => ∃ mark marks starts c,
      Mark.OpenAtEnd a src (mark :: marks) (pos :: starts) ∧ mark.isQuoted = false ∧
        mark.kind? = some kind ∧ ListKind.ofOpener? c = some kind ∧ Text.StandsAt src pos [c]
  -- The opening quote of the string literal that is innermost at the end.
  | unterminatedText pos =>
      ((∃ marks starts, Mark.OpenAtEnd a src (.text :: marks) (pos :: starts)) ∨
        ∃ filled marks start starts,
          Mark.OpenAtEnd a src (.embed filled :: .text :: marks) (start :: pos :: starts)) ∧
      Text.StandsAt src pos ['"']
  -- The beginning of an embedded expression that is closed before anything stands in it.
  | emptyEmbed pos => ∃ before after marks starts,
      Mark.Scans a src before ('\x7d' :: after) (.embed false :: marks) (pos :: starts) ∧
        Text.StandsAt src pos ['$', '\x7b']

/-- The source ends inside an embedded expression, and the latest words of it are still being collected. -/
def Cst.strandsWords (a : Alphabet) (src : List Char) : Bool :=
  ((Draft.start (Text.byteLength src)).readAll a 0 src).toOption.any Draft.strandsWords

section

variable {a : Alphabet} {src before after : List Char} {marks : List Mark} {starts : List Nat} {c : Char}
  {err : LexError} {pos : Nat}

theorem Text.StandsAt.head {text : List Char} (h : Text.StandsAt src pos (c :: text)) :
    Text.StandsAt src pos [c] := by
  obtain ⟨before, after, rfl, rfl⟩ := h
  exact ⟨before, text ++ after, by simp, rfl⟩

/-- Scanned to the end, a source is read to the end, and where that is refused, so is the source. -/
theorem Mark.Scans.lex_end (h : Scans a src src [] marks starts) (herr : Cst.lex a src = .error err) :
    Draft.EndsWith (Cst.strandsWords a src) marks starts err := by
  obtain ⟨d, place, hreads, hinside, hsound, rfl⟩ := h.follow
  have hread : (Draft.start (Text.byteLength src)).readAll a 0 src = .ok d := hreads
  have hstrands : Cst.strandsWords a src = d.strandsWords := by
    rw [Cst.strandsWords, hread]
    rfl
  rw [Cst.lex, hread] at herr
  rw [hstrands]
  exact hinside.finish_error hsound herr

/-- A character that is out of place makes the source fail. -/
theorem Mark.Scans.lex_stuck (h : Scans a src before (c :: after) marks starts)
    (hstep : Mark.step a.tableNew.contains a.isGap marks c after.head? = none) :
    ∃ err, Cst.lex a src = .error err ∧ Cst.strandsWords a src = false ∧
      Draft.StopsWith (Text.byteLength before) c after.head? marks starts err := by
  obtain ⟨d, place, hreads, hinside, hsound, rfl⟩ := h.follow
  rcases hread : d.read a (Text.byteLength before) c after.head? with err | ⟨d', skip⟩
  · have hall : (Draft.start (Text.byteLength src)).readAll a 0 src = .error err := by
      rw [hreads, Draft.readAll, hread]
    refine ⟨err, ?_, ?_, hinside.read_error hsound hread⟩
    · rw [Cst.lex, hall]
      rfl
    · rw [Cst.strandsWords, hall]
      rfl
  · obtain ⟨place', marks', hstep', -⟩ := hinside.step_ok hread
    rw [hstep] at hstep'
    cases hstep'

theorem Draft.StopsWith.pointsAt (h : Mark.Scans a src before (c :: after) marks starts)
    (hstops : Draft.StopsWith (Text.byteLength before) c after.head? marks starts err) :
    err.PointsAt a src := by
  have hopens := h.opens
  cases hstops with
  | mismatch hclose hmarks hne => exact ⟨before, c, after, marks, starts, h, rfl, hclose, hmarks, hne⟩
  | @empty outer start starts hclose =>
    obtain rfl := ListKind.eq_of_ofCloser?_curly hclose
    cases hopens with
    | cons hstart _ =>
      obtain ⟨s, rfl, hstands⟩ := hstart
      exact ⟨before, after, outer, starts, h, hstands⟩
  | @escape outer start starts hc hnext =>
    obtain rfl : after = [] := List.head?_eq_none_iff.1 hnext
    subst hc
    cases hopens with
    | cons hstart _ =>
      obtain ⟨s, rfl, hstands⟩ := hstart
      exact ⟨.inl ⟨outer, starts, .inr ⟨⟨outer, rfl⟩, before, h⟩⟩, hstands⟩

theorem Draft.EndsWith.pointsAt (h : Mark.Scans a src src [] marks starts)
    (hends : Draft.EndsWith false marks starts err) : err.PointsAt a src := by
  have hopens := h.opens
  cases hends with
  | @bracket b outer start starts =>
    cases hopens with
    | cons hstart _ =>
      obtain ⟨s, hs, hstands⟩ := hstart
      cases b with
      | list kind =>
        obtain ⟨c, rfl, hc⟩ := hs
        exact ⟨_, outer, starts, c, .inl h, rfl, rfl, hc, hstands⟩
      | table =>
        -- The bracket of a table is a curly one, and the table mark follows it.
        obtain ⟨c, rfl, -⟩ := hs
        exact ⟨_, outer, starts, '\x7b', .inl h, rfl, rfl, rfl, hstands.head⟩
  | @text outer start starts =>
    cases hopens with
    | cons hstart _ =>
      obtain ⟨s, rfl, hstands⟩ := hstart
      exact ⟨.inl ⟨outer, starts, .inl h⟩, hstands⟩
  | @embed filled outer start quote starts =>
    cases hopens with
    | cons _ hopens =>
      cases hopens with
      | cons hquote _ =>
        obtain ⟨s, rfl, hstands⟩ := hquote
        exact ⟨.inr ⟨filled, outer, start, starts, .inl h⟩, hstands⟩

/-- Where a source ends inside a string literal, the error says so. -/
theorem Mark.OpenAtEnd.lex_eq (h : OpenAtEnd a src marks starts)
    (hquoted : marks.head?.any isQuoted = true) (hstrands : Cst.strandsWords a src = false)
    (herr : Cst.lex a src = .error err) : ∃ pos, err = .unterminatedText pos := by
  rcases h with h | ⟨⟨outer, rfl⟩, before, h⟩
  · have hends := h.lex_end herr
    rw [hstrands] at hends
    cases hends with
    | bracket b => cases b <;> cases hquoted
    | text => exact ⟨_, rfl⟩
    | embed => exact ⟨_, rfl⟩
  · obtain ⟨err', herr', -, hstops⟩ := h.lex_stuck rfl
    rw [herr] at herr'
    cases herr'
    cases hstops with
    | mismatch hclose => cases hclose
    | escape => exact ⟨_, rfl⟩

/-- **Lexical errors point at the delimiters that they name**, and a source that ends inside a string
literal is reported as such.  The exception are sources that end inside an embedded expression while words
are being collected: these are reported as an unclosed curly bracket at the first byte. -/
theorem Cst.lex_error_pointsAt (a : Alphabet) (src : List Char) (err : LexError)
    (h : Cst.lex a src = .error err) :
    (Cst.strandsWords a src = false → err.PointsAt a src ∧
      ∀ marks starts, Mark.OpenAtEnd a src marks starts → marks.head?.any Mark.isQuoted = true →
        ∃ pos, err = .unterminatedText pos) ∧
    (Cst.strandsWords a src = true → err = .unclosedList .curly 0 ∧
      ∃ marks starts, Mark.OpenAtEnd a src (.embed true :: .text :: marks) starts) := by
  rcases Mark.Scans.exists_last a src with ⟨marks, starts, hscan⟩ |
    ⟨before, c, after, marks, starts, hscan, hstep⟩
  · have hends := hscan.lex_end h
    constructor
    · intro hstrands
      rw [hstrands] at hends
      exact ⟨hends.pointsAt hscan, fun _ _ hend hquoted => hend.lex_eq hquoted hstrands h⟩
    · intro hstrands
      rw [hstrands] at hends
      cases hends with
      | @stranded outer => exact ⟨rfl, outer, starts, .inl hscan⟩
  · obtain ⟨err', herr', hstrands, hstops⟩ := hscan.lex_stuck hstep
    rw [h] at herr'
    cases herr'
    rw [hstrands]
    refine ⟨fun _ => ⟨hstops.pointsAt hscan, fun _ _ hend hquoted => hend.lex_eq hquoted hstrands h⟩, ?_⟩
    intro hfalse
    cases hfalse

end

/-- A source that ends inside an embedded expression without words around it. -/
theorem Cst.lex_error_pointsAt_embed :
    Cst.lex .js "f(\"é$\x7ba".toList = .error (.unterminatedText 2) ∧
      (LexError.unterminatedText 2).PointsAt .js "f(\"é$\x7ba".toList := by
  have h : Cst.lex .js "f(\"é$\x7ba".toList = .error (.unterminatedText 2) := by decide +kernel
  have hstrands : Cst.strandsWords .js "f(\"é$\x7ba".toList = false := by decide +kernel
  exact ⟨h, ((Cst.lex_error_pointsAt .js _ _ h).1 hstrands).1⟩

/-- **With two words in the embedded expression**, the error is about a bracket at the first byte, where no
bracket stands, although the string literal that begins at byte 2 is open. -/
theorem Cst.lex_error_strandsWords :
    Cst.lex .js "x \"$\x7ba b".toList = .error (.unclosedList .curly 0) ∧
      (∃ starts, Mark.OpenAtEnd .js "x \"$\x7ba b".toList [.embed true, .text] starts) ∧
      ¬ (LexError.unclosedList .curly 0).PointsAt .js "x \"$\x7ba b".toList := by
  refine ⟨by decide +kernel, ?_, ?_⟩
  · have hscan : Mark.scan Alphabet.js.tableNew.contains Alphabet.js.isGap [] "x \"$\x7ba b".toList =
        some [.embed true, .text] := by
      decide +kernel
    obtain ⟨starts, hscans⟩ := Mark.Scans.exists_of_scan hscan
    exact ⟨starts, .inl hscans⟩
  · rintro ⟨mark, marks, starts, c, hend, hmark, hkind, hc, before, after, hsrc, hpos⟩
    -- The first byte is that of the `x`.
    rcases before with _ | ⟨c', before⟩
    · obtain rfl : 'x' = c := (List.cons.inj hsrc).1
      cases hc
    · have := c'.utf8Size_pos
      rw [Text.byteLength] at hpos
      omega

end TypeTrace
