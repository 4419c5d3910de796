/-!
# Byte positions in a text

Positions in a source text count the bytes of its UTF-8 form.  A position between two characters
is a boundary, and only boundaries can end a slice.

## Main definitions

* `Text.byteLength`: the length of a text in bytes
* `Text.dropBytes?`, `Text.takeBytes?`: cut a text at a byte position
* `Text.slice?`: the part of a text between two byte positions

## Main results

* `Text.takeBytes?_append`, `Text.dropBytes?_append`: cutting at the end of a part of the text
-/

namespace TypeTrace.Text

/-- The length of a text in bytes. -/
def byteLength : List Char → Nat
  | [] => 0
  | c :: cs => c.utf8Size + byteLength cs

/-- The text after its first `n` bytes, if a character ends there. -/
def dropBytes? : Nat → List Char → Option (List Char)
  | 0, cs => some cs
  | _ + 1, [] => none
  | n + 1, c :: cs => if c.utf8Size ≤ n + 1 then dropBytes? (n + 1 - c.utf8Size) cs else none

/-- The first `n` bytes of a text, if a character ends there. -/
def takeBytes? : Nat → List Char → Option (List Char)
  | 0, _ => some []
  | _ + 1, [] => none
  | n + 1, c :: cs =>
    if c.utf8Size ≤ n + 1 then (takeBytes? (n + 1 - c.utf8Size) cs).map (c :: ·) else none

/-- The text from byte `start` to byte `stop`, if both are boundaries and in order. -/
def slice? (cs : List Char) (start stop : Nat) : Option (List Char) :=
  if start ≤ stop then (dropBytes? start cs).bind (takeBytes? (stop - start)) else none

section

-- The equations of these functions are made here, not by all the proofs at once that need them first.
attribute [local simp] byteLength dropBytes? takeBytes?

end

theorem byteLength_append (cs ds : List Char) :
    byteLength (cs ++ ds) = byteLength cs + byteLength ds := by
  induction cs with
  | nil => simp [byteLength]
  | cons c cs ih => simp only [List.cons_append, byteLength, ih]; omega

theorem dropBytes?_append (cs ds : List Char) :
    dropBytes? (byteLength cs) (cs ++ ds) = some ds := by
  induction cs with
  | nil => simp [byteLength, dropBytes?]
  | cons c cs ih =>
    have hpos := c.utf8Size_pos
    obtain ⟨n, hn⟩ : ∃ n, c.utf8Size + byteLength cs = n + 1 := ⟨_, (Nat.succ_pred (by omega)).symm⟩
    have hsub : n + 1 - c.utf8Size = byteLength cs := by omega
    have hle : c.utf8Size ≤ n + 1 := by omega
    simp only [byteLength, hn, List.cons_append, dropBytes?, hle, if_true, hsub, ih]

theorem takeBytes?_append (cs ds : List Char) :
    takeBytes? (byteLength cs) (cs ++ ds) = some cs := by
  induction cs with
  | nil => simp [byteLength, takeBytes?]
  | cons c cs ih =>
    have hpos := c.utf8Size_pos
    obtain ⟨n, hn⟩ : ∃ n, c.utf8Size + byteLength cs = n + 1 := ⟨_, (Nat.succ_pred (by omega)).symm⟩
    have hsub : n + 1 - c.utf8Size = byteLength cs := by omega
    have hle : c.utf8Size ≤ n + 1 := by omega
    simp only [byteLength, hn, List.cons_append, takeBytes?, hle, if_true, hsub, ih,
      Option.map_some]

end TypeTrace.Text
