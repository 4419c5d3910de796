import TypeTrace.Proofs.Rules
import TypeTrace.Proofs.Termination

/-!
# String literals

Inside a string literal three characters do something: a quote ends it, a backslash takes the next
character as it is, up to three letters that stand for control characters, and a dollar sign before a
brace begins an embedded expression.  A text is written as a literal by a backslash in front of each of
the three.  No alphabet has a say inside a literal, so that every text comes back from the literal that is
written for it, whatever the roles of its characters are outside.

Reading the literal is followed character by character.  All drafts on the way are the same but for the
text so far, and this is what the induction is on.

## Main definitions

* `Text.literal`: a text, written as a string literal
* `TextSpan.plain`: the pieces of a literal with nothing embedded in it
* `Cst.literal`: the tree of a source that is one literal

## Main results

* `Draft.readAll_escaped`: reading goes on to the end of a literal, and collects its text
* `Cst.lex_literal`: the tree of a literal, with every alphabet
* `Language.matches_stmt_of_text`: a literal with nothing embedded in it is read as a statement
* `Text.literal_roundTrip`: a text is the value of the literal that is written for it
-/

namespace TypeTrace

/-! ## Writing literals -/

namespace Text

/-- The character does something inside a string literal. -/
def isActive (c : Char) : Bool := c == '"' || c == '\\' || c == '$'

/-- How a character is written inside a string literal. -/
def escaped (c : Char) : List Char := if isActive c then ['\\', c] else [c]

/-- A text, written as a string literal. -/
def literal (s : String) : List Char := '"' :: s.toList.flatMap escaped ++ ['"']

theorem isActive_iff {c : Char} : isActive c = true ↔ c = '"' ∨ c = '\\' ∨ c = '$' := by
  simp [isActive, or_assoc]

/-- An escape in front of a character that does something takes that away, and nothing else. -/
theorem unescape_of_isActive {c : Char} (h : isActive c = true) : Draft.unescape c = c := by
  rcases isActive_iff.mp h with rfl | rfl | rfl
  all_goals rfl

theorem byteLength_literal (s : String) :
    byteLength (literal s) = 1 + byteLength (s.toList.flatMap escaped) + 1 := by
  rw [literal, byteLength_append, byteLength]
  rfl

/-- A text is a part of itself. -/
theorem slice?_self (cs : List Char) : slice? cs 0 (byteLength cs) = some cs := by
  have htake := takeBytes?_append cs []
  rw [List.append_nil] at htake
  simp [slice?, dropBytes?, htake]

end Text

/-- The pieces of a string literal with the given text and nothing embedded in it. -/
def TextSpan.plain {α : Type} (s : String) : List (TextSpan α) := if s = "" then [] else [.text s]

@[simp] theorem TextSpan.reverse_plain {α : Type} (s : String) :
    (TextSpan.plain s : List (TextSpan α)).reverse = TextSpan.plain s := by
  unfold TextSpan.plain
  split <;> rfl

/-! ## Reading literals -/

namespace Draft

variable {length stop pos : Nat} {path : List Frame} {s : String} {c : Char}

/-- The draft of a source that begins with a string literal, of which a part has been read. -/
def literal (length stop : Nat) (path : List Frame) (s : String) : Draft :=
  ⟨#[(.list .curly [some 1], ⟨0, length⟩), (.text (TextSpan.plain s), ⟨0, stop⟩)], path, none⟩

theorem textChar_literal :
    (literal length stop path s).textChar 1 c = literal length stop path (s.push c) := by
  by_cases hs : s = ""
  · subst hs
    simp [literal, textChar, revise, TextSpan.plain]
  · simp [literal, textChar, revise, TextSpan.plain, hs]

/-- A literal begins with a quote, wherever the alphabet puts quotes. -/
theorem read_start (a : Alphabet) (length : Nat) (next : Option Char) :
    (start length).read a 0 '"' next = .ok (literal length 1 [.text 1] "", false) := rfl

/-- A quote ends the literal. -/
theorem read_quote (a : Alphabet) (next : Option Char) :
    (literal length stop (.text 1 :: path) s).read a pos '"' next =
      .ok (literal length (pos + 1) path s, false) := by
  simp [literal, read, readText, setStop, leave]

/-- An escape takes the next character into the text. -/
theorem read_escape (a : Alphabet) (hc : Text.isActive c = true) :
    (literal length stop (.text 1 :: path) s).read a pos '\\' (some c) =
      .ok (literal length stop (.text 1 :: path) (s.push c), true) := by
  have hread : (literal length stop (.text 1 :: path) s).read a pos '\\' (some c) =
      .ok ((literal length stop (.text 1 :: path) s).textChar 1 (unescape c), true) := rfl
  rw [hread, Text.unescape_of_isActive hc, textChar_literal]

/-- Any other character stands for itself. -/
theorem read_char (a : Alphabet) (hc : Text.isActive c = false) (next : Option Char) :
    (literal length stop (.text 1 :: path) s).read a pos c next =
      .ok (literal length stop (.text 1 :: path) (s.push c), false) := by
  have hplain : ¬(c = '"' ∨ c = '\\' ∨ c = '$') := by
    rw [← Text.isActive_iff, hc]
    exact Bool.false_ne_true
  obtain ⟨hquote, hplain⟩ := not_or.mp hplain
  obtain ⟨hescape, hdollar⟩ := not_or.mp hplain
  have hread : (literal length stop (.text 1 :: path) s).read a pos c next =
      (literal length stop (.text 1 :: path) s).readText 1 pos c next := rfl
  unfold readText at hread
  rw [hread, if_neg hquote, if_neg hescape, if_neg fun h => hdollar h.1, textChar_literal]

/-- **Reading goes on to the end of a literal, and collects its text.** -/
theorem readAll_escaped (a : Alphabet) (cs : List Char) :
    (literal length stop (.text 1 :: path) s).readAll a pos (cs.flatMap Text.escaped ++ ['"']) =
      .ok (literal length (pos + Text.byteLength (cs.flatMap Text.escaped) + 1) path
        (s ++ String.ofList cs)) := by
  induction cs generalizing s pos with
  | nil => simp [readAll, read_quote, Text.byteLength]
  | cons c cs ih =>
    have htext : s.push c ++ String.ofList cs = s ++ String.ofList (c :: cs) := by
      apply String.toList_inj.mp
      simp
    -- Each character of the text is one step, which takes the backslash too if there is one.
    by_cases hc : Text.isActive c = true
    · have hsteps : (literal length stop (.text 1 :: path) s).readAll a pos
          ('\\' :: c :: (cs.flatMap Text.escaped ++ ['"'])) =
          (literal length stop (.text 1 :: path) (s.push c)).readAll a (pos + 1 + c.utf8Size)
            (cs.flatMap Text.escaped ++ ['"']) := by
        rw [readAll, List.head?_cons, read_escape a hc]
        rfl
      have hcs : (c :: cs).flatMap Text.escaped = '\\' :: c :: cs.flatMap Text.escaped := by
        simp [Text.escaped, hc]
      have hbytes : pos + 1 + c.utf8Size + Text.byteLength (cs.flatMap Text.escaped) + 1 =
          pos + Text.byteLength ((c :: cs).flatMap Text.escaped) + 1 := by
        have hbackslash : Char.utf8Size '\\' = 1 := rfl
        rw [hcs, Text.byteLength, Text.byteLength]
        omega
      rw [← hbytes, hcs, List.cons_append, List.cons_append, hsteps, ih, htext]
    · rw [Bool.not_eq_true] at hc
      have hcs : (c :: cs).flatMap Text.escaped = c :: cs.flatMap Text.escaped := by
        simp [Text.escaped, hc]
      rw [hcs, List.cons_append, readAll, read_char a hc]
      show readAll a _ (pos + c.utf8Size) _ = _
      rw [ih, htext, Text.byteLength, Nat.add_assoc pos]

end Draft

/-- The tree of a source that is one string literal. -/
def Cst.literal (s : String) : Cst where
  nodes :=
    #[(.list .curly [1] ((Text.literal s).contains '\n'), ⟨0, Text.byteLength (Text.literal s)⟩),
      (.text (TextSpan.plain s), ⟨0, Text.byteLength (Text.literal s)⟩)]
  roots := [1]

/-- **The tree of a literal does not depend on the alphabet.** -/
theorem Cst.lex_literal (a : Alphabet) (s : String) : Cst.lex a (Text.literal s) = .ok (Cst.literal s) := by
  have hread (length : Nat) : (Draft.start length).readAll a 0 (Text.literal s) =
      .ok (Draft.literal length (Text.byteLength (Text.literal s)) [] s) := by
    rw [Text.byteLength_literal, Text.literal, List.cons_append, Draft.readAll, Draft.read_start]
    show Draft.readAll a _ (0 + 1) _ = _
    rw [Draft.readAll_escaped, Nat.zero_add, String.ofList_toList, String.empty_append]
  rw [Cst.lex, hread]
  show Except.ok _ = _
  simp [Draft.toCst, Draft.literal, Cst.literal, Draft.finishNode, Draft.closeWrappers,
    Draft.closeWrappersOn, Draft.slots, Draft.top, Slots.filled, Text.slice?_self]

/-- Nothing is in a literal, so it is nested one level deep. -/
theorem Cst.nesting_literal (s : String) : (Cst.literal s).nesting 1 = (1, 1) := by
  have hchildren : (Cst.literal s).children 1 = [] := by
    show (TextSpan.plain s).filterMap _ = []
    unfold TextSpan.plain
    split <;> rfl
  have hsize : (Cst.literal s).nodes.size = 2 := rfl
  rw [Cst.nesting, hsize, Cst.deepest, hchildren]
  rfl

/-! ## Literals as statements -/

namespace Language

open Matcher

variable {cst : Cst} {l : Loc} {s : String}

/-- A literal without embedded expressions has nothing to match inside. -/
theorem matchesSpans_plain (m : Rule) (s : String) :
    MatchesSpans grammar cst m (TextSpan.plain s) (some ⟨TextSpan.plain s, [], []⟩) := by
  unfold TextSpan.plain
  split
  · exact .nil m
  · exact .text (.nil m)

theorem build_str_plain (src : Region) :
    Build.str [("spans", .text (TextSpan.plain s) l)] src = some (.expr (.str s [] src)) := by
  unfold TextSpan.plain
  split
  · next hs => simp [Build.str, Build.textPart, Build.part, Bindings.get?, Phrase.embedsOf, Phrase.textOf, hs]
  · simp [Build.str, Build.textPart, Build.part, Bindings.get?, Phrase.embedsOf, Phrase.textOf]

/-- A literal without embedded expressions is an expression. -/
theorem matches_expr_of_text (hnode : cst.node? l = some (.text (TextSpan.plain s))) :
    Matches grammar cst exprRule [l] l (some ⟨(.expr (.str s [] ⟨l, none⟩), []), [], []⟩) := by
  -- A literal is no word, so the rules for numbers and variables leave it.
  have hword : ∀ word, firstNode? cst [l] ≠ some (.id word) := by simp [firstNode?, hnode]
  have hnumber : Matches grammar cst (use "expr num") [l] l none := by
    have hmiss : Matches grammar cst .number [l] l none := takeWord_eq_none hword _ ▸ .number [l] l
    exact .ref (r := none) rfl (.tx (r := none) (.group (r := none) hmiss))
  have hvar : Matches grammar cst (use "expr var") [l] l none := by
    have hmiss : Matches grammar cst (.id (some .ref)) [l] l none :=
      takeWord_eq_none hword _ ▸ .id (some .ref) [l] l
    exact .ref (r := none) rfl (.tx (r := none) (.group (r := none) hmiss))
  have hspans : Matches grammar cst (.group "spans" (.text (use "expr"))) [l] l
      (some ⟨(.text (TextSpan.plain s) l, []), [], [("spans", .text (TextSpan.plain s) l)]⟩) :=
    .group (.text hnode (matchesSpans_plain (use "expr") s))
  have htext : Matches grammar cst (.tx (.group "spans" (.text (use "expr"))) Build.str) [l] l
      (some ⟨(.expr (.str s [] ⟨l, none⟩), []), [], []⟩) := by
    have htx : Matches grammar cst _ [l] l (built Build.str [l] l _) := .tx hspans
    simpa [built, regionOf, build_str_plain] using htx
  exact .or (.next hnumber (.next hvar (.hit (.ref rfl htext))))

/-- **A literal without embedded expressions is read as a statement.** -/
theorem matches_stmt_of_text (hnode : cst.node? l = some (.text (TextSpan.plain s))) :
    Matches grammar cst stmtRule [l] l
      (some ⟨(.stmt (.expr (.str s [] ⟨l, none⟩) ⟨l, none⟩), []), [], []⟩) := by
  have hlist (kind : ListKind) (inner : Rule) : Matches grammar cst (listOf kind inner) [l] l none := by
    refine .listMiss fun found children multiline hfound => ?_
    cases hfound.symm.trans hnode
  have hreturn : Matches grammar cst (.tx (keyword "return") Build.bareReturn) [l] l none := by
    have hword : ∀ word, firstNode? cst [l] ≠ some (.id word) := by simp [firstNode?, hnode]
    have hmiss : Matches grammar cst (keyword "return") [l] l none :=
      takeWord_eq_none hword _ ▸ .kwd "return" .kwd [l] l
    exact .tx hmiss
  have hblock : Matches grammar cst (use "block") [l] l none :=
    .ref (r := none) rfl (.tx (r := none) (hlist .curly _))
  have hexpr : Matches grammar cst (.tx (useAs "expr" "expr") Build.exprStmt) [l] l
      (some ⟨(.stmt (.expr (.str s [] ⟨l, none⟩) ⟨l, none⟩), []), [], []⟩) := by
    have hpart : Matches grammar cst (useAs "expr" "expr") [l] l
        (some ⟨(.expr (.str s [] ⟨l, none⟩), []), [], [("expr", .expr (.str s [] ⟨l, none⟩))]⟩) :=
      .ref rfl (matches_expr_of_text hnode)
    have htx : Matches grammar cst _ [l] l (built Build.exprStmt [l] l _) := .tx hpart
    simpa [built, regionOf, Build.exprStmt, Build.part, Bindings.get?, Phrase.expr?] using htx
  exact .or (.next (hlist .spaced _) (.next hreturn (.next hblock (.hit hexpr))))

/-- The literal is the whole program, and no role is noted for it. -/
theorem parseAll_literal (s : String) :
    parseAll (Cst.literal s) = .ok (.expr (.str s [] ⟨1, none⟩) ⟨1, none⟩, .empty) := by
  have hrun := grammar_ranked.match?_eq_of_matches (Cst.lex_literal .js s) rule?_stmt
    (matches_stmt_of_text (l := 1) (s := s) rfl)
  have hdepth : ¬grammar.maxNesting < 1 := by decide
  have hparse : parse (Cst.literal s) 1 =
      ⟨1, some (.expr (.str s [] ⟨1, none⟩) ⟨1, none⟩), .empty, none⟩ := by
    simp only [parse, Grammar.parse, Cst.nesting_literal, if_neg hdepth, rule?_stmt, Grammar.run, hrun]
    rfl
  have hresult : (parse (Cst.literal s) 1).result =
      .ok (.expr (.str s [] ⟨1, none⟩) ⟨1, none⟩, .empty) := by
    rw [hparse]
    rfl
  have hroots : parseRoots (Cst.literal s) [1] =
      .ok ([.expr (.str s [] ⟨1, none⟩) ⟨1, none⟩], Dict.empty.union .empty) := by
    rw [parseRoots, hresult]
    rfl
  have hall : parseRoots (Cst.literal s) (Cst.literal s).roots = _ := hroots
  rw [parseAll, hall]
  rfl

end Language

namespace Infer

/-- A literal without embedded expressions is a string, whatever is in scope. -/
theorem exists_program_str (env : Env) (s : String) (src src' : Region) :
    ∃ trace, program env (.expr (.str s [] src) src') = .ok (.string, trace) := by
  refine program_eq_ok_iff.mpr ⟨{ ty := .string }, .initial, ?_, ?_⟩
  · rw [InferM.yields_exprStmt]
    exact ⟨.string, InferM.yields_str.mpr ⟨rfl, InferM.yields_embedded_nil.mpr rfl⟩, rfl⟩
  · rfl

end Infer

namespace Text

/-- **A text is the value of the literal that is written for it.**  With every alphabet the literal has a
tree with one root, a literal that covers the whole source and has the text as its only piece, or no
piece if there is no text.  The tree is read as a statement, the string with this value and nothing
embedded in it, and its type is that of strings in every environment. -/
theorem literal_roundTrip (a : Alphabet) (s : String) :
    ∃ cst, Cst.lex a (literal s) = .ok cst ∧
      (∃ root, cst.roots = [root] ∧
        cst.node? root = some (.text (if s = "" then [] else [.text s])) ∧
        cst.span? root = some ⟨0, byteLength (literal s)⟩) ∧
      ∃ src metadata, Language.parseAll cst = .ok (.expr (.str s [] src) src, metadata) ∧
        ∀ env, ∃ trace, Infer.program env (.expr (.str s [] src) src) = .ok (.string, trace) := by
  refine ⟨Cst.literal s, Cst.lex_literal a s, ⟨1, rfl, rfl, rfl⟩, ⟨1, none⟩, .empty, ?_, ?_⟩
  · exact Language.parseAll_literal s
  · exact fun env => Infer.exists_program_str env s _ _

end Text
end TypeTrace
