import TypeTrace.Proofs.Constructs

/-!
# Numbers of a program

A word of digits is never a name: where a rule takes it, it is an integer in an expression or in a pattern,
with the value that the digits have.  So all numbers of an item are in the statement that it is read as, and
an item with a number that is too large is no statement.

## Main definitions

* `Construct.HasNumber`: an integer in a construct, with the place that it was read from
* `Language.Covers`: a property of all numbers below some nodes

## Main results

* `Language.Made.covers`: the forms of the language lose no number
* `Language.covers_of_parse`, `Language.covers_of_parseAll`: neither do items and programs
-/

namespace TypeTrace

/-! ## Integers in constructs -/

namespace Construct

variable {t part : Construct} {l : Loc} {n : Nat}

/-- An integer in a construct, as an expression or as a pattern, with the place that it was read from. -/
def HasNumber (t : Construct) (l : Loc) (n : Nat) : Prop :=
  t.Below (.expr (.prim (.int n) ⟨l, none⟩)) ∨ t.Below (.pat (.prim (.int n) ⟨l, none⟩))

theorem HasNumber.of_below (hpart : t.Below part) (h : part.HasNumber l n) : t.HasNumber l n :=
  h.imp hpart.trans hpart.trans

theorem HasNumber.of_child (hpart : part ∈ t.children) (h : part.HasNumber l n) : t.HasNumber l n :=
  h.of_below (below_child hpart)

/-- A statement is no integer itself. -/
theorem HasNumber.exists_child {s : Stmt} (h : (stmt s).HasNumber l n) :
    ∃ part ∈ (stmt s).children, part.HasNumber l n := by
  rcases h with h | h
  · rcases Relation.ReflTransGen.cases_head h with heq | ⟨part, hpart, h⟩
    · cases heq
    · exact ⟨part, hpart, .inl h⟩
  · rcases Relation.ReflTransGen.cases_head h with heq | ⟨part, hpart, h⟩
    · cases heq
    · exact ⟨part, hpart, .inr h⟩

end Construct

/-- An integer in a phrase. -/
def Phrase.HasNumber (v : Phrase) (l : Loc) (n : Nat) : Prop :=
  match v with
  | pat p => (Construct.pat p).HasNumber l n
  | expr e => (Construct.expr e).HasNumber l n
  | stmt s => (Construct.stmt s).HasNumber l n
  | _ => False

theorem Phrase.HasNumber.stmt? {v : Phrase} {l : Loc} {n : Nat} {s : Stmt} (h : v.HasNumber l n)
    (hs : v.stmt? = some s) : (Construct.stmt s).HasNumber l n := by
  rcases eq_of_stmt? hs with rfl | ⟨e, rfl, rfl⟩
  · exact h
  · exact .of_child List.mem_cons_self h

theorem Phrase.HasNumber.body? {v : Phrase} {l : Loc} {n : Nat} {e : Expr} (h : v.HasNumber l n)
    (he : v.body? = some e) : (Construct.expr e).HasNumber l n := by
  rcases eq_of_body? he with rfl | ⟨src, rfl⟩ | ⟨s, rfl, rfl⟩
  · exact h
  · -- The statement around the expression is dropped, and is no integer.
    obtain ⟨part, hpart, h⟩ := Construct.HasNumber.exists_child h
    obtain rfl := List.mem_singleton.1 hpart
    exact h
  · exact .of_child List.mem_cons_self h

namespace Language

open Matcher

variable {cst : Cst} {nodes nodes' : List Loc} {l : Loc} {P Q : Loc → Nat → Prop}

/-! ## Numbers below nodes -/

/-- The words of digits that are among some nodes or below them are small enough for a number, and `P` holds
of them and their values. -/
def Covers (cst : Cst) (nodes : List Loc) (P : Loc → Nat → Prop) : Prop :=
  ∀ m ∈ nodes, ∀ l word, cst.Below m l → cst.node? l = some (.id word) → isDigits word = true →
    digitsValue word ≤ maxNumber ∧ P l (digitsValue word)

theorem covers_nil : Covers cst [] P := nofun

theorem covers_cons : Covers cst (l :: nodes) P ↔ Covers cst [l] P ∧ Covers cst nodes P := by
  simp [Covers]

theorem covers_append : Covers cst (nodes ++ nodes') P ↔ Covers cst nodes P ∧ Covers cst nodes' P :=
  List.forall_mem_append

theorem Covers.imp (himp : ∀ l n, P l n → Q l n) (h : Covers cst nodes P) : Covers cst nodes Q :=
  fun m hm l word hbelow hnode hdigits => (h m hm l word hbelow hnode hdigits).imp_right (himp l _)

/-- A node without members. -/
theorem covers_of_word {word : String} (hnode : cst.node? l = some (.id word))
    (h : isDigits word = true → digitsValue word ≤ maxNumber ∧ P l (digitsValue word)) :
    Covers cst [l] P := by
  intro m hm l' word' hbelow hnode' hdigits
  obtain rfl := List.mem_singleton.1 hm
  -- Only the word itself is below it.
  rcases Relation.ReflTransGen.cases_head hbelow with rfl | ⟨c, hc, -⟩
  · cases hnode.symm.trans hnode'
    exact h hdigits
  · simp [Cst.children, hnode, Node.children] at hc

theorem covers_word {word : String} (hnode : cst.node? l = some (.id word)) (hword : isDigits word = false) :
    Covers cst [l] P :=
  covers_of_word hnode fun hdigits => absurd (hword.symm.trans hdigits) (by decide)

theorem covers_name {name : String} (h : IsName cst l name) : Covers cst [l] P :=
  covers_word h.1 h.2.2

theorem covers_number {n : Nat} (h : IsNumber cst l n) (hP : P l n) : Covers cst [l] P := by
  obtain ⟨word, hnode, -, hle, rfl⟩ := h
  exact covers_of_word hnode fun _ => ⟨hle, hP⟩

/-- A node with members. -/
theorem covers_node {node : Node} (hnode : cst.node? l = some node) (hword : ∀ s, node ≠ .id s)
    (h : Covers cst node.children P) : Covers cst [l] P := by
  intro m hm l' word' hbelow hnode' hdigits
  obtain rfl := List.mem_singleton.1 hm
  rcases Relation.ReflTransGen.cases_head hbelow with rfl | ⟨c, hc, hbelow⟩
  · exact absurd (Option.some.inj (hnode.symm.trans hnode')) (hword word')
  · have hc : c ∈ node.children := by simpa [Cst.children, hnode] using hc
    exact h c hc l' word' hbelow hnode' hdigits

theorem covers_list {kind : ListKind} {children : List Loc} {multiline : Bool}
    (hnode : cst.node? l = some (.list kind children multiline)) (h : Covers cst children P) :
    Covers cst [l] P :=
  covers_node hnode nofun h

/-! ## Numbers of parts -/

theorem Series.covers {α : Type} {R : List Loc → α → Prop} {as : List α} {f : α → Loc → Nat → Prop}
    (h : Series R as nodes) (hR : ∀ t a, R t a → Covers cst t (f a)) :
    Covers cst nodes fun l n => ∃ a ∈ as, f a l n := by
  induction as generalizing nodes with
  | nil =>
    obtain rfl : nodes = [] := h
    exact covers_nil
  | cons a as ih =>
    obtain ⟨t, t', rfl, -, ha, has⟩ := h
    refine covers_append.2 ⟨(hR t a ha).imp ?_, (ih has).imp ?_⟩
    · exact fun l n hn => ⟨a, List.mem_cons_self, hn⟩
    · rintro l n ⟨a', ha', hn⟩
      exact ⟨a', List.mem_cons_of_mem _ ha', hn⟩

theorem covers_flatten {α : Type} {R : List Loc → α → Prop} {as : List α} {rows : List (List Loc)}
    {f : α → Loc → Nat → Prop} (h : List.Forall₂ R rows as) (hR : ∀ t a, R t a → Covers cst t (f a)) :
    Covers cst rows.flatten fun l n => ∃ a ∈ as, f a l n := by
  induction h with
  | nil => exact covers_nil
  | cons ha _ ih =>
    refine covers_append.2 ⟨(hR _ _ ha).imp ?_, ih.imp ?_⟩
    · exact fun l n hn => ⟨_, List.mem_cons_self, hn⟩
    · rintro l n ⟨a', ha', hn⟩
      exact ⟨a', List.mem_cons_of_mem _ ha', hn⟩

/-- The numbers in the parts of a construct are in the construct. -/
theorem Covers.of_child {t part : Construct} (hpart : part ∈ t.children) (h : Covers cst nodes part.HasNumber) :
    Covers cst nodes t.HasNumber :=
  h.imp fun _ _ => .of_child hpart

/-- The numbers of parts that are somewhere in a construct are in the construct. -/
theorem Covers.of_parts {α : Type} {as : List α} {t : Construct} (part : α → Construct)
    (hbelow : ∀ a ∈ as, t.Below (part a)) (h : Covers cst nodes fun l n => ∃ a ∈ as, (part a).HasNumber l n) :
    Covers cst nodes t.HasNumber := by
  refine h.imp ?_
  rintro l n ⟨a, ha, hn⟩
  exact hn.of_below (hbelow a ha)

/-! ## Forms of the language -/

/-- Phrases have all numbers of what they are read from. -/
def numerals (cst : Cst) : Reading := fun rule _ taken v => Form rule v ∧ Covers cst taken v.HasNumber

theorem numerals_formed : (numerals cst).Formed := fun _ _ _ _ h => h.1

variable {rule : String} {parent : Loc} {taken : List Loc} {v : Phrase}

theorem numerals.expr {e : Expr} (h : numerals cst rule parent taken (.expr e)) :
    Covers cst taken (Construct.expr e).HasNumber := h.2

theorem numerals.pat {p : Pat} (h : numerals cst rule parent taken (.pat p)) :
    Covers cst taken (Construct.pat p).HasNumber := h.2

theorem SuffixOf.covers {s : Suffix} (h : SuffixOf (numerals cst) cst taken s) :
    Covers cst taken fun l n => ∃ part ∈ s.parts, part.HasNumber l n := by
  cases h with
  | attr hdot hname => exact covers_cons.2 ⟨covers_word hdot (by decide), covers_name hname⟩
  | index hnode he =>
    refine covers_list hnode (he.expr.imp fun l n hn => ⟨_, ?_, hn⟩)
    exact List.mem_cons_of_mem _ List.mem_cons_self
  | call hnode hes =>
    refine covers_list hnode ((hes.covers fun _ _ he => he.expr).imp ?_)
    rintro l n ⟨e, he, hn⟩
    exact ⟨_, List.mem_map_of_mem he, hn⟩

theorem CaseOf.covers {c : Case} (h : CaseOf (numerals cst) parent taken c) :
    Covers cst taken fun l n => ∃ part ∈ c.parts, part.HasNumber l n := by
  obtain ⟨t, t', p, v, body, rfl, hp, hv, hbody, rfl⟩ := h
  refine covers_append.2 ⟨hp.pat.imp fun l n hn => ⟨_, List.mem_cons_self, hn⟩, hv.2.imp fun l n hn => ?_⟩
  exact ⟨_, List.mem_cons_of_mem _ List.mem_cons_self, hn.body? hbody⟩

/-- No operator is a number. -/
theorem isDigits_of_mem_words {op : String} (hop : op ∈ Operator.words) : isDigits op = false := by
  have hall : ∀ op ∈ Operator.words, isDigits op = false := by decide
  exact hall op hop

theorem OperationOf.covers {o : Word × Expr} (h : OperationOf (numerals cst) parent taken o) :
    Covers cst taken (Construct.expr o.2).HasNumber := by
  obtain ⟨t, t', rfl, hop, hright⟩ := h
  -- An operator has no integers, and covers what it is read from all the same.
  exact covers_append.2 ⟨hop.2.imp fun _ _ => False.elim, hright.expr⟩

/-- **The forms of the language lose no number.** -/
theorem Made.covers (h : Made (numerals cst) cst rule parent taken v) : Covers cst taken v.HasNumber := by
  -- What is taken is gone through from left to right: keywords are no numbers, and the rest belongs to parts.
  cases h with
  -- Statements.
  | letBind htaken hlet hequals hp he =>
    subst htaken
    refine covers_cons.2 ⟨covers_word hlet (by decide), covers_append.2 ⟨?_, ?_⟩⟩
    · exact hp.pat.of_child (by simp [Construct.children])
    · exact covers_cons.2 ⟨covers_word hequals (by decide), he.expr.of_child (by simp [Construct.children])⟩
  | ret hreturn he =>
    exact covers_cons.2 ⟨covers_word hreturn (by decide), he.expr.of_child (by simp [Construct.children])⟩
  | forLoop hfor hnode hinit hv hcond hupdate hbody =>
    have hinit := hinit.2.imp fun _ _ hn => hn.stmt? hv
    refine covers_cons.2 ⟨covers_word hfor (by decide), covers_cons.2 ⟨covers_list hnode ?_, ?_⟩⟩
    · refine covers_append.2 ⟨?_, covers_append.2 ⟨?_, ?_⟩⟩
      · exact hinit.of_child (by simp [Construct.children])
      · exact hcond.expr.of_child (by simp [Construct.children])
      · exact hupdate.expr.of_child (by simp [Construct.children])
    · exact hbody.expr.of_child (by simp [Construct.children])
  | block hnode hstmts =>
    have hcovers := hstmts.covers (f := fun s => (Construct.stmt s).HasNumber)
      fun t s hs => hs.choose_spec.2.2.imp fun _ _ hn => hn.stmt? hs.choose_spec.1
    refine covers_list hnode (hcovers.of_parts .stmt fun s hs => Construct.below_child ?_)
    exact List.mem_map_of_mem hs
  | bareReturn hreturn => exact covers_word hreturn (by decide)
  | exprStmt he => exact he.expr.of_child (by simp [Construct.children])
  | blockStmt hv | single _ hv | ifExpr hv => exact hv.2
  | spacedStmt hnode _ hv | spaced hnode hv | smooshed hnode hv => exact covers_list hnode hv.2
  -- Expressions.
  | number hn => exact covers_number hn (.inl .refl)
  | var hname => exact covers_name hname
  | str hnode hes =>
    refine covers_node hnode (by simp) fun item hitem => ?_
    obtain ⟨e, hmem, he⟩ := exists_of_mem_right (List.Forall₂.flip hes) hitem
    have hcovers : Covers cst [item] (Construct.expr e).HasNumber := he.2
    exact hcovers.of_child (List.mem_map_of_mem hmem) item List.mem_cons_self
  | tuple hnode hes =>
    have hcovers := hes.covers fun _ _ he => he.expr
    exact covers_list hnode (hcovers.of_parts .expr fun _ => Construct.below_tuple)
  | array hnode hes =>
    have hcovers := hes.covers fun _ _ he => he.expr
    exact covers_list hnode (hcovers.of_parts .expr fun _ => Construct.below_array)
  | suffixed he hsuffixes =>
    refine covers_append.2 ⟨he.expr.imp fun _ _ => .of_below (Construct.below_applyAll (.inl rfl)), ?_⟩
    refine (hsuffixes.covers fun _ _ => SuffixOf.covers).imp ?_
    rintro l n ⟨s, hs, part, hpart, hn⟩
    exact hn.of_below (Construct.below_applyAll (.inr ⟨s, hs, hpart⟩))
  | lambda hnode hps harrow hbody =>
    have hargs := hps.covers fun _ _ hp => hp.pat
    refine covers_cons.2 ⟨covers_list hnode (hargs.of_parts .pat fun p hp => Construct.below_child ?_),
      covers_cons.2 ⟨covers_word harrow (by decide), ?_⟩⟩
    · exact List.mem_cons_of_mem _ (List.mem_map_of_mem hp)
    · rcases hbody with hbody | hbody
      · exact hbody.expr.of_child List.mem_cons_self
      · exact hbody.expr.of_child List.mem_cons_self
  | switch hswitch hnode htarget hnode' hcases =>
    refine covers_cons.2 ⟨covers_word hswitch (by decide), covers_cons.2
      ⟨covers_list hnode (htarget.expr.of_child List.mem_cons_self), covers_node hnode' (by simp) ?_⟩⟩
    refine (covers_flatten hcases fun _ _ => CaseOf.covers).imp ?_
    rintro l n ⟨c, hc, part, hpart, hn⟩
    exact hn.of_child (List.mem_cons_of_mem _ (List.mem_flatMap.2 ⟨c, hc, hpart⟩))
  | @ifElse _ l l' children _ t t' multiline cond yes no htaken hif hnode hcond hyes hnone hno =>
    subst htaken
    refine covers_cons.2 ⟨covers_word hif (by decide), covers_cons.2
      ⟨covers_list hnode (hcond.expr.of_child (by simp [Construct.children])), covers_append.2
        ⟨hyes.expr.of_child (by simp [Construct.children]), ?_⟩⟩⟩
    cases no with
    | none =>
      -- Nothing is taken for a branch that is not there.
      rw [hnone rfl]
      exact covers_nil
    | some e =>
      obtain ⟨l'', t'', rfl, helse, he⟩ := hno e rfl
      refine covers_cons.2 ⟨covers_word helse (by decide), ?_⟩
      rcases he with he | he
      · exact he.expr.of_child (by simp [Construct.children])
      · exact he.expr.of_child (by simp [Construct.children])
  | operations hfirst hrest htree =>
    -- The operands of the tree are those of the row.
    obtain ⟨rfl, rfl⟩ := htree.inorder
    refine covers_append.2 ⟨hfirst.expr.imp fun _ _ => .of_below (Construct.below_first _), ?_⟩
    refine (hrest.covers fun _ _ => OperationOf.covers).imp ?_
    rintro l n ⟨o, ho, hn⟩
    exact hn.of_below (Construct.below_operand ho)
  | bop hnode hop => exact covers_word hnode (isDigits_of_mem_words hop)
  -- Patterns.
  | anyPat hnode => exact covers_word hnode (by decide)
  | numberPat hn => exact covers_number hn (.inr .refl)
  | boolPat hnode hword =>
    have hall : ∀ word ∈ ["true", "false"], isDigits word = false := by decide
    exact covers_word hnode (hall _ hword)
  | strPat hnode hbare =>
    -- Nothing is embedded, so there is no node below the literal.
    refine covers_node hnode (by simp) fun item hitem => ?_
    obtain ⟨span, hspan, heq⟩ := List.mem_filterMap.1 hitem
    cases span with
    | text => cases heq
    | embed item' => exact absurd hspan (hbare item')
  | varPat hname => exact covers_name hname
  | conPat hnode hname hnode' hps =>
    have hcovers := hps.covers fun _ _ hp => hp.pat
    refine covers_list hnode (covers_cons.2 ⟨covers_name hname, covers_list hnode' ?_⟩)
    exact hcovers.of_parts .pat fun p hp => Construct.below_child (List.mem_map_of_mem hp)
  | tuplePat hnode hps =>
    have hcovers := hps.covers fun _ _ hp => hp.pat
    exact covers_list hnode (hcovers.of_parts .pat fun _ => Construct.below_tuplePat)

/-! ## Items -/

theorem keeps_numerals (cst : Cst) : Keeps (numerals cst).contract grammar cst :=
  keeps_of_made numerals_formed fun _ _ _ _ h => ⟨h.formed numerals_formed, h.covers⟩

/-- The statement that an item is read as has all numbers of the item. -/
theorem covers_of_parse {root : Loc} {stmt : Stmt} (h : (parse cst root).stmt = some stmt) :
    Covers cst [root] (Construct.stmt stmt).HasNumber := by
  obtain ⟨v, hv, hstmt⟩ := Option.bind_eq_some_iff.1 h
  exact (reading_of_value (keeps_numerals cst) hv).2.imp fun _ _ hn => hn.stmt? hstmt

/-! ## Programs -/

theorem forall₂_of_parseRoots {roots : List Loc} {stmts : List Stmt} {metadata : Metadata}
    (h : parseRoots cst roots = .ok (stmts, metadata)) :
    List.Forall₂ (fun root stmt => (parse cst root).stmt = some stmt) roots stmts := by
  induction roots generalizing stmts metadata with
  | nil =>
    cases h
    exact .nil
  | cons root roots ih =>
    obtain ⟨stmt, stmts', more, rfl, hstmt, hmore, -⟩ := exists_of_parseRoots_cons h
    exact .cons hstmt (ih hmore)

/-- A program has all numbers of its items. -/
theorem covers_of_parseAll {stmt : Stmt} {metadata : Metadata} (h : parseAll cst = .ok (stmt, metadata)) :
    Covers cst cst.roots (Construct.stmt stmt).HasNumber := by
  obtain ⟨stmts, hroots, hstmt⟩ := exists_of_parseAll h
  intro root hroot
  obtain ⟨s, hmem, hs⟩ := exists_of_mem_right (List.Forall₂.flip (forall₂_of_parseRoots hroots)) hroot
  have hbelow : (Construct.stmt stmt).Below (.stmt s) := by
    rcases hstmt with rfl | ⟨first, second, rest, region, -, -, rfl⟩
    · obtain rfl := List.mem_singleton.1 hmem
      exact .refl
    · exact .child List.mem_cons_self (Construct.below_child (List.mem_map_of_mem hmem))
  exact (covers_of_parse hs).imp (fun _ _ => .of_below hbelow) root List.mem_cons_self

end Language
end TypeTrace
