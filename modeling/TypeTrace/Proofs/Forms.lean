import TypeTrace.Proofs.Accounting
import TypeTrace.Proofs.Contracts
import TypeTrace.Proofs.Precedence
import TypeTrace.Syntax.Grammar

/-!
# The forms of the language

Builders take the parts that a rule has named by their names, and give nothing if one is missing or of
another form than they expect.  What the rules of the language read is said here without names and
without builders: every form of the language has parts, each of which was read by a rule from some of the
siblings, and is a phrase made of them.  The rules that are referred to may keep to any contract, as long
as that gives phrases of the right form.

## Main definitions

* `Language.Form`: the form of the phrases of a rule
* `Language.Reading`: contracts for the rules of the language, none of which names parts for others
* `Language.Series`: phrases that follow each other
* `Language.IsName`, `Language.IsNumber`: words that are names, and words that are numbers
* `Language.Made`: the forms of the language, with their parts
* `Matcher.Hands`: what a builder is given

## Main results

* `Language.hands_letRule`, `Language.hands_forRule`, …: no builder refuses what it is given, except for
  string literals as patterns, and what it builds is the form with these parts
* `Language.made_of_yields`: what a rule reads is one of the forms
* `Language.reading_of_noted`, `Language.reading_of_value`: what is read keeps to the contracts of the rules
-/

namespace TypeTrace

namespace Bindings

variable {V : Type} {b : Bindings V} {name name' : String} {v : V}

@[simp] theorem get?_cons_self : get? ((name, v) :: b) name = some v := List.lookup_cons_self

@[simp] theorem get?_cons_of_ne (h : name ≠ name') : get? ((name', v) :: b) name = b.get? name := by
  rw [get?, get?, List.lookup_cons, beq_false_of_ne h]

@[simp] theorem get?_nil : get? ([] : Bindings V) name = none := rfl

end Bindings

/-- What the builder of a matcher is given. -/
def Matcher.Hands {V : Type} [MatchValue V] (Γ : Contract V) (g : Grammar V) (cst : Cst) :
    Matcher V → Loc → List Loc → Bindings V → Prop
  | tx inner _, parent, taken, b => ∃ v, inner.Yields Γ g cst parent taken v b
  | _, _, _, _ => False

namespace Language

open Matcher

/-! ## Forms of phrases -/

/-- The form of the phrases of a rule: an operator, a pattern, a statement, something that makes a
statement, or an expression. -/
def Form (rule : String) (v : Phrase) : Prop :=
  if rule = "bop" then ∃ w : Word, v = .word w ∧ w.text ∈ Operator.words
  else if rule = "pat" then ∃ p, v = .pat p
  else if rule ∈ ["let", "return", "for"] then ∃ s, v = .stmt s
  else if rule = "stmt" then (∃ s, v = .stmt s) ∨ ∃ e, v = .expr e
  else ∃ e, v = .expr e

/-- What the rules of the language may give: a phrase for some members of a node. -/
abbrev Reading := String → Loc → List Loc → Phrase → Prop

namespace Reading

/-- No part named in a rule leaves it. -/
def contract (Γ : Reading) : Contract Phrase := fun rule parent taken v b =>
  b = [] ∧ Γ rule parent taken v

/-- The phrases have the forms that belong to their rules. -/
def Formed (Γ : Reading) : Prop :=
  ∀ rule parent taken v, Γ rule parent taken v → Form rule v

variable {Γ : Reading} {parent : Loc} {taken : List Loc} {v : Phrase}

theorem Formed.expr (hΓ : Γ.Formed) {rule : String}
    (hrule : rule ∉ ["bop", "pat", "let", "return", "for", "stmt"]) (h : Γ rule parent taken v) :
    ∃ e, v = .expr e := by
  have hform := hΓ rule parent taken v h
  simp only [List.mem_cons, List.not_mem_nil, or_false, not_or] at hrule
  obtain ⟨hbop, hpat, hlet, hreturn, hfor, hstmt⟩ := hrule
  simpa [Form, hbop, hpat, hlet, hreturn, hfor, hstmt] using hform

theorem Formed.pat (hΓ : Γ.Formed) (h : Γ "pat" parent taken v) : ∃ p, v = .pat p := by
  simpa [Form] using hΓ _ _ _ _ h

theorem Formed.bop (hΓ : Γ.Formed) (h : Γ "bop" parent taken v) :
    ∃ w : Word, v = .word w ∧ w.text ∈ Operator.words := by
  simpa [Form] using hΓ _ _ _ _ h

theorem Formed.stmt (hΓ : Γ.Formed) (h : Γ "stmt" parent taken v) :
    (∃ s, v = .stmt s) ∨ ∃ e, v = .expr e := by
  simpa [Form] using hΓ _ _ _ _ h

theorem Formed.stmtOnly (hΓ : Γ.Formed) {rule : String} (hrule : rule ∈ ["let", "return", "for"])
    (h : Γ rule parent taken v) : ∃ s, v = .stmt s := by
  have hform := hΓ rule parent taken v h
  simp only [List.mem_cons, List.not_mem_nil, or_false] at hrule
  rcases hrule with rfl | rfl | rfl <;> simpa [Form] using hform

theorem Formed.exists_stmt? (hΓ : Γ.Formed) (h : Γ "stmt" parent taken v) : ∃ s, v.stmt? = some s := by
  rcases hΓ.stmt h with ⟨s, rfl⟩ | ⟨e, rfl⟩
  · exact ⟨s, rfl⟩
  · exact ⟨_, rfl⟩

theorem Formed.exists_body? (hΓ : Γ.Formed) (h : Γ "stmt" parent taken v) : ∃ e, v.body? = some e := by
  rcases hΓ.stmt h with ⟨s, rfl⟩ | ⟨e, rfl⟩
  · cases s <;> exact ⟨_, rfl⟩
  · exact ⟨_, rfl⟩

end Reading

/-! ## Phrases that follow each other -/

/-- Phrases that follow each other, each of them read from at least one node. -/
def Series {α : Type} (P : List Loc → α → Prop) : List α → List Loc → Prop
  | [], taken => taken = []
  | a :: as, taken => ∃ t t', taken = t ++ t' ∧ t ≠ [] ∧ P t a ∧ Series P as t'

variable {α : Type} {P : List Loc → Phrase → Prop} {Q : List Loc → α → Prop}
  {form : Phrase → Option α} {vs : List Phrase} {taken : List Loc}

theorem Series.of_rounds {R : Yield Phrase} (hR : ∀ t v b, R t v b → b = [] ∧ P t v)
    {b : Bindings Phrase} (h : R.rounds vs taken b) : b = [] ∧ Series P vs taken := by
  induction vs generalizing taken b with
  | nil => exact ⟨h.2, h.1⟩
  | cons v vs ih =>
    obtain ⟨t, t', b₁, b₂, rfl, rfl, hne, hv, hvs⟩ := h
    obtain ⟨rfl, hP⟩ := hR t v b₁ hv
    obtain ⟨rfl, hseries⟩ := ih hvs
    exact ⟨rfl, t, t', rfl, hne, hP, hseries⟩

/-- If every phrase has a form, then all of them have. -/
theorem Series.exists_mapM (hform : ∀ t v, P t v → ∃ a, form v = some a ∧ Q t a)
    (h : Series P vs taken) : ∃ as, vs.mapM form = some as ∧ Series Q as taken := by
  induction vs generalizing taken with
  | nil => exact ⟨[], rfl, h⟩
  | cons v vs ih =>
    obtain ⟨t, t', rfl, hne, hv, hvs⟩ := h
    obtain ⟨a, ha, hQ⟩ := hform t v hv
    obtain ⟨as, has, hseries⟩ := ih hvs
    refine ⟨a :: as, ?_, t, t', rfl, hne, hQ, hseries⟩
    simp [ha, has]

theorem Series.mem {as : List α} (h : Series Q as taken) {a : α} (ha : a ∈ as) :
    ∃ t, t <:+: taken ∧ Q t a := by
  induction as generalizing taken with
  | nil => cases ha
  | cons a' as ih =>
    obtain ⟨t, t', rfl, -, hQ, hseries⟩ := h
    rcases List.mem_cons.1 ha with rfl | ha
    · exact ⟨t, (List.prefix_append t t').isInfix, hQ⟩
    · obtain ⟨u, hu, hQ⟩ := ih hseries ha
      exact ⟨u, hu.trans (List.suffix_append t t').isInfix, hQ⟩

theorem Series.imp {R : List Loc → α → Prop} {as : List α} (himp : ∀ t a, Q t a → R t a)
    (h : Series Q as taken) : Series R as taken := by
  induction as generalizing taken with
  | nil => exact h
  | cons a as ih =>
    obtain ⟨t, t', rfl, hne, hQ, hseries⟩ := h
    exact ⟨t, t', rfl, hne, himp t a hQ, ih hseries⟩

/-- Every phrase of a pairing has the node that it is read from. -/
theorem exists_of_mem_right {β : Type} {R : α → β → Prop} {as : List α} {bs : List β}
    (h : List.Forall₂ R as bs) {b : β} (hb : b ∈ bs) : ∃ a ∈ as, R a b := by
  induction h with
  | nil => cases hb
  | cons hab _ ih =>
    rcases List.mem_cons.1 hb with rfl | hb
    · exact ⟨_, List.mem_cons_self, hab⟩
    · obtain ⟨a, ha, hab⟩ := ih hb
      exact ⟨a, List.mem_cons_of_mem _ ha, hab⟩

/-! ## Forms and their parts -/

/-- The word at a place is a name: neither reserved nor a number. -/
def IsName (cst : Cst) (l : Loc) (name : String) : Prop :=
  cst.node? l = some (.id name) ∧ name ∉ kwds ∧ isDigits name = false

theorem IsName.of_node {cst : Cst} {l : Loc} {name : String} (hnode : cst.node? l = some (.id name))
    (hname : (grammar.isKwd name || isDigits name) = false) : IsName cst l name := by
  obtain ⟨hkwd, hdigits⟩ := Bool.or_eq_false_iff.1 hname
  refine ⟨hnode, fun hmem => ?_, hdigits⟩
  have hcontains : kwds.contains name = true := List.contains_iff_mem.2 hmem
  exact absurd (hkwd.symm.trans hcontains) (by decide)

/-- The word at a place is a number that a program may contain. -/
def IsNumber (cst : Cst) (l : Loc) (n : Nat) : Prop :=
  ∃ word, cst.node? l = some (.id word) ∧ isDigits word = true ∧ n ≤ maxNumber ∧ n = digitsValue word

/-- What a suffix is read from. -/
inductive SuffixOf (Γ : Reading) (cst : Cst) : List Loc → Suffix → Prop
  | attr {l : Loc} {w : Word} (hdot : cst.node? l = some (.id ".")) (hname : IsName cst w.loc w.text) :
    SuffixOf Γ cst [l, w.loc] (.attr w ⟨l, some w.loc⟩)
  | index {l : Loc} {children : List Loc} {multiline : Bool} {e : Expr}
    (hnode : cst.node? l = some (.list .square children multiline))
    (he : Γ "expr" l children (.expr e)) : SuffixOf Γ cst [l] (.index e ⟨l, none⟩)
  | call {l : Loc} {children : List Loc} {multiline : Bool} {es : List Expr}
    (hnode : cst.node? l = some (.list .round children multiline))
    (hes : Series (fun t e => Γ "expr" l t (.expr e)) es children) :
    SuffixOf Γ cst [l] (.call es ⟨l, none⟩)

/-- What a case is read from. -/
def CaseOf (Γ : Reading) (parent : Loc) (taken : List Loc) (c : Case) : Prop :=
  ∃ t t' p v body, taken = t ++ t' ∧ Γ "pat" parent t (.pat p) ∧ Γ "stmt" parent t' v ∧
    v.body? = some body ∧ c = .mk p body

/-- What an operator and the operand after it are read from. -/
def OperationOf (Γ : Reading) (parent : Loc) (taken : List Loc) (o : Word × Expr) : Prop :=
  ∃ t t', taken = t ++ t' ∧ Γ "bop" parent t (.word o.1) ∧ Γ "expr" parent t' (.expr o.2)

/-- The forms of the language: the rule that reads them, the siblings they are read from, and the phrase,
with what its parts are read from. -/
inductive Made (Γ : Reading) (cst : Cst) : String → Loc → List Loc → Phrase → Prop
  -- Statements.
  | letBind {parent l l' : Loc} {taken t t' : List Loc} {p : Pat} {e : Expr}
    (htaken : taken = l :: (t ++ l' :: t')) (hlet : cst.node? l = some (.id "let"))
    (hequals : cst.node? l' = some (.id "=")) (hp : Γ "pat" parent t (.pat p))
    (he : Γ "expr " parent t' (.expr e)) :
    Made Γ cst "let" parent taken (.stmt (.letBind p e (regionOf taken [] parent)))
  | ret {parent l : Loc} {t : List Loc} {e : Expr} (hreturn : cst.node? l = some (.id "return"))
    (he : Γ "expr " parent t (.expr e)) :
    Made Γ cst "return" parent (l :: t) (.stmt (.ret (some e) (regionOf (l :: t) [] parent)))
  | forLoop {parent l l' : Loc} {t t₁ t₂ t₃ : List Loc} {multiline : Bool} {v : Phrase} {init : Stmt}
    {cond update body : Expr} (hfor : cst.node? l = some (.id "for"))
    (hnode : cst.node? l' = some (.list .round (t₁ ++ (t₂ ++ t₃)) multiline))
    (hinit : Γ "stmt" l' t₁ v) (hv : v.stmt? = some init) (hcond : Γ "expr" l' t₂ (.expr cond))
    (hupdate : Γ "expr" l' t₃ (.expr update)) (hbody : Γ "block" parent t (.expr body)) :
    Made Γ cst "for" parent (l :: l' :: t)
      (.stmt (.forLoop init cond update body (regionOf (l :: l' :: t) [] parent)))
  | block {parent l : Loc} {children : List Loc} {multiline : Bool} {stmts : List Stmt}
    (hnode : cst.node? l = some (.list .curly children multiline))
    (hstmts : Series (fun t s => ∃ v, v.stmt? = some s ∧ Γ "stmt" l t v) stmts children) :
    Made Γ cst "block" parent [l] (.expr (.block stmts ⟨l, none⟩))
  | bareReturn {parent l : Loc} (hreturn : cst.node? l = some (.id "return")) :
    Made Γ cst "stmt" parent [l] (.stmt (.ret none ⟨l, none⟩))
  | exprStmt {parent : Loc} {taken : List Loc} {e : Expr} (he : Γ "expr" parent taken (.expr e)) :
    Made Γ cst "stmt" parent taken (.stmt (.expr e (regionOf taken [] parent)))
  | spacedStmt {parent l : Loc} {children : List Loc} {multiline : Bool} {rule : String} {v : Phrase}
    (hnode : cst.node? l = some (.list .spaced children multiline))
    (hrule : rule ∈ ["let", "return", "for"]) (hv : Γ rule l children v) :
    Made Γ cst "stmt" parent [l] v
  | blockStmt {parent : Loc} {taken : List Loc} {v : Phrase} (hv : Γ "block" parent taken v) :
    Made Γ cst "stmt" parent taken v
  -- Expressions.
  | number {parent l : Loc} {n : Nat} (hn : IsNumber cst l n) :
    Made Γ cst "expr num" parent [l] (.expr (.prim (.int n) ⟨l, none⟩))
  | var {parent l : Loc} {name : String} (hname : IsName cst l name) :
    Made Γ cst "expr var" parent [l] (.expr (.var name ⟨l, none⟩))
  | str {parent l : Loc} {spans : List (TextSpan Loc)} {s : String} {es : List Expr}
    (hnode : cst.node? l = some (.text spans))
    (hes : List.Forall₂ (fun item e => Γ "expr" item [item] (.expr e)) (Node.text spans).children es) :
    Made Γ cst "expr text" parent [l] (.expr (.str s es ⟨l, none⟩))
  | tuple {parent l : Loc} {children : List Loc} {multiline : Bool} {es : List Expr}
    (hnode : cst.node? l = some (.list .round children multiline))
    (hes : Series (fun t e => Γ "expr" l t (.expr e)) es children) :
    Made Γ cst "expr tuple" parent [l] (.expr (Phrase.tuple ⟨l, none⟩ es))
  | array {parent l : Loc} {children : List Loc} {multiline : Bool} {es : List Expr}
    (hnode : cst.node? l = some (.list .square children multiline))
    (hes : Series (fun t e => Γ "expr" l t (.expr e)) es children) :
    Made Γ cst "expr array" parent [l] (.expr (Phrase.array ⟨l, none⟩ es))
  | single {parent : Loc} {taken : List Loc} {rule : String} {v : Phrase}
    (hrule : rule ∈ ["expr num", "expr var", "expr text", "expr tuple", "expr array", "expr!"])
    (hv : Γ rule parent taken v) : Made Γ cst "expr" parent taken v
  | spaced {parent l : Loc} {children : List Loc} {multiline : Bool} {v : Phrase}
    (hnode : cst.node? l = some (.list .spaced children multiline)) (hv : Γ "expr " l children v) :
    Made Γ cst "expr" parent [l] v
  | smooshed {parent l : Loc} {children : List Loc} {multiline : Bool} {v : Phrase}
    (hnode : cst.node? l = some (.list .smooshed children multiline)) (hv : Γ "expr.." l children v) :
    Made Γ cst "expr!" parent [l] v
  | suffixed {parent : Loc} {t t' : List Loc} {e : Expr} {suffixes : List Suffix}
    (he : Γ "expr" parent t (.expr e)) (hsuffixes : Series (SuffixOf Γ cst) suffixes t') :
    Made Γ cst "expr.." parent (t ++ t') (.expr (Suffix.applyAll e suffixes))
  | lambda {parent l l' : Loc} {children t : List Loc} {multiline : Bool} {ps : List Pat} {body : Expr}
    (hnode : cst.node? l = some (.list .round children multiline))
    (hps : Series (fun t p => Γ "pat" l t (.pat p)) ps children)
    (harrow : cst.node? l' = some (.id "=>"))
    (hbody : Γ "block" parent t (.expr body) ∨ Γ "expr " parent t (.expr body)) :
    Made Γ cst "expr " parent (l :: l' :: t)
      (.expr (.lambda ps body (regionOf (l :: l' :: t) [] parent)))
  | switch {parent l l' l'' : Loc} {children : List Loc} {multiline multiline' : Bool}
    {rows : List (List Loc)} {target : Expr} {cases : List Case}
    (hswitch : cst.node? l = some (.id "switch"))
    (hnode : cst.node? l' = some (.list .round children multiline))
    (htarget : Γ "expr" l' children (.expr target))
    (hnode' : cst.node? l'' = some (.table .curly rows multiline'))
    (hcases : List.Forall₂ (CaseOf Γ l'') rows cases) :
    Made Γ cst "expr " parent [l, l', l'']
      (.expr (.switch target cases (regionOf [l, l', l''] [] parent)))
  | ifElse {parent l l' : Loc} {children taken t t' : List Loc} {multiline : Bool} {cond yes : Expr}
    {no : Option Expr} (htaken : taken = l :: l' :: (t ++ t')) (hif : cst.node? l = some (.id "if"))
    (hnode : cst.node? l' = some (.list .round children multiline))
    (hcond : Γ "expr" l' children (.expr cond)) (hyes : Γ "block" parent t (.expr yes))
    (hnone : no = none → t' = [])
    (hno : ∀ e ∈ no, ∃ l'' t'', t' = l'' :: t'' ∧ cst.node? l'' = some (.id "else") ∧
      (Γ "if" parent t'' (.expr e) ∨ Γ "block" parent t'' (.expr e))) :
    Made Γ cst "if" parent taken (.expr (.ifElse cond yes no (regionOf taken [] parent)))
  | ifExpr {parent : Loc} {taken : List Loc} {v : Phrase} (hv : Γ "if" parent taken v) :
    Made Γ cst "expr " parent taken v
  | operations {parent : Loc} {t t' : List Loc} {first : Expr} {rest : List (Word × Expr)}
    {tree : Operator.Grouping} (hfirst : Γ "expr" parent t (.expr first))
    (hrest : Series (OperationOf Γ parent) rest t') (htree : Operator.Groups first rest tree) :
    Made Γ cst "expr " parent (t ++ t') (.expr tree.expr)
  | bop {parent l : Loc} {op : String} (hnode : cst.node? l = some (.id op)) (hop : op ∈ Operator.words) :
    Made Γ cst "bop" parent [l] (.word ⟨op, l⟩)
  -- Patterns.
  | anyPat {parent l : Loc} (hnode : cst.node? l = some (.id "_")) :
    Made Γ cst "pat" parent [l] (.pat (.any ⟨l, none⟩))
  | numberPat {parent l : Loc} {n : Nat} (hn : IsNumber cst l n) :
    Made Γ cst "pat" parent [l] (.pat (.prim (.int n) ⟨l, none⟩))
  | boolPat {parent l : Loc} {word : String} (hnode : cst.node? l = some (.id word))
    (hword : word ∈ ["true", "false"]) :
    Made Γ cst "pat" parent [l] (.pat (.prim (.bool (word == "true")) ⟨l, none⟩))
  | strPat {parent l : Loc} {spans : List (TextSpan Loc)} {s : String}
    (hnode : cst.node? l = some (.text spans)) (hbare : ∀ item, .embed item ∉ spans) :
    Made Γ cst "pat" parent [l] (.pat (.str s ⟨l, none⟩))
  | varPat {parent l : Loc} {name : String} (hname : IsName cst l name) :
    Made Γ cst "pat" parent [l] (.pat (.var name ⟨l, none⟩))
  | conPat {parent l l₁ l₂ : Loc} {children : List Loc} {multiline multiline' : Bool} {name : String}
    {ps : List Pat} (hnode : cst.node? l = some (.list .smooshed [l₁, l₂] multiline))
    (hname : IsName cst l₁ name)
    (hnode' : cst.node? l₂ = some (.list .round children multiline'))
    (hps : Series (fun t p => Γ "pat" l₂ t (.pat p)) ps children) :
    Made Γ cst "pat" parent [l] (.pat (.con name ps ⟨l, none⟩))
  | tuplePat {parent l : Loc} {children : List Loc} {multiline : Bool} {ps : List Pat}
    (hnode : cst.node? l = some (.list .round children multiline))
    (hps : Series (fun t p => Γ "pat" l t (.pat p)) ps children) :
    Made Γ cst "pat" parent [l] (.pat (Phrase.tuplePat ⟨l, none⟩ ps))

/-- A builder makes a phrase of the rule. -/
def Builds (Γ : Reading) (cst : Cst) (rule : String) (parent : Loc) (taken : List Loc)
    (built : Option Phrase) : Prop :=
  ∃ v, built = some v ∧ Made Γ cst rule parent taken v

/-! ## Short forms -/

section

variable {Γ : Reading} {cst : Cst} {parent : Loc} {v : Phrase} {b : Bindings Phrase} {name rule : String}
  {kind : ListKind} {inner : Rule}

theorem yields_use (h : (use rule).Yields Γ.contract grammar cst parent taken v b) :
    Γ rule parent taken v ∧ b = [] := by
  obtain ⟨b', rfl, rfl, hv⟩ := h
  exact ⟨hv, rfl⟩

theorem yields_useAs (h : (useAs name rule).Yields Γ.contract grammar cst parent taken v b) :
    Γ rule parent taken v ∧ b = [(name, v)] := by
  obtain ⟨b', rfl, rfl, hv⟩ := h
  exact ⟨hv, rfl⟩

theorem yields_listOf {role : Option Role}
    (h : (.list (.exact kind) inner role : Rule).Yields Γ.contract grammar cst parent taken v b) :
    ∃ l children multiline, taken = [l] ∧ cst.node? l = some (.list kind children multiline) ∧
      inner.Yields Γ.contract grammar cst l children v b := by
  obtain ⟨l, found, children, multiline, rfl, hnode, hkind, hinner⟩ := h
  obtain rfl : kind = found := by simpa [ListMatch.accepts] using hkind
  exact ⟨l, children, multiline, rfl, hnode, hinner⟩

/-- The phrases of a rule, as many as there are. -/
theorem yields_manyAs (hform : ∀ t v, Γ rule parent t v → ∃ a, form v = some a ∧ Q t a)
    (h : (manyAs name rule).Yields Γ.contract grammar cst parent taken v b) :
    ∃ as, Series Q as taken ∧ b = [(name, v)] ∧ Phrase.manyOf? form v = some as := by
  obtain ⟨b', rfl, vs, rfl, hrounds⟩ := h
  have hsealed (t : List Loc) (v : Phrase) (b : Bindings Phrase)
      (hv : (use rule).Yields Γ.contract grammar cst parent t v b) : b = [] ∧ Γ rule parent t v :=
    (yields_use hv).symm
  obtain ⟨rfl, hseries⟩ := Series.of_rounds hsealed hrounds
  obtain ⟨as, has, hseries⟩ := hseries.exists_mapM hform
  exact ⟨as, hseries, rfl, has⟩

/-- The matchers match one after another, with some values. -/
def Run (Γ : Reading) (cst : Cst) (items : List Rule) (parent : Loc) (taken : List Loc)
    (b : Bindings Phrase) : Prop :=
  ∃ vs, YieldsAll Γ.contract grammar cst items parent taken vs b

variable {items : List Rule}

theorem run_nil (h : Run Γ cst [] parent taken b) : taken = [] ∧ b = [] := by
  obtain ⟨vs, rfl, -, rfl⟩ := h
  exact ⟨rfl, rfl⟩

theorem run_cons (h : Run Γ cst (inner :: items) parent taken b) :
    ∃ t t' v b₁ b₂, taken = t ++ t' ∧ b = b₂ ++ b₁ ∧
      inner.Yields Γ.contract grammar cst parent t v b₁ ∧ Run Γ cst items parent t' b₂ := by
  obtain ⟨vs, t, t', v, vs', b₁, b₂, rfl, rfl, rfl, hinner, hitems⟩ := h
  exact ⟨t, t', v, b₁, b₂, rfl, rfl, hinner, vs', hitems⟩

theorem run_kwd {word : String} {role : Role} (h : Run Γ cst (.kwd word role :: items) parent taken b) :
    ∃ l t, taken = l :: t ∧ cst.node? l = some (.id word) ∧ Run Γ cst items parent t b := by
  obtain ⟨t, t', v, b₁, b₂, rfl, rfl, ⟨l, rfl, hnode, -, rfl⟩, hitems⟩ := run_cons h
  exact ⟨l, t', rfl, hnode, by rwa [List.append_nil]⟩

theorem run_useAs (h : Run Γ cst (useAs name rule :: items) parent taken b) :
    ∃ t t' v b', taken = t ++ t' ∧ b = b' ++ [(name, v)] ∧ Γ rule parent t v ∧
      Run Γ cst items parent t' b' := by
  obtain ⟨t, t', v, b₁, b₂, rfl, rfl, huse, hitems⟩ := run_cons h
  obtain ⟨hv, rfl⟩ := yields_useAs huse
  exact ⟨t, t', v, b₂, rfl, rfl, hv, hitems⟩

/-- The last of some matchers refers to a rule. -/
theorem run_last (h : Run Γ cst [useAs name rule] parent taken b) :
    ∃ v, b = [(name, v)] ∧ Γ rule parent taken v := by
  obtain ⟨t, t', v, b', rfl, rfl, hv, hnil⟩ := run_useAs h
  obtain ⟨rfl, rfl⟩ := run_nil hnil
  exact ⟨v, rfl, by rwa [List.append_nil]⟩

theorem run_listOf {role : Option Role}
    (h : Run Γ cst (.list (.exact kind) inner role :: items) parent taken b) :
    ∃ l t children multiline v b₁ b₂, taken = l :: t ∧ b = b₂ ++ b₁ ∧
      cst.node? l = some (.list kind children multiline) ∧
      inner.Yields Γ.contract grammar cst l children v b₁ ∧ Run Γ cst items parent t b₂ := by
  obtain ⟨t, t', v, b₁, b₂, rfl, rfl, hlist, hitems⟩ := run_cons h
  obtain ⟨l, children, multiline, rfl, hnode, hinner⟩ := yields_listOf hlist
  exact ⟨l, t', children, multiline, v, b₁, b₂, rfl, rfl, hnode, hinner, hitems⟩

/-- What the builder of a sequence is given. -/
theorem run_of_hands {build : Bindings Phrase → Region → Option Phrase}
    (h : (.tx (.seq items) build : Rule).Hands Γ.contract grammar cst parent taken b) :
    Run Γ cst items parent taken b := by
  obtain ⟨v, vs, -, hvs⟩ := h
  exact ⟨vs, hvs⟩

/-- A builder that makes a phrase of all members of a list, and of nothing else. -/
theorem hands_members {R : Loc → List Loc → α → Prop} {build : Bindings Phrase → Region → Option Phrase}
    {make : Region → List α → Phrase} (hform : ∀ l t v, Γ rule l t v → ∃ a, form v = some a ∧ R l t a)
    (hbuild : ∀ b src, build b src =
      (Build.part b name (Phrase.manyOf? form)).bind fun as => some (make src as))
    (h : (.tx (listOf kind (manyAs name rule)) build : Rule).Hands Γ.contract grammar cst parent taken b) :
    ∃ l children multiline as, taken = [l] ∧ cst.node? l = some (.list kind children multiline) ∧
      Series (R l) as children ∧ build b (regionOf taken [] parent) = some (make ⟨l, none⟩ as) := by
  obtain ⟨v, hlist⟩ := h
  obtain ⟨l, children, multiline, rfl, hnode, hmany⟩ := yields_listOf hlist
  obtain ⟨as, hseries, rfl, has⟩ := yields_manyAs (hform l) hmany
  refine ⟨l, children, multiline, as, rfl, hnode, hseries, ?_⟩
  rw [hbuild, Build.part, Bindings.get?_cons_self, Option.bind_some, has]
  rfl

/-- An expression among the phrases of a rule. -/
theorem Reading.Formed.expr? (hΓ : Γ.Formed)
    (hrule : rule ∉ ["bop", "pat", "let", "return", "for", "stmt"]) (h : Γ rule parent taken v) :
    ∃ e, v.expr? = some e ∧ Γ rule parent taken (.expr e) := by
  obtain ⟨e, rfl⟩ := hΓ.expr hrule h
  exact ⟨e, rfl, h⟩

theorem Reading.Formed.pat? (hΓ : Γ.Formed) (h : Γ "pat" parent taken v) :
    ∃ p, v.pat? = some p ∧ Γ "pat" parent taken (.pat p) := by
  obtain ⟨p, rfl⟩ := hΓ.pat h
  exact ⟨p, rfl, h⟩

theorem Reading.Formed.stmt? (hΓ : Γ.Formed) (h : Γ "stmt" parent taken v) :
    ∃ s, v.stmt? = some s ∧ ∃ v, v.stmt? = some s ∧ Γ "stmt" parent taken v := by
  obtain ⟨s, hs⟩ := hΓ.exists_stmt? h
  exact ⟨s, hs, v, hs, h⟩

/-! ## Statements -/

theorem hands_letRule (hΓ : Γ.Formed) (h : letRule.Hands Γ.contract grammar cst parent taken b) :
    Builds Γ cst "let" parent taken (Build.letBind b (regionOf taken [] parent)) := by
  obtain ⟨l, t₁, rfl, hlet, h₁⟩ := run_kwd (run_of_hands h)
  obtain ⟨t, t₂, v, b, rfl, rfl, hp, h₂⟩ := run_useAs h₁
  obtain ⟨l', t', rfl, hequals, h₃⟩ := run_kwd h₂
  obtain ⟨v', rfl, he⟩ := run_last h₃
  obtain ⟨p, rfl⟩ := hΓ.pat hp
  obtain ⟨e, rfl⟩ := hΓ.expr (by decide) he
  exact ⟨_, rfl, .letBind rfl hlet hequals hp he⟩

theorem hands_returnRule (hΓ : Γ.Formed) (h : returnRule.Hands Γ.contract grammar cst parent taken b) :
    Builds Γ cst "return" parent taken (Build.ret b (regionOf taken [] parent)) := by
  obtain ⟨l, t, rfl, hreturn, h₁⟩ := run_kwd (run_of_hands h)
  obtain ⟨v, rfl, he⟩ := run_last h₁
  obtain ⟨e, rfl⟩ := hΓ.expr (by decide) he
  exact ⟨_, rfl, .ret hreturn he⟩

theorem hands_forRule (hΓ : Γ.Formed) (h : forRule.Hands Γ.contract grammar cst parent taken b) :
    Builds Γ cst "for" parent taken (Build.forLoop b (regionOf taken [] parent)) := by
  obtain ⟨l, t', rfl, hfor, h₁⟩ := run_kwd (run_of_hands h)
  obtain ⟨l', t, children, multiline, v, b₁, b₂, rfl, rfl, hnode, ⟨vs, rfl, hhead⟩, h₂⟩ := run_listOf h₁
  obtain ⟨t₁, t', vi, b, rfl, rfl, hi, hhead₁⟩ := run_useAs ⟨vs, hhead⟩
  obtain ⟨t₂, t₃, vc, b', rfl, rfl, hc, hhead₂⟩ := run_useAs hhead₁
  obtain ⟨vu, rfl, hu⟩ := run_last hhead₂
  obtain ⟨vb, rfl, hb⟩ := run_last h₂
  obtain ⟨init, hinit⟩ := hΓ.exists_stmt? hi
  obtain ⟨cond, rfl⟩ := hΓ.expr (by decide) hc
  obtain ⟨update, rfl⟩ := hΓ.expr (by decide) hu
  obtain ⟨body, rfl⟩ := hΓ.expr (by decide) hb
  refine ⟨_, ?_, .forLoop hfor hnode hi hinit hc hu hb⟩
  simp [Build.forLoop, Build.part, hinit, Phrase.expr?]

theorem hands_blockRule (hΓ : Γ.Formed) (h : blockRule.Hands Γ.contract grammar cst parent taken b) :
    Builds Γ cst "block" parent taken (Build.block b (regionOf taken [] parent)) := by
  obtain ⟨l, children, multiline, stmts, rfl, hnode, hseries, hbuilt⟩ :=
    hands_members (fun _ _ _ => hΓ.stmt?) (fun _ _ => rfl) h
  exact ⟨_, hbuilt, .block hnode hseries⟩

theorem hands_bareReturn
    (h : (.tx (keyword "return") Build.bareReturn : Rule).Hands Γ.contract grammar cst parent taken b) :
    Builds Γ cst "stmt" parent taken (Build.bareReturn b (regionOf taken [] parent)) := by
  obtain ⟨v, l, rfl, hreturn, -⟩ := h
  exact ⟨_, rfl, .bareReturn hreturn⟩

theorem hands_exprStmt (hΓ : Γ.Formed)
    (h : (.tx (useAs "expr" "expr") Build.exprStmt : Rule).Hands Γ.contract grammar cst parent taken b) :
    Builds Γ cst "stmt" parent taken (Build.exprStmt b (regionOf taken [] parent)) := by
  obtain ⟨v, huse⟩ := h
  obtain ⟨hv, rfl⟩ := yields_useAs huse
  obtain ⟨e, rfl⟩ := hΓ.expr (by decide) hv
  exact ⟨_, rfl, .exprStmt hv⟩

/-! ## Expressions -/

theorem hands_number
    (h : (.tx (.group "value" .number) Build.number : Rule).Hands Γ.contract grammar cst parent taken b) :
    Builds Γ cst "expr num" parent taken (Build.number b (regionOf taken [] parent)) := by
  obtain ⟨v, b', rfl, l, word, rfl, hnode, hdigits, hle, rfl, rfl⟩ := h
  exact ⟨_, rfl, .number ⟨word, hnode, hdigits, hle, rfl⟩⟩

theorem hands_var
    (h : (.tx (.group "id" (.id (some .ref))) Build.var : Rule).Hands Γ.contract grammar cst parent taken b) :
    Builds Γ cst "expr var" parent taken (Build.var b (regionOf taken [] parent)) := by
  obtain ⟨v, b', rfl, l, word, rfl, hnode, hname, rfl, rfl⟩ := h
  exact ⟨_, rfl, .var (.of_node hnode hname)⟩

/-- The expressions embedded in a string literal. -/
theorem exists_embeds (hΓ : Γ.Formed) {spans : List (TextSpan Loc)} {vs : List (TextSpan Phrase)}
    (h : Yield.spans (fun item => (use "expr").Yields Γ.contract grammar cst item [item]) spans vs b) :
    ∃ es, (Phrase.embedsOf vs).mapM Phrase.expr? = some es ∧
      List.Forall₂ (fun item e => Γ "expr" item [item] (.expr e)) (Node.text spans).children es := by
  induction spans generalizing vs b with
  | nil =>
    obtain ⟨rfl, -⟩ := h
    exact ⟨[], rfl, .nil⟩
  | cons span spans ih =>
    cases span with
    | text s =>
      obtain ⟨vs, rfl, hrest⟩ := h
      obtain ⟨es, hes, hall⟩ := ih hrest
      exact ⟨es, hes, hall⟩
    | embed item =>
      obtain ⟨v, vs, b₁, b₂, rfl, rfl, hv, hrest⟩ := h
      obtain ⟨es, hes, hall⟩ := ih hrest
      obtain ⟨e, he⟩ := hΓ.expr (by decide) (yields_use hv).1
      subst he
      exact ⟨e :: es, by simp [Phrase.embedsOf, Phrase.expr?, hes], .cons (yields_use hv).1 hall⟩

theorem hands_str (hΓ : Γ.Formed)
    (h : (.tx (.group "spans" (.text (use "expr"))) Build.str : Rule).Hands Γ.contract grammar cst parent
      taken b) : Builds Γ cst "expr text" parent taken (Build.str b (regionOf taken [] parent)) := by
  obtain ⟨v, b', rfl, l, spans, vs, rfl, hnode, rfl, hspans⟩ := h
  obtain ⟨es, hes, hmem⟩ := exists_embeds hΓ hspans
  refine ⟨.expr (.str (Phrase.textOf vs) es ⟨l, none⟩), ?_, .str hnode hmem⟩
  simp [Build.str, Build.textPart, Build.part, MatchValue.ofText, hes, regionOf]

theorem hands_tuple (hΓ : Γ.Formed)
    (h : (.tx (listOf .round (manyAs "items" "expr")) Build.tuple : Rule).Hands Γ.contract grammar cst parent
      taken b) : Builds Γ cst "expr tuple" parent taken (Build.tuple b (regionOf taken [] parent)) := by
  obtain ⟨l, children, multiline, es, rfl, hnode, hseries, hbuilt⟩ :=
    hands_members (fun _ _ _ => hΓ.expr? (by decide)) (fun _ _ => rfl) h
  exact ⟨_, hbuilt, .tuple hnode hseries⟩

theorem hands_array (hΓ : Γ.Formed)
    (h : (.tx (listOf .square (manyAs "items" "expr")) Build.array : Rule).Hands Γ.contract grammar cst parent
      taken b) : Builds Γ cst "expr array" parent taken (Build.array b (regionOf taken [] parent)) := by
  obtain ⟨l, children, multiline, es, rfl, hnode, hseries, hbuilt⟩ :=
    hands_members (fun _ _ _ => hΓ.expr? (by decide)) (fun _ _ => rfl) h
  exact ⟨_, hbuilt, .array hnode hseries⟩

/-- A builder makes a suffix. -/
def BuildsSuffix (Γ : Reading) (cst : Cst) (taken : List Loc) (built : Option Phrase) : Prop :=
  ∃ s, built = some (.suffix s) ∧ SuffixOf Γ cst taken s

theorem hands_attr
    (h : (.tx (.seq [punct ".", .group "attribute" (.id (some .attr))]) Build.attr : Rule).Hands Γ.contract
      grammar cst parent taken b) : BuildsSuffix Γ cst taken (Build.attr b (regionOf taken [] parent)) := by
  obtain ⟨l, t, rfl, hdot, h₁⟩ := run_kwd (run_of_hands h)
  obtain ⟨t, t', v, b₁, b₂, rfl, rfl, ⟨b', rfl, l', word, rfl, hnode, hname, rfl, rfl⟩, h₂⟩ := run_cons h₁
  obtain ⟨rfl, rfl⟩ := run_nil h₂
  exact ⟨.attr ⟨word, l'⟩ ⟨l, some l'⟩, rfl, .attr (w := ⟨word, l'⟩) hdot (.of_node hnode hname)⟩

theorem hands_index (hΓ : Γ.Formed)
    (h : (.tx (listOf .square (useAs "index" "expr")) Build.index : Rule).Hands Γ.contract grammar cst parent
      taken b) : BuildsSuffix Γ cst taken (Build.index b (regionOf taken [] parent)) := by
  obtain ⟨v, hlist⟩ := h
  obtain ⟨l, children, multiline, rfl, hnode, huse⟩ := yields_listOf hlist
  obtain ⟨hv, rfl⟩ := yields_useAs huse
  obtain ⟨e, rfl⟩ := hΓ.expr (by decide) hv
  exact ⟨_, rfl, .index hnode hv⟩

theorem hands_call (hΓ : Γ.Formed)
    (h : (.tx (listOf .round (manyAs "items" "expr")) Build.call : Rule).Hands Γ.contract grammar cst parent
      taken b) : BuildsSuffix Γ cst taken (Build.call b (regionOf taken [] parent)) := by
  obtain ⟨l, children, multiline, es, rfl, hnode, hseries, hbuilt⟩ :=
    hands_members (fun _ _ _ => hΓ.expr? (by decide)) (fun _ _ => rfl) h
  exact ⟨_, hbuilt, .call hnode hseries⟩

theorem yields_suffixRule (hΓ : Γ.Formed)
    (h : suffixRule.Yields Γ.contract grammar cst parent taken v b) :
    b = [] ∧ ∃ s, v.suffix? = some s ∧ SuffixOf Γ cst taken s := by
  rcases h with ⟨rfl, v', b', h, hv⟩ | ⟨rfl, v', b', h, hv⟩ | ⟨rfl, v', b', h, hv⟩ | h
  · obtain ⟨s, hbuilt, hs⟩ := hands_attr ⟨v', h⟩
    cases hv.symm.trans hbuilt
    exact ⟨rfl, s, rfl, hs⟩
  · obtain ⟨s, hbuilt, hs⟩ := hands_index hΓ ⟨v', h⟩
    cases hv.symm.trans hbuilt
    exact ⟨rfl, s, rfl, hs⟩
  · obtain ⟨s, hbuilt, hs⟩ := hands_call hΓ ⟨v', h⟩
    cases hv.symm.trans hbuilt
    exact ⟨rfl, s, rfl, hs⟩
  · exact h.elim

theorem hands_suffixedRule (hΓ : Γ.Formed)
    (h : suffixedRule.Hands Γ.contract grammar cst parent taken b) :
    Builds Γ cst "expr.." parent taken (Build.suffixed b (regionOf taken [] parent)) := by
  obtain ⟨t, t', v, b', rfl, rfl, hv, h₁⟩ := run_useAs (run_of_hands h)
  obtain ⟨t₁, t₂, vs, b₁, b₂, rfl, rfl, ⟨b', rfl, vs, rfl, hrounds⟩, h₂⟩ := run_cons h₁
  obtain ⟨rfl, rfl⟩ := run_nil h₂
  obtain ⟨e, rfl⟩ := hΓ.expr (by decide) hv
  have hround (t : List Loc) (v : Phrase) (b : Bindings Phrase)
      (hv : suffixRule.Yields Γ.contract grammar cst parent t v b) :
      b = [] ∧ ∃ s, v.suffix? = some s ∧ SuffixOf Γ cst t s :=
    yields_suffixRule hΓ hv
  obtain ⟨rfl, hseries⟩ := Series.of_rounds hround hrounds
  obtain ⟨suffixes, hsuffixes, hseries⟩ := hseries.exists_mapM fun _ _ hs => hs
  rw [List.append_nil]
  refine ⟨_, ?_, .suffixed hv hseries⟩
  simp [Build.suffixed, Build.part, MatchValue.ofMany, Phrase.manyOf?, Phrase.many?,
    Phrase.expr?, hsuffixes]

/-- One of two rules. -/
theorem yields_either {rule' : String}
    (h : (.or [use rule, use rule'] : Rule).Yields Γ.contract grammar cst parent taken v b) :
    (Γ rule parent taken v ∨ Γ rule' parent taken v) ∧ b = [] := by
  rcases h with h | h | h
  · exact ⟨.inl (yields_use h).1, (yields_use h).2⟩
  · exact ⟨.inr (yields_use h).1, (yields_use h).2⟩
  · exact h.elim

/-- An expression by one of two rules. -/
theorem Reading.Formed.either (hΓ : Γ.Formed) {rule' : String}
    (hrule : rule ∉ ["bop", "pat", "let", "return", "for", "stmt"])
    (hrule' : rule' ∉ ["bop", "pat", "let", "return", "for", "stmt"])
    (h : Γ rule parent taken v ∨ Γ rule' parent taken v) : ∃ e, v = .expr e := by
  rcases h with h | h
  · exact hΓ.expr hrule h
  · exact hΓ.expr hrule' h

theorem hands_lambdaRule (hΓ : Γ.Formed)
    (h : lambdaRule.Hands Γ.contract grammar cst parent taken b) :
    Builds Γ cst "expr " parent taken (Build.lambda b (regionOf taken [] parent)) := by
  obtain ⟨l, t₁, children, multiline, v, b₁, b₂, rfl, rfl, hnode, hargs, h₁⟩ := run_listOf (run_of_hands h)
  obtain ⟨ps, hseries, rfl, hps⟩ := yields_manyAs (fun _ _ => hΓ.pat?) hargs
  obtain ⟨l', t₂, rfl, harrow, h₂⟩ := run_kwd h₁
  obtain ⟨t, t₃, v', b₁, b₂, rfl, rfl, ⟨b', rfl, hor⟩, h₃⟩ := run_cons h₂
  obtain ⟨rfl, rfl⟩ := run_nil h₃
  obtain ⟨hbody, rfl⟩ := yields_either hor
  obtain ⟨body, rfl⟩ := hΓ.either (by decide) (by decide) hbody
  rw [List.append_nil]
  refine ⟨_, ?_, .lambda hnode hseries harrow hbody⟩
  simp [Build.lambda, Build.part, Phrase.expr?, hps]

theorem hands_case (hΓ : Γ.Formed)
    (h : (.tx (.seq [useAs "pat" "pat", useAs "body" "stmt"]) Build.case : Rule).Hands Γ.contract grammar cst
      parent taken b) :
    ∃ c, Build.case b (regionOf taken [] parent) = some (.case c) ∧ CaseOf Γ parent taken c := by
  obtain ⟨t, t', v, b', rfl, rfl, hv, h₁⟩ := run_useAs (run_of_hands h)
  obtain ⟨v', rfl, hv'⟩ := run_last h₁
  obtain ⟨p, rfl⟩ := hΓ.pat hv
  obtain ⟨body, hbody⟩ := hΓ.exists_body? hv'
  refine ⟨.mk p body, ?_, t, t', p, v', body, rfl, hv, hv', hbody, rfl⟩
  simp [Build.case, Build.part, Phrase.pat?, hbody]

/-- The cases of a table. -/
theorem exists_cases (hΓ : Γ.Formed) {rows : List (List Loc)} {vs : List Phrase}
    (h : Yield.rows ((.tx (.seq [useAs "pat" "pat", useAs "body" "stmt"]) Build.case : Rule).Yields Γ.contract
      grammar cst parent) rows vs b) :
    b = [] ∧ ∃ cases, vs.mapM Phrase.case? = some cases ∧ List.Forall₂ (CaseOf Γ parent) rows cases := by
  induction rows generalizing vs b with
  | nil =>
    obtain ⟨rfl, rfl⟩ := h
    exact ⟨rfl, [], rfl, .nil⟩
  | cons cells rows ih =>
    obtain ⟨v, vs, b₁, b₂, rfl, rfl, ⟨rfl, v', b', hcase, hbuild⟩, hrest⟩ := h
    obtain ⟨rfl, cases, hcases, hall⟩ := ih hrest
    obtain ⟨c, hbuilt, hc⟩ := hands_case hΓ ⟨v', hcase⟩
    cases hbuild.symm.trans hbuilt
    exact ⟨rfl, c :: cases, by simp [Phrase.case?, hcases], .cons hc hall⟩

theorem hands_switchRule (hΓ : Γ.Formed)
    (h : switchRule.Hands Γ.contract grammar cst parent taken b) :
    Builds Γ cst "expr " parent taken (Build.switch b (regionOf taken [] parent)) := by
  obtain ⟨l, t₁, rfl, hswitch, h₁⟩ := run_kwd (run_of_hands h)
  obtain ⟨l', t₂, children, multiline, v, b₁, b₂, rfl, rfl, hnode, htarget, h₂⟩ := run_listOf h₁
  obtain ⟨hv, rfl⟩ := yields_useAs htarget
  obtain ⟨target, rfl⟩ := hΓ.expr (by decide) hv
  obtain ⟨t, t₃, v', b₁, b₂, rfl, rfl,
    ⟨b', rfl, l'', rows, multiline', vs, rfl, hnode', rfl, hrows⟩, h₃⟩ := run_cons h₂
  obtain ⟨rfl, rfl⟩ := run_nil h₃
  obtain ⟨rfl, cases, hcases, hall⟩ := exists_cases hΓ hrows
  refine ⟨_, ?_, .switch hswitch hnode hv hnode' hall⟩
  simp [Build.switch, Build.part, MatchValue.ofMany, Phrase.manyOf?, Phrase.many?,
    Phrase.expr?, hcases]

theorem hands_ifRule (hΓ : Γ.Formed) (h : ifRule.Hands Γ.contract grammar cst parent taken b) :
    Builds Γ cst "if" parent taken (Build.ifElse b (regionOf taken [] parent)) := by
  obtain ⟨l, t₁, rfl, hif, h₁⟩ := run_kwd (run_of_hands h)
  obtain ⟨l', t₂, children, multiline, v, b₁, b₂, rfl, rfl, hnode, hcond, h₂⟩ := run_listOf h₁
  obtain ⟨hv, rfl⟩ := yields_useAs hcond
  obtain ⟨cond, rfl⟩ := hΓ.expr (by decide) hv
  obtain ⟨t, t₃, v', b', rfl, rfl, hv', h₃⟩ := run_useAs h₂
  obtain ⟨yes, rfl⟩ := hΓ.expr (by decide) hv'
  obtain ⟨t', t₄, v'', b₁, b₂, rfl, rfl, hopt, h₄⟩ := run_cons h₃
  obtain ⟨rfl, rfl⟩ := run_nil h₄
  rw [List.append_nil]
  rcases hopt with ⟨vs, rfl, helse⟩ | ⟨rfl, rfl, rfl⟩
  · -- There is a second branch, and its value is the part that is named last.
    obtain ⟨l'', t₅, rfl, hword, h₅⟩ := run_kwd ⟨vs, helse⟩
    obtain ⟨t'', t₆, w, b₁, b₂, rfl, rfl, ⟨b', rfl, hor⟩, h₆⟩ := run_cons h₅
    obtain ⟨rfl, rfl⟩ := run_nil h₆
    obtain ⟨hw, rfl⟩ := yields_either hor
    obtain ⟨no, rfl⟩ := hΓ.either (by decide) (by decide) hw
    have hno (e : Expr) (he : e ∈ some no) : ∃ l₁ t₁, l'' :: t'' = l₁ :: t₁ ∧
        cst.node? l₁ = some (.id "else") ∧
        (Γ "if" parent t₁ (.expr e) ∨ Γ "block" parent t₁ (.expr e)) := by
      cases he
      exact ⟨l'', t'', rfl, hword, hw⟩
    rw [List.append_nil]
    refine ⟨.expr (.ifElse cond yes (some no) _), ?_, .ifElse rfl hif hnode hv hv' nofun hno⟩
    simp [Build.ifElse, Build.part, Phrase.expr?]
  · refine ⟨.expr (.ifElse cond yes none _), ?_, .ifElse rfl hif hnode hv hv' (fun _ => rfl) (by simp)⟩
    simp [Build.ifElse, Build.part, Phrase.expr?]

theorem yields_operation (hΓ : Γ.Formed)
    (h : (.seq [use "bop", use "expr"] : Rule).Yields Γ.contract grammar cst parent taken v b) :
    b = [] ∧ ∃ o, Build.operation v = some o ∧
      (OperationOf Γ parent taken o ∧ o.1.text ∈ Operator.words) := by
  obtain ⟨vs, rfl, t, t', v, vs', b₁, b₂, rfl, rfl, rfl, hop, t₁, t₂, v', vs'', b₃, b₄, rfl, rfl, rfl, hright,
    rfl, rfl, rfl⟩ := h
  obtain ⟨hv, rfl⟩ := yields_use hop
  obtain ⟨hv', rfl⟩ := yields_use hright
  obtain ⟨w, rfl, hw⟩ := hΓ.bop hv
  obtain ⟨e, rfl⟩ := hΓ.expr (by decide) hv'
  exact ⟨rfl, (w, e), rfl, ⟨t, t₁, by simp, hv, hv'⟩, hw⟩

/-- Every operator of the language has a level. -/
theorem exists_level? {op : String} (h : op ∈ Operator.words) :
    ∃ level assoc, Operator.level? op = some (level, assoc) := by
  have hall : ∀ op ∈ Operator.words, (Operator.level? op).isSome = true := by decide
  obtain ⟨⟨level, assoc⟩, hop⟩ := Option.isSome_iff_exists.1 (hall op h)
  exact ⟨level, assoc, hop⟩

theorem hands_operationsRule (hΓ : Γ.Formed)
    (h : operationsRule.Hands Γ.contract grammar cst parent taken b) :
    Builds Γ cst "expr " parent taken (Build.operations b (regionOf taken [] parent)) := by
  obtain ⟨t, t', v, b', rfl, rfl, hv, h₁⟩ := run_useAs (run_of_hands h)
  obtain ⟨t₁, t₂, vs, b₁, b₂, rfl, rfl, ⟨b', rfl, vs, rfl, hrounds⟩, h₂⟩ := run_cons h₁
  obtain ⟨rfl, rfl⟩ := run_nil h₂
  obtain ⟨first, rfl⟩ := hΓ.expr (by decide) hv
  have hround (t : List Loc) (v : Phrase) (b : Bindings Phrase)
      (hv : (.seq [use "bop", use "expr"] : Rule).Yields Γ.contract grammar cst parent t v b) :
      b = [] ∧ ∃ o, Build.operation v = some o ∧ (OperationOf Γ parent t o ∧ o.1.text ∈ Operator.words) :=
    yields_operation hΓ hv
  obtain ⟨rfl, hseries⟩ := Series.of_rounds hround hrounds
  obtain ⟨rest, hrest, hseries⟩ := hseries.exists_mapM fun _ _ ho => ho
  -- Every word that is read as an operator has a level, so climbing cannot fail.
  have hlevels (o : Word × Expr) (ho : o ∈ rest) :
      ∃ level assoc, Operator.level? o.1.text = some (level, assoc) := by
    obtain ⟨u, -, -, hword⟩ := hseries.mem ho
    exact exists_level? hword
  obtain ⟨tree, hclimb, hgroups⟩ := Operator.exists_climb first hlevels
  rw [List.append_nil]
  refine ⟨_, ?_, .operations hv (hseries.imp fun _ _ ho => ho.1) hgroups⟩
  simp [Build.operations, Build.part, MatchValue.ofMany, Phrase.manyOf?,
    Phrase.many?, Phrase.expr?, hrest, hclimb]

/-! ## Patterns -/

theorem hands_anyPat
    (h : (.tx (keyword "_") Build.anyPat : Rule).Hands Γ.contract grammar cst parent taken b) :
    Builds Γ cst "pat" parent taken (Build.anyPat b (regionOf taken [] parent)) := by
  obtain ⟨v, l, rfl, hnode, -⟩ := h
  exact ⟨_, rfl, .anyPat hnode⟩

theorem hands_numberPat
    (h : (.tx (.group "value" .number) Build.numberPat : Rule).Hands Γ.contract grammar cst parent taken b) :
    Builds Γ cst "pat" parent taken (Build.numberPat b (regionOf taken [] parent)) := by
  obtain ⟨v, b', rfl, l, word, rfl, hnode, hdigits, hle, rfl, rfl⟩ := h
  exact ⟨_, rfl, .numberPat ⟨word, hnode, hdigits, hle, rfl⟩⟩

theorem hands_boolPat
    (h : (.tx (.group "value" (.or [keyword "true", keyword "false"])) Build.boolPat : Rule).Hands Γ.contract
      grammar cst parent taken b) :
    Builds Γ cst "pat" parent taken (Build.boolPat b (regionOf taken [] parent)) := by
  obtain ⟨v, b', rfl, ⟨l, rfl, hnode, rfl, rfl⟩ | ⟨l, rfl, hnode, rfl, rfl⟩ | hfalse⟩ := h
  · exact ⟨_, rfl, .boolPat hnode (by simp)⟩
  · exact ⟨_, rfl, .boolPat hnode (by simp)⟩
  · exact hfalse.elim

theorem hands_varPat
    (h : (.tx (.group "id" (.id (some .decl))) Build.varPat : Rule).Hands Γ.contract grammar cst parent
      taken b) : Builds Γ cst "pat" parent taken (Build.varPat b (regionOf taken [] parent)) := by
  obtain ⟨v, b', rfl, l, word, rfl, hnode, hname, rfl, rfl⟩ := h
  exact ⟨_, rfl, .varPat (.of_node hnode hname)⟩

/-- Phrases are embedded in what is read exactly if expressions are embedded in the string literal. -/
theorem embedsOf_eq_nil_iff {P : Loc → Phrase → Bindings Phrase → Prop} {spans : List (TextSpan Loc)}
    {vs : List (TextSpan Phrase)} (h : Yield.spans P spans vs b) :
    Phrase.embedsOf vs = [] ↔ ∀ item, .embed item ∉ spans := by
  induction spans generalizing vs b with
  | nil =>
    obtain ⟨rfl, -⟩ := h
    simp [Phrase.embedsOf]
  | cons span spans ih =>
    cases span with
    | text s =>
      obtain ⟨vs, rfl, hrest⟩ := h
      simpa [Phrase.embedsOf] using ih hrest
    | embed item =>
      obtain ⟨v, vs, b₁, b₂, rfl, -⟩ := h
      exact iff_of_false (List.cons_ne_nil _ _) fun hbare => hbare item List.mem_cons_self

/-- A string literal is a pattern unless something is embedded in it. -/
theorem hands_strPat
    (h : (.tx (.group "value" (.text .any)) Build.strPat : Rule).Hands Γ.contract grammar cst parent taken b) :
    ∃ l spans, taken = [l] ∧ cst.node? l = some (.text spans) ∧
      ((∀ item, .embed item ∉ spans) →
        Builds Γ cst "pat" parent taken (Build.strPat b (regionOf taken [] parent))) ∧
      ((∃ item, .embed item ∈ spans) → Build.strPat b (regionOf taken [] parent) = none) := by
  obtain ⟨v, b', rfl, l, spans, vs, rfl, hnode, rfl, hspans⟩ := h
  refine ⟨l, spans, rfl, hnode, fun hbare => ?_, fun ⟨item, hitem⟩ => ?_⟩
  · have hembeds := (embedsOf_eq_nil_iff hspans).2 hbare
    refine ⟨.pat (.str (Phrase.textOf vs) ⟨l, none⟩), ?_, .strPat hnode hbare⟩
    simp [Build.strPat, Build.textPart, Build.part, MatchValue.ofText, hembeds, regionOf]
  · have hembeds : Phrase.embedsOf vs ≠ [] := fun hnil => (embedsOf_eq_nil_iff hspans).1 hnil item hitem
    simp [Build.strPat, Build.textPart, Build.part, MatchValue.ofText, hembeds]

theorem hands_conPat (hΓ : Γ.Formed)
    (h : (.tx (listOf .smooshed (.seq [.group "name" (.id (some .ref)), listOf .round (manyAs "args" "pat")]))
      Build.conPat : Rule).Hands Γ.contract grammar cst parent taken b) :
    Builds Γ cst "pat" parent taken (Build.conPat b (regionOf taken [] parent)) := by
  obtain ⟨v, hlist⟩ := h
  obtain ⟨l, members, multiline, rfl, hnode, vs, rfl, hmembers⟩ := yields_listOf hlist
  obtain ⟨t, t', v, b₁, b₂, rfl, rfl, ⟨b', rfl, l₁, word, rfl, hword, hname, rfl, rfl⟩, h₁⟩ :=
    run_cons ⟨vs, hmembers⟩
  obtain ⟨l₂, t₂, children, multiline', v', b₃, b₄, rfl, rfl, hnode', hargs, h₂⟩ := run_listOf h₁
  obtain ⟨rfl, rfl⟩ := run_nil h₂
  obtain ⟨ps, hseries, rfl, hps⟩ := yields_manyAs (fun _ _ => hΓ.pat?) hargs
  refine ⟨.pat (.con word ps ⟨l, none⟩), ?_, .conPat hnode (.of_node hword hname) hnode' hseries⟩
  simp [Build.conPat, Build.part, MatchValue.ofId, Phrase.word?, hps, regionOf]

theorem hands_tuplePat (hΓ : Γ.Formed)
    (h : (.tx (listOf .round (manyAs "items" "pat")) Build.tuplePat : Rule).Hands Γ.contract grammar cst parent
      taken b) : Builds Γ cst "pat" parent taken (Build.tuplePat b (regionOf taken [] parent)) := by
  obtain ⟨l, children, multiline, ps, rfl, hnode, hseries, hbuilt⟩ :=
    hands_members (fun _ _ _ => hΓ.pat?) (fun _ _ => rfl) h
  exact ⟨_, hbuilt, .tuplePat hnode hseries⟩

/-! ## Rules -/

theorem Builds.made {built : Option Phrase} (h : Builds Γ cst rule parent taken built) (hv : built = some v) :
    Made Γ cst rule parent taken v := by
  obtain ⟨w, hw, hmade⟩ := h
  cases hv.symm.trans hw
  exact hmade

/-- What a builder makes is all that leaves. -/
theorem made_of_tx {build : Bindings Phrase → Region → Option Phrase}
    (hhands : ∀ b, (.tx inner build : Rule).Hands Γ.contract grammar cst parent taken b →
      Builds Γ cst rule parent taken (build b (regionOf taken [] parent)))
    (h : (.tx inner build : Rule).Yields Γ.contract grammar cst parent taken v b) :
    b = [] ∧ Made Γ cst rule parent taken v := by
  obtain ⟨rfl, v', b', hinner, hbuild⟩ := h
  exact ⟨rfl, (hhands b' ⟨v', hinner⟩).made hbuild⟩

theorem made_stmtRule (hΓ : Γ.Formed) (h : stmtRule.Yields Γ.contract grammar cst parent taken v b) :
    b = [] ∧ Made Γ cst "stmt" parent taken v := by
  rcases h with h | h | h | h | h
  · obtain ⟨l, children, multiline, rfl, hnode, hor⟩ := yields_listOf h
    rcases hor with h | h | h | h
    · exact ⟨(yields_use h).2, .spacedStmt hnode (by decide) (yields_use h).1⟩
    · exact ⟨(yields_use h).2, .spacedStmt hnode (by decide) (yields_use h).1⟩
    · exact ⟨(yields_use h).2, .spacedStmt hnode (by decide) (yields_use h).1⟩
    · exact h.elim
  · exact made_of_tx (fun _ => hands_bareReturn) h
  · exact ⟨(yields_use h).2, .blockStmt (yields_use h).1⟩
  · exact made_of_tx (fun _ => hands_exprStmt hΓ) h
  · exact h.elim

theorem made_exprRule (h : exprRule.Yields Γ.contract grammar cst parent taken v b) :
    b = [] ∧ Made Γ cst "expr" parent taken v := by
  rcases h with h | h | h | h | h | h | h | h
  -- The alternatives that are a single rule each.
  iterate 6 exact ⟨(yields_use h).2, .single (by decide) (yields_use h).1⟩
  · obtain ⟨l, children, multiline, rfl, hnode, huse⟩ := yields_listOf h
    exact ⟨(yields_use huse).2, .spaced hnode (yields_use huse).1⟩
  · exact h.elim

theorem made_spacedRule (hΓ : Γ.Formed) (h : spacedRule.Yields Γ.contract grammar cst parent taken v b) :
    b = [] ∧ Made Γ cst "expr " parent taken v := by
  rcases h with h | h | h | h | h
  · exact made_of_tx (fun _ => hands_lambdaRule hΓ) h
  · exact made_of_tx (fun _ => hands_switchRule hΓ) h
  · exact ⟨(yields_use h).2, .ifExpr (yields_use h).1⟩
  · exact made_of_tx (fun _ => hands_operationsRule hΓ) h
  · exact h.elim

theorem made_patRule (hΓ : Γ.Formed) (h : patRule.Yields Γ.contract grammar cst parent taken v b) :
    b = [] ∧ Made Γ cst "pat" parent taken v := by
  rcases h with h | h | h | h | h | h | h | h
  · exact made_of_tx (fun _ => hands_anyPat) h
  · exact made_of_tx (fun _ => hands_numberPat) h
  · exact made_of_tx (fun _ => hands_boolPat) h
  · -- This builder refuses some of what it is given, and then nothing is read.
    obtain ⟨rfl, v', b', hinner, hbuild⟩ := h
    obtain ⟨l, spans, -, -, hbuilds, hnone⟩ := hands_strPat ⟨v', hinner⟩
    by_cases hembeds : ∃ item, .embed item ∈ spans
    · cases hbuild.symm.trans (hnone hembeds)
    · exact ⟨rfl, (hbuilds (not_exists.1 hembeds)).made hbuild⟩
  · exact made_of_tx (fun _ => hands_varPat) h
  · exact made_of_tx (fun _ => hands_conPat hΓ) h
  · exact made_of_tx (fun _ => hands_tuplePat hΓ) h
  · exact h.elim

/-- One of some words. -/
theorem yields_words {words : List String} {role : Role}
    (h : YieldsAny Γ.contract grammar cst (words.map (.kwd · role)) parent taken v b) :
    b = [] ∧ ∃ l, ∃ op ∈ words, taken = [l] ∧ cst.node? l = some (.id op) ∧ v = .word ⟨op, l⟩ := by
  induction words with
  | nil => exact h.elim
  | cons op words ih =>
    rcases h with ⟨l, rfl, hnode, rfl, rfl⟩ | h
    · exact ⟨rfl, l, op, List.mem_cons_self, rfl, hnode, rfl⟩
    · obtain ⟨hb, l, op', hop, htaken, hv⟩ := ih h
      exact ⟨hb, l, op', List.mem_cons_of_mem _ hop, htaken, hv⟩

/-- **What the rules read.**  Whatever the rules that it refers to may give, a rule of the language gives one
of the forms, and names no part for others. -/
theorem made_of_yields (hΓ : Γ.Formed) {m : Rule} (hrule : grammar.rule? rule = some m)
    (h : m.Yields Γ.contract grammar cst parent taken v b) : b = [] ∧ Made Γ cst rule parent taken v := by
  -- The rules one by one, in the order of the grammar.
  have hmem := (Dict.get?_ofList_iff (by decide) rule m).1 hrule
  simp only [List.mem_cons, List.not_mem_nil, or_false, Prod.mk.injEq] at hmem
  rcases hmem with ⟨rfl, rfl⟩ | ⟨rfl, rfl⟩ | ⟨rfl, rfl⟩ | ⟨rfl, rfl⟩ | ⟨rfl, rfl⟩ | ⟨rfl, rfl⟩ | ⟨rfl, rfl⟩ |
    ⟨rfl, rfl⟩ | ⟨rfl, rfl⟩ | ⟨rfl, rfl⟩ | ⟨rfl, rfl⟩ | ⟨rfl, rfl⟩ | ⟨rfl, rfl⟩ | ⟨rfl, rfl⟩ | ⟨rfl, rfl⟩ |
    ⟨rfl, rfl⟩ | ⟨rfl, rfl⟩
  · exact made_stmtRule hΓ h
  · exact made_of_tx (fun _ => hands_letRule hΓ) h
  · exact made_of_tx (fun _ => hands_returnRule hΓ) h
  · exact made_of_tx (fun _ => hands_forRule hΓ) h
  · exact made_of_tx (fun _ => hands_blockRule hΓ) h
  · exact made_exprRule h
  · exact made_of_tx (fun _ => hands_number) h
  · exact made_of_tx (fun _ => hands_var) h
  · exact made_of_tx (fun _ => hands_str hΓ) h
  · exact made_of_tx (fun _ => hands_tuple hΓ) h
  · exact made_of_tx (fun _ => hands_array hΓ) h
  · obtain ⟨l, children, multiline, rfl, hnode, huse⟩ := yields_listOf h
    exact ⟨(yields_use huse).2, .smooshed hnode (yields_use huse).1⟩
  · exact made_of_tx (fun _ => hands_suffixedRule hΓ) h
  · obtain ⟨hb, l, op, hop, rfl, hnode, rfl⟩ := yields_words h
    exact ⟨hb, .bop hnode hop⟩
  · exact made_spacedRule hΓ h
  · exact made_of_tx (fun _ => hands_ifRule hΓ) h
  · exact made_patRule hΓ h

/-- Contracts that the forms keep to are kept by the rules. -/
theorem keeps_of_made (hΓ : Γ.Formed)
    (hmade : ∀ rule parent taken v, Made Γ cst rule parent taken v → Γ rule parent taken v) :
    Keeps Γ.contract grammar cst := by
  intro rule m hrule parent taken v b hyields
  obtain ⟨hb, hv⟩ := made_of_yields hΓ hrule hyields
  exact ⟨hb, hmade rule parent taken v hv⟩

/-- What an item is read as keeps to the contracts that the rules keep where they note nothing but what `J`
holds of, if that is all that is noted for the item. -/
theorem reading_of_noted {J : Loc × Role → Prop} (hΓ : KeepsNoting Γ.contract grammar cst J) {root : Loc}
    {m : Rule} (hrule : grammar.rule? rule = some m) (hrun : (grammar.run cst m root).1 = some v)
    (hJ : ∀ e ∈ (grammar.run cst m root).2.journal, J e) : Γ rule root [root] v := by
  obtain ⟨bindings, hmatches⟩ := Grammar.matches_of_run hrun
  obtain ⟨taken, htaken, hyields⟩ := hmatches.yields_noting hΓ _ rfl hJ
  obtain rfl := htaken.trans (List.append_nil taken)
  exact (hΓ rule m hrule root [root] [] v _ bindings hmatches hJ hyields).2

/-- What an item is read as keeps to the contracts that the rules keep. -/
theorem reading_of_value (hΓ : Keeps Γ.contract grammar cst) {root : Loc}
    (h : (grammar.parse cst rule root).value = some v) : Γ rule root [root] v := by
  obtain ⟨m, hrule, hrun, -⟩ := Grammar.parse_of_value h
  exact reading_of_noted (J := fun _ => True) hΓ.noting hrule hrun fun _ _ => trivial

/-- The forms of the language have the forms that belong to their rules. -/
theorem Made.formed (hΓ : Γ.Formed) (h : Made Γ cst rule parent taken v) : Form rule v := by
  cases h with
  | letBind | ret | forLoop | block | bareReturn | exprStmt | number | var | str | tuple | array | suffixed
  | lambda | switch | ifElse | operations | anyPat | numberPat | boolPat | strPat | varPat | conPat
  | tuplePat => simp [Form]
  | bop _ hop => simp [Form, hop]
  | spacedStmt hnode hrule hv =>
    obtain ⟨s, rfl⟩ := hΓ.stmtOnly hrule hv
    simp [Form]
  | single hrule hv =>
    have hexpr : ∀ rule ∈ ["expr num", "expr var", "expr text", "expr tuple", "expr array", "expr!"],
        rule ∉ ["bop", "pat", "let", "return", "for", "stmt"] := by decide
    obtain ⟨e, rfl⟩ := hΓ.expr (hexpr _ hrule) hv
    simp [Form]
  | blockStmt hv | spaced _ hv | smooshed _ hv | ifExpr hv =>
    obtain ⟨e, rfl⟩ := hΓ.expr (by decide) hv
    simp [Form]

end

end Language
end TypeTrace
