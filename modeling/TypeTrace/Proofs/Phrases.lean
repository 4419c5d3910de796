import TypeTrace.Proofs.Bare
import TypeTrace.Proofs.Reading
import TypeTrace.Syntax.Phrase

/-!
# Building phrases without regions

The functions that put phrases together do not look at regions and places.  A phrase that is built
without them is the phrase that is built with them, once they are taken away: the functions commute
with taking them away.

## Main definitions

* `Suffix.bare`, `Phrase.bare`, `Bindings.bare`: suffixes, phrases and named parts without regions
* `Build.Blind`: a function that commutes with taking regions away

## Main results

* `Suffix.applyAll_bare`, `Operator.climb_bare`: suffixes and operators without regions
* `Build.blind_letBind` and the like: every function of `Build` is blind to regions
-/

namespace TypeTrace

/-! ## Phrases -/

/-- The word without its place. -/
def Word.bare (w : Word) : Word := ⟨w.text, 0⟩

@[simp] theorem Word.text_bare (w : Word) : w.bare.text = w.text := rfl

@[simp] theorem Word.region_bare (w : Word) : (⟨w.bare.loc, none⟩ : Region) = .blank := rfl

/-- The suffix without regions. -/
def Suffix.bare : Suffix → Suffix
  | .attr name _ => .attr name.bare .blank
  | .index value _ => .index value.bare .blank
  | .call args _ => .call (args.map Expr.bare) .blank

mutual

/-- The phrase without regions and places. -/
def Phrase.bare : Phrase → Phrase
  | .absent => .absent
  | .node _ => .node 0
  | .word w => .word w.bare
  | .number value _ => .number value 0
  | .text spans _ => .text (Phrase.bareSpans spans) 0
  | .many items => .many (Phrase.bareAll items)
  | .expr e => .expr e.bare
  | .stmt s => .stmt s.bare
  | .pat p => .pat p.bare
  | .suffix s => .suffix s.bare
  | .case c => .case c.bare

/-- The phrases without regions and places. -/
def Phrase.bareAll : List Phrase → List Phrase
  | [] => []
  | p :: ps => p.bare :: Phrase.bareAll ps

/-- The pieces of a string literal without regions and places. -/
def Phrase.bareSpans : List (TextSpan Phrase) → List (TextSpan Phrase)
  | [] => []
  | s :: spans => Phrase.bareSpan s :: Phrase.bareSpans spans

/-- A piece of a string literal without regions and places. -/
def Phrase.bareSpan : TextSpan Phrase → TextSpan Phrase
  | .text s => .text s
  | .embed p => .embed p.bare

end

section

-- The equations of this function are made here, not by all the proofs at once that need them first.
attribute [local simp] Phrase.bare

end

namespace Phrase

@[simp] theorem bareAll_eq_map (ps : List Phrase) : bareAll ps = ps.map bare := by
  induction ps with
  | nil => rw [bareAll, List.map_nil]
  | cons p ps ih => rw [bareAll, ih, List.map_cons]

theorem bareSpan_eq_map (s : TextSpan Phrase) : bareSpan s = s.map bare := by
  cases s <;> rw [bareSpan] <;> rfl

@[simp] theorem bareSpans_eq_map (spans : List (TextSpan Phrase)) :
    bareSpans spans = spans.map (TextSpan.map bare) := by
  induction spans with
  | nil => rw [bareSpans, List.map_nil]
  | cons s spans ih => rw [bareSpans, ih, List.map_cons, bareSpan_eq_map]

/-! ### Parts of a program -/

theorem expr?_bare (p : Phrase) : p.bare.expr? = p.expr?.map Expr.bare := by
  cases p <;> rw [bare] <;> rfl

theorem pat?_bare (p : Phrase) : p.bare.pat? = p.pat?.map Pat.bare := by
  cases p <;> rw [bare] <;> rfl

theorem word?_bare (p : Phrase) : p.bare.word? = p.word?.map Word.bare := by
  cases p <;> rw [bare] <;> rfl

theorem suffix?_bare (p : Phrase) : p.bare.suffix? = p.suffix?.map Suffix.bare := by
  cases p <;> rw [bare] <;> rfl

theorem case?_bare (p : Phrase) : p.bare.case? = p.case?.map Case.bare := by
  cases p <;> rw [bare] <;> rfl

theorem many?_bare (p : Phrase) : p.bare.many? = p.many?.map (List.map bare) := by
  cases p <;> simp [bare, many?]

theorem stmt?_bare (p : Phrase) : p.bare.stmt? = p.stmt?.map Stmt.bare := by
  cases p <;> simp [bare, stmt?, Stmt.bare]

theorem body?_bare (p : Phrase) : p.bare.body? = p.body?.map Expr.bare := by
  cases p with
  | stmt s =>
    cases s <;> simp [bare, Stmt.bare, body?, Stmt.region, Expr.bare]
  | _ => rw [bare]; rfl

theorem mapM_form_bare {α : Type} {form : Phrase → Option α} {f : α → α}
    (hform : ∀ p, form p.bare = (form p).map f) (ps : List Phrase) :
    (ps.map bare).mapM form = (ps.mapM form).map (List.map f) := by
  induction ps with
  | nil => rfl
  | cons p ps ih =>
    rw [List.map_cons, List.mapM_cons, List.mapM_cons, hform, ih]
    cases form p with
    | none => rfl
    | some a => cases ps.mapM form <;> rfl

theorem manyOf?_bare {α : Type} {form : Phrase → Option α} {f : α → α}
    (hform : ∀ p, form p.bare = (form p).map f) (p : Phrase) :
    p.bare.manyOf? form = (p.manyOf? form).map (List.map f) := by
  rw [manyOf?, manyOf?, many?_bare]
  cases p.many? with
  | none => rfl
  | some ps => exact mapM_form_bare hform ps

/-! ### Tuples, arrays and string literals -/

theorem tuple_bare (src : Region) (es : List Expr) :
    tuple .blank (es.map Expr.bare) = (tuple src es).bare := by
  induction es with
  | nil => rfl
  | cons e es ih =>
    cases es with
    | nil => rfl
    | cons e' es =>
      rw [List.map_cons, List.map_cons, tuple, ← List.map_cons, ih, tuple]
      simp [Expr.bare]

theorem array_bare (src : Region) (es : List Expr) :
    array .blank (es.map Expr.bare) = (array src es).bare := by
  induction es with
  | nil => rfl
  | cons e es ih =>
    rw [List.map_cons, array, ih, array]
    simp [Expr.bare]

theorem tuplePat_bare (src : Region) (ps : List Pat) :
    tuplePat .blank (ps.map Pat.bare) = (tuplePat src ps).bare := by
  induction ps with
  | nil => rfl
  | cons p ps ih =>
    cases ps with
    | nil => rfl
    | cons p' ps =>
      rw [List.map_cons, List.map_cons, tuplePat, ← List.map_cons, ih, tuplePat]
      simp [Pat.bare]

theorem textOf_map {α β : Type} (f : α → β) (spans : List (TextSpan α)) :
    textOf (spans.map (TextSpan.map f)) = textOf spans := by
  induction spans with
  | nil => rfl
  | cons s spans ih => cases s <;> simp [TextSpan.map, textOf, ih]

theorem embedsOf_map {α β : Type} (f : α → β) (spans : List (TextSpan α)) :
    embedsOf (spans.map (TextSpan.map f)) = (embedsOf spans).map f := by
  induction spans with
  | nil => rfl
  | cons s spans ih => cases s <;> simp [TextSpan.map, embedsOf, ih]

end Phrase

/-! ## Suffixes and operators -/

theorem Suffix.applyAll_bare (target : Expr) (suffixes : List Suffix) :
    applyAll target.bare (suffixes.map bare) = (applyAll target suffixes).bare := by
  fun_induction applyAll target suffixes with
  | case1 target => rfl
  | case2 target name src args src' rest ih =>
    rw [← ih]
    simp [applyAll, bare, Expr.bare, method]
  | case3 target name src rest hcall ih =>
    rw [← ih]
    -- What follows an attribute that is not called stays no call.
    cases rest with
    | nil => simp [applyAll, bare, Expr.bare, method]
    | cons next rest =>
      cases next with
      | attr | index => simp [applyAll, bare, Expr.bare, method]
      | call => exact absurd rfl (hcall _ _ _)
  | case4 target i src rest ih =>
    rw [← ih]
    simp [applyAll, bare, Expr.bare]
  | case5 target args src rest ih =>
    rw [← ih]
    simp [applyAll, bare, Expr.bare]

namespace Operator

/-- The pending operator without its place. -/
def Pending.bare (p : Pending) : Pending := ⟨p.op.bare, p.level, p.assoc⟩

@[simp] theorem Pending.op_bare (p : Pending) : p.bare.op = p.op.bare := rfl

/-- An operator and an operand without regions. -/
def bareOperation (operation : Word × Expr) : Word × Expr := (operation.1.bare, operation.2.bare)

/-- The two stacks without regions. -/
def bareStacks (both : List Pending × List Expr) : List Pending × List Expr :=
  (both.1.map Pending.bare, both.2.map Expr.bare)

theorem apply_bare (op : Word) (left right : Expr) :
    apply op.bare left.bare right.bare = (apply op left right).bare := by
  simp [apply, Expr.bare]

theorem reduceWhile_bare {ends : Pending → Bool} (hends : ∀ p : Pending, ends p.bare = ends p)
    (ops : List Pending) (operands : List Expr) :
    reduceWhile ends (ops.map Pending.bare) (operands.map Expr.bare) =
      (reduceWhile ends ops operands).map bareStacks := by
  induction ops generalizing operands with
  | nil => rfl
  | cons p ops ih =>
    by_cases hp : ends p = true
    · rcases operands with _ | ⟨right, _ | ⟨left, operands⟩⟩
      · simp [reduceWhile, hends, hp]
      · simp [reduceWhile, hends, hp]
      · have hreduce := ih (apply p.op left right :: operands)
        rw [List.map_cons, ← apply_bare] at hreduce
        simpa [reduceWhile, hends, hp] using hreduce
    · simp [reduceWhile, hends, hp, bareStacks]

theorem climbWith_bare (ops : List Pending) (operands : List Expr) (rest : List (Word × Expr)) :
    climbWith (ops.map Pending.bare) (operands.map Expr.bare) (rest.map bareOperation) =
      (climbWith ops operands rest).map Expr.bare := by
  induction rest generalizing ops operands with
  | nil =>
    rw [List.map_nil, climbWith, climbWith, reduceWhile_bare fun _ => rfl]
    cases reduceWhile (fun _ => true) ops operands with
    | none => rfl
    | some both => exact List.head?_map
  | cons operation rest ih =>
    obtain ⟨op, right⟩ := operation
    rw [List.map_cons, bareOperation, climbWith, climbWith, Word.text_bare]
    cases level? op.text with
    | none => rfl
    | some found =>
      obtain ⟨level, assoc⟩ := found
      -- Which operators are applied depends on their levels, which regions leave alone.
      have hreduce : reduceWhile (·.endsAt level) (ops.map Pending.bare) (operands.map Expr.bare) =
          (reduceWhile (·.endsAt level) ops operands).map bareStacks :=
        reduceWhile_bare (fun _ => rfl) ops operands
      simp only [Option.bind_eq_bind, Option.bind_some, hreduce]
      cases reduceWhile (·.endsAt level) ops operands with
      | none => rfl
      | some both => exact ih (⟨op, level, assoc⟩ :: both.1) (right :: both.2)

theorem climb_bare (first : Expr) (rest : List (Word × Expr)) :
    climb first.bare (rest.map bareOperation) = (climb first rest).map Expr.bare :=
  climbWith_bare [] [first] rest

end Operator

/-! ## Building phrases -/

/-- The named parts without regions and places. -/
def Bindings.bare (b : Bindings Phrase) : Bindings Phrase := b.map fun e => (e.1, e.2.bare)

theorem Bindings.get?_bare (b : Bindings Phrase) (name : String) :
    Bindings.get? b.bare name = (Bindings.get? b name).map Phrase.bare := by
  induction b with
  | nil => rfl
  | cons e b ih =>
    obtain ⟨n, v⟩ := e
    simp only [Bindings.get?, Bindings.bare, List.map_cons, List.lookup_cons] at ih ⊢
    split
    · rfl
    · exact ih

namespace Build

/-- The function commutes with taking regions and places away. -/
def Blind (build : Bindings Phrase → Region → Option Phrase) : Prop :=
  ∀ b src, build b.bare .blank = (build b src).map Phrase.bare

section Parts

variable {α : Type} {form : Phrase → Option α} {f : α → α}

/-- A part of a phrase without regions. -/
theorem part_bare (hform : ∀ p, form p.bare = (form p).map f) (b : Bindings Phrase) (name : String) :
    part b.bare name form = (part b name form).map f := by
  rw [part, part, Bindings.get?_bare]
  cases Bindings.get? b name with
  | none => rfl
  | some p => exact hform p

/-- What is built from a part, without regions. -/
theorem bind_part_bare (hform : ∀ p, form p.bare = (form p).map f) {b : Bindings Phrase} {name : String}
    {next next' : α → Option Phrase} (hnext : ∀ a, next (f a) = (next' a).map Phrase.bare) :
    (part b.bare name form).bind next = ((part b name form).bind next').map Phrase.bare := by
  rw [part_bare hform]
  cases part b name form with
  | none => rfl
  | some a => exact hnext a

end Parts

open Phrase

theorem blind_bareReturn : Blind bareReturn := fun _ _ => rfl

theorem blind_exprStmt : Blind exprStmt := fun _ _ =>
  bind_part_bare expr?_bare fun _ => rfl

theorem blind_letBind : Blind letBind := fun _ _ =>
  bind_part_bare pat?_bare fun _ => bind_part_bare expr?_bare fun _ => rfl

theorem blind_ret : Blind ret := fun _ _ =>
  bind_part_bare expr?_bare fun _ => rfl

theorem blind_forLoop : Blind forLoop := fun _ _ =>
  bind_part_bare stmt?_bare fun _ => bind_part_bare expr?_bare fun _ =>
    bind_part_bare expr?_bare fun _ => bind_part_bare expr?_bare fun _ => rfl

theorem blind_block : Blind block := fun _ _ =>
  bind_part_bare (manyOf?_bare stmt?_bare) fun ss => by simp [Phrase.bare, Expr.bare]

/-! ### Expressions -/

theorem numberPart_bare (b : Bindings Phrase) (name : String) :
    numberPart b.bare name = numberPart b name := by
  rw [numberPart, numberPart, part, part, Bindings.get?_bare]
  cases Bindings.get? b name with
  | none => rfl
  | some p => cases p <;> simp [bare]

theorem textPart_bare (b : Bindings Phrase) (name : String) :
    textPart b.bare name = (textPart b name).map (List.map (TextSpan.map bare)) := by
  rw [textPart, textPart, part, part, Bindings.get?_bare]
  cases Bindings.get? b name with
  | none => rfl
  | some p => cases p <;> simp [bare]

theorem blind_number : Blind number := by
  intro b src
  rw [number, number, numberPart_bare]
  cases numberPart b "value" <;> rfl

theorem blind_var : Blind var := fun _ _ => bind_part_bare word?_bare fun _ => rfl

theorem blind_str : Blind str := by
  intro b src
  rw [str, str, textPart_bare]
  cases textPart b "spans" with
  | none => rfl
  | some spans =>
    simp only [Option.map_some, Option.bind_eq_bind, Option.bind_some, embedsOf_map, textOf_map,
      mapM_form_bare expr?_bare]
    cases (embedsOf spans).mapM expr? with
    | none => rfl
    | some es => simp [bare, Expr.bare]

theorem blind_tuple : Blind tuple := fun _ src =>
  bind_part_bare (manyOf?_bare expr?_bare) fun es =>
    congrArg (some <| Phrase.expr ·) (tuple_bare src es)

theorem blind_array : Blind array := fun _ src =>
  bind_part_bare (manyOf?_bare expr?_bare) fun es =>
    congrArg (some <| Phrase.expr ·) (array_bare src es)

theorem blind_attr : Blind attr := fun _ _ => bind_part_bare word?_bare fun _ => rfl

theorem blind_index : Blind index := fun _ _ => bind_part_bare expr?_bare fun _ => rfl

theorem blind_call : Blind call := fun _ _ =>
  bind_part_bare (manyOf?_bare expr?_bare) fun _ => rfl

theorem blind_suffixed : Blind suffixed := fun _ _ =>
  bind_part_bare expr?_bare fun base => bind_part_bare (manyOf?_bare suffix?_bare) fun suffixes =>
    congrArg (some <| Phrase.expr ·) (Suffix.applyAll_bare base suffixes)

theorem blind_lambda : Blind lambda := fun _ _ =>
  bind_part_bare (manyOf?_bare pat?_bare) fun _ => bind_part_bare expr?_bare fun _ => by
    simp [bare, Expr.bare]

theorem blind_case : Blind case := fun _ _ =>
  bind_part_bare pat?_bare fun _ => bind_part_bare body?_bare fun _ => rfl

theorem blind_switch : Blind switch := fun _ _ =>
  bind_part_bare expr?_bare fun _ => bind_part_bare (manyOf?_bare case?_bare) fun _ => by
    simp [bare, Expr.bare]

theorem blind_ifElse : Blind ifElse := fun b _ =>
  bind_part_bare expr?_bare fun _ => bind_part_bare expr?_bare fun _ => by
    rw [Bindings.get?_bare]
    cases Bindings.get? b "no" with
    | none => rfl
    | some no =>
      simp only [Option.map_some, expr?_bare]
      cases no.expr? <;> rfl

theorem operation_bare (p : Phrase) : operation p.bare = (operation p).map Operator.bareOperation := by
  cases p with
  | many items =>
    rcases items with _ | ⟨op, _ | ⟨right, _ | ⟨more, items⟩⟩⟩
    · rfl
    · rfl
    · simp only [bare, bareAll_eq_map, List.map_cons, List.map_nil, operation, word?_bare, expr?_bare]
      cases op.word? with
      | none => rfl
      | some w => cases right.expr? <;> rfl
    · rfl
  | _ => rw [bare]; rfl

theorem blind_operations : Blind operations := fun _ _ =>
  bind_part_bare expr?_bare fun first => bind_part_bare (manyOf?_bare operation_bare) fun rest => by
    rw [Operator.climb_bare]
    cases Operator.climb first rest <;> rfl

/-! ### Patterns -/

theorem blind_anyPat : Blind anyPat := fun _ _ => rfl

theorem blind_numberPat : Blind numberPat := by
  intro b src
  rw [numberPat, numberPat, numberPart_bare]
  cases numberPart b "value" <;> rfl

theorem blind_boolPat : Blind boolPat := fun _ _ => bind_part_bare word?_bare fun _ => rfl

theorem blind_strPat : Blind strPat := by
  intro b src
  rw [strPat, strPat, textPart_bare]
  cases textPart b "value" with
  | none => rfl
  | some spans =>
    simp only [Option.map_some, Option.bind_eq_bind, Option.bind_some, embedsOf_map, textOf_map,
      List.isEmpty_map]
    split <;> rfl

theorem blind_varPat : Blind varPat := fun _ _ => bind_part_bare word?_bare fun _ => rfl

theorem blind_conPat : Blind conPat := fun _ _ =>
  bind_part_bare word?_bare fun _ => bind_part_bare (manyOf?_bare pat?_bare) fun _ => by
    simp [bare, Pat.bare]

theorem blind_tuplePat : Blind tuplePat := fun _ src =>
  bind_part_bare (manyOf?_bare pat?_bare) fun ps =>
    congrArg (some <| Phrase.pat ·) (tuplePat_bare src ps)

end Build
end TypeTrace
