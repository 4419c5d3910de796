import TypeTrace.Syntax.Basic

/-!
# Induction on programs

Expressions, cases and statements contain each other, also inside lists.  One principle of
induction serves all proofs about programs: it treats the parts of a phrase as members of their
lists, so that proofs about lists of phrases are plain inductions on lists.

## Main definitions

* `Expr.functions`, `Stmt.functions`: the names that `let` gives to functions

## Main results

* `Expr.induction`: induction on expressions and statements together
* `Expr.induction_avoiding`: the same for programs that give a name to no function
-/

namespace TypeTrace

/-- **Induction on programs**, with the parts of a phrase as members of their lists. -/
theorem Expr.induction {P : Expr → Prop} {Q : Stmt → Prop}
    (block : ∀ stmts src, (∀ s ∈ stmts, Q s) → P (.block stmts src))
    (ifElse : ∀ cond yes no src, P cond → P yes → (∀ e ∈ no, P e) → P (.ifElse cond yes no src))
    (switch : ∀ target cases src, P target → (∀ p e, Case.mk p e ∈ cases → P e) →
      P (.switch target cases src))
    (prim : ∀ value src, P (.prim value src))
    (var : ∀ name src, P (.var name src))
    (str : ∀ value embeds src, (∀ e ∈ embeds, P e) → P (.str value embeds src))
    (lambda : ∀ args body src, P body → P (.lambda args body src))
    (call : ∀ target args src, P target → (∀ e ∈ args, P e) → P (.call target args src))
    (forLoop : ∀ init cond update body src, Q init → P cond → P update → P body →
      Q (.forLoop init cond update body src))
    (letBind : ∀ pat init src, P init → Q (.letBind pat init src))
    (expr : ∀ value src, P value → Q (.expr value src))
    (ret : ∀ value src, (∀ e ∈ value, P e) → Q (.ret value src)) :
    (∀ e, P e) ∧ ∀ s, Q s := by
  let C : Case → Prop := fun c => ∀ p e, c = .mk p e → P e
  let Ss : List Stmt → Prop := fun ss => ∀ s ∈ ss, Q s
  let O : Option Expr → Prop := fun o => ∀ e ∈ o, P e
  let Cs : List Case → Prop := fun cs => ∀ p e, Case.mk p e ∈ cs → P e
  let Es : List Expr → Prop := fun es => ∀ e ∈ es, P e
  have hmk : ∀ p e, P e → C (.mk p e) := by
    rintro p e he p' e' h
    cases h
    exact he
  have hOnone : O none := fun e he => by cases he
  have hOsome : ∀ e, P e → O (some e) := by
    rintro e he e' h
    cases h
    exact he
  have hCsCons : ∀ c cs, C c → Cs cs → Cs (c :: cs) := by
    intro c cs hc hcs p e h
    rcases List.mem_cons.mp h with h | h
    · exact hc p e h.symm
    · exact hcs p e h
  have hSsCons : ∀ s ss, Q s → Ss ss → Ss (s :: ss) := fun s ss hs hss =>
    List.forall_mem_cons.mpr ⟨hs, hss⟩
  have hEsCons : ∀ e es, P e → Es es → Es (e :: es) := fun e es he hes =>
    List.forall_mem_cons.mpr ⟨he, hes⟩
  exact ⟨@Expr.rec P C Q Ss O Cs Es block ifElse switch prim var str lambda call hmk forLoop letBind
      expr ret (fun _ h => absurd h List.not_mem_nil) hSsCons hOnone hOsome
      (fun _ _ h => absurd h List.not_mem_nil) hCsCons (fun _ h => absurd h List.not_mem_nil)
      hEsCons,
    @Stmt.rec P C Q Ss O Cs Es block ifElse switch prim var str lambda call hmk forLoop letBind
      expr ret (fun _ h => absurd h List.not_mem_nil) hSsCons hOnone hOsome
      (fun _ _ h => absurd h List.not_mem_nil) hCsCons (fun _ h => absurd h List.not_mem_nil)
      hEsCons⟩

/-! ## Names of functions -/

/-- The name that a `let` gives to its value, if the value is a function. -/
def Pat.functionName (init : Expr) : Pat → List String
  | .var name _ => if init.isLambda then [name] else []
  | _ => []

mutual

/-- The names that `let` gives to functions in an expression. -/
def Expr.functions : Expr → List String
  | .block stmts _ => Stmt.functionsAll stmts
  | .ifElse cond yes no _ => cond.functions ++ yes.functions ++ Expr.functions? no
  | .switch target cases _ => target.functions ++ Case.functionsAll cases
  | .prim _ _ => []
  | .var _ _ => []
  | .str _ embeds _ => Expr.functionsAll embeds
  | .lambda _ body _ => body.functions
  | .call target args _ => target.functions ++ Expr.functionsAll args

/-- The names that `let` gives to functions in several expressions. -/
def Expr.functionsAll : List Expr → List String
  | [] => []
  | e :: es => e.functions ++ Expr.functionsAll es

/-- The names that `let` gives to functions in an expression that may be missing. -/
def Expr.functions? : Option Expr → List String
  | none => []
  | some e => e.functions

/-- The names that `let` gives to functions in the bodies of cases. -/
def Case.functionsAll : List Case → List String
  | [] => []
  | .mk _ body :: cs => body.functions ++ Case.functionsAll cs

/-- The names that `let` gives to functions in a statement. -/
def Stmt.functions : Stmt → List String
  | .forLoop init cond update body _ =>
    init.functions ++ cond.functions ++ update.functions ++ body.functions
  | .letBind pat init _ => pat.functionName init ++ init.functions
  | .expr e _ => e.functions
  | .ret value _ => Expr.functions? value

/-- The names that `let` gives to functions in several statements. -/
def Stmt.functionsAll : List Stmt → List String
  | [] => []
  | s :: ss => s.functions ++ Stmt.functionsAll ss

end

theorem Expr.mem_functionsAll {x : String} {es : List Expr} :
    x ∈ Expr.functionsAll es ↔ ∃ e ∈ es, x ∈ e.functions := by
  induction es with
  | nil => simp [functionsAll]
  | cons e es ih => simp [functionsAll, ih]

theorem Expr.mem_functions? {x : String} {e? : Option Expr} :
    x ∈ Expr.functions? e? ↔ ∃ e ∈ e?, x ∈ e.functions := by
  cases e? <;> simp [functions?]

theorem Case.mem_functionsAll {x : String} {cs : List Case} :
    x ∈ Case.functionsAll cs ↔ ∃ p e, Case.mk p e ∈ cs ∧ x ∈ e.functions := by
  induction cs with
  | nil => simp [functionsAll]
  | cons c cs ih =>
    obtain ⟨p, e⟩ := c
    simp [functionsAll, ih, or_and_right, exists_or, and_assoc]

theorem Stmt.mem_functionsAll {x : String} {ss : List Stmt} :
    x ∈ Stmt.functionsAll ss ↔ ∃ s ∈ ss, x ∈ s.functions := by
  induction ss with
  | nil => simp [functionsAll]
  | cons s ss ih => simp [functionsAll, ih]

/-- **Induction on programs that give a name to no function.**  The cases are those of induction on
all programs, except that a `let` is known not to give the name to a function. -/
theorem Expr.induction_avoiding (name : String) {P : Expr → Prop} {Q : Stmt → Prop}
    (block : ∀ stmts src, (∀ s ∈ stmts, Q s) → P (.block stmts src))
    (ifElse : ∀ cond yes no src, P cond → P yes → (∀ e ∈ no, P e) → P (.ifElse cond yes no src))
    (switch : ∀ target cases src, P target → (∀ p e, Case.mk p e ∈ cases → P e) →
      P (.switch target cases src))
    (prim : ∀ value src, P (.prim value src))
    (var : ∀ name src, P (.var name src))
    (str : ∀ value embeds src, (∀ e ∈ embeds, P e) → P (.str value embeds src))
    (lambda : ∀ args body src, P body → P (.lambda args body src))
    (call : ∀ target args src, P target → (∀ e ∈ args, P e) → P (.call target args src))
    (forLoop : ∀ init cond update body src, Q init → P cond → P update → P body →
      Q (.forLoop init cond update body src))
    (letBind : ∀ pat init src, name ∉ pat.functionName init → P init → Q (.letBind pat init src))
    (expr : ∀ value src, P value → Q (.expr value src))
    (ret : ∀ value src, (∀ e ∈ value, P e) → Q (.ret value src)) :
    (∀ e : Expr, name ∉ e.functions → P e) ∧ ∀ s : Stmt, name ∉ s.functions → Q s := by
  apply Expr.induction
  case block =>
    intro ss src ih h
    simp only [Expr.functions, Stmt.mem_functionsAll, not_exists, not_and] at h
    exact block ss src fun s hs => ih s hs (h s hs)
  case ifElse =>
    intro cond yes no src hcond hyes hno h
    simp only [Expr.functions, List.mem_append, Expr.mem_functions?, not_or, not_exists,
      not_and] at h
    exact ifElse cond yes no src (hcond h.1.1) (hyes h.1.2) fun e he => hno e he (h.2 e he)
  case switch =>
    intro target cs src htarget hcs h
    simp only [Expr.functions, List.mem_append, Case.mem_functionsAll, not_or, not_exists,
      not_and] at h
    exact switch target cs src (htarget h.1) fun p e he => hcs p e he (h.2 p e he)
  case prim => exact fun value src _ => prim value src
  case var => exact fun x src _ => var x src
  case str =>
    intro value embeds src ih h
    simp only [Expr.functions, Expr.mem_functionsAll, not_exists, not_and] at h
    exact str value embeds src fun e he => ih e he (h e he)
  case lambda =>
    intro args body src hbody h
    exact lambda args body src (hbody (by simpa only [Expr.functions] using h))
  case call =>
    intro target args src htarget hargs h
    simp only [Expr.functions, List.mem_append, Expr.mem_functionsAll, not_or, not_exists,
      not_and] at h
    exact call target args src (htarget h.1) fun e he => hargs e he (h.2 e he)
  case forLoop =>
    intro init cond update body src hinit hcond hupdate hbody h
    simp only [Stmt.functions, List.mem_append, not_or] at h
    exact forLoop init cond update body src (hinit h.1.1.1) (hcond h.1.1.2) (hupdate h.1.2)
      (hbody h.2)
  case letBind =>
    intro pat init src hinit h
    simp only [Stmt.functions, List.mem_append, not_or] at h
    exact letBind pat init src h.1 (hinit h.2)
  case expr =>
    intro value src hvalue h
    exact expr value src (hvalue (by simpa only [Stmt.functions] using h))
  case ret =>
    intro value src hvalue h
    simp only [Stmt.functions, Expr.mem_functions?, not_exists, not_and] at h
    exact ret value src fun e he => hvalue e he (h e he)

end TypeTrace
