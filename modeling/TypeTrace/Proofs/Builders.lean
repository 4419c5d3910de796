import TypeTrace.Proofs.Forms
import TypeTrace.Proofs.Termination

/-!
# Builders and what they are given

A rule of the language hands the parts that it has named to a builder, which gives nothing if a part is
missing or is not of the form that it expects.  Such a refusal would look like a syntax error.  It never
happens: whenever the matcher of a builder succeeds, the builder gives a phrase, except that a string
literal is no pattern if something is embedded in it.  So an item is a statement exactly if the grammar
matches it.

## Main definitions

* `Language.Called`: what a builder is called with
* `Language.Accepts`: a builder gives a phrase for all that it is called with

## Main results

* `Language.accepts_of_mem_parts`: all builders of the language do
* `Language.parse_value_isSome_iff`: an item is read exactly if it is not nested too deep and is matched
* `Language.builders_accept`: both, and an item that is read is a statement
-/

namespace TypeTrace
namespace Language

open Matcher

variable {cst : Cst} {inner m : Rule} {build : Bindings Phrase → Region → Option Phrase} {name : String}

/-! ## Calls of builders -/

/-- A builder whose matcher is `inner` is called, somewhere in a match: with no part named before, the
matcher takes siblings from the left of `nodes` until `rest` is left, and names the parts `b`. -/
def Called (cst : Cst) (inner : Rule) (nodes rest : List Loc) (parent : Loc) (b : Bindings Phrase) : Prop :=
  ∃ fuel journal unparsed v s, s.bindings = b ∧
    grammar.match? cst fuel inner nodes parent ⟨journal, [], unparsed⟩ = some (some (v, rest), s)

/-- Whatever it is called with, a builder gives a phrase.  The only exception is the builder for string
literals as patterns, which refuses those in which something is embedded. -/
def Accepts (cst : Cst) (inner : Rule) (build : Bindings Phrase → Region → Option Phrase) : Prop :=
  (∀ nodes rest parent b, Called cst inner nodes rest parent b →
    ∃ v, build b (regionOf nodes rest parent) = some v) ∨
  (build = Build.strPat ∧ ∀ nodes rest parent b, Called cst inner nodes rest parent b →
    ∃ l spans, nodes = l :: rest ∧ cst.node? l = some (.text spans) ∧
      (build b (regionOf nodes rest parent) = none ↔ ∃ item, .embed item ∈ spans))

/-- All that is known of what the rules give is its form. -/
def forms : Reading := fun rule _ _ v => Form rule v

theorem forms_formed : forms.Formed := fun _ _ _ _ h => h

theorem keeps_forms (cst : Cst) : Keeps forms.contract grammar cst :=
  keeps_of_made forms_formed fun _ _ _ _ h => h.formed forms_formed

/-- What a builder is called with is what its matcher hands to it. -/
theorem Called.hands {nodes rest : List Loc} {parent : Loc} {b : Bindings Phrase}
    (h : Called cst inner nodes rest parent b) :
    ∃ taken, nodes = taken ++ rest ∧ regionOf nodes rest parent = regionOf taken [] parent ∧
      (.tx inner build : Rule).Hands forms.contract grammar cst parent taken b := by
  obtain ⟨fuel, journal, unparsed, v, s, rfl, hends⟩ := h
  obtain ⟨j, b, hmatches, rfl⟩ := Grammar.match?_follows grammar cst fuel inner nodes parent _ _ _ hends
  obtain ⟨taken, rfl, hyields⟩ := hmatches.yields (keeps_forms cst) _ rfl
  refine ⟨taken, rfl, regionOf_append taken rest parent, v, ?_⟩
  rwa [List.append_nil]

/-- Builders that refuse nothing they are handed. -/
theorem accepts_of_hands
    (h : ∀ parent taken b, (.tx inner build : Rule).Hands forms.contract grammar cst parent taken b →
      ∃ v, build b (regionOf taken [] parent) = some v) : Accepts cst inner build := by
  left
  intro nodes rest parent b hcalled
  obtain ⟨taken, -, hregion, hhands⟩ := hcalled.hands
  rw [hregion]
  exact h parent taken b hhands

theorem Builds.exists_eq_some {Γ : Reading} {rule : String} {parent : Loc} {taken : List Loc}
    {built : Option Phrase} (h : Builds Γ cst rule parent taken built) : ∃ v, built = some v :=
  ⟨h.choose, h.choose_spec.1⟩

theorem accepts_of_builds {rule : String}
    (h : ∀ parent taken b, (.tx inner build : Rule).Hands forms.contract grammar cst parent taken b →
      Builds forms cst rule parent taken (build b (regionOf taken [] parent))) : Accepts cst inner build :=
  accepts_of_hands fun parent taken b hhands => (h parent taken b hhands).exists_eq_some

theorem accepts_of_buildsSuffix
    (h : ∀ parent taken b, (.tx inner build : Rule).Hands forms.contract grammar cst parent taken b →
      BuildsSuffix forms cst taken (build b (regionOf taken [] parent))) : Accepts cst inner build := by
  refine accepts_of_hands fun parent taken b hhands => ?_
  obtain ⟨s, hs, -⟩ := h parent taken b hhands
  exact ⟨_, hs⟩

theorem accepts_case :
    Accepts cst (.seq [useAs "pat" "pat", useAs "body" "stmt"]) Build.case := by
  refine accepts_of_hands fun parent taken b hhands => ?_
  obtain ⟨c, hc, -⟩ := hands_case forms_formed hhands
  exact ⟨_, hc⟩

theorem accepts_strPat : Accepts cst (.group "value" (.text .any)) Build.strPat := by
  refine .inr ⟨rfl, ?_⟩
  intro nodes rest parent b hcalled
  obtain ⟨taken, rfl, hregion, hhands⟩ := hcalled.hands
  obtain ⟨l, spans, rfl, hnode, hbuilds, hnone⟩ := hands_strPat hhands
  refine ⟨l, spans, rfl, hnode, ?_⟩
  rw [hregion]
  constructor
  · intro hrefused
    by_contra hembeds
    obtain ⟨v, hv⟩ := (hbuilds (not_exists.1 hembeds)).exists_eq_some
    cases hrefused.symm.trans hv
  · exact hnone

/-- **All builders of the language accept what they are called with.** -/
theorem accepts_of_mem_parts (hrule : grammar.rule? name = some m) (hbuild : .tx inner build ∈ m.parts) :
    Accepts cst inner build := by
  have hmem := (Dict.get?_ofList_iff (by decide) name m).1 hrule
  -- The builders of all rules, in the order of the grammar.
  refine (?_ : ∀ e ∈ _, ∀ inner build, Matcher.tx inner build ∈ (e.2 : Rule).parts → Accepts cst inner build)
    (name, m) hmem inner build hbuild
  simp only [List.forall_mem_cons]
  simp only [stmtRule, letRule, returnRule, forRule, blockRule, exprRule, suffixedRule, suffixRule,
    spacedRule, lambdaRule, switchRule, ifRule, operationsRule, patRule, keyword, punct, listOf, use, useAs,
    manyAs, parts, partsAll, Operator.words, List.append_nil, List.cons_append, List.nil_append, List.map_cons,
    List.map_nil, List.mem_cons, List.not_mem_nil, reduceCtorEq, tx.injEq, or_self, or_false, false_or, or_imp,
    and_imp, and_true, true_and, forall_and, forall_eq_apply_imp_iff, forall_eq, implies_true,
    IsEmpty.forall_iff]
  refine ⟨⟨?_, ?_⟩, ?_, ?_, ?_, ?_, ?_, ?_, ?_, ?_, ?_,
    ⟨?_, ?_, ?_, ?_⟩, ⟨?_, ?_, ?_, ?_⟩, ?_, ?_, ?_, ?_, ?_, ?_, ?_, ?_⟩
  · exact accepts_of_builds fun _ _ _ => hands_bareReturn
  · exact accepts_of_builds fun _ _ _ => hands_exprStmt forms_formed
  · exact accepts_of_builds fun _ _ _ => hands_letRule forms_formed
  · exact accepts_of_builds fun _ _ _ => hands_returnRule forms_formed
  · exact accepts_of_builds fun _ _ _ => hands_forRule forms_formed
  · exact accepts_of_builds fun _ _ _ => hands_blockRule forms_formed
  · exact accepts_of_builds fun _ _ _ => hands_number
  · exact accepts_of_builds fun _ _ _ => hands_var
  · exact accepts_of_builds fun _ _ _ => hands_str forms_formed
  · exact accepts_of_builds fun _ _ _ => hands_tuple forms_formed
  · exact accepts_of_builds fun _ _ _ => hands_array forms_formed
  · exact accepts_of_builds fun _ _ _ => hands_suffixedRule forms_formed
  · exact accepts_of_buildsSuffix fun _ _ _ => hands_attr
  · exact accepts_of_buildsSuffix fun _ _ _ => hands_index forms_formed
  · exact accepts_of_buildsSuffix fun _ _ _ => hands_call forms_formed
  · exact accepts_of_builds fun _ _ _ => hands_lambdaRule forms_formed
  · exact accepts_of_builds fun _ _ _ => hands_switchRule forms_formed
  · exact accepts_case
  · exact accepts_of_builds fun _ _ _ => hands_operationsRule forms_formed
  · exact accepts_of_builds fun _ _ _ => hands_ifRule forms_formed
  · exact accepts_of_builds fun _ _ _ => hands_anyPat
  · exact accepts_of_builds fun _ _ _ => hands_numberPat
  · exact accepts_of_builds fun _ _ _ => hands_boolPat
  · exact accepts_strPat
  · exact accepts_of_builds fun _ _ _ => hands_varPat
  · exact accepts_of_builds fun _ _ _ => hands_conPat forms_formed
  · exact accepts_of_builds fun _ _ _ => hands_tuplePat forms_formed

/-! ## Statements -/

/-- What is read as a statement can be taken as one. -/
theorem exists_stmt?_of_value {root : Loc} {v : Phrase}
    (h : (grammar.parse cst "stmt" root).value = some v) : ∃ s, v.stmt? = some s :=
  forms_formed.exists_stmt? (reading_of_value (keeps_forms cst) h)

/-- An item is read exactly if it is not nested too deep and the rule for statements takes it. -/
theorem parse_value_isSome_iff {a : Alphabet} {src : List Char} (hlex : Cst.lex a src = .ok cst)
    (root : Loc) : (grammar.parse cst "stmt" root).value.isSome = true ↔
      (cst.nesting root).1 ≤ grammar.maxNesting ∧
        ∃ v journal bindings, Matches grammar cst stmtRule [root] root (some ⟨(v, []), journal, bindings⟩) := by
  by_cases hdepth : grammar.maxNesting < (cst.nesting root).1
  · refine iff_of_false ?_ fun hmatched => Nat.not_le_of_lt hdepth hmatched.1
    simp [Grammar.parse, hdepth]
  have hvalue : (grammar.parse cst "stmt" root).value = (grammar.run cst stmtRule root).1 := by
    simp [Grammar.parse, hdepth, rule?_stmt]
  rw [hvalue]
  constructor
  · intro hsome
    obtain ⟨v, hv⟩ := Option.isSome_iff_exists.1 hsome
    obtain ⟨bindings, hmatches⟩ := Grammar.matches_of_run hv
    exact ⟨Nat.le_of_not_lt hdepth, v, _, bindings, hmatches⟩
  · rintro ⟨-, v, journal, bindings, hmatches⟩
    have hrun := grammar_ranked.match?_eq_of_matches hlex rule?_stmt hmatches
    simp [Grammar.run, hrun]

/-- **Builders never reject what the grammar has matched.**  Wherever a builder of the language is called, it
gives a phrase, unless it is asked to take a string literal with something embedded in it as a pattern.
What is read as a statement can be taken as one.  So an item of a source is no statement exactly if it is
nested too deep or the grammar does not match it. -/
theorem builders_accept :
    (∀ name m, grammar.rule? name = some m → ∀ inner build, .tx inner build ∈ m.parts →
      ∀ cst, Accepts cst inner build) ∧
    (∀ cst root v, (grammar.parse cst "stmt" root).value = some v → ∃ s, v.stmt? = some s) ∧
    ∀ a src cst, Cst.lex a src = .ok cst → ∀ root,
      ((parse cst root).stmt = none ↔ (grammar.parse cst "stmt" root).value = none) ∧
      ((parse cst root).stmt = none ↔ grammar.maxNesting < (cst.nesting root).1 ∨
        ¬ ∃ v journal bindings, Matches grammar cst stmtRule [root] root
          (some ⟨(v, []), journal, bindings⟩)) := by
  refine ⟨fun name m hrule inner build hbuild cst => accepts_of_mem_parts hrule hbuild,
    fun cst root v => exists_stmt?_of_value, fun a src cst hlex root => ?_⟩
  have hstmt : (parse cst root).stmt = none ↔ (grammar.parse cst "stmt" root).value = none := by
    rcases hvalue : (grammar.parse cst "stmt" root).value with _ | v
    · simp [parse, hvalue]
    · obtain ⟨s, hs⟩ := exists_stmt?_of_value hvalue
      simp [parse, hvalue, hs]
  refine ⟨hstmt, hstmt.trans ?_⟩
  rw [← Option.not_isSome_iff_eq_none, parse_value_isSome_iff hlex root,
    Classical.not_and_iff_not_or_not, Nat.not_le]

end Language
end TypeTrace
