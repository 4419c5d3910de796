import TypeTrace.Syntax.Operator

/-!
# Suffixes

An expression may be followed, without a blank, by attributes, indices and calls.  An attribute is
a function of what stands before it, and an attribute that is called takes it as first argument.

## Main definitions

* `Suffix`: an attribute, an index, or a call
* `Suffix.applyAll`: an expression with suffixes
* `Suffix.joins`: an attribute and a call make one call together

## Main results

* `Suffix.induction`: induction on suffixes in the way they are applied
-/

namespace TypeTrace

/-- What may follow an expression without a blank. -/
inductive Suffix where
  | attr (name : Word) (src : Region)
  | index (value : Expr) (src : Region)
  | call (args : List Expr) (src : Region)
deriving Inhabited

namespace Suffix

/-- The function that an attribute names. -/
def method (name : Word) : Expr := .var name.text ⟨name.loc, none⟩

/-- Apply the suffixes to `target`, from the left. -/
def applyAll (target : Expr) : List Suffix → Expr
  | [] => target
  | .attr name _ :: .call args src :: rest =>
    applyAll (.call (method name) (target :: args) (target.region.merge src)) rest
  | .attr name src :: rest =>
    applyAll (.call (method name) [target] (target.region.merge src)) rest
  | .index i src :: rest =>
    applyAll (.call (.var "index" src) [target, i] (target.region.merge src)) rest
  | .call args src :: rest => applyAll (.call target args (target.region.merge src)) rest

/-- An attribute and a call right after it make one call together. -/
def joins : Suffix → Suffix → Bool
  | .attr .., .call .. => true
  | _, _ => false

/-- Induction on suffixes in the way they are applied: an attribute with the call right after it, or one
suffix alone. -/
theorem induction {motive : List Suffix → Prop} (nil : motive [])
    (method : ∀ name nameSrc args src rest, motive rest →
      motive (.attr name nameSrc :: .call args src :: rest))
    (attr : ∀ name src rest, (∀ next ∈ rest.head?, joins (.attr name src) next = false) → motive rest →
      motive (.attr name src :: rest))
    (index : ∀ value src rest, motive rest → motive (.index value src :: rest))
    (call : ∀ args src rest, motive rest → motive (.call args src :: rest))
    (suffixes : List Suffix) : motive suffixes := by
  induction hlength : suffixes.length using Nat.strongRecOn generalizing suffixes with
  | ind n ih =>
    subst hlength
    rcases suffixes with _ | ⟨⟨name, src⟩ | ⟨value, src⟩ | ⟨args, src⟩, rest⟩
    · exact nil
    -- An attribute: what comes next decides whether it is applied together with a call.
    · rcases rest with _ | ⟨⟨name', src'⟩ | ⟨value, src'⟩ | ⟨args, src'⟩, rest⟩
      · exact attr name src [] (by simp) nil
      · exact attr name src _ (by simp [joins]) (ih _ (Nat.lt_succ_self _) _ rfl)
      · exact attr name src _ (by simp [joins]) (ih _ (Nat.lt_succ_self _) _ rfl)
      · exact method name src args src' rest (ih _ (Nat.lt_succ_of_lt (Nat.lt_succ_self _)) _ rfl)
    · exact index value src rest (ih _ (Nat.lt_succ_self _) _ rfl)
    · exact call args src rest (ih _ (Nat.lt_succ_self _) _ rfl)

/-- An attribute that no call follows makes a call of its own. -/
theorem applyAll_attr {target : Expr} {name : Word} {src : Region} {rest : List Suffix}
    (hrest : ∀ next ∈ rest.head?, joins (.attr name src) next = false) :
    applyAll target (.attr name src :: rest) =
      applyAll (.call (method name) [target] (target.region.merge src)) rest := by
  rcases rest with _ | ⟨_ | _ | _, rest⟩
  · rfl
  · rfl
  · rfl
  · cases hrest _ rfl

end Suffix
end TypeTrace
