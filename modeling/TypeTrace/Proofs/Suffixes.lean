import TypeTrace.Proofs.Regions

/-!
# Suffixes from left to right

Suffixes are applied one after the other, each to what those before it have made, with one exception: an
attribute and a call right after it make one call together.  So a list of suffixes may be cut anywhere but
between these two, and there are as many calls around the base as suffixes, less the attributes that are
called.

## Main definitions

* `Expr.CallsAround`: calls around an expression, with the constructs that they bring with them

## Main results

* `Suffix.applyAll_append`: suffixes act from the left
* `Suffix.callsAround_applyAll`: the calls that suffixes make
* `Suffix.applyAll_laws`: the laws of suffixes
-/

namespace TypeTrace

/-- The expression consists of `n` calls around `base`, each of which has the one inside it as its target
or as its first argument.  What else is in these calls is `parts`, from the inside out. -/
inductive Expr.CallsAround (base : Expr) : Nat → List Construct → Expr → Prop
  | base : CallsAround base 0 [] base
  | call {n : Nat} {parts before after : List Construct} {inner fn : Expr} {args : List Expr}
    {src : Region} (hinner : CallsAround base n parts inner)
    (hchildren : (Construct.expr (.call fn args src)).children = before ++ .expr inner :: after)
    (hplace : before.length ≤ 1) :
    CallsAround base (n + 1) (parts ++ (before ++ after)) (.call fn args src)

theorem Expr.CallsAround.trans {base middle e : Expr} {m n : Nat} {parts parts' : List Construct}
    (h : CallsAround base m parts middle) (h' : CallsAround middle n parts' e) :
    CallsAround base (m + n) (parts ++ parts') e := by
  induction h' with
  | base => simpa using h
  | call hinner hchildren hplace ih =>
    rw [← List.append_assoc]
    exact .call ih hchildren hplace

/-- One call. -/
theorem Expr.CallsAround.one {base fn : Expr} {args : List Expr} {src : Region}
    (before after : List Construct)
    (hchildren : (Construct.expr (.call fn args src)).children = before ++ .expr base :: after)
    (hplace : before.length ≤ 1) : CallsAround base 1 (before ++ after) (.call fn args src) :=
  .call .base hchildren hplace

namespace Suffix

/-- The number of attributes with a call right after them. -/
def calledAttrs (suffixes : List Suffix) : Nat :=
  (suffixes.zip suffixes.tail).countP fun pair => pair.1.joins pair.2

/-- **Suffixes act from the left**, unless they are cut between an attribute and the call of it. -/
theorem applyAll_append (target : Expr) {first second : List Suffix}
    (hcut : ∀ last ∈ first.getLast?, ∀ next ∈ second.head?, last.joins next = false) :
    applyAll target (first ++ second) = applyAll (applyAll target first) second := by
  induction first using Suffix.induction generalizing target with
  | nil => rfl
  | method name nameSrc args src rest ih =>
    exact ih _ fun last hlast => hcut last (List.mem_getLast?_cons (List.mem_getLast?_cons hlast))
  | attr name src rest hrest ih =>
    -- The call that an attribute at the end waits for is not at the beginning of the second part
    -- either.
    have hnext : ∀ next ∈ (rest ++ second).head?, joins (.attr name src) next = false := by
      cases rest with
      | nil => exact hcut _ rfl
      | cons => exact hrest
    rw [List.cons_append, applyAll_attr hnext, applyAll_attr hrest]
    exact ih _ fun last hlast => hcut last (List.mem_getLast?_cons hlast)
  | index value src rest ih => exact ih _ fun last hlast => hcut last (List.mem_getLast?_cons hlast)
  | call args src rest ih => exact ih _ fun last hlast => hcut last (List.mem_getLast?_cons hlast)

/-! ## The calls that suffixes make -/

theorem calledAttrs_cons {s : Suffix} {rest : List Suffix}
    (h : ∀ next ∈ rest.head?, s.joins next = false) : calledAttrs (s :: rest) = calledAttrs rest := by
  cases rest with
  | nil => rfl
  | cons next rest => simp [calledAttrs, h next rfl]

theorem calledAttrs_method (name : Word) (nameSrc : Region) (args : List Expr) (src : Region)
    (rest : List Suffix) :
    calledAttrs (.attr name nameSrc :: .call args src :: rest) = calledAttrs rest + 1 := by
  have hrest : calledAttrs (.call args src :: rest) = calledAttrs rest := calledAttrs_cons fun _ _ => rfl
  rw [← hrest]
  simp [calledAttrs, joins]

/-- **The calls that suffixes make**: together with the attributes that are called there are as many as
suffixes, and they bring with them what the suffixes do. -/
theorem callsAround_applyAll (target : Expr) (suffixes : List Suffix) :
    ∃ n, n + calledAttrs suffixes = suffixes.length ∧
      target.CallsAround n (suffixes.flatMap parts) (applyAll target suffixes) := by
  induction suffixes using Suffix.induction generalizing target with
  | nil => exact ⟨0, rfl, .base⟩
  | method name nameSrc args src rest ih =>
    obtain ⟨n, hn, h⟩ := ih (.call (method name) (target :: args) (target.region.merge src))
    refine ⟨1 + n, ?_, ?_⟩
    · rw [calledAttrs_method, List.length_cons, List.length_cons]
      omega
    · have hcall := (Expr.CallsAround.one [.expr (method name)] (args.map .expr) rfl (Nat.le_refl 1)).trans h
      rwa [List.append_assoc] at hcall
  | attr name src rest hrest ih =>
    obtain ⟨n, hn, h⟩ := ih (.call (method name) [target] (target.region.merge src))
    refine ⟨1 + n, ?_, ?_⟩
    · rw [calledAttrs_cons hrest, List.length_cons]
      omega
    · rw [applyAll_attr hrest]
      exact (Expr.CallsAround.one [.expr (method name)] [] rfl (Nat.le_refl 1)).trans h
  | index value src rest ih =>
    obtain ⟨n, hn, h⟩ := ih (.call (.var "index" src) [target, value] (target.region.merge src))
    refine ⟨1 + n, ?_, ?_⟩
    · rw [calledAttrs_cons fun _ _ => rfl, List.length_cons]
      omega
    · exact (Expr.CallsAround.one [.expr (.var "index" src)] [.expr value] rfl (Nat.le_refl 1)).trans h
  | call args src rest ih =>
    obtain ⟨n, hn, h⟩ := ih (.call target args (target.region.merge src))
    refine ⟨1 + n, ?_, ?_⟩
    · rw [calledAttrs_cons fun _ _ => rfl, List.length_cons]
      omega
    · exact (Expr.CallsAround.one [] (args.map .expr) rfl (Nat.zero_le 1)).trans h

/-- **The laws of suffixes.**  A list of suffixes may be applied in two parts, unless the first part ends
with an attribute and the second one begins with a call.  These two make one call of the attribute, as a
variable, with what stands before it as first argument.  There are as many calls around the base as
suffixes, less the attributes with a call right after them, and their other parts, from the inside out, are
what the suffixes bring with them, in order. -/
theorem applyAll_laws (base : Expr) :
    (∀ first second : List Suffix,
      (∀ last ∈ first.getLast?, ∀ next ∈ second.head?, last.joins next = false) →
      applyAll base (first ++ second) = applyAll (applyAll base first) second) ∧
    (∀ before name nameSrc args src after,
      applyAll base ((before ++ [.attr name nameSrc]) ++ (.call args src :: after)) =
        applyAll (.call (.var name.text ⟨name.loc, none⟩) (applyAll base before :: args)
          ((applyAll base before).region.merge src)) after) ∧
    ∀ suffixes : List Suffix, base.CallsAround (suffixes.length - calledAttrs suffixes)
      (suffixes.flatMap parts) (applyAll base suffixes) := by
  refine ⟨fun first second => applyAll_append base, ?_, fun suffixes => ?_⟩
  · intro before name nameSrc args src after
    -- Before the attribute the list may be cut, as what follows is no call.
    have hcut : ∀ last ∈ before.getLast?, ∀ next ∈ (Suffix.attr name nameSrc :: .call args src :: after).head?,
        last.joins next = false := by
      rintro last - next hnext
      cases hnext
      cases last <;> rfl
    rw [List.append_assoc, List.singleton_append, applyAll_append base hcut]
    rfl
  · obtain ⟨n, hn, h⟩ := callsAround_applyAll base suffixes
    rwa [← hn, Nat.add_sub_cancel]

end Suffix
end TypeTrace
