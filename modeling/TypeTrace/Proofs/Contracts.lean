import TypeTrace.Proofs.OrderedChoice

/-!
# Contracts of rules

A contract says, for every rule of a grammar, what a success of it may look like: the siblings taken, the
value, and the parts named.  With a contract for the rules, what a success of any matcher may look like
follows from its combinators alone, without going into the rules that it refers to.  If the body of every
rule then keeps to the contract of the rule, so does every match.

## Main definitions

* `Matcher.Contract`: what successes of rules may look like
* `Matcher.Yields`: what a success of a matcher may look like, under a contract
* `Matcher.Keeps`: the bodies of all rules keep to a contract
* `Matcher.KeepsNoting`: they do so where they match, and note only roles of a given kind

## Main results

* `Matcher.Matches.yields_noting`, `Matcher.Matches.yields`: every match is one that the contract allows
-/

namespace TypeTrace
namespace Matcher

variable {V : Type}

/-- What a match may give, for the siblings taken: a value, and named parts, the latest first. -/
abbrev Yield (V : Type) := List Loc → V → Bindings V → Prop

/-- What every rule may give, for the node whose members are matched. -/
abbrev Contract (V : Type) := String → Loc → Yield V

/-! ## Repeated parts -/

namespace Yield

/-- Rounds of a repetition, each of which takes something. -/
def rounds (P : Yield V) : List V → List Loc → Bindings V → Prop
  | [], taken, b => taken = [] ∧ b = []
  | v :: vs, taken, b => ∃ t t' b₁ b₂, taken = t ++ t' ∧ b = b₂ ++ b₁ ∧ t ≠ [] ∧ P t v b₁ ∧
      rounds P vs t' b₂

/-- The rows of a table. -/
def rows (P : Yield V) : List (List Loc) → List V → Bindings V → Prop
  | [], vs, b => vs = [] ∧ b = []
  | cells :: more, vs, b => ∃ v vs' b₁ b₂, vs = v :: vs' ∧ b = b₂ ++ b₁ ∧ P cells v b₁ ∧
      rows P more vs' b₂

/-- The pieces of a string literal; `P` is for embedded expressions. -/
def spans (P : Loc → V → Bindings V → Prop) :
    List (TextSpan Loc) → List (TextSpan V) → Bindings V → Prop
  | [], vs, b => vs = [] ∧ b = []
  | .text s :: more, vs, b => ∃ vs', vs = .text s :: vs' ∧ spans P more vs' b
  | .embed item :: more, vs, b => ∃ v vs' b₁ b₂, vs = .embed v :: vs' ∧ b = b₂ ++ b₁ ∧
      P item v b₁ ∧ spans P more vs' b₂

end Yield

/-! ## Matchers under a contract -/

section

variable [MatchValue V] (Γ : Contract V) (g : Grammar V) (cst : Cst)

mutual

/-- What a success of a matcher may look like among the members of a node, if the rules keep to a
contract. -/
def Yields : Matcher V → Loc → Yield V
  | any, _, taken, v, b => ∃ loc, taken = [loc] ∧ v = MatchValue.ofNode loc ∧ b = []
  | kwd word _, _, taken, v, b => ∃ loc, taken = [loc] ∧ cst.node? loc = some (.id word) ∧
      v = MatchValue.ofId word loc ∧ b = []
  | id _, _, taken, v, b => ∃ loc word, taken = [loc] ∧ cst.node? loc = some (.id word) ∧
      (g.isKwd word || isDigits word) = false ∧ v = MatchValue.ofId word loc ∧ b = []
  | number, _, taken, v, b => ∃ loc word, taken = [loc] ∧ cst.node? loc = some (.id word) ∧
      isDigits word = true ∧ digitsValue word ≤ maxNumber ∧
      v = MatchValue.ofNumber (digitsValue word) loc ∧ b = []
  | text inner, _, taken, v, b => ∃ loc spans vs, taken = [loc] ∧
      cst.node? loc = some (.text spans) ∧ v = MatchValue.ofText vs loc ∧
      Yield.spans (fun item => Yields inner item [item]) spans vs b
  | list kind inner _, _, taken, v, b => ∃ loc found children multiline, taken = [loc] ∧
      cst.node? loc = some (.list found children multiline) ∧ kind.accepts found = true ∧
      Yields inner loc children v b
  | table kind row, _, taken, v, b => ∃ loc rows multiline vs, taken = [loc] ∧
      cst.node? loc = some (.table kind rows multiline) ∧ v = MatchValue.ofMany vs ∧
      Yield.rows (Yields row loc) rows vs b
  | seq items, parent, taken, v, b => ∃ vs, v = MatchValue.ofMany vs ∧
      YieldsAll items parent taken vs b
  | or items, parent, taken, v, b => YieldsAny items parent taken v b
  | star inner, parent, taken, v, b => ∃ vs, v = MatchValue.ofMany vs ∧
      Yield.rounds (Yields inner parent) vs taken b
  | opt inner, parent, taken, v, b => Yields inner parent taken v b ∨
      (taken = [] ∧ v = MatchValue.absent ∧ b = [])
  | group name inner, parent, taken, v, b => ∃ b', b = (name, v) :: b' ∧
      Yields inner parent taken v b'
  | ref rule name, parent, taken, v, b => ∃ b', b = name.toList.map (·, v) ++ b' ∧
      Γ rule parent taken v b'
  -- The builder sees what is named inside, and none of it leaves.
  | tx inner build, parent, taken, v, b => b = [] ∧ ∃ v' b', Yields inner parent taken v' b' ∧
      build b' (regionOf taken [] parent) = some v

/-- All of the matchers, one after another. -/
def YieldsAll : List (Matcher V) → Loc → List Loc → List V → Bindings V → Prop
  | [], _, taken, vs, b => taken = [] ∧ vs = [] ∧ b = []
  | m :: ms, parent, taken, vs, b => ∃ t t' v vs' b₁ b₂, taken = t ++ t' ∧ vs = v :: vs' ∧
      b = b₂ ++ b₁ ∧ Yields m parent t v b₁ ∧ YieldsAll ms parent t' vs' b₂

/-- One of the matchers. -/
def YieldsAny : List (Matcher V) → Loc → Yield V
  | [], _, _, _, _ => False
  | m :: ms, parent, taken, v, b => Yields m parent taken v b ∨ YieldsAny ms parent taken v b

end

/-- The body of every rule keeps to the contract of the rule. -/
def Keeps : Prop :=
  ∀ name m, g.rule? name = some m → ∀ parent taken v b, m.Yields Γ g cst parent taken v b →
    Γ name parent taken v b

/-- The body of every rule keeps to the contract of the rule where it matches, and notes nothing but what
`J` holds of. -/
def KeepsNoting (J : Loc × Role → Prop) : Prop :=
  ∀ name m, g.rule? name = some m → ∀ parent taken rest v journal b,
    Matches g cst m (taken ++ rest) parent (some ⟨(v, rest), journal, b⟩) → (∀ e ∈ journal, J e) →
    m.Yields Γ g cst parent taken v b → Γ name parent taken v b

end

/-! ## Matches keep to contracts -/

/-- The region of a match depends on the siblings taken only. -/
theorem regionOf_append (taken rest : List Loc) (parent : Loc) :
    regionOf (taken ++ rest) rest parent = regionOf taken [] parent := by
  have htake : (taken ++ rest).take ((taken ++ rest).length - rest.length) = taken := by simp
  have htake' : taken.take (taken.length - ([] : List Loc).length) = taken := by simp
  rw [regionOf, regionOf, htake, htake']

theorem mem_takeFirst {nodes : List Loc} {accept : Loc → Option (V × List (Loc × Role))}
    {gain : Gain V (V × List Loc)} (h : gain ∈ takeFirst nodes accept) :
    ∃ loc rest v journal, nodes = loc :: rest ∧ accept loc = some (v, journal) ∧
      gain = ⟨(v, rest), journal, []⟩ := by
  cases nodes with
  | nil => cases h
  | cons loc rest =>
    obtain ⟨⟨v, journal⟩, haccept, rfl⟩ := Option.map_eq_some_iff.mp h
    exact ⟨loc, rest, v, journal, rfl, haccept, rfl⟩

theorem mem_takeWord {cst : Cst} {nodes : List Loc}
    {accept : String → Loc → Option (V × List (Loc × Role))} {gain : Gain V (V × List Loc)}
    (h : gain ∈ takeWord cst nodes accept) :
    ∃ loc rest word v journal, nodes = loc :: rest ∧ cst.node? loc = some (.id word) ∧
      accept word loc = some (v, journal) ∧ gain = ⟨(v, rest), journal, []⟩ := by
  obtain ⟨loc, rest, v, journal, hnodes, haccept, hgain⟩ := mem_takeFirst h
  split at haccept
  · next word hnode => exact ⟨loc, rest, word, v, journal, hnodes, hnode, haccept, hgain⟩
  · cases haccept

variable [MatchValue V] {Γ : Contract V} {g : Grammar V} {cst : Cst} {J : Loc × Role → Prop}

/-- A match that notes nothing but what `J` holds of takes some siblings from the left, and is one that
the contract allows. -/
def Allowed (J : Loc × Role → Prop) (P : Yield V) (nodes : List Loc) (r : Verdict V) : Prop :=
  ∀ gain ∈ r, (∀ e ∈ gain.journal, J e) →
    ∃ taken, nodes = taken ++ gain.result.2 ∧ P taken gain.result.1 gain.bindings

theorem Allowed.opt {P : Yield V} {nodes : List Loc} {r : Verdict V} (h : Allowed J P nodes r) :
    Allowed J (fun taken v b => P taken v b ∨ (taken = [] ∧ v = MatchValue.absent ∧ b = [])) nodes
      (some (r.getD ⟨(MatchValue.absent, nodes), [], []⟩)) := by
  intro gain hgain hJ
  obtain rfl := Option.some.inj hgain
  cases r with
  | none => exact ⟨[], rfl, .inr ⟨rfl, rfl, rfl⟩⟩
  | some inner =>
    obtain ⟨taken, hnodes, hP⟩ := h inner rfl hJ
    exact ⟨taken, hnodes, .inl hP⟩

theorem Keeps.noting (h : Keeps Γ g cst) : KeepsNoting Γ g cst J :=
  fun name m hrule parent taken _ v _ b _ _ => h name m hrule parent taken v b

mutual

/-- Matches keep to contracts, if all that they note counts. -/
theorem Matches.yields_noting (hΓ : KeepsNoting Γ g cst J) {m : Matcher V} {nodes : List Loc}
    {parent : Loc} {r : Verdict V} (h : Matches g cst m nodes parent r) :
    Allowed J (m.Yields Γ g cst parent) nodes r :=
  match h with
  | .any .. => fun gain hgain _ => by
    obtain ⟨loc, rest, v, journal, rfl, haccept, rfl⟩ := mem_takeFirst hgain
    cases haccept
    exact ⟨[loc], rfl, loc, rfl, rfl, rfl⟩
  | .kwd .. => fun gain hgain _ => by
    obtain ⟨loc, rest, found, v, journal, rfl, hnode, haccept, rfl⟩ := mem_takeWord hgain
    split at haccept
    · next hword =>
      subst hword
      cases haccept
      exact ⟨[loc], rfl, loc, rfl, hnode, rfl, rfl⟩
    · cases haccept
  | .id .. => fun gain hgain _ => by
    obtain ⟨loc, rest, found, v, journal, rfl, hnode, haccept, rfl⟩ := mem_takeWord hgain
    split at haccept
    · cases haccept
    · next hword =>
      cases haccept
      exact ⟨[loc], rfl, loc, found, rfl, hnode, Bool.eq_false_iff.2 hword, rfl, rfl⟩
  | .number .. => fun gain hgain _ => by
    obtain ⟨loc, rest, found, v, journal, rfl, hnode, haccept, rfl⟩ := mem_takeWord hgain
    split at haccept
    · next hword =>
      cases haccept
      rw [Bool.and_eq_true, decide_eq_true_iff] at hword
      exact ⟨[loc], rfl, loc, found, rfl, hnode, hword.1, hword.2, rfl, rfl⟩
    · cases haccept
  | .textMiss _ | .listMiss _ | .tableMiss _ | .refMiss _ => nofun
  | @Matches.text _ _ _ _ _ loc rest _ spans _ hnode hspans => fun gain hgain hJ => by
    obtain ⟨inner, hmem, rfl⟩ := Option.map_eq_some_iff.mp hgain
    exact ⟨[loc], rfl, loc, spans, inner.result, rfl, hnode, rfl, hspans.yields_noting hΓ inner hmem hJ⟩
  | @Matches.list _ _ _ _ _ _ _ loc rest _ found children multiline _ hnode hkind hinner =>
    fun gain hgain hJ => by
    obtain ⟨⟨⟨v, left⟩, journal, bindings⟩, hmem, hinside⟩ := Option.bind_eq_some_iff.mp hgain
    cases left with
    | cons => cases hinside
    | nil =>
      cases hinside
      obtain ⟨taken, htaken, hyields⟩ := hinner.yields_noting hΓ _ hmem fun e he =>
        hJ e (List.mem_append_right _ he)
      obtain rfl := htaken.trans (List.append_nil taken)
      exact ⟨[loc], rfl, loc, found, children, multiline, rfl, hnode, hkind, hyields⟩
  | @Matches.table _ _ _ _ _ _ loc rest _ rows multiline _ hnode hrows => fun gain hgain hJ => by
    obtain ⟨inner, hmem, rfl⟩ := Option.map_eq_some_iff.mp hgain
    exact ⟨[loc], rfl, loc, rows, multiline, inner.result, rfl, hnode, rfl,
      hrows.yields_noting hΓ inner hmem hJ⟩
  | .seq hitems => fun gain hgain hJ => by
    obtain ⟨inner, hmem, rfl⟩ := Option.map_eq_some_iff.mp hgain
    obtain ⟨taken, hnodes, hyields⟩ := hitems.yields_noting hΓ inner hmem hJ
    exact ⟨taken, hnodes, inner.result.1, rfl, hyields⟩
  | .or hitems => hitems.yields_noting hΓ
  | .star hrounds => fun gain hgain hJ => by
    cases hgain
    obtain ⟨taken, hnodes, hyields⟩ := hrounds.yields_noting hΓ hJ
    exact ⟨taken, hnodes, _, rfl, hyields⟩
  | .opt hinner => (hinner.yields_noting hΓ).opt
  | .group hinner => fun gain hgain hJ => by
    obtain ⟨inner, hmem, rfl⟩ := Option.map_eq_some_iff.mp hgain
    obtain ⟨taken, hnodes, hyields⟩ := hinner.yields_noting hΓ inner hmem hJ
    exact ⟨taken, hnodes, inner.bindings, rfl, hyields⟩
  | .ref hrule htarget => fun gain hgain hJ => by
    obtain ⟨⟨⟨v, rest⟩, journal, bindings⟩, hmem, rfl⟩ := Option.map_eq_some_iff.mp hgain
    obtain ⟨taken, rfl, hyields⟩ := htarget.yields_noting hΓ _ hmem hJ
    cases hmem
    -- What the body of the rule may give is what the contract says about the rule.
    exact ⟨taken, rfl, bindings, rfl, hΓ _ _ hrule _ _ _ _ _ _ htarget hJ hyields⟩
  | .tx hinner => fun gain hgain hJ => by
    obtain ⟨inner, hmem, hbuild⟩ := Option.bind_eq_some_iff.mp hgain
    obtain ⟨v, hv, rfl⟩ := Option.map_eq_some_iff.mp hbuild
    obtain ⟨taken, rfl, hyields⟩ := hinner.yields_noting hΓ inner hmem hJ
    rw [regionOf_append] at hv
    exact ⟨taken, rfl, rfl, inner.result.1, inner.bindings, hyields, hv⟩
termination_by structural h

theorem MatchesAll.yields_noting (hΓ : KeepsNoting Γ g cst J) {ms : List (Matcher V)}
    {nodes : List Loc} {parent : Loc} {r : Option (Gain V (List V × List Loc))}
    (h : MatchesAll g cst ms nodes parent r) :
    ∀ gain ∈ r, (∀ e ∈ gain.journal, J e) → ∃ taken, nodes = taken ++ gain.result.2 ∧
      YieldsAll Γ g cst ms parent taken gain.result.1 gain.bindings :=
  match h with
  | .nil .. => fun gain hgain _ => by
    cases hgain
    exact ⟨[], rfl, rfl, rfl, rfl⟩
  | .stop _ => nofun
  | .cons hhead htail => fun gain hgain hJ => by
    obtain ⟨inner, hmem, rfl⟩ := Option.map_eq_some_iff.mp hgain
    obtain ⟨t, rfl, hyields⟩ := hhead.yields_noting hΓ _ rfl fun e he =>
      hJ e (List.mem_append_right _ he)
    obtain ⟨t', rfl, hall⟩ := htail.yields_noting hΓ inner hmem fun e he =>
      hJ e (List.mem_append_left _ he)
    exact ⟨t ++ t', (List.append_assoc _ _ _).symm, t, t', _, _, _, _, rfl, rfl, rfl, hyields, hall⟩
termination_by structural h

theorem MatchesFirst.yields_noting (hΓ : KeepsNoting Γ g cst J) {ms : List (Matcher V)}
    {nodes : List Loc} {parent : Loc} {r : Verdict V} (h : MatchesFirst g cst ms nodes parent r) :
    Allowed J (YieldsAny Γ g cst ms parent) nodes r :=
  match h with
  | .nil .. => nofun
  | .hit hhead => fun gain hgain hJ => by
    obtain ⟨taken, hnodes, hyields⟩ := hhead.yields_noting hΓ gain hgain hJ
    exact ⟨taken, hnodes, .inl hyields⟩
  | .next _ htail => fun gain hgain hJ => by
    obtain ⟨taken, hnodes, hyields⟩ := htail.yields_noting hΓ gain hgain hJ
    exact ⟨taken, hnodes, .inr hyields⟩
termination_by structural h

theorem MatchesRounds.yields_noting (hΓ : KeepsNoting Γ g cst J) {m : Matcher V} {nodes : List Loc}
    {parent : Loc} {gain : Gain V (List V × List Loc)}
    (h : MatchesRounds g cst m nodes parent gain) (hJ : ∀ e ∈ gain.journal, J e) :
    ∃ taken, nodes = taken ++ gain.result.2 ∧
      Yield.rounds (m.Yields Γ g cst parent) gain.result.1 taken gain.bindings :=
  match h with
  | .stop _ => ⟨[], rfl, rfl, rfl⟩
  | .idle .. => ⟨[], rfl, rfl, rfl⟩
  | .more hround htaken hrest => by
    obtain ⟨t, rfl, hyields⟩ := hround.yields_noting hΓ _ rfl fun e he =>
      hJ e (List.mem_append_right _ he)
    obtain ⟨t', rfl, hrounds⟩ := hrest.yields_noting hΓ fun e he => hJ e (List.mem_append_left _ he)
    have hne : t ≠ [] := by
      rintro rfl
      exact Nat.lt_irrefl _ htaken
    exact ⟨t ++ t', (List.append_assoc _ _ _).symm, t, t', _, _, rfl, rfl, hne, hyields, hrounds⟩
termination_by structural h

theorem MatchesSpans.yields_noting (hΓ : KeepsNoting Γ g cst J) {m : Matcher V}
    {spans : List (TextSpan Loc)} {r : Option (Gain V (List (TextSpan V)))}
    (h : MatchesSpans g cst m spans r) :
    ∀ gain ∈ r, (∀ e ∈ gain.journal, J e) →
      Yield.spans (fun item => m.Yields Γ g cst item [item]) spans gain.result gain.bindings :=
  match h with
  | .nil _ => fun gain hgain _ => by
    cases hgain
    exact ⟨rfl, rfl⟩
  | .text hrest => fun gain hgain hJ => by
    obtain ⟨inner, hmem, rfl⟩ := Option.map_eq_some_iff.mp hgain
    exact ⟨_, rfl, hrest.yields_noting hΓ inner hmem hJ⟩
  | .stop .. => nofun
  | .embed hitem hrest => fun gain hgain hJ => by
    obtain ⟨inner, hmem, rfl⟩ := Option.map_eq_some_iff.mp hgain
    obtain ⟨taken, htaken, hyields⟩ := hitem.yields_noting hΓ _ rfl fun e he =>
      hJ e (List.mem_append_right _ he)
    obtain rfl := htaken.trans (List.append_nil taken)
    exact ⟨_, _, _, _, rfl, rfl, hyields,
      hrest.yields_noting hΓ inner hmem fun e he => hJ e (List.mem_append_left _ he)⟩
termination_by structural h

theorem MatchesRows.yields_noting (hΓ : KeepsNoting Γ g cst J) {m : Matcher V} {table : Loc}
    {rows : List (List Loc)} {r : Option (Gain V (List V))} (h : MatchesRows g cst m table rows r) :
    ∀ gain ∈ r, (∀ e ∈ gain.journal, J e) →
      Yield.rows (m.Yields Γ g cst table) rows gain.result gain.bindings :=
  match h with
  | .nil .. => fun gain hgain _ => by
    cases hgain
    exact ⟨rfl, rfl⟩
  | .stop .. => nofun
  | .row hrow hrest => fun gain hgain hJ => by
    obtain ⟨inner, hmem, rfl⟩ := Option.map_eq_some_iff.mp hgain
    obtain ⟨taken, htaken, hyields⟩ := hrow.yields_noting hΓ _ rfl fun e he =>
      hJ e (List.mem_append_right _ he)
    obtain rfl := htaken.trans (List.append_nil taken)
    exact ⟨_, _, _, _, rfl, rfl, hyields,
      hrest.yields_noting hΓ inner hmem fun e he => hJ e (List.mem_append_left _ he)⟩
termination_by structural h

end

/-- **Matches keep to contracts.** -/
theorem Matches.yields (hΓ : Keeps Γ g cst) {m : Matcher V} {nodes : List Loc} {parent : Loc}
    {r : Verdict V} (h : Matches g cst m nodes parent r) :
    ∀ gain ∈ r, ∃ taken, nodes = taken ++ gain.result.2 ∧
      m.Yields Γ g cst parent taken gain.result.1 gain.bindings :=
  fun gain hgain => h.yields_noting (J := fun _ => True) hΓ.noting gain hgain fun _ _ => trivial

end Matcher
end TypeTrace
