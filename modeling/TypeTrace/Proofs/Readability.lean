import TypeTrace.Proofs.Assignment
import TypeTrace.Ty.Printer

/-!
# Printed types can be read in one way only

A printed type has no brackets around functions: `(a) => (b) => c` and `((a) => b) => c` tell the two
ways of nesting apart by nothing but the place of the brackets around arguments, and a tuple looks like
the arguments of a function until the arrow comes.  Still the text determines the type.  A name ends at
the first mark, an argument list ends at the bracket that closes it, and what comes after the bracket
decides between a tuple and a function; for after a type there is a comma, a closing bracket or nothing,
and never an arrow.

The text does not tell variables from constants, so this has to be known from elsewhere.

## Main definitions

* `Name.Plain`: a name without marks
* `Ty.Legible`: types with plain names, constants as heads, and no empty argument lists
* `Ty.constants`, `Ty.NamesApart`: the constants of a type, and types that agree on what is a variable
* `Ty.Determined`: the type can be recovered from a text that it begins

## Main results

* `Ty.Legible.determined`: legible types are determined by their texts
* `Ty.render_eq_render_iff`: two legible types have one text only if they are equal
-/

namespace TypeTrace

namespace Name

/-- A character that printed types put between names. -/
def isMark (c : Char) : Bool := [' ', ',', '(', ')', '='].contains c

/-- The name is not empty, and no character of it is a mark. -/
def Plain (name : String) : Prop := name ≠ "" ∧ ∀ c ∈ name.toList, isMark c = false

instance : DecidablePred Plain := fun name =>
  decidable_of_iff (name ≠ "" ∧ name.toList.all (fun c => !isMark c) = true) (by simp [Plain])

end Name

namespace Ty

/-- The types with plain names, in which heads are constants and argument lists are not empty.  The
constant `,` is the head of tuples, and stands nowhere else. -/
inductive Legible : Ty → Prop
  | var {x : String} (hx : Name.Plain x) : Legible (.var x)
  | con {c : String} (hc : Name.Plain c) : Legible (.con c)
  | fn {args : List Ty} {result : Ty} (hne : args ≠ []) (hargs : ∀ t ∈ args, Legible t)
    (hresult : Legible result) : Legible (.fn args result)
  | app {c : String} {args : List Ty} (hc : c = "," ∨ Name.Plain c) (hne : args ≠ [])
    (hargs : ∀ t ∈ args, Legible t) : Legible (.app (.con c) args)

/-! ## Variables and constants -/

mutual

/-- Every occurrence of a constant, heads of applications included. -/
def constants : Ty → List String
  | .var _ => []
  | .con c => [c]
  | .fn args result => result.constants ++ constantsAll args
  | .app target args => target.constants ++ constantsAll args

/-- Every occurrence of a constant in a list of types. -/
def constantsAll : List Ty → List String
  | [] => []
  | t :: ts => t.constants ++ constantsAll ts

end

@[simp] theorem mem_constantsAll {x : String} {ts : List Ty} :
    x ∈ constantsAll ts ↔ ∃ t ∈ ts, x ∈ t.constants := by
  induction ts with
  | nil => simp [constantsAll]
  | cons t ts ih => simp [constantsAll, ih]

/-- No name is a variable of one of the types and a constant of the other. -/
def NamesApart (t u : Ty) : Prop :=
  (∀ x ∈ t.free, x ∉ u.constants) ∧ ∀ x ∈ u.free, x ∉ t.constants

/-- The arguments of a function or of an application. -/
def args : Ty → List Ty
  | .var _ => []
  | .con _ => []
  | .fn args _ => args
  | .app _ args => args

theorem free_subset_of_mem_args {t a : Ty} (ha : a ∈ t.args) : a.free ⊆ t.free := by
  intro x hx
  rw [mem_free] at hx ⊢
  cases t with
  | var y => cases ha
  | con c => cases ha
  | fn args result => exact mem_occurrences_fn.mpr (.inr ⟨a, ha, hx⟩)
  | app target args => exact mem_occurrences_app.mpr (.inr ⟨a, ha, hx⟩)

theorem constants_subset_of_mem_args {t a : Ty} (ha : a ∈ t.args) : a.constants ⊆ t.constants := by
  intro x hx
  cases t with
  | var y => cases ha
  | con c => cases ha
  | fn args result =>
    rw [constants, List.mem_append, mem_constantsAll]
    exact .inr ⟨a, ha, hx⟩
  | app target args =>
    rw [constants, List.mem_append, mem_constantsAll]
    exact .inr ⟨a, ha, hx⟩

/-- Arguments of types whose names are apart have their names apart. -/
theorem NamesApart.args {t u a b : Ty} (h : t.NamesApart u) (ha : a ∈ t.args) (hb : b ∈ u.args) :
    a.NamesApart b :=
  ⟨fun x hx hc => h.1 x (free_subset_of_mem_args ha hx) (constants_subset_of_mem_args hb hc),
    fun x hx hc => h.2 x (free_subset_of_mem_args hb hx) (constants_subset_of_mem_args ha hc)⟩

theorem NamesApart.result {as bs : List Ty} {p q : Ty} (h : (fn as p).NamesApart (fn bs q)) :
    p.NamesApart q := by
  have hfree (as : List Ty) (p : Ty) : p.free ⊆ (fn as p).free := fun x hx =>
    mem_free.mpr (mem_occurrences_fn.mpr (.inl (mem_free.mp hx)))
  have hconstants (as : List Ty) (p : Ty) : p.constants ⊆ (fn as p).constants := by
    rw [constants]
    exact List.subset_append_left _ _
  exact ⟨fun x hx hc => h.1 x (hfree as p hx) (hconstants bs q hc),
    fun x hx hc => h.2 x (hfree bs q hx) (hconstants as p hc)⟩

/-! ## The parts of a text

The text of a type is a word, which is empty for tuples and functions, followed by nothing or by
arguments between brackets, followed by an arrow and a result for functions. -/

/-- The text after the first of several arguments: the others, and the closing bracket. -/
def moreArgs : List Ty → List Char
  | [] => [')']
  | t :: ts => ',' :: ' ' :: (t.render.toList ++ moreArgs ts)

/-- The text of arguments between brackets. -/
def bracketed : List Ty → List Char
  | [] => ['(', ')']
  | t :: ts => '(' :: (t.render.toList ++ moreArgs ts)

/-- The word at the beginning of the text of a type. -/
def word : Ty → List Char
  | .var x => x.toList
  | .con c => c.toList
  | .fn _ _ => []
  | .app target _ => if target = .con "," then [] else target.render.toList

/-- The text of a type after the word. -/
def afterWord : Ty → List Char
  | .var _ => []
  | .con _ => []
  | .fn args result => bracketed args ++ ([' ', '=', '>', ' '] ++ result.render.toList)
  | .app _ args => bracketed args

theorem toList_bracketed (args : List Ty) :
    ("(" ++ ", ".intercalate (renderAll args) ++ ")").toList = bracketed args := by
  have hmore : ∀ (t : Ty) (ts : List Ty),
      (", ".intercalate (renderAll (t :: ts)) ++ ")").toList = t.render.toList ++ moreArgs ts := by
    intro t ts
    induction ts generalizing t with
    | nil => simp [renderAll, moreArgs]
    | cons u us ih =>
      have hu := ih u
      rw [renderAll] at hu
      rw [renderAll, renderAll, String.intercalate_cons_cons, moreArgs, ← hu]
      simp
  cases args with
  | nil => rfl
  | cons t ts =>
    rw [bracketed, ← hmore t ts]
    simp

theorem toList_render (t : Ty) : t.render.toList = t.word ++ t.afterWord := by
  cases t with
  | var x => simp [render, word, afterWord]
  | con c => simp [render, word, afterWord]
  | fn args result =>
    rw [render, word, afterWord, ← toList_bracketed]
    simp
  | app target args =>
    rw [word, afterWord, ← toList_bracketed]
    split
    · next htarget =>
      subst htarget
      rw [render]
      simp
    · next htarget =>
      rw [render]
      · simp
      · exact htarget

/-- The text of arguments begins with a bracket. -/
theorem exists_bracketed (args : List Ty) : ∃ cs, bracketed args = '(' :: cs := by
  cases args with
  | nil => exact ⟨_, rfl⟩
  | cons t ts => exact ⟨_, rfl⟩

/-! ## Where a type ends -/

/-- What may come after a type in a text: a comma, a closing bracket, or nothing. -/
def Closes (r : List Char) : Prop := ∀ c ∈ r.head?, c = ',' ∨ c = ')'

theorem Closes.nil : Closes [] := fun c hc => by cases hc

theorem closes_moreArgs (ts : List Ty) (r : List Char) : Closes (moreArgs ts ++ r) := by
  intro c hc
  cases ts with
  | nil => exact .inr (Option.some.inj hc).symm
  | cons t ts => exact .inl (Option.some.inj hc).symm

theorem Closes.ne_cons {c : Char} {r cs : List Char} (h : Closes r) (hc : ¬ (c = ',' ∨ c = ')')) :
    r ≠ c :: cs := by
  rintro rfl
  exact hc (h c rfl)

/-- Arguments are no end of a type. -/
theorem Closes.ne_bracketed {r more : List Char} (h : Closes r) (args : List Ty) :
    r ≠ bracketed args ++ more := by
  obtain ⟨cs, hcs⟩ := exists_bracketed args
  rw [hcs]
  exact h.ne_cons (by decide)

/-- After the word of a type there is a mark, or nothing. -/
theorem isMark_of_mem_head? {t : Ty} {r : List Char} (hr : Closes r) {c : Char}
    (hc : c ∈ (t.afterWord ++ r).head?) : Name.isMark c = true := by
  have hopen (args : List Ty) (more : List Char) (hc : c ∈ (bracketed args ++ more).head?) :
      Name.isMark c = true := by
    obtain ⟨cs, hcs⟩ := exists_bracketed args
    rw [hcs] at hc
    cases hc
    rfl
  have hclose (hc : c ∈ r.head?) : Name.isMark c = true := by
    rcases hr c hc with rfl | rfl <;> rfl
  cases t with
  | var x => exact hclose hc
  | con c => exact hclose hc
  | fn args result =>
    rw [afterWord, List.append_assoc] at hc
    exact hopen args _ hc
  | app target args => exact hopen args _ hc

/-- The word of a legible type has no marks in it. -/
theorem Legible.isMark_of_mem_word {t : Ty} (ht : t.Legible) {c : Char} (hc : c ∈ t.word) :
    Name.isMark c = false := by
  cases ht with
  | var hx => exact hx.2 c hc
  | con hx => exact hx.2 c hc
  | fn hne hargs hresult => cases hc
  | app hx hne hargs =>
    rw [word] at hc
    split at hc
    · cases hc
    · next htarget =>
      -- A head other than that of tuples is printed as it is, and has a plain name.
      rw [render] at hc
      exact (hx.resolve_left fun h => htarget (congrArg _ h)).2 c hc

/-- **A word ends at the first mark.** -/
theorem Legible.word_eq {t u : Ty} (ht : t.Legible) (hu : u.Legible) {r s : List Char} (hr : Closes r)
    (hs : Closes s) (h : t.render.toList ++ r = u.render.toList ++ s) :
    t.word = u.word ∧ t.afterWord ++ r = u.afterWord ++ s := by
  have hcut {t : Ty} (ht : t.Legible) {r : List Char} (hr : Closes r) :
      (t.render.toList ++ r).takeWhile (fun c => !Name.isMark c) = t.word := by
    rw [toList_render, List.append_assoc, List.takeWhile_append_of_pos
      fun c hc => by simp [ht.isMark_of_mem_word hc]]
    cases hrest : t.afterWord ++ r with
    | nil => simp
    | cons c cs =>
      have hc : Name.isMark c = true := isMark_of_mem_head? (t := t) hr (by rw [hrest]; rfl)
      simp [hc]
  have hword : t.word = u.word := by rw [← hcut ht hr, h, hcut hu hs]
  refine ⟨hword, ?_⟩
  rw [toList_render, toList_render, hword, List.append_assoc, List.append_assoc] at h
  exact List.append_cancel_left h

/-! ## Unique readability -/

/-- The type can be recovered from every text that begins with its own, as long as the rest of the text
may follow a type. -/
def Determined (t : Ty) : Prop :=
  ∀ u r s, u.Legible → t.NamesApart u → Closes r → Closes s →
    t.render.toList ++ r = u.render.toList ++ s → t = u ∧ r = s

variable {as bs : List Ty} {r s : List Char}

/-- The arguments after the first one can be recovered if each of them can. -/
theorem moreArgs_inj (has : ∀ a ∈ as, a.Determined) (hbs : ∀ b ∈ bs, b.Legible)
    (hnames : ∀ a ∈ as, ∀ b ∈ bs, a.NamesApart b) (h : moreArgs as ++ r = moreArgs bs ++ s) :
    as = bs ∧ r = s := by
  induction as generalizing bs with
  | nil =>
    cases bs with
    | nil => exact ⟨rfl, (List.cons.inj h).2⟩
    | cons b bs => cases (List.cons.inj h).1
  | cons a as ih =>
    cases bs with
    | nil => cases (List.cons.inj h).1
    | cons b bs =>
      obtain ⟨ha, has'⟩ := List.forall_mem_cons.mp has
      obtain ⟨hb, hbs'⟩ := List.forall_mem_cons.mp hbs
      simp only [moreArgs, List.cons_append, List.append_assoc, List.cons.injEq, true_and] at h
      obtain ⟨rfl, hrest⟩ := ha b _ _ hb (hnames a List.mem_cons_self b List.mem_cons_self)
        (closes_moreArgs as r) (closes_moreArgs bs s) h
      have hnames' : ∀ a' ∈ as, ∀ b' ∈ bs, a'.NamesApart b' := fun a' ha' b' hb' =>
        hnames a' (List.mem_cons_of_mem _ ha') b' (List.mem_cons_of_mem _ hb')
      obtain ⟨rfl, hr⟩ := ih has' hbs' hnames' hrest
      exact ⟨rfl, hr⟩

/-- **Arguments between brackets can be recovered** if each of them can: the bracket that closes them is
the one after the last argument. -/
theorem bracketed_inj (hne : as ≠ []) (hne' : bs ≠ []) (has : ∀ a ∈ as, a.Determined)
    (hbs : ∀ b ∈ bs, b.Legible) (hnames : ∀ a ∈ as, ∀ b ∈ bs, a.NamesApart b)
    (h : bracketed as ++ r = bracketed bs ++ s) : as = bs ∧ r = s := by
  obtain ⟨a, as, rfl⟩ := List.exists_cons_of_ne_nil hne
  obtain ⟨b, bs, rfl⟩ := List.exists_cons_of_ne_nil hne'
  -- With a comma and a space in front, the first argument is one more of several.
  refine moreArgs_inj has hbs hnames ?_
  simp only [bracketed, List.cons_append, List.cons.injEq, true_and] at h
  simp only [moreArgs, List.cons_append, h]

/-- The word of an application tells its head: it is empty for tuples only. -/
theorem head_eq {c d : String} (hc : c = "," ∨ Name.Plain c) (hd : d = "," ∨ Name.Plain d)
    (h : (app (.con c) as).word = (app (.con d) bs).word) : c = d := by
  have hword (c : String) (as : List Ty) :
      (app (.con c) as).word = if c = "," then [] else c.toList := by
    simp [word, render]
  have hplain {c : String} (hc : Name.Plain c) : c.toList ≠ [] := fun h =>
    hc.1 (String.toList_injective h)
  rw [hword, hword] at h
  grind [String.toList_injective]

/-- **Legible types are determined by their texts.** -/
theorem Legible.determined {t : Ty} (ht : t.Legible) : t.Determined := by
  -- Induction on the type that is read; the other one is taken apart beside it.  The words agree by
  -- `word_eq`, and a text that goes on after the word is not one that ends there.
  induction ht with
  | @var x hx =>
    intro u r s hu hnames hr hs h
    obtain ⟨hword, hafter⟩ := (Legible.var hx).word_eq hu hr hs h
    cases hu with
    | var hy => exact ⟨congrArg _ (String.toList_injective hword), hafter⟩
    | con hc =>
      obtain rfl := String.toList_injective hword
      exact absurd (by simp [constants]) (hnames.1 x (by simp))
    | @fn bs q =>
      rw [afterWord, afterWord, List.append_assoc] at hafter
      exact absurd hafter (hr.ne_bracketed bs)
    | @app d bs => exact absurd hafter (hr.ne_bracketed bs)
  | @con c hc =>
    intro u r s hu hnames hr hs h
    obtain ⟨hword, hafter⟩ := (Legible.con hc).word_eq hu hr hs h
    cases hu with
    | var hy =>
      obtain rfl := String.toList_injective hword
      exact absurd (by simp [constants]) (hnames.2 c (by simp))
    | con hd => exact ⟨congrArg _ (String.toList_injective hword), hafter⟩
    | @fn bs q =>
      rw [afterWord, afterWord, List.append_assoc] at hafter
      exact absurd hafter (hr.ne_bracketed bs)
    | @app d bs => exact absurd hafter (hr.ne_bracketed bs)
  | @fn as result hne has hresult ihargs ihresult =>
    intro u r s hu hnames hr hs h
    obtain ⟨-, hafter⟩ := (Legible.fn hne has hresult).word_eq hu hr hs h
    simp only [afterWord, List.append_assoc] at hafter
    cases hu with
    | var hy => exact absurd hafter.symm (hs.ne_bracketed as)
    | con hd => exact absurd hafter.symm (hs.ne_bracketed as)
    | fn hne' hbs hq =>
      simp only [List.append_assoc] at hafter
      obtain ⟨rfl, harrow⟩ := bracketed_inj hne hne' ihargs hbs (fun a ha b hb => hnames.args ha hb)
        hafter
      obtain ⟨rfl, hrest⟩ := ihresult _ r s hq hnames.result hr hs (List.append_cancel_left harrow)
      exact ⟨rfl, hrest⟩
    | app hd hne' hbs =>
      -- The arrow stands where the tuple has ended.
      obtain ⟨-, harrow⟩ := bracketed_inj hne hne' ihargs hbs (fun a ha b hb => hnames.args ha hb) hafter
      exact absurd harrow.symm (hs.ne_cons (by decide))
  | @app c as hc hne has ihargs =>
    intro u r s hu hnames hr hs h
    obtain ⟨hword, hafter⟩ := (Legible.app hc hne has).word_eq hu hr hs h
    rw [afterWord] at hafter
    cases hu with
    | var hy => exact absurd hafter.symm (hs.ne_bracketed as)
    | con hd => exact absurd hafter.symm (hs.ne_bracketed as)
    | fn hne' hbs hq =>
      rw [afterWord, List.append_assoc] at hafter
      obtain ⟨-, harrow⟩ := bracketed_inj hne hne' ihargs hbs (fun a ha b hb => hnames.args ha hb) hafter
      exact absurd harrow (hr.ne_cons (by decide))
    | @app d bs hd hne' hbs =>
      obtain ⟨rfl, hrest⟩ := bracketed_inj hne hne' ihargs hbs (fun a ha b hb => hnames.args ha hb) hafter
      exact ⟨congrArg (fun head => Ty.app (.con head) as) (head_eq hc hd hword), hrest⟩

/-- **The text of a type determines it.**  Two legible types that agree on which names are variables have
the same text only if they are equal. -/
theorem render_eq_render_iff {t u : Ty} (ht : t.Legible) (hu : u.Legible) (hnames : t.NamesApart u) :
    t.render = u.render ↔ t = u := by
  refine ⟨fun h => ?_, congrArg render⟩
  exact (ht.determined u [] [] hu hnames .nil .nil (by rw [h])).1

/-- The type that prints as `((a) => b) => Array(int)`. -/
def takesFunction : Ty := .fn [.fn [.var "a"] (.var "b")] (.array .int)

/-- The type that prints as `(a) => (b) => Array(int)`. -/
def givesFunction : Ty := .fn [.var "a"] (.fn [.var "b"] (.array .int))

theorem render_takesFunction_ne :
    takesFunction.Legible ∧ givesFunction.Legible ∧ takesFunction.NamesApart givesFunction ∧
      takesFunction.render ≠ givesFunction.render := by
  have ha : (Ty.var "a").Legible := .var (by decide)
  have hb : (Ty.var "b").Legible := .var (by decide)
  have harray : (Ty.array .int).Legible :=
    .app (.inr (by decide)) (by decide) (List.forall_mem_singleton.mpr (.con (by decide)))
  have htakes : takesFunction.Legible :=
    .fn (by decide) (List.forall_mem_singleton.mpr (.fn (by decide) (List.forall_mem_singleton.mpr ha) hb))
      harray
  have hgives : givesFunction.Legible :=
    .fn (by decide) (List.forall_mem_singleton.mpr ha)
      (.fn (by decide) (List.forall_mem_singleton.mpr hb) harray)
  have hnames : takesFunction.NamesApart givesFunction := ⟨by decide, by decide⟩
  exact ⟨htakes, hgives, hnames, (render_eq_render_iff htakes hgives hnames).not.mpr (by decide)⟩

end Ty
end TypeTrace
