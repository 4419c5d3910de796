import TypeTrace.Infer.Outline
import TypeTrace.Proofs.Session

/-!
# Lines of explanation

The log shows which lines of explanation there are at every point: a line is there from the event that
adds it to the event that drops it.  Going through the log gives the lines that the state has at its
end, also after operations that failed and left lines behind.  An operation that succeeds has dropped
what it added, and nothing else.  So the outline of a log, which counts the lines above an event instead
of keeping them, indents every event by their number.

## Main definitions

* `Event.restack`, `Event.lines?`: the lines of explanation after an event, and after a log
* `Context.Explains`: the log between two states leads from the lines of one to those of the other
* `Event.Indents`: the outline of a log indents every event by the number of lines above it

## Main results

* `InferM.Stepwise.explains`: what a computation does to the lines of explanation
* `explanations_follow_log`: the log gives the lines of explanation, after every session
-/

namespace TypeTrace

namespace Event

/-- The lines of explanation after an event, the latest first.  No line can be dropped if there is
none. -/
def restack : List StackLine → Event → Option (List StackLine)
  | lines, push _ line => some (line :: lines)
  | [], pop => none
  | _ :: lines, pop => some lines
  | lines, _ => some lines

/-- The lines of explanation after a log. -/
def lines? (events : List Event) : Option (List StackLine) := events.foldlM restack []

end Event

/-! ## The log between two states -/

/-- The later state has the log of the earlier one, and more, which leads from the lines of explanation
there to those here. -/
def Context.Explains (ctx ctx' : Context) : Prop :=
  ∃ added : List Event, ctx'.events.toList = ctx.events.toList ++ added ∧
    added.foldlM Event.restack ctx.stack = some ctx'.stack

namespace Context.Explains

variable {ctx ctx' ctx'' : Context}

theorem refl (ctx : Context) : ctx.Explains ctx := ⟨[], by simp, rfl⟩

theorem trans (h : ctx.Explains ctx') (h' : ctx'.Explains ctx'') : ctx.Explains ctx'' := by
  obtain ⟨added, hlog, hlines⟩ := h
  obtain ⟨added', hlog', hlines'⟩ := h'
  refine ⟨added ++ added', by rw [hlog', hlog, List.append_assoc], ?_⟩
  rw [List.foldlM_append, hlines]
  exact hlines'

theorem of_push {e : Event} (hlog : ctx'.events = ctx.events.push e)
    (hlines : e.restack ctx.stack = some ctx'.stack) : ctx.Explains ctx' := by
  refine ⟨[e], by rw [hlog, Array.toList_push], ?_⟩
  simp [hlines]

theorem lines?_eq (h : ctx.Explains ctx') (hctx : Event.lines? ctx.events.toList = some ctx.stack) :
    Event.lines? ctx'.events.toList = some ctx'.stack := by
  obtain ⟨added, hlog, hlines⟩ := h
  rw [Event.lines?] at hctx ⊢
  rw [hlog, List.foldlM_append, hctx]
  exact hlines

end Context.Explains

namespace InferM

variable {α : Type} {m : InferM α} {n n' : Nat}

theorem explains_unify (one two : Ty) (src : Region) (oneName twoName : String)
    (message : Option String) (ctx : Context) :
    ctx.Explains (exec (unify one two src oneName twoName message) ctx).2 := by
  obtain ⟨-, -, hstack, added, hlog, hadded⟩ :=
    exec_unify_frame one two src oneName twoName message ctx
  refine ⟨added, hlog, ?_⟩
  rw [hstack]
  clear hlog
  induction added with
  | nil => rfl
  | cons e added ih =>
    obtain ⟨⟨step, rfl⟩, hmore⟩ := List.forall_mem_cons.mp hadded
    exact ih hmore

/-- **What a computation does to the lines of explanation.**  The log leads from the lines before to
those after it.  It touches none but the latest `n`, which it replaces by `n'` lines if it succeeds. -/
theorem Stepwise.explains (hm : Stepwise n n' m) {ctx : Context} {top base : List StackLine}
    (hstack : ctx.stack = top ++ base) (hn : top.length = n) :
    ctx.Explains (exec m ctx).2 ∧ ∃ top', (exec m ctx).2.stack = top' ++ base ∧
      ∀ a, (exec m ctx).1 = .ok a → top'.length = n' := by
  induction hm generalizing ctx top with
  | pure a => exact ⟨.refl ctx, top, hstack, fun _ _ => hn⟩
  | throw e he => exact ⟨.refl ctx, top, hstack, nofun⟩
  | @bind _ _ _ _ _ m f hm hf ihm ihf =>
    obtain ⟨hexplains, top₁, hstack₁, hlength₁⟩ := ihm hstack hn
    rw [exec_bind]
    rcases hr : exec m ctx with ⟨e | a, ctx₁⟩
    all_goals rw [hr] at hexplains hstack₁ hlength₁
    · exact ⟨hexplains, top₁, hstack₁, nofun⟩
    · obtain ⟨hexplains', hrest⟩ := ihf a hstack₁ (hlength₁ a rfl)
      exact ⟨hexplains.trans hexplains', hrest⟩
  | subst => exact ⟨.refl ctx, top, hstack, fun _ _ => hn⟩
  | infer src t => exact ⟨.of_push rfl rfl, top, hstack, fun _ _ => hn⟩
  | pause title => exact ⟨.of_push rfl rfl, top, hstack, fun _ _ => hn⟩
  | freshVar origin => exact ⟨.of_push rfl rfl, top, hstack, fun _ _ => hn⟩
  | unify one two src oneName twoName message =>
    refine ⟨explains_unify one two src oneName twoName message ctx, top, ?_, fun _ _ => hn⟩
    rw [(exec_unify_frame one two src oneName twoName message ctx).2.2.1, hstack]
  | push src line =>
    refine ⟨.of_push rfl rfl, line :: top, ?_, fun _ _ => congrArg Nat.succ hn⟩
    exact congrArg (line :: ·) hstack
  | pop =>
    -- There is a line to drop: one of those that belong to the computation.
    obtain ⟨line, top, rfl⟩ := List.exists_cons_of_length_eq_add_one hn
    refine ⟨.of_push rfl ?_, top, ?_, fun _ _ => Nat.succ.inj hn⟩
    · rw [hstack]
      exact congrArg (fun lines => some lines.tail) hstack.symm
    · exact congrArg List.tail hstack
  | noteScope env =>
    rcases exec_noteScope env ctx with hr | hr
    all_goals rw [hr]
    · exact ⟨.refl ctx, top, hstack, fun _ _ => hn⟩
    · exact ⟨.of_push rfl rfl, top, hstack, fun _ _ => hn⟩

theorem Stepwise.explains_self (hm : Stepwise 0 0 m) (ctx : Context) :
    ctx.Explains (exec m ctx).2 :=
  (hm.explains (List.nil_append ctx.stack).symm rfl).1

/-- A computation that only drops what it adds leaves the lines of explanation as they were, if it
succeeds. -/
theorem Stepwise.stack_eq (hm : Stepwise 0 0 m) {ctx : Context} {a : α}
    (hok : (exec m ctx).1 = .ok a) : (exec m ctx).2.stack = ctx.stack := by
  obtain ⟨-, top, hstack, hlength⟩ := hm.explains (List.nil_append ctx.stack).symm rfl
  rw [hstack, List.eq_nil_of_length_eq_zero (hlength a hok), List.nil_append]

end InferM

/-! ## Outlines -/

namespace Event

/-- The outline of a log indents every event by the number of lines of explanation above it, and drops a
line only where there is one. -/
def Indents (events : List Event) : Prop :=
  ∀ before rest, events = before ++ rest → ∃ lines, lines? before = some lines ∧
    (rest.head? = some pop → lines ≠ []) ∧
    outline 0 events = outline 0 before ++ outline lines.length rest

theorem outline_append {before : List Event} {lines lines' : List StackLine}
    (h : before.foldlM restack lines = some lines') (rest : List Event) :
    outline lines.length (before ++ rest) =
      outline lines.length before ++ outline lines'.length rest := by
  induction before generalizing lines with
  | nil =>
    obtain rfl : lines = lines' := Option.some.inj h
    rfl
  | cons e before ih =>
    rw [List.foldlM_cons] at h
    obtain ⟨lines₁, hstep, hmore⟩ := Option.bind_eq_some_iff.1 h
    have ih := ih hmore
    cases e with
    | pop =>
      -- The number of lines goes down by one, since there is one to drop.
      cases lines with
      | nil => cases hstep
      | cons line lines =>
        cases hstep
        simpa [outline] using ih
    | unify step =>
      cases hstep
      by_cases hdelta : step.delta.isEmpty <;> simp [outline, hdelta, ih]
    | push src line =>
      cases hstep
      rw [List.length_cons] at ih
      simp [outline, ih]
    | newVar | infer | scope | pause =>
      cases hstep
      simp [outline, ih]

theorem indents_of_lines? {events : List Event} {lines : List StackLine}
    (h : lines? events = some lines) : Indents events := by
  rintro before rest rfl
  rw [lines?, List.foldlM_append] at h
  obtain ⟨lines₁, hbefore, hrest⟩ := Option.bind_eq_some_iff.1 h
  refine ⟨lines₁, hbefore, ?_, outline_append hbefore rest⟩
  rintro hpop rfl
  obtain ⟨rest, rfl⟩ := List.head?_eq_some_iff.1 hpop
  cases hrest

end Event

/-! ## Sessions -/

theorem Context.lines?_after (ops : List Operation) :
    Event.lines? (Context.after ops).events.toList = some (Context.after ops).stack :=
  after_induction (P := fun ctx => Event.lines? ctx.events.toList = some ctx.stack) rfl
    (fun ctx op h => (op.stepwise_run.explains_self ctx).lines?_eq h) ops

/-- **The log gives the lines of explanation**, after every session, and an operation that succeeds
leaves them as they were, in every state.  The outline of the log of a session or a program indents every
event by the number of lines above it. -/
theorem explanations_follow_log :
    (∀ ops : List Operation,
      Event.lines? (Context.after ops).events.toList = some (Context.after ops).stack ∧
      Event.Indents (Context.after ops).events.toList) ∧
    (∀ (ctx : Context) (op : Operation),
      (op.run.exec ctx).1 = .ok () → (op.run.exec ctx).2.stack = ctx.stack) ∧
    ∀ (env : Env) (s : Stmt),
      match Infer.program env s with
      | .ok (_, trace) => Event.Indents trace.events.toList
      | .error failure => Event.Indents failure.trace.events.toList := by
  refine ⟨fun ops => ?_, fun ctx op hok => op.stepwise_run.stack_eq hok, fun env s => ?_⟩
  · exact ⟨Context.lines?_after ops, Event.indents_of_lines? (Context.lines?_after ops)⟩
  · have hstmt := (InferM.stepwise_stmt env s).explains_self {}
    have h := Event.indents_of_lines? (hstmt.lines?_eq rfl)
    rcases InferM.program_cases env s with ⟨r, ctx, hexec, hprogram⟩ | ⟨e, ctx, hexec, hprogram⟩
    all_goals
      rw [hexec] at h
      rw [hprogram]
      exact h

end TypeTrace
