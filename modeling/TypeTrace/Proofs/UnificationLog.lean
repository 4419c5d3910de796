import TypeTrace.Proofs.Session

/-!
# Unifications and the log

A unification either fails and leaves the state as it was, or it adds bindings and logs what it did: once
if there was nothing to bind, and otherwise twice, before and after the bindings are applied to its types.
It logs the bindings before it composes them with those so far, and the composition could fail in between;
that it never does is a fact about the states of a session, whose bindings are resolved.

So the log of a session tells its unifications.  It falls into blocks in one way only, and the blocks that
are unifications are those that the session has performed, in order, each with the bindings it has added.

## Main definitions

* `InferM.Performs`, `Operation.Performed`: the unifications that a computation, or a session, performs
* `Block`, `Block.Proper`, `Splits`: the blocks of a log
* `Context.Records`: the log of a state tells the unifications

## Main results

* `unification_atomic`: a unification that fails changes nothing, and one that succeeds little
* `InferM.Stepwise.performs`: every computation of inference performs some unifications
* `Splits.unique`: a log falls into blocks in one way only
* `InferM.Performs.records`: the log goes on telling the unifications
* `unifications_in_log`: the unifications in the log of a session
-/

namespace TypeTrace

open InferM (exec unifyEvents)

/-! ## Unification is atomic -/

/-- **Unification is atomic**, after every session.  If it fails, the state is as it was, and nothing that
is added to the bindings could make the types equal.  If it succeeds, it has changed the bindings and
appended to the log, and with the bindings applied the types are equal. -/
theorem unification_atomic (ops : List Operation) (one two : Ty) (src : Region)
    (oneName twoName : String) (message : Option String) :
    let ctx := Context.after ops
    match exec (InferM.unify one two src oneName twoName message) ctx with
    | (.error _, ctx') => ctx' = ctx ∧
      ¬ ∃ u : Subst, (one.apply ctx.subst).apply u = (two.apply ctx.subst).apply u
    | (.ok (), ctx') => ctx' = { ctx with subst := ctx'.subst, events := ctx'.events } ∧
      (∃ added, ctx'.events.toList = ctx.events.toList ++ added) ∧
      one.apply ctx'.subst = two.apply ctx'.subst := by
  intro ctx
  have hresolved := (Context.consistent_after ops).resolved
  rcases InferM.exec_unify_cases one two src oneName twoName message hresolved with
    ⟨e, hu, hexec⟩ | ⟨delta, s, hu, hs, -, hexec⟩
  all_goals rw [hexec]
  · refine ⟨rfl, ?_⟩
    rintro ⟨u, heq⟩
    rw [Ty.apply_eq_assign u, Ty.apply_eq_assign u] at heq
    exact (Ty.unify_error hu).1 _ heq
  · refine ⟨rfl, ⟨_, Array.toList_appendList⟩, ?_⟩
    change one.apply s = two.apply s
    rw [Subst.apply_compose hs, Subst.apply_compose hs, (Ty.unify_ok hu).unifies]

/-! ## The unifications of a session -/

/-- The unifications that a computation performs when it is run from a state: those that succeed, in
order, with their types and the bindings they add.  No elementary step but unification performs any. -/
inductive InferM.Performs : {α : Type} → InferM α → Context → List UnifyStep → Prop
  | pure {α : Type} (a : α) (ctx : Context) : Performs (pure a) ctx []
  | throw {α : Type} (e : TypeError) (ctx : Context) : Performs (throw e : InferM α) ctx []
  /-- A computation that succeeds is followed by the next one. -/
  | bind {α β : Type} {m : InferM α} {f : α → InferM β} {ctx ctx' : Context} {a : α}
    {steps steps' : List UnifyStep} (hexec : exec m ctx = (.ok a, ctx')) (hm : Performs m ctx steps)
    (hf : Performs (f a) ctx' steps') : Performs (m >>= f) ctx (steps ++ steps')
  /-- A computation that fails is the last one. -/
  | abort {α β : Type} {m : InferM α} {f : α → InferM β} {ctx ctx' : Context} {e : TypeError}
    {steps : List UnifyStep} (hexec : exec m ctx = (.error e, ctx')) (hm : Performs m ctx steps) :
    Performs (m >>= f) ctx steps
  | unify {one two : Ty} {src : Region} {oneName twoName : String} {message : Option String}
    {ctx ctx' : Context} {delta : Subst}
    (hexec : exec (unify one two src oneName twoName message) ctx = (.ok (), ctx'))
    (hdelta : (one.apply ctx.subst).unify (two.apply ctx.subst) = .ok delta) :
    Performs (unify one two src oneName twoName message) ctx
      [⟨one.apply ctx.subst, two.apply ctx.subst, delta, src, oneName, twoName, message⟩]
  | fail {one two : Ty} {src : Region} {oneName twoName : String} {message : Option String}
    {ctx ctx' : Context} {e : TypeError}
    (hexec : exec (unify one two src oneName twoName message) ctx = (.error e, ctx')) :
    Performs (unify one two src oneName twoName message) ctx []
  | subst (ctx : Context) : Performs subst ctx []
  | infer (src : Region) (t : Ty) (ctx : Context) : Performs (emit (.infer src t)) ctx []
  | pause (title : String) (ctx : Context) : Performs (pause title) ctx []
  | freshVar (origin : Origin) (ctx : Context) : Performs (freshVar origin) ctx []
  | push (src : Region) (line : StackLine) (ctx : Context) : Performs (push src line) ctx []
  | pop (ctx : Context) : Performs pop ctx []
  | noteScope (env : Env) (ctx : Context) : Performs (noteScope env) ctx []

/-- **Every computation of inference performs some unifications**, whether it succeeds or fails. -/
theorem InferM.Stepwise.performs {α : Type} {m : InferM α} {n n' : Nat} (hm : Stepwise n n' m)
    (ctx : Context) : ∃ steps, Performs m ctx steps := by
  induction hm generalizing ctx with
  | pure a => exact ⟨[], .pure a ctx⟩
  | throw e he => exact ⟨[], .throw e ctx⟩
  | @bind _ _ _ _ _ m f hm hf ihm ihf =>
    -- Whether there is a next computation depends on how the first one ends.
    obtain ⟨steps, hsteps⟩ := ihm ctx
    rcases hexec : exec m ctx with ⟨e | a, ctx'⟩
    · exact ⟨steps, .abort hexec hsteps⟩
    · obtain ⟨steps', hsteps'⟩ := ihf a ctx'
      exact ⟨steps ++ steps', .bind hexec hsteps hsteps'⟩
  | subst => exact ⟨[], .subst ctx⟩
  | infer src t => exact ⟨[], .infer src t ctx⟩
  | pause title => exact ⟨[], .pause title ctx⟩
  | freshVar origin => exact ⟨[], .freshVar origin ctx⟩
  | unify one two src oneName twoName message =>
    rcases hexec : exec (InferM.unify one two src oneName twoName message) ctx with ⟨e | _, ctx'⟩
    · exact ⟨[], .fail hexec⟩
    · cases hu : (one.apply ctx.subst).unify (two.apply ctx.subst) with
      | ok delta => exact ⟨_, .unify hexec hu⟩
      | error e =>
        rw [exec_unify_error hu] at hexec
        cases hexec
  | push src line => exact ⟨[], .push src line ctx⟩
  | pop => exact ⟨[], .pop ctx⟩
  | noteScope env => exact ⟨[], .noteScope env ctx⟩

/-- The unifications that a session performs: those of its operations, one after the other. -/
inductive Operation.Performed : List Operation → List UnifyStep → Prop
  | nil : Performed [] []
  | concat {ops : List Operation} {op : Operation} {steps steps' : List UnifyStep}
    (hops : Performed ops steps) (hop : op.run.Performs (Context.after ops) steps') :
    Performed (ops ++ [op]) (steps ++ steps')

theorem Operation.exists_performed (ops : List Operation) : ∃ steps, Performed ops steps := by
  induction ops using List.reverseRecOn with
  | nil => exact ⟨[], .nil⟩
  | append_singleton ops op ih =>
    obtain ⟨steps, hsteps⟩ := ih
    obtain ⟨steps', hsteps'⟩ := op.stepwise_run.performs (Context.after ops)
    exact ⟨steps ++ steps', .concat hsteps hsteps'⟩

/-! ## The blocks of a log -/

/-- A block of a log: an event other than a unification, a unification that is logged once, or one that
is logged twice. -/
inductive Block where
  | other (e : Event)
  | once (step : UnifyStep)
  | twice (before after : UnifyStep)

namespace Block

/-- The events of a block. -/
def events : Block → List Event
  | other e => [e]
  | once step => [.unify step]
  | twice before after => [.unify before, .unify after]

/-- A unification is logged once if it binds nothing, and twice if it does, in two events that differ in
their types only. -/
def Proper : Block → Prop
  | other e => ∀ step, e ≠ .unify step
  | once step => step.delta.isEmpty = true
  | twice before after => before.delta.isEmpty = false ∧ after.delta = before.delta ∧
    after.src = before.src ∧ after.oneName = before.oneName ∧ after.twoName = before.twoName ∧
    after.message = before.message

/-- The unification that the block tells. -/
def step? : Block → Option UnifyStep
  | other _ => none
  | once step => some step
  | twice before _ => some before

/-- The second event of a unification has equal types, those of the first one under the bindings. -/
def Applied : Block → Prop
  | twice before after => after.one = after.two ∧ after.one = before.one.apply before.delta ∧
    after.two = before.two.apply before.delta
  | other _ | once _ => True

/-- The first block of a log can be read off. -/
theorem eq_of_append_eq {b b' : Block} {l l' : List Event} (hb : b.Proper) (hb' : b'.Proper)
    (h : b.events ++ l = b'.events ++ l') : b = b' ∧ l = l' := by
  cases b with
  | other e =>
    cases b' with
    | other e' =>
      obtain ⟨rfl, rfl⟩ := List.cons.inj h
      exact ⟨rfl, rfl⟩
    | once step => exact absurd (List.cons.inj h).1 (hb step)
    | twice before after => exact absurd (List.cons.inj h).1 (hb before)
  | once step =>
    cases b' with
    | other e' => exact absurd (List.cons.inj h).1.symm (hb' step)
    | once step' =>
      obtain ⟨hstep, rfl⟩ := List.cons.inj h
      cases hstep
      exact ⟨rfl, rfl⟩
    | twice before after =>
      -- The bindings tell a unification that is logged once from one that is logged twice.
      cases (List.cons.inj h).1
      cases hb.symm.trans hb'.1
  | twice before after =>
    cases b' with
    | other e' => exact absurd (List.cons.inj h).1.symm (hb' before)
    | once step' =>
      cases (List.cons.inj h).1
      cases hb'.symm.trans hb.1
    | twice before' after' =>
      obtain ⟨hbefore, htail⟩ := List.cons.inj h
      obtain ⟨hafter, rfl⟩ := List.cons.inj htail
      cases hbefore
      cases hafter
      exact ⟨rfl, rfl⟩

theorem events_ne_nil (b : Block) : b.events ≠ [] := by
  cases b <;> simp [events]

/-- A unification logs one block, provided that only its new bindings `delta` matter to its types among
all bindings `s`. -/
theorem exists_of_unify {one two : Ty} {delta s : Subst} (hdelta : delta.MostGeneral one two)
    (hone : one.apply s = one.apply delta) (htwo : two.apply s = two.apply delta) (src : Region)
    (oneName twoName : String) (message : Option String) :
    ∃ b : Block, b.Proper ∧ b.Applied ∧
      b.step? = some ⟨one, two, delta, src, oneName, twoName, message⟩ ∧
      b.events = unifyEvents one two delta s src oneName twoName message := by
  by_cases hempty : delta.isEmpty = true
  · refine ⟨.once ⟨one, two, delta, src, oneName, twoName, message⟩, hempty, trivial, rfl, ?_⟩
    simp [events, unifyEvents, hempty]
  · rw [Bool.not_eq_true] at hempty
    refine ⟨.twice ⟨one, two, delta, src, oneName, twoName, message⟩
      ⟨one.apply s, two.apply s, delta, src, oneName, twoName, message⟩,
      ⟨hempty, rfl, rfl, rfl, rfl, rfl⟩, ⟨?_, hone, htwo⟩, rfl, ?_⟩
    · change one.apply s = two.apply s
      rw [hone, htwo, hdelta.unifies]
    · simp [events, unifyEvents, hempty]

end Block

/-- The log falls into the blocks. -/
structure Splits (events : List Event) (blocks : List Block) : Prop where
  proper : ∀ b ∈ blocks, b.Proper
  events_eq : blocks.flatMap Block.events = events

namespace Splits

variable {events events' : List Event} {blocks blocks' : List Block}

theorem nil : Splits [] [] := ⟨fun _ hb => absurd hb List.not_mem_nil, rfl⟩

theorem concat (h : Splits events blocks) {b : Block} (hb : b.Proper) :
    Splits (events ++ b.events) (blocks ++ [b]) := by
  refine ⟨List.forall_mem_append.mpr ⟨h.proper, List.forall_mem_singleton.mpr hb⟩, ?_⟩
  rw [List.flatMap_append, h.events_eq, List.flatMap_singleton]

/-- **A log falls into blocks in one way only.** -/
theorem unique (h : Splits events blocks) (h' : Splits events blocks') : blocks = blocks' := by
  induction blocks generalizing events blocks' with
  | nil =>
    cases blocks' with
    | nil => rfl
    | cons b' bs' =>
      have hnil := h'.events_eq.trans h.events_eq.symm
      rw [List.flatMap_cons] at hnil
      exact absurd (List.append_eq_nil_iff.mp hnil).1 b'.events_ne_nil
  | cons b bs ih =>
    cases blocks' with
    | nil =>
      have hnil := h.events_eq.trans h'.events_eq.symm
      rw [List.flatMap_cons] at hnil
      exact absurd (List.append_eq_nil_iff.mp hnil).1 b.events_ne_nil
    | cons b' bs' =>
      obtain ⟨hb, hbs⟩ := List.forall_mem_cons.mp h.proper
      obtain ⟨hb', hbs'⟩ := List.forall_mem_cons.mp h'.proper
      have hsame := h.events_eq.trans h'.events_eq.symm
      rw [List.flatMap_cons, List.flatMap_cons] at hsame
      obtain ⟨rfl, hrest⟩ := Block.eq_of_append_eq hb hb' hsame
      rw [ih ⟨hbs, rfl⟩ ⟨hbs', hrest.symm⟩]

end Splits

/-- A marked place, where a viewer pauses. -/
def Event.isPause : Event → Bool
  | pause _ => true
  | _ => false

/-- A viewer pauses at the marked places, and twice at each unification that binds variables. -/
theorem Splits.stepCount_eq {events : List Event} {blocks : List Block} (h : Splits events blocks) :
    Event.stepCount events = events.countP Event.isPause +
      2 * (blocks.filterMap Block.step?).countP fun step => !step.delta.isEmpty := by
  obtain ⟨hproper, rfl⟩ := h
  induction blocks with
  | nil => rfl
  | cons b bs ih =>
    obtain ⟨hb, hbs⟩ := List.forall_mem_cons.mp hproper
    have hbs := ih hbs
    simp only [Event.stepCount] at hbs ⊢
    rw [List.flatMap_cons, List.countP_append, List.countP_append, hbs]
    cases b with
    | other e =>
      -- A step is a marked place or a unification, and a block of this kind is no unification.
      have hsame : [e].countP Event.isStep = [e].countP Event.isPause := by
        cases e with
        | unify step => exact absurd rfl (hb step)
        | newVar | infer | scope | push | pop | pause => rfl
      simp only [Block.events, hsame, Block.step?, List.filterMap_cons]
      omega
    | once step =>
      have hempty : step.delta.isEmpty = true := hb
      simp [Block.events, Block.step?, Event.isStep, Event.isPause, hempty]
    | twice before after =>
      obtain ⟨hne, hdelta, -⟩ := hb
      simp only [Block.events, Block.step?, List.filterMap_cons, List.countP_cons, List.countP_nil,
        Event.isStep, Event.isPause, hdelta, hne]
      simp
      omega

/-! ## What the log tells -/

/-- The log tells the unifications: its blocks are these, in order, with the bindings applied in the
second event; no variable is bound by two of them; and together they bind what is bound. -/
structure Context.Records (ctx : Context) (steps : List UnifyStep) : Prop where
  resolved : ctx.subst.Resolved
  blocks : ∃ blocks, Splits ctx.events.toList blocks ∧ blocks.filterMap Block.step? = steps ∧
    ∀ b ∈ blocks, b.Applied
  disjoint : steps.Pairwise fun step step' => ∀ x ∈ step.delta.keys, x ∉ step'.delta.keys
  domain : ∀ x, x ∈ ctx.subst.keys ↔ ∃ step ∈ steps, x ∈ step.delta.keys

namespace Context.Records

variable {ctx ctx' : Context} {steps : List UnifyStep}

theorem initial : Records {} [] := by
  refine ⟨Subst.resolved_empty, ⟨[], .nil, rfl, ?_⟩, .nil, fun x => ?_⟩
  · exact fun b hb => absurd hb List.not_mem_nil
  · simp [Dict.keys]

/-- Other events tell no unification. -/
theorem other (h : ctx.Records steps) {e : Event} (he : e.delta? = none)
    (hs : ctx'.subst = ctx.subst) (hlog : ctx'.events = ctx.events.push e) : ctx'.Records steps := by
  obtain ⟨blocks, hsplit, hsteps, happlied⟩ := h.blocks
  refine ⟨hs ▸ h.resolved, ⟨blocks ++ [.other e], ?_, ?_, ?_⟩, h.disjoint, hs ▸ h.domain⟩
  · rw [hlog, Array.toList_push]
    refine hsplit.concat (b := .other e) ?_
    rintro step rfl
    cases he
  · rw [List.filterMap_append, hsteps]
    exact List.append_nil steps
  · exact List.forall_mem_append.mpr ⟨happlied, List.forall_mem_singleton.mpr trivial⟩

/-- A unification that succeeds is told by the log, and binds variables that no earlier one has bound. -/
theorem unify (h : ctx.Records steps) {one two : Ty} {src : Region} {oneName twoName : String}
    {message : Option String} {delta : Subst}
    (hexec : exec (InferM.unify one two src oneName twoName message) ctx = (.ok (), ctx'))
    (hdelta : (one.apply ctx.subst).unify (two.apply ctx.subst) = .ok delta) :
    ctx'.Records (steps ++
      [⟨one.apply ctx.subst, two.apply ctx.subst, delta, src, oneName, twoName, message⟩]) := by
  rcases InferM.exec_unify_cases one two src oneName twoName message h.resolved with
    ⟨e, hu, -⟩ | ⟨delta', s, hu, hs, hres, hrun⟩
  · rw [hu] at hdelta
    cases hdelta
  · obtain rfl : delta' = delta := Except.ok.inj (hu.symm.trans hdelta)
    rw [hrun] at hexec
    cases hexec
    -- The types are up to date, so all bindings together do to them what the new ones do.
    have hagain (t : Ty) : (t.apply ctx.subst).apply s = (t.apply ctx.subst).apply delta' := by
      rw [Subst.apply_compose hs, h.resolved.apply_apply]
    obtain ⟨b, hproper, hb, hstep, hevents⟩ := Block.exists_of_unify (Ty.unify_ok hu) (hagain one)
      (hagain two) src oneName twoName message
    obtain ⟨blocks, hsplit, hsteps, happlied⟩ := h.blocks
    refine ⟨hres, ⟨blocks ++ [b], ?_, ?_, ?_⟩, List.pairwise_append.mpr ⟨h.disjoint, ?_, ?_⟩, fun x => ?_⟩
    · rw [Array.toList_appendList, ← hevents]
      exact hsplit.concat hproper
    · rw [List.filterMap_append, hsteps, List.filterMap_cons_some hstep, List.filterMap_nil]
    · exact List.forall_mem_append.mpr ⟨happlied, List.forall_mem_singleton.mpr hb⟩
    · exact List.pairwise_singleton ..
    · -- What an earlier unification has bound is bound, and the new bindings keep away from it.
      intro step hmem
      refine List.forall_mem_singleton.mpr fun x hx hnew => ?_
      exact (Subst.compose_eq_ok_iff.mp hs).1 x hnew ((h.domain x).mpr ⟨step, hmem, hx⟩)
    · change x ∈ s.keys ↔ _
      rw [Subst.mem_keys_compose hs, h.domain, or_comm]
      simp [or_and_right, exists_or]

end Context.Records

/-- **The log goes on telling the unifications** that a computation performs. -/
theorem InferM.Performs.records {α : Type} {m : InferM α} {ctx : Context} {steps : List UnifyStep}
    (hm : Performs m ctx steps) {earlier : List UnifyStep} (h : ctx.Records earlier) :
    (exec m ctx).2.Records (earlier ++ steps) := by
  induction hm generalizing earlier with
  | bind hexec hm hf ihm ihf =>
    have hfirst := ihm h
    rw [hexec] at hfirst
    rw [exec_bind, hexec, ← List.append_assoc]
    exact ihf hfirst
  | abort hexec hm ihm =>
    have hfirst := ihm h
    rw [hexec] at hfirst
    rwa [exec_bind, hexec]
  | unify hexec hdelta =>
    rw [hexec]
    exact h.unify hexec hdelta
  | @fail one two src oneName twoName message ctx ctx' e hexec =>
    rw [List.append_nil]
    rcases exec_unify_cases one two src oneName twoName message h.resolved with
      ⟨e', -, hrun⟩ | ⟨delta, s, -, -, -, hrun⟩
    · rwa [hrun]
    · rw [hrun] at hexec
      cases hexec
  | noteScope env ctx =>
    rw [List.append_nil]
    rcases exec_noteScope env ctx with hrun | hrun
    all_goals rw [hrun]
    · exact h
    · exact h.other rfl rfl rfl
  | pure | throw | subst => rwa [List.append_nil]
  | infer | pause | freshVar | push | pop =>
    rw [List.append_nil]
    exact h.other rfl rfl rfl

theorem Operation.Performed.records {ops : List Operation} {steps : List UnifyStep}
    (h : Performed ops steps) : (Context.after ops).Records steps := by
  induction h with
  | nil => exact .initial
  | concat hops hop ih =>
    rw [Context.after_concat]
    exact hop.records ih

/-- **The unifications in the log of a session.**  The log falls into blocks in one way only, and the
unifications among them are those that the session has performed, each logged once if it bound nothing
and otherwise twice in a row.  The second event has equal types, which are those of the first one with
the bindings applied.  No variable is bound by two unifications, and together they bind what is bound in
the end.  So a viewer has a step for every marked place, and two for every unification that binds. -/
theorem unifications_in_log (ops : List Operation) :
    ∃ (steps : List UnifyStep) (blocks : List Block),
      (∀ steps', Operation.Performed ops steps' ↔ steps' = steps) ∧
      (∀ blocks', Splits (Context.after ops).events.toList blocks' ↔ blocks' = blocks) ∧
      blocks.filterMap Block.step? = steps ∧
      (∀ before after, .twice before after ∈ blocks →
        after.one = after.two ∧ after.one = before.one.apply before.delta ∧
          after.two = before.two.apply before.delta) ∧
      (steps.Pairwise fun step step' => ∀ x ∈ step.delta.keys, x ∉ step'.delta.keys) ∧
      (∀ x, x ∈ (Context.after ops).subst.keys ↔ ∃ step ∈ steps, x ∈ step.delta.keys) ∧
      Event.stepCount (Context.after ops).events.toList =
        (Context.after ops).events.toList.countP Event.isPause +
          2 * steps.countP fun step => !step.delta.isEmpty := by
  obtain ⟨steps, hperformed⟩ := Operation.exists_performed ops
  have h := hperformed.records
  obtain ⟨blocks, hsplit, hsteps, happlied⟩ := h.blocks
  refine ⟨steps, blocks, fun steps' => ⟨fun h' => ?_, ?_⟩, fun blocks' => ⟨fun h' => ?_, ?_⟩, hsteps,
    fun before after hmem => happlied _ hmem, h.disjoint, h.domain, ?_⟩
  · -- The log tells the unifications, and it can be read in one way only.
    obtain ⟨blocks', hsplit', hsteps', -⟩ := h'.records.blocks
    rw [← hsteps', hsplit'.unique hsplit, hsteps]
  · rintro rfl
    exact hperformed
  · exact h'.unique hsplit
  · rintro rfl
    exact hsplit
  · rw [hsplit.stepCount_eq, hsteps]

end TypeTrace
