import Datalog.Proofs.Evaluation.Scan

/-!
# Steps of tasks

Whatever a sound task promises is reported when it ends, or promised by a task that it has spawned.
What it reports belongs to the goal, and the tasks that it spawns are sound.
-/

namespace Datalog

variable {frame : Frame} {context : TaskContext} {plan : RulePlan} {state : TaskState}

/-- What a task leaves behind once it has ended. -/
structure Task.Kept (frame : Frame) (strategy : Strategy) (task : Task) (workspace : Workspace)
    (later : TaskState) : Prop where
  ready : later.Ready frame strategy
  grows : later.workspace.Grows frame.symbols workspace
  promised : ∀ fact, task.Promises frame strategy workspace fact →
    later.workspace.Reported fact ∨
      ∃ other ∈ later.spawned, other.Promises frame strategy later.workspace fact
  announced : later.Announced strategy workspace

/-- A task has left all that it promises to the tasks that it has spawned. -/
structure Task.Delegated (frame : Frame) (strategy : Strategy) (task : Task) (workspace : Workspace)
    (later : TaskState) : Prop where
  ready : later.Ready frame strategy
  grows : later.workspace.Grows frame.symbols workspace
  promised : ∀ fact, task.Promises frame strategy workspace fact →
    ∃ other ∈ later.spawned, other.Promises frame strategy later.workspace fact
  announced : later.Announced strategy workspace

theorem Task.Delegated.kept {strategy : Strategy} {task : Task} {workspace : Workspace}
    {later : TaskState} (delegated : task.Delegated frame strategy workspace later) :
    task.Kept frame strategy workspace later :=
  ⟨delegated.ready, delegated.grows, fun fact promises => .inr (delegated.promised fact promises),
    delegated.announced⟩

/-- What a task promised before something was added, except to the main store, it promises still. -/
theorem Task.Delegated.after {strategy : Strategy} {task : Task} {workspace middle : Workspace}
    {later : TaskState} (delegated : task.Delegated frame strategy middle later)
    (grows : middle.Grows frame.symbols workspace) (same : middle.db = workspace.db) :
    task.Delegated frame strategy workspace later where
  ready := delegated.ready
  grows := delegated.grows.trans grows
  promised fact promises := delegated.promised fact (promises.mono grows)
  announced symbol tuple holds := same ▸ delegated.announced symbol tuple holds

/-! ## Prefixes of bodies -/

namespace TaskContext

theorem filterAll_leaves {names : List String}
    (computes : context.functions.Computes frame.meaning) (distinctNames : names.Nodup)
    {count : String → Nat} {planned : List PlanLiteral} {literals : List BodyLiteral}
    (ready : state.Ready frame context.strategy)
    (fits : List.Forall₂
      (PlanLiteral.Fits (context.strategy.growing frame.symbols)
        (state.workspace.referents context.strategy) names count) planned literals) :
    LeavesWithRoom (context.filterAll planned) state
      (fun success later => ∃ bindings, later = state.withBindings bindings ∧
        Bindings.Matched names state.bindings bindings success
          (fun assignment => ∀ literal ∈ literals, frame.Maybe count assignment literal)
          (fun assignment => ∀ literal ∈ literals, frame.Sure count assignment literal))
      fun _ later => state.Interrupted later := by
  induction planned generalizing literals state with
  | nil =>
      obtain rfl := List.forall₂_nil_left_iff.mp fits
      refine .pure ⟨state.bindings, rfl, .of_settled (.refl ready.fits.distinct) ready.grounded ?_ ?_⟩
      · simp
      · simp
  | cons first planned ih =>
      obtain ⟨literal, literals, firstFits, restFits, rfl⟩ := List.forall₂_cons_left_iff.mp fits
      unfold filterAll
      refine .bind (filter_leaves computes distinctNames ready.fits ready.grounded firstFits)
        (fun _ => .ite (context.interns_filterAll planned) .pure) ?_
      rintro success middle ⟨bindings, rfl, matched⟩
      have grown : (state.withBindings bindings).workspace.Grows frame.symbols state.workspace :=
        Workspace.grows_withTerms matched.extended.terms
      have readyLater := ready.withBindings matched.distinct matched.grounded matched.extended.terms
      cases success with
      | true =>
          have restLater := restFits.imp fun _ _ literalFits => literalFits.mono grown
          refine (ih readyLater restLater).mono ?_
            fun _ _ interrupted => interrupted.after matched.extended.terms
          rintro success later ⟨laterBindings, rfl, laterMatched⟩
          refine ⟨laterBindings, rfl, (matched.andThen matched.grounded laterMatched).imp ?_ ?_⟩
          · rintro assignment - ⟨firstHolds, restHolds⟩ other member
            rcases List.mem_cons.mp member with rfl | member
            · exact firstHolds
            · exact restHolds other member
          · intro assignment _ holds
            exact ⟨holds literal List.mem_cons_self, fun other member =>
              holds other (List.mem_cons_of_mem _ member)⟩
      | false =>
          refine .pure ⟨bindings, rfl, matched.failed ?_⟩
          intro assignment holds
          exact holds literal List.mem_cons_self

end TaskContext

theorem forall₂_getElem? {α β : Type} {relation : α → β → Prop} {first : List α} {second : List β}
    (related : List.Forall₂ relation first second) {position : Nat} {element : α}
    (atPosition : first[position]? = some element) :
    ∃ other, second[position]? = some other ∧ relation element other := by
  induction related generalizing position with
  | nil => simp at atPosition
  | cons here _ ih =>
      cases position with
      | zero =>
          obtain rfl := Option.some.inj atPosition
          exact ⟨_, rfl, here⟩
      | succ position => exact ih atPosition

/-- A plan's atom at a position stands for the rule's atom there. -/
theorem RulePlan.Fits.scan_at {strategy : Strategy} {workspace : Workspace}
    (fits : plan.Fits frame.toLayout strategy workspace) {position : Nat} {planned : PlanAtom}
    (atPosition : plan.body[position]? = some (.scan planned)) :
    ∃ atom : Atom, plan.source.body[position]? =
        some { literal := .predicate atom, delta := planned.delta } ∧ atom.negated = false ∧
      planned.Fits (workspace.referents strategy) (frame.names plan) plan.source.varCount atom
        planned.delta := by
  obtain ⟨⟨literal, delta⟩, atSource, atom, literalEq, positive, atomFits⟩ :=
    forall₂_getElem? fits.body atPosition
  obtain rfl : literal = .predicate atom := literalEq
  obtain rfl : planned.delta = delta := atomFits.delta_eq
  exact ⟨atom, atSource, positive, atomFits⟩

theorem drop_eq_cons {α : Type} {list : List α} {position : Nat} {element : α}
    (atPosition : list[position]? = some element) :
    list.drop position = element :: list.drop (position + 1) := by
  obtain ⟨inside, rfl⟩ := List.getElem?_eq_some_iff.mp atPosition
  exact List.drop_eq_getElem_cons inside

/-! ## Tasks -/

namespace TaskContext

variable {workspace : Workspace}

theorem ready_unbound (ready : state.Ready frame context.strategy) (slots : Nat) :
    TaskState.Ready frame context.strategy { state with substitution := .unbound slots } :=
  { ready with grounded := Bindings.grounded_unbound _ _ }

theorem scannedAtom_leaves (plan : RulePlan) (position : Nat) (state : TaskState) :
    LeavesWithRoom (scannedAtom plan position) state
      (fun planned later => later = state ∧ plan.body[position]? = some (.scan planned))
      fun _ later => later = state := by
  unfold scannedAtom
  split
  · next planned atPosition => exact .pure ⟨rfl, atPosition⟩
  · exact .throw rfl

/-- The literals before a position have been filtered, from unbound slots: every instance of the rule
passes, and what is bound leads on to the rest of the body. -/
structure Prefixed (frame : Frame) (strategy : Strategy) (plan : RulePlan) (position : Nat)
    (state : TaskState) (success : Bool) (bindings : Bindings) : Prop where
  ready : (state.withBindings bindings).Ready frame strategy
  grows : (state.withBindings bindings).workspace.Grows frame.symbols state.workspace
  passes : ∀ {assignment fact}, plan.Concludes frame plan.source.body assignment fact →
    success = true ∧ bindings.Agrees (frame.names plan) assignment
  leads : success = true → plan.Leads frame bindings (plan.source.body.drop position)

theorem filterPrefix_leaves (computes : context.functions.Computes frame.meaning)
    (ready : state.Ready frame context.strategy)
    (sound : plan.Sound frame context.strategy state.workspace) (position : Nat) :
    LeavesWithRoom (context.filterAll (plan.body.take position))
      { state with substitution := .unbound plan.slots }
      (fun success later => ∃ bindings, later = state.withBindings bindings ∧
        Prefixed frame context.strategy plan position state success bindings)
      fun _ later => TaskState.Stopped frame context.strategy state.workspace later := by
  have readyStart := ready_unbound ready plan.slots
  have leads := sound.leads state.workspace.terms plan.slots
  have prefixFits := List.forall₂_take position sound.fits.body
  refine (filterAll_leaves computes sound.fits.names_nodup readyStart prefixFits).mono ?_
    fun _ _ => readyStart.stopped_of_interrupted
  rintro success _ ⟨bindings, rfl, matched⟩
  refine ⟨bindings, rfl, ?_⟩
  exact
    { ready := readyStart.withBindings matched.distinct matched.grounded matched.extended.terms
      grows := Workspace.grows_withTerms matched.extended.terms
      passes := fun concludes => matched.complete _ (Bindings.agrees_unbound _ _ _)
        fun literal member => concludes.1 literal (List.mem_of_mem_take member)
      leads := by
        rintro rfl assignment agrees holds
        refine leads assignment (matched.extended.agrees readyStart.grounded agrees) ?_
        intro literal member
        rw [← List.take_append_drop position plan.source.body] at member
        rcases List.mem_append.mp member with member | member
        · exact matched.sound rfl assignment agrees literal member
        · exact holds literal member }

theorem scanning_of_sound {position : Nat} {substitution : Substitution} {view : View}
    (ready : state.Ready frame context.strategy)
    (sound : (Task.scan plan position substitution view).Sound frame context.strategy
      state.workspace)
    {planned : PlanAtom} (atPosition : plan.body[position]? = some (.scan planned)) :
    ∃ atom index key, plan.source.body[position]? =
        some { literal := .predicate atom, delta := planned.delta } ∧
      Scanning frame context.strategy plan planned atom (plan.source.body.drop (position + 1)) key
        { state with substitution } ∧
      (context.strategy.source planned.delta state.workspace).index? planned.symbol
          planned.index = some index ∧
        view.From index key := by
  obtain ⟨planSound, grounded, leads, reads⟩ := sound
  obtain ⟨atom, atSource, positive, atomFits⟩ := planSound.fits.scan_at atPosition
  obtain ⟨index, key, indexEq, isFrom, keyOf⟩ :=
    reads planned atPosition atom (by simp [atSource])
  rw [drop_eq_cons atSource] at leads
  refine ⟨atom, index, key, atSource, ?_, indexEq, isFrom⟩
  exact
    { ready := { ready with grounded := grounded }
      sound := planSound
      atomFits := atomFits
      positive := positive
      leads := leads
      keyOf := keyOf }

/-- The scan of another view with the same bound columns. -/
theorem sound_of_scanning {position : Nat} {view : View} {planned : PlanAtom} {atom : Atom} {index : Index}
    {key : Key} (atPosition : plan.body[position]? = some (.scan planned))
    (atSource : plan.source.body[position]? =
      some { literal := .predicate atom, delta := planned.delta })
    (scanning : Scanning frame context.strategy plan planned atom
      (plan.source.body.drop (position + 1)) key state)
    (indexEq : (context.strategy.source planned.delta state.workspace).index? planned.symbol
      planned.index = some index)
    (isFrom : view.From index key) :
    (Task.scan plan position state.substitution view).Sound frame context.strategy
      state.workspace := by
  refine ⟨scanning.sound, scanning.ready.grounded, ?_, ?_⟩
  · rw [drop_eq_cons atSource]
    exact scanning.leads
  · intro planned' atPosition' atom' atSource'
    obtain rfl : planned = planned' := by simpa [atPosition] using atPosition'
    obtain rfl : atom = atom' := by simpa [atSource] using atSource'
    exact ⟨index, key, indexEq, isFrom, scanning.keyOf⟩

/-- What a scan promises comes from a tuple that its view covers. -/
theorem promises_scan_iff {workspace : Workspace} {position : Nat} {substitution : Substitution}
    {view : View} {planned : PlanAtom} {atom : Atom} {index : Index} {fact : GroundFact}
    (atPosition : plan.body[position]? = some (.scan planned))
    (atSource : plan.source.body[position]? =
      some { literal := .predicate atom, delta := planned.delta })
    (indexEq : (context.strategy.source planned.delta workspace).index? planned.symbol
      planned.index = some index) :
    (Task.scan plan position substitution view).Promises frame context.strategy workspace fact ↔
      ∃ assignment tuple,
        Bindings.Agrees (frame.names plan) ⟨workspace.terms, substitution⟩ assignment ∧
          plan.Concludes frame (plan.source.body.drop (position + 1)) assignment fact ∧
            tuple.length = planned.symbol.arity ∧
              planned.Meets frame.meaning workspace.terms atom.args assignment tuple ∧
                view.Covers index (index.pattern.keyOf tuple) := by
  constructor
  · rintro ⟨assignment, planned', atom', tuple, agrees, concludes, atPosition', atSource', length,
      meets, index', indexEq', covers⟩
    obtain rfl : planned = planned' := by simpa [atPosition] using atPosition'
    obtain rfl : atom = atom' := by simpa [atSource] using atSource'
    obtain rfl : index = index' := Option.some.inj (indexEq.symm.trans indexEq')
    exact ⟨assignment, tuple, agrees, concludes, length, meets, covers⟩
  · rintro ⟨assignment, tuple, agrees, concludes, length, meets, covers⟩
    exact ⟨assignment, planned, atom, tuple, agrees, concludes, atPosition, by simp [atSource],
      length, meets, index, indexEq, covers⟩

/-- A rule is run up to its first scan, which is left to another task. -/
theorem evaluate_leaves_of_scan (computes : context.functions.Computes frame.meaning)
    (ready : state.Ready frame context.strategy)
    (sound : plan.Sound frame context.strategy state.workspace) {position : Nat}
    (first : plan.firstScan? = some position) :
    LeavesWithRoom (context.evaluate plan) state
      (fun _ later => (Task.evaluate plan).Delegated frame context.strategy state.workspace later)
      fun _ later => TaskState.Stopped frame context.strategy state.workspace later := by
  unfold evaluate
  refine .modifyGet_bind ?_
  rw [first]
  have internsSpawning : ∀ planned, Interns (do
      let view ← context.lookup planned
      TaskM.spawn (.scan plan position (← get).substitution view)) := fun planned =>
    .bind (context.interns_lookup planned) fun _ => .get_bind fun _ => TaskM.interns_spawn _
  refine .bind (filterPrefix_leaves computes ready sound position)
    (fun _ => .ite (.bind (interns_scannedAtom plan position) internsSpawning) .pure) ?_
  rintro success _ ⟨bindings, rfl, filtered⟩
  cases success with
  | false =>
      refine .pure ⟨filtered.ready, filtered.grows, fun fact member => ?_,
        TaskState.announced_of_db_eq rfl⟩
      obtain ⟨assignment, concludes⟩ := RulePlan.exists_concludes member
      exact absurd (filtered.passes concludes).1 (by simp)
  | true =>
      have leadsRest := filtered.leads rfl
      have soundFiltered := sound.mono filtered.grows
      refine .bind ((scannedAtom_leaves plan position _).mono (fun _ _ done => done) ?_)
        internsSpawning ?_
      · rintro _ _ rfl
        exact filtered.ready.stopped.after filtered.grows
      rintro planned _ ⟨rfl, atPosition⟩
      obtain ⟨atom, atSource, positive, atomFits⟩ := soundFiltered.fits.scan_at atPosition
      rw [drop_eq_cons atSource] at leadsRest
      have looking := lookup_scanning computes filtered.ready soundFiltered atomFits positive
        leadsRest
      refine .bind (looking.mono (fun _ _ done => done) fun _ _ stopped =>
          stopped.after filtered.grows)
        (fun view => .get_bind fun _ => TaskM.interns_spawn _) ?_
      rintro view later ⟨advanced, index, key, scanning, indexEq, isFrom, finds⟩
      have scanSound := sound_of_scanning atPosition atSource scanning indexEq isFrom
      have spawned := advanced.ready.advanced_spawn scanSound
      refine fun _ => ⟨spawned.ready, (spawned.grows.trans advanced.grows).trans filtered.grows,
        fun fact member => ⟨_, List.mem_append_right _ List.mem_cons_self, ?_⟩,
        (advanced.trans spawned).announced⟩
      obtain ⟨assignment, concludes⟩ := RulePlan.exists_concludes member
      have agrees := (filtered.passes concludes).2
      have sure := concludes.1 _ (List.mem_of_getElem? atSource)
      -- The scanned atom holds for a tuple that the view covers, so that the new task promises the fact.
      obtain ⟨tuple, length, covers, meets⟩ := finds assignment agrees sure
      refine (promises_scan_iff atPosition atSource indexEq).mpr ⟨assignment, tuple,
        agrees.mono advanced.grows.terms advanced.same, ⟨?_, concludes.2⟩,
        length.trans scanning.atomFits.arity, meets, covers⟩
      exact fun literal member => concludes.1 literal (List.mem_of_mem_drop member)

/-- A rule is run up to its first scan, or as a whole if it has none. -/
theorem evaluate_leaves (computes : context.functions.Computes frame.meaning)
    (ready : state.Ready frame context.strategy)
    (sound : plan.Sound frame context.strategy state.workspace) :
    LeavesWithRoom (context.evaluate plan) state
      (fun _ later => (Task.evaluate plan).Kept frame context.strategy state.workspace later)
      fun _ later => TaskState.Stopped frame context.strategy state.workspace later := by
  cases scanEq : plan.firstScan? with
  | none =>
      unfold evaluate
      refine .modifyGet_bind ?_
      rw [scanEq]
      have evaluates : Evaluates frame context.strategy plan plan.source.body
          (context.evalBody plan plan.body) :=
        evaluates_evalBody computes (List.drop_zero : plan.body.drop 0 = plan.body)
      refine (evaluates.leaves _ (ready_unbound ready plan.slots) sound
        (sound.leads state.workspace.terms plan.slots)).mono ?_ fun _ _ stopped => stopped
      rintro _ later ⟨advanced, reported⟩
      refine ⟨advanced.ready, advanced.grows, fun fact member => .inl ?_, advanced.announced⟩
      obtain ⟨assignment, concludes⟩ := RulePlan.exists_concludes member
      exact reported assignment fact (Bindings.agrees_unbound _ _ _) concludes
  | some position =>
      exact (evaluate_leaves_of_scan computes ready sound scanEq).mono
        (fun _ _ delegated => delegated.kept) fun _ _ stopped => stopped

theorem advanced_withDraws (ready : state.Ready frame context.strategy) (draws : Draws) :
    TaskState.Advanced frame context.strategy state
      { state with workspace := { state.workspace with draws } } where
  ready :=
    { fits := ready.fits.withDraws draws
      triggered := fun plan member =>
        (ready.triggered plan member).mono (Workspace.grows_withDraws _ draws)
      spawned := fun task member =>
        (ready.spawned task member).mono (Workspace.grows_withDraws _ draws)
      grounded := ready.grounded }
  grows := Workspace.grows_withDraws _ draws
  same := rfl
  spawns _ member := member
  announced := TaskState.announced_of_db_eq rfl

/-- A view that is too large is split, which takes some random draws. -/
theorem partsOf_leaves {planned : PlanAtom} {view : View} {index : Index}
    (indexEq : (context.strategy.source planned.delta state.workspace).index? planned.symbol
      planned.index = some index) :
    LeavesWithRoom (context.partsOf planned view) state
      (fun parts later => (∃ draws, later =
          { state with workspace := { state.workspace with draws } }) ∧
        ∀ left right, parts = some (left, right) → ∃ draws,
          (view.split index (context.strategy.source planned.delta state.workspace).limits
            draws).1 = some (left, right))
      fun _ _ => False := by
  unfold partsOf
  split
  · unfold splitView
    refine LeavesWithRoom.of_leaves ?_
    rw [TaskM.updateWorkspace, leaves_modifyGet]
    refine ⟨⟨_, rfl⟩, fun left right partsEq => ?_⟩
    rw [indexFor_eq indexEq, storeFor_eq] at partsEq
    exact ⟨_, partsEq⟩
  · exact .pure ⟨⟨_, rfl⟩, by simp⟩

omit frame in
theorem source_withDraws (strategy : Strategy) (delta : Bool) (workspace : Workspace)
    (draws : Draws) :
    strategy.source delta { workspace with draws } = strategy.source delta workspace := by
  cases strategy <;> rfl

theorem index?_withDraws {strategy : Strategy} {delta : Bool} {workspace : Workspace}
    {symbol : RelationSymbol} {number : Nat} {index : Index}
    (indexEq : (strategy.source delta workspace).index? symbol number = some index) (draws : Draws) :
    (strategy.source delta { workspace with draws }).index? symbol number = some index := by
  rw [source_withDraws]
  exact indexEq

/-- Both parts of a view are left to other tasks. -/
theorem scanParts_leaves_of_split {position : Nat} {substitution : Substitution}
    {view left right : View} {draws : Draws} (ready : state.Ready frame context.strategy)
    (sound : (Task.scan plan position substitution view).Sound frame context.strategy
      state.workspace) {planned : PlanAtom} (atPosition : plan.body[position]? = some (.scan planned))
    {index : Index} (indexEq : (context.strategy.source planned.delta state.workspace).index?
      planned.symbol planned.index = some index)
    (splitEq : (view.split index (context.strategy.source planned.delta state.workspace).limits
      draws).1 = some (left, right)) :
    LeavesWithRoom
      (context.scanParts plan position substitution planned view (some (left, right))) state
      (fun _ later => (Task.scan plan position substitution view).Delegated frame context.strategy
        state.workspace later)
      fun _ _ => False := by
  obtain ⟨atom, index', key, atSource, scanning, indexEq', isFrom⟩ :=
    scanning_of_sound ready sound atPosition
  obtain rfl : index = index' := Option.some.inj (indexEq.symm.trans indexEq')
  have sourceValid := ready.fits.source_valid planned.delta
  have sourceBounded := ready.fits.source_bounded planned.delta
  have keyFits := scanning.keyOf.fitsFront scanning.ready.grounded
    scanning.sound.fits.names_nodup scanning.atomFits.args_length scanning.atomFits.arity
  rw [← scanning.pattern_eq indexEq] at keyFits
  obtain ⟨leftFrom, rightFrom⟩ := View.from_split (sourceValid.index_valid indexEq)
    sourceBounded keyFits isFrom splitEq
  have leftSound := sound_of_scanning atPosition atSource scanning indexEq leftFrom
  have leftSpawned := ready.advanced_spawn leftSound
  have rightSound := sound_of_scanning atPosition atSource scanning indexEq rightFrom
  have rightSpawned := leftSpawned.ready.advanced_spawn rightSound
  refine fun _ => ⟨rightSpawned.ready, .refl _, fun fact promises => ?_,
    TaskState.announced_of_db_eq rfl⟩
  obtain ⟨assignment, tuple, agrees, concludes, length, meets, covers⟩ :=
    (promises_scan_iff atPosition atSource indexEq).mp promises
  have promisesPart : ∀ part : View, part.Covers index (index.pattern.keyOf tuple) →
      (Task.scan plan position substitution part).Promises frame context.strategy
        state.workspace fact := fun part covers =>
    (promises_scan_iff atPosition atSource indexEq).mpr
      ⟨assignment, tuple, agrees, concludes, length, meets, covers⟩
  rcases View.covers_split (sourceValid.index_valid indexEq) sourceBounded isFrom splitEq
    covers with covers | covers
  · exact ⟨_, by simp, promisesPart left covers⟩
  · exact ⟨_, by simp, promisesPart right covers⟩

/-- The tuples of a scan are gone through, or both parts of them are left to other tasks. -/
theorem scan_leaves (computes : context.functions.Computes frame.meaning)
    {position : Nat} {substitution : Substitution} {view : View}
    (ready : state.Ready frame context.strategy)
    (sound : (Task.scan plan position substitution view).Sound frame context.strategy
      state.workspace) :
    LeavesWithRoom (context.scan plan position substitution view) state
      (fun _ later => (Task.scan plan position substitution view).Kept frame context.strategy
        state.workspace later)
      fun _ later => TaskState.Stopped frame context.strategy state.workspace later := by
  refine .bind ((scannedAtom_leaves plan position state).mono (fun _ _ done => done) ?_)
    (fun planned => .bind (context.interns_partsOf planned view) fun parts =>
      context.interns_scanParts plan position substitution planned view parts) ?_
  · rintro _ _ rfl
    exact ready.stopped
  rintro planned _ ⟨rfl, atPosition⟩
  rename_i state
  obtain ⟨atom, index, key, atSource, scanning, indexEq, isFrom⟩ :=
    scanning_of_sound ready sound atPosition
  have arityEq := scanning.atomFits.arity
  refine .bind ((partsOf_leaves indexEq).mono (fun _ _ done => done) fun _ _ never => never.elim)
    (fun parts => context.interns_scanParts plan position substitution planned view parts) ?_
  rintro parts _ ⟨⟨draws, rfl⟩, partsEq⟩
  have drawn := advanced_withDraws ready draws
  have sameSource := source_withDraws context.strategy planned.delta state.workspace draws
  have indexEq' := index?_withDraws indexEq draws
  cases parts with
  | none =>
      have scanning' := scanning.advance (advanced_withDraws scanning.ready draws)
      refine .modifyGet_bind ?_
      have evaluates := evaluates_evalBody computes (rfl : plan.body.drop (position + 1) = _)
      refine (scanView_leaves computes evaluates scanning' indexEq' isFrom).mono ?_
        fun _ _ stopped => stopped.after drawn.grows
      rintro _ later ⟨advanced, reported⟩
      refine ⟨advanced.ready, advanced.grows.trans drawn.grows, fun fact promises => .inl ?_,
        advanced.announced⟩
      obtain ⟨assignment, tuple, agrees, concludes, length, meets, covers⟩ :=
        (promises_scan_iff atPosition atSource indexEq).mp promises
      exact reported tuple (length.trans arityEq.symm) covers assignment fact agrees meets concludes
  | some parts =>
      obtain ⟨left, right⟩ := parts
      obtain ⟨draws', splitEq⟩ := partsEq left right rfl
      rw [← sameSource] at splitEq
      exact (scanParts_leaves_of_split drawn.ready (sound.mono drawn.grows) atPosition indexEq'
        splitEq).mono (fun _ _ delegated => (delegated.after drawn.grows rfl).kept)
          fun _ _ never => never.elim

/-- Of a tuple that is found all columns that are read are checked. -/
theorem checks_tuple (computes : context.functions.Computes frame.meaning) {planned : PlanAtom}
    {atom : Atom} {rest : List BodyLiteral} {tuple : Tuple}
    (resuming : Resuming frame context.strategy plan
      ({ literal := .predicate atom, delta := planned.delta } :: rest) state)
    (atomFits : planned.Fits (state.workspace.referents context.strategy) (frame.names plan)
      plan.source.varCount atom planned.delta)
    (positive : atom.negated = false)
    (found : (context.strategy.source planned.delta state.workspace).Holds planned.symbol tuple) :
    Checks frame plan rest state
      (TaskM.ofBindM (matchColumns context.functions true planned.args planned.pattern tuple))
      (fun assignment => ∃ row, state.workspace.terms.DenotesAll tuple row ∧
        Term.evalList frame.meaning assignment (planned.pattern.keep (compared true) atom.args) =
          some (planned.pattern.keep (compared true) row))
      fun assignment => ∃ values, state.workspace.terms.DenotesAll tuple values ∧
        Term.evalList frame.meaning assignment atom.args = some values := by
  obtain ⟨ready, sound, leads⟩ := resuming
  have tupleLength : tuple.length = planned.pattern.length := by
    rw [(ready.fits.source_valid planned.delta).length_of_holds found, atomFits.arity]
  obtain ⟨row, denotes, -⟩ := ready.fits.possible planned.delta _ _ found
  have matching := matchColumns_leaves computes sound.fits.names_nodup true ready.fits.distinct
    ready.grounded atomFits.args atomFits.args_length tupleLength denotes
  refine ⟨(TaskM.evaluating_leaves (interns_matchColumns _ _ _ _ _) matching).mono ?_
    fun _ _ stopped => stopped, ?_⟩
  · rintro success _ ⟨bindings, rfl, matched⟩
    refine ⟨bindings, rfl, matched.imp (fun _ _ columns => ⟨row, denotes, columns⟩) ?_⟩
    rintro assignment - ⟨values, valuesDenote, valuesEq⟩
    obtain rfl := valuesDenote.unique denotes
    exact Term.evalList_keep valuesEq _ _
  · rintro assignment agrees ⟨row', denotes', columns⟩ holdsRest
    obtain rfl := denotes.unique denotes'
    refine leads assignment agrees (List.forall_mem_cons.mpr ⟨?_, holdsRest⟩)
    refine atomFits.maybe_of_columns ready.fits positive found fun row' denotes' => ?_
    obtain rfl := denotes.unique denotes'
    have rowLength := denotes.length_eq.symm.trans tupleLength
    exact columns_of_compared_true atomFits.args_length rowLength columns

/-- The delta literal of a rule that is triggered is a marked atom, and the tuple belongs to its relation. -/
theorem Prefixed.exists_delta {position : Nat} {bindings : Bindings} {planned : PlanAtom}
    {tuple : Tuple}
    (filtered : Prefixed frame context.strategy plan position state true bindings)
    (sound : plan.Sound frame context.strategy state.workspace)
    (holds : ∀ symbol, plan.deltaSymbol? = some symbol →
      (context.strategy.source true state.workspace).Holds symbol tuple)
    (deltaEq : plan.deltaPosition? = some position)
    (atPosition : plan.body[position]? = some (.scan planned)) :
    ∃ atom : Atom, plan.source.body[position]? =
        some { literal := .predicate atom, delta := planned.delta } ∧
      planned.Fits ((state.withBindings bindings).workspace.referents context.strategy)
        (frame.names plan) plan.source.varCount atom planned.delta ∧
      atom.negated = false ∧
        (context.strategy.source planned.delta (state.withBindings bindings).workspace).Holds
          planned.symbol tuple ∧
        Resuming frame context.strategy plan ({ literal := .predicate atom, delta := planned.delta } ::
          plan.source.body.drop (position + 1)) (state.withBindings bindings) := by
  have soundFiltered := sound.mono filtered.grows
  obtain ⟨atom, atSource, positive, atomFits⟩ := soundFiltered.fits.scan_at atPosition
  have leadsRest := filtered.leads rfl
  rw [drop_eq_cons atSource] at leadsRest
  have marked : planned.delta = true := by
    obtain ⟨literal, atDelta, isMarked⟩ := DeltaRule.marked_of_deltaPosition? deltaEq
    obtain rfl := Option.some.inj (atSource.symm.trans atDelta)
    exact isMarked
  have reads : plan.deltaSymbol? = some planned.symbol := by
    simp [RulePlan.deltaSymbol?, deltaEq, atPosition]
  refine ⟨atom, atSource, atomFits, positive, ?_, filtered.ready, soundFiltered, leadsRest⟩
  rw [marked]
  exact (filtered.grows.source context.strategy true).holds _ _ (holds planned.symbol reads)

theorem interns_matched (context : TaskContext) (plan : RulePlan) (position : Nat) (tuple : Tuple)
    (planned : PlanAtom) :
    Interns (do
      let isMatch ← TaskM.ofBindM
        (matchColumns context.functions true planned.args planned.pattern tuple)
      if isMatch then
        context.evalBody plan (plan.body.drop (position + 1))) :=
  .bind (TaskM.interns_ofBindM (interns_matchColumns _ _ _ _ _)) fun _ =>
    .ite (context.interns_evalBody plan _) .pure

/-- Behind the filters of a delta rule, terms are only added. -/
theorem interns_triggered (context : TaskContext) (plan : RulePlan) (position : Nat) (tuple : Tuple)
    (passed : Bool) :
    Interns (do
      if passed then
        let planned ← scannedAtom plan position
        let isMatch ← TaskM.ofBindM
          (matchColumns context.functions true planned.args planned.pattern tuple)
        if isMatch then
          context.evalBody plan (plan.body.drop (position + 1))) :=
  .ite (.bind (interns_scannedAtom plan position) (context.interns_matched plan position tuple)) .pure

/-- A delta rule is run for a tuple that is found.  It reports what the rule derives from this tuple
and what is certain. -/
theorem trigger_leaves (computes : context.functions.Computes frame.meaning) {tuple : Tuple}
    (ready : state.Ready frame context.strategy)
    (sound : (Task.trigger plan tuple).Sound frame context.strategy state.workspace) :
    LeavesWithRoom (context.trigger plan tuple) state
      (fun _ later => (Task.trigger plan tuple).Kept frame context.strategy state.workspace later)
      fun _ later => TaskState.Stopped frame context.strategy state.workspace later := by
  obtain ⟨planSound, holds⟩ := sound
  unfold trigger
  cases deltaEq : plan.deltaPosition? with
  | none =>
      refine .pure ⟨ready, .refl _, ?_, TaskState.announced_of_db_eq rfl⟩
      rintro fact ⟨_, _, _, _, atDelta, -⟩
      simp [deltaEq] at atDelta
  | some position =>
      refine .modifyGet_bind ?_
      refine .bind (filterPrefix_leaves computes ready planSound position)
        (context.interns_triggered plan position tuple) ?_
      rintro success _ ⟨bindings, rfl, filtered⟩
      cases success with
      | false =>
          refine .pure ⟨filtered.ready, filtered.grows, ?_, TaskState.announced_of_db_eq rfl⟩
          rintro fact ⟨_, _, _, _, -, -, concludes, -⟩
          exact absurd (filtered.passes concludes).1 (by simp)
      | true =>
          refine .bind ((scannedAtom_leaves plan position _).mono (fun _ _ done => done) ?_)
            (context.interns_matched plan position tuple) ?_
          · rintro _ _ rfl
            exact filtered.ready.stopped.after filtered.grows
          rintro planned _ ⟨rfl, atPosition⟩
          obtain ⟨atom, atSource, atomFits, positive, found, resuming⟩ :=
            filtered.exists_delta planSound holds deltaEq atPosition
          have checks := checks_tuple computes resuming atomFits positive found
          have evaluates := evaluates_evalBody computes (rfl : plan.body.drop (position + 1) = _)
          refine (checking_leaves checks evaluates filtered.ready resuming.sound).mono ?_
            fun _ _ stopped => stopped.after filtered.grows
          rintro _ later ⟨proceeded, reported⟩
          refine ⟨proceeded.ready, proceeded.grows.trans filtered.grows, ?_, proceeded.announced⟩
          -- A promised instance gives the delta literal the values of the tuple.
          rintro fact ⟨assignment, position', atom', values, atDelta, atSource', concludes, valuesEq,
            denotes⟩
          obtain rfl : position = position' := Option.some.inj (deltaEq.symm.trans atDelta)
          obtain rfl : atom = atom' := by simpa [atSource] using atSource'
          exact .inl (reported assignment fact (filtered.passes concludes).2
            ⟨values, denotes.mono filtered.grows.terms, valuesEq⟩
            ⟨fun literal member => concludes.1 literal (List.mem_of_mem_drop member), concludes.2⟩)

/-- Every sound task keeps its promises. -/
theorem steps_leaves (computes : context.functions.Computes frame.meaning) {task : Task}
    (ready : state.Ready frame context.strategy)
    (sound : task.Sound frame context.strategy state.workspace) :
    LeavesWithRoom (context.steps task) state
      (fun _ later => task.Kept frame context.strategy state.workspace later)
      fun _ later => TaskState.Stopped frame context.strategy state.workspace later := by
  cases task with
  | load symbol facts => exact sound.elim
  | evaluate plan => exact evaluate_leaves computes ready sound
  | scan plan position substitution view => exact scan_leaves computes ready sound
  | trigger plan tuple => exact trigger_leaves computes ready sound

end TaskContext

end Datalog
