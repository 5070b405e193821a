import Datalog.Proofs.Evaluation.Promise

/-!
# Reporting

When the end of a body is reached, the head is evaluated and its tuple reported.  In rounds it is
collected unless it is known already; eagerly it enters the main store, and if it is new the rules that
read its relation are triggered.  Either way the tuple is found afterwards, and what was added has been
counted.
-/

namespace Datalog

variable {frame : Frame} {strategy : Strategy} {workspace later : Workspace}
  {symbol : RelationSymbol} {tuple : Tuple} {values : List Value}

/-! ## Counting -/

theorem FactStore.total_of_added {store later : FactStore} {tuples : List Tuple} {count : Nat}
    (added : FactStore.Added store later symbol tuples count) {symbols : List RelationSymbol}
    (distinct : symbols.Nodup) (member : symbol ∈ symbols) :
    later.total symbols = store.total symbols + count := by
  have outside : ∀ others : List RelationSymbol, symbol ∉ others →
      later.total others = store.total others := by
    intro others absent
    unfold total
    refine congrArg List.sum (List.map_congr_left fun other otherMember => ?_)
    have apart : other ≠ symbol := by
      rintro rfl
      exact absent otherMember
    simp [added.countDistinct other, apart]
  induction symbols with
  | nil => simp at member
  | cons first symbols ih =>
      have split : ∀ store : FactStore, store.total (first :: symbols) =
          store.countDistinct first + store.total symbols := fun _ => rfl
      rw [split, split]
      obtain ⟨firstAbsent, distinctRest⟩ := List.nodup_cons.mp distinct
      rcases List.mem_cons.mp member with rfl | member
      · have := added.countDistinct symbol
        rw [if_pos rfl] at this
        have := outside symbols firstAbsent
        omega
      · have apart : first ≠ symbol := by
          rintro rfl
          exact firstAbsent member
        have := added.countDistinct first
        rw [if_neg apart] at this
        have := ih distinctRest member
        omega

namespace Workspace

/-- The workspace once a tuple has been stored and, if it is new, counted. -/
def afterStoring (result : Bool × Workspace) : Workspace :=
  if result.1 then result.2.countDerived else result.2

/-- What storing a tuple that belongs to the goal leaves behind. -/
structure Stored (frame : Frame) (strategy : Strategy) (symbol : RelationSymbol) (tuple : Tuple)
    (workspace later : Workspace) : Prop where
  fits : later.Fits frame strategy
  grows : later.Grows frame.symbols workspace
  terms_eq : later.terms = workspace.terms
  found : later.db.Holds symbol tuple ∨ (strategy.sink later).Holds symbol tuple

theorem Stored.reported (stored : Stored frame strategy symbol tuple workspace later)
    (denotes : workspace.terms.DenotesAll tuple values) : later.Reported (symbol, values) := by
  refine ⟨tuple, stored.terms_eq ▸ denotes, ?_⟩
  cases strategy with
  | rounds => exact stored.found
  | eager rules => exact .inl (stored.found.elim id id)

/-- A tuple that is collected has been known before or is new in this round. -/
theorem Fits.collect (fits : workspace.Fits frame .rounds) (inSymbols : symbol ∈ frame.symbols)
    (denotes : workspace.terms.DenotesAll tuple values) (inGoal : (symbol, values) ∈ frame.goal)
    (length : tuple.length = symbol.arity) :
    Stored frame .rounds symbol tuple workspace
      (afterStoring (workspace.collect symbol tuple)) := by
  have dbValid : workspace.db.Valid := fits.source_valid false
  unfold Workspace.collect
  split
  · next known =>
      have holds := (dbValid.has_iff length).mp known
      exact ⟨fits, .refl workspace, rfl, .inl holds⟩
  · next unknown =>
    obtain ⟨added, isNew⟩ := fits.nextDelta_valid.add length
    generalize workspace.nextDelta.add symbol tuple = result at added isNew
    obtain ⟨isNewBit, nextDelta⟩ := result
    have counted := FactStore.total_of_added added frame.symbols_nodup inSymbols
    have holds : nextDelta.Holds symbol tuple :=
      (added.holds_iff symbol tuple).mpr (.inr ⟨rfl, by simp, fits.registers symbol inSymbols⟩)
    have within : nextDelta.Within workspace.terms frame.goal := by
      intro other row rowHolds
      rcases (added.holds_iff other row).mp rowHolds with before | ⟨rfl, here, -⟩
      · exact fits.nextDelta_within other row before
      · obtain rfl : row = tuple := by simpa using here
        exact ⟨values, denotes, inGoal⟩
    have symbols : ∀ other row, nextDelta.Holds other row → other ∈ frame.symbols := by
      intro other row rowHolds
      rcases (added.holds_iff other row).mp rowHolds with before | ⟨rfl, -, -⟩
      · exact fits.nextDelta_symbols other row before
      · exact inSymbols
    have registers : ∀ other ∈ frame.symbols, nextDelta.Registers other := fun other member =>
      added.grows.registers_iff.mpr (fits.registers other member)
    -- A new tuple is not in the main store, which has just been looked up.
    have spares : ∀ other row, nextDelta.Holds other row → ¬ workspace.db.Holds other row := by
      intro other row rowHolds
      rcases (added.holds_iff other row).mp rowHolds with before | ⟨rfl, here, -⟩
      · exact fits.spares other row before
      · obtain rfl : row = tuple := by simpa using here
        exact fun known => unknown ((dbValid.has_iff length).mpr known)
    have laterFits : Fits frame .rounds { workspace with nextDelta } :=
      { fits with
        nextDelta_valid := added.valid
        nextDelta_within := within
        nextDelta_symbols := symbols
        registers := registers
        spares := spares }
    cases isNewBit with
    | true =>
        refine ⟨{ laterFits with }, ⟨.refl _, .refl _, rfl, added.grows, ?_⟩, rfl, .inr holds⟩
        simp only [countDerived, afterStoring, if_true] at counted ⊢
        omega
    | false =>
        refine ⟨laterFits, ⟨.refl _, .refl _, rfl, added.grows, ?_⟩, rfl, .inr holds⟩
        simp only [afterStoring, Bool.false_eq_true, if_false] at counted ⊢
        omega

/-- A tuple that enters the main store is found there at once. -/
theorem Fits.store {rules : List RulePlan} (fits : workspace.Fits frame (.eager rules))
    (inSymbols : symbol ∈ frame.symbols) (denotes : workspace.terms.DenotesAll tuple values)
    (inGoal : (symbol, values) ∈ frame.goal) (length : tuple.length = symbol.arity) :
    Stored frame (.eager rules) symbol tuple workspace
      (afterStoring (workspace.store symbol tuple)) := by
  have dbValid : workspace.db.Valid := fits.source_valid false
  obtain ⟨added, isNew⟩ := dbValid.add length
  unfold Workspace.store
  generalize workspace.db.add symbol tuple = result at added isNew
  obtain ⟨isNewBit, db⟩ := result
  have counted := FactStore.total_of_added added frame.symbols_nodup inSymbols
  have holds : db.Holds symbol tuple :=
    (added.holds_iff symbol tuple).mpr (.inr ⟨rfl, by simp, fits.registers symbol inSymbols⟩)
  have within : ∀ delta, db.Within workspace.terms (frame.possible delta) := by
    intro delta other row rowHolds
    rcases (added.holds_iff other row).mp rowHolds with before | ⟨rfl, here, -⟩
    · exact fits.possible delta other row before
    · obtain rfl : row = tuple := by simpa using here
      exact ⟨values, denotes, fits.absorbs delta inGoal⟩
  have registers : ∀ other ∈ frame.symbols, db.Registers other := fun other member =>
    added.grows.registers_iff.mpr (fits.registers other member)
  have bounded : db.limits.Bounded := added.grows.limits_eq ▸ fits.source_bounded false
  have laterFits : Fits frame (.eager rules) { workspace with db } :=
    { fits with
      source_valid := fun _ => added.valid
      source_bounded := fun _ => bounded
      certain := fun delta => (fits.certain delta).mono added.grows (.refl _)
      possible := within
      registers := registers }
  cases isNewBit with
  | true =>
      refine ⟨{ laterFits with }, ⟨.refl _, added.grows, rfl, .refl _, ?_⟩, rfl, .inl holds⟩
      simp only [countDerived, afterStoring, if_true] at counted ⊢
      omega
  | false =>
      refine ⟨laterFits, ⟨.refl _, added.grows, rfl, .refl _, ?_⟩, rfl, .inl holds⟩
      simp only [afterStoring, Bool.false_eq_true, if_false] at counted ⊢
      omega

/-- No other tuple enters the main store, and this one does only if it is new. -/
theorem Fits.holds_of_store {rules : List RulePlan} (fits : workspace.Fits frame (.eager rules))
    (inSymbols : symbol ∈ frame.symbols) (length : tuple.length = symbol.arity)
    {other : RelationSymbol} {row : Tuple}
    (holds : (workspace.store symbol tuple).2.db.Holds other row) :
    workspace.db.Holds other row ∨
      (workspace.store symbol tuple).1 = true ∧ other = symbol ∧ row = tuple := by
  obtain ⟨added, isNew⟩ := FactStore.Valid.add (fits.source_valid false : workspace.db.Valid) length
  rcases (added.holds_iff other row).mp holds with before | ⟨rfl, here, -⟩
  · exact .inl before
  · obtain rfl : row = tuple := by simpa using here
    by_cases known : workspace.db.Holds other row
    · exact .inl known
    · exact .inr ⟨isNew.mpr ⟨fits.registers other inSymbols, known⟩, rfl, rfl⟩

end Workspace

/-! ## Steps of a task -/

namespace TaskState

/-- Every tuple that has entered the main store triggers the rules that read its relation. -/
def Announced (strategy : Strategy) (workspace : Workspace) (later : TaskState) : Prop :=
  ∀ symbol tuple, later.workspace.db.Holds symbol tuple → workspace.db.Holds symbol tuple ∨
    ∀ plan ∈ strategy.triggered, plan.deltaSymbol? = some symbol →
      Task.trigger plan tuple ∈ later.spawned

/-- A task has gone on: the workspace grew, new tuples have been announced, and the bindings are as
before. -/
structure Advanced (frame : Frame) (strategy : Strategy) (state later : TaskState) : Prop where
  ready : later.Ready frame strategy
  grows : later.workspace.Grows frame.symbols state.workspace
  same : later.substitution = state.substitution
  spawns : ∀ task ∈ state.spawned, task ∈ later.spawned
  announced : later.Announced strategy state.workspace

/-- A task has stopped: the workspace grew, and what was spawned before can still be run. -/
structure Stopped (frame : Frame) (strategy : Strategy) (workspace : Workspace)
    (later : TaskState) : Prop where
  fits : later.workspace.Fits frame strategy
  grows : later.workspace.Grows frame.symbols workspace
  spawned : ∀ task ∈ later.spawned, task.Sound frame strategy later.workspace

variable {state middle last : TaskState}

theorem Announced.trans (left : middle.Announced strategy workspace)
    (right : last.Announced strategy middle.workspace)
    (spawns : ∀ task ∈ middle.spawned, task ∈ last.spawned) :
    last.Announced strategy workspace := by
  intro symbol tuple holds
  rcases right symbol tuple holds with before | triggers
  · refine (left symbol tuple before).imp id fun triggers plan member reads => ?_
    exact spawns _ (triggers plan member reads)
  · exact .inr triggers

theorem announced_of_db_eq (same : last.workspace.db = workspace.db) :
    last.Announced strategy workspace :=
  fun _ _ holds => .inl (same ▸ holds)

theorem Advanced.refl (ready : state.Ready frame strategy) :
    Advanced frame strategy state state :=
  ⟨ready, .refl _, rfl, fun _ member => member, announced_of_db_eq rfl⟩

theorem Advanced.trans (left : Advanced frame strategy state middle)
    (right : Advanced frame strategy middle last) : Advanced frame strategy state last where
  ready := right.ready
  grows := right.grows.trans left.grows
  same := right.same.trans left.same
  spawns task member := right.spawns task (left.spawns task member)
  announced := left.announced.trans right.announced right.spawns

theorem Stopped.after (stopped : Stopped frame strategy middle.workspace last)
    (grows : middle.workspace.Grows frame.symbols workspace) :
    Stopped frame strategy workspace last :=
  { stopped with grows := stopped.grows.trans grows }

theorem Ready.stopped (ready : state.Ready frame strategy) :
    Stopped frame strategy state.workspace state :=
  ⟨ready.fits, .refl _, ready.spawned⟩

theorem Ready.stopped_of_interrupted (ready : state.Ready frame strategy)
    (interrupted : state.Interrupted last) : Stopped frame strategy state.workspace last := by
  obtain ⟨bindings, rfl, distinct, grown⟩ := interrupted
  have grows : (state.withBindings bindings).workspace.Grows frame.symbols state.workspace :=
    Workspace.grows_withTerms grown
  exact ⟨ready.fits.withTerms distinct grown, grows, fun task member =>
    (ready.spawned task member).mono grows⟩

theorem Advanced.extends (advanced : Advanced frame strategy state last) :
    last.bindings.Extends state.bindings :=
  ⟨advanced.grows.terms, by
    change last.substitution.Extends state.substitution
    rw [advanced.same]
    exact .refl _⟩

theorem Ready.advanced_withBindings (ready : state.Ready frame strategy) {bindings : Bindings}
    (settled : bindings.Settled state.bindings) :
    Advanced frame strategy state (state.withBindings bindings) where
  ready := ready.withBindings settled.distinct (ready.grounded.mono settled.grown settled.same)
    settled.grown
  grows := Workspace.grows_withTerms settled.grown
  same := settled.same
  spawns _ member := member
  announced := announced_of_db_eq rfl

theorem Ready.stored (ready : state.Ready frame strategy) {workspace : Workspace}
    (stored : Workspace.Stored frame strategy symbol tuple state.workspace workspace) :
    Ready frame strategy { state with workspace } where
  fits := stored.fits
  triggered plan member := (ready.triggered plan member).mono stored.grows
  spawned task member := (ready.spawned task member).mono stored.grows
  grounded := ready.grounded.mono stored.grows.terms rfl

theorem Ready.advanced_spawn (ready : state.Ready frame strategy) {task : Task}
    (sound : task.Sound frame strategy state.workspace) :
    Advanced frame strategy state { state with spawned := state.spawned ++ [task] } where
  ready :=
    { ready with
      spawned := by
        intro other member
        rcases List.mem_append.mp member with before | here
        · exact ready.spawned other before
        · obtain rfl : other = task := by simpa using here
          exact sound }
  grows := .refl _
  same := rfl
  spawns _ member := List.mem_append_left _ member
  announced := announced_of_db_eq rfl

end TaskState

namespace TaskContext

variable {context : TaskContext} {state : TaskState}

/-- Triggered rules have their delta literal matched against a tuple that is found. -/
theorem triggerRules_leaves (ready : state.Ready frame strategy)
    (holds : (strategy.source true state.workspace).Holds symbol tuple) (rules : List RulePlan)
    (sound : ∀ plan ∈ rules, plan.Sound frame strategy state.workspace) :
    LeavesWithRoom (triggerRules symbol tuple rules) state
      (fun _ later => TaskState.Advanced frame strategy state later ∧
        later.workspace = state.workspace ∧
          ∀ plan ∈ rules, plan.deltaSymbol? = some symbol →
            Task.trigger plan tuple ∈ later.spawned)
      fun _ _ => False := by
  induction rules generalizing state with
  | nil => exact .pure ⟨.refl ready, rfl, by simp⟩
  | cons rule rules ih =>
      have soundRest := fun plan member => sound plan (List.mem_cons_of_mem _ member)
      unfold triggerRules
      split
      · next reads =>
          have triggerSound : (Task.trigger rule tuple).Sound frame strategy state.workspace := by
            refine ⟨sound rule List.mem_cons_self, fun other otherReads => ?_⟩
            obtain rfl : symbol = other := Option.some.inj (reads.symm.trans otherReads)
            exact holds
          have advanced := ready.advanced_spawn triggerSound
          refine (ih advanced.ready holds soundRest).mono ?_ fun _ _ never => never
          rintro _ later ⟨laterAdvanced, same, triggers⟩
          refine ⟨advanced.trans laterAdvanced, same, fun plan member planReads => ?_⟩
          rcases List.mem_cons.mp member with rfl | member
          · exact laterAdvanced.spawns _ (List.mem_append_right _ List.mem_cons_self)
          · exact triggers plan member planReads
      · next other =>
          refine (ih ready holds soundRest).mono ?_ fun _ _ never => never
          rintro _ later ⟨advanced, same, triggers⟩
          refine ⟨advanced, same, fun plan member planReads => ?_⟩
          rcases List.mem_cons.mp member with rfl | member
          · exact absurd planReads other
          · exact triggers plan member planReads

/-- In a round a recorded tuple is collected. -/
theorem record_leaves_rounds {functions : Registry} {taskSize : Nat}
    (ready : state.Ready frame .rounds) (inSymbols : symbol ∈ frame.symbols)
    (denotes : state.workspace.terms.DenotesAll tuple values)
    (inGoal : (symbol, values) ∈ frame.goal) (length : tuple.length = symbol.arity) :
    LeavesWithRoom (record ⟨functions, .rounds, taskSize⟩ symbol tuple) state
      (fun _ later => TaskState.Advanced frame .rounds state later ∧
        later.workspace.Reported (symbol, values))
      fun _ _ => False := by
  have stored := ready.fits.collect inSymbols denotes inGoal length
  have reported := stored.reported denotes
  have advanced : TaskState.Advanced frame .rounds state { state with
      workspace := Workspace.afterStoring (state.workspace.collect symbol tuple) } :=
    ⟨ready.stored stored, stored.grows, rfl, fun _ member => member, fun _ _ _ =>
      .inr fun _ member => by simp [Strategy.triggered] at member⟩
  simp only [record, LeavesWithRoom, leaves_bind, TaskM.updateWorkspace, leaves_modifyGet]
  simp only [Workspace.afterStoring] at reported advanced
  split
  · next isNew =>
      simp only [isNew, if_true] at reported advanced
      exact fun _ => ⟨advanced, reported⟩
  · next isOld =>
      simp only [isOld] at reported advanced
      exact fun _ => ⟨advanced, reported⟩

/-- Eagerly a recorded tuple enters the main store, and triggers the rules that read its relation unless
it was there. -/
theorem record_leaves_eager {functions : Registry} {rules : List RulePlan} {taskSize : Nat}
    (ready : state.Ready frame (.eager rules)) (inSymbols : symbol ∈ frame.symbols)
    (denotes : state.workspace.terms.DenotesAll tuple values)
    (inGoal : (symbol, values) ∈ frame.goal) (length : tuple.length = symbol.arity) :
    LeavesWithRoom (record ⟨functions, .eager rules, taskSize⟩ symbol tuple) state
      (fun _ later => TaskState.Advanced frame (.eager rules) state later ∧
        later.workspace.Reported (symbol, values))
      fun _ _ => False := by
  have stored := ready.fits.store inSymbols denotes inGoal length
  have reported := stored.reported denotes
  have readyStored := ready.stored stored
  -- Only a tuple that was new has to be announced.
  have entered : ∀ other row, (state.workspace.store symbol tuple).2.db.Holds other row →
      state.workspace.db.Holds other row ∨
        (state.workspace.store symbol tuple).1 = true ∧ other = symbol ∧ row = tuple :=
    fun _ _ => ready.fits.holds_of_store inSymbols length
  simp only [record, LeavesWithRoom, leaves_bind, TaskM.updateWorkspace, leaves_modifyGet]
  simp only [Workspace.afterStoring] at stored reported readyStored
  split
  · next isNew =>
      simp only [isNew, if_true] at stored reported readyStored
      have holds : (state.workspace.store symbol tuple).2.db.Holds symbol tuple :=
        stored.found.elim id id
      simp only [leaves_bind, leaves_modifyGet]
      refine (triggerRules_leaves readyStored holds rules
        (fun plan member => readyStored.triggered plan member)).mono ?_ fun _ _ never => never
      rintro _ later ⟨advanced, same, triggers⟩
      refine ⟨⟨advanced.ready, advanced.grows.trans stored.grows, advanced.same,
        advanced.spawns, ?_⟩, same ▸ reported⟩
      intro other row otherHolds
      rw [same] at otherHolds
      rcases entered other row otherHolds with before | ⟨-, rfl, rfl⟩
      · exact .inl before
      · exact .inr triggers
  · next isOld =>
      simp only [isOld] at stored reported readyStored
      refine fun _ => ⟨⟨readyStored, stored.grows, rfl, fun _ member => member, ?_⟩, reported⟩
      intro other row otherHolds
      rcases entered other row otherHolds with before | ⟨isNew, -, -⟩
      · exact .inl before
      · exact absurd isNew isOld

theorem record_leaves (ready : state.Ready frame context.strategy)
    (inSymbols : symbol ∈ frame.symbols)
    (denotes : state.workspace.terms.DenotesAll tuple values)
    (inGoal : (symbol, values) ∈ frame.goal) (length : tuple.length = symbol.arity) :
    LeavesWithRoom (context.record symbol tuple) state
      (fun _ later => TaskState.Advanced frame context.strategy state later ∧
        later.workspace.Reported (symbol, values))
      fun _ _ => False := by
  obtain ⟨functions, strategy, taskSize⟩ := context
  cases strategy with
  | rounds => exact record_leaves_rounds ready inSymbols denotes inGoal length
  | eager rules => exact record_leaves_eager ready inSymbols denotes inGoal length

/-- At the end of a body the head is evaluated.  Its tuple denotes a fact of the goal, the one that every
instance concludes. -/
theorem head_leaves (computes : context.functions.Computes frame.meaning) {plan : RulePlan}
    (ready : state.Ready frame context.strategy)
    (sound : plan.Sound frame context.strategy state.workspace)
    (leads : plan.Leads frame state.bindings []) :
    LeavesWithRoom (TaskM.ofBindM (PlanTerm.evalList context.functions plan.head)) state
      (fun tuple later => TaskState.Advanced frame context.strategy state later ∧
        tuple.length = plan.headSymbol.arity ∧
          ∃ values, later.workspace.terms.DenotesAll tuple values ∧
            (plan.headSymbol, values) ∈ frame.goal ∧
              ∀ assignment fact, state.bindings.Agrees (frame.names plan) assignment →
                plan.Concludes frame [] assignment fact → fact = (plan.headSymbol, values))
      fun _ later => TaskState.Stopped frame context.strategy state.workspace later := by
  have evaluated := PlanTerm.evalList_leaves computes sound.fits.names_nodup plan.head
    ready.fits.distinct ready.grounded sound.fits.head
  refine (TaskM.evaluating_leaves (PlanTerm.interns_evalList _ _) evaluated).mono ?_
    fun _ _ => ready.stopped_of_interrupted
  rintro tuple _ ⟨bindings, rfl, settled, headEq⟩
  obtain ⟨witness, witnessAgrees⟩ := ready.grounded.exists_agrees sound.fits.names_nodup
  obtain ⟨values, valuesEq, denotes⟩ := headEq witness witnessAgrees
  have length : tuple.length = plan.headSymbol.arity := by
    rw [denotes.length_eq, Term.evalList_length valuesEq, sound.fits.head_length]
  refine ⟨ready.advanced_withBindings settled, length, values, denotes,
    leads witness witnessAgrees (by simp) values valuesEq, ?_⟩
  rintro assignment fact agrees ⟨-, values', valuesEq', rfl⟩
  obtain ⟨values'', valuesEq'', denotes'⟩ := headEq assignment agrees
  rw [valuesEq', Option.some.injEq] at valuesEq''
  rw [valuesEq'', denotes'.unique denotes]

/-- At the end of a body the derived fact is reported. -/
theorem report_leaves (computes : context.functions.Computes frame.meaning) {plan : RulePlan}
    (ready : state.Ready frame context.strategy)
    (sound : plan.Sound frame context.strategy state.workspace)
    (leads : plan.Leads frame state.bindings []) :
    LeavesWithRoom (context.report plan) state
      (fun _ later => TaskState.Advanced frame context.strategy state later ∧
        ∀ assignment fact, state.bindings.Agrees (frame.names plan) assignment →
          plan.Concludes frame [] assignment fact → later.workspace.Reported fact)
      fun _ later => TaskState.Stopped frame context.strategy state.workspace later := by
  refine .bind (head_leaves computes ready sound leads) (context.interns_record plan.headSymbol) ?_
  rintro tuple later ⟨advanced, length, values, denotes, inGoal, concluded⟩
  refine (record_leaves advanced.ready sound.fits.head_symbol denotes inGoal length).mono ?_
    fun _ _ never => never.elim
  rintro _ later ⟨laterAdvanced, reported⟩
  refine ⟨advanced.trans laterAdvanced, fun assignment fact agrees concludes => ?_⟩
  rw [concluded assignment fact agrees concludes]
  exact reported

end TaskContext

end Datalog
