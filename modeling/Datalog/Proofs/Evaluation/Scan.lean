import Datalog.Proofs.Evaluation.Report

/-!
# Scans

A scan matches an atom against the tuples of a view, one after another, and goes on with the rest of
the body where the atom matches; after each tuple the bindings are undone.  A range is read chunk by
chunk, and what the index holds above the chunks read so far is still to come.
-/

namespace Datalog

variable {frame : Frame} {context : TaskContext} {plan : RulePlan} {rest : List BodyLiteral}
  {state : TaskState}

/-- A step evaluates what remains of a body: it reports every fact that the rest concludes. -/
structure Evaluates (frame : Frame) (strategy : Strategy) (plan : RulePlan)
    (rest : List BodyLiteral) (step : TaskM Unit) : Prop where
  interns : Interns step
  leaves : ∀ state : TaskState, state.Ready frame strategy →
    plan.Sound frame strategy state.workspace → plan.Leads frame state.bindings rest →
      LeavesWithRoom step state
        (fun _ later => TaskState.Advanced frame strategy state later ∧
          ∀ assignment fact, state.bindings.Agrees (frame.names plan) assignment →
            plan.Concludes frame rest assignment fact → later.workspace.Reported fact)
        fun _ later => TaskState.Stopped frame strategy state.workspace later

/-- A task has gone on, and it may have bound further slots. -/
structure TaskState.Proceeded (frame : Frame) (strategy : Strategy) (state later : TaskState) :
    Prop where
  ready : later.Ready frame strategy
  grows : later.workspace.Grows frame.symbols state.workspace
  extended : later.substitution.Extends state.substitution
  spawns : ∀ task ∈ state.spawned, task ∈ later.spawned
  announced : later.Announced strategy state.workspace

/-- A task has come to what remains of a body. -/
structure Resuming (frame : Frame) (strategy : Strategy) (plan : RulePlan) (rest : List BodyLiteral)
    (state : TaskState) : Prop where
  ready : state.Ready frame strategy
  sound : plan.Sound frame strategy state.workspace
  leads : plan.Leads frame state.bindings rest

/-- A check finds out whether a condition holds, and under this condition what remains of a body leads
on. -/
structure Checks (frame : Frame) (plan : RulePlan) (rest : List BodyLiteral) (state : TaskState)
    (check : TaskM Bool) (necessary sufficient : Assignment → Prop) : Prop where
  leaves : LeavesWithRoom check state
    (fun success later => ∃ bindings, later = state.withBindings bindings ∧
      Bindings.Matched (frame.names plan) state.bindings bindings success necessary sufficient)
    fun _ later => state.Interrupted later
  leads : ∀ assignment, state.bindings.Agrees (frame.names plan) assignment →
    necessary assignment →
      (∀ literal ∈ rest, frame.Maybe plan.source.varCount assignment literal) →
        ∀ values, Term.evalList frame.meaning assignment plan.source.head.args = some values →
          (plan.headSymbol, values) ∈ frame.goal

/-- Behind a check that succeeds, the task has come to the rest. -/
theorem Bindings.Matched.resuming {strategy : Strategy} {check : TaskM Bool} {bindings : Bindings}
    {necessary sufficient : Assignment → Prop}
    (matched : Bindings.Matched (frame.names plan) state.bindings bindings true necessary sufficient)
    (checks : Checks frame plan rest state check necessary sufficient)
    (ready : state.Ready frame strategy) (sound : plan.Sound frame strategy state.workspace) :
    Resuming frame strategy plan rest (state.withBindings bindings) where
  ready := ready.withBindings matched.distinct matched.grounded matched.extended.terms
  sound := sound.mono (Workspace.grows_withTerms matched.extended.terms)
  leads := by
    intro assignment agrees
    exact checks.leads assignment (matched.extended.agrees ready.grounded agrees)
      (matched.sound rfl assignment agrees)

theorem checking_leaves {strategy : Strategy} {check : TaskM Bool} {step : TaskM Unit}
    {necessary sufficient : Assignment → Prop}
    (checks : Checks frame plan rest state check necessary sufficient)
    (evaluates : Evaluates frame strategy plan rest step) (ready : state.Ready frame strategy)
    (sound : plan.Sound frame strategy state.workspace) :
    LeavesWithRoom (do if ← check then step) state
      (fun _ later => TaskState.Proceeded frame strategy state later ∧
        ∀ assignment fact, state.bindings.Agrees (frame.names plan) assignment →
          sufficient assignment → plan.Concludes frame rest assignment fact →
            later.workspace.Reported fact)
      fun _ later => TaskState.Stopped frame strategy state.workspace later := by
  refine .bind (checks.leaves.mono (fun _ _ done => done) fun _ _ => ready.stopped_of_interrupted)
    (fun _ => .ite evaluates.interns .pure) ?_
  rintro success later ⟨bindings, rfl, matched⟩
  have grown : (state.withBindings bindings).workspace.Grows frame.symbols state.workspace :=
    Workspace.grows_withTerms matched.extended.terms
  cases success with
  | true =>
      have resuming := matched.resuming checks ready sound
      refine (evaluates.leaves _ resuming.ready resuming.sound resuming.leads).mono ?_
        fun _ _ stopped => stopped.after grown
      rintro _ last ⟨advanced, reported⟩
      refine ⟨⟨advanced.ready, advanced.grows.trans grown, ?_, advanced.spawns, advanced.announced⟩, ?_⟩
      · rw [advanced.same]
        exact matched.extended.substitution
      · intro assignment fact agrees holds concludes
        exact reported assignment fact (matched.complete assignment agrees holds).2 concludes
  | false =>
      have readyLater :=
        ready.withBindings matched.distinct matched.grounded matched.extended.terms
      refine .pure ⟨⟨readyLater, grown, matched.extended.substitution, fun _ member => member,
        TaskState.announced_of_db_eq rfl⟩, ?_⟩
      intro assignment fact agrees holds
      exact absurd (matched.complete assignment agrees holds).1 (by simp)

/-- A step behind a check whose bindings are undone afterwards. -/
theorem undoing_leaves {strategy : Strategy} {check : TaskM Bool} {step : TaskM Unit}
    {necessary sufficient : Assignment → Prop}
    (checks : Checks frame plan rest state check necessary sufficient)
    (evaluates : Evaluates frame strategy plan rest step) (ready : state.Ready frame strategy)
    (sound : plan.Sound frame strategy state.workspace) :
    LeavesWithRoom (TaskM.undoing do if ← check then step) state
      (fun _ later => TaskState.Advanced frame strategy state later ∧
        ∀ assignment fact, state.bindings.Agrees (frame.names plan) assignment →
          sufficient assignment → plan.Concludes frame rest assignment fact →
            later.workspace.Reported fact)
      fun _ later => TaskState.Stopped frame strategy state.workspace later := by
  -- After the step the bindings of the match are still there.
  have stepped := checking_leaves checks evaluates ready sound
  refine .get_bind (.bind stepped (fun _ => .modify fun _ => rfl) ?_)
  rintro _ later ⟨proceeded, reported⟩ -
  have restored := proceeded.extended.rollback_eq
  refine ⟨⟨?_, proceeded.grows, restored, proceeded.spawns, proceeded.announced⟩, reported⟩
  exact { proceeded.ready with grounded := ready.grounded.mono proceeded.grows.terms restored }

theorem TaskContext.checks_filter (computes : context.functions.Computes frame.meaning)
    {planned : PlanLiteral} {literal : BodyLiteral}
    (resuming : Resuming frame context.strategy plan (literal :: rest) state)
    (fits : planned.Fits (context.strategy.growing frame.symbols)
      (state.workspace.referents context.strategy) (frame.names plan) plan.source.varCount literal) :
    Checks frame plan rest state (context.filter planned)
      (fun assignment => frame.Maybe plan.source.varCount assignment literal)
      (fun assignment => frame.Sure plan.source.varCount assignment literal) where
  leaves := filter_leaves computes resuming.sound.fits.names_nodup resuming.ready.fits
    resuming.ready.grounded fits
  leads assignment agrees holds holdsRest :=
    resuming.leads assignment agrees (List.forall_mem_cons.mpr ⟨holds, holdsRest⟩)

/-! ## Tuples -/

/-- An atom whose bound and free columns have the values of a tuple may hold. -/
theorem PlanAtom.Fits.maybe_of_columns {strategy : Strategy} {workspace : Workspace}
    {names : List String} {count : String → Nat} {planned : PlanAtom} {atom : Atom} {delta : Bool}
    (fits : planned.Fits (workspace.referents strategy) names count atom delta)
    (workspaceFits : workspace.Fits frame strategy) (positive : atom.negated = false)
    {tuple : Tuple} (holds : (strategy.source delta workspace).Holds planned.symbol tuple)
    {assignment : Assignment}
    (columns : ∀ row, workspace.terms.DenotesAll tuple row →
      Term.evalList frame.meaning assignment (planned.pattern.keepBound atom.args) =
          some (planned.pattern.keepBound row) ∧
        Term.evalList frame.meaning assignment (planned.pattern.keepFree atom.args) =
          some (planned.pattern.keepFree row)) :
    frame.Maybe count assignment { literal := .predicate atom, delta } := by
  obtain ⟨row, denotes, member⟩ := workspaceFits.possible delta _ _ holds
  have length : row.length = planned.pattern.length := by
    rw [← denotes.length_eq, (workspaceFits.source_valid delta).length_of_holds holds, fits.arity]
  obtain ⟨boundEq, freeEq⟩ := columns row denotes
  obtain ⟨other, agrees, -, rowEq⟩ := exists_evalList_of_columns fits.args_length length
    fits.ignored fits.counted boundEq freeEq
  refine ⟨other, agrees, ?_⟩
  simp only [BodyLiteral.Holds, Literal.Holds, positive]
  exact ⟨row, rowEq, fits.symbol_eq ▸ member⟩

/-- A task scans an atom: the key denotes the values of its bound arguments, and if the atom may hold
with the rest of the body, the head belongs to the goal. -/
structure Scanning (frame : Frame) (strategy : Strategy) (plan : RulePlan) (planned : PlanAtom)
    (atom : Atom) (rest : List BodyLiteral) (key : Key) (state : TaskState) : Prop where
  ready : state.Ready frame strategy
  sound : plan.Sound frame strategy state.workspace
  atomFits : planned.Fits (state.workspace.referents strategy) (frame.names plan) plan.source.varCount
    atom planned.delta
  positive : atom.negated = false
  leads : plan.Leads frame state.bindings
    ({ literal := .predicate atom, delta := planned.delta } :: rest)
  keyOf : state.bindings.KeyOf frame.meaning (frame.names plan) planned.pattern atom.args key

variable {planned : PlanAtom} {atom : Atom} {key : Key} {continuation : TaskM Unit}

/-- Tuples of the relation that is scanned, all with the key that is looked up. -/
def PlanAtom.Found (planned : PlanAtom) (strategy : Strategy) (key : Key) (workspace : Workspace)
    (tuples : List Tuple) : Prop :=
  ∀ tuple ∈ tuples, planned.pattern.keepBound tuple = key ∧
    (strategy.source planned.delta workspace).Holds planned.symbol tuple

theorem PlanAtom.Found.mono {strategy : Strategy} {workspace later : Workspace}
    {symbols : List RelationSymbol} {tuples : List Tuple}
    (found : planned.Found strategy key workspace tuples) (grows : later.Grows symbols workspace) :
    planned.Found strategy key later tuples :=
  fun tuple member => (found tuple member).imp_right
    ((grows.source strategy planned.delta).holds planned.symbol tuple)

theorem Scanning.advance {strategy : Strategy} {later : TaskState}
    (scanning : Scanning frame strategy plan planned atom rest key state)
    (advanced : TaskState.Advanced frame strategy state later) :
    Scanning frame strategy plan planned atom rest key later := by
  have extended : later.bindings.Extends state.bindings :=
    advanced.extends
  exact
    { ready := advanced.ready
      sound := scanning.sound.mono advanced.grows
      atomFits := scanning.atomFits.mono advanced.grows
      positive := scanning.positive
      leads := scanning.leads.mono scanning.ready.grounded extended
      keyOf := scanning.keyOf.mono scanning.ready.grounded extended }

/-- Between two states a tuple has been scanned: what the rest of the body concludes where the atom
meets this tuple has been reported. -/
def Scanned (frame : Frame) (plan : RulePlan) (planned : PlanAtom) (atom : Atom)
    (rest : List BodyLiteral) (state later : TaskState) (tuple : Tuple) : Prop :=
  ∀ assignment fact, state.bindings.Agrees (frame.names plan) assignment →
    planned.Meets frame.meaning state.workspace.terms atom.args assignment tuple →
      plan.Concludes frame rest assignment fact → later.workspace.Reported fact

theorem Scanned.mono {middle later : TaskState} {symbols : List RelationSymbol} {tuple : Tuple}
    (scanned : Scanned frame plan planned atom rest state middle tuple)
    (grows : later.workspace.Grows symbols middle.workspace) :
    Scanned frame plan planned atom rest state later tuple :=
  fun assignment fact agrees meets concludes =>
    (scanned assignment fact agrees meets concludes).mono grows

theorem Scanned.after {strategy : Strategy} {middle later : TaskState} {tuple : Tuple}
    (scanned : Scanned frame plan planned atom rest middle later tuple)
    (advanced : TaskState.Advanced frame strategy state middle) :
    Scanned frame plan planned atom rest state later tuple :=
  fun assignment fact agrees meets concludes => scanned assignment fact
    (agrees.mono advanced.grows.terms advanced.same) (meets.mono advanced.grows.terms) concludes

namespace TaskContext

/-- Of a tuple that is found the free columns are checked. -/
theorem checks_columns (computes : context.functions.Computes frame.meaning)
    (scanning : Scanning frame context.strategy plan planned atom rest key state) {tuple : Tuple}
    (holds : (context.strategy.source planned.delta state.workspace).Holds planned.symbol tuple)
    (bound : planned.pattern.keepBound tuple = key) :
    Checks frame plan rest state
      (TaskM.ofBindM (matchColumns context.functions false planned.args planned.pattern tuple))
      (fun assignment => planned.Meets frame.meaning state.workspace.terms atom.args assignment tuple)
      fun assignment => planned.Meets frame.meaning state.workspace.terms atom.args assignment tuple := by
  have atomFits := scanning.atomFits
  have fits := scanning.ready.fits
  have tupleLength : tuple.length = planned.pattern.length := by
    rw [(fits.source_valid planned.delta).length_of_holds holds, atomFits.arity]
  obtain ⟨row, denotes, -⟩ := fits.possible planned.delta _ _ holds
  have denotesFree : state.workspace.terms.DenotesAll (planned.pattern.keepFree tuple)
      (planned.pattern.keepFree row) := denotes.keep _ planned.pattern
  have freeEq {assignment} (meets : planned.Meets frame.meaning state.workspace.terms atom.args
      assignment tuple) : Term.evalList frame.meaning assignment (planned.pattern.keepFree atom.args) =
        some (planned.pattern.keepFree row) := by
    obtain ⟨values, valuesDenote, valuesEq⟩ := meets
    rw [valuesEq, valuesDenote.unique denotesFree]
  have checked := TaskM.evaluating_leaves (interns_matchColumns _ _ _ _ _) (matchColumns_leaves
    computes scanning.sound.fits.names_nodup false fits.distinct scanning.ready.grounded
    atomFits.args atomFits.args_length tupleLength denotes)
  simp only [keep_compared_false] at checked
  refine ⟨checked.mono ?_ fun _ _ stopped => stopped, ?_⟩
  · rintro success _ ⟨bindings, rfl, matched⟩
    exact ⟨bindings, rfl, matched.imp (fun _ _ equal => ⟨_, denotesFree, equal⟩)
      fun _ _ meets => freeEq meets⟩
  · intro assignment agrees meets holdsRest
    refine scanning.leads assignment agrees (List.forall_mem_cons.mpr ⟨?_, holdsRest⟩)
    refine atomFits.maybe_of_columns fits scanning.positive holds fun row' denotes' => ?_
    obtain rfl := denotes.unique denotes'
    exact ⟨scanning.keyOf.evalList_keepBound agrees bound denotes, freeEq meets⟩

theorem scanTuple_leaves (computes : context.functions.Computes frame.meaning)
    (evaluates : Evaluates frame context.strategy plan rest continuation)
    (scanning : Scanning frame context.strategy plan planned atom rest key state) {tuple : Tuple}
    (holds : (context.strategy.source planned.delta state.workspace).Holds planned.symbol tuple)
    (bound : planned.pattern.keepBound tuple = key) :
    LeavesWithRoom
      (TaskM.undoing do
        if ← TaskM.ofBindM
            (matchColumns context.functions false planned.args planned.pattern tuple) then
          continuation)
      state
      (fun _ later => TaskState.Advanced frame context.strategy state later ∧
        Scanned frame plan planned atom rest state later tuple)
      fun _ later => TaskState.Stopped frame context.strategy state.workspace later :=
  undoing_leaves (checks_columns computes scanning holds bound) evaluates scanning.ready
    scanning.sound

theorem scanTuples_leaves (computes : context.functions.Computes frame.meaning)
    (evaluates : Evaluates frame context.strategy plan rest continuation)
    (tuples : List Tuple)
    (scanning : Scanning frame context.strategy plan planned atom rest key state)
    (found : planned.Found context.strategy key state.workspace tuples) :
    LeavesWithRoom (context.scanTuples planned continuation tuples) state
      (fun _ later => TaskState.Advanced frame context.strategy state later ∧
        ∀ tuple ∈ tuples, Scanned frame plan planned atom rest state later tuple)
      fun _ later => TaskState.Stopped frame context.strategy state.workspace later := by
  induction tuples generalizing state with
  | nil => exact .pure ⟨.refl scanning.ready, by simp⟩
  | cons tuple tuples ih =>
      obtain ⟨⟨bound, holds⟩, foundRest⟩ := List.forall_mem_cons.mp found
      unfold scanTuples
      refine .bind (scanTuple_leaves computes evaluates scanning holds bound)
        (fun _ => context.interns_scanTuples planned evaluates.interns tuples) ?_
      rintro _ middle ⟨advanced, scanned⟩
      have foundLater := PlanAtom.Found.mono foundRest advanced.grows
      refine (ih (scanning.advance advanced) foundLater).mono ?_
        fun _ _ stopped => stopped.after advanced.grows
      rintro _ later ⟨laterAdvanced, laterScanned⟩
      refine ⟨advanced.trans laterAdvanced, fun other member => ?_⟩
      rcases List.mem_cons.mp member with rfl | member
      · exact scanned.mono laterAdvanced.grows
      · exact (laterScanned other member).after advanced

end TaskContext

/-! ## Views -/

/-- Tuples with the same key agree in the free columns. -/
theorem Pattern.keepFree_eq_of_keyOf_eq {pattern : Pattern} {tuple other : Tuple}
    (length : tuple.length = pattern.length) (length' : other.length = pattern.length)
    (same : pattern.keyOf tuple = pattern.keyOf other) :
    pattern.keepFree tuple = pattern.keepFree other := by
  rw [Pattern.keyOf_eq length, Pattern.keyOf_eq length'] at same
  exact (List.append_inj same (Pattern.length_keep length length')).2

theorem PlanAtom.Meets.of_keyOf_eq {terms : TermStore} {meaning : Interpretation}
    {args : List Term} {assignment : Assignment} {tuple other : Tuple}
    (meets : planned.Meets meaning terms args assignment tuple)
    (length : tuple.length = planned.pattern.length) (length' : other.length = planned.pattern.length)
    (same : planned.pattern.keyOf other = planned.pattern.keyOf tuple) :
    planned.Meets meaning terms args assignment other := by
  unfold Meets
  rwa [Pattern.keepFree_eq_of_keyOf_eq length' length same]

theorem Scanning.pattern_eq {strategy : Strategy} {index : Index}
    (scanning : Scanning frame strategy plan planned atom rest key state)
    (indexEq : (strategy.source planned.delta state.workspace).index? planned.symbol planned.index =
      some index) : index.pattern = planned.pattern := by
  obtain ⟨index', indexEq', patternEq⟩ := scanning.atomFits.provides
  obtain rfl : index = index' := Option.some.inj (indexEq.symm.trans indexEq')
  exact patternEq

/-- What holds of a tuple that is scanned holds of every tuple with its key. -/
theorem Scanned.of_keyOf_eq {later : TaskState} {tuple other : Tuple}
    (scanned : Scanned frame plan planned atom rest state later other)
    (length : tuple.length = planned.pattern.length) (length' : other.length = planned.pattern.length)
    (same : planned.pattern.keyOf other = planned.pattern.keyOf tuple) :
    Scanned frame plan planned atom rest state later tuple :=
  fun assignment fact agrees meets concludes =>
    scanned assignment fact agrees (meets.of_keyOf_eq length length' same) concludes

theorem Scanning.scanned_of_entry {strategy : Strategy} {index : Index} {entry : Entry}
    {later : TaskState} {tuple : Tuple}
    (scanning : Scanning frame strategy plan planned atom rest key state)
    (indexEq : (strategy.source planned.delta state.workspace).index? planned.symbol planned.index =
      some index) (member : entry ∈ index.entries) (length : tuple.length = planned.pattern.length)
    (keyEq : entry.key = index.pattern.keyOf tuple)
    (scanned : Scanned frame plan planned atom rest state later entry.tuple) :
    Scanned frame plan planned atom rest state later tuple := by
  have indexValid := (scanning.ready.fits.source_valid planned.delta).index_valid indexEq
  have entryLength : entry.tuple.length = planned.pattern.length := by
    rw [indexValid.tuple_length entry member, scanning.atomFits.arity]
  refine scanned.of_keyOf_eq length entryLength ?_
  rw [← scanning.pattern_eq indexEq, ← keyEq, indexValid.keyed entry member]

/-- The tuples of a chunk are tuples of the relation, and they have the key that is looked up. -/
theorem Scanning.found_readChunk {strategy : Strategy} {index : Index} {keys : KeyRange}
    (scanning : Scanning frame strategy plan planned atom rest key state)
    (indexEq : (strategy.source planned.delta state.workspace).index? planned.symbol planned.index =
      some index) (confined : index.Confined key keys) :
    planned.Found strategy key state.workspace (index.readChunk keys).1 := by
  intro tuple member
  have sourceValid := scanning.ready.fits.source_valid planned.delta
  have indexValid := sourceValid.index_valid indexEq
  obtain ⟨entry, entryMember, inRange, rfl⟩ := Index.mem_readChunk member
  have keyFits := scanning.keyOf.fitsFront scanning.ready.grounded
    scanning.sound.fits.names_nodup scanning.atomFits.args_length scanning.atomFits.arity
  have isPrefix := confined.2 entry.key (indexValid.key_length entryMember) inRange
  refine ⟨?_, sourceValid.holds_of_entry indexEq entryMember⟩
  rw [← scanning.pattern_eq indexEq] at keyFits ⊢
  exact (indexValid.prefix_key_iff entryMember
    (keyFits _ (indexValid.tuple_length entry entryMember))).mp isPrefix

/-- The tuples of an array are tuples of the relation, and they have the key that is looked up. -/
theorem Scanning.found_array {strategy : Strategy} {index : Index} {tuples : List Tuple}
    (scanning : Scanning frame strategy plan planned atom rest key state)
    (indexEq : (strategy.source planned.delta state.workspace).index? planned.symbol planned.index =
      some index) (isFrom : (View.array tuples).From index key) :
    planned.Found strategy key state.workspace tuples := by
  intro tuple member
  obtain ⟨bound, entry, entryMember, rfl⟩ := isFrom tuple member
  have sourceValid := scanning.ready.fits.source_valid planned.delta
  exact ⟨scanning.pattern_eq indexEq ▸ bound, sourceValid.holds_of_entry indexEq entryMember⟩

/-- What a chunk leaves of a range has fewer keys, and is still confined once the task has gone on. -/
theorem Scanning.exists_rest {strategy : Strategy} {index : Index} {keys next : KeyRange}
    {later : TaskState} (scanning : Scanning frame strategy plan planned atom rest key state)
    (indexEq : (strategy.source planned.delta state.workspace).index? planned.symbol planned.index =
      some index) (confined : index.Confined key keys)
    (nextEq : (index.readChunk keys).2 = some next)
    (advanced : TaskState.Advanced frame strategy state later) :
    ∃ index', (strategy.source planned.delta later.workspace).index? planned.symbol planned.index =
        some index' ∧ index'.Grows index ∧ index'.Confined key next ∧
          next.keysLeft index.pattern.keyColumns.length <
            keys.keysLeft index.pattern.keyColumns.length := by
  have indexValid := (scanning.ready.fits.source_valid planned.delta).index_valid indexEq
  obtain ⟨hasLength, inside, fewer⟩ := Index.rest_of_readChunk indexValid confined.1 nextEq
  obtain ⟨index', indexEq', indexGrows⟩ :=
    (advanced.grows.source strategy planned.delta).index? indexEq
  refine ⟨index', indexEq', indexGrows, ?_, fewer⟩
  unfold Index.Confined
  rw [indexGrows.pattern_eq]
  exact ⟨hasLength, fun other length contained =>
    confined.2 other length (inside other length contained)⟩

namespace TaskContext

theorem indexFor_eq {index : Index} {workspace : Workspace}
    (indexEq : (context.strategy.source planned.delta workspace).index? planned.symbol
      planned.index = some index) : context.indexFor planned workspace = index := by
  rw [indexFor, storeFor_eq, indexEq]
  rfl

/-- A range is scanned to its end: with every chunk there are fewer keys left. -/
theorem scanRange_leaves (computes : context.functions.Computes frame.meaning)
    (evaluates : Evaluates frame context.strategy plan rest continuation)
    (chunks : Nat) {keys : KeyRange} {index : Index}
    (scanning : Scanning frame context.strategy plan planned atom rest key state)
    (indexEq : (context.strategy.source planned.delta state.workspace).index? planned.symbol
      planned.index = some index)
    (confined : index.Confined key keys)
    (enough : keys.keysLeft index.pattern.keyColumns.length < chunks) :
    LeavesWithRoom (context.scanRange planned continuation chunks keys) state
      (fun _ later => TaskState.Advanced frame context.strategy state later ∧
        ∀ tuple : Tuple, tuple.length = planned.pattern.length →
          keys.contains (index.pattern.keyOf tuple) = true →
            (∃ entry ∈ index.entries, entry.key = index.pattern.keyOf tuple) →
              Scanned frame plan planned atom rest state later tuple)
      fun _ later => TaskState.Stopped frame context.strategy state.workspace later := by
  induction chunks generalizing state keys index with
  | zero => omega
  | succ chunks ih =>
      have indexValid := (scanning.ready.fits.source_valid planned.delta).index_valid indexEq
      unfold scanRange
      refine .get_bind ?_
      rw [indexFor_eq indexEq]
      dsimp only
      have found := scanning.found_readChunk indexEq confined
      have restOf := fun next (nextEq : (index.readChunk keys).2 = some next) {middle : TaskState}
          (advanced : TaskState.Advanced frame context.strategy state middle) =>
        scanning.exists_rest indexEq confined nextEq advanced
      have split := fun entry (member : entry ∈ index.entries) inRange =>
        Index.mem_readChunk_or_rest indexValid confined.1 member inRange
      generalize index.readChunk keys = chunk at found restOf split ⊢
      obtain ⟨tuples, next⟩ := chunk
      refine .bind (scanTuples_leaves computes evaluates tuples scanning found) (fun _ => ?_) ?_
      · cases next with
        | none => exact .pure
        | some next => exact context.interns_scanRange planned evaluates.interns chunks next
      rintro _ middle ⟨advanced, scanned⟩
      -- A tuple of the index with the wanted key has been scanned or is still to come.
      cases next with
      | none =>
          refine .pure ⟨advanced, ?_⟩
          rintro tuple length inRange ⟨entry, member, keyEq⟩
          rcases split entry member (keyEq ▸ inRange) with inTuples | ⟨next, nextEq, -⟩
          · exact scanning.scanned_of_entry indexEq member length keyEq (scanned _ inTuples)
          · simp at nextEq
      | some next =>
          obtain ⟨index', indexEq', indexGrows, confined', fewer⟩ := restOf next rfl advanced
          have enough' : next.keysLeft index'.pattern.keyColumns.length < chunks := by
            rw [indexGrows.pattern_eq]
            omega
          refine (ih (scanning.advance advanced) indexEq' confined' enough').mono ?_
            fun _ _ stopped => stopped.after advanced.grows
          rintro _ later ⟨laterAdvanced, laterScanned⟩
          rw [indexGrows.pattern_eq] at laterScanned
          refine ⟨advanced.trans laterAdvanced, ?_⟩
          rintro tuple length inRange ⟨entry, member, keyEq⟩
          rcases split entry member (keyEq ▸ inRange) with inTuples | ⟨next', nextEq, inNext⟩
          · exact (scanning.scanned_of_entry indexEq member length keyEq
              (scanned _ inTuples)).mono laterAdvanced.grows
          · obtain rfl : next = next' := Option.some.inj nextEq
            exact (laterScanned tuple length (keyEq ▸ inNext)
              ⟨entry, indexGrows.kept entry member, keyEq⟩).after advanced

/-- A view is scanned to its end, whatever form it takes. -/
theorem scanView_leaves (computes : context.functions.Computes frame.meaning)
    (evaluates : Evaluates frame context.strategy plan rest continuation)
    {view : View} {index : Index}
    (scanning : Scanning frame context.strategy plan planned atom rest key state)
    (indexEq : (context.strategy.source planned.delta state.workspace).index? planned.symbol
      planned.index = some index)
    (isFrom : view.From index key) :
    LeavesWithRoom (context.scanView planned continuation view) state
      (fun _ later => TaskState.Advanced frame context.strategy state later ∧
        ∀ tuple : Tuple, tuple.length = planned.pattern.length →
          view.Covers index (index.pattern.keyOf tuple) →
            Scanned frame plan planned atom rest state later tuple)
      fun _ later => TaskState.Stopped frame context.strategy state.workspace later := by
  have patternEq := scanning.pattern_eq indexEq
  have sourceValid := scanning.ready.fits.source_valid planned.delta
  cases view with
  | array tuples =>
      have found := scanning.found_array indexEq isFrom
      refine (scanTuples_leaves computes evaluates tuples scanning found).mono ?_
        fun _ _ stopped => stopped
      rintro _ later ⟨advanced, scanned⟩
      refine ⟨advanced, ?_⟩
      rintro tuple length ⟨other, member, keyEq⟩
      have otherLength : other.length = planned.pattern.length := by
        rw [sourceValid.length_of_holds (found other member).2, scanning.atomFits.arity]
      exact (scanned other member).of_keyOf_eq length otherLength (patternEq ▸ keyEq)
  | range keys count =>
      have enough : keys.keysLeft index.pattern.keyColumns.length <
          keyCount planned.pattern.keyColumns.length + 1 := by
        rw [patternEq]
        have := KeyRange.keysLeft_le planned.pattern.keyColumns.length keys
        exact Nat.lt_succ_of_le this
      refine (scanRange_leaves computes evaluates _ scanning indexEq isFrom enough).mono ?_
        fun _ _ stopped => stopped
      rintro _ later ⟨advanced, scanned⟩
      exact ⟨advanced, fun tuple length covers => scanned tuple length covers.1 covers.2⟩

/-- A lookup finds a match wherever the atom is sure to hold. -/
theorem lookup_scanning (computes : context.functions.Computes frame.meaning)
    (ready : state.Ready frame context.strategy)
    (sound : plan.Sound frame context.strategy state.workspace)
    (atomFits : planned.Fits (state.workspace.referents context.strategy) (frame.names plan)
      plan.source.varCount atom planned.delta)
    (positive : atom.negated = false)
    (leads : plan.Leads frame state.bindings
      ({ literal := .predicate atom, delta := planned.delta } :: rest)) :
    LeavesWithRoom (context.lookup planned) state
      (fun view later => TaskState.Advanced frame context.strategy state later ∧ ∃ index key,
        Scanning frame context.strategy plan planned atom rest key later ∧
          (context.strategy.source planned.delta later.workspace).index? planned.symbol
              planned.index = some index ∧
            view.From index key ∧
              ∀ assignment, state.bindings.Agrees (frame.names plan) assignment →
                frame.Sure plan.source.varCount assignment
                    { literal := .predicate atom, delta := planned.delta } →
                  ∃ tuple : Tuple, tuple.length = planned.pattern.length ∧
                    view.Covers index (index.pattern.keyOf tuple) ∧
                      planned.Meets frame.meaning later.workspace.terms atom.args assignment tuple)
      fun _ later => TaskState.Stopped frame context.strategy state.workspace later := by
  refine (lookup_leaves computes sound.fits.names_nodup ready.fits.distinct ready.grounded
    atomFits).mono ?_ fun _ _ => ready.stopped_of_interrupted
  rintro view later ⟨bindings, key, settled, rfl, rfl, keyOf⟩
  have advanced := ready.advanced_withBindings settled
  have scanning : Scanning frame context.strategy plan planned atom rest key
      (state.withBindings bindings) :=
    { ready := advanced.ready
      sound := sound.mono advanced.grows
      atomFits := atomFits.mono advanced.grows
      positive := positive
      leads := leads.mono ready.grounded advanced.extends
      keyOf := keyOf }
  have keyFits := keyOf.fitsFront advanced.ready.grounded sound.fits.names_nodup
    atomFits.args_length atomFits.arity
  obtain ⟨index, indexEq, patternEq⟩ := atomFits.provides
  rw [← patternEq] at keyFits
  have sourceValid := ready.fits.source_valid planned.delta
  have sourceBounded := ready.fits.source_bounded planned.delta
  have sameSource : context.strategy.source planned.delta
      (state.withBindings bindings).workspace =
        context.strategy.source planned.delta state.workspace := by
    cases context.strategy <;> rfl
  refine ⟨advanced, index, key, scanning, sameSource ▸ indexEq,
    sourceValid.from_get sourceBounded indexEq keyFits, ?_⟩
  -- A fact for which the atom is sure to hold has a tuple, which stands under the key of the lookup.
  intro assignment agrees holds
  simp only [Frame.Sure, BodyLiteral.Holds, Literal.Holds, positive] at holds
  obtain ⟨values, valuesEq, member⟩ := holds
  obtain ⟨tuple, tupleHolds, denotes⟩ := ready.fits.certain planned.delta _ member
  have tupleHolds : (context.strategy.source planned.delta state.workspace).Holds
      planned.symbol tuple := atomFits.symbol_eq ▸ tupleHolds
  have denotes : bindings.terms.DenotesAll tuple values := denotes.mono settled.grown
  have bound : index.pattern.keepBound tuple = key :=
    patternEq ▸ keyOf.keepBound_eq settled.distinct
      (agrees.mono advanced.grows.terms advanced.same) (Term.evalList_keep valuesEq _ _) denotes
  refine ⟨tuple, ?_, sourceValid.covers_get sourceBounded indexEq keyFits tupleHolds bound, ?_⟩
  · rw [sourceValid.length_of_holds tupleHolds, atomFits.arity]
  · exact ⟨_, denotes.keep _ _, Term.evalList_keep valuesEq _ _⟩

end TaskContext

/-! ## Bodies -/

/-- Where nothing is left of a planned body, nothing is left of the rule's. -/
theorem RulePlan.Fits.drop_eq_nil {strategy : Strategy} {workspace : Workspace}
    (fits : plan.Fits frame.toLayout strategy workspace) {position : Nat}
    (bodyEq : plan.body.drop position = []) : plan.source.body.drop position = [] := by
  have restFits := List.forall₂_drop position fits.body
  rwa [bodyEq, List.forall₂_nil_left_iff] at restFits

/-- The first literal of what remains of a planned body, and that of the rule. -/
theorem RulePlan.Fits.exists_drop_eq_cons {strategy : Strategy} {workspace : Workspace}
    (fits : plan.Fits frame.toLayout strategy workspace) {planned : PlanLiteral}
    {body : List PlanLiteral} {position : Nat} (bodyEq : plan.body.drop position = planned :: body) :
    ∃ literal, plan.source.body.drop position = literal :: plan.source.body.drop (position + 1) ∧
      plan.body.drop (position + 1) = body ∧
        planned.Fits (strategy.growing frame.symbols) (workspace.referents strategy)
          (frame.names plan) plan.source.varCount literal := by
  have restFits := List.forall₂_drop position fits.body
  rw [bodyEq] at restFits
  rw [← List.drop_drop, ← List.drop_drop, bodyEq]
  generalize plan.source.body.drop position = rest at restFits ⊢
  cases restFits with
  | cons literalFits _ => exact ⟨_, rfl, rfl, literalFits⟩

/-- What remains of a body is evaluated literal by literal. -/
theorem evaluates_evalBody (computes : context.functions.Computes frame.meaning)
    {body : List PlanLiteral} {position : Nat} (bodyEq : plan.body.drop position = body) :
    Evaluates frame context.strategy plan (plan.source.body.drop position)
      (context.evalBody plan body) := by
  induction body generalizing position with
  | nil =>
      refine ⟨context.interns_evalBody plan [], fun state ready sound leads => ?_⟩
      rw [sound.fits.drop_eq_nil bodyEq] at leads ⊢
      exact TaskContext.report_leaves computes ready sound leads
  | cons planned body ih =>
      refine ⟨context.interns_evalBody plan _, fun state ready sound leads => ?_⟩
      obtain ⟨literal, sourceEq, laterEq, literalFits⟩ := sound.fits.exists_drop_eq_cons bodyEq
      have evaluates := ih laterEq
      rw [sourceEq] at leads ⊢
      generalize plan.source.body.drop (position + 1) = rest at leads evaluates ⊢
      cases planned with
      | scan planned =>
          obtain ⟨atom, literalEq, positive, atomFits⟩ := literalFits
          obtain ⟨literal, delta⟩ := literal
          obtain rfl : literal = .predicate atom := literalEq
          obtain rfl : planned.delta = delta := atomFits.delta_eq
          unfold TaskContext.evalBody
          refine .bind (TaskContext.lookup_scanning computes ready sound atomFits positive leads)
            (fun view => context.interns_scanView planned evaluates.interns view) ?_
          rintro view middle ⟨advanced, index, key, scanning, indexEq, isFrom, finds⟩
          refine (TaskContext.scanView_leaves computes evaluates scanning indexEq isFrom).mono ?_
            fun _ _ stopped => stopped.after advanced.grows
          rintro _ later ⟨laterAdvanced, reported⟩
          refine ⟨advanced.trans laterAdvanced, ?_⟩
          rintro assignment fact agrees ⟨holds, conclusion⟩
          obtain ⟨tuple, length, covers, meets⟩ :=
            finds assignment agrees (holds _ List.mem_cons_self)
          exact reported tuple length covers assignment fact
            (agrees.mono advanced.grows.terms advanced.same) meets
            ⟨fun other member => holds other (List.mem_cons_of_mem _ member), conclusion⟩
      | _ =>
          have checks := TaskContext.checks_filter computes ⟨ready, sound, leads⟩ literalFits
          refine (undoing_leaves checks evaluates ready sound).mono ?_ fun _ _ stopped => stopped
          rintro _ later ⟨advanced, reported⟩
          refine ⟨advanced, ?_⟩
          rintro assignment fact agrees ⟨holds, conclusion⟩
          exact reported assignment fact agrees (holds literal List.mem_cons_self)
            ⟨fun other member => holds other (List.mem_cons_of_mem _ member), conclusion⟩

/-- A task that has scanned some tuples has gone on with the substitution that it had. -/
theorem Scanning.advanced_of_scanTuples (computes : context.functions.Computes frame.meaning)
    {body : List PlanLiteral} {position : Nat} (bodyEq : plan.body.drop position = body)
    {tuples : List Tuple} {later : TaskState}
    (scanning : Scanning frame context.strategy plan planned atom (plan.source.body.drop position) key
      state)
    (found : planned.Found context.strategy key state.workspace tuples)
    (scanned : context.scanTuples planned (context.evalBody plan body) tuples state = .ok () later)
    (room : later.workspace.terms.HasRoom) :
    TaskState.Advanced frame context.strategy state later :=
  ((TaskContext.scanTuples_leaves computes (evaluates_evalBody computes bodyEq) tuples scanning
    found).of_ok scanned room).1

end Datalog
