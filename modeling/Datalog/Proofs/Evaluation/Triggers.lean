import Datalog.Proofs.Evaluation.Eager

/-!
# Triggered rules

Eagerly, a tuple that enters the main store triggers the delta rules that read its relation.  An instance
of a rule that holds is therefore never lost: it held at the start, or its head is stored, or a task that
was triggered by the fact that was stored last still waits.  When no task waits any more, the main store
is closed under the rules, so that the first sweep adds nothing.
-/

namespace Datalog

variable {meaning : Interpretation} {rules : List Rule} {layout : Layout}
  {start least model next : Model} {strategy : Strategy} {workspace : Workspace}
  {lower : start ⊆ model} {lower' : start ⊆ next}
  {elsewhere : ∀ fact ∈ least, fact.1 ∉ layout.symbols → fact ∈ start}

/-! ## More facts that are certain -/

/-- What may be reported does not depend on what is certain. -/
theorem RulePlan.Sound.recertified {plan : RulePlan}
    (sound : plan.Sound (eagerFrame layout meaning start model least lower elsewhere) strategy
      workspace) :
    plan.Sound (eagerFrame layout meaning start next least lower' elsewhere) strategy workspace :=
  ⟨sound.fits, sound.possible⟩

theorem Task.Sound.recertified {task : Task}
    (sound : task.Sound (eagerFrame layout meaning start model least lower elsewhere) strategy
      workspace) :
    task.Sound (eagerFrame layout meaning start next least lower' elsewhere) strategy workspace := by
  cases task with
  | load symbol facts => exact sound
  | evaluate plan => exact RulePlan.Sound.recertified sound
  | scan plan position substitution view => exact ⟨sound.1.recertified, sound.2⟩
  | trigger plan tuple => exact ⟨sound.1.recertified, sound.2⟩

/-- A positive atom is scanned, and the relation of a negated one does not grow. -/
theorem PlanLiteral.Fits.of_predicate {growing : List RelationSymbol} {referents : Referents}
    {names : List String} {count : String → Nat} {planned : PlanLiteral} {literal : BodyLiteral}
    (fits : planned.Fits growing referents names count literal) {atom : Atom}
    (literalEq : literal.literal = .predicate atom) :
    (atom.negated = false ∧ ∃ scanned, planned = .scan scanned ∧ scanned.symbol = atom.symbol) ∨
      (atom.negated = true ∧ atom.symbol ∉ growing) := by
  cases planned with
  | unify source pattern =>
      obtain ⟨_, _, equation | equation, -⟩ := fits <;> simp [literalEq] at equation
  | disunify lhs rhs =>
      obtain ⟨_, _, equation, -⟩ := fits
      simp [literalEq] at equation
  | scan planned =>
      obtain ⟨other, otherEq, positive, atomFits⟩ := fits
      obtain rfl := Literal.predicate.inj (literalEq.symm.trans otherEq)
      exact .inl ⟨positive, planned, rfl, atomFits.symbol_eq⟩
  | absent planned =>
      obtain ⟨other, otherEq, negated, -, outside, -⟩ := fits
      obtain rfl := Literal.predicate.inj (literalEq.symm.trans otherEq)
      exact .inr ⟨negated, outside⟩

/-- A plan negates only relations that do not change. -/
theorem RulePlan.Fits.not_mem_of_negated {plan : RulePlan}
    (fits : plan.Fits layout strategy workspace) {literal : BodyLiteral}
    (inBody : literal ∈ plan.source.body) {atom : Atom} (literalEq : literal.literal = .predicate atom)
    (negated : atom.negated = true) : atom.symbol ∉ strategy.growing layout.symbols := by
  obtain ⟨position, atPosition⟩ := List.mem_iff_getElem?.mp inBody
  obtain ⟨planned, -, literalFits⟩ := forall₂_getElem? fits.body.flip atPosition
  rcases PlanLiteral.Fits.of_predicate literalFits literalEq with ⟨positive, -⟩ | ⟨-, outside⟩
  · simp [negated] at positive
  · exact outside

/-- What a body concludes it still concludes when the relations of the stratum have grown. -/
theorem RulePlan.Concludes.grow {plan : RulePlan}
    (growing : strategy.growing layout.symbols = layout.symbols)
    (fits : plan.Fits layout strategy workspace) (included : model ⊆ next) (upper : next ⊆ least) {rest : List BodyLiteral}
    (inBody : ∀ literal ∈ rest, literal ∈ plan.source.body) {assignment : Assignment}
    {fact : GroundFact}
    (concludes : plan.Concludes (eagerFrame layout meaning start model least lower elsewhere) rest
      assignment fact) :
    plan.Concludes (eagerFrame layout meaning start next least lower' elsewhere) rest assignment
      fact := by
  refine ⟨fun literal member => ?_, concludes.2⟩
  refine (concludes.1 literal member).mono (fun _ _ _ _ known => included known) ?_
  intro atom atomEq negated values known
  exact lower (elsewhere _ (upper known)
    (growing ▸ fits.not_mem_of_negated (inBody literal member) atomEq negated))

theorem Task.Promises.grow {task : Task}
    (growing : strategy.growing layout.symbols = layout.symbols)
    (sound : task.Sound (eagerFrame layout meaning start model least lower elsewhere) strategy
      workspace)
    (included : model ⊆ next) (upper : next ⊆ least) {fact : GroundFact}
    (promises : task.Promises (eagerFrame layout meaning start model least lower elsewhere) strategy
      workspace fact) :
    task.Promises (eagerFrame layout meaning start next least lower' elsewhere) strategy workspace
      fact := by
  cases task with
  | load symbol facts => exact promises
  | evaluate plan =>
      obtain ⟨assignment, concludes⟩ := RulePlan.exists_concludes promises
      have concludes' : plan.Concludes (eagerFrame layout meaning start next least lower' elsewhere)
          plan.source.body assignment fact :=
        concludes.grow growing sound.fits included upper fun _ member => member
      obtain ⟨holds, values, headEq, factEq⟩ := concludes'
      exact ⟨assignment, values, holds, headEq, factEq⟩
  | scan plan position substitution view =>
      obtain ⟨assignment, planned, atom, tuple, agrees, concludes, others⟩ := promises
      exact ⟨assignment, planned, atom, tuple, agrees,
        concludes.grow growing sound.1.fits included upper fun _ member =>
          List.mem_of_mem_drop member, others⟩
  | trigger plan tuple =>
      obtain ⟨assignment, position, atom, values, atDelta, atSource, concludes, others⟩ := promises
      exact ⟨assignment, position, atom, values, atDelta, atSource,
        concludes.grow growing sound.1.fits included upper fun _ member => member, others⟩

/-! ## Instances that are pursued -/

/-- Everything that the rules derive from the main store was derived at the start, is stored, or is
promised by a task that waits. -/
structure Pursued (layout : Layout) (meaning : Interpretation) (rules : List Rule)
    (strategy : Strategy) (start least : Model)
    (elsewhere : ∀ fact ∈ least, fact.1 ∉ layout.symbols → fact ∈ start)
    (pool : Pool Task TaskError) (workspace : Workspace) : Prop where
  lower : start ⊆ workspace.db.model workspace.terms
  pursued : ∀ fact ∈ consequences meaning rules (workspace.db.model workspace.terms)
      (workspace.db.model workspace.terms),
    fact ∈ workspace.db.model workspace.terms ∨ fact ∈ consequences meaning rules start start ∨
      ∃ task ∈ pool.queue, task.Promises (eagerFrame layout meaning start
        (workspace.db.model workspace.terms) least lower elsewhere) strategy workspace fact

variable {plans : List RulePlan} {context : TaskContext} {base : Workspace} {target : Model}
  {pool later : Pool Task TaskError} {last : Workspace}

/-- The relation that a plan enumerates is that of the atom at its delta position. -/
theorem RulePlan.Fits.deltaSymbol?_eq {plan : RulePlan} (fits : plan.Fits layout strategy workspace)
    {position : Nat} (deltaEq : plan.deltaPosition? = some position) {literal : BodyLiteral}
    {atom : Atom} (atSource : plan.source.body[position]? = some literal)
    (literalEq : literal.literal = .predicate atom) (positive : atom.negated = false) :
    plan.deltaSymbol? = some atom.symbol := by
  obtain ⟨planned, atPosition, literalFits⟩ := forall₂_getElem? fits.body.flip atSource
  rcases PlanLiteral.Fits.of_predicate literalFits literalEq with ⟨-, scanned, rfl, symbolEq⟩ | ⟨negated, -⟩
  · simp [deltaSymbol?, deltaEq, atPosition, symbolEq]
  · simp [negated] at positive

/-- A delta rule that derives a fact with the help of a new tuple has been triggered for this tuple. -/
theorem exists_trigger_of_new (implements : Implements meaning layout.symbols rules plans)
    {plan : RulePlan} (planMember : plan ∈ plans) (isDelta : plan.isDeltaRule = true)
    {state : TaskState} (fits : plan.Fits layout strategy state.workspace)
    (lower' : start ⊆ state.workspace.db.model state.workspace.terms)
    (announced : ∀ symbol tuple, state.workspace.db.Holds symbol tuple →
      (∃ values, state.workspace.terms.DenotesAll tuple values ∧ (symbol, values) ∈ model) ∨
        (plan.deltaSymbol? = some symbol → Task.trigger plan tuple ∈ state.spawned))
    {fact : GroundFact}
    (derived : fact ∈ plan.source.consequences meaning
      (reading (state.workspace.db.model state.workspace.terms)
        (state.workspace.db.model state.workspace.terms \ model))
      (state.workspace.db.model state.workspace.terms)) :
    ∃ task ∈ state.spawned, task.Promises (eagerFrame layout meaning start
      (state.workspace.db.model state.workspace.terms) least lower' elsewhere) strategy
        state.workspace fact := by
  obtain ⟨assignment, values, holds, headEq, factEq⟩ := derived
  obtain ⟨position, deltaEq⟩ := Option.isSome_iff_exists.mp isDelta
  obtain ⟨literal, atSource, isMarked⟩ := DeltaRule.marked_of_deltaPosition? deltaEq
  have inBody := List.mem_of_getElem? atSource
  obtain ⟨atom, literalEq, positive, -⟩ := (implements.proper plan planMember literal inBody).marked
    isMarked
  -- The marked literal holds because of a tuple that is new.
  have marked := holds literal inBody
  simp only [BodyLiteral.Holds, literalEq, isMarked, reading, Literal.Holds, positive] at marked
  obtain ⟨atomValues, atomEq, ⟨tuple, tupleHolds, denotes⟩, unknown⟩ := marked
  have triggers : Task.trigger plan tuple ∈ state.spawned := by
    rcases announced atom.symbol tuple tupleHolds with ⟨values', denotes', known⟩ | triggers
    · obtain rfl : atomValues = values' := denotes.unique denotes'
      exact absurd known unknown
    · exact triggers (fits.deltaSymbol?_eq deltaEq atSource literalEq positive)
  refine ⟨_, triggers, assignment, position, atom, atomValues, deltaEq, by simp [atSource, literalEq],
    ⟨fun other member => ?_, values, headEq, factEq⟩, atomEq, denotes⟩
  refine (holds other member).mono (fun _ _ _ _ known => ?_) fun _ _ _ _ known => known
  exact reading_subset Set.sdiff_subset _ known

theorem mem_model_of_reported {frame : Frame} {triggered : List RulePlan}
    (fits : workspace.Fits frame (.eager triggered)) {fact : GroundFact}
    (reported : workspace.Reported fact) : fact ∈ workspace.db.model workspace.terms := by
  obtain ⟨tuple, denotes, holds | holds⟩ := reported
  · exact ⟨tuple, holds, denotes⟩
  · exact absurd holds (fits.spares _ _)

/-- What the main store shows now is certain for the tasks that run from now on. -/
theorem Workspace.Fits.certify {triggered : List RulePlan}
    (fits : workspace.Fits (eagerFrame layout meaning start model least lower elsewhere) strategy)
    (strategyEq : strategy = .eager triggered)
    (lower' : start ⊆ workspace.db.model workspace.terms) :
    workspace.Fits (eagerFrame layout meaning start (workspace.db.model workspace.terms) least lower'
      elsewhere) strategy := by
  subst strategyEq
  exact { fits with certain := fun _ _ known => known, absorbs := fun _ _ known => known }

/-- The delta rules that read the relation of a tuple are triggered for it unless it was stored
before. -/
theorem Task.Kept.stored_or_triggered {frame : Frame} {task : Task} {state : TaskState}
    (kept : task.Kept frame strategy workspace state) (fits : workspace.Fits frame strategy)
    {plan : RulePlan} (triggered : plan ∈ strategy.triggered) (symbol : RelationSymbol) (tuple : Tuple)
    (holds : state.workspace.db.Holds symbol tuple) :
    (∃ values, state.workspace.terms.DenotesAll tuple values ∧
      (symbol, values) ∈ workspace.db.model workspace.terms) ∨
        (plan.deltaSymbol? = some symbol → Task.trigger plan tuple ∈ state.spawned) := by
  rcases kept.announced symbol tuple holds with before | triggers
  · obtain ⟨values, denotes, -⟩ := fits.possible false symbol tuple
      (by rwa [Workspace.source_false])
    exact .inl ⟨values, denotes.mono kept.grows.terms, tuple, before, denotes⟩
  · exact .inr (triggers plan triggered)

/-- A task that ends well leaves no instance behind. -/
theorem Pursued.step (computes : context.functions.Computes meaning)
    (implements : Implements meaning layout.symbols rules plans)
    (strategyEq : context.strategy = .eager (plans.filter RulePlan.isDeltaRule))
    {task : Task} (stepped : Pool.Stepped context.run task pool later workspace last)
    (ended : (context.run task workspace).outcome = .ok ())
    (underWay : UnderWay (eagerFrame layout meaning start start least (fun _ known => known) elsewhere)
      context.strategy base target pool workspace)
    (pursued : Pursued layout meaning rules context.strategy start least elsewhere pool workspace)
    (room : last.terms.HasRoom) :
    Pursued layout meaning rules context.strategy start least elsewhere later last := by
  have underWayLater := underWay.step computes stepped room
  -- What the main store shows now is certain while the task runs.
  have fits := underWay.fits.certify strategyEq pursued.lower
  have growing : context.strategy.growing layout.symbols = layout.symbols := by
    rw [strategyEq]
    rfl
  obtain ⟨state, workspaceEq, spawnedEq, -, kept⟩ := context.exists_stopped computes fits
    (fun plan member => (underWay.triggered plan member).recertified)
    (underWay.sound task stepped.taken).recertified (stepped.state_eq ▸ room)
  obtain rfl : state.workspace = last := workspaceEq.trans stepped.state_eq.symm
  have kept := kept ended
  have grown : workspace.db.model workspace.terms ⊆
      state.workspace.db.model state.workspace.terms :=
    kept.grows.db.model_subset kept.grows.terms
  have within : state.workspace.db.Within state.workspace.terms least := by
    rw [← Workspace.source_false context.strategy]
    exact kept.ready.fits.possible false
  have upper := within.model_subset
  refine ⟨pursued.lower.trans grown, ?_⟩
  rintro fact ⟨rule, ruleMember, derived⟩
  have split : ∀ fact ∈ state.workspace.db.model state.workspace.terms,
      fact ∈ workspace.db.model workspace.terms ∨
        fact ∈ state.workspace.db.model state.workspace.terms \
          workspace.db.model workspace.terms ∧ fact.1 ∈ layout.symbols := by
    intro fact known
    by_cases before : fact ∈ workspace.db.model workspace.terms
    · exact .inl before
    · refine .inr ⟨⟨known, before⟩, ?_⟩
      by_contra outside
      exact before (pursued.lower (elsewhere fact (upper known) outside))
  rcases DeltaRule.consequences_subset_union split derived with old | new
  · -- The instance held before the task, so that it was pursued then.
    have before : fact ∈ consequences meaning rules (workspace.db.model workspace.terms)
        (workspace.db.model workspace.terms) :=
      ⟨rule, ruleMember, Rule.consequences_subset (fun _ _ _ _ known => known)
        (fun _ _ _ _ known => grown known) old⟩
    rcases pursued.pursued fact before with known | atStart | ⟨other, waiting, promises⟩
    · exact .inl (grown known)
    · exact .inr (.inl atStart)
    · rcases kept.promised_after stepped spawnedEq waiting promises with
        reported | ⟨next, waitingLater, nextPromises⟩
      · exact .inl (mem_model_of_reported (strategyEq ▸ underWayLater.fits) reported)
      · exact .inr (.inr ⟨next, waitingLater, nextPromises.grow growing
          (underWayLater.sound next waitingLater).recertified grown upper⟩)
  · -- The instance needs a tuple that the task has stored, so that the task has triggered the rule.
    obtain ⟨variant, variantMember, isDelta, derived⟩ := new
    obtain ⟨plan, planMember, standsFor⟩ := implements.complete rule ruleMember variant variantMember
    rw [← standsFor.consequences_eq] at derived
    have planIsDelta : plan.isDeltaRule = true := by rw [standsFor.isDeltaRule_eq, isDelta]
    have triggered : plan ∈ context.strategy.triggered := by
      rw [strategyEq]
      exact List.mem_filter.mpr ⟨planMember, planIsDelta⟩
    have planFits := (underWayLater.triggered plan triggered).fits
    obtain ⟨next, spawned, promises⟩ := exists_trigger_of_new implements planMember planIsDelta
      planFits (pursued.lower.trans grown) (kept.stored_or_triggered fits triggered) derived
    exact .inr (.inr ⟨next, stepped.spawned next (spawnedEq ▸ spawned), promises⟩)

/-- As long as no task fails, no instance is lost while a pool is drained. -/
theorem Pursued.drain (computes : context.functions.Computes meaning)
    (implements : Implements meaning layout.symbols rules plans)
    (strategyEq : context.strategy = .eager (plans.filter RulePlan.isDeltaRule))
    {order : Nat → Nat} {fuel : Nat}
    (drained : pool.drain context.run order fuel workspace = some (later, last))
    (underWay : UnderWay (eagerFrame layout meaning start start least (fun _ known => known) elsewhere)
      context.strategy base target pool workspace)
    (pursued : Pursued layout meaning rules context.strategy start least elsewhere pool workspace)
    (room : last.terms.HasRoom) (noFailure : later.failures = []) :
    Pursued layout meaning rules context.strategy start least elsewhere later last := by
  refine (TaskContext.drain_without_failure (motive := fun pool state =>
    UnderWay (eagerFrame layout meaning start start least (fun _ known => known) elsewhere)
      context.strategy base target pool state ∧
      Pursued layout meaning rules context.strategy start least elsewhere pool state)
    ?_ drained ⟨underWay, pursued⟩ noFailure room).2
  rintro task pool later workspace last stepped room ended ⟨underWay, pursued⟩
  exact ⟨underWay.step computes stepped room,
    pursued.step computes implements strategyEq stepped ended underWay room⟩

namespace FixpointContext

variable {schema : Schema} {machine : Machine} {context : FixpointContext}

/-- Running all rules of a stratum eagerly closes the main store under them. -/
theorem runRules_closes (prepared : context.Prepared schema layout meaning rules)
    (onTheWay : machine.OnTheWay schema meaning rules start start)
    (fits : ∀ plan ∈ context.rules,
      plan.Fits layout (.eager context.deltaRules) machine.workspace) :
    LeavesWithRoom (context.runRules (.eager context.deltaRules) context.rules) machine
      (fun _ later => consequences meaning rules (later.workspace.db.model later.workspace.terms)
        (later.workspace.db.model later.workspace.terms) ⊆
          later.workspace.db.model later.workspace.terms)
      fun _ _ => True := by
  have elsewhere := elsewhere_of_prepared prepared start
  have declared : ∀ symbol ∈ layout.symbols, symbol ∈ schema.declared := fun symbol member =>
    schema.derived_subset symbol (prepared.derived symbol member)
  have sound := sound_eager prepared onTheWay.lower fits
  refine .get_bind ?_
  extract_lets tasks pool
  have underWay := underWay_submitAll onTheWay.atRest.idle
    (fits_eager onTheWay elsewhere declared context.deltaRules)
    (fun plan member => sound plan (List.mem_filter.mp member).1) sound
  have modelEq := onTheWay.atRest.stores.db_shows.model_eq
  have pursued : Pursued layout meaning rules tasks.strategy start
      (leastModel meaning rules start start) elsewhere pool machine.workspace := by
    refine ⟨modelEq ▸ fun _ known => known, fun fact derived => .inr (.inl ?_)⟩
    rwa [modelEq] at derived
  split
  · exact .throw trivial
  · next last workspace drained =>
      unfold LeavesWithRoom
      rw [leaves_bind, leaves_set]
      split
      · exact fun _ => trivial
      · next succeeded =>
          intro room fact derived
          have noFailure : last.failures = [] := List.head?_eq_none_iff.mp succeeded
          have empty := Pool.queue_eq_nil_of_drain drained
          obtain ⟨lastFits, -, reported⟩ := UnderWay.drain prepared.computes underWay drained room
          have done := pursued.drain prepared.computes prepared.implements rfl drained underWay room
            noFailure
          rcases done.pursued fact derived with known | atStart | ⟨task, waiting, -⟩
          · exact known
          · have planned := prepared.implements.consequences_subset (fun _ => start) start
              (fun _ known _ => known) atStart
            exact mem_model_of_reported lastFits (reported noFailure fact planned)
          · simp [empty] at waiting

/-- A pass over all rules of a stratum reaches the least model at once. -/
theorem pass_settles (prepared : context.Prepared schema layout meaning rules)
    (outside : NegatesOutside rules)
    (onTheWay : machine.OnTheWay schema meaning rules start start)
    (fits : ∀ plan ∈ context.rules,
      plan.Fits layout (.eager context.deltaRules) machine.workspace) :
    LeavesWithRoom (context.pass context.rules) machine
      (fun added later => Machine.Passed schema layout meaning rules start start
        (leastModel meaning rules start start) added later machine)
      fun _ _ => True := by
  have closes : LeavesWithRoom (context.pass context.rules) machine
      (fun _ later => consequences meaning rules (later.workspace.db.model later.workspace.terms)
        (later.workspace.db.model later.workspace.terms) ⊆
          later.workspace.db.model later.workspace.terms)
      fun _ _ => True :=
    .get_bind ((runRules_closes prepared onTheWay fits).bind (fun _ => .get_bind fun _ => .pure)
      fun _ _ closed => .get_bind (.pure closed))
  refine ((pass_leaves prepared onTheWay fits fun _ member => member).and closes).mono ?_
    fun _ _ _ => trivial
  rintro added later ⟨⟨next, passed, -⟩, closed⟩
  rw [passed.onTheWay.atRest.stores.db_shows.model_eq] at closed
  obtain rfl := eq_leastModel_of_closed outside passed.onTheWay.lower passed.onTheWay.upper closed
  exact passed

/-- When the least model has been reached, the first sweep adds nothing, so that it is the last. -/
theorem sweeps_of_settled (prepared : context.Prepared schema layout meaning rules)
    (onTheWay : machine.OnTheWay schema meaning rules start (leastModel meaning rules start start))
    (fits : ∀ plan ∈ context.rules,
      plan.Fits layout (.eager context.deltaRules) machine.workspace) (fuel : Nat) :
    LeavesWithRoom (context.sweeps fuel) machine
      (fun deltas later => deltas = [0] ∧ later.workspace.derived = machine.workspace.derived)
      fun _ _ => True := by
  cases fuel with
  | zero => exact .throw trivial
  | succ fuel =>
      have fromRules : ∀ plan ∈ context.deltaRules, plan ∈ context.rules :=
        fun plan member => (List.mem_filter.mp member).1
      have first := (pass_leaves prepared onTheWay fits fromRules).mono (fun _ _ done => done)
        fun _ _ _ => trivial
      refine first.bind (fun _ => .ite .pure (.bind (interns_sweeps fuel) fun _ => .pure)) ?_
      rintro added later ⟨next, passed, -⟩
      obtain rfl : next = leastModel meaning rules start start :=
        Set.Subset.antisymm passed.onTheWay.upper passed.grows
      -- The store shows the same facts as before, so that as many tuples are in it.
      have counted := (total_of_atRest layout onTheWay.atRest.stores passed.onTheWay.atRest.stores
        (fun _ known => known) fun _ known _ => known).1
      rw [Set.sdiff_self, Set.ncard_empty, passed.total] at counted
      have nothing : added = 0 := by omega
      rw [if_pos nothing]
      exact .pure ⟨rfl, by rw [passed.derived, nothing, Nat.add_zero]⟩

def firstPass (context : FixpointContext) : RunM Nat := do
  updateWorkspace fun workspace => ((), { workspace with derived := 0 })
  context.pass context.rules

theorem evaluateEagerly_eq (rank : Nat) : context.evaluateEagerly rank = (do
    let first ← context.firstPass
    let others ← context.sweeps context.fuel
    return { rank, roundDeltas := first :: others, sweeps := others.length,
             derived := (← get).workspace.derived }) := by
  simp only [evaluateEagerly, firstPass, bind_assoc]

/-- The first pass of an eager evaluation reaches the least model and counts what it adds. -/
theorem firstPass_leaves (prepared : context.Prepared schema layout meaning rules)
    (outside : NegatesOutside rules) (atRest : machine.AtRest schema model ∅)
    (fits : ∀ plan ∈ context.rules,
      plan.Fits layout (.eager context.deltaRules) machine.workspace) :
    LeavesWithRoom context.firstPass machine
      (fun added later =>
        later.OnTheWay schema meaning rules model (leastModel meaning rules model model) ∧
          (∀ triggered, later.workspace.Keeps (.eager triggered) machine.workspace) ∧
            later.workspace.derived = added)
      fun _ _ => True := by
  have restartKeeps := machine.restarted_keeps
  have settles : LeavesWithRoom (context.pass context.rules) machine.restarted _ _ :=
    pass_settles prepared outside atRest.onTheWay_restarted
      fun plan member => (fits plan member).keep (restartKeeps _)
  refine .modifyGet_bind (settles.mono (fun added later passed => ?_) fun _ _ _ => trivial)
  have none : machine.restarted.workspace.derived = 0 := rfl
  exact ⟨passed.onTheWay, fun triggered => (passed.keeps triggered).trans (restartKeeps triggered),
    by rw [passed.derived, none, Nat.zero_add]⟩

/-- An eager evaluation that ends has run one sweep, which has added nothing. -/
theorem evaluateEagerly_settles (prepared : context.Prepared schema layout meaning rules)
    (outside : NegatesOutside rules) (atRest : machine.AtRest schema model ∅)
    (fits : ∀ plan ∈ context.rules,
      plan.Fits layout (.eager context.deltaRules) machine.workspace) (rank : Nat) :
    LeavesWithRoom (context.evaluateEagerly rank) machine
      (fun stats _ => stats.sweeps = 1 ∧ stats.roundDeltas = [stats.derived, 0])
      fun _ _ => True := by
  rw [evaluateEagerly_eq]
  refine (firstPass_leaves prepared outside atRest fits).bind
    (fun _ => .bind (interns_sweeps _) fun _ => .get_bind fun _ => .pure) ?_
  rintro added middle ⟨onTheWay, keeps, counted⟩
  refine (sweeps_of_settled prepared onTheWay
    (fun plan member => (fits plan member).keep (keeps _)) context.fuel).bind
    (fun _ => .get_bind fun _ => .pure) ?_
  rintro deltas later ⟨rfl, derivedEq⟩
  exact .get_bind (.pure ⟨rfl, by rw [derivedEq, counted]⟩)

end FixpointContext

end Datalog
