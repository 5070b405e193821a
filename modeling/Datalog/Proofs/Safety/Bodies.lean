import Datalog.Proofs.Evaluation.Steps
import Datalog.Proofs.Planning.Strata
import Datalog.Proofs.Safety.Literals

/-!
# Safe plans and tasks

A plan that was made from an ordered rule is safe: before each of its literals the variables that the
literal asks for have values.  A task is safe if its plan is, if the slots that it starts with have the
values that its place in the plan requires, and if its tuples have the columns of their relations.  The
body of a safe plan is run to its end unless a call fails, and all that it spawns are safe tasks.
-/

namespace Datalog

/-! ## Safe plans -/

/-- What a plan was made with. -/
structure RulePlan.Origin where
  separateDeltas : Bool
  resources : Planner.Resources
  names : List String

/-- A plan was made from a rule in an evaluable order that gives a value to every variable of the head,
and the literals that are marked are positive atoms. -/
structure RulePlan.Safe (functions : Registry) (origin : RulePlan.Origin) (plan : RulePlan) :
    Prop where
  made : plan.Made functions origin.separateDeltas origin.resources origin.names
  evaluable : JoinOrder.EvaluableFrom plan.source.varCount [] plan.source.body
  head_bound : ∀ name ∈ plan.source.head.vars, name ∈ plan.source.body.flatMap BodyLiteral.vars
  head_length : plan.source.head.args.length = plan.headSymbol.arity
  marked : ∀ literal ∈ plan.source.body, literal.delta = true →
    ∃ atom, literal.literal = .predicate atom ∧ atom.negated = false

/-- A rule triggered by a tuple matches it before it scans anything. -/
structure RulePlan.Triggerable (functions : Registry) (plan : RulePlan) : Prop where
  safe : ∃ origin, plan.Safe functions origin
  deltaFirst : plan.source.isDeltaFirst = true

/-- The variables that have values before the literal at a position is evaluated. -/
def RulePlan.knownBefore (plan : RulePlan) (position : Nat) : Set String :=
  JoinOrder.known plan.source.varCount
    ((plan.source.body.take position).flatMap BodyLiteral.vars)

namespace Planner

variable {context : Context} {state : State} {count : String → Nat} {bound : List String}
  {planned : List PlanLiteral} {body : List BodyLiteral}

theorem PlannedBody.length_eq (plannedBody : PlannedBody context state count bound planned body) :
    planned.length = body.length := by
  induction body generalizing bound planned with
  | nil =>
      cases planned with
      | nil => rfl
      | cons => exact plannedBody.elim
  | cons literal body ih =>
      cases planned with
      | nil => exact plannedBody.elim
      | cons planned others => exact congrArg (· + 1) (ih plannedBody.2)

/-- The literal at a position has been planned and can be evaluated after those before it. -/
theorem PlannedBody.at_position
    (plannedBody : PlannedBody context state count bound planned body)
    (evaluable : JoinOrder.EvaluableFrom count bound body) {position : Nat} {plan : PlanLiteral}
    {literal : BodyLiteral} (atPlan : planned[position]? = some plan)
    (atBody : body[position]? = some literal) :
    PlannedLiteral context state count
        (bound ++ (body.take position).flatMap BodyLiteral.vars) plan literal ∧
      JoinOrder.isEvaluable count (bound ++ (body.take position).flatMap BodyLiteral.vars)
        literal.literal = true := by
  induction body generalizing bound planned position with
  | nil => simp at atBody
  | cons first body ih =>
      cases planned with
      | nil => exact plannedBody.elim
      | cons plannedFirst others =>
          cases position with
          | zero =>
              obtain rfl := Option.some.inj atPlan
              obtain rfl := Option.some.inj atBody
              simpa using ⟨plannedBody.1, evaluable.1⟩
          | succ position =>
              have rest := ih plannedBody.2 evaluable.2 atPlan atBody
              simpa using rest

end Planner

namespace RulePlan.Safe

variable {functions : Registry} {origin : RulePlan.Origin} {plan : RulePlan} {position : Nat}
  {planned : PlanLiteral} {literal : BodyLiteral}

/-- What a safe plan says about one of its literals. -/
structure Literal (functions : Registry) (origin : RulePlan.Origin) (plan : RulePlan)
    (position : Nat) (planned : PlanLiteral) (literal : BodyLiteral) : Prop where
  atSource : plan.source.body[position]? = some literal
  planned : Planner.PlannedLiteral
    { functions, site := .inRule plan.source, separateDeltas := origin.separateDeltas }
    { resources := origin.resources, names := origin.names } plan.source.varCount
    ((plan.source.body.take position).flatMap BodyLiteral.vars) planned literal
  evaluable : JoinOrder.isEvaluable plan.source.varCount
    ((plan.source.body.take position).flatMap BodyLiteral.vars) literal.literal = true
  repeats : literal.Repeats plan.source.varCount
    ((plan.source.body.take position).flatMap BodyLiteral.vars)
  known_succ : plan.knownBefore (position + 1) = JoinOrder.known plan.source.varCount
    ((plan.source.body.take position).flatMap BodyLiteral.vars ++ literal.vars)

theorem length_eq (safe : plan.Safe functions origin) :
    plan.body.length = plan.source.body.length :=
  safe.made.body.length_eq

theorem literal_of_source (safe : plan.Safe functions origin)
    (atPlan : plan.body[position]? = some planned)
    (atSource : plan.source.body[position]? = some literal) :
    Literal functions origin plan position planned literal := by
  obtain ⟨plannedHere, evaluable⟩ := safe.made.body.at_position safe.evaluable atPlan atSource
  refine ⟨atSource, plannedHere, evaluable, fun name here before => ?_, ?_⟩
  · -- The name occurs among the literals before, and here again.
    have early := List.count_pos_iff.mpr before
    have now := List.count_pos_iff.mpr here
    have occurrences : plan.source.varCount name = plan.source.head.vars.count name +
        (((plan.source.body.take position).flatMap BodyLiteral.vars).count name +
          (literal.vars.count name +
            ((plan.source.body.drop (position + 1)).flatMap BodyLiteral.vars).count name)) := by
      conv_lhs => rw [DeltaRule.varCount, DeltaRule.occurrences,
        ← List.take_append_drop position plan.source.body, drop_eq_cons atSource]
      simp [List.flatMap_append, List.count_append]
    omega
  · unfold knownBefore
    rw [List.take_add_one, atSource, Option.toList_some, List.flatMap_append, List.flatMap_singleton]

theorem exists_literal (safe : plan.Safe functions origin)
    (atPlan : plan.body[position]? = some planned) :
    ∃ literal, Literal functions origin plan position planned literal := by
  have inside : position < plan.source.body.length :=
    safe.length_eq ▸ (List.getElem?_eq_some_iff.mp atPlan).1
  exact ⟨_, safe.literal_of_source atPlan (List.getElem?_eq_getElem inside)⟩

theorem head_known (safe : plan.Safe functions origin) :
    ∀ name ∈ Term.varsList plan.source.head.args, name ∈ plan.knownBefore plan.body.length := by
  intro name inHead
  have inBody := safe.head_bound name inHead
  refine ⟨by rwa [safe.length_eq, List.take_length], ?_⟩
  have once := List.count_pos_iff.mpr inBody
  have again : 0 < plan.source.head.vars.count name := List.count_pos_iff.mpr inHead
  rw [DeltaRule.varCount, DeltaRule.occurrences, List.count_append]
  omega

theorem knownBefore_zero (plan : RulePlan) : plan.knownBefore 0 = ∅ := by
  ext name
  simp [knownBefore, JoinOrder.known]

end RulePlan.Safe

/-! ## Safe tasks -/

/-- A task can be run without coming upon an unknown variable. -/
def Task.Safe (functions : Registry) : Task → Prop
  | .load .. => False
  | .evaluate plan => ∃ origin, plan.Safe functions origin
  | .scan plan position substitution view => ∃ origin, plan.Safe functions origin ∧
      substitution.Knows origin.names (plan.knownBefore position) ∧
        ∃ atom, plan.body[position]? = some (.scan atom) ∧ view.Sized atom.symbol.arity
  | .trigger plan tuple => plan.Triggerable functions ∧
      ∀ symbol, plan.deltaSymbol? = some symbol → tuple.length = symbol.arity

/-- The stores of a running task are valid, and the tasks that it has spawned are safe. -/
structure TaskState.InOrder (functions : Registry) (state : TaskState) : Prop where
  stores : state.workspace.StoresValid
  spawned : ∀ task ∈ state.spawned, task.Safe functions

/-- A task has stopped because a call has failed, and has left everything in order. -/
def TaskState.StoppedByCall (functions : Registry) (error : TaskError) (later : TaskState) : Prop :=
  later.InOrder functions ∧ error.ComesFromCall functions

variable {context : TaskContext} {plan : RulePlan} {origin : RulePlan.Origin} {state : TaskState}

theorem TaskState.InOrder.withBindings (inOrder : state.InOrder context.functions)
    (bindings : Bindings) : (state.withBindings bindings).InOrder context.functions :=
  ⟨{ inOrder.stores with }, inOrder.spawned⟩

theorem TaskState.InOrder.withSubstitution (inOrder : state.InOrder context.functions)
    (substitution : Substitution) :
    ({ state with substitution } : TaskState).InOrder context.functions :=
  ⟨inOrder.stores, inOrder.spawned⟩

theorem TaskState.InOrder.spawn (inOrder : state.InOrder context.functions) {task : Task}
    (safe : task.Safe context.functions) :
    Leaves (TaskM.spawn task) state
      (fun _ later => later.InOrder context.functions ∧ later.substitution = state.substitution)
      (TaskState.StoppedByCall context.functions) := by
  refine ⟨⟨inOrder.stores, fun other member => ?_⟩, rfl⟩
  rcases List.mem_append.mp member with before | here
  · exact inOrder.spawned other before
  · exact List.mem_singleton.mp here ▸ safe

/-- A step runs from any state in which certain variables are known, and leaves their slots as they
were. -/
def TaskM.RunsFrom (functions : Registry) (names : List String) (known : Set String)
    (step : TaskM Unit) : Prop :=
  ∀ state : TaskState, state.InOrder functions → state.substitution.Knows names known →
    Leaves step state
      (fun _ later => later.InOrder functions ∧ later.substitution = state.substitution)
      (TaskState.StoppedByCall functions)

variable {names : List String} {known : Set String}

theorem TaskM.Checks.stopped {functions : Registry} {error : TaskError} {later : TaskState}
    (inOrder : state.InOrder functions)
    (stopped : (∃ bindings, later = state.withBindings bindings) ∧ error.ComesFromCall functions) :
    TaskState.StoppedByCall functions error later := by
  obtain ⟨⟨bindings, rfl⟩, failed⟩ := stopped
  exact ⟨⟨{ inOrder.stores with }, inOrder.spawned⟩, failed⟩

theorem undoing_safe {check : TaskM Bool} {step : TaskM Unit}
    (checks : TaskM.Checks context.functions names known check state)
    (runs : TaskM.RunsFrom context.functions names known step)
    (inOrder : state.InOrder context.functions) :
    Leaves (TaskM.undoing do if ← check then step) state
      (fun _ later => later.InOrder context.functions ∧ later.substitution = state.substitution)
      (TaskState.StoppedByCall context.functions) := by
  have stepped : Leaves (do if ← check then step) state
      (fun _ later => later.InOrder context.functions ∧
        later.substitution.Extends state.substitution)
      (TaskState.StoppedByCall context.functions) := by
    refine (checks.imp_stopped fun _ _ => TaskM.Checks.stopped inOrder).bind ?_
    rintro success _ ⟨bindings, rfl, extended, learned⟩
    cases success with
    | true =>
        refine (runs _ (inOrder.withBindings bindings) (learned rfl)).imp_done ?_
        rintro _ later ⟨laterInOrder, same⟩
        exact ⟨laterInOrder, same ▸ extended⟩
    | false => exact ⟨inOrder.withBindings bindings, extended⟩
  refine stepped.bind ?_
  rintro _ later ⟨laterInOrder, extended⟩
  exact ⟨laterInOrder.withSubstitution _, extended.rollback_eq⟩

/-! ## Reports -/

theorem triggerRules_safe {symbol : RelationSymbol} {tuple : Tuple}
    (length : tuple.length = symbol.arity) {rules : List RulePlan}
    (triggerable : ∀ plan ∈ rules, plan.Triggerable context.functions)
    (inOrder : state.InOrder context.functions) :
    Leaves (TaskContext.triggerRules symbol tuple rules) state
      (fun _ later => later.InOrder context.functions ∧ later.substitution = state.substitution)
      (TaskState.StoppedByCall context.functions) := by
  induction rules generalizing state with
  | nil => exact ⟨inOrder, rfl⟩
  | cons rule rules ih =>
      have others := fun (later : TaskState) (laterInOrder : later.InOrder context.functions) =>
        ih (fun plan member => triggerable plan (List.mem_cons_of_mem _ member)) laterInOrder
      unfold TaskContext.triggerRules
      split
      · next reads =>
          have safe : (Task.trigger rule tuple).Safe context.functions := by
            refine ⟨triggerable rule List.mem_cons_self, fun other reads' => ?_⟩
            obtain rfl := Option.some.inj (reads.symm.trans reads')
            exact length
          refine (inOrder.spawn safe).bind ?_
          rintro _ later ⟨laterInOrder, same⟩
          exact same ▸ others later laterInOrder
      · exact others state inOrder

theorem record_safe {symbol : RelationSymbol} {tuple : Tuple} (length : tuple.length = symbol.arity)
    (triggerable : ∀ plan ∈ context.strategy.triggered, plan.Triggerable context.functions)
    (inOrder : state.InOrder context.functions) :
    Leaves (context.record symbol tuple) state
      (fun _ later => later.InOrder context.functions ∧ later.substitution = state.substitution)
      (TaskState.StoppedByCall context.functions) := by
  unfold TaskContext.record
  split
  · rw [leaves_bind, TaskM.updateWorkspace, leaves_modifyGet]
    have collected := inOrder.stores.collect length
    dsimp only
    split
    · exact ⟨⟨{ collected with }, inOrder.spawned⟩, rfl⟩
    · exact ⟨⟨collected, inOrder.spawned⟩, rfl⟩
  · next rules strategyEq =>
      rw [leaves_bind, TaskM.updateWorkspace, leaves_modifyGet]
      have stored := inOrder.stores.store length
      dsimp only
      split
      · rw [leaves_bind, TaskM.updateWorkspace, leaves_modifyGet]
        rw [strategyEq] at triggerable
        have counted : TaskState.InOrder context.functions
            { state with workspace := (state.workspace.store symbol tuple).2.countDerived } :=
          ⟨{ stored with }, inOrder.spawned⟩
        exact triggerRules_safe length triggerable counted
      · exact ⟨⟨stored, inOrder.spawned⟩, rfl⟩

theorem report_safe (safe : plan.Safe context.functions origin)
    (triggerable : ∀ plan ∈ context.strategy.triggered, plan.Triggerable context.functions) :
    TaskM.RunsFrom context.functions origin.names (plan.knownBefore plan.body.length)
      (context.report plan) := by
  intro state inOrder knows
  have evaluated := PlanTerm.evalList_safe plan.head safe.made.head.represents
    safe.made.head.callable (show state.bindings.substitution.Knows _ _ from knows) safe.head_known
  unfold TaskContext.report
  refine ((TaskM.leaves_ofBindM evaluated).imp_stopped ?_).bind ?_
  · rintro error _ ⟨bindings, rfl, failed⟩
    exact ⟨inOrder.withBindings bindings, failed⟩
  · rintro tuple _ ⟨bindings, rfl, length, same⟩
    have tupleLength : tuple.length = plan.headSymbol.arity := by
      rw [length, safe.made.head.represents.length_eq, safe.head_length]
    refine (record_safe tupleLength triggerable (inOrder.withBindings bindings)).imp_done ?_
    rintro _ later ⟨laterInOrder, same'⟩
    exact ⟨laterInOrder, same'.trans same⟩

/-! ## Scans -/

/-- An atom that a safe plan scans at a position. -/
structure RulePlan.Safe.Scans (functions : Registry) (origin : RulePlan.Origin) (plan : RulePlan)
    (position : Nat) (atom : PlanAtom) (source : Atom) : Prop where
  safe : plan.Safe functions origin
  literal : RulePlan.Safe.Literal functions origin plan position (.scan atom)
    { literal := .predicate source, delta := atom.delta }
  positive : source.negated = false
  planned : Planner.PlannedAtom
    { functions, site := .inRule plan.source, separateDeltas := origin.separateDeltas }
    { resources := origin.resources, names := origin.names } plan.source.varCount
    ((plan.source.body.take position).flatMap BodyLiteral.vars) atom source atom.delta

theorem RulePlan.Safe.exists_scans {functions : Registry} (safe : plan.Safe functions origin)
    {position : Nat} {atom : PlanAtom} (atPlan : plan.body[position]? = some (.scan atom)) :
    ∃ source, Scans functions origin plan position atom source := by
  obtain ⟨⟨literal, delta⟩, isLiteral⟩ := safe.exists_literal atPlan
  have planned := isLiteral.planned
  unfold Planner.PlannedLiteral at planned
  split at planned
  · next planEq => cases planEq
  · next planEq => cases planEq
  · next source _ literalEq planEq =>
      cases planEq
      obtain rfl : literal = .predicate source := literalEq
      obtain rfl : atom.delta = delta := planned.2.delta_eq
      exact ⟨source, safe, isLiteral, planned.1, planned.2⟩
  · next planEq => cases planEq
  · exact planned.elim

namespace RulePlan.Safe.Scans

variable {position : Nat} {atom : PlanAtom} {source : Atom}

theorem lookup_safe (scans : Scans context.functions origin plan position atom source)
    (inOrder : state.InOrder context.functions)
    (knows : state.substitution.Knows origin.names (plan.knownBefore position)) :
    Leaves (context.lookup atom) state
      (fun view later => later.InOrder context.functions ∧ view.Sized atom.symbol.arity ∧
        later.substitution = state.substitution)
      (TaskState.StoppedByCall context.functions) := by
  refine (scans.planned.lookup_safe rfl scans.literal.repeats inOrder.stores knows).mono ?_
    fun _ _ => TaskM.Checks.stopped inOrder
  rintro view _ ⟨sized, bindings, rfl, same⟩
  exact ⟨inOrder.withBindings bindings, sized, same⟩

theorem matchColumns_checks (scans : Scans context.functions origin plan position atom source)
    (checkBound : Bool) {tuple : Tuple} (length : tuple.length = atom.symbol.arity)
    (knows : state.substitution.Knows origin.names (plan.knownBefore position)) :
    TaskM.Checks context.functions origin.names (plan.knownBefore (position + 1))
      (TaskM.ofBindM (matchColumns context.functions checkBound atom.args atom.pattern tuple))
      state := by
  have evaluable := scans.literal.evaluable
  simp only [JoinOrder.isEvaluable, scans.positive, Bool.false_eq_true, if_false] at evaluable
  have matched := scans.planned.matchColumns_safe rfl scans.safe.made.names_nodup
    scans.literal.repeats (fun arg member => List.all_eq_true.mp evaluable arg member) checkBound
    (show state.bindings.substitution.Knows _ _ from knows) length
  rw [scans.literal.known_succ]
  exact TaskM.checks_ofBindM matched

variable {continuation : TaskM Unit}

theorem scanTuples_safe (scans : Scans context.functions origin plan position atom source)
    (runs : TaskM.RunsFrom context.functions origin.names (plan.knownBefore (position + 1))
      continuation)
    {tuples : List Tuple} (lengths : ∀ tuple ∈ tuples, tuple.length = atom.symbol.arity) :
    TaskM.RunsFrom context.functions origin.names (plan.knownBefore position)
      (context.scanTuples atom continuation tuples) := by
  induction tuples with
  | nil => exact fun state inOrder _ => ⟨inOrder, rfl⟩
  | cons tuple tuples ih =>
      intro state inOrder knows
      have checks := scans.matchColumns_checks false (lengths tuple List.mem_cons_self) knows
      refine (undoing_safe checks runs inOrder).bind ?_
      rintro _ middle ⟨middleInOrder, same⟩
      rw [← same] at knows ⊢
      exact ih (fun other member => lengths other (List.mem_cons_of_mem _ member)) middle
        middleInOrder knows

/-- A range is read from the store as it is when it is read, whose tuples have the right length at any
time. -/
theorem scanRange_safe (scans : Scans context.functions origin plan position atom source)
    (runs : TaskM.RunsFrom context.functions origin.names (plan.knownBefore (position + 1))
      continuation) (chunks : Nat) (keys : KeyRange) :
    TaskM.RunsFrom context.functions origin.names (plan.knownBefore position)
      (context.scanRange atom continuation chunks keys) := by
  induction chunks generalizing keys with
  | zero => exact fun state inOrder _ => ⟨inOrder, rfl⟩
  | succ chunks ih =>
      intro state inOrder knows
      unfold TaskContext.scanRange
      rw [leaves_bind, leaves_get]
      have lengths := (inOrder.stores.storeFor context atom).index_lengths atom.symbol atom.index
      have chunkLengths : ∀ tuple ∈
          ((context.indexFor atom state.workspace).readChunk keys).1,
            tuple.length = atom.symbol.arity := by
        intro tuple member
        obtain ⟨entry, inIndex, -, rfl⟩ := Index.mem_readChunk member
        exact lengths entry inIndex
      dsimp only
      refine (scans.scanTuples_safe runs chunkLengths state inOrder knows).bind ?_
      rintro _ middle ⟨middleInOrder, same⟩
      split
      · exact ⟨middleInOrder, same⟩
      · rw [← same] at knows ⊢
        exact ih _ middle middleInOrder knows

theorem scanView_safe (scans : Scans context.functions origin plan position atom source)
    (runs : TaskM.RunsFrom context.functions origin.names (plan.knownBefore (position + 1))
      continuation) {view : View} (sized : view.Sized atom.symbol.arity) :
    TaskM.RunsFrom context.functions origin.names (plan.knownBefore position)
      (context.scanView atom continuation view) := by
  cases view with
  | array tuples => exact scans.scanTuples_safe runs sized
  | range keys count => exact scans.scanRange_safe runs _ keys

end RulePlan.Safe.Scans

/-! ## Bodies -/

theorem RulePlan.Safe.filter_checks (safe : plan.Safe context.functions origin) {position : Nat}
    {planned : PlanLiteral} (atPlan : plan.body[position]? = some planned)
    (noScan : planned.isScan = false) (inOrder : state.InOrder context.functions)
    (knows : state.substitution.Knows origin.names (plan.knownBefore position)) :
    TaskM.Checks context.functions origin.names (plan.knownBefore (position + 1))
      (context.filter planned) state := by
  obtain ⟨literal, isLiteral⟩ := safe.exists_literal atPlan
  rw [isLiteral.known_succ]
  exact Datalog.filter_checks isLiteral.planned rfl safe.made.names_nodup isLiteral.evaluable
    isLiteral.repeats noScan inOrder.stores knows

/-- What remains of the body of a safe plan is run unless a call fails. -/
theorem RulePlan.Safe.evalBody_safe (safe : plan.Safe context.functions origin)
    (triggerable : ∀ plan ∈ context.strategy.triggered, plan.Triggerable context.functions)
    {body : List PlanLiteral} {position : Nat} (bodyEq : plan.body.drop position = body)
    (inside : position ≤ plan.body.length) :
    TaskM.RunsFrom context.functions origin.names (plan.knownBefore position)
      (context.evalBody plan body) := by
  induction body generalizing position with
  | nil =>
      obtain rfl : position = plan.body.length :=
        Nat.le_antisymm inside (List.drop_eq_nil_iff.mp bodyEq)
      exact report_safe safe triggerable
  | cons planned body ih =>
      have atPlan : plan.body[position]? = some planned := by
        have := congrArg (·[0]?) bodyEq
        simpa using this
      have further : position + 1 ≤ plan.body.length :=
        (List.getElem?_eq_some_iff.mp atPlan).1
      have laterEq : plan.body.drop (position + 1) = body := by
        rw [← List.drop_drop, bodyEq]
        rfl
      have rest := ih laterEq further
      intro state inOrder knows
      cases planned with
      | scan atom =>
          obtain ⟨source, scans⟩ := safe.exists_scans atPlan
          unfold TaskContext.evalBody
          refine (scans.lookup_safe inOrder knows).bind ?_
          rintro view middle ⟨middleInOrder, sized, same⟩
          rw [← same] at knows ⊢
          exact scans.scanView_safe rest sized middle middleInOrder knows
      | _ => exact undoing_safe (safe.filter_checks atPlan rfl inOrder knows) rest inOrder

end Datalog
