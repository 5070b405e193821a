import Datalog.Proofs.Planning.Rewording
import Datalog.Proofs.Pool

/-!
# Rewording rules before a run

A task does not look at the rule that its plan was made from, apart from the relation of the head and
the place of the delta literal.  So tasks whose plans come from reworded rules do the same to the stores
as the others, fail with the same errors, and spawn the same tasks, with the rules reworded.
-/

namespace Datalog

variable {rewording : Rewording}

/-! ## Steps that mirror each other -/

/-- The result of a step, with the state changed that it leaves. -/
def changedBy {ε σ α : Type} (change : σ → σ) : EStateM.Result ε σ α → EStateM.Result ε σ α
  | .ok value state => .ok value (change state)
  | .error error state => .error error (change state)

/-- A step does in changed states what another does, and leaves the state changed alike. -/
def Mirrors {ε σ α : Type} (change : σ → σ) (first second : EStateM ε σ α) : Prop :=
  ∀ state, second (change state) = changedBy change (first state)

namespace Mirrors

variable {ε σ α β : Type} {change : σ → σ}

theorem pure {value : α} : Mirrors change (pure value : EStateM ε σ α) (pure value) :=
  fun _ => rfl

theorem throw {error : ε} : Mirrors change (throw error : EStateM ε σ α) (throw error) :=
  fun _ => rfl

theorem bind {first second : EStateM ε σ α} {next next' : α → EStateM ε σ β}
    (mirrors : Mirrors change first second)
    (nextMirrors : ∀ value, Mirrors change (next value) (next' value)) :
    Mirrors change (first >>= next) (second >>= next') := by
  intro state
  change EStateM.bind second next' (change state) = changedBy change (EStateM.bind first next state)
  unfold EStateM.bind
  rw [mirrors state]
  cases first state with
  | ok value middle => exact nextMirrors value middle
  | error => rfl

theorem get_bind {next next' : σ → EStateM ε σ β}
    (nextMirrors : ∀ state, Mirrors change (next state) (next' (change state))) :
    Mirrors change (get >>= next) (get >>= next') :=
  fun state => nextMirrors state state

theorem set_bind {state state' : σ} {next next' : PUnit → EStateM ε σ β}
    (same : state' = change state) (nextMirrors : Mirrors change (next ⟨⟩) (next' ⟨⟩)) :
    Mirrors change (set state >>= next) (set state' >>= next') := by
  subst same
  exact fun _ => nextMirrors state

theorem modifyGet {update update' : σ → α × σ}
    (same : ∀ state, update' (change state) = ((update state).1, change (update state).2)) :
    Mirrors change (modifyGet update : EStateM ε σ α) (modifyGet update') := by
  intro state
  change EStateM.modifyGet update' (change state) = _
  unfold EStateM.modifyGet
  rw [same]
  rfl

theorem modify {update update' : σ → σ}
    (same : ∀ state, update' (change state) = change (update state)) :
    Mirrors change (modify update : EStateM ε σ PUnit) (modify update') :=
  .modifyGet fun state => by rw [same]

theorem ite {condition : Prop} [Decidable condition] {first second first' second' : EStateM ε σ α}
    (mirrors : Mirrors change first first') (mirrors' : Mirrors change second second') :
    Mirrors change (if condition then first else second)
      (if condition then first' else second') := by
  split
  · exact mirrors
  · exact mirrors'

end Mirrors

/-! ## Rewording -/

/-- A task whose rule has been reworded. -/
def Task.reword (rewording : Rewording) : Task → Task
  | .load symbol facts => .load symbol facts
  | .evaluate plan => .evaluate (plan.reword rewording)
  | .scan plan position substitution view => .scan (plan.reword rewording) position substitution view
  | .trigger plan tuple => .trigger (plan.reword rewording) tuple

def Strategy.reword (rewording : Rewording) : Strategy → Strategy
  | .rounds => .rounds
  | .eager rules => .eager (rules.map (RulePlan.reword rewording))

def TaskContext.reword (rewording : Rewording) (context : TaskContext) : TaskContext :=
  { context with strategy := context.strategy.reword rewording }

/-- The state of a running task, with the rules of the tasks reworded that it has submitted. -/
def TaskState.reword (rewording : Rewording) (state : TaskState) : TaskState :=
  { state with spawned := state.spawned.map (Task.reword rewording) }

/-- A step of a task mirrors another where rules have been reworded. -/
abbrev MirrorsReworded (rewording : Rewording) {α : Type} (first second : TaskM α) : Prop :=
  Mirrors (TaskState.reword rewording) first second

namespace RulePlan

variable (plan : RulePlan)

theorem headSymbol_reword : (plan.reword rewording).headSymbol = plan.headSymbol :=
  rewording.variant_headSymbol plan.source

theorem deltaPosition?_reword : (plan.reword rewording).deltaPosition? = plan.deltaPosition? :=
  rewording.variant_deltaPosition? plan.source

theorem deltaSymbol?_reword : (plan.reword rewording).deltaSymbol? = plan.deltaSymbol? := by
  unfold deltaSymbol?
  rw [plan.deltaPosition?_reword]
  rfl

theorem isDeltaRule_reword : (plan.reword rewording).isDeltaRule = plan.isDeltaRule :=
  congrArg Option.isSome plan.deltaPosition?_reword

end RulePlan

/-! ## Tasks -/

namespace TaskM

variable {α : Type}

theorem ofBindM_mirrors (computation : BindM α) :
    MirrorsReworded rewording (ofBindM computation) (ofBindM computation) := by
  intro state
  unfold TaskM.ofBindM TaskState.reword
  dsimp only
  cases computation { terms := state.workspace.terms, substitution := state.substitution } <;> rfl

theorem updateWorkspace_mirrors (update : Workspace → α × Workspace) :
    MirrorsReworded rewording (updateWorkspace update) (updateWorkspace update) :=
  .modifyGet fun _ => rfl

theorem setSubstitution_mirrors (substitution : Substitution) :
    MirrorsReworded rewording (setSubstitution substitution) (setSubstitution substitution) :=
  .modify fun _ => rfl

theorem spawn_mirrors (task : Task) :
    MirrorsReworded rewording (spawn task) (spawn (task.reword rewording)) :=
  .modify fun state => by simp [TaskState.reword]

theorem undoing_mirrors {step step' : TaskM Unit} (mirrors : MirrorsReworded rewording step step') :
    MirrorsReworded rewording (undoing step) (undoing step') :=
  .get_bind fun _ => mirrors.bind fun _ => .modify fun _ => rfl

end TaskM

namespace TaskContext

open TaskM

variable {context : TaskContext} {plan : RulePlan}

theorem storeFor_reword (atom : PlanAtom) (workspace : Workspace) :
    (context.reword rewording).storeFor atom workspace = context.storeFor atom workspace := by
  unfold storeFor reword
  cases context.strategy <;> rfl

theorem indexFor_reword (atom : PlanAtom) (workspace : Workspace) :
    (context.reword rewording).indexFor atom workspace = context.indexFor atom workspace := by
  unfold indexFor
  rw [storeFor_reword]

theorem lookup_mirrors (atom : PlanAtom) :
    MirrorsReworded rewording (context.lookup atom) ((context.reword rewording).lookup atom) := by
  unfold lookup
  apply (ofBindM_mirrors _).bind
  intro key
  refine .get_bind fun state => ?_
  dsimp only [TaskState.reword]
  rw [storeFor_reword]
  exact .pure

theorem filter_mirrors (literal : PlanLiteral) :
    MirrorsReworded rewording (context.filter literal) ((context.reword rewording).filter literal) := by
  cases literal with
  | unify | disunify => exact ofBindM_mirrors _
  | absent atom => exact (lookup_mirrors atom).bind fun _ => .pure
  | scan => exact .throw

theorem filterAll_mirrors (literals : List PlanLiteral) :
    MirrorsReworded rewording (context.filterAll literals)
      ((context.reword rewording).filterAll literals) := by
  induction literals with
  | nil => exact .pure
  | cons literal literals ih => exact (filter_mirrors literal).bind fun _ => .ite ih .pure

theorem triggerRules_mirrors (symbol : RelationSymbol) (tuple : Tuple) (rules : List RulePlan) :
    MirrorsReworded rewording (triggerRules symbol tuple rules)
      (triggerRules symbol tuple (rules.map (RulePlan.reword rewording))) := by
  induction rules with
  | nil => exact .pure
  | cons rule rules ih =>
      rw [List.map_cons]
      unfold triggerRules
      rw [rule.deltaSymbol?_reword]
      split
      · exact (spawn_mirrors _).bind fun _ => ih
      · exact ih

theorem record_mirrors (symbol : RelationSymbol) (tuple : Tuple) :
    MirrorsReworded rewording (context.record symbol tuple)
      ((context.reword rewording).record symbol tuple) := by
  unfold record reword
  cases context.strategy with
  | rounds =>
      exact (updateWorkspace_mirrors _).bind fun _ => .ite (updateWorkspace_mirrors _) .pure
  | eager rules =>
      exact (updateWorkspace_mirrors _).bind fun _ =>
        .ite ((updateWorkspace_mirrors _).bind fun _ => triggerRules_mirrors symbol tuple rules) .pure

theorem scanTuples_mirrors {atom : PlanAtom} {continuation continuation' : TaskM Unit}
    (mirrors : MirrorsReworded rewording continuation continuation') (tuples : List Tuple) :
    MirrorsReworded rewording (context.scanTuples atom continuation tuples)
      ((context.reword rewording).scanTuples atom continuation' tuples) := by
  induction tuples with
  | nil => exact .pure
  | cons tuple tuples ih =>
      exact (undoing_mirrors ((ofBindM_mirrors _).bind fun _ => .ite mirrors .pure)).bind fun _ => ih

theorem scanRange_mirrors {atom : PlanAtom} {continuation continuation' : TaskM Unit}
    (mirrors : MirrorsReworded rewording continuation continuation') (chunks : Nat) (keys : KeyRange) :
    MirrorsReworded rewording (context.scanRange atom continuation chunks keys)
      ((context.reword rewording).scanRange atom continuation' chunks keys) := by
  induction chunks generalizing keys with
  | zero => exact .pure
  | succ chunks ih =>
      unfold scanRange
      refine .get_bind fun state => ?_
      have sameStores : (state.reword rewording).workspace = state.workspace := rfl
      rw [indexFor_reword, sameStores]
      dsimp only
      obtain ⟨tuples, rest⟩ := (context.indexFor atom state.workspace).readChunk keys
      apply (scanTuples_mirrors mirrors tuples).bind
      intro _
      cases rest with
      | none => exact .pure
      | some keys => exact ih keys

theorem scanView_mirrors {atom : PlanAtom} {continuation continuation' : TaskM Unit}
    (mirrors : MirrorsReworded rewording continuation continuation') (view : View) :
    MirrorsReworded rewording (context.scanView atom continuation view)
      ((context.reword rewording).scanView atom continuation' view) := by
  cases view with
  | array tuples => exact scanTuples_mirrors mirrors tuples
  | range keys count => exact scanRange_mirrors mirrors _ keys

theorem evalBody_mirrors (plan : RulePlan) (body : List PlanLiteral) :
    MirrorsReworded rewording (context.evalBody plan body)
      ((context.reword rewording).evalBody (plan.reword rewording) body) := by
  induction body with
  | nil =>
      refine (ofBindM_mirrors _).bind fun tuple => ?_
      rw [plan.headSymbol_reword]
      exact record_mirrors plan.headSymbol tuple
  | cons literal body ih =>
      cases literal with
      | scan atom => exact (lookup_mirrors atom).bind fun view => scanView_mirrors ih view
      | unify | disunify | absent =>
          exact undoing_mirrors ((filter_mirrors _).bind fun _ => .ite ih .pure)

theorem scannedAtom_mirrors (plan : RulePlan) (position : Nat) :
    MirrorsReworded rewording (scannedAtom plan position)
      (scannedAtom (plan.reword rewording) position) := by
  change MirrorsReworded rewording (scannedAtom plan position) (scannedAtom plan position)
  unfold scannedAtom
  split
  · exact .pure
  · exact .throw

theorem evaluate_mirrors (plan : RulePlan) :
    MirrorsReworded rewording (context.evaluate plan)
      ((context.reword rewording).evaluate (plan.reword rewording)) := by
  unfold evaluate
  apply (setSubstitution_mirrors _).bind
  intro _
  rw [show (plan.reword rewording).firstScan? = plan.firstScan? from rfl]
  split
  · exact evalBody_mirrors plan plan.body
  · next position _ =>
      refine (filterAll_mirrors _).bind fun _ => .ite ?_ .pure
      refine (scannedAtom_mirrors plan position).bind fun atom => ?_
      refine (lookup_mirrors atom).bind fun view => ?_
      exact .get_bind fun state => spawn_mirrors _

theorem partsOf_mirrors (atom : PlanAtom) (view : View) :
    MirrorsReworded rewording (context.partsOf atom view)
      ((context.reword rewording).partsOf atom view) := by
  unfold partsOf splitView
  simp only [storeFor_reword, indexFor_reword]
  exact .ite (updateWorkspace_mirrors _) .pure

theorem scan_mirrors (plan : RulePlan) (position : Nat) (substitution : Substitution)
    (view : View) :
    MirrorsReworded rewording (context.scan plan position substitution view)
      ((context.reword rewording).scan (plan.reword rewording) position substitution view) := by
  unfold scan
  refine (scannedAtom_mirrors plan position).bind fun atom => ?_
  refine (partsOf_mirrors atom view).bind fun parts => ?_
  cases parts with
  | some both => exact (spawn_mirrors _).bind fun _ => spawn_mirrors _
  | none =>
      exact (setSubstitution_mirrors _).bind fun _ => scanView_mirrors (evalBody_mirrors plan _) view

theorem trigger_mirrors (plan : RulePlan) (tuple : Tuple) :
    MirrorsReworded rewording (context.trigger plan tuple)
      ((context.reword rewording).trigger (plan.reword rewording) tuple) := by
  unfold trigger
  rw [plan.deltaPosition?_reword]
  split
  · exact .pure
  · next position _ =>
      refine (setSubstitution_mirrors _).bind fun _ => ?_
      refine (filterAll_mirrors _).bind fun _ => .ite ?_ .pure
      refine (scannedAtom_mirrors plan position).bind fun atom => ?_
      exact (ofBindM_mirrors _).bind fun _ => .ite (evalBody_mirrors plan _) .pure

theorem load_mirrors (symbol : RelationSymbol) (facts : List (List Term)) :
    MirrorsReworded rewording (context.load symbol facts)
      ((context.reword rewording).load symbol facts) := by
  induction facts with
  | nil => exact .pure
  | cons args facts ih =>
      exact (ofBindM_mirrors _).bind fun _ => (updateWorkspace_mirrors _).bind fun _ => ih

theorem steps_mirrors (task : Task) :
    MirrorsReworded rewording (context.steps task)
      ((context.reword rewording).steps (task.reword rewording)) := by
  cases task with
  | load symbol facts => exact load_mirrors symbol facts
  | evaluate plan => exact evaluate_mirrors plan
  | scan plan position substitution view => exact scan_mirrors plan position substitution view
  | trigger plan tuple => exact trigger_mirrors plan tuple

theorem run_reword (context : TaskContext) (task : Task) (workspace : Workspace) :
    (context.reword rewording).run (task.reword rewording) workspace =
      { (context.run task workspace) with
        spawned := (context.run task workspace).spawned.map (Task.reword rewording) } := by
  have steps : (context.reword rewording).steps (task.reword rewording)
      { workspace, substitution := .unbound 0 } = changedBy (TaskState.reword rewording)
        (context.steps task { workspace, substitution := .unbound 0 }) :=
    steps_mirrors task { workspace, substitution := .unbound 0 }
  unfold run
  rw [steps]
  cases context.steps task { workspace, substitution := .unbound 0 } <;> rfl

/-- Tasks whose rules have been reworded are drained in step with the others. -/
theorem drain_reword (rewording : Rewording) (context : TaskContext) (order : Nat → Nat)
    (fuel : Nat) (pool : Pool Task TaskError) (workspace : Workspace) :
    (pool.map (Task.reword rewording)).drain (context.reword rewording).run order fuel workspace =
      (pool.drain context.run order fuel workspace).map
        (Prod.map (Pool.map (Task.reword rewording)) id) :=
  Pool.drain_map context.run_reword fuel pool workspace

end TaskContext

/-! ## Strata -/

def Machine.reword (rewording : Rewording) (machine : Machine) : Machine :=
  { machine with pool := machine.pool.map (Task.reword rewording) }

def FixpointContext.reword (rewording : Rewording) (context : FixpointContext) :
    FixpointContext :=
  { context with rules := context.rules.map (RulePlan.reword rewording) }

namespace FixpointContext

variable {context : FixpointContext}

theorem deltaRules_reword :
    (context.reword rewording).deltaRules = context.deltaRules.map (RulePlan.reword rewording) := by
  unfold deltaRules reword
  rw [List.filter_map]
  refine congrArg (List.map _) (List.filter_congr fun plan _ => plan.isDeltaRule_reword)

theorem updateWorkspace_mirrors {α : Type} (update : Workspace → α × Workspace) :
    Mirrors (Machine.reword rewording) (updateWorkspace update) (updateWorkspace update) :=
  .modifyGet fun _ => rfl

/-- What a pass comes to when its tasks have run. -/
def settle : Option (Pool Task TaskError × Workspace) → RunM Unit
  | none => throw .outOfFuel
  | some (pool, workspace) => do
      set ({ pool, workspace } : Machine)
      match pool.failure with
      | some error => throw (.failed error.toEvalError)
      | none => return ()

theorem settle_mirrors (rewording : Rewording)
    (result : Option (Pool Task TaskError × Workspace)) :
    Mirrors (Machine.reword rewording) (settle result)
      (settle (result.map (Prod.map (Pool.map (Task.reword rewording)) id))) := by
  cases result with
  | none => exact .throw
  | some result =>
      refine .set_bind rfl ?_
      rw [show (result.1.map (Task.reword rewording)).failure = result.1.failure from rfl]
      cases result.1.failure with
      | none => exact .pure
      | some error => exact .throw

theorem runRules_mirrors (strategy : Strategy) (rules : List RulePlan) :
    Mirrors (Machine.reword rewording) (context.runRules strategy rules)
      ((context.reword rewording).runRules (strategy.reword rewording)
        (rules.map (RulePlan.reword rewording))) := by
  unfold runRules
  refine .get_bind fun machine => ?_
  let tasks : TaskContext :=
    { functions := context.functions, strategy, taskSize := context.taskSize }
  have evaluated : (rules.map (RulePlan.reword rewording)).map Task.evaluate =
      (rules.map Task.evaluate).map (Task.reword rewording) := by
    rw [List.map_map, List.map_map]
    rfl
  have drained := tasks.drain_reword rewording context.schedule.order context.fuel
    (machine.pool.submitAll (rules.map .evaluate)) machine.workspace
  rw [← Pool.submitAll_map, ← evaluated] at drained
  have settled := settle_mirrors rewording ((machine.pool.submitAll
    (rules.map .evaluate)).drain tasks.run context.schedule.order context.fuel machine.workspace)
  rw [← drained] at settled
  exact settled

theorem round_mirrors (rules : List RulePlan) :
    Mirrors (Machine.reword rewording) (context.round rules)
      ((context.reword rewording).round (rules.map (RulePlan.reword rewording))) :=
  (updateWorkspace_mirrors _).bind fun _ =>
    (runRules_mirrors .rounds rules).bind fun _ => updateWorkspace_mirrors _

theorem rounds_mirrors (fuel : Nat) (rules : List RulePlan) :
    Mirrors (Machine.reword rewording) (context.rounds fuel rules)
      ((context.reword rewording).rounds fuel (rules.map (RulePlan.reword rewording))) := by
  induction fuel generalizing rules with
  | zero => exact .throw
  | succ fuel ih =>
      unfold rounds
      rw [deltaRules_reword]
      exact (round_mirrors rules).bind fun _ =>
        .ite .pure ((ih context.deltaRules).bind fun _ => .pure)

theorem evaluateRounds_mirrors (rank : Nat) :
    Mirrors (Machine.reword rewording) (context.evaluateRounds rank)
      ((context.reword rewording).evaluateRounds rank) :=
  (updateWorkspace_mirrors _).bind fun _ => (rounds_mirrors context.fuel context.rules).bind fun _ =>
    (updateWorkspace_mirrors _).bind fun _ => .pure

theorem pass_mirrors (rules : List RulePlan) :
    Mirrors (Machine.reword rewording) (context.pass rules)
      ((context.reword rewording).pass (rules.map (RulePlan.reword rewording))) := by
  unfold pass
  refine .get_bind fun machine => ?_
  rw [deltaRules_reword]
  exact (runRules_mirrors (.eager context.deltaRules) rules).bind fun _ => .get_bind fun _ => .pure

theorem sweeps_mirrors (fuel : Nat) :
    Mirrors (Machine.reword rewording) (context.sweeps fuel)
      ((context.reword rewording).sweeps fuel) := by
  induction fuel with
  | zero => exact .throw
  | succ fuel ih =>
      unfold sweeps
      rw [deltaRules_reword]
      exact (pass_mirrors context.deltaRules).bind fun _ => .ite .pure (ih.bind fun _ => .pure)

theorem evaluateEagerly_mirrors (rank : Nat) :
    Mirrors (Machine.reword rewording) (context.evaluateEagerly rank)
      ((context.reword rewording).evaluateEagerly rank) :=
  (updateWorkspace_mirrors _).bind fun _ => (pass_mirrors context.rules).bind fun _ =>
    (sweeps_mirrors context.fuel).bind fun _ => .get_bind fun _ => .pure

end FixpointContext

end Datalog
