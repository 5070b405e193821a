import Datalog.Evaluation.Task
import Datalog.Stratum

/-!
# Evaluating a stratum

The rules of a stratum are run until they derive nothing new.  In rounds, every round reads the
tuples that were new in the last one and collects its own, which are then merged into the main
store.  Eagerly, a new tuple enters the main store at once and triggers the rules that read it;
sweeps over all delta rules follow until one of them adds nothing.
-/

namespace Datalog

/-- What the evaluation of a stratum did. -/
structure StratumStats where
  rank : Nat
  /-- The new tuples of each round, or of the first pass and of each sweep. -/
  roundDeltas : List Nat
  /-- The number of sweeps. -/
  sweeps : Nat
  /-- The number of tuples added to the main store. -/
  derived : Nat
  deriving DecidableEq, Inhabited

/-- The order in which a pool takes its tasks, and the numbers that stand for random draws. -/
structure Schedule where
  order : Nat → Nat
  draw : Nat → Nat

/-- Tasks run in the order in which they were submitted. -/
def Schedule.firstInFirstOut : Schedule where
  order _ := 0
  draw := id

/-- The pool and the stores. -/
structure Machine where
  pool : Pool Task TaskError := {}
  workspace : Workspace

/-- Why a run stops before its end. -/
inductive Stop where
  /-- More steps would be needed than were allowed. -/
  | outOfFuel
  | failed (error : EvalError)
  deriving DecidableEq

/-- A step of a run.  What was done before a stop stays. -/
abbrev RunM := EStateM Stop Machine

/-- What the evaluation of a stratum is given. -/
structure FixpointContext where
  functions : Registry
  taskSize : Nat
  schedule : Schedule
  /-- The number of tasks that a pass, and of passes that the stratum, may take. -/
  fuel : Nat
  /-- The relations of the stratum. -/
  symbols : List RelationSymbol
  /-- The rules of the stratum. -/
  rules : List RulePlan

namespace FixpointContext

def deltaRules (context : FixpointContext) : List RulePlan :=
  context.rules.filter RulePlan.isDeltaRule

def updateWorkspace {α : Type} (update : Workspace → α × Workspace) : RunM α :=
  modifyGet fun machine =>
    let (value, workspace) := update machine.workspace
    (value, { machine with workspace })

/-- Run rules, and all tasks that they lead to. -/
def runRules (context : FixpointContext) (strategy : Strategy) (rules : List RulePlan) :
    RunM Unit := do
  let machine ← get
  let tasks : TaskContext :=
    { functions := context.functions, strategy, taskSize := context.taskSize }
  let pool := machine.pool.submitAll (rules.map .evaluate)
  match pool.drain tasks.run context.schedule.order context.fuel machine.workspace with
  | none => throw .outOfFuel
  | some (pool, workspace) => do
      set { machine with pool, workspace }
      match pool.failure with
      | some error => throw (.failed error.toEvalError)
      | none => return ()

/-! ## Rounds -/

/-- Add the tuples that one store holds of some relations to another store, and count the new
ones. -/
def mergeInto (source : FactStore) :
    (symbols : List RelationSymbol) → (target : FactStore) → Nat × FactStore
  | [], target => (0, target)
  | symbol :: symbols, target =>
      let (added, target) := target.addAll symbol (source.tuplesOf symbol)
      let (others, target) := mergeInto source symbols target
      (added + others, target)

/-- Before the first round every known tuple of the stratum counts as new. -/
def seed (context : FixpointContext) (workspace : Workspace) : Workspace :=
  { workspace with
    delta := (mergeInto workspace.db context.symbols workspace.delta.clear).2
    nextDelta := workspace.nextDelta.clear }

/-- After a round the tuples that it collected become the delta and enter the main store. -/
def merge (context : FixpointContext) (workspace : Workspace) : Nat × Workspace :=
  let (added, db) := mergeInto workspace.nextDelta context.symbols workspace.db
  (added,
    { workspace with
      db
      delta := workspace.nextDelta
      nextDelta := workspace.delta.clear })

/-- Run one round of rules and count the new tuples. -/
def round (context : FixpointContext) (rules : List RulePlan) : RunM Nat := do
  updateWorkspace fun workspace => ((), { workspace with derived := 0 })
  context.runRules .rounds rules
  updateWorkspace context.merge

/-- Run rounds until one derives nothing new; the first runs given rules and the others the delta
rules. -/
def rounds (context : FixpointContext) : (fuel : Nat) → List RulePlan → RunM (List Nat)
  | 0, _ => throw .outOfFuel
  | fuel + 1, rules => do
      let added ← context.round rules
      if added = 0 then
        return [0]
      else
        return added :: (← context.rounds fuel context.deltaRules)

def evaluateRounds (context : FixpointContext) (rank : Nat) : RunM StratumStats := do
  updateWorkspace fun workspace => ((), context.seed workspace)
  let roundDeltas ← context.rounds context.fuel context.rules
  updateWorkspace fun workspace => ((), { workspace with delta := workspace.delta.clear })
  return { rank, roundDeltas, sweeps := 0, derived := roundDeltas.foldr (· + ·) 0 }

/-! ## Eager evaluation -/

/-- Run rules eagerly and count the new tuples. -/
def pass (context : FixpointContext) (rules : List RulePlan) : RunM Nat := do
  let before := (← get).workspace.derived
  context.runRules (.eager context.deltaRules) rules
  return (← get).workspace.derived - before

/-- Sweep over the delta rules until a sweep adds nothing. -/
def sweeps (context : FixpointContext) : (fuel : Nat) → RunM (List Nat)
  | 0 => throw .outOfFuel
  | fuel + 1 => do
      let added ← context.pass context.deltaRules
      if added = 0 then
        return [0]
      else
        return added :: (← context.sweeps fuel)

def evaluateEagerly (context : FixpointContext) (rank : Nat) : RunM StratumStats := do
  updateWorkspace fun workspace => ((), { workspace with derived := 0 })
  let first ← context.pass context.rules
  let others ← context.sweeps context.fuel
  return { rank, roundDeltas := first :: others, sweeps := others.length,
           derived := (← get).workspace.derived }

end FixpointContext

end Datalog
