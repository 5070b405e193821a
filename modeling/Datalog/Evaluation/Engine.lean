import Datalog.Evaluation.Fixpoint

/-!
# Evaluating a program

Setting up an evaluation checks and plans every rule, builds the stores and loads the base facts.
Running it then evaluates the strata in order, each to its fixpoint.
-/

namespace Datalog

/-- A message about an evaluation. -/
inductive LogRecord where
  /-- A relation that was to be tracked is not declared. -/
  | undeclaredTracked (name : String)
  /-- A tuple that a tracked relation holds after its stratum. -/
  | trackedTuple (name tuple : String)
  deriving DecidableEq

namespace LogRecord

def level : LogRecord → String
  | .undeclaredTracked _ => "WARN"
  | .trackedTuple .. => "INFO"

def message : LogRecord → String
  | .undeclaredTracked name => s!"tracked relation `{name}` is not declared"
  | .trackedTuple name tuple => s!"[{name}] {tuple}"

end LogRecord

structure Evaluation where
  config : Config
  functions : Registry
  schedule : Schedule
  /-- The declared relations. -/
  relations : List RelationSymbol
  strata : List Stratum
  /-- The plans of the rules that derive each relation. -/
  rules : List (RelationSymbol × List RulePlan)
  query : Option QueryPlan
  machine : Machine
  /-- What was done, once the evaluation has been run to its end. -/
  stats : Option (List StratumStats) := none
  log : List LogRecord := []

namespace Evaluation

/-! ## Setting up -/

def planVariant (functions : Registry) (config : Config) (variant : DeltaRule) :
    StateT Planner.Resources (Except SetupError) RulePlan := do
  let variant := if config.eager then variant.isolateCalls else variant
  let ordered ← variant.ordered config.effectiveOptimization
  if config.eager then
    ordered.requireDeltaFirst
  let (plan, resources) ← RulePlan.ofRule functions (!config.eager) ordered (← get)
  set resources
  return plan

def planSymbol (program : Program) (functions : Registry) (config : Config) (stratum : Stratum)
    (symbol : RelationSymbol) :
    StateT Planner.Resources (Except SetupError) (RelationSymbol × List RulePlan) := do
  let variants := (program.rulesFor symbol).flatMap (DeltaRule.variants · stratum.symbols)
  let plans ← variants.mapM (planVariant functions config)
  return (symbol, plans)

/-- Plan the rules of a stratum, which must not negate its own relations. -/
def planStratum (program : Program) (functions : Registry) (config : Config) (stratum : Stratum) :
    StateT Planner.Resources (Except SetupError) (List (RelationSymbol × List RulePlan)) := do
  if stratum.recursiveNegation then
    throw (.unsafeStratum stratum.rank stratum.symbols)
  stratum.symbols.mapM (planSymbol program functions config stratum)

def planStrata (program : Program) (functions : Registry) (config : Config)
    (strata : List Stratum) :
    StateT Planner.Resources (Except SetupError) (List (RelationSymbol × List RulePlan)) := do
  let plans ← strata.mapM (planStratum program functions config)
  return plans.flatten

def planQuery (program : Program) (functions : Registry) :
    StateT Planner.Resources (Except SetupError) (Option QueryPlan) := do
  match program.query with
  | none => return none
  | some query =>
      let (plan, resources) ← QueryPlan.ofAtom functions query (← get)
      set resources
      return some plan

/-- A list cut into parts of a given size; the last one may be smaller. -/
def batches {α : Type} (size : Nat) : (fuel : Nat) → List α → List (List α)
  | 0, _ => []
  | _ + 1, [] => []
  | fuel + 1, items => items.take size :: batches size fuel (items.drop size)

def loadTasks (program : Program) (taskSize : Nat) : List Task :=
  program.factGroups.flatMap fun (symbol, facts) =>
    (batches taskSize facts.length facts).map (.load symbol)

/-- The number of tuples in a task, at least one. -/
def taskSize (config : Config) : Nat :=
  max config.taskSize.toNat 1

/-- Load the base facts of a program.  Loading submits no further tasks, so there are as many steps
as batches. -/
def loadFacts (program : Program) (functions : Registry) (config : Config) (schedule : Schedule)
    (machine : Machine) : Except RunError Machine :=
  let context : TaskContext :=
    { functions, strategy := .rounds, taskSize := taskSize config }
  let tasks := loadTasks program (taskSize config)
  let pool := machine.pool.submitAll tasks
  match pool.drain context.run schedule.order tasks.length machine.workspace with
  | none => .ok machine
  | some (pool, workspace) =>
      match pool.failure with
      | some error => .error (.load error.toEvalError)
      | none => .ok { machine with pool, workspace }

/-- The complaints about tracked relations that are not declared. -/
def trackingComplaints (program : Program) (config : Config) : List LogRecord :=
  (config.tracked.filter fun name => (program.relation? name).isNone).map .undeclaredTracked

/-- Set up the evaluation of a program with given strata. -/
def setup (program : Program) (strata : List Stratum) (functions : Registry) (config : Config)
    (schedule : Schedule) : Except RunError Evaluation := do
  let planner : StateT Planner.Resources (Except SetupError)
      (List (RelationSymbol × List RulePlan) × Option QueryPlan) := do
    let rules ← planStrata program functions config strata
    let query ← planQuery program functions
    return (rules, query)
  let resources : Planner.Resources :=
    { main := .ofSymbols program.relations, delta := .ofSymbols program.ruleSymbols }
  let ((rules, query), resources) ← (planner.run resources).mapError .setup
  let workspace : Workspace :=
    { terms := resources.terms
      db := resources.main.build config
      delta := resources.delta.build config
      nextDelta := resources.delta.build config
      draws := { number := schedule.draw } }
  let machine ← loadFacts program functions config schedule { workspace }
  return {
    config, functions, schedule
    relations := program.relations
    strata, rules, query, machine
    log := trackingComplaints program config }

/-- Set up the evaluation of a program with its own strata. -/
def ofProgram (program : Program) (functions : Registry) (config : Config) (schedule : Schedule) :
    Except RunError Evaluation :=
  setup program program.stratify functions config schedule

/-! ## Results -/

def terms (evaluation : Evaluation) : TermStore :=
  evaluation.machine.workspace.terms

def db (evaluation : Evaluation) : FactStore :=
  evaluation.machine.workspace.db

def relation? (evaluation : Evaluation) (name : String) : Option RelationSymbol :=
  evaluation.relations.find? (·.name = name)

/-- The plans of the rules that derive a relation.  Where a relation was listed twice, the later
stratum counts. -/
def plansFor (evaluation : Evaluation) (symbol : RelationSymbol) : List RulePlan :=
  ((evaluation.rules.reverse.find? (·.1 = symbol)).map (·.2)).getD []

/-- Tuples in the order of their values, as they are written. -/
def renderSorted (evaluation : Evaluation) (tuples : List Tuple) : List String :=
  (evaluation.terms.sortTuples tuples).map evaluation.terms.renderTuple

/-- The tuples of a relation in the order of their values, as they are written. -/
def rendered (evaluation : Evaluation) (symbol : RelationSymbol) : List String :=
  evaluation.renderSorted (evaluation.db.tuplesOf symbol)

/-- Keep the tuples that answer a query. -/
def filterAnswers (functions : Registry) (query : QueryPlan) : List Tuple → TermM (List Tuple)
  | [] => return []
  | tuple :: tuples => do
      let isAnswer ← query.answers functions tuple
      let others ← filterAnswers functions query tuples
      return if isAnswer then tuple :: others else others

/-- The tuples that answer the query, in the order of the master index, if there is a query.  Calls
in the query may intern terms. -/
def queryAnswer (evaluation : Evaluation) : Option (Except EvalError (List Tuple) × Evaluation) :=
  evaluation.query.map fun query =>
    let withTerms (terms : TermStore) : Evaluation :=
      { evaluation with
        machine := { evaluation.machine with
          workspace := { evaluation.machine.workspace with terms } } }
    let tuples := evaluation.db.tuplesOf query.symbol
    match filterAnswers evaluation.functions query tuples evaluation.terms with
    | .ok answer terms => (.ok answer, withTerms terms)
    | .error error terms => (.error error, withTerms terms)

/-! ## Running -/

/-- A step of the evaluation of all strata.  What was done before a stop stays. -/
abbrev EngineM := EStateM Stop Evaluation

/-- A step of a run, as a step of the evaluation. -/
def ofRunM {α : Type} (step : RunM α) : EngineM α := fun evaluation =>
  match step evaluation.machine with
  | .ok value machine => .ok value { evaluation with machine }
  | .error stop machine => .error stop { evaluation with machine }

def trackedTuples (evaluation : Evaluation) (stratum : Stratum) : List LogRecord :=
  (evaluation.config.tracked.filterMap evaluation.relation?).flatMap fun symbol =>
    if stratum.symbols.contains symbol then
      (evaluation.rendered symbol).map (.trackedTuple symbol.name)
    else
      []

/-- What the evaluation of a stratum is given. -/
def fixpointContext (evaluation : Evaluation) (fuel : Nat) (stratum : Stratum) :
    FixpointContext where
  functions := evaluation.functions
  taskSize := taskSize evaluation.config
  schedule := evaluation.schedule
  fuel := fuel
  symbols := stratum.symbols
  rules := stratum.symbols.flatMap evaluation.plansFor

def runStratum (fuel : Nat) (stratum : Stratum) : EngineM StratumStats := do
  let evaluation ← get
  let context := evaluation.fixpointContext fuel stratum
  let stats ← ofRunM <|
    if evaluation.config.eager then
      context.evaluateEagerly stratum.rank
    else
      context.evaluateRounds stratum.rank
  modify fun evaluation =>
    { evaluation with log := evaluation.log ++ evaluation.trackedTuples stratum }
  return stats

def runStrata (fuel : Nat) : List Stratum → EngineM (List StratumStats)
  | [] => return []
  | stratum :: strata => do
      let stats ← runStratum fuel stratum
      let others ← runStrata fuel strata
      return stats :: others

/-- Evaluate every stratum to its fixpoint.  Only the first successful run does any work.  The fuel
limits the passes of each stratum and the tasks of each pass. -/
def run (fuel : Nat) : EngineM (List StratumStats) := do
  let evaluation ← get
  match evaluation.stats with
  | some stats => return stats
  | none => do
      let stats ← runStrata fuel evaluation.strata
      modify fun evaluation => { evaluation with stats := some stats }
      return stats

end Evaluation

end Datalog
