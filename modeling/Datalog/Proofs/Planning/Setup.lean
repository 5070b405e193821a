import Datalog.Proofs.Planning.Query

/-!
# Setting up an evaluation

An evaluation that has been set up has plans for the rules of all strata, and stores with the indices
that the plans look up.
-/

namespace Datalog

/-- The stores before facts are loaded. -/
def Planner.Resources.workspace (resources : Planner.Resources) (config : Config)
    (schedule : Schedule) : Workspace where
  terms := resources.terms
  db := resources.main.build config
  delta := resources.delta.build config
  nextDelta := resources.delta.build config
  draws := { number := schedule.draw }

namespace Evaluation

variable {program : Program} {functions : Registry} {config : Config} {schedule : Schedule}
  {strata : List Stratum} {evaluation : Evaluation} {resources : Planner.Resources}

/-- What an evaluation consists of once it has been set up. -/
structure SetUp (program : Program) (strata : List Stratum) (functions : Registry)
    (config : Config) (schedule : Schedule) (resources : Planner.Resources)
    (evaluation : Evaluation) : Prop where
  valid : resources.Valid
  main : resources.main.Extends (.ofSymbols program.relations)
  delta : resources.delta.Extends (.ofSymbols program.ruleSymbols)
  rules : ∃ parts, evaluation.rules = parts.flatten ∧
    List.Forall₂ (PlansStratum program functions config resources) parts strata
  loaded : loadFacts program functions config schedule
    { workspace := resources.workspace config schedule } = .ok evaluation.machine
  strata_eq : evaluation.strata = strata
  functions_eq : evaluation.functions = functions
  config_eq : evaluation.config = config
  schedule_eq : evaluation.schedule = schedule
  stats_eq : evaluation.stats = none

theorem ok_of_mapError {ε ε' α : Type} {change : ε → ε'} {computation : Except ε α} {value : α}
    (outcome : computation.mapError change = .ok value) : computation = .ok value := by
  cases computation with
  | error => cases outcome
  | ok result =>
      cases outcome
      rfl

/-- Plan the rules of all strata and the query. -/
def planAll (program : Program) (functions : Registry) (config : Config) (strata : List Stratum) :
    StateT Planner.Resources (Except SetupError)
      (List (RelationSymbol × List RulePlan) × Option QueryPlan) := do
  let rules ← planStrata program functions config strata
  let query ← planQuery program functions
  return (rules, query)

def startOf (program : Program) : Planner.Resources where
  main := .ofSymbols program.relations
  delta := .ofSymbols program.ruleSymbols

theorem valid_startOf (program : Program) : (startOf program).Valid :=
  ⟨TermStore.Distinct.empty, StorePlan.valid_ofSymbols _, StorePlan.valid_ofSymbols _⟩

theorem planAll_produces (valid : resources.Valid) :
    Produces (planAll program functions config strata) resources fun planned later =>
      later.Continues resources ∧
        (∃ parts, planned.1 = parts.flatten ∧
          List.Forall₂ (PlansStratum program functions config later) parts strata) ∧
        Option.Rel (fun plan query => ∃ names, plan.Made functions later.terms names query) planned.2
          program.query := by
  refine .bind (planStrata_produces strata valid) ?_
  rintro rules middle ⟨continues, parts, rfl, planned⟩
  refine .bind (planQuery_produces continues.valid) ?_
  rintro query later ⟨continues', made⟩
  exact .pure ⟨continues'.trans continues,
    ⟨parts, rfl, planned.imp fun _ _ plans => plans.mono continues'⟩, made⟩

/-- What has been set up has been planned and loaded. -/
theorem exists_planAll
    (setUp : setup program strata functions config schedule = .ok evaluation) :
    ∃ rules query resources machine,
      planAll program functions config strata (startOf program) = .ok ((rules, query), resources) ∧
        loadFacts program functions config schedule
          { workspace := resources.workspace config schedule } = .ok machine ∧
        evaluation = {
          config, functions, schedule
          relations := program.relations
          strata, rules, query, machine
          log := trackingComplaints program config } := by
  unfold setup at setUp
  simp only [bind, Except.bind] at setUp
  split at setUp
  · cases setUp
  · next result planned =>
      split at setUp
      · cases setUp
      · next machine loaded =>
          cases setUp
          exact ⟨_, _, _, machine, ok_of_mapError planned, loaded, rfl⟩

/-- What has been set up has plans for the rules, and for the query if there is one. -/
theorem exists_setUp_query
    (setUp : setup program strata functions config schedule = .ok evaluation) :
    ∃ resources, SetUp program strata functions config schedule resources evaluation ∧
      Option.Rel (fun plan query => ∃ names, plan.Made functions resources.terms names query)
        evaluation.query program.query := by
  obtain ⟨rules, query, resources, machine, ran, loaded, rfl⟩ := exists_planAll setUp
  obtain ⟨continues, plans, made⟩ := planAll_produces (valid_startOf program) _ _ ran
  exact ⟨resources, ⟨continues.valid, continues.extended.main, continues.extended.delta, plans, loaded,
    rfl, rfl, rfl, rfl, rfl⟩, made⟩

theorem exists_setUp
    (setUp : setup program strata functions config schedule = .ok evaluation) :
    ∃ resources, SetUp program strata functions config schedule resources evaluation := by
  obtain ⟨resources, isSetUp, -⟩ := exists_setUp_query setUp
  exact ⟨resources, isSetUp⟩

theorem error_of_mapError {ε ε' α : Type} {change : ε → ε'} {computation : Except ε α} {error : ε'}
    (outcome : computation.mapError change = .error error) :
    ∃ cause, computation = .error cause ∧ change cause = error := by
  cases computation with
  | error cause => exact ⟨cause, rfl, Except.error.inj outcome⟩
  | ok => cases outcome

/-- Setting up fails where planning or loading does. -/
theorem setup_failure {failure : RunError}
    (refused : setup program strata functions config schedule = .error failure) :
    (∃ error, planAll program functions config strata (startOf program) = .error error ∧
        failure = .setup error) ∨
      ∃ planned resources,
        planAll program functions config strata (startOf program) = .ok (planned, resources) ∧
          loadFacts program functions config schedule
            { workspace := resources.workspace config schedule } = .error failure := by
  unfold setup at refused
  simp only [bind, Except.bind] at refused
  split at refused
  · next planned =>
      cases refused
      obtain ⟨error, ran, rfl⟩ := error_of_mapError planned
      exact .inl ⟨error, ran, rfl⟩
  · next result planned =>
      split at refused
      · next failed =>
          cases refused
          exact .inr ⟨result.1, result.2, ok_of_mapError planned, failed⟩
      · cases refused

end Evaluation

end Datalog
