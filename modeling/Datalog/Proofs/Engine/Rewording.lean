import Datalog.Proofs.Evaluation.Normalization
import Datalog.Proofs.Evaluation.Rewording

/-!
# Rewording the rules of a program

A program and its rewording are accepted for the same strata and settings.  Their evaluations give the
same replies to any runs and questions, and have the same stores at all times.
-/

namespace Datalog

variable {rewording : Rewording} {program : Program} {functions : Registry} {config : Config}
  {schedule : Schedule} {evaluation : Evaluation}

namespace Evaluation

/-- An evaluation with the rules reworded that its plans were made from. -/
def reword (rewording : Rewording) (evaluation : Evaluation) : Evaluation :=
  { evaluation with
    rules := rewordPlans rewording evaluation.rules
    machine := evaluation.machine.reword rewording }

/-! ## Runs and questions -/

theorem plansFor_reword (symbol : RelationSymbol) :
    (evaluation.reword rewording).plansFor symbol =
      (evaluation.plansFor symbol).map (RulePlan.reword rewording) := by
  unfold plansFor reword rewordPlans
  rw [← List.map_reverse, List.find?_map]
  simp only [Function.comp_def, Prod.map_fst, id]
  cases evaluation.rules.reverse.find? (·.1 = symbol) <;> rfl

theorem fixpointContext_reword (fuel : Nat) (stratum : Stratum) :
    (evaluation.reword rewording).fixpointContext fuel stratum =
      (evaluation.fixpointContext fuel stratum).reword rewording := by
  have plans : stratum.symbols.flatMap (evaluation.reword rewording).plansFor =
      (stratum.symbols.flatMap evaluation.plansFor).map (RulePlan.reword rewording) := by
    rw [List.map_flatMap]
    exact List.flatMap_congr fun symbol _ => plansFor_reword symbol
  exact congrArg (FixpointContext.mk evaluation.functions (taskSize evaluation.config)
    evaluation.schedule fuel stratum.symbols) plans

theorem ofRunM_mirrors {α : Type} {step step' : RunM α}
    (mirrors : Mirrors (Machine.reword rewording) step step') :
    Mirrors (reword rewording) (ofRunM step) (ofRunM step') := by
  intro evaluation
  have atMachine : step' (evaluation.reword rewording).machine =
      changedBy (Machine.reword rewording) (step evaluation.machine) := mirrors evaluation.machine
  dsimp only [ofRunM]
  rw [atMachine]
  cases step evaluation.machine <;> rfl

theorem runStratum_mirrors (fuel : Nat) (stratum : Stratum) :
    Mirrors (reword rewording) (runStratum fuel stratum) (runStratum fuel stratum) := by
  unfold runStratum
  refine .get_bind fun evaluation => ?_
  rw [fixpointContext_reword]
  refine .bind (ofRunM_mirrors ?_) fun _ => .bind (.modify fun _ => rfl) fun _ => .pure
  exact .ite (FixpointContext.evaluateEagerly_mirrors _) (FixpointContext.evaluateRounds_mirrors _)

theorem runStrata_mirrors (fuel : Nat) (strata : List Stratum) :
    Mirrors (reword rewording) (runStrata fuel strata) (runStrata fuel strata) := by
  induction strata with
  | nil => exact .pure
  | cons stratum strata ih =>
      exact (runStratum_mirrors fuel stratum).bind fun _ => ih.bind fun _ => .pure

/-- A run does the same where rules have been reworded. -/
theorem run_mirrors (fuel : Nat) : Mirrors (reword rewording) (run fuel) (run fuel) := by
  unfold run
  refine .get_bind fun evaluation => ?_
  rw [show (evaluation.reword rewording).stats = evaluation.stats from rfl]
  cases evaluation.stats with
  | some stats => exact .pure
  | none =>
      exact (runStrata_mirrors fuel evaluation.strata).bind fun _ =>
        .bind (.modify fun _ => rfl) fun _ => .pure

theorem queryAnswer_reword :
    (evaluation.reword rewording).queryAnswer =
      evaluation.queryAnswer.map (Prod.map id (reword rewording)) := by
  unfold queryAnswer
  rw [show (evaluation.reword rewording).query = evaluation.query from rfl, Option.map_map]
  refine congrArg (Option.map · _) (funext fun query => ?_)
  dsimp only [Function.comp_apply]
  rw [show (evaluation.reword rewording).functions = evaluation.functions from rfl,
    show (evaluation.reword rewording).db = evaluation.db from rfl,
    show (evaluation.reword rewording).terms = evaluation.terms from rfl]
  cases filterAnswers evaluation.functions query (evaluation.db.tuplesOf query.symbol)
    evaluation.terms <;> rfl

inductive Request where
  | run (fuel : Nat)
  | ask

inductive Reply where
  | ran (outcome : Except Stop (List StratumStats))
  /-- There is no answer without a query. -/
  | answered (answer : Option (Except EvalError (List Tuple)))

def serve (evaluation : Evaluation) : Request → Reply × Evaluation
  | .run fuel => (.ran (answerOf (run fuel evaluation)), leftBy (run fuel evaluation))
  | .ask =>
      match evaluation.queryAnswer with
      | none => (.answered none, evaluation)
      | some (answer, later) => (.answered (some answer), later)

def serveAll (evaluation : Evaluation) : List Request → List Reply × Evaluation
  | [] => ([], evaluation)
  | request :: requests =>
      let (reply, later) := evaluation.serve request
      let (replies, last) := later.serveAll requests
      (reply :: replies, last)

theorem answerOf_changedBy {ε σ α : Type} (change : σ → σ) (result : EStateM.Result ε σ α) :
    answerOf (changedBy change result) = answerOf result := by
  cases result <;> rfl

theorem leftBy_changedBy {ε σ α : Type} (change : σ → σ) (result : EStateM.Result ε σ α) :
    leftBy (changedBy change result) = change (leftBy result) := by
  cases result <;> rfl

theorem serve_reword (request : Request) :
    (evaluation.reword rewording).serve request =
      Prod.map id (reword rewording) (evaluation.serve request) := by
  cases request with
  | run fuel =>
      have ran : run fuel (evaluation.reword rewording) = changedBy (reword rewording)
        (run fuel evaluation) := run_mirrors fuel evaluation
      refine (congrArg (fun result => (Reply.ran (answerOf result), leftBy result)) ran).trans ?_
      rw [answerOf_changedBy, leftBy_changedBy]
      rfl
  | ask =>
      unfold serve
      rw [queryAnswer_reword]
      cases evaluation.queryAnswer <;> rfl

theorem serveAll_reword (requests : List Request) :
    (evaluation.reword rewording).serveAll requests =
      Prod.map id (reword rewording) (evaluation.serveAll requests) := by
  induction requests generalizing evaluation with
  | nil => rfl
  | cons request requests ih =>
      unfold serveAll
      rw [serve_reword]
      exact congrArg (fun rest => (_ :: rest.1, rest.2)) (@ih (evaluation.serve request).2)

/-- Two evaluations cannot be told apart: they give the same replies to whatever they are asked for, and
have the same stores and the same log after it. -/
structure BehavesLike (first second : Evaluation) : Prop where
  relations_eq : second.relations = first.relations
  replies_eq : ∀ requests, (second.serveAll requests).1 = (first.serveAll requests).1
  workspace_eq : ∀ requests, (second.serveAll requests).2.machine.workspace =
    (first.serveAll requests).2.machine.workspace
  log_eq : ∀ requests, (second.serveAll requests).2.log = (first.serveAll requests).2.log

theorem behavesLike_reword : evaluation.BehavesLike (evaluation.reword rewording) := by
  refine ⟨rfl, fun requests => ?_, fun requests => ?_, fun requests => ?_⟩
  all_goals
    rw [serveAll_reword]
    rfl

/-! ## Setting up -/

/-- Both settings up fail, or neither does and the evaluations cannot be told apart. -/
def SetsUpLike : Except RunError Evaluation → Except RunError Evaluation → Prop
  | .ok first, .ok second => first.BehavesLike second
  | .error _, .error _ => True
  | _, _ => False

/-- Tasks that load facts have no rules to be reworded. -/
theorem reword_of_loadFacts {workspace : Workspace} {machine : Machine}
    (loaded : loadFacts program functions config schedule { workspace } = .ok machine) :
    machine.reword rewording = machine := by
  let context : TaskContext := { functions, strategy := .rounds, taskSize := taskSize config }
  let tasks := loadTasks program (taskSize config)
  have noRules : tasks.map (Task.reword rewording) = tasks := by
    refine (List.map_congr_left fun task member => ?_).trans (List.map_id tasks)
    obtain ⟨group, -, isBatch⟩ := List.mem_flatMap.mp member
    obtain ⟨batch, -, rfl⟩ := List.mem_map.mp isBatch
    rfl
  have submitted : (Pool.submitAll {} tasks).map (Task.reword rewording) =
      (Pool.submitAll {} tasks : Pool Task TaskError) := by
    rw [← Pool.submitAll_map, noRules]
    rfl
  have drained := context.drain_reword rewording schedule.order tasks.length
    (Pool.submitAll {} tasks) workspace
  rw [submitted] at drained
  unfold loadFacts at loaded
  dsimp only at loaded
  split at loaded
  · next stuck =>
      cases loaded
      rfl
  · next pool last ended =>
      split at loaded
      · cases loaded
      · cases loaded
        have same : some (pool, last) = (some (pool, last)).map
            (Prod.map (Pool.map (Task.reword rewording)) id) := by
          rw [← ended]
          exact drained
        exact congrArg (Machine.mk · last) (congrArg Prod.fst (Option.some.inj same)).symm

/-- Planning comes first, and then the facts are loaded. -/
theorem setup_eq (program : Program) (strata : List Stratum) (functions : Registry)
    (config : Config) (schedule : Schedule) :
    setup program strata functions config schedule =
      ((planAll program functions config strata (startOf program)).mapError RunError.setup >>=
        fun planned => do
          let machine ← loadFacts program functions config schedule
            { workspace := planned.2.workspace config schedule }
          return {
            config, functions, schedule
            relations := program.relations
            strata, rules := planned.1.1, query := planned.1.2, machine
            log := trackingComplaints program config }) :=
  rfl

theorem setup_echoes
    (program : Program) (strata : List Stratum) (functions : Registry) (config : Config)
    (schedule : Schedule) :
    Echoes (reword rewording) (setup program strata functions config schedule)
      (setup (program.reword rewording) strata functions config schedule) := by
  have start : startOf (program.reword rewording) = startOf program := by
    unfold startOf
    rw [program.ruleSymbols_reword]
    rfl
  have planned : Echoes _ (planAll program functions config strata (startOf program))
      (planAll (program.reword rewording) functions config strata (startOf program)) :=
    planAll_agrees strata (startOf program)
  rw [setup_eq, setup_eq, start]
  apply planned.mapError.bind
  rintro ⟨⟨rules, query⟩, resources⟩
  change Echoes (reword rewording)
    (loadFacts program functions config schedule
      { workspace := resources.workspace config schedule } >>= _)
    (loadFacts program functions config schedule
      { workspace := resources.workspace config schedule } >>= _)
  cases loaded : loadFacts program functions config schedule
      { workspace := resources.workspace config schedule } with
  | error => trivial
  | ok machine =>
      refine congrArg (fun machine : Machine => ({
        config, functions, schedule
        relations := program.relations
        strata, rules := rewordPlans rewording rules, query, machine
        log := trackingComplaints program config } : Evaluation)) ?_
      exact (reword_of_loadFacts loaded).symm

/-- Rewording a program changes neither whether it is accepted nor anything that can be
seen of its evaluation. -/
theorem setup_reword
    (program : Program) (strata : List Stratum) (functions : Registry) (config : Config)
    (schedule : Schedule) :
    SetsUpLike (setup program strata functions config schedule)
      (setup (program.reword rewording) strata functions config schedule) := by
  obtain ⟨error, other, first, second⟩ | ⟨evaluation, first, second⟩ :=
    (setup_echoes program strata functions config schedule).cases_of
  · rw [first, second]
    trivial
  · rw [first, second]
    exact behavesLike_reword

end Evaluation

/-! ## Programs -/

open Evaluation

/-- Two programs cannot be told apart: they have the same strata, and for the same strata and settings
both are refused or have evaluations that cannot be told apart. -/
structure Program.EvaluatesLike (first second : Program) : Prop where
  stratify_eq : second.stratify = first.stratify
  setsUpLike : ∀ strata functions config schedule,
    SetsUpLike (setup first strata functions config schedule)
      (setup second strata functions config schedule)

namespace Program.EvaluatesLike

variable {first second : Program}

theorem ofProgram (alike : first.EvaluatesLike second) (functions : Registry) (config : Config)
    (schedule : Schedule) :
    SetsUpLike (ofProgram first functions config schedule)
      (ofProgram second functions config schedule) := by
  unfold Evaluation.ofProgram
  rw [alike.stratify_eq]
  exact alike.setsUpLike first.stratify functions config schedule

end Program.EvaluatesLike

theorem Program.evaluatesLike_reword (rewording : Rewording) (program : Program) :
    program.EvaluatesLike (program.reword rewording) where
  stratify_eq := program.stratify_reword rewording
  setsUpLike := setup_reword program

end Datalog
