import Datalog.Proofs.Engine.Query
import Datalog.Proofs.Evaluation.Confinement

/-!
# Running again

A run that has ended is remembered by its statistics, which later runs return at once.  A failure is
remembered by the pool only: later runs start with the first stratum again, over the stores as they were
left, and its first pass ends with the failure that came first.
-/

namespace Datalog

namespace Pool

variable {Task State Error : Type} {run : Task → State → TaskResult Task State Error}
  {pool later : Pool Task Error} {state last : State}

theorem failure_submitAll (pool : Pool Task Error) (tasks : List Task) :
    (pool.submitAll tasks).failure = pool.failure :=
  congrArg List.head? (failures_submitAll pool tasks)

theorem Stepped.failure_eq {task : Task} {error : Error}
    (stepped : Stepped run task pool later state last) (failed : pool.failure = some error) :
    later.failure = some error := by
  unfold Pool.failure at failed ⊢
  cases outcome : (run task state).outcome with
  | ok => rw [stepped.ok outcome, failed]
  | error other =>
      obtain ⟨others, recorded⟩ := List.head?_eq_some_iff.mp failed
      rw [stepped.error other outcome, recorded]
      rfl

end Pool

/-! ## A stratum after a failure -/

/-- The pool has recorded a failure first, nothing waits, and the main store is as it was, apart from
the relations that may grow. -/
structure Machine.Fails (error : TaskError) (growing : List RelationSymbol) (store : FactStore)
    (machine : Machine) : Prop where
  idle : machine.pool.queue = []
  failure : machine.pool.failure = some error
  db : machine.workspace.db.except growing = store

/-- A computation does not end, and stops with a failure that has been recorded before unless it runs
out of fuel. -/
def FailsAgain {α : Type} (error : TaskError) (growing : List RelationSymbol) (store : FactStore)
    (computation : RunM α) (start : Machine) : Prop :=
  Leaves computation start (fun _ _ => False) fun stop later =>
    (∀ reason, stop = .failed reason → reason = error.toEvalError) ∧
      later.Fails error growing store

section

variable {α β : Type} {error : TaskError} {growing : List RelationSymbol} {store : FactStore}
  {start : Machine}

/-- What follows a step that does not end is never reached. -/
theorem FailsAgain.bind {step : RunM α} {next : α → RunM β}
    (fails : FailsAgain error growing store step start) :
    FailsAgain error growing store (step >>= next) start := by
  unfold FailsAgain
  rw [leaves_bind]
  exact Leaves.imp_done fails fun _ _ never => never.elim

theorem failsAgain_modifyGet_bind {change : Machine → α × Machine} {next : α → RunM β} :
    FailsAgain error growing store (modifyGet change >>= next) start ↔
      FailsAgain error growing store (next (change start).1) (change start).2 := by
  unfold FailsAgain
  rw [leaves_bind, leaves_modifyGet]

end

namespace FixpointContext

variable {context : FixpointContext} {error : TaskError} {symbols : List RelationSymbol}
  {store : FactStore} {machine : Machine} {rules : List RulePlan}

/-- A pass after a failure stops with this failure. -/
theorem runRules_failsAgain {strategy : Strategy}
    (derive : ∀ plan ∈ rules, plan.headSymbol ∈ symbols)
    (triggered : ∀ plan ∈ strategy.triggered, plan.headSymbol ∈ symbols)
    (fails : machine.Fails error (strategy.growing symbols) store) :
    FailsAgain error (strategy.growing symbols) store (context.runRules strategy rules) machine := by
  let kept : Pool Task TaskError → Workspace → Prop := fun pool workspace =>
    (∀ task ∈ pool.queue, task.DerivesIn symbols) ∧ pool.failure = some error ∧
      workspace.db.except (strategy.growing symbols) = store
  have start : kept (machine.pool.submitAll (rules.map .evaluate)) machine.workspace := by
    refine ⟨fun task member => ?_, (Pool.failure_submitAll _ _).trans fails.failure, fails.db⟩
    rw [Pool.queue_submitAll, fails.idle, List.nil_append] at member
    obtain ⟨plan, planMember, rfl⟩ := List.mem_map.mp member
    exact derive plan planMember
  apply leaves_runRules ?_ start
  · exact ⟨by simp, fails⟩
  · rintro pool workspace ⟨-, failure, db⟩ idle
    refine ⟨fun noFailure => ?_, fun other isOther => ?_⟩
    · rw [noFailure] at failure
      cases failure
    · obtain rfl := Option.some.inj (failure.symm.trans isOther)
      exact ⟨fun reason same => (Stop.failed.inj same).symm, idle, failure, db⟩
  · rintro task pool later state last stepped ⟨derives, failure, db⟩
    let tasks : TaskContext :=
      { functions := context.functions, strategy, taskSize := context.taskSize }
    obtain ⟨same, spawned⟩ := tasks.run_confined triggered (derives task stepped.taken) state
    rw [← stepped.state_eq] at same
    refine ⟨fun other member => ?_, stepped.failure_eq failure, same.trans db⟩
    exact (stepped.after other member).elim (derives other) (spawned other)

/-- Evaluating a stratum after a failure stops with this failure, whatever the rules would derive. -/
theorem evaluateRounds_failsAgain (derive : ∀ plan ∈ context.rules, plan.headSymbol ∈ symbols)
    (fails : machine.Fails error [] store) (rank : Nat) :
    FailsAgain error [] store (context.evaluateRounds rank) machine := by
  have seeded : Machine.Fails error [] store
      { machine with workspace := context.seed machine.workspace } := { fails with }
  unfold evaluateRounds updateWorkspace
  rw [failsAgain_modifyGet_bind]
  apply FailsAgain.bind
  cases context.fuel with
  | zero => exact ⟨by simp, seeded⟩
  | succ fuel =>
      have reset : Machine.Fails error [] store
          { machine with workspace := { context.seed machine.workspace with derived := 0 } } :=
        { fails with }
      unfold rounds FixpointContext.round updateWorkspace
      apply FailsAgain.bind
      rw [failsAgain_modifyGet_bind]
      apply FailsAgain.bind
      exact runRules_failsAgain derive (by simp [Strategy.triggered]) reset

@[inherit_doc evaluateRounds_failsAgain]
theorem evaluateEagerly_failsAgain (derive : ∀ plan ∈ context.rules, plan.headSymbol ∈ symbols)
    (fails : machine.Fails error symbols store) (rank : Nat) :
    FailsAgain error symbols store (context.evaluateEagerly rank) machine := by
  have reset : Machine.Fails error symbols store
      { machine with workspace := { machine.workspace with derived := 0 } } := { fails with }
  unfold evaluateEagerly FixpointContext.pass updateWorkspace
  rw [failsAgain_modifyGet_bind]
  apply FailsAgain.bind
  unfold FailsAgain
  rw [leaves_bind, leaves_get]
  apply FailsAgain.bind
  exact runRules_failsAgain derive (fun plan member => derive plan (List.mem_of_mem_filter member))
    reset

/-- Between passes no task waits, and a failure has been recorded by the pool. -/
theorem maintains_idle (strategy : Strategy) :
    context.Maintains strategy (fun _ => True) (fun machine => machine.pool.queue = [])
      fun stop later => later.pool.queue = [] ∧ ∀ reason, stop = .failed reason →
        ∃ error, later.pool.failure = some error ∧ error.toEvalError = reason where
  outOfFuel idle := ⟨idle, by simp⟩
  runRules _ idle := by
    apply @leaves_runRules _ _ _ _ _ _ (fun _ _ => True) (fun _ _ => trivial) trivial
    · exact ⟨idle, by simp⟩
    · rintro pool workspace - idle
      refine ⟨fun _ => idle, fun error failure => ⟨idle, fun reason same => ?_⟩⟩
      exact ⟨error, failure, Stop.failed.inj same⟩
  reset idle := idle
  seed idle := idle
  merge idle := idle
  clear idle := idle

end FixpointContext

/-! ## Runs -/

namespace Evaluation

variable {program : Program} {strata : List Stratum} {functions : Registry} {config : Config}
  {schedule : Schedule} {resources : Planner.Resources} {evaluation start later : Evaluation}
  {error : TaskError} {fuel : Nat}

theorem SetUp.headSymbol_eq
    (setUp : SetUp program strata functions config schedule resources evaluation)
    {symbol : RelationSymbol} {plan : RulePlan} (member : plan ∈ evaluation.plansFor symbol) :
    plan.headSymbol = symbol := by
  obtain ⟨entry, inRules, rfl, planMember⟩ := exists_entry_of_mem_plansFor member
  obtain ⟨parts, rulesEq, planned⟩ := setUp.rules
  rw [rulesEq] at inRules
  obtain ⟨part, inParts, inPart⟩ := List.mem_flatten.mp inRules
  obtain ⟨stratum, -, -, plansSymbols⟩ := exists_right_of_forall₂ planned inParts
  obtain ⟨other, -, sameSymbol, plans⟩ := exists_right_of_forall₂ plansSymbols inPart
  obtain ⟨variant, variantMember, plansVariant⟩ := exists_right_of_forall₂ plans planMember
  obtain ⟨rule, ruleMember, isVariant⟩ := List.mem_flatMap.mp variantMember
  have headEq : rule.head.symbol = other := by simpa using (List.mem_filter.mp ruleMember).2
  rw [RulePlan.headSymbol, plansVariant.head_eq isVariant, headEq, sameSymbol]

theorem SetUp.idle
    (setUp : SetUp program strata functions config schedule resources evaluation) :
    evaluation.machine.pool.queue = [] := by
  have loaded := setUp.loaded
  unfold loadFacts at loaded
  dsimp only at loaded
  split at loaded
  · rw [← Except.ok.inj loaded]
  · next drained =>
      split at loaded
      · cases loaded
      · rw [← Except.ok.inj loaded]
        exact Pool.queue_eq_nil_of_drain drained

theorem stats_runStrata (fuel : Nat) (chosen : List Stratum) (start : Evaluation) :
    Leaves (runStrata fuel chosen) start (fun _ later => later.stats = start.stats)
      fun _ later => later.stats = start.stats := by
  induction chosen generalizing start with
  | nil => exact rfl
  | cons stratum chosen ih =>
      have one : Leaves (runStratum fuel stratum) start (fun _ later => later.stats = start.stats)
          fun _ later => later.stats = start.stats := by
        unfold runStratum
        rw [leaves_bind, leaves_get]
        have any : ∀ (step : RunM StratumStats) machine,
            Leaves step machine (fun _ _ => True) fun _ _ => True := by
          intro step machine
          unfold Leaves
          split <;> trivial
        refine ((leaves_ofRunM (any _ _)).imp_stopped ?_).bind ?_
        · rintro _ _ ⟨machine, rfl, -⟩
          rfl
        · rintro _ _ ⟨machine, rfl, -⟩
          exact rfl
      apply one.bind
      intro stats middle same
      have others := (ih middle).mono (fun _ _ same' => same'.trans same)
        fun _ _ same' => same'.trans same
      exact others.bind fun _ _ same => same

theorem stats_of_run_eq_ok {stats : List StratumStats}
    (ran : run fuel start = .ok stats later) : later.stats = some stats := by
  unfold run at ran
  obtain ⟨_, _, got, ran⟩ := bind_eq_ok.mp ran
  cases got
  cases known : start.stats with
  | some earlier =>
      rw [known] at ran
      cases ran
      exact known
  | none =>
      rw [known] at ran
      obtain ⟨_, middle, -, ran⟩ := bind_eq_ok.mp ran
      obtain ⟨_, last, set, ended⟩ := bind_eq_ok.mp ran
      cases set
      cases ended
      rfl

theorem run_of_stats {stats : List StratumStats} (known : start.stats = some stats) (fuel : Nat) :
    run fuel start = .ok stats start := by
  unfold run
  refine bind_eq_ok.mpr ⟨start, start, rfl, ?_⟩
  rw [known]
  rfl

/-- A question changes the terms of an evaluation and nothing else. -/
theorem exists_withTerms {outcome : Except EvalError (List Tuple)}
    (answered : start.queryAnswer = some (outcome, later)) :
    ∃ terms, later = start.withTerms terms := by
  obtain ⟨plan, -, answered⟩ := Option.map_eq_some_iff.mp answered
  dsimp only at answered
  split at answered
  · cases answered
    exact ⟨_, rfl⟩
  · cases answered
    exact ⟨_, rfl⟩

theorem HasServed.stats_eq {stats : List StratumStats} (known : start.stats = some stats)
    (served : HasServed start later) : later.stats = some stats := by
  induction served with
  | never => exact known
  | ended _ ran before =>
      rw [run_of_stats before] at ran
      cases ran
      exact before
  | stopped _ stopped before =>
      rw [run_of_stats before] at stopped
      cases stopped
  | asked _ answered before =>
      obtain ⟨terms, rfl⟩ := exists_withTerms answered
      exact before

/-! ## Runs after a failure -/

/-- A run has failed, and nothing is remembered but the first failure. -/
structure HasFailed (evaluation : Evaluation) (error : TaskError) (later : Evaluation) : Prop where
  continues : evaluation.Continues later
  stratified : evaluation.strata ≠ []
  unfinished : later.stats = none
  idle : later.machine.pool.queue = []
  failure : later.machine.pool.failure = some error

/-- The relations that a run may change if an earlier one has failed: in rounds none, and eagerly those
of the first stratum. -/
def regrowing (evaluation : Evaluation) : List RelationSymbol :=
  if evaluation.config.eager then (evaluation.strata.head?.map Stratum.symbols).getD [] else []

theorem runStratum_failsAgain {stratum : Stratum}
    (derive : ∀ plan ∈ (start.fixpointContext fuel stratum).rules, plan.headSymbol ∈ stratum.symbols)
    {growing : List RelationSymbol}
    (growingEq : growing = if start.config.eager then stratum.symbols else [])
    (idle : start.machine.pool.queue = []) (failure : start.machine.pool.failure = some error) :
    Leaves (runStratum fuel stratum) start (fun _ _ => False) fun stop last =>
      (∀ reason, stop = .failed reason → reason = error.toEvalError) ∧
        ∃ machine, last = { start with machine } ∧
          machine.Fails error growing (start.db.except growing) := by
  have fails : start.machine.Fails error growing (start.db.except growing) := ⟨idle, failure, rfl⟩
  have evaluated : FailsAgain error growing (start.db.except growing)
      (if start.config.eager then
        (start.fixpointContext fuel stratum).evaluateEagerly stratum.rank
      else
        (start.fixpointContext fuel stratum).evaluateRounds stratum.rank) start.machine := by
    cases eager : start.config.eager with
    | true =>
        obtain rfl : growing = stratum.symbols := by rw [growingEq, eager, if_pos rfl]
        exact FixpointContext.evaluateEagerly_failsAgain derive fails _
    | false =>
        obtain rfl : growing = [] := by simpa [eager] using growingEq
        exact FixpointContext.evaluateRounds_failsAgain derive fails _
  unfold runStratum
  rw [leaves_bind, leaves_get]
  refine ((leaves_ofRunM evaluated).imp_stopped ?_).bind ?_
  · rintro stop _ ⟨machine, rfl, sameError, fails⟩
    exact ⟨sameError, machine, rfl, fails⟩
  · rintro _ _ ⟨_, -, never⟩
    exact never.elim

/-- Once a run has failed, every run fails with the same error. -/
theorem HasFailed.run_failsAgain
    (setUp : SetUp program strata functions config schedule resources evaluation)
    (failed : HasFailed evaluation error later) (fuel : Nat) :
    Leaves (run fuel) later (fun _ _ => False) fun stop last =>
      (∀ reason, stop = .failed reason → reason = error.toEvalError) ∧
        HasFailed evaluation error last ∧
          last.db.except evaluation.regrowing = later.db.except evaluation.regrowing := by
  obtain ⟨first, others, split⟩ := List.exists_cons_of_ne_nil failed.stratified
  have derive : ∀ plan ∈ (later.fixpointContext fuel first).rules,
      plan.headSymbol ∈ first.symbols := by
    rw [failed.continues.context_eq]
    intro plan member
    obtain ⟨symbol, inStratum, planMember⟩ := List.mem_flatMap.mp member
    rwa [setUp.headSymbol_eq planMember]
  have growingEq : evaluation.regrowing = if later.config.eager then first.symbols else [] := by
    rw [regrowing, split, failed.continues.config_eq]
    rfl
  have one := runStratum_failsAgain derive growingEq failed.idle failed.failure
  unfold run
  rw [leaves_bind, leaves_get, failed.unfinished, failed.continues.strata_eq, split, leaves_bind,
    runStrata, leaves_bind]
  refine one.mono (fun _ _ never => never.elim) ?_
  rintro stop _ ⟨sameError, machine, rfl, fails⟩
  exact ⟨sameError, ⟨{ failed.continues with }, failed.stratified, failed.unfinished, fails.idle,
    fails.failure⟩, fails.db⟩

/-- Runs and questions after a run that has failed do not make up for it. -/
theorem HasFailed.served
    (setUp : SetUp program strata functions config schedule resources evaluation)
    (failed : HasFailed evaluation error start) (served : HasServed start later) :
    HasFailed evaluation error later := by
  induction served with
  | never => exact failed
  | ended _ ran before => exact ((before.run_failsAgain setUp _).of_ok ran).elim
  | stopped _ stopped before => exact ((before.run_failsAgain setUp _).of_error stopped).2.1
  | asked _ answered before =>
      obtain ⟨terms, rfl⟩ := exists_withTerms answered
      exact { before with continues := { before.continues with } }

theorem HasServed.idle
    (setUp : SetUp program strata functions config schedule resources evaluation)
    (served : HasServed evaluation later) :
    evaluation.Continues later ∧ later.machine.pool.queue = [] := by
  have maintains : ∀ {start : Evaluation} {fuel : Nat}, ∀ stratum ∈ start.strata,
      start.MaintainsIn fuel (fun machine => machine.pool.queue = []) _ stratum :=
    fun stratum _ => (FixpointContext.maintains_idle _).of_suits fun _ _ => trivial
  induction served with
  | never => exact ⟨.refl evaluation, setUp.idle⟩
  | ended _ ran before =>
      have done := (run_maintains maintains before.2).of_ok ran
      exact ⟨before.1.trans done.1, done.2⟩
  | stopped _ stopped before =>
      have done := (run_maintains maintains before.2).of_error stopped
      exact ⟨before.1.trans done.1, done.2.1⟩
  | asked _ answered before =>
      obtain ⟨terms, rfl⟩ := exists_withTerms answered
      exact ⟨{ before.1 with }, before.2⟩

/-- A run stops in a stratum, before anything is remembered. -/
theorem runStrata_of_run_eq_error {stop : Stop} (stopped : run fuel start = .error stop later) :
    start.stats = none ∧ runStrata fuel start.strata start = .error stop later := by
  cases known : start.stats with
  | some stats =>
      rw [run_of_stats known] at stopped
      cases stopped
  | none =>
      unfold run at stopped
      rcases bind_eq_error.mp stopped with stopped | ⟨_, _, got, stopped⟩
      · cases stopped
      · cases got
        rw [known] at stopped
        rcases bind_eq_error.mp stopped with stopped | ⟨_, _, _, stopped⟩
        · exact ⟨rfl, stopped⟩
        · rcases bind_eq_error.mp stopped with stopped | ⟨_, _, _, stopped⟩
          · cases stopped
          · cases stopped

/-- A run that fails leaves behind the failure that it reports. -/
theorem HasServed.hasFailed
    (setUp : SetUp program strata functions config schedule resources evaluation)
    (served : HasServed evaluation start) {reason : EvalError}
    (failed : run fuel start = .error (.failed reason) later) :
    ∃ error, error.toEvalError = reason ∧ HasFailed evaluation error later := by
  obtain ⟨continues, idle⟩ := served.idle setUp
  obtain ⟨unfinished, stopped⟩ := runStrata_of_run_eq_error failed
  have maintains : ∀ stratum ∈ start.strata,
      start.MaintainsIn fuel (fun machine => machine.pool.queue = []) _ stratum :=
    fun stratum _ => (FixpointContext.maintains_idle _).of_suits fun _ _ => trivial
  obtain ⟨continues', idle', recorded⟩ := (run_maintains maintains idle).of_error failed
  obtain ⟨error, failure, isReason⟩ := recorded reason rfl
  refine ⟨error, isReason, continues.trans continues', fun none => ?_, ?_, idle', failure⟩
  · rw [continues.strata_eq, none] at stopped
    cases stopped
  · rw [(stats_runStrata fuel start.strata start).of_error stopped, unfinished]

/-- A run that has ended is repeated with the same statistics and changes nothing.  A run that has failed
is never made up for: every later run that comes to an end fails with the same error.  In rounds it
leaves all relations as they are, and eagerly those outside the first stratum. -/
theorem run_repeats
    (accepted : setup program strata functions config schedule = .ok evaluation)
    (served : HasServed evaluation start) :
    (∀ stats after, run fuel start = .ok stats after → ∀ later, HasServed after later →
        ∀ more, run more later = .ok stats later) ∧
      ∀ reason after, run fuel start = .error (.failed reason) after →
        ∀ later, HasServed after later → ∀ more, Leaves (run more) later (fun _ _ => False)
          fun stop last => (∀ reason', stop = .failed reason' → reason' = reason) ∧
            (config.eager = false → last.db = later.db) ∧
              (config.eager = true → ∀ symbol, (∀ first ∈ strata.head?, symbol ∉ first.symbols) →
                last.db.relation? symbol = later.db.relation? symbol ∧
                  last.db.tuplesOf symbol = later.db.tuplesOf symbol) := by
  obtain ⟨resources, setUp⟩ := exists_setUp accepted
  refine ⟨fun stats after ran later served' more => ?_, fun reason after failed later served' more => ?_⟩
  · exact run_of_stats (served'.stats_eq (stats_of_run_eq_ok ran)) more
  · obtain ⟨error, rfl, hasFailed⟩ := served.hasFailed setUp failed
    apply ((hasFailed.served setUp served').run_failsAgain setUp more).imp_stopped
    rintro stop last ⟨sameError, -, same⟩
    rw [regrowing, setUp.config_eq, setUp.strata_eq] at same
    refine ⟨sameError, fun inRounds => ?_, fun eager symbol elsewhere => ?_⟩
    · simpa [inRounds] using same
    · rw [if_pos eager] at same
      have outside : symbol ∉ (strata.head?.map Stratum.symbols).getD [] := by
        cases isFirst : strata.head? with
        | none => simp
        | some first => exact elsewhere first isFirst
      refine ⟨?_, FactStore.tuplesOf_eq_of_except same outside⟩
      rw [← FactStore.relation?_except _ outside, same, FactStore.relation?_except _ outside]

theorem run_repeats_sample :
    (∃ evaluation stats after,
      ofProgram Sample.program Sample.functions {} .firstInFirstOut = .ok evaluation ∧
        run 20 evaluation = .ok stats after ∧ run 20 after = .ok stats after) ∧
      ∃ evaluation reason after,
        ofProgram Sample.program Sample.failingFunctions {} .firstInFirstOut = .ok evaluation ∧
          run 20 evaluation = .error (.failed reason) after ∧
            Leaves (run 20) after (fun _ _ => False) fun stop last =>
              (∀ reason', stop = .failed reason' → reason' = reason) ∧ last.db = after.db := by
  constructor
  · have ended : endsWell 20 (ofProgram Sample.program Sample.functions {} .firstInFirstOut) =
        true := by
      decide +kernel
    obtain ⟨evaluation, stats, after, accepted, ran, -⟩ := exists_of_endsWell ended
    exact ⟨evaluation, stats, after, accepted, ran,
      (run_repeats accepted .never).1 stats after ran after .never 20⟩
  · have failed : failsWell 20
        (ofProgram Sample.program Sample.failingFunctions {} .firstInFirstOut) = true := by
      decide +kernel
    obtain ⟨evaluation, reason, after, accepted, failed, -⟩ := exists_of_failsWell failed
    refine ⟨evaluation, reason, after, accepted, failed, ?_⟩
    exact ((run_repeats accepted .never).2 reason after failed after .never 20).imp_stopped
      fun _ _ repeated => ⟨repeated.1, repeated.2.1 rfl⟩

end Evaluation

end Datalog
