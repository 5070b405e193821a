import Datalog.Proofs.Engine.Failure
import Datalog.Proofs.Engine.Upkeep
import Datalog.Proofs.Safety.Passes

/-!
# Only calls fail

The rules of an accepted program have safe plans, so its runs are safe: a task comes upon no unknown
variable, no slot that does not exist and no literal that is out of place.  If a run fails, a registered
function or solver is to blame.
-/

namespace Datalog

namespace Evaluation

variable {program : Program} {functions : Registry} {config : Config} {schedule : Schedule}
  {strata : List Stratum} {resources : Planner.Resources} {evaluation start later : Evaluation}
  {stratum : Stratum} {fuel : Nat}

/-! ## Safe strata -/

/-- The plans of a stratum are safe; eagerly, they match the marked atom before they scan anything. -/
theorem SetUp.safe
    (setUp : SetUp program strata functions config schedule resources evaluation)
    (layers : program.Layers strata) (wellFormed : program.WellFormed) (member : stratum ∈ strata)
    {plan : RulePlan} (planMember : plan ∈ stratum.symbols.flatMap evaluation.plansFor) :
    (∃ origin, plan.Safe functions origin) ∧
      (config.eager = true → plan.source.isDeltaFirst = true) := by
  obtain ⟨rule, ruleMember, variant, isVariant, plans⟩ :=
    setUp.plan_of_mem layers.separate member planMember
  obtain ⟨names, made⟩ := plans.made
  have headEq := plans.head_eq isVariant
  have outside : ∀ atom, .predicate atom ∈ rule.body → atom.negated = true →
      atom.symbol ∉ stratum.symbols := fun _ =>
    Program.not_mem_of_negated (setUp.negatesWithin_eq_false layers member) ruleMember
  refine ⟨⟨⟨!config.eager, resources, names⟩, made, plans.ordered.evaluable,
    plans.ordered.head_bound, ?_, fun literal inBody marked => ?_⟩, plans.deltaFirst⟩
  · rw [RulePlan.headSymbol, headEq]
    exact (wellFormed.heads rule (Program.mem_rulesOf.mp ruleMember).1).length_eq
  · obtain ⟨atom, atomEq, positive, -⟩ :=
      (plans.proper isVariant outside literal inBody).marked marked
    exact ⟨atom, atomEq, positive⟩

/-- An evaluation under way that is in order, whatever its relations hold. -/
structure InOrder (functions : Registry) (evaluation later : Evaluation) : Prop where
  config_eq : later.config = evaluation.config
  strata_eq : later.strata = evaluation.strata
  context_eq : ∀ fuel stratum,
    later.fixpointContext fuel stratum = evaluation.fixpointContext fuel stratum
  machine : later.machine.InOrder functions

theorem InOrder.withMachine (inOrder : InOrder functions evaluation start) {machine : Machine}
    (machineInOrder : machine.InOrder functions) :
    InOrder functions evaluation { start with machine } :=
  { inOrder with machine := machineInOrder }

theorem InOrder.continue (inOrder : InOrder functions evaluation start)
    (continues : start.Continues later) (machine : later.machine.InOrder functions) :
    InOrder functions evaluation later where
  config_eq := continues.config_eq.trans inOrder.config_eq
  strata_eq := continues.strata_eq.trans inOrder.strata_eq
  context_eq fuel stratum :=
    (continues.context_eq fuel stratum).trans (inOrder.context_eq fuel stratum)
  machine := machine

/-- A run has stopped for lack of fuel or because a call has failed, and has left everything in order. -/
def StoppedByCall (functions : Registry) (evaluation : Evaluation) (stop : Stop)
    (later : Evaluation) : Prop :=
  InOrder functions evaluation later ∧ ∀ error, stop = .failed error → functions.Raises error

theorem SetUp.maintains_inOrder
    (setUp : SetUp program strata functions config schedule resources evaluation)
    (layers : program.Layers strata) (wellFormed : program.WellFormed) (member : stratum ∈ strata)
    (inOrder : InOrder functions evaluation start) :
    start.MaintainsIn fuel (fun machine => machine.InOrder functions)
      (Machine.StoppedByCall functions) stratum := by
  have functionsEq : (start.fixpointContext fuel stratum).functions = functions := by
    rw [inOrder.context_eq fuel stratum]
    exact setUp.functions_eq
  have safe := fun plan (planMember : plan ∈ (start.fixpointContext fuel stratum).rules) =>
    setUp.safe layers wellFormed member (inOrder.context_eq fuel stratum ▸ planMember)
  have eagerEq : start.config.eager = config.eager := by
    rw [inOrder.config_eq, setUp.config_eq]
  unfold MaintainsIn
  rw [← functionsEq] at safe ⊢
  refine (FixpointContext.maintains_inOrder ?_).of_suits fun plan isRule => (safe plan isRule).1
  intro plan triggered
  unfold FixpointContext.strategyOf at triggered
  split at triggered
  · next eager =>
      have isRule := List.mem_of_mem_filter triggered
      exact ⟨(safe plan isRule).1, (safe plan isRule).2 (eagerEq ▸ eager)⟩
  · cases triggered

/-- A run ends in order unless a call fails, and is in order then as well. -/
theorem run_leaves_inOrder
    (setUp : SetUp program strata functions config schedule resources evaluation)
    (layers : program.Layers strata) (wellFormed : program.WellFormed)
    (inOrder : InOrder functions evaluation start) :
    Leaves (run fuel) start (fun _ later => InOrder functions evaluation later)
      (StoppedByCall functions evaluation) := by
  have maintains : ∀ stratum ∈ start.strata, start.MaintainsIn fuel
      (fun machine => machine.InOrder functions) (Machine.StoppedByCall functions) stratum := by
    rw [inOrder.strata_eq, setUp.strata_eq]
    exact fun stratum member => setUp.maintains_inOrder layers wellFormed member inOrder
  refine (run_maintains maintains inOrder.machine).mono ?_ ?_
  · rintro stats later ⟨continues, machineInOrder⟩
    exact inOrder.continue continues machineInOrder
  · rintro stop later ⟨continues, machineInOrder, raises⟩
    exact ⟨inOrder.continue continues machineInOrder, raises⟩

theorem storesValid_workspace (valid : resources.Valid) :
    (resources.workspace config schedule).StoresValid :=
  ⟨StorePlan.valid_build valid.main, StorePlan.valid_build valid.delta,
    StorePlan.valid_build valid.delta⟩

/-- Once the base facts have been loaded, everything is in order: no task has failed, whatever the calls
of registered functions might do. -/
theorem SetUp.inOrder
    (setUp : SetUp program strata functions config schedule resources evaluation)
    (wellFormed : program.WellFormed) (registry : Registry) :
    InOrder registry evaluation evaluation := by
  refine ⟨rfl, rfl, fun _ _ => rfl, ?_⟩
  have empty : (resources.workspace config schedule).StoresValid := storesValid_workspace setUp.valid
  have declared : program.schema.declared = program.relations := rfl
  obtain ⟨kept, idle, noFailure⟩ := keepsDeltas_loadFacts wellFormed declared empty setUp.loaded
  exact ⟨idle, kept.valid, by simp [noFailure]⟩

/-! ## Runs -/

/-- What an evaluation has become after some runs, each of which has ended or stopped. -/
inductive HasRun (evaluation : Evaluation) : Evaluation → Prop
  | never : HasRun evaluation evaluation
  | ended {start later : Evaluation} {fuel : Nat} {stats : List StratumStats}
      (before : HasRun evaluation start) (ran : run fuel start = .ok stats later) :
      HasRun evaluation later
  | stopped {start later : Evaluation} {fuel : Nat} {stop : Stop}
      (before : HasRun evaluation start) (stopped : run fuel start = .error stop later) :
      HasRun evaluation later

theorem HasRun.inOrder
    (setUp : SetUp program strata functions config schedule resources evaluation)
    (layers : program.Layers strata) (wellFormed : program.WellFormed)
    (hasRun : HasRun evaluation later) : InOrder functions evaluation later := by
  induction hasRun with
  | never => exact setUp.inOrder wellFormed functions
  | ended _ ran ih => exact (run_leaves_inOrder setUp layers wellFormed ih).of_ok ran
  | stopped _ stopped ih => exact ((run_leaves_inOrder setUp layers wellFormed ih).of_error stopped).1

/-- In a run of an accepted program every failure of a task comes from a call: no task reads a slot that
does not exist, enters a branch that its plan rules out, evaluates an unknown variable or calls an unknown
function.  An error that the run gives is one that a registered function or solver gives when it is
called, or the record of its panic. -/
theorem failures_come_from_calls (built : program.Built)
    (accepted : ofProgram program functions config schedule = .ok evaluation)
    (hasRun : HasRun evaluation start) :
    (∀ stats later, run fuel start = .ok stats later →
      ∀ failure ∈ later.machine.pool.failures, failure.ComesFromCall functions) ∧
    ∀ stop later, run fuel start = .error stop later →
      (∀ failure ∈ later.machine.pool.failures, failure.ComesFromCall functions) ∧
        ∀ error, stop = .failed error → functions.Raises error := by
  obtain ⟨resources, setUp⟩ := exists_setUp accepted
  have wellFormed := built.wellFormed
  have layers := Program.layers_stratify wellFormed
  have startInOrder := hasRun.inOrder setUp layers wellFormed
  have leaves : Leaves (run fuel) start (fun _ later => InOrder functions evaluation later)
      (StoppedByCall functions evaluation) :=
    run_leaves_inOrder setUp layers wellFormed startInOrder
  refine ⟨fun stats later ran => (leaves.of_ok ran).machine.failures, fun stop later stopped => ?_⟩
  obtain ⟨inOrder, raises⟩ := leaves.of_error stopped
  exact ⟨inOrder.machine.failures, raises⟩

theorem failures_come_from_calls_sample :
    ∃ evaluation error later,
      ofProgram Sample.program Sample.failingFunctions {} .firstInFirstOut = .ok evaluation ∧
        run 20 evaluation = .error (.failed error) later ∧
          (∀ failure ∈ later.machine.pool.failures,
            failure.ComesFromCall Sample.failingFunctions) ∧
              Sample.failingFunctions.Raises error := by
  have failed : failsWell 20
      (ofProgram Sample.program Sample.failingFunctions {} .firstInFirstOut) = true := by
    decide +kernel
  obtain ⟨evaluation, error, later, accepted, failed, -⟩ := exists_of_failsWell failed
  obtain ⟨failures, raises⟩ :=
    (failures_come_from_calls Sample.built accepted .never).2 _ _ failed
  exact ⟨evaluation, error, later, accepted, failed, failures, raises error rfl⟩

end Evaluation

end Datalog
