import Datalog.Proofs.Evaluation.Upkeep
import Datalog.Proofs.Safety.Tasks

/-!
# Safe passes

A pool that starts with the safe plans of a stratum only ever takes safe tasks, in whatever order.  So a
pass ends with everything in order unless a call fails, and a stratum keeps that from pass to pass.
-/

namespace Datalog

/-! ## Pools -/

/-- While a pass is under way the waiting tasks are safe, and all failures so far come from calls. -/
structure Pool.InOrder (functions : Registry) (pool : Pool Task TaskError) (workspace : Workspace) :
    Prop where
  stores : workspace.StoresValid
  queued : ∀ task ∈ pool.queue, task.Safe functions
  failures : ∀ failure ∈ pool.failures, failure.ComesFromCall functions

theorem Pool.InOrder.step {context : TaskContext} {task : Task} {pool later : Pool Task TaskError}
    {workspace last : Workspace}
    (triggerable : ∀ plan ∈ context.strategy.triggered, plan.Triggerable context.functions)
    (stepped : Pool.Stepped context.run task pool later workspace last)
    (inOrder : pool.InOrder context.functions workspace) : later.InOrder context.functions last := by
  obtain ⟨stores, spawned, failed⟩ :=
    run_safe triggerable (inOrder.queued task stepped.taken) inOrder.stores
  refine ⟨stepped.state_eq ▸ stores, fun other member => ?_, fun failure member => ?_⟩
  · rcases stepped.after other member with waited | new
    · exact inOrder.queued other waited
    · exact spawned other new
  · cases outcome : (context.run task workspace).outcome with
    | ok value =>
        rw [stepped.ok outcome] at member
        exact inOrder.failures failure member
    | error error =>
        rw [stepped.error error outcome] at member
        rcases List.mem_append.mp member with before | here
        · exact inOrder.failures failure before
        · obtain rfl := List.mem_singleton.mp here
          exact failed failure outcome

/-- Between passes no task waits. -/
structure Machine.InOrder (functions : Registry) (machine : Machine) : Prop where
  idle : machine.pool.queue = []
  stores : machine.workspace.StoresValid
  failures : ∀ failure ∈ machine.pool.failures, failure.ComesFromCall functions

/-- A run has stopped for lack of fuel or because a call has failed, and has left everything in order. -/
def Machine.StoppedByCall (functions : Registry) (stop : Stop) (later : Machine) : Prop :=
  later.InOrder functions ∧ ∀ error, stop = .failed error → functions.Raises error

theorem Machine.InOrder.withWorkspace {functions : Registry} {machine : Machine}
    (inOrder : machine.InOrder functions) {workspace : Workspace} (valid : workspace.StoresValid) :
    ({ machine with workspace } : Machine).InOrder functions :=
  { inOrder with stores := valid }

/-- What counts as the failure of a run comes from a call if all failures of its tasks do. -/
theorem TaskError.ComesFromCall.raises {functions : Registry} {failure : TaskError}
    (fromCall : failure.ComesFromCall functions) : functions.Raises failure.toEvalError := by
  cases failure with
  | failed error => exact fromCall
  | defect cause => exact fromCall.elim

namespace FixpointContext

variable {context : FixpointContext} {machine : Machine} {rules : List RulePlan}

/-! ## Passes -/

/-- Rules, and all tasks that they lead to, are run unless a call fails. -/
theorem runRules_safe {strategy : Strategy}
    (triggerable : ∀ plan ∈ strategy.triggered, plan.Triggerable context.functions)
    (safe : ∀ plan ∈ rules, ∃ origin, plan.Safe context.functions origin)
    (inOrder : machine.InOrder context.functions) :
    Leaves (context.runRules strategy rules) machine
      (fun _ later => later.InOrder context.functions)
      (Machine.StoppedByCall context.functions) := by
  have start : (machine.pool.submitAll (rules.map .evaluate)).InOrder context.functions
      machine.workspace := by
    refine ⟨inOrder.stores, fun task member => ?_, ?_⟩
    · rw [Pool.queue_submitAll, inOrder.idle, List.nil_append] at member
      obtain ⟨plan, planMember, rfl⟩ := List.mem_map.mp member
      exact safe plan planMember
    · rw [Pool.failures_submitAll]
      exact inOrder.failures
  refine leaves_runRules (fun stepped kept => kept.step triggerable stepped) start
    ⟨inOrder, by simp⟩ fun pool workspace ended idle => ?_
  have endInOrder : ({ machine with pool, workspace } : Machine).InOrder context.functions :=
    ⟨idle, ended.stores, ended.failures⟩
  refine ⟨fun _ => endInOrder, fun failure first => ⟨endInOrder, fun error stopEq => ?_⟩⟩
  obtain rfl := Stop.failed.inj stopEq
  exact (ended.failures failure (List.mem_of_mem_head? first)).raises

/-- Safe rules keep everything in order. -/
theorem maintains_inOrder {strategy : Strategy}
    (triggerable : ∀ plan ∈ strategy.triggered, plan.Triggerable context.functions) :
    context.Maintains strategy (fun plan => ∃ origin, plan.Safe context.functions origin)
      (fun machine => machine.InOrder context.functions)
      (Machine.StoppedByCall context.functions) where
  outOfFuel inOrder := ⟨inOrder, by simp⟩
  runRules safe inOrder := runRules_safe triggerable safe inOrder
  reset inOrder := inOrder.withWorkspace { inOrder.stores with }
  seed inOrder := inOrder.withWorkspace inOrder.stores.seed
  merge inOrder := inOrder.withWorkspace inOrder.stores.merge
  clear inOrder := inOrder.withWorkspace { inOrder.stores with delta := inOrder.stores.delta.clear }

end FixpointContext

end Datalog
