import Datalog.Proofs.Planning.CallFree

/-!
# Strata whose rules call nothing

Rules that call nothing are run in the same way whatever functions are registered, so what holds for an
empty registry holds for every other one.
-/

namespace Datalog

/-- Rules that are safe without any registered function, and trigger such rules. -/
structure Strategy.Alone (strategy : Strategy) (rules : List RulePlan) : Prop where
  safe : ∀ plan ∈ rules, ∃ origin, plan.Safe {} origin
  triggerable : ∀ plan ∈ strategy.triggered, plan.Triggerable {}

namespace FixpointContext

/-- The same stratum with other functions. -/
def calling (context : FixpointContext) (functions : Registry) : FixpointContext :=
  { context with functions }

variable {context : FixpointContext} {machine : Machine} {rules : List RulePlan}

/-- Tasks that call nothing are run as if no function were registered. -/
theorem runRules_eq_of_alone {strategy : Strategy} (alone : strategy.Alone rules)
    (inOrder : machine.InOrder {}) :
    context.runRules strategy rules machine =
      (context.calling {}).runRules strategy rules machine := by
  let tasks : TaskContext :=
    { functions := context.functions, strategy, taskSize := context.taskSize }
  have start : (machine.pool.submitAll (rules.map .evaluate)).InOrder {} machine.workspace := by
    refine ⟨inOrder.stores, fun task member => ?_, ?_⟩
    · rw [Pool.queue_submitAll, inOrder.idle, List.nil_append] at member
      obtain ⟨plan, planMember, rfl⟩ := List.mem_map.mp member
      exact alone.safe plan planMember
    · rw [Pool.failures_submitAll]
      exact inOrder.failures
  have drained : Pool.drain (tasks.calling {}).run context.schedule.order _ _ _ =
      Pool.drain tasks.run _ _ _ _ :=
    Pool.drain_congr (Pool.InOrder.step alone.triggerable)
      (fun inOrder task member =>
        (tasks.run_eq_of_callFree {} (inOrder.queued task member).callFree _).symm)
      start context.fuel
  have got : Leaves (get : RunM Machine) machine (fun value state => value = machine ∧ state = machine)
      fun _ _ => True := ⟨rfl, rfl⟩
  refine bind_congr_of_leaves rfl got ?_
  rintro _ _ ⟨rfl, rfl⟩
  dsimp only [calling, TaskContext.calling] at drained ⊢
  rw [drained]

theorem alone_rounds (safe : ∀ plan ∈ rules, ∃ origin, plan.Safe {} origin) :
    Strategy.rounds.Alone rules :=
  ⟨safe, by simp [Strategy.triggered]⟩

end FixpointContext

end Datalog
