import Datalog.Proofs.Evaluation.Outcome
import Datalog.Proofs.Pool

/-!
# What a stratum maintains

Whatever a pass maintains, and what emptying and merging deltas maintain as well, holds when a stratum has
been evaluated, in rounds or eagerly, and where its evaluation has stopped.
-/

namespace Datalog

namespace FixpointContext

variable {context : FixpointContext} {strategy : Strategy} {suits : RulePlan → Prop}
  {machine : Machine} {rules : List RulePlan} {holds : Machine → Prop}
  {stopped : Stop → Machine → Prop}

theorem leaves_runRules {kept : Pool Task TaskError → Workspace → Prop}
    (step : ∀ {task pool later state last},
      Pool.Stepped (TaskContext.run
        { functions := context.functions, strategy, taskSize := context.taskSize })
          task pool later state last → kept pool state → kept later last)
    (start : kept (machine.pool.submitAll (rules.map .evaluate)) machine.workspace)
    (outOfFuel : stopped .outOfFuel machine)
    (ended : ∀ pool workspace, kept pool workspace → pool.queue = [] →
      (pool.failure = none → holds { machine with pool, workspace }) ∧
        ∀ error, pool.failure = some error →
          stopped (.failed error.toEvalError) { machine with pool, workspace }) :
    Leaves (context.runRules strategy rules) machine (fun _ later => holds later) stopped := by
  unfold runRules
  rw [leaves_bind, leaves_get]
  dsimp only
  split
  · exact outOfFuel
  · next pool workspace drained =>
      obtain ⟨isKept, idle⟩ := Pool.drain_induction (fun stepped => step stepped) drained start
      obtain ⟨done, failed⟩ := ended pool workspace isKept idle
      rw [leaves_bind, leaves_set]
      split
      · next error failure => exact failed error failure
      · next noFailure => exact done noFailure

def strategyOf (context : FixpointContext) (eager : Bool) : Strategy :=
  if eager then .eager context.deltaRules else .rounds

/-- As long as the rules suit, a condition holds after every pass, and another one where a pass stops. -/
structure Maintains (context : FixpointContext) (strategy : Strategy) (suits : RulePlan → Prop)
    (holds : Machine → Prop) (stopped : Stop → Machine → Prop) : Prop where
  outOfFuel : ∀ {machine}, holds machine → stopped .outOfFuel machine
  runRules : ∀ {machine rules}, (∀ plan ∈ rules, suits plan) → holds machine →
    Leaves (context.runRules strategy rules) machine (fun _ later => holds later) stopped
  reset : ∀ {machine}, holds machine →
    holds { machine with workspace := { machine.workspace with derived := 0 } }
  seed : ∀ {machine}, holds machine →
    holds { machine with workspace := context.seed machine.workspace }
  merge : ∀ {machine}, holds machine →
    holds { machine with workspace := (context.merge machine.workspace).2 }
  clear : ∀ {machine}, holds machine →
    holds { machine with
      workspace := { machine.workspace with delta := machine.workspace.delta.clear } }

theorem deltaRules_suit (suit : ∀ plan ∈ context.rules, suits plan) :
    ∀ plan ∈ context.deltaRules, suits plan :=
  fun plan member => suit plan (List.mem_of_mem_filter member)

namespace Maintains

theorem of_suits {other : RulePlan → Prop}
    (maintains : context.Maintains strategy suits holds stopped)
    (suit : ∀ plan, other plan → suits plan) : context.Maintains strategy other holds stopped :=
  { maintains with
    runRules := fun rulesSuit => maintains.runRules fun plan member =>
      suit plan (rulesSuit plan member) }

/-! ## Rounds -/

theorem round (maintains : context.Maintains .rounds suits holds stopped)
    (rulesSuit : ∀ plan ∈ rules, suits plan) (held : holds machine) :
    Leaves (context.round rules) machine (fun _ later => holds later) stopped := by
  unfold FixpointContext.round updateWorkspace
  rw [leaves_bind, leaves_modifyGet]
  apply (maintains.runRules rulesSuit (maintains.reset held)).bind
  intro _ later ended
  rw [leaves_modifyGet]
  exact maintains.merge ended

theorem rounds (maintains : context.Maintains .rounds suits holds stopped)
    (suit : ∀ plan ∈ context.rules, suits plan) (fuel : Nat)
    (rulesSuit : ∀ plan ∈ rules, suits plan) (held : holds machine) :
    Leaves (context.rounds fuel rules) machine (fun _ later => holds later) stopped := by
  induction fuel generalizing rules machine with
  | zero => exact maintains.outOfFuel held
  | succ fuel ih =>
      unfold FixpointContext.rounds
      apply (maintains.round rulesSuit held).bind
      intro added middle held
      split
      · exact held
      · exact (ih (deltaRules_suit suit) held).bind fun _ _ ended => ended

theorem evaluateRounds (maintains : context.Maintains .rounds suits holds stopped)
    (suit : ∀ plan ∈ context.rules, suits plan) (rank : Nat) (held : holds machine) :
    Leaves (context.evaluateRounds rank) machine (fun _ later => holds later) stopped := by
  unfold FixpointContext.evaluateRounds updateWorkspace
  rw [leaves_bind, leaves_modifyGet]
  apply (maintains.rounds suit context.fuel suit (maintains.seed held)).bind
  intro _ later ended
  rw [leaves_bind, leaves_modifyGet]
  exact maintains.clear ended

/-! ## Eager evaluation -/

theorem pass (maintains : context.Maintains (.eager context.deltaRules) suits holds stopped)
    (rulesSuit : ∀ plan ∈ rules, suits plan) (held : holds machine) :
    Leaves (context.pass rules) machine (fun _ later => holds later) stopped := by
  unfold FixpointContext.pass
  rw [leaves_bind, leaves_get]
  apply (maintains.runRules rulesSuit held).bind
  intro _ later ended
  rw [leaves_bind, leaves_get]
  exact ended

theorem sweeps (maintains : context.Maintains (.eager context.deltaRules) suits holds stopped)
    (suit : ∀ plan ∈ context.rules, suits plan) (fuel : Nat) (held : holds machine) :
    Leaves (context.sweeps fuel) machine (fun _ later => holds later) stopped := by
  induction fuel generalizing machine with
  | zero => exact maintains.outOfFuel held
  | succ fuel ih =>
      unfold FixpointContext.sweeps
      apply (maintains.pass (deltaRules_suit suit) held).bind
      intro added middle held
      split
      · exact held
      · exact (ih held).bind fun _ _ ended => ended

theorem evaluateEagerly (maintains : context.Maintains (.eager context.deltaRules) suits holds stopped)
    (suit : ∀ plan ∈ context.rules, suits plan) (rank : Nat) (held : holds machine) :
    Leaves (context.evaluateEagerly rank) machine (fun _ later => holds later) stopped := by
  unfold FixpointContext.evaluateEagerly updateWorkspace
  rw [leaves_bind, leaves_modifyGet]
  apply (maintains.pass suit (maintains.reset held)).bind
  intro first middle held
  apply (maintains.sweeps suit context.fuel held).bind
  intro others later held
  rw [leaves_bind, leaves_get]
  exact held

end Maintains

end FixpointContext

end Datalog
