import Datalog.Proofs.Engine.Safety
import Datalog.Proofs.Evaluation.WarrantedTasks

/-!
# Runs with warranted numbers

If calls keep a warrant, all numbers in the stores of an evaluation are warranted, for whatever strata it
was set up: once its base facts have been loaded, and whenever a run has ended or stopped.
-/

namespace Datalog

variable {warrant : Warrant} {start : Workspace}

/-! ## Planned rules -/

namespace Planner

variable {planning : Context} {state : State} {count : String → Nat} {bound : List String}

theorem PlannedAll.exists_planned {functions : Registry} {plans : List PlanTerm} {terms : List Term}
    (planned : PlannedAll functions state plans terms) :
    ∀ plan ∈ plans, ∃ term ∈ terms, Planned functions state plan term := by
  induction plans generalizing terms with
  | nil => simp
  | cons plan plans ih =>
      obtain ⟨⟨term, rest, rfl, first, others⟩, callable, folded⟩ := planned
      refine List.forall_mem_cons.mpr ⟨⟨term, List.mem_cons_self, first, callable.1, folded.1⟩, ?_⟩
      intro other member
      obtain ⟨source, inRest, isPlanned⟩ := ih ⟨others, callable.2, folded.2⟩ other member
      exact ⟨source, List.mem_cons_of_mem _ inRest, isPlanned⟩

/-- A planned literal is warranted if the terms of the literal are and the terms of equations are
covered. -/
theorem PlannedLiteral.warranted {planned : PlanLiteral} {literal : BodyLiteral}
    (plannedLiteral : PlannedLiteral planning state count bound planned literal)
    (hold : ∀ term ∈ literal.literal.terms, warrant.HoldsFor state.resources.terms term)
    (covers : ∀ plan, ∀ term ∈ literal.literal.builders,
      Planned planning.functions state plan term → warrant.covers plan) :
    planned.Warranted warrant state.resources.terms := by
  have both : ∀ {left right : PlanTerm} {first second : Term},
      Planned planning.functions state left first →
        Planned planning.functions state right second →
          warrant.HoldsFor state.resources.terms first →
            warrant.HoldsFor state.resources.terms second →
              PlanTerm.Warranted warrant state.resources.terms [left, right] := by
    intro left right first second plannedLeft plannedRight holdsFirst holdsSecond
    exact PlanTerm.RepresentsAll.warranted
      ⟨first, [second], rfl, plannedLeft.represents, second, [], rfl, plannedRight.represents, rfl⟩
      (by simp [holdsFirst, holdsSecond])
  obtain ⟨literal, delta⟩ := literal
  cases literal with
  | predicate atom =>
      cases planned with
      | scan planned | absent planned =>
          exact ⟨plannedLiteral.2.args.represents.warranted hold, by simp⟩
      | unify | disunify => exact False.elim plannedLiteral
  | unification lhs rhs negated =>
      have holdsLeft := hold lhs (by simp [Literal.terms])
      have holdsRight := hold rhs (by simp [Literal.terms])
      cases planned with
      | scan | absent => cases negated <;> exact False.elim plannedLiteral
      | disunify left right =>
          cases negated with
          | false => exact False.elim plannedLiteral
          | true => exact ⟨both plannedLiteral.1 plannedLiteral.2 holdsLeft holdsRight, by simp⟩
      | unify source pattern =>
          cases negated with
          | true => exact False.elim plannedLiteral
          | false =>
              simp only [PlannedLiteral] at plannedLiteral
              split at plannedLiteral
              · refine ⟨both plannedLiteral.1 plannedLiteral.2 holdsLeft holdsRight, ?_⟩
                rintro _ _ ⟨rfl, rfl⟩
                exact covers source lhs (by simp [Literal.builders]) plannedLiteral.1
              · refine ⟨both plannedLiteral.1 plannedLiteral.2 holdsRight holdsLeft, ?_⟩
                rintro _ _ ⟨rfl, rfl⟩
                exact covers source rhs (by simp [Literal.builders]) plannedLiteral.1

theorem PlannedBody.warranted {planned : List PlanLiteral} {body : List BodyLiteral}
    (plannedBody : PlannedBody planning state count bound planned body)
    (hold : ∀ literal ∈ body, ∀ term ∈ literal.literal.terms,
      warrant.HoldsFor state.resources.terms term)
    (covers : ∀ literal ∈ body, ∀ plan, ∀ term ∈ literal.literal.builders,
      Planned planning.functions state plan term → warrant.covers plan) :
    ∀ literal ∈ planned, literal.Warranted warrant state.resources.terms := by
  induction body generalizing bound planned with
  | nil =>
      cases planned with
      | nil => simp
      | cons => exact plannedBody.elim
  | cons literal body ih =>
      cases planned with
      | nil => exact plannedBody.elim
      | cons planned others =>
          obtain ⟨holdHere, holdThere⟩ := List.forall_mem_cons.mp hold
          obtain ⟨coversHere, coversThere⟩ := List.forall_mem_cons.mp covers
          exact List.forall_mem_cons.mpr
            ⟨plannedBody.1.warranted holdHere coversHere, ih plannedBody.2 holdThere coversThere⟩

end Planner

theorem RulePlan.Made.warranted {functions : Registry} {separateDeltas : Bool}
    {resources : Planner.Resources} {names : List String} {plan : RulePlan}
    (made : plan.Made functions separateDeltas resources names)
    (length : plan.source.head.args.length = plan.headSymbol.arity)
    (hold : ∀ term ∈ plan.source.toRule.terms, warrant.HoldsFor resources.terms term)
    (covers : ∀ planned, ∀ term ∈ plan.source.toRule.builders,
      Planner.Planned functions { resources, names } planned term → warrant.covers planned) :
    plan.Warranted warrant resources.terms where
  head_length := made.head.represents.length_eq.trans length
  head := made.head.represents.warranted fun term member => hold term (List.mem_append_left _ member)
  head_covered planned member := by
    obtain ⟨term, inHead, isPlanned⟩ := made.head.exists_planned planned member
    exact covers planned term (List.mem_append_left _ inHead) isPlanned
  body := made.body.warranted
    (fun _ inBody term inLiteral => hold term (List.mem_append_right _ (List.mem_flatMap.mpr
      ⟨_, DeltaRule.mem_toRule_body.mpr ⟨_, inBody, rfl⟩, inLiteral⟩)))
    fun _ inBody planned term inLiteral => covers planned term (List.mem_append_right _
      (List.mem_flatMap.mpr ⟨_, DeltaRule.mem_toRule_body.mpr ⟨_, inBody, rfl⟩, inLiteral⟩))

/-! ## Pools and passes -/

/-- The stores and the waiting tasks of a pass are warranted. -/
structure Pool.Warranted (warrant : Warrant) (start : Workspace) (pool : Pool Task TaskError)
    (workspace : Workspace) : Prop where
  stores : workspace.Warranted warrant start
  queued : ∀ task ∈ pool.queue, task.Warranted warrant start.terms workspace.terms

theorem Pool.Warranted.step {context : TaskContext} {task : Task} {pool later : Pool Task TaskError}
    {workspace last : Workspace} (honours : context.functions.Honours warrant)
    (triggered : ∀ plan ∈ context.strategy.triggered, plan.Warranted warrant start.terms)
    (stepped : Pool.Stepped context.run task pool later workspace last)
    (warranted : pool.Warranted warrant start workspace) :
    later.Warranted warrant start last := by
  have grown := context.extends_run task workspace
  obtain ⟨kept, spawned⟩ := TaskContext.run_warranted triggered honours warranted.stores
    (warranted.queued task stepped.taken)
  rw [← stepped.state_eq] at kept spawned grown
  refine ⟨kept, fun other member => ?_⟩
  rcases stepped.after other member with waited | new
  · exact (warranted.queued other waited).mono grown
  · exact spawned other new

/-- Between passes no task waits. -/
structure Machine.Warranted (warrant : Warrant) (start : Workspace) (machine : Machine) : Prop where
  idle : machine.pool.queue = []
  stores : machine.workspace.Warranted warrant start

namespace FixpointContext

variable {context : FixpointContext}

theorem maintains_warranted {strategy : Strategy} (honours : context.functions.Honours warrant)
    (triggered : ∀ plan ∈ strategy.triggered, plan.Warranted warrant start.terms) :
    context.Maintains strategy (fun plan => plan.Warranted warrant start.terms)
      (Machine.Warranted warrant start) (fun _ later => later.Warranted warrant start) where
  outOfFuel warranted := warranted
  runRules {machine rules} plans warranted := by
    have submitted : (machine.pool.submitAll (rules.map .evaluate)).Warranted warrant start
        machine.workspace := by
      refine ⟨warranted.stores, fun task member => ?_⟩
      rw [Pool.queue_submitAll, warranted.idle, List.nil_append] at member
      obtain ⟨plan, planMember, rfl⟩ := List.mem_map.mp member
      exact plans plan planMember
    apply leaves_runRules (fun stepped kept => kept.step honours triggered stepped) submitted
    · exact warranted
    · intro pool workspace kept idle
      exact ⟨fun _ => ⟨idle, kept.stores⟩, fun _ _ => ⟨idle, kept.stores⟩⟩
  reset warranted := { warranted with stores := { warranted.stores with } }
  seed warranted := { warranted with stores := warranted.stores.seed context }
  merge warranted := { warranted with stores := warranted.stores.merge context }
  clear warranted :=
    { warranted with
      stores := { warranted.stores with delta := warranted.stores.delta.clear } }

end FixpointContext

/-! ## Runs -/

namespace Evaluation

variable {program : Program} {functions : Registry} {config : Config} {schedule : Schedule}
  {strata : List Stratum} {resources : Planner.Resources} {evaluation later : Evaluation}

theorem SetUp.warranted_plan
    (setUp : SetUp program strata functions config schedule resources evaluation)
    (wellFormed : program.WellFormed) (universal : warrant.Universal) {symbol : RelationSymbol} {plan : RulePlan}
    (member : plan ∈ evaluation.plansFor symbol) : plan.Warranted warrant resources.terms := by
  obtain ⟨rule, ruleMember, symbols, variant, isVariant, planned⟩ := setUp.exists_variant member
  obtain ⟨names, made⟩ := planned.made
  have headEq := planned.head_eq isVariant
  refine made.warranted ?_ (fun term _ => universal.holdsFor _ term)
    fun planned _ _ _ => universal.covers planned
  rw [RulePlan.headSymbol, headEq]
  exact (wellFormed.heads rule ruleMember).length_eq

theorem warranted_workspace (universal : warrant.Universal) (valid : resources.Valid) :
    (resources.workspace config schedule).Warranted warrant
      (resources.workspace config schedule) where
  terms := universal.distinct valid.distinct
  grown := .refl _
  limits_eq := rfl
  db := ⟨StorePlan.valid_build valid.main, fun _ _ holds =>
    absurd holds (StorePlan.not_holds_build valid.main)⟩
  delta := ⟨StorePlan.valid_build valid.delta, fun _ _ holds =>
    absurd holds (StorePlan.not_holds_build valid.delta)⟩
  nextDelta := ⟨StorePlan.valid_build valid.delta, fun _ _ holds =>
    absurd holds (StorePlan.not_holds_build valid.delta)⟩

theorem SetUp.warranted
    (setUp : SetUp program strata functions config schedule resources evaluation)
    (wellFormed : program.WellFormed) (universal : warrant.Universal)
    (honours : functions.Honours warrant) :
    evaluation.machine.Warranted warrant (resources.workspace config schedule) := by
  obtain ⟨pool, last, workspace, loadRun, outcome⟩ := exists_loadRun wellFormed functions config
    schedule (resources.workspace config schedule)
  have isLoad : ∀ task ∈ pool.queue, task.Loads program.schema :=
    loadRun.loads wellFormed (taskSize_pos config) rfl
  have submitted : pool.Warranted warrant (resources.workspace config schedule)
      (resources.workspace config schedule) := by
    refine ⟨warranted_workspace universal setUp.valid, fun task member => ?_⟩
    obtain ⟨symbol, facts, rfl, -, lengths⟩ := (isLoad task member).exists_load
    exact ⟨universal.coversFacts, lengths⟩
  have noTriggers : ∀ plan ∈ (loadContext functions config).strategy.triggered,
      plan.Warranted warrant resources.terms := by
    simp [Strategy.triggered]
  obtain ⟨kept, idle⟩ := Pool.drain_induction
    (motive := fun pool workspace =>
      pool.Warranted warrant (resources.workspace config schedule) workspace)
    (fun stepped kept => kept.step honours noTriggers stepped) loadRun.drained submitted
  have loaded := setUp.loaded
  rw [outcome] at loaded
  split at loaded
  · cases loaded
  · rw [← Except.ok.inj loaded]
    exact ⟨idle, kept.stores⟩

theorem SetUp.maintains_warranted
    (setUp : SetUp program strata functions config schedule resources evaluation)
    (wellFormed : program.WellFormed) (universal : warrant.Universal)
    (honours : functions.Honours warrant) (fuel : Nat) (stratum : Stratum) :
    evaluation.MaintainsIn fuel (Machine.Warranted warrant (resources.workspace config schedule))
      (fun _ later => later.Warranted warrant (resources.workspace config schedule)) stratum := by
  have plans : ∀ plan ∈ (evaluation.fixpointContext fuel stratum).rules,
      plan.Warranted warrant resources.terms := by
    intro plan member
    obtain ⟨symbol, -, planMember⟩ := List.mem_flatMap.mp member
    exact setUp.warranted_plan wellFormed universal planMember
  have honours : (evaluation.fixpointContext fuel stratum).functions.Honours warrant := by
    change evaluation.functions.Honours warrant
    exact setUp.functions_eq ▸ honours
  refine (FixpointContext.maintains_warranted honours fun plan triggered => ?_).of_suits plans
  unfold FixpointContext.strategyOf at triggered
  split at triggered
  · exact plans plan (List.mem_of_mem_filter triggered)
  · cases triggered

/-- An evaluation has gone on from the one that was set up, and its stores are warranted. -/
structure ContinuesWarranted (warrant : Warrant) (start : Workspace) (evaluation later : Evaluation) :
    Prop where
  continues : evaluation.Continues later
  machine : later.machine.Warranted warrant start

/-- A run keeps the stores warranted, whether it ends or stops. -/
theorem SetUp.run_warranted
    (setUp : SetUp program strata functions config schedule resources evaluation)
    (wellFormed : program.WellFormed) (universal : warrant.Universal)
    (honours : functions.Honours warrant) (fuel : Nat)
    (before : ContinuesWarranted warrant (resources.workspace config schedule) evaluation later) :
    Leaves (run fuel) later
      (fun _ => ContinuesWarranted warrant (resources.workspace config schedule) evaluation)
      fun _ => ContinuesWarranted warrant (resources.workspace config schedule) evaluation := by
  have maintains : ∀ stratum ∈ later.strata, later.MaintainsIn fuel
      (Machine.Warranted warrant (resources.workspace config schedule))
      (fun _ last => last.Warranted warrant (resources.workspace config schedule)) stratum :=
    fun stratum _ =>
      before.continues.maintainsIn (setUp.maintains_warranted wellFormed universal honours fuel stratum)
  exact (run_maintains maintains before.machine).mono
    (fun _ _ done => ⟨before.continues.trans done.1, done.2⟩)
    fun _ _ done => ⟨before.continues.trans done.1, done.2⟩

end Evaluation

end Datalog
