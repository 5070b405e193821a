import Datalog.Proofs.Engine.Strata
import Datalog.Proofs.Evaluation.Upkeep

/-!
# What a run maintains

A run changes the pool, the stores, the statistics and the log of an evaluation and nothing else.  A
condition on the pool and the stores that every stratum maintains holds whenever a run has ended or
stopped.
-/

namespace Datalog

namespace Evaluation

variable {evaluation start later : Evaluation} {holds : Machine → Prop}
  {stopped : Stop → Machine → Prop} {stratum : Stratum}

/-- Running changes the pool, the stores, the statistics and the log. -/
structure Continues (start later : Evaluation) : Prop where
  config_eq : later.config = start.config
  functions_eq : later.functions = start.functions
  schedule_eq : later.schedule = start.schedule
  relations_eq : later.relations = start.relations
  strata_eq : later.strata = start.strata
  rules_eq : later.rules = start.rules
  query_eq : later.query = start.query

theorem Continues.refl (start : Evaluation) : start.Continues start :=
  ⟨rfl, rfl, rfl, rfl, rfl, rfl, rfl⟩

theorem Continues.trans {middle : Evaluation} (left : start.Continues middle)
    (right : middle.Continues later) : start.Continues later where
  config_eq := right.config_eq.trans left.config_eq
  functions_eq := right.functions_eq.trans left.functions_eq
  schedule_eq := right.schedule_eq.trans left.schedule_eq
  relations_eq := right.relations_eq.trans left.relations_eq
  strata_eq := right.strata_eq.trans left.strata_eq
  rules_eq := right.rules_eq.trans left.rules_eq
  query_eq := right.query_eq.trans left.query_eq

/-- The strata are evaluated with the same rules. -/
theorem Continues.context_eq (continues : start.Continues later) (fuel : Nat) (stratum : Stratum) :
    later.fixpointContext fuel stratum = start.fixpointContext fuel stratum := by
  have plansEq : later.plansFor = start.plansFor := by
    funext symbol
    simp only [plansFor, continues.rules_eq]
  simp only [fixpointContext, continues.config_eq, continues.functions_eq, continues.schedule_eq,
    plansEq]

/-- With its rules a stratum of an evaluation maintains a condition. -/
def MaintainsIn (evaluation : Evaluation) (fuel : Nat) (holds : Machine → Prop)
    (stopped : Stop → Machine → Prop) (stratum : Stratum) : Prop :=
  let context := evaluation.fixpointContext fuel stratum
  context.Maintains (context.strategyOf evaluation.config.eager) (· ∈ context.rules) holds stopped

theorem Continues.maintainsIn (continues : start.Continues later) {fuel : Nat}
    (maintains : start.MaintainsIn fuel holds stopped stratum) :
    later.MaintainsIn fuel holds stopped stratum := by
  unfold MaintainsIn
  rw [continues.context_eq, continues.config_eq]
  exact maintains

theorem runStratum_maintains {fuel : Nat} (maintains : start.MaintainsIn fuel holds stopped stratum)
    (held : holds start.machine) :
    Leaves (runStratum fuel stratum) start
      (fun _ later => start.Continues later ∧ holds later.machine)
      fun stop later => start.Continues later ∧ stopped stop later.machine := by
  have evaluated : Leaves
      (if start.config.eager then
        (start.fixpointContext fuel stratum).evaluateEagerly stratum.rank
      else
        (start.fixpointContext fuel stratum).evaluateRounds stratum.rank) start.machine
      (fun _ later => holds later) stopped := by
    unfold MaintainsIn FixpointContext.strategyOf at maintains
    split at maintains
    · next eager =>
        rw [if_pos eager]
        exact maintains.evaluateEagerly (fun _ member => member) stratum.rank held
    · next inRounds =>
        rw [if_neg inRounds]
        exact maintains.evaluateRounds (fun _ member => member) stratum.rank held
  unfold runStratum
  rw [leaves_bind, leaves_get]
  apply ((leaves_ofRunM evaluated).imp_stopped ?_).bind
  · rintro stop _ ⟨machine, rfl, ended⟩
    exact ⟨{ Continues.refl start with }, ended⟩
  · rintro stats _ ⟨machine, rfl, ended⟩
    exact ⟨{ Continues.refl start with }, ended⟩

theorem runStrata_maintains {fuel : Nat} {chosen : List Stratum}
    (maintains : ∀ stratum ∈ chosen, start.MaintainsIn fuel holds stopped stratum)
    (held : holds start.machine) :
    Leaves (runStrata fuel chosen) start
      (fun _ later => start.Continues later ∧ holds later.machine)
      fun stop later => start.Continues later ∧ stopped stop later.machine := by
  induction chosen generalizing start with
  | nil => exact ⟨.refl start, held⟩
  | cons stratum chosen ih =>
      obtain ⟨here, there⟩ := List.forall_mem_cons.mp maintains
      apply (runStratum_maintains here held).bind
      rintro stats middle ⟨continues, held⟩
      have others := ih (fun other member => continues.maintainsIn (there other member)) held
      apply (others.imp_stopped ?_).bind
      · rintro stop later ⟨continues', isStopped⟩
        exact ⟨continues.trans continues', isStopped⟩
      · rintro stats later ⟨continues', held⟩
        exact ⟨continues.trans continues', held⟩

/-- A run maintains what all of its strata maintain. -/
theorem run_maintains {fuel : Nat}
    (maintains : ∀ stratum ∈ start.strata, start.MaintainsIn fuel holds stopped stratum)
    (held : holds start.machine) :
    Leaves (run fuel) start (fun _ later => start.Continues later ∧ holds later.machine)
      fun stop later => start.Continues later ∧ stopped stop later.machine := by
  unfold run
  rw [leaves_bind, leaves_get]
  cases start.stats with
  | some stats => exact ⟨.refl start, held⟩
  | none =>
      apply (runStrata_maintains maintains held).bind
      rintro stats later ⟨continues, held⟩
      exact ⟨{ continues with }, held⟩

end Evaluation

end Datalog
