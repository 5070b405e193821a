import Datalog.Proofs.Evaluation.LoadFailure
import Datalog.Proofs.Planning.Registered

/-!
# Which programs are accepted

A program that is accepted in rounds is accepted under all other settings, but for two reasons.  An
eager evaluation refuses rules in which the delta atom does not come first, which takes a negated atom
that is written before it.  And functions may look at the terms that have been interned before, so that
a base fact that was loaded under some settings fails under others.
-/

namespace Datalog

variable {program : Program} {functions : Registry} {config config' : Config}
  {schedule schedule' : Schedule} {strata : List Stratum} {evaluation : Evaluation}
  {resources : Planner.Resources}

/-! ## Variants -/

/-- A rule that can be ordered and planned. -/
structure DeltaRule.Acceptable (functions : Registry) (rule : DeltaRule) : Prop where
  orderable : rule.Orderable
  head_bound : ∀ name ∈ rule.head.vars, name ∈ rule.body.flatMap BodyLiteral.vars
  registered : rule.Registered functions

theorem RulePlan.PlansVariant.acceptable {plan : RulePlan} {variant : DeltaRule}
    (plans : plan.PlansVariant functions config resources variant) :
    (variant.prepared config).Acceptable functions := by
  have permuted := plans.ordered.permuted
  have sameCount := DeltaRule.varCount_congr plans.ordered.head_eq permuted
  obtain ⟨names, made⟩ := plans.made
  refine ⟨⟨plan.source.body, permuted, sameCount ▸ plans.ordered.evaluable⟩, fun name inHead => ?_,
    plans.ordered.registered_iff.mp made.registered⟩
  rw [← plans.ordered.head_eq] at inHead
  exact (permuted.flatMap_right BodyLiteral.vars).mem_iff.mp (plans.ordered.head_bound name inHead)

/-- A variant that can be planned in rounds can be planned with its calls isolated. -/
theorem DeltaRule.Acceptable.prepared {rule : Rule} {symbols : List RelationSymbol}
    {variant : DeltaRule} (acceptable : variant.Acceptable functions)
    (isVariant : variant ∈ variants rule symbols) (config : Config) :
    (variant.prepared config).Acceptable functions := by
  have registered := acceptable.registered.prepared config
  unfold DeltaRule.prepared at registered ⊢
  split at registered
  · next eager =>
      rw [if_pos eager]
      rcases unmarked_or_marks isVariant with unmarked | ⟨before, atom, after, marks, -⟩
      · have same : variant.isolateCalls = variant :=
          congrArg (DeltaRule.mk variant.head) (isolateBody_of_unmarked 0 unmarked)
        exact same.symm ▸ acceptable
      · exact ⟨marks.orderable_isolateCalls acceptable.orderable, fun name inHead =>
          marks.mem_vars_isolateCalls (acceptable.head_bound name inHead), registered⟩
  · next rounds =>
      rw [if_neg rounds]
      exact acceptable

namespace Evaluation

end Evaluation

namespace Sample

def blocked : RelationSymbol :=
  ⟨"blocked", 1⟩

/-- Returns its first argument if that has been interned before the second one, and fails otherwise. -/
def earlier : Function where
  apply store
    | [first, second] =>
        (if first < second then .ok first else .error (.message "interned later"), store)
    | _ => (.error (.message "expected 2 arguments"), store)
  extends_apply store args := by
    split <;> exact .refl store

end Sample

end Datalog
