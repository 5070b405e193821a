import Datalog.Proofs.Engine.Safety
import Datalog.Proofs.Evaluation.CallFree
import Datalog.Proofs.Semantics.Subterms

/-!
# Rules that call nothing

The plan of a rule without calls calls nothing either, so that it is safe whatever functions are
registered: a task that runs it cannot fail at all.
-/

namespace Datalog

/-! ## Planned terms -/

namespace PlanTerm

variable {store : TermStore} {names : List String}

mutual

theorem Represents.callFree : {plan : PlanTerm} → {term : Term} → plan.Represents store names term →
    term.containsCall = false → plan.CallFree
  | .slot _, _, _, _ | .const _, _, _, _ => trivial
  | .ctor _ args, _, represents, noCall => by
      obtain ⟨terms, rfl, all⟩ := represents
      exact RepresentsAll.callFree all noCall
  | .call _ _, _, represents, noCall => by
      obtain ⟨terms, rfl, -⟩ := represents
      cases noCall

theorem RepresentsAll.callFree : {plans : List PlanTerm} → {terms : List Term} →
    RepresentsAll store names plans terms → Term.containsCallList terms = false → CallFreeAll plans
  | [], _, _, _ => trivial
  | plan :: plans, _, all, noCall => by
      obtain ⟨term, rest, rfl, first, others⟩ := all
      obtain ⟨noCallHere, noCallThere⟩ := Bool.or_eq_false_iff.mp noCall
      exact ⟨Represents.callFree first noCallHere, RepresentsAll.callFree others noCallThere⟩

end

mutual

/-- A ground term that calls nothing is planned as a constant. -/
theorem Represents.exists_const : {plan : PlanTerm} → {term : Term} →
    plan.Represents store names term → plan.Folded → term.isGround = true →
      term.containsCall = false → ∃ id, plan = .const id
  | .slot _, _, represents, _, ground, _ => by
      obtain ⟨name, rfl, -⟩ := represents
      cases ground
  | .const id, _, _, _, _, _ => ⟨id, rfl⟩
  | .ctor _ _, _, represents, folded, ground, noCall => by
      obtain ⟨terms, rfl, all⟩ := represents
      obtain ⟨ids, constants⟩ := RepresentsAll.exists_consts all folded.2 ground noCall
      cases folded.1.symm.trans constants
  | .call _ _, _, represents, _, _, noCall => by
      obtain ⟨terms, rfl, -⟩ := represents
      cases noCall

theorem RepresentsAll.exists_consts : {plans : List PlanTerm} → {terms : List Term} →
    RepresentsAll store names plans terms → FoldedAll plans → Term.isGroundList terms = true →
      Term.containsCallList terms = false → ∃ ids, consts? plans = some ids
  | [], _, _, _, _, _ => ⟨[], rfl⟩
  | plan :: plans, _, all, folded, ground, noCall => by
      obtain ⟨term, rest, rfl, first, others⟩ := all
      obtain ⟨groundHere, groundThere⟩ := Bool.and_eq_true_iff.mp ground
      obtain ⟨noCallHere, noCallThere⟩ := Bool.or_eq_false_iff.mp noCall
      obtain ⟨id, rfl⟩ := Represents.exists_const first folded.1 groundHere noCallHere
      obtain ⟨ids, constants⟩ :=
        RepresentsAll.exists_consts others folded.2 groundThere noCallThere
      exact ⟨id :: ids, by simp [consts?, const?, constants]⟩

end

/-- A slot or a constant. -/
def isFlat : PlanTerm → Bool
  | .slot _ | .const _ => true
  | .ctor .. | .call .. => false

end PlanTerm

/-! ## Planned rules -/

namespace Planner

variable {context : Context} {state : State} {count : String → Nat} {bound : List String}

theorem Planned.callFree {functions : Registry} {plan : PlanTerm} {term : Term}
    (planned : Planned functions state plan term) (noCall : term.containsCall = false) :
    Planned {} state plan term :=
  { planned with callable := planned.represents.callFree noCall }

/-- A flat term that calls nothing gets a flat plan. -/
theorem Planned.isFlat {functions : Registry} {plan : PlanTerm} {term : Term}
    (planned : Planned functions state plan term) (flat : term.isFlat = true)
    (noCall : term.containsCall = false) : plan.isFlat = true := by
  rcases Bool.or_eq_true_iff.mp flat with isVar | ground
  · cases plan with
    | slot | const => rfl
    | ctor | call =>
        obtain ⟨terms, rfl, -⟩ := planned.represents
        cases isVar
  · obtain ⟨id, rfl⟩ := planned.represents.exists_const planned.folded ground noCall
    rfl

theorem PlannedAll.callFree {functions : Registry} {plans : List PlanTerm} {terms : List Term}
    (planned : PlannedAll functions state plans terms)
    (noCall : ∀ term ∈ terms, term.containsCall = false) : PlannedAll {} state plans terms :=
  { planned with
    callable := planned.represents.callFree (Term.containsCallList_eq_false.mpr noCall) }

theorem PlannedLiteral.callFree {planned : PlanLiteral} {literal : BodyLiteral}
    (plannedLiteral : PlannedLiteral context state count bound planned literal)
    (noCall : ∀ term ∈ literal.literal.terms, term.containsCall = false) :
    PlannedLiteral { context with functions := {} } state count bound planned literal := by
  unfold PlannedLiteral at plannedLiteral ⊢
  split at plannedLiteral
  · next literalEq =>
      simp only [literalEq, Literal.terms, List.forall_mem_cons] at noCall
      exact ⟨plannedLiteral.1.callFree noCall.1, plannedLiteral.2.callFree noCall.2.1⟩
  · next literalEq =>
      simp only [literalEq, Literal.terms, List.forall_mem_cons] at noCall
      split at plannedLiteral
      · next isBound =>
          rw [if_pos isBound]
          exact ⟨plannedLiteral.1.callFree noCall.1, plannedLiteral.2.callFree noCall.2.1⟩
      · next unbound =>
          rw [if_neg unbound]
          exact ⟨plannedLiteral.1.callFree noCall.2.1, plannedLiteral.2.callFree noCall.1⟩
  · next literalEq =>
      rw [literalEq] at noCall
      exact ⟨plannedLiteral.1,
        { plannedLiteral.2 with args := plannedLiteral.2.args.callFree noCall }⟩
  · next literalEq =>
      rw [literalEq] at noCall
      exact ⟨plannedLiteral.1,
        { plannedLiteral.2 with args := plannedLiteral.2.args.callFree noCall }⟩
  · exact plannedLiteral.elim

theorem PlannedBody.callFree {planned : List PlanLiteral} {body : List BodyLiteral}
    (plannedBody : PlannedBody context state count bound planned body)
    (noCall : ∀ literal ∈ body, ∀ term ∈ literal.literal.terms, term.containsCall = false) :
    PlannedBody { context with functions := {} } state count bound planned body := by
  induction body generalizing bound planned with
  | nil =>
      cases planned with
      | nil => trivial
      | cons => exact plannedBody.elim
  | cons literal body ih =>
      cases planned with
      | nil => exact plannedBody.elim
      | cons plan others =>
          obtain ⟨here, there⟩ := List.forall_mem_cons.mp noCall
          exact ⟨plannedBody.1.callFree here, ih plannedBody.2 there⟩

/-- What is planned without any registered function calls nothing. -/
theorem PlannedLiteral.callable {planned : PlanLiteral} {literal : BodyLiteral}
    (plannedLiteral : PlannedLiteral context state count bound planned literal)
    (nothing : context.functions = {}) : planned.CallFree := by
  unfold PlannedLiteral at plannedLiteral
  rw [nothing] at plannedLiteral
  split at plannedLiteral
  · exact ⟨plannedLiteral.1.callable, plannedLiteral.2.callable⟩
  · split at plannedLiteral
    · exact ⟨plannedLiteral.1.callable, plannedLiteral.2.callable⟩
    · exact ⟨plannedLiteral.1.callable, plannedLiteral.2.callable⟩
  · have args := plannedLiteral.2.args.callable
    rwa [nothing] at args
  · have args := plannedLiteral.2.args.callable
    rwa [nothing] at args
  · exact plannedLiteral.elim

theorem PlannedBody.callable {planned : List PlanLiteral} {body : List BodyLiteral}
    (plannedBody : PlannedBody context state count bound planned body)
    (nothing : context.functions = {}) : ∀ plan ∈ planned, plan.CallFree := by
  induction body generalizing bound planned with
  | nil =>
      cases planned with
      | nil => simp
      | cons => exact plannedBody.elim
  | cons literal body ih =>
      cases planned with
      | nil => exact plannedBody.elim
      | cons plan others =>
          exact List.forall_mem_cons.mpr ⟨plannedBody.1.callable nothing, ih plannedBody.2⟩

end Planner

namespace RulePlan.Safe

variable {functions : Registry} {origin : RulePlan.Origin} {plan : RulePlan}

/-- The plan of a rule without calls is safe although no function is registered. -/
theorem alone (safe : plan.Safe functions origin) (noCall : plan.source.toRule.CallFree) :
    plan.Safe {} origin := by
  have head := safe.made.head.callFree fun term member => noCall term (List.mem_append_left _ member)
  have body := safe.made.body.callFree fun literal member =>
    noCall.literal (DeltaRule.mem_toRule_body.mpr ⟨literal, member, rfl⟩)
  exact { safe with made := { safe.made with head := head, body := body } }

theorem callFree (safe : plan.Safe {} origin) : plan.CallFree :=
  ⟨safe.made.head.callable, safe.made.body.callable rfl⟩

end RulePlan.Safe

/-- A task that is safe without any registered function calls nothing. -/
theorem Task.Safe.callFree {task : Task} (safe : task.Safe {}) : task.CallFree := by
  cases task with
  | load symbol facts => exact safe
  | evaluate plan =>
      obtain ⟨origin, planSafe⟩ := safe
      exact planSafe.callFree
  | scan plan position substitution view =>
      obtain ⟨origin, planSafe, -⟩ := safe
      exact planSafe.callFree
  | trigger plan tuple =>
      obtain ⟨⟨⟨origin, planSafe⟩, -⟩, -⟩ := safe
      exact planSafe.callFree

/-! ## Variants -/

namespace DeltaRule

theorem isolateArgs_of_callFree (next : Nat) {args : List Term}
    (noCall : ∀ arg ∈ args, arg.containsCall = false) : isolateArgs next args = (args, [], next) := by
  induction args with
  | nil => rfl
  | cons arg args ih =>
      obtain ⟨here, there⟩ := List.forall_mem_cons.mp noCall
      rw [isolateArgs_cons_other next args (by simp [here]), ih there]

theorem isolateBody_of_callFree (next : Nat) {body : List BodyLiteral}
    (noCall : ∀ literal ∈ body, ∀ term ∈ literal.literal.terms, term.containsCall = false) :
    isolateBody next body = body := by
  induction body with
  | nil => rfl
  | cons first body ih =>
      obtain ⟨here, there⟩ := List.forall_mem_cons.mp noCall
      by_cases marked : ∃ atom, first = { literal := .predicate atom, delta := true }
      · obtain ⟨atom, rfl⟩ := marked
        have args : ∀ arg ∈ atom.args, arg.containsCall = false := here
        rw [isolateBody_cons_marked, isolateArgs_of_callFree next args, ih there]
        rfl
      · rw [isolateBody_cons_other next body fun atom same => marked ⟨atom, same⟩, ih there]

/-- Where nothing is called, there is nothing to isolate. -/
theorem isolateCalls_of_callFree {rule : DeltaRule} (noCall : rule.toRule.CallFree) :
    rule.isolateCalls = rule := by
  unfold isolateCalls
  rw [isolateBody_of_callFree 0 fun literal member =>
    noCall.literal (mem_toRule_body.mpr ⟨literal, member, rfl⟩)]

theorem prepared_of_callFree {rule : DeltaRule} (noCall : rule.toRule.CallFree) (config : Config) :
    rule.prepared config = rule := by
  unfold prepared
  split
  · exact isolateCalls_of_callFree noCall
  · rfl

end DeltaRule

/-- A plan evaluates the literals of its rule in some order. -/
theorem RulePlan.PlansVariant.toRule_of_callFree {functions : Registry} {config : Config}
    {resources : Planner.Resources} {plan : RulePlan} {variant : DeltaRule} {rule : Rule}
    {symbols : List RelationSymbol} (plans : plan.PlansVariant functions config resources variant)
    (isVariant : variant ∈ DeltaRule.variants rule symbols) (noCall : rule.CallFree) :
    plan.source.toRule.head = rule.head ∧ plan.source.toRule.body.Perm rule.body := by
  have sameRule := DeltaRule.toRule_of_mem_variants isVariant
  have ordered := plans.ordered
  rw [DeltaRule.prepared_of_callFree (sameRule ▸ noCall)] at ordered
  exact ⟨plans.head_eq isVariant, sameRule ▸ ordered.permuted.map _⟩

namespace Evaluation

variable {program : Program} {functions : Registry} {config : Config} {schedule : Schedule}
  {strata : List Stratum} {resources : Planner.Resources} {evaluation : Evaluation}
  {stratum : Stratum}

/-- The plans of a stratum whose rules call nothing are safe without any registered function. -/
theorem SetUp.safe_of_callFree
    (setUp : SetUp program strata functions config schedule resources evaluation)
    (layers : program.Layers strata) (wellFormed : program.WellFormed)
    (noCall : ∀ rule ∈ program.rules, rule.CallFree) (member : stratum ∈ strata) {plan : RulePlan}
    (planMember : plan ∈ stratum.symbols.flatMap evaluation.plansFor) :
    (∃ origin, plan.Safe {} origin) ∧
      (config.eager = true → plan.source.isDeltaFirst = true) := by
  obtain ⟨⟨origin, safe⟩, deltaFirst⟩ := setUp.safe layers wellFormed member planMember
  obtain ⟨rule, ruleMember, variant, isVariant, plans⟩ :=
    setUp.plan_of_mem layers.separate member planMember
  have ruleNoCall := noCall rule (Program.mem_rulesOf.mp ruleMember).1
  obtain ⟨headEq, permuted⟩ := plans.toRule_of_callFree isVariant ruleNoCall
  exact ⟨⟨origin, safe.alone (ruleNoCall.of_perm headEq permuted)⟩, deltaFirst⟩

end Evaluation

end Datalog
