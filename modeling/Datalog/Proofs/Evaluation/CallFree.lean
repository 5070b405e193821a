import Datalog.Proofs.Safety.Literals

/-!
# Plans that call nothing

The registry matters only where a term is a call.  A plan without calls runs in the same way whatever
functions are registered, so that it runs as if there were none.
-/

namespace Datalog

/-- No function is called in a term: it can be evaluated although none is registered. -/
abbrev PlanTerm.CallFree (plan : PlanTerm) : Prop :=
  plan.Callable {}

abbrev PlanTerm.CallFreeAll (plans : List PlanTerm) : Prop :=
  PlanTerm.CallableAll {} plans

def PlanLiteral.CallFree : PlanLiteral → Prop
  | .unify source pattern => source.CallFree ∧ pattern.CallFree
  | .disunify lhs rhs => lhs.CallFree ∧ rhs.CallFree
  | .scan atom | .absent atom => PlanTerm.CallFreeAll atom.args

structure RulePlan.CallFree (plan : RulePlan) : Prop where
  head : PlanTerm.CallFreeAll plan.head
  body : ∀ literal ∈ plan.body, literal.CallFree

theorem RulePlan.CallFree.args {plan : RulePlan} (callFree : plan.CallFree) {position : Nat}
    {atom : PlanAtom} (atPosition : plan.body[position]? = some (.scan atom)) :
    PlanTerm.CallFreeAll atom.args :=
  callFree.body _ (List.mem_of_getElem? atPosition)

def Task.CallFree : Task → Prop
  | .load .. => False
  | .evaluate plan | .scan plan .. | .trigger plan _ => plan.CallFree

variable (functions functions' : Registry)

/-! ## Terms -/

namespace PlanTerm

theorem not_callFree_call {function : String} {args : List PlanTerm} :
    ¬ (PlanTerm.call function args).CallFree := by
  rintro ⟨registered, -⟩
  cases registered

mutual

theorem eval_eq_of_callFree :
    (plan : PlanTerm) → plan.CallFree → plan.eval functions = plan.eval functions'
  | .slot number, _ => by simp only [eval]
  | .const id, _ => by simp only [eval]
  | .ctor name args, callFree => by
      simp only [eval]
      rw [evalList_eq_of_callFree args callFree]
  | .call _ _, callFree => absurd callFree not_callFree_call

theorem evalList_eq_of_callFree :
    (plans : List PlanTerm) → CallFreeAll plans →
      evalList functions plans = evalList functions' plans
  | [], _ => by simp only [evalList]
  | plan :: plans, callFree => by
      simp only [evalList]
      rw [eval_eq_of_callFree plan callFree.1, evalList_eq_of_callFree plans callFree.2]

end

mutual

theorem matchValue_eq_of_callFree :
    (plan : PlanTerm) → plan.CallFree → plan.matchValue functions = plan.matchValue functions'
  | .slot number, _ => by
      funext value
      simp only [matchValue]
  | .const id, _ => by
      funext value
      simp only [matchValue]
  | .ctor name args, callFree => by
      funext value
      simp only [matchValue]
      rw [matchList_eq_of_callFree args callFree]
  | .call _ _, callFree => absurd callFree not_callFree_call

theorem matchList_eq_of_callFree :
    (plans : List PlanTerm) → CallFreeAll plans →
      matchList functions plans = matchList functions' plans
  | [], _ => by
      funext values
      simp only [matchList]
  | plan :: plans, callFree => by
      funext values
      cases values with
      | nil => simp only [matchList]
      | cons value values =>
          simp only [matchList]
          rw [matchValue_eq_of_callFree plan callFree.1, matchList_eq_of_callFree plans callFree.2]

end

end PlanTerm

theorem matchColumns_eq_of_callFree (checkBound : Bool) {args : List PlanTerm}
    (callFree : PlanTerm.CallFreeAll args) (pattern : Pattern) (tuple : Tuple) :
    matchColumns functions checkBound args pattern tuple =
      matchColumns functions' checkBound args pattern tuple := by
  induction args generalizing pattern tuple with
  | nil => simp only [matchColumns]
  | cons arg args ih =>
      cases pattern with
      | nil => simp only [matchColumns]
      | cons binding pattern =>
          cases tuple with
          | nil => simp only [matchColumns]
          | cons value tuple =>
              simp only [matchColumns]
              rw [PlanTerm.matchValue_eq_of_callFree functions functions' arg callFree.1,
                ih callFree.2]

/-! ## Tasks -/

namespace TaskContext

/-- The same tasks with other functions. -/
def calling (context : TaskContext) (functions : Registry) : TaskContext :=
  { context with functions }

variable (context : TaskContext)

theorem lookup_eq_of_callFree {atom : PlanAtom} (callFree : PlanTerm.CallFreeAll atom.args) :
    context.lookup atom = (context.calling functions).lookup atom := by
  have bound : PlanTerm.CallFreeAll atom.boundArgs := by
    rw [atom.boundArgs_eq]
    exact callFree.keep _ _
  unfold lookup
  rw [PlanTerm.evalList_eq_of_callFree context.functions functions _ bound]
  rfl

theorem filter_eq_of_callFree {literal : PlanLiteral} (callFree : literal.CallFree) :
    context.filter literal = (context.calling functions).filter literal := by
  cases literal with
  | unify source pattern =>
      simp only [filter, calling]
      rw [PlanTerm.eval_eq_of_callFree context.functions functions source callFree.1,
        PlanTerm.matchValue_eq_of_callFree context.functions functions pattern callFree.2]
  | disunify lhs rhs =>
      simp only [filter, calling]
      rw [PlanTerm.eval_eq_of_callFree context.functions functions lhs callFree.1,
        PlanTerm.eval_eq_of_callFree context.functions functions rhs callFree.2]
  | absent atom =>
      simp only [filter]
      rw [context.lookup_eq_of_callFree functions callFree]
  | scan atom => simp only [filter]

theorem filterAll_eq_of_callFree {literals : List PlanLiteral}
    (callFree : ∀ literal ∈ literals, literal.CallFree) :
    context.filterAll literals = (context.calling functions).filterAll literals := by
  induction literals with
  | nil => simp only [filterAll]
  | cons literal literals ih =>
      obtain ⟨first, others⟩ := List.forall_mem_cons.mp callFree
      simp only [filterAll]
      rw [context.filter_eq_of_callFree functions first, ih others]

theorem report_eq_of_callFree {plan : RulePlan} (callFree : plan.CallFree) :
    context.report plan = (context.calling functions).report plan := by
  unfold report
  rw [PlanTerm.evalList_eq_of_callFree context.functions functions plan.head callFree.head]
  rfl

section Scans

variable {atom : PlanAtom} (callFree : PlanTerm.CallFreeAll atom.args) (continuation : TaskM Unit)

include callFree

theorem scanTuples_eq_of_callFree (tuples : List Tuple) :
    context.scanTuples atom continuation tuples =
      (context.calling functions).scanTuples atom continuation tuples := by
  induction tuples with
  | nil => simp only [scanTuples]
  | cons tuple tuples ih =>
      simp only [scanTuples, calling] at ih ⊢
      rw [ih, matchColumns_eq_of_callFree context.functions functions false callFree]

theorem scanRange_eq_of_callFree (chunks : Nat) (keys : KeyRange) :
    context.scanRange atom continuation chunks keys =
      (context.calling functions).scanRange atom continuation chunks keys := by
  have sameTuples := funext fun tuples =>
    context.scanTuples_eq_of_callFree functions callFree continuation tuples
  induction chunks generalizing keys with
  | zero => simp only [scanRange]
  | succ chunks ih =>
      unfold scanRange
      rw [sameTuples, funext ih]
      rfl

theorem scanView_eq_of_callFree (view : View) :
    context.scanView atom continuation view =
      (context.calling functions).scanView atom continuation view := by
  cases view with
  | array tuples => exact context.scanTuples_eq_of_callFree functions callFree continuation tuples
  | range keys count =>
      exact context.scanRange_eq_of_callFree functions callFree continuation _ keys

end Scans

theorem evalBody_eq_of_callFree {plan : RulePlan} (callFree : plan.CallFree)
    {body : List PlanLiteral} (bodyCallFree : ∀ literal ∈ body, literal.CallFree) :
    context.evalBody plan body = (context.calling functions).evalBody plan body := by
  induction body with
  | nil =>
      simp only [evalBody]
      exact context.report_eq_of_callFree functions callFree
  | cons literal body ih =>
      obtain ⟨first, others⟩ := List.forall_mem_cons.mp bodyCallFree
      cases literal with
      | scan atom =>
          have sameViews := funext fun view =>
            context.scanView_eq_of_callFree functions first
              ((context.calling functions).evalBody plan body) view
          simp only [evalBody]
          rw [context.lookup_eq_of_callFree functions first, ih others, sameViews]
      | unify | disunify | absent =>
          simp only [evalBody]
          rw [context.filter_eq_of_callFree functions first, ih others]

theorem evalBody_drop_eq_of_callFree {plan : RulePlan} (callFree : plan.CallFree) (position : Nat) :
    context.evalBody plan (plan.body.drop position) =
      (context.calling functions).evalBody plan (plan.body.drop position) :=
  context.evalBody_eq_of_callFree functions callFree fun literal member =>
    callFree.body literal (List.mem_of_mem_drop member)

theorem evaluate_eq_of_callFree {plan : RulePlan} (callFree : plan.CallFree) :
    context.evaluate plan = (context.calling functions).evaluate plan := by
  unfold evaluate
  congr 1
  funext _
  split
  · exact context.evalBody_eq_of_callFree functions callFree callFree.body
  · next position _ =>
      rw [context.filterAll_eq_of_callFree functions fun literal member =>
        callFree.body literal (List.mem_of_mem_take member)]
      congr 1
      funext success
      split
      · unfold scannedAtom
        split
        · next atom atPosition =>
            simp only [pure_bind]
            rw [context.lookup_eq_of_callFree functions (callFree.args atPosition)]
        · rfl
      · rfl

theorem scan_eq_of_callFree {plan : RulePlan} (callFree : plan.CallFree) (position : Nat)
    (substitution : Substitution) (view : View) :
    context.scan plan position substitution view =
      (context.calling functions).scan plan position substitution view := by
  unfold scan scannedAtom
  split
  · next atom atPosition =>
      simp only [pure_bind]
      congr 1
      funext parts
      unfold scanParts
      split
      · rfl
      · rw [context.evalBody_drop_eq_of_callFree functions callFree,
          context.scanView_eq_of_callFree functions (callFree.args atPosition)]
  · rfl

theorem trigger_eq_of_callFree {plan : RulePlan} (callFree : plan.CallFree) (tuple : Tuple) :
    context.trigger plan tuple = (context.calling functions).trigger plan tuple := by
  unfold trigger
  split
  · rfl
  · next position _ =>
      congr 1
      funext _
      rw [context.filterAll_eq_of_callFree functions fun literal member =>
        callFree.body literal (List.mem_of_mem_take member)]
      congr 1
      funext success
      split
      · unfold scannedAtom
        split
        · next atom atPosition =>
            simp only [pure_bind]
            rw [matchColumns_eq_of_callFree context.functions functions true (callFree.args atPosition),
              context.evalBody_drop_eq_of_callFree functions callFree]
            rfl
        · rfl
      · rfl

/-- A task that calls nothing runs in the same way whatever functions are registered. -/
theorem run_eq_of_callFree {task : Task} (callFree : task.CallFree) (workspace : Workspace) :
    context.run task workspace = (context.calling functions).run task workspace := by
  have sameSteps : context.steps task = (context.calling functions).steps task := by
    cases task with
    | load symbol facts => exact callFree.elim
    | evaluate plan => exact context.evaluate_eq_of_callFree functions callFree
    | scan plan position substitution view =>
        exact context.scan_eq_of_callFree functions callFree position substitution view
    | trigger plan tuple => exact context.trigger_eq_of_callFree functions callFree tuple
  unfold run
  rw [sameSteps]

end TaskContext

end Datalog
