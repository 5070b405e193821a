import Datalog.JoinOrder
import Datalog.Proofs.Semantics.Variants

/-!
# Evaluable orders

Arranging a body keeps its literals, and puts each of them after literals that give values to the
variables that it needs.
-/

namespace Datalog

namespace JoinOrder

/-- Every literal can be evaluated once some variables and those of the literals before it have
values. -/
def EvaluableFrom (count : String → Nat) : (bound : List String) → List BodyLiteral → Prop
  | _, [] => True
  | bound, literal :: body =>
      isEvaluable count bound literal.literal = true ∧
        EvaluableFrom count (bound ++ literal.vars) body

variable {optimization : Optimization} {count : String → Nat} {bound : List String}
  {body : List BodyLiteral}

theorem mem_of_isBound {term : Term} (isBound' : isBound bound term = true) {name : String}
    (member : name ∈ term.vars) : name ∈ bound := by
  have := List.all_eq_true.mp isBound' name member
  simpa using this

theorem mem_of_isMatchable {term : Term} (matchable : isMatchable bound term = true)
    {name : String} (member : name ∈ term.callVars) : name ∈ bound := by
  have := List.all_eq_true.mp matchable name member
  simpa using this

/-- What is chosen is evaluable, and nothing is lost. -/
theorem pick?_eq_some {literal : BodyLiteral} {others : List BodyLiteral}
    (picked : pick? optimization count bound body = some (literal, others)) :
    (literal :: others).Perm body ∧ isEvaluable count bound literal.literal = true := by
  induction body generalizing literal others with
  | nil => simp [pick?] at picked
  | cons first body ih =>
      unfold pick? at picked
      split at picked
      · split at picked
        · next evaluable =>
            cases picked
            exact ⟨.refl _, evaluable⟩
        · simp at picked
      · next best rest bestPicked =>
          obtain ⟨permuted, evaluable⟩ := ih bestPicked
          split at picked
          · next better =>
              cases picked
              exact ⟨.refl _, (Bool.and_eq_true_iff.mp better).1⟩
          · cases picked
            exact ⟨(List.Perm.swap _ _ _).trans (permuted.cons first), evaluable⟩

theorem arrangeFrom_eq_some {places : Nat} {arranged : List BodyLiteral}
    (enough : body.length = places)
    (arrangedEq : arrangeFrom optimization count places bound body = some arranged) :
    arranged.Perm body ∧ EvaluableFrom count bound arranged := by
  induction places generalizing bound body arranged with
  | zero =>
      obtain rfl := List.eq_nil_of_length_eq_zero enough
      obtain rfl : [] = arranged := by simpa [arrangeFrom] using arrangedEq
      exact ⟨.refl _, trivial⟩
  | succ places ih =>
      unfold arrangeFrom at arrangedEq
      split at arrangedEq
      · simp at arrangedEq
      · next literal others picked =>
          obtain ⟨rest, restEq, rfl⟩ := Option.map_eq_some_iff.mp arrangedEq
          obtain ⟨permuted, evaluable⟩ := pick?_eq_some picked
          have length : others.length = places := by
            have := permuted.length_eq
            simp only [List.length_cons] at this
            omega
          obtain ⟨restPermuted, restEvaluable⟩ := ih length restEq
          exact ⟨(restPermuted.cons literal).trans permuted, evaluable, restEvaluable⟩

end JoinOrder

namespace DeltaRule

/-- An ordered rule has the same literals in an evaluable order, and its body gives a value to every
variable of the head. -/
structure OrderedFrom (ordered rule : DeltaRule) : Prop where
  head_eq : ordered.head = rule.head
  permuted : ordered.body.Perm rule.body
  evaluable : JoinOrder.EvaluableFrom ordered.varCount [] ordered.body
  head_bound : ∀ name ∈ ordered.head.vars, name ∈ ordered.body.flatMap BodyLiteral.vars

theorem orderedFrom_of_ordered {rule ordered : DeltaRule} {optimization : Optimization}
    (orderedEq : rule.ordered optimization = .ok ordered) : ordered.OrderedFrom rule := by
  unfold DeltaRule.ordered at orderedEq
  split at orderedEq
  · cases orderedEq
  · next body arranged =>
      split at orderedEq
      · next none =>
          cases orderedEq
          obtain ⟨permuted, evaluable⟩ := JoinOrder.arrangeFrom_eq_some rfl arranged
          have sameCount : varCount { rule with body } = rule.varCount :=
            varCount_congr rfl permuted
          refine ⟨rfl, permuted, sameCount ▸ evaluable, fun name inHead => ?_⟩
          by_contra unbound
          have listed : name ∈ rule.unboundHeadVariables := by
            unfold unboundHeadVariables
            rw [(List.mergeSort_perm _ _).mem_iff, List.mem_filter, List.mem_eraseDups]
            refine ⟨inHead, ?_⟩
            rw [(permuted.flatMap_right BodyLiteral.vars).mem_iff] at unbound
            simpa using unbound
          simp [none] at listed
      · cases orderedEq

variable {meaning : Interpretation} {rule ordered : DeltaRule}

/-- An ordered rule derives what the rule derives. -/
theorem OrderedFrom.consequences_eq (orderedFrom : ordered.OrderedFrom rule)
    (positive : Bool → Model) (negative : Model) :
    ordered.consequences meaning positive negative = rule.consequences meaning positive negative :=
  consequences_congr orderedFrom.head_eq orderedFrom.permuted

end DeltaRule

end Datalog
