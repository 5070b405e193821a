import Datalog.Proofs.Planning.Acceptance
import Mathlib.Order.Bounds.Defs

/-!
# Least orders

Where a body is kept as written as far as possible, every place goes to the first literal that can be
evaluated.  Orders of a body are lists of its positions.  The order that is chosen is the first of all
evaluable orders, compared position by position: an order that starts with a later literal comes behind
it, and one that starts with an earlier literal is not evaluable.  Whatever the heuristic is, a body that
has been arranged is not arranged differently again.
-/

namespace Datalog

namespace JoinOrder

variable {optimization : Optimization} {count : String → Nat} {bound : List String}
  {body : List BodyLiteral} {literal : BodyLiteral} {others : List BodyLiteral}

instance EvaluableFrom.decidable (count : String → Nat) :
    (bound : List String) → (body : List BodyLiteral) → Decidable (EvaluableFrom count bound body)
  | _, [] => isTrue trivial
  | bound, literal :: body =>
      have := decidable count (bound ++ literal.vars) body
      inferInstanceAs (Decidable (_ ∧ _))

/-! ## What is chosen -/

/-- Of the literals that can be evaluated, the one that is chosen has the highest score. -/
theorem score_le_of_pick?_eq_some
    (picked : pick? optimization count bound body = some (literal, others)) :
    ∀ other ∈ body, isEvaluable count bound other.literal = true →
      score optimization bound other ≤ score optimization bound literal := by
  induction body generalizing literal others with
  | nil => simp
  | cons first body ih =>
      intro other member evaluable
      unfold pick? at picked
      split at picked
      · next noneBehind =>
          have unevaluable := isEvaluable_eq_false_of_pick?_eq_none noneBehind
          split at picked
          · cases picked
            rcases List.mem_cons.mp member with rfl | behind
            · exact Nat.le_refl _
            · simp [unevaluable other behind] at evaluable
          · cases picked
      · next best rest bestPicked =>
          split at picked
          · next better =>
              cases picked
              have highest := of_decide_eq_true (Bool.and_eq_true_iff.mp better).2
              rcases List.mem_cons.mp member with rfl | behind
              · exact Nat.le_refl _
              · exact (ih bestPicked other behind evaluable).trans highest
          · next notBetter =>
              cases picked
              rcases List.mem_cons.mp member with rfl | behind
              · simp only [evaluable, Bool.true_and, decide_eq_true_eq] at notBetter
                omega
              · exact ih bestPicked other behind evaluable

/-- The first literal is chosen if none behind it that can be evaluated has a higher score. -/
theorem pick?_cons_of_highest (evaluable : isEvaluable count bound literal.literal = true)
    (highest : ∀ other ∈ others, isEvaluable count bound other.literal = true →
      score optimization bound other ≤ score optimization bound literal) :
    pick? optimization count bound (literal :: others) = some (literal, others) := by
  unfold pick?
  cases picked : pick? optimization count bound others with
  | none => simp [evaluable]
  | some choice =>
      obtain ⟨best, rest⟩ := choice
      obtain ⟨permuted, bestEvaluable⟩ := pick?_eq_some picked
      have notHigher := highest best (permuted.mem_iff.mp List.mem_cons_self) bestEvaluable
      simp [evaluable, notHigher]

theorem score_asWritten (bound : List String) (literal : BodyLiteral) :
    score .asWritten bound literal = 0 := by
  unfold score
  cases literal.literal <;> rfl

/-- As written, the literal that is chosen is the first that can be evaluated. -/
theorem exists_append_of_pick?_asWritten
    (picked : pick? .asWritten count bound body = some (literal, others)) :
    ∃ front back, body = front ++ literal :: back ∧ others = front ++ back ∧
      ∀ earlier ∈ front, isEvaluable count bound earlier.literal = false := by
  induction body generalizing literal others with
  | nil => simp [pick?] at picked
  | cons first body ih =>
      cases evaluable : isEvaluable count bound first.literal with
      | true =>
          rw [pick?_cons_of_highest evaluable fun other _ _ => by simp [score_asWritten]] at picked
          cases picked
          exact ⟨[], _, rfl, rfl, by simp⟩
      | false =>
          unfold pick? at picked
          split at picked
          · simp [evaluable] at picked
          · next best rest bestPicked =>
              simp only [evaluable, Bool.false_and, Bool.false_eq_true, if_false] at picked
              cases picked
              obtain ⟨front, back, rfl, rfl, unevaluable⟩ := ih bestPicked
              refine ⟨first :: front, back, rfl, rfl, ?_⟩
              rintro earlier (_ | ⟨_, member⟩)
              · exact evaluable
              · exact unevaluable earlier member

/-! ## What is arranged -/

/-- A body that has been arranged is arranged in the same way again. -/
theorem arrangeFrom_arranged {places : Nat} {arranged : List BodyLiteral}
    (enough : body.length = places)
    (arrangedEq : arrangeFrom optimization count places bound body = some arranged) :
    arrangeFrom optimization count places bound arranged = some arranged := by
  induction places generalizing bound body arranged with
  | zero =>
      obtain rfl : [] = arranged := by simpa [arrangeFrom] using arrangedEq
      rfl
  | succ places ih =>
      unfold arrangeFrom at arrangedEq
      split at arrangedEq
      · cases arrangedEq
      · next literal others picked =>
          obtain ⟨rest, restEq, rfl⟩ := Option.map_eq_some_iff.mp arrangedEq
          obtain ⟨permuted, evaluable⟩ := pick?_eq_some picked
          have length : others.length = places := by
            have := permuted.length_eq
            simp only [List.length_cons] at this
            omega
          have restPermuted := (arrangeFrom_eq_some length restEq).1
          have first : pick? optimization count bound (literal :: rest) = some (literal, rest) := by
            apply pick?_cons_of_highest evaluable
            intro other member
            apply score_le_of_pick?_eq_some picked
            exact permuted.mem_iff.mp (List.mem_cons_of_mem _ (restPermuted.mem_iff.mp member))
          unfold arrangeFrom
          simp only [first, ih length restEq, Option.map_some]

/-- A body that can be evaluated as it is written stays as it is written. -/
theorem EvaluableFrom.arrangeFrom_asWritten {places : Nat}
    (evaluable : EvaluableFrom count bound body) (enough : body.length = places) :
    arrangeFrom .asWritten count places bound body = some body := by
  induction body generalizing bound places with
  | nil =>
      subst enough
      rfl
  | cons first body ih =>
      subst enough
      have chosen : pick? .asWritten count bound (first :: body) = some (first, body) :=
        pick?_cons_of_highest evaluable.1 fun other _ _ => by simp [score_asWritten]
      rw [List.length_cons, arrangeFrom]
      simp only [chosen, ih evaluable.2 rfl, Option.map_some]

/-- An order comes no later than another order of the same increasing positions if the other starts with
none of the positions before its first, and, where both start alike, its rest comes no later. -/
theorem cons_le_of_perm {before after order other : List Nat} {first : Nat}
    (increasing : (before ++ first :: after).Pairwise (· < ·))
    (permuted : other.Perm (before ++ first :: after))
    (notBefore : ∀ head ∈ other.head?, head ∉ before)
    (behind : ∀ tail, other = first :: tail → tail.Perm (before ++ after) → order ≤ tail) :
    first :: order ≤ other := by
  cases other with
  | nil => simpa using permuted.length_eq
  | cons head tail =>
      have member : head ∈ before ++ first :: after := permuted.mem_iff.mp List.mem_cons_self
      rcases List.mem_append.mp member with earlier | later
      · exact absurd earlier (notBefore head rfl)
      · rcases List.mem_cons.mp later with rfl | after'
        · exact List.cons_le_cons _ (behind tail rfl (permuted.trans List.perm_middle).cons_inv)
        · have less : first < head :=
            List.rel_of_pairwise_cons (List.pairwise_append.mp increasing).2.1 after'
          exact le_of_lt (List.Lex.rel less)

/-- Of all evaluable orders of increasing positions, the one that is arranged is the least. -/
theorem exists_least_of_arrangeFrom_asWritten (literalAt : Nat → BodyLiteral) {positions : List Nat}
    {places : Nat} {arranged : List BodyLiteral} (increasing : positions.Pairwise (· < ·))
    (enough : positions.length = places)
    (arrangedEq : arrangeFrom .asWritten count places bound (positions.map literalAt) =
      some arranged) :
    ∃ order : List Nat, order.Perm positions ∧ order.map literalAt = arranged ∧
      ∀ other : List Nat, other.Perm positions →
        EvaluableFrom count bound (other.map literalAt) → order ≤ other := by
  induction places generalizing bound positions arranged with
  | zero =>
      obtain rfl := List.length_eq_zero_iff.mp enough
      obtain rfl : [] = arranged := by simpa [arrangeFrom] using arrangedEq
      exact ⟨[], .refl _, rfl, fun other permuted _ => permuted.eq_nil.ge⟩
  | succ places ih =>
      unfold arrangeFrom at arrangedEq
      split at arrangedEq
      · cases arrangedEq
      · next literal others picked =>
          obtain ⟨rest, restEq, rfl⟩ := Option.map_eq_some_iff.mp arrangedEq
          obtain ⟨front, back, split, rfl, unevaluable⟩ := exists_append_of_pick?_asWritten picked
          obtain ⟨before, behind, rfl, rfl, splitBehind⟩ := List.map_eq_append_iff.mp split
          obtain ⟨first, after, rfl, rfl, rfl⟩ := List.map_eq_cons_iff.mp splitBehind
          have length : (before ++ after).length = places := by
            simp only [List.length_append, List.length_cons] at enough ⊢
            omega
          have increasingBehind : (before ++ after).Pairwise (· < ·) :=
            increasing.sublist (List.Sublist.append_left (List.sublist_cons_self first after) before)
          rw [← List.map_append] at restEq
          obtain ⟨order, permuted, rfl, least⟩ := ih increasingBehind length restEq
          refine ⟨first :: order, (permuted.cons first).trans List.perm_middle.symm, rfl, ?_⟩
          intro other otherPermuted evaluable
          refine cons_le_of_perm increasing otherPermuted ?_ ?_
          · -- What stands before the literal that was chosen cannot be evaluated first.
            rintro head isHead earlier
            obtain ⟨tail, rfl⟩ := List.head?_eq_some_iff.mp isHead
            have := unevaluable _ (List.mem_map_of_mem earlier)
            simp [evaluable.1] at this
          · rintro tail rfl tailPermuted
            exact least tail tailPermuted evaluable.2

end JoinOrder

namespace DeltaRule

variable {rule : DeltaRule}

def literalsAt (rule : DeltaRule) (order : List Nat) : List BodyLiteral :=
  order.map fun position => rule.body[position]?.getD default

/-- Every position of the body occurs once in the order, and every literal can be evaluated after those
before it. -/
structure IsEvaluableOrder (rule : DeltaRule) (order : List Nat) : Prop where
  permuted : order.Perm (List.range rule.body.length)
  evaluable : JoinOrder.EvaluableFrom rule.varCount [] (rule.literalsAt order)

/-- A rule is made with a given body if that gives a value to every variable of the head, and refused
otherwise. -/
structure IsMadeWith (rule : DeltaRule) (body : List BodyLiteral)
    (answer : Except SetupError DeltaRule) : Prop where
  of_bound : (∀ name ∈ rule.head.vars, name ∈ rule.body.flatMap BodyLiteral.vars) →
    answer = .ok { rule with body }
  of_unbound : (∃ name ∈ rule.head.vars, name ∉ rule.body.flatMap BodyLiteral.vars) →
    ∃ names, rule.LeavesUnbound names ∧ answer = .error (.unboundHeadVariables names rule)

theorem literalsAt_range (rule : DeltaRule) :
    rule.literalsAt (List.range rule.body.length) = rule.body := by
  apply List.ext_getElem
  · simp [literalsAt]
  · intro position _ inside
    simp [literalsAt, inside]

theorem IsEvaluableOrder.orderable {order : List Nat} (isOrder : rule.IsEvaluableOrder order) :
    rule.Orderable := by
  refine ⟨rule.literalsAt order, ?_, isOrder.evaluable⟩
  have permuted := isOrder.permuted.map fun position => rule.body[position]?.getD default
  exact permuted.trans (.of_eq rule.literalsAt_range)

/-- A body that was arranged as written is in the least evaluable order. -/
theorem exists_isLeast_of_arrange {body : List BodyLiteral}
    (arranged : JoinOrder.arrange .asWritten rule.varCount rule.body = some body) :
    ∃ order, IsLeast {other | rule.IsEvaluableOrder other} order ∧ rule.literalsAt order = body := by
  have evaluable := (JoinOrder.arrangeFrom_eq_some rfl arranged).2
  have atRange : JoinOrder.arrangeFrom .asWritten rule.varCount rule.body.length []
      (rule.literalsAt (List.range rule.body.length)) = some body := by
    rwa [literalsAt_range]
  obtain ⟨order, permuted, same, least⟩ := JoinOrder.exists_least_of_arrangeFrom_asWritten _
    List.pairwise_lt_range List.length_range atRange
  have sameBody : rule.literalsAt order = body := same
  refine ⟨order, ⟨⟨permuted, sameBody ▸ evaluable⟩, ?_⟩, sameBody⟩
  exact fun other isOther => least other isOther.permuted isOther.evaluable

theorem isMadeWith_ordered {optimization : Optimization} {body : List BodyLiteral}
    (arranged : JoinOrder.arrange optimization rule.varCount rule.body = some body) :
    rule.IsMadeWith body (rule.ordered optimization) := by
  have leaves := leavesUnbound_unboundHeadVariables rule
  constructor
  · intro headBound
    have none : rule.unboundHeadVariables = [] := by
      apply List.eq_nil_iff_forall_not_mem.mpr
      intro name listed
      obtain ⟨inHead, absent⟩ := (leaves.mem_iff name).mp listed
      exact absent (headBound name inHead)
    simp only [ordered, arranged, none]
  · rintro ⟨name, unbound⟩
    have listed := (leaves.mem_iff name).mpr unbound
    refine ⟨_, leaves, ?_⟩
    cases missing : rule.unboundHeadVariables with
    | nil => simp [missing] at listed
    | cons name names => simp only [ordered, arranged, missing]

/-- A rule that was made is one whose body was arranged and binds the head. -/
theorem arrange_of_ordered {optimization : Optimization} {made : DeltaRule}
    (madeEq : rule.ordered optimization = .ok made) :
    JoinOrder.arrange optimization rule.varCount rule.body = some made.body ∧
      rule.unboundHeadVariables = [] ∧ made.head = rule.head := by
  unfold ordered at madeEq
  split at madeEq
  · cases madeEq
  · next body arranged =>
      split at madeEq
      · next none =>
          cases madeEq
          exact ⟨arranged, none, rfl⟩
      · cases madeEq

/-- What arranges the body of a rule that was made as it is makes the same rule again. -/
theorem ordered_made {optimization again : Optimization} {made : DeltaRule}
    (madeEq : rule.ordered optimization = .ok made)
    (arranged : JoinOrder.arrange again made.varCount made.body = some made.body) :
    made.ordered again = .ok made := by
  apply (isMadeWith_ordered arranged).of_bound
  exact (orderedFrom_of_ordered madeEq).head_bound

/-- As written, the literals of a body are put into the least of all orders in which each can be
evaluated after those before it, so a body that can be evaluated as it is written is left alone.  A rule
that has been made is made again without a change, with the same heuristic or as written. -/
theorem ordered_asWritten_least (rule : DeltaRule)
    (orderable : ∃ order, rule.IsEvaluableOrder order) :
    (∃ order, IsLeast {other | rule.IsEvaluableOrder other} order ∧
      rule.IsMadeWith (rule.literalsAt order) (rule.ordered .asWritten)) ∧
    (JoinOrder.EvaluableFrom rule.varCount [] rule.body →
      rule.IsMadeWith rule.body (rule.ordered .asWritten)) ∧
    ∀ optimization made, rule.ordered optimization = .ok made →
      made.ordered optimization = .ok made ∧ made.ordered .asWritten = .ok made := by
  refine ⟨?_, ?_, ?_⟩
  · obtain ⟨some, isOrder⟩ := orderable
    obtain ⟨body, arranged⟩ := isOrder.orderable.exists_arrange .asWritten
    obtain ⟨order, least, rfl⟩ := exists_isLeast_of_arrange arranged
    exact ⟨order, least, isMadeWith_ordered arranged⟩
  · intro evaluable
    exact isMadeWith_ordered (evaluable.arrangeFrom_asWritten rfl)
  · intro optimization made madeEq
    have arranged := (arrange_of_ordered madeEq).1
    have orderedFrom := orderedFrom_of_ordered madeEq
    have sameCount : made.varCount = rule.varCount :=
      varCount_congr orderedFrom.head_eq orderedFrom.permuted
    constructor
    · apply ordered_made madeEq
      rw [JoinOrder.arrange, orderedFrom.permuted.length_eq, sameCount]
      exact JoinOrder.arrangeFrom_arranged rfl arranged
    · exact ordered_made madeEq (orderedFrom.evaluable.arrangeFrom_asWritten rfl)

end DeltaRule

namespace Sample

/-- A rule whose first literal can only be evaluated after its second. -/
def shiftingRule : DeltaRule where
  head := { symbol := ⟨"shifted", 1⟩, args := [.var "X"] }
  body := [
    { literal := .unification (.var "X") (.call "add" [.var "Y", .int 1]) false },
    { literal := .predicate { symbol := ⟨"number", 1⟩, args := [.var "Y"] } },
    { literal := .predicate { symbol := ⟨"switch", 0⟩, args := [] } }]

end Sample

namespace DeltaRule

theorem ordered_asWritten_least_sample :
    Sample.shiftingRule.IsEvaluableOrder [2, 1, 0] ∧
      ∃ order, IsLeast {other | Sample.shiftingRule.IsEvaluableOrder other} order ∧
        Sample.shiftingRule.ordered .asWritten =
          .ok { Sample.shiftingRule with body := Sample.shiftingRule.literalsAt order } := by
  have isOrder : Sample.shiftingRule.IsEvaluableOrder [2, 1, 0] := ⟨by decide, by decide⟩
  obtain ⟨⟨order, least, made⟩, -⟩ := ordered_asWritten_least Sample.shiftingRule ⟨_, isOrder⟩
  exact ⟨isOrder, order, least, made.of_bound (by decide)⟩

end DeltaRule

end Datalog
